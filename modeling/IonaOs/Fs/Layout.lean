import IonaOs.Fs.Ionafs

/-!
# What a disk holds
-/

namespace IonaOs.Fs

open List hiding Disjoint
open Std Lib DiskBlock

variable {lossy : FromUtf8Lossy} {disk d d' : Disk sectorSize} {index old new : List FileEntry}
  {cache : ExtTreeMap String (List UInt8) compare} {e : FileEntry} {path : String}

/-! ## Entries -/

def PathOk (path : String) : Prop := path ≠ "" ∧ (utf8 path).length ≤ 47 ∧ 0 ∉ utf8 path

def FileEntry.extent (e : FileEntry) : Finset ℕ := Finset.Ico e.lba (e.lba + sectorsFor e.size)

structure EntryOk (nextLba : ℕ) (e : FileEntry) : Prop where
  name : PathOk e.name
  above : dataLba ≤ e.lba
  below : e.lba + sectorsFor e.size ≤ nextLba
  lba : e.lba < 2 ^ 64
  size : e.size < 2 ^ 64

def FileEntry.asLoaded (e : FileEntry) : FileEntry :=
  ⟨e.name, e.lba, e.size, 0o644, 0, 0, 0, 0, 0⟩

@[simp] theorem length_entryBytes (e : FileEntry) : (entryBytes e).length = 64 := by
  simp [entryBytes, (pad 48 ((utf8 e.name).take 47)).2]

variable {nextLba : ℕ}

theorem loadEntry_entryBytes (h : EntryOk nextLba e) :
    loadEntry lossy (entryBytes e) = some e.asLoaded := by
  obtain ⟨hne, hlen, hzero⟩ := h.name
  have hname := (pad 48 ((utf8 e.name).take 47)).2
  have hcut : (utf8 e.name).take 47 = utf8 e.name := take_of_length_le hlen
  have htext : (slice (entryBytes e) 0 48).takeWhile (· ≠ 0) = utf8 e.name := by
    rw [entryBytes, append_assoc, slice_append_left (by rw [hname]), slice_self hname, hcut,
      pad_val (by omega), takeWhile_append_of_pos]
    · have hnil : (replicate (48 - (utf8 e.name).length) (0 : UInt8)).takeWhile (· ≠ 0) = [] := by
        rw [takeWhile_replicate]
        rfl
      rw [hnil, append_nil]
    · intro b hb
      have : b ≠ 0 := fun hb0 => hzero (hb0 ▸ hb)
      simpa using this
  have hlba : slice (entryBytes e) 48 8 = leBytes 8 e.lba := by
    have hskip := slice_append_right (pad 48 ((utf8 e.name).take 47)).1
      (leBytes 8 e.lba ++ leBytes 8 e.size) 0 8
    rw [hname] at hskip
    rw [entryBytes, append_assoc, hskip, slice_append_left (by simp), slice_self (by simp)]
  have hsize : slice (entryBytes e) 56 8 = leBytes 8 e.size := by
    have hskip := slice_append_right
      ((pad 48 ((utf8 e.name).take 47)).1 ++ leBytes 8 e.lba) (leBytes 8 e.size) 0 8
    rw [length_append, hname, length_leBytes] at hskip
    rw [entryBytes, hskip, slice_self (by simp)]
  have hlba' : e.lba < 256 ^ 8 := h.lba
  have hsize' : e.size < 256 ^ 8 := h.size
  simp only [loadEntry, htext, hlba, hsize, lossy.decode_utf8, if_neg hne,
    leNat_leBytes hlba', leNat_leBytes hsize', FileEntry.asLoaded]

theorem loadEntry_zeros : loadEntry lossy (replicate 64 0) = none := by
  have hname : (slice (replicate 64 (0 : UInt8)) 0 48).takeWhile (· ≠ 0) = utf8 "" := rfl
  simp only [loadEntry, hname, lossy.decode_utf8, if_true]

/-! ## The slots of the index -/

/-- Slot `j` of the index on a disk. -/
def slotOn (disk : Disk sectorSize) (j : ℕ) : List UInt8 :=
  slice (disk (indexLba + j / 8)).1 (j % 8 * 64) 64

/-- Slot `j` of the index as it is written. -/
def slotBytes (index : List FileEntry) (j : ℕ) : List UInt8 :=
  (index[j]?.map entryBytes).getD (replicate 64 0)

variable {j : ℕ}

theorem slice_index (hj : j < 120) :
    slice (readBlocks disk indexLba 15) (j * 64) 64 = slotOn disk j := by
  have hoff : j * 64 = j / 8 * sectorSize + j % 8 * 64 := by simp only [sectorSize]; omega
  rw [hoff, slice_readBlocks (by omega) (by simp only [sectorSize]; omega), slotOn]

theorem slice_indexSector (hj : j < 120) (hfew : index.length ≤ 120) :
    slice (indexSector index (j / 8)).1 (j % 8 * 64) 64 = slotBytes index j := by
  have hlen : (index.flatMap entryBytes).length = index.length * 64 :=
    length_flatMap_const length_entryBytes index
  have hbytes : (indexBytes index).length = 15 * sectorSize :=
    (pad (15 * sectorSize) ((index.take 120).flatMap entryBytes)).2
  have hoff : j / 8 * sectorSize + j % 8 * 64 = j * 64 := by simp only [sectorSize]; omega
  have hsector : (indexSector index (j / 8)).1 =
      slice (indexBytes index) (j / 8 * sectorSize) sectorSize :=
    pad_of_length (length_slice (by rw [hbytes]; simp only [sectorSize]; omega))
  rw [hsector, slice_slice (by simp only [sectorSize]; omega), hoff, indexBytes,
    take_of_length_le hfew, pad_val (by rw [hlen]; simp only [sectorSize]; omega),
    slotBytes]
  cases hget : index[j]? with
  | some => exact slice_flatMap length_entryBytes hget _
  | none =>
    have hpast : index.length ≤ j := getElem?_eq_none_iff.mp hget
    obtain ⟨i, rfl⟩ := Nat.exists_eq_add_of_le hpast
    have hstart : (index.length + i) * 64 = (index.flatMap entryBytes).length + i * 64 := by
      rw [hlen]; ring
    rw [hstart, slice_append_right, hlen, slice_replicate (by simp only [sectorSize]; omega)]
    rfl

theorem loadEntry_slotBytes (h : ∀ e ∈ index, EntryOk nextLba e) (j : ℕ) :
    loadEntry lossy (slotBytes index j) = index[j]?.map FileEntry.asLoaded := by
  rw [slotBytes]
  cases hget : index[j]? with
  | none => exact loadEntry_zeros
  | some e => exact loadEntry_entryBytes (h e (mem_of_getElem? hget))

/-! ## Files -/

variable (disk : Disk sectorSize)

def Reflects (index : List FileEntry)
    (cache : ExtTreeMap String (List UInt8) compare) : Prop :=
  ∀ name data, cache[name]? = some data ↔ ∃ e ∈ index, e.name = name ∧ loadData disk e = data

def loadCache (index : List FileEntry) :
    ExtTreeMap String (List UInt8) compare :=
  index.foldl (fun cache e => cache.insert e.name (loadData disk e)) ∅

theorem getElem?_loadCache (index : List FileEntry) (name : String) :
    (loadCache disk index)[name]? = (index.reverse.find? (·.name = name)).map (loadData disk) := by
  induction index using reverseRecOn with
  | nil => simp [loadCache]
  | append_singleton _ e ih =>
    rw [loadCache, foldl_append, ← loadCache, foldl_cons, foldl_nil,
      ExtTreeMap.getElem?_insert, ih, reverse_append, reverse_singleton,
      singleton_append, find?_cons]
    by_cases hname : e.name = name
    · simp [hname]
    · simp [hname]

variable {disk}

theorem Reflects.loadCache_eq (h : Reflects disk index cache) : loadCache disk index = cache := by
  refine ExtTreeMap.ext_getElem? fun name => ?_
  rw [getElem?_loadCache]
  cases hfind : index.reverse.find? (·.name = name) with
  | some e =>
    have hname : e.name = name := by simpa using find?_some hfind
    have hmem : e ∈ index := mem_reverse.mp (mem_of_find?_eq_some hfind)
    exact ((h name _).mpr ⟨e, hmem, hname, rfl⟩).symm
  | none =>
    rw [Option.map_none]
    symm
    rw [Option.eq_none_iff_forall_ne_some]
    intro data hdata
    obtain ⟨e, hmem, hname, -⟩ := (h name data).mp hdata
    have := find?_eq_none.mp hfind e (mem_reverse.mpr hmem)
    simp [hname] at this

theorem loadData_congr (h : ∀ a ∈ e.extent, d a = d' a) : loadData d e = loadData d' e := by
  rw [loadData, loadData]
  congr 1
  refine flatMap_congr fun i hi => ?_
  rw [h _ (Finset.mem_Ico.mpr ⟨Nat.le_add_right _ _, by simpa using hi⟩)]

theorem Reflects.congr (h : Reflects d index cache)
    (hd : ∀ e ∈ index, ∀ a ∈ e.extent, d a = d' a) : Reflects d' index cache := by
  intro name data
  rw [h name data]
  refine exists_congr fun e => and_congr_right fun he => ?_
  rw [loadData_congr (hd e he)]

theorem Reflects.of_asLoaded {loaded : List FileEntry} (h : Reflects d index cache)
    (hmem : ∀ e, e ∈ loaded ↔ ∃ x ∈ index, x.asLoaded = e) : Reflects d loaded cache := by
  intro name data
  rw [h name data]
  constructor
  · rintro ⟨e, he, hname, hdata⟩
    exact ⟨e.asLoaded, (hmem _).mpr ⟨e, he, rfl⟩, hname, hdata⟩
  · rintro ⟨e, he, hname, hdata⟩
    obtain ⟨x, hx, rfl⟩ := (hmem e).mp he
    exact ⟨x, hx, hname, hdata⟩

/-! ## Mounting -/

variable {a : ℕ}

theorem recoverSlot_of_ne {slot : ℕ} (h : a ≠ journalLba + slot) : recoverSlot d slot a = d a := by
  simp only [recoverSlot]
  split
  · rfl
  · split
    · exact Disk.write_of_ne h
    · rfl

theorem recoverJournal_of_outside (h : a < journalLba ∨ dataLba ≤ a) :
    recoverJournal d a = d a := by
  have hmem : ∀ slot ∈ range journalSlots, slot < journalSlots := fun _ => mem_range.mp
  refine (along_iff_forall_mem.mpr hmem).invariant
    (I := fun d' : Disk sectorSize => d' a = d a) rfl ?_
  intro d' slot hd hslot
  rw [recoverSlot_of_ne, hd]
  simp only [journalLba, dataLba, journalSlots] at *
  omega

def numFilesOn (disk : Disk sectorSize) : ℕ := leNat (slice (disk 0).1 4 4)

def entriesOn (lossy : FromUtf8Lossy) (disk : Disk sectorSize) : List FileEntry :=
  (range (min (numFilesOn disk) 120)).filterMap fun j => loadEntry lossy (slotOn disk j)

theorem exec_loadSlot (fs : IonFs) {js : List ℕ} (hjs : ∀ j ∈ js, j < 120) :
    exec (IonFs.loadSlot lossy d (readBlocks d indexLba 15)) fs js =
      let es := js.filterMap fun j => loadEntry lossy (slotOn d j)
      { fs with
        index := fs.index ++ es
        nextLba := es.foldl (fun n e => max n (e.lba + e.size / sectorSize + 1)) fs.nextLba
        cache := es.foldl (fun cache e => cache.insert e.name (loadData d e)) fs.cache } := by
  induction js generalizing fs with
  | nil => simp
  | cons j _ ih =>
    rw [exec_cons, ih _ fun i hi => hjs i (mem_cons_of_mem _ hi), IonFs.loadSlot,
      slice_index (hjs j mem_cons_self)]
    cases hload : loadEntry lossy (slotOn d j) with
    | none | some e => simp [hload]

theorem slotOn_recoverJournal (hj : j < 120) : slotOn (recoverJournal d) j = slotOn d j := by
  rw [slotOn, recoverJournal_of_outside (.inl (by simp only [indexLba, journalLba]; omega)), slotOn]

theorem mount_eq (hmagic : leNat (slice (d 0).1 0 4) = magic) : mount lossy d =
      let es := entriesOn lossy d
      ⟨{ cache := loadCache (recoverJournal d) es
         index := es
         nextLba := es.foldl (fun n e => max n (e.lba + e.size / sectorSize + 1)) dataLba
         onDisk := true
         journalHead := leNat (slice (d 0).1 8 8) }, recoverJournal d⟩ := by
  have hrange : ∀ j ∈ range (min (leNat (slice (d 0).1 4 4)) 120), j < 120 := by
    intro j hj
    have := mem_range.mp hj
    omega
  have hentries : (range (min (leNat (slice (d 0).1 4 4)) 120)).filterMap
      (fun j => loadEntry lossy (slotOn (recoverJournal d) j)) = entriesOn lossy d :=
    filterMap_congr fun j hj => by rw [slotOn_recoverJournal (hrange j hj)]
  simp [mount, IonFs.initDisk, hmagic, exec_loadSlot _ hrange, hentries, IonFs.new, loadCache]

theorem mount_cache (hmagic : leNat (slice (d 0).1 0 4) = magic) (h : Reflects d index cache)
    (hdata : ∀ e ∈ index, dataLba ≤ e.lba)
    (hmem : ∀ e, e ∈ entriesOn lossy d ↔ ∃ x ∈ index, x.asLoaded = e) :
    (mount lossy d).fs.cache = cache := by
  rw [mount_eq hmagic]
  refine Reflects.loadCache_eq ((h.congr fun e he a ha => ?_).of_asLoaded hmem)
  have hge := (Finset.mem_Ico.mp ha).1
  exact (recoverJournal_of_outside (.inr ((hdata e he).trans hge))).symm

/-! ## Disks that hold a file system -/

structure Storable (nextLba : ℕ) (index : List FileEntry) : Prop where
  few : index.length ≤ 120
  entries : ∀ e ∈ index, EntryOk nextLba e

structure IndexOk (nextLba : ℕ) (index : List FileEntry) : Prop extends Storable nextLba index where
  apart : index.Pairwise fun e e' => e.name ≠ e'.name ∧ Disjoint e.extent e'.extent

structure Indexed (index : List FileEntry) (disk : Disk sectorSize) : Prop where
  magic : leNat (slice (disk 0).1 0 4) = magic
  numFiles : numFilesOn disk = index.length
  slots : ∀ j e, index[j]? = some e → slotOn disk j = entryBytes e

structure OnDisk (index : List FileEntry) (cache : ExtTreeMap String (List UInt8) compare)
    (disk : Disk sectorSize) : Prop extends Indexed index disk where
  reflects : Reflects disk index cache

theorem slice_magic (numFiles head : ℕ) (rest : List UInt8) (h : rest.length ≤ 496) :
    leNat (slice (pad sectorSize
      (leBytes 4 magic ++ leBytes 4 numFiles ++ leBytes 8 head ++ rest)).1 0 4) = magic := by
  rw [slice_pad (by simp [sectorSize]; omega) (by simp), append_assoc,
    append_assoc, slice_append_left (by simp), slice_self (by simp),
    leNat_leBytes (by decide)]

theorem slice_numFiles {numFiles : ℕ} (hn : numFiles < 2 ^ 32) (head : ℕ) (rest : List UInt8)
    (h : rest.length ≤ 496) :
    leNat (slice (pad sectorSize
      (leBytes 4 magic ++ leBytes 4 numFiles ++ leBytes 8 head ++ rest)).1 4 4) = numFiles := by
  have hskip := slice_append_right (leBytes 4 magic)
    (leBytes 4 numFiles ++ (leBytes 8 head ++ rest)) 0 4
  rw [length_leBytes] at hskip
  rw [slice_pad (by simp [sectorSize]; omega) (by simp; omega), append_assoc,
    append_assoc, hskip, slice_append_left (by simp), slice_self (by simp), leNat_leBytes hn]

theorem superblock_magic (numFiles head : ℕ) :
    leNat (slice (superblock numFiles head).1 0 4) = magic := by
  have := slice_magic numFiles head [] (by simp)
  rwa [append_nil] at this

variable {head : ℕ}

theorem superblock_numFiles {numFiles : ℕ} (h : numFiles < 2 ^ 32) :
    leNat (slice (superblock numFiles head).1 4 4) = numFiles := by
  have := slice_numFiles h head [] (by simp)
  rwa [append_nil] at this

theorem Indexed.entriesOn_eq (h : Indexed index d) (hok : Storable nextLba index) :
    entriesOn lossy d = index.map FileEntry.asLoaded := by
  have hload : ∀ j ∈ range index.length,
      loadEntry lossy (slotOn d j) = (index.map FileEntry.asLoaded)[j]? := by
    intro j hj
    have hget := getElem?_eq_getElem (mem_range.mp hj)
    rw [h.slots j _ hget, loadEntry_entryBytes (hok.entries _ (getElem_mem _)),
      getElem?_map, hget, Option.map_some]
  rw [entriesOn, h.numFiles, min_eq_left hok.few, filterMap_congr hload]
  have := filterMap_range_getElem? (index.map FileEntry.asLoaded)
  rwa [length_map] at this

theorem OnDisk.mount_cache (h : OnDisk index cache d) (hok : IndexOk nextLba index) :
    (mount lossy d).fs.cache = cache := by
  refine Fs.mount_cache h.magic h.reflects (fun e he => (hok.entries e he).above) fun e => ?_
  rw [h.entriesOn_eq hok.toStorable, mem_map]

/-! ### Writes -/

/-- A write that does not touch an index of the given length, nor a file below `bound`. -/
def Aside (bound numFiles : ℕ) (w : SectorWrite) : Prop :=
  (journalLba ≤ w.1 ∧ w.1 < dataLba) ∨ bound ≤ w.1 ∨ ∃ head, w = (0, superblock numFiles head)

theorem OnDisk.write {bound : ℕ} {w : SectorWrite} (h : OnDisk index cache d)
    (hok : IndexOk bound index) (hbound : dataLba ≤ bound) (hw : Aside bound index.length w) :
    OnDisk index cache (d.write w) := by
  have hextent : ∀ e ∈ index, ∀ a ∈ e.extent, dataLba ≤ a ∧ a < bound := by
    intro e he a ha
    have := Finset.mem_Ico.mp ha
    have := (hok.entries e he).above
    have := (hok.entries e he).below
    omega
  have hslot : ∀ j e, index[j]? = some e → indexLba + j / 8 < journalLba := by
    intro j e hj
    have hlen := (List.getElem?_eq_some_iff.mp hj).1
    have := hok.few
    simp only [indexLba, journalLba]
    omega
  obtain hw | ⟨head, rfl⟩ : (journalLba ≤ w.1 ∧ (w.1 < dataLba ∨ bound ≤ w.1)) ∨
      ∃ head, w = (0, superblock index.length head) := by
    obtain hw | hw | hw := hw
    · exact .inl ⟨hw.1, .inl hw.2⟩
    · exact .inl ⟨by simp only [journalLba, dataLba] at *; omega, .inr hw⟩
    · exact .inr hw
  · have hne : ∀ a < journalLba, d.write w a = d a := fun a ha => Disk.write_of_ne (by omega)
    have hzero := hne 0 (by decide)
    refine ⟨⟨by rw [hzero, h.magic], by rw [numFilesOn, hzero]; exact h.numFiles, ?_⟩, ?_⟩
    · intro j e hj
      rw [slotOn, hne _ (hslot j e hj)]
      exact h.slots j e hj
    · refine h.reflects.congr fun e he a ha => (Disk.write_of_ne ?_).symm
      have := hextent e he a ha
      omega
  · refine ⟨⟨?_, ?_, fun j e hj => ?_⟩, h.reflects.congr fun e he a ha => ?_⟩
    · rw [Disk.write_self, superblock_magic]
    · have := hok.few
      rw [numFilesOn, Disk.write_self, superblock_numFiles (by omega)]
    · rw [slotOn, Disk.write_of_ne (by simp only [indexLba]; omega)]
      exact h.slots j e hj
    · have := hextent e he a ha
      exact (Disk.write_of_ne (by simp only [dataLba] at this; simp only; omega)).symm

theorem OnDisk.exec_write {bound : ℕ} {ws : List SectorWrite} (h : OnDisk index cache d)
    (hok : IndexOk bound index) (hbound : dataLba ≤ bound)
    (hws : ∀ w ∈ ws, Aside bound index.length w) : OnDisk index cache (exec Disk.write d ws) :=
  (along_iff_forall_mem.mpr hws).invariant h fun _ _ hd hw => hd.write hok hbound hw

theorem slotOn_exec_indexSector {m : ℕ} (hfew : index.length ≤ 120) (hj : j < 120) :
    slotOn (exec Disk.write d (blocksAt indexLba m (indexSector index))) j =
      if j / 8 < m then slotBytes index j else slotOn d j := by
  split
  case isTrue h => rw [slotOn, exec_blocksAt_of_lt h, slice_indexSector hj hfew]
  case isFalse h =>
    rw [slotOn, exec_write_of_notMem fun w hw => ?_, slotOn]
    have := (mem_blocksAt hw).2
    omega

theorem exec_indexSector_of_outside {m : ℕ} (hm : m ≤ 15) (h : a = 0 ∨ journalLba ≤ a) :
    exec Disk.write d (blocksAt indexLba m (indexSector index)) a = d a := by
  refine exec_write_of_notMem fun w hw => ?_
  have := mem_blocksAt hw
  simp only [indexLba, journalLba] at *
  omega

def indexWrites (index : List FileEntry) (head : ℕ) : List SectorWrite :=
  blocksAt indexLba 15 (indexSector index) ++ [(0, superblock index.length head)]

theorem exec_indexWrites_of_outside (h : journalLba ≤ a) :
    exec Disk.write d (indexWrites index head) a = d a := by
  rw [indexWrites, exec_append, exec_cons, exec_nil,
    Disk.write_of_ne (by simp only [journalLba] at *; omega),
    exec_indexSector_of_outside le_rfl (.inr h)]

theorem indexed_exec_indexWrites (hfew : index.length ≤ 120) :
    Indexed index (exec Disk.write d (indexWrites index head)) := by
  rw [indexWrites, exec_append, exec_cons, exec_nil]
  refine ⟨by rw [Disk.write_self, superblock_magic], ?_, fun j e hj => ?_⟩
  · rw [numFilesOn, Disk.write_self, superblock_numFiles (by omega)]
  have hlen := (List.getElem?_eq_some_iff.mp hj).1
  have hslot := slotOn_exec_indexSector (d := d) (m := 15) hfew (j := j) (by omega)
  rw [if_pos (by omega), slotBytes, hj] at hslot
  rw [slotOn, Disk.write_of_ne (by simp only [indexLba]; omega)]
  exact hslot

theorem OnDisk.writeIndex {bound : ℕ} (hok : IndexOk bound index) (h : Reflects d index cache) :
    OnDisk index cache (exec Disk.write d (indexWrites index head)) := by
  refine ⟨indexed_exec_indexWrites hok.few, h.congr fun e he a ha => ?_⟩
  have hge := (hok.entries e he).above.trans (Finset.mem_Ico.mp ha).1
  exact (exec_indexWrites_of_outside (by simp only [journalLba, dataLba] at *; omega)).symm

end IonaOs.Fs
