import IonaOs.Fs.Layout

/-!
# Runs of the file system across remounts
-/

namespace IonaOs.Fs

open IonFs
open List hiding Disjoint getElem?_insert
open Std Lib ExtTreeMap

variable {lossy : FromUtf8Lossy} {disk d : Disk sectorSize} {index old new : List FileEntry}
  {cache : ExtTreeMap String (List UInt8) compare} {e : FileEntry} {path : String} {m : Mounted}
  {data : List UInt8}

/-- The limits of the disk format. -/
def FileOp.Fits (fs : IonFs) : FileOp → Prop
  | write _ path data =>
    PathOk path ∧ data.length < 2 ^ 64 ∧ (fs.cache.insert path data).size ≤ 120 ∧
      fs.nextLba + sectorsFor data.length + 1 < 2 ^ 64
  | delete _ => True
  | rename from' to' => from' ∈ fs.cache → from' ≠ to' → PathOk to' ∧ to' ∉ fs.cache

def Event.Fits (m : Mounted) : Event → Prop
  | .op o => o.Fits m.fs
  | .remount => True

/-- The index is well formed, and it and the disk tell what the cache holds. -/
structure Mounted.Valid (m : Mounted) : Prop where
  onDisk : m.fs.onDisk = true
  bound : dataLba ≤ m.fs.nextLba
  ok : IndexOk m.fs.nextLba m.fs.index
  size : m.fs.cache.size = m.fs.index.length
  holds : OnDisk m.fs.index m.fs.cache m.disk

/-! ## Mounting -/

theorem le_foldl_max (f : FileEntry → ℕ) (es : List FileEntry) (n : ℕ) :
    n ≤ es.foldl (fun n e => max n (f e)) n ∧
      ∀ e ∈ es, f e ≤ es.foldl (fun n e => max n (f e)) n := by
  induction es generalizing n with
  | nil => simp
  | cons e _ ih =>
    obtain ⟨hn, hes⟩ := ih (max n (f e))
    refine ⟨(le_max_left _ _).trans hn, fun e' he' => ?_⟩
    obtain rfl | he' := mem_cons.mp he'
    · exact (le_max_right _ _).trans hn
    · exact hes e' he'

theorem valid_mount_blank (h : leNat (slice (d 0).1 0 4) ≠ magic) : (mount lossy d).Valid := by
  have hrest : ((d 0).1.drop 16).length ≤ 496 := by
    rw [length_drop, (d 0).2]
    rfl
  simp only [mount, initDisk, if_pos h, new]
  refine ⟨rfl, le_rfl, ⟨⟨by simp, by simp⟩, by simp⟩, rfl, ⟨⟨?_, ?_, by simp⟩, by simp [Reflects]⟩⟩
  · dsimp only
    rw [Disk.write_self, slice_magic 0 0 _ hrest]
  · dsimp only
    rw [numFilesOn, Disk.write_self, slice_numFiles (by norm_num) 0 _ hrest]
    rfl

theorem Mounted.Valid.mount (h : m.Valid) : (mount lossy m.disk).Valid := by
  have hcache : (Fs.mount lossy m.disk).fs.cache = m.fs.cache := h.holds.mount_cache h.ok
  have hentries : entriesOn lossy m.disk = m.fs.index.map FileEntry.asLoaded :=
    h.holds.entriesOn_eq h.ok.toStorable
  have hmount : Fs.mount lossy m.disk = _ := mount_eq h.holds.magic
  have hnext := le_foldl_max (fun e => e.lba + e.size / sectorSize + 1)
    (m.fs.index.map FileEntry.asLoaded) dataLba
  rw [hentries] at hmount
  have hindex : (Fs.mount lossy m.disk).fs.index = m.fs.index.map FileEntry.asLoaded := by
    rw [hmount]
  have hdisk : (Fs.mount lossy m.disk).disk = recoverJournal m.disk := by rw [hmount]
  have hlow : ∀ a < journalLba, (Fs.mount lossy m.disk).disk a = m.disk a := by
    intro a ha
    rw [hdisk, recoverJournal_of_outside (.inl ha)]
  refine ⟨by rw [hmount], by rw [hmount]; exact hnext.1, ⟨⟨?_, ?_⟩, ?_⟩, ?_, ⟨⟨?_, ?_, ?_⟩, ?_⟩⟩
  · rw [hindex, length_map]
    exact h.ok.few
  · rw [hindex]
    intro e' he'
    obtain ⟨e, he, rfl⟩ := mem_map.mp he'
    have hok := h.ok.entries e he
    refine ⟨hok.name, hok.above, ?_, hok.lba, hok.size⟩
    have hle : e.lba + e.size / sectorSize + 1 ≤ (Fs.mount lossy m.disk).fs.nextLba := by
      rw [hmount]
      exact hnext.2 e.asLoaded he'
    have : sectorsFor e.size ≤ e.size / sectorSize + 1 := by
      simp only [sectorsFor, sectorSize]
      omega
    show e.lba + sectorsFor e.size ≤ _
    omega
  · rw [hindex, pairwise_map]
    exact h.ok.apart
  · rw [hcache, hindex, length_map]
    exact h.size
  · rw [hlow 0 (by decide)]
    exact h.holds.magic
  · rw [numFilesOn, hlow 0 (by decide), hindex, length_map]
    exact h.holds.numFiles
  · intro j e' hj
    rw [hindex, getElem?_map] at hj
    obtain ⟨e, hget, rfl⟩ := Option.map_eq_some_iff.mp hj
    have hlen := (List.getElem?_eq_some_iff.mp hget).1
    have := h.ok.few
    rw [slotOn, hlow _ (by simp only [indexLba, journalLba]; omega)]
    exact h.holds.slots j e hget
  · rw [hcache, hindex, hdisk]
    refine (h.holds.reflects.congr fun e he a ha => ?_).of_asLoaded fun e => mem_map
    have hge := (Finset.mem_Ico.mp ha).1
    exact (recoverJournal_of_outside (.inr ((h.ok.entries e he).above.trans hge))).symm

/-! ## Changes of the index -/

inductive Change : List FileEntry → List FileEntry → Prop
  | append (old : List FileEntry) (e : FileEntry) : Change old (old ++ [e])
  | replace (pre post : List FileEntry) (e e' : FileEntry) :
      Change (pre ++ e :: post) (pre ++ e' :: post)
  | delete (pre post : List FileEntry) (e : FileEntry) : Change (pre ++ e :: post) (pre ++ post)

theorem IndexOk.exists_split {nextLba : ℕ} (hok : IndexOk nextLba index)
    (h : ∃ e ∈ index, e.name = path) :
    ∃ pre e post, index = pre ++ e :: post ∧ e.name = path ∧ ∀ x ∈ pre ++ post, x.name ≠ path := by
  obtain ⟨e, he, hname⟩ := h
  obtain ⟨pre, post, rfl⟩ := append_of_mem he
  refine ⟨pre, e, post, rfl, hname, fun x hx => ?_⟩
  have hperm : (pre ++ e :: post).Perm (e :: (pre ++ post)) := perm_middle
  have hapart := (hperm.pairwise_iff fun h => ⟨h.1.symm, h.2.symm⟩).mp hok.apart
  have := ((pairwise_cons.mp hapart).1 x hx).1
  rw [hname] at this
  exact this.symm

variable {pre post : List FileEntry} {f : FileEntry → FileEntry}

theorem mem_others_iff {x : FileEntry} (he : e.name = path)
    (hothers : ∀ x ∈ pre ++ post, x.name ≠ path) :
    x ∈ pre ++ post ↔ x ∈ pre ++ e :: post ∧ x.name ≠ path := by
  rw [perm_middle.mem_iff, mem_cons]
  constructor
  · exact fun hx => ⟨.inr hx, hothers x hx⟩
  · rintro ⟨rfl | hx, hne⟩
    · exact absurd he hne
    · exact hx

theorem updateEntry_eq (index : List FileEntry) (path : String) (f : FileEntry → FileEntry) :
    updateEntry index path f =
      index.take (index.findIdx (·.name = path)) ++
        (index.drop (index.findIdx (·.name = path))).modifyHead f :=
  modifyTailIdx_eq_take_drop _ rfl _ _

theorem updateEntry_of_split (he : e.name = path) (hpre : ∀ x ∈ pre, x.name ≠ path) :
    updateEntry (pre ++ e :: post) path f = pre ++ f e :: post := by
  have hidx : (pre ++ e :: post).findIdx (·.name = path) = pre.length := by
    rw [findIdx_append, if_neg]
    · rw [findIdx_cons]
      simp [he]
    · simpa [findIdx_lt_length] using hpre
  rw [updateEntry_eq, hidx]
  simp

theorem updateEntry_of_notMem (h : ∀ x ∈ index, x.name ≠ path) :
    updateEntry index path f = index := by
  have hidx : index.findIdx (·.name = path) = index.length := by
    rw [findIdx_eq_length]
    simpa using h
  rw [updateEntry_eq, hidx]
  simp

/-! ## Changes of the map -/

theorem Reflects.mem_iff (h : Reflects d index cache) :
    path ∈ cache ↔ ∃ e ∈ index, e.name = path := by
  rw [mem_iff_isSome_getElem?, Option.isSome_iff_exists]
  constructor
  · rintro ⟨data, hdata⟩
    obtain ⟨e, he, hname, -⟩ := (h path data).mp hdata
    exact ⟨e, he, hname⟩
  · rintro ⟨e, he, hname⟩
    exact ⟨_, (h path _).mpr ⟨e, he, hname, rfl⟩⟩

theorem Reflects.insert (h : Reflects d old cache)
    (hothers : ∀ x, x.name ≠ path → (x ∈ new ↔ x ∈ old)) (he : e ∈ new) (hname : e.name = path)
    (hdata : ∀ x ∈ new, x.name = path → loadData d x = data) :
    Reflects d new (cache.insert path data) := by
  intro name content
  simp only [getElem?_insert, LawfulEqCmp.compare_eq_iff_eq]
  by_cases hpath : path = name
  · subst hpath
    rw [if_pos rfl, Option.some.injEq]
    constructor
    · rintro rfl
      exact ⟨e, he, hname, hdata e he hname⟩
    · rintro ⟨x, hx, hxname, rfl⟩
      exact (hdata x hx hxname).symm
  · rw [if_neg hpath, h name content]
    refine exists_congr fun x => ?_
    constructor
    · rintro ⟨hx, rfl, hcontent⟩
      exact ⟨(hothers x (Ne.symm hpath)).mpr hx, rfl, hcontent⟩
    · rintro ⟨hx, rfl, hcontent⟩
      exact ⟨(hothers x (Ne.symm hpath)).mp hx, rfl, hcontent⟩

theorem Reflects.erase (h : Reflects d old cache) (hnew : ∀ x, x ∈ new ↔ x ∈ old ∧ x.name ≠ path) :
    Reflects d new (cache.erase path) := by
  intro name content
  simp only [getElem?_erase, LawfulEqCmp.compare_eq_iff_eq]
  by_cases hpath : path = name
  · subst hpath
    rw [if_pos rfl]
    constructor
    · rintro ⟨⟩
    · rintro ⟨x, hx, hname, -⟩
      exact absurd hname ((hnew x).mp hx).2
  · rw [if_neg hpath, h name content]
    refine exists_congr fun x => ?_
    constructor
    · rintro ⟨hx, rfl, hcontent⟩
      exact ⟨(hnew x).mpr ⟨hx, Ne.symm hpath⟩, rfl, hcontent⟩
    · rintro ⟨hx, rfl, hcontent⟩
      exact ⟨((hnew x).mp hx).1, rfl, hcontent⟩

/-! ## Changes of a valid index -/

theorem EntryOk.mono {n n' : ℕ} (h : EntryOk n e) (hn : n ≤ n') : EntryOk n' e :=
  ⟨h.name, h.above, h.below.trans hn, h.lba, h.size⟩

theorem IndexOk.sublist {n : ℕ} (h : IndexOk n old) (hsub : new.Sublist old) : IndexOk n new :=
  ⟨⟨hsub.length_le.trans h.few, fun e he => h.entries e (hsub.subset he)⟩, h.apart.sublist hsub⟩

theorem IndexOk.put {n n' : ℕ} (h : IndexOk n (pre ++ post)) (hn : n ≤ n') (he : EntryOk n' e)
    (hlen : (pre ++ post).length < 120)
    (hapart : ∀ x ∈ pre ++ post, e.name ≠ x.name ∧ Disjoint e.extent x.extent) :
    IndexOk n' (pre ++ e :: post) := by
  have hperm : (pre ++ e :: post).Perm (e :: (pre ++ post)) := perm_middle
  refine ⟨⟨by rw [hperm.length_eq, length_cons]; omega, fun x hx => ?_⟩, ?_⟩
  · obtain rfl | hx := mem_cons.mp (hperm.mem_iff.mp hx)
    · exact he
    · exact (h.entries x hx).mono hn
  · rw [hperm.pairwise_iff fun h => ⟨h.1.symm, h.2.symm⟩, pairwise_cons]
    exact ⟨hapart, h.apart⟩

/-! ## Operations -/

/-- What an operation writes before and after the index, and what it leaves. -/
structure Update (m : Mounted) (fs : IonFs) (prep fin : List SectorWrite) : Prop where
  change : Change m.fs.index fs.index
  onDisk : fs.onDisk = true
  bound : dataLba ≤ fs.nextLba
  ok : IndexOk fs.nextLba fs.index
  size : fs.cache.size = fs.index.length
  reflects : Reflects (exec Disk.write m.disk prep) fs.index fs.cache
  prepared : ∀ w ∈ prep, Aside m.fs.nextLba m.fs.index.length w
  finished : ∀ w ∈ fin, Aside fs.nextLba fs.index.length w

theorem Update.valid {fs : IonFs} {prep fin : List SectorWrite} {head : ℕ}
    (h : Update m fs prep fin) :
    Mounted.Valid ⟨fs, exec Disk.write m.disk (prep ++ indexWrites fs.index head ++ fin)⟩ := by
  refine ⟨h.onDisk, h.bound, h.ok, h.size, ?_⟩
  rw [exec_append, exec_append]
  exact (OnDisk.writeIndex h.ok h.reflects).exec_write h.ok h.bound h.finished

section Write

variable (fs : IonFs) (path : String) (data : List UInt8)

def journalSector : ℕ := journalLba + fs.journalHead % journalSlots

def writePrep : List SectorWrite :=
  let sector := (JournalEntry.new opWrite path fs.nextLba data.length).toSector
  [(journalSector fs, sector)] ++
    blocksAt fs.nextLba (sectorsFor data.length)
      (fun i => DiskBlock.pad _ (slice data (i * sectorSize) sectorSize)) ++
    [(journalSector fs, setState sector stateCommitted)]

end Write

theorem journalSector_mem (fs : IonFs) :
    journalLba ≤ journalSector fs ∧ journalSector fs < dataLba := by
  have : fs.journalHead % journalSlots < journalSlots := Nat.mod_lt _ (by decide)
  simp only [journalSector, journalLba, dataLba, journalSlots] at *
  omega

theorem aside_writePrep (fs : IonFs) (path : String) (data : List UInt8) (n : ℕ) :
    ∀ w ∈ writePrep fs path data, Aside fs.nextLba n w := by
  intro w h
  simp only [writePrep, mem_append, mem_singleton] at h
  obtain (rfl | h) | rfl := h
  · exact .inl (journalSector_mem fs)
  · exact .inr (.inl (mem_blocksAt h).1)
  · exact .inl (journalSector_mem fs)

theorem loadData_writePrep {fs : IonFs} (hbound : dataLba ≤ fs.nextLba) (hlba : e.lba = fs.nextLba)
    (hsize : e.size = data.length) :
    loadData (exec Disk.write d (writePrep fs path data)) e = data := by
  have hj := journalSector_mem fs
  rw [loadData, hlba, hsize]
  refine take_readBlocks ?_ fun i hi => ?_
  · simp only [sectorsFor, sectorSize]
    omega
  · rw [writePrep, exec_append, exec_cons, exec_nil, Disk.write_of_ne (by simp only; omega),
      exec_append, exec_blocksAt_of_lt hi]

section

variable (hm : m.Valid)
include hm

theorem exists_writeFile_index (now : ℕ) (path : String) (data : List UInt8) : ∃ pre post e,
      indexFile now (updateEntry m.fs.index path fun e =>
        { e with mtime := now, atime := now }) path m.fs.nextLba data.length = pre ++ e :: post ∧
      Change m.fs.index (pre ++ e :: post) ∧ (pre ++ post).Sublist m.fs.index ∧
      (∀ x, x ∈ pre ++ post ↔ x ∈ m.fs.index ∧ x.name ≠ path) ∧
      (m.fs.cache.insert path data).size = (pre ++ e :: post).length ∧
      e.name = path ∧ e.lba = m.fs.nextLba ∧ e.size = data.length := by
  by_cases hpath : ∃ e ∈ m.fs.index, e.name = path
  · obtain ⟨pre, e, post, hindex, hname, hothers⟩ := hm.ok.exists_split hpath
    have hpre : ∀ x ∈ pre, x.name ≠ path := fun x hx => hothers x (mem_append_left _ hx)
    have hmem : path ∈ m.fs.cache := hm.holds.reflects.mem_iff.mpr hpath
    refine ⟨pre, post,
      { e with mtime := now, atime := now, lba := m.fs.nextLba, size := data.length },
      ?_, ?_, ?_, fun x => ?_, ?_, hname, rfl, rfl⟩
    · rw [hindex, updateEntry_of_split hname hpre, indexFile, if_pos (by simp [hname])]
      exact updateEntry_of_split hname hpre
    · rw [hindex]
      exact .replace pre post e _
    · rw [hindex]
      exact (sublist_cons_self e post).append_left pre
    · rw [hindex]
      exact mem_others_iff hname hothers
    · rw [size_insert, if_pos (contains_iff_mem.mpr hmem), hm.size, hindex]
      simp
  · have hnone : ∀ x ∈ m.fs.index, x.name ≠ path := fun x hx hname => hpath ⟨x, hx, hname⟩
    have hnot : path ∉ m.fs.cache := fun hmem => hpath (hm.holds.reflects.mem_iff.mp hmem)
    refine ⟨m.fs.index, [], FileEntry.new now path m.fs.nextLba data.length, ?_, .append _ _, ?_,
      fun x => ?_, ?_, rfl, rfl, rfl⟩
    · rw [updateEntry_of_notMem hnone, indexFile, if_neg (by simpa using hnone)]
    · rw [append_nil]
    · rw [append_nil]
      exact ⟨fun hx => ⟨hx, hnone x hx⟩, And.left⟩
    · rw [size_insert, if_neg (by simpa using hnot), hm.size]
      simp

theorem write_update {now : ℕ} (hfit : (FileOp.write now path data).Fits m.fs) :
    ∃ head fin, (m.fs.writeFile now path data).2 =
        writePrep m.fs path data ++ indexWrites (m.fs.writeFile now path data).1.index head ++ fin ∧
      Update m (m.fs.writeFile now path data).1 (writePrep m.fs path data) fin := by
  obtain ⟨hpath, hlen, hfew, hbig⟩ := hfit
  obtain ⟨pre, post, e, hindex, hchange, hsub, hothers, hsize, hname, hlba, hesize⟩ :=
    exists_writeFile_index hm now path data
  have hrun : m.fs.writeFile now path data = (
      { cache := m.fs.cache.insert path data
        index := pre ++ e :: post
        nextLba := m.fs.nextLba + sectorsFor data.length
        onDisk := true
        journalHead := m.fs.journalHead + 1 },
      writePrep m.fs path data ++ indexWrites (pre ++ e :: post) m.fs.journalHead ++
        [(journalSector m.fs, setState (setState (JournalEntry.new opWrite path m.fs.nextLba
          data.length).toSector stateCommitted) stateClean),
        (0, superblock (pre ++ e :: post).length (m.fs.journalHead + 1))]) := by
    simp only [writeFile, journalWrite, hm.onDisk, Bool.not_true, Bool.false_eq_true,
      if_false, hindex, writeIndexAndSuperblock, updateSuperblockJournalHead, writePrep,
      indexWrites, journalSector, append_assoc, cons_append, nil_append]
  rw [hrun]
  have hold := hm.holds.exec_write hm.ok hm.bound (aside_writePrep m.fs path data _)
  refine ⟨_, _, rfl, hchange, rfl, hm.bound.trans (Nat.le_add_right _ _), ?_, hsize, ?_,
    aside_writePrep _ _ _ _, fun w hw => ?_⟩
  · have hok := hm.ok.sublist hsub
    refine hok.put (Nat.le_add_right _ _) ⟨by rw [hname]; exact hpath, by rw [hlba]; exact hm.bound,
      by rw [hlba, hesize], by omega, by omega⟩ ?_ fun x hx => ?_
    · rw [hsize, length_append, length_cons] at hfew
      rw [length_append]
      omega
    · refine ⟨fun h => ((hothers x).mp hx).2 (h.symm.trans hname), ?_⟩
      rw [Finset.disjoint_left]
      intro a ha hax
      have := Finset.mem_Ico.mp ha
      have := Finset.mem_Ico.mp hax
      have := (hok.entries x hx).below
      omega
  · refine hold.reflects.insert (e := e) (fun x hx => ?_) (by simp) hname fun x hx hxname => ?_
    · constructor
      · intro hnew
        obtain rfl | hrest := mem_cons.mp (perm_middle.mem_iff.mp hnew)
        · exact absurd hname hx
        · exact ((hothers x).mp hrest).1
      · intro hold
        exact perm_middle.mem_iff.mpr (mem_cons_of_mem _ ((hothers x).mpr ⟨hold, hx⟩))
    · obtain rfl | hrest := mem_cons.mp (perm_middle.mem_iff.mp hx)
      · exact loadData_writePrep hm.bound hlba hesize
      · exact absurd hxname ((hothers x).mp hrest).2
  · simp only [mem_cons, not_mem_nil, or_false] at hw
    obtain rfl | rfl := hw
    · exact .inl (journalSector_mem m.fs)
    · exact .inr (.inr ⟨_, rfl⟩)

theorem deleteFile_of_notMem (hpath : path ∉ m.fs.cache) :
    (m.fs.deleteFile path).2 = (m.fs, []) := by
  have hcache : m.fs.cache.erase path = m.fs.cache := by
    refine ext_getElem? fun name => ?_
    rw [getElem?_erase]
    split
    case isTrue h =>
      rw [LawfulEqCmp.compare_eq_iff_eq] at h
      rw [← h, getElem?_eq_none hpath]
    case isFalse => rfl
  have hindex : m.fs.index.filter (·.name ≠ path) = m.fs.index := by
    refine filter_eq_self.mpr fun x hx => ?_
    have : x.name ≠ path := fun hname => hpath (hm.holds.reflects.mem_iff.mpr ⟨x, hx, hname⟩)
    simpa using this
  have hfalse : m.fs.cache.contains path = false :=
    Bool.eq_false_iff.mpr fun h => hpath (contains_iff_mem.mp h)
  simp only [deleteFile, hcache, hindex, hfalse, Bool.false_eq_true, if_false]

theorem delete_update (hpath : path ∈ m.fs.cache) : (m.fs.deleteFile path).2.2 =
        indexWrites (m.fs.deleteFile path).2.1.index m.fs.journalHead ∧
      Update m (m.fs.deleteFile path).2.1 [] [] := by
  obtain ⟨pre, e, post, hindex, hname, hothers⟩ :=
    hm.ok.exists_split (hm.holds.reflects.mem_iff.mp hpath)
  have hfilter : m.fs.index.filter (·.name ≠ path) = pre ++ post := by
    have hkeep : (pre ++ post).filter (·.name ≠ path) = pre ++ post :=
      filter_eq_self.mpr fun x hx => by simpa using hothers x hx
    rw [hindex, filter_append, filter_cons, if_neg (by simp [hname]), ← filter_append, hkeep]
  have hsub : (pre ++ post).Sublist m.fs.index := by
    rw [hindex]
    exact (sublist_cons_self e post).append_left pre
  have htrue : m.fs.cache.contains path = true := contains_iff_mem.mpr hpath
  simp only [deleteFile, hfilter, htrue, if_true]
  refine ⟨rfl, ?_, hm.onDisk, hm.bound, hm.ok.sublist hsub, ?_, ?_, by simp, by simp⟩
  · rw [hindex]
    exact .delete pre post e
  · rw [size_erase, if_pos htrue, hm.size, hindex]
    simp
  · refine hm.holds.reflects.erase fun x => ?_
    rw [hindex]
    exact mem_others_iff hname hothers

theorem rename_update {from' to' : String} (hfit : (FileOp.rename from' to').Fits m.fs)
    (hdata : m.fs.cache[from']? = some data) : (m.fs.renameFile from' to').2.2 =
        indexWrites (m.fs.renameFile from' to').2.1.index m.fs.journalHead ∧
      Update m (m.fs.renameFile from' to').2.1 [] [] := by
  have hmem : from' ∈ m.fs.cache := mem_iff_isSome_getElem?.mpr (by rw [hdata]; rfl)
  obtain ⟨pre, e, post, hindex, hname, hothers⟩ :=
    hm.ok.exists_split (hm.holds.reflects.mem_iff.mp hmem)
  have hpre : ∀ x ∈ pre, x.name ≠ from' := fun x hx => hothers x (mem_append_left _ hx)
  have hsub : (pre ++ post).Sublist m.fs.index := by
    rw [hindex]
    exact (sublist_cons_self e post).append_left pre
  have he : e ∈ m.fs.index := by rw [hindex]; simp
  have hentry := hm.ok.entries e he
  have hcontent : loadData m.disk e = data := by
    have := (hm.holds.reflects from' _).mpr ⟨e, he, hname, rfl⟩
    rw [hdata] at this
    exact (Option.some.inj this).symm
  -- the new name is the old one, or a good one that no file has
  have hok : PathOk to' ∧ (∀ x ∈ pre ++ post, x.name ≠ to') ∧ to' ∉ m.fs.cache.erase from' := by
    by_cases hsame : from' = to'
    · subst hsame
      exact ⟨hname ▸ hentry.name, hothers, by simp⟩
    · obtain ⟨hok, hunused⟩ := hfit hmem hsame
      exact ⟨hok, fun x hx hx' => hunused (hm.holds.reflects.mem_iff.mpr ⟨x, hsub.subset hx, hx'⟩),
        fun h => hunused (mem_of_mem_erase h)⟩
  obtain ⟨hok, hfresh, hnot⟩ := hok
  have hperm : (e :: (pre ++ post)).Perm m.fs.index := by
    rw [hindex]
    exact perm_middle.symm
  have hapart := (hperm.pairwise_iff fun h => ⟨h.1.symm, h.2.symm⟩).mpr hm.ok.apart
  simp only [renameFile, hdata, hindex, updateEntry_of_split hname hpre]
  refine ⟨rfl, ?_, hm.onDisk, hm.bound, ?_, ?_, ?_, by simp, by simp⟩
  · rw [hindex]
    exact .replace pre post e _
  · refine (hm.ok.sublist hsub).put le_rfl
      ⟨hok, hentry.above, hentry.below, hentry.lba, hentry.size⟩ ?_ fun x hx => ?_
    · have := hm.ok.few
      rw [← hperm.length_eq, length_cons] at this
      omega
    · exact ⟨(hfresh x hx).symm, ((pairwise_cons.mp hapart).1 x hx).2⟩
  · rw [size_insert, if_neg fun h => hnot (contains_iff_mem.mp h), size_erase,
      if_pos (contains_iff_mem.mpr hmem), hm.size, ← hperm.length_eq]
    simp [Nat.add_assoc]
  · have hmid : Reflects m.disk (pre ++ post) (m.fs.cache.erase from') := by
      refine hm.holds.reflects.erase fun x => ?_
      rw [hindex]
      exact mem_others_iff hname hothers
    refine hmid.insert (e := { e with name := to' }) (fun x hx => ?_) (by simp) rfl ?_
    · rw [perm_middle.mem_iff, mem_cons]
      exact ⟨fun h => h.resolve_left fun h => hx (by rw [h]), .inr⟩
    intro x hx hxname
    obtain rfl | hrest := mem_cons.mp (perm_middle.mem_iff.mp hx)
    · exact hcontent
    · exact absurd hxname (hfresh x hrest)

theorem FileOp.update {o : FileOp} (hfit : o.Fits m.fs) : o.run m.fs = (m.fs, []) ∨ ∃ prep head fin,
      (o.run m.fs).2 = prep ++ indexWrites (o.run m.fs).1.index head ++ fin ∧
        Update m (o.run m.fs).1 prep fin := by
  cases o with
  | write =>
    obtain ⟨head, fin, hwrites, hupdate⟩ := write_update hm hfit
    exact .inr ⟨_, head, fin, hwrites, hupdate⟩
  | delete path =>
    by_cases hpath : path ∈ m.fs.cache
    · obtain ⟨hwrites, hupdate⟩ := delete_update hm hpath
      exact .inr ⟨[], _, [], by rw [nil_append, append_nil]; exact hwrites, hupdate⟩
    · exact .inl (deleteFile_of_notMem hm hpath)
  | rename from' =>
    cases hdata : m.fs.cache[from']? with
    | none =>
      left
      simp only [FileOp.run, renameFile, hdata]
    | some =>
      obtain ⟨hwrites, hupdate⟩ := rename_update hm hfit hdata
      exact .inr ⟨[], _, [], by rw [nil_append, append_nil]; exact hwrites, hupdate⟩

end

/-! ## Runs -/

theorem Mounted.Valid.step {ev : Event} (hm : m.Valid) (hfit : ev.Fits m) :
    (m.step lossy ev).Valid := by
  cases ev with
  | remount => exact hm.mount
  | op o =>
    rw [Mounted.step]
    obtain hnone | ⟨prep, head, fin, hwrites, hupdate⟩ := o.update hm hfit
    · rw [hnone]
      exact hm
    · rw [hwrites]
      exact hupdate.valid

theorem valid_exec {evs : List Event} (hblank : leNat (slice (disk 0).1 0 4) ≠ magic)
    (hfits : Along (Mounted.step lossy) (fun m ev => ev.Fits m) (mount lossy disk) evs) :
    (exec (Mounted.step lossy) (mount lossy disk) evs).Valid :=
  hfits.invariant (valid_mount_blank hblank) fun _ _ hm hfit => hm.step hfit

/-- **Persistence.**  At every point of a run that starts on a blank disk and stays within the
limits, a mount rebuilds the map of files, and the extents of the files are apart and in the data
area. -/
theorem remount_rebuilds_cache (lossy : FromUtf8Lossy) (disk : Disk sectorSize) (evs : List Event)
    (hblank : leNat (slice (disk 0).1 0 4) ≠ magic)
    (hfits : Along (Mounted.step lossy) (fun m ev => ev.Fits m) (mount lossy disk) evs) :
    let m := exec (Mounted.step lossy) (mount lossy disk) evs
    (mount lossy m.disk).fs.cache = m.fs.cache ∧
      (m.fs.index.Pairwise fun e e' => Disjoint e.extent e'.extent) ∧
      ∀ e ∈ m.fs.index, dataLba ≤ e.lba := by
  have hm := valid_exec hblank hfits
  exact ⟨hm.holds.mount_cache hm.ok, hm.ok.apart.imp And.right,
    fun e he => (hm.ok.entries e he).above⟩

def blankDisk : Disk sectorSize := fun _ => DiskBlock.pad _ []

/-- Two files, one of which is left in the end. -/
theorem remount_rebuilds_sample :
    ∃ evs, evs = [.op (.write 5 "a" [1, 2, 3]), .op (.write 6 "b" [4]), .remount,
        .op (.delete "a")] ∧
      let m := exec (Mounted.step sampleDecoder) (mount sampleDecoder blankDisk) evs
      (mount sampleDecoder m.disk).fs.cache = m.fs.cache := by
  refine ⟨_, rfl, ?_⟩
  refine (remount_rebuilds_cache sampleDecoder blankDisk _ (by decide) ?_).1
  refine ⟨⟨?_, by decide, by decide +kernel, by decide⟩,
    ⟨?_, by decide, by decide +kernel, by decide +kernel⟩, trivial, trivial, trivial⟩
  · exact ⟨by decide, by decide, by decide⟩
  · exact ⟨by decide, by decide, by decide⟩

end IonaOs.Fs
