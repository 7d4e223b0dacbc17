import IonaOs.Lib.Disk
import IonaOs.Lib.Word

/-!
# IONAFS
-/

namespace IonaOs.Fs

open List
open Std Lib DiskBlock

def magic : ℕ := 0x494F4E41
def sectorSize : ℕ := 512
def indexLba : ℕ := 1
def journalLba : ℕ := 16
def journalSlots : ℕ := 48
def dataLba : ℕ := 64

def opNoop : ℕ := 0
def opWrite : ℕ := 1

def statePending : ℕ := 0
def stateCommitted : ℕ := 1
def stateClean : ℕ := 2

abbrev Sector := DiskBlock sectorSize
abbrev SectorWrite := ℕ × Sector

/-- `str::as_bytes`. -/
def utf8 (s : String) : List UInt8 := s.toByteArray.data.toList

/-- `String::from_utf8_lossy`.  What it makes of ill-formed bytes is left open. -/
structure FromUtf8Lossy where
  decode : List UInt8 → String
  decode_utf8 : ∀ s, decode (utf8 s) = s

def sampleDecoder : FromUtf8Lossy where
  decode bytes := (String.fromUTF8? ⟨bytes.toArray⟩).getD "\ufffd"
  decode_utf8 s := by
    rw [utf8, Array.toArray_toList, String.fromUTF8?, dif_pos s.isValidUTF8]
    rfl

def pathHash (path : String) : UInt64 :=
  (utf8 path).foldl (fun h b => (h ^^^ b.toUInt64) * 1099511628211) 14695981039346656037

/-- The sectors that `size` bytes take. -/
def sectorsFor (size : ℕ) : ℕ := (size + sectorSize - 1) / sectorSize

structure FileEntry where
  name : String
  lba : ℕ
  size : ℕ
  mode : ℕ
  uid : ℕ
  gid : ℕ
  atime : ℕ
  mtime : ℕ
  ctime : ℕ

def FileEntry.new (now : ℕ) (name : String) (lba size : ℕ) : FileEntry :=
  ⟨name, lba, size, 0o644, 1000, 1000, now, now, now⟩

/-! ## The journal -/

structure JournalEntry where
  op : ℕ
  state : ℕ
  hash : UInt64
  lba : ℕ
  size : ℕ
  path : List UInt8

namespace JournalEntry

def new (op : ℕ) (path : String) (lba size : ℕ) : JournalEntry :=
  ⟨op, statePending, pathHash path, lba, size, (pad 32 ((utf8 path).take 31)).1⟩

def toSector (e : JournalEntry) : Sector :=
  pad _ (leBytes 4 e.op ++ leBytes 4 e.state ++ le64 e.hash ++ leBytes 8 e.lba ++
    leBytes 8 e.size ++ e.path)

def fromSector (s : Sector) : JournalEntry where
  op := leNat (slice s.1 0 4)
  state := leNat (slice s.1 4 4)
  hash := UInt64.ofNat (leNat (slice s.1 8 8))
  lba := leNat (slice s.1 16 8)
  size := leNat (slice s.1 24 8)
  path := slice s.1 32 32

end JournalEntry

def setState (s : Sector) (state : ℕ) : Sector :=
  pad _ (slice s.1 0 4 ++ leBytes 4 state ++ s.1.drop 8)

variable (disk : Disk sectorSize)

def recoverSlot (slot : ℕ) : Disk sectorSize :=
  let sector := disk (journalLba + slot)
  let entry := JournalEntry.fromSector sector
  if entry.op = opNoop ∨ entry.state = stateClean then disk
  else if entry.state = statePending then
    disk.write (journalLba + slot, setState sector stateCommitted)
  else disk

def recoverJournal : Disk sectorSize :=
  exec recoverSlot disk (range journalSlots)

/-! ## The index and the superblock -/

def entryBytes (e : FileEntry) : List UInt8 :=
  (pad 48 ((utf8 e.name).take 47)).1 ++ leBytes 8 e.lba ++ leBytes 8 e.size

def indexBytes (index : List FileEntry) : List UInt8 :=
  (pad (15 * sectorSize) ((index.take 120).flatMap entryBytes)).1

def indexSector (index : List FileEntry) (i : ℕ) : Sector :=
  pad _ (slice (indexBytes index) (i * sectorSize) sectorSize)

def superblock (numFiles journalHead : ℕ) : Sector :=
  pad _ (leBytes 4 magic ++ leBytes 4 numFiles ++ leBytes 8 journalHead)

def loadEntry (lossy : FromUtf8Lossy) (bytes : List UInt8) : Option FileEntry :=
  let name := lossy.decode ((slice bytes 0 48).takeWhile (· ≠ 0))
  let lba := leNat (slice bytes 48 8)
  let size := leNat (slice bytes 56 8)
  if name = "" then none else some ⟨name, lba, size, 0o644, 0, 0, 0, 0, 0⟩

def loadData (e : FileEntry) : List UInt8 :=
  (readBlocks disk e.lba (sectorsFor e.size)).take e.size

/-! ## The file system in memory -/

structure IonFs where
  cache : ExtTreeMap String (List UInt8) compare
  index : List FileEntry
  nextLba : ℕ
  onDisk : Bool
  journalHead : ℕ

namespace IonFs

def new : IonFs := ⟨∅, [], dataLba, false, 0⟩

variable (lossy : FromUtf8Lossy) (fs : IonFs)

/-! ### Mounting -/

/-- One turn of the loop of `init_disk` over the index. -/
def loadSlot (disk : Disk sectorSize) (idx : List UInt8) (fs : IonFs) (i : ℕ) : IonFs :=
  match loadEntry lossy (slice idx (i * 64) 64) with
  | none => fs
  | some e =>
    { fs with
      index := fs.index ++ [e]
      nextLba := max fs.nextLba (e.lba + e.size / sectorSize + 1)
      cache := fs.cache.insert e.name (loadData disk e) }

def initDisk (disk : Disk sectorSize) : IonFs × Disk sectorSize :=
  let fs := { fs with onDisk := true }
  let sb := (disk 0).1
  if leNat (slice sb 0 4) ≠ magic then
    (fs, disk.write
      (0, pad _ (leBytes 4 magic ++ leBytes 4 0 ++ leBytes 8 0 ++ sb.drop 16)))
  else
    let numFiles := leNat (slice sb 4 4)
    let fs := { fs with journalHead := leNat (slice sb 8 8) }
    let disk := recoverJournal disk
    let idx := readBlocks disk indexLba 15
    (exec (loadSlot lossy disk idx) fs (range (min numFiles 120)), disk)

/-! ### Writing -/

def updateSuperblockJournalHead : List SectorWrite :=
  [(0, superblock fs.index.length fs.journalHead)]

def writeIndexAndSuperblock : List SectorWrite :=
  blocksAt indexLba 15 (indexSector fs.index) ++ fs.updateSuperblockJournalHead

/-- `index.iter_mut().find(|e| e.name == path)` and the change made to what was found. -/
def updateEntry (index : List FileEntry) (path : String) (f : FileEntry → FileEntry) :
    List FileEntry :=
  index.modify (index.findIdx (·.name = path)) f

/-- Step 4 of `journal_write`. -/
def indexFile (now : ℕ) (index : List FileEntry) (path : String) (lba size : ℕ) : List FileEntry :=
  if index.any (·.name = path) then
    updateEntry index path fun e => { e with lba := lba, size := size }
  else index ++ [FileEntry.new now path lba size]

def journalWrite (now : ℕ) (path : String) (data : List UInt8) : Bool × IonFs × List SectorWrite :=
  if !fs.onDisk then (false, fs, [])
  else
    let lba := fs.nextLba
    let nsectors := sectorsFor data.length
    let slot := fs.journalHead % journalSlots
    let sector := (JournalEntry.new opWrite path lba data.length).toSector
    let cs := setState sector stateCommitted
    let clean := setState cs stateClean
    let fs := { fs with
      nextLba := lba + nsectors
      index := indexFile now fs.index path lba data.length }
    let done := { fs with journalHead := fs.journalHead + 1 }
    (true, done,
      [(journalLba + slot, sector)] ++
      blocksAt lba nsectors (fun i => pad _ (slice data (i * sectorSize) sectorSize)) ++
      [(journalLba + slot, cs)] ++
      fs.writeIndexAndSuperblock ++
      [(journalLba + slot, clean)] ++
      done.updateSuperblockJournalHead)

def writeFile (now : ℕ) (path : String) (data : List UInt8) : IonFs × List SectorWrite :=
  let fs := { fs with
    cache := fs.cache.insert path data
    index := updateEntry fs.index path fun e => { e with mtime := now, atime := now } }
  (fs.journalWrite now path data).2

def deleteFile (path : String) : Bool × IonFs × List SectorWrite :=
  let existed := fs.cache.contains path
  let fs := { fs with
    cache := fs.cache.erase path
    index := fs.index.filter (·.name ≠ path) }
  (existed, fs, if existed then fs.writeIndexAndSuperblock else [])

def renameFile (from' to' : String) : Bool × IonFs × List SectorWrite :=
  match fs.cache[from']? with
  | none => (false, fs, [])
  | some data =>
    let fs := { fs with
      cache := (fs.cache.erase from').insert to' data
      index := updateEntry fs.index from' fun e => { e with name := to' } }
    (true, fs, fs.writeIndexAndSuperblock)

end IonFs

/-! ## Runs -/

inductive FileOp where
  | write (now : ℕ) (path : String) (data : List UInt8)
  | delete (path : String)
  | rename (from' to' : String)

def FileOp.run (fs : IonFs) : FileOp → IonFs × List SectorWrite
  | write now path data => fs.writeFile now path data
  | delete path => (fs.deleteFile path).2
  | rename from' to' => (fs.renameFile from' to').2

structure Mounted where
  fs : IonFs
  disk : Disk sectorSize

/-- `init_disk` of a fresh file system. -/
def mount (lossy : FromUtf8Lossy) (disk : Disk sectorSize) : Mounted :=
  ⟨(IonFs.new.initDisk lossy disk).1, (IonFs.new.initDisk lossy disk).2⟩

inductive Event where
  | op (o : FileOp)
  | remount

def Mounted.step (lossy : FromUtf8Lossy) (m : Mounted) : Event → Mounted
  | .op o => ⟨(o.run m.fs).1, exec Disk.write m.disk (o.run m.fs).2⟩
  | .remount => mount lossy m.disk

/-! ## What other modules see -/

abbrev Files := String → Option (List UInt8)

def Files.write (fs : Files) (path : String) (data : List UInt8) : Files :=
  Function.update fs path (some data)

@[simp] theorem Files.write_self (fs : Files) (path : String) (data : List UInt8) :
    fs.write path data path = some data := Function.update_self ..

theorem Files.write_of_ne {fs : Files} {path path' : String} (h : path' ≠ path)
    (data : List UInt8) : fs.write path data path' = fs path' := Function.update_of_ne h ..

variable (fs : IonFs)

/-- `read_file`, for every path. -/
def IonFs.files : Files := fun path => fs.cache[path]?

/-! ## Listing by prefix -/

/-- `cache.range(prefix..)` up to the first key without the prefix.  The order of the bytes of two
strings is the order of their characters. -/
def IonFs.prefixRange (start : String) : List String :=
  (fs.cache.keys.dropWhile (· < start)).takeWhile (·.startsWith start)

def IonFs.listPrefixLimited (start : String) (limit : ℕ) : List String :=
  (fs.prefixRange start).take limit

def IonFs.countPrefix (start : String) : ℕ := (fs.prefixRange start).length

/-- The lists that start with `s` follow each other in the order. -/
theorem isPrefix_of_not_lt {α : Type*} [LinearOrder α] {s t l : List α}
    (hs : ¬ l < s) (hl : ¬ s ++ t < l) : s <+: l := by
  induction s generalizing l with
  | nil => exact nil_prefix
  | cons a s ih =>
    cases l with
    | nil => exact absurd (nil_lt_cons a s) hs
    | cons b l =>
      simp only [cons_append, cons_lt_cons_iff, not_or, not_and] at hs hl
      obtain rfl := (le_of_not_gt hs.1).antisymm (le_of_not_gt hl.1)
      exact cons_prefix_cons.mpr ⟨rfl, ih (hs.2 rfl) (hl.2 rfl)⟩

theorem startsWith_between {start p q : String} (hp : ¬ p < start) (hpq : p ≤ q)
    (hq : q.startsWith start) : p.startsWith start := by
  obtain ⟨t, ht⟩ := String.startsWith_string_iff.mp hq
  have hpq := hpq.not_gt
  rw [String.lt_iff_toList_lt] at hp hpq
  exact String.startsWith_string_iff.mpr (isPrefix_of_not_lt hp (ht ▸ hpq))

theorem not_lt_of_startsWith {start p : String} (h : p.startsWith start) : ¬ p < start := by
  obtain ⟨t, ht⟩ := String.startsWith_string_iff.mp h
  rw [String.lt_iff_toList_lt, ← ht]
  exact le_append_left

theorem mem_scan {start p : String} {keys : List String} (hkeys : keys.Pairwise (· < ·))
    (hp : p ∈ keys) (hstart : p.startsWith start) :
    p ∈ (keys.dropWhile (· < start)).takeWhile (·.startsWith start) := by
  induction keys with
  | nil => cases hp
  | cons k keys ih =>
    obtain ⟨hk, hkeys⟩ := pairwise_cons.mp hkeys
    by_cases hlt : k < start
    · rw [dropWhile_cons_of_pos (by simpa using hlt)]
      refine ih hkeys ((mem_cons.mp hp).resolve_left ?_)
      rintro rfl
      exact not_lt_of_startsWith hstart hlt
    · -- From here on no key is below the prefix, so `range` skips nothing more.
      have hdrop : keys.dropWhile (· < start) = keys := by
        cases keys with
        | nil => rfl
        | cons q keys =>
          have hq : ¬ q < start := fun h => hlt ((hk q mem_cons_self).trans h)
          exact dropWhile_cons_of_neg (by simpa using hq)
      have hkp : k ≤ p := by
        obtain rfl | hp := mem_cons.mp hp
        exacts [le_rfl, (hk p hp).le]
      have hk' := startsWith_between hlt hkp hstart
      rw [dropWhile_cons_of_neg (by simpa using hlt), takeWhile_cons, if_pos hk']
      obtain rfl | hp := mem_cons.mp hp
      exacts [mem_cons_self, mem_cons_of_mem _ (hdrop ▸ ih hkeys hp)]

/-- Both functions look at the ordered list of all stored paths with the prefix. -/
theorem IonFs.prefix_listing (start : String) :
    ∃ paths : List String, paths.Pairwise (· < ·) ∧
      (∀ p, p ∈ paths ↔ (fs.files p).isSome ∧ p.startsWith start) ∧
      (∀ limit, fs.listPrefixLimited start limit = paths.take limit) ∧
      fs.countPrefix start = paths.length := by
  have hkeys : fs.cache.keys.Pairwise (· < ·) :=
    ExtTreeMap.ordered_keys.imp fun h => compare_lt_iff_lt.mp h
  have hstored : ∀ p, p ∈ fs.cache.keys ↔ (fs.files p).isSome := fun p => by
    rw [ExtTreeMap.mem_keys, ExtTreeMap.mem_iff_isSome_getElem?, files]
  have hsub : (fs.prefixRange start).Sublist fs.cache.keys :=
    (takeWhile_sublist _).trans (dropWhile_sublist _)
  refine ⟨fs.prefixRange start, hkeys.sublist hsub, fun p => ⟨fun hp => ?_, fun h => ?_⟩,
    fun _ => rfl, rfl⟩
  · have hstart := mem_takeWhile_imp (p := fun k : String => k.startsWith start) hp
    exact ⟨(hstored p).mp (hsub.subset hp), hstart⟩
  · exact mem_scan hkeys ((hstored p).mpr h.1) h.2

end IonaOs.Fs
