import IonaOs.Process.PageTables
import IonaOs.Types

/-!
# Memory mappings of a process
-/

namespace IonaOs.Process

open Lib Memory

/-! ## Constants and errors -/

def mmapBaseAddr : UInt64 := 0x0000700000000000
def maxMmapRegions : ℕ := 1024
def maxMapPages : UInt64 := 1024 * 1024

def mapAnonymous : UInt32 := 0x20
def mapPrivate : UInt32 := 0x02
def mapShared : UInt32 := 0x01
def mapFixed : UInt32 := 0x10
def mapPopulate : UInt32 := 0x8000

def protRead : UInt32 := 1
def protWrite : UInt32 := 2
def protExec : UInt32 := 4

inductive MmapError where
  | invalidArgument
  | outOfMemory
  | addressNotAvailable
  | fileNotFound
  | regionNotFound
  | unsupported
  | tooManyRegions

/-- `(x + 4095) & !4095` -/
def pageAlignUp (x : UInt64) : UInt64 := (x + 4095) &&& ~~~4095

/-! ## Regions -/

inductive MmapBacking where
  | anonymous
  | file (path : String) (offset : UInt64) (shared : Bool)

abbrev PageMap := List (UInt64 × ℕ)

/-- `BTreeMap::insert`: the value of a key is replaced, or a new key gets its place in the order. -/
def PageMap.insert (page : UInt64) (frame : ℕ) : PageMap → PageMap
  | [] => [(page, frame)]
  | (page', frame') :: rest =>
    if page = page' then (page, frame) :: rest
    else if page < page' ∧ rest.lookup page = none then (page, frame) :: (page', frame') :: rest
    else (page', frame') :: PageMap.insert page frame rest

structure MmapRegion where
  start : UInt64
  length : UInt64
  prot : UInt32
  flags : UInt32
  backing : MmapBacking
  pages : PageMap := []

namespace MmapRegion

variable (r : MmapRegion)

/-- `end` -/
def endAddr : UInt64 := r.start + r.length

def contains (addr : UInt64) : Bool := r.start ≤ addr && addr < r.endAddr

def toPteFlags : BitVec 64 :=
  Flag.present ||| Flag.userAccessible |||
    (if r.prot &&& protWrite ≠ 0 then Flag.writable else 0) |||
    (if r.prot &&& protExec = 0 then Flag.noExecute else 0)

def isPrivate : Bool := r.flags &&& mapPrivate ≠ 0

end MmapRegion

def fileWord (data : List UInt8) (offset : ℕ) : BitVec 64 :=
  BitVec.ofNat 64 ((List.range 8).map fun j => (data.getD (offset + j) 0).toNat * 256 ^ j).sum

def MmapBacking.fill (files : String → List UInt8) (distance : UInt64) : MmapBacking → PageTable
  | .anonymous => fun _ => 0
  | .file path offset _ => fun i => fileWord (files path) ((offset + distance).toNat + 8 * i)

/-- The checks of `mmap` before it takes the manager, and the backing. -/
def mmapBacking (length : UInt64) (flags : UInt32) (fd : Int64) (offset : UInt64)
    (path : Option String) : Except MmapError MmapBacking :=
  if length = 0 then .error .invalidArgument
  else if offset &&& 0xfff ≠ 0 then .error .invalidArgument
  else if pageAlignUp length = 0 then .error .invalidArgument
  else if maxMapPages < pageAlignUp length / 4096 then .error .invalidArgument
  else
    let backing : Option MmapBacking :=
      if flags &&& mapAnonymous ≠ 0 ∨ fd = -1 then some .anonymous
      else path.map (.file · offset (flags &&& mapShared ≠ 0))
    match backing with
    | none => .error .fileNotFound
    | some backing =>
      if flags &&& mapShared ≠ 0 ∧ flags &&& mapPrivate ≠ 0 then .error .invalidArgument
      else .ok backing

def cut {α : Type} (p : α → Bool) : List α → Option (List α × α × List α)
  | [] => none
  | x :: l =>
    if p x then some ([], x, l)
    else
      match cut p l with
      | none => none
      | some (before, y, after) => some (x :: before, y, after)

/-! ## The manager -/

structure MmapManager where
  regions : List MmapRegion := []
  nextAddr : UInt64 := mmapBaseAddr
  mappedPages : UInt64 := 0

namespace MmapManager

variable (m : MmapManager)

/-- The region overlaps the `length` bytes at an address. -/
def overlaps (addr length : UInt64) (r : MmapRegion) : Bool :=
  r.start < addr + length && addr < r.endAddr

/-- The loop of `find_free_address`. -/
def searchLoop (length : UInt64) : ℕ → UInt64 → Option UInt64
  | 0, _ => none
  | turns + 1, candidate =>
    match m.regions.find? (overlaps candidate length) with
    | some r => searchLoop length turns (pageAlignUp r.endAddr)
    | none => some candidate

/-- The search ends with `none` if it has no end: from the second turn on the candidates are ends of
regions, so that one of them has come back after as many turns as there are regions and two. -/
def findFreeAddress (length hint : UInt64) (fixed : Bool) :
    Option (Except MmapError (UInt64 × MmapManager)) :=
  if fixed then
    if hint = 0 then some (.error .invalidArgument)
    else if m.regions.any (overlaps hint length) then some (.error .addressNotAvailable)
    else some (.ok (hint, m))
  else
    let aligned := hint &&& ~~~4095
    let start := if hint ≠ 0 ∧ m.nextAddr ≤ aligned then aligned else m.nextAddr
    match m.searchLoop length (m.regions.length + 2) start with
    | none => none
    | some candidate => some (.ok (candidate, { m with nextAddr := candidate + length }))

def addRegion (region : MmapRegion) : Except MmapError MmapManager :=
  if maxMmapRegions ≤ m.regions.length then .error .tooManyRegions
  else .ok { m with regions := m.regions ++ [region] }

def incMappedPages (count : UInt64) : MmapManager := { m with mappedPages := m.mappedPages + count }

def decMappedPages (count : UInt64) : MmapManager := { m with mappedPages := m.mappedPages - count }

end MmapManager

/-! ## The kernel -/

structure Kernel where
  managers : TaskId → Option MmapManager
  frames : FrameAllocator
  mem : PhysMem
  l4 : ℕ

namespace Kernel

variable (k : Kernel)

def setManager (tid : TaskId) (manager : MmapManager) : Kernel :=
  { k with managers := Function.update k.managers tid (some manager) }

def getManagerMut (tid : TaskId) : MmapManager × Kernel :=
  match k.managers tid with
  | some manager => (manager, k)
  | none => ({}, k.setManager tid {})

/-- `dec_ref` -/
def decRef (frame : ℕ) : Kernel := { k with frames := (k.frames.freeFrame frame).2 }

/-! ### Page tables -/

/-- The macro `get_table_mut` of `map_frame`: the table behind an entry, which is allocated if there
is none. -/
def getTableMut (table : ℕ) (i : Fin 512) : Except MmapError ℕ × Kernel :=
  if (k.mem table i).isPresent then (.ok (k.mem table i).frame, k)
  else
    match k.frames.allocateOne with
    | (.error _, frames) => (.error .outOfMemory, { k with frames })
    | (.ok new, frames) =>
      let zeroed : PhysMem := Function.update k.mem new fun _ => 0
      let newFlags := Flag.present ||| Flag.writable ||| Flag.userAccessible
      let mem := zeroed.write table i (.setAddr (frameAddr new) newFlags)
      (.ok (mem table i).frame, { k with mem, frames := (frames.incRef new).2 })

/-- The operator `?`: what follows runs if there was no error. -/
def andThen {α β : Type} (r : Except MmapError α × Kernel)
    (rest : α → Kernel → Except MmapError β × Kernel) : Except MmapError β × Kernel :=
  match r with
  | (.error e, k) => (.error e, k)
  | (.ok a, k) => rest a k

def mapFrame (virt : UInt64) (frame : ℕ) (flags : BitVec 64) : Except MmapError Unit × Kernel :=
  andThen (k.getTableMut k.l4 (index 4 virt)) fun l3 k =>
  andThen (k.getTableMut l3 (index 3 virt)) fun l2 k =>
  andThen (k.getTableMut l2 (index 2 virt)) fun l1 k =>
  (.ok (), { k with mem := k.mem.write l1 (index 1 virt) (.setAddr (frameAddr frame) flags) })

/-- The macro `get_table_mut` of `unmap_pages` and `mprotect`, three times: the last table on the
way to an address. -/
def lastTable (virt : UInt64) : Option ℕ :=
  let l4e := k.mem k.l4 (index 4 virt)
  let l3e := k.mem l4e.frame (index 3 virt)
  let l2e := k.mem l3e.frame (index 2 virt)
  if l4e.isPresent ∧ l3e.isPresent ∧ l2e.isPresent then some l2e.frame else none

/-- One turn of the loop of `unmap_pages`.  A page without a table is passed over, and its frame
keeps the reference. -/
def unmapPage (page : UInt64 × ℕ) : Kernel :=
  match k.lastTable page.1 with
  | none => k
  | some l1 => { k with mem := k.mem.write l1 (index 1 page.1) 0 }.decRef page.2

def unmapPages (region : MmapRegion) : Kernel := exec unmapPage k region.pages

/-- One turn of the loop of `mprotect`. -/
def protectPage (flags : BitVec 64) (page : UInt64 × ℕ) : Kernel :=
  match k.lastTable page.1 with
  | none => k
  | some l1 =>
    { k with mem := k.mem.write l1 (index 1 page.1) (.setAddr (frameAddr page.2) flags) }

/-! ### Faults -/

def mapNew (page : UInt64) (frame : ℕ) (flags : BitVec 64) : Bool × Kernel :=
  match k.mapFrame page frame flags with
  | (.error _, k) => (false, k.decRef frame)
  | (.ok (), k) => (true, k)

def copyOnWrite (tid : TaskId) (manager : MmapManager) (before after : List MmapRegion)
    (region : MmapRegion) (page : UInt64) (frame : ℕ) : Bool × Kernel :=
  match k.frames.allocateOne with
  | (.error _, frames) => (false, { k with frames })
  | (.ok new, frames) =>
    let copied := Function.update k.mem new (k.mem frame)
    let region' := { region with pages := region.pages.insert page new }
    let k := ({ k with frames, mem := copied }.decRef frame).setManager tid
      { manager with regions := before ++ region' :: after }
    k.mapNew page new region.toPteFlags

def makeWritable (region : MmapRegion) (page : UInt64) (frame : ℕ) : Bool × Kernel :=
  match k.mapFrame page frame (region.toPteFlags ||| Flag.writable) with
  | (.error _, k) => (false, k)
  | (.ok (), k) => (true, k)

def demandPage (tid : TaskId) (manager : MmapManager) (before after : List MmapRegion)
    (region : MmapRegion) (page : UInt64) (files : String → List UInt8) : Bool × Kernel :=
  match k.frames.allocateOne with
  | (.error _, frames) => (false, { k with frames })
  | (.ok frame, frames) =>
    let filled := Function.update k.mem frame (region.backing.fill files (page - region.start))
    let region' := { region with pages := region.pages.insert page frame }
    let k := { k with frames, mem := filled }.setManager tid
      ({ manager with regions := before ++ region' :: after }.incMappedPages 1)
    k.mapNew page frame region.toPteFlags

def handleMmapFault (tid : TaskId) (virt : UInt64) (write : Bool)
    (files : String → List UInt8) : Bool × Kernel :=
  let page := virt &&& ~~~0xfff
  match k.managers tid with
  | none => (false, k)
  | some manager =>
    match cut (·.contains virt) manager.regions with
    | none => (false, k)
    | some (before, region, after) =>
      if write ∧ region.prot &&& protWrite = 0 then (false, k)
      else if write = false ∧ region.prot &&& protRead = 0 then (false, k)
      else
        match region.pages.lookup page with
        | some frame =>
          if write ∧ region.isPrivate then
            k.copyOnWrite tid manager before after region page frame
          else if write then k.makeWritable region page frame
          else (true, k)
        | none => k.demandPage tid manager before after region page files

/-! ### The calls -/

/-- The loop of `mmap` for `MAP_POPULATE`. -/
def populate (tid : TaskId) (stop : UInt64) (write : Bool) (files : String → List UInt8) :
    ℕ → UInt64 → Kernel → Kernel
  | 0, _, k => k
  | turns + 1, page, k =>
    if page < stop then
      populate tid stop write files turns (page + 4096) (k.handleMmapFault tid page write files).2
    else k

/-- `path` is that of the file behind the descriptor, if it is one.  The result is `none` if the
search for an address has no end. -/
def mmap (tid : TaskId) (addr length : UInt64) (prot flags : UInt32) (fd : Int64)
    (offset : UInt64) (path : Option String) (files : String → List UInt8) :
    Option (Except MmapError UInt64) × Kernel :=
  match mmapBacking length flags fd offset path with
  | .error e => (some (.error e), k)
  | .ok backing =>
    let lenAligned := pageAlignUp length
    let (manager, k) := k.getManagerMut tid
    match manager.findFreeAddress lenAligned addr (flags &&& mapFixed ≠ 0) with
    | none => (none, k)
    | some (.error e) => (some (.error e), k)
    | some (.ok (vaddr, manager)) =>
      match manager.addRegion ⟨vaddr, lenAligned, prot, flags, backing, []⟩ with
      | .error e => (some (.error e), k)
      | .ok _ =>
        -- The manager with the region, and with its count of pages, is dropped here.
        if flags &&& mapPopulate ≠ 0 then
          (some (.ok vaddr), populate tid (vaddr + lenAligned) (prot &&& protWrite ≠ 0) files
            (lenAligned / 4096).toNat vaddr k)
        else (some (.ok vaddr), k)

def munmap (tid : TaskId) (addr length : UInt64) : Except MmapError Unit × Kernel :=
  if length = 0 then (.error .invalidArgument, k)
  else
    let lenAligned := pageAlignUp length
    if lenAligned = 0 then (.ok (), k)
    else
      match k.managers tid with
      | none => (.error .regionNotFound, k)
      | some manager =>
        match cut (·.start = addr) manager.regions with
        | none => (.error .regionNotFound, k)
        | some (before, region, after) =>
          if region.length ≠ lenAligned then
            if addr = region.start ∧ lenAligned < region.length then
              let newStart := addr + lenAligned
              let keepPages := region.pages.filter (newStart ≤ ·.1)
              let newRegion := { region with
                start := newStart
                length := region.length - lenAligned
                pages := keepPages }
              let removedPages := region.pages.length - keepPages.length
              -- The part that is to go stays in the table, with its pages.
              let region := { region with
                length := lenAligned
                pages := region.pages.filter (·.1 < addr + lenAligned) }
              (.ok (), (k.setManager tid ({ manager with
                regions := before ++ region :: newRegion :: after }.decMappedPages
                  (.ofNat removedPages))).unmapPages region)
            else (.error .unsupported, k)
          else
            (.ok (), (k.setManager tid ({ manager with
              regions := before ++ after }.decMappedPages
                (.ofNat region.pages.length))).unmapPages region)

def mprotect (tid : TaskId) (addr length : UInt64) (prot : UInt32) :
    Except MmapError Unit × Kernel :=
  if length = 0 then (.error .invalidArgument, k)
  else
    let lenAligned := pageAlignUp length
    match k.managers tid with
    | none => (.error .regionNotFound, k)
    | some manager =>
      match cut (·.start = addr) manager.regions with
      | none => (.error .regionNotFound, k)
      | some (before, region, after) =>
        if region.length ≠ lenAligned then (.error .unsupported, k)
        else
          let region := { region with prot }
          (.ok (), exec (protectPage · region.toPteFlags)
            (k.setManager tid { manager with regions := before ++ region :: after }) region.pages)

def cleanupFor (tid : TaskId) : Kernel :=
  match k.managers tid with
  | none => k
  | some manager =>
    exec unmapPages { k with managers := Function.update k.managers tid none } manager.regions

end Kernel

inductive MmapCall where
  | mmap (addr length : UInt64) (prot flags : UInt32) (fd : Int64) (offset : UInt64)
      (path : Option String) (files : String → List UInt8)
  | munmap (addr length : UInt64)
  | mprotect (addr length : UInt64) (prot : UInt32)
  | fault (virt : UInt64) (write : Bool) (files : String → List UInt8)
  | cleanup

def Kernel.step (tid : TaskId) (k : Kernel) : MmapCall → Kernel
  | .mmap addr length prot flags fd offset path files =>
    (k.mmap tid addr length prot flags fd offset path files).2
  | .munmap addr length => (k.munmap tid addr length).2
  | .mprotect addr length prot => (k.mprotect tid addr length prot).2
  | .fault virt write files => (k.handleMmapFault tid virt write files).2
  | .cleanup => k.cleanupFor tid

/-! ## Cutting a list -/

section Cut

variable {α : Type} {p : α → Bool} {l before after : List α} {x : α}

theorem cut_eq_none_iff : cut p l = none ↔ ∀ x ∈ l, p x = false := by
  induction l with
  | nil => simp [cut]
  | cons y l ih =>
    simp only [cut]
    by_cases hy : p y
    · simp [hy]
    cases hcut : cut p l with
    | none => simpa [hy] using ih.mp hcut
    | some =>
      have hne : ¬ ∀ x ∈ l, p x = false := fun hall => by simp [ih.mpr hall] at hcut
      simpa [hy] using hne

section

variable (h : cut p l = some (before, x, after))
include h

theorem cut_eq_some : l = before ++ x :: after ∧ p x ∧ ∀ y ∈ before, p y = false := by
  induction l generalizing before with
  | nil => cases h
  | cons y l ih =>
    simp only [cut] at h
    by_cases hy : p y
    · rw [if_pos hy] at h
      cases h
      exact ⟨rfl, hy, by simp⟩
    rw [if_neg hy] at h
    cases hcut : cut p l with
    | none => simp [hcut] at h
    | some c =>
      obtain ⟨before', x', after'⟩ := c
      simp only [hcut] at h
      cases h
      obtain ⟨rfl, hx, hbefore⟩ := ih hcut
      exact ⟨rfl, hx, List.forall_mem_cons.mpr ⟨by simpa using hy, hbefore⟩⟩

variable {P : List α → α → List α → Prop}

theorem forall_cut_iff : (∀ b y a, cut p l = some (b, y, a) → P b y a) ↔ P before x after := by
  simp [h]

theorem exists_cut_iff : (∃ b y a, cut p l = some (b, y, a) ∧ P b y a) ↔ P before x after := by
  simp [h]

end

end Cut

/-! ## What `mmap` leaves -/

theorem toNat_and_not_4095 (x : UInt64) : (x &&& ~~~4095).toNat = x.toNat / 4096 * 4096 := by
  have hmask : ∀ i : Fin 64, (~~~(4095 : UInt64)).toNat.testBit i = decide (12 ≤ i.1) := by decide
  rw [UInt64.toNat_and]
  refine Nat.eq_of_testBit_eq fun i => ?_
  have hdiv : (x.toNat / 4096 * 4096).testBit i = (decide (12 ≤ i) && x.toNat.testBit i) := by
    rw [show (4096 : ℕ) = 2 ^ 12 from rfl, Nat.testBit_mul_two_pow, Nat.testBit_div_two_pow]
    by_cases hi : 12 ≤ i
    · simp [hi, Nat.sub_add_cancel hi]
    · simp [hi]
  rw [hdiv, Nat.testBit_and]
  by_cases hi : i < 64
  · rw [hmask ⟨i, hi⟩, Bool.and_comm]
  have hbig : x.toNat.testBit i = false := Nat.testBit_lt_two_pow (x.toNat_lt.trans_le
      (Nat.pow_le_pow_right (by decide) (Nat.not_lt.mp hi)))
  simp [hbig]

theorem toNat_pageAlignUp (x : UInt64) :
    (pageAlignUp x).toNat = (x.toNat + 4095) % 2 ^ 64 / 4096 * 4096 := by
  rw [pageAlignUp, toNat_and_not_4095, UInt64.toNat_add]
  rfl

namespace MmapManager

variable {m m' : MmapManager} {length hint addr : UInt64} {fixed : Bool}

theorem searchLoop_eq_some {turns : ℕ} {start : UInt64}
    (h : m.searchLoop length turns start = some addr) :
    ∀ r ∈ m.regions, overlaps addr length r = false := by
  induction turns generalizing start with
  | zero => cases h
  | succ _ ih =>
    simp only [searchLoop] at h
    cases hfind : m.regions.find? (overlaps start length) with
    | some =>
      rw [hfind] at h
      exact ih h
    | none =>
      rw [hfind] at h
      cases h
      simpa using List.find?_eq_none.mp hfind

theorem findFreeAddress_eq_ok (h : m.findFreeAddress length hint fixed = some (.ok (addr, m'))) :
    (∀ r ∈ m.regions, overlaps addr length r = false) ∧ m'.regions = m.regions := by
  unfold findFreeAddress at h
  cases fixed with
  | true =>
    simp only [if_true] at h
    split_ifs at h with hzero hany
    · cases h
    · cases h
    · cases h
      exact ⟨by simpa using hany, rfl⟩
  | false =>
    simp only [Bool.false_eq_true, if_false] at h
    split at h
    · cases h
    · rename_i candidate hsearch
      cases h
      exact ⟨searchLoop_eq_some hsearch, rfl⟩

end MmapManager

namespace Kernel

variable {k : Kernel} {tid : TaskId} {manager : MmapManager}

theorem managers_getManagerMut (k : Kernel) (tid : TaskId) :
    (k.getManagerMut tid).2.managers tid = some (k.getManagerMut tid).1 := by
  unfold getManagerMut
  cases h : k.managers tid with
  | some => exact h
  | none => exact Function.update_self ..

theorem handleMmapFault_of_outside (hm : k.managers tid = some manager) {virt : UInt64}
    (hout : ∀ r ∈ manager.regions, r.contains virt = false) (write : Bool)
    (files : String → List UInt8) : k.handleMmapFault tid virt write files = (false, k) := by
  have hcut : cut (·.contains virt) manager.regions = none := cut_eq_none_iff.mpr hout
  simp only [handleMmapFault, hm, hcut]

theorem populate_eq (hm : k.managers tid = some manager) {vaddr length : UInt64}
    (hover : ∀ r ∈ manager.regions, MmapManager.overlaps vaddr length r = false) (write : Bool)
    (files : String → List UInt8) {turns : ℕ} {page : UInt64} (hle : vaddr.toNat ≤ page.toNat)
    (hdvd : ((vaddr + length).toNat - page.toNat) % 4096 = 0) :
    populate tid (vaddr + length) write files turns page k = k := by
  induction turns generalizing page with
  | zero => rfl
  | succ _ ih =>
    unfold populate
    by_cases hlt : page < vaddr + length
    · have hout : ∀ r ∈ manager.regions, r.contains page = false := by
        intro r hr
        have hno := hover r hr
        simp only [MmapManager.overlaps, MmapRegion.contains, Bool.and_eq_false_iff,
          decide_eq_false_iff_not, UInt64.lt_iff_toNat_lt, UInt64.le_iff_toNat_le] at hlt hno ⊢
        omega
      rw [if_pos hlt, handleMmapFault_of_outside hm hout]
      rw [UInt64.lt_iff_toNat_lt] at hlt
      have hbound := (vaddr + length).toNat_lt
      have hnext : (page + 4096).toNat = page.toNat + 4096 := by
        rw [UInt64.toNat_add]
        exact Nat.mod_eq_of_lt (by change page.toNat + 4096 < 2 ^ 64; omega)
      exact ih (by omega) (by omega)
    · rw [if_neg hlt]

theorem mmap_snd (k : Kernel) (tid : TaskId) (addr length : UInt64) (prot flags : UInt32)
    (fd : Int64) (offset : UInt64) (path : Option String) (files : String → List UInt8) :
    (k.mmap tid addr length prot flags fd offset path files).2 = k ∨
      (k.mmap tid addr length prot flags fd offset path files).2 = (k.getManagerMut tid).2 := by
  unfold mmap
  split
  · exact .inl rfl
  refine .inr ?_
  dsimp only
  split
  · rfl
  · rfl
  rename_i vaddr manager' hfind
  obtain ⟨hover, -⟩ := MmapManager.findFreeAddress_eq_ok hfind
  split
  · rfl
  split_ifs
  · refine populate_eq (managers_getManagerMut k tid) hover _ files le_rfl ?_
    have hdvd := toNat_pageAlignUp length
    rw [UInt64.toNat_add]
    omega
  · rfl

end Kernel

end IonaOs.Process
