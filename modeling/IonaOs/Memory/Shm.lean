import IonaOs.Lib.MapSum
import IonaOs.Memory.FrameCounts

/-!
# Shared memory segments
-/

namespace IonaOs.Memory

open Std Lib ExtTreeMap

namespace Shm

def ipcCreat : UInt32 := 0o1000
def ipcExcl : UInt32 := 0o2000
def ipcPrivate : UInt64 := 0
def ipcRmid : UInt32 := 0
def ipcStat : UInt32 := 1
def ipcSet : UInt32 := 2
def shmR : UInt32 := 0o400
def shmW : UInt32 := 0o200
def shmLock : UInt32 := 3
def shmUnlock : UInt32 := 4
def shmRdonly : UInt32 := 0o10000

end Shm

open Shm

structure ShmConfig where
  maxSegmentSize : UInt64 := 64 * 1024 * 1024
  maxSegmentsPerProcess : ℕ := 32

inductive ShmError where
  | notFound (key : UInt64)
  | alreadyExists (key : UInt64)
  | sizeTooLarge (size max : UInt64)
  | zeroSize
  | outOfMemory
  | permissionDenied
  | tooManyAttachments (pid : UInt32) (max : ℕ)
  | invalidAddress (addr : UInt64)
  | invalidCommand (cmd : UInt32)

structure ShmPerm where
  uid : UInt32 := 0
  gid : UInt32 := 0
  cuid : UInt32 := 0
  cgid : UInt32 := 0
  mode : UInt32

structure ShmSegment where
  key : UInt64
  size : UInt64
  physFrames : List ℕ
  refCount : UInt32
  perm : ShmPerm
  flags : UInt32
  creatorPid : UInt32
  lastAttachPid : UInt32
  lastDetachPid : UInt32
  attachTime : UInt64
  detachTime : UInt64
  modTime : UInt64
  locked : Bool

def ShmSegment.isAttached (seg : ShmSegment) : Bool := 0 < seg.refCount

structure ProcessAttachment where
  key : UInt64
  virtAddr : UInt64
  flags : UInt32
deriving DecidableEq

structure Shm where
  config : ShmConfig
  segments : ExtTreeMap UInt64 ShmSegment compare
  attachments : ExtTreeMap UInt32 (List ProcessAttachment) compare
  privateKeyBase : UInt64
  frames : FrameAllocator

namespace Shm

def new (cfg : ShmConfig) (frames : FrameAllocator) : Shm :=
  ⟨cfg, ∅, ∅, 0x8000000000000000, frames⟩

variable (s : Shm)

/-! ## The tables -/

def insertSegment (seg : ShmSegment) : Except ShmError Unit × Shm :=
  if s.segments.contains seg.key then (.error (.alreadyExists seg.key), s)
  else (.ok (), { s with segments := s.segments.insert seg.key seg })

def getAttachments (pid : UInt32) : List ProcessAttachment := s.attachments[pid]?.getD []

def addAttachment (pid : UInt32) (attachment : ProcessAttachment) : Except ShmError Unit × Shm :=
  let entries := s.getAttachments pid
  if s.config.maxSegmentsPerProcess ≤ entries.length then
    (.error (.tooManyAttachments pid s.config.maxSegmentsPerProcess),
      { s with attachments := s.attachments.insert pid entries })
  else (.ok (), { s with attachments := s.attachments.insert pid (entries ++ [attachment]) })

def removeAttachment (pid : UInt32) (addr : UInt64) : Option (ProcessAttachment × Shm) :=
  match s.attachments[pid]? with
  | none => none
  | some entries =>
    match entries.find? (·.virtAddr = addr) with
    | none => none
    | some attachment =>
      let entries := entries.eraseP (·.virtAddr = addr)
      some (attachment, { s with attachments := s.attachments.insert pid entries })

/-! ## The calls -/

def removeSegmentInternal (key : UInt64) : Except ShmError Unit × Shm :=
  match s.segments[key]? with
  | none => (.error (.notFound key), s)
  | some seg =>
    (.ok (), { s with
      segments := s.segments.erase key
      frames := s.frames.release seg.physFrames })

/-- The size in whole pages, rounded up; the sum wraps. -/
def alignedSize (size : UInt64) : UInt64 := (size + 4095) &&& ~~~ 4095

def pageCount (size : UInt64) : ℕ := (alignedSize size / 4096).toNat

def shmget (key size : UInt64) (flags : UInt32) (pid : UInt32) (now : UInt64) :
    Except ShmError UInt64 × Shm :=
  if size = 0 then (.error .zeroSize, s)
  else if s.config.maxSegmentSize < size then
    (.error (.sizeTooLarge size s.config.maxSegmentSize), s)
  else
    match s.segments[key]? with
    | some seg =>
      if flags &&& ipcExcl ≠ 0 then (.error (.alreadyExists key), s)
      else if seg.size < alignedSize size then
        (.error (.sizeTooLarge (alignedSize size) seg.size), s)
      else (.ok key, s)
    | none =>
      if flags &&& ipcCreat = 0 ∧ key ≠ ipcPrivate then (.error (.notFound key), s)
      else
        match FrameAllocator.allocateFrames (pageCount size) [] s.frames with
        | (none, frames) => (.error .outOfMemory, { s with frames })
        | (some physFrames, frames) =>
          let segmentKey := if key = ipcPrivate then s.privateKeyBase else key
          let privateKeyBase :=
            if key = ipcPrivate then s.privateKeyBase + 1 else s.privateKeyBase
          let seg : ShmSegment := {
            key := segmentKey
            size := alignedSize size
            physFrames
            refCount := 0
            perm := { mode := flags &&& (shmR ||| shmW) }
            flags
            creatorPid := pid
            lastAttachPid := 0
            lastDetachPid := 0
            attachTime := 0
            detachTime := 0
            modTime := now
            locked := false }
          match { s with frames, privateKeyBase }.insertSegment seg with
          | (.error e, s) => (.error e, s)
          | (.ok (), s) => (.ok segmentKey, s)

def shmat (key virtAddr : UInt64) (flags : UInt32) (pid : UInt32) (now : UInt64) :
    Except ShmError UInt64 × Shm :=
  match s.segments[key]? with
  | none => (.error (.notFound key), s)
  | some seg =>
    if seg.perm.mode &&& shmR = 0 then (.error .permissionDenied, s)
    else if flags &&& shmRdonly = 0 ∧ seg.perm.mode &&& shmW = 0 then (.error .permissionDenied, s)
    else if s.config.maxSegmentsPerProcess ≤ (s.getAttachments pid).length then
      (.error (.tooManyAttachments pid s.config.maxSegmentsPerProcess), s)
    else
      let addr := if virtAddr ≠ 0 then virtAddr else 0x800000000000 + key * 0x100000
      let seg := { seg with
        refCount := seg.refCount + 1
        lastAttachPid := pid
        attachTime := now }
      let s := (s.insertSegment seg).2
      match s.addAttachment pid ⟨key, addr, flags⟩ with
      | (.error e, s) => (.error e, s)
      | (.ok (), s) => (.ok addr, s)

def shmdt (addr : UInt64) (pid : UInt32) (now : UInt64) : Except ShmError Unit × Shm :=
  match s.removeAttachment pid addr with
  | none => (.error (.invalidAddress addr), s)
  | some (attachment, s) =>
    match s.segments[attachment.key]? with
    | none => (.error (.notFound attachment.key), s)
    | some seg =>
      let seg :=
        if 0 < seg.refCount then
          { seg with refCount := seg.refCount - 1, lastDetachPid := pid, detachTime := now }
        else seg
      let s := (s.insertSegment seg).2
      match s.segments[attachment.key]? with
      | none => (.ok (), s)
      | some after =>
        if after.flags &&& ipcRmid ≠ 0 ∧ after.isAttached = false then
          s.removeSegmentInternal attachment.key
        else (.ok (), s)

def shmctl (key : UInt64) (cmd : UInt32) (buf : Option ShmPerm) (now : UInt64) :
    Except ShmError (Option ShmPerm) × Shm :=
  match s.segments[key]? with
  | none => (.error (.notFound key), s)
  | some seg =>
    if cmd = ipcRmid then
      if seg.isAttached = false then
        match s.removeSegmentInternal key with
        | (.error e, s) => (.error e, s)
        | (.ok (), s) => (.ok buf, s)
      else (.ok buf, (s.insertSegment { seg with flags := seg.flags ||| ipcRmid }).2)
    else if cmd = ipcStat then (.ok (buf.map fun _ => seg.perm), s)
    else if cmd = ipcSet then
      match buf with
      | none => (.ok none, s)
      | some perm => (.ok buf, (s.insertSegment { seg with perm, modTime := now }).2)
    else if cmd = shmLock then (.ok buf, (s.insertSegment { seg with locked := true }).2)
    else if cmd = shmUnlock then (.ok buf, (s.insertSegment { seg with locked := false }).2)
    else (.error (.invalidCommand cmd), s)

def cleanupProcess (pid : UInt32) (now : UInt64) : Shm :=
  let attachments := s.getAttachments pid
  let s := { s with attachments := s.attachments.erase pid }
  attachments.foldl (fun s a => (s.shmdt a.virtAddr pid now).2) s

def attached (key : UInt64) : ℕ := valueSum (fun l => l.countP (·.key = key)) s.attachments

def uses (f : ℕ) : ℕ := valueSum (fun seg => seg.physFrames.count f) s.segments

end Shm

/-! ## Runs -/

inductive ShmCall where
  | shmget (key size : UInt64) (flags : UInt32) (pid : UInt32) (now : UInt64)
  | shmat (key virtAddr : UInt64) (flags : UInt32) (pid : UInt32) (now : UInt64)
  | shmdt (addr : UInt64) (pid : UInt32) (now : UInt64)
  | shmctl (key : UInt64) (cmd : UInt32) (buf : Option ShmPerm) (now : UInt64)
  | cleanupProcess (pid : UInt32) (now : UInt64)

structure ShmRun where
  shm : Shm
  doomed : UInt64 → Bool

namespace ShmRun

def start (cfg : ShmConfig) (frames : FrameAllocator) : ShmRun :=
  ⟨.new cfg frames, fun _ => false⟩

def step (s : ShmRun) : ShmCall → ShmRun
  | .shmget key size flags pid now =>
    match s.shm.shmget key size flags pid now with
    | (.ok key', shm) =>
      -- a key that is used again belongs to a new segment
      ⟨shm, if s.shm.segments.contains key' then s.doomed
        else Function.update s.doomed key' false⟩
    | (.error _, shm) => ⟨shm, s.doomed⟩
  | .shmat key virtAddr flags pid now => ⟨(s.shm.shmat key virtAddr flags pid now).2, s.doomed⟩
  | .shmdt addr pid now => ⟨(s.shm.shmdt addr pid now).2, s.doomed⟩
  | .shmctl key cmd buf now =>
    ⟨(s.shm.shmctl key cmd buf now).2,
      if cmd = ipcRmid ∧ 0 < s.shm.attached key then Function.update s.doomed key true
      else s.doomed⟩
  | .cleanupProcess pid now => ⟨s.shm.cleanupProcess pid now, s.doomed⟩

structure Lifetime (others : ℕ → ℕ) (s : ShmRun) : Prop where
  counted : ∀ (key : UInt64) (seg : ShmSegment), s.shm.segments[key]? = some seg →
    seg.refCount.toNat = s.shm.attached key
  frames : ∀ f, s.shm.frames.refs f = others f + s.shm.uses f
  live : ∀ key, 0 < s.shm.attached key → key ∈ s.shm.segments
  doomed : ∀ key, s.doomed key = true → (key ∈ s.shm.segments ↔ 0 < s.shm.attached key)

/-- The call makes a private segment of at least one page, finds frames for it, and draws a key that
is in use: the segment is refused, and its frames are lost. -/
structure LosesFrames (s : Shm) (key size : UInt64) : Prop where
  isPrivate : key = ipcPrivate ∧ key ∉ s.segments
  fits : size ≤ s.config.maxSegmentSize
  pages : 0 < pageCount size
  found : (FrameAllocator.allocateFrames (pageCount size) [] s.frames).1.isSome = true
  used : s.privateKeyBase ∈ s.segments

/-- The segment is there, lets the process in, and the process may have one more. -/
def Attaches (s : Shm) (key : UInt64) (flags pid : UInt32) : Prop :=
  ∃ seg, s.segments[key]? = some seg ∧ seg.perm.mode &&& shmR ≠ 0 ∧
    (flags &&& shmRdonly ≠ 0 ∨ seg.perm.mode &&& shmW ≠ 0) ∧
    (s.getAttachments pid).length < s.config.maxSegmentsPerProcess

def Harmless (s : ShmRun) : ShmCall → Prop
  | .shmget key size _ _ _ => ¬ LosesFrames s.shm key size
  | .shmat key _ flags pid _ => ¬ Attaches s.shm key flags pid
  | _ => True

end ShmRun

/-! ## Calls -/

open ShmRun

variable {frames : FrameAllocator} {privateKeyBase : UInt64}

namespace Shm

variable {s : Shm} {key : UInt64} {seg : ShmSegment}

theorem insertSegment_of_mem (h : seg.key ∈ s.segments) : (s.insertSegment seg).2 = s := by
  rw [insertSegment, if_pos (contains_iff_mem.mpr h)]

theorem mem_of_getElem?_eq_some (h : s.segments[key]? = some seg) : key ∈ s.segments := by
  rw [mem_iff_isSome_getElem?, h]
  rfl

section

variable (h : s.attachments = ∅)
include h

theorem attached_of_empty (key : UInt64) : s.attached key = 0 := by
  rw [attached, h, valueSum_empty]

theorem shmdt_of_empty (addr : UInt64) (pid : UInt32) (now : UInt64) :
    (s.shmdt addr pid now).2 = s := by
  simp [shmdt, removeAttachment, h]

theorem cleanupProcess_of_empty (pid : UInt32) (now : UInt64) : s.cleanupProcess pid now = s := by
  have herase : s.attachments.erase pid = s.attachments := by
    rw [h, erase_empty]
  have hnone : s.getAttachments pid = [] := by simp [getAttachments, h]
  rw [cleanupProcess, hnone, herase]
  rfl

end

section

variable (hkeyed : ∀ (key : UInt64) (seg : ShmSegment), s.segments[key]? = some seg → seg.key = key)
include hkeyed

theorem shmat_cases
    (key virtAddr : UInt64) (flags : UInt32) (pid : UInt32) (now : UInt64) :
    ¬ Attaches s key flags pid ∧ (s.shmat key virtAddr flags pid now).2 = s ∨
      Attaches s key flags pid ∧ ∃ addr, s.shmat key virtAddr flags pid now = (.ok addr, { s with
        attachments :=
          s.attachments.insert pid (s.getAttachments pid ++ [⟨key, addr, flags⟩]) }) := by
  cases hseg : s.segments[key]? with
  | none => exact .inl ⟨by simp [Attaches, hseg], by simp [shmat, hseg]⟩
  | some seg =>
    have hmem := mem_of_getElem?_eq_some hseg
    have hattaches : Attaches s key flags pid ↔ seg.perm.mode &&& shmR ≠ 0 ∧
        (flags &&& shmRdonly ≠ 0 ∨ seg.perm.mode &&& shmW ≠ 0) ∧
        (s.getAttachments pid).length < s.config.maxSegmentsPerProcess := by
      simp [Attaches, hseg]
    rw [hattaches]
    simp only [shmat, hseg]
    split
    · rename_i hread
      exact .inl ⟨fun h => h.1 hread, rfl⟩
    split
    · rename_i hwrite
      exact .inl ⟨fun h => h.2.1.elim (· hwrite.1) (· hwrite.2), rfl⟩
    split
    · rename_i hfull
      exact .inl ⟨fun h => Nat.not_lt.mpr hfull h.2.2, rfl⟩
    rename_i hread hwrite hroom
    rw [insertSegment_of_mem (by rw [hkeyed key seg hseg]; exact hmem), addAttachment, if_neg hroom]
    refine .inr ⟨⟨hread, ?_, Nat.lt_of_not_le hroom⟩, _, rfl⟩
    rwa [not_and_or] at hwrite

theorem shmctl_cases
    (hzero : ∀ (key : UInt64) (seg : ShmSegment), s.segments[key]? = some seg → seg.refCount = 0)
    (key : UInt64) (cmd : UInt32) (buf : Option ShmPerm) (now : UInt64) :
    (s.shmctl key cmd buf now).2 = s ∨
      ∃ seg, s.segments[key]? = some seg ∧ (s.shmctl key cmd buf now).2 = { s with
        segments := s.segments.erase key
        frames := s.frames.release seg.physFrames } := by
  cases hseg : s.segments[key]? with
  | none => exact .inl (by simp [shmctl, hseg])
  | some seg =>
    have hmem : seg.key ∈ s.segments := by
      rw [hkeyed key seg hseg]
      exact mem_of_getElem?_eq_some hseg
    have hfree : seg.isAttached = false := by
      simp [ShmSegment.isAttached, hzero key seg hseg]
    simp only [shmctl, hseg, hfree, if_true]
    split
    · exact .inr ⟨seg, rfl, by simp [removeSegmentInternal, hseg]⟩
    refine .inl ?_
    split
    · rfl
    split
    · split
      · rfl
      · exact insertSegment_of_mem hmem
    split
    · exact insertSegment_of_mem hmem
    split
    · exact insertSegment_of_mem hmem
    · rfl

end

/-- The outcomes of `shmget`. -/
inductive Got (s : Shm) (loses : Prop) : Except ShmError UInt64 × Shm → Prop
  | kept {result} {frames : FrameAllocator} {privateKeyBase : UInt64} (h : ¬ loses)
      (hsound : frames.Sound) (hrefs : ∀ f, frames.refs f = s.frames.refs f)
      (hold : ∀ key', result = .ok key' → key' ∈ s.segments) :
      Got s loses (result, { s with frames, privateKeyBase })
  | created {frames : FrameAllocator} {seg : ShmSegment} {privateKeyBase : UInt64} (h : ¬ loses)
      (hsound : frames.Sound) (hnew : s.segments[seg.key]? = none) (hcount : seg.refCount = 0)
      (hrefs : ∀ f, frames.refs f = s.frames.refs f + seg.physFrames.count f) :
      Got s loses (.ok seg.key,
        { s with segments := s.segments.insert seg.key seg, frames, privateKeyBase })
  | refused {err} {frames : FrameAllocator} {privateKeyBase : UInt64} {physFrames : List ℕ}
      (h : loses) (hframes : physFrames ≠ [])
      (hrefs : ∀ f, frames.refs f = s.frames.refs f + physFrames.count f) :
      Got s loses (.error err, { s with frames, privateKeyBase })

theorem Got.same {loses : Prop} {result} (hs : s.frames.Sound) (h : ¬ loses)
    (hold : ∀ key', result = .ok key' → key' ∈ s.segments) : Got s loses (result, s) :=
  .kept h hs (fun _ => rfl) hold

theorem got_insertSegment {loses : Prop} (hsound : frames.Sound) (hcount : seg.refCount = 0)
    (hrefs : ∀ f, frames.refs f = s.frames.refs f + seg.physFrames.count f)
    (hloses : loses ↔ seg.key ∈ s.segments ∧ seg.physFrames ≠ []) :
    Got s loses (match { s with frames, privateKeyBase }.insertSegment seg with
      | (.error e, s) => (.error e, s)
      | (.ok (), s) => (.ok seg.key, s)) := by
  rw [insertSegment]
  dsimp only
  by_cases hused : seg.key ∈ s.segments
  · rw [if_pos (contains_iff_mem.mpr hused)]
    by_cases hnil : seg.physFrames = []
    · refine .kept (fun h => (hloses.mp h).2 hnil) hsound (fun f => ?_) (by simp)
      rw [hrefs f, hnil]
      rfl
    · exact .refused (hloses.mpr ⟨hused, hnil⟩) hnil hrefs
  · rw [if_neg (fun h => hused (contains_iff_mem.mp h))]
    exact .created (fun h => hused (hloses.mp h).1) hsound (getElem?_eq_none hused) hcount hrefs

theorem got_shmget (hs : s.frames.Sound) (key size : UInt64) (flags : UInt32) (pid : UInt32)
    (now : UInt64) : Got s (LosesFrames s key size) (s.shmget key size flags pid now) := by
  unfold shmget
  split
  · rename_i hzero
    exact .same hs (fun h => absurd h.pages (by rw [hzero]; decide)) (by simp)
  split
  · rename_i hlarge
    exact .same hs (fun h => UInt64.not_le.mpr hlarge h.fits) (by simp)
  rename_i hsize
  cases hseg : s.segments[key]? with
  | some seg =>
    have hmem := mem_of_getElem?_eq_some hseg
    have hnot : ¬ LosesFrames s key size := fun h => h.isPrivate.2 hmem
    dsimp only
    split
    · exact .same hs hnot (by simp)
    split
    · exact .same hs hnot (by simp)
    · refine .same hs hnot ?_
      rintro key' ⟨⟩
      exact hmem
  | none =>
    have hfree : key ∉ s.segments := by
      rw [mem_iff_isSome_getElem?, hseg]
      exact Bool.false_ne_true
    dsimp only
    split
    · rename_i hkey
      exact .same hs (fun h => hkey.2 h.isPrivate.1) (by simp)
    rcases hs.allocateFrames_cases (pageCount size) [] with
      ⟨new, frames, heq, hlen, hsound, hrefs⟩ | ⟨frames, heq, hsound, hrefs⟩
    · rw [heq]
      refine got_insertSegment hsound rfl hrefs ⟨fun h => ?_, fun ⟨hused, hne⟩ => ?_⟩
      · have hpages := h.pages
        refine ⟨by simpa [h.isPrivate.1] using h.used, fun hnil => ?_⟩
        have hnew : new = [] := hnil
        rw [hnew, List.length_nil] at hlen
        omega
      · by_cases hkey : key = ipcPrivate
        · refine ⟨⟨hkey, hfree⟩, UInt64.not_lt.mp hsize, ?_, by rw [heq]; rfl, ?_⟩
          · rw [← hlen]
            exact List.length_pos_of_ne_nil hne
          · simpa [hkey] using hused
        · exact absurd (by simpa [hkey] using hused) hfree
    · rw [heq]
      refine .kept (fun h => ?_) hsound hrefs (by simp)
      have hfound := h.found
      rw [heq] at hfound
      cases hfound

end Shm

namespace ShmRun

variable {s : ShmRun} {others : ℕ → ℕ}

structure Quiet (others : ℕ → ℕ) (s : ShmRun) : Prop where
  sound : s.shm.frames.Sound
  keyed : ∀ (key : UInt64) (seg : ShmSegment), s.shm.segments[key]? = some seg → seg.key = key
  zero : ∀ (key : UInt64) (seg : ShmSegment), s.shm.segments[key]? = some seg → seg.refCount = 0
  empty : s.shm.attachments = ∅
  frames : ∀ f, s.shm.frames.refs f = others f + s.shm.uses f
  doomed : ∀ key, s.doomed key = false

theorem quiet_start (cfg : ShmConfig) (h : frames.Sound) :
    (start cfg frames).Quiet frames.refs where
  sound := h
  keyed := fun key seg hseg => by simp [start, new] at hseg
  zero := fun key seg hseg => by simp [start, new] at hseg
  empty := rfl
  frames := fun f => rfl
  doomed := fun _ => rfl

theorem Quiet.lifetime (h : s.Quiet others) : s.Lifetime others where
  counted := fun key seg hseg => by
    rw [h.zero key seg hseg, attached_of_empty h.empty]
    rfl
  frames := h.frames
  live := fun key hkey => by
    rw [attached_of_empty h.empty] at hkey
    exact absurd hkey (Nat.lt_irrefl 0)
  doomed := fun key hkey => by
    rw [h.doomed] at hkey
    cases hkey

def Decides (others : ℕ → ℕ) (s : ShmRun) (call : ShmCall) : Prop :=
  (s.Harmless call ∧ (s.step call).Quiet others) ∨
    (¬ s.Harmless call ∧ ¬ (s.step call).Lifetime others)

section

variable (h : s.Quiet others)
include h

theorem Quiet.shmat (key virtAddr : UInt64) (flags : UInt32) (pid : UInt32)
    (now : UInt64) : s.Decides others (.shmat key virtAddr flags pid now) := by
  rcases shmat_cases h.keyed key virtAddr flags pid now with ⟨hnot, heq⟩ | ⟨hattaches, addr, heq⟩
  · refine .inl ⟨hnot, ?_⟩
    rw [step, heq]
    exact h
  refine .inr ⟨fun hnot => hnot hattaches, fun hlife => ?_⟩
  obtain ⟨seg, hseg, -⟩ := hattaches
  have hcount := hlife.counted key seg (by rw [step, heq]; exact hseg)
  have hrecords := valueSum_insert (fun l : List ProcessAttachment => l.countP (·.key = key))
    s.shm.attachments pid (s.shm.getAttachments pid ++ [⟨key, addr, flags⟩])
  rw [h.zero key seg hseg, step, heq, attached] at hcount
  rw [← hcount] at hrecords
  simp [h.empty, getAttachments] at hrecords

theorem Quiet.shmctl (key : UInt64) (cmd : UInt32) (buf : Option ShmPerm)
    (now : UInt64) : (s.step (.shmctl key cmd buf now)).Quiet others := by
  have hstep : s.step (.shmctl key cmd buf now) = ⟨(s.shm.shmctl key cmd buf now).2, s.doomed⟩ := by
    simp [step, attached_of_empty h.empty]
  rw [hstep]
  rcases shmctl_cases h.keyed h.zero key cmd buf now with heq | ⟨seg, hseg, heq⟩
  · rw [heq]
    exact h
  obtain ⟨hsound, hrefs⟩ := h.sound.release seg.physFrames
  have hold : ∀ (key' : UInt64) (seg' : ShmSegment),
      (s.shm.segments.erase key)[key']? = some seg' → s.shm.segments[key']? = some seg' := by
    intro key' seg' hseg'
    rw [getElem?_erase] at hseg'
    split_ifs at hseg'
    exact hseg'
  rw [heq]
  refine ⟨hsound, fun key' seg' hseg' => h.keyed key' seg' (hold key' seg' hseg'),
    fun key' seg' hseg' => h.zero key' seg' (hold key' seg' hseg'), h.empty, fun f => ?_,
    h.doomed⟩
  have hsum := valueSum_erase (fun seg : ShmSegment => seg.physFrames.count f) hseg
  have hbefore := h.frames f
  rw [uses] at hbefore ⊢
  dsimp only at hsum ⊢
  rw [hrefs f]
  omega

theorem Quiet.created {seg : ShmSegment} {doomed : UInt64 → Bool} (hsound : frames.Sound)
    (hnew : s.shm.segments[seg.key]? = none) (hcount : seg.refCount = 0)
    (hrefs : ∀ f, frames.refs f = s.shm.frames.refs f + seg.physFrames.count f)
    (hdoomed : ∀ key, doomed key = false) : Quiet others ⟨{ s.shm with
      segments := s.shm.segments.insert seg.key seg
      frames
      privateKeyBase }, doomed⟩ := by
  have hwrite : ∀ key : UInt64, (s.shm.segments.insert seg.key seg)[key]? =
      if seg.key = key then some seg else s.shm.segments[key]? := by
    intro key
    rw [getElem?_insert]
    exact if_congr LawfulEqCmp.compare_eq_iff_eq rfl rfl
  refine ⟨hsound, ?_, ?_, h.empty, fun f => ?_, hdoomed⟩
  · exact (forall_write_iff hwrite).mpr ⟨rfl, fun key seg' _ hseg' => h.keyed key seg' hseg'⟩
  · exact (forall_write_iff hwrite).mpr ⟨hcount, fun key seg' _ hseg' => h.zero key seg' hseg'⟩
  have hsum := valueSum_insert (fun seg : ShmSegment => seg.physFrames.count f) s.shm.segments
    seg.key seg
  rw [hnew] at hsum
  have hbefore := h.frames f
  rw [uses] at hbefore ⊢
  dsimp only
  rw [hrefs f, hbefore, Nat.add_assoc, ← hsum]
  rfl

theorem Quiet.shmget (key size : UInt64) (flags : UInt32) (pid : UInt32)
    (now : UInt64) : s.Decides others (.shmget key size flags pid now) := by
  have hgot := got_shmget h.sound key size flags pid now
  simp only [Decides, Harmless, step]
  generalize s.shm.shmget key size flags pid now = out at hgot
  cases hgot with
  | @kept result frames base hnot hsound hrefs hold =>
    have hquiet : ∀ doomed : UInt64 → Bool, (∀ key, doomed key = false) →
        Quiet others ⟨{ s.shm with frames, privateKeyBase := base }, doomed⟩ := fun _ hdoomed =>
      ⟨hsound, h.keyed, h.zero, h.empty, fun f => (hrefs f).trans (h.frames f), hdoomed⟩
    refine .inl ⟨hnot, ?_⟩
    cases result with
    | error => exact hquiet _ h.doomed
    | ok key' =>
      dsimp only
      rw [if_pos (contains_iff_mem.mpr (hold key' rfl))]
      exact hquiet _ h.doomed
  | @created frames seg base hnot hsound hnew hcount hrefs =>
    refine .inl ⟨hnot, h.created hsound hnew hcount hrefs ?_⟩
    intro key'
    split_ifs
    · exact h.doomed key'
    rw [Function.update_apply]
    split_ifs
    · rfl
    · exact h.doomed key'
  | @refused err frames base physFrames hloses hframes hrefs =>
    refine .inr ⟨fun hnot => hnot hloses, fun hlife => ?_⟩
    obtain ⟨f, hf⟩ := List.exists_mem_of_ne_nil physFrames hframes
    have hafter : frames.refs f = others f + s.shm.uses f := hlife.frames f
    have hpos := List.count_pos_iff.mpr hf
    rw [hrefs f, h.frames f] at hafter
    omega

theorem Quiet.decides (call : ShmCall) : s.Decides others call := by
  cases call with
  | shmget key size flags pid now => exact h.shmget key size flags pid now
  | shmat key virtAddr flags pid now => exact h.shmat key virtAddr flags pid now
  | shmdt =>
    refine .inl ⟨trivial, ?_⟩
    rw [step, shmdt_of_empty h.empty]
    exact h
  | shmctl key cmd buf now => exact .inl ⟨trivial, h.shmctl key cmd buf now⟩
  | cleanupProcess =>
    refine .inl ⟨trivial, ?_⟩
    rw [step, cleanupProcess_of_empty h.empty]
    exact h

end

/-- **The lifetime of a segment.**  In a run of any calls by any processes, the counts, the frames
and the removals of segments are as they should be at every point exactly if no call attaches a
segment, and none loses the frames of a private segment to a key that is in use. -/
theorem lifetime_along_iff (cfg : ShmConfig) {frames : FrameAllocator} (h : frames.Sound)
    (calls : List ShmCall) :
    (∀ past rest, calls = past ++ rest →
      (exec step (start cfg frames) past).Lifetime frames.refs) ↔
      Along step Harmless (start cfg frames) calls := by
  have h0 := quiet_start cfg h
  have hstep : ∀ s call, Quiet frames.refs s →
      ((s.step call).Lifetime frames.refs ↔ s.Harmless call) := by
    intro s call hs
    rcases hs.decides call with ⟨hharmless, hquiet⟩ | ⟨hnot, hbroken⟩
    · exact iff_of_true hquiet.lifetime hharmless
    · exact iff_of_false hbroken hnot
  rw [forall_split_iff_along, and_iff_right h0.lifetime]
  refine along_congr (I := Quiet frames.refs) ?_ hstep h0
  intro s call hs hlife
  rcases hs.decides call with ⟨-, hquiet⟩ | ⟨-, hbroken⟩
  · exact hquiet
  · exact absurd hlife hbroken

def sampleFrames : FrameAllocator :=
  (FrameAllocator.init ⟨⟨512, false⟩, .withMaxFrames 512, false, {}, 0, 0⟩
    [⟨0, 0x4000, .usable⟩]).markHeapReady

/-- A segment is made, and removed without ever being attached. -/
theorem lifetime_along_sample : ∃ calls : List ShmCall,
    calls = [.shmget 0x1234 4096 0o1600 1 0, .shmctl 0x1234 ipcRmid none 0] ∧
    ∀ past rest, calls = past ++ rest →
      (exec step (start {} sampleFrames) past).Lifetime sampleFrames.refs := by
  have hsound : sampleFrames.Sound := (FrameAllocator.valid_init _ rfl).sound_markHeapReady
  refine ⟨_, rfl, (lifetime_along_iff {} hsound _).mpr ⟨fun h => ?_, trivial, trivial⟩⟩
  exact absurd h.isPrivate.1 (by decide)

/-- A segment is attached, and removed while it is: its count is zero all the time, its frame has a
reference before and none afterwards, and the attachment is still there. -/
theorem attached_segment_removed : ∃ made attached removed : ShmRun,
    made = (start {} sampleFrames).step (.shmget 0x1234 4096 0o1600 1 0) ∧
    attached = made.step (.shmat 0x1234 0 0 1 0) ∧
    removed = attached.step (.shmctl 0x1234 ipcRmid none 0) ∧
    (attached.shm.segments[(0x1234 : UInt64)]?.map (·.refCount)) = some 0 ∧
    attached.shm.attached 0x1234 = 1 ∧ attached.shm.frames.refs 0 = 1 ∧
    removed.shm.segments.contains 0x1234 = false ∧
    removed.shm.attached 0x1234 = 1 ∧ removed.shm.frames.refs 0 = 0 := by
  refine ⟨_, _, _, rfl, rfl, rfl, ?_⟩
  decide +kernel

end ShmRun

/-! ## Addresses of attachments -/

namespace Shm

variable (s : Shm) (pid : UInt32)

def segmentSize (key : UInt64) : ℕ := s.segments[key]?.elim 0 (·.size.toNat)

def NoOverlap (start : ProcessAttachment → ℕ) : Prop :=
  (s.getAttachments pid).Pairwise fun a b =>
    start a + s.segmentSize a.key ≤ start b ∨ start b + s.segmentSize b.key ≤ start a
deriving Decidable

/-- The address of no attachment wraps, its range is of canonical addresses, and no two ranges
overlap. -/
def Apart : Prop :=
  (∀ a ∈ s.getAttachments pid, 0x800000000000 + a.key.toNat * 0x100000 < 2 ^ 64 ∧
    (a.virtAddr.toNat < 2 ^ 47 ∧ a.virtAddr.toNat + s.segmentSize a.key ≤ 2 ^ 47 ∨
      2 ^ 64 - 2 ^ 47 ≤ a.virtAddr.toNat ∧ a.virtAddr.toNat + s.segmentSize a.key ≤ 2 ^ 64)) ∧
  s.NoOverlap pid (·.virtAddr.toNat)
deriving Decidable

/-- The keys are among the 2 ^ 27 below 2 ^ 44 - 2 ^ 27, and far enough from each other for the
sizes. -/
def Spaced : Prop :=
  (∀ a ∈ s.getAttachments pid, 2 ^ 44 - 2 ^ 28 ≤ a.key.toNat ∧ a.key.toNat < 2 ^ 44 - 2 ^ 27 ∧
    (2 ^ 27 + a.key.toNat) * 2 ^ 20 + s.segmentSize a.key ≤ 2 ^ 64) ∧
  s.NoOverlap pid (·.key.toNat * 2 ^ 20)
deriving Decidable

def Placed (a : ProcessAttachment) : Prop := a.virtAddr = 0x800000000000 + a.key * 0x100000

variable {s pid} {key now : UInt64} {flags : UInt32}

theorem apart_iff_spaced (h : ∀ a ∈ s.getAttachments pid, Placed a) :
    s.Apart pid ↔ s.Spaced pid := by
  have haddr : ∀ a ∈ s.getAttachments pid,
      a.virtAddr.toNat = (0x800000000000 + a.key.toNat * 0x100000) % 2 ^ 64 := by
    intro a ha
    rw [h a ha, UInt64.toNat_add, UInt64.toNat_mul, Nat.add_mod_mod]
    rfl
  refine (and_congr_left' (forall₂_congr fun a ha => ?_)).trans
    (and_congr_right fun hkeys => List.Pairwise.iff_of_mem fun {a b} ha hb => ?_)
  · rw [haddr a ha]
    omega
  have hka := hkeys a ha
  have hkb := hkeys b hb
  simp only [haddr a ha, haddr b hb]
  omega

theorem attachments_shmget (s : Shm) (key size : UInt64) (flags pid : UInt32) (now : UInt64) :
    (s.shmget key size flags pid now).2.attachments = s.attachments := by
  unfold shmget insertSegment
  grind

theorem placed_shmat {pid' : UInt32} (h : ∀ a ∈ s.getAttachments pid', Placed a) :
    ∀ a ∈ (s.shmat key 0 flags pid now).2.getAttachments pid', Placed a := by
  have hadd : ∀ (t : Shm) attachment, t.attachments = s.attachments → Placed attachment →
      ∀ a ∈ (t.addAttachment pid attachment).2.getAttachments pid', Placed a := by
    intro t attachment ht hnew
    simp only [getAttachments, addAttachment, ht] at h ⊢
    by_cases hpid : pid = pid'
    · subst hpid
      split
      · simpa using h
      · simpa [or_imp, forall_and, hnew] using h
    · split <;> simpa [getElem?_insert, hpid] using h
  cases hseg : s.segments[key]? with
  | none => simpa [shmat, hseg] using h
  | some seg =>
    simp only [shmat, hseg, ne_eq, not_true_eq_false, if_false]
    split
    · exact h
    split
    · exact h
    split
    · exact h
    have hlast := hadd (s.insertSegment { seg with
      refCount := seg.refCount + 1, lastAttachPid := pid, attachTime := now }).2
      ⟨key, 0x800000000000 + key * 0x100000, flags⟩ (by rw [insertSegment]; split <;> rfl) rfl
    split <;> simp_all

end Shm

namespace ShmRun

def Attaching : ShmCall → Prop
  | .shmget .. => True
  | .shmat _ virtAddr _ _ _ => virtAddr = 0
  | _ => False

instance : DecidablePred Attaching
  | .shmget .. => inferInstanceAs (Decidable True)
  | .shmat _ virtAddr _ _ _ => inferInstanceAs (Decidable (virtAddr = 0))
  | .shmdt .. | .shmctl .. | .cleanupProcess .. => inferInstanceAs (Decidable False)

/-- **The addresses of attachments.**  In a run of `shmget` and of `shmat` without an address, the
attachments of a process are apart exactly if the keys are spaced. -/
theorem attachments_apart_iff (cfg : ShmConfig) (frames : FrameAllocator) (calls : List ShmCall)
    (hcalls : ∀ call ∈ calls, Attaching call) (pid : UInt32) :
    (exec step (start cfg frames) calls).shm.Apart pid ↔
      (exec step (start cfg frames) calls).shm.Spaced pid := by
  refine apart_iff_spaced ((along_iff_forall_mem.mpr hcalls).invariant
    (I := fun s : ShmRun => ∀ a ∈ s.shm.getAttachments pid, Placed a) ?_ ?_)
  · simp [start, new, getAttachments]
  intro s call h hcall
  cases call with
  | shmget key size flags pid' now =>
    have hshm : (s.step (.shmget key size flags pid' now)).shm =
        (s.shm.shmget key size flags pid' now).2 := by
      simp only [step]
      split <;> simp_all
    rwa [hshm, getAttachments, attachments_shmget]
  | shmat key virtAddr flags pid' now =>
    obtain rfl : virtAddr = 0 := hcall
    exact placed_shmat h
  | shmdt | shmctl | cleanupProcess => cases hcall

/-- Two segments with keys that are next to each other. -/
theorem attachments_apart_sample : ∃ calls : List ShmCall,
    calls = [.shmget 0xffff0000000 4096 0o1600 1 0, .shmget 0xffff0000001 4096 0o1600 1 0,
      .shmat 0xffff0000000 0 0 1 0, .shmat 0xffff0000001 0 0 1 0] ∧
    (exec step (start {} sampleFrames) calls).shm.Apart 1 :=
  ⟨_, rfl, (attachments_apart_iff {} sampleFrames _ (by decide) 1).mpr (by decide +kernel)⟩

/-- A segment is attached twice, at one address that is not canonical. -/
theorem attached_twice_overlaps : ∃ s, s = exec step (start {} sampleFrames)
      [.shmget 1 4096 0o1600 1 0, .shmat 1 0 0 1 0, .shmat 1 0 0 1 0] ∧
    s.shm.getAttachments 1 = [⟨1, 0x800000100000, 0⟩, ⟨1, 0x800000100000, 0⟩] ∧
    ¬ s.shm.Apart 1 :=
  ⟨_, rfl, by decide +kernel⟩

end ShmRun

end IonaOs.Memory
