import IonaOs.Memory.FrameCounts
import IonaOs.Process.CloneCow

/-!
# Address spaces, from their creation to their end
-/

namespace IonaOs.Process

open Lib Memory

/-- The errors of `map_page` and `unmap_page` besides those of a walk. -/
inductive SpaceError where
  | space (e : AddressSpaceError)
  | alreadyMapped
  | locked

structure AddressSpaceConfig where
  enableAslr : Bool := true
  aslrBits : UInt64 := 12
  userBase : UInt64 := 0x0000400000000000
  stackTop : UInt64 := 0x00007fff00000000

/-- The flags with which a page is mapped.  The mapper panics for a huge page, and without
`PRESENT` no page is mapped. -/
structure PageFlags where
  bits : BitVec 64
  present : bits.getLsbD 0 = true
  plain : bits.getLsbD 7 = false
  noAddr : bits &&& Entry.addrMask = 0#64

def PageFlags.forTables (flags : PageFlags) : BitVec 64 :=
  flags.bits &&& (Flag.present ||| Flag.writable ||| Flag.userAccessible)

abbrev UserAddr := { virt : UInt64 // virt.toNat < 2 ^ 47 }

structure UserRange where
  start : UInt64
  count : ℕ
  inside : start.toNat + count * 4096 ≤ 2 ^ 47

namespace Kernel

variable (k : Kernel)

/-- `new`.  The kernel half is that of the current space. -/
def newSpace (cfg : AddressSpaceConfig) (random : UInt64) :
    Except AddressSpaceError AddressSpace × Kernel :=
  match k.allocateTable with
  | (.error err, k) => (.error err, k)
  | (.ok new, k) =>
    let offset := random &&& ((1 <<< cfg.aslrBits) - 1)
    let base := if cfg.enableAslr then cfg.userBase + (offset <<< 12) else cfg.userBase
    (.ok ⟨new, base, cfg.stackTop, 0, 0, 0, 1, false⟩, k.copyKernelHalf k.l4 new)

/-! ### The mapper -/

/-- `create_next_table`: an unused entry gets a new table, and another one the flags it lacks. -/
def createNextTable (table : ℕ) (i : Fin 512) (flags : BitVec 64) : Option ℕ × Kernel :=
  let e := k.mem table i
  if e = 0 then
    match k.allocateTable with
    | (.error _, k) => (none, k)
    | (.ok new, k) =>
      (some new, { k with mem := k.mem.write table i (.setAddr (frameAddr new) flags) })
  else
    let e' := if e.flags &&& flags = flags then e else e.setFlags (e.flags ||| flags)
    let k := { k with mem := k.mem.write table i e' }
    -- the mapper panics if the entry is neither unused nor present
    if !e'.isPresent || e'.isHuge then (none, k) else (some e'.frame, k)

/-- `map_to`: `false` if there is no frame for a table, or something in the way. -/
def mapTo (l4 : ℕ) (virt : UInt64) (frame : ℕ) (flags : PageFlags) : Bool × Kernel :=
  match k.createNextTable l4 (index 4 virt) flags.forTables with
  | (none, k) => (false, k)
  | (some l3, k) =>
    match k.createNextTable l3 (index 3 virt) flags.forTables with
    | (none, k) => (false, k)
    | (some l2, k) =>
      match k.createNextTable l2 (index 2 virt) flags.forTables with
      | (none, k) => (false, k)
      | (some l1, k) =>
        if k.mem l1 (index 1 virt) ≠ 0 then (false, k)
        else
          let e : Entry := .setAddr (frameAddr frame) flags.bits
          (true, { k with mem := k.mem.write l1 (index 1 virt) e })

def nextTable (table : ℕ) (i : Fin 512) : Option ℕ :=
  let e := k.mem table i
  if !e.isPresent || e.isHuge then none else some e.frame

/-- `unmap`: the entry is unused afterwards. -/
def unmapEntry (l4 : ℕ) (virt : UInt64) : Option Kernel := do
  let l3 ← k.nextTable l4 (index 4 virt)
  let l2 ← k.nextTable l3 (index 3 virt)
  let l1 ← k.nextTable l2 (index 2 virt)
  let _ ← k.nextTable l1 (index 1 virt)
  some { k with mem := k.mem.write l1 (index 1 virt) 0 }

/-! ### Pages -/

def mapPage (space : AddressSpace) (virt : UInt64) (frame : ℕ) (flags : PageFlags) :
    Except SpaceError AddressSpace × Kernel :=
  if space.locked then (.error .locked, k)
  else
    match walkPageTables k.mem space.l4 virt with
    | .ok _ => (.error .alreadyMapped, k)
    | .error _ =>
      match k.mapTo space.l4 virt frame flags with
      | (false, k) => (.error (.space .outOfMemory), k)
      | (true, k) => (.ok { space with mappedPages := space.mappedPages + 1 }, k)

variable (strict : Bool)

def unmapMapped (l4 : ℕ) (virt : UInt64) (pte : Entry) :
    Except AddressSpaceError Unit × Kernel :=
  match pte.frame? strict with
  | none => (.error .notMapped, k)
  | some frame =>
    match k.unmapEntry l4 virt with
    | none => (.error .notMapped, k)
    | some k => (.ok (), k.decRef frame)

variable (space : AddressSpace)

/-- `unmap_page` of an address space. -/
def unmapSpacePage (virt : UInt64) :
    Except SpaceError AddressSpace × Kernel :=
  if space.locked then (.error .locked, k)
  else
    match walkPageTables k.mem space.l4 virt with
    | .error e => (.error (.space e), k)
    | .ok (pte, _) =>
      match k.unmapMapped strict space.l4 virt pte with
      | (.error e, k) => (.error (.space e), k)
      | (.ok (), k) => (.ok { space with mappedPages := space.mappedPages - 1 }, k)

/-- One turn of the loop in `unmap_range`: a page that is not mapped is passed over. -/
def unmapTurn (l4 : ℕ) (start : UInt64) (k : Kernel) (i : ℕ) :
    Except AddressSpaceError Unit × Kernel :=
  let virt := start + UInt64.ofNat i * 4096
  match walkPageTables k.mem l4 virt with
  | .error _ => (.ok (), k)
  | .ok (pte, _) => k.unmapMapped strict l4 virt pte

def unmapRange (range : UserRange) :
    Except SpaceError AddressSpace × Kernel :=
  if space.locked then (.error .locked, k)
  else
    match tryExec (unmapTurn strict space.l4 range.start) k (List.range range.count) with
    | (.error e, k) => (.error (.space e), k)
    | (.ok (), k) =>
      (.ok { space with mappedPages := space.mappedPages - UInt64.ofNat range.count }, k)

/-! ### The end -/

/-- `dec_ref` for the frame of an entry, if `frame` returns one. -/
def unshare (e : Entry) : Kernel :=
  match e.frame? strict with
  | none => k
  | some f => k.decRef f

def cleanupL1 (table : ℕ) (k : Kernel) : Kernel :=
  let turn (k : Kernel) (i : Fin 512) :=
    let e := k.mem table i
    if !e.isPresent then k else k.unshare strict e
  exec turn k (List.finRange 512)

def cleanupEntry (huge : Entry → Bool) (cleanupBelow : ℕ → Kernel → Kernel)
    (table : ℕ) (k : Kernel) (i : Fin 512) : Kernel :=
  let e := k.mem table i
  if !e.isPresent then k
  else if huge e then k.unshare strict e
  else (cleanupBelow e.frame k).decRef e.frame

def cleanupL2 (table : ℕ) (k : Kernel) : Kernel :=
  exec (cleanupEntry strict Entry.isHuge (cleanupL1 strict) table) k (List.finRange 512)

def cleanupL3 (table : ℕ) (k : Kernel) : Kernel :=
  exec (cleanupEntry strict Entry.isHuge (cleanupL2 strict) table) k (List.finRange 512)

def cleanupL4 (table : ℕ) (k : Kernel) : Kernel :=
  exec (cleanupEntry strict (fun _ => false) (cleanupL3 strict) table) k userHalf

def cleanup : AddressSpace × Kernel :=
  ({ space with mappedPages := 0, pageTables := 0 }, (cleanupL4 strict space.l4 k).decRef space.l4)

end Kernel

/-! ## Runs -/

def indices (level : ℕ) : List (Fin 512) :=
  if level = 4 then Kernel.userHalf else List.finRange 512

def framesBelow (mem : PhysMem) : ℕ → ℕ → List ℕ
  | 0, _ => []
  | level + 1, table =>
    (indices (level + 1)).flatMap fun i =>
      let e := mem table i
      if !e.isPresent then []
      else if e.isLeaf (level + 1) then [e.frame]
      else framesBelow mem level e.frame ++ [e.frame]

def spaceFrames (mem : PhysMem) (l4 : ℕ) : List ℕ := framesBelow mem 4 l4 ++ [l4]

structure SpaceRun where
  kernel : Kernel
  live : List AddressSpace
  cleaned : List AddressSpace

inductive SpaceCall where
  | create (cfg : AddressSpaceConfig) (random : UInt64)
  | map (j : ℕ) (virt : UserAddr) (flags : PageFlags)
  | clone (j : ℕ)
  | unmap (j : ℕ) (virt : UserAddr)
  | unmapRange (j : ℕ) (range : UserRange)
  | cleanup (j : ℕ)
  | drop (j : ℕ)

namespace SpaceRun

def start (k : Kernel) : SpaceRun := ⟨k, [], []⟩

variable (strict : Bool) (s : SpaceRun)

def settle (j : ℕ) (r : Except SpaceError AddressSpace × Kernel) : SpaceRun :=
  match r with
  | (.error _, k) => { s with kernel := k }
  | (.ok space, k) => { s with kernel := k, live := s.live.set j space }

def enlist (r : Except AddressSpaceError AddressSpace × Kernel) : SpaceRun :=
  match r with
  | (.error _, k) => { s with kernel := k }
  | (.ok space, k) => { s with kernel := k, live := s.live ++ [space] }

def onLive (j : ℕ) (call : AddressSpace → SpaceRun) : SpaceRun :=
  match s.live[j]? with
  | none => s
  | some space => call space

def step : SpaceCall → SpaceRun
  | .create cfg random => s.enlist (s.kernel.newSpace cfg random)
  | .map j virt flags => s.onLive j fun space =>
    match s.kernel.frames.allocateOne with
    | (.error _, frames) => { s with kernel := { s.kernel with frames } }
    | (.ok frame, frames) =>
      match { s.kernel with frames }.mapPage space virt frame flags with
      | (.error _, k) => { s with kernel := k.decRef frame }
      | (.ok space, k) => { s with kernel := k, live := s.live.set j space }
  | .clone j => s.onLive j fun space => s.enlist (s.kernel.cloneCow strict space)
  | .unmap j virt => s.onLive j fun space =>
    s.settle j (s.kernel.unmapSpacePage strict space virt)
  | .unmapRange j range => s.onLive j fun space =>
    s.settle j (s.kernel.unmapRange strict space range)
  | .cleanup j => s.onLive j fun space =>
    let (space, k) := s.kernel.cleanup strict space
    ⟨k, s.live.eraseIdx j, s.cleaned ++ [space]⟩
  | .drop j =>
    match s.cleaned[j]? with
    | none => s
    | some space => ⟨s.kernel.decRef space.l4, s.live, s.cleaned.eraseIdx j⟩

end SpaceRun

end IonaOs.Process
