import IonaOs.Lib.Run
import IonaOs.Types

/-!
# File descriptor tables
-/

namespace IonaOs.Process.Fd

open Lib List

/-- `FdFlags`. -/
structure FdFlags where
  bits : UInt32

namespace FdFlags

def empty : FdFlags := ⟨0⟩

def cloexec (f : FdFlags) : FdFlags := ⟨f.bits ||| 1⟩

def isCloexec (f : FdFlags) : Bool := f.bits &&& 1 != 0

end FdFlags

/-- `OpenFlags`. -/
structure OpenFlags where
  bits : UInt32

namespace OpenFlags

def read : OpenFlags := ⟨0x1⟩

def write : OpenFlags := ⟨0x2⟩

end OpenFlags

inductive FileDesc where
  | serial
  | keyboard
  | ionafsFile (path : String) (offset : UInt64)
  | tcpSocket (id : UInt64)
  | pipe (readEnd : Bool) (id : UInt64)
  | dev (path : String)
  | proc (path : String)
  | epoll (id : UInt64)
  | eventfd (id : UInt64)
  | signalfd (id : UInt64)
  | timerfd (id : UInt64)

inductive Resource where
  | socket (id : UInt64)
  | pipeEnd (id : UInt64) (readEnd : Bool)
deriving DecidableEq

/-- The resource a descriptor names: the `match` of `close_internal`. -/
def FileDesc.resource : FileDesc → Option Resource
  | tcpSocket id => some (.socket id)
  | pipe readEnd id => some (.pipeEnd id readEnd)
  | _ => none

structure FdEntry where
  desc : FileDesc
  flags : FdFlags
  openFlags : OpenFlags

inductive FdError where
  | invalidFd (fd : ℕ)
  | tableFull
  | invalidArgument

def defaultMaxFd : ℕ := 1024
def maxFdLimit : ℕ := 4096

/-! ## One table -/

structure FdTable where
  entries : List (Option FdEntry)

namespace FdTable

variable {t : FdTable} {fd i : ℕ} {e : FdEntry}

def put (t : FdTable) (fd : ℕ) (e : Option FdEntry) : FdTable := ⟨t.entries.set fd e⟩

/-- `FdTable::with_max`. -/
def withMax (maxFd : ℕ) : FdTable :=
  let empty : FdTable := ⟨List.replicate (min maxFd maxFdLimit) none⟩
  ((empty.put 0 (some ⟨.keyboard, .empty, .read⟩)).put 1 (some ⟨.serial, .empty, .write⟩)).put 2
    (some ⟨.serial, .empty, .write⟩)

/-- `FdTable::new`. -/
def new : FdTable := withMax defaultMaxFd

def entry (t : FdTable) (fd : ℕ) : Option FdEntry := t.entries[fd]?.join

@[simp] theorem length_put (e : Option FdEntry) :
    (t.put fd e).entries.length = t.entries.length := by simp [put]

theorem entry_put (hfd : fd < t.entries.length) (e : Option FdEntry) :
    (t.put fd e).entry i = if i = fd then e else t.entry i := by
  by_cases hi : i = fd
  · simp [hi, entry, put, hfd]
  · simp [hi, entry, put, getElem?_set_ne (Ne.symm hi)]

theorem lt_of_entry (h : t.entry fd = some e) : fd < t.entries.length := by
  by_contra hfd
  simp [entry, getElem?_eq_none (not_lt.mp hfd)] at h

/-- The lowest empty slot from `start` on that `p` lets through. -/
def lowestFree (t : FdTable) (start : ℕ) (p : ℕ → Bool) : Option ℕ :=
  (List.range' start (t.entries.length - start)).find? fun fd => p fd && (t.entry fd).isNone

theorem lowestFree_spec {start : ℕ} {p : ℕ → Bool} (h : t.lowestFree start p = some fd) :
    fd < t.entries.length ∧ t.entry fd = none := by
  have hfound := find?_some h
  have hmem := mem_range'_1.mp (mem_of_find?_eq_some h)
  refine ⟨by omega, ?_⟩
  simp only [Bool.and_eq_true, Option.isNone_iff_eq_none] at hfound
  exact hfound.2

/-- `FdTable::open`. -/
def «open» (t : FdTable) (desc : FileDesc) (flags : FdFlags) (openFlags : OpenFlags) :
    Except FdError (ℕ × FdTable × List Resource) :=
  match t.lowestFree 0 fun _ => true with
  | none => .error .tableFull
  | some fd => .ok (fd, t.put fd (some ⟨desc, flags, openFlags⟩), [])

/-- `close_internal`. -/
def closeInternal (t : FdTable) (fd : ℕ) : Except FdError (Unit × FdTable × List Resource) :=
  match t.entry fd with
  | none => .error (.invalidFd fd)
  | some e => .ok ((), t.put fd none, e.desc.resource.toList)

/-- `FdTable::close`. -/
def close (t : FdTable) (fd : ℕ) : Except FdError (Unit × FdTable × List Resource) :=
  t.closeInternal fd

/-- `FdTable::dup`.  The old entry is read before the target is closed, and stored after it. -/
def dup (t : FdTable) (oldFd : ℕ) (newFd : Option ℕ) (flags : FdFlags) :
    Except FdError (ℕ × FdTable × List Resource) :=
  match t.entry oldFd with
  | none => .error (.invalidFd oldFd)
  | some old =>
    match newFd with
    | some fd =>
      if t.entries.length ≤ fd then .error (.invalidFd fd)
      else
        match t.closeInternal fd with
        | .ok (_, t', closed) => .ok (fd, t'.put fd (some { old with flags }), closed)
        | .error _ => .ok (fd, t.put fd (some { old with flags }), [])
    | none =>
      match t.lowestFree 0 (· != oldFd) with
      | none => .error .tableFull
      | some fd => .ok (fd, t.put fd (some { old with flags }), [])

/-- `FdTable::fcntl_dupfd`: the copy keeps the flags. -/
def fcntlDupfd (t : FdTable) (fd minFd : ℕ) : Except FdError (ℕ × FdTable × List Resource) :=
  match t.entry fd with
  | none => .error (.invalidFd fd)
  | some e =>
    match t.lowestFree minFd (· != fd) with
    | none => .error .tableFull
    | some target => .ok (target, t.put target (some e), [])

/-- One turn of the loop of `close_on_exec`. -/
def closeOnExecTurn (s : List ℕ × FdTable × List Resource) (fd : ℕ) :
    List ℕ × FdTable × List Resource :=
  match s.2.1.entry fd with
  | none => s
  | some e =>
    if e.flags.isCloexec then
      match s.2.1.closeInternal fd with
      | .ok (_, t, closed) => (s.1 ++ [fd], t, s.2.2 ++ closed)
      | .error _ => (s.1 ++ [fd], s.2)
    else s

/-- `FdTable::close_on_exec`. -/
def closeOnExec (t : FdTable) : List ℕ × FdTable × List Resource :=
  exec closeOnExecTurn ([], t, []) (List.range t.entries.length)

/-! ### The loop of `close_on_exec` -/

/-- The entry `close_on_exec` closes at a descriptor, if it does. -/
def marked (t : FdTable) (fd : ℕ) : Option FdEntry := (t.entry fd).filter (·.flags.isCloexec)

theorem marked_eq_some : t.marked fd = some e ↔ t.entry fd = some e ∧ e.flags.isCloexec := by
  simp [marked, Option.filter_eq_some_iff]

def markedResource (t : FdTable) (fd : ℕ) : Option Resource :=
  (t.marked fd).bind (·.desc.resource)

/-- The table after the first `n` turns. -/
def unmark (t : FdTable) (n : ℕ) : FdTable :=
  exec (fun t fd => if (t.marked fd).isSome then t.put fd none else t) t (List.range n)

variable (n : ℕ)

theorem unmark_succ : t.unmark (n + 1) =
      if ((t.unmark n).marked n).isSome then (t.unmark n).put n none else t.unmark n := by
  rw [unmark, range_succ, exec_append]
  rfl

@[simp] theorem length_unmark : (t.unmark n).entries.length = t.entries.length := by
  induction n with
  | zero => rfl
  | succ n ih =>
    rw [unmark_succ]
    split <;> simp [ih]

theorem entry_unmark (i : ℕ) :
    (t.unmark n).entry i = if i < n ∧ (t.marked i).isSome then none else t.entry i := by
  induction n generalizing i with
  | zero => simp [unmark]
  | succ n ih =>
    have hn : (t.unmark n).marked n = t.marked n := by simp [marked, ih]
    rw [unmark_succ, hn]
    split
    · rename_i hmarked
      obtain ⟨e, he⟩ := Option.isSome_iff_exists.mp hmarked
      have hlt : n < (t.unmark n).entries.length := by
        rw [length_unmark]
        exact lt_of_entry (marked_eq_some.mp he).1
      rw [entry_put hlt, ih]
      by_cases hi : i = n
      · simp [hi, hmarked]
      simp only [if_neg hi]
      congr 1
      simp only [eq_iff_iff, and_congr_left_iff]
      omega
    · rename_i hmarked
      rw [ih]
      by_cases hi : i = n
      · simp [hi, hmarked]
      · congr 1
        simp only [eq_iff_iff, and_congr_left_iff]
        omega

theorem closeOnExec_eq : t.closeOnExec =
      ((range t.entries.length).filter fun fd => (t.marked fd).isSome,
        t.unmark t.entries.length, (range t.entries.length).filterMap t.markedResource) := by
  rw [closeOnExec]
  induction t.entries.length with
  | zero => rfl
  | succ n ih =>
    have hentry : (t.unmark n).entry n = t.entry n := by simp [entry_unmark]
    have hmarked : (t.unmark n).marked n = t.marked n := by simp [marked, hentry]
    rw [range_succ, exec_append, ih, exec_cons, exec_nil, closeOnExecTurn, unmark_succ, hmarked]
    simp only [hentry, filter_append, filterMap_append, filterMap_cons,
      filterMap_nil, markedResource]
    cases he : t.entry n with
    | none =>
      have hm : t.marked n = none := by simp [marked, he]
      simp [hm]
    | some e =>
      by_cases hflag : e.flags.isCloexec
      · have hm : t.marked n = some e := marked_eq_some.mpr ⟨he, hflag⟩
        cases hres : e.desc.resource <;>
          simp [hm, hflag, closeInternal, hentry, he, hres]
      · have hm : t.marked n = none := by simp [marked, he, hflag]
        simp [hm, hflag]

end FdTable

/-! ## The tables of all tasks -/

/-- `FD_TABLES`, and the tables behind the pointers. -/
structure Descriptors where
  arcs : List FdTable
  tables : TaskId → Option ℕ

inductive FdCall where
  | initFor (tid : TaskId)
  | open (tid : TaskId) (desc : FileDesc) (flags : FdFlags) (openFlags : OpenFlags)
  | dup (tid : TaskId) (oldFd : ℕ) (flags : FdFlags)
  | dup2 (tid : TaskId) (oldFd newFd : ℕ) (flags : FdFlags)
  | fcntlDupfd (tid : TaskId) (fd minFd : ℕ)
  | close (tid : TaskId) (fd : ℕ)
  | closeOnExec (tid : TaskId)
  | cloneFdTable (parentTid childTid : TaskId)
  | shareFdTable (parentTid childTid : TaskId)
  | removeFor (tid : TaskId)

namespace Descriptors

def start : Descriptors := ⟨[], fun _ => none⟩

variable (s : Descriptors) (tid : TaskId)

def allot (t : FdTable) : Descriptors :=
  ⟨s.arcs ++ [t], Function.update s.tables tid (some s.arcs.length)⟩

def initFor : Descriptors := s.allot tid .new

/-- `remove_for` drops the pointer. -/
def removeFor : Descriptors :=
  { s with tables := Function.update s.tables tid none }

def getTable : Option (ℕ × FdTable) :=
  (s.tables tid).bind fun i => s.arcs[i]?.map (i, ·)

def onTable {α : Type}
    (f : FdTable → Except FdError (α × FdTable × List Resource)) :
    Except FdError (α × Descriptors × List Resource) :=
  match s.getTable tid with
  | none => .error .invalidArgument
  | some (i, t) =>
    match f t with
    | .error err => .error err
    | .ok (a, t', closed) => .ok (a, { s with arcs := s.arcs.set i t' }, closed)

def «open» (desc : FileDesc) (flags : FdFlags)
    (openFlags : OpenFlags) : Except FdError (ℕ × Descriptors × List Resource) :=
  s.onTable tid (·.open desc flags openFlags)

def dup (s : Descriptors) (tid : TaskId) (oldFd : ℕ) (flags : FdFlags) :
    Except FdError (ℕ × Descriptors × List Resource) :=
  s.onTable tid (·.dup oldFd none flags)

def dup2 (oldFd newFd : ℕ) (flags : FdFlags) :
    Except FdError (ℕ × Descriptors × List Resource) :=
  s.onTable tid (·.dup oldFd (some newFd) flags)

/-- `fcntl` with `F_DUPFD`. -/
def fcntlDupfd (s : Descriptors) (tid : TaskId) (fd minFd : ℕ) :
    Except FdError (ℕ × Descriptors × List Resource) :=
  s.onTable tid (·.fcntlDupfd fd minFd)

def close (s : Descriptors) (tid : TaskId) (fd : ℕ) :
    Except FdError (Unit × Descriptors × List Resource) :=
  s.onTable tid (·.close fd)

def closeOnExec (s : Descriptors) (tid : TaskId) :
    Except FdError (List ℕ × Descriptors × List Resource) :=
  s.onTable tid fun t => .ok t.closeOnExec

variable (parentTid childTid : TaskId)

/-- `clone_fd_table`: the child gets a snapshot of the parent's table.  For a parent without one,
`init_for` waits for the lock that the call itself holds: it never returns. -/
def cloneFdTable : Descriptors :=
  match s.getTable parentTid with
  | none => s
  | some (_, t) => s.allot childTid t

/-- `share_fd_table`: the child gets the parent's pointer.  For a parent without a table it never
returns either. -/
def shareFdTable : Descriptors :=
  match s.getTable parentTid with
  | none => s
  | some (i, _) => { s with tables := Function.update s.tables childTid (some i) }

def settle {α : Type} :
    Except FdError (α × Descriptors × List Resource) → Descriptors × List Resource
  | .error _ => (s, [])
  | .ok (_, r) => r

def call : FdCall → Descriptors × List Resource
  | .initFor tid => (s.initFor tid, [])
  | .open tid desc flags openFlags => s.settle (s.open tid desc flags openFlags)
  | .dup tid oldFd flags => s.settle (s.dup tid oldFd flags)
  | .dup2 tid oldFd newFd flags => s.settle (s.dup2 tid oldFd newFd flags)
  | .fcntlDupfd tid fd minFd => s.settle (s.fcntlDupfd tid fd minFd)
  | .close tid fd => s.settle (s.close tid fd)
  | .closeOnExec tid => s.settle (s.closeOnExec tid)
  | .cloneFdTable parentTid childTid => (s.cloneFdTable parentTid childTid, [])
  | .shareFdTable parentTid childTid => (s.shareFdTable parentTid childTid, [])
  | .removeFor tid => (s.removeFor tid, [])

def step (c : FdCall) : Descriptors := (s.call c).1

def closedBy (c : FdCall) : List Resource := (s.call c).2

end Descriptors

end IonaOs.Process.Fd
