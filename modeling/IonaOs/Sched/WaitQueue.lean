import IonaOs.Lib.MapSum
import IonaOs.Sched.Scheduler

/-!
# The wait queue beside the scheduler
-/

namespace IonaOs.Sched

open Std Lib
open Process (TaskId)

inductive WakeCondition where
  | timer (t : ℕ)
  | ipcMessage
  | netData (fd : UInt64)
  | any
deriving DecidableEq

structure WaitEntry where
  tid : TaskId
  condition : WakeCondition
  call : ℕ
deriving DecidableEq

/-- What `has_message` and `socket_has_data` return at some time. -/
structure Readiness where
  hasMessage : TaskId → Bool
  socketHasData : UInt64 → Bool

/-- The test of `tick_wakeups`. -/
def WaitEntry.due (env : Readiness) (now : ℕ) (e : WaitEntry) : Bool :=
  match e.condition with
  | .timer t => t ≤ now
  | .any => true
  | .ipcMessage => env.hasMessage e.tid
  | .netData fd => env.socketHasData fd

def takeDue (due : WaitEntry → Bool) : List WaitEntry → Option (ℕ × WaitEntry × List WaitEntry)
  | [] => none
  | e :: es =>
    if due e then some (0, e, es)
    else (takeDue due es).map fun (j, d, rest) => (j + 1, d, e :: rest)

/-- The loop of `tick_wakeups` from the index `i` on, up to the next entry it takes. -/
def scanFrom (due : WaitEntry → Bool) (i : ℕ) (queue : List WaitEntry) :
    Option (ℕ × WaitEntry × List WaitEntry) :=
  (takeDue due (queue.drop i)).map fun (j, d, rest) => (i + j, d, queue.take i ++ rest)

variable {due : WaitEntry → Bool} {queue rest : List WaitEntry}

theorem takeDue_eq_some {j : ℕ} {d : WaitEntry} (h : takeDue due queue = some (j, d, rest)) :
    due d ∧ ∃ front back, queue = front ++ d :: back ∧ rest = front ++ back := by
  induction queue generalizing j d rest with
  | nil => cases h
  | cons e _ ih =>
    rw [takeDue] at h
    split at h
    · cases h
      exact ⟨‹_›, [], _, rfl, rfl⟩
    obtain ⟨⟨j', d', rest'⟩, htake, heq⟩ := Option.map_eq_some_iff.mp h
    cases heq
    obtain ⟨hdue, front, back, rfl, rfl⟩ := ih htake
    exact ⟨hdue, e :: front, back, rfl, rfl⟩

theorem scanFrom_eq_some {i j : ℕ} {d : WaitEntry} (h : scanFrom due i queue = some (j, d, rest)) :
    due d ∧ ∃ front back, queue = front ++ d :: back ∧ rest = front ++ back := by
  obtain ⟨⟨j', d', rest'⟩, htake, heq⟩ := Option.map_eq_some_iff.mp h
  cases heq
  obtain ⟨hdue, front, back, hdrop, rfl⟩ := takeDue_eq_some htake
  refine ⟨hdue, queue.take i ++ front, back, ?_, (List.append_assoc ..).symm⟩
  rw [List.append_assoc, ← hdrop, List.take_append_drop]

inductive Phase where
  | idle
  | blocking (e : WaitEntry)
  | scanning (now i : ℕ)
  | scanWaking (now i : ℕ) (e : WaitEntry)
  | waking (es : List WaitEntry)
deriving DecidableEq

def Phase.pending : Phase → Multiset WaitEntry
  | .scanWaking _ _ e => {e}
  | .waking es => es
  | _ => 0

@[simp] theorem Phase.pending_idle : Phase.idle.pending = 0 := rfl
@[simp] theorem Phase.pending_blocking (e : WaitEntry) : (Phase.blocking e).pending = 0 := rfl
@[simp] theorem Phase.pending_scanning (now i : ℕ) : (Phase.scanning now i).pending = 0 := rfl
@[simp] theorem Phase.pending_scanWaking (now i : ℕ) (e : WaitEntry) :
    (Phase.scanWaking now i e).pending = {e} := rfl
@[simp] theorem Phase.pending_waking (es : List WaitEntry) : (Phase.waking es).pending = es := rfl

def Phase.next : Phase → Option WaitEntry
  | .scanWaking _ _ e => some e
  | .waking (e :: _) => some e
  | _ => none

theorem Phase.mem_pending_of_next {p : Phase} {e : WaitEntry} (h : p.next = some e) :
    e ∈ p.pending := by
  cases p with
  | scanWaking =>
    cases h
    exact Multiset.mem_singleton_self e
  | waking es =>
    cases es with
    | nil => cases h
    | cons =>
      cases h
      exact List.mem_cons_self
  | _ => cases h

inductive WaitStep (n : ℕ) where
  | blockCurrent (k : Fin n) (tid : TaskId) (cond : WakeCondition)
  | tickWakeups (k : Fin n) (now : ℕ)
  | wakeIpc (k : Fin n) (tid : TaskId)
  | wakeNet (k : Fin n) (fd : UInt64)
  | wakeTask (tid : TaskId)
  | run (k : Fin n) (env : Readiness)

/-- The scheduler, the queue and `n` threads. -/
structure Waiting (n : ℕ) where
  sched : Scheduler
  queue : List WaitEntry
  threads : Fin n → Phase
  calls : ℕ
  holder : TaskId → Option ℕ

/-! ## The scheduler's part -/

namespace Scheduler

variable {s : Scheduler} {tid k : TaskId}

/-- `block_task` finds the task. -/
def canBlock (s : Scheduler) (tid : TaskId) : Bool :=
  s.current.map (·.tid) = some tid || (s.takeReady tid).isSome

theorem compare_beq : (compare tid k == .eq) = (k == tid) := by
  rw [Bool.eq_iff_iff, beq_iff_eq, beq_iff_eq, Std.compare_eq_iff_eq, eq_comm]

theorem contains_putBlocked {t : Task} :
    (s.putBlocked t).blocked.contains k = (s.blocked.contains k || k == t.tid) := by
  rw [putBlocked, ExtTreeMap.contains_insert, Bool.or_comm, compare_beq]

theorem contains_blockTask : (s.blockTask tid).blocked.contains k =
      (s.blocked.contains k || (s.canBlock tid && k == tid)) := by
  rw [blockTask]
  split
  · rename_i hcurrent
    obtain ⟨t, ht, rfl⟩ := Option.map_eq_some_iff.mp hcurrent
    simp [blockCurrentTask, canBlock, ht, contains_putBlocked]
  · rename_i hcurrent
    split
    · rename_i htake
      simp [canBlock, hcurrent, htake]
    · rename_i t s' htake
      obtain ⟨htid, p, front, back, -, rfl⟩ := takeReady_eq_some htake
      simp [contains_putBlocked, canBlock, hcurrent, htake, htid]

theorem contains_wakeTask :
    (s.wakeTask tid).blocked.contains k = (s.blocked.contains k && k != tid) := by
  rw [wakeTask]
  split
  · rename_i hnone
    by_cases hk : k = tid
    · subst hk
      simp [ExtTreeMap.contains_eq_isSome_getElem?, hnone]
    · simp [hk]
  · simp only [pushReady, ExtTreeMap.contains_erase, bne, compare_beq, Bool.and_comm]

end Scheduler

namespace Waiting

variable {n : ℕ}

def start (n : ℕ) (s : Scheduler) : Waiting n where
  sched := { s with blocked := ∅ }
  queue := []
  threads := fun _ => .idle
  calls := 0
  holder := fun _ => none

variable (w : Waiting n)

def setThread (k : Fin n) (p : Phase) : Waiting n :=
  { w with threads := Function.update w.threads k p }

/-- The first half of `block_current`. -/
def enqueue (k : Fin n) (e : WaitEntry) : Waiting n :=
  { w with queue := w.queue ++ [e], calls := w.calls + 1 }.setThread k (.blocking e)

/-- The second half of `block_current`. -/
def block (e : WaitEntry) : Waiting n :=
  { w with
    sched := w.sched.blockTask e.tid
    holder := if w.sched.canBlock e.tid then Function.update w.holder e.tid (some e.call)
      else w.holder }

/-- `wake_task`. -/
def wake (tid : TaskId) : Waiting n :=
  { w with sched := w.sched.wakeTask tid, holder := Function.update w.holder tid none }

def retain (k : Fin n) (wakes : WaitEntry → Bool) : Waiting n :=
  { w with queue := w.queue.filter (!wakes ·) }.setThread k (.waking (w.queue.filter wakes))

def run (k : Fin n) (env : Readiness) : Waiting n :=
  match w.threads k with
  | .idle => w
  | .blocking e => (w.block e).setThread k .idle
  | .scanning now i =>
    match scanFrom (WaitEntry.due env now) i w.queue with
    | none => w.setThread k .idle
    | some (j, e, rest) => { w with queue := rest }.setThread k (.scanWaking now j e)
  | .scanWaking now i e => (w.wake e.tid).setThread k (.scanning now i)
  | .waking [] => w.setThread k .idle
  | .waking (e :: es) => (w.wake e.tid).setThread k (.waking es)

def step : WaitStep n → Waiting n
  | .blockCurrent k tid cond =>
    match w.threads k with
    | .idle => w.enqueue k ⟨tid, cond, w.calls⟩
    | _ => w
  | .tickWakeups k now =>
    match w.threads k with
    | .idle => w.setThread k (.scanning now 0)
    | _ => w
  | .wakeIpc k tid =>
    match w.threads k with
    | .idle => w.retain k fun e => e.tid = tid ∧ e.condition = .ipcMessage
    | _ => w
  | .wakeNet k fd =>
    match w.threads k with
    | .idle => w.retain k fun e => e.condition = .netData fd
    | _ => w
  | .wakeTask tid => w.wake tid
  | .run k env => w.run k env

/-! ## What agreement means -/

def entries : Multiset WaitEntry := w.queue + ∑ k, (w.threads k).pending

def callsOf (tid : TaskId) : Multiset ℕ :=
  (w.entries.filter (·.tid = tid)).map (·.call)

structure Agrees : Prop where
  one : ∀ tid c, w.holder tid = some c → w.callsOf tid = {c}
  own : ∀ e ∈ w.queue, w.holder e.tid = some e.call ∨ ∃ k, w.threads k = .blocking e

def Meets : WaitStep n → WaitEntry → Prop
  | .run k env, e => ∃ now i, w.threads k = .scanning now i ∧ e.due env now
  | .wakeIpc _ tid, e => e.tid = tid ∧ e.condition = .ipcMessage
  | .wakeNet _ fd, e => e.condition = .netData fd
  | _, _ => False

structure Rightful (x : WaitStep n) : Prop where
  met : ∀ e ∈ w.queue, e ∉ (w.step x).queue → w.Meets x e
  latest : ∀ k env e, x = .run k env → (w.threads k).next = some e →
    w.sched.blocked.contains e.tid → w.holder e.tid = some e.call

end Waiting

end IonaOs.Sched
