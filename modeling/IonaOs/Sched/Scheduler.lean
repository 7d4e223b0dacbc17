import IonaOs.Lib.Run
import IonaOs.Types

/-!
# The global scheduler
-/

namespace IonaOs.Sched

open Std Lib Process Function

inductive TaskState where
  | new
  | running
  | ready
  | blocked
  | dead
deriving DecidableEq

abbrev Priority := Fin 256

inductive WaitEvent where
  | io
  | timer
  | mutex (id : UInt64)
  | pipe (id : UInt64)
deriving DecidableEq

structure Task where
  tid : TaskId
  state : TaskState
  priority : Priority
  ticks : ℕ
  waitEvent : Option WaitEvent
  stolenAtMs : ℕ

/-- `Task::new`. -/
def Task.new (tid : TaskId) (priority : Priority) : Task := ⟨tid, .new, priority, 0, none, 0⟩

/-- `Task::new_idle`. -/
def Task.newIdle : Task := ⟨0, .ready, 0, 0, none, 0⟩

def defaultQuantum : ℕ := 10
def apStuckThresholdMs : ℕ := 5000

structure Scheduler where
  runningOnAp : Fin 256 → Option Task
  current : Option Task
  ready : Priority → List Task
  blocked : ExtTreeMap TaskId Task compare
  quantum : ℕ
  switches : ℕ
  totalTicks : ℕ

namespace Scheduler

def new : Scheduler where
  runningOnAp := fun _ => none
  current := none
  ready := update (fun _ => []) Task.newIdle.priority [Task.newIdle]
  blocked := ∅
  quantum := defaultQuantum
  switches := 0
  totalTicks := 0

variable (s : Scheduler)

def pushReady (t : Task) : Scheduler :=
  { s with ready := update s.ready t.priority (s.ready t.priority ++ [t]) }

def spawn (t : Task) : Scheduler := s.pushReady { t with state := .ready }

/-- The front of the first queue of `order` that is not empty. -/
def popFirst (order : List Priority) : Option (Task × Scheduler) :=
  order.findSome? fun p =>
    match s.ready p with
    | [] => none
    | t :: rest => some (t, { s with ready := update s.ready p rest })

def upward : List Priority := List.finRange 256
def downward : List Priority := upward.reverse

def pickNext : Option (Task × Scheduler) := s.popFirst downward

def enqueueCurrent : Scheduler :=
  match s.current with
  | none => s
  | some t => { s with current := none }.pushReady { t with state := .ready }

def putBlocked (t : Task) : Scheduler :=
  { s with blocked := s.blocked.insert t.tid t }

def blockCurrentTask : Scheduler :=
  match s.current with
  | none => s
  | some t => { s with current := none, quantum := 0 }.putBlocked { t with state := .blocked }

/-- `ap_task_finished`, with the task that has ended. -/
def apTaskFinished (cpu : Fin 256) : Scheduler × List Task :=
  match s.runningOnAp cpu with
  | none => (s, [])
  | some t =>
    let s : Scheduler := { s with runningOnAp := update s.runningOnAp cpu none }
    match t.state with
    | .dead => (s, [t])
    | .blocked => (s.putBlocked t, [])
    | _ => (s.pushReady { t with state := .ready, ticks := t.ticks + 1 }, [])

def stuck (now : ℕ) (t : Task) : Bool :=
  t.stolenAtMs ≠ 0 && apStuckThresholdMs < now - t.stolenAtMs

/-- `ap_audit_lost_tasks_inner`. -/
def apAuditLostTasksInner (now : ℕ) : Scheduler × List Task :=
  let cpus := (List.finRange 256).filter fun cpu => (s.runningOnAp cpu).any (stuck now)
  exec (fun r cpu =>
    let (s, ended) := apTaskFinished r.1 cpu
    (s, r.2 ++ ended)) (s, []) cpus

/-- The second half of `tick`: the current task has used a tick. -/
def tickCurrent : Scheduler :=
  match s.current with
  | none =>
    match s.pickNext with
    | none => s
    | some (next, s) => { s with current := some next, quantum := defaultQuantum }
  | some c =>
    let s := { s with quantum := s.quantum - 1 }
    if s.quantum = 0 then
      let s := { s with current := some { c with ticks := c.ticks + defaultQuantum,
                                                 state := .ready } }
      match s.pickNext with
      | none => s
      | some (next, s) =>
        { s.enqueueCurrent with
          current := some { next with state := .running }
          quantum := defaultQuantum
          switches := s.switches + 1 }
    else s

def tick (now : ℕ) : Scheduler × List Task :=
  let s := { s with totalTicks := s.totalTicks + 1 }
  -- with no task on an application CPU the audit finds none
  if s.totalTicks % 1000 = 0 then
    let (s, ended) := s.apAuditLostTasksInner now
    (s.tickCurrent, ended)
  else (s.tickCurrent, [])

def takeReady (tid : TaskId) : Option (Task × Scheduler) :=
  upward.findSome? fun p =>
    ((s.ready p).find? (·.tid = tid)).map fun t =>
      (t, { s with ready := update s.ready p ((s.ready p).eraseP (·.tid = tid)) })

def blockTask (tid : TaskId) : Scheduler :=
  if s.current.map (·.tid) = some tid then s.blockCurrentTask
  else
    match s.takeReady tid with
    | none => s
    | some (t, s) => s.putBlocked { t with state := .blocked }

def wakeTask (tid : TaskId) : Scheduler :=
  match s.blocked[tid]? with
  | none => s
  | some t => { s with blocked := s.blocked.erase tid }.pushReady { t with state := .ready }

/-- One turn of the loop of `wake_on_event`. -/
def wakeOnEventTurn (event : WaitEvent) (s : Scheduler) (tid : TaskId) : Scheduler :=
  match s.blocked[tid]? with
  | none => s
  | some t =>
    if t.waitEvent = some event then
      { s with blocked := s.blocked.erase tid }.pushReady
        { t with state := .ready, waitEvent := none }
    else s

def wakeOnEvent (event : WaitEvent) : Scheduler :=
  exec (wakeOnEventTurn event) s s.blocked.keys

/-- `wait_for_event`, up to the point where the processor is given up. -/
def waitForEvent (event : WaitEvent) : Scheduler :=
  let marked (t : Task) : Task := { t with waitEvent := some event }
  { s with current := s.current.map marked }.blockCurrentTask

/-- `steal_task_for_ap`: what was in the slot of the CPU is written over. -/
def stealTaskForAp (cpu : Fin 256) (now : ℕ) : Scheduler :=
  match s.popFirst downward with
  | none => s
  | some (t, s) =>
    let t := { t with state := .running, stolenAtMs := now }
    { s with runningOnAp := update s.runningOnAp cpu (some t) }

def apSetState (cpu : Fin 256) (state : TaskState) : Scheduler :=
  let turned (t : Task) : Task := { t with state }
  { s with
    runningOnAp := update s.runningOnAp cpu ((s.runningOnAp cpu).map turned) }

def exitCurrent : Scheduler × List Task :=
  ({ s with current := none, quantum := 0 }, s.current.toList)

def oomKillLowest : Scheduler × List Task :=
  match s.popFirst upward with
  | none => (s, [])
  | some (t, s) => (s, [t])

end Scheduler

/-- The operations of a run; `now` is the time the operation reads. -/
inductive SchedEvent where
  | spawn (t : Task)
  | tick (now : ℕ)
  | blockTask (tid : TaskId)
  | wakeTask (tid : TaskId)
  | wakeOnEvent (event : WaitEvent)
  | waitForEvent (event : WaitEvent)
  | stealTaskForAp (cpu : Fin 256) (now : ℕ)
  | apSetState (cpu : Fin 256) (state : TaskState)
  | apTaskFinished (cpu : Fin 256)
  | exitCurrent
  | oomKillLowest

namespace Scheduler

def act (s : Scheduler) : SchedEvent → Scheduler × List Task
  | .spawn t => (s.spawn t, [])
  | .tick now => s.tick now
  | .blockTask tid => (s.blockTask tid, [])
  | .wakeTask tid => (s.wakeTask tid, [])
  | .wakeOnEvent event => (s.wakeOnEvent event, [])
  | .waitForEvent event => (s.waitForEvent event, [])
  | .stealTaskForAp cpu now => (s.stealTaskForAp cpu now, [])
  | .apSetState cpu state => (s.apSetState cpu state, [])
  | .apTaskFinished cpu => s.apTaskFinished cpu
  | .exitCurrent => s.exitCurrent
  | .oomKillLowest => s.oomKillLowest

/-! ## Taking tasks out of the ready queues -/

variable {s s' : Scheduler} {t : Task} {tid : TaskId} {order : List Priority}

theorem popFirst_eq_some (h : s.popFirst order = some (t, s')) :
    ∃ p rest, s.ready p = t :: rest ∧ s' = { s with ready := update s.ready p rest } := by
  obtain ⟨p, -, hp⟩ := List.exists_of_findSome?_eq_some h
  split at hp
  · cases hp
  · rename_i rest hready
    cases hp
    exact ⟨p, _, hready, rfl⟩

theorem takeReady_eq_some (h : s.takeReady tid = some (t, s')) :
    t.tid = tid ∧ ∃ p front back, s.ready p = front ++ t :: back ∧
      s' = { s with ready := update s.ready p (front ++ back) } := by
  obtain ⟨p, -, hp⟩ := List.exists_of_findSome?_eq_some h
  obtain ⟨u, hu, heq⟩ := Option.map_eq_some_iff.mp hp
  cases heq
  obtain ⟨htid, front, back, hready, hfront⟩ := List.find?_eq_some_iff_append.mp hu
  refine ⟨by simpa using htid, p, front, back, hready, ?_⟩
  have herase : (front ++ t :: back).eraseP (·.tid = tid) = front ++ back := by
    rw [List.eraseP_append_right _ (by simpa using hfront), List.eraseP_cons, htid, cond_true]
  rw [hready, herase]

end Scheduler

end IonaOs.Sched
