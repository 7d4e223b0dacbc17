import IonaOs.Lib.Run
import IonaOs.Types

/-!
# Blocked tasks
-/

namespace IonaOs.Process

open Lib

inductive WakeCondition where
  | timer (t : ℕ)
  | any
deriving DecidableEq

def WakeCondition.due (now : ℕ) : WakeCondition → Bool
  | timer t => t ≤ now
  | any => true

structure WaitEntry where
  tid : TaskId
  condition : WakeCondition

structure Sched where
  blocked : TaskId → Bool
  waitQueue : List WaitEntry
  now : ℕ

namespace Sched

def start : Sched := ⟨fun _ => false, [], 0⟩

variable (s : Sched)

def wakeTask (tid : TaskId) : Sched :=
  { s with blocked := Function.update s.blocked tid false }

/-- The second half of `block_current`. -/
def blockTask (tid : TaskId) : Sched :=
  { s with blocked := Function.update s.blocked tid true }

/-- The first half of `block_current`. -/
def enqueue (tid : TaskId) (condition : WakeCondition) : Sched :=
  { s with waitQueue := s.waitQueue ++ [⟨tid, condition⟩] }

def tick (now : ℕ) : Sched :=
  let due := s.waitQueue.filter (·.condition.due now)
  exec wakeTask ⟨s.blocked, s.waitQueue.filter (!·.condition.due now), now⟩ (due.map (·.tid))

theorem blocked_exec_wakeTask {s : Sched} {tids : List TaskId} {u : TaskId}
    (h : (exec wakeTask s tids).blocked u = true) : s.blocked u = true := by
  induction tids generalizing s with
  | nil => exact h
  | cons tid _ ih =>
    have := ih h
    by_cases hu : u = tid
    · subst hu
      simp [wakeTask] at this
    · simpa [wakeTask, Function.update_of_ne hu] using this

theorem blocked_of_tick {s : Sched} {now : ℕ} {u : TaskId} (h : (s.tick now).blocked u = true) :
    s.blocked u = true :=
  blocked_exec_wakeTask (s := ⟨s.blocked, _, now⟩) h

end Sched

end IonaOs.Process
