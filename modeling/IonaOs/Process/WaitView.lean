import IonaOs.Process.Wait
import IonaOs.Sched.WaitQueue

/-!
# What the pipes and the futexes see of the scheduler

`Process.Sched` is a view of `Sched.Waiting`: the two halves of `block_current`, `wake_task` and the
whole loop of `tick_wakeups` change the view as the functions of `Process.Sched` say.
-/

namespace IonaOs

open Lib Function
open Process (TaskId)

def Process.WakeCondition.full : Process.WakeCondition → Sched.WakeCondition
  | .timer t => .timer t
  | .any => .any

namespace Sched

variable {n : ℕ} {w : Waiting n} {k : Fin n} {s : Process.Sched} {sched : Scheduler}
  {e : WaitEntry} {p : Process.WaitEntry} {now : ℕ} {env : Readiness}

/-- The entry without the number of its call. -/
def WaitEntry.Shows (e : WaitEntry) (p : Process.WaitEntry) : Prop :=
  e.tid = p.tid ∧ e.condition = p.condition.full

theorem WaitEntry.Shows.due (h : e.Shows p) : e.due env now = p.condition.due now := by
  rw [WaitEntry.due, h.2]
  cases p.condition <;> rfl

def Scheduler.Shows (sched : Scheduler) (s : Process.Sched) : Prop :=
  ∀ tid, sched.blocked.contains tid = s.blocked tid

theorem Scheduler.Shows.wakeTask (h : sched.Shows s) (tid : TaskId) :
    (sched.wakeTask tid).Shows (s.wakeTask tid) := by
  intro u
  rw [contains_wakeTask, h u, Process.Sched.wakeTask]
  by_cases hu : u = tid <;> simp [hu]

theorem Scheduler.Shows.exec_wakeTask (h : sched.Shows s) (tids : List TaskId) :
    (exec Scheduler.wakeTask sched tids).Shows (exec Process.Sched.wakeTask s tids) := by
  induction tids generalizing sched s with
  | nil => exact h
  | cons tid _ ih => exact ih (h.wakeTask tid)

namespace Waiting

structure Shows (w : Waiting n) (s : Process.Sched) : Prop where
  sched : w.sched.Shows s
  queue : List.Forall₂ WaitEntry.Shows w.queue s.waitQueue

theorem shows_start (n : ℕ) (sched : Scheduler) : (start n sched).Shows .start :=
  ⟨fun _ => by simp [start, Process.Sched.start], .nil⟩

theorem Shows.enqueue (h : w.Shows s) (k : Fin n) (tid : TaskId) (c : Process.WakeCondition) :
    (w.enqueue k ⟨tid, c.full, w.calls⟩).Shows (s.enqueue tid c) :=
  ⟨h.sched, List.rel_append h.queue (.cons ⟨rfl, rfl⟩ .nil)⟩

/-- The task that blocks itself is the current one, so that `block_task` finds it. -/
theorem Shows.block (h : w.Shows s) (hcan : w.sched.canBlock e.tid = true) :
    (w.block e).Shows (s.blockTask e.tid) := by
  refine ⟨fun u => ?_, h.queue⟩
  rw [Waiting.block, Scheduler.contains_blockTask, hcan, h.sched u, Process.Sched.blockTask]
  by_cases hu : u = e.tid <;> simp [hu]

theorem Shows.wake (h : w.Shows s) (tid : TaskId) : (w.wake tid).Shows (s.wakeTask tid) :=
  ⟨h.sched.wakeTask tid, h.queue⟩

/-! ## The loop of `tick_wakeups` -/

theorem scanFrom_of_due {due : WaitEntry → Bool} (kept rest : List WaitEntry) (h : due e = true) :
    scanFrom due kept.length (kept ++ e :: rest) = some (kept.length, e, kept ++ rest) := by
  simp [scanFrom, takeDue, h]

theorem scanFrom_of_not_due {due : WaitEntry → Bool} (kept rest : List WaitEntry)
    (h : due e = false) : scanFrom due kept.length (kept ++ e :: rest) =
      scanFrom due (kept ++ [e]).length (kept ++ [e] ++ rest) := by
  have hdrop : (kept ++ [e] ++ rest).drop (kept ++ [e]).length = rest := List.drop_left
  have htake : (kept ++ [e] ++ rest).take (kept ++ [e]).length = kept ++ [e] := List.take_left
  rw [scanFrom, scanFrom, hdrop, htake, List.drop_left, List.take_left, takeDue, h]
  cases takeDue due rest with
  | none => rfl
  | some =>
    simp
    omega

/-- The loop has passed over `kept`; it goes on to the end and takes what is due in `rest`. -/
theorem exists_run_scan (env : Readiness) (kept rest : List WaitEntry)
    (hthread : w.threads k = .scanning now kept.length) (hqueue : w.queue = kept ++ rest) :
    ∃ m w', w' = (run · k env)^[m + 1] w ∧ w'.threads k = .idle ∧
      w'.queue = kept ++ rest.filter (!·.due env now) ∧
      w'.sched = exec Scheduler.wakeTask w.sched ((rest.filter (·.due env now)).map (·.tid)) := by
  induction rest generalizing kept w with
  | nil =>
    have hend : scanFrom (WaitEntry.due env now) kept.length kept = none := by
      simp [scanFrom, takeDue]
    refine ⟨0, _, rfl, ?_⟩
    simp [run, hthread, hend, setThread, hqueue]
  | cons e rest ih =>
    cases hdue : e.due env now with
    | true =>
      have hscan := scanFrom_of_due kept rest hdue
      let taken : Waiting n := { w with queue := kept ++ rest }
      obtain ⟨m, w', hw', hrest⟩ := ih (w := (taken.wake e.tid).setThread k
        (.scanning now kept.length)) kept (update_self ..) rfl
      refine ⟨m + 2, w', ?_, ?_⟩
      · rw [hw', iterate_succ_apply _ (m + 1 + 1), iterate_succ_apply _ (m + 1)]
        simp [run, hthread, hqueue, hscan, setThread, wake, taken]
      · simpa [hdue, setThread, wake] using hrest
    | false =>
      have hscan := scanFrom_of_not_due kept rest hdue
      obtain ⟨m, w', hw', hrest⟩ := ih (w := w.setThread k (.scanning now (kept ++ [e]).length))
        (kept ++ [e]) (update_self ..) (by simp [setThread, hqueue])
      refine ⟨m, w', ?_, ?_⟩
      · rw [hw', iterate_succ_apply, iterate_succ_apply]
        simp [run, hthread, hqueue, hscan, setThread]
      · simpa [hdue, setThread] using hrest

/-- **A tick of the view.**  A thread that calls `tick_wakeups` comes to the end of its loop.  Where
no other thread moves meanwhile, it takes and wakes what `Process.Sched.tick` takes and wakes. -/
theorem Shows.tick (h : w.Shows s) (hidle : w.threads k = .idle) (env : Readiness) (now : ℕ) :
    ∃ m w', w' = (run · k env)^[m] (w.step (.tickWakeups k now)) ∧ w'.threads k = .idle ∧
      w'.Shows (s.tick now) := by
  have hscan : w.step (.tickWakeups k now) = w.setThread k (.scanning now 0) := by
    simp only [step, hidle]
  obtain ⟨m, w', hw', hthread, hqueue, hsched⟩ :=
    exists_run_scan (w := w.setThread k (.scanning now 0)) env [] w.queue (update_self ..) rfl
  have hkept : (s.tick now).waitQueue = s.waitQueue.filter (!·.condition.due now) :=
    exec_invariant (I := fun t : Process.Sched => t.waitQueue = _) rfl fun _ _ ht => ht
  have htids : (w.queue.filter (·.due env now)).map (·.tid) =
      (s.waitQueue.filter (·.condition.due now)).map (·.tid) := by
    rw [← List.forall₂_eq_eq_eq]
    refine List.rel_map (fun _ _ hep => hep.1) (List.rel_filter (fun e p hep => ?_) h.queue)
    simp only [hep.due]
  refine ⟨m + 1, w', hscan ▸ hw', hthread, ?_, ?_⟩
  · rw [hsched, htids]
    exact Scheduler.Shows.exec_wakeTask (s := ⟨s.blocked, _, now⟩) h.sched _
  · rw [hqueue, hkept]
    refine List.rel_filter (fun e p hep => ?_) h.queue
    simp only [hep.due]

end Waiting

end Sched

end IonaOs
