import IonaOs.Sched.WaitQueue

/-!
# When the wait queue and the scheduler agree
-/

namespace IonaOs.Sched

open Std Lib Multiset Function Phase
open Process (TaskId)

namespace Waiting

variable {n : ℕ} {w w' : Waiting n} {k : Fin n} {e : WaitEntry} {tid : TaskId} {p : Phase}
  {x : WaitStep n}

/-! ## The entries after a step -/

theorem entries_setThread :
    (w.setThread k p).entries + (w.threads k).pending = w.entries + p.pending := by
  have hsum := sum_update pending w.threads k p
  simp only [entries, setThread]
  rw [add_assoc, hsum, add_assoc]

theorem entries_setThread_of_pending (h : (w.threads k).pending = p.pending) :
    (w.setThread k p).entries = w.entries := by
  have := entries_setThread (w := w) (k := k) (p := p)
  rw [h] at this
  exact add_right_cancel this

theorem call_mem_callsOf (h : e ∈ w.entries) : e.call ∈ w.callsOf e.tid :=
  mem_map_of_mem _ (mem_filter.mpr ⟨h, rfl⟩)

theorem callsOf_of_entries_add (h : w'.entries = w.entries + {e}) (tid : TaskId) :
    w'.callsOf tid = w.callsOf tid + if e.tid = tid then {e.call} else 0 := by
  rw [callsOf, h, filter_add, map_add, callsOf]
  congr 1
  split
  · rename_i htid
    rw [filter_singleton, if_pos htid, map_singleton]
  · rename_i htid
    rw [filter_singleton, if_neg htid]
    rfl

/-! ## The numbers of the calls -/

structure Books (w : Waiting n) : Prop where
  held : ∀ tid, w.sched.blocked.contains tid = (w.holder tid).isSome
  holder_lt : ∀ tid c, w.holder tid = some c → c < w.calls
  blocking_lt : ∀ k e, w.threads k = .blocking e → e.call < w.calls
  alone : ∀ k k' e e', w.threads k = .blocking e → w.threads k' = .blocking e' →
    e.call = e'.call → k = k'
  apart : ∀ k e tid, w.threads k = .blocking e → w.holder tid ≠ some e.call

theorem books_start (s : Scheduler) : (start n s).Books where
  held tid := by simp [start]
  holder_lt tid c h := by cases h
  blocking_lt k e h := by cases h
  alone k k' e e' h := by cases h
  apart k e tid h := by cases h

theorem Books.setThread (h : w.Books) (hp : ∀ e, p ≠ .blocking e) : (w.setThread k p).Books := by
  have hback : ∀ k' e, (w.setThread k p).threads k' = .blocking e → w.threads k' = .blocking e := by
    intro k' e hk'
    by_cases heq : k' = k
    · subst heq
      exact absurd ((update_self ..).symm.trans hk') (hp e)
    · exact (update_of_ne heq ..).symm.trans hk'
  exact ⟨h.held, h.holder_lt, fun k' e hk' => h.blocking_lt k' e (hback k' e hk'),
    fun a b e e' ha hb => h.alone a b e e' (hback a e ha) (hback b e' hb),
    fun k' e tid hk' => h.apart k' e tid (hback k' e hk')⟩

theorem Books.wake (h : w.Books) (tid : TaskId) : (w.wake tid).Books := by
  have hback : ∀ k c, (w.wake tid).holder k = some c → w.holder k = some c := by
    intro k c hk
    by_cases heq : k = tid
    · subst heq
      exact absurd ((update_self ..).symm.trans hk) nofun
    · exact (update_of_ne heq ..).symm.trans hk
  refine ⟨fun k => ?_, fun k c hk => h.holder_lt k c (hback k c hk), h.blocking_lt, h.alone,
    fun k e tid' hk hholder => h.apart k e tid' hk (hback tid' _ hholder)⟩
  simp only [Waiting.wake, Scheduler.contains_wakeTask, h.held]
  by_cases heq : k = tid
  · subst heq
    simp
  · simp [heq]

theorem Books.block (h : w.Books) (hk : w.threads k = .blocking e) :
    ((w.block e).setThread k .idle).Books := by
  have hback : ∀ k' e', ((w.block e).setThread k .idle).threads k' = .blocking e' →
      k' ≠ k ∧ w.threads k' = .blocking e' := by
    intro k' e' hk'
    by_cases heq : k' = k
    · subst heq
      exact absurd ((update_self ..).symm.trans hk') nofun
    · exact ⟨heq, (update_of_ne heq ..).symm.trans hk'⟩
  have hholder : ∀ tid c, (w.block e).holder tid = some c → c = e.call ∨ w.holder tid = some c := by
    intro tid c hc
    simp only [Waiting.block] at hc
    split at hc
    · by_cases heq : tid = e.tid
      · subst heq
        rw [update_self, Option.some.injEq] at hc
        exact .inl hc.symm
      · rw [update_of_ne heq] at hc
        exact .inr hc
    · exact .inr hc
  refine ⟨fun tid => ?_, fun tid c hc => ?_,
    fun k' e' hk' => h.blocking_lt k' e' (hback k' e' hk').2,
    fun a b e₁ e₂ ha hb => h.alone a b e₁ e₂ (hback a e₁ ha).2 (hback b e₂ hb).2,
    fun k' e' tid hk' hc => ?_⟩
  · simp only [Waiting.setThread, Waiting.block, Scheduler.contains_blockTask, h.held]
    cases w.sched.canBlock e.tid with
    | false => simp
    | true =>
      by_cases heq : tid = e.tid
      · simp [heq]
      · simp [heq]
  · rcases hholder tid c hc with rfl | hc
    · exact h.blocking_lt k e hk
    · exact h.holder_lt tid c hc
  · obtain ⟨hne, hk'⟩ := hback k' e' hk'
    rcases hholder tid _ hc with heq | hc
    · exact hne (h.alone k' k e' e hk' hk heq)
    · exact h.apart k' e' tid hk' hc

theorem Books.enqueue (h : w.Books) (hcall : e.call = w.calls) : (w.enqueue k e).Books := by
  have hthread : ∀ k' e', (w.enqueue k e).threads k' = .blocking e' →
      (k' = k ∧ e'.call = w.calls) ∨ (k' ≠ k ∧ w.threads k' = .blocking e') := by
    intro k' e' hk'
    simp only [Waiting.enqueue, Waiting.setThread] at hk'
    by_cases heq : k' = k
    · subst heq
      rw [update_self] at hk'
      cases hk'
      exact .inl ⟨rfl, hcall⟩
    · rw [update_of_ne heq] at hk'
      exact .inr ⟨heq, hk'⟩
  refine ⟨h.held, fun tid c hc => (h.holder_lt tid c hc).trans (Nat.lt_succ_self _), ?_, ?_, ?_⟩
  · intro k' e hk'
    rcases hthread k' e hk' with ⟨-, hcall⟩ | ⟨-, hold⟩
    · exact hcall.trans_lt (Nat.lt_succ_self _)
    · exact (h.blocking_lt k' e hold).trans (Nat.lt_succ_self _)
  · intro a b e₁ e₂ ha hb heq
    rcases hthread a e₁ ha with ⟨rfl, hcall₁⟩ | ⟨-, hold₁⟩ <;>
      rcases hthread b e₂ hb with ⟨rfl, hcall₂⟩ | ⟨-, hold₂⟩
    · rfl
    · exact absurd (heq.symm.trans hcall₁) (h.blocking_lt b e₂ hold₂).ne
    · exact absurd (heq.trans hcall₂) (h.blocking_lt a e₁ hold₁).ne
    · exact h.alone a b e₁ e₂ hold₁ hold₂ heq
  · intro k' e tid' hk' hc
    rcases hthread k' e hk' with ⟨-, hcall⟩ | ⟨-, hold⟩
    · exact (h.holder_lt tid' _ hc).ne hcall
    · exact h.apart k' e tid' hold hc

/-! ## What a step can do -/

structure Quiet (w w' : Waiting n) : Prop where
  sched : w'.sched = w.sched
  holder : w'.holder = w.holder
  calls : w'.calls = w.calls
  entries : w'.entries = w.entries
  queue : ∀ e ∈ w'.queue, e ∈ w.queue
  blocking : ∀ k e, w'.threads k = .blocking e ↔ w.threads k = .blocking e

theorem Quiet.refl : Quiet w w := ⟨rfl, rfl, rfl, rfl, fun _ h => h, fun _ _ => Iff.rfl⟩

theorem quiet_setThread {queue : List WaitEntry} (hk : ∀ e, w.threads k ≠ .blocking e)
    (hp : ∀ e, p ≠ .blocking e)
    (hentries : (queue : Multiset WaitEntry) + p.pending = w.queue + (w.threads k).pending)
    (hqueue : ∀ e ∈ queue, e ∈ w.queue) : Quiet w ({ w with queue }.setThread k p) where
  sched := rfl
  holder := rfl
  calls := rfl
  entries := by
    have hset := entries_setThread (w := { w with queue }) (k := k) (p := p)
    refine add_right_cancel (hset.trans ?_)
    simp only [Waiting.entries]
    rw [add_right_comm, hentries, add_right_comm]
  queue := hqueue
  blocking k' e := by
    by_cases heq : k' = k
    · subst heq
      simp only [setThread, update_self]
      exact iff_of_false (hp e) (hk e)
    · simp only [setThread, update_of_ne heq]

theorem quiet_retain (hk : w.threads k = .idle) (wakes : WaitEntry → Bool) :
    Quiet w (w.retain k wakes) := by
  refine quiet_setThread (by simp [hk]) (by simp) ?_ fun e he => (List.mem_filter.mp he).1
  have hperm := List.filter_append_perm wakes w.queue
  rw [hk, pending_idle, pending_waking, add_zero, add_comm, coe_add, coe_eq_coe]
  exact hperm

theorem run_cases (env : Readiness) :
    (∃ e, w.threads k = .blocking e ∧ w.run k env = (w.block e).setThread k .idle) ∨
    (∃ e p, (w.threads k).next = some e ∧ (∀ e', p ≠ .blocking e') ∧
      (w.threads k).pending = p.pending + {e} ∧
      w.run k env = (w.wake e.tid).setThread k p) ∨
    ((∀ e, w.threads k ≠ .blocking e) ∧ Quiet w (w.run k env)) := by
  rw [run]
  cases hk : w.threads k with
  | idle => exact .inr (.inr ⟨nofun, .refl⟩)
  | blocking e => exact .inl ⟨e, rfl, rfl⟩
  | scanning =>
    refine .inr (.inr ⟨nofun, ?_⟩)
    dsimp only
    split
    · exact quiet_setThread (by simp [hk]) nofun (by simp [hk]) fun _ h => h
    rename_i j e rest hscan
    obtain ⟨-, front, back, hqueue, rfl⟩ := scanFrom_eq_some hscan
    refine quiet_setThread (by simp [hk]) nofun ?_ ?_
    · rw [hk, hqueue, pending_scanWaking, pending_scanning, add_zero,
        ← coe_singleton, coe_add, coe_eq_coe]
      grind
    · intro e' he'
      rw [hqueue]
      grind
  | scanWaking now i e =>
    exact .inr (.inl ⟨e, .scanning now i, rfl, nofun, by simp, rfl⟩)
  | waking es =>
    cases es with
    | nil =>
      refine .inr (.inr ⟨nofun, ?_⟩)
      exact quiet_setThread (by simp [hk]) nofun (by simp [hk]) fun _ h => h
    | cons e es =>
      refine .inr (.inl ⟨e, .waking es, rfl, nofun, ?_, rfl⟩)
      rw [pending_waking, pending_waking, ← cons_coe, add_comm, singleton_add]

def Settles (w : Waiting n) (e : WaitEntry) : Prop :=
  if w.sched.canBlock e.tid then w.callsOf e.tid = {e.call} else e ∉ w.queue

/-- Steps that keep the agreement: `block_current` is called for a task that is not blocked, its
entry is still the one of the task when the task is blocked, and other code wakes no task whose
entry is in the queue. -/
def Careful (w : Waiting n) : WaitStep n → Prop
  | .blockCurrent k tid _ => w.threads k = .idle → w.holder tid = none
  | .wakeTask tid => ∀ e ∈ w.queue, e.tid = tid → w.holder tid ≠ some e.call
  | .run k _ => ∀ e, w.threads k = .blocking e → w.Settles e
  | _ => True

theorem step_cases (w : Waiting n) (x : WaitStep n) :
    (∃ k tid cond, x = .blockCurrent k tid cond ∧ w.threads k = .idle ∧
      w.step x = w.enqueue k ⟨tid, cond, w.calls⟩) ∨
    (∃ tid, x = .wakeTask tid ∧ w.step x = w.wake tid) ∨
    (∃ k env e, x = .run k env ∧ w.threads k = .blocking e ∧
      w.step x = (w.block e).setThread k .idle) ∨
    (∃ k env e p, x = .run k env ∧ (w.threads k).next = some e ∧ (∀ e', p ≠ .blocking e') ∧
      (w.threads k).pending = p.pending + {e} ∧ w.step x = (w.wake e.tid).setThread k p) ∨
    (w.Careful x ∧ Quiet w (w.step x)) := by
  cases x with
  | blockCurrent k tid cond =>
    cases hk : w.threads k with
    | idle => exact .inl ⟨k, tid, cond, rfl, hk, by simp only [step, hk]⟩
    | _ =>
      refine .inr (.inr (.inr (.inr ⟨by simp [Careful, hk], ?_⟩)))
      simp only [step, hk]
      exact .refl
  | tickWakeups =>
    refine .inr (.inr (.inr (.inr ⟨trivial, ?_⟩)))
    rw [step]
    split
    · rename_i hk
      exact quiet_setThread (by simp [hk]) nofun (by simp [hk]) fun _ h => h
    · exact .refl
  | wakeIpc | wakeNet =>
    refine .inr (.inr (.inr (.inr ⟨trivial, ?_⟩)))
    rw [step]
    split
    · exact quiet_retain ‹_› _
    · exact .refl
  | wakeTask tid => exact .inr (.inl ⟨tid, rfl, rfl⟩)
  | run k env =>
    rcases run_cases (w := w) (k := k) env with ⟨e, hk, hrun⟩ | ⟨e, p, hnext, hp, hpend, hrun⟩ |
      ⟨hk, hquiet⟩
    · exact .inr (.inr (.inl ⟨k, env, e, rfl, hk, hrun⟩))
    · exact .inr (.inr (.inr (.inl ⟨k, env, e, p, rfl, hnext, hp, hpend, hrun⟩)))
    · exact .inr (.inr (.inr (.inr ⟨fun e he => absurd he (hk e), hquiet⟩)))

theorem Books.quiet (h : w.Books) (hq : Quiet w w') : w'.Books := by
  refine ⟨fun tid => ?_, fun tid c hc => ?_, fun k e hk => ?_, fun a b e e' ha hb => ?_,
    fun k e tid hk hc => ?_⟩
  · rw [hq.sched, hq.holder]
    exact h.held tid
  · rw [hq.holder] at hc
    rw [hq.calls]
    exact h.holder_lt tid c hc
  · rw [hq.calls]
    exact h.blocking_lt k e ((hq.blocking k e).mp hk)
  · exact h.alone a b e e' ((hq.blocking a e).mp ha) ((hq.blocking b e').mp hb)
  · rw [hq.holder] at hc
    exact h.apart k e tid ((hq.blocking k e).mp hk) hc

theorem Books.step (h : w.Books) (x : WaitStep n) : (w.step x).Books := by
  rcases w.step_cases x with ⟨k, tid, cond, -, -, heq⟩ | ⟨tid, -, heq⟩ | ⟨k, env, e, -, hk, heq⟩ |
    ⟨k, env, e, p, -, -, hp, -, heq⟩ | ⟨-, hq⟩
  · exact heq ▸ h.enqueue rfl
  · exact heq ▸ h.wake tid
  · exact heq ▸ h.block hk
  · exact heq ▸ (h.wake e.tid).setThread hp
  · exact h.quiet hq

/-! ## The agreement, step by step -/

theorem Agrees.quiet (h : w.Agrees) (hq : Quiet w w') : w'.Agrees := by
  refine ⟨fun tid c hc => ?_, fun e he => ?_⟩
  · rw [callsOf, hq.entries]
    exact h.one tid c (hq.holder ▸ hc)
  rw [hq.holder]
  refine (h.own e (hq.queue e he)).imp_right ?_
  rintro ⟨k, hk⟩
  exact ⟨k, (hq.blocking k e).mpr hk⟩

theorem entries_enqueue (hk : w.threads k = .idle) : (w.enqueue k e).entries = w.entries + {e} := by
  have hset := entries_setThread (p := .blocking e)
    (w := { w with queue := w.queue ++ [e], calls := w.calls + 1 }) (k := k)
  simp only [hk, pending_idle, pending_blocking, add_zero] at hset
  rw [enqueue, hset, entries, entries, ← coe_add, coe_singleton, add_right_comm]

section

variable (h : w.Agrees)
include h

theorem Agrees.enqueue_iff (hk : w.threads k = .idle) :
    (w.enqueue k e).Agrees ↔ w.holder e.tid = none := by
  have hcalls := callsOf_of_entries_add (entries_enqueue (e := e) hk)
  constructor
  · intro h'
    by_contra hne
    obtain ⟨c, hc⟩ := Option.ne_none_iff_exists'.mp hne
    -- it had one entry and has two now
    have htwo := h'.one e.tid c hc
    rw [hcalls, if_pos rfl, h.one e.tid c hc] at htwo
    exact absurd (congrArg card htwo) (by simp)
  · intro hnone
    refine ⟨fun tid c hc => ?_, fun e' he' => ?_⟩
    · have hne : e.tid ≠ tid := by
        rintro rfl
        exact absurd (hnone.symm.trans hc) nofun
      rw [hcalls, if_neg hne, add_zero]
      exact h.one tid c hc
    rcases List.mem_append.mp he' with he' | he'
    · refine (h.own e' he').imp_right ?_
      rintro ⟨k', hk'⟩
      have hne : k' ≠ k := by
        rintro rfl
        exact absurd (hk.symm.trans hk') nofun
      exact ⟨k', (update_of_ne hne ..).trans hk'⟩
    · rw [List.mem_singleton] at he'
      subst he'
      exact .inr ⟨k, update_self ..⟩

theorem Agrees.wake_iff (hb : w.Books) :
    (w.wake tid).Agrees ↔ ∀ e ∈ w.queue, e.tid = tid → w.holder tid ≠ some e.call := by
  constructor
  · rintro h' e he rfl hholder
    rcases h'.own e he with hnone | ⟨k, hk⟩
    · exact absurd ((update_self ..).symm.trans hnone) nofun
    · exact hb.apart k e e.tid hk hholder
  intro hcare
  refine ⟨fun k c hc => ?_, fun e he => ?_⟩
  · have hne : k ≠ tid := by
      rintro rfl
      exact absurd ((update_self ..).symm.trans hc) nofun
    exact h.one k c ((update_of_ne hne ..).symm.trans hc)
  · refine (h.own e he).imp_left fun hholder => ?_
    have hne : e.tid ≠ tid := by
      rintro rfl
      exact hcare e he rfl hholder
    exact (update_of_ne hne ..).trans hholder

theorem Agrees.not_both {e' : WaitEntry} {c : ℕ} (hc : w.holder e.tid = some c)
    (htaken : e ∈ (w.threads k).pending) (htid : e'.tid = e.tid) : e' ∉ w.queue := by
  intro hqueue
  have hsum : ({e} : Multiset WaitEntry) ≤ ∑ k, (w.threads k).pending :=
    singleton_le.mpr (mem_sum.mpr ⟨k, Finset.mem_univ k, htaken⟩)
  have htwo : ({e'} + {e} : Multiset WaitEntry) ≤ w.entries :=
    add_le_add (singleton_le.mpr hqueue) hsum
  have hcard := card_le_card (filter_le_filter (·.tid = e.tid) htwo)
  have hone := congrArg card (h.one e.tid c hc)
  rw [callsOf, card_map, card_singleton] at hone
  rw [hone, filter_add, filter_singleton, filter_singleton, if_pos htid,
    if_pos rfl, card_add, card_singleton, card_singleton] at hcard
  omega

theorem Agrees.use (hb : w.Books) (hnext : (w.threads k).next = some e)
    (hpend : (w.threads k).pending = p.pending + {e}) : ((w.wake e.tid).setThread k p).Agrees := by
  have hentries : w.entries = ((w.wake e.tid).setThread k p).entries + {e} := by
    have hset := entries_setThread (w := w.wake e.tid) (k := k) (p := p)
    refine add_right_cancel (b := p.pending) (hset.symm.trans ?_)
    rw [show (w.wake e.tid).threads k = w.threads k from rfl, hpend, add_right_comm, add_assoc]
  have hwoken : (w.wake e.tid).Agrees := by
    refine (h.wake_iff hb).mpr fun e' he' htid hholder => ?_
    exact h.not_both hholder (mem_pending_of_next hnext) htid he'
  refine ⟨fun tid c hc => ?_, fun e' he' => (hwoken.own e' he').imp_right ?_⟩
  · have hne : e.tid ≠ tid := by
      rintro rfl
      exact absurd ((update_self ..).symm.trans hc) nofun
    have hcalls := callsOf_of_entries_add hentries tid
    rw [if_neg hne, add_zero] at hcalls
    rw [← hcalls]
    exact h.one tid c ((update_of_ne hne.symm ..).symm.trans hc)
  · rintro ⟨k', hk'⟩
    have hne : k' ≠ k := by
      rintro rfl
      rw [show w.threads k' = _ from hk'] at hnext
      cases hnext
    exact ⟨k', (update_of_ne hne ..).trans hk'⟩

theorem Agrees.block_iff (hb : w.Books) (hk : w.threads k = .blocking e) :
    ((w.block e).setThread k .idle).Agrees ↔ w.Settles e := by
  have hcalls : ∀ tid, ((w.block e).setThread k .idle).callsOf tid = w.callsOf tid := by
    intro tid
    have hentries : ((w.block e).setThread k .idle).entries = w.entries := by
      refine (entries_setThread_of_pending ?_).trans rfl
      rw [show (w.block e).threads k = w.threads k from rfl, hk]
      rfl
    rw [callsOf, hentries, callsOf]
  have hother : ∀ e' k', w.threads k' = .blocking e' → e' ≠ e →
      ((w.block e).setThread k .idle).threads k' = .blocking e' := by
    intro e' k' hk' hne
    have : k' ≠ k := by
      rintro rfl
      exact hne (blocking.inj (hk'.symm.trans hk))
    exact (update_of_ne this ..).trans hk'
  rw [Settles]
  split
  · rename_i hcan
    have hholder : ((w.block e).setThread k .idle).holder =
        update w.holder e.tid (some e.call) := if_pos hcan
    constructor
    · intro h'
      rw [← hcalls]
      exact h'.one e.tid e.call (by rw [hholder, update_self])
    intro hone
    refine ⟨fun tid c hc => ?_, fun e' he' => ?_⟩
    · rw [hcalls]
      rw [hholder] at hc
      by_cases htid : tid = e.tid
      · subst htid
        rw [update_self, Option.some.injEq] at hc
        exact hc ▸ hone
      · rw [update_of_ne htid] at hc
        exact h.one tid c hc
    · by_cases htid : e'.tid = e.tid
      · -- the only entry of the task is that of this call
        have hmem := call_mem_callsOf (mem_add.mpr (.inl he'))
        rw [htid, hcalls, hone, mem_singleton] at hmem
        rw [hholder, htid, update_self, hmem]
        exact .inl rfl
      · rw [hholder, update_of_ne htid]
        refine (h.own e' he').imp_right ?_
        rintro ⟨k', hk'⟩
        exact ⟨k', hother e' k' hk' fun heq => htid (heq ▸ rfl)⟩
  · rename_i hcan
    have hholder : ((w.block e).setThread k .idle).holder = w.holder := if_neg hcan
    constructor
    · intro h' he
      rcases h'.own e he with hheld | ⟨k', hk'⟩
      · exact hb.apart k e e.tid hk (hholder ▸ hheld)
      have hne : k' ≠ k := by
        rintro rfl
        exact absurd ((update_self ..).symm.trans hk') nofun
      exact hne (hb.alone k' k e e ((update_of_ne hne ..).symm.trans hk') hk rfl)
    · intro hgone
      refine ⟨fun tid c hc => ?_, fun e' he' => ?_⟩
      · rw [hcalls]
        exact h.one tid c (hholder ▸ hc)
      rw [hholder]
      refine (h.own e' he').imp_right ?_
      rintro ⟨k', hk'⟩
      exact ⟨k', hother e' k' hk' fun heq => hgone (heq ▸ he')⟩

theorem Agrees.step_iff (hb : w.Books) (x : WaitStep n) : (w.step x).Agrees ↔ w.Careful x := by
  rcases w.step_cases x with ⟨k, tid, cond, rfl, hk, heq⟩ | ⟨tid, rfl, heq⟩ |
    ⟨k, env, e, rfl, hk, heq⟩ | ⟨k, env, e, p, rfl, hnext, -, hpend, heq⟩ | ⟨hcare, hq⟩
  · rw [heq, h.enqueue_iff hk]
    exact ⟨fun hnone _ => hnone, fun hcare => hcare hk⟩
  · rw [heq, h.wake_iff hb]
    rfl
  · rw [heq, h.block_iff hb hk]
    constructor
    · intro hsettles e' he'
      exact blocking.inj (hk.symm.trans he') ▸ hsettles
    · exact fun hcare => hcare e hk
  · rw [heq]
    refine iff_of_true (h.use hb hnext hpend) fun e' he' => ?_
    rw [he'] at hnext
    cases hnext
  · exact iff_of_true (h.quiet hq) hcare

end

/-! ## Wake-ups -/

theorem meets_of_taken (hmem : e ∈ w.queue) (htaken : e ∉ (w.step x).queue) : w.Meets x e := by
  cases x with
  | blockCurrent =>
    rw [step] at htaken
    split at htaken
    · exact htaken (List.mem_append_left _ hmem)
    · exact htaken hmem
  | tickWakeups =>
    rw [step] at htaken
    split at htaken <;> exact htaken hmem
  | wakeIpc | wakeNet =>
    rw [step] at htaken
    split at htaken
    · simpa [Meets, retain, setThread, hmem] using htaken
    · exact absurd hmem htaken
  | wakeTask => exact htaken hmem
  | run =>
    rw [step, run] at htaken
    split at htaken
    case h_3 now i hk =>
      split at htaken
      · exact absurd hmem htaken
      rename_i j d rest hscan
      obtain ⟨hdue, front, back, hqueue, rfl⟩ := scanFrom_eq_some hscan
      have heq : e = d := by
        rw [hqueue] at hmem
        simp only [setThread] at htaken
        grind
      exact ⟨now, i, hk, heq ▸ hdue⟩
    all_goals exact absurd hmem htaken

theorem Agrees.rightful (h : w.Agrees) (hb : w.Books) (x : WaitStep n) : w.Rightful x := by
  refine ⟨fun e => meets_of_taken, ?_⟩
  rintro k env e rfl hnext hblocked
  rw [hb.held] at hblocked
  obtain ⟨c, hc⟩ := Option.isSome_iff_exists.mp hblocked
  have hmem := call_mem_callsOf
    (mem_add.mpr (.inr (mem_sum.mpr ⟨_, Finset.mem_univ _, mem_pending_of_next hnext⟩)))
  rw [h.one e.tid c hc, mem_singleton] at hmem
  rw [hc, hmem]

theorem agrees_start (s : Scheduler) : (start n s).Agrees where
  one tid c h := by cases h
  own e h := by cases h

/-- **The wait queue and the scheduler agree** all along a run, and every wake-up is for the block
its task is in, exactly if the steps are careful. -/
theorem agrees_iff (n : ℕ) (s : Scheduler) (xs : List (WaitStep n)) :
    Along step (fun w x => w.Rightful x ∧ (w.step x).Agrees) (start n s) xs ↔
      Along step Careful (start n s) xs := by
  refine along_congr (I := fun w => w.Books ∧ w.Agrees) ?_ ?_ ⟨books_start s, agrees_start s⟩
  · rintro w x ⟨hb, -⟩ ⟨-, h'⟩
    exact ⟨hb.step x, h'⟩
  · rintro w x ⟨hb, h⟩
    rw [and_iff_right (h.rightful hb x)]
    exact h.step_iff hb x

def silent : Readiness := ⟨fun _ => false, fun _ => false⟩

def wokenEarly : List (WaitStep 1) :=
  [.blockCurrent 0 1 (.timer 100), .run 0 silent, .wakeTask 1]

def blockedAgain : List (WaitStep 1) :=
  [.blockCurrent 0 1 .ipcMessage, .run 0 silent, .tickWakeups 0 100, .run 0 silent]

/-- A task is woken early, and no call is under way: its entry stays.  When it has blocked again, to
wait for a message, the entry of the first block wakes it, and there is no message. -/
theorem woken_by_leftover :
    let w := exec step (start 1 (Scheduler.new.spawn (.new 1 1))) wokenEarly
    let w' := exec step w blockedAgain
    (w.threads 0 = .idle ∧ w.queue = [⟨1, .timer 100, 0⟩] ∧ w.holder 1 = none) ∧
      (w'.holder 1 = some 1 ∧ w'.threads 0 = .scanWaking 100 0 ⟨1, .timer 100, 0⟩) ∧
      (w'.sched.blocked.contains 1 = true ∧ (w'.run 0 silent).sched.blocked.contains 1 = false) ∧
      ¬ w'.Rightful (.run 0 silent) := by
  intro w w'
  have hphase : w'.threads 0 = .scanWaking 100 0 ⟨1, .timer 100, 0⟩ := by decide +kernel
  have hholder : w'.holder 1 = some 1 := by decide +kernel
  have hblocked : w'.sched.blocked.contains 1 = true := by decide +kernel
  refine ⟨by decide +kernel, ⟨hholder, hphase⟩, ⟨hblocked, by decide +kernel⟩, fun h => ?_⟩
  have hlatest := h.latest 0 silent ⟨1, .timer 100, 0⟩ rfl (by rw [hphase]; rfl) hblocked
  exact absurd (hholder.symm.trans hlatest) (by decide)

end Waiting

end IonaOs.Sched
