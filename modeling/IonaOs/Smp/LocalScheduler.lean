import IonaOs.Lib.MapSum
import IonaOs.Lib.Word
import IonaOs.Sched.Scheduler

/-!
# The scheduler of one CPU
-/

namespace IonaOs.Smp

open Lib Function List Option
open Process (TaskId)
open Sched (TaskState)

inductive TaskDomain where
  | idle
  | other
deriving DecidableEq

abbrev Priority := Fin 256

scoped instance neZero_priorityLevels : NeZero 256 := ⟨by decide⟩

def idlePriority : Priority := 0
def defaultQuantum : ℕ := 10

/-- `size_of::<Task>()`. -/
def taskBytes : ℕ := 160
/-- The most tasks a `VecDeque` can hold. -/
def maxQueue : ℕ := (2 ^ 63 - 1) / taskBytes

structure Task where
  tid : TaskId
  domain : TaskDomain
  priority : Priority
  state : TaskState
  since : ℕ
deriving DecidableEq

abbrev Ident := TaskId × TaskDomain × Priority

namespace Task

def runnable (t : Task) : Bool := t.state = .ready ∨ t.state = .running

/-- The priority `spawn` queues a task with. -/
def lane (t : Task) : Priority :=
  if t.domain ≠ .idle ∧ t.priority = idlePriority then 1 else t.priority

def ident (t : Task) : Ident := (t.tid, t.domain, t.lane)

/-- What a call of `spawn` brings in. -/
def entering (t : Task) : Multiset Ident :=
  if t.state = .dead ∨ t.state = .blocked then 0 else {t.ident}

theorem entering_of_ready {t : Task} (h : t.state = .ready) : t.entering = {t.ident} := by
  simp [entering, h]

theorem ident_lane (t : Task) (state : TaskState) :
    ident { t with priority := t.lane, state } = t.ident := by
  have hlane : lane { t with priority := t.lane, state } = t.lane := by
    simp only [lane]
    split <;> simp_all [idlePriority]
  rw [ident, hlane, ident]

theorem priority_of_ident {t : Task} {tid : TaskId} (h : t.ident = (tid, .idle, idlePriority)) :
    t.priority = idlePriority := by
  simp only [ident, Prod.mk.injEq] at h
  obtain ⟨-, hdomain, hlane⟩ := h
  simpa [lane, hdomain] using hlane

end Task

def idents (ts : List Task) : Multiset Ident := Multiset.ofList (ts.map Task.ident)

@[simp] theorem idents_nil : idents [] = 0 := rfl

@[simp] theorem idents_append (ts us : List Task) : idents (ts ++ us) = idents ts + idents us := by
  rw [idents, map_append, ← Multiset.coe_add, idents, idents]

@[simp] theorem idents_cons (t : Task) (ts : List Task) :
    idents (t :: ts) = {t.ident} + idents ts := by
  rw [idents, map_cons, ← Multiset.cons_coe, Multiset.singleton_add, idents]

structure LocalScheduler where
  cpuId : ℕ
  current : Option Task
  ready : Priority → List Task
  readyLen : UInt64
  quantum : ℕ
  switches : UInt64
  pushed : ℕ

namespace LocalScheduler

/-- `LocalScheduler::new`, with the idle task of the CPU. -/
def new (cpuId : ℕ) (idle : Task) : LocalScheduler where
  cpuId := cpuId
  current := none
  ready := update (fun _ => []) idlePriority [{ idle with since := 0 }]
  readyLen := 1
  quantum := defaultQuantum
  switches := 0
  pushed := 1

variable (s : LocalScheduler)

/-- `push_back` on the queue of the task's priority, and the count. -/
def push (t : Task) : Option LocalScheduler :=
  if (s.ready t.priority).length < maxQueue then
    some { s with
      ready := update s.ready t.priority
        (s.ready t.priority ++ [{ t with since := s.pushed }])
      readyLen := satAdd s.readyLen 1
      pushed := s.pushed + 1 }
  else none

def spawn (t : Task) : Option LocalScheduler :=
  if t.state = .dead ∨ t.state = .blocked then some s
  else s.push { t with priority := t.lane, state := .ready }

def enqueueCurrent : Option LocalScheduler :=
  match s.current with
  | none => some s
  | some t =>
    let s := { s with current := none }
    if t.runnable then s.push { t with state := .ready } else some s

/-- The inner loop of `pick_next`: tasks that are not runnable are dropped. -/
def popFront : List Task → UInt64 → Option Task × List Task × UInt64
  | [], len => (none, [], len)
  | t :: q, len =>
    let len := satSub len 1
    if t.runnable then (some t, q, len) else popFront q len

/-- The inner loop of `steal_one`. -/
def popBack (q : List Task) (len : UInt64) : Option Task × List Task × UInt64 :=
  let (t, q, len) := popFront q.reverse len
  (t, q.reverse, len)

def takeFrom (pop : List Task → UInt64 → Option Task × List Task × UInt64) :
    List Priority → LocalScheduler → Option Task × LocalScheduler
  | [], s => (none, s)
  | p :: ps, s =>
    let (t, q, len) := pop (s.ready p) s.readyLen
    let s := { s with ready := update s.ready p q, readyLen := len }
    match t with
    | some t => (some t, s)
    | none => takeFrom pop ps s

variable (s : LocalScheduler)

def pickNext : Option Task × LocalScheduler :=
  takeFrom popFront (List.finRange 256).reverse s

def stealOne : Option Task × LocalScheduler :=
  takeFrom popBack (List.finRange 256).tail s

def readyCount : UInt64 := s.readyLen

def isRunningIdle : Bool :=
  match s.current with
  | none => true
  | some t => t.priority = idlePriority

def tick : Option (Bool × LocalScheduler) :=
  match s.current with
  | none =>
    let (t, s) := s.pickNext
    some (false, { s with current := t, quantum := defaultQuantum })
  | some _ =>
    let s := { s with quantum := s.quantum - 1 }
    if s.quantum = 0 then
      s.enqueueCurrent.map fun s =>
        let (t, s) := s.pickNext
        (true, { s with current := t, quantum := defaultQuantum, switches := satAdd s.switches 1 })
    else some (false, s)

/-! ## What holds of the queues -/

def tasks : Multiset Ident :=
  idents (s.current.filter Task.runnable).toList + ∑ p, idents (s.ready p)

structure Queues : Prop where
  len : s.readyLen.toNat = ∑ p, (s.ready p).length
  short : ∀ p, (s.ready p).length ≤ maxQueue
  ready : ∀ p, ∀ t ∈ s.ready p, t.state = .ready
  filed : ∀ p, ∀ t ∈ s.ready p, t.priority = p
  order : ∀ p, (s.ready p).Pairwise (·.since < ·.since)
  past : ∀ p, ∀ t ∈ s.ready p, t.since < s.pushed

variable {s s' : LocalScheduler} {t u : Task} {p : Priority} {q : List Task} {len : UInt64}

theorem runnable_of_ready (h : t.state = .ready) : t.runnable = true := by simp [Task.runnable, h]

theorem Queues.readyLen_lt (h : s.Queues) : s.readyLen.toNat + 1 < 2 ^ 64 := by
  have hsum : ∑ p, (s.ready p).length ≤ ∑ _p : Priority, maxQueue :=
    Finset.sum_le_sum fun p _ => h.short p
  rw [h.len]
  simp only [Finset.sum_const, Finset.card_univ, Fintype.card_fin, smul_eq_mul, maxQueue,
    taskBytes] at hsum
  omega

section

variable (h : s.push t = some s')
include h

theorem push_eq_some :
    (s.ready t.priority).length < maxQueue ∧
    s' = { s with
      ready := update s.ready t.priority
        (s.ready t.priority ++ [{ t with since := s.pushed }])
      readyLen := satAdd s.readyLen 1
      pushed := s.pushed + 1 } := by
  rw [push] at h
  split at h
  · exact ⟨‹_›, (some.inj h).symm⟩
  · cases h

theorem current_push : s'.current = s.current := by
  rw [(push_eq_some h).2]

theorem subset_push (hu : u ∈ s.ready p) : u ∈ s'.ready p := by
  rw [(push_eq_some h).2]
  by_cases hp : p = t.priority
  · subst hp
    simp only [update_self]
    exact mem_append_left _ hu
  · simpa only [update_of_ne hp] using hu

theorem tasks_push : s'.tasks = s.tasks + {t.ident} := by
  rw [(push_eq_some h).2]
  have hsum := sum_update idents s.ready t.priority
    (s.ready t.priority ++ [{ t with since := s.pushed }])
  have hident : Task.ident { t with since := s.pushed } = t.ident := rfl
  rw [idents_append, idents_cons, idents_nil, add_zero, hident, ← add_assoc, add_right_comm] at hsum
  simp only [tasks]
  rw [add_right_cancel hsum, add_assoc]

end

theorem Queues.push (hs : s.Queues) (ht : t.state = .ready) (h : s.push t = some s') :
    s'.Queues := by
  obtain ⟨hroom, rfl⟩ := push_eq_some h
  -- an entry of the new queues is an old one or the pushed task
  have hmem : ∀ p, ∀ u ∈ update s.ready t.priority
      (s.ready t.priority ++ [{ t with since := s.pushed }]) p,
      u ∈ s.ready p ∨ (p = t.priority ∧ u = { t with since := s.pushed }) := by
    intro p u hu
    by_cases hp : p = t.priority
    · subst hp
      rw [update_self, mem_append, mem_singleton] at hu
      exact hu.imp_right fun hu => ⟨rfl, hu⟩
    · rw [update_of_ne hp] at hu
      exact .inl hu
  refine ⟨?_, ?_, ?_, ?_, ?_, ?_⟩
  · have hsum := sum_update length s.ready t.priority
      (s.ready t.priority ++ [{ t with since := s.pushed }])
    have hone : (1 : UInt64).toNat = 1 := rfl
    have hlt := hs.readyLen_lt
    rw [length_append, length_singleton] at hsum
    have hlen := hs.len
    simp only [toNat_satAdd, hone]
    omega
  · intro p
    by_cases hp : p = t.priority
    · subst hp
      simp only [update_self, length_append, length_singleton]
      exact hroom
    · simpa only [update_of_ne hp] using hs.short p
  · intro p u hu
    rcases hmem p u hu with hu | ⟨-, rfl⟩
    · exact hs.ready p u hu
    · exact ht
  · intro p u hu
    rcases hmem p u hu with hu | ⟨rfl, rfl⟩
    · exact hs.filed p u hu
    · rfl
  · intro p
    by_cases hp : p = t.priority
    · subst hp
      simp only [update_self, pairwise_append, mem_singleton]
      refine ⟨hs.order _, pairwise_singleton _ _, fun u hu v hv => ?_⟩
      rw [hv]
      exact hs.past _ u hu
    · simpa only [update_of_ne hp] using hs.order p
  · intro p u hu
    rcases hmem p u hu with hu | ⟨-, rfl⟩
    · exact (hs.past p u hu).trans (Nat.lt_succ_self _)
    · exact Nat.lt_succ_self _

/-! ## Taking a task -/

def without (s : LocalScheduler) (p : Priority) (q : List Task) : LocalScheduler :=
  { s with ready := update s.ready p q, readyLen := satSub s.readyLen 1 }

theorem Queues.without {front back : List Task} (hs : s.Queues)
    (hq : s.ready p = front ++ t :: back) : (s.without p (front ++ back)).Queues := by
  have hsub : (front ++ back).Sublist (s.ready p) := by
    rw [hq]
    exact (List.Sublist.refl front).append (sublist_cons_self t back)
  have hsubs := (forall_update_iff s.ready fun r q => q.Sublist (s.ready r)).mpr
    ⟨hsub, fun _ _ => .refl _⟩
  refine ⟨?_, fun r => (hsubs r).length_le.trans (hs.short r),
    fun r u hu => hs.ready r u ((hsubs r).subset hu),
    fun r u hu => hs.filed r u ((hsubs r).subset hu), fun r => (hs.order r).sublist (hsubs r),
    fun r u hu => hs.past r u ((hsubs r).subset hu)⟩
  have hsum := sum_update length s.ready p (front ++ back)
  have hone : (1 : UInt64).toNat = 1 := rfl
  have hlen := hs.len
  rw [hq, length_append, length_append, length_cons] at hsum
  simp only [LocalScheduler.without, toNat_satSub, hone]
  omega

theorem tasks_without {front back : List Task} (hq : s.ready p = front ++ t :: back) :
    s.tasks = (s.without p (front ++ back)).tasks + {t.ident} := by
  have hsum := sum_update idents s.ready p (front ++ back)
  have hsplit : idents (s.ready p) = idents (front ++ back) + {t.ident} := by
    rw [hq, idents_append, idents_append, idents_cons, add_assoc, add_comm (idents back)]
  rw [hsplit, ← add_assoc, add_right_comm] at hsum
  simp only [tasks, LocalScheduler.without]
  rw [← add_right_cancel hsum, add_assoc]

theorem takeFrom_eq (pop : List Task → UInt64 → Option Task × List Task × UInt64)
    (Side : List Task → List Task → Prop) (hnil : ∀ len, pop [] len = (none, [], len))
    (hpop : ∀ q len, q ≠ [] → (∀ t ∈ q, t.runnable) → ∃ front t back, Side front back ∧
      q = front ++ t :: back ∧ pop q len = (some t, front ++ back, satSub len 1))
    (hs : s.Queues) (ps : List Priority) :
    (takeFrom pop ps s = (none, s) ∧ ∀ p ∈ ps, s.ready p = []) ∨
    ∃ before p after front t back, ps = before ++ p :: after ∧ (∀ r ∈ before, s.ready r = []) ∧
      Side front back ∧ s.ready p = front ++ t :: back ∧
      takeFrom pop ps s = (some t, s.without p (front ++ back)) := by
  induction ps with
  | nil => exact .inl ⟨rfl, nofun⟩
  | cons p ps ih =>
    by_cases hp : s.ready p = []
    · -- nothing there: the loop goes on with the same scheduler
      have hskip : takeFrom pop (p :: ps) s = takeFrom pop ps s := by
        rw [takeFrom, hp, hnil]
        simp [← hp]
      rw [hskip]
      rcases ih with ⟨htake, hempty⟩ | ⟨before, r, after, front, t, back, rfl, hempty, hrest⟩
      · exact .inl ⟨htake, forall_mem_cons.mpr ⟨hp, hempty⟩⟩
      · exact .inr ⟨p :: before, r, after, front, t, back, rfl,
          forall_mem_cons.mpr ⟨hp, hempty⟩, hrest⟩
    · obtain ⟨front, t, back, hside, hq, heq⟩ := hpop (s.ready p) s.readyLen hp
        fun t ht => runnable_of_ready (hs.ready p t ht)
      refine .inr ⟨[], p, ps, front, t, back, rfl, nofun, hside, hq, ?_⟩
      rw [takeFrom, heq]
      rfl

theorem popFront_cons (ht : t.runnable) : popFront (t :: q) len = (some t, q, satSub len 1) := by
  simp [popFront, ht]

theorem popBack_eq (hq : q ≠ []) (hall : ∀ t ∈ q, t.runnable) :
    ∃ front t back, back = [] ∧ q = front ++ t :: back ∧
      popBack q len = (some t, front ++ back, satSub len 1) := by
  obtain ⟨q', t, rfl⟩ := (eq_nil_or_concat' q).resolve_left hq
  refine ⟨q', t, [], rfl, rfl, ?_⟩
  rw [popBack, reverse_append, reverse_singleton, singleton_append,
    popFront_cons (hall t (by simp))]
  simp

theorem Queues.pickNext_eq (hs : s.Queues) :
    (s.pickNext = (none, s) ∧ ∀ p, s.ready p = []) ∨
    ∃ p t q, (∀ r, p < r → s.ready r = []) ∧ s.ready p = t :: q ∧
      s.pickNext = (some t, s.without p q) := by
  have hsorted : (finRange 256).reverse.Pairwise (· > ·) := by
    rw [pairwise_reverse]
    exact pairwise_lt_finRange 256
  rcases takeFrom_eq popFront (fun front _ => front = []) (fun len => rfl)
    (fun q len hq hall => by
      obtain ⟨t, q, rfl⟩ := exists_cons_of_ne_nil hq
      exact ⟨[], t, q, rfl, rfl, popFront_cons (hall t mem_cons_self)⟩)
    hs (finRange 256).reverse with ⟨htake, hempty⟩ |
      ⟨before, p, after, front, t, back, hsplit, hempty, rfl, hq, htake⟩
  · exact .inl ⟨htake, fun p => hempty p (by simp)⟩
  refine .inr ⟨p, t, back, fun r hr => ?_, hq, htake⟩
  have hmem : r ∈ (finRange 256).reverse := by simp
  rw [hsplit] at hmem hsorted
  rcases mem_append.mp hmem with hmem | hmem
  · exact hempty r hmem
  have hle := (pairwise_append.mp hsorted).2.1
  rcases mem_cons.mp hmem with rfl | hmem
  · exact absurd hr (lt_irrefl _)
  · exact absurd hr (not_lt_of_gt ((pairwise_cons.mp hle).1 r hmem))

theorem Queues.stealOne_eq (hs : s.Queues) :
    (s.stealOne = (none, s) ∧ ∀ p, p ≠ 0 → s.ready p = []) ∨
    ∃ p t q, p ≠ 0 ∧ (∀ r, r ≠ 0 → r < p → s.ready r = []) ∧ s.ready p = q ++ [t] ∧
      s.stealOne = (some t, s.without p q) := by
  have hsorted : (finRange 256).tail.Pairwise (· < ·) := (pairwise_lt_finRange 256).tail
  have hzero : finRange 256 = 0 :: (finRange 256).tail := by
    rw [finRange_succ, tail_cons]
  have hmem : ∀ p : Priority, p ∈ (finRange 256).tail ↔ p ≠ 0 := by
    intro p
    have hall := mem_finRange p
    have hlt := pairwise_lt_finRange 256
    rw [hzero] at hall hlt
    constructor
    · rintro hp rfl
      exact absurd ((pairwise_cons.mp hlt).1 0 hp) (lt_irrefl _)
    · exact (mem_cons.mp hall).resolve_left
  rcases takeFrom_eq popBack (fun _ back => back = []) (fun len => rfl)
    (fun q len => popBack_eq) hs (finRange 256).tail with ⟨htake, hempty⟩ |
      ⟨before, p, after, front, t, back, hsplit, hempty, rfl, hq, htake⟩
  · exact .inl ⟨htake, fun p hp => hempty p ((hmem p).mpr hp)⟩
  refine .inr ⟨p, t, front, (hmem p).mp (by simp [hsplit]), fun r hr hlt => ?_, hq, ?_⟩
  · have hr := (hmem r).mpr hr
    rw [hsplit] at hr hsorted
    rcases mem_append.mp hr with hr | hr
    · exact hempty r hr
    have hle := (pairwise_append.mp hsorted).2.1
    rcases mem_cons.mp hr with rfl | hr
    · exact absurd hlt (lt_irrefl _)
    · exact absurd hlt (not_lt_of_gt ((pairwise_cons.mp hle).1 r hr))
  · rwa [append_nil] at htake

/-! ## What holds of the scheduler -/

def HasIdle (s : LocalScheduler) (own : TaskId) : Prop :=
  ∃ t, t.ident = (own, .idle, idlePriority) ∧ t.runnable ∧
    (s.current = some t ∨ t ∈ s.ready idlePriority)

structure Sound (s : LocalScheduler) (own : TaskId) : Prop where
  queues : s.Queues
  known : ∀ t, s.current = some t → t.state ≠ .new
  idle : s.HasIdle own

variable {own : TaskId}

structure InOrder (s : LocalScheduler) (own : TaskId) : Prop where
  len : s.readyLen.toNat = ∑ p, (s.ready p).length
  idle : s.HasIdle own
  oldest : ∀ t, s.pickNext.1 = some t → t.runnable ∧ t ∈ s.ready t.priority ∧
    (∀ p, t.priority < p → s.ready p = []) ∧ ∀ u ∈ s.ready t.priority, t.since ≤ u.since
  none_ready : s.pickNext.1 = none → ∀ p, s.ready p = []
  newest : ∀ t, s.stealOne.1 = some t → t.runnable ∧ t ∈ s.ready t.priority ∧ t.priority ≠ 0 ∧
    (∀ p, p ≠ 0 → p < t.priority → s.ready p = []) ∧ ∀ u ∈ s.ready t.priority, u.since ≤ t.since
  none_stealable : s.stealOne.1 = none → ∀ p, p ≠ 0 → s.ready p = []

theorem Sound.inOrder (h : s.Sound own) : s.InOrder own := by
  have hs := h.queues
  refine ⟨hs.len, h.idle, fun t ht => ?_, fun hnone => ?_, fun t ht => ?_, fun hnone => ?_⟩
  · rcases hs.pickNext_eq with ⟨hpick, -⟩ | ⟨p, t', q, hhigh, hq, hpick⟩
    · rw [hpick] at ht
      cases ht
    rw [hpick] at ht
    cases ht
    have hmem : t ∈ s.ready p := hq ▸ mem_cons_self
    have hp := hs.filed p t hmem
    subst hp
    refine ⟨runnable_of_ready (hs.ready _ t hmem), hmem, hhigh, fun u hu => ?_⟩
    have horder := hs.order t.priority
    rw [hq] at hu horder
    rcases mem_cons.mp hu with rfl | hu
    · exact le_rfl
    · exact ((pairwise_cons.mp horder).1 u hu).le
  · rcases hs.pickNext_eq with ⟨-, hempty⟩ | ⟨p, t', q, -, -, hpick⟩
    · exact hempty
    · rw [hpick] at hnone
      cases hnone
  · rcases hs.stealOne_eq with ⟨hsteal, -⟩ | ⟨p, t', q, hne, hlow, hq, hsteal⟩
    · rw [hsteal] at ht
      cases ht
    rw [hsteal] at ht
    cases ht
    have hmem : t ∈ s.ready p := by
      rw [hq]
      exact mem_append_right _ (mem_singleton_self t)
    have hp := hs.filed p t hmem
    subst hp
    refine ⟨runnable_of_ready (hs.ready _ t hmem), hmem, hne, hlow, fun u hu => ?_⟩
    have horder := hs.order t.priority
    rw [hq] at hu horder
    rcases mem_append.mp hu with hu | hu
    · exact ((pairwise_append.mp horder).2.2 u hu t (mem_singleton_self t)).le
    · rw [mem_singleton.mp hu]
  · rcases hs.stealOne_eq with ⟨-, hempty⟩ | ⟨p, t', q, -, -, -, hsteal⟩
    · exact hempty
    · rw [hsteal] at hnone
      cases hnone

theorem tasks_new {cpuId : ℕ} (ht : t.ident = (own, .idle, idlePriority)) :
    (new cpuId t).tasks = {(own, .idle, idlePriority)} := by
  have hsum := sum_update idents (fun _ : Priority => []) idlePriority [{ t with since := 0 }]
  have hident : Task.ident { t with since := 0 } = t.ident := rfl
  simp only [idents_nil, Finset.sum_const_zero, add_zero, zero_add, idents_cons, hident, ht] at hsum
  simp [tasks, new, hsum]

theorem sound_new {cpuId : ℕ} (ht : t.ident = (own, .idle, idlePriority))
    (hready : t.state = .ready) : (new cpuId t).Sound own := by
  have hmem : ∀ p, ∀ u ∈ (new cpuId t).ready p, p = idlePriority ∧ u = { t with since := 0 } := by
    intro p u hu
    simp only [new] at hu
    by_cases hp : p = idlePriority
    · subst hp
      rw [update_self, mem_singleton] at hu
      exact ⟨rfl, hu⟩
    · rw [update_of_ne hp] at hu
      cases hu
  have hlength : ∀ p, ((new cpuId t).ready p).length ≤ 1 := by
    intro p
    simp only [new]
    by_cases hp : p = idlePriority
    · simp [hp]
    · simp [update_of_ne hp]
  refine ⟨⟨?_, fun p => (hlength p).trans (by decide), fun p u hu => ?_, fun p u hu => ?_,
    fun p => ?_, fun p u hu => ?_⟩, nofun, ?_⟩
  · have hsum := sum_update length (fun _ : Priority => []) idlePriority [{ t with since := 0 }]
    simp only [length_nil, Finset.sum_const_zero, add_zero, zero_add, length_singleton] at hsum
    exact hsum.symm
  · rw [(hmem p u hu).2]
    exact hready
  · obtain ⟨rfl, rfl⟩ := hmem p u hu
    exact Task.priority_of_ident ht
  · match h : (new cpuId t).ready p, hlength p with
    | [], _ => exact .nil
    | [u], _ => exact pairwise_singleton _ u
  · rw [(hmem p u hu).2]
    exact Nat.one_pos
  · refine ⟨{ t with since := 0 }, ht, runnable_of_ready hready, .inr ?_⟩
    simp [new]

section

variable (h : s.Sound own)
include h

theorem Sound.push (ht : t.state = .ready) (hpush : s.push t = some s') : s'.Sound own := by
  refine ⟨h.queues.push ht hpush, ?_, ?_⟩
  · rw [current_push hpush]
    exact h.known
  · obtain ⟨u, hu, hrun, hplace⟩ := h.idle
    rw [HasIdle, current_push hpush]
    exact ⟨u, hu, hrun, hplace.imp_right (subset_push hpush)⟩

theorem Sound.spawn (hspawn : s.spawn t = some s') :
    s'.Sound own ∧ s'.current = s.current ∧ s'.tasks = s.tasks + t.entering := by
  rw [LocalScheduler.spawn] at hspawn
  split at hspawn
  · rename_i hended
    cases hspawn
    exact ⟨h, rfl, by rw [Task.entering, if_pos hended, add_zero]⟩
  · rename_i hlive
    refine ⟨h.push rfl hspawn, current_push hspawn, ?_⟩
    rw [tasks_push hspawn, Task.ident_lane, Task.entering, if_neg hlive]

omit h in
theorem Queues.adopt (hs : s.Queues) (hnone : s.current = none)
    (hident : u.ident = (own, .idle, idlePriority)) (hu : u ∈ s.ready idlePriority)
    (quantum : ℕ) (switches : UInt64) :
    ∃ t s', s.pickNext = (some t, s') ∧
      Sound { s' with current := some t, quantum, switches } own ∧
      tasks { s' with current := some t, quantum, switches } = s.tasks := by
  rcases hs.pickNext_eq with ⟨-, hempty⟩ | ⟨p, t, q, -, hq, hpick⟩
  · rw [hempty] at hu
    cases hu
  have ht : t.state = .ready := hs.ready p t (by rw [hq]; exact mem_cons_self)
  have hrest := hs.without (show s.ready p = [] ++ t :: q from hq)
  have hsplit := tasks_without (show s.ready p = [] ++ t :: q from hq)
  refine ⟨t, _, hpick, ⟨⟨hrest.len, hrest.short, hrest.ready, hrest.filed, hrest.order,
    hrest.past⟩, ?_, ?_⟩, ?_⟩
  · rintro t' ht'
    cases ht'
    rw [ht]
    decide
  · -- the idle task is the one that was taken, or still in its queue
    by_cases hut : u = t
    · exact ⟨u, hident, runnable_of_ready (hs.ready _ u hu), .inl (hut ▸ rfl)⟩
    refine ⟨u, hident, runnable_of_ready (hs.ready _ u hu), .inr ?_⟩
    by_cases hp : idlePriority = p
    · subst hp
      rw [hq] at hu
      simp only [LocalScheduler.without, update_self]
      exact (mem_cons.mp hu).resolve_left hut
    · simpa only [LocalScheduler.without, update_of_ne hp] using hu
  · rw [hsplit]
    simp only [tasks, LocalScheduler.without, hnone, filter_none, toList_none,
      idents_nil, nil_append, zero_add, filter_some_pos (runnable_of_ready ht),
      toList_some, idents_cons, add_zero]
    exact add_comm _ _

theorem Sound.enqueueCurrent (henq : s.enqueueCurrent = some s') :
    s'.Queues ∧ s'.current = none ∧ s'.tasks = s.tasks ∧
      ∃ u, u.ident = (own, .idle, idlePriority) ∧ u ∈ s'.ready idlePriority := by
  obtain ⟨u, hident, hrun, hplace⟩ := h.idle
  have hq := h.queues
  rw [LocalScheduler.enqueueCurrent] at henq
  split at henq
  · rename_i hnone
    cases henq
    exact ⟨hq, hnone, rfl, u, hident, hplace.resolve_left (by simp [hnone])⟩
  rename_i t ht
  have hout : Queues { s with current := none } :=
    ⟨hq.len, hq.short, hq.ready, hq.filed, hq.order, hq.past⟩
  dsimp only at henq
  split at henq
  · rename_i hrunt
    have hback : Task.ident { t with state := .ready } = t.ident := rfl
    refine ⟨hout.push rfl henq, current_push henq, ?_, ?_⟩
    · rw [tasks_push henq, hback]
      simp only [tasks, ht, filter_none, toList_none, idents_nil, zero_add,
        filter_some_pos hrunt, toList_some, idents_cons, add_zero]
      exact add_comm _ _
    rcases hplace with hcur | hmem
    · -- the idle task was running
      rw [ht, Option.some.injEq] at hcur
      subst hcur
      refine ⟨{ t with state := .ready, since := s.pushed }, hident, ?_⟩
      rw [(push_eq_some henq).2, ← Task.priority_of_ident hident]
      simp
    · exact ⟨u, hident, subset_push henq hmem⟩
  · rename_i hstuck
    cases henq
    refine ⟨hout, rfl, ?_, u, hident, ?_⟩
    · simp [tasks, ht, filter_some_neg (Bool.eq_false_of_not_eq_true hstuck)]
    refine hplace.resolve_left ?_
    rintro hcur
    rw [ht, Option.some.injEq] at hcur
    exact hstuck (hcur ▸ hrun)

theorem Sound.tick {sw : Bool} (htick : s.tick = some (sw, s')) :
    s'.Sound own ∧ s'.current.isSome ∧ s'.tasks = s.tasks := by
  rw [LocalScheduler.tick] at htick
  split at htick
  · rename_i hnone
    obtain ⟨u, hident, -, hplace⟩ := h.idle
    obtain ⟨t, s₁, hpick, hsound, htasks⟩ := h.queues.adopt hnone hident
      (hplace.resolve_left (by simp [hnone])) defaultQuantum s.pickNext.2.switches
    rw [hpick] at htick hsound htasks
    cases htick
    exact ⟨hsound, rfl, htasks⟩
  · rename_i t ht
    have hused : Sound { s with quantum := s.quantum - 1 } own :=
      ⟨⟨h.queues.len, h.queues.short, h.queues.ready, h.queues.filed, h.queues.order,
        h.queues.past⟩, h.known, h.idle⟩
    dsimp only at htick
    split at htick
    · obtain ⟨s₁, henq, heq⟩ := map_eq_some_iff.mp htick
      obtain ⟨hqueues, hnone, htasks, u, hident, hu⟩ := hused.enqueueCurrent henq
      obtain ⟨t', s₂, hpick, hsound, htasks'⟩ := hqueues.adopt hnone hident hu defaultQuantum
        (satAdd s₁.pickNext.2.switches 1)
      rw [hpick] at heq hsound htasks'
      cases heq
      exact ⟨hsound, rfl, htasks'.trans htasks⟩
    · cases htick
      exact ⟨hused, by simp [ht], rfl⟩

theorem Sound.stealOne {r : Option Task} (hsteal : s.stealOne = (r, s')) :
    s'.Sound own ∧ s'.current = s.current ∧ s.tasks = s'.tasks + idents r.toList ∧
      ∀ t, r = some t → t.state = .ready := by
  have hs := h.queues
  rcases hs.stealOne_eq with ⟨hnone, -⟩ | ⟨p, t, q, hp, -, hq, htake⟩
  · cases hnone.symm.trans hsteal
    exact ⟨h, rfl, (add_zero _).symm, nofun⟩
  cases htake.symm.trans hsteal
  have hrest := hs.without hq
  have hsplit := tasks_without hq
  rw [append_nil] at hrest hsplit
  refine ⟨⟨hrest, h.known, ?_⟩, rfl, ?_, ?_⟩
  · -- queue 0 is not touched
    obtain ⟨u, hident, hrun, hplace⟩ := h.idle
    refine ⟨u, hident, hrun, hplace.imp_right fun hu => ?_⟩
    simpa only [LocalScheduler.without, update_of_ne hp.symm, idlePriority] using hu
  · rw [hsplit, toList_some, idents_cons, idents_nil, add_zero]
  · rintro t' ht'
    cases ht'
    exact hs.ready p t (by rw [hq]; exact mem_append_right _ (mem_singleton_self t))

end

def turn (s : LocalScheduler) (state : TaskState) : LocalScheduler :=
  { s with current := s.current.map fun t => { t with state } }

theorem Sound.turn {state : TaskState} (h : s.Sound own) (ht : s.current = some t)
    (hdomain : t.domain ≠ .idle) (hstate : state = .blocked ∨ state = .dead) :
    (s.turn state).Sound own ∧ (s.turn state).current.isSome ∧
      s.tasks = (s.turn state).tasks + idents (s.current.filter Task.runnable).toList := by
  have hs := h.queues
  have hcurrent : (s.turn state).current = some { t with state } := by
    rw [LocalScheduler.turn, ht, map_some]
  have hstuck : Task.runnable { t with state } = false := by
    rcases hstate with rfl | rfl <;> rfl
  refine ⟨⟨⟨hs.len, hs.short, hs.ready, hs.filed, hs.order, hs.past⟩, ?_, ?_⟩, ?_, ?_⟩
  · intro t' ht'
    rw [hcurrent] at ht'
    cases ht'
    rcases hstate with rfl | rfl <;> nofun
  · obtain ⟨u, hident, hrun, hplace⟩ := h.idle
    refine ⟨u, hident, hrun, .inr (hplace.resolve_left fun hu => ?_)⟩
    cases ht.symm.trans hu
    exact hdomain (congrArg (·.2.1) hident)
  · rw [hcurrent]
    rfl
  · rw [tasks, tasks, hcurrent, filter_some_neg hstuck, toList_none, idents_nil, zero_add, add_comm]
    rfl

end LocalScheduler

end IonaOs.Smp
