import IonaOs.Lib.MapSum
import IonaOs.Sched.Scheduler

/-!
# Every live task is in one place
-/

namespace IonaOs.Sched

open Std Lib Process Function Option List

def tally (ts : List Task) (tid : TaskId) : ℕ := ts.countP (·.tid = tid)

section Tally

variable {ts us : List Task} {t u : Task} {tid : TaskId}

@[simp] theorem tally_nil : tally [] tid = 0 := rfl

@[simp] theorem tally_append : tally (ts ++ us) tid = tally ts tid + tally us tid := countP_append

theorem tally_cons : tally (t :: ts) tid = tally ts tid + tally [t] tid := by
  simp [tally, countP_cons]

theorem tally_congr (h : t.tid = u.tid) : tally [t] tid = tally [u] tid := by
  simp [tally, countP_cons, h]

@[simp] theorem tally_self : tally [t] t.tid = 1 := by simp [tally]

theorem tally_of_ne (h : t.tid ≠ tid) : tally [t] tid = 0 := by simp [tally, h]

theorem tally_eq_zero : tally ts tid = 0 ↔ tid ∉ ts.map (·.tid) := by
  simp [tally, countP_eq_zero]

end Tally

namespace Scheduler

variable {s s' s'' : Scheduler} {t u : Task} {tid : TaskId} {order : List Priority}
  {ended ended' : List Task} {cpu : Fin 256}

def places (s : Scheduler) (tid : TaskId) : ℕ :=
  tally s.current.toList tid + holdings (tally · tid) s.ready +
    (s.blocked.contains tid).toNat + holdings (tally ·.toList tid) s.runningOnAp

structure Orderly (s : Scheduler) : Prop where
  filed : ∀ p, ∀ t ∈ s.ready p, t.priority = p
  keyed : ∀ (tid : TaskId) (t : Task), s.blocked[tid]? = some t → t.tid = tid
  once : ∀ tid, s.places tid ≤ 1

/-- From `s` to `s'` the tasks of the list end, and all others stay in the places there are. -/
structure Keeps (s s' : Scheduler) (ended : List Task) : Prop where
  orderly : s'.Orderly
  places : ∀ tid, s'.places tid + tally ended tid = s.places tid

theorem Keeps.of_places_eq (hs : s.Orderly) (hfiled : ∀ p, ∀ t ∈ s'.ready p, t.priority = p)
    (hkeyed : ∀ (tid : TaskId) (t : Task), s'.blocked[tid]? = some t → t.tid = tid)
    (h : ∀ tid, s'.places tid = s.places tid) : Keeps s s' [] :=
  ⟨⟨hfiled, hkeyed, fun tid => (h tid).trans_le (hs.once tid)⟩,
    fun tid => (Nat.add_zero _).trans (h tid)⟩

theorem Keeps.refl (hs : s.Orderly) : Keeps s s [] :=
  .of_places_eq hs hs.filed hs.keyed fun _ => rfl

theorem Keeps.trans (h : Keeps s s' ended) (h' : Keeps s' s'' ended') :
    Keeps s s'' (ended ++ ended') := by
  refine ⟨h'.orderly, fun tid => ?_⟩
  rw [tally_append, ← h.places, ← h'.places]
  omega

/-! ## Taking a task out and putting it in -/

/-- A task has been taken out of its place: the places of `s` are those of `s'` and one for it. -/
structure Takes (s s' : Scheduler) (t : Task) : Prop where
  orderly : s'.Orderly
  places : ∀ tid, s.places tid = s'.places tid + tally [t] tid

theorem Takes.of_places (hs : s.Orderly) (hfiled : ∀ p, ∀ t ∈ s'.ready p, t.priority = p)
    (hkeyed : ∀ (tid : TaskId) (t : Task), s'.blocked[tid]? = some t → t.tid = tid)
    (h : ∀ tid, s.places tid = s'.places tid + tally [t] tid) : Takes s s' t := by
  refine ⟨⟨hfiled, hkeyed, fun tid => ?_⟩, h⟩
  have hone := hs.once tid
  rw [h] at hone
  omega

theorem Takes.gone (h : Takes s s' t) (hs : s.Orderly) : s'.places t.tid = 0 := by
  have hone := hs.once t.tid
  rw [h.places, tally_self] at hone
  omega

theorem Takes.drop (h : Takes s s' t) : Keeps s s' [t] :=
  ⟨h.orderly, fun tid => (h.places tid).symm⟩

theorem Takes.keeps (h : Takes s s' t) (h' : Keeps s' s'' []) : Takes s s'' t := by
  refine ⟨h'.orderly, fun tid => ?_⟩
  rw [h.places, ← h'.places, tally_nil, Nat.add_zero]

section

variable (hs : s.Orderly)
include hs

theorem Orderly.takeCurrent (ht : s.current = some t) (quantum : ℕ) :
    Takes s { s with current := none, quantum } t := by
  refine .of_places hs hs.filed hs.keyed fun tid => ?_
  simp only [places, ht, toList_some, toList_none, tally_nil]
  omega

theorem Orderly.takeAp (ht : s.runningOnAp cpu = some t) :
    Takes s { s with runningOnAp := update s.runningOnAp cpu none } t := by
  refine .of_places hs hs.filed hs.keyed fun tid => ?_
  have hsum := holdings_update (tally ·.toList tid) s.runningOnAp cpu none
  simp only [ht, toList_none, toList_some, tally_nil] at hsum
  simp only [places]
  omega

theorem Orderly.takeBlocked (ht : s.blocked[tid]? = some t) :
    Takes s { s with blocked := s.blocked.erase tid } t := by
  have htid := hs.keyed tid t ht
  refine .of_places hs hs.filed ?_ fun k => ?_
  · intro k u hu
    rw [ExtTreeMap.getElem?_erase] at hu
    split at hu
    · cases hu
    · exact hs.keyed k u hu
  have hcount : (s.blocked.contains k).toNat =
      ((s.blocked.erase tid).contains k).toNat + tally [t] k := by
    by_cases hk : tid = k
    · subst hk
      have hmem : s.blocked.contains tid = true := by
        rw [ExtTreeMap.contains_eq_isSome_getElem?, ht]
        rfl
      have hone : tally [t] tid = 1 := htid ▸ tally_self
      simp [hmem, hone, ExtTreeMap.contains_erase]
    · have hne : (compare tid k != .eq) = true := by simpa using hk
      simp [ExtTreeMap.contains_erase, hne, tally_of_ne (htid ▸ hk)]
  simp only [places]
  omega

theorem Orderly.takeReady {p : Priority} {front back : List Task}
    (ht : s.ready p = front ++ t :: back) :
    Takes s { s with ready := update s.ready p (front ++ back) } t := by
  refine .of_places hs ?_ hs.keyed fun tid => ?_
  · intro q u hu
    dsimp only at hu
    by_cases hq : q = p
    · subst hq
      rw [update_self] at hu
      refine hs.filed q u ?_
      rw [ht]
      grind
    · rw [update_of_ne hq] at hu
      exact hs.filed q u hu
  · have hsum := holdings_update (tally · tid) s.ready p (front ++ back)
    rw [ht, tally_append, tally_append, tally_cons] at hsum
    simp only [places]
    omega

theorem Orderly.popFirst (h : s.popFirst order = some (t, s')) : Takes s s' t := by
  obtain ⟨p, rest, hready, rfl⟩ := popFirst_eq_some h
  exact hs.takeReady (show s.ready p = [] ++ t :: rest from hready)

end

theorem places_pushReady : (s.pushReady u).places tid = s.places tid + tally [u] tid := by
  have hsum := holdings_update (tally · tid) s.ready u.priority (s.ready u.priority ++ [u])
  simp only [tally_append] at hsum
  simp only [places, Scheduler.pushReady]
  omega

theorem Orderly.filed_pushReady (hs : s.Orderly) :
    ∀ p, ∀ t ∈ (s.pushReady u).ready p, t.priority = p := by
  intro p v hv
  simp only [Scheduler.pushReady] at hv
  by_cases hp : p = u.priority
  · subst hp
    rw [update_self, mem_append, mem_singleton] at hv
    rcases hv with hv | rfl
    · exact hs.filed _ v hv
    · rfl
  · rw [update_of_ne hp] at hv
    exact hs.filed p v hv

section

variable (h : Takes s s' t) (hs : s.Orderly) (hu : u.tid = t.tid)
include h hs hu

theorem Takes.pushReady : Keeps s (s'.pushReady u) [] := by
  refine .of_places_eq hs h.orderly.filed_pushReady h.orderly.keyed fun tid => ?_
  rw [places_pushReady, h.places, tally_congr hu]

theorem Takes.putBlocked : Keeps s (s'.putBlocked u) [] := by
  have hnot : s'.blocked.contains u.tid = false := by
    by_contra hmem
    have hgone := h.gone hs
    rw [← hu] at hgone
    simp [Scheduler.places, hmem] at hgone
  refine .of_places_eq hs h.orderly.filed ?_ fun tid => ?_
  · intro k v hv
    simp only [Scheduler.putBlocked, ExtTreeMap.getElem?_insert] at hv
    split at hv
    · cases hv
      exact compare_eq_iff_eq.mp ‹_›
    · exact h.orderly.keyed k v hv
  have hcount : ((s'.blocked.insert u.tid u).contains tid).toNat =
      (s'.blocked.contains tid).toNat + tally [t] tid := by
    rw [← tally_congr hu]
    by_cases htid : u.tid = tid
    · subst htid
      simp [hnot]
    · have hne : (compare u.tid tid == .eq) = false := by simpa using htid
      simp [ExtTreeMap.contains_insert, hne, tally_of_ne htid]
  rw [h.places]
  simp only [Scheduler.places, Scheduler.putBlocked]
  omega

theorem Takes.putCurrent (hempty : s'.current = none) (quantum switches : ℕ) :
    Keeps s { s' with current := some u, quantum, switches } [] := by
  refine .of_places_eq hs h.orderly.filed h.orderly.keyed fun tid => ?_
  rw [h.places, ← tally_congr hu]
  simp only [Scheduler.places, hempty, toList_some, toList_none, tally_nil]
  omega

theorem Takes.putAp (hempty : s'.runningOnAp cpu = none) :
    Keeps s { s' with runningOnAp := update s'.runningOnAp cpu (some u) } [] := by
  refine .of_places_eq hs h.orderly.filed h.orderly.keyed fun tid => ?_
  have hsum := holdings_update (tally ·.toList tid) s'.runningOnAp cpu (some u)
  rw [h.places, ← tally_congr hu]
  simp only [hempty, toList_none, toList_some, tally_nil] at hsum
  simp only [Scheduler.places]
  omega

end

/-! ## The operations -/

theorem Orderly.enqueueCurrent (hs : s.Orderly) : Keeps s s.enqueueCurrent [] := by
  rw [Scheduler.enqueueCurrent]
  split
  · exact .refl hs
  · rename_i t ht
    exact (hs.takeCurrent ht s.quantum).pushReady hs rfl

theorem Orderly.blockCurrentTask (hs : s.Orderly) : Keeps s s.blockCurrentTask [] := by
  rw [Scheduler.blockCurrentTask]
  split
  · exact .refl hs
  · rename_i t ht
    exact (hs.takeCurrent ht 0).putBlocked hs rfl

theorem Orderly.apTaskFinished (hs : s.Orderly) (cpu : Fin 256) :
    Keeps s (s.apTaskFinished cpu).1 (s.apTaskFinished cpu).2 := by
  rw [Scheduler.apTaskFinished]
  split
  · exact .refl hs
  rename_i t ht
  have htake := hs.takeAp ht
  dsimp only
  split
  · exact htake.drop
  · exact htake.putBlocked hs rfl
  · exact htake.pushReady hs rfl

theorem Keeps.audit {r : Scheduler × List Task} (h : Keeps s r.1 r.2) (cpus : List (Fin 256)) :
    Keeps s (exec (fun r cpu => ((r.1.apTaskFinished cpu).1, r.2 ++ (r.1.apTaskFinished cpu).2)) r
      cpus).1 (exec (fun r cpu =>
        ((r.1.apTaskFinished cpu).1, r.2 ++ (r.1.apTaskFinished cpu).2)) r cpus).2 :=
  exec_invariant (I := fun r : Scheduler × List Task => Keeps s r.1 r.2) h
    fun _ cpu hr => hr.trans (hr.orderly.apTaskFinished cpu)

section

variable (hs : s.Orderly)
include hs

theorem Orderly.apAuditLostTasksInner (now : ℕ) :
    Keeps s (s.apAuditLostTasksInner now).1 (s.apAuditLostTasksInner now).2 :=
  Keeps.audit (r := (s, [])) (.refl hs) _

theorem Orderly.setCurrent {current : Option Task}
    (h : current.map (·.tid) = s.current.map (·.tid)) (quantum switches totalTicks : ℕ) :
    Keeps s { s with current, quantum, switches, totalTicks } [] := by
  have htally : ∀ tid, tally current.toList tid = tally s.current.toList tid := by
    intro tid
    cases hc : s.current with
    | none =>
      rw [hc, map_none, map_eq_none_iff] at h
      rw [h]
    | some =>
      rw [hc, map_some] at h
      obtain ⟨t, rfl, ht⟩ := map_eq_some_iff.mp h
      exact tally_congr ht
  refine .of_places_eq hs hs.filed hs.keyed fun tid => ?_
  simp only [places, htally]

theorem Orderly.tickCurrent : Keeps s s.tickCurrent [] := by
  rw [Scheduler.tickCurrent]
  split
  · rename_i hnone
    split
    · exact .refl hs
    · rename_i next s' hpick
      obtain ⟨p, rest, -, rfl⟩ := popFirst_eq_some hpick
      exact (hs.popFirst hpick).putCurrent hs rfl hnone _ _
  rename_i c hc
  have hused : ∀ c', c'.tid = c.tid →
      Keeps s { s with current := some c', quantum := s.quantum - 1 } [] :=
    fun c' hc' => hs.setCurrent (by simp [hc, hc']) _ _ _
  dsimp only
  split
  · rename_i hzero
    -- the current task has used its quantum
    have hticked := hused { c with ticks := c.ticks + defaultQuantum, state := .ready } rfl
    split
    · exact hticked
    rename_i next s' hpick
    have hpop := hticked.orderly.popFirst hpick
    have hcurrent : s'.enqueueCurrent.current = none := by
      obtain ⟨p, rest, -, rfl⟩ := popFirst_eq_some hpick
      rfl
    have htake := hpop.keeps hpop.orderly.enqueueCurrent
    exact hticked.trans (htake.putCurrent (u := { next with state := .running })
      hticked.orderly rfl hcurrent _ _)
  · exact hs.setCurrent (by simp [hc]) _ _ _

theorem Orderly.tick (now : ℕ) : Keeps s (s.tick now).1 (s.tick now).2 := by
  have hcounted : Keeps s { s with totalTicks := s.totalTicks + 1 } [] := hs.setCurrent rfl _ _ _
  rw [Scheduler.tick]
  dsimp only
  split
  · have haudit := hcounted.orderly.apAuditLostTasksInner now
    have := hcounted.trans (haudit.trans haudit.orderly.tickCurrent)
    simpa using this
  · exact hcounted.trans hcounted.orderly.tickCurrent

theorem Orderly.blockTask (tid : TaskId) : Keeps s (s.blockTask tid) [] := by
  rw [Scheduler.blockTask]
  split
  · exact hs.blockCurrentTask
  split
  · exact .refl hs
  · rename_i t s' htake
    obtain ⟨-, p, front, back, hready, rfl⟩ := takeReady_eq_some htake
    exact (hs.takeReady hready).putBlocked hs rfl

theorem Orderly.wakeTask (tid : TaskId) : Keeps s (s.wakeTask tid) [] := by
  rw [Scheduler.wakeTask]
  split
  · exact .refl hs
  · rename_i t ht
    exact (hs.takeBlocked ht).pushReady hs rfl

variable (event : WaitEvent)

theorem Orderly.wakeOnEventTurn (tid : TaskId) :
    Keeps s (wakeOnEventTurn event s tid) [] := by
  rw [Scheduler.wakeOnEventTurn]
  split
  · exact .refl hs
  rename_i t ht
  split
  · exact (hs.takeBlocked ht).pushReady hs rfl
  · exact .refl hs

theorem Orderly.wakeOnEvent : Keeps s (s.wakeOnEvent event) [] :=
  exec_invariant (I := fun s' => Keeps s s' []) (.refl hs)
    fun _ tid hs' => hs'.trans (hs'.orderly.wakeOnEventTurn event tid)

theorem Orderly.waitForEvent : Keeps s (s.waitForEvent event) [] := by
  have hmarked : Keeps s
      { s with current := s.current.map fun t => { t with waitEvent := some event } } [] := by
    refine hs.setCurrent ?_ _ _ _
    rw [Option.map_map]
    rfl
  exact hmarked.trans hmarked.orderly.blockCurrentTask

theorem Orderly.apSetState (cpu : Fin 256) (state : TaskState) :
    Keeps s (s.apSetState cpu state) [] := by
  rw [Scheduler.apSetState]
  cases ht : s.runningOnAp cpu with
  | none =>
    rw [map_none, ← ht, update_eq_self]
    exact .refl hs
  | some t =>
    have hempty : update s.runningOnAp cpu none cpu = none := update_self ..
    have hput := (hs.takeAp ht).putAp (u := { t with state }) hs rfl hempty
    simpa using hput

theorem Orderly.exitCurrent : Keeps s s.exitCurrent.1 s.exitCurrent.2 := by
  simp only [Scheduler.exitCurrent]
  cases ht : s.current with
  | none => exact hs.setCurrent (by simp [ht]) _ _ _
  | some => exact (hs.takeCurrent ht 0).drop

theorem Orderly.oomKillLowest : Keeps s s.oomKillLowest.1 s.oomKillLowest.2 := by
  rw [Scheduler.oomKillLowest]
  split
  · exact .refl hs
  · rename_i t s' hpop
    exact (hs.popFirst hpop).drop

end

def MaySteal (s : Scheduler) (cpu : Fin 256) : Prop :=
  s.runningOnAp cpu = none ∨ s.popFirst downward = none

theorem Orderly.stealTaskForAp (hs : s.Orderly) (now : ℕ) (h : s.MaySteal cpu) :
    Keeps s (s.stealTaskForAp cpu now) [] := by
  rw [Scheduler.stealTaskForAp]
  split
  · exact .refl hs
  rename_i t s' hpop
  have hempty : s.runningOnAp cpu = none := h.resolve_right (by simp [hpop])
  obtain ⟨p, rest, -, rfl⟩ := popFirst_eq_some hpop
  exact (hs.popFirst hpop).putAp hs rfl hempty

theorem Orderly.places_stealTaskForAp (hs : s.Orderly) (now : ℕ) (hu : s.runningOnAp cpu = some u)
    (h : s.popFirst downward ≠ none) : (s.stealTaskForAp cpu now).places u.tid = 0 := by
  rw [Scheduler.stealTaskForAp]
  split
  · contradiction
  rename_i t s' hpop
  have hpopped := hs.popFirst hpop
  have hslot : s'.runningOnAp cpu = some u := by
    obtain ⟨p, rest, -, rfl⟩ := popFirst_eq_some hpop
    exact hu
  have htake := hpopped.orderly.takeAp hslot
  have hgone := htake.gone hpopped.orderly
  have hone := hs.once u.tid
  rw [hpopped.places, htake.places, tally_self, hgone] at hone
  have hother : tally [t] u.tid = 0 := by omega
  have hsum := holdings_update (tally ·.toList u.tid) s'.runningOnAp cpu
    (some { t with state := .running, stolenAtMs := now })
  have hnone := holdings_update (tally ·.toList u.tid) s'.runningOnAp cpu none
  have htally : tally [{ t with state := TaskState.running, stolenAtMs := now }] u.tid = 0 :=
    (tally_congr rfl).trans hother
  simp only [toList_some, toList_none, tally_nil, htally] at hsum hnone
  simp only [places] at hgone ⊢
  omega

end Scheduler

/-! ## Runs -/

structure Live where
  sched : Scheduler
  alive : List TaskId

namespace Live

def start : Live := ⟨.new, [Task.newIdle.tid]⟩

def spawned : SchedEvent → List TaskId
  | .spawn t => [t.tid]
  | _ => []

def step (g : Live) (e : SchedEvent) : Live where
  sched := (g.sched.act e).1
  alive := (g.alive ++ spawned e).filter (· ∉ (g.sched.act e).2.map (·.tid))

structure Conserved (g : Live) : Prop where
  one : ∀ tid ∈ g.alive, g.sched.places tid = 1
  filed : ∀ p, ∀ t ∈ g.sched.ready p, t.tid ∈ g.alive → t.priority = p

def Careful (g : Live) : SchedEvent → Prop
  | .spawn t => t.tid ∉ g.alive
  | .stealTaskForAp cpu _ => g.sched.MaySteal cpu
  | _ => True

structure Exact (g : Live) : Prop where
  orderly : g.sched.Orderly
  places : ∀ tid, g.sched.places tid = if tid ∈ g.alive then 1 else 0

variable {g : Live} {e : SchedEvent} {es : List SchedEvent} {tid : TaskId}

section

variable (h : g.Exact)
include h

theorem Exact.conserved : g.Conserved where
  one tid htid := by rw [h.places, if_pos htid]
  filed p t ht _ := h.orderly.filed p t ht

omit h in
theorem exact_start : start.Exact := by
  have hplaces : ∀ tid, Scheduler.new.places tid = if tid ∈ start.alive then 1 else 0 := by
    intro tid
    have hready := holdings_update (tally · tid) (fun _ : Priority => ([] : List Task))
      Task.newIdle.priority [Task.newIdle]
    have hnone : holdings (tally · tid) (fun _ : Priority => ([] : List Task)) = 0 := by
      simp [holdings]
    have hap : holdings (tally ·.toList tid) (fun _ : Fin 256 => (none : Option Task)) = 0 := by
      simp [holdings]
    have htally : tally [Task.newIdle] tid = if tid ∈ start.alive then 1 else 0 := by
      by_cases htid : Task.newIdle.tid = tid
      · simp [tally, start, htid]
      · simp [tally, start, htid, Ne.symm htid]
    simp only [tally_nil] at hready
    simp only [Scheduler.places, Scheduler.new, toList_none, tally_nil, hap,
      ExtTreeMap.contains_empty, Bool.toNat_false]
    omega
  refine ⟨⟨?_, ?_, fun tid => ?_⟩, hplaces⟩
  · intro p t ht
    simp only [start, Scheduler.new] at ht
    by_cases hp : p = Task.newIdle.priority
    · subst hp
      rw [update_self, mem_singleton] at ht
      rw [ht]
    · rw [update_of_ne hp] at ht
      cases ht
  · intro tid t ht
    simp [start, Scheduler.new] at ht
  · rw [start, hplaces]
    split <;> omega

theorem Exact.keeps {s' : Scheduler} {ended : List Task} (hkeeps : g.sched.Keeps s' ended) :
    Exact ⟨s', g.alive.filter (· ∉ ended.map (·.tid))⟩ := by
  refine ⟨hkeeps.orderly, fun tid => ?_⟩
  have hplaces := hkeeps.places tid
  rw [h.places] at hplaces
  by_cases htid : tid ∈ ended.map (·.tid)
  · have : tally ended tid ≠ 0 := fun h0 => tally_eq_zero.mp h0 htid
    simp only [mem_filter, htid, not_true, decide_false, Bool.false_eq_true, and_false, if_false]
    split at hplaces <;> omega
  · rw [tally_eq_zero.mpr htid, Nat.add_zero] at hplaces
    simp only [mem_filter, htid, not_false_eq_true, decide_true, and_true]
    exact hplaces

theorem Exact.spawn {t : Task} (ht : t.tid ∉ g.alive) :
    Exact ⟨g.sched.spawn t, g.alive ++ [t.tid]⟩ := by
  have hplaces : ∀ tid, (g.sched.spawn t).places tid =
      if tid ∈ g.alive ++ [t.tid] then 1 else 0 := by
    intro tid
    have htally : tally [{ t with state := .ready }] tid = tally [t] tid := tally_congr rfl
    rw [Scheduler.spawn, Scheduler.places_pushReady, h.places, htally]
    by_cases htid : t.tid = tid
    · subst htid
      simp [ht]
    · simp [tally_of_ne htid, Ne.symm htid]
  refine ⟨⟨h.orderly.filed_pushReady, h.orderly.keyed, fun tid => ?_⟩, hplaces⟩
  rw [hplaces]
  split <;> omega

theorem Exact.step_of_keeps (hspawn : spawned e = [])
    (hkeeps : g.sched.Keeps (g.sched.act e).1 (g.sched.act e).2) : (g.step e).Exact := by
  have := h.keeps hkeeps
  rwa [step, hspawn, append_nil]

theorem Exact.step (hcare : g.Careful e) : (g.step e).Exact := by
  have hs := h.orderly
  cases e with
  | spawn =>
    have := h.spawn hcare
    simpa [Live.step, Scheduler.act, spawned] using this
  | tick now => exact h.step_of_keeps rfl (hs.tick now)
  | blockTask tid => exact h.step_of_keeps rfl (hs.blockTask tid)
  | wakeTask tid => exact h.step_of_keeps rfl (hs.wakeTask tid)
  | wakeOnEvent event => exact h.step_of_keeps rfl (hs.wakeOnEvent event)
  | waitForEvent event => exact h.step_of_keeps rfl (hs.waitForEvent event)
  | stealTaskForAp _ now => exact h.step_of_keeps rfl (hs.stealTaskForAp now hcare)
  | apSetState cpu state => exact h.step_of_keeps rfl (hs.apSetState cpu state)
  | apTaskFinished cpu => exact h.step_of_keeps rfl (hs.apTaskFinished cpu)
  | exitCurrent => exact h.step_of_keeps rfl hs.exitCurrent
  | oomKillLowest => exact h.step_of_keeps rfl hs.oomKillLowest

theorem Exact.careful_of_conserved (hstep : (g.step e).Conserved) : g.Careful e := by
  cases e with
  | spawn t =>
    intro halive
    -- the number is in two places now
    have hone := hstep.one t.tid (by simp [Live.step, Scheduler.act, halive])
    have hplaces : (g.sched.spawn t).places t.tid = 2 := by
      rw [Scheduler.spawn, Scheduler.places_pushReady, h.places, if_pos halive]
      exact congrArg (1 + ·) tally_self
    exact absurd (hplaces.symm.trans hone) (by decide)
  | stealTaskForAp _ now =>
    by_contra hmay
    obtain ⟨hslot, hpop⟩ := not_or.mp hmay
    obtain ⟨u, hu⟩ := ne_none_iff_exists'.mp hslot
    have halive : u.tid ∈ g.alive := by
      by_contra hnot
      have hplaces := (h.orderly.takeAp hu).places u.tid
      rw [h.places, if_neg hnot, tally_self] at hplaces
      omega
    have hone := hstep.one u.tid (by simp [Live.step, Scheduler.act, spawned, halive])
    have hzero := h.orderly.places_stealTaskForAp now hu hpop
    exact absurd (hzero.symm.trans hone) (by decide)
  | _ => trivial

end

/-- **The scheduler loses no task** in a run, and duplicates none, exactly if every task is spawned
with a number of its own and every application CPU steals with an empty slot. -/
theorem tasks_conserved_iff (es : List SchedEvent) :
    (∀ past rest, es = past ++ rest → (exec step start past).Conserved) ↔
      Along step Careful start es := by
  rw [forall_split_iff_along, and_iff_right exact_start.conserved]
  refine along_congr (I := Exact) ?_ ?_ exact_start
  · intro g e hg hkept
    exact hg.step (hg.careful_of_conserved hkept)
  · intro g e hg
    exact ⟨hg.careful_of_conserved, fun hcare => (hg.step hcare).conserved⟩

/-- Two tasks are spawned and one CPU steals twice: the first task is in no place any more.  It has
not ended. -/
theorem lost_to_second_steal :
    let g := exec step start [.spawn (.new 1 1), .spawn (.new 2 1), .stealTaskForAp 1 5,
      .stealTaskForAp 1 6]
    1 ∈ g.alive ∧ g.sched.places 1 = 0 ∧
      (∀ p, ∀ t ∈ g.sched.ready p, t.tid ≠ 1) ∧ ¬ g.Conserved := by
  intro g
  have halive : 1 ∈ g.alive := by decide +kernel
  have hnowhere : g.sched.places 1 = 0 := by decide +kernel
  refine ⟨halive, hnowhere, by decide +kernel, fun h => ?_⟩
  exact absurd (hnowhere.symm.trans (h.one 1 halive)) (by decide)

end Live

end IonaOs.Sched
