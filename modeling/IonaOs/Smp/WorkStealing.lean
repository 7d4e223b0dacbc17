import IonaOs.Smp.LocalScheduler

/-!
# Work stealing between CPUs
-/

namespace IonaOs.Smp

open Lib Function Option LocalScheduler
open Process (TaskId)
open Sched (TaskState)

def maxCpus : ℕ := 64

/-- How `schedule_local` goes on after it has looked for a task to steal. -/
structure Resume where
  cpu : Fin maxCpus
  needsSwitch : Bool
  runningIdle : Bool

inductive Reply where
  | spawned
  | switch (needed : Bool)
  | stolen (t : Option Task)

inductive Call where
  | done (r : Reply)
  | choosing (t : Task) (n c : ℕ) (minLoad : UInt64) (target : Option ℕ)
  | placing (t : Task) (target : ℕ)
  | ticking (cpu : Fin maxCpus)
  | stealing (thief n offset : ℕ) (resume : Option Resume)
  | holding (t : Task) (resume : Resume)

structure Machine (m : ℕ) where
  scheds : Fin maxCpus → Option LocalScheduler
  calls : Fin m → Call
  fallback : List Task
  live : Multiset Ident
  ticked : Fin maxCpus → Bool

/-- The steps.  `count` is what `CPU_COUNT` is when the step reads it. -/
inductive SmpStep (m : ℕ) where
  | spawnOn (k : Fin m) (cpu : UInt32) (t : Task) (count : ℕ)
  | respawn (k : Fin m) (cpu : UInt32) (count : ℕ)
  | trySteal (k : Fin m) (thief : UInt32) (count : ℕ)
  | scheduleLocal (k : Fin m) (cpu : UInt32)
  | run (k : Fin m) (count : ℕ)
  | turn (cpu : Fin maxCpus) (dead : Bool)

def cpuCount (count : ℕ) : ℕ := min count maxCpus

/-- `idx_for_cpu`. -/
def idxForCpu (cpu : ℕ) : Option (Fin maxCpus) :=
  if h : cpu < maxCpus then some ⟨cpu, h⟩ else none

/-- The victim of that offset: `thief_cpu.wrapping_add(offset) % n`. -/
def victimOf (thief offset n : ℕ) : ℕ := (thief + offset) % 2 ^ 32 % n

/-- The start of `try_steal`. -/
def beginSteal (thief count : ℕ) (resume : Option Resume) : Call :=
  if cpuCount count ≤ 1 then
    match resume with
    | none => .done (.stolen none)
    | some r => .done (.switch r.needsSwitch)
  else .stealing thief (cpuCount count) 1 resume

/-- The start of `spawn_on`. -/
def beginSpawn (cpu : UInt32) (t : Task) (count : ℕ) : Call :=
  if cpu.toNat = 2 ^ 32 - 1 then
    .choosing t (cpuCount count) 0 (UInt64.ofNat (2 ^ 64 - 1)) none
  else .placing t cpu.toNat

def Call.held : Call → Multiset Ident
  | .done (.stolen (some t)) => {t.ident}
  | .choosing t _ _ _ _ => t.entering
  | .placing t _ => t.entering
  | .holding t _ => {t.ident}
  | _ => 0

namespace Machine

variable {m : ℕ}

/-- The schedulers of the CPUs `up` have just been initialised; `idleTid` are the numbers of their
idle tasks. -/
def start (m : ℕ) (idleTid : Fin maxCpus → TaskId) (up : Fin maxCpus → Bool) : Machine m where
  scheds c :=
    if up c then some (.new c ⟨idleTid c, .idle, idlePriority, .ready, 0⟩) else none
  calls _ := .done .spawned
  fallback := []
  live := ∑ c, if up c then {(idleTid c, .idle, idlePriority)} else 0
  ticked _ := false

variable (w : Machine m) (k : Fin m)

def setCall (c : Call) : Machine m :=
  { w with calls := update w.calls k c }

def setSched (c : Fin maxCpus) (s : LocalScheduler) : Machine m :=
  { w with scheds := update w.scheds c (some s) }

/-- `GLOBAL_SCHEDULER.lock().spawn(task)`. -/
def fallBack (t : Task) : Machine m :=
  { w with fallback := w.fallback ++ [t] }.setCall k (.done .spawned)

def schedOf (cpu : ℕ) : Option (Fin maxCpus × LocalScheduler) :=
  (idxForCpu cpu).bind fun c => (w.scheds c).map (c, ·)

/-- One turn of the loop of `pick_least_loaded`. -/
def choose (t : Task) (n c : ℕ) (minLoad : UInt64)
    (target : Option ℕ) : Machine m :=
  if c < n then
    match w.schedOf c with
    | none => w.setCall k (.choosing t n (c + 1) minLoad target)
    | some (_, s) =>
      if s.readyCount < minLoad then w.setCall k (.choosing t n (c + 1) s.readyCount (some c))
      else w.setCall k (.choosing t n (c + 1) minLoad target)
  else
    match target with
    | none => w.fallBack k t
    | some c => w.setCall k (.placing t c)

/-- The last section of `spawn_on`. -/
def place (t : Task) (target : ℕ) : Machine m :=
  match w.schedOf target with
  | none => w.fallBack k t
  | some (c, s) =>
    match s.spawn t with
    | none => w
    | some s => (w.setSched c s).setCall k (.done .spawned)

/-- The first section of `schedule_local`. -/
def tick (cpu : Fin maxCpus) (count : ℕ) : Machine m :=
  match w.scheds cpu with
  | none => w.setCall k (.done (.switch false))
  | some s =>
    match s.tick with
    | none => w
    | some (needsSwitch, s) =>
      let w := { w with ticked := update w.ticked cpu true }.setSched cpu s
      if s.readyCount = 0 then
        w.setCall k (beginSteal cpu count (some ⟨cpu, needsSwitch, s.isRunningIdle⟩))
      else w.setCall k (.done (.switch needsSwitch))

/-- One turn of the loop of `try_steal`. -/
def steal (thief n offset : ℕ) (resume : Option Resume) : Machine m :=
  if offset < n then
    match w.schedOf (victimOf thief offset n) with
    | none => w.setCall k (.stealing thief n (offset + 1) resume)
    | some (c, s) =>
      match s.stealOne with
      | (none, s) => (w.setSched c s).setCall k (.stealing thief n (offset + 1) resume)
      | (some t, s) =>
        (w.setSched c s).setCall k
          (match resume with
          | none => .done (.stolen (some t))
          | some r => .holding t r)
  else
    w.setCall k
      (match resume with
      | none => .done (.stolen none)
      | some r => .done (.switch r.needsSwitch))

/-- The last section of `schedule_local`. -/
def keep (t : Task) (r : Resume) : Machine m :=
  let reply := .done (.switch (r.runningIdle || r.needsSwitch))
  match w.scheds r.cpu with
  | none => w.setCall k reply
  | some s =>
    match s.spawn t with
    | none => w
    | some s => (w.setSched r.cpu s).setCall k reply

def run (count : ℕ) : Machine m :=
  match w.calls k with
  | .done _ => w
  | .choosing t n c minLoad target => w.choose k t n c minLoad target
  | .placing t target => w.place k t target
  | .ticking cpu => w.tick k cpu count
  | .stealing thief n offset resume => w.steal k thief n offset resume
  | .holding t r => w.keep k t r

def turn (cpu : Fin maxCpus) (state : TaskState) : Machine m :=
  match w.scheds cpu with
  | none => w
  | some s =>
    match s.current with
    | none => w
    | some t =>
      if t.domain = .idle then w
      else
        { w with live := w.live - idents (s.current.filter Task.runnable).toList }.setSched cpu
          (s.turn state)

def free : Bool :=
  match w.calls k with
  | .done (.stolen (some _)) => false
  | .done _ => true
  | _ => false

def step : SmpStep m → Machine m
  | .spawnOn k cpu t count =>
    if w.free k then
      { w with live := w.live + t.entering }.setCall k (beginSpawn cpu t count)
    else w
  | .respawn k cpu count =>
    match w.calls k with
    | .done (.stolen (some t)) => w.setCall k (beginSpawn cpu t count)
    | _ => w
  | .trySteal k thief count =>
    if w.free k then w.setCall k (beginSteal thief.toNat count none) else w
  | .scheduleLocal k cpu =>
    if w.free k then
      w.setCall k
        (match idxForCpu cpu.toNat with
        | none => .done (.switch false)
        | some c => .ticking c)
    else w
  | .run k count => w.run k count
  | .turn cpu dead => w.turn cpu (if dead then .dead else .blocked)

/-! ## What every step keeps -/

def tasksOf (s : Option LocalScheduler) : Multiset Ident := s.elim 0 LocalScheduler.tasks

def tasks (w : Machine m) : Multiset Ident := ∑ c, tasksOf (w.scheds c) + ∑ k, (w.calls k).held

variable {w w' : Machine m} {k : Fin m} {c : Fin maxCpus} {s s' : LocalScheduler} {d : Call}
  {idleTid : Fin maxCpus → TaskId} {up : Fin maxCpus → Bool} {x n : ℕ}

theorem tasks_setCall : (w.setCall k d).tasks + (w.calls k).held = w.tasks + d.held := by
  have hsum := sum_update Call.held w.calls k d
  simp only [tasks, setCall]
  rw [add_assoc, hsum, add_assoc]

theorem tasks_setSched (hs : w.scheds c = some s) (s' : LocalScheduler) :
    (w.setSched c s').tasks + s.tasks = w.tasks + s'.tasks := by
  have hsum := sum_update tasksOf w.scheds c (some s')
  rw [hs] at hsum
  simp only [tasks, setSched]
  rw [add_right_comm, show ∑ j, tasksOf (update w.scheds c (some s') j) + s.tasks =
    ∑ j, tasksOf (w.scheds j) + s'.tasks from hsum, add_right_comm]

def UpAt (up : Fin maxCpus → Bool) (x : ℕ) : Prop := ∃ c, idxForCpu x = some c ∧ up c = true
deriving Decidable

def CallOk (up : Fin maxCpus → Bool) : Call → Prop
  | .done (.stolen (some t)) => t.state = .ready
  | .choosing _ n c minLoad target =>
    (∃ x < n, UpAt up x) ∧ (∀ x, target = some x → UpAt up x) ∧
      (target = none → minLoad.toNat = 2 ^ 64 - 1 ∧ ∀ x < c, ¬ UpAt up x)
  | .placing _ target => UpAt up target
  | .stealing _ _ _ (some r) => up r.cpu = true
  | .holding t r => t.state = .ready ∧ up r.cpu = true
  | _ => True

structure Kept (idleTid : Fin maxCpus → TaskId) (up : Fin maxCpus → Bool) (w : Machine m) :
    Prop where
  ups : ∀ c, (w.scheds c).isSome = up c
  sound : ∀ c s, w.scheds c = some s → s.Sound (idleTid c)
  running : ∀ c s, w.scheds c = some s → w.ticked c = true → s.current.isSome
  conserved : w.tasks = w.live
  fallback : w.fallback = []
  calls : ∀ k, CallOk up (w.calls k)

theorem Kept.up_of_sched (h : w.Kept idleTid up) (hs : w.scheds c = some s) : up c = true := by
  rw [← h.ups, hs]
  rfl

theorem schedOf_eq_some (h : w.schedOf x = some (c, s)) :
    idxForCpu x = some c ∧ w.scheds c = some s := by
  obtain ⟨c', hc', hmap⟩ := bind_eq_some_iff.mp h
  obtain ⟨s', hs', heq⟩ := map_eq_some_iff.mp hmap
  cases heq
  exact ⟨hc', hs'⟩

section

variable (h : w.Kept idleTid up)
include h

theorem Kept.schedOf_isSome (hup : UpAt up x) : ∃ c s, w.schedOf x = some (c, s) := by
  obtain ⟨c, hc, hupc⟩ := hup
  rw [← h.ups] at hupc
  obtain ⟨s, hs⟩ := isSome_iff_exists.mp hupc
  exact ⟨c, s, by rw [schedOf, hc, bind_some, hs, map_some]⟩

theorem callOk_update (hcall : CallOk up d) (k' : Fin m) : CallOk up (update w.calls k d k') := by
  by_cases hk : k' = k
  · subst hk
    rwa [update_self]
  · rw [update_of_ne hk]
    exact h.calls k'

theorem Kept.setCall (hcall : CallOk up d)
    (hheld : d.held = (w.calls k).held) : (w.setCall k d).Kept idleTid up := by
  refine ⟨h.ups, h.sound, h.running, ?_, h.fallback, callOk_update h hcall⟩
  have hsum := tasks_setCall (w := w) (k := k) (d := d)
  rw [hheld] at hsum
  rw [add_right_cancel hsum]
  exact h.conserved

theorem sound_update (hsound : s'.Sound (idleTid c)) (c' : Fin maxCpus) (u : LocalScheduler)
    (hu : update w.scheds c (some s') c' = some u) : u.Sound (idleTid c') := by
  by_cases hc : c' = c
  · subst hc
    rw [update_self, Option.some.injEq] at hu
    exact hu ▸ hsound
  · rw [update_of_ne hc] at hu
    exact h.sound c' u hu

section

variable (hs : w.scheds c = some s)
include hs

theorem ups_update (c' : Fin maxCpus) : (update w.scheds c (some s') c').isSome = up c' := by
  by_cases hc : c' = c
  · subst hc
    rw [update_self, h.up_of_sched hs]
    rfl
  · rw [update_of_ne hc]
    exact h.ups c'

theorem running_update (hrun : s.current.isSome → s'.current.isSome) (c' : Fin maxCpus)
    (u : LocalScheduler) (hu : update w.scheds c (some s') c' = some u) (ht : w.ticked c' = true) :
    u.current.isSome := by
  by_cases hc : c' = c
  · subst hc
    rw [update_self, Option.some.injEq] at hu
    exact hu ▸ hrun (h.running c' s hs ht)
  · rw [update_of_ne hc] at hu
    exact h.running c' u hu ht

theorem Kept.exchange (hsound : s'.Sound (idleTid c)) (hrun : s.current.isSome → s'.current.isSome)
    (hd : CallOk up d) (hcount : s'.tasks + d.held = s.tasks + (w.calls k).held) :
    ((w.setSched c s').setCall k d).Kept idleTid up := by
  refine ⟨ups_update h hs, sound_update h hsound, running_update h hs hrun, ?_, h.fallback,
    callOk_update (w := w) h hd⟩
  have hsched := tasks_setSched hs s'
  have hcall := tasks_setCall (w := w.setSched c s') (k := k) (d := d)
  refine (add_right_cancel (b := s.tasks + (w.calls k).held) ?_).trans h.conserved
  calc ((w.setSched c s').setCall k d).tasks + (s.tasks + (w.calls k).held)
      = ((w.setSched c s').setCall k d).tasks + (w.calls k).held + s.tasks := by
        rw [add_assoc, add_comm s.tasks]
    _ = (w.setSched c s').tasks + s.tasks + d.held := by
        rw [show ((w.setSched c s').setCall k d).tasks + (w.calls k).held = _ from hcall,
          add_right_comm]
    _ = w.tasks + (s'.tasks + d.held) := by rw [hsched, add_assoc]
    _ = w.tasks + (s.tasks + (w.calls k).held) := by rw [hcount]

end

theorem Kept.tickedAt
    (hrun : ∀ s, w.scheds c = some s → s.current.isSome) :
    Kept idleTid up { w with ticked := update w.ticked c true } := by
  refine ⟨h.ups, h.sound, fun c' s hs ht => ?_, h.conserved, h.fallback, h.calls⟩
  by_cases hc : c' = c
  · subst hc
    exact hrun s hs
  · dsimp only at ht
    rw [update_of_ne hc] at ht
    exact h.running c' s hs ht

end

/-! ## The sections of the calls -/

variable {resume : Option Resume} {count : ℕ}

theorem callOk_beginSteal {thief : ℕ} (h : ∀ r, resume = some r → up r.cpu = true) :
    CallOk up (beginSteal thief count resume) := by
  simp only [beginSteal]
  split
  · cases resume <;> trivial
  · cases resume with
    | none => trivial
    | some r => exact h r rfl

@[simp] theorem held_beginSteal {thief : ℕ} : (beginSteal thief count resume).held = 0 := by
  simp only [beginSteal]
  split
  · cases resume <;> rfl
  · rfl

variable {t : Task}

@[simp] theorem held_beginSpawn {cpu : UInt32} : (beginSpawn cpu t count).held = t.entering := by
  rw [beginSpawn]
  split <;> rfl

/-- `spawn_on` is called for an initialised CPU, or there is one to choose. -/
def Aimed (up : Fin maxCpus → Bool) (cpu : UInt32) (count : ℕ) : Prop :=
  if cpu.toNat = 2 ^ 32 - 1 then ∃ x < cpuCount count, UpAt up x else UpAt up cpu.toNat

instance {cpu : UInt32} {count : ℕ} : Decidable (Aimed up cpu count) :=
  inferInstanceAs (Decidable
    (if cpu.toNat = 2 ^ 32 - 1 then ∃ x < cpuCount count, UpAt up x else UpAt up cpu.toNat))

theorem callOk_beginSpawn {cpu : UInt32} (h : Aimed up cpu count) :
    CallOk up (beginSpawn cpu t count) := by
  rw [Aimed] at h
  rw [beginSpawn]
  split
  · rename_i hmax
    rw [if_pos hmax] at h
    exact ⟨h, nofun, fun _ => ⟨rfl, nofun⟩⟩
  · rename_i hmax
    rwa [if_neg hmax] at h

section

variable (h : w.Kept idleTid up)
include h

theorem Kept.choose {minLoad : UInt64} {target : Option ℕ}
    (hk : w.calls k = .choosing t n x minLoad target) :
    (w.choose k t n x minLoad target).Kept idleTid up := by
  have hok := h.calls k
  rw [hk] at hok
  obtain ⟨hsome, htarget, hnone⟩ := hok
  simp only [Machine.choose]
  split
  · split
    · rename_i hsched
      refine h.setCall ⟨hsome, htarget, fun ht => ⟨(hnone ht).1, fun y hy => ?_⟩⟩ (by rw [hk]; rfl)
      rcases Nat.lt_succ_iff_lt_or_eq.mp hy with hy | rfl
      · exact (hnone ht).2 y hy
      · intro hup
        obtain ⟨c, s, hs⟩ := h.schedOf_isSome hup
        exact absurd (hsched.symm.trans hs) nofun
    · rename_i c s hsched
      have hupx : UpAt up _ :=
        ⟨c, (schedOf_eq_some hsched).1, h.up_of_sched (schedOf_eq_some hsched).2⟩
      split
      · exact h.setCall ⟨hsome, fun y hy => some.inj hy ▸ hupx, nofun⟩ (by rw [hk]; rfl)
      rename_i hload
      refine h.setCall ⟨hsome, htarget, fun ht => ?_⟩ (by rw [hk]; rfl)
      -- the first initialised CPU is below the load the loop starts with
      have hlen := (h.sound c s (schedOf_eq_some hsched).2).queues.readyLen_lt
      rw [UInt64.lt_iff_toNat_lt, (hnone ht).1, readyCount] at hload
      omega
  · rename_i hdone
    split
    · obtain ⟨y, hy, hupy⟩ := hsome
      exact absurd hupy ((hnone rfl).2 y (by omega))
    · rename_i y
      exact h.setCall (htarget y rfl) (by rw [hk]; rfl)

theorem Kept.place {target : ℕ} (hk : w.calls k = .placing t target) :
    (w.place k t target).Kept idleTid up := by
  have hok := h.calls k
  rw [hk] at hok
  obtain ⟨c, s, hsched⟩ := h.schedOf_isSome hok
  have hs := (schedOf_eq_some hsched).2
  rw [Machine.place, hsched]
  dsimp only
  split
  · exact h
  rename_i s' hspawn
  obtain ⟨hsound, hcurrent, htasks⟩ := (h.sound c s hs).spawn hspawn
  refine h.exchange hs hsound (by rw [hcurrent]; exact id) trivial ?_
  rw [hk, htasks]
  exact add_zero _

theorem Kept.tick {cpu : Fin maxCpus} (hk : w.calls k = .ticking cpu)
    (count : ℕ) : (w.tick k cpu count).Kept idleTid up := by
  rw [Machine.tick]
  split
  · exact h.setCall trivial (by rw [hk]; rfl)
  rename_i s hs
  split
  · exact h
  rename_i sw s' htick
  obtain ⟨hsound, hsome, htasks⟩ := (h.sound cpu s hs).tick htick
  have hnext : ∀ d : Call, d.held = 0 → CallOk up d →
      Kept idleTid up (({ w with ticked := update w.ticked cpu true }.setSched cpu
        s').setCall k d) := by
    intro d hheld hd
    have hex := h.exchange (k := k) hs hsound (fun _ => hsome) hd (by rw [hk, htasks, hheld]; rfl)
    refine hex.tickedAt fun u hu => ?_
    cases (update_self ..).symm.trans hu
    exact hsome
  dsimp only
  split
  · refine hnext _ held_beginSteal (callOk_beginSteal fun r hr => ?_)
    cases hr
    exact h.up_of_sched hs
  · exact hnext _ rfl trivial

theorem Kept.steal {thief offset : ℕ} {resume : Option Resume}
    (hk : w.calls k = .stealing thief n offset resume) :
    (w.steal k thief n offset resume).Kept idleTid up := by
  have hok := h.calls k
  rw [hk] at hok
  have hgo : CallOk up (.stealing thief n (offset + 1) resume) := by
    cases resume with
    | none => trivial
    | some => exact hok
  simp only [Machine.steal]
  split
  · split
    · exact h.setCall hgo (by rw [hk]; rfl)
    rename_i c s hsched
    have hs := (schedOf_eq_some hsched).2
    split
    · rename_i s' hsteal
      obtain ⟨hsound, hcurrent, htasks, -⟩ := (h.sound c s hs).stealOne hsteal
      refine h.exchange hs hsound (by rw [hcurrent]; exact id) hgo ?_
      rw [hk, htasks, toList_none, idents_nil, add_zero]
      rfl
    rename_i t s' hsteal
    obtain ⟨hsound, hcurrent, htasks, hready⟩ := (h.sound c s hs).stealOne hsteal
    rw [toList_some, idents_cons, idents_nil, add_zero] at htasks
    refine h.exchange hs hsound (by rw [hcurrent]; exact id) ?_ ?_
    · cases resume with
      | none => exact hready t rfl
      | some => exact ⟨hready t rfl, hok⟩
    · rw [hk, htasks]
      cases resume <;> exact (add_zero _).symm
  · refine h.setCall ?_ ?_
    · cases resume <;> trivial
    · rw [hk]
      cases resume <;> rfl

theorem Kept.keep {r : Resume} (hk : w.calls k = .holding t r) :
    (w.keep k t r).Kept idleTid up := by
  have hok := h.calls k
  rw [hk] at hok
  obtain ⟨hready, hup⟩ := hok
  rw [← h.ups] at hup
  obtain ⟨s, hs⟩ := isSome_iff_exists.mp hup
  rw [Machine.keep]
  simp only [hs]
  split
  · exact h
  rename_i s' hspawn
  obtain ⟨hsound, hcurrent, htasks⟩ := (h.sound r.cpu s hs).spawn hspawn
  refine h.exchange hs hsound (by rw [hcurrent]; exact id) trivial ?_
  rw [hk, htasks, Task.entering_of_ready hready]
  exact add_zero _

theorem Kept.run (k : Fin m) (count : ℕ) : (w.run k count).Kept idleTid up := by
  rw [Machine.run]
  split
  · exact h
  · exact h.choose ‹_›
  · exact h.place ‹_›
  · exact h.tick ‹_› count
  · exact h.steal ‹_›
  · exact h.keep ‹_›

theorem Kept.turn {state : TaskState} (c : Fin maxCpus)
    (hstate : state = .blocked ∨ state = .dead) : (w.turn c state).Kept idleTid up := by
  rw [Machine.turn]
  split
  · exact h
  rename_i s hs
  split
  · exact h
  rename_i t ht
  split
  · exact h
  rename_i hdomain
  obtain ⟨hsound, hsome, htasks⟩ := (h.sound c s hs).turn ht hdomain hstate
  refine ⟨ups_update (w := w) h hs, sound_update (w := w) h hsound,
    running_update (w := w) h hs fun _ => hsome, ?_, h.fallback, h.calls⟩
  have hsched := tasks_setSched hs (s.turn state)
  rw [htasks, ← add_assoc, add_right_comm] at hsched
  have hlive := add_right_cancel hsched
  rw [h.conserved] at hlive
  exact eq_tsub_of_add_eq hlive

end

def Targets (up : Fin maxCpus → Bool) : SmpStep m → Prop
  | .spawnOn _ cpu _ count => Aimed up cpu count
  | .respawn _ cpu count => Aimed up cpu count
  | _ => True

instance : DecidablePred (Targets (m := m) up)
  | .spawnOn _ cpu _ count | .respawn _ cpu count =>
    inferInstanceAs (Decidable (Aimed up cpu count))
  | .trySteal .. | .scheduleLocal .. | .run .. | .turn .. => inferInstanceAs (Decidable True)

theorem held_of_free (h : w.free k) : (w.calls k).held = 0 := by
  rw [free] at h
  split at h
  · cases h
  · rename_i r hr hk
    rw [hk]
    cases r with
    | stolen t =>
      cases t with
      | none => rfl
      | some t => exact absurd rfl (hr t)
    | _ => rfl
  · cases h

theorem Kept.step (h : w.Kept idleTid up) {x : SmpStep m} (hx : Targets up x) :
    (w.step x).Kept idleTid up := by
  cases x with
  | spawnOn k cpu t count =>
    rw [Machine.step]
    split
    · rename_i hfree
      refine ⟨h.ups, h.sound, h.running, ?_, h.fallback,
        callOk_update (w := w) h (callOk_beginSpawn hx)⟩
      have hsum := tasks_setCall (w := w) (k := k) (d := beginSpawn cpu t count)
      rw [held_of_free hfree, add_zero, held_beginSpawn, h.conserved] at hsum
      exact hsum
    · exact h
  | respawn k =>
    rw [Machine.step]
    split
    · rename_i t hk
      have hready := h.calls k
      rw [hk] at hready
      refine h.setCall (callOk_beginSpawn hx) ?_
      rw [hk, held_beginSpawn, Task.entering_of_ready hready]
      rfl
    · exact h
  | trySteal =>
    rw [Machine.step]
    split
    · rename_i hfree
      exact h.setCall (callOk_beginSteal nofun) (by rw [held_of_free hfree, held_beginSteal])
    · exact h
  | scheduleLocal k cpu =>
    rw [Machine.step]
    split
    · rename_i hfree
      refine h.setCall ?_ ?_
      · cases idxForCpu cpu.toNat <;> trivial
      · rw [held_of_free hfree]
        cases idxForCpu cpu.toNat <;> rfl
    · exact h
  | run k count => exact h.run k count
  | turn cpu dead =>
    refine h.turn cpu ?_
    cases dead
    · exact .inl rfl
    · exact .inr rfl

/-! ## Runs -/

theorem kept_start (idleTid : Fin maxCpus → TaskId) (up : Fin maxCpus → Bool) :
    (start m idleTid up).Kept idleTid up := by
  have hsched : ∀ c s, (start m idleTid up).scheds c = some s →
      s = .new c ⟨idleTid c, .idle, idlePriority, .ready, 0⟩ := by
    intro c s hs
    simp only [start] at hs
    split at hs
    · exact (Option.some.inj hs).symm
    · cases hs
  refine ⟨fun c => ?_, fun c s hs => ?_, fun c s _ ht => absurd ht nofun, ?_, rfl, fun k => trivial⟩
  · simp only [start]
    cases up c <;> rfl
  · rw [hsched c s hs]
    exact sound_new rfl rfl
  have hheld : ∑ k, ((start m idleTid up).calls k).held = 0 := Finset.sum_eq_zero fun k _ => rfl
  rw [tasks, hheld, add_zero, start]
  refine Finset.sum_congr rfl fun c _ => ?_
  dsimp only
  split
  · exact tasks_new (t := ⟨idleTid c, .idle, idlePriority, .ready, 0⟩) rfl
  · rfl

/-- **No runnable task is lost or duplicated.**  In every run that spawns on initialised CPUs, the
live tasks are those in the current slots, the queues and the hands of thieves; each scheduler is in
order; and a CPU that has ticked runs a task. -/
theorem stealing_conserves (m : ℕ) (idleTid : Fin maxCpus → TaskId) (up : Fin maxCpus → Bool)
    (xs : List (SmpStep m)) (hxs : ∀ x ∈ xs, Targets up x) :
    let w := exec step (start m idleTid up) xs
    w.tasks = w.live ∧ w.fallback = [] ∧ ∀ c s, w.scheds c = some s →
      s.InOrder (idleTid c) ∧ (w.ticked c = true → s.current.isSome) := by
  intro w
  have hkept : w.Kept idleTid up :=
    (along_iff_forall_mem.mpr hxs).invariant (kept_start idleTid up)
      fun w x hw hx => hw.step hx
  refine ⟨hkept.conserved, hkept.fallback, fun c s hs => ⟨?_, hkept.running c s hs⟩⟩
  exact (hkept.sound c s hs).inOrder

def firstTwo (c : Fin maxCpus) : Bool := c.val < 2

scoped instance neZero_oneCpu : NeZero 1 := ⟨by decide⟩

def theft : List (SmpStep 1) :=
  [.spawnOn 0 1 ⟨7, .other, 3, .new, 0⟩ 2, .run 0 2, .scheduleLocal 0 0, .run 0 2, .run 0 2]

/-- In the middle of a theft the thief holds the task, and it is live. -/
theorem stealing_conserves_in_flight :
    (exec step (start 1 (fun c => UInt64.ofNat c) firstTwo) theft).tasks =
        (exec step (start 1 (fun c => UInt64.ofNat c) firstTwo) theft).live ∧
      ((exec step (start 1 (fun c => UInt64.ofNat c) firstTwo) theft).calls 0).held =
        {(7, .other, 3)} :=
  ⟨(stealing_conserves 1 (fun c => UInt64.ofNat c) firstTwo theft (by decide +kernel)).1,
    by decide +kernel⟩

end Machine

end IonaOs.Smp
