import IonaOs.Process.Wait

/-!
# Futexes
-/

namespace IonaOs.Process

open Lib Function List

inductive FutexError where
  | again
  | timedOut
  | invalidArgument
  | badAddress
deriving DecidableEq

def maxWakeCount : ℕ := 1024

/-! ## The queues -/

abbrev FutexQueues := UInt64 → List TaskId

variable (queues : FutexQueues)

def futexWake (addr : UInt64) (n : ℕ) : List TaskId × FutexQueues :=
  let queue := queues addr
  let count := if n = 0 then queue.length else min n maxWakeCount
  (queue.take count, update queues addr (queue.drop count))

def futexRequeue (addr newAddr : UInt64) (wakeN requeueN : ℕ) :
    Except FutexError (List TaskId × List TaskId × FutexQueues) :=
  if addr = newAddr then .error .invalidArgument
  else
    let queue := queues addr
    let woken := queue.take wakeN
    let queue := queue.drop wakeN
    let moved := queue.take requeueN
    let queue := queue.drop requeueN
    .ok (woken, moved,
      update (update queues addr queue) newAddr (queues newAddr ++ moved))

/-- The second section of `futex_wait`: the queue is left as it is. -/
def futexWaitResult (tid : TaskId) (addr : UInt64) :
    Except FutexError Unit :=
  if tid ∈ queues addr then .error .timedOut else .ok ()

structure Apart {ι α : Type*} (queues : ι → List α) : Prop where
  nodup : ∀ i, (queues i).Nodup
  single : ∀ x i j, x ∈ queues i → x ∈ queues j → i = j

namespace Apart

variable {ι α : Type*} {queues queues' : ι → List α}

theorem of_sublist (h : Apart queues) (hsub : ∀ i, (queues' i).Sublist (queues i)) :
    Apart queues' :=
  ⟨fun i => (h.nodup i).sublist (hsub i),
    fun x i j hi hj => h.single x i j ((hsub i).subset hi) ((hsub j).subset hj)⟩

variable [DecidableEq ι]

theorem join (h : Apart queues) {xs : List α} (hxs : xs.Nodup) (hnew : ∀ x ∈ xs, ∀ i, x ∉ queues i)
    (i : ι) : Apart (update queues i (queues i ++ xs)) := by
  constructor
  · intro j
    by_cases hj : j = i
    · rw [hj, update_self, nodup_append']
      exact ⟨h.nodup i, hxs, fun x hx hx' => hnew x hx' i hx⟩
    · rw [update_of_ne hj]
      exact h.nodup j
  have hmem : ∀ x j, x ∈ update queues i (queues i ++ xs) j →
      x ∈ queues j ∨ j = i ∧ x ∈ xs := by
    intro x j hx
    by_cases hj : j = i
    · rw [hj, update_self, mem_append] at hx
      exact hx.imp (hj ▸ ·) fun hx => ⟨hj, hx⟩
    · rw [update_of_ne hj] at hx
      exact .inl hx
  intro x j k hj hk
  rcases hmem x j hj with hj | ⟨hj, hx⟩
  · rcases hmem x k hk with hk | ⟨-, hx⟩
    · exact h.single x j k hj hk
    · exact absurd hj (hnew x hx j)
  · rcases hmem x k hk with hk | ⟨hk, -⟩
    · exact absurd hk (hnew x hx k)
    · rw [hj, hk]

theorem notMem_of_append (h : Apart queues) {i : ι} {front back : List α}
    (hsplit : queues i = front ++ back) {x : α} (hx : x ∈ front) (j : ι) :
    x ∉ update queues i back j := by
  intro hj
  by_cases hji : j = i
  · rw [hji, update_self] at hj
    exact disjoint_of_nodup_append (hsplit ▸ h.nodup i) hx hj
  · rw [update_of_ne hji] at hj
    exact hji (h.single x j i hj (hsplit ▸ mem_append_left back hx))

theorem drop_front (h : Apart queues) {i : ι} {front back : List α}
    (hsplit : queues i = front ++ back) : Apart (update queues i back) := by
  apply h.of_sublist
  intro j
  by_cases hji : j = i
  · rw [hji, update_self, hsplit]
    exact sublist_append_right front back
  · rw [update_of_ne hji]

end Apart

theorem futexWake_spec (queues : FutexQueues) (addr : UInt64) (n : ℕ) :
    ∃ woken rest, queues addr = woken ++ rest ∧
      futexWake queues addr n = (woken, update queues addr rest) :=
  ⟨_, _, (take_append_drop _ _).symm, rfl⟩

theorem futexRequeue_spec {queues : FutexQueues} {addr newAddr : UInt64} {wakeN requeueN : ℕ}
    {result : List TaskId × List TaskId × FutexQueues}
    (h : futexRequeue queues addr newAddr wakeN requeueN = .ok result) :
    ∃ woken moved rest, addr ≠ newAddr ∧ queues addr = woken ++ (moved ++ rest) ∧
      result = (woken, moved,
        update (update queues addr rest) newAddr (queues newAddr ++ moved)) := by
  simp only [futexRequeue] at h
  split at h
  · cases h
  rename_i hne
  cases h
  refine ⟨_, _, _, hne, ?_, rfl⟩
  rw [take_append_drop, take_append_drop]

/-! ## The system -/

inductive FutexPhase where
  | outside
  | entering (addr : UInt64) (timeout : Option ℕ)
  | queued (addr : UInt64) (deadline : Option ℕ)
  | asleep (addr : UInt64) (deadline : Option ℕ)
deriving DecidableEq

structure FutexSystem where
  queues : FutexQueues
  tasks : TaskId → FutexPhase
  sched : Sched
  selected : TaskId → Bool
  joined : UInt64 → List TaskId
  taken : UInt64 → List TaskId
  log : List (TaskId × Except FutexError Unit)

inductive FutexEvent where
  | wait (tid : TaskId) (addr : UInt64) (actual expected : UInt32) (timeout : Option ℕ)
  | enqueue (tid : TaskId)
  | block (tid : TaskId)
  | resume (tid : TaskId)
  | wake (addr : UInt64) (n : ℕ)
  | requeue (addr newAddr : UInt64) (wakeN requeueN : ℕ)
  | tick (now : ℕ)

namespace FutexSystem

def start : FutexSystem :=
  ⟨fun _ => [], fun _ => .outside, .start, fun _ => false, fun _ => [], fun _ => [], []⟩

variable (s : FutexSystem)

def wakeAll (woken : List TaskId) : FutexSystem :=
  { s with
    sched := exec Sched.wakeTask s.sched woken
    selected := fun tid => s.selected tid || woken.contains tid }

def step : FutexEvent → FutexSystem
  | .wait tid addr actual expected timeout =>
    match s.tasks tid with
    | .outside =>
      if addr = 0 then { s with log := s.log ++ [(tid, .error .badAddress)] }
      else if actual ≠ expected then { s with log := s.log ++ [(tid, .error .again)] }
      else
        { s with
          queues := update s.queues addr (s.queues addr ++ [tid])
          tasks := update s.tasks tid (.entering addr timeout)
          selected := update s.selected tid false
          joined := update s.joined addr (s.joined addr ++ [tid]) }
    | _ => s
  | .enqueue tid =>
    match s.tasks tid with
    | .entering addr timeout =>
      let deadline := timeout.map fun ms => (s.sched.now + ms) % 2 ^ 64
      { s with
        tasks := update s.tasks tid (.queued addr deadline)
        sched := s.sched.enqueue tid (deadline.elim .any .timer) }
    | _ => s
  | .block tid =>
    match s.tasks tid with
    | .queued addr deadline =>
      { s with
        tasks := update s.tasks tid (.asleep addr deadline)
        sched := s.sched.blockTask tid }
    | _ => s
  | .resume tid =>
    match s.tasks tid with
    | .asleep addr _ =>
      { s with
        tasks := update s.tasks tid .outside
        log := s.log ++ [(tid, futexWaitResult s.queues tid addr)] }
    | _ => s
  | .wake addr n =>
    let (woken, queues) := futexWake s.queues addr n
    { s with
      queues := queues
      taken := update s.taken addr (s.taken addr ++ woken) }.wakeAll woken
  | .requeue addr newAddr wakeN requeueN =>
    match futexRequeue s.queues addr newAddr wakeN requeueN with
    | .error _ => s
    | .ok (woken, moved, queues) =>
      { s with
        queues := queues
        joined := update s.joined newAddr (s.joined newAddr ++ moved)
        taken := update s.taken addr (s.taken addr ++ woken ++ moved) }.wakeAll woken
  | .tick now => { s with sched := s.sched.tick now }

/-! ## The discipline -/

/-- A task is in one queue at most, once, and only while it is inside `futex_wait`; and tasks are
taken from a queue in the order in which they joined it. -/
structure Queued : Prop where
  apart : Apart s.queues
  inside : ∀ tid addr, tid ∈ s.queues addr → s.tasks tid ≠ .outside
  fifo : ∀ addr, s.taken addr ++ s.queues addr = s.joined addr

def Selects : FutexEvent → Prop
  | .wake addr n =>
    (futexWake s.queues addr n).1 <+: s.queues addr ∧
      ∀ tid ∈ (futexWake s.queues addr n).1, s.tasks tid ≠ .outside
  | .requeue addr newAddr wakeN requeueN =>
    ∀ woken moved queues,
      futexRequeue s.queues addr newAddr wakeN requeueN = .ok (woken, moved, queues) →
        woken ++ moved <+: s.queues addr ∧ queues newAddr = s.queues newAddr ++ moved ∧
          ∀ tid ∈ woken ++ moved, s.tasks tid ≠ .outside
  | .resume tid =>
    ∀ addr deadline, s.tasks tid = .asleep addr deadline →
      futexWaitResult s.queues tid addr = .error .timedOut →
        ∃ d, deadline = some d ∧ d ≤ s.sched.now ∧ s.selected tid = false
  | _ => True

/-- A task that returns from `futex_wait` is in no queue. -/
def Leaves : FutexEvent → Prop
  | .resume tid => ∀ addr deadline, s.tasks tid = .asleep addr deadline → ∀ a, tid ∉ s.queues a
  | _ => True

variable {s} {tid : TaskId} {addr newAddr : UInt64} {n wakeN requeueN : ℕ}

theorem queued_start : start.Queued :=
  ⟨⟨fun _ => nodup_nil, fun _ _ _ h => absurd h not_mem_nil⟩,
    fun _ _ h => absurd h not_mem_nil, fun _ => rfl⟩

section

variable (h : s.Queued)
include h

theorem Queued.inside_update {phase : FutexPhase} (hphase : phase ≠ .outside) {u : TaskId}
    (hu : u ∈ s.queues addr) : update s.tasks tid phase u ≠ .outside := by
  by_cases hut : u = tid
  · rw [hut, update_self]
    exact hphase
  · rw [update_of_ne hut]
    exact h.inside u addr hu

theorem Queued.wait (htid : s.tasks tid = .outside) (timeout : Option ℕ) : Queued { s with
      queues := update s.queues addr (s.queues addr ++ [tid])
      tasks := update s.tasks tid (.entering addr timeout)
      selected := update s.selected tid false
      joined := update s.joined addr (s.joined addr ++ [tid]) } := by
  refine ⟨h.apart.join (nodup_singleton tid) ?_ addr, ?_, ?_⟩
  · intro u hu a
    rw [mem_singleton.mp hu]
    exact fun hmem => h.inside tid a hmem htid
  · intro u a hu
    by_cases hut : u = tid
    · simp [hut]
    have hua : u ∈ s.queues a := by
      by_cases ha : a = addr
      · subst ha
        simpa [hut] using hu
      · simpa [update_of_ne ha] using hu
    simpa [update_of_ne hut] using h.inside u a hua
  · intro a
    by_cases ha : a = addr
    · subst ha
      simp [← h.fifo a]
    · simpa [update_of_ne ha] using h.fifo a

theorem Queued.wake (addr : UInt64) (n : ℕ) : (s.step (.wake addr n)).Queued := by
  obtain ⟨woken, rest, hsplit, hwake⟩ := futexWake_spec s.queues addr n
  simp only [step, hwake]
  refine ⟨h.apart.drop_front hsplit, ?_, ?_⟩
  · intro u a hu
    by_cases ha : a = addr
    · subst ha
      refine h.inside u a ?_
      rw [hsplit]
      simp_all [wakeAll]
    · exact h.inside u a (by simpa [wakeAll, update_of_ne ha] using hu)
  · intro a
    by_cases ha : a = addr
    · subst ha
      simp [wakeAll, ← h.fifo a, hsplit]
    · simpa [wakeAll, update_of_ne ha] using h.fifo a

theorem Queued.requeue : (s.step (.requeue addr newAddr wakeN requeueN)).Queued := by
  simp only [step]
  split
  · exact h
  rename_i woken moved queues hrequeue
  obtain ⟨_, _, rest, hne, hsplit, hresult⟩ := futexRequeue_spec hrequeue
  cases hresult
  have hsplit' : s.queues addr = (woken ++ moved) ++ rest := by
    rw [hsplit, append_assoc]
  have hnodup : (woken ++ moved).Nodup := (nodup_append'.mp (hsplit' ▸ h.apart.nodup addr)).1
  have hother : update s.queues addr rest newAddr = s.queues newAddr := update_of_ne hne.symm _ _
  refine ⟨?_, ?_, ?_⟩
  · have := (h.apart.drop_front hsplit').join (nodup_append'.mp hnodup).2.1
      (fun x hx => h.apart.notMem_of_append hsplit' (mem_append_right woken hx)) newAddr
    rwa [hother] at this
  · intro u a hu
    simp only [wakeAll] at hu ⊢
    by_cases ha : a = newAddr
    · rw [ha, update_self, mem_append] at hu
      rcases hu with hu | hu
      · exact h.inside u newAddr hu
      · exact h.inside u addr (by simp [hsplit, hu])
    · rw [update_of_ne ha] at hu
      by_cases ha' : a = addr
      · rw [ha', update_self] at hu
        exact h.inside u addr (by simp [hsplit, hu])
      · rw [update_of_ne ha'] at hu
        exact h.inside u a hu
  · intro a
    simp only [wakeAll]
    by_cases ha : a = newAddr
    · subst ha
      simp [update_of_ne hne.symm, ← h.fifo a]
    by_cases ha' : a = addr
    · subst ha'
      simp [update_of_ne ha, ← h.fifo a, hsplit]
    · simpa [update_of_ne ha, update_of_ne ha'] using h.fifo a

theorem Queued.resume_iff : (s.step (.resume tid)).Queued ↔ s.Leaves (.resume tid) := by
  simp only [step, Leaves]
  split
  · rename_i addr deadline htid
    constructor
    · intro hafter _ _ _ a hmem
      exact hafter.inside tid a hmem (update_self ..)
    intro hleaves
    refine ⟨h.apart, ?_, h.fifo⟩
    intro u a hu
    have hut : u ≠ tid := by
      rintro rfl
      exact hleaves addr deadline htid a hu
    simpa [update_of_ne hut] using h.inside u a hu
  · rename_i hphase
    exact iff_of_true h fun addr deadline htid => absurd htid (hphase addr deadline)

theorem queued_step_iff (ev : FutexEvent) : (s.step ev).Queued ↔ s.Leaves ev := by
  cases ev with
  | wait tid addr actual expected timeout =>
    refine iff_of_true ?_ trivial
    simp only [step]
    split
    · rename_i htid
      split_ifs
      · exact ⟨h.apart, h.inside, h.fifo⟩
      · exact ⟨h.apart, h.inside, h.fifo⟩
      · exact h.wait htid timeout
    · exact h
  | enqueue | block =>
    refine iff_of_true ?_ trivial
    simp only [step]
    split
    · exact ⟨h.apart, fun _ _ => h.inside_update FutexPhase.noConfusion, h.fifo⟩
    · exact h
  | resume => exact h.resume_iff
  | wake addr n => exact iff_of_true (h.wake addr n) trivial
  | requeue => exact iff_of_true h.requeue trivial
  | tick => exact iff_of_true ⟨h.apart, h.inside, h.fifo⟩ trivial

theorem Queued.selects {ev : FutexEvent} (hleaves : s.Leaves ev) : s.Selects ev := by
  cases ev with
  | wake addr n =>
    obtain ⟨woken, rest, hsplit, hwake⟩ := futexWake_spec s.queues addr n
    simp only [Selects, hwake, hsplit]
    exact ⟨prefix_append woken rest,
      fun u hu => h.inside u addr (hsplit ▸ mem_append_left rest hu)⟩
  | requeue addr =>
    intro woken moved queues hrequeue
    obtain ⟨_, _, rest, -, hsplit, hresult⟩ := futexRequeue_spec hrequeue
    cases hresult
    rw [← append_assoc] at hsplit
    refine ⟨hsplit ▸ prefix_append _ rest, update_self .., ?_⟩
    intro u hu
    exact h.inside u addr (hsplit ▸ mem_append_left rest hu)
  | resume =>
    intro addr deadline htid hresult
    have hnot := hleaves addr deadline htid addr
    rw [futexWaitResult, if_neg hnot] at hresult
    cases hresult
  | wait | enqueue | block | tick => trivial

end

def Disciplined (s : FutexSystem) (evs : List FutexEvent) : Prop :=
  (∀ past rest, evs = past ++ rest → (exec step s past).Queued) ∧ Along step Selects s evs

/-- **The discipline of the queues.**  In every interleaving it holds exactly if every task that
returns from `futex_wait` is in no queue any more, that is, if a wake has taken it out. -/
theorem disciplined_iff (evs : List FutexEvent) :
    start.Disciplined evs ↔ Along step Leaves start evs := by
  have hstates : Along step (fun s ev => (s.step ev).Queued) start evs ↔
      Along step Leaves start evs :=
    along_congr (fun _ _ _ hafter => hafter) (fun _ ev h => queued_step_iff h ev) queued_start
  rw [Disciplined, forall_split_iff_along, hstates]
  constructor
  · rintro ⟨⟨-, hleaves⟩, -⟩
    exact hleaves
  · intro hleaves
    refine ⟨⟨queued_start, hleaves⟩, hleaves.imp queued_start ?_ ?_⟩
    · exact fun s ev h hev => (queued_step_iff h ev).mpr hev
    · exact fun s ev h hev => h.selects hev

def spuriousTimeout : List FutexEvent :=
  [.wait 7 0x1000 0 0 none, .enqueue 7, .block 7, .tick 1, .resume 7]

/-- A waiter without a timeout is woken by the tick, returns an error and stays in the queue, where
it takes the next wake. -/
theorem wait_times_out_untimed :
    (exec step start (spuriousTimeout.take 4)).sched.blocked 7 = false ∧
      (exec step start spuriousTimeout).log = [(7, .error .timedOut)] ∧
      (exec step start spuriousTimeout).tasks 7 = .outside ∧
      (futexWake (exec step start spuriousTimeout).queues 0x1000 1).1 = [7] ∧
      ¬ start.Disciplined spuriousTimeout := by
  refine ⟨by decide, by decide, by decide, by decide, ?_⟩
  rintro ⟨hqueued, -⟩
  exact (hqueued spuriousTimeout [] rfl).inside 7 0x1000 (by decide) (by decide)

end FutexSystem

end IonaOs.Process
