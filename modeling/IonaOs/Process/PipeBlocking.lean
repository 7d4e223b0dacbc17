import IonaOs.Process.PipeStream

/-!
# Do blocking calls block?
-/

namespace IonaOs.Process

open Lib PipeBuffer Function

/-! ## Waiting tasks -/

inductive Side where
  | reader
  | writer
deriving DecidableEq

theorem Side.ne_reader {P : Side → Prop} (h : P .writer) : ∀ side, side ≠ .reader → P side
  | .reader, hside => absurd rfl hside
  | .writer, _ => h

theorem Side.ne_writer {P : Side → Prop} (h : P .reader) : ∀ side, side ≠ .writer → P side
  | .reader, _ => h
  | .writer, hside => absurd rfl hside

namespace PipeBuffer

def waiters (p : PipeBuffer) : Side → List TaskId
  | .reader => p.readersWaiting
  | .writer => p.writersWaiting

def ready (p : PipeBuffer) : Side → Bool
  | .reader => p.count ≠ 0 || p.writeClosed
  | .writer => p.count ≠ p.capacity || p.readClosed

structure Calm (p : PipeBuffer) : Prop where
  nodup : ∀ side, (p.waiters side).Nodup
  notReady : ∀ side, p.waiters side ≠ [] → p.ready side = false

end PipeBuffer

namespace PipeCall

def side : PipeCall → Option Side
  | write .. => some .writer
  | read .. => some .reader
  | _ => none

/-- A call with `nonblock = false` and `timeout_ms = None`. -/
def isUntimed : PipeCall → Bool
  | write _ _ nonblock timeoutMs | read _ _ nonblock timeoutMs => !nonblock && timeoutMs.isNone
  | _ => false

end PipeCall

namespace PipeSystem

variable (s : PipeSystem)

def Inside (tid : TaskId) (c : PipeCall) : Prop :=
  (∃ cond, s.tasks tid = .entering c cond) ∨ s.tasks tid = .queued c ∨ s.tasks tid = .asleep c

def Listed (tid : TaskId) (c : PipeCall) : Prop :=
  ∃ side p, c.side = some side ∧ s.pipes c.pipe = some p ∧ tid ∈ p.waiters side

def Ready (c : PipeCall) : Prop :=
  ∃ side p, c.side = some side ∧ s.pipes c.pipe = some p ∧ p.ready side = true

def InFlight (tid : TaskId) : Prop :=
  ∃ waker rest, s.tasks waker = .returning rest ∧ tid ∈ rest

/-- No task is between its first section on the pipe and `block_task`. -/
def Quiet (pipe : PipeId) : Prop :=
  ∀ tid c, s.Inside tid c → c.pipe = pipe → s.tasks tid = .asleep c

def Orderly : PipeEvent → Prop
  | .call tid c => s.Quiet c.pipe ∧ ¬ s.InFlight tid
  | .resume tid => s.sched.blocked tid = false ∧
      ∀ c, s.tasks tid = .asleep c → s.Quiet c.pipe ∧ (c.isUntimed = true → s.Ready c)
  | .tick _ => ∀ tid c, s.tasks tid = .asleep c → c.isUntimed = true → s.sched.blocked tid = false
  | _ => True

end PipeSystem

/-! ## The lists in a section -/

/-- What a section of task `tid` does to the lists: a task leaves a list to be woken, or because
it is the task itself; the task itself comes on a list only if it is to wait there. -/
structure Lists (tid : TaskId) (c : PipeCall) (p : PipeBuffer) (o : Outcome × PipeBuffer) :
    Prop where
  calm : p.Calm → o.2.Calm
  kept : ∀ side u, u ∈ p.waiters side → u ∈ o.2.waiters side ∨ u = tid ∧ c.side = some side ∨
    ∃ result woken, o.1 = .done result woken ∧ u ∈ woken
  fresh : ∀ side u, u ∈ o.2.waiters side →
    u ∈ p.waiters side ∨ u = tid ∧ c.side = some side ∧ o.1 = .wait
  woken : ∀ result woken, o.1 = .done result woken → ∀ u ∈ woken,
    ∃ side, u ∈ p.waiters side ∧ u ∉ o.2.waiters side
  listed : o.1 = .wait → ∃ side, c.side = some side ∧ tid ∈ o.2.waiters side

variable {p' : PipeBuffer}

namespace PipeBuffer

variable {p : PipeBuffer} {tid : TaskId} {c : PipeCall}

theorem lists_done {result : PipeResult} : Lists tid c p (.done result [], p) :=
  ⟨id, fun _ _ h => .inl h, fun _ _ h => .inl h, by simp, by simp⟩

theorem lists_drain {result : PipeResult} (drained : Side) (hdrained : p'.waiters drained = [])
    (hother : ∀ side, side ≠ drained → p'.waiters side = p.waiters side)
    (hready : p.Calm → ∀ side, side ≠ drained → p.waiters side ≠ [] → p'.ready side = false) :
    Lists tid c p (.done result (p.waiters drained), p') := by
  refine ⟨fun hcalm => ⟨fun side => ?_, fun side hne => ?_⟩, fun side u hu => ?_,
    fun side u hu => ?_, ?_, by simp⟩
  · by_cases hside : side = drained
    · rw [hside, hdrained]
      exact List.nodup_nil
    · rw [hother side hside]
      exact hcalm.nodup side
  · by_cases hside : side = drained
    · exact absurd (hside ▸ hdrained) hne
    · rw [hother side hside] at hne
      exact hready hcalm side hside hne
  · by_cases hside : side = drained
    · exact .inr (.inr ⟨_, _, rfl, hside ▸ hu⟩)
    · left
      rw [hother side hside]
      exact hu
  · by_cases hside : side = drained
    · subst hside
      rw [hdrained] at hu
      cases hu
    · rw [hother side hside] at hu
      exact .inl hu
  · intro _ woken hdone u hu
    simp only [Outcome.done.injEq] at hdone
    rw [← hdone.2] at hu
    exact ⟨drained, hu, by rw [hdrained]; simp⟩

theorem lists_wait (side : Side) (hside : c.side = some side)
    (hlist : p'.waiters side =
      if tid ∈ p.waiters side then p.waiters side else p.waiters side ++ [tid])
    (hother : ∀ side', side' ≠ side → p'.waiters side' = p.waiters side')
    (hready : p'.ready side = false) (hsame : ∀ side', p'.ready side' = p.ready side') :
    Lists tid c p (.wait, p') := by
  have hmem : ∀ u, u ∈ p'.waiters side ↔ u ∈ p.waiters side ∨ u = tid := by
    intro u
    rw [hlist]
    split
    case isTrue h => exact ⟨.inl, fun hu => hu.elim id fun hu => hu ▸ h⟩
    case isFalse => simp
  refine ⟨fun hcalm => ⟨fun side' => ?_, fun side' hne => ?_⟩, fun side' u hu => ?_,
    fun side' u hu => ?_, by simp, fun _ => ⟨side, hside, (hmem tid).mpr (.inr rfl)⟩⟩
  · by_cases h : side' = side
    · rw [h, hlist]
      split
      case isTrue => exact hcalm.nodup side
      case isFalse htid =>
        exact List.nodup_append'.mpr ⟨hcalm.nodup side, List.nodup_singleton _,
          List.disjoint_singleton.mpr htid⟩
    · rw [hother side' h]
      exact hcalm.nodup side'
  · by_cases h : side' = side
    · rw [h]
      exact hready
    · rw [hother side' h] at hne
      rw [hsame side']
      exact hcalm.notReady side' hne
  · by_cases h : side' = side
    · subst h
      exact .inl ((hmem u).mpr (.inl hu))
    · left
      rw [hother side' h]
      exact hu
  · by_cases h : side' = side
    · subst h
      exact ((hmem u).mp hu).imp_right fun hu => ⟨hu, hside, rfl⟩
    · rw [hother side' h] at hu
      exact .inl hu

theorem lists_finishWrite (hp : p.Valid) (hspace : p.isFull = false) (data : List UInt8) :
    Lists tid c p (p.finishWrite data) := by
  obtain ⟨buf, tail, p', rfl, hwrite, -, -⟩ := hp.writeBytes data
  rw [finishWrite, hwrite]
  refine lists_drain .reader rfl (Side.ne_reader rfl) fun hcalm => Side.ne_reader fun hne => ?_
  -- no writer waits for space that is there
  have := hcalm.notReady .writer hne
  simp [isFull] at hspace
  simp [ready, hspace] at this

theorem lists_finishRead (hp : p.Valid) (hdata : p.isEmpty = false) (len : ℕ) :
    Lists tid c p (p.finishRead len) := by
  obtain ⟨head, bytes, p', rfl, hread, -, -, -⟩ := hp.readBytes len
  rw [finishRead, hread]
  refine lists_drain .writer rfl (Side.ne_writer rfl) fun hcalm => Side.ne_writer fun hne => ?_
  have := hcalm.notReady .reader hne
  simp [isEmpty] at hdata
  simp [ready, hdata] at this

@[simp] theorem finishWrite_ne (p : PipeBuffer) (data : List UInt8) :
    (p.finishWrite data).1 ≠ .wait ∧
      ∀ woken, (p.finishWrite data).1 ≠ .done (.error .wouldBlock) woken := by
  rw [finishWrite]
  split <;> simp

@[simp] theorem finishRead_ne (p : PipeBuffer) (len : ℕ) : (p.finishRead len).1 ≠ .wait ∧
    ∀ woken, (p.finishRead len).1 ≠ .done (.error .wouldBlock) woken := by
  rw [finishRead]
  split <;> simp

theorem addWriter_eq (p : PipeBuffer) (tid : TaskId) : p.addWriter tid = { p with
    writersWaiting :=
      if tid ∈ p.writersWaiting then p.writersWaiting else p.writersWaiting ++ [tid] } := by
  rw [addWriter]
  split_ifs <;> rfl

theorem addReader_eq (p : PipeBuffer) (tid : TaskId) : p.addReader tid = { p with
    readersWaiting :=
      if tid ∈ p.readersWaiting then p.readersWaiting else p.readersWaiting ++ [tid] } := by
  rw [addReader]
  split_ifs <;> rfl

theorem lists_writeEnter (hp : p.Valid) {pipe : PipeId} {timeout : Option ℕ} (data : List UInt8)
    (nonblock : Bool) :
    Lists tid (.write pipe data nonblock timeout) p (p.writeEnter tid data nonblock) := by
  rw [writeEnter]
  split_ifs with hread hwrite hfull hspace
  iterate 3 exact lists_done
  · exact lists_finishWrite hp (by simpa using hspace) data
  have hfull : p.count = p.capacity := by simpa [isFull] using hspace
  rw [addWriter_eq]
  exact lists_wait .writer rfl rfl (Side.ne_writer rfl) (by simp [ready, hfull, hread])
    fun side => by cases side <;> rfl

theorem lists_readEnter (hp : p.Valid) {pipe : PipeId} {timeout : Option ℕ} (len : ℕ)
    (nonblock : Bool) :
    Lists tid (.read pipe len nonblock timeout) p (p.readEnter tid len nonblock) := by
  rw [readEnter]
  split_ifs with heof hread hempty hdata
  iterate 3 exact lists_done
  · exact lists_finishRead hp (by simpa using hdata) len
  have hcount : p.count = 0 := by simpa [isEmpty] using hdata
  have hopen : p.writeClosed = false := by simpa [isEmpty, hcount] using heof
  rw [addReader_eq]
  exact lists_wait .reader rfl rfl (Side.ne_reader rfl) (by simp [ready, hcount, hopen])
    fun side => by cases side <;> rfl

theorem lists_closeWriteEnd : Lists tid c p p.closeWriteEnd := by
  rw [closeWriteEnd]
  split_ifs
  · exact lists_done
  · exact lists_drain .reader rfl (Side.ne_reader rfl) fun hcalm =>
      Side.ne_reader (hcalm.notReady .writer)

theorem lists_closeReadEnd : Lists tid c p p.closeReadEnd := by
  rw [closeReadEnd]
  split_ifs
  · exact lists_done
  · exact lists_drain .writer rfl (Side.ne_writer rfl) fun hcalm =>
      Side.ne_writer (hcalm.notReady .reader)

end PipeBuffer

namespace PipeCall

variable {p : PipeBuffer} {tid : TaskId} {c : PipeCall}

def leave (tid : TaskId) : PipeCall → PipeBuffer → PipeBuffer
  | write .., p => (p.removeWriter tid).2
  | read .., p => (p.removeReader tid).2
  | _, p => p

theorem lists_enter (hp : p.Valid) : Lists tid c p (c.enter tid p) := by
  cases c with
  | write _ data nonblock => exact lists_writeEnter hp data nonblock
  | read _ len nonblock => exact lists_readEnter hp len nonblock
  | closeWrite => exact lists_closeWriteEnd
  | closeRead => exact lists_closeReadEnd

theorem waiters_leave (side : Side) : (c.leave tid p).waiters side =
    if c.side = some side then (p.waiters side).erase tid else p.waiters side := by
  cases c <;> cases side <;> rfl

theorem lists_resume_leave (hp : p.Valid) : Lists tid c (c.leave tid p) (c.resume tid p) := by
  cases c with
  | write _ data =>
    have hp' := (sameRing_removeWriter tid).valid hp
    simp only [resume, writeResume]
    split_ifs with hread hwrite hremoved hspace
    · exact lists_done
    · exact lists_done
    · exact lists_finishWrite hp' (by simpa using hspace) data
    · exact lists_done
    · exact lists_done
  | read _ len =>
    have hp' := (sameRing_removeReader tid).valid hp
    simp only [resume, readResume]
    split_ifs with hread heof hremoved hdata
    · exact lists_done
    · exact lists_done
    · exact lists_finishRead hp' (by simpa using hdata) len
    · exact lists_done
    · exact lists_done
  | closeWrite | closeRead => exact lists_done

theorem resume_ne_wait (p : PipeBuffer) : (c.resume tid p).1 ≠ .wait := by
  cases c with
  | write _ data =>
    simp only [resume, writeResume]
    split_ifs <;> simp
  | read _ len =>
    simp only [resume, readResume]
    split_ifs <;> simp
  | closeWrite | closeRead => simp [resume]

theorem lists_resume (hp : p.Valid) : Lists tid c p (c.resume tid p) := by
  have h : Lists tid c (c.leave tid p) (c.resume tid p) := lists_resume_leave hp
  have hsub : ∀ side u, u ∈ (c.leave tid p).waiters side → u ∈ p.waiters side := by
    intro side u hu
    rw [waiters_leave] at hu
    split_ifs at hu
    · exact List.mem_of_mem_erase hu
    · exact hu
  refine ⟨fun hcalm => h.calm ⟨fun side => ?_, fun side hne => ?_⟩, fun side u hu => ?_,
    fun side u hu => (h.fresh side u hu).imp_left (hsub side u), fun result woken ho u hu => ?_,
    h.listed⟩
  · rw [waiters_leave]
    split_ifs
    · exact (hcalm.nodup side).erase tid
    · exact hcalm.nodup side
  · have hready : (c.leave tid p).ready side = p.ready side := by cases c <;> cases side <;> rfl
    rw [hready]
    obtain ⟨u, hu⟩ := List.exists_mem_of_ne_nil _ hne
    exact hcalm.notReady side (List.ne_nil_of_mem (hsub side u hu))
  · by_cases hself : u = tid ∧ c.side = some side
    · exact .inr (.inl hself)
    refine h.kept side u ?_
    rw [waiters_leave]
    split_ifs with hside
    · exact (List.mem_erase_of_ne fun heq => hself ⟨heq, hside⟩).mpr hu
    · exact hu
  · obtain ⟨side, hside, hnot⟩ := h.woken result woken ho u hu
    exact ⟨side, hsub side u hside, hnot⟩

theorem notMem_resume (hp : p.Valid) (hcalm : p.Calm) {side : Side} (hside : c.side = some side) :
    tid ∉ (c.resume tid p).2.waiters side := by
  intro hmem
  obtain hmem | ⟨-, -, hwait⟩ := (lists_resume_leave hp).fresh side tid hmem
  · rw [waiters_leave, if_pos hside] at hmem
    exact (hcalm.nodup side).not_mem_erase hmem
  · exact resume_ne_wait p hwait

theorem enter_ne_wouldBlock (hc : c.isUntimed = true) (woken : List TaskId) :
    (c.enter tid p).1 ≠ .done (.error .wouldBlock) woken := by
  cases c with
  | write _ data nonblock =>
    have hnonblock : nonblock = false := by simp [isUntimed] at hc; exact hc.1
    simp only [enter, writeEnter, hnonblock, Bool.false_and, Bool.false_eq_true, if_false]
    split_ifs <;> simp
  | read _ len nonblock =>
    have hnonblock : nonblock = false := by simp [isUntimed] at hc; exact hc.1
    simp only [enter, readEnter, hnonblock, Bool.false_and, Bool.false_eq_true, if_false]
    split_ifs <;> simp
  | closeWrite | closeRead => simp [isUntimed] at hc

theorem resume_ne_wouldBlock {side : Side} (hside : c.side = some side)
    (hoff : tid ∉ p.waiters side) (hready : p.ready side = true) (woken : List TaskId) :
    (c.resume tid p).1 ≠ .done (.error .wouldBlock) woken := by
  cases c with
  | write _ data =>
    obtain rfl : side = .writer := by simpa [PipeCall.side] using hside.symm
    have hremoved : (p.removeWriter tid).1 = false := by
      simpa [removeWriter, waiters] using hoff
    simp only [resume, writeResume, hremoved, Bool.not_false, if_true]
    split_ifs with hread hwrite hspace
    iterate 3 simp
    case neg =>
      simp [isFull, removeWriter] at hspace hread
      simp [ready, hspace, hread] at hready
  | read _ len =>
    obtain rfl : side = .reader := by simpa [PipeCall.side] using hside.symm
    have hremoved : (p.removeReader tid).1 = false := by
      simpa [removeReader, waiters] using hoff
    simp only [resume, readResume, hremoved, Bool.not_false, if_true]
    split_ifs with hread heof hdata
    iterate 3 simp
    case neg =>
      simp [isEmpty, removeReader] at hdata heof
      simp [ready, hdata] at hready
      exact absurd hdata (heof hready)
  | closeWrite | closeRead => simp [PipeCall.side] at hside

end PipeCall

/-! ## Runs -/

namespace PipeSystem

structure Waits (s : PipeSystem) : Prop where
  sound : s.Sound
  calm : ∀ id p, s.pipes id = some p → p.Calm
  member : ∀ id p side u, s.pipes id = some p → u ∈ p.waiters side →
    ∃ c, s.Inside u c ∧ c.pipe = id ∧ c.side = some side
  entered : ∀ u c, s.Inside u c → s.tasks u ≠ .asleep c → s.Listed u c
  token : ∀ u c, s.tasks u = .asleep c → c.isUntimed = true → s.sched.blocked u = true →
    s.Listed u c ∨ s.InFlight u
  off : ∀ u c, s.tasks u = .asleep c → c.isUntimed = true → s.sched.blocked u = false →
    ¬ s.Listed u c
  flight : ∀ u c, s.InFlight u → s.Inside u c → ¬ s.Listed u c
  log : ∀ r ∈ s.log, r.call.isUntimed = true → r.result ≠ .error .wouldBlock

variable {s : PipeSystem} {tid : TaskId} {c : PipeCall}

theorem Inside.unique {c' : PipeCall} (h : s.Inside tid c) (h' : s.Inside tid c') : c = c' := by
  obtain ⟨cond, h⟩ | h | h := h <;> obtain ⟨cond', h'⟩ | h' | h' := h' <;> simp_all

/-! ### Sections -/

variable {id : PipeId}

section Settle

variable {o : Outcome} {u : TaskId} {c' : PipeCall} {pipes : PipeId → Option PipeBuffer}

theorem tasks_settle_of_ne (h : u ≠ tid) : (s.settle tid c o).tasks u = s.tasks u := by
  cases o with
  | done | wait => exact update_of_ne h _ _
  | panic => rfl

theorem sched_settle : (s.settle tid c o).sched = s.sched := by cases o <;> rfl

theorem inside_settle_of_ne (h : u ≠ tid) : (s.settle tid c o).Inside u c' ↔ s.Inside u c' := by
  rw [Inside, Inside, tasks_settle_of_ne h]

theorem inside_settle_self (ho : o ≠ .panic) (h : (s.settle tid c o).Inside tid c') :
    c' = c ∧ o = .wait := by
  cases o with
  | done => simp [Inside, settle] at h
  | wait => simpa [Inside, settle, eq_comm] using h
  | panic => exact absurd rfl ho

theorem inFlight_settle (ho : o ≠ .panic) (h : (s.settle tid c o).InFlight u) :
    s.InFlight u ∨ ∃ result woken, o = .done result woken ∧ u ∈ woken := by
  obtain ⟨waker, rest, htask, hu⟩ := h
  by_cases hwaker : waker = tid
  · subst hwaker
    cases o with
    | done result woken =>
      simp only [settle, update_self, TaskPhase.returning.injEq] at htask
      exact .inr ⟨result, woken, rfl, htask ▸ hu⟩
    | wait => simp [settle] at htask
    | panic => exact absurd rfl ho
  · rw [tasks_settle_of_ne hwaker] at htask
    exact .inl ⟨waker, rest, htask, hu⟩

theorem InFlight.settle (h : s.InFlight u)
    (hidle : ∀ rest, s.tasks tid = .returning rest → rest = []) :
    (s.settle tid c o).InFlight u := by
  obtain ⟨waker, rest, htask, hu⟩ := h
  refine ⟨waker, rest, ?_, hu⟩
  rw [tasks_settle_of_ne, htask]
  rintro rfl
  rw [hidle rest htask] at hu
  cases hu

abbrev settleWith (s : PipeSystem) (pipes : PipeId → Option PipeBuffer) (tid : TaskId)
    (c : PipeCall) (o : Outcome) : PipeSystem :=
  { s with pipes }.settle tid c o

/-- A section is taken, in which the pipe of the call, if there is one, goes from `p` to `p'`. -/
inductive Taken (s : PipeSystem) (tid : TaskId) (c : PipeCall) :
    Outcome → (PipeId → Option PipeBuffer) → Prop
  | absent (result : PipeResult) (hp : s.pipes c.pipe = none) :
      Taken s tid c (.done result []) s.pipes
  | present (o : Outcome) (p p' : PipeBuffer) (hp : s.pipes c.pipe = some p)
      (hlists : Lists tid c p (o, p'))
      (hleft : o ≠ .wait → ∀ side, c.side = some side → tid ∉ p'.waiters side) :
      Taken s tid c o (update s.pipes c.pipe (some p'))

section

variable (h : Taken s tid c o pipes)
include h

theorem Taken.after (hp' : pipes id = some p') : id ≠ c.pipe ∧ s.pipes id = some p' ∨
      id = c.pipe ∧ ∃ p, s.pipes id = some p ∧ Lists tid c p (o, p') ∧
        (o ≠ .wait → ∀ side, c.side = some side → tid ∉ p'.waiters side) := by
  cases h with
  | absent _ hp =>
    refine .inl ⟨?_, hp'⟩
    rintro rfl
    rw [hp] at hp'
    cases hp'
  | present _ p _ hp hlists hleft =>
    by_cases hid : id = c.pipe
    · subst hid
      rw [update_self, Option.some.injEq] at hp'
      subst hp'
      exact .inr ⟨rfl, p, hp, hlists, hleft⟩
    · rw [update_of_ne hid] at hp'
      exact .inl ⟨hid, hp'⟩

theorem Taken.before {p : PipeBuffer} (hp : s.pipes id = some p) :
    pipes id = some p ∨ id = c.pipe ∧ ∃ p', pipes id = some p' ∧ Lists tid c p (o, p') := by
  cases h with
  | absent => exact .inl hp
  | present _ p₀ p' hp₀ hlists =>
    by_cases hid : id = c.pipe
    · subst hid
      obtain rfl : p₀ = p := Option.some.inj (hp₀.symm.trans hp)
      exact .inr ⟨rfl, p', update_self _ _ _, hlists⟩
    · rw [update_of_ne hid]
      exact .inl hp

theorem Taken.listed_of_listed (hu : u ≠ tid)
    (hlisted : (s.settleWith pipes tid c o).Listed u c') : s.Listed u c' := by
  obtain ⟨side, p', hside, hp', hmem⟩ := hlisted
  rw [pipes_settle] at hp'
  obtain ⟨-, hp⟩ | ⟨-, p, hp, hlists, -⟩ := h.after hp'
  · exact ⟨side, p', hside, hp, hmem⟩
  · obtain hmem | ⟨heq, -⟩ := hlists.fresh side u hmem
    · exact ⟨side, p, hside, hp, hmem⟩
    · exact absurd heq hu

theorem Taken.listed_or_woken (hu : u ≠ tid) (hlisted : s.Listed u c') :
    (s.settleWith pipes tid c o).Listed u c' ∨
      ∃ result woken, o = .done result woken ∧ u ∈ woken := by
  obtain ⟨side, p, hside, hp, hmem⟩ := hlisted
  obtain hp' | ⟨-, p', hp', hlists⟩ := h.before hp
  · exact .inl ⟨side, p, hside, by rw [pipes_settle]; exact hp', hmem⟩
  obtain hmem | ⟨heq, -⟩ | hwoken := hlists.kept side u hmem
  · exact .inl ⟨side, p', hside, by rw [pipes_settle]; exact hp', hmem⟩
  · exact absurd heq hu
  · exact .inr hwoken

theorem Taken.not_listed_of_woken (hs : s.Waits) (hu : s.Inside u c')
    (hwoken : ∃ result woken, o = .done result woken ∧ u ∈ woken) :
    ¬ (s.settleWith pipes tid c o).Listed u c' := by
  rintro ⟨side, p₁, hside, hp₁, hmem⟩
  rw [pipes_settle] at hp₁
  obtain ⟨result, woken, ho, huw⟩ := hwoken
  cases h with
  | absent =>
    rw [Outcome.done.injEq] at ho
    rw [← ho.2] at huw
    cases huw
  | present _ p p' hp hlists =>
    obtain ⟨side', hmem', hnot⟩ := hlists.woken result woken ho u huw
    -- it was there because of the call that it is in
    obtain ⟨c'', hinside, hpipe, hside'⟩ := hs.member _ p side' u hp hmem'
    obtain rfl := hinside.unique hu
    obtain rfl : side = side' := Option.some.inj (hside.symm.trans hside')
    have hp₁ : update s.pipes c.pipe (some p') c''.pipe = some p₁ := hp₁
    rw [hpipe, update_self, Option.some.injEq] at hp₁
    exact hnot (hp₁ ▸ hmem)

end

/-- The task takes the section at the start of its call, or when it has slept in it. -/
structure Turn (s : PipeSystem) (tid : TaskId) (c : PipeCall) (o : Outcome)
    (pipes : PipeId → Option PipeBuffer) : Prop where
  runs : o ≠ .panic
  phase : s.tasks tid = .returning [] ∧ ¬ s.InFlight tid ∨ s.tasks tid = .asleep c ∧ o ≠ .wait
  taken : Taken s tid c o pipes

section

variable (ht : Turn s tid c o pipes)
include ht

theorem Turn.returning {rest : List TaskId} (h : s.tasks tid = .returning rest) : rest = [] := by
  obtain ⟨htid, -⟩ | ⟨htid, -⟩ := ht.phase
  · exact (TaskPhase.returning.inj (htid.symm.trans h)).symm
  · rw [htid] at h
    cases h

/-- If it was inside before the section, it was in this call and does not wait again. -/
theorem Turn.inside (h : s.Inside tid c') : c' = c ∧ o ≠ .wait := by
  obtain ⟨htid, -⟩ | ⟨htid, hwait⟩ := ht.phase
  · simp [Inside, htid] at h
  · exact ⟨h.unique (.inr (.inr htid)), hwait⟩

theorem Turn.asleep (h : (s.settleWith pipes tid c o).tasks u = .asleep c') :
    u ≠ tid ∧ s.tasks u = .asleep c' := by
  have hne : u ≠ tid := by
    rintro rfl
    obtain ⟨-, rfl⟩ := inside_settle_self ht.runs (.inr (.inr h))
    simp [PipeSystem.settle] at h
  rw [tasks_settle_of_ne hne] at h
  exact ⟨hne, h⟩

variable (hs : s.Waits)
include hs

theorem Turn.member {side : Side} (hp' : pipes id = some p') (hu : u ∈ p'.waiters side) :
    ∃ c', (s.settleWith pipes tid c o).Inside u c' ∧ c'.pipe = id ∧
      c'.side = some side := by
  obtain ⟨hid, hp⟩ | ⟨rfl, p, hp, hlists, hleft⟩ := ht.taken.after hp'
  · obtain ⟨c', hinside, hpipe, hside⟩ := hs.member id p' side u hp hu
    refine ⟨c', (inside_settle_of_ne ?_).mpr hinside, hpipe, hside⟩
    rintro rfl
    rw [(ht.inside hinside).1] at hpipe
    exact hid hpipe.symm
  · obtain hmem | ⟨rfl, hside, rfl⟩ := hlists.fresh side u hu
    · obtain ⟨c', hinside, hpipe, hside⟩ := hs.member _ p side u hp hmem
      refine ⟨c', (inside_settle_of_ne ?_).mpr hinside, hpipe, hside⟩
      rintro rfl
      obtain ⟨rfl, hwait⟩ := ht.inside hinside
      exact hleft hwait side hside hu
    · exact ⟨c, .inl ⟨_, update_self _ _ _⟩, rfl, hside⟩

theorem Turn.entered (hquiet : s.Quiet c.pipe) (hc' : (s.settleWith pipes tid c o).Inside u c')
    (hne : (s.settleWith pipes tid c o).tasks u ≠ .asleep c') :
    (s.settleWith pipes tid c o).Listed u c' := by
  by_cases hu : u = tid
  · subst hu
    obtain ⟨rfl, rfl⟩ := inside_settle_self ht.runs hc'
    cases ht.taken with
    | present _ _ p' _ hlists =>
      obtain ⟨side, hside, hmem⟩ := hlists.listed rfl
      exact ⟨side, p', hside, update_self _ _ _, hmem⟩
  · rw [inside_settle_of_ne hu] at hc'
    rw [tasks_settle_of_ne hu] at hne
    -- those of this pipe are asleep, and the lists of the others stay
    obtain ⟨side, p, hside, hp, hmem⟩ := hs.entered u c' hc' hne
    obtain hp' | ⟨hpipe, -⟩ := ht.taken.before hp
    · exact ⟨side, p, hside, by rw [pipes_settle]; exact hp', hmem⟩
    · exact absurd (hquiet u c' hc' hpipe) hne

theorem Turn.flight (hf : (s.settleWith pipes tid c o).InFlight u)
    (hc' : (s.settleWith pipes tid c o).Inside u c') :
    ¬ (s.settleWith pipes tid c o).Listed u c' := by
  obtain hbefore | hwoken := inFlight_settle ht.runs hf
  · by_cases hu : u = tid
    · subst hu
      obtain ⟨rfl, rfl⟩ := inside_settle_self ht.runs hc'
      obtain ⟨-, hnot⟩ | ⟨-, hwait⟩ := ht.phase
      · exact absurd hbefore hnot
      · exact absurd rfl hwait
    · rw [inside_settle_of_ne hu] at hc'
      exact fun hlisted => hs.flight u c' hbefore hc' (ht.taken.listed_of_listed hu hlisted)
  · have hu : u ≠ tid := by
      rintro rfl
      obtain ⟨-, rfl⟩ := inside_settle_self ht.runs hc'
      obtain ⟨_, _, hdone, -⟩ := hwoken
      cases hdone
    rw [inside_settle_of_ne hu] at hc'
    exact ht.taken.not_listed_of_woken hs hc' hwoken

theorem Turn.token (hu : (s.settleWith pipes tid c o).tasks u = .asleep c')
    (hc' : c'.isUntimed = true) (hb : s.sched.blocked u = true) :
    (s.settleWith pipes tid c o).Listed u c' ∨
      (s.settleWith pipes tid c o).InFlight u := by
  obtain ⟨hne, hu⟩ := ht.asleep hu
  obtain hlisted | hflight := hs.token u c' hu hc' hb
  · obtain hlisted | ⟨result, woken, rfl, hmem⟩ := ht.taken.listed_or_woken hne hlisted
    · exact .inl hlisted
    · exact .inr ⟨tid, woken, update_self _ _ _, hmem⟩
  · exact .inr (InFlight.settle (s := { s with pipes := pipes }) hflight fun _ => ht.returning)

end

end Settle

section

variable (h : s.Waits)
include h

theorem Waits.settle {o : Outcome} (pipes : PipeId → Option PipeBuffer) (hquiet : s.Quiet c.pipe)
    (hsound : (s.settleWith pipes tid c o).Sound)
    (hphase : s.tasks tid = .returning [] ∧ ¬ s.InFlight tid ∨ s.tasks tid = .asleep c ∧ o ≠ .wait)
    (htaken : Taken s tid c o pipes)
    (hresult : c.isUntimed = true → ∀ woken, o ≠ .done (.error .wouldBlock) woken) :
    (s.settleWith pipes tid c o).Waits := by
  have ho : o ≠ .panic := by
    rintro rfl
    exact absurd hsound.runs (by simp [PipeSystem.settle])
  have ht : Turn s tid c o pipes := ⟨ho, hphase, htaken⟩
  refine ⟨hsound, fun id p' hp' => ?_, fun id p' side u hp' => ?_,
    fun u c' => ht.entered h hquiet, fun u c' hu hc' hb => ?_, fun u c' hu hc' hb => ?_,
    fun u c' => ht.flight h, fun r hr hc' => ?_⟩
  · rw [pipes_settle] at hp'
    obtain ⟨-, hp⟩ | ⟨-, p, hp, hlists, -⟩ := htaken.after hp'
    · exact h.calm id p' hp
    · exact hlists.calm (h.calm id p hp)
  · rw [pipes_settle] at hp'
    exact ht.member h hp'
  · rw [sched_settle] at hb
    exact ht.token h hu hc' hb
  · obtain ⟨hne, hu⟩ := ht.asleep hu
    rw [sched_settle] at hb
    exact fun hlisted => h.off u c' hu hc' hb (htaken.listed_of_listed hne hlisted)
  · obtain hr | ⟨rfl, woken, hwoken⟩ := mem_log_settle hr
    · exact h.log r hr hc'
    · intro hblock
      rw [hblock] at hwoken
      exact hresult hc' woken hwoken

theorem Waits.notMem_waiters (htid : s.tasks tid = .returning []) {p : PipeBuffer}
    (hp : s.pipes id = some p) (side : Side) : tid ∉ p.waiters side := by
  intro hmem
  obtain ⟨c, hinside, -, -⟩ := h.member id p side tid hp hmem
  simp [Inside, htid] at hinside

theorem Waits.call (hquiet : s.Quiet c.pipe) (hflight : ¬ s.InFlight tid)
    (htid : s.tasks tid = .returning []) : (s.step (.call tid c)).Waits := by
  have hsound := h.sound.step (.call tid c)
  simp only [PipeSystem.step, htid] at hsound ⊢
  split_ifs at hsound ⊢ with hc
  · refine h.settle s.pipes hquiet hsound (.inl ⟨htid, hflight⟩) ?_ (by simp)
    cases hp : s.pipes c.pipe with
    | none => exact .absent _ hp
    | some p =>
      have hsame : update s.pipes c.pipe (some p) = s.pipes := by
        rw [← hp, update_eq_self]
      have htaken : Taken s tid c (.done (.error .invalidArgument) [])
          (update s.pipes c.pipe (some p)) := .present _ p p hp
        lists_done fun _ side _ => h.notMem_waiters htid hp side
      rwa [hsame] at htaken
  · rw [PipeSystem.locked] at hsound ⊢
    cases hp : s.pipes c.pipe with
    | none =>
      simp only [hp] at hsound
      exact h.settle s.pipes hquiet hsound (.inl ⟨htid, hflight⟩) (.absent _ hp) (by simp)
    | some p =>
      simp only [hp] at hsound
      have hlists : Lists tid c p (c.enter tid p) :=
        PipeCall.lists_enter (h.sound.streams _ p hp).valid
      refine h.settle _ hquiet hsound (.inl ⟨htid, hflight⟩) (.present _ p _ hp hlists ?_)
        fun hc' woken => PipeCall.enter_ne_wouldBlock hc' woken
      intro hwait side hside hmem
      obtain hmem | ⟨-, -, heq⟩ := hlists.fresh side tid hmem
      · exact h.notMem_waiters htid hp side hmem
      · exact hwait heq

theorem Waits.resume (hquiet : s.Quiet c.pipe) (htid : s.tasks tid = .asleep c)
    (hblocked : s.sched.blocked tid = false) (hready : c.isUntimed = true → s.Ready c) :
    (s.step (.resume tid)).Waits := by
  have hsound := h.sound.step (.resume tid)
  simp only [PipeSystem.step, htid] at hsound ⊢
  rw [PipeSystem.locked] at hsound ⊢
  cases hp : s.pipes c.pipe with
  | none =>
    simp only [hp] at hsound
    exact h.settle s.pipes hquiet hsound (.inr ⟨htid, by simp⟩) (.absent _ hp) (by simp)
  | some p =>
    simp only [hp] at hsound
    have hvalid := (h.sound.streams _ p hp).valid
    refine h.settle _ hquiet hsound (.inr ⟨htid, PipeCall.resume_ne_wait p⟩)
      (.present _ p _ hp (PipeCall.lists_resume hvalid) fun _ side hside =>
        PipeCall.notMem_resume hvalid (h.calm _ p hp) hside) ?_
    intro hc woken
    obtain ⟨side, p', hside, hp', hr⟩ := hready hc
    obtain rfl : p' = p := Option.some.inj (hp'.symm.trans hp)
    -- it has been woken, so it is off the list
    refine PipeCall.resume_ne_wouldBlock hside (fun hmem => ?_) hr woken
    exact h.off tid c htid hc hblocked ⟨side, p', hside, hp', hmem⟩

/-! ### Blocking and waking -/

theorem Waits.move {s' : PipeSystem} {phase : TaskPhase} (hsound : s'.Sound) (hold : s.Inside tid c)
    (hawake : s.tasks tid ≠ .asleep c) (hnew : phase = .queued c ∨ phase = .asleep c)
    (hpipes : s'.pipes = s.pipes) (htasks : s'.tasks = update s.tasks tid phase)
    (hlog : s'.log = s.log) (hothers : ∀ u, u ≠ tid → s'.sched.blocked u = s.sched.blocked u)
    (hself : phase = .asleep c → s'.sched.blocked tid = true) : s'.Waits := by
  obtain ⟨pipes, tasks, sched, log, panicked⟩ := s'
  dsimp only at hpipes htasks hlog hothers hself
  subst hpipes htasks hlog
  have hlisted : s.Listed tid c := h.entered tid c hold hawake
  -- the task is in the same call as before
  have hinside : ∀ u c', PipeSystem.Inside ⟨s.pipes, update s.tasks tid phase, sched,
      s.log, panicked⟩ u c' → s.Inside u c' := by
    intro u c' hc'
    by_cases hu : u = tid
    · subst hu
      have : c' = c := by
        simp only [Inside, update_self] at hc'
        obtain rfl | rfl := hnew <;> simpa [eq_comm] using hc'
      exact this ▸ hold
    · simp only [Inside, update_of_ne hu] at hc'
      exact hc'
  have hflight : ∀ u, PipeSystem.InFlight ⟨s.pipes, update s.tasks tid phase, sched,
      s.log, panicked⟩ u ↔ s.InFlight u := by
    intro u
    refine exists_congr fun waker => exists_congr fun rest => and_congr_left fun _ => ?_
    by_cases hw : waker = tid
    · subst hw
      simp only [update_self]
      refine iff_of_false (fun heq => ?_) fun heq => ?_
      · obtain rfl | rfl := hnew <;> cases heq
      · simp [Inside, heq] at hold
    · simp only [update_of_ne hw]
  refine ⟨hsound, h.calm, fun id p side u hp hu => ?_, fun u c' hc' hne => ?_,
    fun u c' hu hc' hb => ?_, fun u c' hu hc' hb => ?_, fun u c' hf hc' => ?_, h.log⟩
  · obtain ⟨c', hc', hpipe, hside⟩ := h.member id p side u hp hu
    refine ⟨c', ?_, hpipe, hside⟩
    by_cases hu : u = tid
    · subst hu
      rw [hc'.unique hold]
      simp only [Inside, update_self]
      exact .inr hnew
    · simp only [Inside, update_of_ne hu]
      exact hc'
  · by_cases hu : u = tid
    · subst hu
      exact (hinside u c' hc').unique hold ▸ hlisted
    · simp only [update_of_ne hu] at hne
      exact h.entered u c' (hinside u c' hc') hne
  · by_cases hu' : u = tid
    · subst hu'
      exact .inl ((hinside u c' (.inr (.inr hu))).unique hold ▸ hlisted)
    · simp only [update_of_ne hu'] at hu
      exact (h.token u c' hu hc' ((hothers u hu').symm.trans hb)).imp_right (hflight u).mpr
  · by_cases hu' : u = tid
    · subst hu'
      obtain rfl := (hinside u c' (.inr (.inr hu))).unique hold
      simp only [update_self] at hu
      exact absurd ((hself hu).symm.trans hb) (by decide)
    · simp only [update_of_ne hu'] at hu
      exact h.off u c' hu hc' ((hothers u hu').symm.trans hb)
  · exact h.flight u c' ((hflight u).mp hf) (hinside u c' hc')

theorem Waits.enqueue {cond : WakeCondition} (htid : s.tasks tid = .entering c cond) :
    (s.step (.enqueue tid)).Waits := by
  have hsound := h.sound.step (.enqueue tid)
  simp only [PipeSystem.step, htid] at hsound ⊢
  exact h.move hsound (.inl ⟨cond, htid⟩) (by simp [htid]) (.inl rfl) rfl rfl rfl (fun _ _ => rfl)
    (by simp)

theorem Waits.block (htid : s.tasks tid = .queued c) : (s.step (.block tid)).Waits := by
  have hsound := h.sound.step (.block tid)
  simp only [PipeSystem.step, htid] at hsound ⊢
  exact h.move hsound (.inr (.inl htid)) (by simp [htid]) (.inr rfl) rfl rfl rfl
    (fun u hu => update_of_ne hu _ _) fun _ => update_self _ _ _

theorem Waits.wake {first : TaskId} {rest : List TaskId}
    (htid : s.tasks tid = .returning (first :: rest)) : (s.step (.wake tid)).Waits := by
  have hsound := h.sound.step (.wake tid)
  simp only [PipeSystem.step, htid] at hsound ⊢
  have hfirst : s.InFlight first := ⟨tid, _, htid, List.mem_cons_self⟩
  have hne : ∀ u c', s.Inside u c' → u ≠ tid := by
    rintro u c' hc' rfl
    simp [Inside, htid] at hc'
  have hinside : ∀ u c', PipeSystem.Inside { s with
      tasks := update s.tasks tid (.returning rest)
      sched := s.sched.wakeTask first } u c' ↔ s.Inside u c' := by
    intro u c'
    by_cases hu : u = tid
    · subst hu
      simp [Inside, htid]
    · simp only [Inside, update_of_ne hu]
  have hasleep : ∀ u c', update s.tasks tid (.returning rest) u = .asleep c' →
      s.tasks u = .asleep c' := by
    intro u c' hu
    by_cases hut : u = tid
    · subst hut
      simp at hu
    · rwa [update_of_ne hut] at hu
  refine ⟨hsound, h.calm, fun id p side u hp hu => ?_, fun u c' hc' hn => ?_,
    fun u c' hu hc' hb => ?_, fun u c' hu hc' hb => ?_, fun u c' hf hc' => ?_, h.log⟩
  · obtain ⟨c', hc', hpipe, hside⟩ := h.member id p side u hp hu
    exact ⟨c', (hinside u c').mpr hc', hpipe, hside⟩
  · rw [hinside u c'] at hc'
    simp only [update_of_ne (hne u c' hc')] at hn
    exact h.entered u c' hc' hn
  · have hasleep := hasleep u c' hu
    by_cases huf : u = first
    · subst huf
      simp [Sched.wakeTask] at hb
    simp only [Sched.wakeTask, update_of_ne huf] at hb
    refine (h.token u c' hasleep hc' hb).imp_right ?_
    rintro ⟨waker, rest', hw, hmem⟩
    by_cases hwt : waker = tid
    · subst hwt
      rw [htid, TaskPhase.returning.injEq] at hw
      rw [← hw] at hmem
      exact ⟨waker, rest, update_self _ _ _, List.mem_of_ne_of_mem huf hmem⟩
    · exact ⟨waker, rest', by simp only [update_of_ne hwt]; exact hw, hmem⟩
  · have hasleep := hasleep u c' hu
    by_cases huf : u = first
    · subst huf
      exact h.flight u c' hfirst (.inr (.inr hasleep))
    · simp only [Sched.wakeTask, update_of_ne huf] at hb
      exact h.off u c' hasleep hc' hb
  · refine h.flight u c' ?_ ((hinside u c').mp hc')
    obtain ⟨waker, rest', hw, hmem⟩ := hf
    by_cases hwt : waker = tid
    · subst hwt
      simp only [update_self, TaskPhase.returning.injEq] at hw
      exact ⟨waker, _, htid, List.mem_cons_of_mem _ (hw ▸ hmem)⟩
    · simp only [update_of_ne hwt] at hw
      exact ⟨waker, rest', hw, hmem⟩

theorem Waits.tick {now : ℕ}
    (htimed : ∀ tid c, s.tasks tid = .asleep c → c.isUntimed = true → s.sched.blocked tid = false) :
    (s.step (.tick now)).Waits := by
  have hsound := h.sound.step (.tick now)
  refine ⟨hsound, h.calm, h.member, h.entered, fun u c' hu hc' hb => ?_,
    fun u c' hu hc' _ => h.off u c' hu hc' (htimed u c' hu hc'), h.flight, h.log⟩
  exact h.token u c' hu hc' (Sched.blocked_of_tick hb)

theorem Waits.step {ev : PipeEvent} (hev : s.Orderly ev) : (s.step ev).Waits := by
  cases ev with
  | call tid =>
    by_cases htid : s.tasks tid = .returning []
    · exact h.call hev.1 hev.2 htid
    · simpa only [PipeSystem.step] using h
  | enqueue tid =>
    cases htid : s.tasks tid with
    | entering => exact h.enqueue htid
    | returning | queued | asleep => simpa only [PipeSystem.step, htid] using h
  | block tid =>
    cases htid : s.tasks tid with
    | queued => exact h.block htid
    | returning | entering | asleep => simpa only [PipeSystem.step, htid] using h
  | resume tid =>
    cases htid : s.tasks tid with
    | asleep c =>
      obtain ⟨hblocked, hready⟩ := hev
      exact h.resume (hready c htid).1 htid hblocked (hready c htid).2
    | returning | entering | queued => simpa only [PipeSystem.step, htid] using h
  | wake tid =>
    cases htid : s.tasks tid with
    | returning rest =>
      cases rest with
      | nil => simpa only [PipeSystem.step, htid] using h
      | cons => exact h.wake htid
    | entering | queued | asleep => simpa only [PipeSystem.step, htid] using h
  | tick => exact h.tick hev

end

theorem waits_start (sizes : PipeId → Option ℕ) : (start sizes).Waits := by
  have hlists : ∀ id p, (start sizes).pipes id = some p → ∀ side, p.waiters side = [] := by
    intro id p hp side
    obtain ⟨size, -, rfl⟩ := Option.map_eq_some_iff.mp hp
    cases side <;> rfl
  refine ⟨sound_start sizes, fun id p hp => ⟨fun side => ?_, fun side hne => ?_⟩,
    fun id p side u hp hu => ?_, by simp [start, Inside], by simp [start], by simp [start],
    by simp [start, Inside], by simp [start]⟩
  · rw [hlists id p hp side]
    exact List.nodup_nil
  · exact absurd (hlists id p hp side) hne
  · rw [hlists id p hp side] at hu
    cases hu

/-- **Calls without a timeout block, in orderly runs.**  None of them returns `WouldBlock`; a task
that is blocked in one is on the list of its pipe or about to be woken; and if it is not about to
be woken, then the pipe has not what it waits for. -/
theorem blocking_calls_block (sizes : PipeId → Option ℕ) (evs : List PipeEvent)
    (h : Along step Orderly (start sizes) evs) :
    let s := exec step (start sizes) evs
    (∀ r ∈ s.log, r.call.isUntimed = true → r.result ≠ .error .wouldBlock) ∧
      (∀ tid c, s.tasks tid = .asleep c → c.isUntimed = true → s.sched.blocked tid = true →
        s.Listed tid c ∨ s.InFlight tid) ∧
      ∀ tid c, s.tasks tid = .asleep c → c.isUntimed = true → s.sched.blocked tid = true →
        ¬ s.InFlight tid → ¬ s.Ready c := by
  intro s
  have hs : s.Waits := h.invariant (waits_start sizes) fun _ _ hs hev => hs.step hev
  refine ⟨hs.log, hs.token, fun tid c htid hc hb hflight => ?_⟩
  obtain ⟨side, p, hside, hp, hmem⟩ := (hs.token tid c htid hc hb).resolve_right hflight
  rintro ⟨side', p', hside', hp', hready⟩
  obtain rfl : side = side' := Option.some.inj (hside.symm.trans hside')
  obtain rfl : p = p' := Option.some.inj (hp.symm.trans hp')
  rw [(hs.calm _ p hp).notReady side (List.ne_nil_of_mem hmem)] at hready
  cases hready

def sleepAndWake : List PipeEvent :=
  [.call 1 (.read 0 8 false none), .enqueue 1, .block 1, .call 2 (.closeWrite 0), .wake 2,
    .resume 1]

theorem quiet_of_asleep (tid : TaskId) (h : s.tasks tid = .asleep c)
    (hrest : ∀ u, u ≠ tid → ∃ rest, s.tasks u = .returning rest) (pipe : PipeId) :
    s.Quiet pipe := by
  intro u c' hc' _
  by_cases hu : u = tid
  · subst hu
    rw [hc'.unique (.inr (.inr h)), h]
  · obtain ⟨rest, hrest⟩ := hrest u hu
    simp [Inside, hrest] at hc'

/-- A reader of an empty pipe goes to sleep, and is woken when the pipe is closed. -/
theorem blocking_calls_sample : ∃ s, s = exec step (start fun _ => some 4096) sleepAndWake ∧
    s.log.map (·.result) = [.closed, .read []] ∧
      ∀ r ∈ s.log, r.call.isUntimed = true → r.result ≠ .error .wouldBlock := by
  refine ⟨_, rfl, rfl, (blocking_calls_block (fun _ => some 4096) sleepAndWake ?_).1⟩
  have hidle {u : TaskId} (hu : u ≠ 1) : (exec step (start fun _ => some 4096)
      (sleepAndWake.take 3)).tasks u = .returning [] :=
    (update_of_ne hu _ _).trans ((update_of_ne hu _ _).trans (update_of_ne hu _ _))
  refine ⟨⟨by simp [Quiet, Inside, start], by simp [InFlight, start]⟩, trivial, trivial, ⟨?_, ?_⟩,
    trivial, ⟨rfl, fun c hc => ⟨?_, fun _ => ?_⟩⟩, trivial⟩
  · exact quiet_of_asleep 1 rfl (fun u hu => ⟨_, hidle hu⟩) _
  · rintro ⟨waker, rest, hrest, hmem⟩
    by_cases hw : waker = 1
    · subst hw
      cases hrest
    · cases (hidle hw).symm.trans hrest
      cases hmem
  · refine quiet_of_asleep 1 rfl (fun u hu => ?_) _
    by_cases hw : u = 2
    · subst hw
      exact ⟨[], rfl⟩
    · exact ⟨[], (update_of_ne hw _ _).trans ((update_of_ne hw _ _).trans (hidle hu))⟩
  · cases hc
    exact ⟨.reader, _, rfl, rfl, rfl⟩

/-- **A blocking read returns `WouldBlock`** at the first timer tick. -/
theorem blocking_read_gives_up :
    ∃ evs, evs = [.call 1 (.read 0 8 false none), .enqueue 1, .block 1, .tick 1, .resume 1] ∧
      (exec step (start fun _ => some 4096) evs).log =
        [⟨1, .read 0 8 false none, .error .wouldBlock⟩] := by
  refine ⟨_, rfl, ?_⟩
  rfl

end PipeSystem

end IonaOs.Process
