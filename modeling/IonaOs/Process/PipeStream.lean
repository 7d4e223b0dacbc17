import IonaOs.Process.Pipe

/-!
# A pipe is a bounded stream of bytes
-/

namespace IonaOs.Process

open Lib Function List

/-! ## The ring -/

namespace PipeBuffer

def contents (p : PipeBuffer) : List UInt8 := ring p.buf p.head p.count

structure Valid (p : PipeBuffer) : Prop where
  pos : 0 < p.capacity
  length : p.buf.length = p.capacity
  count : p.count ≤ p.capacity
  head : p.head < p.capacity
  tail : p.tail = (p.head + p.count) % p.capacity

variable {p : PipeBuffer}

theorem valid_new (size : ℕ) : (new size).Valid := by
  have hpos : 0 < max minPipeBufSize (min size maxPipeBufSize) :=
    lt_of_lt_of_le (by decide) (le_max_left _ _)
  refine ⟨hpos, length_replicate, Nat.zero_le _, hpos, ?_⟩
  simp [new]

theorem contents_new (size : ℕ) : (new size).contents = [] := ring_zero

theorem Valid.writeBytes (h : p.Valid) (data : List UInt8) :
    ∃ buf tail, ∃ p' : PipeBuffer,
      p' = { p with buf := buf, tail := tail, count := p.count + min data.length p.space } ∧
      p.writeBytes data = some (p', min data.length p.space) ∧ p'.Valid ∧
      p'.contents = p.contents ++ data.take (min data.length p.space) := by
  have hspace : p.count + min data.length p.space ≤ p.capacity := by
    have := h.count
    have := min_le_right data.length p.space
    simp only [space] at *
    omega
  have hlen : (data.take (min data.length p.space)).length = min data.length p.space := by
    rw [length_take]
    omega
  have hfit : p.count + (data.take (min data.length p.space)).length ≤ p.buf.length := by
    rw [hlen, h.length]
    exact hspace
  obtain ⟨buf, hput, hbuf, hring⟩ := ringPut_eq_some p.head hfit (by rw [h.length]; exact h.pos)
  rw [hlen, h.length, ← h.tail] at hput
  rw [hlen] at hring
  refine ⟨buf, _, _, rfl, by rw [PipeBuffer.writeBytes, hput]; rfl, ?_, hring⟩
  exact ⟨h.pos, hbuf.trans h.length, hspace, h.head, rfl⟩

theorem Valid.readBytes (h : p.Valid) (len : ℕ) :
    ∃ head bytes, ∃ p' : PipeBuffer,
      p' = { p with head := head, count := p.count - min len p.count } ∧
      p.readBytes len = some (p', bytes) ∧ p'.Valid ∧ bytes.length = min len p.count ∧
      p.contents = bytes ++ p'.contents := by
  have hn : min len p.count ≤ p.count := min_le_right _ _
  obtain ⟨bytes, hget, hbytes, hring⟩ := ringGet_eq_some hn (by rw [h.length]; exact h.count)
    (by rw [h.length]; exact h.head)
  rw [h.length] at hget hring
  refine ⟨_, bytes, _, rfl, by rw [PipeBuffer.readBytes, hget]; rfl, ?_, hbytes, hring⟩
  refine ⟨h.pos, h.length, (Nat.sub_le _ _).trans h.count, Nat.mod_lt _ h.pos, ?_⟩
  -- the tail stays where it is
  show p.tail = ((p.head + min len p.count) % p.capacity + (p.count - min len p.count)) % p.capacity
  rw [h.tail, Nat.mod_add_mod]
  congr 1
  omega

end PipeBuffer

/-! ## Sections -/

namespace Outcome

def taken : Outcome → List UInt8
  | done (.read bytes) _ => bytes
  | _ => []

def given : Outcome → ℕ
  | done (.wrote n) _ => n
  | _ => 0

end Outcome

/-- A section that is given `data` goes from `p` to a valid buffer: the stream goes on, and an end
of file is found only behind the last byte, where nothing comes any more. -/
structure Effect (p : PipeBuffer) (data : List UInt8) (o : Outcome × PipeBuffer) : Prop where
  valid : o.2.Valid
  runs : o.1 ≠ .panic
  stream : o.1.taken ++ o.2.contents = p.contents ++ data.take o.1.given
  ended : (∃ woken, o.1 = .done (.read []) woken) ∨ p.writeClosed = true ∧ p.count = 0 →
    o.2.writeClosed = true ∧ o.2.count = 0

namespace PipeBuffer

variable {p : PipeBuffer}

structure SameRing (p p' : PipeBuffer) : Prop where
  buf : p'.buf = p.buf
  head : p'.head = p.head
  tail : p'.tail = p.tail
  count : p'.count = p.count
  capacity : p'.capacity = p.capacity
  closed : p.writeClosed = true → p'.writeClosed = true

theorem SameRing.valid {p' : PipeBuffer} (h : SameRing p p') (hp : p.Valid) : p'.Valid := by
  refine ⟨?_, ?_, ?_, ?_, ?_⟩
  · rw [h.capacity]; exact hp.pos
  · rw [h.buf, h.capacity]; exact hp.length
  · rw [h.count, h.capacity]; exact hp.count
  · rw [h.head, h.capacity]; exact hp.head
  · rw [h.tail, h.head, h.count, h.capacity]; exact hp.tail

theorem SameRing.contents_eq {p' : PipeBuffer} (h : SameRing p p') : p'.contents = p.contents := by
  rw [contents, contents, h.buf, h.head, h.count]

theorem sameRing_refl : SameRing p p := ⟨rfl, rfl, rfl, rfl, rfl, id⟩

variable (tid : TaskId)

theorem sameRing_addReader : SameRing p (p.addReader tid) := by
  rw [addReader]
  split
  · exact sameRing_refl
  · exact ⟨rfl, rfl, rfl, rfl, rfl, id⟩

theorem sameRing_addWriter : SameRing p (p.addWriter tid) := by
  rw [addWriter]
  split
  · exact sameRing_refl
  · exact ⟨rfl, rfl, rfl, rfl, rfl, id⟩

theorem sameRing_removeReader : SameRing p (p.removeReader tid).2 :=
  ⟨rfl, rfl, rfl, rfl, rfl, id⟩

theorem sameRing_removeWriter : SameRing p (p.removeWriter tid).2 :=
  ⟨rfl, rfl, rfl, rfl, rfl, id⟩

variable {data : List UInt8}

theorem SameRing.effect {p' : PipeBuffer} {o : Outcome} (h : SameRing p p') (hp : p.Valid)
    (ho : o ≠ .panic) (htaken : o.taken = []) (hgiven : o.given = 0)
    (hend : ∀ woken, o = .done (.read []) woken → p.writeClosed = true ∧ p.count = 0) :
    Effect p data (o, p') := by
  refine ⟨h.valid hp, ho, ?_, fun hended => ?_⟩
  · rw [htaken, hgiven, take_zero, append_nil, nil_append, h.contents_eq]
  have hended : p.writeClosed = true ∧ p.count = 0 := by
    obtain ⟨woken, hwoken⟩ | hended := hended
    · exact hend woken hwoken
    · exact hended
  exact ⟨h.closed hended.1, h.count.trans hended.2⟩

theorem SameRing.effect_error {p' : PipeBuffer} {e : PipeError} (h : SameRing p p') (hp : p.Valid) :
    Effect p data (.done (.error e) [], p') :=
  h.effect hp (by simp) rfl rfl (by simp)

theorem SameRing.trans_effect {p' : PipeBuffer} {o : Outcome × PipeBuffer} (h : SameRing p p')
    (ho : Effect p' data o) : Effect p data o := by
  refine ⟨ho.valid, ho.runs, h.contents_eq ▸ ho.stream, fun hended => ho.ended ?_⟩
  exact hended.imp_right fun hended => ⟨h.closed hended.1, h.count.trans hended.2⟩

section

variable (hp : p.Valid)
include hp

theorem Valid.effect_finishWrite (hopen : p.writeClosed = false)
    (data : List UInt8) : Effect p data (p.finishWrite data) := by
  obtain ⟨buf, tail, p', rfl, hwrite, hvalid, hcontents⟩ := hp.writeBytes data
  rw [finishWrite, hwrite]
  refine ⟨?_, by simp, hcontents, ?_⟩
  · exact ⟨hvalid.pos, hvalid.length, hvalid.count, hvalid.head, hvalid.tail⟩
  rintro (⟨woken, hwoken⟩ | hended)
  · simp at hwoken
  · rw [hopen] at hended
    exact absurd hended.1 (by decide)

theorem Valid.effect_finishRead {len : ℕ} (hlen : len ≠ 0) (hcount : p.count ≠ 0)
    (data : List UInt8) : Effect p data (p.finishRead len) := by
  obtain ⟨head, bytes, p', rfl, hread, hvalid, hbytes, hcontents⟩ := hp.readBytes len
  rw [finishRead, hread]
  refine ⟨?_, by simp, ?_, ?_⟩
  · exact ⟨hvalid.pos, hvalid.length, hvalid.count, hvalid.head, hvalid.tail⟩
  · rw [hcontents]
    exact (append_nil _).symm
  rintro (⟨woken, hwoken⟩ | hended)
  · simp only [Outcome.done.injEq, PipeResult.read.injEq] at hwoken
    rw [hwoken.1, length_nil] at hbytes
    omega
  · exact absurd hended.2 hcount

variable (tid : TaskId)

theorem Valid.effect_writeEnter (data : List UInt8)
    (nonblock : Bool) : Effect p data (p.writeEnter tid data nonblock) := by
  rw [writeEnter]
  split_ifs with hread hwrite hfull hspace
  · exact sameRing_refl.effect_error hp
  · exact sameRing_refl.effect_error hp
  · exact sameRing_refl.effect_error hp
  · exact hp.effect_finishWrite (by simpa using hwrite) data
  · exact (sameRing_addWriter tid).effect hp (by simp) rfl rfl (by simp)

theorem Valid.effect_writeResume (data : List UInt8) :
    Effect p data (p.writeResume tid data) := by
  have hsame := sameRing_removeWriter (p := p) tid
  have hp' := hsame.valid hp
  refine hsame.trans_effect ?_
  simp only [writeResume]
  split_ifs with hread hwrite hremoved hspace
  · exact sameRing_refl.effect_error hp'
  · exact sameRing_refl.effect_error hp'
  · exact hp'.effect_finishWrite (by simpa using hwrite) data
  · exact sameRing_refl.effect_error hp'
  · exact sameRing_refl.effect_error hp'

theorem Valid.effect_readEnter {len : ℕ} (hlen : len ≠ 0)
    (nonblock : Bool) : Effect p [] (p.readEnter tid len nonblock) := by
  rw [readEnter]
  split_ifs with heof hread hempty hdata
  · exact sameRing_refl.effect hp (by simp) rfl rfl fun _ _ => by simpa [isEmpty] using heof
  · exact sameRing_refl.effect_error hp
  · exact sameRing_refl.effect_error hp
  · exact hp.effect_finishRead hlen (by simpa [isEmpty] using hdata) []
  · exact (sameRing_addReader tid).effect hp (by simp) rfl rfl (by simp)

theorem Valid.effect_readResume {len : ℕ} (hlen : len ≠ 0) :
    Effect p [] (p.readResume tid len) := by
  have hsame := sameRing_removeReader (p := p) tid
  have hp' := hsame.valid hp
  refine hsame.trans_effect ?_
  simp only [readResume]
  split_ifs with hread heof hremoved hdata
  · exact sameRing_refl.effect_error hp'
  · exact sameRing_refl.effect hp' (by simp) rfl rfl fun _ _ => by simpa [isEmpty] using heof
  · exact hp'.effect_finishRead hlen (by simpa [isEmpty] using hdata) []
  · exact sameRing_refl.effect_error hp'
  · exact sameRing_refl.effect_error hp'

theorem Valid.effect_closeWriteEnd : Effect p [] p.closeWriteEnd := by
  rw [closeWriteEnd]
  split_ifs
  · exact sameRing_refl.effect hp (by simp) rfl rfl (by simp)
  · have hsame : SameRing p { p with writeClosed := true, readersWaiting := [] } :=
      ⟨rfl, rfl, rfl, rfl, rfl, fun _ => rfl⟩
    exact hsame.effect hp (by simp) rfl rfl (by simp)

theorem Valid.effect_closeReadEnd : Effect p [] p.closeReadEnd := by
  rw [closeReadEnd]
  split_ifs
  · exact sameRing_refl.effect hp (by simp) rfl rfl (by simp)
  · have hsame : SameRing p { p with readClosed := true, writersWaiting := [] } :=
      ⟨rfl, rfl, rfl, rfl, rfl, id⟩
    exact hsame.effect hp (by simp) rfl rfl (by simp)

end

end PipeBuffer

namespace PipeCall

def data : PipeCall → List UInt8
  | write _ data .. => data
  | _ => []

theorem effect_enter {p : PipeBuffer} (hp : p.Valid) {c : PipeCall} (hc : c.isInvalid = false)
    (tid : TaskId) : Effect p c.data (c.enter tid p) := by
  cases c with
  | write _ data nonblock => exact hp.effect_writeEnter tid data nonblock
  | read _ _ nonblock =>
    exact hp.effect_readEnter tid (by simpa [isInvalid] using hc) nonblock
  | closeWrite => exact hp.effect_closeWriteEnd
  | closeRead => exact hp.effect_closeReadEnd

theorem effect_resume {p : PipeBuffer} (hp : p.Valid) {c : PipeCall} (hc : c.isInvalid = false)
    (tid : TaskId) : Effect p c.data (c.resume tid p) := by
  cases c with
  | write _ data => exact hp.effect_writeResume tid data
  | read =>
    exact hp.effect_readResume tid (by simpa [isInvalid] using hc)
  | closeWrite | closeRead => exact PipeBuffer.sameRing_refl.effect hp (by simp) rfl rfl (by simp)

end PipeCall

/-! ## Runs -/

namespace PipeSystem

variable (s : PipeSystem)

def delivered (id : PipeId) : List UInt8 :=
  s.log.flatMap fun r => match r.result with
    | .read bytes => if r.call.pipe = id then bytes else []
    | _ => []

/-- The first `n` bytes of every write to a pipe that returned `Ok(n)`, in that order. -/
def accepted (id : PipeId) : List UInt8 :=
  s.log.flatMap fun r => match r.result with
    | .wrote n => if r.call.pipe = id then r.call.data.take n else []
    | _ => []

structure Streams (id : PipeId) (p : PipeBuffer) : Prop where
  valid : p.Valid
  stream : s.delivered id ++ p.contents = s.accepted id
  ended : ∀ r ∈ s.log, r.call.pipe = id → r.result = .read [] → p.writeClosed = true ∧ p.count = 0

structure Sound : Prop where
  runs : s.panicked = false
  streams : ∀ id p, s.pipes id = some p → s.Streams id p
  calls : ∀ tid c, (∃ cond, s.tasks tid = .entering c cond) ∨ s.tasks tid = .queued c ∨
    s.tasks tid = .asleep c → c.isInvalid = false

variable {s : PipeSystem} {tid : TaskId} {c : PipeCall}

theorem delivered_settle (o : Outcome) (id : PipeId) :
    (s.settle tid c o).delivered id = s.delivered id ++ if c.pipe = id then o.taken else [] := by
  cases o with
  | done result => cases result <;> simp [settle, delivered, Outcome.taken]
  | wait | panic => simp [settle, delivered, Outcome.taken]

theorem accepted_settle (o : Outcome) (id : PipeId) :
    (s.settle tid c o).accepted id =
      s.accepted id ++ if c.pipe = id then c.data.take o.given else [] := by
  cases o with
  | done result => cases result <;> simp [settle, accepted, Outcome.given]
  | wait | panic => simp [settle, accepted, Outcome.given]

theorem mem_log_settle {o : Outcome} {r : Returned} (h : r ∈ (s.settle tid c o).log) :
    r ∈ s.log ∨ r.call = c ∧ ∃ woken, o = .done r.result woken := by
  cases o with
  | done _ woken =>
    simp only [settle, mem_append, mem_singleton] at h
    obtain h | rfl := h
    · exact .inl h
    · exact .inr ⟨rfl, woken, rfl⟩
  | wait | panic => exact .inl h

theorem pipes_settle (o : Outcome) : (s.settle tid c o).pipes = s.pipes := by
  cases o <;> rfl

theorem Sound.settle (h : s.Sound) (pipes : PipeId → Option PipeBuffer) {o : Outcome}
    (hrun : o ≠ .panic) (hwait : o = .wait → c.isInvalid = false)
    (hothers : ∀ id, id ≠ c.pipe → pipes id = s.pipes id)
    (hpipe : ∀ p', pipes c.pipe = some p' →
      ∃ p, s.pipes c.pipe = some p ∧ Effect p c.data (o, p')) :
    ({ s with pipes := pipes }.settle tid c o).Sound := by
  refine ⟨?_, fun id p' hid => ?_, fun tid' c' hc' => ?_⟩
  · cases o with
    | done | wait => exact h.runs
    | panic => exact absurd rfl hrun
  · rw [pipes_settle] at hid
    by_cases hc : c.pipe = id
    · subst hc
      obtain ⟨p, hp, heffect⟩ := hpipe p' hid
      have hstream := h.streams _ p hp
      refine ⟨heffect.valid, ?_, fun r hr hid hread => ?_⟩
      · rw [delivered_settle, accepted_settle, if_pos rfl, if_pos rfl, append_assoc,
          heffect.stream, ← append_assoc]
        exact congrArg (· ++ c.data.take o.given) hstream.stream
      · refine heffect.ended ?_
        obtain hr | ⟨-, woken, hwoken⟩ := mem_log_settle hr
        · exact .inr (hstream.ended r hr hid hread)
        · exact .inl ⟨woken, by rw [hwoken, hread]⟩
    · have hstream := h.streams id p' (by rw [← hothers id (Ne.symm hc)]; exact hid)
      refine ⟨hstream.valid, ?_, fun r hr hid hread => ?_⟩
      · rw [delivered_settle, accepted_settle, if_neg hc, if_neg hc, append_nil, append_nil]
        exact hstream.stream
      · obtain hr | ⟨hcall, -⟩ := mem_log_settle hr
        · exact hstream.ended r hr hid hread
        · exact absurd (hcall ▸ hid) hc
  · by_cases htid : tid' = tid
    · subst htid
      cases o with
      | done => simp [PipeSystem.settle] at hc'
      | wait =>
        simp only [PipeSystem.settle, update_self, reduceCtorEq, or_false] at hc'
        obtain ⟨cond, hcond⟩ := hc'
        simp only [TaskPhase.entering.injEq] at hcond
        rw [← hcond.1]
        exact hwait rfl
      | panic => exact absurd rfl hrun
    · have htasks : ({ s with pipes := pipes }.settle tid c o).tasks tid' = s.tasks tid' := by
        cases o with
        | done | wait => exact update_of_ne htid _ _
        | panic => rfl
      rw [htasks] at hc'
      exact h.calls tid' c' hc'

theorem Sound.locked (h : s.Sound) (hc : c.isInvalid = false)
    {sec : PipeBuffer → Outcome × PipeBuffer} (hsec : ∀ p, p.Valid → Effect p c.data (sec p)) :
    (s.locked tid c sec).Sound := by
  rw [PipeSystem.locked]
  cases hp : s.pipes c.pipe with
  | none =>
    refine h.settle s.pipes (by simp) (by simp) (fun _ _ => rfl) fun p' hp' => ?_
    rw [hp] at hp'
    cases hp'
  | some p =>
    have heffect := hsec p (h.streams _ p hp).valid
    refine h.settle _ heffect.runs (fun _ => hc) (fun id hid => update_of_ne hid _ _)
      fun p' hp' => ⟨p, hp, ?_⟩
    rw [update_self, Option.some.injEq] at hp'
    rw [← hp']
    exact heffect

theorem Sound.congr {s' : PipeSystem} (h : s.Sound) (hpipes : s'.pipes = s.pipes)
    (hlog : s'.log = s.log) (hpanic : s'.panicked = s.panicked)
    (hcalls : ∀ tid c, (∃ cond, s'.tasks tid = .entering c cond) ∨ s'.tasks tid = .queued c ∨
      s'.tasks tid = .asleep c → c.isInvalid = false) : s'.Sound := by
  refine ⟨hpanic.trans h.runs, fun id p hid => ?_, hcalls⟩
  have hstream := h.streams id p (hpipes ▸ hid)
  refine ⟨hstream.valid, ?_, by rw [hlog]; exact hstream.ended⟩
  rw [delivered, accepted, hlog]
  exact hstream.stream

theorem Sound.update_tasks (h : s.Sound) {phase : TaskPhase}
    (hphase : ∀ c, (∃ cond, phase = .entering c cond) ∨ phase = .queued c ∨ phase = .asleep c →
      c.isInvalid = false) (tid' : TaskId) (c' : PipeCall)
    (hc' : (∃ cond, update s.tasks tid phase tid' = .entering c' cond) ∨
      update s.tasks tid phase tid' = .queued c' ∨
      update s.tasks tid phase tid' = .asleep c') : c'.isInvalid = false := by
  by_cases htid : tid' = tid
  · subst htid
    rw [update_self] at hc'
    exact hphase c' hc'
  · rw [update_of_ne htid] at hc'
    exact h.calls tid' c' hc'

theorem Sound.step (h : s.Sound) (ev : PipeEvent) : (s.step ev).Sound := by
  cases ev with
  | call tid =>
    simp only [PipeSystem.step]
    split
    · split_ifs with hc
      · exact h.settle s.pipes (by simp) (by simp) (fun _ _ => rfl) fun p hp =>
          ⟨p, hp, PipeBuffer.sameRing_refl.effect_error (h.streams _ p hp).valid⟩
      · exact h.locked (by simpa using hc) fun p hp =>
          PipeCall.effect_enter hp (by simpa using hc) tid
    · exact h
  | enqueue tid =>
    simp only [PipeSystem.step]
    split
    case h_1 c cond heq =>
      refine h.congr rfl rfl rfl (h.update_tasks fun c' hc' => ?_)
      simp only [reduceCtorEq, exists_false, TaskPhase.queued.injEq, false_or, or_false] at hc'
      rw [← hc']
      exact h.calls tid c (.inl ⟨cond, heq⟩)
    case h_2 => exact h
  | block tid =>
    simp only [PipeSystem.step]
    split
    case h_1 c heq =>
      refine h.congr rfl rfl rfl (h.update_tasks fun c' hc' => ?_)
      simp only [reduceCtorEq, exists_false, TaskPhase.asleep.injEq, false_or] at hc'
      rw [← hc']
      exact h.calls tid c (.inr (.inl heq))
    case h_2 => exact h
  | resume tid =>
    simp only [PipeSystem.step]
    split
    case h_1 c heq =>
      have hc := h.calls tid c (.inr (.inr heq))
      exact h.locked hc fun p hp => PipeCall.effect_resume hp hc tid
    case h_2 => exact h
  | wake =>
    simp only [PipeSystem.step]
    split
    case h_1 first rest heq =>
      exact h.congr rfl rfl rfl (h.update_tasks fun c' hc' => by simp at hc')
    case h_2 => exact h
  | tick =>
    exact h.congr rfl rfl rfl h.calls

theorem sound_start (sizes : PipeId → Option ℕ) : (start sizes).Sound := by
  refine ⟨rfl, fun id p hid => ?_, by simp [start]⟩
  obtain ⟨size, -, rfl⟩ := Option.map_eq_some_iff.mp hid
  refine ⟨PipeBuffer.valid_new size, ?_, by simp [start]⟩
  rw [PipeBuffer.contents_new]
  rfl

/-- **A pipe is a bounded stream of bytes.**  In every run, whatever the tasks do and however they
are scheduled, nothing is read out of bounds, and of every pipe: the bytes delivered, followed by
those in the ring, are the bytes accepted; the count does not exceed the capacity; and if a reader
has been told that this is the end, then the write end is closed and every byte has been
delivered. -/
theorem fifo_stream (sizes : PipeId → Option ℕ) (evs : List PipeEvent) :
    let s := exec step (start sizes) evs
    s.panicked = false ∧ ∀ id p, s.pipes id = some p →
      s.delivered id ++ ring p.buf p.head p.count = s.accepted id ∧
        p.count ≤ p.capacity ∧ p.head < p.buf.length ∧ p.tail < p.buf.length ∧
        ∀ r ∈ s.log, r.call.pipe = id → r.result = .read [] →
          p.writeClosed = true ∧ s.delivered id = s.accepted id := by
  intro s
  have hs : s.Sound := exec_invariant (sound_start sizes) fun _ ev h => h.step ev
  refine ⟨hs.runs, fun id p hid => ?_⟩
  have hp := hs.streams id p hid
  refine ⟨hp.stream, hp.valid.count, ?_, ?_, fun r hr hrid hread => ?_⟩
  · rw [hp.valid.length]
    exact hp.valid.head
  · rw [hp.valid.length, hp.valid.tail]
    exact Nat.mod_lt _ hp.valid.pos
  · obtain ⟨hclosed, hcount⟩ := hp.ended r hr hrid hread
    have hstream := hp.stream
    rw [PipeBuffer.contents, hcount, ring_zero, append_nil] at hstream
    exact ⟨hclosed, hstream⟩

end PipeSystem

end IonaOs.Process
