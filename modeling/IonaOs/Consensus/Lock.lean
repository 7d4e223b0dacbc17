import IonaOs.Consensus.Tally
import IonaOs.Consensus.Equivocation

/-!
# The lock
-/

namespace IonaOs

open Lib Sample Node List

variable {B : Type*} [BlockStore B] {rt : Runtime} {sg : Signer}

/-! ## Where the lock stands -/

def LockBound (n : Node B) : Prop :=
  ∀ r, n.state.lockedRound = some r → r.toNat ≤ n.state.round.toNat ∧
    (r.toNat = n.state.round.toNat → n.state.step = .precommit ∨ n.state.step = .commit)

variable {n : Node B}

omit [BlockStore B] in
theorem LockBound.initial (h : n.Initial) : LockBound n := by
  intro r hr
  rw [h.spec.2.1] at hr
  cases hr

omit [BlockStore B] in
theorem LockBound.lt (h : LockBound n) (hpre : n.state.step ≠ .precommit)
    (hcommit : n.state.step ≠ .commit) {r : Round} (hr : n.state.lockedRound = some r) :
    r.toNat < n.state.round.toNat := by
  obtain ⟨hle, heq⟩ := h r hr
  refine lt_of_le_of_ne hle fun h0 => ?_
  rcases heq h0 with hstep | hstep
  · exact hpre hstep
  · exact hcommit hstep

variable {b a : Node B}

theorem LockBound.move {D : Discipline} (hD : D.keepsLock) (hsane : Sane a) (h : LockBound a)
    (hmove : Move rt sg D a b) : LockBound b := by
  cases hmove with
  | quiet | stash | slash => exact h
  | prevote _ _ _ _ hlive _ hlock =>
    intro r hr
    have hlt := h.lt (hlock hD).1 (hsane.step_ne_commit hlive) hr
    exact ⟨hlt.le, fun h0 => absurd h0 hlt.ne⟩
  | record v =>
    obtain ⟨i, s, o, heq, -⟩ := recordVote_spec a v
    rw [heq]
    exact h
  | lock =>
    rintro r ⟨⟩
    exact ⟨le_rfl, fun _ => .inl rfl⟩
  | advance _ _ hmax =>
    intro r hr
    have hround := (round_advance hsane.round_lt hmax).1
    have hle := (h r hr).1
    simp only [ConsensusState.advanceRound]
    rw [hround]
    exact ⟨by omega, fun h0 => absurd h0 (by omega)⟩
  | commit _ _ _ _ _ _ _ hget hver =>
    simp only [commitBlock, hget, hver]
    intro r hr
    exact ⟨(h r hr).1, fun _ => .inr rfl⟩
  | nextHeight => rintro r ⟨⟩

/-! ## Locks are kept or overtaken -/

/-- A block other than `b` had a prevote quorum after round `r` and before `bound`. -/
def Overtaken (backed : Height → Round → Hash32 → Prop) (height : Height) (r : Round) (b : Hash32)
    (bound : ℕ) : Prop :=
  ∃ s c, r.toNat < s.toNat ∧ s.toNat < bound ∧ c ≠ b ∧ backed height s c

structure LockRule (backed locks prevotes : Height → Round → Hash32 → Prop) (n : Node B) :
    Prop where
  held : ∀ r b, locks n.state.height r b → ∃ r' b', n.state.lockedRound = some r' ∧
    n.state.lockedValue = some b' ∧ r.toNat ≤ r'.toNat ∧
    (b' ≠ b → Overtaken backed n.state.height r b (r'.toNat + 1))
  kept : ∀ height r b r' b', locks height r b → prevotes height r' b' → r.toNat < r'.toNat →
    b' ≠ b → Overtaken backed height r b r'.toNat

namespace LockRule

variable {backed locks prevotes locks' prevotes' : Height → Round → Hash32 → Prop} {a b : Node B}

section

variable (h : LockRule backed locks prevotes a)
include h

section

omit [BlockStore B]

theorem stay (hlocks : ∀ height r b, locks' height r b → locks height r b)
    (hprevotes : ∀ height r b, prevotes' height r b → prevotes height r b)
    (hheight : b.state.height = a.state.height) (hround : b.state.lockedRound = a.state.lockedRound)
    (hvalue : b.state.lockedValue = a.state.lockedValue) : LockRule backed locks' prevotes' b where
  held := by
    rw [hheight, hround, hvalue]
    exact fun r b hlock => h.held r b (hlocks _ r b hlock)
  kept := fun height r b r' b' hlock hprevote =>
    h.kept height r b r' b' (hlocks _ r b hlock) (hprevotes _ r' b' hprevote)

theorem prevote (hbound : LockBound a)
    (hpre : a.state.step ≠ .precommit) (hcommit : a.state.step ≠ .commit) {x : Option Hash32}
    (hx : ∀ b locked, x = some b → a.state.lockedValue = some locked → b = locked)
    (hlocks : ∀ height r b, locks' height r b → locks height r b)
    (hnew : ∀ height r b, prevotes' height r b → prevotes height r b ∨
      (height = a.state.height ∧ r = a.state.round ∧ x = some b))
    (hheight : b.state.height = a.state.height) (hround : b.state.lockedRound = a.state.lockedRound)
    (hvalue : b.state.lockedValue = a.state.lockedValue) :
    LockRule backed locks' prevotes' b where
  held := by
    rw [hheight, hround, hvalue]
    exact fun r b hlock => h.held r b (hlocks _ r b hlock)
  kept := by
    intro height r b r' b' hlock hprevote hlt hne
    rcases hnew height r' b' hprevote with hold | ⟨rfl, rfl, hb'⟩
    · exact h.kept height r b r' b' (hlocks _ r b hlock) hold hlt hne
    obtain ⟨s, locked, hs, hlocked, -, hover⟩ := h.held r b (hlocks _ r b hlock)
    have heq := hx b' locked hb' hlocked
    obtain ⟨t, c, hrt, hts, hcb, hc⟩ := hover (heq ▸ hne)
    -- The lock that took over is of an earlier round than the one being voted in.
    have hearlier := hbound.lt hpre hcommit hs
    exact ⟨t, c, hrt, by omega, hcb, hc⟩

theorem lock (hbound : LockBound a)
    (hpre : a.state.step ≠ .precommit) (hcommit : a.state.step ≠ .commit) {c : Hash32}
    (hback : backed a.state.height a.state.round c)
    (hnew : ∀ height r b, locks' height r b → locks height r b ∨
      (height = a.state.height ∧ r = a.state.round ∧ b = c ∧
        ∀ r' b', prevotes a.state.height r' b' → r'.toNat ≤ a.state.round.toNat))
    (hprevotes : ∀ height r b, prevotes' height r b → prevotes height r b)
    (hheight : b.state.height = a.state.height) (hround : b.state.lockedRound = some a.state.round)
    (hvalue : b.state.lockedValue = some c) : LockRule backed locks' prevotes' b where
  held := by
    rw [hheight, hround, hvalue]
    intro r b hlock
    refine ⟨_, _, rfl, rfl, ?_⟩
    rcases hnew _ r b hlock with hold | ⟨-, rfl, rfl, -⟩
    · obtain ⟨s, locked, hs, -, hle, -⟩ := h.held r b hold
      have hearlier := hbound.lt hpre hcommit hs
      exact ⟨by omega, fun hne => ⟨a.state.round, c, by omega, by omega, hne, hback⟩⟩
    · exact ⟨le_rfl, fun hne => absurd rfl hne⟩
  kept := by
    intro height r b r' b' hlock hprevote hlt hne
    rcases hnew height r b hlock with hold | ⟨rfl, rfl, -, hpast⟩
    · exact h.kept height r b r' b' hold (hprevotes _ r' b' hprevote) hlt hne
    · exact absurd (hpast r' b' (hprevotes _ r' b' hprevote)) (by omega)

end

end

end LockRule

/-! ## Recorded quorums -/

def Discipline.still : Discipline :=
  { Discipline.none with oneHeight := True, authentic := fun _ => False }

theorem Move.votes_eq (h : Move rt sg .still a b) : b.state.votes = a.state.votes := by
  cases h with
  | record _ _ hauth => exact hauth.elim
  | commit _ _ _ _ _ _ _ hget hver =>
    simp only [commitBlock, hget, hver]
    rfl
  | nextHeight _ hone => exact absurd trivial hone
  | _ => rfl

theorem votePower_handle_vote {v : Vote} (hacc : n.AcceptsVote rt v) (now : UInt64) (round : Round)
    (voteType : VoteType) (x : Option Hash32) :
    (handle rt sg n (.message (.vote v) now)).votePower round voteType x =
      (n.recordVote v).votePower round voteType x := by
  have hcall : handle rt sg n (.message (.vote v) now) =
      ((n.recordVote v).onQuorum rt sg v now).1 := by
    rw [handle, onMessage, hacc.onVote_eq]
  obtain ⟨-, hround, -, hdec, -⟩ := recordVote_frame n v
  have hmoves : Moves rt sg .still (n.recordVote v) ((n.recordVote v).onQuorum rt sg v now).1 :=
    onQuorum_moves False.elim _ (hdec.trans hacc.1) (hacc.spec.2.2.1.trans hround.symm)
      False.elim fun _ _ => trivial
  have hsame := hmoves.invariant
    (fun a b (ha : a.state.votes = (n.recordVote v).state.votes ∧ a.vset = (n.recordVote v).vset)
      hmove => ⟨hmove.votes_eq.trans ha.1, hmove.vset_eq.trans ha.2⟩) ⟨rfl, rfl⟩
  rw [hcall, votePower, votePower, ConsensusState.votesAt, ConsensusState.votesAt, hsame.1, hsame.2]

/-! ## One engine at one height -/

def Discipline.keeping (oneHeight : Prop) (backed : Height → Round → Hash32 → Prop) : Discipline :=
  { Discipline.none with keepsLock := True, oneHeight := oneHeight, backed := backed }

theorem eventOk_keeping {oneHeight : Prop} {backed : Height → Round → Hash32 → Prop}
    {e : Event} (hkeep : n.KeepsLock rt sg e) (hone : oneHeight → ∀ now, e ≠ .nextHeight now)
    (hback : ∀ v now b, e = .message (.vote v) now → n.AcceptsVote rt v →
      (n.recordVote v).TallyReaches n.state.round .prevote (some b) →
      backed n.state.height n.state.round b) :
    EventOk rt sg (.keeping oneHeight backed) n e where
  votesOnce := False.elim
  keepsLock _ := hkeep
  linked := False.elim
  genuine := False.elim
  oneHeight := hone
  authentic _ _ _ _ := trivial
  backed := hback

/-- The prevotes for blocks among the votes cast after the first `k`, all at one height. -/
def Node.prevotesAfter (k : ℕ) (height₀ : Height) (n : Node B) (height : Height) (round : Round)
    (b : Hash32) : Prop :=
  height = height₀ ∧
    ∃ v ∈ n.castVotes.drop k, v.voteType = .prevote ∧ v.round = round ∧ v.blockId = some b

omit [BlockStore B] in
theorem Node.prevotesAfter_casts {k : ℕ} {x : Option Hash32} {o : List Effect}
    (hk : k ≤ a.castVotes.length) (hout : b.outbox = a.outbox ++ o) (ho : Casts sg a .prevote x o)
    (height : Height) (round : Round) (c : Hash32)
    (h : b.prevotesAfter k a.state.height height round c) :
    a.prevotesAfter k a.state.height height round c ∨
      (height = a.state.height ∧ round = a.state.round ∧ x = some c) := by
  obtain ⟨rfl, v, hv, ht, rfl, hid⟩ := h
  rcases castVotes_casts hout ho with heq | ⟨heq, -⟩
  · exact .inl ⟨rfl, v, heq ▸ hv, ht, rfl, hid⟩
  rw [heq, drop_append_of_le_length hk, mem_append, mem_singleton] at hv
  rcases hv with hv | rfl
  · exact .inl ⟨rfl, v, hv, ht, rfl, hid⟩
  · exact .inr ⟨rfl, rfl, hid⟩

omit [BlockStore B] in
theorem Node.prevotesAfter_of_append {k : ℕ} {height₀ : Height} {new : List Vote}
    (hk : k ≤ a.castVotes.length) (hcast : b.castVotes = a.castVotes ++ new)
    (hnew : ∀ v ∈ new, v.voteType ≠ .prevote) (height : Height) (round : Round) (c : Hash32)
    (h : b.prevotesAfter k height₀ height round c) : a.prevotesAfter k height₀ height round c := by
  obtain ⟨hheight, v, hv, ht, hrest⟩ := h
  rw [hcast, drop_append_of_le_length hk, mem_append] at hv
  rcases hv with hv | hv
  · exact ⟨hheight, v, hv, ht, hrest⟩
  · exact absurd ht (hnew v hv)

/-- An engine at a height, with a lock it has had there since it had cast `k` votes. -/
structure Keeping (backed : Height → Round → Hash32 → Prop) (k : ℕ) (height : Height) (r : Round)
    (X : Hash32) (n : Node B) : Prop where
  sane : Sane n
  bound : LockBound n
  height_eq : n.state.height = height
  log : k ≤ n.castVotes.length
  rule : LockRule backed (fun h s b => h = height ∧ s = r ∧ b = X) (n.prevotesAfter k height) n

namespace Keeping

variable {backed : Height → Round → Hash32 → Prop} {k : ℕ} {height : Height} {r : Round}
  {X : Hash32} {a b : Node B}

section

omit [BlockStore B]

theorem start (hsane : Sane n) (hbound : LockBound n) (hX : n.state.lockedValue = some X)
    (hr : n.state.lockedRound = some r) :
    Keeping backed n.castVotes.length n.state.height r X n := by
  refine ⟨hsane, hbound, rfl, le_rfl, ?_, ?_⟩
  · rintro s b ⟨-, rfl, rfl⟩
    exact ⟨s, b, hr, hX, le_rfl, fun hne => absurd rfl hne⟩
  · rintro height s b r' b' - ⟨-, w, hw, -⟩
    simp at hw

theorem stay (h : Keeping backed k height r X a) (hsane : Sane b) (hbound : LockBound b)
    (hcast : b.castVotes = a.castVotes) (hheight : b.state.height = a.state.height)
    (hround : b.state.lockedRound = a.state.lockedRound)
    (hvalue : b.state.lockedValue = a.state.lockedValue) : Keeping backed k height r X b where
  sane := hsane
  bound := hbound
  height_eq := hheight.trans h.height_eq
  log := by rw [hcast]; exact h.log
  rule := h.rule.stay (fun _ _ _ => id)
    (prevotesAfter_of_append h.log (hcast.trans (append_nil _).symm) (by simp))
    hheight hround hvalue

theorem log_append (h : Keeping backed k height r X a) {o : List Effect}
    (hout : b.outbox = a.outbox ++ o) : k ≤ b.castVotes.length := by
  rw [castVotes_append hout, length_append]
  exact h.log.trans (Nat.le_add_right _ _)

end

theorem move (h : Keeping backed k height r X a) (hmove : Move rt sg (.keeping True backed) a b) :
    Keeping backed k height r X b := by
  have hsane := h.sane.move hmove
  have hbound := h.bound.move trivial h.sane hmove
  obtain rfl := h.height_eq
  cases hmove with
  | quiet _ _ _ _ _ _ ho =>
    exact h.stay hsane hbound (castVotes_quiet rfl fun e he => (ho e he).1) rfl rfl rfl
  | stash | advance | slash => exact h.stay hsane hbound rfl rfl rfl rfl
  | prevote _ _ _ _ hlive _ hlock _ ho =>
    obtain ⟨hpre, hx⟩ := hlock trivial
    refine ⟨hsane, hbound, h.height_eq, h.log_append rfl, ?_⟩
    exact h.rule.prevote h.bound hpre (h.sane.step_ne_commit hlive) hx (fun _ _ _ => id)
      (prevotesAfter_casts h.log rfl ho) rfl rfl rfl
  | record v =>
    have hcast := a.castVotes_recordVote v
    obtain ⟨i, s, o, heq, -⟩ := recordVote_spec a v
    rw [heq] at hcast hsane hbound ⊢
    exact h.stay hsane hbound hcast rfl rfl rfl
  | lock _ _ _ _ hstep _ _ hback _ ho =>
    refine ⟨hsane, hbound, h.height_eq, h.log_append rfl, ?_⟩
    refine h.rule.lock h.bound (by simp [hstep]) (by simp [hstep]) hback (fun _ _ _ => .inl)
      (prevotesAfter_of_append h.log (castVotes_append rfl) ?_) rfl rfl rfl
    rcases ho with rfl | ⟨rfl, -⟩ <;> simp [Effect.vote?, signVote]
  | commit b _ _ _ _ _ _ hget hver =>
    have hcast := a.castVotes_commitBlock rt a.state.round b
    simp only [commitBlock, hget, hver] at hcast hsane hbound ⊢
    exact h.stay hsane hbound hcast rfl rfl rfl
  | nextHeight _ hone => exact absurd trivial hone

end Keeping

variable {n : Node B}

theorem lockBound_of_run (hinit : n.Initial) {es : List Event}
    (hkeep : Along (handle rt sg) (fun m e => m.KeepsLock rt sg e) n es) :
    Sane (exec (handle rt sg) n es) ∧ LockBound (exec (handle rt sg) n es) := by
  refine invariant_of_moves (D := .keeping False fun _ _ _ => True)
    (I := fun m => Sane m ∧ LockBound m) False.elim ?_
    (hkeep.mono fun _ _ h => eventOk_keeping h False.elim fun _ _ _ _ _ _ => trivial)
    ⟨Sane.initial hinit, LockBound.initial hinit⟩
  rintro a b ⟨hsane, hbound⟩ hmove
  exact ⟨hsane.move hmove, hbound.move trivial hsane hmove⟩

def QuorumRecorded (rt : Runtime) (sg : Signer) (n : Node B) (es : List Event) (_ : Height)
    (round : Round) (b : Hash32) : Prop :=
  ∃ pre m, pre <+: es ∧ m = exec (handle rt sg) n pre ∧
    m.quorum.toNat ≤ m.votePower round .prevote (some b)

theorem along_keeping {es : List Event}
    (hkeep : Along (handle rt sg) (fun m e => m.KeepsLock rt sg e) n es)
    (hone : ∀ e ∈ es, ∀ now, e ≠ .nextHeight now) :
    Along (handle rt sg) (EventOk rt sg (.keeping True (QuorumRecorded rt sg n es))) n es := by
  rw [along_iff_forall_split] at hkeep ⊢
  intro pre e post heq
  refine eventOk_keeping (hkeep pre e post heq) (fun _ => hone e (by simp [heq])) ?_
  rintro v now b rfl hacc hq
  refine ⟨pre ++ [.message (.vote v) now], _, ⟨post, by simp [heq]⟩, rfl, ?_⟩
  rw [exec_append, exec_cons, exec_nil, votePower_handle_vote hacc, quorum, handle_vset]
  have hle := hq.quorum_le
  rwa [quorum, (recordVote_frame _ v).2.2.2.2.1] at hle

/-- **Lock discipline.**  In a run whose events do not lead the engine around its lock, an engine
that is locked on `X` since round `r` prevotes, in the later rounds of the height, nil or `X`,
unless a quorum of prevotes for another block was on record, for a round after `r` and before
the prevote, at some point since. -/
theorem prevote_keeps_lock {n₀ n : Node B} (hinit : n₀.Initial) {es₁ es₂ : List Event}
    (hn : n = exec (handle rt sg) n₀ es₁)
    (hkeep : Along (handle rt sg) (fun m e => m.KeepsLock rt sg e) n₀ (es₁ ++ es₂))
    (hone : ∀ e ∈ es₂, ∀ now, e ≠ .nextHeight now) {X : Hash32} {r : Round}
    (hX : n.state.lockedValue = some X) (hr : n.state.lockedRound = some r) {v : Vote}
    (hv : v ∈ (exec (handle rt sg) n es₂).castVotes.drop n.castVotes.length)
    (htype : v.voteType = .prevote) (hlater : r.toNat < v.round.toNat) :
    v.blockId = none ∨ v.blockId = some X ∨
      ∃ es m s Z, es <+: es₂ ∧ m = exec (handle rt sg) n es ∧ r.toNat < s.toNat ∧
        s.toNat < v.round.toNat ∧ Z ≠ X ∧ m.quorum.toNat ≤ m.votePower s .prevote (some Z) := by
  obtain ⟨hkeep₁, hkeep₂⟩ := along_append.mp hkeep
  obtain ⟨hsane, hbound⟩ := lockBound_of_run hinit hkeep₁
  rw [← hn] at hkeep₂ hsane hbound
  have hend := invariant_of_moves False.elim (fun _ _ h hmove => h.move hmove)
    (along_keeping hkeep₂ hone) (Keeping.start hsane hbound hX hr)
  cases hid : v.blockId with
  | none => exact .inl rfl
  | some b =>
    refine .inr ?_
    by_cases hb : b = X
    · exact .inl (by rw [hb])
    · obtain ⟨s, c, hrs, hsv, hcX, es, m, hpre, hm, hq⟩ := hend.rule.kept n.state.height r X
        v.round b ⟨rfl, rfl, rfl⟩ ⟨rfl, v, hv, htype, rfl, hid⟩ hlater hb
      exact .inr ⟨es, m, s, c, hpre, hm, hrs, hsv, hcX, hq⟩

/-- A validator gets the proposal of `[1]` and the prevotes of `[1]` and `[2]`. -/
def lockingRun : List Event :=
  [propose (proposal 1 0 (firstBlock 1 0) none),
    deliver (prevote 1 1 0), deliver (prevote 2 1 0)]

/-- Validator `[3]`, locked in round 0, prevotes nil when `[2]` proposes another block in round
1. -/
theorem prevote_keeps_lock_lockingRun : ∃ n : Node Store,
    n = exec (handle runtime (signer 3)) (node none) lockingRun ∧
    ((vote 3 .prevote 1 none).blockId = none ∨
      (vote 3 .prevote 1 none).blockId = some (blockId (firstBlock 1 0)) ∨
      ∃ es m s Z, es <+: [wait 1000,
          propose (proposal 2 1 (firstBlock 2 1) (some 0))] ∧
        m = exec (handle runtime (signer 3)) n es ∧ (0 : Round).toNat < s.toNat ∧
        s.toNat < (1 : Round).toNat ∧ Z ≠ blockId (firstBlock 1 0) ∧
        m.quorum.toNat ≤ m.votePower s .prevote (some Z)) := by
  have hkeep : Along (handle runtime (signer 3))
      (fun m e => m.KeepsLock runtime (signer 3) e) (node none)
      (lockingRun ++ [wait 1000, propose (proposal 2 1 (firstBlock 2 1) (some 0))]) :=
    ⟨fun _ => by decide +kernel, trivial, trivial, fun _ hstep => absurd hstep (by decide +kernel),
      fun _ => by decide +kernel, trivial⟩
  exact ⟨_, rfl, prevote_keeps_lock (node_initial none) rfl hkeep
    (by simp [wait, propose]) (by decide +kernel) (by decide +kernel)
    (by decide +kernel) (by decide +kernel) (by decide +kernel)⟩

omit [BlockStore B] in
theorem Node.votePower_of_notMem {round : Round} (h : round ∉ n.state.votes) (voteType : VoteType)
    (x : Option Hash32) : n.votePower round voteType x = 0 := by
  have hempty : n.state.votesAt round voteType = ∅ := by
    simp [ConsensusState.votesAt, Std.ExtTreeMap.getElem?_eq_none h]
  rw [votePower, hempty]
  rfl

/-- Validator `[2]`, locked in round 0 on the block of `[1]`, proposes a block of its own in round
1 and prevotes it, with no prevote of a later round on record. -/
theorem ownProposal_breaks_lock : ∃ n : Node Store,
    n = exec (handle runtime (signer 2)) (node none) lockingRun ∧
    n.state.lockedValue = some (blockId (firstBlock 1 0)) ∧
    n.state.lockedRound = some 0 ∧
    prevote 2 2 1 ∈ (exec (handle runtime (signer 2)) n
      [wait 1000, wait 1]).castVotes.drop n.castVotes.length ∧
    (prevote 2 2 1).blockId ≠ none ∧
    (prevote 2 2 1).blockId ≠ some (blockId (firstBlock 1 0)) ∧
    ∀ es, es <+: [wait 1000, wait 1] → ∀ s Z, (0 : Round).toNat < s.toNat →
      (exec (handle runtime (signer 2)) n es).votePower s .prevote (some Z) = 0 := by
  refine ⟨_, rfl, by decide +kernel, by decide +kernel, by decide +kernel, by decide +kernel,
    by decide +kernel, ?_⟩
  intro es hes s Z hs
  apply votePower_of_notMem
  rw [← Std.ExtTreeMap.mem_keys]
  have hkeys : (exec (handle runtime (signer 2)) (exec (handle runtime
      (signer 2)) (node none) lockingRun) es).state.votes.keys = [0] := by
    rw [← mem_inits] at hes
    simp only [inits, map_cons, map_nil, mem_cons, not_mem_nil, or_false] at hes
    rcases hes with rfl | rfl | rfl <;> decide +kernel
  rw [hkeys, mem_singleton]
  rintro rfl
  exact absurd hs (by decide)

end IonaOs
