import IonaOs.Consensus.Moves
import IonaOs.Consensus.Sample

/-!
# Steps and finality
-/

namespace IonaOs

open Lib Sample Node

variable {B : Type*} [BlockStore B] {rt : Runtime} {sg : Signer}

/-! ## A sane engine -/

/-- The step is `Commit` exactly when there is a decision, and the round is a legal one. -/
structure Sane (n : Node B) : Prop where
  commit_iff : n.state.step = .commit ↔ n.state.decided ≠ none
  round_lt : n.state.round.toNat < n.cfg.maxRounds.toNat

variable {n : Node B}

omit [BlockStore B] in
theorem Sane.initial (h : n.Initial) : Sane n := by
  obtain ⟨-, hstate, hval⟩ := h.spec
  refine ⟨by rw [hstate]; simp [ConsensusState.new], ?_⟩
  have hmax : n.cfg.maxRounds ≠ 0 := by
    intro h0
    simp only [Config.validate, h0, if_true] at hval
    repeat' split at hval
    all_goals cases hval
  have hpos : n.cfg.maxRounds.toNat ≠ 0 := fun h0 => hmax (UInt32.toNat_inj.mp h0)
  rw [hstate]
  exact Nat.pos_of_ne_zero hpos

theorem round_advance {round maxRounds : UInt32} (hlt : round.toNat < maxRounds.toNat)
    (hmax : ¬ maxRounds ≤ round + 1) :
    (if round.toNat + 1 < 2 ^ 32 then round + 1 else round).toNat = round.toNat + 1 ∧
      round.toNat + 1 < maxRounds.toNat := by
  have hbound := maxRounds.toNat_lt
  have hsucc : (round + 1).toNat = round.toNat + 1 := by
    rw [UInt32.toNat_add]
    exact Nat.mod_eq_of_lt (by simp; omega)
  rw [UInt32.not_le, UInt32.lt_iff_toNat_lt, hsucc] at hmax
  rw [if_pos (by omega)]
  exact ⟨hsucc, hmax⟩

omit [BlockStore B] in
theorem Sane.step_ne_commit (h : Sane n) (hlive : n.state.decided = none ∨ n.state.step ≠ .commit) :
    n.state.step ≠ .commit := by
  rcases hlive with hdec | hstep
  · exact fun hc => h.commit_iff.mp hc hdec
  · exact hstep

theorem Sane.move {D : Discipline} {a b : Node B} (h : Sane a) (hmove : Move rt sg D a b) :
    Sane b := by
  cases hmove with
  | quiet | stash | slash => exact ⟨h.commit_iff, h.round_lt⟩
  | prevote x t g o hlive =>
    have hdec : a.state.decided = none := by
      by_contra hne
      exact h.step_ne_commit hlive (h.commit_iff.mpr hne)
    exact ⟨by simp [hdec], h.round_lt⟩
  | record v =>
    obtain ⟨i, s, o, heq, -⟩ := recordVote_spec a v
    rw [heq]
    exact ⟨h.commit_iff, h.round_lt⟩
  | lock b g o hdec => exact ⟨by simp [hdec], h.round_lt⟩
  | advance hlive _ hmax =>
    obtain ⟨hround, hlt⟩ := round_advance h.round_lt hmax
    refine ⟨by simp [ConsensusState.advanceRound, hlive], ?_⟩
    rw [ConsensusState.advanceRound, hround]
    exact hlt
  | commit _ _ _ _ _ _ _ hget hver =>
    simp only [commitBlock, hget, hver]
    exact ⟨by simp [send], h.round_lt⟩
  | nextHeight =>
    refine ⟨by simp [ConsensusState.new], ?_⟩
    exact Nat.lt_of_le_of_lt (Nat.zero_le _) h.round_lt

theorem Reachable.sane (h : Reachable rt sg n) : Sane n :=
  h.invariant (fun _ => Sane.initial) fun _ _ ha hmove => ha.move hmove

/-! ## Finality -/

structure Frozen (a b : Node B) : Prop where
  decided : b.state.decided = a.state.decided
  height : b.state.height = a.state.height
  round : b.state.round = a.state.round
  step : b.state.step = a.state.step
  appState : b.appState = a.appState
  prevBlockId : b.prevBlockId = a.prevBlockId
  baseFeePerGas : b.baseFeePerGas = a.baseFeePerGas
  castVotes : b.castVotes = a.castVotes

omit [BlockStore B] in
theorem Frozen.refl (a : Node B) : Frozen a a := ⟨rfl, rfl, rfl, rfl, rfl, rfl, rfl, rfl⟩

omit [BlockStore B] in
theorem Frozen.trans {a b c : Node B} (h : Frozen a b) (h' : Frozen b c) : Frozen a c :=
  ⟨h'.decided.trans h.decided, h'.height.trans h.height, h'.round.trans h.round,
    h'.step.trans h.step, h'.appState.trans h.appState, h'.prevBlockId.trans h.prevBlockId,
    h'.baseFeePerGas.trans h.baseFeePerGas, h'.castVotes.trans h.castVotes⟩

theorem handle_frozen (hdec : n.state.decided ≠ none) (hstep : n.state.step = .commit) {e : Event}
    (he : ∀ now, e ≠ .nextHeight now) : Frozen n (handle rt sg n e) := by
  have hsome : n.state.decided.isSome = true := Option.isSome_iff_ne_none.mpr hdec
  cases e with
  | tick =>
    simp only [handle, tick, hsome, if_true]
    exact .refl n
  | message msg =>
    cases msg with
    | proposal =>
      simp only [handle, onMessage, onProposal, hsome, if_true]
      exact .refl n
    | vote =>
      simp only [handle, onMessage, onVote, hsome, if_true]
      exact .refl n
    | evidence => exact ⟨rfl, rfl, rfl, rfl, rfl, rfl, rfl, rfl⟩
  | blockReceived block =>
    -- The only vote this handler can cast is one of the prevote step.
    have hnot : ((n.put block).holdBlock block).state.step ≠ .prevote := by
      rw [show ((n.put block).holdBlock block).state.step = .commit from hstep]
      simp
    simp only [handle, onBlockReceived, if_neg hnot]
    repeat' split
    all_goals exact ⟨rfl, rfl, rfl, rfl, rfl, rfl, rfl, rfl⟩
  | nextHeight now => exact absurd rfl (he now)

/-- **Finality.**  Once there is a decision, calls other than `next_height`, in any number and
order, leave the frame of the engine alone; and `next_height` starts a height with no votes, no
lock and no decision. -/
theorem finality_frame {n : Node B} (hreach : Reachable rt sg n) (hdec : n.state.decided ≠ none)
    (es : List Event) (hes : ∀ e ∈ es, ∀ now, e ≠ .nextHeight now) :
    Frozen n (exec (handle rt sg) n es) ∧
    ∀ now, ∃ next, next = handle rt sg (exec (handle rt sg) n es) (.nextHeight now) ∧
      next.state.height = n.state.height + 1 ∧ next.state.round = 0 ∧
      next.state.step = .propose ∧ next.state.votes = ∅ ∧ next.state.lockedRound = none ∧
      next.state.lockedValue = none ∧ next.state.decided = none := by
  have hstep : n.state.step = .commit := hreach.sane.commit_iff.mpr hdec
  have hframe : Frozen n (exec (handle rt sg) n es) := by
    clear hreach
    induction es generalizing n with
    | nil => exact .refl n
    | cons e _ ih =>
      have hone : Frozen n (handle rt sg n e) := handle_frozen hdec hstep (hes e List.mem_cons_self)
      exact hone.trans (ih (by rw [hone.decided]; exact hdec)
        (fun e he => hes e (List.mem_cons_of_mem _ he)) (hone.step.trans hstep))
  refine ⟨hframe, fun now => ⟨_, rfl, ?_⟩⟩
  rw [← hframe.height]
  generalize exec (handle rt sg) n es = m
  simp only [handle, nextHeight]
  rcases maybePropose_spec rt sg
      { m with state := ConsensusState.new (m.state.height + 1), stepElapsedMs := 0 }
      (fun _ => []) now with heq | ⟨block, p, pb, g, o, -, -, -, -, -, heq⟩ <;>
    rw [heq] <;> exact ⟨rfl, rfl, rfl, rfl, rfl, rfl, rfl⟩

/-- A run of validator `[1]` that proposes, and gets the votes of `[1]` and `[2]`. -/
def decidingRun : List Event :=
  [wait 1,
    deliver (prevote 1 1 0), deliver (prevote 2 1 0),
    deliver (precommit 1 1 0), deliver (precommit 2 1 0)]

theorem finality_frame_decidingRun : ∃ n : Node Store,
    n = exec (handle runtime (signer 1)) (node none) decidingRun ∧
    n.state.decided ≠ none ∧
    Frozen n (exec (handle runtime (signer 1)) n
      [wait 500, deliver (vote 3 .precommit 0 none)]) :=
  ⟨_, rfl, by decide +kernel, (finality_frame ⟨node none, decidingRun,
    node_initial none, rfl⟩ (by decide +kernel) _ (by simp [wait, deliver])).1⟩

/-! ## The order of the steps -/

def SameSlot (a b : Node B) : Prop :=
  b.state.height = a.state.height ∧ b.state.round = a.state.round

def StepForward (rt : Runtime) (sg : Signer) (n : Node B) (e : Event) : Prop :=
  SameSlot n (handle rt sg n e) → n.state.step.rank ≤ (handle rt sg n e).state.step.rank

def NoLateProposal (rt : Runtime) (n : Node B) : Event → Prop
  | .message (.proposal p) _ => n.Accepts rt p → n.state.step ≠ .precommit
  | _ => True

namespace Node

section

omit [BlockStore B]

@[simp] theorem state_broadcastVote (n : Node B) (voteType : VoteType) (x : Option Hash32) :
    (n.broadcastVote rt sg voteType x).state = n.state := by
  obtain ⟨g, o, heq, -⟩ := broadcastVote_spec rt sg n voteType x
  rw [heq]

@[simp] theorem state_enterPrevote (n : Node B) (x : Option Hash32) :
    (n.enterPrevote rt sg x).state = { n.state with step := .prevote } := by
  simp [enterPrevote]

@[simp] theorem state_lockAndPrecommit (n : Node B) (b : Hash32) :
    (n.lockAndPrecommit rt sg b).state = { n.state with
      validRound := some n.state.round, validValue := some b
      lockedRound := some n.state.round, lockedValue := some b, step := .precommit } := by
  simp [lockAndPrecommit]

end

variable (rt sg) in
theorem state_maybePropose (n : Node B) (drain : ℕ → List Tx) (now : UInt64) :
    ∃ p pb, (n.maybePropose rt sg drain now).state =
      { n.state with proposal := p, proposalBlock := pb } := by
  rcases maybePropose_spec rt sg n drain now with heq | ⟨block, p, pb, g, o, -, -, -, -, -, heq⟩
  · exact ⟨_, _, by rw [heq]⟩
  · exact ⟨p, pb, by rw [heq]⟩

theorem advanceRound_slot (h : Sane n) (now : UInt64) :
    n.advanceRound rt sg now = n ∨ ¬ SameSlot n (n.advanceRound rt sg now) := by
  rw [advanceRound]
  split
  · exact .inl rfl
  rename_i hmax
  refine .inr ?_
  rintro ⟨-, hround⟩
  obtain ⟨p, pb, hstate⟩ := state_maybePropose rt sg
    { n with state := n.state.advanceRound, stepElapsedMs := 0 } (fun _ => []) now
  rw [hstate] at hround
  have hsucc := (round_advance h.round_lt hmax).1
  simp only [ConsensusState.advanceRound] at hround
  rw [hround] at hsucc
  omega

variable (rt sg) in
theorem considerProposal_slot (n : Node B) (p : Proposal) :
    (n.considerProposal rt sg p).state.height = n.state.height ∧
      (n.considerProposal rt sg p).state.round = n.state.round ∧
      (n.considerProposal rt sg p).state.step = .prevote := by
  rw [considerProposal]
  repeat' split
  all_goals simp [send]

variable (rt) in
theorem commitBlock_step (n : Node B) (round : Round) (b : Hash32) :
    (n.commitBlock rt round b).1.state.step = n.state.step ∨
      (n.commitBlock rt round b).1.state.step = .commit := by
  simp only [commitBlock]
  split
  · exact .inl rfl
  · split
    · exact .inl rfl
    · exact .inr rfl

theorem storeCarried_state (n : Node B) (p : Proposal) : (n.storeCarried p).state = n.state := by
  rw [storeCarried]
  split <;> rfl

end Node

theorem advanceRound_forward {m : Node B} (h : Sane m) (hslot : SameSlot n m)
    (hstep : m.state.step = n.state.step) (now : UInt64)
    (hsame : SameSlot n (m.advanceRound rt sg now)) :
    n.state.step.rank ≤ (m.advanceRound rt sg now).state.step.rank := by
  rcases advanceRound_slot h now with heq | hnot
  · rw [heq, hstep]
  · exact absurd ⟨hsame.1.trans hslot.1.symm, hsame.2.trans hslot.2.symm⟩ hnot

theorem tick_forward (h : Sane n) (dtMs : UInt64) (drain : ℕ → List Tx) (now : UInt64) :
    StepForward rt sg n (.tick dtMs drain now) := by
  have hsane : Sane (n.elapse dtMs) := ⟨h.commit_iff, h.round_lt⟩
  simp only [StepForward, handle, tick]
  split
  · exact fun _ => le_rfl
  split
  · rename_i hstep
    rw [show n.state.step = .propose from hstep]
    exact fun _ => Nat.zero_le _
  · split
    · exact advanceRound_forward hsane ⟨rfl, rfl⟩ rfl now
    · exact fun _ => le_rfl
  · split
    · exact advanceRound_forward hsane ⟨rfl, rfl⟩ rfl now
    · exact fun _ => le_rfl
  · exact fun _ => le_rfl

theorem onProposal_forward_iff (h : Sane n) (p : Proposal) (now : UInt64) :
    StepForward rt sg n (.message (.proposal p) now) ↔
      (n.Accepts rt p → n.state.step ≠ .precommit) := by
  simp only [StepForward, handle, onMessage, onProposal, Accepts]
  cases hdec : n.state.decided with
  | some => simp
  | none =>
    have hnot : n.state.step ≠ .commit := fun hc => h.commit_iff.mp hc hdec
    cases hver : n.verifyProposal rt p with
    | error => simp
    | ok =>
      obtain ⟨hh, hr, hs⟩ := considerProposal_slot rt sg (n.storeCarried p) p
      rw [storeCarried_state] at hh hr
      have hslot : SameSlot n ((n.storeCarried p).considerProposal rt sg p) := ⟨hh, hr⟩
      simp only [Option.isSome_none, Bool.false_eq_true, if_false, hslot, true_implies, hs,
        and_self]
      revert hnot
      cases n.state.step <;> simp [Step.rank]

theorem onVote_forward (h : Sane n) (v : Vote) (now : UInt64) :
    StepForward rt sg n (.message (.vote v) now) := by
  simp only [StepForward, handle, onMessage]
  by_cases hacc : n.AcceptsVote rt v
  swap
  · rw [onVote_of_not_accepts hacc]
    exact fun _ => le_rfl
  rw [hacc.onVote_eq]
  obtain ⟨hstep, hround, hheight, -⟩ := recordVote_frame n v
  have hrec : Move rt sg .none n (n.recordVote v) := .record n v hacc trivial False.elim
  have houtcome := onQuorum_outcome rt sg (n.recordVote v) v now
  generalize (n.recordVote v).onQuorum rt sg v now = res at houtcome
  cases houtcome with
  | lock _ _ hprevote =>
    intro _
    rw [← hstep, hprevote]
    simp [Step.rank]
  | commit b _ hprecommit =>
    intro _
    rcases commitBlock_step rt (n.recordVote v) v.round b with hs | hs
    · rw [hs, hstep]
    · rw [hs, ← hstep, hprecommit]
      simp [Step.rank]
  | advance => exact advanceRound_forward (h.move hrec) ⟨hheight, hround⟩ hstep now
  | wait => exact fun _ => hstep ▸ le_rfl

theorem stepForward_iff (h : Sane n) (e : Event) :
    StepForward rt sg n e ↔ NoLateProposal rt n e := by
  cases e with
  | tick dtMs drain now => exact iff_of_true (tick_forward h dtMs drain now) trivial
  | message msg now =>
    cases msg with
    | proposal p => exact onProposal_forward_iff h p now
    | vote v => exact iff_of_true (onVote_forward h v now) trivial
    | evidence => exact iff_of_true (fun _ => le_rfl) trivial
  | blockReceived =>
    refine iff_of_true ?_ trivial
    simp only [StepForward, handle, onBlockReceived]
    repeat' split
    all_goals intro _; simp [put, holdBlock]
  | nextHeight now =>
    refine iff_of_true ?_ trivial
    rintro ⟨hheight, -⟩
    obtain ⟨p, pb, hstate⟩ := state_maybePropose rt sg
      { n with state := ConsensusState.new (n.state.height + 1), stepElapsedMs := 0 }
      (fun _ => []) now
    rw [handle, nextHeight, hstate] at hheight
    simp [ConsensusState.new] at hheight

/-- **Step progress.**  In a run of an engine the step of a round never moves backwards exactly
when no call of the run delivers a proposal that is accepted in the precommit step. -/
theorem step_forward_iff {n : Node B} (hinit : n.Initial) (es : List Event) :
    Along (handle rt sg) (StepForward rt sg) n es ↔
      Along (handle rt sg) (NoLateProposal rt) n es := by
  have hsane := Sane.initial hinit
  clear hinit
  induction es generalizing n with
  | nil => simp
  | cons e _ ih =>
    have hnext : Sane (handle rt sg n e) :=
      (handle_moves False.elim (eventOk_none n e)).invariant (fun _ _ ha hm => ha.move hm) hsane
    exact and_congr (stepForward_iff hsane e) (ih hnext)

theorem step_forward_iff_decidingRun :
    Along (handle runtime (signer 1))
      (StepForward runtime (signer 1)) (node none) decidingRun :=
  (step_forward_iff (node_initial none) decidingRun).mpr (by simp [decidingRun,
    wait, deliver, NoLateProposal])

/-- Validator `[2]` gets the proposal of `[1]`, the prevotes of `[1]` and `[2]`, and the same
proposal once more. -/
def replayedProposal : List Event :=
  [propose (proposal 1 0 (firstBlock 1 0) none),
    deliver (prevote 1 1 0), deliver (prevote 2 1 0),
    propose (proposal 1 0 (firstBlock 1 0) none)]

/-- A replayed proposal takes an engine that has precommitted back to the prevote step. -/
theorem replayedProposal_back : (node none).Initial ∧
    ¬ Along (handle runtime (signer 2))
      (StepForward runtime (signer 2)) (node none) replayedProposal := by
  refine ⟨node_initial none, fun h => ?_⟩
  have hlast := h.2.2.2.1
  exact absurd (hlast (by constructor <;> decide +kernel)) (by decide +kernel)

end IonaOs
