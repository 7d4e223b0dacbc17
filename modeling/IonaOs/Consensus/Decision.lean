import IonaOs.Consensus.Tally

/-!
# Quorums that are acted on
-/

namespace IonaOs

open Lib Sample

variable {B : Type*} [BlockStore B] {rt : Runtime} {sg : Signer}

/-! ## One quorum in a round -/

section

variable {K : Vote → Prop} {n : Node B} {round : Round} {voteType : VoteType}
  {x y : Option Hash32}

omit [BlockStore B] in
theorem Node.quorum_large (h : n.vset.Fits) :
    weight n.vset.power n.vset.members < 2 * n.quorum.toNat := by
  have hlarge := h.quorum
  rw [Node.quorum]
  omega

omit [BlockStore B] in
theorem Filed.quorum_unique (h : Filed K n) (hfits : n.vset.Fits)
    (hx : n.quorum.toNat ≤ n.votePower round voteType x)
    (hy : n.quorum.toNat ≤ n.votePower round voteType y) : x = y := by
  rw [Node.votePower_eq_weight] at hx hy
  obtain ⟨pk, hpx, hpy, -⟩ := exists_common_not_faulty n.vset.power (F := ∅) h.votersFor_subset
    h.votersFor_subset hx hy (by simpa [weight] using Node.quorum_large hfits)
  obtain ⟨v, hv, rfl⟩ := Node.mem_votersFor.mp hpx
  obtain ⟨w, hw, rfl⟩ := Node.mem_votersFor.mp hpy
  rw [hv] at hw
  rw [Option.some.inj hw]

omit [BlockStore B] in
theorem Filed.tallyReaches_iff (h : Filed K n) (hfits : n.vset.Fits) :
    n.TallyReaches round voteType x ↔ n.quorum.toNat ≤ n.votePower round voteType x := by
  refine ⟨Node.TallyReaches.quorum_le, fun hx => ?_⟩
  have hlarge := Node.quorum_large hfits
  have hpos : 0 < n.votePower round voteType x := by omega
  obtain ⟨y, pow, htally⟩ := Node.exists_tally hpos
  obtain ⟨hpow, hmax⟩ := Node.tally_spec htally
  have hq := n.quorum.toNat_lt
  have hle : n.quorum.toNat ≤ pow.toNat := le_trans (by omega) (hmax x)
  have heq : x = y := h.quorum_unique hfits hx (by omega)
  subst heq
  exact ⟨pow, htally, UInt64.le_iff_toNat_le.mpr hle⟩

end

/-! ## Missed decisions -/

namespace Node

variable (rt : Runtime) (n : Node B)

def HoldsDecision : Prop :=
  ∃ b block, n.quorum.toNat ≤ n.votePower n.state.round .precommit (some b) ∧
    BlockStore.get n.store b = some block ∧
    rt.verifyBlockWithVset n.appState block (rt.deriveAddress block.header.proposerPk)
      (n.vset.proposerFor n.state.height n.state.round).pk ≠ none

def Missed : Prop :=
  n.state.decided = none ∧ n.state.step = .precommit ∧ n.HoldsDecision rt

def CountsInTime (v : Vote) : Prop :=
  (n.AcceptsVote rt v → v.voteType = .prevote → n.state.step = .prevote →
    (∃ b, n.quorum.toNat ≤ (n.recordVote v).votePower n.state.round .prevote (some b)) →
    ¬ n.HoldsDecision rt) ∧
  (n.Missed rt → n.AcceptsVote rt v ∧ v.voteType = .precommit)

/-- `on_message` for a vote, at a time of the clock. -/
def receive (rt : Runtime) (sg : Signer) (n : Node B) (d : Vote × UInt64) : Node B :=
  handle rt sg n (.message (.vote d.1) d.2)

section

variable {rt n} {K : Vote → Prop}

section

variable (hfiled : Filed K n)
include hfiled

theorem not_missed_of_tally (hfits : n.vset.Fits)
    (h : (n.tally n.state.round .precommit).all (·.2 < n.quorum) = true) : ¬ n.Missed rt := by
  rintro ⟨-, -, b, block, hq, -⟩
  obtain ⟨pow, htally, hpow⟩ := (hfiled.tallyReaches_iff hfits).mpr hq
  rw [htally, Option.all_some, decide_eq_true_eq] at h
  exact UInt64.not_lt.mpr hpow h

omit hfiled in
theorem not_missed_advanceRound (h : ¬ n.Missed rt) (now : UInt64) :
    ¬ (n.advanceRound rt sg now).Missed rt := by
  rw [advanceRound]
  split
  · exact h
  obtain ⟨p, pb, hstate⟩ := state_maybePropose rt sg
    { n with state := n.state.advanceRound, stepElapsedMs := 0 } (fun _ => []) now
  intro hmissed
  have hpre := hmissed.2.1
  rw [hstate] at hpre
  cases hpre

theorem HoldsDecision.reaches (hfits : n.vset.Fits) (h : n.HoldsDecision rt) :
    ∃ b block, n.TallyReaches n.state.round .precommit (some b) ∧
      BlockStore.get n.store b = some block ∧
      rt.verifyBlockWithVset n.appState block (rt.deriveAddress block.header.proposerPk)
        (n.vset.proposerFor n.state.height n.state.round).pk ≠ none := by
  obtain ⟨b, block, hq, hget, hver⟩ := h
  exact ⟨b, block, (hfiled.tallyReaches_iff hfits).mpr hq, hget, hver⟩

theorem missed_onQuorum_prevote {v : Vote} {now : UInt64} (hfits : n.vset.Fits)
    (hdec : n.state.decided = none) (hround : v.round = n.state.round)
    (htype : v.voteType = .prevote) (hstep : n.state.step = .prevote) :
    (n.onQuorum rt sg v now).1.Missed rt ↔
      (∃ b, n.quorum.toNat ≤ n.votePower n.state.round .prevote (some b)) ∧
        n.HoldsDecision rt := by
  have hstay : ¬ n.Missed rt := fun h => by rw [h.2.1] at hstep; cases hstep
  have houtcome := onQuorum_outcome rt sg n v now
  generalize n.onQuorum rt sg v now = res at houtcome
  simp only [← hfiled.tallyReaches_iff hfits]
  cases houtcome with
  | lock b _ _ hq =>
    have hreach : ∃ b, n.TallyReaches n.state.round .prevote (some b) := ⟨b, hround ▸ hq⟩
    obtain ⟨g, o, heq, -⟩ := broadcastVote_spec rt sg { n with
        state := { n.state with
          validRound := some n.state.round
          validValue := some b
          lockedRound := some n.state.round
          lockedValue := some b
          step := .precommit }
        stepElapsedMs := 0 } .precommit (some b)
    simp only [lockAndPrecommit, heq, hreach, true_and]
    exact ⟨fun h => h.2.2, fun h => ⟨hdec, rfl, h⟩⟩
  | commit _ htype' =>
    rw [htype] at htype'
    cases htype'
  | advance _ hq =>
    refine iff_of_false (not_missed_advanceRound hstay now) ?_
    rintro ⟨⟨b, hb⟩, -⟩
    rw [htype, hround] at hq
    cases hq.unique hb
  | wait hno =>
    refine iff_of_false hstay ?_
    rintro ⟨⟨b, hb⟩, -⟩
    rw [htype, hround] at hno
    exact hno hstep _ hb

theorem not_missed_commitBlock {b : Hash32} (hfits : n.vset.Fits)
    (hq : n.TallyReaches n.state.round .precommit (some b)) :
    ¬ (n.commitBlock rt n.state.round b).1.Missed rt := by
  -- While nothing is committed, what is held is what was held before, for the block reported.
  have hheld : n.HoldsDecision rt → ∃ block, BlockStore.get n.store b = some block ∧
      rt.verifyBlockWithVset n.appState block (rt.deriveAddress block.header.proposerPk)
        (n.vset.proposerFor n.state.height n.state.round).pk ≠ none := by
    intro h
    obtain ⟨b', block, hq', hget, hver⟩ := h.reaches hfiled hfits
    cases hq.unique hq'
    exact ⟨block, hget, hver⟩
  simp only [commitBlock]
  split
  · rename_i hnone
    intro hmissed
    obtain ⟨block, hget, -⟩ := hheld hmissed.2.2
    rw [hnone] at hget
    cases hget
  rename_i block hget
  split
  · rename_i hbad
    intro hmissed
    obtain ⟨block', hget', hver⟩ := hheld hmissed.2.2
    rw [hget] at hget'
    cases hget'
    exact hver hbad
  · intro hmissed
    cases hmissed.1

theorem not_missed_onQuorum_precommit {v : Vote} {now : UInt64} (hfits : n.vset.Fits)
    (hround : v.round = n.state.round) (htype : v.voteType = .precommit)
    (hstep : n.state.step = .precommit) : ¬ (n.onQuorum rt sg v now).1.Missed rt := by
  have houtcome := onQuorum_outcome rt sg n v now
  generalize n.onQuorum rt sg v now = res at houtcome
  cases houtcome with
  | lock _ htype' =>
    rw [htype] at htype'
    cases htype'
  | commit b _ _ hq =>
    rw [hround] at hq ⊢
    exact not_missed_commitBlock hfiled hfits hq
  | advance _ hq =>
    rw [htype, hround] at hq
    refine not_missed_advanceRound (fun hmissed => ?_) now
    obtain ⟨b, block, hb, -⟩ := hmissed.2.2.reaches hfiled hfits
    cases hq.unique hb
  | wait hno =>
    rw [htype, hround] at hno
    intro hmissed
    obtain ⟨b, block, hb, -⟩ := hmissed.2.2.reaches hfiled hfits
    exact hno hstep _ hb

end

omit [BlockStore B] in
theorem votePower_recordVote_prevote {v : Vote} (h : v.voteType = .prevote) (round : Round)
    (x : Option Hash32) :
    (n.recordVote v).votePower round .precommit x = n.votePower round .precommit x := by
  obtain ⟨i, s, o, heq, -⟩ := recordVote_spec n v
  have hinsert := n.state.votesAt_insertVote v round .precommit
  rw [if_neg fun hslot => by simp [h] at hslot] at hinsert
  rw [heq, votePower, votePower]
  exact congrArg (fun votes : VoteMap => VoteTally.powerFor n.vset votes.ballots x) hinsert

variable (rt n) in
theorem missed_recordVote_prevote {v : Vote} (h : v.voteType = .prevote) :
    ((n.recordVote v).HoldsDecision rt ↔ n.HoldsDecision rt) ∧
      ((n.recordVote v).Missed rt ↔ n.Missed rt) := by
  obtain ⟨hstep, hround, hheight, hdec, hvset, hstore, happ⟩ := recordVote_frame n v
  have hholds : (n.recordVote v).HoldsDecision rt ↔ n.HoldsDecision rt := by
    simp only [HoldsDecision, votePower_recordVote_prevote h, quorum, hround, hheight, hvset,
      hstore, happ]
  exact ⟨hholds, by simp only [Missed, hdec, hstep, hholds]⟩

theorem missed_receive_iff (hfiled : Filed (fun _ => True) n) (hfits : n.vset.Fits)
    (d : Vote × UInt64) : (n.receive rt sg d).Missed rt ↔ ¬ n.CountsInTime rt d.1 := by
  obtain ⟨v, now⟩ := d
  by_cases hacc : n.AcceptsVote rt v
  · have hrec : n.receive rt sg (v, now) = ((n.recordVote v).onQuorum rt sg v now).1 := by
      rw [receive, handle, onMessage, hacc.onVote_eq]
    have hfiled' := hfiled.recordVote hacc trivial
    obtain ⟨hstep, hround, -, hdec, hvset, -, -⟩ := recordVote_frame n v
    have hround' : v.round = (n.recordVote v).state.round := hacc.spec.2.2.1.trans hround.symm
    have hfits' : (n.recordVote v).vset.Fits := hvset ▸ hfits
    simp only [hrec, CountsInTime, hacc, true_implies, true_and]
    cases htype : v.voteType with
    | prevote =>
      obtain ⟨hholds, hmissed⟩ := missed_recordVote_prevote rt n htype
      by_cases hpre : n.state.step = .prevote
      · have hnot : ¬ n.Missed rt := fun h => by rw [h.2.1] at hpre; cases hpre
        rw [missed_onQuorum_prevote hfiled' hfits' (hdec.trans hacc.1) hround' htype
          (hstep.trans hpre), hholds, hround]
        simp [hpre, hnot, quorum, hvset]
      · have hstay : ((n.recordVote v).onQuorum rt sg v now).1 = n.recordVote v := by
          simp [onQuorum, htype, hstep, hpre]
        rw [hstay, hmissed]
        simp [hpre]
    | precommit =>
      simp only [reduceCtorEq, false_implies, implies_true, and_self, not_true, iff_false]
      by_cases hpre : n.state.step = .precommit
      · exact not_missed_onQuorum_precommit hfiled' hfits' hround' htype (hstep.trans hpre)
      have hstay : ((n.recordVote v).onQuorum rt sg v now).1 = n.recordVote v := by
        simp [onQuorum, htype, hstep, hpre]
      rw [hstay]
      exact fun h => hpre (hstep.symm.trans h.2.1)
  · have hsame : n.receive rt sg (v, now) = n := by
      rw [receive, handle, onMessage, onVote_of_not_accepts hacc]
    simp [CountsInTime, hacc, hsame]

end

end Node

/-- **No missed decision.**  However votes are delivered to a reachable engine, no decision is
missed after any of them exactly when each counts in time in the state it arrives in. -/
theorem no_missed_decision_iff {n : Node B} (hreach : Reachable rt sg n) (hfits : n.vset.Fits)
    (votes : List (Vote × UInt64)) :
    Along (Node.receive rt sg) (fun m d => ¬ (m.receive rt sg d).Missed rt) n votes ↔
      Along (Node.receive rt sg) (fun m d => m.CountsInTime rt d.1) n votes := by
  induction votes generalizing n with
  | nil => simp
  | cons d _ ih =>
    have hone : ¬ (n.receive rt sg d).Missed rt ↔ n.CountsInTime rt d.1 := by
      rw [Node.missed_receive_iff hreach.filed hfits, not_not]
    have hfits' : (n.receive rt sg d).vset.Fits := by
      rw [Node.receive, handle_vset]
      exact hfits
    exact and_congr hone (ih (hreach.handle _) hfits')

/-- Validator `[3]` with the proposal of `[1]`. -/
def proposedTo3 : Node Store :=
  handle runtime (signer 3) (node none)
    (propose (proposal 1 0 (firstBlock 1 0) none))

theorem proposedTo3_reachable : Reachable runtime (signer 3) proposedTo3 :=
  Reachable.handle ⟨node none, [], node_initial none, rfl⟩ _

theorem no_missed_decision_iff_prevotesFirst :
    Along (Node.receive runtime (signer 3))
      (fun m d => m.CountsInTime runtime d.1) proposedTo3
      [(prevote 1 1 0, 0), (prevote 2 1 0, 0), (precommit 1 1 0, 0),
        (precommit 2 1 0, 0)] := by
  refine (no_missed_decision_iff proposedTo3_reachable ValidatorSet.fits_three _).mp ?_
  have hshort : ∀ {n : Node Store}, Reachable runtime (signer 3) n →
      n.vset = .three → (n.tally n.state.round .precommit).all (·.2 < n.quorum) = true →
      ¬ n.Missed runtime := by
    intro n hreach hvset h
    exact Node.not_missed_of_tally hreach.filed (hvset ▸ ValidatorSet.fits_three) h
  have hreach₁ := proposedTo3_reachable.handle (.message (.vote (prevote 1 1 0)) 0)
  have hreach₂ := hreach₁.handle (.message (.vote (prevote 2 1 0)) 0)
  have hreach₃ := hreach₂.handle (.message (.vote (precommit 1 1 0)) 0)
  have hvset : proposedTo3.vset = .three := handle_vset _ _
  refine ⟨hshort hreach₁ ?_ (by decide +kernel), hshort hreach₂ ?_ (by decide +kernel),
    hshort hreach₃ ?_ (by decide +kernel), fun h => absurd h.1 (by decide +kernel), trivial⟩ <;>
    simp only [Node.receive, handle_vset, hvset]

/-- The same four votes bring about a decision if the prevotes come first, and leave it missed
if the precommits do. -/
theorem precommitsFirst_missed :
    Reachable runtime (signer 3) proposedTo3 ∧ proposedTo3.vset.Fits ∧
    (exec (Node.receive runtime (signer 3)) proposedTo3
      [(prevote 1 1 0, 0), (prevote 2 1 0, 0), (precommit 1 1 0, 0),
        (precommit 2 1 0, 0)]).state.decided ≠ none ∧
    (exec (Node.receive runtime (signer 3)) proposedTo3
      [(precommit 1 1 0, 0), (precommit 2 1 0, 0), (prevote 1 1 0, 0),
        (prevote 2 1 0, 0)]).Missed runtime :=
  ⟨proposedTo3_reachable, ValidatorSet.fits_three, by decide +kernel, by decide +kernel,
    by decide +kernel, blockId (firstBlock 1 0), firstBlock 1 0,
    by decide +kernel, by decide +kernel, by decide +kernel⟩

end IonaOs
