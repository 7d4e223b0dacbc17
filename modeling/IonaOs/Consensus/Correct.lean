import IonaOs.Consensus.Lock

/-!
# A correct engine among others
-/

namespace IonaOs

open Lib Node

variable {B : Type*} [BlockStore B] {rt : Runtime} {sg : Signer}

/-! ## Votes cast and votes counted -/

def Node.castFor (n : Node B) (voteType : VoteType) (height : Height) (round : Round)
    (b : Hash32) : Prop :=
  ∃ v ∈ n.castVotes, v.voteType = voteType ∧ v.height = height ∧ v.round = round ∧
    v.blockId = some b

variable {b a : Node B} {round : Round}

section

omit [BlockStore B]

theorem Node.castFor_congr (h : b.castVotes = a.castVotes) : b.castFor = a.castFor := by
  funext voteType height round c
  rw [castFor, castFor, h]

variable {voteType t : VoteType}

theorem Node.castFor_casts {x : Option Hash32} {o : List Effect} (hout : b.outbox = a.outbox ++ o)
    (ho : Casts sg a voteType x o) {height : Height} {c : Hash32} (h : b.castFor t height round c) :
    a.castFor t height round c ∨
      (t = voteType ∧ height = a.state.height ∧ round = a.state.round ∧ x = some c) := by
  obtain ⟨v, hv, rfl, rfl, rfl, hid⟩ := h
  rcases castVotes_casts hout ho with heq | ⟨heq, -⟩
  · exact .inl ⟨v, heq ▸ hv, rfl, rfl, rfl, hid⟩
  rw [heq, List.mem_append, List.mem_singleton] at hv
  rcases hv with hv | rfl
  · exact .inl ⟨v, hv, rfl, rfl, rfl, hid⟩
  · exact .inr ⟨rfl, rfl, rfl, hid⟩

theorem Node.castFor_casts_of_ne {x : Option Hash32} {o : List Effect}
    (hout : b.outbox = a.outbox ++ o) (ho : Casts sg a voteType x o) (hne : t ≠ voteType)
    {height : Height} {c : Hash32} (h : b.castFor t height round c) : a.castFor t height round c :=
  (castFor_casts hout ho h).resolve_right fun hnew => hne hnew.1

end

/-- Members with a quorum of the power, each with a vote for `b` in the slot that satisfies
`K`. -/
def QuorumSigned (K : Vote → Prop) (vset : ValidatorSet) (voteType : VoteType) (height : Height)
    (round : Round) (b : Hash32) : Prop :=
  ∃ A ⊆ vset.members, (quorumThreshold vset.totalPower).toNat ≤ weight vset.power A ∧
    ∀ pk ∈ A, ∃ v : Vote, v.voter = pk ∧ v.voteType = voteType ∧ v.height = height ∧
      v.round = round ∧ v.blockId = some b ∧ K v

omit [BlockStore B] in
theorem Filed.quorumSigned {K : Vote → Prop} {n : Node B} (h : Filed K n) {voteType : VoteType}
    {b : Hash32} (hq : n.TallyReaches round voteType (some b)) :
    QuorumSigned K n.vset voteType n.state.height round b := by
  refine ⟨n.votersFor round voteType (some b), h.votersFor_subset, ?_, ?_⟩
  · rw [← votePower_eq_weight]
    exact hq.quorum_le
  intro pk hpk
  obtain ⟨v, hv, hid⟩ := mem_votersFor.mp hpk
  obtain ⟨hround, htype, hvoter, hheight, -, -, hK⟩ := h _ _ _ _ hv
  exact ⟨v, hvoter, htype, hheight, hround, hid, hK⟩

/-! ## The bundle -/

def DecidedBy (K : Vote → Prop) (n : Node B) : Prop :=
  ∀ cert, n.state.decided = some cert → cert.height = n.state.height ∧
    ∃ round, QuorumSigned K n.vset .precommit cert.height round cert.blockId

theorem DecidedBy.move {K : Vote → Prop} {D : Discipline} (hfiled : Filed K a) (h : DecidedBy K a)
    (hmove : Move rt sg D a b) : DecidedBy K b := by
  cases hmove with
  | record v =>
    obtain ⟨i, s, o, heq, -⟩ := recordVote_spec a v
    rw [heq]
    exact h
  | commit _ _ _ _ _ _ hq hget hver =>
    simp only [commitBlock, hget, hver]
    rintro cert ⟨⟩
    exact ⟨rfl, a.state.round, hfiled.quorumSigned hq⟩
  | nextHeight => rintro cert ⟨⟩
  | _ => exact h

structure Correct (D : Discipline) (vset : ValidatorSet) (n : Node B) : Prop where
  vset_eq : n.vset = vset
  sane : Sane n
  honest : Honest n
  bound : LockBound n
  filed : Filed D.authentic n
  decided : DecidedBy D.authentic n
  precommits : ∀ height round b, n.castFor .precommit height round b → D.backed height round b
  rule : LockRule D.backed (n.castFor .precommit) (n.castFor .prevote) n

namespace Correct

variable {D : Discipline} {vset : ValidatorSet} {a b n : Node B}

omit [BlockStore B] in
theorem initial (h : n.Initial) : Correct D n.vset n := by
  have hnone : n.castVotes = [] := by rw [castVotes, h.spec.1]; rfl
  have hcast : ∀ t height round b, ¬ n.castFor t height round b := by
    rintro t height round b ⟨v, hv, -⟩
    simp [hnone] at hv
  refine ⟨rfl, Sane.initial h, Honest.initial h, LockBound.initial h, Filed.initial h, ?_,
    fun _ _ _ hc => absurd hc (hcast _ _ _ _), fun _ _ hc => absurd hc (hcast _ _ _ _),
    fun _ _ _ _ _ hc => absurd hc (hcast _ _ _ _)⟩
  intro cert hcert
  rw [h.spec.2.1] at hcert
  cases hcert

omit [BlockStore B] in
theorem rule_stay (h : Correct D vset a) (hcast : b.castVotes = a.castVotes)
    (hheight : b.state.height = a.state.height) (hround : b.state.lockedRound = a.state.lockedRound)
    (hvalue : b.state.lockedValue = a.state.lockedValue) :
    (∀ height round c, b.castFor .precommit height round c → D.backed height round c) ∧
      LockRule D.backed (b.castFor .precommit) (b.castFor .prevote) b := by
  rw [castFor_congr hcast]
  exact ⟨h.precommits, h.rule.stay (fun _ _ _ => id) (fun _ _ _ => id) hheight hround hvalue⟩

theorem rule_move (honce : D.votesOnce) (hkeep : D.keepsLock) (h : Correct D vset a)
    (hmove : Move rt sg D a b) :
    (∀ height round c, b.castFor .precommit height round c → D.backed height round c) ∧
      LockRule D.backed (b.castFor .precommit) (b.castFor .prevote) b := by
  have hhonest := h.honest.move honce h.sane hmove
  cases hmove with
  | quiet _ _ _ _ _ _ ho =>
    exact h.rule_stay (castVotes_quiet rfl fun e he => (ho e he).1) rfl rfl rfl
  | stash | advance | slash => exact h.rule_stay rfl rfl rfl rfl
  | prevote _ _ _ _ hlive _ hlock _ ho =>
    obtain ⟨hpre, hx⟩ := hlock hkeep
    refine ⟨fun height round c hc =>
      h.precommits _ _ _ (castFor_casts_of_ne rfl ho (by simp) hc), ?_⟩
    exact h.rule.prevote h.bound hpre (h.sane.step_ne_commit hlive) hx
      (fun _ _ _ hc => castFor_casts_of_ne rfl ho (by simp) hc)
      (fun _ _ _ hc => (castFor_casts rfl ho hc).imp_right fun hnew => hnew.2) rfl rfl rfl
  | record v =>
    have hcast := a.castVotes_recordVote v
    obtain ⟨i, s, o, heq, -⟩ := recordVote_spec a v
    rw [heq] at hcast ⊢
    exact h.rule_stay hcast rfl rfl rfl
  | lock _ _ _ _ hstep _ _ hback _ ho =>
    refine ⟨fun height round c hc => ?_, ?_⟩
    · rcases castFor_casts rfl ho hc with hold | ⟨-, rfl, rfl, hx⟩
      · exact h.precommits height round c hold
      · cases hx
        exact hback
    refine h.rule.lock h.bound (by simp [hstep]) (by simp [hstep]) hback ?_ ?_ rfl rfl rfl
    · intro height round c hc
      refine (castFor_casts rfl ho hc).imp_right ?_
      rintro ⟨-, rfl, rfl, ⟨⟩⟩
      refine ⟨rfl, rfl, rfl, ?_⟩
      rintro r' b' ⟨v, hv, -, hheight, rfl, -⟩
      exact h.honest.round_le hv hheight
    · exact fun _ _ _ hc => castFor_casts_of_ne rfl ho (by simp) hc
  | commit b _ _ _ _ _ _ hget hver =>
    have hcast := a.castVotes_commitBlock rt a.state.round b
    simp only [commitBlock, hget, hver] at hcast ⊢
    exact h.rule_stay hcast rfl rfl rfl
  | nextHeight =>
    refine ⟨h.precommits, ?_, h.rule.kept⟩
    -- No vote of the new height has been cast.
    rintro r c ⟨v, hv, ht, hheight, -⟩
    have hround : v.round = 0 := UInt32.toNat_inj.mp (Nat.le_zero.mp (hhonest.round_le hv hheight))
    cases hhonest.precommit_locked v hv ht hheight hround

theorem move (honce : D.votesOnce) (hkeep : D.keepsLock) (h : Correct D vset a)
    (hmove : Move rt sg D a b) : Correct D vset b where
  vset_eq := hmove.vset_eq.trans h.vset_eq
  sane := h.sane.move hmove
  honest := h.honest.move honce h.sane hmove
  bound := h.bound.move hkeep h.sane hmove
  filed := h.filed.move (fun _ => id) hmove
  decided := h.decided.move h.filed hmove
  precommits := (h.rule_move honce hkeep hmove).1
  rule := (h.rule_move honce hkeep hmove).2

end Correct

end IonaOs
