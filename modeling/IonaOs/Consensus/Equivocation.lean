import IonaOs.Consensus.Progress

/-!
# Votes of one engine
-/

namespace IonaOs

open Lib Sample

variable {B : Type*} [BlockStore B] {rt : Runtime} {sg : Signer}

/-! ## The log of votes -/

def Vote.SameSlot (v w : Vote) : Prop :=
  v.voteType = w.voteType ∧ v.height = w.height ∧ v.round = w.round
deriving Decidable

variable {o : List Effect} {b a : Node B} {x : Option Hash32}

namespace Node

def Reached (n : Node B) (height : Height) (round : Round) : Prop :=
  height.toNat < n.state.height.toNat ∨
    (height = n.state.height ∧ round.toNat ≤ n.state.round.toNat)

section

omit [BlockStore B]

section

variable (h : b.outbox = a.outbox ++ o)
include h

theorem castVotes_append : b.castVotes = a.castVotes ++ o.filterMap Effect.vote? := by
  rw [castVotes, castVotes, h, List.filterMap_append]

theorem castVotes_quiet (ho : ∀ e ∈ o, e.vote? = none) : b.castVotes = a.castVotes := by
  rw [castVotes_append h, List.filterMap_eq_nil_iff.mpr ho, List.append_nil]

theorem castVotes_casts {voteType : VoteType} (ho : Casts sg a voteType x o) :
    b.castVotes = a.castVotes ∨
      (b.castVotes = a.castVotes ++ [a.signVote sg voteType x] ∧ a.Permits voteType x) := by
  rw [castVotes_append h]
  rcases ho with rfl | ⟨rfl, hperm⟩
  · simp
  · exact .inr ⟨rfl, hperm⟩

end

theorem castVotes_recordVote (n : Node B) (v : Vote) :
    (n.recordVote v).castVotes = n.castVotes := by
  obtain ⟨i, s, o, heq, hcases⟩ := recordVote_spec n v
  rw [heq]
  refine castVotes_quiet rfl ?_
  rcases hcases with ⟨-, rfl, -⟩ | ⟨-, rfl, -⟩ | ⟨x, w, -, -, -, -, rfl⟩ <;> simp [Effect.vote?]

end

variable (rt) in
theorem castVotes_commitBlock (n : Node B) (round : Round) (b : Hash32) :
    (n.commitBlock rt round b).1.castVotes = n.castVotes := by
  simp only [commitBlock]
  split
  · exact castVotes_quiet rfl (by simp [Effect.vote?])
  · split
    · rfl
    · exact castVotes_quiet rfl (by simp [Effect.vote?])

end Node

open Node

/-! ## Honest logs -/

structure Honest (n : Node B) : Prop where
  past : ∀ v ∈ n.castVotes, n.Reached v.height v.round
  unique : ∀ v ∈ n.castVotes, ∀ w ∈ n.castVotes, v.SameSlot w → v.blockId = w.blockId
  guarded : ∀ v ∈ n.castVotes, ∀ g, n.dsGuard = some g → ∀ y,
    .vote v.voteType.asU8 v.height v.round y ∈ g.signed → y = v.blockId
  prevote_step : ∀ v ∈ n.castVotes, v.voteType = .prevote → v.height = n.state.height →
    v.round = n.state.round → n.state.step ≠ .propose
  precommit_locked : ∀ v ∈ n.castVotes, v.voteType = .precommit → v.height = n.state.height →
    v.round = n.state.round → n.state.lockedRound = some n.state.round

namespace Honest

variable {a b : Node B}

omit [BlockStore B] in
theorem initial {n : Node B} (h : n.Initial) : Honest n := by
  have hnone : n.castVotes = [] := by rw [castVotes, h.spec.1]; rfl
  constructor <;> simp [hnone]

section

variable (h : Honest a)
include h

section

omit [BlockStore B]

theorem round_le {v : Vote} (hv : v ∈ a.castVotes) (hheight : v.height = a.state.height) :
    v.round.toNat ≤ a.state.round.toNat := by
  rcases h.past v hv with hlt | ⟨-, hle⟩
  · rw [hheight] at hlt
    exact absurd hlt (Nat.lt_irrefl _)
  · exact hle

section

variable (hcast : b.castVotes = a.castVotes) (hguard : GuardKeeps a b.dsGuard)
include hcast hguard

theorem guarded_keeps : ∀ v ∈ b.castVotes, ∀ g, b.dsGuard = some g → ∀ y,
    .vote v.voteType.asU8 v.height v.round y ∈ g.signed → y = v.blockId := by
  intro v hv g hg y hy
  rw [hcast] at hv
  obtain ⟨g₀, hg₀, hsub⟩ := hguard g hg
  exact h.guarded v hv g₀ hg₀ y (hsub _ _ _ _ hy)

theorem stay (hheight : b.state.height = a.state.height) (hround : b.state.round = a.state.round)
    (hstep : a.state.step ≠ .propose → b.state.step ≠ .propose)
    (hlocked : b.state.lockedRound = a.state.lockedRound) : Honest b where
  past := by
    rw [hcast]
    intro v hv
    rw [Reached, hheight, hround]
    exact h.past v hv
  unique := by rw [hcast]; exact h.unique
  guarded := h.guarded_keeps hcast hguard
  prevote_step := by
    rw [hcast, hheight, hround]
    exact fun v hv ht hh hr => hstep (h.prevote_step v hv ht hh hr)
  precommit_locked := by
    rw [hcast, hheight, hround, hlocked]
    exact h.precommit_locked

theorem leave (hslot : ∀ height round, a.Reached height round → b.Reached height round ∧
      ¬ (height = b.state.height ∧ round = b.state.round)) : Honest b where
  past := by
    rw [hcast]
    exact fun v hv => (hslot _ _ (h.past v hv)).1
  unique := by rw [hcast]; exact h.unique
  guarded := h.guarded_keeps hcast hguard
  prevote_step := by
    rw [hcast]
    exact fun v hv _ hh hr => absurd ⟨hh, hr⟩ (hslot _ _ (h.past v hv)).2
  precommit_locked := by
    rw [hcast]
    exact fun v hv _ hh hr => absurd ⟨hh, hr⟩ (hslot _ _ (h.past v hv)).2

end

theorem agree {voteType : VoteType}
    (hfresh : (∀ v ∈ a.castVotes, v.voteType = voteType → v.height = a.state.height →
      v.round ≠ a.state.round) ∨ a.hasVoted voteType = true)
    (hperm : a.Permits voteType x) {v : Vote} (hv : v ∈ a.castVotes)
    (htype : v.voteType = voteType) (hheight : v.height = a.state.height)
    (hround : v.round = a.state.round) : v.blockId = x := by
  rcases hfresh with hnone | hvoted
  · exact absurd hround (hnone v hv htype hheight)
  cases hguard : a.dsGuard with
  | none => simp [hasVoted, hguard] at hvoted
  | some g =>
    simp only [hasVoted, hguard] at hvoted
    obtain ⟨y, hy⟩ := DoubleSignGuard.hasVote_iff.mp hvoted
    have hyv : y = v.blockId := by
      refine h.guarded v hv g hguard y ?_
      rw [htype, hheight, hround]
      exact hy
    rw [← hyv, hperm g hguard y hy]

theorem cast {voteType : VoteType} {g : Option DoubleSignGuard}
    (hfresh : (∀ v ∈ a.castVotes, v.voteType = voteType → v.height = a.state.height →
      v.round ≠ a.state.round) ∨ a.hasVoted voteType = true)
    (hg : GuardNotes a voteType x g) (ho : Casts sg a voteType x o)
    (hout : b.outbox = a.outbox ++ o) (hguard : b.dsGuard = g)
    (hheight : b.state.height = a.state.height) (hround : b.state.round = a.state.round)
    (hstep : b.state.step ≠ .propose)
    (hlocked : b.state.lockedRound = some b.state.round ∨
      (voteType = .prevote ∧ b.state.lockedRound = a.state.lockedRound)) : Honest b := by
  have hlog : ∀ v ∈ b.castVotes, v ∈ a.castVotes ∨
      (v = a.signVote sg voteType x ∧ a.Permits voteType x) := by
    intro v hv
    rcases castVotes_casts hout ho with heq | ⟨heq, hperm⟩
    · exact .inl (heq ▸ hv)
    · rw [heq, List.mem_append, List.mem_singleton] at hv
      exact hv.imp_right fun hv => ⟨hv, hperm⟩
  constructor
  · intro v hv
    rw [Reached, hheight, hround]
    rcases hlog v hv with hv | ⟨rfl, -⟩
    · exact h.past v hv
    · exact .inr ⟨rfl, le_rfl⟩
  · intro v hv w hw hslot
    rcases hlog v hv with hv | ⟨rfl, hperm⟩ <;> rcases hlog w hw with hw | ⟨rfl, hperm'⟩
    · exact h.unique v hv w hw hslot
    · exact h.agree hfresh hperm' hv hslot.1 hslot.2.1 hslot.2.2
    · exact (h.agree hfresh hperm hw hslot.1.symm hslot.2.1.symm hslot.2.2.symm).symm
    · rfl
  · intro v hv g' hg' y hy
    rw [hguard] at hg'
    obtain ⟨g₀, hg₀, hnotes⟩ := hg g' hg'
    rcases hlog v hv with hv | ⟨rfl, hperm⟩ <;> rcases hnotes _ hy with hy | ⟨hkey, hperm'⟩
    · exact h.guarded v hv g₀ hg₀ y hy
    · injection hkey with htype hh hr hx
      rw [hx, h.agree hfresh hperm' hv (VoteType.asU8_inj htype) hh hr]
    · exact hperm g₀ hg₀ y hy
    · injection hkey with _ _ _ hx
  · exact fun v hv ht hh hr => hstep
  · intro v hv ht hh hr
    rcases hlocked with hlocked | ⟨rfl, hlocked⟩
    · exact hlocked
    rw [hlocked, hround]
    rcases hlog v hv with hv | ⟨rfl, -⟩
    · exact h.precommit_locked v hv ht (hh.trans hheight) (hr.trans hround)
    · cases ht

end

end

end Honest

theorem Honest.move {D : Discipline} (hD : D.votesOnce) (hsane : Sane a) (h : Honest a)
    (hmove : Move rt sg D a b) : Honest b := by
  cases hmove with
  | quiet _ _ _ _ _ hg ho =>
    exact h.stay (castVotes_quiet rfl fun e he => (ho e he).1) hg rfl rfl id rfl
  | stash | slash => exact h.stay rfl (GuardKeeps.refl a) rfl rfl id rfl
  | prevote _ _ _ _ _ hfresh _ hg ho =>
    refine h.cast ?_ hg ho rfl rfl rfl rfl (by simp) (.inr ⟨rfl, rfl⟩)
    refine (hfresh hD).imp_left fun hstep v hv ht hh hr => ?_
    exact h.prevote_step v hv ht hh hr hstep
  | record v =>
    have hcast := a.castVotes_recordVote v
    obtain ⟨i, s, o, heq, -⟩ := recordVote_spec a v
    rw [heq] at hcast ⊢
    exact h.stay hcast (GuardKeeps.refl a) rfl rfl id rfl
  | lock _ _ _ _ _ hfresh _ _ hg ho =>
    refine h.cast ?_ hg ho rfl rfl rfl rfl (by simp) (.inl rfl)
    refine (hfresh hD).imp_left fun hlocked v hv ht hh hr => ?_
    exact hlocked (h.precommit_locked v hv ht hh hr)
  | advance _ _ hmax =>
    refine h.leave rfl (GuardKeeps.refl a) fun height round hreached => ?_
    have hround := (round_advance hsane.round_lt hmax).1
    simp only [Reached, ConsensusState.advanceRound] at hreached ⊢
    rw [hround]
    refine ⟨hreached.imp_right fun h => ⟨h.1, by omega⟩, fun hslot => ?_⟩
    rw [← hslot.2] at hround
    rw [hslot.1] at hreached
    omega
  | commit b _ _ _ _ _ _ hget hver =>
    have hcast := a.castVotes_commitBlock rt a.state.round b
    simp only [commitBlock, hget, hver] at hcast ⊢
    exact h.stay hcast (GuardKeeps.refl a) rfl rfl (by simp [send]) rfl
  | nextHeight hmax =>
    refine h.leave rfl (GuardKeeps.refl a) fun height round hreached => ?_
    have hlt := a.state.height.toNat_lt
    have hne : a.state.height.toNat ≠ 2 ^ 64 - 1 := fun h0 =>
      hmax hD (UInt64.toNat_inj.mp h0)
    have hnext : (a.state.height + 1).toNat = a.state.height.toNat + 1 := by
      rw [UInt64.toNat_add]
      exact Nat.mod_eq_of_lt (by simp; omega)
    simp only [Reached, ConsensusState.new] at hreached ⊢
    have hle : height.toNat ≤ a.state.height.toNat := by
      rcases hreached with hlt | ⟨rfl, -⟩
      · exact hlt.le
      · exact le_rfl
    refine ⟨.inl (by omega), fun hslot => ?_⟩
    rw [hslot.1] at hle
    omega

def Discipline.once : Discipline := { Discipline.none with votesOnce := True }

theorem eventOk_once {n : Node B} {e : Event} (h : n.VotesOnce rt e) : EventOk rt sg .once n e where
  votesOnce _ := h
  keepsLock := False.elim
  linked := False.elim
  genuine := False.elim
  oneHeight := False.elim
  authentic _ _ _ _ := trivial
  backed _ _ _ _ _ _ := trivial

/-- **No honest equivocation.**  In a run whose events do not make the engine vote twice in a
slot, no two votes it broadcasts have the same type, height and round and different block
ids. -/
theorem no_equivocation {n : Node B} (hinit : n.Initial) {es : List Event}
    (hes : Along (handle rt sg) (fun m e => m.VotesOnce rt e) n es) :
    ∀ v ∈ (exec (handle rt sg) n es).castVotes, ∀ w ∈ (exec (handle rt sg) n es).castVotes,
      v.SameSlot w → v.blockId = w.blockId := by
  have hinv : Sane (exec (handle rt sg) n es) ∧ Honest (exec (handle rt sg) n es) := by
    refine invariant_of_moves (D := .once) (I := fun m => Sane m ∧ Honest m) False.elim ?_
      (hes.mono fun _ _ h => eventOk_once h) ⟨Sane.initial hinit, Honest.initial hinit⟩
    rintro a b ⟨hsane, hhonest⟩ hmove
    exact ⟨hsane.move hmove, hhonest.move trivial hsane hmove⟩
  exact hinv.2.unique

theorem no_equivocation_decidingRun : ∃ n : Node Store,
    n = exec (handle runtime (signer 1)) (node none) decidingRun ∧
    n.castVotes = [prevote 1 1 0, precommit 1 1 0] ∧
    ∀ v ∈ n.castVotes, ∀ w ∈ n.castVotes, v.SameSlot w → v.blockId = w.blockId :=
  ⟨_, rfl, by decide +kernel, no_equivocation (node_initial none) (by decide +kernel)⟩

/-- Validator `[2]`, without a guard, prevotes nil on timeout, and then the block of a proposal
that comes late. -/
theorem lateProposal_equivocates : (node none).Initial ∧
    (exec (handle runtime (signer 2)) (node none)
      [wait 1000,
        propose (proposal 1 0 (firstBlock 1 0) none)]).castVotes =
      [vote 2 .prevote 0 none, prevote 2 1 0] ∧
    (vote 2 .prevote 0 none).SameSlot (prevote 2 1 0) ∧
    (vote 2 .prevote 0 none).blockId ≠ (prevote 2 1 0).blockId :=
  ⟨node_initial none, by decide +kernel, by decide +kernel, by decide +kernel⟩

end IonaOs
