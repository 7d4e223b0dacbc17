import IonaOs.Consensus.Correct

/-!
# Agreement of correct engines
-/

namespace IonaOs

open Lib Sample List

variable {B : Type*} [BlockStore B] {ι : Type*}

/-! ## What an engine has signed -/

def Effect.proposal? : Effect → Option Proposal
  | .broadcast (.proposal p) => some p
  | _ => none

namespace Node

def castProposals (n : Node B) : List Proposal := n.outbox.filterMap Effect.proposal?

def signedBytes (n : Node B) : List (List UInt8) :=
  n.castVotes.map Vote.signBytes ++ n.castProposals.map Proposal.signBytes

end Node

theorem Move.outbox_grows {rt : Runtime} {sg : Signer} {D : Discipline} {a b : Node B}
    (h : Move rt sg D a b) : a.outbox <+: b.outbox := by
  cases h with
  | quiet | prevote | lock => exact prefix_append _ _
  | record v =>
    obtain ⟨i, s, o, heq, -⟩ := Node.recordVote_spec a v
    rw [heq]
    exact prefix_append _ _
  | commit _ _ _ _ _ _ _ hget hver =>
    simp only [Node.commitBlock, hget, hver]
    exact prefix_append _ _
  | _ => exact prefix_rfl

theorem castVotes_subset_handle (rt : Runtime) (sg : Signer) (n : Node B) (e : Event) :
    n.castVotes ⊆ (handle rt sg n e).castVotes := by
  have hgrows : n.outbox <+: (handle rt sg n e).outbox :=
    (handle_moves False.elim (eventOk_none n e)).invariant (I := fun m => n.outbox <+: m.outbox)
      (fun _ _ h hmove => h.trans hmove.outbox_grows) prefix_rfl
  exact (hgrows.sublist.filterMap Effect.vote?).subset

/-! ## The network -/

section

variable [DecidableEq ι] (rt : Runtime) (signer : ι → Signer)

def netStep : (ι → Node B) → ι × Event → ι → Node B :=
  stepAt fun i => handle rt (signer i)

def Unforged (σ : ι → Node B) (x : ι × Event) : Prop :=
  match x.2 with
  | .message (.vote v) _ => (σ x.1).AcceptsVote rt v →
      ∀ j, (signer j).publicKey = v.voter → v.signBytes ∈ (σ j).signedBytes
  | _ => True

def NotReplayed (σ : ι → Node B) (x : ι × Event) : Prop :=
  match x.2 with
  | .message (.vote v) _ => (σ x.1).AcceptsVote rt v →
      ∀ j, (signer j).publicKey = v.voter →
        v.signBytes ∉ (σ j).castProposals.map Proposal.signBytes
  | _ => True

instance [Fintype ι] (σ : ι → Node B) (x : ι × Event) : Decidable (Unforged rt signer σ x) := by
  unfold Unforged
  split <;> infer_instance

instance [Fintype ι] (σ : ι → Node B) (x : ι × Event) : Decidable (NotReplayed rt signer σ x) := by
  unfold NotReplayed
  split <;> infer_instance

structure Disciplined (σ : ι → Node B) (x : ι × Event) : Prop where
  votesOnce : (σ x.1).VotesOnce rt x.2
  keepsLock : (σ x.1).KeepsLock rt (signer x.1) x.2
  notReplayed : NotReplayed rt signer σ x

instance [Fintype ι] (σ : ι → Node B) (x : ι × Event) : Decidable (Disciplined rt signer σ x) :=
  decidable_of_iff ((σ x.1).VotesOnce rt x.2 ∧ (σ x.1).KeepsLock rt (signer x.1) x.2 ∧
      NotReplayed rt signer σ x)
    ⟨fun h => ⟨h.1, h.2.1, h.2.2⟩, fun h => ⟨h.1, h.2, h.3⟩⟩

end

/-! ## The votes of all engines -/

section

variable (signer : ι → Signer) (vset : ValidatorSet) (F : Finset PublicKeyBytes)
  (σ : ι → Node B)

/-- The correct engine with key `pk` has voted for `b`. -/
def castBy (voteType : VoteType) (height : Height) (pk : PublicKeyBytes) (r : ℕ) (b : Hash32) :
    Prop :=
  ∃ (j : ι) (round : Round), (signer j).publicKey = pk ∧ round.toNat = r ∧
    (σ j).castFor voteType height round b

/-- What correct engines have voted for at a height, with the Byzantine validators `F`. -/
def voting (height : Height) : Voting PublicKeyBytes Hash32 where
  all := vset.members
  faulty := F
  weight := vset.power
  quorum := (quorumThreshold vset.totalPower).toNat
  prevoted := castBy signer σ .prevote height
  precommitted := castBy signer σ .precommit height

def Authentic (v : Vote) : Prop :=
  ∀ j, (signer j).publicKey = v.voter → ∃ w ∈ (σ j).castVotes, w.signBytes = v.signBytes

def Discipline.network : Discipline :=
  { Discipline.none with
    votesOnce := True
    keepsLock := True
    authentic := Authentic signer σ
    backed := fun height round b => (voting signer vset F σ height).QuorumOf
      (castBy signer σ .prevote height) round.toNat b }

variable {signer vset F σ}

omit [BlockStore B] in
theorem quorumOf_castBy (hcorrect : ∀ pk ∈ vset.members, pk ∉ F → ∃ i, (signer i).publicKey = pk)
    {voteType : VoteType} {height : Height} {round : Round} {b : Hash32}
    (h : QuorumSigned (Authentic signer σ) vset voteType height round b) :
    (voting signer vset F σ height).QuorumOf (castBy signer σ voteType height) round.toNat b := by
  obtain ⟨A, hA, hq, hvotes⟩ := h
  refine ⟨A, hA, hq, fun pk hpk hF => ?_⟩
  obtain ⟨j, hj⟩ := hcorrect pk (hA hpk) hF
  obtain ⟨v, hvoter, rfl, rfl, rfl, hid, hauth⟩ := hvotes pk hpk
  obtain ⟨w, hw, hbytes⟩ := hauth j (hj.trans hvoter.symm)
  obtain ⟨ht, hh, hr, hx⟩ := voteSignBytes_inj hbytes
  exact ⟨j, v.round, hj, rfl, w, hw, ht, hh, hr, hx.trans hid⟩

omit [BlockStore B] in
theorem voting_locked (hfits : vset.Fits) (hinj : Function.Injective fun i => (signer i).publicKey)
    (hF : 3 * weight vset.power F < vset.totalPower.toNat)
    (hgood : ∀ i, Correct (.network signer vset F σ) vset (σ i)) (height : Height) :
    (voting signer vset F σ height).Locked where
  quorum_large := by
    have hquorum := hfits.quorum
    rw [hfits.total_eq] at hF
    simp only [voting]
    omega
  prevote_unique := by
    rintro pk - r b b' ⟨j, round, hj, hr, v, hv, ht, hh, hround, hid⟩
      ⟨j', round', hj', hr', v', hv', ht', hh', hround', hid'⟩
    obtain rfl : j = j' := hinj (hj.trans hj'.symm)
    have hsame : v.SameSlot v' := by
      refine ⟨ht.trans ht'.symm, hh.trans hh'.symm, UInt32.toNat_inj.mp ?_⟩
      rw [hround, hround', hr, hr']
    have heq := (hgood j).honest.unique v hv v' hv' hsame
    rw [hid, hid'] at heq
    exact Option.some.inj heq
  precommit_backed := by
    rintro pk - r b ⟨j, round, hj, rfl, hcast⟩
    exact (hgood j).precommits height round b hcast
  lock_kept := by
    rintro pk - r b r' b' ⟨j, round, hj, rfl, hcast⟩ ⟨j', round', hj', rfl, hcast'⟩ hlt hne
    obtain rfl : j = j' := hinj (hj.trans hj'.symm)
    obtain ⟨s, c, hrs, hsr, hcb, hc⟩ :=
      (hgood j).rule.kept height round b round' b' hcast hcast' hlt hne
    exact ⟨s.toNat, c, hrs, hsr, hcb, hc⟩

variable {rt : Runtime}

theorem eventOk_network {σ σ' : ι → Node B} (hsub : ∀ j, (σ j).castVotes ⊆ (σ' j).castVotes)
    (hcorrect : ∀ pk ∈ vset.members, pk ∉ F → ∃ i, (signer i).publicKey = pk) {i : ι} {e : Event}
    (hgood : Correct (.network signer vset F σ') vset (σ i))
    (hunforged : Unforged rt signer σ (i, e)) (hdis : Disciplined rt signer σ (i, e)) :
    EventOk rt (signer i) (.network signer vset F σ') (σ i) e := by
  have hauth : ∀ v now, e = .message (.vote v) now → (σ i).AcceptsVote rt v →
      Authentic signer σ' v := by
    rintro v now rfl hacc j hj
    have hmem : v.signBytes ∈ (σ j).signedBytes := hunforged hacc j hj
    rw [Node.signedBytes, mem_append] at hmem
    obtain ⟨w, hw, hbytes⟩ := mem_map.mp (hmem.resolve_right (hdis.notReplayed hacc j hj))
    exact ⟨w, hsub j hw, hbytes⟩
  refine ⟨fun _ => hdis.votesOnce, fun _ => hdis.keepsLock, False.elim, False.elim, False.elim,
    hauth, ?_⟩
  intro v now b he hacc hq
  have hsigned := (hgood.filed.recordVote hacc (hauth v now he hacc)).quorumSigned hq
  obtain ⟨-, -, hheight, -, hvset, -⟩ := Node.recordVote_frame (σ i) v
  rw [hheight, hvset, hgood.vset_eq] at hsigned
  exact quorumOf_castBy hcorrect hsigned

variable [DecidableEq ι]

theorem correct_of_run (hcorrect : ∀ pk ∈ vset.members, pk ∉ F → ∃ i, (signer i).publicKey = pk)
    {σ₀ : ι → Node B} (hinit : ∀ i, (σ₀ i).Initial ∧ (σ₀ i).vset = vset) {xs pre : List (ι × Event)}
    (hpre : pre <+: xs) (hunforged : Along (netStep rt signer) (Unforged rt signer) σ₀ xs)
    (hdis : Along (netStep rt signer) (Disciplined rt signer) σ₀ xs) (i : ι) :
    Correct (.network signer vset F (exec (netStep rt signer) σ₀ xs)) vset
      (exec (netStep rt signer) σ₀ pre i) := by
  have hgrows : ∀ (σ : ι → Node B) (ys : List (ι × Event)) (j : ι),
      (σ j).castVotes ⊆ (exec (netStep rt signer) σ ys j).castVotes := fun σ ys j =>
    exec_stepAt_grows (R := fun a b : Node B => a.castVotes ⊆ b.castVotes)
      (fun _ => List.Subset.refl _) (fun _ _ _ => List.Subset.trans)
      (fun k => castVotes_subset_handle rt (signer k)) j
  obtain ⟨post, rfl⟩ := hpre
  have hsteps : Along (netStep rt signer) (fun σ x => Unforged rt signer σ x ∧
      Disciplined rt signer σ x ∧ ∀ j, (σ j).castVotes ⊆
        (exec (netStep rt signer) σ₀ (pre ++ post) j).castVotes) σ₀ pre := by
    rw [along_iff_forall_split]
    rintro first x rest rfl
    rw [append_assoc] at hunforged hdis ⊢
    obtain ⟨-, hunforged, -⟩ := along_append.mp hunforged
    obtain ⟨-, hdis, -⟩ := along_append.mp hdis
    refine ⟨hunforged, hdis, fun j => ?_⟩
    rw [exec_append]
    exact hgrows _ _ j
  refine hsteps.invariant_each (I := fun _ n => Correct (.network signer vset F
    (exec (netStep rt signer) σ₀ (pre ++ post))) vset n) (fun j => ?_) ?_ i
  · rw [← (hinit j).2]
    exact Correct.initial (hinit j).1
  · rintro σ j e hall ⟨hunf, hd, hsub⟩
    exact (handle_moves False.elim (eventOk_network hsub hcorrect (hall j) hunf hd)).invariant
      (fun _ _ h hmove => h.move trivial trivial hmove) (hall j)

/-- **Agreement.**  Let the powers of a validator set fit, let the validators outside `F` be
correct engines with distinct keys, and let `F` hold less than a third of the power.  In every
run of the engines without forged votes that makes no engine vote twice in a slot, leads none
around its lock and plays no proposal back as a vote, two engines that at any times of the run
have decided at one height have decided for one block. -/
theorem decisions_agree (hfits : vset.Fits)
    (hinj : Function.Injective fun i => (signer i).publicKey)
    (hF : 3 * weight vset.power F < vset.totalPower.toNat)
    (hcorrect : ∀ pk ∈ vset.members, pk ∉ F → ∃ i, (signer i).publicKey = pk)
    {σ₀ : ι → Node B} (hinit : ∀ i, (σ₀ i).Initial ∧ (σ₀ i).vset = vset)
    {xs : List (ι × Event)} (hunforged : Along (netStep rt signer) (Unforged rt signer) σ₀ xs)
    (hdis : Along (netStep rt signer) (Disciplined rt signer) σ₀ xs)
    {pre pre' : List (ι × Event)} (hpre : pre <+: xs) (hpre' : pre' <+: xs) {i j : ι}
    {cert cert' : CommitCertificate}
    (hi : (exec (netStep rt signer) σ₀ pre i).state.decided = some cert)
    (hj : (exec (netStep rt signer) σ₀ pre' j).state.decided = some cert')
    (hheight : (exec (netStep rt signer) σ₀ pre i).state.height =
      (exec (netStep rt signer) σ₀ pre' j).state.height) : cert.blockId = cert'.blockId := by
  have hrun := fun {pre : List (ι × Event)} (h : pre <+: xs) =>
    correct_of_run hcorrect hinit h hunforged hdis
  have hlocked := voting_locked hfits hinj hF (hrun prefix_rfl) cert.height
  obtain ⟨hh, r, hq⟩ := (hrun hpre i).decided cert hi
  obtain ⟨hh', r', hq'⟩ := (hrun hpre' j).decided cert' hj
  rw [(hrun hpre i).vset_eq] at hq
  rw [(hrun hpre' j).vset_eq, show cert'.height = cert.height by rw [hh, hh', hheight]] at hq'
  exact hlocked.agreement (quorumOf_castBy hcorrect hq) (quorumOf_castBy hcorrect hq')

end

/-! ## Three engines -/

namespace Sample

/-- The engines of the validators `[1]`, `[2]` and `[3]`. -/
def signers (i : Fin 3) : Signer := signer (UInt8.ofNat (i.val + 1))

def network (_ : Fin 3) : Node Store := node none

def firstDecision : List (Fin 3 × Event) :=
  [(0, wait 1), (1, propose (proposal 1 0 (firstBlock 1 0) none)),
    (0, deliver (prevote 1 1 0)), (0, deliver (prevote 2 1 0)),
    (1, deliver (prevote 1 1 0)), (1, deliver (prevote 2 1 0)),
    (0, deliver (precommit 1 1 0)), (0, deliver (precommit 2 1 0))]

def agreeingRun : List (Fin 3 × Event) :=
  firstDecision ++ [(1, deliver (precommit 1 1 0)), (1, deliver (precommit 2 1 0))]

def disagreeingRun : List (Fin 3 × Event) :=
  firstDecision ++ [(1, wait 1000), (1, wait 1), (2, wait 1000), (2, wait 1000),
    (2, propose (proposal 2 1 (firstBlock 2 1) (some 0))),
    (1, deliver (prevote 2 2 1)), (1, deliver (prevote 3 2 1)),
    (2, deliver (prevote 2 2 1)), (2, deliver (prevote 3 2 1)),
    (1, deliver (precommit 2 2 1)), (1, deliver (precommit 3 2 1))]

theorem signers_injective : Function.Injective fun i => (signers i).publicKey := by
  decide

theorem exists_signer : ∀ pk ∈ ValidatorSet.three.members, ∃ i, (signers i).publicKey = pk := by
  decide

end Sample

/-- Engines 0 and 1 decide for one block. -/
theorem decisions_agree_agreeingRun : ∃ cert cert' : CommitCertificate,
    (exec (netStep runtime signers) network firstDecision
      0).state.decided = some cert ∧
    (exec (netStep runtime signers) network agreeingRun
      1).state.decided = some cert' ∧ cert.blockId = cert'.blockId := by
  have hunforged : Along (netStep runtime signers)
      (Unforged runtime signers) network agreeingRun := by
    decide +kernel
  have hdis : Along (netStep runtime signers)
      (Disciplined runtime signers) network agreeingRun := by
    decide +kernel
  refine ⟨⟨0, blockId (firstBlock 1 0), [precommit 1 1 0, precommit 2 1 0]⟩,
    ⟨0, blockId (firstBlock 1 0), [precommit 1 1 0, precommit 2 1 0]⟩,
    by decide +kernel, by decide +kernel, ?_⟩
  exact decisions_agree (F := ∅) ValidatorSet.fits_three signers_injective (by decide)
    (fun pk hpk _ => exists_signer pk hpk) (fun _ => ⟨node_initial none, rfl⟩)
    hunforged hdis (prefix_append firstDecision _) prefix_rfl (i := 0) (j := 1)
    (by decide +kernel) (by decide +kernel) (by decide +kernel)

/-- No validator is Byzantine, no vote is forged, and engines 0 and 1 decide for different
blocks at one height: engine 1 prevotes its own block in round 1 although it is locked on the
block of round 0. -/
theorem disagreeingRun_decides :
    ValidatorSet.three.Fits ∧ (Function.Injective fun i => (signers i).publicKey) ∧
    (∀ pk ∈ ValidatorSet.three.members, ∃ i, (signers i).publicKey = pk) ∧
    (∀ i, (network i).Initial ∧ (network i).vset = .three) ∧
    Along (netStep runtime signers) (Unforged runtime signers)
      network disagreeingRun ∧
    ∃ (σ : Fin 3 → Node Store) (cert cert' : CommitCertificate),
      σ = exec (netStep runtime signers) network disagreeingRun ∧
      (σ 0).state.decided = some cert ∧ (σ 1).state.decided = some cert' ∧
      (σ 0).state.height = (σ 1).state.height ∧ cert.blockId ≠ cert'.blockId :=
  ⟨ValidatorSet.fits_three, signers_injective, exists_signer,
    fun _ => ⟨node_initial none, rfl⟩, by decide +kernel, _,
    ⟨0, blockId (firstBlock 1 0), [precommit 1 1 0, precommit 2 1 0]⟩,
    ⟨0, blockId (firstBlock 2 1), [precommit 2 2 1, precommit 3 2 1]⟩,
    rfl, by decide +kernel, by decide +kernel, by decide +kernel, by decide +kernel⟩

end IonaOs
