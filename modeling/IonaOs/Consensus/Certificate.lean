import IonaOs.Consensus.Messages
import IonaOs.Consensus.Quorum

/-!
# Commit certificates
-/

namespace IonaOs

open Lib ValidatorSet List

inductive ConsensusError where
  | badSignature
  | unknownValidator
  | badStep
  | execution (reason : String)
  | quorumNotReached
  | config (reason : String)
deriving DecidableEq

structure CommitCertificate where
  height : Height
  blockId : Hash32
  precommits : List Vote
deriving DecidableEq

namespace CommitCertificate

variable (verifySig : PublicKeyBytes → List UInt8 → SignatureBytes → Bool) (vset : ValidatorSet)

/-- The loop of `CommitCertificate::verify`, from a power counted so far. -/
def countPower : List Vote → UInt64 → Except ConsensusError UInt64
  | [], power => .ok power
  | vote :: votes, power =>
    if !vset.contains vote.voter then .error .unknownValidator
    else if !verifySig vote.voter vote.signBytes vote.signature then .error .badSignature
    else countPower votes (satAdd power ((vset.powerOf vote.voter).getD 0))

/-- `CommitCertificate::verify`. -/
def verify (cert : CommitCertificate) : Except ConsensusError Unit :=
  match countPower verifySig vset cert.precommits 0 with
  | .error e => .error e
  | .ok power =>
    if power < quorumThreshold vset.totalPower then .error .quorumNotReached else .ok ()

/-! ## What the check accepts -/

variable {verifySig vset} {cert : CommitCertificate}

def WellSigned (verifySig : PublicKeyBytes → List UInt8 → SignatureBytes → Bool)
    (vset : ValidatorSet) (cert : CommitCertificate) : Prop :=
  ∀ v ∈ cert.precommits,
    vset.contains v.voter = true ∧ verifySig v.voter v.signBytes v.signature = true

def listedPower (vset : ValidatorSet) (votes : List Vote) : ℕ :=
  (votes.map (vset.power ·.voter)).sum

theorem countPower_eq_ok {votes : List Vote} {power res : UInt64} :
    countPower verifySig vset votes power = .ok res ↔ (∀ v ∈ votes,
        vset.contains v.voter = true ∧ verifySig v.voter v.signBytes v.signature = true) ∧
      res.toNat = min (power.toNat + listedPower vset votes) (2 ^ 64 - 1) := by
  induction votes generalizing power with
  | nil =>
    have hlt := power.toNat_lt
    simp only [countPower, Except.ok.injEq, not_mem_nil, false_implies, implies_true,
      true_and, listedPower, map_nil, sum_nil, add_zero]
    rw [← UInt64.toNat_inj]
    omega
  | cons v votes ih =>
    rw [countPower]
    by_cases hmem : vset.contains v.voter = true
    · by_cases hsig : verifySig v.voter v.signBytes v.signature = true
      · have hsum : listedPower vset (v :: votes) = vset.power v.voter + listedPower vset votes :=
          sum_cons
        have hpow : vset.power v.voter = ((vset.powerOf v.voter).getD 0).toNat := rfl
        simp only [hmem, hsig, Bool.not_true, Bool.false_eq_true, if_false, ih,
          forall_mem_cons, toNat_satAdd, hsum, hpow, true_and, and_self]
        refine and_congr_right fun _ => ?_
        omega
      · simp [hmem, hsig]
    · simp [hmem]

theorem verify_eq_ok : cert.verify verifySig vset = .ok () ↔ cert.WellSigned verifySig vset ∧
      (quorumThreshold vset.totalPower).toNat ≤ listedPower vset cert.precommits := by
  have hq := (quorumThreshold vset.totalPower).toNat_lt
  rw [verify]
  constructor
  · intro h
    cases hcount : countPower verifySig vset cert.precommits 0 with
    | error => simp [hcount] at h
    | ok res =>
      obtain ⟨hsigned, hres⟩ := countPower_eq_ok.mp hcount
      simp only [hcount] at h
      split at h
      · cases h
      rename_i hge
      rw [UInt64.not_lt, UInt64.le_iff_toNat_le, hres] at hge
      refine ⟨hsigned, hge.trans ?_⟩
      simp
  · rintro ⟨hsigned, hpow⟩
    have hlt : min (0 + listedPower vset cert.precommits) (2 ^ 64 - 1) < 2 ^ 64 := by omega
    have hcount : countPower verifySig vset cert.precommits 0 =
        .ok (UInt64.ofNat (min (0 + listedPower vset cert.precommits) (2 ^ 64 - 1))) := by
      refine countPower_eq_ok.mpr ⟨hsigned, ?_⟩
      rw [UInt64.toNat_ofNat', Nat.mod_eq_of_lt hlt]
      rfl
    simp only [hcount]
    rw [if_neg]
    rw [UInt64.not_lt, UInt64.le_iff_toNat_le, UInt64.toNat_ofNat', Nat.mod_eq_of_lt hlt]
    omega

/-! ## What an accepted certificate proves -/

def IsPrecommit (cert : CommitCertificate) (round : Round) (v : Vote) : Prop :=
  v.voteType = .precommit ∧ v.height = cert.height ∧ v.round = round ∧
    v.blockId = some cert.blockId
deriving Decidable

def Backed (verifySig : PublicKeyBytes → List UInt8 → SignatureBytes → Bool)
    (vset : ValidatorSet) (cert : CommitCertificate) : Prop :=
  ∃ (round : Round) (S : Finset PublicKeyBytes), S ⊆ vset.members ∧
    (∀ pk ∈ S, ∃ v ∈ cert.precommits, v.voter = pk ∧ cert.IsPrecommit round v ∧
      verifySig pk v.signBytes v.signature = true) ∧
    (quorumThreshold vset.totalPower).toNat ≤ weight vset.power S

/-- The list holds precommits for the certificate's block at its height in one round, and no two of
one voter. -/
structure Uniform (cert : CommitCertificate) (round : Round) : Prop where
  precommits : ∀ v ∈ cert.precommits, cert.IsPrecommit round v
  nodup : (cert.precommits.map Vote.voter).Nodup

/-- **When acceptance proves a quorum.**  A certificate that lists nothing but precommits for its
block at its height in one round, one for each voter, is backed if `verify` accepts it. -/
theorem Uniform.backed_of_verify {round : Round} (h : cert.Uniform round)
    (hok : cert.verify verifySig vset = .ok ()) : cert.Backed verifySig vset := by
  obtain ⟨hsigned, hpow⟩ := verify_eq_ok.mp hok
  have hvoter : ∀ pk ∈ (cert.precommits.map Vote.voter).toFinset,
      ∃ v ∈ cert.precommits, v.voter = pk := by
    intro pk hpk
    exact mem_map.mp (mem_toFinset.mp hpk)
  refine ⟨round, (cert.precommits.map Vote.voter).toFinset, ?_, ?_, ?_⟩
  · intro pk hpk
    obtain ⟨v, hv, rfl⟩ := hvoter pk hpk
    exact vset.mem_members.mpr (hsigned v hv).1
  · intro pk hpk
    obtain ⟨v, hv, rfl⟩ := hvoter pk hpk
    exact ⟨v, hv, rfl, h.precommits v hv, (hsigned v hv).2⟩
  · -- no voter is listed twice, so the loop's sum is the power of the set
    rw [weight, sum_toFinset _ h.nodup, map_map]
    exact hpow

/-- Two precommits with a power of 7 of 10. -/
theorem backed_of_verify_two : ∃ cert : CommitCertificate, cert.precommits.length = 2 ∧
    cert.verify (fun _ _ _ => true) .three = .ok () ∧ cert.Backed (fun _ _ _ => true) .three := by
  let vote (pk : PublicKeyBytes) : Vote := ⟨.precommit, 0, 0, pk, some (.replicate 32 7), [9]⟩
  let cert : CommitCertificate := ⟨0, .replicate 32 7, [vote [1], vote [2]]⟩
  have huniform : cert.Uniform 0 := ⟨by decide, by decide⟩
  have hok : cert.verify (fun _ _ _ => true) .three = .ok () := by decide
  exact ⟨cert, rfl, hok, huniform.backed_of_verify hok⟩

/-- A certificate that lists one precommit of the validator `[1]` three times. -/
def thrice : CommitCertificate :=
  ⟨0, .replicate 32 7,
    List.replicate 3 ⟨.precommit, 0, 0, [1], some (.replicate 32 7), [9]⟩⟩

/-- A verifier that accepts signatures of the validator `[1]` only. -/
def onlyFirst (pk : PublicKeyBytes) (_ : List UInt8) (_ : SignatureBytes) : Bool := pk == [1]

/-- One validator of power 3 is taken for a quorum of 7: `verify` accepts the certificate that
repeats its vote, and no set of validators whose signatures verify at all has the power. -/
theorem verify_thrice : thrice.verify onlyFirst .three = .ok () ∧
    ¬ thrice.Backed onlyFirst .three ∧
    ∀ round (S : Finset PublicKeyBytes), (∀ pk ∈ S, ∃ sig, onlyFirst pk
      (voteSignBytes .precommit thrice.height round (some thrice.blockId)) sig = true) →
      weight ValidatorSet.three.power S <
        (quorumThreshold ValidatorSet.three.totalPower).toNat := by
  have hsmall : ∀ S : Finset PublicKeyBytes, (∀ pk ∈ S, pk = [1]) →
      weight three.power S <
        (quorumThreshold three.totalPower).toNat := by
    intro S hS
    have hsub : S ⊆ {[1]} := fun pk hpk => Finset.mem_singleton.mpr (hS pk hpk)
    calc weight three.power S
        ≤ weight three.power {[1]} := weight_mono _ hsub
      _ < (quorumThreshold three.totalPower).toNat := by decide
  refine ⟨by decide, ?_, ?_⟩
  · rintro ⟨round, S, -, hS, hq⟩
    refine absurd hq (Nat.not_le.mpr (hsmall S fun pk hpk => ?_))
    obtain ⟨v, -, -, -, hver⟩ := hS pk hpk
    exact beq_iff_eq.mp hver
  · intro round S hS
    refine hsmall S fun pk hpk => ?_
    obtain ⟨sig, hver⟩ := hS pk hpk
    exact beq_iff_eq.mp hver

end CommitCertificate
end IonaOs
