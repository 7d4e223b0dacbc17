import IonaOs.RepeatOffenders

/-!
# The other way to apply evidence
-/

namespace IonaOs

open Lib StakeLedger Sample

structure SlashingOutcome where
  slashed : Bool
  slashedAmount : UInt64
  remainingStake : UInt64
  jailed : Bool
  tombstoned : Bool
  slashHeight : Height
deriving DecidableEq

def ValidatorRecord.slashCount (r : ValidatorRecord) : UInt32 :=
  match r.status with
  | .jailed _ slashCount => slashCount
  | _ => 0

namespace Application

/-- The record of an offender after a slash of `amount`. -/
def punished (record : ValidatorRecord) (amount : UInt64) (currentHeight : Height) :
    ValidatorRecord where
  stake := satSub record.stake amount
  slashedTotal := record.slashedTotal + amount
  status :=
    if 2 ≤ record.slashCount then .tombstoned
    else .jailed currentHeight (record.slashCount + 1)
  jailedAt := record.jailedAt

/-- `evidence::application::apply_evidence`: the outcome, and the ledger and the set of
processed evidence after it. -/
def applyEvidence (evidence : Evidence) (ledger : StakeLedger) (cfg : EvidenceConfig)
    (processedSet : Finset EvidenceId) :
    Except EvidenceError (SlashingOutcome × StakeLedger × Finset EvidenceId) :=
  if evidence.id ∈ processedSet then .error .alreadyProcessed
  else
    match ledger.validators[evidence.offender]? with
    | none => .error .validatorNotFound
    | some record =>
      if record.isTombstoned then .error .alreadyTombstoned
      else if !evidence.isFresh ledger.currentHeight cfg.maxAge then
        .error (.staleEvidence evidence.height cfg.maxAge)
      else if evidence.slashFraction cfg = 0 then .error .divideByZero
      else
        let slashAmount := max (record.stake / evidence.slashFraction cfg) 1
        .ok (⟨true, slashAmount, satSub record.stake slashAmount, true,
            2 ≤ record.slashCount, ledger.currentHeight⟩,
          { ledger with
            validators := ledger.validators.insert evidence.offender
              (punished record slashAmount ledger.currentHeight) },
          insert evidence.id processedSet)

def SameFractions (cfg : EvidenceConfig) (c : SlashingConfig) : Prop :=
  cfg.slashFractionDoubleVote = c.slashDoubleVote ∧
    cfg.slashFractionDoubleProposal = c.slashDoubleProposal

def SameRecords (l₁ l₂ : StakeLedger) : Prop :=
  ∀ pk : PublicKeyBytes,
    (l₁.validators[pk]?.map fun r => (r.stake, r.slashedTotal, r.status)) =
      l₂.validators[pk]?.map fun r => (r.stake, r.slashedTotal, r.status)

def Concurs (l : StakeLedger) (s : Slash) : Prop :=
  (l.Drops s ↔ 2 ≤ s.record.slashCount) ∧ (l.Drops s → s.record.stake ≤ s.amount)

variable {evidence : Evidence} {l l₁ l₂ : StakeLedger} {cfg : EvidenceConfig}
  {processed processed' : Finset EvidenceId} {outcome : SlashingOutcome} {s : Slash}

theorem applyEvidence_ok
    (h : applyEvidence evidence l cfg processed = .ok (outcome, l₁, processed')) :
    ∃ record, l.validators[evidence.offender]? = some record ∧
      l₁ = { l with
        validators := l.validators.insert evidence.offender
          (punished record (max (record.stake / evidence.slashFraction cfg) 1)
            l.currentHeight) } ∧ processed' = insert evidence.id processed := by
  simp only [applyEvidence] at h
  split at h
  · cases h
  split at h
  · cases h
  rename_i record hrec
  repeat' split at h
  any_goals cases h
  exact ⟨record, hrec, rfl, rfl⟩

theorem slash_of_applyEvidence (h : l.applyEvidence evidence = .ok l₂) :
    ∃ s, l.slashOf (.applyEvidence evidence) = some s ∧ l₂ = l.slash s := by
  have hok := l.isOk_applyEvidence evidence
  have hafter := l.after_applyEvidence evidence
  rw [after, afterEvidence, h] at hafter
  rw [h] at hok
  obtain ⟨s, hs⟩ := Option.isSome_iff_exists.mp hok.symm
  rw [hs] at hafter
  exact ⟨s, hs, hafter⟩

theorem slashFraction_eq (h : SameFractions cfg l.config) (e : Evidence) :
    e.slashFraction cfg = l.fraction e := by
  cases e with
  | doubleVote => exact h.1
  | doubleProposal => exact h.2

section

variable (hs : l.slashOf (.applyEvidence evidence) = some s)
include hs

theorem count_eq : s.count = s.record.slashCount + 1 := by
  rw [(slashOf_applyEvidence hs).2.2.2, ValidatorRecord.slashCount]
  cases s.record.status <;> rfl

theorem sameRecord_iff : ((punished s.record s.amount l.currentHeight).stake = (l.outcome s).stake ∧
      (punished s.record s.amount l.currentHeight).slashedTotal = (l.outcome s).slashedTotal ∧
      (punished s.record s.amount l.currentHeight).status = (l.outcome s).status) ↔
      Concurs l s := by
  have hsub : satSub s.record.stake s.amount = 0 ↔ s.record.stake ≤ s.amount := by
    rw [← UInt64.toNat_inj, toNat_satSub, UInt64.le_iff_toNat_le, UInt64.toNat_zero]
    omega
  simp only [punished, outcome, Concurs]
  by_cases hdrop : l.Drops s
  · simp only [hdrop, if_true, true_iff, true_implies, hsub]
    by_cases hmany : 2 ≤ s.record.slashCount
    · simp [hmany]
    · simp [hmany]
  · simp only [hdrop, if_false, false_iff, false_implies, count_eq hs]
    by_cases hmany : 2 ≤ s.record.slashCount
    · simp [hmany]
    · simp [hmany]

end

end Application

open Application in
/-- **The two ways to apply evidence never leave the same pool.**  They leave the same records
exactly if they punish alike. -/
theorem pools_differ (evidence : Evidence) (l : StakeLedger) (cfg : EvidenceConfig)
    (processed : Finset EvidenceId) (outcome : SlashingOutcome) (l₁ : StakeLedger)
    (processed' : Finset EvidenceId) (l₂ : StakeLedger) (hfractions : SameFractions cfg l.config)
    (h₁ : Application.applyEvidence evidence l cfg processed = .ok (outcome, l₁, processed'))
    (h₂ : l.applyEvidence evidence = .ok l₂) :
    l₁.communityPool ≠ l₂.communityPool ∧
      (SameRecords l₁ l₂ ↔ ∀ s ∈ l.slashOf (.applyEvidence evidence), Concurs l s) := by
  obtain ⟨record, hrec, rfl, -⟩ := applyEvidence_ok h₁
  obtain ⟨s, hs, rfl⟩ := slash_of_applyEvidence h₂
  have hlands := lands_of_slashOf hs
  obtain ⟨hpk, htaken, -, -⟩ := slashOf_applyEvidence hs
  have hrecord : record = s.record := by
    have hfound := hlands.found
    rw [hpk, hrec] at hfound
    exact Option.some.inj hfound
  subst hrecord
  have hamount : max (s.record.stake / evidence.slashFraction cfg) 1 = s.amount := by
    rw [slashFraction_eq hfractions, htaken]
  constructor
  · -- The pool gains at least one unit, and that is not a whole turn.
    intro hpool
    have hzero : s.amount = 0 := left_eq_add.mp hpool
    have hpos := hlands.pos
    rw [hzero] at hpos
    exact absurd hpos (by decide)
  simp only [hs, Option.mem_def, Option.some.injEq, forall_eq', ← sameRecord_iff hs]
  simp only [SameRecords, getElem?_slash, Std.ExtTreeMap.getElem?_insert, hpk, hamount,
    Std.LawfulEqCmp.compare_eq_iff_eq]
  constructor
  · intro hsame
    simpa using hsame evidence.offender
  · intro hsame pk
    by_cases hne : evidence.offender = pk
    · simpa [hne] using hsame
    · simp [hne]

def Sample.oneValidator : StakeLedger := (new {}).enter [1] 1000

theorem pools_differ_oneValidator :
    ∃ l₁ l₂ : StakeLedger, (∃ outcome processed', Application.applyEvidence accusation
        oneValidator {} ∅ = .ok (outcome, l₁, processed')) ∧
      oneValidator.applyEvidence accusation = .ok l₂ ∧
      l₁.communityPool ≠ l₂.communityPool :=
  ⟨_, _, ⟨_, _, rfl⟩, rfl, (pools_differ accusation oneValidator {} ∅ _ _ _ _ ⟨rfl, rfl⟩ rfl rfl).1⟩

/-- A first offence leaves 0 or 50 in the pool; a second one in a row leaves the validator jailed
with a stake, or tombstoned without. -/
theorem first_and_second_offence :
    Application.SameFractions {} oneValidator.config ∧
      (Application.applyEvidence accusation oneValidator {} ∅).toOption.map
        (·.2.1.communityPool) = some 0 ∧
      (oneValidator.applyEvidence accusation).toOption.map
        (·.communityPool) = some 50 ∧
      ∃ l, l = oneValidator.afterEvidence accusation ∧
        (Application.applyEvidence accusation l {} ∅).toOption.bind
          (·.2.1.validators[([1] : PublicKeyBytes)]?) = some ⟨903, 97, .jailed 0 2, some 0⟩ ∧
        (l.applyEvidence accusation).toOption.bind
          (·.validators[([1] : PublicKeyBytes)]?) = some ⟨0, 97, .tombstoned, some 0⟩ :=
  ⟨⟨rfl, rfl⟩, by decide +kernel, by decide +kernel, _, rfl, by decide +kernel,
    by decide +kernel⟩

/-! ## Deduplication -/

namespace Application

structure Report where
  evidence : Evidence
  ledger : StakeLedger
  config : EvidenceConfig

/-- The call, with the ledger and the set as it leaves them. -/
def applyEvidenceIn (r : Report) (processed : Finset EvidenceId) :
    Except EvidenceError SlashingOutcome × StakeLedger × Finset EvidenceId :=
  match applyEvidence r.evidence r.ledger r.config processed with
  | .ok (outcome, ledger, processed) => (.ok outcome, ledger, processed)
  | .error e => (.error e, r.ledger, processed)

/-- The evidence that was applied so far, and the set. -/
def report (s : List Evidence × Finset EvidenceId) (r : Report) :
    List Evidence × Finset EvidenceId :=
  let out := applyEvidenceIn r s.2
  (if out.1.isOk then r.evidence :: s.1 else s.1, out.2.2)

theorem applyEvidenceIn_spec (r : Report) (processed : Finset EvidenceId) :
    ((applyEvidenceIn r processed).1 = .error .alreadyProcessed ↔ r.evidence.id ∈ processed) ∧
      (applyEvidenceIn r processed).2.2 = (if (applyEvidenceIn r processed).1.isOk then
        insert r.evidence.id processed else processed) ∧
      ((applyEvidenceIn r processed).1.isOk = false →
        (applyEvidenceIn r processed).2 = (r.ledger, processed)) := by
  unfold applyEvidenceIn
  cases h : applyEvidence r.evidence r.ledger r.config processed with
  | ok out =>
    obtain ⟨outcome, l₁, processed'⟩ := out
    obtain ⟨-, -, -, rfl⟩ := applyEvidence_ok h
    have hnot : r.evidence.id ∉ processed := by
      intro hmem
      rw [applyEvidence, if_pos hmem] at h
      cases h
    simp [hnot, Except.isOk, Except.toBool]
  | error =>
    refine ⟨?_, rfl, fun _ => rfl⟩
    unfold applyEvidence at h
    split at h
    · simp_all
    · repeat' split at h
      all_goals cases h
      all_goals simp [*]

theorem mem_processed (reports : List Report) :
    let s := exec report ([], ∅) reports
    ∀ i, i ∈ s.2 ↔ ∃ e ∈ s.1, e.id = i := by
  refine exec_invariant (I := fun s : List Evidence × Finset EvidenceId =>
    ∀ i, i ∈ s.2 ↔ ∃ e ∈ s.1, e.id = i) (by simp) ?_
  intro s r hs i
  rw [report, (applyEvidenceIn_spec r s.2).2.1]
  split
  · simp [hs i, eq_comm]
  · exact hs i

theorem id_eq_of_offence {e e' : Evidence} (h : e.offence = e'.offence) : e.id = e'.id := by
  cases e <;> cases e' <;> simp_all [Evidence.offence, Evidence.id, Evidence.offender,
    Evidence.height, Evidence.round]

/-- **After every history, evidence is taken for processed exactly if its offence was applied,
unless only another offence with its identifier was.**  A call that fails changes nothing. -/
theorem dedup_exact_iff (reports : List Report) (r : Report) :
    let s := exec report ([], ∅) reports
    let out := applyEvidenceIn r s.2
    ((out.1 = .error .alreadyProcessed ↔ ∃ e ∈ s.1, e.offence = r.evidence.offence) ↔
      ((∃ e ∈ s.1, e.id = r.evidence.id) → ∃ e ∈ s.1, e.offence = r.evidence.offence)) ∧
    (out.1.isOk = false → out.2 = (r.ledger, s.2)) := by
  intro s out
  obtain ⟨hrej, -, hsame⟩ := applyEvidenceIn_spec r s.2
  refine ⟨?_, hsame⟩
  rw [hrej, mem_processed reports r.evidence.id]
  exact ⟨Iff.mp, fun h => ⟨h, fun ⟨e, he, heq⟩ => ⟨e, he, id_eq_of_offence heq⟩⟩⟩

/-- A vote for nil and one for a block in the same round. -/
def twice (t : VoteType) : Report :=
  let block : Hash32 := .replicate 32 0
  ⟨.doubleVote [1] 1 0 t none block ⟨t, 1, 0, [1], none, []⟩ ⟨t, 1, 0, [1], block, []⟩,
    oneValidator, {}⟩

/-- After double prevotes, double precommits of the same round are turned away as known. -/
theorem precommits_taken_for_prevotes :
    let s := exec report ([], ∅) [twice .prevote]
    s.1.map Evidence.offence = [⟨[1], 1, 0, some .prevote⟩] ∧
      (twice .precommit).evidence.offence = ⟨[1], 1, 0, some .precommit⟩ ∧
      (applyEvidenceIn (twice .precommit) s.2).1 = .error .alreadyProcessed := by
  decide +kernel

end Application

end IonaOs
