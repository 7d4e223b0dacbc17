import IonaOs.Evidence

/-!
# The stake ledger
-/

namespace IonaOs

open Lib

structure SlashingConfig where
  slashDoubleVote : UInt64 := 20
  slashDoubleProposal : UInt64 := 20
  slashDowntime : UInt64 := 100
  minStakeAfterSlash : UInt64 := 1
  unjailDelay : Height := 1000
  downtimeWindow : UInt64 := 200
  minSigned : UInt64 := 100
  tombstoneAfterRepeated : Bool := true

/-- `SlashingConfig::validate`. -/
def SlashingConfig.validate (c : SlashingConfig) : Except String Unit :=
  if c.slashDoubleVote = 0 then .error "slash_double_vote must be > 0"
  else if c.slashDoubleProposal = 0 then .error "slash_double_proposal must be > 0"
  else if c.slashDowntime = 0 then .error "slash_downtime must be > 0"
  else if c.minStakeAfterSlash = 0 then .error "min_stake_after_slash must be > 0"
  else if c.unjailDelay = 0 then .error "unjail_delay must be > 0"
  else if c.downtimeWindow = 0 then .error "downtime_window must be > 0"
  else if c.minSigned = 0 then .error "min_signed must be > 0"
  else .ok ()

example : SlashingConfig.validate {} = .ok () := by decide

inductive SlashingError where
  | validatorNotFound
  | alreadyActive
  | tombstoned
  | unjailDelayNotElapsed (remaining : Height)
  | stakeTooLow (stake : UInt64)
  | internal (reason : String)
  | divideByZero

inductive ValidatorStatus where
  | active
  | jailed (sinceHeight : Height) (slashCount : UInt32)
  | tombstoned
deriving DecidableEq

structure ValidatorRecord where
  stake : UInt64
  slashedTotal : UInt64
  status : ValidatorStatus
  jailedAt : Option Height
deriving DecidableEq

/-- `ValidatorRecord::new`. -/
def ValidatorRecord.new (stake : UInt64) : ValidatorRecord := ⟨stake, 0, .active, none⟩

/-- `ValidatorRecord::is_tombstoned`. -/
def ValidatorRecord.isTombstoned (r : ValidatorRecord) : Bool := r.status = .tombstoned

/-- `ValidatorRecord::is_active`. -/
def ValidatorRecord.isActive (r : ValidatorRecord) : Bool := r.status = .active

structure StakeLedger where
  validators : Std.ExtTreeMap PublicKeyBytes ValidatorRecord
  communityPool : UInt64
  currentHeight : Height
  config : SlashingConfig

/-- One operation on a ledger, with `remove_validator` left to its own type: it takes a record
away, which none of these does. -/
inductive LedgerOp where
  | addValidator (pk : PublicKeyBytes) (stake : UInt64)
  | applyEvidence (evidence : Evidence)
  | slashDowntime (pk : PublicKeyBytes)
  | unjail (pk : PublicKeyBytes)
  | setHeight (height : Height)

structure Slash where
  pk : PublicKeyBytes
  record : ValidatorRecord
  amount : UInt64
  count : UInt32
  repeated : Bool

namespace StakeLedger

/-- `StakeLedger::new`. -/
def new (cfg : SlashingConfig) : StakeLedger := ⟨∅, 0, 0, cfg⟩

variable (l : StakeLedger)

variable (pk : PublicKeyBytes)

/-- `StakeLedger::get_stake`. -/
def getStake : UInt64 := (l.validators[pk]?.map (·.stake)).getD 0

def fraction : Evidence → UInt64
  | .doubleVote .. => l.config.slashDoubleVote
  | .doubleProposal .. => l.config.slashDoubleProposal

/-- The record of an offender after a slash of `amount`. -/
def slashed (record : ValidatorRecord) (amount : UInt64) : ValidatorRecord :=
  let newStake := satSub record.stake amount
  let slashCount : UInt32 := match record.status with
    | .jailed _ slashCount => slashCount + 1
    | _ => 1
  let slashedTotal := record.slashedTotal + amount
  if l.config.tombstoneAfterRepeated && 2 ≤ slashCount then
    { record with slashedTotal, status := .tombstoned, stake := 0 }
  else if newStake < l.config.minStakeAfterSlash then
    { record with slashedTotal, status := .tombstoned, stake := 0 }
  else
    { slashedTotal, status := .jailed l.currentHeight slashCount, stake := newStake,
      jailedAt := some l.currentHeight }

/-- `StakeLedger::apply_evidence`. -/
def applyEvidence (evidence : Evidence) : Except SlashingError StakeLedger :=
  match l.validators[evidence.offender]? with
  | none => .error .validatorNotFound
  | some record =>
    if record.isTombstoned then .error .tombstoned
    else if l.fraction evidence = 0 then .error .divideByZero
    else
      let slashAmount := max (record.stake / l.fraction evidence) 1
      if slashAmount = 0 then .error (.stakeTooLow record.stake)
      else .ok { l with
        validators := l.validators.insert evidence.offender (l.slashed record slashAmount)
        communityPool := l.communityPool + slashAmount }

def afterEvidence (evidence : Evidence) : StakeLedger :=
  match l.applyEvidence evidence with
  | .ok l' => l'
  | .error _ => l

/-- `StakeLedger::apply_evidence_batch`: one result for each evidence, and the ledger after
all of them. -/
def applyEvidenceBatch (l : StakeLedger) : List Evidence →
    List (Except SlashingError Unit) × StakeLedger
  | [] => ([], l)
  | evidence :: rest =>
    let (results, last) := applyEvidenceBatch (l.afterEvidence evidence) rest
    ((l.applyEvidence evidence).map (fun _ => ()) :: results, last)

/-- `StakeLedger::add_validator`. -/
def addValidator (stake : UInt64) : Except SlashingError StakeLedger :=
  if l.validators.contains pk then .error (.internal "validator already exists")
  else .ok { l with validators := l.validators.insert pk (.new stake) }

/-- `StakeLedger::remove_validator`. -/
def removeValidator : Option ValidatorRecord × StakeLedger :=
  (l.validators[pk]?, { l with validators := l.validators.erase pk })

/-- `StakeLedger::set_height`. -/
def setHeight (height : Height) : StakeLedger := { l with currentHeight := height }

/-- `StakeLedger::unjail`. -/
def unjail : Except SlashingError StakeLedger :=
  match l.validators[pk]? with
  | none => .error .validatorNotFound
  | some record =>
    match record.status with
    | .tombstoned => .error .tombstoned
    | .active => .error .alreadyActive
    | .jailed sinceHeight _ =>
      let remaining := satSub (sinceHeight + l.config.unjailDelay) l.currentHeight
      if 0 < remaining then .error (.unjailDelayNotElapsed remaining)
      else .ok { l with
        validators := l.validators.insert pk { record with status := .active, jailedAt := none } }

/-- The record of a validator after a slash of `amount` for downtime. -/
def slashedForDowntime (record : ValidatorRecord) (amount : UInt64) : ValidatorRecord :=
  let newStake := satSub record.stake amount
  let slashedTotal := record.slashedTotal + amount
  if newStake < l.config.minStakeAfterSlash then
    { record with slashedTotal, status := .tombstoned, stake := 0 }
  else
    { slashedTotal, status := .jailed l.currentHeight 1, stake := newStake,
      jailedAt := some l.currentHeight }

/-- `StakeLedger::slash_downtime`. -/
def slashDowntime : Except SlashingError StakeLedger :=
  match l.validators[pk]? with
  | none => .error .validatorNotFound
  | some record =>
    if !record.isActive then .error (.internal "validator not active")
    else if l.config.slashDowntime = 0 then .error .divideByZero
    else
      let slashAmount := max (record.stake / l.config.slashDowntime) 1
      .ok { l with
        validators := l.validators.insert pk (l.slashedForDowntime record slashAmount)
        communityPool := l.communityPool + slashAmount }

def after : LedgerOp → StakeLedger
  | .addValidator pk stake => (l.addValidator pk stake).toOption.getD l
  | .applyEvidence evidence => l.afterEvidence evidence
  | .slashDowntime pk => (l.slashDowntime pk).toOption.getD l
  | .unjail pk => (l.unjail pk).toOption.getD l
  | .setHeight height => l.setHeight height

/-! ## What an operation does -/

def enter (pk : PublicKeyBytes) (stake : UInt64) : StakeLedger :=
  ⟨l.validators.insert pk (.new stake), l.communityPool, l.currentHeight, l.config⟩

def release (pk : PublicKeyBytes) (record : ValidatorRecord) : StakeLedger :=
  ⟨l.validators.insert pk ⟨record.stake, record.slashedTotal, .active, none⟩,
    l.communityPool, l.currentHeight, l.config⟩

def slashOf : LedgerOp → Option Slash
  | .applyEvidence evidence =>
    match l.validators[evidence.offender]? with
    | none => none
    | some record =>
      if record.isTombstoned ∨ l.fraction evidence = 0 then none
      else
        let count := match record.status with
          | .jailed _ slashCount => slashCount + 1
          | _ => 1
        some ⟨evidence.offender, record, max (record.stake / l.fraction evidence) 1, count,
          l.config.tombstoneAfterRepeated && 2 ≤ count⟩
  | .slashDowntime pk =>
    match l.validators[pk]? with
    | none => none
    | some record =>
      if record.isActive ∧ l.config.slashDowntime ≠ 0 then
        some ⟨pk, record, max (record.stake / l.config.slashDowntime) 1, 1, false⟩
      else none
  | _ => none

def Drops (s : Slash) : Prop :=
  s.repeated = true ∨ satSub s.record.stake s.amount < l.config.minStakeAfterSlash

instance (s : Slash) : Decidable (l.Drops s) := instDecidableOr

def outcome (s : Slash) : ValidatorRecord :=
  if l.Drops s then ⟨0, s.record.slashedTotal + s.amount, .tombstoned, s.record.jailedAt⟩
  else ⟨satSub s.record.stake s.amount, s.record.slashedTotal + s.amount,
    .jailed l.currentHeight s.count, some l.currentHeight⟩

def slash (s : Slash) : StakeLedger :=
  ⟨l.validators.insert s.pk (l.outcome s), l.communityPool + s.amount, l.currentHeight, l.config⟩

theorem getElem?_slash (s : Slash) (k : PublicKeyBytes) :
    (l.slash s).validators[k]? = if s.pk = k then some (l.outcome s) else l.validators[k]? := by
  simp [slash, Std.ExtTreeMap.getElem?_insert]

theorem getElem?_enter (pk k : PublicKeyBytes) (stake : UInt64) :
    (l.enter pk stake).validators[k]? =
      if pk = k then some (.new stake) else l.validators[k]? := by
  simp [enter, Std.ExtTreeMap.getElem?_insert]

theorem getElem?_release (pk k : PublicKeyBytes) (record : ValidatorRecord) :
    (l.release pk record).validators[k]? =
      if pk = k then some ⟨record.stake, record.slashedTotal, .active, none⟩
      else l.validators[k]? := by
  simp [release, Std.ExtTreeMap.getElem?_insert]

variable (pk : PublicKeyBytes)

theorem after_addValidator (stake : UInt64) :
    l.after (.addValidator pk stake) =
      if l.validators.contains pk then l else l.enter pk stake := by
  by_cases hin : l.validators.contains pk = true <;>
    simp [after, addValidator, hin, Except.toOption, enter]

theorem after_unjail :
    l.after (.unjail pk) = l ∨ ∃ record since count, l.validators[pk]? = some record ∧
      record.status = .jailed since count ∧ l.after (.unjail pk) = l.release pk record := by
  simp only [after, unjail]
  cases hrec : l.validators[pk]? with
  | none => exact .inl rfl
  | some record =>
    cases hstatus : record.status with
    | tombstoned | active => exact .inl (by simp [hstatus, Except.toOption])
    | jailed since count =>
      by_cases hrest : 0 < satSub (since + l.config.unjailDelay) l.currentHeight
      · exact .inl (by simp [hstatus, hrest, Except.toOption])
      · exact .inr ⟨record, since, count, rfl, hstatus,
          by simp [hstatus, hrest, Except.toOption, release]⟩

theorem max_one_ne_zero (x : UInt64) : max x 1 ≠ 0 := by
  intro h
  have hzero := congrArg UInt64.toNat h
  rw [toNat_max] at hzero
  simp at hzero

theorem isOk_applyEvidence (e : Evidence) :
    (l.applyEvidence e).isOk = (l.slashOf (.applyEvidence e)).isSome := by
  simp only [applyEvidence, slashOf]
  cases l.validators[e.offender]? with
  | none => rfl
  | some record =>
    by_cases htomb : record.isTombstoned = true
    · simp [htomb, Except.isOk, Except.toBool]
    · by_cases hfrac : l.fraction e = 0
      · simp [htomb, hfrac, Except.isOk, Except.toBool]
      · simp [htomb, hfrac, max_one_ne_zero, Except.isOk, Except.toBool]

theorem after_applyEvidence (e : Evidence) :
    l.after (.applyEvidence e) = (l.slashOf (.applyEvidence e)).elim l l.slash := by
  simp only [after, afterEvidence, applyEvidence, slashOf]
  cases l.validators[e.offender]? with
  | none => rfl
  | some record =>
    by_cases htomb : record.isTombstoned = true
    · simp [htomb]
    by_cases hfrac : l.fraction e = 0
    · simp [htomb, hfrac]
    simp only [htomb, hfrac, max_one_ne_zero, Bool.false_eq_true, or_self, if_false,
      Option.elim_some, slash, outcome, slashed, Drops]
    by_cases hrep : (l.config.tombstoneAfterRepeated && decide (2 ≤ (match record.status with
          | .jailed _ slashCount => slashCount + 1
          | _ => (1 : UInt32)))) = true
    · simp [hrep]
    · simp only [hrep, Bool.false_eq_true, if_false, false_or]

theorem after_slashDowntime :
    l.after (.slashDowntime pk) = (l.slashOf (.slashDowntime pk)).elim l l.slash := by
  simp only [after, slashDowntime, slashOf]
  cases l.validators[pk]? with
  | none => rfl
  | some record =>
    by_cases hact : record.isActive = true
    · by_cases hfrac : l.config.slashDowntime = 0
      · simp [hact, hfrac, Except.toOption]
      · simp [hact, hfrac, Except.toOption, slash, outcome, slashedForDowntime, Drops]
    · simp [hact, Except.toOption]

structure Lands (s : Slash) : Prop where
  found : l.validators[s.pk]? = some s.record
  alive : s.record.status ≠ .tombstoned
  pos : 0 < s.amount.toNat
  le : s.amount.toNat ≤ max s.record.stake.toNat 1

theorem toNat_slashAmount (stake fraction : UInt64) :
    (max (stake / fraction) 1).toNat = max (stake.toNat / fraction.toNat) 1 := by
  rw [toNat_max, UInt64.toNat_div]
  rfl

variable {l} in
theorem lands_of_slashOf {op : LedgerOp} {s : Slash} (h : l.slashOf op = some s) : l.Lands s := by
  have hle (x y : UInt64) : max (x.toNat / y.toNat) 1 ≤ max x.toNat 1 :=
    max_le_max_right 1 (Nat.div_le_self _ _)
  cases op with
  | applyEvidence =>
    simp only [slashOf] at h
    split at h
    · cases h
    rename_i record hrec
    split at h
    · cases h
    rename_i hnot
    cases h
    refine ⟨hrec, ?_, ?_, ?_⟩
    · simpa [ValidatorRecord.isTombstoned] using fun htomb => hnot (.inl htomb)
    · simp [toNat_slashAmount]
    · rw [toNat_slashAmount]
      exact hle _ _
  | slashDowntime =>
    simp only [slashOf] at h
    split at h
    · cases h
    rename_i record hrec
    split at h
    · rename_i hact
      cases h
      refine ⟨hrec, ?_, ?_, ?_⟩
      · have hstatus : record.status = .active := by
          simpa [ValidatorRecord.isActive] using hact.1
        simp [hstatus]
      · simp [toNat_slashAmount]
      · rw [toNat_slashAmount]
        exact hle _ _
    · cases h
  | addValidator | unjail | setHeight => cases h

/-! ## Who is harmed -/

/-- From one ledger to the next, a key loses stake or leaves the status `Active`. -/
def Harms (l l' : StakeLedger) (pk : PublicKeyBytes) : Prop :=
  l'.getStake pk < l.getStake pk ∨
    ((l.validators[pk]?.map (·.status)) = some .active ∧
      (l'.validators[pk]?.map (·.status)) ≠ some .active)

/-- The ledger passes over evidence against `pk`: it has no record, or one that is
tombstoned, or one that is jailed with nothing left to take. -/
def Ignores (pk : PublicKeyBytes) : Prop :=
  ∀ record, l.validators[pk]? = some record →
    record.status = .tombstoned ∨ (record.stake = 0 ∧ record.status ≠ .active)

variable {l}

theorem not_harms_self (pk : PublicKeyBytes) : ¬ l.Harms l pk := by
  rintro (hstake | ⟨hact, hnot⟩)
  · exact absurd hstake (UInt64.lt_irrefl _)
  · exact hnot hact

variable {pk : PublicKeyBytes}

theorem Harms.or {l' l'' : StakeLedger} (h : l.Harms l'' pk) : l.Harms l' pk ∨ l'.Harms l'' pk := by
  rcases h with hlt | ⟨hact, hnot⟩
  · rw [UInt64.lt_iff_toNat_lt] at hlt
    simp only [Harms, UInt64.lt_iff_toNat_lt]
    omega
  · by_cases hmid : l'.validators[pk]?.map (·.status) = some .active
    · exact .inr (.inr ⟨hmid, hnot⟩)
    · exact .inl (.inr ⟨hact, hmid⟩)

theorem afterEvidence_of_ne {e : Evidence} (h : e.offender ≠ pk) :
    (l.afterEvidence e).validators[pk]? = l.validators[pk]? := by
  rw [afterEvidence]
  cases hres : l.applyEvidence e with
  | error => rfl
  | ok =>
    simp only [applyEvidence] at hres
    repeat' split at hres
    any_goals cases hres
    simp [Std.ExtTreeMap.getElem?_insert, h]

theorem stake_slashed_zero {record : ValidatorRecord} {amount : UInt64} (h : record.stake = 0) :
    (l.slashed record amount).stake = 0 := by
  have hzero : satSub 0 amount = 0 := by
    apply UInt64.toNat_inj.mp
    rw [toNat_satSub]
    simp
  simp only [slashed, h, hzero]
  repeat' split
  all_goals rfl

theorem harms_afterEvidence {e : Evidence} (h : l.Harms (l.afterEvidence e) pk) :
    pk = e.offender ∧ ¬ l.Ignores pk := by
  have hpk : e.offender = pk := by
    by_contra hne
    have hsame := afterEvidence_of_ne (l := l) hne
    simp only [Harms, getStake, hsame] at h
    exact not_harms_self pk h
  refine ⟨hpk.symm, ?_⟩
  intro hign
  subst hpk
  rw [afterEvidence] at h
  cases hres : l.applyEvidence e with
  | error =>
    rw [hres] at h
    exact not_harms_self _ h
  | ok =>
    rw [hres] at h
    simp only [applyEvidence] at hres
    split at hres
    · cases hres
    rename_i record hrec
    rcases hign record hrec with htomb | ⟨hstake, hstatus⟩
    · simp [ValidatorRecord.isTombstoned, htomb] at hres
    repeat' split at hres
    any_goals cases hres
    rcases h with hlt | ⟨hact, -⟩
    · simp [getStake, hrec, stake_slashed_zero hstake, hstake] at hlt
    · simp only [hrec, Option.map_some, Option.some.injEq] at hact
      exact hstatus hact

end StakeLedger
end IonaOs
