import IonaOs.Slashing
import IonaOs.Lib.MapSum
import IonaOs.Lib.Run

/-!
# Stake in the ledger
-/

namespace IonaOs

open Lib StakeLedger

inductive LedgerCall where
  | one (op : LedgerOp)
  | applyEvidenceBatch (evidence : List Evidence)

def LedgerCall.ops : LedgerCall → List LedgerOp
  | .one op => [op]
  | .applyEvidenceBatch evidence => evidence.map .applyEvidence

def StakeLedger.Even (l : StakeLedger) (op : LedgerOp) : Prop :=
  ∀ s ∈ l.slashOf op,
    (s.amount.toNat = s.record.stake.toNat ∨
      (s.repeated = false ∧
        l.config.minStakeAfterSlash.toNat + s.amount.toNat ≤ s.record.stake.toNat)) ∧
    l.communityPool.toNat + s.amount.toNat < 2 ^ 64
deriving Decidable

structure Books where
  ledger : StakeLedger
  added : Std.ExtTreeMap PublicKeyBytes UInt64

namespace Books

def start (cfg : SlashingConfig) : Books := ⟨.new cfg, ∅⟩

section

variable (b : Books)

def addedBy : LedgerOp → Std.ExtTreeMap PublicKeyBytes UInt64
  | .addValidator pk stake =>
    if (b.ledger.addValidator pk stake).isOk then b.added.insert pk stake else b.added
  | _ => b.added

def step (op : LedgerOp) : Books := ⟨b.ledger.after op, b.addedBy op⟩

def call : LedgerCall → Books
  | .one op => b.step op
  | .applyEvidenceBatch evidence => ⟨(b.ledger.applyEvidenceBatch evidence).2, b.added⟩

def Exact (pk : PublicKeyBytes) (record : ValidatorRecord) : Prop :=
  b.added[pk]?.map UInt64.toNat = some (record.stake.toNat + record.slashedTotal.toNat)

@[mk_iff] structure Conserved : Prop where
  total : valueSum (fun r : ValidatorRecord => r.stake.toNat) b.ledger.validators +
    b.ledger.communityPool.toNat = valueSum UInt64.toNat b.added
  records : ∀ pk record, b.ledger.validators[pk]? = some record → b.Exact pk record
  pool : b.ledger.communityPool.toNat =
    valueSum (fun r : ValidatorRecord => r.slashedTotal.toNat) b.ledger.validators

structure Sound (cfg : SlashingConfig) : Prop where
  config : b.ledger.config = cfg
  fresh : ∀ pk : PublicKeyBytes, b.ledger.validators[pk]? = none → b.added[pk]? = none
  live : ∀ pk record, b.ledger.validators[pk]? = some record → record.status ≠ .tombstoned →
    b.Exact pk record ∧ (record.stake = 0 → record.slashedTotal = 0)
  pool : b.ledger.communityPool.toNat =
    valueSum (fun r : ValidatorRecord => r.slashedTotal.toNat) b.ledger.validators % 2 ^ 64

end

variable {b : Books} {cfg : SlashingConfig} {s : Slash} {pk : PublicKeyBytes}
  {record : ValidatorRecord} {stake : UInt64}

/-! ## A batch is its operations one after the other -/

theorem call_eq_exec (c : LedgerCall) : b.call c = exec step b c.ops := by
  cases c with
  | one => rfl
  | applyEvidenceBatch evidence =>
    simp only [call, LedgerCall.ops]
    induction evidence generalizing b with
    | nil => rfl
    | cons _ _ ih =>
      simp only [List.map_cons, exec_cons, ← ih, applyEvidenceBatch]
      rfl

theorem exec_call (calls : List LedgerCall) :
    exec call b calls = exec step b (calls.flatMap LedgerCall.ops) := by
  induction calls generalizing b with
  | nil => rfl
  | cons _ _ ih => rw [exec_cons, ih, List.flatMap_cons, exec_append, call_eq_exec]

/-! ## A slash -/

def slash (b : Books) (s : Slash) : Books := ⟨b.ledger.slash s, b.added⟩

section

variable (h : b.Sound cfg)
include h

theorem live_le (hrec : b.ledger.validators[pk]? = some record)
    (halive : record.status ≠ .tombstoned) :
    record.stake.toNat + record.slashedTotal.toNat < 2 ^ 64 := by
  have hexact := (h.live pk record hrec halive).1
  simp only [Exact, Option.map_eq_some_iff] at hexact
  obtain ⟨stake, -, hstake⟩ := hexact
  have hlt := stake.toNat_lt
  omega

section

variable (hs : b.ledger.Lands s)
include hs

theorem slashedTotal_outcome : (b.ledger.outcome s).slashedTotal.toNat =
      s.record.slashedTotal.toNat + s.amount.toNat := by
  have heq : (b.ledger.outcome s).slashedTotal = s.record.slashedTotal + s.amount := by
    rw [outcome]
    split <;> rfl
  have hlt := live_le h hs.found hs.alive
  have hle := hs.le
  rw [heq, UInt64.toNat_add]
  apply Nat.mod_eq_of_lt
  by_cases hzero : s.record.stake = 0
  · have hnone := (h.live _ _ hs.found hs.alive).2 hzero
    simp only [hzero, hnone, UInt64.toNat_zero] at hle ⊢
    omega
  · have hpos : 0 < s.record.stake.toNat := by
      rw [← UInt64.toNat_inj, UInt64.toNat_zero] at hzero
      omega
    omega

omit hs in
omit h in
theorem stake_outcome_iff (hmin : 0 < b.ledger.config.minStakeAfterSlash.toNat) :
    (b.ledger.outcome s).stake.toNat + s.amount.toNat = s.record.stake.toNat ↔
      s.amount.toNat = s.record.stake.toNat ∨ (s.repeated = false ∧
        b.ledger.config.minStakeAfterSlash.toNat + s.amount.toNat ≤ s.record.stake.toNat) := by
  have hsub := toNat_satSub s.record.stake s.amount
  by_cases hdrop : b.ledger.Drops s
  · have hzero : (b.ledger.outcome s).stake.toNat = 0 := by
      simp [outcome, hdrop]
    rw [hzero]
    rcases hdrop with hrep | hlow
    · simp [hrep]
    · rw [UInt64.lt_iff_toNat_lt] at hlow
      omega
  · have hstake : (b.ledger.outcome s).stake = satSub s.record.stake s.amount := by
      simp [outcome, hdrop]
    simp only [Drops, not_or, Bool.not_eq_true, UInt64.not_lt, UInt64.le_iff_toNat_le] at hdrop
    rw [hstake]
    simp only [hdrop.1, true_and]
    omega

theorem valueSum_slashed_slash :
    valueSum (fun r : ValidatorRecord => r.slashedTotal.toNat) (b.slash s).ledger.validators =
      valueSum (fun r : ValidatorRecord => r.slashedTotal.toNat) b.ledger.validators +
        s.amount.toNat := by
  have hput := valueSum_insert (fun r : ValidatorRecord => r.slashedTotal.toNat)
    b.ledger.validators s.pk (b.ledger.outcome s)
  rw [hs.found, slashedTotal_outcome h hs] at hput
  simp only [Option.map_some, Option.getD_some] at hput
  change valueSum _ (b.ledger.validators.insert s.pk (b.ledger.outcome s)) = _
  omega

omit hs in
omit h in
theorem getElem?_slash (k : PublicKeyBytes) :
    (b.slash s).ledger.validators[k]? =
      if s.pk = k then some (b.ledger.outcome s) else b.ledger.validators[k]? :=
  b.ledger.getElem?_slash s k

omit hs in
omit h in
theorem toNat_pool_slash :
    (b.slash s).ledger.communityPool.toNat =
      (b.ledger.communityPool.toNat + s.amount.toNat) % 2 ^ 64 := UInt64.toNat_add ..

theorem exact_outcome_iff : (b.slash s).Exact s.pk (b.ledger.outcome s) ↔
      (b.ledger.outcome s).stake.toNat + s.amount.toNat = s.record.stake.toNat := by
  have hlive := (h.live _ _ hs.found hs.alive).1
  simp only [Exact] at hlive
  simp only [Exact, slash, hlive, slashedTotal_outcome h hs, Option.some.injEq]
  omega

omit hs in
theorem Sound.slash (hmin : 0 < cfg.minStakeAfterSlash.toNat) (hs : b.ledger.Lands s) :
    (b.slash s).Sound cfg := by
  refine ⟨h.config, ?_, ?_, ?_⟩
  · intro k hk
    rw [getElem?_slash] at hk
    split at hk
    · cases hk
    · exact h.fresh k hk
  · rw [forall_write_iff getElem?_slash]
    refine ⟨?_, fun k record _ hk => h.live k record hk⟩
    -- Who is not tombstoned keeps the minimum, so the slash was within the stake.
    intro halive
    have hdrop : ¬ b.ledger.Drops s := by
      intro hdrop
      simp [outcome, hdrop] at halive
    have hstake : (b.ledger.outcome s).stake = satSub s.record.stake s.amount := by
      simp [outcome, hdrop]
    have hsub := toNat_satSub s.record.stake s.amount
    have hleft : ¬ satSub s.record.stake s.amount < b.ledger.config.minStakeAfterSlash :=
      fun hlow => hdrop (.inr hlow)
    rw [h.config, UInt64.not_lt, UInt64.le_iff_toNat_le] at hleft
    constructor
    · rw [exact_outcome_iff h hs, hstake]
      omega
    intro hzero
    rw [hstake] at hzero
    rw [hzero, UInt64.toNat_zero] at hleft
    omega
  · rw [toNat_pool_slash, valueSum_slashed_slash h hs, h.pool, Nat.mod_add_mod]

theorem records_iff : (∀ k record, b.ledger.validators[k]? = some record → b.Exact k record) ↔
      ∀ k record, s.pk ≠ k → b.ledger.validators[k]? = some record → b.Exact k record := by
  have hsame : ∀ k : PublicKeyBytes, b.ledger.validators[k]? =
      if s.pk = k then some s.record else b.ledger.validators[k]? := by
    intro k
    by_cases hk : s.pk = k
    · rw [if_pos hk, ← hk, hs.found]
    · rw [if_neg hk]
  rw [forall_write_iff hsame]
  exact and_iff_right (h.live _ _ hs.found hs.alive).1

end

theorem conserved_slash_iff (hmin : 0 < cfg.minStakeAfterSlash.toNat) (hs : b.ledger.Lands s) :
    (b.slash s).Conserved ↔ b.Conserved ∧
      (s.amount.toNat = s.record.stake.toNat ∨ (s.repeated = false ∧
        b.ledger.config.minStakeAfterSlash.toNat + s.amount.toNat ≤ s.record.stake.toNat)) ∧
      b.ledger.communityPool.toNat + s.amount.toNat < 2 ^ 64 := by
  have hstakes : valueSum (fun r : ValidatorRecord => r.stake.toNat)
      (b.slash s).ledger.validators + _ = _ :=
    valueSum_insert _ b.ledger.validators s.pk (b.ledger.outcome s)
  rw [hs.found, Option.map_some, Option.getD_some] at hstakes
  have hslashed := valueSum_slashed_slash h hs
  have hpool := toNat_pool_slash (b := b) (s := s)
  have hrecords := (forall_write_iff (P := (b.slash s).Exact)
    (getElem?_slash (b := b) (s := s))).trans (and_congr_left' (exact_outcome_iff h hs))
  rw [← stake_outcome_iff (by rwa [h.config])]
  constructor
  · intro hc
    obtain ⟨heven, hothers⟩ := hrecords.mp hc.records
    -- The sum of what was slashed fits now, so it did before, and the pool was that sum.
    have hnow := hc.pool
    have hfits := (b.slash s).ledger.communityPool.toNat_lt
    have hmod := h.pool
    rw [hslashed] at hnow
    have hold := Nat.mod_eq_of_lt (a := valueSum (fun r : ValidatorRecord =>
      r.slashedTotal.toNat) b.ledger.validators) (b := 2 ^ 64) (by omega)
    have htotal := hc.total
    change _ = valueSum UInt64.toNat b.added at htotal
    exact ⟨⟨by omega, (records_iff h hs).mpr hothers, by omega⟩, heven, by omega⟩
  · rintro ⟨hc, heven, hfits⟩
    rw [Nat.mod_eq_of_lt hfits] at hpool
    have htotal := hc.total
    have hsame := hc.pool
    refine ⟨?_, hrecords.mpr ⟨heven, (records_iff h hs).mp hc.records⟩, by omega⟩
    change _ = valueSum UInt64.toNat b.added
    omega

end

/-! ## The other operations -/

def enter (b : Books) (pk : PublicKeyBytes) (stake : UInt64) : Books :=
  ⟨b.ledger.enter pk stake, b.added.insert pk stake⟩

def release (b : Books) (pk : PublicKeyBytes) (record : ValidatorRecord) : Books :=
  ⟨b.ledger.release pk record, b.added⟩

def atHeight (b : Books) (height : Height) : Books := ⟨b.ledger.setHeight height, b.added⟩

theorem exact_enter (k : PublicKeyBytes) :
    (b.enter pk stake).Exact k record ↔
      if pk = k then stake.toNat = record.stake.toNat + record.slashedTotal.toNat
      else b.Exact k record := by
  by_cases hk : pk = k <;> simp [Exact, enter, Std.ExtTreeMap.getElem?_insert, hk]

theorem getElem?_enter (k : PublicKeyBytes) :
    (b.enter pk stake).ledger.validators[k]? =
      if pk = k then some (.new stake) else b.ledger.validators[k]? :=
  b.ledger.getElem?_enter pk k stake

theorem valueSum_enter (f : ValidatorRecord → ℕ) (hnone : b.ledger.validators[pk]? = none) :
    valueSum f (b.enter pk stake).ledger.validators =
      valueSum f b.ledger.validators + f (.new stake) := by
  have hput := valueSum_insert f b.ledger.validators pk (.new stake)
  rwa [hnone] at hput

theorem Sound.enter (h : b.Sound cfg) (hnone : b.ledger.validators[pk]? = none) :
    (b.enter pk stake).Sound cfg := by
  refine ⟨h.config, ?_, ?_, ?_⟩
  · intro k hk
    rw [getElem?_enter] at hk
    split at hk
    · cases hk
    · rename_i hne
      simpa [Books.enter, Std.ExtTreeMap.getElem?_insert, hne] using h.fresh k hk
  · rw [forall_write_iff getElem?_enter]
    refine ⟨fun _ => by simp [exact_enter, ValidatorRecord.new], ?_⟩
    intro k record hne hk halive
    simpa [exact_enter, hne] using h.live k record hk halive
  · rw [valueSum_enter _ hnone]
    exact h.pool

theorem conserved_enter_iff (h : b.Sound cfg) (hnone : b.ledger.validators[pk]? = none) :
    (b.enter pk stake).Conserved ↔ b.Conserved := by
  have hadded : valueSum UInt64.toNat (b.enter pk stake).added =
      valueSum UInt64.toNat b.added + stake.toNat := by
    have hput := valueSum_insert UInt64.toNat b.added pk stake
    rwa [h.fresh pk hnone] at hput
  have hpool : (b.enter pk stake).ledger.communityPool = b.ledger.communityPool := rfl
  have htotal : (valueSum (fun r : ValidatorRecord => r.stake.toNat)
      (b.enter pk stake).ledger.validators + (b.enter pk stake).ledger.communityPool.toNat =
        valueSum UInt64.toNat (b.enter pk stake).added) ↔
      valueSum (fun r : ValidatorRecord => r.stake.toNat) b.ledger.validators +
        b.ledger.communityPool.toNat = valueSum UInt64.toNat b.added := by
    have hnew : (ValidatorRecord.new stake).stake.toNat = stake.toNat := rfl
    rw [valueSum_enter _ hnone, hadded, hpool, hnew]
    omega
  have hrecords : (∀ k r, (b.enter pk stake).ledger.validators[k]? = some r →
      (b.enter pk stake).Exact k r) ↔
      ∀ k r, b.ledger.validators[k]? = some r → b.Exact k r := by
    rw [forall_write_iff getElem?_enter]
    constructor
    · intro hc k r hk
      have hne : pk ≠ k := by
        intro heq
        simp [← heq, hnone] at hk
      simpa [exact_enter, hne] using hc.2 k r hne hk
    · intro hc
      refine ⟨by simp [exact_enter, ValidatorRecord.new], ?_⟩
      intro k r hne hk
      simpa [exact_enter, hne] using hc k r hk
  rw [conserved_iff, conserved_iff, htotal, hrecords, valueSum_enter _ hnone]
  rfl

theorem getElem?_release (k : PublicKeyBytes) :
    (b.release pk record).ledger.validators[k]? =
      if pk = k then some ⟨record.stake, record.slashedTotal, .active, none⟩
      else b.ledger.validators[k]? :=
  b.ledger.getElem?_release pk k record

theorem valueSum_release (f : ValidatorRecord → ℕ) (hrec : b.ledger.validators[pk]? = some record)
    (hf : f ⟨record.stake, record.slashedTotal, .active, none⟩ = f record) :
    valueSum f (b.release pk record).ledger.validators = valueSum f b.ledger.validators := by
  have hput := valueSum_insert f b.ledger.validators pk
    ⟨record.stake, record.slashedTotal, .active, none⟩
  rw [hrec, hf] at hput
  exact Nat.add_right_cancel hput

theorem Sound.release (h : b.Sound cfg) (hrec : b.ledger.validators[pk]? = some record)
    (halive : record.status ≠ .tombstoned) : (b.release pk record).Sound cfg := by
  refine ⟨h.config, ?_, ?_, ?_⟩
  · intro k hk
    rw [getElem?_release] at hk
    split at hk
    · cases hk
    · exact h.fresh k hk
  · rw [forall_write_iff getElem?_release]
    exact ⟨fun _ => h.live pk record hrec halive, fun k record' _ hk => h.live k record' hk⟩
  · rw [valueSum_release _ hrec rfl]
    exact h.pool

theorem conserved_release_iff (hrec : b.ledger.validators[pk]? = some record) :
    (b.release pk record).Conserved ↔ b.Conserved := by
  have hrecords : (∀ k r, (b.release pk record).ledger.validators[k]? = some r →
      (b.release pk record).Exact k r) ↔
      ∀ k r, b.ledger.validators[k]? = some r → b.Exact k r := by
    rw [forall_write_iff getElem?_release]
    constructor
    · intro hc k r hk
      by_cases heq : pk = k
      · subst heq
        rw [hrec] at hk
        cases hk
        exact hc.1
      · exact hc.2 k r heq hk
    · intro hc
      exact ⟨hc pk record hrec, fun k r _ hk => hc k r hk⟩
  rw [conserved_iff, conserved_iff, hrecords, valueSum_release _ hrec rfl,
    valueSum_release _ hrec rfl]
  rfl

/-! ## One step and a run -/

theorem step_cases (b : Books) (op : LedgerOp) :
    (∃ s, b.ledger.slashOf op = some s ∧ b.step op = b.slash s) ∨
    (b.ledger.slashOf op = none ∧
      (b.step op = b ∨
        (∃ pk stake, b.ledger.validators[pk]? = none ∧ b.step op = b.enter pk stake) ∨
        (∃ pk record, b.ledger.validators[pk]? = some record ∧ record.status ≠ .tombstoned ∧
          b.step op = b.release pk record) ∨
        ∃ height, b.step op = b.atHeight height)) := by
  cases op with
  | applyEvidence e =>
    simp only [step, after_applyEvidence]
    cases b.ledger.slashOf (.applyEvidence e) with
    | none => exact .inr ⟨rfl, .inl rfl⟩
    | some s => exact .inl ⟨s, rfl, rfl⟩
  | slashDowntime pk =>
    simp only [step, after_slashDowntime]
    cases b.ledger.slashOf (.slashDowntime pk) with
    | none => exact .inr ⟨rfl, .inl rfl⟩
    | some s => exact .inl ⟨s, rfl, rfl⟩
  | addValidator pk stake =>
    refine .inr ⟨rfl, ?_⟩
    simp only [step, after_addValidator, addedBy, addValidator]
    by_cases hin : b.ledger.validators.contains pk = true
    · left
      simp [hin, Except.isOk, Except.toBool]
    · refine .inr (.inl ⟨pk, stake, ?_, ?_⟩)
      · simpa using hin
      · simp [hin, Except.isOk, Except.toBool, enter]
  | unjail pk =>
    refine .inr ⟨rfl, ?_⟩
    simp only [step, addedBy]
    rcases b.ledger.after_unjail pk with heq | ⟨record, since, count, hrec, hstatus, heq⟩
    · exact .inl (by rw [heq])
    · refine .inr (.inr (.inl ⟨pk, record, hrec, by simp [hstatus], ?_⟩))
      rw [heq, release]
  | setHeight height => exact .inr ⟨rfl, .inr (.inr (.inr ⟨height, rfl⟩))⟩

theorem Sound.step (h : b.Sound cfg) (hmin : 0 < cfg.minStakeAfterSlash.toNat)
    (op : LedgerOp) : (b.step op).Sound cfg := by
  rcases step_cases b op with ⟨s, hs, heq⟩ | ⟨-, heq | ⟨pk, stake, hnone, heq⟩ |
    ⟨pk, record, hrec, halive, heq⟩ | ⟨height, heq⟩⟩
  all_goals rw [heq]
  · exact h.slash hmin (lands_of_slashOf hs)
  · exact h
  · exact h.enter hnone
  · exact h.release hrec halive
  · exact ⟨h.config, h.fresh, h.live, h.pool⟩

theorem conserved_step_iff (h : b.Sound cfg) (hmin : 0 < cfg.minStakeAfterSlash.toNat)
    (op : LedgerOp) : (b.step op).Conserved ↔ b.Conserved ∧ b.ledger.Even op := by
  rcases step_cases b op with ⟨s, hs, heq⟩ | ⟨hnone, hquiet⟩
  · rw [heq, conserved_slash_iff h hmin (lands_of_slashOf hs)]
    simp [StakeLedger.Even, hs]
  have heven : b.ledger.Even op := by simp [StakeLedger.Even, hnone]
  rw [and_iff_left heven]
  rcases hquiet with heq | ⟨pk, stake, hfree, heq⟩ | ⟨pk, record, hrec, -, heq⟩ | ⟨height, heq⟩
  all_goals rw [heq]
  · exact conserved_enter_iff h hfree
  · exact conserved_release_iff hrec
  · exact ⟨fun hc => ⟨hc.total, hc.records, hc.pool⟩, fun hc => ⟨hc.total, hc.records, hc.pool⟩⟩

theorem sound_start (cfg : SlashingConfig) : (start cfg).Sound cfg :=
  ⟨rfl, by simp [start], by simp [start, new], rfl⟩

end Books

theorem SlashingConfig.minStake_pos {cfg : SlashingConfig} (h : cfg.validate = .ok ()) :
    0 < cfg.minStakeAfterSlash.toNat := by
  simp only [SlashingConfig.validate] at h
  repeat' split at h
  any_goals cases h
  rename_i hmin _ _ _
  rw [← UInt64.toNat_inj, UInt64.toNat_zero] at hmin
  omega

/-- **Stake is conserved exactly in the runs whose slashes are all even.** -/
theorem conserved_iff (cfg : SlashingConfig) (hvalid : cfg.validate = .ok ())
    (calls : List LedgerCall) :
    (exec Books.call (.start cfg) calls).Conserved ↔
      Along Books.step (fun b op => b.ledger.Even op) (.start cfg)
        (calls.flatMap LedgerCall.ops) := by
  have hmin := SlashingConfig.minStake_pos hvalid
  rw [Books.exec_call]
  refine (exec_iff_along_of_invariant (I := fun b => b.Sound cfg) ?_ ?_
    (Books.sound_start cfg)).trans
      (and_iff_right ⟨rfl, by simp [Books.start, new], rfl⟩)
  · intro b op h
    exact h.step hmin op
  · intro b op h
    exact Books.conserved_step_iff h hmin op

def Sample.accusation : Evidence := .doubleProposal [1] 0 0 none none none none

/-- One offence, a release after the delay, and a slash for downtime: nothing is lost. -/
theorem conserved_after_release :
    SlashingConfig.validate {} = .ok () ∧
      (exec Books.call (.start {}) [.one (.addValidator [1] 1000),
        .applyEvidenceBatch [Sample.accusation], .one (.setHeight 1000), .one (.unjail [1]),
        .one (.slashDowntime [1])]).Conserved :=
  ⟨by decide, (conserved_iff {} (by decide) _).mpr (by decide +kernel)⟩

/-- Two offences in a row: of 1000 staked, 97 are in the pool, and the rest is nowhere.  And a
validator without stake is slashed by one unit that nobody had. -/
theorem stake_lost_and_made :
    (∃ b, b = exec Books.call (.start {}) [.one (.addValidator [1] 1000),
        .applyEvidenceBatch [Sample.accusation, Sample.accusation]] ∧
      b.ledger.validators[([1] : PublicKeyBytes)]? = some ⟨0, 97, .tombstoned, some 0⟩ ∧
      b.ledger.communityPool = 97 ∧ ¬ b.Conserved) ∧
    ∃ b, b = exec Books.call (.start {}) [.one (.addValidator [1] 0),
        .one (.slashDowntime [1])] ∧
      b.ledger.validators[([1] : PublicKeyBytes)]? = some ⟨0, 1, .tombstoned, none⟩ ∧
      b.ledger.communityPool = 1 ∧ ¬ b.Conserved := by
  refine ⟨⟨_, rfl, by decide +kernel, by decide +kernel, ?_⟩,
    ⟨_, rfl, by decide +kernel, by decide +kernel, ?_⟩⟩
  · intro h
    exact absurd h.total (by decide +kernel)
  · intro h
    exact absurd h.total (by decide +kernel)

end IonaOs
