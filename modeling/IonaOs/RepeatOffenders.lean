import IonaOs.StakeConservation

/-!
# Repeat offenders
-/

namespace IonaOs

open Lib Sample

inductive RosterOp where
  | keep (op : LedgerOp)
  | removeValidator (pk : PublicKeyBytes)

variable {pk : PublicKeyBytes}

namespace StakeLedger

variable (l : StakeLedger)

def statusOf (pk : PublicKeyBytes) : Option ValidatorStatus := l.validators[pk]?.map (·.status)

def afterOp : RosterOp → StakeLedger
  | .keep op => l.after op
  | .removeValidator pk => (l.removeValidator pk).2

def convicts : RosterOp → Option PublicKeyBytes
  | .keep (.applyEvidence e) => if (l.applyEvidence e).isOk then some e.offender else none
  | _ => none

/-! ## The ledger after a step -/

variable {l} {s : Slash}

theorem getStake_of_statusOf_eq_none (h : l.statusOf pk = none) : l.getStake pk = 0 := by
  rw [statusOf, Option.map_eq_none_iff] at h
  simp [getStake, h]

theorem statusOf_slash (s : Slash) (k : PublicKeyBytes) :
    (l.slash s).statusOf k = if s.pk = k then some (l.outcome s).status else l.statusOf k := by
  rw [statusOf, getElem?_slash]
  split <;> rfl

theorem getStake_slash (s : Slash) (k : PublicKeyBytes) :
    (l.slash s).getStake k = if s.pk = k then (l.outcome s).stake else l.getStake k := by
  rw [getStake, getElem?_slash]
  split <;> rfl

theorem of_enter (pk k : PublicKeyBytes) (stake : UInt64) :
    (l.enter pk stake).statusOf k = (if pk = k then some .active else l.statusOf k) ∧
      (l.enter pk stake).getStake k = if pk = k then stake else l.getStake k := by
  rw [statusOf, getStake, getElem?_enter]
  split <;> exact ⟨rfl, rfl⟩

theorem of_release (pk k : PublicKeyBytes) (record : ValidatorRecord) :
    (l.release pk record).statusOf k = (if pk = k then some .active else l.statusOf k) ∧
      (l.release pk record).getStake k = if pk = k then record.stake else l.getStake k := by
  rw [statusOf, getStake, getElem?_release]
  split <;> exact ⟨rfl, rfl⟩

theorem of_removeValidator (pk k : PublicKeyBytes) :
    (l.removeValidator pk).2.statusOf k = (if pk = k then none else l.statusOf k) ∧
      (l.removeValidator pk).2.getStake k = if pk = k then 0 else l.getStake k := by
  simp only [statusOf, getStake, removeValidator, Std.ExtTreeMap.getElem?_erase,
    Std.LawfulEqCmp.compare_eq_iff_eq]
  split <;> exact ⟨rfl, rfl⟩

theorem slashOf_applyEvidence {e : Evidence} (hs : l.slashOf (.applyEvidence e) = some s) :
    s.pk = e.offender ∧ s.amount = max (s.record.stake / l.fraction e) 1 ∧
      s.repeated = (l.config.tombstoneAfterRepeated && decide (2 ≤ s.count)) ∧
      s.count = match s.record.status with
        | .jailed _ slashCount => slashCount + 1
        | _ => 1 := by
  simp only [slashOf] at hs
  split at hs
  · cases hs
  split at hs
  · cases hs
  · cases hs
    exact ⟨rfl, rfl, rfl, rfl⟩

theorem slashOf_slashDowntime (hs : l.slashOf (.slashDowntime pk) = some s) : s.count = 1 := by
  simp only [slashOf] at hs
  split at hs
  · cases hs
  split at hs
  · cases hs
    rfl
  · cases hs

theorem convicts_applyEvidence (e : Evidence) :
    l.convicts (.keep (.applyEvidence e)) = (l.slashOf (.applyEvidence e)).map (·.pk) := by
  rw [convicts, l.isOk_applyEvidence]
  cases hs : l.slashOf (.applyEvidence e) with
  | none => rfl
  | some => simp [(slashOf_applyEvidence hs).1]

theorem status_outcome_of_drops (h : l.Drops s) : (l.outcome s).status = .tombstoned := by
  simp [outcome, h]

theorem stake_outcome_of_drops (h : l.Drops s) : (l.outcome s).stake = 0 := by
  simp [outcome, h]

theorem status_outcome_of_not_drops (h : ¬ l.Drops s) :
    (l.outcome s).status = .jailed l.currentHeight s.count := by
  simp [outcome, h]

theorem Lands.statusOf (hs : l.Lands s) : l.statusOf s.pk = some s.record.status := by
  simp [StakeLedger.statusOf, hs.found]

end StakeLedger

open StakeLedger

structure Docket where
  ledger : StakeLedger
  convictions : PublicKeyBytes → ℕ
  fallen : PublicKeyBytes → Bool

open Docket

namespace Docket

open StakeLedger

def start (cfg : SlashingConfig) : Docket := ⟨.new cfg, fun _ => 0, fun _ => false⟩

section

variable (d : Docket)

def step (op : RosterOp) : Docket where
  ledger := d.ledger.afterOp op
  convictions pk := d.convictions pk + if d.ledger.convicts op = some pk then 1 else 0
  fallen pk := d.fallen pk || (d.ledger.afterOp op).statusOf pk = some .tombstoned

def Removed : Prop :=
  ∀ pk, (2 ≤ d.convictions pk → d.ledger.statusOf pk = some .tombstoned) ∧
    (d.fallen pk = true → d.ledger.statusOf pk ≠ some .active ∧ d.ledger.getStake pk = 0)

def Lasting : RosterOp → Prop
  | .keep (.applyEvidence e) => ∀ s ∈ d.ledger.slashOf (.applyEvidence e),
      d.convictions s.pk = 0 ∨ s.record.status ≠ .active ∨
        satSub s.record.stake s.amount < d.ledger.config.minStakeAfterSlash
  | .keep (.addValidator pk _) => d.fallen pk = false ∨ d.ledger.validators.contains pk = true
  | .keep _ => True
  | .removeValidator pk => d.convictions pk < 2

instance (op : RosterOp) : Decidable (d.Lasting op) := by
  unfold Lasting
  split <;> infer_instance

structure Orderly : Prop where
  repeated : d.ledger.config.tombstoneAfterRepeated = true
  first : ∀ pk since count, d.ledger.statusOf pk = some (.jailed since count) → count = 1
  empty : ∀ pk, d.ledger.statusOf pk = some .tombstoned → d.ledger.getStake pk = 0
  fallen : ∀ pk, d.fallen pk = true →
    d.ledger.statusOf pk = none ∨ d.ledger.statusOf pk = some .tombstoned
  convicted : ∀ pk, 2 ≤ d.convictions pk → d.ledger.statusOf pk = some .tombstoned

end

variable {d : Docket} {s : Slash}

theorem Orderly.removed (h : d.Orderly) : d.Removed := by
  intro pk
  refine ⟨h.convicted pk, ?_⟩
  intro hfallen
  rcases h.fallen pk hfallen with hnone | htomb
  · simp [hnone, getStake_of_statusOf_eq_none hnone]
  · simp [htomb, h.empty pk htomb]

/-! ## A step under the condition -/

variable {op : RosterOp}

section

variable (h : d.Orderly)
include h

theorem Orderly.of_step
    (hconfig : (d.ledger.afterOp op).config = d.ledger.config)
    (hfirst : ∀ pk since count,
      (d.ledger.afterOp op).statusOf pk = some (.jailed since count) → count = 1)
    (hempty : ∀ pk, (d.ledger.afterOp op).statusOf pk = some .tombstoned →
      (d.ledger.afterOp op).getStake pk = 0)
    (hfallen : ∀ pk, d.fallen pk = true → (d.ledger.afterOp op).statusOf pk = none ∨
      (d.ledger.afterOp op).statusOf pk = some .tombstoned)
    (hconvicted : ∀ pk, 2 ≤ (d.step op).convictions pk →
      (d.ledger.afterOp op).statusOf pk = some .tombstoned) : (d.step op).Orderly := by
  refine ⟨by rw [step, hconfig, h.repeated], hfirst, hempty, ?_, hconvicted⟩
  intro pk hpk
  simp only [step, Bool.or_eq_true, decide_eq_true_eq] at hpk
  rcases hpk with hold | hnew
  · exact hfallen pk hold
  · exact .inr hnew

theorem Orderly.of_quiet (hconvicts : d.ledger.convicts op = none)
    (hconfig : (d.ledger.afterOp op).config = d.ledger.config)
    (hstatus : ∀ pk, (d.ledger.afterOp op).statusOf pk = d.ledger.statusOf pk)
    (hstake : ∀ pk, (d.ledger.afterOp op).getStake pk = d.ledger.getStake pk) :
    (d.step op).Orderly := by
  apply h.of_step hconfig
  · intro pk
    rw [hstatus]
    exact h.first pk
  · intro pk
    rw [hstatus, hstake]
    exact h.empty pk
  · intro pk
    rw [hstatus]
    exact h.fallen pk
  · intro pk
    simp only [step, hconvicts, hstatus]
    simpa using h.convicted pk

theorem Orderly.of_same (hconvicts : d.ledger.convicts op = none)
    (hsame : d.ledger.afterOp op = d.ledger) : (d.step op).Orderly := by
  apply h.of_quiet hconvicts <;> simp [hsame]

theorem Orderly.of_slash (hs : d.ledger.Lands s) (heq : d.ledger.afterOp op = d.ledger.slash s)
    (hcount : ¬ d.ledger.Drops s → s.count = 1)
    (hconvicted : ∀ pk, 2 ≤ (d.step op).convictions pk →
      (d.ledger.slash s).statusOf pk = some .tombstoned) : (d.step op).Orderly := by
  apply h.of_step
  all_goals rw [heq]
  · rfl
  · intro pk since count hpk
    rw [statusOf_slash] at hpk
    split at hpk
    · by_cases hdrop : d.ledger.Drops s
      · simp [status_outcome_of_drops hdrop] at hpk
      · rw [status_outcome_of_not_drops hdrop] at hpk
        cases hpk
        exact hcount hdrop
    · exact h.first pk since count hpk
  · intro pk hpk
    rw [statusOf_slash] at hpk
    rw [getStake_slash]
    split at hpk
    · rename_i heqpk
      rw [if_pos heqpk]
      by_cases hdrop : d.ledger.Drops s
      · exact stake_outcome_of_drops hdrop
      · simp [status_outcome_of_not_drops hdrop] at hpk
    · rename_i hne
      rw [if_neg hne]
      exact h.empty pk hpk
  · intro pk hpk
    rw [statusOf_slash]
    split
    · -- Nobody who fell has a record that a slash could hit.
      rename_i heqpk
      subst heqpk
      have hstatus := hs.statusOf
      rcases h.fallen s.pk hpk with hnone | htomb
      · rw [hnone] at hstatus
        cases hstatus
      · rw [htomb, Option.some.injEq] at hstatus
        exact absurd hstatus.symm hs.alive
    · exact h.fallen pk hpk
  · exact hconvicted

theorem Orderly.drops_of_not_active {e : Evidence}
    (hs : d.ledger.slashOf (.applyEvidence e) = some s) (hact : s.record.status ≠ .active) :
    d.ledger.Drops s := by
  have hlands := lands_of_slashOf hs
  have hstatus := hlands.statusOf
  obtain ⟨-, -, hrep, hcount⟩ := slashOf_applyEvidence hs
  cases hst : s.record.status with
  | active => exact absurd hst hact
  | tombstoned => exact absurd hst hlands.alive
  | jailed since count =>
    have hone := h.first s.pk since count (by rw [hstatus, hst])
    left
    rw [hrep, hcount, hst, h.repeated, hone]
    rfl

theorem Orderly.of_write {status : Option ValidatorStatus}
    {stake : UInt64} (hconvicts : d.ledger.convicts op = none)
    (hconfig : (d.ledger.afterOp op).config = d.ledger.config)
    (hstatus : ∀ k, (d.ledger.afterOp op).statusOf k =
      if pk = k then status else d.ledger.statusOf k)
    (hstake : ∀ k, (d.ledger.afterOp op).getStake k =
      if pk = k then stake else d.ledger.getStake k) (hfree : status = none ∨ status = some .active)
    (hfallen : d.fallen pk = true → status = none) (hfew : d.convictions pk < 2) :
    (d.step op).Orderly := by
  apply h.of_step hconfig
  all_goals
    intro k
    simp only [step, hconvicts, hstatus, hstake]
    by_cases hk : pk = k
  · rcases hfree with rfl | rfl <;> simp [hk]
  · simpa [hk] using h.first k
  · rcases hfree with rfl | rfl <;> simp [hk]
  · simpa [hk] using h.empty k
  · subst hk
    intro hold
    simp [hfallen hold]
  · simpa [hk] using h.fallen k
  · subst hk
    intro htwice
    simp at htwice
    omega
  · simpa [hk] using h.convicted k

theorem Orderly.few_of_ne (hne : d.ledger.statusOf pk ≠ some .tombstoned) : d.convictions pk < 2 :=
  Nat.lt_of_not_le fun htwice => hne (h.convicted pk htwice)

theorem orderly_applyEvidence {e : Evidence} (hlast : d.Lasting (.keep (.applyEvidence e))) :
    (d.step (.keep (.applyEvidence e))).Orderly := by
  have hafter := d.ledger.after_applyEvidence e
  have hconv := convicts_applyEvidence (l := d.ledger) e
  cases hs : d.ledger.slashOf (.applyEvidence e) with
  | none =>
    rw [hs] at hafter hconv
    exact h.of_same hconv hafter
  | some s =>
    rw [hs] at hafter hconv
    refine h.of_slash (lands_of_slashOf hs) hafter ?_ ?_
    · intro hdrop
      have hact : s.record.status = .active := by
        by_contra hact
        exact hdrop (h.drops_of_not_active hs hact)
      rw [(slashOf_applyEvidence hs).2.2.2, hact]
    intro pk htwice
    rw [statusOf_slash]
    simp only [step, hconv, Option.map_some, Option.some.injEq] at htwice
    by_cases hpk : s.pk = pk
    · subst hpk
      rw [if_pos rfl] at htwice ⊢
      have hdrop : d.ledger.Drops s := by
        rcases hlast s hs with hfirst | hact | hlow
        · omega
        · exact h.drops_of_not_active hs hact
        · exact .inr hlow
      rw [status_outcome_of_drops hdrop]
    · rw [if_neg hpk] at htwice ⊢
      exact h.convicted pk htwice

theorem orderly_slashDowntime (pk : PublicKeyBytes) :
    (d.step (.keep (.slashDowntime pk))).Orderly := by
  have hafter := d.ledger.after_slashDowntime pk
  cases hs : d.ledger.slashOf (.slashDowntime pk) with
  | none =>
    rw [hs] at hafter
    exact h.of_same rfl hafter
  | some =>
    rw [hs] at hafter
    have hlands := lands_of_slashOf hs
    refine h.of_slash hlands hafter (fun _ => slashOf_slashDowntime hs) ?_
    intro k htwice
    have hold := h.convicted k (by simpa [step, convicts] using htwice)
    rw [statusOf_slash]
    split
    · rename_i hk
      rw [← hk, hlands.statusOf, Option.some.injEq] at hold
      exact absurd hold hlands.alive
    · exact hold

theorem orderly_addValidator {stake : UInt64} (hlast : d.Lasting (.keep (.addValidator pk stake))) :
    (d.step (.keep (.addValidator pk stake))).Orderly := by
  have hafter : d.ledger.afterOp (.keep (.addValidator pk stake)) = _ :=
    d.ledger.after_addValidator pk stake
  by_cases hin : d.ledger.validators.contains pk = true
  · rw [if_pos hin] at hafter
    exact h.of_same rfl hafter
  rw [if_neg hin] at hafter
  have hnone : d.ledger.statusOf pk = none := by
    simpa [statusOf] using hin
  refine h.of_write rfl (by rw [hafter]; rfl) (fun k => by rw [hafter, (of_enter ..).1])
    (fun k => by rw [hafter, (of_enter ..).2]) (.inr rfl) ?_ ?_
  · intro hfallen
    rcases hlast with hnot | hcontains
    · rw [hnot] at hfallen
      cases hfallen
    · exact absurd hcontains hin
  · exact h.few_of_ne (by simp [hnone])

theorem orderly_unjail (pk : PublicKeyBytes) : (d.step (.keep (.unjail pk))).Orderly := by
  rcases d.ledger.after_unjail pk with hsame | ⟨record, since, count, hrec, hst, hafter⟩
  · exact h.of_same rfl hsame
  have hnow : d.ledger.afterOp (.keep (.unjail pk)) = d.ledger.release pk record := hafter
  have hstatus : d.ledger.statusOf pk = some (.jailed since count) := by
    simp [statusOf, hrec, hst]
  refine h.of_write rfl (by rw [hnow]; rfl) (fun k => by rw [hnow, (of_release ..).1])
    (fun k => by rw [hnow, (of_release ..).2]) (.inr rfl) ?_ ?_
  · intro hfallen
    have hold := h.fallen pk hfallen
    simp [hstatus] at hold
  · exact h.few_of_ne (by simp [hstatus])

theorem orderly_step (hlast : d.Lasting op) : (d.step op).Orderly := by
  cases op with
  | removeValidator pk =>
    exact h.of_write rfl rfl (fun k => (of_removeValidator pk k).1)
      (fun k => (of_removeValidator pk k).2)
      (.inl rfl) (fun _ => rfl) hlast
  | keep op =>
    cases op with
    | applyEvidence => exact orderly_applyEvidence h hlast
    | slashDowntime pk => exact orderly_slashDowntime h pk
    | addValidator => exact orderly_addValidator h hlast
    | unjail pk => exact orderly_unjail h pk
    | setHeight => exact h.of_quiet rfl rfl (fun _ => rfl) (fun _ => rfl)

end

/-! ## A step that keeps the promise -/

theorem lasting_of_removed (hrem : (d.step op).Removed) : d.Lasting op := by
  cases op with
  | removeValidator pk =>
    by_contra htwice
    have hmany : 2 ≤ d.convictions pk := Nat.le_of_not_lt htwice
    have hstatus := (hrem pk).1 (by simpa [step, convicts] using hmany)
    simp [step, afterOp, of_removeValidator] at hstatus
  | keep op =>
    cases op with
    | applyEvidence e =>
      intro s hs
      by_contra hnot
      simp only [not_or, not_not] at hnot
      obtain ⟨hconv, hact, hlow⟩ := hnot
      -- An active offender counts as a first one, and enough stake is left.
      obtain ⟨-, -, hrep, hcount⟩ := slashOf_applyEvidence hs
      rw [hact] at hcount
      have hdrop : ¬ d.ledger.Drops s := by
        rintro (hrepeated | hsmall)
        · rw [hrep, hcount] at hrepeated
          simp at hrepeated
        · exact hlow hsmall
      have htwice : 2 ≤ (d.step (.keep (.applyEvidence e))).convictions s.pk := by
        simp only [step, convicts_applyEvidence, Option.mem_def.mp hs, Option.map_some, if_true]
        omega
      have hstatus := (hrem s.pk).1 htwice
      simp [step, afterOp, after_applyEvidence, Option.mem_def.mp hs, statusOf_slash,
        status_outcome_of_not_drops hdrop] at hstatus
    | addValidator pk =>
      by_contra hnot
      simp only [Lasting, not_or, Bool.not_eq_false] at hnot
      have hactive := ((hrem pk).2 (by simp [step, hnot.1])).1
      simp [step, afterOp, after_addValidator, hnot.2, of_enter] at hactive
    | slashDowntime | unjail | setHeight => trivial

theorem orderly_start {cfg : SlashingConfig} (h : cfg.tombstoneAfterRepeated = true) :
    (start cfg).Orderly := by
  refine ⟨h, ?_, ?_, ?_, ?_⟩ <;> simp [start, new, statusOf]

end Docket

/-- **Offenders stay where they are throughout a run exactly if each of its operations leaves
them there.** -/
theorem removed_throughout_iff (cfg : SlashingConfig)
    (hrepeated : cfg.tombstoneAfterRepeated = true) (ops : List RosterOp) :
    (∀ past rest, ops = past ++ rest → (exec step (.start cfg) past).Removed) ↔
      Along step Lasting (.start cfg) ops := by
  have hstart := orderly_start hrepeated
  rw [forall_split_iff_along (L := Removed), and_iff_right hstart.removed]
  apply along_congr (I := Orderly) ?_ ?_ hstart
  · intro d op h hrem
    exact orderly_step h (lasting_of_removed hrem)
  · intro d op h
    exact ⟨lasting_of_removed, fun hlast => (orderly_step h hlast).removed⟩

/-- Convicted twice without a release in between, a validator is tombstoned, and neither evidence
nor a release changes that. -/
theorem removed_without_release :
    ∃ cfg : SlashingConfig, cfg = {} ∧ cfg.tombstoneAfterRepeated = true ∧
      (exec step (.start cfg) [.keep (.addValidator [1] 1000),
        .keep (.applyEvidence accusation), .keep (.applyEvidence accusation),
        .keep (.unjail [1]), .keep (.applyEvidence accusation)]).Removed := by
  refine ⟨_, rfl, rfl, ?_⟩
  refine (removed_throughout_iff {} rfl _).mpr ?_ _ [] (List.append_nil _).symm
  decide +kernel

/-- Released after the delay, a validator is convicted a second time and only jailed. -/
theorem second_conviction_only_jails :
    ∃ d, d = exec step (.start {}) [.keep (.addValidator [1] 1000),
        .keep (.applyEvidence accusation), .keep (.setHeight 1000), .keep (.unjail [1]),
        .keep (.applyEvidence accusation)] ∧
      d.convictions [1] = 2 ∧ d.ledger.statusOf [1] = some (.jailed 1000 1) ∧
      d.ledger.getStake [1] = 903 ∧ ¬ d.Removed := by
  refine ⟨_, rfl, by decide +kernel, by decide +kernel, by decide +kernel, ?_⟩
  intro h
  exact absurd ((h [1]).1 (by decide +kernel)) (by decide +kernel)

end IonaOs
