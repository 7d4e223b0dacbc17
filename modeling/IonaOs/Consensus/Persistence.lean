import IonaOs.Consensus.Quorum
import IonaOs.Consensus.SetUpdates

/-!
# Persistence of a validator set
-/

namespace IonaOs

open Lib

/-- The fields of a `ValidatorSet`, whatever they hold. -/
structure RawSet where
  validators : List Validator
  lookup : Std.ExtTreeMap PublicKeyBytes UInt64
  totalPower : UInt64
  strategy : ProposerStrategy
  generation : UInt64

/-- What is written: the fields without `#[serde(skip)]`. -/
structure StoredSet where
  validators : List Validator
  strategy : ProposerStrategy

/-- The derived `Deserialize`: what was skipped comes from `Default`. -/
def StoredSet.deserialize (stored : StoredSet) : RawSet :=
  ⟨stored.validators, ∅, 0, stored.strategy, 0⟩

namespace RawSet

variable (s : RawSet)

/-- The derived `Serialize`. -/
def serialize : StoredSet := ⟨s.validators, s.strategy⟩

def reload : RawSet := s.serialize.deserialize

/-- `ValidatorSet::proposer_for`, or `none` where the source asserts that there is a validator. -/
def proposerFor (height : Height) (round : Round) : Option Validator :=
  if h : s.validators = [] then none
  else
    let set : ValidatorSet :=
      ⟨s.validators, s.lookup, s.totalPower, s.strategy, s.generation, h⟩
    some (set.proposerFor height round)

/-- The answers of `contains`, `power_of`, `total_power` and `proposer_for` agree. -/
structure SameAnswers (s t : RawSet) : Prop where
  contains : ∀ pk, s.lookup.contains pk = t.lookup.contains pk
  powerOf : ∀ pk : PublicKeyBytes, s.lookup[pk]? = t.lookup[pk]?
  totalPower : s.totalPower = t.totalPower
  proposerFor : ∀ height round, s.proposerFor height round = t.proposerFor height round

theorem proposerFor_reload (height : Height) (round : Round) :
    s.reload.proposerFor height round = s.proposerFor height round := by
  by_cases h : s.validators = []
  · simp [proposerFor, reload, serialize, StoredSet.deserialize, h]
  · have hreload : s.reload.validators ≠ [] := h
    rw [proposerFor, proposerFor, dif_neg h, dif_neg hreload]
    rfl

variable {s} in
theorem SameAnswers.lookup_eq (h : s.reload.SameAnswers s) : s.lookup = ∅ := by
  apply Std.ExtTreeMap.ext_getElem?
  intro pk
  exact (h.powerOf pk).symm

end RawSet

/-- **A set survives persistence exactly if its table is empty and its total is zero.** -/
theorem reload_sameAnswers_iff (s : RawSet) :
    s.reload.SameAnswers s ↔ s.lookup = ∅ ∧ s.totalPower = 0 := by
  constructor
  · intro h
    exact ⟨h.lookup_eq, h.totalPower.symm⟩
  rintro ⟨hlookup, htotal⟩
  refine ⟨?_, ?_, htotal.symm, s.proposerFor_reload⟩
  · intro pk
    rw [hlookup]
    rfl
  · intro pk
    rw [hlookup]
    rfl

namespace ValidatorSet

variable {s : ValidatorSet}

def raw (s : ValidatorSet) : RawSet :=
  ⟨s.validators, s.lookup, s.totalPower, s.strategy, s.generation⟩

theorem Keyed.not_sameAnswers (h : s.Keyed) : ¬ s.raw.reload.SameAnswers s.raw := by
  intro hsame
  have hempty : s.lookup = ∅ := hsame.lookup_eq
  obtain ⟨v, hv⟩ := List.exists_mem_of_ne_nil s.validators s.nonempty
  have hfound := (h.lookup v.pk v.power).mpr hv
  simp [hempty] at hfound

end ValidatorSet

/-- A set of three after a round trip: its member is none, the total is zero, and so is the
quorum. -/
theorem reload_three :
    ∃ s : RawSet, s = ValidatorSet.three.raw ∧
      s.lookup.contains [1] = true ∧ s.reload.lookup.contains [1] = false ∧
      s.lookup[([1] : PublicKeyBytes)]? = some 3 ∧
      s.reload.lookup[([1] : PublicKeyBytes)]? = none ∧
      quorumThreshold s.totalPower = 7 ∧ quorumThreshold s.reload.totalPower = 0 ∧
      ¬ s.reload.SameAnswers s :=
  ⟨_, rfl, by decide +kernel, by decide +kernel, by decide +kernel, by decide +kernel,
    by decide +kernel, by decide +kernel,
    ((ValidatorSet.represents_of_newWithConfig ValidatorSet.new_three).2.keyed).not_sameAnswers⟩

end IonaOs
