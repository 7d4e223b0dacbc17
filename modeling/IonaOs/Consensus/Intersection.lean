import IonaOs.Lib.Quorums
import IonaOs.Consensus.Quorum
import IonaOs.Consensus.SetUpdates

/-!
# Quorum intersection
-/

namespace IonaOs

open Lib

theorem toNat_quorumThreshold {total : UInt64} (h : total ≠ 0) :
    (quorumThreshold total).toNat = total.toNat * 2 % 2 ^ 64 / 3 + 1 := by
  have hdiv : (total * 2 / 3).toNat = total.toNat * 2 % 2 ^ 64 / 3 := by
    rw [UInt64.toNat_div, UInt64.toNat_mul]
    rfl
  have hone : (1 : UInt64).toNat = 1 := rfl
  rw [quorumThreshold, if_neg h, UInt64.toNat_add, hdiv, hone]
  omega

theorem quorumThreshold_le {total : UInt64} (h : 0 < total) : quorumThreshold total ≤ total := by
  rw [UInt64.lt_iff_toNat_lt, UInt64.toNat_zero] at h
  have hne : total ≠ 0 := by
    intro hzero
    simp [hzero] at h
  have hlt := total.toNat_lt
  rw [UInt64.le_iff_toNat_le, toNat_quorumThreshold hne]
  omega

theorem wrapped_third_le {n : ℕ} (hlow : 2 ^ 63 ≤ n) (hhigh : n ≤ 2 ^ 64 - 1) :
    3 * ((n * 2 - 2 ^ 64) / 3 + 1) ≤ n + 1 := by
  rcases Nat.lt_or_eq_of_le hhigh with hlt | rfl
  · omega
  · norm_num

namespace ValidatorSet

variable {s : ValidatorSet} {vs : List Validator} {v : Validator}

theorem Keyed.mem_members_iff (h : s.Keyed) {pk : PublicKeyBytes} :
    pk ∈ s.members ↔ ∃ v ∈ s.validators, v.pk = pk := by
  rw [mem_members, contains, Std.ExtTreeMap.contains_iff_mem, h.contains_iff, List.mem_map]

theorem Keyed.exists_member_iff (h : s.Keyed) {P : ℕ → Prop} :
    (∃ pk ∈ s.members, P (s.power pk)) ↔ ∃ v ∈ s.validators, P v.power.toNat := by
  have hpower : ∀ v ∈ s.validators, s.power v.pk = v.power.toNat := by
    intro v hv
    rw [power, powerOf, (h.lookup v.pk v.power).mpr hv, Option.getD_some]
  constructor
  · rintro ⟨pk, hpk, hP⟩
    obtain ⟨v, hv, rfl⟩ := h.mem_members_iff.mp hpk
    exact ⟨v, hv, by rwa [hpower v hv] at hP⟩
  · rintro ⟨v, hv, hP⟩
    exact ⟨v.pk, h.mem_members_iff.mpr ⟨v, hv, rfl⟩, by rwa [hpower v hv]⟩

end ValidatorSet

open ValidatorSet in
/-- **Quorums of a set overlap exactly if the powers sum up to less than `2 ^ 63`, or if one
validator holds almost all of them.**  A quorum can always be reached. -/
theorem quorum_intersection_iff (vs : List Validator) (s : ValidatorSet)
    (h : ValidatorSet.new vs = .ok s) :
    (∀ total : UInt64, 0 < total → quorumThreshold total ≤ total) ∧
      (Overlap s.power s.members (quorumThreshold s.totalPower).toNat ↔
        (vs.map (·.power.toNat)).sum < 2 ^ 63 ∨
          ∃ v ∈ vs, 3 * ((vs.map (·.power.toNat)).sum - v.power.toNat) + 2 ^ 64 ≤
            2 * min (vs.map (·.power.toNat)).sum (2 ^ 64 - 1)) := by
  refine ⟨fun total => quorumThreshold_le, ?_⟩
  obtain ⟨hweight, hpos⟩ := newWithConfig_weight h
  have htotal := newWithConfig_totalPower h
  obtain ⟨rfl, hrep⟩ := represents_of_newWithConfig h
  have hne : s.totalPower ≠ 0 := by
    intro hzero
    rw [hzero, UInt64.toNat_zero] at htotal
    omega
  have hq := toNat_quorumThreshold hne
  rw [htotal] at hq
  by_cases hsmall : (s.validators.map (·.power.toNat)).sum < 2 ^ 63
  · refine iff_of_true (overlap_of_two_thirds ?_) (.inl hsmall)
    omega
  -- The doubled total wraps once, and the threshold is a third of the total at most.
  have hwrap : min (weight s.power s.members) (2 ^ 64 - 1) * 2 % 2 ^ 64 =
      min (weight s.power s.members) (2 ^ 64 - 1) * 2 - 2 ^ 64 := by
    rw [Nat.mod_eq_sub_mod (by omega), Nat.mod_eq_of_lt (by omega)]
  rw [hwrap] at hq
  have hthird := wrapped_third_le (n := min (weight s.power s.members) (2 ^ 64 - 1))
    (by omega) (by omega)
  rw [or_iff_right hsmall, overlap_iff_critical (by omega), ← hrep.keyed.exists_member_iff
    (P := fun p => 3 * ((s.validators.map (·.power.toNat)).sum - p) + 2 ^ 64 ≤
      2 * min (s.validators.map (·.power.toNat)).sum (2 ^ 64 - 1))]
  apply exists_congr
  intro pk
  apply and_congr_right
  intro hpk
  have hle : s.power pk ≤ weight s.power s.members :=
    Finset.single_le_sum (fun _ _ => Nat.zero_le _) hpk
  omega

theorem quorum_intersection_three :
    ∃ s, ValidatorSet.new [⟨[1], 3⟩, ⟨[2], 4⟩, ⟨[3], 3⟩] = .ok s ∧
      Overlap s.power s.members (quorumThreshold s.totalPower).toNat :=
  ⟨ValidatorSet.three, ValidatorSet.new_three,
    (quorum_intersection_iff _ _ ValidatorSet.new_three).2.mpr (.inl (by decide))⟩

/-- Two validators with power `2 ^ 62` each: the doubled total is zero, the threshold is one,
and each of the two is a quorum. -/
theorem disjoint_quorums :
    ∃ s, ValidatorSet.new [⟨[1], 0x4000000000000000⟩, ⟨[2], 0x4000000000000000⟩] = .ok s ∧
      quorumThreshold s.totalPower = 1 ∧
      ({[1]} : Finset PublicKeyBytes) ⊆ s.members ∧ ({[2]} : Finset PublicKeyBytes) ⊆ s.members ∧
      weight s.power {[1]} = 2 ^ 62 ∧ weight s.power {[2]} = 2 ^ 62 ∧
      weight s.power s.members = 2 ^ 63 ∧ weight s.power ({[1]} ∩ {[2]}) = 0 ∧
      ¬ Overlap s.power s.members (quorumThreshold s.totalPower).toNat := by
  refine ⟨_, rfl, by decide +kernel, by decide +kernel, by decide +kernel, by decide +kernel,
    by decide +kernel, by decide +kernel, by decide +kernel, ?_⟩
  intro h
  exact absurd (h {[1]} {[2]} (by decide +kernel) (by decide +kernel) (by decide +kernel)
    (by decide +kernel)) (by decide +kernel)

end IonaOs
