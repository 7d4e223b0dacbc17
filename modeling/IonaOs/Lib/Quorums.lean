import IonaOs.Lib.LockedVoting

/-!
# How much two quorums share
-/

namespace IonaOs.Lib

open Finset

variable {V : Type*} [DecidableEq V] {w : V → ℕ} {U : Finset V} {q : ℕ} {v : V}

def Overlap (w : V → ℕ) (U : Finset V) (q : ℕ) : Prop :=
  ∀ A B, A ⊆ U → B ⊆ U → q ≤ weight w A → q ≤ weight w B →
    weight w U < 3 * weight w (A ∩ B)

theorem overlap_of_two_thirds (h : 2 * weight w U < 3 * q) : Overlap w U q := by
  intro A B hA hB hqA hqB
  have hunion : weight w (A ∪ B) ≤ weight w U := weight_mono w (union_subset hA hB)
  have hsum : weight w (A ∪ B) + weight w (A ∩ B) = weight w A + weight w B := sum_union_inter
  omega

theorem mem_of_critical (hv : v ∈ U) (hcrit : weight w U < w v + q) {A : Finset V} (hA : A ⊆ U)
    (hqA : q ≤ weight w A) : v ∈ A := by
  by_contra hnot
  have hle : weight w A ≤ weight w (U.erase v) := weight_mono w (subset_erase.mpr ⟨hA, hnot⟩)
  have herase : weight w (U.erase v) + w v = weight w U := sum_erase_add U w hv
  omega

theorem exists_between (hpos : 0 < q) (hsmall : ∀ v ∈ U, w v < q) (hq : q ≤ weight w U) :
    ∃ A ⊆ U, q ≤ weight w A ∧ weight w A + 1 < 2 * q := by
  induction U using Finset.induction_on with
  | empty =>
    rw [weight, sum_empty] at hq
    omega
  | insert v U hv ih =>
    have hsum : weight w (insert v U) = w v + weight w U := sum_insert hv
    by_cases hU : q ≤ weight w U
    · obtain ⟨A, hA, hqA, hlt⟩ := ih (fun u hu => hsmall u (mem_insert_of_mem hu)) hU
      exact ⟨A, hA.trans (subset_insert v U), hqA, hlt⟩
    · -- The last voter took the weight over the threshold.
      have hlast := hsmall v (mem_insert_self v U)
      exact ⟨insert v U, Subset.refl _, hq, by omega⟩

theorem not_overlap_of_disjoint {A : Finset V} (hA : A ⊆ U) (hqA : q ≤ weight w A)
    (hqB : q ≤ weight w (U \ A)) : ¬ Overlap w U q := by
  intro h
  have hshare := h A (U \ A) hA sdiff_subset hqA hqB
  rw [inter_sdiff_self, weight, weight, sum_empty] at hshare
  omega

theorem weight_sdiff {A : Finset V} (hA : A ⊆ U) :
    weight w (U \ A) + weight w A = weight w U := sum_sdiff hA

theorem overlap_iff_critical (hq : 3 * q ≤ weight w U + 1) :
    Overlap w U q ↔ ∃ v ∈ U, weight w U < w v + q := by
  constructor
  · intro h
    by_contra hnone
    push Not at hnone
    rcases Nat.eq_zero_or_pos q with hzero | hpos
    · -- Even nobody is a quorum.
      exact not_overlap_of_disjoint (empty_subset U) (by omega) (by omega) h
    by_cases hsmall : ∀ v ∈ U, w v < q
    · obtain ⟨A, hA, hqA, hlt⟩ := exists_between hpos hsmall (by omega)
      have hsum := weight_sdiff (w := w) hA
      exact not_overlap_of_disjoint hA hqA (by omega) h
    · push Not at hsmall
      obtain ⟨v, hv, hqv⟩ := hsmall
      have hsingle : ({v} : Finset V) ⊆ U := singleton_subset_iff.mpr hv
      have hweight : weight w {v} = w v := sum_singleton w v
      have hsum := weight_sdiff (w := w) hsingle
      have hrest := hnone v hv
      exact not_overlap_of_disjoint hsingle (by omega) (by omega) h
  · rintro ⟨v, hv, hcrit⟩ A B hA hB hqA hqB
    have hmem : v ∈ A ∩ B :=
      mem_inter.mpr ⟨mem_of_critical hv hcrit hA hqA, mem_of_critical hv hcrit hB hqB⟩
    have hle : w v ≤ weight w (A ∩ B) := single_le_sum (fun _ _ => Nat.zero_le _) hmem
    omega

end IonaOs.Lib
