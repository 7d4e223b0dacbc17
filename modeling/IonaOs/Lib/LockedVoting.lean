import Mathlib

/-!
# Safety of voting with locks
-/

namespace IonaOs.Lib

variable {V Val : Type*}

def weight (w : V → ℕ) (A : Finset V) : ℕ := ∑ v ∈ A, w v

theorem weight_mono (w : V → ℕ) {A B : Finset V} (h : A ⊆ B) : weight w A ≤ weight w B :=
  Finset.sum_le_sum_of_subset h

variable [DecidableEq V]

theorem exists_common_not_faulty (w : V → ℕ) {A B U F : Finset V} {q : ℕ}
    (hA : A ⊆ U) (hB : B ⊆ U) (hqA : q ≤ weight w A) (hqB : q ≤ weight w B)
    (hq : weight w U + weight w F < 2 * q) : ∃ v ∈ A, v ∈ B ∧ v ∉ F := by
  by_contra hno
  push Not at hno
  have hinter : weight w (A ∩ B) ≤ weight w F := by
    apply weight_mono
    intro v hv
    rw [Finset.mem_inter] at hv
    exact hno v hv.1 hv.2
  have hunion : weight w (A ∪ B) ≤ weight w U := weight_mono w (Finset.union_subset hA hB)
  have hsum : weight w (A ∪ B) + weight w (A ∩ B) = weight w A + weight w B :=
    Finset.sum_union_inter
  omega

structure Voting (V Val : Type*) where
  all : Finset V
  faulty : Finset V
  weight : V → ℕ
  quorum : ℕ
  prevoted : V → ℕ → Val → Prop
  precommitted : V → ℕ → Val → Prop

namespace Voting

variable (H : Voting V Val) {r r' : ℕ} {b b' : Val}

/-- A quorum whose members, unless faulty, all voted for `b` in round `r`. -/
def QuorumOf (voted : V → ℕ → Val → Prop) (r : ℕ) (b : Val) : Prop :=
  ∃ A ⊆ H.all, H.quorum ≤ Lib.weight H.weight A ∧ ∀ v ∈ A, v ∉ H.faulty → voted v r b

structure Locked : Prop where
  quorum_large : Lib.weight H.weight H.all + Lib.weight H.weight H.faulty < 2 * H.quorum
  prevote_unique : ∀ v ∉ H.faulty, ∀ r b b', H.prevoted v r b → H.prevoted v r b' → b = b'
  precommit_backed : ∀ v ∉ H.faulty, ∀ r b, H.precommitted v r b → H.QuorumOf H.prevoted r b
  lock_kept : ∀ v ∉ H.faulty, ∀ r b r' b', H.precommitted v r b → H.prevoted v r' b' → r < r' →
    b' ≠ b → ∃ s c, r < s ∧ s < r' ∧ c ≠ b ∧ H.QuorumOf H.prevoted s c

variable {H}

theorem Locked.common (L : H.Locked) {x y : V → ℕ → Val → Prop}
    (hb : H.QuorumOf x r b) (hb' : H.QuorumOf y r' b') : ∃ v ∉ H.faulty, x v r b ∧ y v r' b' := by
  obtain ⟨A, hA, hqA, hvA⟩ := hb
  obtain ⟨B, hB, hqB, hvB⟩ := hb'
  obtain ⟨v, hv, hv', hF⟩ := exists_common_not_faulty H.weight hA hB hqA hqB L.quorum_large
  exact ⟨v, hF, hvA v hv hF, hvB v hv' hF⟩

theorem Locked.prevoted_of_precommitted (L : H.Locked) (hb : H.QuorumOf H.precommitted r b) :
    H.QuorumOf H.prevoted r b := by
  obtain ⟨v, hv, hpre, -⟩ := L.common hb hb
  exact L.precommit_backed v hv r b hpre

theorem Locked.prevote_eq (L : H.Locked) (hb : H.QuorumOf H.precommitted r b) (hr : r ≤ r')
    (hb' : H.QuorumOf H.prevoted r' b') : b' = b := by
  induction r' using Nat.strong_induction_on generalizing b' with
  | _ r' ih =>
    rcases Nat.eq_or_lt_of_le hr with heq | hlt
    · subst heq
      obtain ⟨v, hv, h1, h2⟩ := L.common (L.prevoted_of_precommitted hb) hb'
      exact (L.prevote_unique v hv r b b' h1 h2).symm
    · by_contra hne
      obtain ⟨v, hv, hpre, hprev⟩ := L.common hb hb'
      obtain ⟨s, c, hrs, hsr', hcb, hc⟩ := L.lock_kept v hv r b r' b' hpre hprev hlt hne
      exact hcb (ih s hsr' hrs.le hc)

theorem Locked.agreement (L : H.Locked) (hb : H.QuorumOf H.precommitted r b)
    (hb' : H.QuorumOf H.precommitted r' b') : b = b' := by
  rcases Nat.le_total r r' with h | h
  · exact (L.prevote_eq hb h (L.prevoted_of_precommitted hb')).symm
  · exact L.prevote_eq hb' h (L.prevoted_of_precommitted hb)

end Voting
end IonaOs.Lib
