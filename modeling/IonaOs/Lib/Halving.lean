import Mathlib

/-!
# Halving
-/

namespace IonaOs.Lib

def leftAfter (n : ℕ) : ℕ := if n % 2 = 0 then n / 2 else leftAfter (n / 2)
termination_by n
decreasing_by omega

variable {n : ℕ}

theorem leftAfter_of_even (h : n % 2 = 0) : leftAfter n = n / 2 := by
  rw [leftAfter, if_pos h]

theorem leftAfter_of_odd (h : n % 2 = 1) : leftAfter n = leftAfter (n / 2) := by
  rw [leftAfter, if_neg (by omega)]

theorem leftAfter_le (n : ℕ) : leftAfter n ≤ n / 2 := by
  induction n using Nat.strong_induction_on with
  | _ n ih =>
    rcases Nat.mod_two_eq_zero_or_one n with h | h
    · rw [leftAfter_of_even h]
    · rw [leftAfter_of_odd h]
      have hhalf := ih (n / 2) (by omega)
      omega

theorem succ_eq_of_odd (h : n % 2 = 1) : n + 1 = 2 * (n / 2 + 1) := by
  omega

theorem two_pow_succ_dvd_iff {k : ℕ} (h : n % 2 = 1) : 2 ^ (k + 1) ∣ n + 1 ↔ 2 ^ k ∣ n / 2 + 1 := by
  rw [succ_eq_of_odd h, pow_succ', Nat.mul_dvd_mul_iff_left (by norm_num)]

theorem not_two_pow_dvd_of_even {k : ℕ} (h : n % 2 = 0) (hk : 0 < k) : ¬ 2 ^ k ∣ n + 1 := by
  intro hdvd
  have htwo : 2 ∣ n + 1 := (dvd_pow_self 2 (by omega)).trans hdvd
  omega

theorem leftAfter_eq_zero_iff : leftAfter n = 0 ↔ ∃ k, n + 1 = 2 ^ k := by
  induction n using Nat.strong_induction_on with
  | _ n ih =>
    rcases Nat.mod_two_eq_zero_or_one n with h | h
    · rw [leftAfter_of_even h]
      constructor
      · intro hzero
        exact ⟨0, by omega⟩
      rintro ⟨k, hk⟩
      cases k with
      | zero => omega
      | succ => rw [pow_succ] at hk; omega
    · rw [leftAfter_of_odd h, ih (n / 2) (by omega)]
      constructor
      · rintro ⟨k, hk⟩
        exact ⟨k + 1, by rw [pow_succ, ← hk]; omega⟩
      rintro ⟨k, hk⟩
      cases k with
      | zero => omega
      | succ k => exact ⟨k, by rw [pow_succ] at hk; omega⟩

/-! ## Runs of ones -/

/-- Where `R` binary digits in a row are ones, no digit stands above them. -/
def ShortRuns (R d : ℕ) : Prop := ∀ j, 2 ^ R ∣ d / 2 ^ j + 1 → d / 2 ^ j + 1 = 2 ^ R

/-- The number starts with `k` ones, for some `k` with `x < 2 ^ k`. -/
def TopRunOver (x d : ℕ) : Prop := ∃ j k, d / 2 ^ j + 1 = 2 ^ k ∧ x < 2 ^ k

theorem div_two_pow_succ (d j : ℕ) : d / 2 ^ (j + 1) = d / 2 / 2 ^ j := by
  rw [pow_succ', Nat.div_div_eq_div_mul]

variable {d R : ℕ}

theorem shortRuns_iff : ShortRuns R d ↔ (2 ^ R ∣ d + 1 → d + 1 = 2 ^ R) ∧ ShortRuns R (d / 2) := by
  constructor
  · intro h
    refine ⟨by simpa using h 0, fun j => ?_⟩
    rw [← div_two_pow_succ]
    exact h (j + 1)
  · rintro ⟨h0, h⟩ j
    cases j with
    | zero => simpa using h0
    | succ j =>
      rw [div_two_pow_succ]
      exact h j

theorem topRunOver_iff {x : ℕ} :
    TopRunOver x d ↔ (∃ k, d + 1 = 2 ^ k ∧ x < 2 ^ k) ∨ TopRunOver x (d / 2) := by
  constructor
  · rintro ⟨j, k, hk, hx⟩
    cases j with
    | zero => exact .inl ⟨k, by simpa using hk, hx⟩
    | succ j => exact .inr ⟨j, k, by rwa [← div_two_pow_succ], hx⟩
  · rintro (⟨k, hk, hx⟩ | ⟨j, k, hk, hx⟩)
    · exact ⟨0, k, by simpa using hk, hx⟩
    · exact ⟨j + 1, k, by rwa [div_two_pow_succ], hx⟩

theorem TopRunOver.lt {x : ℕ} (h : TopRunOver x d) : x < d + 1 := by
  obtain ⟨j, k, hk, hx⟩ := h
  have hle : d / 2 ^ j ≤ d := Nat.div_le_self _ _
  omega

theorem shortRuns_zero (hR : 0 < R) : ShortRuns R 0 := by
  intro j hdvd
  rw [Nat.zero_div] at hdvd
  exact absurd hdvd (not_two_pow_dvd_of_even rfl hR)

theorem shortRuns_leftAfter (h : ¬ 2 ^ R ∣ d + 1) : ShortRuns R d ↔ ShortRuns R (leftAfter d) := by
  induction d using Nat.strong_induction_on with
  | _ d ih =>
    have hhalf : ShortRuns R d ↔ ShortRuns R (d / 2) := by
      rw [shortRuns_iff, and_iff_right]
      exact fun hdvd => absurd hdvd h
    rcases Nat.mod_two_eq_zero_or_one d with hd | hd
    · rwa [leftAfter_of_even hd]
    have hnot : ¬ 2 ^ R ∣ d / 2 + 1 := by
      intro hdvd
      refine h (hdvd.trans ?_)
      rw [succ_eq_of_odd hd]
      exact Dvd.intro_left _ rfl
    rw [leftAfter_of_odd hd, hhalf]
    exact ih (d / 2) (by omega) hnot

theorem shortRuns_of_succ_eq (h : d + 1 = 2 ^ R) : ShortRuns R d := by
  intro j hdvd
  have hpos : 0 < d / 2 ^ j + 1 := Nat.succ_pos _
  have hle := Nat.le_of_dvd hpos hdvd
  have hdiv : d / 2 ^ j ≤ d := Nat.div_le_self _ _
  omega

theorem topRunOver_leftAfter {x : ℕ} (h : leftAfter d ≠ 0) :
    TopRunOver x d ↔ TopRunOver x (leftAfter d) := by
  induction d using Nat.strong_induction_on with
  | _ d ih =>
    have hhalf : TopRunOver x d ↔ TopRunOver x (d / 2) := by
      rw [topRunOver_iff, or_iff_right]
      rintro ⟨k, hk, -⟩
      exact h (leftAfter_eq_zero_iff.mpr ⟨k, hk⟩)
    rcases Nat.mod_two_eq_zero_or_one d with hd | hd
    · rwa [leftAfter_of_even hd]
    · rw [leftAfter_of_odd hd] at h ⊢
      rw [hhalf]
      exact ih (d / 2) (by omega) h

/-! ## Steps of a fixed size -/

/-- What is left of `d` when steps of `p` were taken until it is at most `B`. -/
def lastDistance (B p d : ℕ) : ℕ := if d ≤ B then d else (d - (B - p + 1)) % p + (B - p + 1)

theorem lastDistance_of_le {B p : ℕ} (h : d ≤ B) : lastDistance B p d = d := if_pos h

theorem lastDistance_sub {B p : ℕ} (hp : 0 < p) (hpB : p ≤ B) (h : B < d) :
    lastDistance B p d = lastDistance B p (d - p) := by
  have hmod : (d - (B - p + 1)) % p = (d - p - (B - p + 1)) % p := by
    have hsplit : d - (B - p + 1) = (d - p - (B - p + 1)) + p := by omega
    rw [hsplit, Nat.add_mod_right]
  rw [lastDistance, if_neg (by omega), hmod]
  by_cases hle : d - p ≤ B
  · rw [lastDistance_of_le hle, Nat.mod_eq_of_lt (by omega)]
    omega
  · rw [lastDistance, if_neg hle]

end IonaOs.Lib
