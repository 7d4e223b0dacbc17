import Mathlib

/-!
# Machine words: saturation and bytes
-/

namespace IonaOs.Lib

/-- `u64::saturating_add`: the sum, or `u64::MAX` when it does not fit. -/
def satAdd (a b : UInt64) : UInt64 :=
  if a.toNat + b.toNat < 2 ^ 64 then a + b else UInt64.ofNat (2 ^ 64 - 1)

/-- `u64::saturating_sub`: the difference, or zero when it would be negative. -/
def satSub (a b : UInt64) : UInt64 :=
  if b ≤ a then a - b else 0

theorem toNat_satAdd (a b : UInt64) :
    (satAdd a b).toNat = min (a.toNat + b.toNat) (2 ^ 64 - 1) := by
  by_cases h : a.toNat + b.toNat < 2 ^ 64
  · rw [satAdd, if_pos h, UInt64.toNat_add, Nat.mod_eq_of_lt h]
    omega
  · rw [satAdd, if_neg h, UInt64.toNat_ofNat', Nat.mod_eq_of_lt (by omega)]
    omega

theorem toNat_satSub (a b : UInt64) : (satSub a b).toNat = a.toNat - b.toNat := by
  by_cases h : b ≤ a
  · rw [satSub, if_pos h, UInt64.toNat_sub_of_le a b h]
  rw [satSub, if_neg h]
  have hlt : a.toNat < b.toNat := by
    rw [UInt64.le_iff_toNat_le] at h
    omega
  have hz : (0 : UInt64).toNat = 0 := rfl
  omega

theorem toNat_max (a b : UInt64) : (max a b).toNat = max a.toNat b.toNat := by
  have hmax : max a b = if a ≤ b then b else a := rfl
  by_cases h : a ≤ b
  · rw [hmax, if_pos h]
    rw [UInt64.le_iff_toNat_le] at h
    omega
  · rw [hmax, if_neg h]
    rw [UInt64.le_iff_toNat_le] at h
    omega

/-- The `k` low bytes of `n`, least significant first. -/
def leBytes : ℕ → ℕ → List UInt8
  | 0, _ => []
  | k + 1, n => UInt8.ofNat (n % 256) :: leBytes k (n / 256)

@[simp] theorem length_leBytes (k n : ℕ) : (leBytes k n).length = k := by
  induction k generalizing n with
  | zero => rfl
  | succ k ih => simp [leBytes, ih]

theorem leBytes_inj {k : ℕ} :
    ∀ {m n : ℕ}, m < 256 ^ k → n < 256 ^ k → leBytes k m = leBytes k n → m = n := by
  induction k with
  | zero => intro m n hm hn _; simp only [pow_zero] at hm hn; omega
  | succ k ih =>
    intro m n hm hn h
    simp only [leBytes, List.cons.injEq] at h
    have hlow : m % 256 = n % 256 := by
      have := congrArg UInt8.toNat h.1
      simpa [UInt8.toNat_ofNat'] using this
    have hm' : m / 256 < 256 ^ k := by
      rw [Nat.div_lt_iff_lt_mul (by norm_num), ← pow_succ]; exact hm
    have hn' : n / 256 < 256 ^ k := by
      rw [Nat.div_lt_iff_lt_mul (by norm_num), ← pow_succ]; exact hn
    have hhigh := ih hm' hn' h.2
    omega

theorem leBytes_add (k j n : ℕ) : leBytes (k + j) n = leBytes k n ++ leBytes j (n / 256 ^ k) := by
  induction k generalizing n with
  | zero => simp [leBytes]
  | succ k ih =>
    rw [Nat.succ_add, leBytes, leBytes, ih, List.cons_append, Nat.div_div_eq_div_mul, Nat.pow_succ']

theorem leBytes_mod (k n : ℕ) : leBytes k (n % 256 ^ k) = leBytes k n := by
  induction k generalizing n with
  | zero => rfl
  | succ k ih =>
    rw [leBytes, leBytes, Nat.pow_succ', Nat.mod_mul_right_mod, Nat.mod_mul_right_div_self, ih]

theorem leBytes_one {n : ℕ} (h : n < 256) : leBytes 1 n = [UInt8.ofNat n] := by
  rw [leBytes, leBytes, Nat.mod_eq_of_lt h]

theorem cons_leBytes (k : ℕ) (b : UInt8) (n : ℕ) :
    b :: leBytes k n = leBytes (k + 1) (b.toNat + 256 * (n % 256 ^ k)) := by
  have hb := b.toNat_lt
  have hlow : (b.toNat + 256 * (n % 256 ^ k)) % 256 = b.toNat := by omega
  have hhigh : (b.toNat + 256 * (n % 256 ^ k)) / 256 = n % 256 ^ k := by omega
  rw [leBytes, hlow, hhigh, leBytes_mod, UInt8.ofNat_toNat]

def leNat : List UInt8 → ℕ
  | [] => 0
  | b :: bs => b.toNat + 256 * leNat bs

theorem leNat_leBytes {k n : ℕ} (h : n < 256 ^ k) : leNat (leBytes k n) = n := by
  induction k generalizing n with
  | zero => simp only [pow_zero] at h; simp only [leBytes, leNat]; omega
  | succ k ih =>
    have hhigh : n / 256 < 256 ^ k := by
      rw [Nat.div_lt_iff_lt_mul (by norm_num), ← pow_succ]; exact h
    have hlow : (UInt8.ofNat (n % 256)).toNat = n % 256 := by simp
    rw [leBytes, leNat, ih hhigh, hlow]
    omega

theorem leNat_append (l m : List UInt8) : leNat (l ++ m) = leNat l + 256 ^ l.length * leNat m := by
  induction l with
  | nil => simp [leNat]
  | cons b l ih => simp only [List.cons_append, leNat, ih, List.length_cons]; ring

theorem leNat_lt (l : List UInt8) : leNat l < 256 ^ l.length := by
  induction l with
  | nil => simp [leNat]
  | cons b l ih =>
    have hb := b.toNat_lt
    rw [leNat, List.length_cons, pow_succ]
    omega

/-- A number whose low byte and whose rest are known. -/
theorem cons_eq_leBytes {k n s high : ℕ} (hlow : s % 256 = n % 256) (hhigh : high = n / 256) :
    UInt8.ofNat s :: leBytes k high = leBytes (k + 1) n := by
  rw [leBytes, hhigh, ← hlow, UInt8.ofNat_mod_size]

def beNat (bytes : List UInt8) : ℕ := bytes.foldl (fun n b => 256 * n + b.toNat) 0

theorem leNat_reverse (l : List UInt8) : leNat l.reverse = beNat l := by
  induction l using List.reverseRecOn with
  | nil => rfl
  | append_singleton l b ih => simp [leNat, ih, beNat, List.foldl_append]; omega

/-- `u64::to_le_bytes`. -/
def le64 (x : UInt64) : List UInt8 := leBytes 8 x.toNat

/-- `u32::to_le_bytes`. -/
def le32 (x : UInt32) : List UInt8 := leBytes 4 x.toNat

@[simp] theorem length_le64 (x : UInt64) : (le64 x).length = 8 := length_leBytes _ _
@[simp] theorem length_le32 (x : UInt32) : (le32 x).length = 4 := length_leBytes _ _

theorem le64_inj {x y : UInt64} (h : le64 x = le64 y) : x = y := by
  apply UInt64.toNat_inj.mp
  exact leBytes_inj (by have := x.toNat_lt; norm_num; omega)
    (by have := y.toNat_lt; norm_num; omega) h

theorem le32_inj {x y : UInt32} (h : le32 x = le32 y) : x = y := by
  apply UInt32.toNat_inj.mp
  exact leBytes_inj (by have := x.toNat_lt; norm_num; omega)
    (by have := y.toNat_lt; norm_num; omega) h

def hexEncode (bytes : List UInt8) : String :=
  String.ofList
    (bytes.flatMap fun b => [Nat.digitChar (b.toNat / 16), Nat.digitChar (b.toNat % 16)])

def hexDigit (b : UInt8) : Option UInt8 :=
  if 48 ≤ b ∧ b ≤ 57 then some (b - 48)
  else if 97 ≤ b ∧ b ≤ 102 then some (b - 87)
  else if 65 ≤ b ∧ b ≤ 70 then some (b - 55)
  else none

def hexDecode : List UInt8 → Option (List UInt8)
  | [] => some []
  | [_] => none
  | hi :: lo :: rest => do
    let h ← hexDigit hi
    let l ← hexDigit lo
    let bytes ← hexDecode rest
    some ((h * 16 + l) :: bytes)

end IonaOs.Lib
