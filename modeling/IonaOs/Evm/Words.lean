import IonaOs.Evm.U256

/-!
# Arithmetic on 256-bit words

`u256_add` and `u256_sub` go through the bytes with a carry and are exact.  `u256_mul` goes through
products of limbs and adds the high half of each sum to the next limb with a wrapping addition.
What that addition loses is part of the result at one turn only.
-/

namespace IonaOs.Evm.U256

open Lib List

/-- The number that a word encodes, most significant byte first. -/
def value (v : U256) : ℕ := beNat v.toList

theorem toList_ofLe {bytes : List UInt8} (h : bytes.length = 32) :
    (ofLe bytes).toList = bytes.reverse := by
  refine ext_getElem (by simp [h]) fun i hi hi' => ?_
  have hlt : 31 - i < bytes.length := by omega
  simp [ofLe, h, getElem?_eq_getElem hlt]

theorem value_ofLe {bytes : List UInt8} (h : bytes.length = 32) :
    (ofLe bytes).value = leNat bytes := by
  rw [value, toList_ofLe h, ← leNat_reverse, reverse_reverse]

theorem toU64_ofLe_leBytes (d : UInt64) : toU64 (ofLe (leBytes 32 d.toNat)) = d := by
  have hlow : (leBytes 32 d.toNat).take 8 = leBytes 8 d.toNat := by
    rw [show 32 = 8 + 24 from rfl, leBytes_add, take_left' (length_leBytes 8 _)]
  have hlt : d.toNat < 256 ^ 8 := d.toNat_lt
  rw [toU64, toList_ofLe (length_leBytes 32 _), drop_reverse, length_leBytes, hlow, ← leNat_reverse,
    reverse_reverse, leNat_leBytes hlt, UInt64.ofNat_toNat]

theorem value_ofLe_leBytes (n : ℕ) : (ofLe (leBytes 32 n)).value = n % 2 ^ 256 := by
  rw [value_ofLe (length_leBytes 32 n), ← leBytes_mod, leNat_leBytes (Nat.mod_lt n (by norm_num))]
  norm_num

/-! ## Sums and differences -/

theorem addLoop_eq {l m : List UInt8} (h : l.length = m.length) (carry : ℕ) :
    addLoop (l.zip m) carry = leBytes l.length (leNat l + leNat m + carry) := by
  induction l generalizing m carry with
  | nil => rfl
  | cons x l ih =>
    obtain _ | ⟨y, m⟩ := m
    · cases h
    rw [zip_cons_cons, addLoop, ih (Nat.succ.inj h)]
    apply cons_eq_leBytes <;> simp only [leNat] <;> omega

theorem subLoop_eq {l m : List UInt8} (h : l.length = m.length) {borrow : ℕ} (hb : borrow ≤ 1) :
    subLoop (l.zip m) borrow = leBytes l.length (leNat l + 256 ^ l.length - leNat m - borrow) := by
  induction l generalizing m borrow with
  | nil => rfl
  | cons x l ih =>
    obtain _ | ⟨y, m⟩ := m
    · cases h
    have hlen : l.length = m.length := Nat.succ.inj h
    have hm := leNat_lt m
    have hx := x.toNat_lt
    have hy := y.toNat_lt
    rw [zip_cons_cons, subLoop, ih hlen (by split <;> omega)]
    apply cons_eq_leBytes <;> simp only [leNat, length_cons, pow_succ, hlen]
    · omega
    · split <;> omega

/-! ## Limbs -/

theorem beNat_drop (v : U256) {k : ℕ} (hk : k < 4) : beNat (v.toList.drop (24 - 8 * k)) =
    2 ^ (64 * k) * (limb v k).toNat + beNat (v.toList.drop (32 - 8 * k)) := by
  have hsplit := take_append_drop 8 (v.toList.drop (24 - 8 * k))
  rw [drop_drop, show 24 - 8 * k + 8 = 32 - 8 * k by omega] at hsplit
  have hlt := leNat_lt ((v.toList.drop (24 - 8 * k)).take 8).reverse
  have hlen : ((v.toList.drop (24 - 8 * k)).take 8).length = 8 := by simp; omega
  rw [leNat_reverse, length_reverse, hlen] at hlt
  have hlimb : (limb v k).toNat = beNat ((v.toList.drop (24 - 8 * k)).take 8) := by
    rw [limb, UInt64.toNat_ofNat', Nat.mod_eq_of_lt (by omega)]
  have hrest : (v.toList.drop (32 - 8 * k)).reverse.length = 8 * k := by simp; omega
  rw [← leNat_reverse, ← hsplit, reverse_append, leNat_append, leNat_reverse, leNat_reverse,
    hrest, pow_mul, pow_mul, hlimb]
  norm_num [add_comm]

theorem value_eq (v : U256) : v.value = (limb v 0).toNat + 2 ^ 64 * (limb v 1).toNat +
    2 ^ 128 * (limb v 2).toNat + 2 ^ 192 * (limb v 3).toNat := by
  have h0 := beNat_drop v (k := 0) (by decide)
  have h1 := beNat_drop v (k := 1) (by decide)
  have h2 := beNat_drop v (k := 2) (by decide)
  have h3 := beNat_drop v (k := 3) (by decide)
  have hend : v.toList.drop 32 = [] := drop_eq_nil_of_le (by simp)
  simp only [Nat.reduceMul, Nat.reduceSub, hend, drop_zero] at h0 h1 h2 h3
  have hnil : beNat [] = 0 := rfl
  rw [value]
  omega

theorem leNat_flatMap_le64 (p q r s : UInt64) : leNat ([p, q, r, s].flatMap le64) =
    p.toNat + 2 ^ 64 * q.toNat + 2 ^ 128 * r.toNat + 2 ^ 192 * s.toNat := by
  have hword : ∀ x : UInt64, leNat (le64 x) = x.toNat := fun x =>
    leNat_leBytes (by have := x.toNat_lt; omega)
  simp [leNat_append, hword]
  omega

/-! ## Products -/

/-- The low half of `r[3 - dest] as u128 + prod`. -/
def sumLow (r x y : UInt64) : UInt64 := UInt64.ofNat (r.toNat + x.toNat * y.toNat)

/-- The high half, the `carry`. -/
def sumHigh (r x y : UInt64) : UInt64 := UInt64.ofNat ((r.toNat + x.toNat * y.toNat) / 2 ^ 64)

theorem exists_sum (r x y : UInt64) : ∃ low high, sumLow r x y = low ∧ sumHigh r x y = high ∧
    low.toNat + 2 ^ 64 * high.toNat = r.toNat + x.toNat * y.toNat := by
  refine ⟨_, _, rfl, rfl, ?_⟩
  have hr := r.toNat_lt
  have hle : x.toNat * y.toNat ≤ (2 ^ 64 - 1) * (2 ^ 64 - 1) :=
    Nat.mul_le_mul (Nat.le_pred_of_lt x.toNat_lt) (Nat.le_pred_of_lt y.toNat_lt)
  simp only [sumLow, sumHigh, UInt64.toNat_ofNat']
  omega

theorem mulStep_eq (a b : U256) (p q r s : UInt64) (i j : ℕ) :
    mulStep a b [p, q, r, s] (i, j) =
      match i + j with
      | 0 => [sumLow p (limb a i) (limb b j), q + sumHigh p (limb a i) (limb b j), r, s]
      | 1 => [p, sumLow q (limb a i) (limb b j), r + sumHigh q (limb a i) (limb b j), s]
      | 2 => [p, q, sumLow r (limb a i) (limb b j), s + sumHigh r (limb a i) (limb b j)]
      | 3 => [p, q, r, sumLow s (limb a i) (limb b j)]
      | _ => [p, q, r, s] := by
  rcases h : i + j with _ | _ | _ | _ | k <;> simp [mulStep, h, sumLow, sumHigh]

/-- The second and third limb of the first row, with the product of the turn `(1, 0)` on them, still
fit two limbs. -/
def CarriesFit (a b : U256) : Prop :=
  (limb a 0).toNat * b.value / 2 ^ 64 % 2 ^ 128 + (limb a 1).toNat * (limb b 0).toNat < 2 ^ 128

theorem value_u256Mul_iff (a b : U256) :
    (u256Mul a b).value = a.value * b.value % 2 ^ 256 ↔ CarriesFit a b := by
  have hpairs : (range 4).product (range 4) = [(0, 0), (0, 1), (0, 2), (0, 3), (1, 0),
    (1, 1), (1, 2), (1, 3), (2, 0), (2, 1), (2, 2), (2, 3), (3, 0), (3, 1), (3, 2), (3, 3)] := rfl
  have hstart : replicate 4 (0 : UInt64) = [0, 0, 0, 0] := rfl
  rw [u256Mul, hpairs, hstart]
  simp only [foldl_cons, foldl_nil, mulStep_eq, Nat.reduceAdd, UInt64.zero_add]
  -- The turns in their order; the limbs of the result are `p`, `q₂`, `r₃` and `s₄`.
  obtain ⟨p, q, hp, hq, e₁⟩ := exists_sum 0 (limb a 0) (limb b 0)
  obtain ⟨q₁, r, hq₁, hr, e₂⟩ := exists_sum q (limb a 0) (limb b 1)
  obtain ⟨r₁, s, hr₁, hs, e₃⟩ := exists_sum r (limb a 0) (limb b 2)
  obtain ⟨s₁, k₁, hs₁, -, e₄⟩ := exists_sum s (limb a 0) (limb b 3)
  obtain ⟨q₂, c₁, hq₂, hc₁, e₅⟩ := exists_sum q₁ (limb a 1) (limb b 0)
  obtain ⟨r₂, c₂, hr₂, hc₂, e₆⟩ := exists_sum (r₁ + c₁) (limb a 1) (limb b 1)
  obtain ⟨s₂, k₂, hs₂, -, e₇⟩ := exists_sum (s₁ + c₂) (limb a 1) (limb b 2)
  obtain ⟨r₃, c₃, hr₃, hc₃, e₈⟩ := exists_sum r₂ (limb a 2) (limb b 0)
  obtain ⟨s₃, k₃, hs₃, -, e₉⟩ := exists_sum (s₂ + c₃) (limb a 2) (limb b 1)
  obtain ⟨s₄, k₄, hs₄, -, e₁₀⟩ := exists_sum s₃ (limb a 3) (limb b 0)
  simp only [hp, hq, hq₁, hr, hr₁, hs, hs₁, hq₂, hc₁, hr₂, hc₂, hs₂, hr₃, hc₃, hs₃, hs₄]
  rw [value_ofLe (by simp), leNat_flatMap_le64, CarriesFit, value_eq a, value_eq b]
  simp only [UInt64.toNat_add, UInt64.toNat_zero] at e₁ e₆ e₇ e₉
  generalize (limb a 0).toNat = x₀, (limb a 1).toNat = x₁, (limb a 2).toNat = x₂,
    (limb a 3).toNat = x₃, (limb b 0).toNat = y₀, (limb b 1).toNat = y₁, (limb b 2).toNat = y₂,
    (limb b 3).toNat = y₃ at *
  have hrow : x₀ * (y₀ + 2 ^ 64 * y₁ + 2 ^ 128 * y₂ + 2 ^ 192 * y₃) = p.toNat + 2 ^ 64 * q₁.toNat +
      2 ^ 128 * r₁.toNat + 2 ^ 192 * (s₁.toNat + 2 ^ 64 * k₁.toNat) := by
    linarith
  -- All that is dropped is a multiple of `2 ^ 256`, but for the carry out of `r₁ + c₁`.
  have hprod : (x₀ + 2 ^ 64 * x₁ + 2 ^ 128 * x₂ + 2 ^ 192 * x₃) *
      (y₀ + 2 ^ 64 * y₁ + 2 ^ 128 * y₂ + 2 ^ 192 * y₃) =
      p.toNat + 2 ^ 64 * q₂.toNat + 2 ^ 128 * r₃.toNat + 2 ^ 192 * s₄.toNat +
        2 ^ 192 * ((r₁.toNat + c₁.toNat) / 2 ^ 64) + 2 ^ 256 * (k₁.toNat + k₂.toNat + k₃.toNat +
          k₄.toNat + (s₁.toNat + c₂.toNat) / 2 ^ 64 + (s₂.toNat + c₃.toNat) / 2 ^ 64 + x₁ * y₃ +
          x₂ * y₂ + x₃ * y₁ + 2 ^ 64 * (x₂ * y₃ + x₃ * y₂) + 2 ^ 128 * (x₃ * y₃)) := by
    have h₁ := Nat.mod_add_div (r₁.toNat + c₁.toNat) (2 ^ 64)
    have h₂ := Nat.mod_add_div (s₁.toNat + c₂.toNat) (2 ^ 64)
    have h₃ := Nat.mod_add_div (s₂.toNat + c₃.toNat) (2 ^ 64)
    linarith
  clear e₁ e₂ e₃ e₄ e₆ e₇ e₈ e₉ e₁₀
  have := p.toNat_lt
  have := q₁.toNat_lt
  have := q₂.toNat_lt
  have := r₁.toNat_lt
  have := r₃.toNat_lt
  have := s₄.toNat_lt
  have := c₁.toNat_lt
  rw [hrow, hprod]
  omega

/-- **Word arithmetic.**  Sum and difference are exact modulo `2 ^ 256`, and the product is exactly
where no carry is lost. -/
theorem arithmetic_exact_iff (a b : U256) :
    (u256Add a b).value = (a.value + b.value) % 2 ^ 256 ∧
      (u256Sub a b).value = (a.value + 2 ^ 256 - b.value) % 2 ^ 256 ∧
      ((u256Mul a b).value = a.value * b.value % 2 ^ 256 ↔ CarriesFit a b) := by
  have hlen : a.toList.reverse.length = b.toList.reverse.length := by simp
  refine ⟨?_, ?_, value_u256Mul_iff a b⟩
  · rw [u256Add, addLoop_eq hlen, leNat_reverse, leNat_reverse, length_reverse,
      Vector.length_toList, value_ofLe_leBytes]
    rfl
  · rw [u256Sub, subLoop_eq hlen zero_le_one, leNat_reverse, leNat_reverse, length_reverse,
      Vector.length_toList, value_ofLe_leBytes]
    rfl

/-- The product falls short by `2 ^ 192`. -/
theorem u256Mul_loses_carry :
    (u256Mul (ofNat (2 ^ 128 - 1)) (ofNat (3 * 2 ^ 64 - 1))).value + 2 ^ 192 =
      (ofNat (2 ^ 128 - 1)).value * (ofNat (3 * 2 ^ 64 - 1)).value := by
  decide +kernel

end IonaOs.Evm.U256
