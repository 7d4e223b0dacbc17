import IonaOs.Evm.Keccak

/-!
# Keccak-256 as in FIPS 202
-/

namespace IonaOs.Evm

open Keccak List

namespace Fips

/-- The lane at `x`, `y`. -/
abbrev State := Fin 5 → Fin 5 → UInt64

def ofLanes (lanes : List UInt64) : State := fun x y => lanes.getD (x + 5 * y) 0

variable (a : State)

def toLanes : List UInt64 :=
  (range 25).map fun i => a (.ofNat 5 (i % 5)) (.ofNat 5 (i / 5))

def theta : State :=
  let c x := a x 0 ^^^ a x 1 ^^^ a x 2 ^^^ a x 3 ^^^ a x 4
  fun x y => a x y ^^^ (c (x - 1) ^^^ rotateLeft (c (x + 1)) 1)

/-- The `t`-th lane of the walk from `1, 0` turns by a triangular number. -/
def offset (x y : Fin 5) : ℕ :=
  let walk (p : Fin 5 × Fin 5) := (p.2, 2 * p.1 + 3 * p.2)
  match (range 24).find? fun t => walk^[t] (1, 0) = (x, y) with
  | some t => (t + 1) * (t + 2) / 2 % 64
  | none => 0

def rho : State := fun x y => rotateLeft (a x y) (offset x y)

def pi : State := fun x y => a (x + 3 * y) x

def chi : State := fun x y => a x y ^^^ (~~~ a (x + 1) y &&& a (x + 2) y)

/-- The bit `rc(t)` comes out of a shift register. -/
def rc (t : ℕ) : Bool :=
  ((fun r : ℕ => if r.testBit 7 then 2 * r ^^^ 0x171 else 2 * r)^[t] 1).testBit 0

def roundConstant (i : ℕ) : UInt64 :=
  .ofNat (((range 7).map fun j => if rc (j + 7 * i) then 2 ^ (2 ^ j - 1) else 0).sum)

def iota (i : ℕ) (a : State) : State := fun x y =>
  if x = 0 ∧ y = 0 then a x y ^^^ roundConstant i else a x y

/-- Keccak-f[1600], with `pi` as given. -/
def permute (pi : State → State) (lanes : List UInt64) : List UInt64 :=
  (range 24).foldl
    (fun lanes i => toLanes (iota i (chi (pi (rho (theta (ofLanes lanes))))))) lanes

/-- The end of the last block, behind `n` bytes of data. -/
def padding (n : ℕ) : List UInt8 :=
  if n + 1 = rate then [0x81] else 0x01 :: replicate (rate - 2 - n) 0 ++ [0x80]

/-- The padded data in blocks, `n` of them without padding. -/
def blocks : ℕ → List UInt8 → List (List UInt8)
  | 0, data => [data ++ padding data.length]
  | n + 1, data => data.take rate :: blocks n (data.drop rate)

/-- The bytes go to the positions from `k` on. -/
def xorBlock (lanes : List UInt64) (k : ℕ) (bytes : List UInt8) : List UInt64 :=
  (bytes.zipIdx k).foldl (fun lanes b => xorByte lanes b.2 b.1) lanes

/-- The sponge with capacity 512, padded as for Keccak-256. -/
def keccak (pi : State → State) (data : List UInt8) : Hash32 :=
  let lanes := (blocks (data.length / rate) data).foldl
    (fun lanes block => permute pi (xorBlock lanes 0 block)) (replicate 25 0)
  .ofFn fun i => (lanes.getD (i / 8) 0 >>> UInt64.ofNat (8 * (i % 8))).toUInt8

variable (a : State)

/-- The inverse of `pi`. -/
def piInv : State := fun x y => a y (2 * (x - y))

/-- The place to which `pi` moves the lane `i`. -/
def target (i : ℕ) : ℕ := i / 5 + 5 * (2 * (i + 4 * (i / 5)) % 5)

/-! ## The table of the fused step -/

variable (table : List ℕ)

/-- The lane that ends up at each place. -/
def sources : List (Option ℕ) :=
  (range 25).foldl (fun b i => b.set (table.getD i 0) (some i)) (replicate 25 none)

theorem offset_eq : ∀ x y : Fin 5, offset x y = rotations.getD (x + 5 * y) 0 := by decide

theorem rho_eq : rho a = fun x y => rotateLeft (a x y) (rotations.getD (x + 5 * y) 0) := by
  funext x y
  rw [rho, offset_eq]

theorem rhoPi_eq_map (lanes : List UInt64) : rhoPi table lanes =
    (sources table).map (·.elim 0 fun i => rotateLeft (lanes.getD i 0) (rotations.getD i 0)) := by
  -- The moves are the same on the numbers of the lanes.
  have hmoves (g : ℕ → UInt64) (b : List (Option ℕ)) (l : List ℕ) :
      l.foldl (fun b i => b.set (table.getD i 0) (g i)) (b.map (·.elim 0 g)) =
        (l.foldl (fun b i => b.set (table.getD i 0) (some i)) b).map (·.elim 0 g) := by
    induction l generalizing b with
    | nil => rfl
    | cons i l ih => rw [foldl_cons, foldl_cons, ← ih, map_set, Option.elim]
  exact hmoves _ (replicate 25 none) (range 25)

theorem rhoPi_positions : rhoPi positions (toLanes a) = toLanes (piInv (rho a)) := by
  have hsources : sources positions = (range 25).map fun j => some (target j) := by decide
  rw [rhoPi_eq_map, hsources, rho_eq]
  rfl

theorem rhoPi_targets :
    rhoPi ((range 25).map target) (toLanes a) = toLanes (pi (rho a)) := by
  have hsources : sources ((range 25).map target) =
      (range 25).map fun j => some ((j + 3 * (j / 5)) % 5 + 5 * (j % 5)) := by decide
  rw [rhoPi_eq_map, hsources, rho_eq]
  rfl

/-- What stands at a place was there before, or was moved there. -/
theorem getD_foldl_set (place : ℕ → ℕ) (g : ℕ → UInt64) (l : List ℕ) (b : List UInt64) (j : ℕ) :
    (l.foldl (fun b i => b.set (place i) (g i)) b).getD j 0 = b.getD j 0 ∨
      ∃ i ∈ l, place i = j ∧ (l.foldl (fun b i => b.set (place i) (g i)) b).getD j 0 = g i := by
  induction l generalizing b with
  | nil => exact .inl rfl
  | cons i l ih =>
    rcases ih (b.set (place i) (g i)) with hkept | ⟨i', hi', hplace, hout⟩
    · by_cases hj : place i = j ∧ j < b.length
      · obtain ⟨rfl, hlt⟩ := hj
        refine .inr ⟨i, mem_cons_self, rfl, hkept.trans ?_⟩
        simp [getD_eq_getElem?_getD, hlt]
      · refine .inl (hkept.trans ?_)
        rw [getD_eq_getElem?_getD, getElem?_set]
        grind
    · exact .inr ⟨i', mem_cons_of_mem _ hi', hplace, hout⟩

/-- After `rho`, each lane holds one more than its number. -/
def numbered : State := fun x y =>
  rotateLeft (.ofNat (x + 5 * y + 1)) (64 - rotations.getD (x + 5 * y) 0)

/-- The fused step is `pi` after `rho` for one table only. -/
theorem rhoPi_eq_iff :
    (∀ a, rhoPi table (toLanes a) = toLanes (pi (rho a))) ↔
      ∀ i < 25, table.getD i 0 = target i := by
  constructor
  · intro h k hk
    have hrotated : ∀ i < 25, rotateLeft ((toLanes numbered).getD i 0) (rotations.getD i 0) =
        .ofNat (i + 1) := by decide +kernel
    have hmoved : ∀ k < 25, (toLanes (pi (rho numbered))).getD (target k) 0 = .ofNat (k + 1) := by
      decide +kernel
    have hinj : ∀ i < 25, ∀ k < 25, UInt64.ofNat (i + 1) = .ofNat (k + 1) → i = k := by decide
    have hout := h numbered
    rw [rhoPi] at hout
    rcases getD_foldl_set (table.getD · 0) (fun i => rotateLeft ((toLanes numbered).getD i 0)
      (rotations.getD i 0)) (range 25) (replicate 25 0) (target k) with hzero | ⟨i, hi, hplace, hi'⟩
    · rw [hout, hmoved k hk] at hzero
      have hne : ∀ k < 25, UInt64.ofNat (k + 1) ≠ (replicate 25 0).getD (target k) 0 := by decide
      exact absurd hzero (hne k hk)
    · rw [hout, hmoved k hk, hrotated i (mem_range.mp hi)] at hi'
      rwa [hinj i (mem_range.mp hi) k hk hi'.symm] at hplace
  · intro h a
    rw [← rhoPi_targets]
    refine foldl_ext _ _ _ fun b i hi => ?_
    have htarget : ((range 25).map target).getD i 0 = target i := by
      simp [getD_eq_getElem?_getD, mem_range.mp hi]
    rw [h i (mem_range.mp hi), htarget]

/-! ## The sponge -/

section

variable {table : List ℕ} {move : State → State}
  (hstep : ∀ a, rhoPi table (toLanes a) = toLanes (move (rho a)))
include hstep

theorem round_eq (lanes : List UInt64) (i : ℕ) : Keccak.round table lanes (roundConstant i) =
    toLanes (iota i (chi (move (rho (theta (ofLanes lanes)))))) := by
  have htheta : Keccak.theta lanes = toLanes (theta (ofLanes lanes)) := rfl
  have hchi (a : State) : Keccak.chi (toLanes a) = toLanes (chi a) := rfl
  rw [Keccak.round, htheta, hstep, hchi]
  rfl

theorem keccakF1600_eq : keccakF1600 table = permute move := by
  funext lanes
  have hrc : roundConstants = (range 24).map roundConstant := by decide
  rw [keccakF1600, hrc, foldl_map]
  simp only [round_eq hstep]
  rfl

end

variable (table : List ℕ)

theorem foldl_absorb (bytes : List UInt8) (s : List UInt64) (k : ℕ) (hk : k < rate)
    (h : k + bytes.length ≤ rate) : bytes.foldl (absorb table) (s, k) =
      if k + bytes.length = rate then (keccakF1600 table (xorBlock s k bytes), 0)
      else (xorBlock s k bytes, k + bytes.length) := by
  induction bytes generalizing s k with
  | nil => simp [hk.ne, xorBlock]
  | cons b bytes ih =>
    rw [length_cons] at h ⊢
    by_cases hlast : k + 1 = rate
    · have hnil : bytes = [] := eq_nil_of_length_eq_zero (by omega)
      subst hnil
      simp [absorb, hlast, xorBlock]
    · rw [foldl_cons, absorb, if_neg hlast, ih _ _ (by omega) (by omega), Nat.add_right_comm]
      rfl

theorem xorBlock_append (s : List UInt64) (k : ℕ) (l₁ l₂ : List UInt8) :
    xorBlock s k (l₁ ++ l₂) = xorBlock (xorBlock s k l₁) (k + l₁.length) l₂ := by
  rw [xorBlock, zipIdx_append, foldl_append]
  rfl

theorem xorBlock_zeros (s : List UInt64) (k n : ℕ) : xorBlock s k (replicate n 0) = s := by
  have hzero (i : ℕ) : xorByte s i 0 = s := by
    simp only [xorByte, show (0 : UInt8).toUInt64 = 0 from rfl, UInt64.zero_shiftLeft,
      UInt64.xor_zero]
    exact s.modify_id _
  induction n generalizing k with
  | zero => rfl
  | succ n ih => exact (congrArg (xorBlock · _ _) (hzero k)).trans (ih (k + 1))

theorem xorBlock_padding (s : List UInt64) {n : ℕ} (h : n < rate) :
    xorBlock s n (padding n) = xorByte (xorByte s n 0x01) (rate - 1) 0x80 := by
  unfold padding
  split
  · have hn : n = 135 := by unfold rate at *; omega
    subst hn
    have hbits : (0x81 : UInt64) <<< 56 = (1 : UInt64) <<< 56 ^^^ (0x80 : UInt64) <<< 56 := rfl
    simp [xorBlock, xorByte, rate, modify_modify_eq, Function.comp_def, UInt64.xor_assoc, hbits]
  · have hend : n + 1 + (rate - 2 - n) = rate - 1 := by unfold rate at *; omega
    rw [cons_append, ← singleton_append, xorBlock_append, xorBlock_append, xorBlock_zeros]
    simp [xorBlock, hend]

theorem foldl_blocks (n : ℕ) (data : List UInt8) (s : List UInt64) (h : data.length / rate = n) :
    (blocks n data).foldl (fun s block => keccakF1600 table (xorBlock s 0 block)) s =
      let (lanes, offset) := data.foldl (absorb table) (s, 0)
      keccakF1600 table (xorByte (xorByte lanes offset 0x01) (rate - 1) 0x80) := by
  induction n generalizing data s with
  | zero =>
    have hlt : data.length < rate := by unfold rate at *; omega
    rw [foldl_absorb table data s 0 (by decide) (by omega), if_neg (by omega)]
    simp [blocks, xorBlock_append, ← xorBlock_padding _ hlt]
  | succ n ih =>
    have hlen : (data.take rate).length = rate := by
      rw [length_take]; unfold rate at *; omega
    conv_rhs => rw [← take_append_drop rate data, foldl_append,
      foldl_absorb _ _ s 0 (by decide) (by omega), if_pos (by omega)]
    rw [blocks, foldl_cons]
    exact ih _ _ (by rw [length_drop]; unfold rate at *; omega)

theorem keccak256With_eq {move : State → State}
    (hstep : ∀ a, rhoPi table (toLanes a) = toLanes (move (rho a))) (data : List UInt8) :
    keccak256With table data = keccak move data := by
  rw [keccak, ← keccakF1600_eq hstep, foldl_blocks _ _ _ _ rfl, keccak256With]

/-- **Which table makes `keccak256` Keccak-256.**  The fused step is `pi` after `rho` exactly if the
table has for each lane the place to which `pi` moves it, and then the hash of every input is that
of the standard.  With the table of the source it is the hash with the inverse of `pi`. -/
theorem keccak256_eq_of_table :
    ((∀ a, rhoPi table (toLanes a) = toLanes (pi (rho a))) ↔
      ∀ i < 25, table.getD i 0 = target i) ∧
    ((∀ i < 25, table.getD i 0 = target i) →
      ∀ data, keccak256With table data = keccak pi data) ∧
    (∀ data, keccak256 data = keccak piInv data) ∧ ∀ a, pi (piInv a) = a ∧ piInv (pi a) = a := by
  refine ⟨rhoPi_eq_iff table, fun h => keccak256With_eq table ((rhoPi_eq_iff table).mpr h),
    keccak256With_eq _ rhoPi_positions, fun a => ?_⟩
  constructor <;> funext x y <;> fin_cases x <;> fin_cases y <;> rfl

/-- The table of the source has another place for the lane 1, and the two hashes differ on the empty
input already. -/
theorem keccak256_nil_ne : positions.getD 1 0 ≠ target 1 ∧ keccak256 [] ≠ keccak pi [] := by
  decide +kernel

end Fips

end IonaOs.Evm
