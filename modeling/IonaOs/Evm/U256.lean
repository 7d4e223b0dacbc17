import IonaOs.Lib.Word
import IonaOs.Types

/-!
# 256-bit words
-/

namespace IonaOs.Evm

open Lib

/-- `[u8; 32]`. -/
abbrev U256 := Vector UInt8 32

/-- `[u8; 20]`. -/
abbrev Address := Vector UInt8 20

/-- `u128`. -/
abbrev U128 := BitVec 128

namespace U256

/-- `[0u8; 32]`. -/
def zero : U256 := .replicate 32 0

def ofNat (n : ℕ) : U256 := .ofFn fun i => UInt8.ofNat (n / 256 ^ (31 - i.val))

/-- `Vm::to_u64`. -/
def toU64 (v : U256) : UInt64 := UInt64.ofNat (beNat (v.toList.drop 24))

/-- `u128::from_be_bytes(v[16..32])`. -/
def toU128 (v : U256) : U128 := BitVec.ofNat 128 (beNat (v.toList.drop 16))

def toAddress (v : U256) : Address := .ofFn fun i => v.get ⟨12 + i.val, by omega⟩

/-- `Vm::from_u64`. -/
def fromU64 (n : UInt64) : U256 := ofNat n.toNat

/-- `Vm::from_u128`. -/
def fromU128 (n : U128) : U256 := ofNat n.toNat

def fromAddress (a : Address) : U256 := .ofFn fun i =>
  if h : i.val < 12 then 0 else a.get ⟨i.val - 12, by omega⟩

def ofBool (b : Bool) : U256 := if b then fromU64 1 else zero

def ofLe (bytes : List UInt8) : U256 := .ofFn fun i => bytes.getD (31 - i.val) 0

/-- The loop of `u256_add` over the bytes of both words, least significant first. -/
def addLoop : List (UInt8 × UInt8) → ℕ → List UInt8
  | [], _ => []
  | (a, b) :: rest, carry =>
    let s := a.toNat + b.toNat + carry
    UInt8.ofNat s :: addLoop rest (s / 256)

/-- `Vm::u256_add`. -/
def u256Add (a b : U256) : U256 := ofLe (addLoop (a.toList.reverse.zip b.toList.reverse) 0)

/-- The loop of `u256_sub` over the bytes of both words, least significant first. -/
def subLoop : List (UInt8 × UInt8) → ℕ → List UInt8
  | [], _ => []
  | (a, b) :: rest, borrow =>
    UInt8.ofNat (a.toNat + 512 - b.toNat - borrow) ::
      subLoop rest (if a.toNat < b.toNat + borrow then 1 else 0)

/-- `Vm::u256_sub`. -/
def u256Sub (a b : U256) : U256 := ofLe (subLoop (a.toList.reverse.zip b.toList.reverse) 0)

/-- The limb `k` of a word, `k = 0` the least significant. -/
def limb (v : U256) (k : ℕ) : UInt64 := UInt64.ofNat (beNat ((v.toList.drop (24 - 8 * k)).take 8))

/-- One turn of the loops of `u256_mul`, on limbs with the least significant first. -/
def mulStep (a b : U256) (r : List UInt64) (ij : ℕ × ℕ) : List UInt64 :=
  let dest := ij.1 + ij.2
  if dest < 4 then
    let sum := (r.getD dest 0).toNat + (limb a ij.1).toNat * (limb b ij.2).toNat
    let r := r.set dest (UInt64.ofNat sum)
    if dest + 1 < 4 then r.modify (dest + 1) (· + UInt64.ofNat (sum / 2 ^ 64)) else r
  else r

/-- `Vm::u256_mul`. -/
def u256Mul (a b : U256) : U256 :=
  let r := ((List.range 4).product (List.range 4)).foldl (mulStep a b) (List.replicate 4 0)
  ofLe (r.flatMap le64)

/-- `SIGNEXTEND`, as far as the interpreter has it. -/
def signExtend (b x : U256) : U256 :=
  let bit := (toU64 b).toNat % 32
  let sign := x.toList.getD (31 - bit) 0 &&& 0x80
  .ofFn fun i => if 32 - bit ≤ i.val then (if sign ≠ 0 then 0xFF else 0) else x.get i

/-- `BYTE`. -/
def byte (idx val : U256) : U256 :=
  let i := (toU64 idx).toNat
  (U256.zero).set 31 (if i < 32 then val.toList.getD i 0 else 0)

end U256

end IonaOs.Evm
