import IonaOs.Types

/-!
# Keccak-256
-/

namespace IonaOs.Evm

namespace Keccak

def rate : ℕ := 136

def roundConstants : List UInt64 :=
  [0x0000000000000001, 0x0000000000008082, 0x800000000000808A,
   0x8000000080008000, 0x000000000000808B, 0x0000000080000001,
   0x8000000080008081, 0x8000000000008009, 0x000000000000008A,
   0x0000000000000088, 0x0000000080008009, 0x000000008000000A,
   0x000000008000808B, 0x800000000000008B, 0x8000000000008089,
   0x8000000000008003, 0x8000000000008002, 0x8000000000000080,
   0x000000000000800A, 0x800000008000000A, 0x8000000080008081,
   0x8000000000008080, 0x0000000080000001, 0x8000000080008008]

def rotations : List ℕ :=
  [0, 1, 62, 28, 27, 36, 44, 6, 55, 20,
   3, 10, 43, 25, 39, 41, 45, 15, 21, 8,
   18, 2, 61, 56, 14]

def positions : List ℕ :=
  [0, 6, 12, 18, 24, 3, 9, 10, 16, 22,
   1, 7, 13, 19, 20, 4, 5, 11, 17, 23,
   2, 8, 14, 15, 21]

/-- `u64::rotate_left`. -/
def rotateLeft (x : UInt64) (n : ℕ) : UInt64 := ⟨x.toBitVec.rotateLeft n⟩

def theta (lanes : List UInt64) : List UInt64 :=
  let lane i := lanes.getD i 0
  let c := (List.range 5).map fun x =>
    lane x ^^^ lane (x + 5) ^^^ lane (x + 10) ^^^ lane (x + 15) ^^^ lane (x + 20)
  let d := (List.range 5).map fun x =>
    c.getD ((x + 4) % 5) 0 ^^^ rotateLeft (c.getD ((x + 1) % 5) 0) 1
  (List.range 25).map fun i => lane i ^^^ d.getD (i % 5) 0

/-- The lane `i` goes to the place that `table` has for it. -/
def rhoPi (table : List ℕ) (lanes : List UInt64) : List UInt64 :=
  (List.range 25).foldl
    (fun b i => b.set (table.getD i 0) (rotateLeft (lanes.getD i 0) (rotations.getD i 0)))
    (List.replicate 25 0)

def chi (b : List UInt64) : List UInt64 :=
  (List.range 25).map fun i =>
    let row := 5 * (i / 5)
    b.getD i 0 ^^^ (~~~ (b.getD ((i % 5 + 1) % 5 + row) 0) &&& b.getD ((i % 5 + 2) % 5 + row) 0)

def round (table : List ℕ) (lanes : List UInt64) (rc : UInt64) : List UInt64 :=
  (chi (rhoPi table (theta lanes))).modify 0 (· ^^^ rc)

/-- Mix a byte into the block at position `i`. -/
def xorByte (lanes : List UInt64) (i : ℕ) (b : UInt8) : List UInt64 :=
  lanes.modify (i / 8) (· ^^^ (b.toUInt64 <<< UInt64.ofNat (8 * (i % 8))))

section

-- the source has one table, the constant `PI`: `positions`
variable (table : List ℕ)

/-- `keccak_f1600`. -/
def keccakF1600 (lanes : List UInt64) : List UInt64 := roundConstants.foldl (round table) lanes

def absorb (s : List UInt64 × ℕ) (b : UInt8) : List UInt64 × ℕ :=
  let lanes := xorByte s.1 s.2 b
  if s.2 + 1 = rate then (keccakF1600 table lanes, 0) else (lanes, s.2 + 1)

/-- `keccak256`, with `table` for the constant `PI`. -/
def keccak256With (data : List UInt8) : Hash32 :=
  let (lanes, offset) := data.foldl (absorb table) (List.replicate 25 0, 0)
  let lanes := keccakF1600 table (xorByte (xorByte lanes offset 0x01) (rate - 1) 0x80)
  .ofFn fun i => (lanes.getD (i / 8) 0 >>> UInt64.ofNat (8 * (i % 8))).toUInt8

end

end Keccak

/-- `keccak256`. -/
def keccak256 (data : List UInt8) : Hash32 := Keccak.keccak256With Keccak.positions data

end IonaOs.Evm
