import IonaOs.Memory.FrameOwners

/-!
# Page tables
-/

namespace IonaOs.Process

open BitVec

scoped instance neZero_tableSize : NeZero 512 := ⟨by decide⟩

/-! ## Entries -/

/-- A `PageTableEntry`. -/
abbrev Entry := BitVec 64

namespace Flag

def present : BitVec 64 := 0x1
def writable : BitVec 64 := 0x2
def userAccessible : BitVec 64 := 0x4
def noExecute : BitVec 64 := 0x8000000000000000

end Flag

namespace Entry

def addrMask : BitVec 64 := 0x000ffffffffff000

variable (e : Entry)

def addr : BitVec 64 := e &&& addrMask

def flags : BitVec 64 := e &&& ~~~addrMask

def isPresent : Bool := e.getLsbD 0
def isWritable (e : Entry) : Bool := e.getLsbD 1
def isHuge (e : Entry) : Bool := e.getLsbD 7

def setAddr (addr flags : BitVec 64) : Entry := addr ||| flags

def setFlags (flags : BitVec 64) : Entry := addr e ||| flags

def frame : ℕ := (addr e).toNat / 4096

end Entry

def frameAddr (f : ℕ) : BitVec 64 := BitVec.ofNat 64 (f * 4096)

namespace Entry

theorem getLsbD_addrMask {i : ℕ} : addrMask.getLsbD i = (decide (12 ≤ i) && decide (i < 52)) := by
  by_cases hi : i < 64
  · have hall : ∀ j : Fin 64, addrMask.getLsbD j = (decide (12 ≤ j.1) && decide (j.1 < 52)) := by
      decide
    exact hall ⟨i, hi⟩
  · rw [getLsbD_of_ge _ _ (Nat.not_lt.mp hi), decide_eq_false (by omega : ¬ i < 52), Bool.and_false]

theorem getLsbD_addr {e : Entry} {i : ℕ} :
    (addr e).getLsbD i = (e.getLsbD i && (decide (12 ≤ i) && decide (i < 52))) := by
  rw [addr, getLsbD_and, getLsbD_addrMask]

end Entry

theorem getLsbD_frameAddr {f i : ℕ} (hf : f < 2 ^ 40) :
    (frameAddr f).getLsbD i = (decide (12 ≤ i) && f.testBit (i - 12)) := by
  have hlt : f * 4096 < 2 ^ 64 := by omega
  rw [frameAddr, ← testBit_toNat, toNat_ofNat, Nat.mod_eq_of_lt hlt]
  exact Nat.testBit_mul_two_pow f i 12

theorem Entry.frame_setAddr {f : ℕ} {flags : BitVec 64} (hf : f < 2 ^ 40)
    (hflags : flags &&& addrMask = 0#64) : frame (setAddr (frameAddr f) flags) = f := by
  have haddr : addr (setAddr (frameAddr f) flags) = frameAddr f := by
    refine eq_of_getLsbD_eq fun i hi => ?_
    have hbit := congrArg (getLsbD · i) hflags
    simp only [getLsbD_and, getLsbD_addrMask, getLsbD_zero] at hbit
    rw [getLsbD_addr, setAddr, getLsbD_or, getLsbD_frameAddr hf]
    by_cases hlow : 12 ≤ i
    · by_cases hhigh : i < 52
      · simp only [hlow, hhigh, decide_true, Bool.and_true, Bool.true_and] at hbit ⊢
        rw [hbit, Bool.or_false]
      · have hzero : f.testBit (i - 12) = false :=
          Nat.testBit_lt_two_pow (hf.trans_le (Nat.pow_le_pow_right (by decide) (by omega)))
        simp [hhigh, hzero]
    · simp [hlow]
  rw [frame, haddr, frameAddr, toNat_ofNat, Nat.mod_eq_of_lt (by omega)]
  exact Nat.mul_div_cancel _ (by decide)

/-! ## Tables in memory -/

abbrev PageTable := Fin 512 → Entry

abbrev PhysMem := ℕ → PageTable

variable (mem : PhysMem)

def PhysMem.write (f : ℕ) (i : Fin 512) (e : Entry) : PhysMem :=
  Function.update mem f (Function.update (mem f) i e)

theorem PhysMem.write_apply (f g : ℕ) (i j : Fin 512) (e : Entry) :
    mem.write f i e g j = if g = f ∧ j = i then e else mem g j := by
  by_cases hg : g = f
  · subst hg
    by_cases hj : j = i
    · subst hj
      simp [PhysMem.write]
    · simp [PhysMem.write, hj]
  · simp [PhysMem.write, hg]

def index (level : ℕ) (virt : UInt64) : Fin 512 :=
  Fin.ofNat 512 (virt.toNat / 2 ^ (12 + 9 * (level - 1)))

inductive AddressSpaceError where
  | outOfMemory
  | invalidAddress
  | notMapped
  | internal
deriving DecidableEq

def isCanonical (virt : UInt64) : Bool :=
  let bit47 := virt.toNat / 2 ^ 47 % 2
  let upper := virt.toNat / 2 ^ 48
  !((bit47 == 0 && upper != 0) || (bit47 == 1 && upper != 0xffff))

/-- The entry that maps an address, with its level.  `table` is the frame of the first table. -/
def walkPageTables (table : ℕ) (virt : UInt64) :
    Except AddressSpaceError (Entry × ℕ) :=
  if !isCanonical virt then .error .invalidAddress
  else
    let l4e := mem table (index 4 virt)
    if !l4e.isPresent then .error .notMapped
    else
      let l3e := mem l4e.frame (index 3 virt)
      if !l3e.isPresent then .error .notMapped
      else if l3e.isHuge then .ok (l3e, 3)
      else
        let l2e := mem l3e.frame (index 2 virt)
        if !l2e.isPresent then .error .notMapped
        else if l2e.isHuge then .ok (l2e, 2)
        else
          let l1e := mem l2e.frame (index 1 virt)
          if !l1e.isPresent then .error .notMapped else .ok (l1e, 1)

def getPhysAddr (table : ℕ) (virt : UInt64) :
    Except AddressSpaceError (BitVec 64) :=
  match walkPageTables mem table virt with
  | .error e => .error e
  | .ok (pte, level) =>
    match level with
    | 3 => .ok (pte.addr ||| virt.toBitVec &&& 0x3fffffff)
    | 2 => .ok (pte.addr ||| virt.toBitVec &&& 0x1fffff)
    | 1 => .ok (pte.addr ||| virt.toBitVec &&& 0xfff)
    | _ => .error .internal

end IonaOs.Process
