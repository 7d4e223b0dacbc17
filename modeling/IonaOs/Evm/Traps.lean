import IonaOs.Evm.Gas

/-!
# Where a run traps
-/

namespace IonaOs.Evm

open Lib List Option UInt64

/-- The longest memory: a multiple of 32 that is at most `isize::MAX`. -/
def memoryCap : ℕ := 2 ^ 63 - 32

/-- `mem_expand` traps: an addition overflows, or the vector gets too long. -/
def ExpandTraps (size : ℕ) (off len : UInt64) : Prop :=
  len ≠ 0 ∧ (2 ^ 64 ≤ off.toNat + len.toNat ∨ size < off.toNat + len.toNat ∧
    (2 ^ 64 ≤ off.toNat + len.toNat + 31 ∨ 2 ^ 63 ≤ (off.toNat + len.toNat + 31) / 32 * 32))

/-- The length of the memory after `mem_expand`, if it does not trap. -/
def expandedSize (size : ℕ) (off len : UInt64) : ℕ :=
  if len = 0 then size
  else if size < off.toNat + len.toNat then (off.toNat + len.toNat + 31) / 32 * 32 else size

inductive Access where
  | span (off len : UInt64)
  | copy (dest len srcOff : UInt64) (srcLen : ℕ)
  | load (idx : UInt64)
  | quotient (a b : UInt64)
  | shift (s : UInt64)

variable {size : ℕ}

namespace Access

/-- The operation traps on a memory of the length `size`. -/
def Traps (size : ℕ) : Access → Prop
  | span off len => ExpandTraps size off len ∨ 2 ^ 64 ≤ off.toNat + len.toNat ∨
      expandedSize size off len < off.toNat + len.toNat
  | copy dest len srcOff srcLen =>
    let n := min len.toNat (srcLen - srcOff.toNat)
    ExpandTraps size dest len ∨ n ≠ 0 ∧
      -- A source is a vector, so an end within it is no overflow.
      (2 ^ 64 ≤ dest.toNat + n ∨ expandedSize size dest len < dest.toNat + n ∨
        srcLen < srcOff.toNat + n)
  | load idx => 2 ^ 64 ≤ idx.toNat + 31
  | quotient a b => a.toInt64 = Int64.minValue ∧ b.toInt64 = -1
  | shift s => 64 ≤ s.toNat

def Safe (size : ℕ) : Access → Prop
  | span off len =>
    if len = 0 then off.toNat ≤ size else off.toNat + len.toNat ≤ memoryCap
  | copy dest len _ _ => len = 0 ∨ dest.toNat + len.toNat ≤ memoryCap
  | load idx => idx.toNat + 31 < 2 ^ 64
  | quotient a b => ¬ (a.toInt64 = Int64.minValue ∧ b.toInt64 = -1)
  | shift s => s.toNat < 64

instance (size : ℕ) (a : Access) : Decidable (a.Safe size) := by
  unfold Safe
  split <;> infer_instance

theorem traps_iff (h : size ≤ memoryCap) (a : Access) : a.Traps size ↔ ¬ a.Safe size := by
  unfold memoryCap at h
  cases a with
  | span off len =>
    have hoff := off.toNat_lt
    by_cases hlen : len = 0
    · subst hlen
      simp only [Traps, Safe, ExpandTraps, expandedSize, ne_eq, not_true_eq_false, false_and,
        if_true, false_or, UInt64.toNat_zero]
      omega
    · simp only [Traps, Safe, ExpandTraps, expandedSize, ne_eq, hlen, not_false_eq_true,
        true_and, if_false, memoryCap]
      split <;> omega
  | copy _ len =>
    by_cases hlen : len = 0
    · subst hlen
      simp [Traps, Safe, ExpandTraps]
    · simp only [Traps, Safe, ExpandTraps, expandedSize, ne_eq, hlen, not_false_eq_true,
        true_and, if_false, false_or, memoryCap]
      split <;> omega
  | load | shift =>
    simp only [Traps, Safe]
    omega
  | quotient => simp [Traps, Safe]

end Access

/-! ## The operations of an instruction -/

open U256 in
def MachineInstr.accesses (f : Frame) (db : EvmStateDb) (m : Machine) :
    MachineInstr → List Access
  | binary .sdiv | binary .smod =>
    if toU64 (m.arg 1) = 0 then [] else [.quotient (toU64 (m.arg 0)) (toU64 (m.arg 1))]
  | binary .sar => [.shift (min (toU64 (m.arg 0)) 255)]
  | unary .calldataload => [.load (toU64 (m.arg 0))]
  | sha3 | ret | revert => [.span (toU64 (m.arg 0)) (toU64 (m.arg 1))]
  | log _ => if f.staticCall then [] else [.span (toU64 (m.arg 0)) (toU64 (m.arg 1))]
  | copy src =>
    [.copy (toU64 (m.arg 0)) (toU64 (m.arg 2)) (toU64 (m.arg 1)) (src.bytes f m).length]
  | extcodecopy =>
    [.copy (toU64 (m.arg 1)) (toU64 (m.arg 3)) (toU64 (m.arg 2))
      (db.getAccount (toAddress (m.arg 0))).code.length]
  | mload | mstore => [.span (toU64 (m.arg 0)) 32]
  | mstore8 => [.span (toU64 (m.arg 0)) 1]
  | _ => []

namespace Vm

open U256

variable (vm : Vm)

def accesses : Instr → List Access
  | .machine i => i.accesses vm.frame vm.state vm.machine
  | .create | .create2 =>
    if vm.frame.staticCall ∨ vm.machine.gas < 32000 then []
    else [.span (toU64 (vm.machine.arg 1)) (toU64 (vm.machine.arg 2))]
  | .call | .callcode =>
    if vm.frame.staticCall ∧ toU128 (vm.machine.arg 2) ≠ 0 then []
    else [.span (toU64 (vm.machine.arg 3)) (toU64 (vm.machine.arg 4))]
  | .delegatecall => [.span (toU64 (vm.machine.arg 2)) (toU64 (vm.machine.arg 3))]
  | .sstore | .selfdestruct => []

def returnSpan : Instr → Option (UInt64 × UInt64)
  | .call | .callcode => some (toU64 (vm.machine.arg 5), toU64 (vm.machine.arg 6))
  | .delegatecall => some (toU64 (vm.machine.arg 4), toU64 (vm.machine.arg 5))
  | _ => none

inductive Performs : ℕ → Access → Prop
  | exec {i : Instr} {a : Access} (hi : vm.Executes i) (ha : a ∈ vm.fetched.accesses i) :
      Performs vm.machine.memory.length a
  | back {i : Instr} {args argsLen off len : UInt64} {n : ℕ} {c sub : Vm}
      {r : Except EvmError Unit} {resume : Outcome → Outcome ⊕ Vm} (hi : vm.Executes i)
      (hargs : vm.fetched.accesses i = [.span args argsLen])
      (hback : vm.fetched.returnSpan i = some (off, len)) (hstep : vm.step = .enter c resume)
      (hrun : run n c = some (.finished sub r)) (hok : r.isOk = true) :
      Performs (expandedSize vm.machine.memory.length args argsLen)
        (.copy off (ofNat (sub.machine.output.take len.toNat).length) 0
          (sub.machine.output.take len.toNat).length)

end Vm

/-! ## What the model calls a panic is a trap -/

variable {data : List UInt8} {n : ℕ}

namespace Machine

variable {m m' : Machine} {off len : UInt64}

theorem expandTraps_of_none (h : m.memExpand off len = none) :
    ExpandTraps m.memory.length off len := by
  simp only [memExpand, UInt64.toNat_mul, UInt64.toNat_div, UInt64.toNat_add, reduceToNat] at h
  split_ifs at h with hlen hlt hcap
  exact ⟨hlen, by omega⟩

theorem length_resize {bytes : List UInt8} (h : bytes.length ≤ n) :
    (resize bytes n).length = n := by
  simp only [resize, length_append, length_take, length_replicate]
  omega

theorem length_memExpand (h : m.memExpand off len = some m')
    (hno : ¬ ExpandTraps m.memory.length off len) :
    m'.memory.length = expandedSize m.memory.length off len := by
  unfold expandedSize
  by_cases hlen : len = 0
  · simp only [memExpand, if_pos hlen, Option.some.injEq] at h
    rw [if_pos hlen, h]
  have hsum : (off + len).toNat = off.toNat + len.toNat := by
    rw [UInt64.toNat_add]
    refine Nat.mod_eq_of_lt (Nat.lt_of_not_le ?_)
    exact fun hover => hno ⟨hlen, .inl hover⟩
  rw [if_neg hlen]
  rcases memExpand_cases h with ⟨hzero | hle, rfl⟩ | ⟨-, hlt, -, rfl⟩
  · exact absurd hzero hlen
  · rw [if_neg (by omega)]
  rw [hsum] at hlt
  have hround : ((off + len + 31) / 32 * 32).toNat =
      (off.toNat + len.toNat + 31) / 32 * 32 := by
    have hno' : ¬ 2 ^ 64 ≤ off.toNat + len.toNat + 31 :=
      fun hover => hno ⟨hlen, .inr ⟨hlt, .inl hover⟩⟩
    simp only [UInt64.toNat_mul, UInt64.toNat_div, UInt64.toNat_add, reduceToNat]
    omega
  rw [if_pos hlt, hround, length_resize (by omega)]

theorem traps_of_slice (hexp : m.memExpand off len = some m') (hn : n < 2 ^ 64)
    (h : slice m'.memory off (off + ofNat n) = none) :
    ExpandTraps m.memory.length off len ∨ 2 ^ 64 ≤ off.toNat + n ∨
      expandedSize m.memory.length off len < off.toNat + n := by
  by_cases hno : ExpandTraps m.memory.length off len
  · exact .inl hno
  by_cases hover : 2 ^ 64 ≤ off.toNat + n
  · exact .inr (.inl hover)
  refine .inr (.inr ?_)
  have hstop : (off + ofNat n).toNat = off.toNat + n := by
    rw [UInt64.toNat_add, toNat_ofNat_of_lt' hn]
    exact Nat.mod_eq_of_lt (Nat.lt_of_not_le hover)
  simp only [slice, le_iff_toNat_le, hstop, length_memExpand hexp hno] at h
  by_contra hle
  rw [if_pos (by omega)] at h
  cases h

theorem traps_of_memRead (h : m.memRead off len = none) :
    (Access.span off len).Traps m.memory.length := by
  unfold memRead at h
  cases hexp : m.memExpand off len with
  | none => exact .inl (expandTraps_of_none hexp)
  | some m' =>
    have hslice : slice m'.memory off (off + ofNat len.toNat) = none := by
      rw [UInt64.ofNat_toNat]
      cases hs : slice m'.memory off (off + len) with
      | none => rfl
      | some => simp [hexp, hs] at h
    exact traps_of_slice hexp len.toNat_lt hslice

theorem traps_of_memCopy (hexp : m.memExpand off len = some m') (hn : data.length < 2 ^ 64)
    (h : m'.memCopy off data = none) :
    ExpandTraps m.memory.length off len ∨ 2 ^ 64 ≤ off.toNat + data.length ∨
      expandedSize m.memory.length off len < off.toNat + data.length := by
  refine traps_of_slice hexp hn ?_
  unfold memCopy at h
  cases hs : slice m'.memory off (off + ofNat data.length) with
  | none => rfl
  | some => simp [hs] at h

theorem traps_of_store (hdata : data.length = len.toNat)
    (h : (m.memExpand off len).bind (·.memCopy off data) = none) :
    (Access.span off len).Traps m.memory.length := by
  cases hexp : m.memExpand off len with
  | none => exact .inl (expandTraps_of_none hexp)
  | some =>
    rw [hexp] at h
    have htraps := traps_of_memCopy hexp (hdata ▸ len.toNat_lt) h
    rwa [hdata] at htraps

theorem traps_of_copyFrom {src : List UInt8} {srcOff : UInt64}
    (h : m.copyFrom src off srcOff len = none) :
    (Access.copy off len srcOff src.length).Traps m.memory.length := by
  unfold copyFrom at h
  cases hexp : m.memExpand off len with
  | none => exact .inl (expandTraps_of_none hexp)
  | some =>
    simp only [hexp, bind_eq_bind, bind_some] at h
    split at h
    · cases h
    rename_i hdata
    have hlen : ((src.drop srcOff.toNat).take len.toNat).length =
        min len.toNat (src.length - srcOff.toNat) := by simp
    have hlt : ((src.drop srcOff.toNat).take len.toNat).length < 2 ^ 64 := by
      have := len.toNat_lt
      omega
    rcases traps_of_memCopy hexp hlt h with hexpand | hover | hshort
    · exact .inl hexpand
    · exact .inr ⟨by rwa [← hlen, ne_eq, length_eq_zero_iff], .inl (hlen ▸ hover)⟩
    · exact .inr ⟨by rwa [← hlen, ne_eq, length_eq_zero_iff], .inr (.inl (hlen ▸ hshort))⟩

theorem copyBack_eq (h : data.length < 2 ^ 64) :
    m.copyBack off data = m.copyFrom data off 0 (ofNat data.length) := by
  unfold copyBack copyFrom
  by_cases hdata : data = []
  · subst hdata
    simp [memExpand]
  · have hn : (ofNat data.length).toNat = data.length := toNat_ofNat_of_lt' h
    simp [hdata, hn]

/-! The memory stays below its longest length, with or without a trap. -/

def Fits (m : Machine) : Prop := m.memory.length ≤ memoryCap

theorem fits_memExpand (hm : m.Fits) (h : m.memExpand off len = some m') : m'.Fits := by
  rcases memExpand_cases h with ⟨-, rfl⟩ | ⟨-, hlt, hcap, rfl⟩
  · exact hm
  have hround : 32 ∣ ((off + len + 31) / 32 * 32).toNat := by
    simp only [UInt64.toNat_mul, UInt64.toNat_div, reduceToNat]
    omega
  simp only [Fits, memoryCap, resize, length_append, length_take, length_replicate] at hm ⊢
  omega

theorem length_memCopy (hdata : data.length < 2 ^ 64) (h : m.memCopy off data = some m') :
    m'.memory.length = m.memory.length := by
  unfold memCopy slice at h
  simp only [bind_eq_bind] at h
  split at h
  · rename_i hs
    simp only [bind_some, pure, Option.some.injEq] at h
    subst h
    simp only [le_iff_toNat_le, UInt64.toNat_add, toNat_ofNat_of_lt' hdata] at hs
    simp only [length_append, length_take, length_drop, UInt64.toNat_add, toNat_ofNat_of_lt' hdata]
    have hoff := off.toNat_lt
    omega
  · cases h

theorem fits_memRead (hm : m.Fits) {x : List UInt8 × Machine} (h : m.memRead off len = some x) :
    x.2.Fits :=
  fits_memExpand hm (memExpand_of_memRead h)

theorem fits_expandCopy (hm : m.Fits) (hdata : data.length < 2 ^ 64)
    (h : (m.memExpand off len).bind (·.memCopy off data) = some m') : m'.Fits := by
  obtain ⟨m₁, hexp, hcopy⟩ := bind_eq_some_iff.mp h
  have hfits := fits_memExpand hm hexp
  unfold Fits at *
  rwa [length_memCopy hdata hcopy]

theorem fits_copyFrom (hm : m.Fits) {src : List UInt8} {srcOff : UInt64}
    (h : m.copyFrom src off srcOff len = some m') : m'.Fits := by
  unfold copyFrom at h
  obtain ⟨m₁, hexp, hcopy⟩ := bind_eq_some_iff.mp h
  simp only at hcopy
  split at hcopy
  · cases hcopy
    exact fits_memExpand hm hexp
  refine fits_expandCopy hm ?_ (bind_eq_some_iff.mpr ⟨m₁, hexp, hcopy⟩)
  have hlen := len.toNat_lt
  rw [length_take]
  omega

variable (m : Machine)

@[simp] theorem memory_push (c : EvmConfig) (v : U256) :
    (m.push c v).memory = m.memory := by
  unfold push
  split <;> rfl

@[simp] theorem memory_useGas (g : UInt64) : (m.useGas g).memory = m.memory := by
  unfold useGas
  split <;> rfl

@[simp] theorem arg_useGas (g : UInt64) (i : ℕ) : (m.useGas g).arg i = m.arg i := by
  unfold useGas
  split <;> rfl

@[simp] theorem memory_drop (n : ℕ) : (m.drop n).memory = m.memory := rfl

@[simp] theorem memory_lend (g : UInt64) : (m.lend g).memory = m.memory := rfl

variable {m}

@[simp] theorem memory_join (m sub : Machine) : (m.join sub).memory = m.memory := rfl

theorem Fits.of_memory_eq (hm : m.Fits) (h : m'.memory = m.memory) : m'.Fits := by
  unfold Fits
  rwa [h]

end Machine

open Machine

def MachineResult.Guarded (as : List Access) (size : ℕ) : MachineResult → Prop
  | .panic => ∃ a ∈ as, a.Traps size
  | .error _ _ => True
  | .next m' => m'.Fits

theorem MachineResult.guarded_ofOption {as : List Access} {α : Type} {x : Option α}
    {next : α → MachineResult} (hnone : x = none → ∃ a ∈ as, a.Traps size)
    (hsome : ∀ a, x = some a → Guarded as size (next a)) : Guarded as size (ofOption x next) := by
  cases x with
  | none => exact hnone rfl
  | some a => exact hsome a rfl

theorem BinOp.traps_of_eval {a b : U256} {op : BinOp} (h : op.eval a b = none) (size : ℕ) :
    (op = .sdiv ∨ op = .smod) ∧ U256.toU64 b ≠ 0 ∧
      (Access.quotient (U256.toU64 a) (U256.toU64 b)).Traps size := by
  have hquot {r : U256} (hq : (if (U256.toU64 b).toInt64 = 0 then some U256.zero
      else if (U256.toU64 a).toInt64 = Int64.minValue ∧ (U256.toU64 b).toInt64 = -1 then none
      else some r) = none) : U256.toU64 b ≠ 0 ∧
        (Access.quotient (U256.toU64 a) (U256.toU64 b)).Traps size := by
    split at hq
    · cases hq
    rename_i hb
    split at hq
    · rename_i hmin
      refine ⟨?_, hmin⟩
      rintro hzero
      exact hb (by rw [hzero]; rfl)
    · cases hq
  cases op with
  | sdiv => exact ⟨.inl rfl, hquot h⟩
  | smod => exact ⟨.inr rfl, hquot h⟩
  | _ => cases h

namespace MachineInstr

open Machine MachineResult U256

variable {f : Frame} {db : EvmStateDb} {m m' : Machine} {as : List Access}

section

variable (hm : m.Fits)
include hm

theorem guarded_next (h : m'.memory = m.memory) :
    Guarded as size (.next m') := hm.of_memory_eq h

theorem guarded_read {off len : UInt64} (ha : .span off len ∈ as)
    {next : List UInt8 × Machine → MachineResult}
    (hnext : ∀ x : List UInt8 × Machine, x.2.Fits → Guarded as m.memory.length (next x)) :
    Guarded as m.memory.length (ofOption ((m.drop n).memRead off len) next) := by
  refine guarded_ofOption ?_ ?_
  · intro hnone
    have htraps := traps_of_memRead hnone
    exact ⟨_, ha, htraps⟩
  · intro x hx
    refine hnext x (fits_memRead ?_ hx)
    exact hm

theorem guarded_copy {src : List UInt8} {dest srcOff len g : UInt64}
    (ha : .copy dest len srcOff src.length ∈ as) :
    Guarded as m.memory.length (ofOption ((m.drop n).copyFrom src dest srcOff len) fun m =>
      .next (m.useGas g)) := by
  refine guarded_ofOption ?_ ?_
  · intro hnone
    have htraps := traps_of_copyFrom hnone
    exact ⟨_, ha, htraps⟩
  · intro m' hm'
    refine guarded_next (fits_copyFrom ?_ hm') (memory_useGas _ _)
    exact hm

theorem guarded_store {off len g : UInt64} (hdata : data.length = len.toNat)
    (ha : .span off len ∈ as) : Guarded as m.memory.length
      (ofOption (((m.drop 2).memExpand off len).bind (·.memCopy off data)) fun m =>
        .next (m.useGas g)) := by
  refine guarded_ofOption ?_ ?_
  · intro hnone
    have htraps := traps_of_store hdata hnone
    exact ⟨_, ha, htraps⟩
  · intro m' hm'
    refine guarded_next (fits_expandCopy ?_ (hdata ▸ len.toNat_lt) hm') (memory_useGas _ _)
    exact hm

theorem guarded_jumpTo {dest g : UInt64} (n : ℕ) :
    Guarded as size (jumpTo f (m.drop n) dest g) := by
  unfold jumpTo
  split
  · exact guarded_next hm (by simp)
  · trivial

end

theorem guarded_exec (f : Frame) (db : EvmStateDb) (hm : m.Fits) (i : MachineInstr) :
    Guarded (i.accesses f db m) m.memory.length (i.exec f db m) := by
  cases i with
  | stop => exact guarded_next hm rfl
  | binary =>
    refine guarded_ofOption ?_ ?_
    · intro hnone
      obtain ⟨hop, hb, htraps⟩ := BinOp.traps_of_eval hnone m.memory.length
      refine ⟨_, ?_, htraps⟩
      rcases hop with rfl | rfl <;> simp [accesses, hb]
    · intro r _
      exact guarded_next hm (by simp)
  | addmod | mulmod | unary | env | pop | jumpdest | push => exact guarded_next hm (by simp)
  | exp | dup | swap =>
    simp only [exec]
    split <;> exact guarded_next hm (by simp)
  | copy | extcodecopy => exact guarded_copy hm (by simp [accesses])
  | sha3 | mload =>
    refine guarded_read hm (by simp [accesses]) fun x hx => ?_
    exact guarded_next hx (by simp)
  | mstore => exact guarded_store hm (by simp) (by simp [accesses])
  | mstore8 => exact guarded_store hm rfl (by simp [accesses])
  | jump => exact guarded_jumpTo hm 1
  | jumpi =>
    simp only [exec]
    split
    · exact guarded_next hm (by simp)
    · exact guarded_jumpTo hm 2
  | push0 =>
    simp only [exec]
    split
    · exact guarded_next hm (by simp)
    · trivial
  | log =>
    simp only [exec]
    by_cases hstatic : f.staticCall = true
    · rw [if_pos hstatic]
      trivial
    · rw [if_neg hstatic]
      refine guarded_read hm (by simp [accesses, hstatic]) fun x hx => ?_
      exact guarded_next hx (by simp)
  | ret | revert =>
    refine guarded_read hm (by simp [accesses]) fun x hx => ?_
    exact guarded_next hx rfl
  | invalid => trivial

end MachineInstr

namespace Vm

open U256

variable {vm vm' : Vm} {as : List Access} {back : Option (UInt64 × UInt64)}

/-- One of the operations traps, or the copy of the output `output` does. -/
inductive TrapsAt (size : ℕ) (as : List Access) (back : Option (UInt64 × UInt64)) :
    Outcome → Prop
  | now {a : Access} {o : Outcome} (ha : a ∈ as) (htraps : a.Traps size) : TrapsAt size as back o
  | back {args argsLen off len : UInt64} {sub : Vm} {r : Except EvmError Unit}
      (hargs : as = [.span args argsLen]) (hback : back = some (off, len)) (hok : r.isOk = true)
      (htraps : (Access.copy off (ofNat (sub.machine.output.take len.toNat).length) 0
        (sub.machine.output.take len.toNat).length).Traps (expandedSize size args argsLen)) :
      TrapsAt size as back (.finished sub r)

def Guarded (size : ℕ) (as : List Access) (back : Option (UInt64 × UInt64)) :
    Step Vm Outcome → Prop
  | .halt o => o = .panicked → ∃ a ∈ as, a.Traps size
  | .next vm' => vm'.machine.Fits
  | .enter c resume => c.machine.memory = [] ∧
      ∀ o, (∀ o', resume o = .inl o' → o = .panicked ∨ TrapsAt size as back o) ∧
        ∀ vm', resume o = .inr vm' → vm'.machine.Fits

theorem guarded_fail (vm : Vm) (e : EvmError) : Guarded size as back (vm.fail e) := by
  rintro ⟨⟩

theorem guarded_read {m : Machine} {off len : UInt64} (hm : m.Fits)
    (hsize : m.memory.length = size) (ha : .span off len ∈ as)
    {next : List UInt8 × Machine → Step Vm Outcome}
    (hnext : ∀ x : List UInt8 × Machine, x.2.Fits →
      (¬ ExpandTraps size off len → x.2.memory.length = expandedSize size off len) →
      Guarded size as back (next x)) : Guarded size as back (orPanic (m.memRead off len) next) := by
  subst hsize
  cases hx : m.memRead off len with
  | none =>
    intro _
    exact ⟨_, ha, traps_of_memRead hx⟩
  | some x =>
    exact hnext x (fits_memRead hm hx) (length_memExpand (memExpand_of_memRead hx))

section

variable (hm : vm.machine.Fits)
include hm

theorem guarded_machine (i : MachineInstr) :
    Guarded vm.machine.memory.length (vm.accesses (.machine i)) back (vm.exec (.machine i)) := by
  have h := MachineInstr.guarded_exec vm.frame vm.state hm i
  simp only [exec]
  cases hres : i.exec vm.frame vm.state vm.machine with
  | panic =>
    rw [hres] at h
    exact fun _ => h
  | error m e => exact guarded_fail _ e
  | next =>
    rw [hres] at h
    exact h

theorem guarded_deploy (v : U128) (code : List UInt8) (a : Address) :
    Guarded size as back (vm.deploy v code a) := by
  unfold deploy
  cases vm.state.transfer vm.frame.caller a v with
  | error e => exact guarded_fail vm e
  | ok =>
    refine ⟨rfl, ?_⟩
    intro o
    cases o with
    | panicked => simp
    | finished =>
      refine ⟨by simp, ?_⟩
      intro vm' hvm'
      cases hvm'
      refine hm.of_memory_eq ?_
      unfold afterDeploy
      split <;> simp

theorem guarded_createWith (pops : ℕ) (address : List UInt8 → Address) :
    Guarded vm.machine.memory.length (if vm.frame.staticCall ∨ vm.machine.gas < 32000 then []
      else [.span (toU64 (vm.machine.arg 1)) (toU64 (vm.machine.arg 2))]) back
      (vm.createWith pops address) := by
  unfold createWith
  by_cases hstatic : vm.frame.staticCall = true
  · simp only [if_pos hstatic]
    exact guarded_fail vm _
  by_cases hgas : vm.machine.gas < 32000
  · simp only [if_neg hstatic, if_pos hgas]
    exact hm.of_memory_eq (by simp)
  simp only [arg_useGas, hstatic, hgas, false_or, Bool.false_eq_true, if_false]
  refine guarded_read (hm.of_memory_eq (by simp)) (by simp) (mem_singleton_self _) ?_
  intro x hx _
  exact guarded_deploy hx _ _ _

omit hm in
theorem guarded_enterCall {m : Machine} {state : EvmStateDb} {trace : List Event}
    {args argsLen off len : UInt64} (hm : m.Fits)
    (hsize : ¬ ExpandTraps size args argsLen → m.memory.length = expandedSize size args argsLen)
    (gas : UInt64) (code : List UInt8) (a : Address) (v : U128) (calldata : List UInt8) :
    Guarded size [.span args argsLen] (some (off, len))
      (enterCall ⟨vm.frame, m, state, trace⟩ gas code a v calldata off len) := by
  refine ⟨rfl, ?_⟩
  intro o
  cases o with
  | panicked => simp
  | finished sub result =>
    have hdata : (sub.machine.output.take len.toNat).length < 2 ^ 64 := by
      have hlen := len.toNat_lt
      rw [length_take]
      omega
    by_cases hok : result.isOk = true
    · simp only [afterCall, hok, if_true, copyBack_eq hdata]
      cases hcopy : (m.lend (min gas (subGasLimit ⟨vm.frame, m, state, trace⟩))).copyFrom
          (sub.machine.output.take len.toNat) off 0
          (ofNat (sub.machine.output.take len.toNat).length) with
      | none =>
        simp only [bind_eq_bind, bind_none, reduceCtorEq, false_implies,
          implies_true, and_true, Sum.inl.injEq, false_or, forall_eq']
        by_cases hexp : ExpandTraps size args argsLen
        · exact .now (mem_singleton_self _) (.inl hexp)
        refine .back rfl rfl hok ?_
        rw [← hsize hexp]
        have htraps := traps_of_copyFrom hcopy
        exact htraps
      | some m' =>
        simp only [bind_eq_bind, bind_some, pure, reduceCtorEq, false_implies,
          implies_true, true_and, Sum.inr.injEq, forall_eq']
        refine Fits.of_memory_eq (fits_copyFrom ?_ hcopy) (by simp)
        exact hm
    · simp only [afterCall, hok, Bool.false_eq_true, if_false, pure, reduceCtorEq, false_implies,
        implies_true, true_and, Sum.inr.injEq, forall_eq']
      exact hm.of_memory_eq (by simp)

theorem guarded_payAndCall (a : Address) : Guarded vm.machine.memory.length
      (if vm.frame.staticCall ∧ toU128 (vm.machine.arg 2) ≠ 0 then []
        else [.span (toU64 (vm.machine.arg 3)) (toU64 (vm.machine.arg 4))])
      (some (toU64 (vm.machine.arg 5), toU64 (vm.machine.arg 6))) (vm.payAndCall a) := by
  unfold payAndCall
  by_cases hstatic : vm.frame.staticCall = true ∧ toU128 (vm.machine.arg 2) ≠ 0
  · simp only [if_pos hstatic]
    exact guarded_fail _ _
  simp only [if_neg hstatic]
  refine guarded_read (hm.of_memory_eq (memory_drop _ 7)) (by simp) (mem_singleton_self _) ?_
  intro x hx hsize
  cases h : vm.state.transfer vm.frame.caller a (toU128 (vm.machine.arg 2)) with
  | error e =>
    simp only [pay, h]
    exact guarded_fail _ e
  | ok =>
    simp only [pay, h]
    exact guarded_enterCall hx hsize _ _ _ _ _

theorem guarded_exec (i : Instr) :
    Guarded vm.machine.memory.length (vm.accesses i) (vm.returnSpan i) (vm.exec i) := by
  cases i with
  | machine i => exact guarded_machine hm i
  | sstore =>
    simp only [exec]
    split
    · exact guarded_fail _ _
    · exact hm.of_memory_eq (by simp)
  | create | create2 =>
    simp only [exec, accesses]
    exact guarded_createWith hm _ _
  | call | callcode => exact guarded_payAndCall hm _
  | delegatecall =>
    simp only [exec, accesses, returnSpan]
    refine guarded_read (hm.of_memory_eq (memory_drop _ 6)) (by simp) (mem_singleton_self _) ?_
    intro x hx hsize
    exact guarded_enterCall hx hsize _ _ _ _ _
  | selfdestruct =>
    simp only [exec]
    split
    · exact guarded_fail _ _
    · split
      · exact guarded_fail _ _
      · exact hm.of_memory_eq (by simp)

theorem guarded_step : (∃ r, vm.step = .halt (.finished vm r)) ∨ ∃ i, vm.Executes i ∧
      Guarded vm.machine.memory.length (vm.fetched.accesses i) (vm.fetched.returnSpan i)
        vm.step := by
  rcases vm.step_executes with hend | ⟨i, hi⟩
  · exact .inl hend
  refine .inr ⟨i, hi, ?_⟩
  rw [hi.step_eq]
  have hm' : vm.fetched.machine.Fits := hm
  exact guarded_exec hm' i

theorem exists_guarded : ∃ as back, Guarded vm.machine.memory.length as back vm.step := by
  rcases guarded_step hm with ⟨r, hend⟩ | ⟨i, -, hguard⟩
  · refine ⟨[], none, ?_⟩
    rw [hend]
    rintro ⟨⟩
  · exact ⟨_, _, hguard⟩

end

end Vm

/-! ## Runs -/

section Runs

variable {frame : Frame} {state : EvmStateDb} {vm : Vm}

theorem fits_of_reaches (h : Reaches Vm.step (.new frame state) vm) : vm.machine.Fits := by
  refine h.invariant (I := fun t => t.machine.Fits) (Nat.zero_le _) ?_ ?_ ?_
  · intro s s' hs hstep
    obtain ⟨as, back, hguard⟩ := Vm.exists_guarded hs
    rw [hstep] at hguard
    exact hguard
  · intro s c resume hs hstep
    obtain ⟨as, back, hguard⟩ := Vm.exists_guarded hs
    rw [hstep] at hguard
    rw [Fits, hguard.1]
    exact Nat.zero_le _
  · intro s c resume o s' hs hstep _ hres
    obtain ⟨as, back, hguard⟩ := Vm.exists_guarded hs
    rw [hstep] at hguard
    exact (hguard.2 o).2 s' hres

theorem exists_traps_of_panicked (hfits : ∀ vm', Reaches Vm.step vm vm' → vm'.machine.Fits)
    (h : run n vm = some .panicked) :
    ∃ vm' size a, Reaches Vm.step vm vm' ∧ vm'.Performs size a ∧ a.Traps size := by
  induction n generalizing vm with
  | zero => cases h
  | succ n ih =>
    unfold run at h
    rcases Vm.guarded_step (hfits vm (.refl vm)) with ⟨r, hend⟩ | ⟨i, hi, hguard⟩
    · rw [interp_succ_halt hend] at h
      cases h
    cases hstep : vm.step with
    | halt =>
      rw [hstep] at hguard
      rw [interp_succ_halt hstep, Option.some.injEq] at h
      obtain ⟨a, ha, htraps⟩ := hguard h
      exact ⟨vm, _, a, .refl vm, .exec hi ha, htraps⟩
    | next =>
      rw [interp_succ_next hstep] at h
      obtain ⟨vm', size, a, hreach, hrest⟩ := ih (fun vm' hvm' => hfits vm' (.next hstep hvm')) h
      exact ⟨vm', size, a, .next hstep hreach, hrest⟩
    | enter c resume =>
      rw [hstep] at hguard
      rw [interp_succ_enter hstep] at h
      obtain ⟨o, hrun, hgo⟩ := bind_eq_some_iff.mp h
      -- The run that was started is the one that panicked, or the copy of its output
      -- traps, or the run that goes on panics.
      have hsub : o = .panicked → ∃ vm' size a, Reaches Vm.step vm vm' ∧
          vm'.Performs size a ∧ a.Traps size := by
        rintro rfl
        obtain ⟨vm', size, a, hreach, hrest⟩ :=
          ih (fun vm' hvm' => hfits vm' (.sub hstep hvm')) hrun
        exact ⟨vm', size, a, .sub hstep hreach, hrest⟩
      cases hres : resume o with
      | inl o' =>
        rcases (hguard.2 o).1 o' hres with hpan | htraps
        · exact hsub hpan
        cases htraps with
        | now ha htraps => exact ⟨vm, _, _, .refl vm, .exec hi ha, htraps⟩
        | back hargs hback hok htraps =>
          exact ⟨vm, _, _, .refl vm, .back hi hargs hback hstep hrun hok, htraps⟩
      | inr =>
        rw [hres, Sum.elim_inr] at hgo
        obtain ⟨vm', size, a, hreach, hrest⟩ :=
          ih (fun vm' hvm' => hfits vm' (.resume hstep ⟨n, hrun⟩ hres hvm')) hgo
        exact ⟨vm', size, a, .resume hstep ⟨n, hrun⟩ hres hreach, hrest⟩

theorem Vm.Performs.size_le {a : Access} (h : vm.Performs size a) (hm : vm.machine.Fits)
    (hsafe : ∀ a, vm.Performs vm.machine.memory.length a → a.Safe vm.machine.memory.length) :
    size ≤ memoryCap := by
  cases h with
  | exec => exact hm
  | back hi hargs =>
    have hspan := hsafe _ (.exec hi (by rw [hargs]; exact mem_singleton_self _))
    unfold Fits at hm
    simp only [Access.Safe, memoryCap] at hspan hm ⊢
    unfold expandedSize
    split
    · exact hm
    · rename_i hlen
      rw [if_neg hlen] at hspan
      split <;> omega

/-- **A run traps nowhere, and so finishes with a result, exactly if all its operations keep to
their bounds.** -/
theorem run_traps_iff (frame : Frame) (state : EvmStateDb) :
    ((∀ vm size a, Reaches Vm.step (.new frame state) vm → vm.Performs size a → ¬ a.Traps size) ∧
      ∃ n vm r, run n (.new frame state) = some (.finished vm r)) ↔
    ∀ vm size a, Reaches Vm.step (.new frame state) vm → vm.Performs size a → a.Safe size := by
  constructor
  · rintro ⟨hno, -⟩ vm size a hvm ha
    have hsafe : ∀ a, vm.Performs vm.machine.memory.length a → a.Safe vm.machine.memory.length := by
      intro a' ha'
      by_contra hunsafe
      exact hno vm _ a' hvm ha' ((Access.traps_iff (fits_of_reaches hvm) a').mpr hunsafe)
    by_contra hunsafe
    have hsize := ha.size_le (fits_of_reaches hvm) hsafe
    exact hno vm size a hvm ha ((Access.traps_iff hsize a).mpr hunsafe)
  · intro hsafe
    have hno : ∀ vm size a, Reaches Vm.step (.new frame state) vm → vm.Performs size a →
        ¬ a.Traps size := by
      intro vm size a hvm ha htraps
      have hsize := ha.size_le (fits_of_reaches hvm) fun a' => hsafe vm _ a' hvm
      exact (Access.traps_iff hsize a).mp htraps (hsafe vm size a hvm ha)
    refine ⟨hno, ?_⟩
    obtain ⟨o, n, hrun⟩ := run_returns (.new frame state)
    cases o with
    | panicked =>
      obtain ⟨vm, size, a, hvm, ha, htraps⟩ :=
        exists_traps_of_panicked (fun vm hvm => fits_of_reaches hvm) hrun
      exact absurd htraps (hno vm size a hvm ha)
    | finished vm r => exact ⟨n, vm, r, hrun⟩

/-- `PUSH1 0`, `PUSH1 1`, `RETURN`: nothing is returned, from behind the end of the memory. -/
def returnsNothing : Frame :=
  ⟨{}, [0x60, 0x00, 0x60, 0x01, 0xf3], .replicate 20 1, .replicate 20 2, 0, [], 100000, false⟩

/-- The slice of length zero starts behind the end of the memory, which is not extended for it. -/
theorem returnsNothing_panics : run 3 (.new returnsNothing (.new none)) = some .panicked := by
  rfl

end Runs

end IonaOs.Evm
