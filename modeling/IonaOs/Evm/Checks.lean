import IonaOs.Evm.Traps
import IonaOs.Evm.Words

/-!
# What an instruction checks
-/

namespace IonaOs.Evm

open Lib MachineInstr

/-! ## Where a jump lands -/

/-- The bytes of data behind an opcode. -/
def immediate (op : UInt8) : ℕ :=
  match decode op with
  | .machine (.push n) => n
  | _ => 0

/-- Decoding the code from its first byte, `skip` of which are data, starts an instruction at
`pos`. -/
def startsAt : List UInt8 → ℕ → ℕ → Bool
  | [], _, _ => false
  | _ :: _, skip, 0 => skip = 0
  | op :: code, 0, pos + 1 => startsAt code (immediate op) pos
  | _ :: code, skip + 1, pos + 1 => startsAt code skip pos

namespace Vm

/-- A `JUMP`, or a `JUMPI` that is taken, is next. -/
def Jumps (vm : Vm) : Prop :=
  vm.Executes (.machine .jump) ∨ vm.Executes (.machine .jumpi) ∧ vm.machine.arg 1 ≠ U256.zero

variable {vm vm' : Vm}

theorem step_of_jumpTo {i : MachineInstr} {m : Machine} {dest gas : UInt64}
    (hi : vm.Executes (.machine i))
    (hexec : i.exec vm.frame vm.state vm.fetched.machine = jumpTo vm.frame m dest gas) :
    (vm.frame.code[dest.toNat]? = some 0x5b → ∃ vm', vm.step = .next vm') ∧
      ∀ vm', vm.step = .next vm' →
        vm'.machine.pc = dest.toNat + 1 ∧ vm.frame.code[dest.toNat]? = some 0x5b := by
  rw [hi.step_eq, exec, show vm.fetched.frame = vm.frame from rfl,
    show vm.fetched.state = vm.state from rfl, hexec, jumpTo]
  by_cases hdest : vm.frame.code[dest.toNat]? = some 0x5b
  · rw [if_pos hdest]
    refine ⟨fun _ => ⟨_, rfl⟩, ?_⟩
    rintro vm' ⟨⟩
    refine ⟨?_, hdest⟩
    simp only [Machine.useGas]
    split <;> rfl
  · rw [if_neg hdest]
    refine ⟨fun h => absurd h hdest, ?_⟩
    rintro vm' ⟨⟩

theorem Jumps.step_spec (h : vm.Jumps) :
    let dest := (U256.toU64 (vm.machine.arg 0)).toNat
    (vm.frame.code[dest]? = some 0x5b → ∃ vm', vm.step = .next vm') ∧ ∀ vm', vm.step = .next vm' →
      vm'.machine.pc = dest + 1 ∧ vm.frame.code[dest]? = some 0x5b := by
  rcases h with hi | ⟨hi, hcond⟩
  · exact step_of_jumpTo hi rfl
  · exact step_of_jumpTo hi (if_neg hcond)

/-- Wherever a jump in the code succeeds, it goes on behind a `0x5b` that starts an instruction. -/
def JumpsLand (code : List UInt8) : Prop :=
  ∀ vm vm' : Vm, vm.frame.code = code → vm.Jumps → vm.step = .next vm' →
    let dest := (U256.toU64 (vm.machine.arg 0)).toNat
    vm'.machine.pc = dest + 1 ∧ code[dest]? = some 0x5b ∧ startsAt code 0 dest = true

theorem mem_code_of_jumps (h : vm.Jumps) : 0x56 ∈ vm.frame.code ∨ 0x57 ∈ vm.frame.code := by
  have hops : ∀ n < 256, (decode (.ofNat n) = .machine .jump → UInt8.ofNat n = 0x56) ∧
      (decode (.ofNat n) = .machine .jumpi → UInt8.ofNat n = 0x57) := by decide +kernel
  have hop (op : UInt8) := hops op.toNat op.toNat_lt
  simp only [UInt8.ofNat_toNat] at hop
  rcases h with ⟨-, op, hcode, hdec⟩ | ⟨⟨-, op, hcode, hdec⟩, -⟩
  · exact .inl ((hop op).1 hdec ▸ List.mem_of_getElem? hcode)
  · exact .inr ((hop op).2 hdec ▸ List.mem_of_getElem? hcode)

/-- The code at its byte `pc`, with `dest` and a one on the stack. -/
def atByte (code : List UInt8) (pc : ℕ) (dest : UInt64) : Vm :=
  { Vm.new { returnsNothing with code } (.new none) with
    machine := { pc, stack := [U256.ofLe (leBytes 32 dest.toNat), U256.fromU64 1], gas := 100 } }

theorem toU64_arg_atByte (code : List UInt8) (pc : ℕ) (dest : UInt64) :
    U256.toU64 ((atByte code pc dest).machine.arg 0) = dest := U256.toU64_ofLe_leBytes dest

theorem jumps_atByte {code : List UInt8} {pc : ℕ} (dest : UInt64)
    (h : code[pc]? = some 0x56 ∨ code[pc]? = some 0x57) : (atByte code pc dest).Jumps := by
  have hcond : U256.fromU64 1 ≠ U256.zero := by decide +kernel
  rcases h with h | h
  · exact .inl ⟨by simp [atByte], 0x56, h, rfl⟩
  · exact .inr ⟨⟨by simp [atByte], 0x57, h, rfl⟩, hcond⟩

/-- **Where jumps land.**  Every jump of a code that succeeds lands on an instruction exactly if no
data byte is `0x5b`, or the code has no byte of a jump at all. -/
theorem jumps_land_iff (code : List UInt8) : JumpsLand code ↔
    (∀ pos < 2 ^ 64, code[pos]? = some 0x5b → startsAt code 0 pos = true) ∨
      0x56 ∉ code ∧ 0x57 ∉ code := by
  constructor
  · intro h
    by_cases hjump : 0x56 ∈ code ∨ 0x57 ∈ code
    · refine .inl fun pos hpos hbyte => ?_
      obtain ⟨pc, hpc⟩ : ∃ pc : ℕ, code[pc]? = some 0x56 ∨ code[pc]? = some 0x57 := by
        rcases hjump with hmem | hmem
        · exact (List.mem_iff_getElem?.mp hmem).imp fun _ h => .inl h
        · exact (List.mem_iff_getElem?.mp hmem).imp fun _ h => .inr h
      have hdest : (UInt64.ofNat pos).toNat = pos := UInt64.toNat_ofNat_of_lt' hpos
      have hjumps := jumps_atByte (.ofNat pos) hpc
      obtain ⟨vm', hstep⟩ := hjumps.step_spec.1 (by rwa [toU64_arg_atByte, hdest])
      have hland := (h _ vm' rfl hjumps hstep).2.2
      rwa [toU64_arg_atByte, hdest] at hland
    · exact .inr (not_or.mp hjump)
  · rintro h vm vm' rfl hjumps hstep dest
    obtain ⟨hpc, hdest⟩ := hjumps.step_spec.2 vm' hstep
    rcases h with hdata | hnone
    · exact ⟨hpc, hdest, hdata dest (UInt64.toNat_lt _) hdest⟩
    · exact absurd (mem_code_of_jumps hjumps) (not_or.mpr hnone)

/-- The code jumps to its byte 4, in front of which there is a `PUSH1`. -/
def jumpsToFour (code : List UInt8) : Vm :=
  .new { returnsNothing with code := 0x60 :: 4 :: 0x56 :: code } (.new none)

/-- At the `JUMP`. -/
def atJump (code : List UInt8) : Vm :=
  { jumpsToFour code with
    machine := { pc := 2, stack := [U256.ofNat 4], gas := 99997 } }

/-- Byte 4 is the operand of a `PUSH1`, and the jump to it goes through. -/
theorem jumpsToFour_lands_on_data :
    startsAt (atJump [0x60, 0x5b]).frame.code 0 4 = false ∧
      Reaches step (jumpsToFour [0x60, 0x5b]) (atJump [0x60, 0x5b]) ∧
      (atJump [0x60, 0x5b]).Jumps ∧
      ∃ vm', (atJump [0x60, 0x5b]).step = .next vm' ∧ vm'.machine.pc = 5 :=
  ⟨rfl, .next rfl (.refl _), .inl ⟨by decide, 0x56, rfl, rfl⟩, _, rfl, rfl⟩

end Vm

end IonaOs.Evm
