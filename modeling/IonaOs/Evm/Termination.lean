import IonaOs.Evm.Journal

/-!
# Every run returns

A step uses gas, moves on in the code or ends the frame, and a sub-call that gets all the gas runs
no code unless the database has some: `Vm.rank` falls with every step and every sub-call.
-/

namespace IonaOs.Evm

open Lib Machine UInt64

/-! ## The machine -/

theorem sub_le_of_le {a b : UInt64} (h : b ≤ a) : a - b ≤ a := by
  rw [le_iff_toNat_le] at h ⊢
  rw [UInt64.toNat_sub_of_le _ _ h]
  omega

theorem sub_lt_of_le {a b : UInt64} (h : b ≤ a) (h0 : 0 < b) : a - b < a := by
  rw [le_iff_toNat_le] at h
  rw [lt_iff_toNat_lt] at h0 ⊢
  rw [UInt64.toNat_sub_of_le _ _ h]
  simp only [UInt64.toNat_zero] at h0
  omega

namespace Machine

variable {m m' m'' : Machine}

/-- No more gas, and not further back. -/
structure Later (m m' : Machine) : Prop where
  gas : m'.gas ≤ m.gas
  pc : m.pc ≤ m'.pc

/-- Only the memory differs. -/
def Resized (m m' : Machine) : Prop := ∃ memory, m' = { m with memory }

variable {o s : UInt64}

theorem memExpand_cases (h : m.memExpand o s = some m') :
    (s = 0 ∨ (o + s).toNat ≤ m.memory.length) ∧ m' = m ∨
      s ≠ 0 ∧ m.memory.length < (o + s).toNat ∧ ((o + s + 31) / 32 * 32).toNat < 2 ^ 63 ∧
        m' = { m with memory := resize m.memory ((o + s + 31) / 32 * 32).toNat } := by
  simp only [memExpand] at h
  split_ifs at h with hs hlt hcap
  · exact .inl ⟨.inl hs, (Option.some.inj h).symm⟩
  · exact .inr ⟨hs, hlt, hcap, (Option.some.inj h).symm⟩
  · exact .inl ⟨.inr (not_lt.mp hlt), (Option.some.inj h).symm⟩

theorem memExpand_resized (h : m.memExpand o s = some m') : m.Resized m' := by
  rcases memExpand_cases h with ⟨-, rfl⟩ | ⟨-, -, -, rfl⟩
  · exact ⟨m'.memory, rfl⟩
  · exact ⟨_, rfl⟩

variable {data : List UInt8}

theorem memCopy_resized (h : m.memCopy o data = some m') : m.Resized m' := by
  obtain ⟨_, -, hm⟩ := Option.bind_eq_some_iff.mp h
  cases hm
  exact ⟨_, rfl⟩

theorem Resized.trans (h : m.Resized m') (h' : m'.Resized m'') : m.Resized m'' := by
  obtain ⟨_, rfl⟩ := h
  obtain ⟨memory, rfl⟩ := h'
  exact ⟨memory, rfl⟩

theorem expandCopy_resized (h : (m.memExpand o s).bind (·.memCopy o data) = some m') :
    m.Resized m' := by
  obtain ⟨m₁, hexp, hcopy⟩ := Option.bind_eq_some_iff.mp h
  exact (memExpand_resized hexp).trans (memCopy_resized hcopy)

theorem memExpand_of_memRead {x : List UInt8 × Machine} (h : m.memRead o s = some x) :
    m.memExpand o s = some x.2 := by
  obtain ⟨m₁, hexp, hrest⟩ := Option.bind_eq_some_iff.mp h
  obtain ⟨_, -, hm⟩ := Option.bind_eq_some_iff.mp hrest
  cases hm
  exact hexp

theorem memRead_resized {x : List UInt8 × Machine} (h : m.memRead o s = some x) : m.Resized x.2 :=
  memExpand_resized (memExpand_of_memRead h)

theorem copyFrom_resized {src : List UInt8} {d l : UInt64} (h : m.copyFrom src d o l = some m') :
    m.Resized m' := by
  obtain ⟨m₁, hexp, hrest⟩ := Option.bind_eq_some_iff.mp h
  refine (memExpand_resized hexp).trans ?_
  simp only at hrest
  split at hrest
  · cases hrest
    exact ⟨_, rfl⟩
  · exact memCopy_resized hrest

theorem copyBack_resized (h : m.copyBack o data = some m') : m.Resized m' := by
  unfold copyBack at h
  split at h
  · cases h
    exact ⟨_, rfl⟩
  · exact expandCopy_resized h

variable (m : Machine)

@[simp] theorem push_gas (c : EvmConfig) (v : U256) : (m.push c v).gas = m.gas := by
  unfold push
  split <;> rfl

@[simp] theorem push_pc (c : EvmConfig) (v : U256) : (m.push c v).pc = m.pc := by
  unfold push
  split <;> rfl

@[simp] theorem useGas_pc (g : UInt64) : (m.useGas g).pc = m.pc := by
  unfold useGas
  split <;> rfl

theorem useGas_gas_le (g : UInt64) : (m.useGas g).gas ≤ m.gas := by
  unfold useGas
  split
  · exact UInt64.le_refl _
  · exact sub_le_of_le (UInt64.not_lt.mp ‹_›)

theorem useGas_lt_or {g : UInt64} (hg : 0 < g) :
    (m.useGas g).gas < m.gas ∨ (m.useGas g).reverted = true := by
  unfold useGas
  split
  · exact .inr rfl
  · exact .inl (sub_lt_of_le (UInt64.not_lt.mp ‹_›) hg)

variable {m}

namespace Later

theorem refl (m : Machine) : m.Later m := ⟨UInt64.le_refl _, le_rfl⟩

section

variable (h : m.Later m')
include h

theorem drop (n : ℕ) : m.Later (m'.drop n) := ⟨h.gas, h.pc⟩

theorem push (c : EvmConfig) (v : U256) : m.Later (m'.push c v) :=
  ⟨by simpa using h.gas, by simpa using h.pc⟩

theorem useGas (g : UInt64) : m.Later (m'.useGas g) :=
  ⟨UInt64.le_trans (useGas_gas_le m' g) h.gas, by simpa using h.pc⟩

theorem resized (h' : m'.Resized m'') : m.Later m'' := by
  obtain ⟨_, rfl⟩ := h'
  exact ⟨h.gas, h.pc⟩

end

end Later

end Machine

/-- No more gas, and a jump back uses some. -/
def MachineResult.Within (m : Machine) : MachineResult → Prop
  | .panic => True
  | .error m' _ => m'.gas ≤ m.gas
  | .next m' => m'.gas ≤ m.gas ∧ (m.pc ≤ m'.pc ∨ m'.gas < m.gas ∨ m'.reverted = true)

namespace MachineResult

variable {m m' : Machine}

theorem within_next (h : m.Later m') : Within m (.next m') := ⟨h.gas, .inl h.pc⟩

theorem within_ofOption {α : Type} {x : Option α} {next : α → MachineResult}
    (h : ∀ a, x = some a → Within m (next a)) : Within m (ofOption x next) := by
  cases x with
  | none => trivial
  | some a => exact h a rfl

end MachineResult

namespace MachineInstr

open Machine MachineResult

theorem within_jumpTo {f : Frame} {m m' : Machine} {dest g : UInt64} (h : m.Later m') (hg : 0 < g) :
    Within m (jumpTo f m' dest g) := by
  unfold jumpTo
  split
  · refine ⟨UInt64.le_trans (useGas_gas_le _ _) h.gas, .inr ?_⟩
    rcases useGas_lt_or { m' with pc := dest.toNat + 1 } hg with hlt | hrev
    · exact .inl (UInt64.lt_of_lt_of_le hlt h.gas)
    · exact .inr hrev
  · exact h.gas

theorem within_exec (f : Frame) (db : EvmStateDb) (m : Machine) (i : MachineInstr) :
    Within m (i.exec f db m) := by
  have h0 := Later.refl m
  cases i with
  | stop => exact within_next ⟨h0.gas, h0.pc⟩
  | binary => exact within_ofOption fun r _ => within_next (((h0.drop 2).push _ r).useGas _)
  | addmod | mulmod | unary => exact within_next (((h0.drop _).push _ _).useGas _)
  | exp =>
    simp only [exec]
    split
    · exact within_next ((h0.drop 2).useGas _)
    · exact within_next (((h0.drop 2).useGas _).push _ _)
  | env => exact within_next ((h0.push _ _).useGas _)
  | sha3 | mload =>
    refine within_ofOption fun x hx => ?_
    exact within_next ((((h0.drop _).resized (memRead_resized hx)).push _ _).useGas _)
  | copy | extcodecopy =>
    refine within_ofOption fun x hx => ?_
    exact within_next (((h0.drop _).resized (copyFrom_resized hx)).useGas _)
  | pop => exact within_next ((h0.drop 1).useGas _)
  | mstore | mstore8 =>
    refine within_ofOption fun x hx => ?_
    exact within_next (((h0.drop 2).resized (expandCopy_resized hx)).useGas _)
  | jump => exact within_jumpTo (h0.drop 1) (by decide)
  | jumpi =>
    simp only [exec]
    split
    · exact within_next ((h0.drop 2).useGas _)
    · exact within_jumpTo (h0.drop 2) (by decide)
  | jumpdest => exact within_next (h0.useGas _)
  | push0 =>
    simp only [exec]
    split
    · exact within_next ((h0.push _ _).useGas _)
    · exact h0.gas
  | push n =>
    have hpc : m.Later { m with pc := m.pc + n } := ⟨h0.gas, Nat.le_add_right _ _⟩
    exact within_next ((hpc.push _ _).useGas _)
  | dup =>
    simp only [exec]
    split
    · exact within_next ((h0.push _ _).useGas _)
    · exact within_next (h0.useGas _)
  | swap n =>
    have hswap : m.Later { m with stack := swapTop m.stack n } := ⟨h0.gas, h0.pc⟩
    simp only [exec]
    split
    · exact within_next (hswap.useGas _)
    · exact within_next (h0.useGas _)
  | log n =>
    simp only [exec]
    split
    · exact h0.gas
    refine within_ofOption fun x hx => ?_
    have hread := (h0.drop (2 + n)).resized (memRead_resized hx)
    refine within_next (Later.useGas ?_ _)
    exact ⟨hread.gas, hread.pc⟩
  | ret | revert =>
    refine within_ofOption fun x hx => ?_
    have hread := (h0.drop 2).resized (memRead_resized hx)
    exact within_next ⟨hread.gas, hread.pc⟩
  | invalid => exact h0.gas

end MachineInstr

/-! ## Databases without code -/

def Codeless (s : EvmStateDb) : Prop := ∀ a, (s.getAccount a).code = []

namespace Codeless

variable {s s' : EvmStateDb}

theorem new : Codeless (.new none) := fun _ => rfl

theorem setAccount (h : Codeless s) (a : Address) {acc : Account} (hacc : acc.code = []) :
    Codeless (s.setAccount a acc) := by
  intro b
  by_cases hs : s.staticCall = true
  · rw [s.setAccount_of_static hs]
    exact h b
  rw [s.getAccount_setAccount (by simpa using hs)]
  by_cases hb : b = a
  · subst hb
    simpa using hacc
  · rw [Function.update_of_ne hb]
    exact h b

theorem transfer (h : Codeless s) {a b : Address} {v : U128} (ht : s.transfer a b v = .ok s') :
    Codeless s' := by
  unfold EvmStateDb.transfer at ht
  split at ht
  · cases ht
    exact h
  simp only at ht
  split at ht
  · cases ht
  cases ht
  refine setAccount (setAccount h a ?_) b ?_
  · exact h a
  · exact setAccount h a (by exact h a) b

theorem setStorage (h : Codeless s) (a : Address) (slot v : U256) :
    Codeless (s.setStorage a slot v) := by
  unfold EvmStateDb.setStorage
  split
  · exact h
  · exact h.setAccount a (h a)

end Codeless

/-! ## Steps -/

theorem subGasLimit_le (vm : Vm) : vm.subGasLimit ≤ vm.machine.gas := by
  rw [le_iff_toNat_le]
  have h : vm.subGasLimit.toNat = vm.machine.gas.toNat * 63 % 2 ^ 64 / 64 := rfl
  have hmod := Nat.mod_le (vm.machine.gas.toNat * 63) (2 ^ 64)
  omega

theorem lend_join_le {g lent back : UInt64} (h : lent ≤ g) (hback : back ≤ lent) :
    g - lent + back ≤ g := by
  rw [le_iff_toNat_le] at h hback ⊢
  rw [UInt64.toNat_add, UInt64.toNat_sub_of_le _ _ h]
  have := g.toNat_lt
  omega

namespace Vm

variable {vm vm' vm'' : Vm}

/-- What a step leaves in the same frame. -/
structure Down (vm vm' : Vm) : Prop where
  frame : vm'.frame = vm.frame
  gas : vm'.machine.gas ≤ vm.machine.gas
  rest : vm'.machine.gas < vm.machine.gas ∨
    (Codeless vm.state → Codeless vm'.state) ∧
      (vm.machine.pc ≤ vm'.machine.pc ∨ vm'.machine.reverted = true)

/-- The frame that a sub-call starts. -/
structure Child (vm c : Vm) : Prop where
  fresh : ∃ f, c = new f (.new none)
  gas : c.machine.gas ≤ vm.machine.gas
  rest : c.machine.gas < vm.machine.gas ∨ (Codeless vm.state → c.frame.code = [])

def GasLe (vm : Vm) (o : Outcome) : Prop := ∀ vm' ∈ o.final, vm'.machine.gas ≤ vm.machine.gas

def Descends (vm : Vm) : Step Vm Outcome → Prop
  | .halt o => vm.GasLe o
  | .next vm' => vm.Down vm'
  | .enter c resume => vm.Child c ∧ ∀ o, c.GasLe o →
      (∀ o', resume o = .inl o' → vm.GasLe o') ∧ ∀ vm', resume o = .inr vm' → vm.Down vm'

theorem gasLe_panicked : vm.GasLe .panicked := by simp [GasLe]

theorem gasLe_finished (h : vm'.machine.gas ≤ vm.machine.gas) (r : Except EvmError Unit) :
    vm.GasLe (.finished vm' r) := by
  intro vm'' hvm
  simp only [Outcome.final_finished, Option.mem_some_iff] at hvm
  exact hvm ▸ h

theorem Down.of_later {m : Machine} {state : EvmStateDb} {trace : List Event}
    (h : vm.machine.Later m) (hcode : Codeless vm.state → Codeless state) :
    vm.Down ⟨vm.frame, m, state, trace⟩ :=
  ⟨rfl, h.gas, .inr ⟨hcode, .inl h.pc⟩⟩

theorem Descends.orPanic {α : Type} {x : Option α} {next : α → Step Vm Outcome}
    (h : ∀ a, x = some a → vm.Descends (next a)) : vm.Descends (orPanic x next) := by
  cases x with
  | none => exact gasLe_panicked
  | some a => exact h a rfl

theorem descends_machine (vm : Vm) (i : MachineInstr) : vm.Descends (vm.exec (.machine i)) := by
  have h := MachineInstr.within_exec vm.frame vm.state vm.machine i
  simp only [exec]
  cases hres : i.exec vm.frame vm.state vm.machine with
  | panic => exact gasLe_panicked
  | error =>
    rw [hres] at h
    refine gasLe_finished ?_ _
    exact h
  | next =>
    rw [hres] at h
    refine ⟨rfl, h.1, ?_⟩
    rcases h.2 with hpc | hgas | hrev
    · exact .inr ⟨id, .inl hpc⟩
    · exact .inl hgas
    · exact .inr ⟨id, .inr hrev⟩

theorem descends_deploy {m : Machine} (hgas : m.gas < vm.machine.gas) (v : U128) (code : List UInt8)
    (a : Address) : vm.Descends (deploy { vm with machine := m } v code a) := by
  unfold deploy
  cases vm.state.transfer vm.frame.caller a v with
  | error => exact gasLe_finished (UInt64.le_of_lt hgas) _
  | ok =>
    have hsub := subGasLimit_le { vm with machine := m }
    have hlt := UInt64.lt_of_le_of_lt hsub hgas
    refine ⟨⟨⟨_, rfl⟩, UInt64.le_of_lt hlt, .inl hlt⟩, ?_⟩
    intro o ho
    cases o with
    | panicked => simp [gasLe_panicked]
    | finished sub =>
      simp only [reduceCtorEq, false_implies, implies_true, Sum.inr.injEq, true_and]
      intro vm' hvm'
      subst hvm'
      have hback : sub.machine.gas ≤ _ := ho sub (by simp)
      have hjoin := UInt64.lt_of_le_of_lt (lend_join_le hsub hback) hgas
      unfold afterDeploy
      split
      all_goals
        refine ⟨rfl, UInt64.le_of_lt ?_, .inl ?_⟩ <;>
          simpa [join, lend] using hjoin

theorem descends_createWith (vm : Vm) (pops : ℕ) (address : List UInt8 → Address) :
    vm.Descends (vm.createWith pops address) := by
  unfold createWith
  simp only
  split
  · exact gasLe_finished (UInt64.le_refl _) _
  split
  · exact .of_later ((Later.refl _).useGas _) id
  rename_i hgas
  refine .orPanic fun x hx => ?_
  obtain ⟨memory, hx⟩ := memRead_resized hx
  have hlt : x.2.gas < vm.machine.gas := by
    rw [hx]
    simpa [drop, useGas, hgas] using sub_lt_of_le (UInt64.not_lt.mp hgas) (by decide)
  exact descends_deploy hlt _ _ _

theorem afterCall_down (vm : Vm) {lent off len : UInt64} {sub : Machine} {ok : Bool}
    (hlent : lent ≤ vm.machine.gas) (hback : sub.gas ≤ lent)
    (h : afterCall { vm with machine := vm.machine.lend lent } off len sub ok = some vm') :
    vm'.frame = vm.frame ∧ vm'.state = vm.state ∧ vm.machine.Later vm'.machine := by
  have hle := lend_join_le hlent hback
  unfold afterCall at h
  cases ok with
  | false =>
    simp only [Bool.false_eq_true, if_false, pure, Option.some.injEq] at h
    subst h
    exact ⟨rfl, rfl, by simpa [join, lend] using hle,
      by simp [join, lend]⟩
  | true =>
    simp only [if_true] at h
    obtain ⟨m, hcopy, hm⟩ := Option.bind_eq_some_iff.mp h
    obtain ⟨memory, rfl⟩ := copyBack_resized hcopy
    simp only [pure, Option.some.injEq] at hm
    subst hm
    exact ⟨rfl, rfl, by simpa [join, lend] using hle,
      by simp [join, lend]⟩

theorem descends_enterCall {m : Machine} {state : EvmStateDb} {trace : List Event}
    (hm : vm.machine.Later m) (hcode : Codeless vm.state → Codeless state) (gas : UInt64)
    {code : List UInt8} (hempty : Codeless state → code = []) (a : Address) (v : U128)
    (calldata : List UInt8) (off len : UInt64) :
    vm.Descends (enterCall ⟨vm.frame, m, state, trace⟩ gas code a v calldata off len) := by
  have hmin : min gas (subGasLimit ⟨vm.frame, m, state, trace⟩) ≤
      subGasLimit ⟨vm.frame, m, state, trace⟩ := Std.min_le_right
  have hsub : min gas (subGasLimit ⟨vm.frame, m, state, trace⟩) ≤ m.gas :=
    UInt64.le_trans hmin (subGasLimit_le ⟨vm.frame, m, state, trace⟩)
  refine ⟨⟨⟨_, rfl⟩, UInt64.le_trans hsub hm.gas, .inr fun h => hempty (hcode h)⟩, ?_⟩
  intro o ho
  cases o with
  | panicked => simp [gasLe_panicked]
  | finished sub =>
    have hback : sub.machine.gas ≤ min gas (subGasLimit ⟨vm.frame, m, state, trace⟩) :=
      ho sub (by simp)
    simp only
    split
    · simp [gasLe_panicked]
    rename_i vm₁ h
    simp only [reduceCtorEq, false_implies, implies_true, Sum.inr.injEq, true_and]
    intro vm' hvm'
    subst hvm'
    obtain ⟨hframe, hstate, hlater⟩ :
        vm₁.frame = vm.frame ∧ vm₁.state = state ∧ m.Later vm₁.machine :=
      afterCall_down ⟨vm.frame, m, state, trace⟩ hsub hback h
    refine ⟨hframe, UInt64.le_trans hlater.gas hm.gas, .inr ⟨?_, .inl (hm.pc.trans hlater.pc)⟩⟩
    rw [hstate]
    exact hcode

theorem descends_payAndCall (vm : Vm) (a : Address) : vm.Descends (vm.payAndCall a) := by
  unfold payAndCall
  simp only
  split
  · exact gasLe_finished (UInt64.le_refl _) _
  refine .orPanic fun x hx => ?_
  have hread := ((Later.refl vm.machine).drop 7).resized (memRead_resized hx)
  cases h : vm.state.transfer vm.frame.caller a (U256.toU128 (vm.machine.arg 2)) with
  | error =>
    simp only [pay, h]
    exact gasLe_finished hread.gas _
  | ok =>
    simp only [pay, h]
    exact descends_enterCall hread (fun hc => hc.transfer h) _ (fun hc => hc _) _ _ _ _ _

theorem descends_exec (vm : Vm) (i : Instr) : vm.Descends (vm.exec i) := by
  have h0 := Later.refl vm.machine
  cases i with
  | machine i => exact descends_machine vm i
  | sstore =>
    simp only [exec]
    split
    · exact gasLe_finished (UInt64.le_refl _) _
    · have hgas := (h0.drop 2).useGas 100
      exact .of_later ⟨hgas.gas, hgas.pc⟩ fun hc => hc.setStorage _ _ _
  | create | create2 =>
    simp only [exec]
    exact descends_createWith vm _ _
  | call | callcode => exact descends_payAndCall vm _
  | delegatecall =>
    refine .orPanic fun x hx => ?_
    have hread := (h0.drop 6).resized (memRead_resized hx)
    exact descends_enterCall hread id _ (fun hc => hc _) _ _ _ _ _
  | selfdestruct =>
    simp only [exec]
    split
    · exact gasLe_finished (UInt64.le_refl _) _
    cases h : vm.state.transfer vm.frame.address (U256.toAddress (vm.machine.arg 0))
        (vm.state.balance vm.frame.address) with
    | error e => exact gasLe_finished (UInt64.le_refl _) _
    | ok state =>
      have hgas := useGas_gas_le { vm.machine.drop 1 with stopped := true } 5000
      exact .of_later ⟨hgas, by simp [drop]⟩
        fun hc => (hc.transfer h).setAccount _ rfl

/-! ## Runs -/

open Classical in
/-- The gas, then whether there is code to call, then the length of the code ahead. -/
noncomputable def rank (vm : Vm) : ℕ ×ₗ ℕ ×ₗ ℕ :=
  toLex (vm.machine.gas.toNat, toLex (if Codeless vm.state then 0 else 1,
    if vm.machine.stopped = true ∨ vm.machine.reverted = true then 0
    else vm.frame.code.length - vm.machine.pc))

def fetched (vm : Vm) : Vm := { vm with machine := { vm.machine with pc := vm.machine.pc + 1 } }

def Executes (vm : Vm) (i : Instr) : Prop :=
  ¬ (vm.machine.stopped = true ∨ vm.machine.reverted = true) ∧
    ∃ op, vm.frame.code[vm.machine.pc]? = some op ∧ decode op = i

variable {i : Instr}

theorem Executes.step_eq (h : vm.Executes i) : vm.step = vm.fetched.exec i := by
  obtain ⟨hend, op, hop, rfl⟩ := h
  simp [step, hend, hop, fetched]

theorem Executes.pc_lt (h : vm.Executes i) : vm.machine.pc < vm.frame.code.length := by
  obtain ⟨-, op, hop, -⟩ := h
  exact (List.getElem?_eq_some_iff.mp hop).1

theorem step_executes (vm : Vm) : (∃ r, vm.step = .halt (.finished vm r)) ∨ ∃ i, vm.Executes i := by
  by_cases hend : vm.machine.stopped = true ∨ vm.machine.reverted = true
  · exact .inl ⟨_, if_pos hend⟩
  · cases hop : vm.frame.code[vm.machine.pc]? with
    | none => exact .inl ⟨.ok (), by simp [step, hend, hop]⟩
    | some op => exact .inr ⟨decode op, hend, op, hop, rfl⟩

theorem descends_step (vm : Vm) : vm.fetched.Descends vm.step := by
  rcases vm.step_executes with ⟨r, hs⟩ | ⟨i, hi⟩
  · rw [hs]
    exact gasLe_finished (UInt64.le_refl _) r
  · rw [hi.step_eq]
    exact descends_exec vm.fetched i

theorem Descends.leads {a : Step Vm Outcome} (h : vm.Descends a) :
    a.Leads GasLe vm.Down vm.GasLe := by
  cases a with
  | halt | next => exact h
  | enter => exact h.2

theorem rank_lt_of_down (hi : vm.Executes i) (h : vm.fetched.Down vm') : vm'.rank < vm.rank := by
  have hpc := hi.pc_lt
  have hgas := le_iff_toNat_le.mp h.gas
  simp only [rank, Prod.Lex.toLex_lt_toLex, if_neg hi.1]
  rcases h.rest with hlt | ⟨hcode, hfar⟩
  · exact .inl (lt_iff_toNat_lt.mp hlt)
  rcases Nat.lt_or_eq_of_le hgas with hlt | heq
  · exact .inl hlt
  refine .inr ⟨heq, ?_⟩
  have hleft : (if vm'.machine.stopped = true ∨ vm'.machine.reverted = true then 0
      else vm'.frame.code.length - vm'.machine.pc) < vm.frame.code.length - vm.machine.pc := by
    rw [h.frame]
    split
    · omega
    rename_i hgo
    have hpc' : vm.machine.pc + 1 ≤ vm'.machine.pc := by
      rcases hfar with hfar | hrev
      · exact hfar
      · exact absurd (.inr hrev) hgo
    simp only [fetched]
    omega
  by_cases hc : Codeless vm.state
  · have hc' := hcode hc
    simp only [hc, hc', if_true, lt_self_iff_false, true_and, false_or]
    exact hleft
  · by_cases hc' : Codeless vm'.state
    · simp [hc, hc']
    · simp only [hc, hc', if_false, lt_self_iff_false, true_and, false_or]
      exact hleft

theorem rank_lt_of_child {c : Vm} (hi : vm.Executes i) (h : vm.fetched.Child c) :
    c.rank < vm.rank := by
  have hpc := hi.pc_lt
  obtain ⟨f, rfl⟩ := h.fresh
  have hgas := le_iff_toNat_le.mp h.gas
  have hnew : Codeless (new f (.new none)).state := .new
  simp only [rank, Prod.Lex.toLex_lt_toLex, if_neg hi.1, hnew, if_true]
  rcases h.rest with hlt | hcode
  · exact .inl (lt_iff_toNat_lt.mp hlt)
  rcases Nat.lt_or_eq_of_le hgas with hlt | heq
  · exact .inl hlt
  refine .inr ⟨heq, ?_⟩
  by_cases hc : Codeless vm.state
  · -- Nothing can be called but the empty code, and there is still some to run here.
    have hempty : f.code = [] := hcode hc
    simp only [hc, if_true, lt_self_iff_false, true_and, false_or, new, hempty]
    simp
    omega
  · simp [hc]

end Vm

theorem run_gas_le {n : ℕ} {vm : Vm} {o : Outcome} (h : run n vm = some o) : vm.GasLe o := by
  refine interp_keeps (T := fun vm vm' => vm'.machine.gas ≤ vm.machine.gas) Outcome.final
    (fun _ _ _ h h' => UInt64.le_trans h' h) ?_ h
  exact fun vm => vm.descends_step.leads.mono (fun _ _ => id) (fun _ h => h.gas) fun _ => id

theorem run_returns (vm : Vm) : ∃ o, Returns Vm.step vm o := by
  have hwf : WellFounded fun vm vm' : Vm => vm.rank < vm'.rank := InvImage.wf Vm.rank wellFounded_lt
  refine returns_of_wellFounded (fun n vm o h => run_gas_le h) hwf ?_ ?_ vm
  · intro vm c resume hs
    rcases vm.step_executes with ⟨r, hs'⟩ | ⟨i, hi⟩
    · rw [hs] at hs'
      cases hs'
    · have hdesc := vm.descends_step
      rw [hs] at hdesc
      exact Vm.rank_lt_of_child hi hdesc.1
  · intro vm
    rcases vm.step_executes with ⟨r, hs⟩ | ⟨i, hi⟩
    · rw [hs]
      trivial
    · exact vm.descends_step.leads.mono (fun _ _ => id) (fun _ => Vm.rank_lt_of_down hi)
        fun _ _ => trivial

end IonaOs.Evm
