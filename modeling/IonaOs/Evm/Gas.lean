import IonaOs.Evm.Transact

/-!
# Gas over a whole run
-/

namespace IonaOs.Evm

open Lib

variable {vm vm' c : Vm} {resume : Outcome → Outcome ⊕ Vm}

theorem gas_le_of_next (h : vm.step = .next vm') : vm'.machine.gas ≤ vm.machine.gas := by
  have hdesc := vm.descends_step
  rw [h] at hdesc
  exact hdesc.gas

theorem gas_le_of_enter (h : vm.step = .enter c resume) :
    c.machine.gas ≤ vm.machine.gas ∧ ∀ o vm', c.GasLe o → resume o = .inr vm' →
      vm'.machine.gas ≤ vm.machine.gas := by
  have hdesc := vm.descends_step
  rw [h] at hdesc
  exact ⟨hdesc.1.gas, fun o vm' ho hres => ((hdesc.2 o ho).2 vm' hres).gas⟩

theorem gas_le_of_reaches (h : Reaches Vm.step vm vm') : vm'.machine.gas ≤ vm.machine.gas := by
  refine h.invariant (I := fun t => t.machine.gas ≤ vm.machine.gas) (UInt64.le_refl _) ?_ ?_ ?_
  · intro s s' hs hstep
    exact UInt64.le_trans (gas_le_of_next hstep) hs
  · intro s c resume hs hstep
    exact UInt64.le_trans (gas_le_of_enter hstep).1 hs
  · rintro s c resume o s' hs hstep ⟨n, hrun⟩ hres
    exact UInt64.le_trans ((gas_le_of_enter hstep).2 o s' (run_gas_le hrun) hres) hs

theorem used_add_left {given left : UInt64} (h : left ≤ given) :
    (given - left).toNat + left.toNat = given.toNat := by
  rw [UInt64.toNat_sub_of_le _ _ h]
  exact Nat.sub_add_cancel (UInt64.le_iff_toNat_le.mp h)

/-- **Every run returns, and its gas counter stays at or below its start.**  A run that it starts
is given no more than there is and gives no more back, and the gas that `transact` reports as used
is what is gone. -/
theorem run_gas_sound (frame : Frame) (state : EvmStateDb) :
    (∃ n o, ∀ m, n ≤ m → run m (.new frame state) = some o) ∧
    (∀ vm, Reaches Vm.step (.new frame state) vm → vm.machine.gas ≤ frame.gasLimit ∧
      ∀ c resume, vm.step = .enter c resume → c.machine.gas ≤ vm.machine.gas ∧
        ∀ n sub r, run n c = some (.finished sub r) → sub.machine.gas ≤ c.machine.gas ∧
          ∀ vm', resume (.finished sub r) = .inr vm' → vm'.machine.gas ≤ vm.machine.gas) ∧
    (∀ n vm r, run n (.new frame state) = some (.finished vm r) →
      (frame.gasLimit - vm.machine.gas).toNat + vm.machine.gas.toNat = frame.gasLimit.toNat) ∧
    ∀ cfg tx n vm r, run n (entryVm cfg state tx) = some (.finished vm r) →
      (resultOf cfg state tx vm r).gasUsed.toNat + vm.machine.gas.toNat =
        (gasForExec cfg tx).toNat := by
  refine ⟨?_, ?_, ?_, ?_⟩
  · obtain ⟨o, ho⟩ := run_returns (.new frame state)
    obtain ⟨n, hn⟩ := ho.eventually
    exact ⟨n, o, hn⟩
  · intro vm hvm
    refine ⟨gas_le_of_reaches hvm, ?_⟩
    intro c resume hstep
    refine ⟨(gas_le_of_enter hstep).1, ?_⟩
    intro n sub r hrun
    have hback := run_gas_le hrun
    exact ⟨hback sub rfl, fun vm' hres => (gas_le_of_enter hstep).2 _ vm' hback hres⟩
  · intro n vm r hrun
    exact used_add_left (run_gas_le hrun vm rfl)
  · intro cfg tx n vm r hrun
    have hle := run_gas_le hrun vm rfl
    have hstart : (entryVm cfg state tx).machine.gas = gasForExec cfg tx := by
      unfold entryVm
      cases tx.dest <;> rfl
    rw [hstart] at hle
    exact used_add_left hle

end IonaOs.Evm
