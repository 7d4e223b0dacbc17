import IonaOs.Evm.Transact

/-!
# A transaction that fails
-/

namespace IonaOs.Evm

open Lib

def Unchanged (sender : Address) (w w' : World) : Prop :=
  ∀ a, w' a = w a ∨ a = sender ∧ w' a = (w a).bumped

/-- The database is static, the transaction is a creation, or the run created no contract. -/
def RollsBack (state : EvmStateDb) (tx : TransactArgs) (vm : Vm) : Prop :=
  state.staticCall = true ∨ tx.dest = none ∨ ∀ e ∈ vm.trace, ¬ e.Creates

/-- The accounts with all that the run did. -/
def worldAfter (state : EvmStateDb) (tx : TransactArgs) (vm : Vm) : World :=
  exec World.apply (World.bump state.getAccount tx.sender) vm.trace

variable {cfg : EvmConfig} {state : EvmStateDb} {tx : TransactArgs} {n : ℕ} {vm : Vm}
  {r : Except EvmError Unit} {dest : Address}

theorem Unchanged.refl (a : Address) (w : World) : Unchanged a w w := fun _ => .inl rfl

theorem Unchanged.bump (a : Address) (w : World) : Unchanged a w (w.bump a) := by
  intro b
  by_cases hb : b = a
  · subst hb
    exact .inr ⟨rfl, by simp [World.bump]⟩
  · exact .inl (by simp [World.bump, Function.update_of_ne hb])

theorem entryState_unchanged :
    Unchanged tx.sender state.getAccount (entryState state tx).getAccount := by
  by_cases hstatic : state.staticCall = true
  · rw [entryState_frozen hstatic]
    exact .refl _ _
  · rw [entryState_accounts (by simpa using hstatic)]
    exact .bump _ _

theorem unchanged_settle_call_iff (hdest : tx.dest = some dest) (hfail : r.isOk = false)
    (hrun : run n (entryVm cfg state tx) = some (.finished vm r)) :
    Unchanged tx.sender state.getAccount (settle state tx vm r.isOk).getAccount ↔
      RollsBack state tx vm ∨ Unchanged tx.sender state.getAccount (worldAfter state tx vm) := by
  by_cases hstatic : state.staticCall = true
  · simp [RollsBack, hstatic, settle_call_frozen hdest hrun hstatic, Unchanged.refl]
  have hkept : vm.Kept r ↔ ∃ e ∈ vm.trace, e.Creates := by simp [Vm.Kept, hfail]
  rw [settle_call_accounts hdest hrun (by simpa using hstatic)]
  by_cases hc : ∃ e ∈ vm.trace, e.Creates
  · have hsome : ¬ ∀ e ∈ vm.trace, ¬ e.Creates := by simpa using hc
    simp [RollsBack, worldAfter, hstatic, hdest, hsome, hkept.mpr hc]
  · have hnone : ∀ e ∈ vm.trace, ¬ e.Creates := by simpa using hc
    rw [if_neg (fun h => hc (hkept.mp h))]
    exact iff_of_true (.bump _ _) (.inl (.inr (.inr hnone)))

theorem unchanged_settle_iff (hfail : r.isOk = false)
    (hrun : run n (entryVm cfg state tx) = some (.finished vm r)) :
    Unchanged tx.sender state.getAccount (settle state tx vm r.isOk).getAccount ↔
      RollsBack state tx vm ∨ Unchanged tx.sender state.getAccount (worldAfter state tx vm) := by
  cases hdest : tx.dest with
  | none =>
    have hdep : ¬ vm.Deploys r := by simp [Vm.Deploys, hfail]
    rw [getAccount_settle_create hdest, if_neg hdep]
    exact iff_of_true entryState_unchanged (.inl (.inr (.inl hdest)))
  | some => exact unchanged_settle_call_iff hdest hfail hrun

/-- **A transaction that fails.**  Every call of `transact` returns or panics.  An error leaves the
state as it is; a result without success leaves the accounts unchanged in the cases of `RollsBack`,
and otherwise exactly if all that the run did comes to nothing. -/
theorem transact_unchanged_iff (cfg : EvmConfig) (state : EvmStateDb) (tx : TransactArgs) :
    ∃ n out, (∀ m, n ≤ m → transact cfg state tx m = some out) ∧
      (∀ state' e, out = .returned state' (.error e) → state' = state) ∧
      ∀ state' res, out = .returned state' (.ok res) → res.success = false →
        ∃ vm r, run n (entryVm cfg state tx) = some (.finished vm r) ∧
          (RollsBack state tx vm → Unchanged tx.sender state.getAccount state'.getAccount) ∧
          (¬ RollsBack state tx vm → (Unchanged tx.sender state.getAccount state'.getAccount ↔
            Unchanged tx.sender state.getAccount (worldAfter state tx vm))) := by
  obtain ⟨n, out, hout, herr, hok⟩ := transact_returns cfg state tx
  refine ⟨n, out, hout, herr, ?_⟩
  intro state' res h hfail
  obtain ⟨vm, r, hrun, hstate, hres⟩ := hok state' res h
  have hiff := unchanged_settle_iff (by simpa [hres, resultOf] using hfail) hrun
  rw [hstate]
  exact ⟨vm, r, hrun, fun h => hiff.mpr (.inl h), fun h => hiff.trans (or_iff_right h)⟩

/-! ### A contract that outlives the failure -/

def createsAndFails : Address := .replicate 20 2

/-- Code that creates a contract with the code `[0]` and then meets an invalid opcode. -/
def createsAndFailsCode : List UInt8 :=
  [0x64, 0x60, 0x01, 0x60, 0x00, 0xf3, -- PUSH5: the init code, which returns one byte of memory
    0x60, 0x00, 0x52, -- MSTORE
    0x60, 0x05, 0x60, 0x1b, 0x60, 0x00, 0xf0, -- CREATE with the last 5 bytes of the word
    0xfe]

def createsAndFailsDb : EvmStateDb :=
  (EvmStateDb.new none).setAccount createsAndFails { code := createsAndFailsCode }

def createsAndFailsTx : TransactArgs := ⟨sampleSender, some createsAndFails, 0, [], 100000⟩

theorem createsAndFailsDb_code_ne (a : Address) : (createsAndFailsDb.getAccount a).code ≠ [0] := by
  have hread : createsAndFailsDb.getAccount =
      Function.update (EvmStateDb.new none).getAccount createsAndFails
        { code := createsAndFailsCode } :=
    EvmStateDb.getAccount_setAccount _ rfl _ _
  rw [hread]
  by_cases ha : a = createsAndFails
  · subst ha
    simp [createsAndFailsCode]
  · rw [Function.update_of_ne ha]
    exact (by decide : ([] : List UInt8) ≠ [0])

/-- The call fails, and the contract that it created is there. -/
theorem creation_outlives_failure : ∃ state' res,
    transact {} createsAndFailsDb createsAndFailsTx 20 = some (.returned state' (.ok res)) ∧
      res.success = false ∧
      ¬ Unchanged sampleSender createsAndFailsDb.getAccount state'.getAccount := by
  obtain ⟨vm, r, hrun, hcheck⟩ := exists_of_endsWith
    (fun vm r => !r.isOk && decide (vm.trace =
      [.created sampleSender (computeCreateAddr sampleSender 1) 0 [0]]))
    (o := run 20 (entryVm {} createsAndFailsDb createsAndFailsTx)) (by decide +kernel)
  simp only [Bool.and_eq_true, Bool.not_eq_true', decide_eq_true_eq] at hcheck
  have hkept : vm.Kept r := by
    right
    rw [hcheck.2]
    exact ⟨_, List.mem_singleton_self _, trivial⟩
  refine ⟨_, _, transact_of_run (by decide +kernel) (by decide +kernel) hrun, hcheck.1, ?_⟩
  intro h
  rw [settle_call_accounts rfl hrun rfl, if_pos hkept, hcheck.2] at h
  -- The account of the new contract has the code `[0]`, which no account had before.
  have hcode : (exec World.apply (World.bump createsAndFailsDb.getAccount sampleSender)
      [.created sampleSender (computeCreateAddr sampleSender 1) 0 [0]]
      (computeCreateAddr sampleSender 1)).code = [0] := by
    simp [exec, World.apply]
  apply createsAndFailsDb_code_ne (computeCreateAddr sampleSender 1)
  rcases h (computeCreateAddr sampleSender 1) with heq | ⟨-, heq⟩
  · rw [← heq]
    exact hcode
  · rw [show (createsAndFailsDb.getAccount (computeCreateAddr sampleSender 1)).code =
      (createsAndFailsDb.getAccount (computeCreateAddr sampleSender 1)).bumped.code from rfl, ← heq]
    exact hcode

end IonaOs.Evm
