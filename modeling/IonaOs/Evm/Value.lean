import IonaOs.Evm.Transact

/-!
# Money in a transaction
-/

namespace IonaOs.Evm

open Lib World

section

variable (state : EvmStateDb) (tx : TransactArgs) (vm : Vm) (r : Except EvmError Unit)

def valueBurned : ℕ :=
  match tx.dest with
  | none => 0
  | some _ =>
    if state.staticCall = false ∧ vm.Kept r then
      (bump state.getAccount tx.sender).burnedBy vm.trace
    else 0

def KeepsValue : Prop :=
  state.staticCall = true ∨
    match tx.dest with
    | none => vm.Deploys r → state.balance (contractAddr state tx) = tx.value
    | some _ => vm.Kept r →
        Along apply Harmless (bump state.getAccount tx.sender) vm.trace

end

variable {cfg : EvmConfig} {state : EvmStateDb} {tx : TransactArgs} {n : ℕ} {vm : Vm}
  {r : Except EvmError Unit} {dest : Address}

theorem bump_balance (w : World) (a b : Address) : (w.bump a b).balance = (w b).balance := by
  by_cases hb : b = a
  · subst hb
    simp [bump, Account.bumped]
  · simp [bump, Function.update_of_ne hb]

section

variable (hstatic : state.staticCall = false)
include hstatic

theorem total_settle_create (hdest : tx.dest = none) (hdep : vm.Deploys r) :
    total (settle state tx vm r.isOk).getAccount + (state.balance (contractAddr state tx)).toNat =
      total state.getAccount + tx.value.toNat := by
  rw [getAccount_settle_create hdest, if_pos hdep,
    EvmStateDb.getAccount_setAccount _ (by simpa using hstatic), entryState_accounts hstatic]
  have hput := total_update (w := bump state.getAccount tx.sender)
    (a := contractAddr state tx) { balance := tx.value, code := vm.machine.output }
  rwa [total_bump, bump_balance] at hput

theorem total_settle_create_iff (hdest : tx.dest = none) :
    total (settle state tx vm r.isOk).getAccount = total state.getAccount ↔
      (vm.Deploys r → state.balance (contractAddr state tx) = tx.value) := by
  by_cases hdep : vm.Deploys r
  · have hsum := total_settle_create hstatic hdest hdep
    simp only [hdep, true_implies, ← BitVec.toNat_inj]
    omega
  · have hsame : total (settle state tx vm r.isOk).getAccount = total state.getAccount := by
      rw [getAccount_settle_create hdest, if_neg hdep, entryState_accounts hstatic, total_bump]
    simp [hdep, hsame]

theorem total_settle_call_iff (hdest : tx.dest = some dest)
    (hrun : run n (entryVm cfg state tx) = some (.finished vm r)) :
    total (settle state tx vm r.isOk).getAccount + valueBurned state tx vm r =
        total state.getAccount ↔
      (vm.Kept r → Along apply Harmless (bump state.getAccount tx.sender) vm.trace) := by
  have henabled := (recorded_call hdest hrun).enabled (by simpa using hstatic)
  rw [entryState_accounts hstatic] at henabled
  rw [settle_call_accounts hdest hrun hstatic]
  by_cases hkept : vm.Kept r
  · simpa [valueBurned, hdest, hstatic, hkept] using (total_exec_iff henabled).2
  · simp [valueBurned, hdest, hkept]

end

theorem settle_frozen (hstatic : state.staticCall = true)
    (hrun : run n (entryVm cfg state tx) = some (.finished vm r)) :
    (settle state tx vm r.isOk).getAccount = state.getAccount := by
  cases hdest : tx.dest with
  | none =>
    rw [getAccount_settle_create hdest,
      EvmStateDb.setAccount_of_static _ (by simpa using hstatic), ite_self,
      entryState_frozen hstatic]
  | some => exact settle_call_frozen hdest hrun hstatic

theorem total_settle_iff (hrun : run n (entryVm cfg state tx) = some (.finished vm r)) :
    total (settle state tx vm r.isOk).getAccount + valueBurned state tx vm r =
        total state.getAccount ↔
      KeepsValue state tx vm r := by
  unfold KeepsValue
  by_cases hstatic : state.staticCall = true
  · have hburned : valueBurned state tx vm r = 0 := by
      cases hdest : tx.dest <;> simp [valueBurned, hdest, hstatic]
    simp [settle_frozen hstatic hrun, hburned, hstatic]
  · have hstatic' : state.staticCall = false := by simpa using hstatic
    cases hdest : tx.dest with
    | none =>
      have hburned : valueBurned state tx vm r = 0 := by simp [valueBurned, hdest]
      simpa [hburned, hstatic] using total_settle_create_iff hstatic' hdest
    | some => simpa [hstatic] using total_settle_call_iff hstatic' hdest hrun

/-- **Money in a transaction.**  Every call of `transact` returns or panics.  An error keeps the sum
of all balances; a result keeps it, but for what is burned, exactly in the cases of
`KeepsValue`. -/
theorem transact_total_iff (cfg : EvmConfig) (state : EvmStateDb) (tx : TransactArgs) :
    ∃ n out, (∀ m, n ≤ m → transact cfg state tx m = some out) ∧
      (∀ state' e, out = .returned state' (.error e) →
        total state'.getAccount = total state.getAccount) ∧
      ∀ state' res, out = .returned state' (.ok res) →
        ∃ vm r, run n (entryVm cfg state tx) = some (.finished vm r) ∧
          (total state'.getAccount + valueBurned state tx vm r =
              total state.getAccount ↔
            KeepsValue state tx vm r) := by
  obtain ⟨n, out, hout, herr, hok⟩ := transact_returns cfg state tx
  refine ⟨n, out, hout, ?_, ?_⟩
  · intro state' e h
    rw [herr state' e h]
  · intro state' res h
    obtain ⟨vm, r, hrun, hstate, -⟩ := hok state' res h
    refine ⟨vm, r, hrun, ?_⟩
    rw [hstate]
    exact total_settle_iff hrun

/-- **A transaction is a run of events.**  Unless the state is static, a result counts the sender's
nonce, and then come events, each with the money that it moves at hand, or the new contract. -/
theorem transact_refines_events (cfg : EvmConfig) (state : EvmStateDb) (tx : TransactArgs) :
    let w := bump state.getAccount tx.sender
    ∃ n out, (∀ m, n ≤ m → transact cfg state tx m = some out) ∧
      ∀ state' res, out = .returned state' (.ok res) →
        if state.staticCall then state'.getAccount = state.getAccount
        else (∃ es, Along apply Enabled w es ∧ state'.getAccount = exec apply w es) ∨
          tx.dest = none ∧ ∃ code, state'.getAccount =
            Function.update w (contractAddr state tx) { balance := tx.value, code } := by
  intro w
  obtain ⟨n, out, hout, -, hok⟩ := transact_returns cfg state tx
  refine ⟨n, out, hout, ?_⟩
  intro state' res h
  obtain ⟨vm, r, hrun, rfl, -⟩ := hok state' res h
  split_ifs with hstatic
  · exact settle_frozen hstatic hrun
  rw [Bool.not_eq_true] at hstatic
  have hentry : (entryState state tx).getAccount = w := entryState_accounts hstatic
  cases hdest : tx.dest with
  | none =>
    rw [getAccount_settle_create hdest, ← hentry]
    split_ifs
    · exact .inr ⟨rfl, _, EvmStateDb.getAccount_setAccount _ (by simpa using hstatic) ..⟩
    · exact .inl ⟨[], trivial, rfl⟩
  | some =>
    left
    rw [settle_call_accounts hdest hrun hstatic]
    split_ifs
    · exact ⟨vm.trace, hentry ▸ (recorded_call hdest hrun).enabled (by simpa using hstatic), rfl⟩
    · exact ⟨[], trivial, rfl⟩

/-! ### A creation that makes money -/

def sevenDb : EvmStateDb := (EvmStateDb.new none).setAccount sampleSender { balance := 7 }

def creationTx : TransactArgs := ⟨sampleSender, none, 5, [0x60, 1, 0x60, 0, 0xf3], 100000⟩

theorem sevenDb_balance_ne (a : Address) : sevenDb.balance a ≠ 5 := by
  have hread : sevenDb.getAccount =
      Function.update (EvmStateDb.new none).getAccount sampleSender { balance := 7 } :=
    EvmStateDb.getAccount_setAccount _ rfl _ _
  rw [EvmStateDb.balance, hread]
  by_cases ha : a = sampleSender
  · subst ha
    simp
  · rw [Function.update_of_ne ha]
    exact (by decide : (0 : U128) ≠ 5)

/-- The sender of a creation keeps the value, and the contract gets it. -/
theorem creation_makes_money : ∃ state' res,
    transact {} sevenDb creationTx 10 = some (.returned state' (.ok res)) ∧ res.success = true ∧
      total state'.getAccount ≠ total sevenDb.getAccount := by
  obtain ⟨vm, r, hrun, hcheck⟩ := exists_of_endsWith
    (fun vm r => r.isOk && decide (vm.machine.output = [0]))
    (o := run 10 (entryVm {} sevenDb creationTx)) (by decide +kernel)
  simp only [Bool.and_eq_true, decide_eq_true_eq] at hcheck
  have hdep : vm.Deploys r := ⟨hcheck.1, by simp [hcheck.2]⟩
  refine ⟨_, _, transact_of_run (by decide +kernel) (by decide +kernel) hrun, hcheck.1, ?_⟩
  rw [ne_eq, total_settle_create_iff rfl rfl]
  intro h
  exact sevenDb_balance_ne _ (h hdep)

end IonaOs.Evm
