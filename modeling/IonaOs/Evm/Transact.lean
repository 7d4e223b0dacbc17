import IonaOs.Evm.Termination

/-!
# Transactions
-/

namespace IonaOs.Evm

open Lib

structure EvmResult where
  success : Bool
  gasUsed : UInt64
  gasRefunded : UInt64
  output : List UInt8
  logs : List EvmLog
  error : Option String

/-- The arguments of `transact`. -/
structure TransactArgs where
  sender : Address
  dest : Option Address
  value : U128
  calldata : List UInt8
  gasLimit : UInt64

/-- How a call of `transact` ends. -/
inductive Transacted where
  | panicked
  | returned (state : EvmStateDb) (result : Except EvmError EvmResult)

def Account.bumped (acc : Account) : Account := { acc with nonce := acc.nonce + 1 }

section

variable (cfg : EvmConfig) (state : EvmStateDb) (tx : TransactArgs)

def intrinsic : UInt64 :=
  cfg.intrinsicGas +
    (tx.calldata.map fun b => if b = 0 then cfg.gasPerZeroByte else cfg.gasPerNonzeroByte).sum

def gasForExec : UInt64 := tx.gasLimit - intrinsic cfg tx

def entryState : EvmStateDb :=
  (state.setAccount tx.sender (state.getAccount tx.sender).bumped).snapshot

def contractAddr : Address :=
  computeCreateAddr tx.sender ((state.getAccount tx.sender).bumped.nonce - 1)

/-- The run that `transact` starts. -/
def entryVm : Vm :=
  let gas := gasForExec cfg tx
  match tx.dest with
  | none =>
    .new ⟨cfg, tx.calldata, tx.sender, contractAddr state tx, tx.value, [], gas, false⟩
      (.new none)
  | some dest =>
    let code := ((entryState state tx).getAccount dest).code
    .new ⟨cfg, code, tx.sender, dest, tx.value, tx.calldata, gas, false⟩ (entryState state tx)

def leaveRun (vm : Vm) (ok : Bool) : EvmStateDb :=
  match tx.dest with
  | none =>
    let output := vm.machine.output
    if ok ∧ output ≠ [] then
      (entryState state tx).setAccount (contractAddr state tx)
        { balance := tx.value, code := output }
    else entryState state tx
  | some _ => vm.state

/-- The state that `transact` leaves. -/
def settle (vm : Vm) (ok : Bool) : EvmStateDb :=
  if ok then (leaveRun state tx vm ok).commit else (leaveRun state tx vm ok).revert

/-- The result that `transact` returns. -/
def resultOf (vm : Vm) (r : Except EvmError Unit) : EvmResult where
  success := r.isOk
  gasUsed := gasForExec cfg tx - vm.machine.gas
  gasRefunded := vm.machine.refund
  output :=
    match tx.dest with
    | none => (contractAddr state tx).toList
    | some _ => vm.machine.output
  logs := vm.machine.logs
  error :=
    match r with
    | .ok _ => none
    | .error e => some e.display

/-- The outcome of the run as an outcome of `transact`. -/
def ofRun : Outcome → Transacted
  | .panicked => .panicked
  | .finished vm r =>
    .returned (settle state tx vm r.isOk) (.ok (resultOf cfg state tx vm r))

/-- `EvmExecutor::transact`. -/
def transact (n : ℕ) : Option Transacted :=
  let needed := intrinsic cfg tx
  let balance := state.balance tx.sender
  if tx.gasLimit < needed then
    some (.returned state (.error (.outOfGas tx.gasLimit needed)))
  else if balance < tx.value then
    some (.returned state (.error (.insufficientBalance tx.value balance)))
  else (run n (entryVm cfg state tx)).map (ofRun cfg state tx)

end

/-! ## The accounts afterwards -/

def World.bump (w : World) (a : Address) : World := Function.update w a (w a).bumped

@[simp] theorem World.total_bump (w : World) (a : Address) : (w.bump a).total = w.total :=
  Nat.add_right_cancel (World.total_update (w a).bumped)

def Vm.Kept (vm : Vm) (r : Except EvmError Unit) : Prop := r.isOk = true ∨ ∃ e ∈ vm.trace, e.Creates
deriving Decidable

def Vm.Deploys (vm : Vm) (r : Except EvmError Unit) : Prop :=
  r.isOk = true ∧ vm.machine.output ≠ []
deriving Decidable

namespace EvmStateDb

variable {s s' : EvmStateDb}

theorem revert_of_nil (h : s.snapshots = []) : s.revert = s := by
  simp [revert, h]

theorem getAccount_revert (h : SameBase s.snapshot s') : s'.revert.getAccount = s.getAccount := by
  have hsnap : s'.snapshots = s.dirty :: s.snapshots := h.snapshots
  have hacc : s'.accounts = s.accounts := h.accounts
  have hdb : s'.db = s.db := h.db
  ext1 a
  simp [revert, hsnap, getAccount, hacc, hdb]

end EvmStateDb

section

variable {cfg : EvmConfig} {state : EvmStateDb} {tx : TransactArgs} {n : ℕ} {vm : Vm}
  {r : Except EvmError Unit} {dest : Address}

@[simp] theorem entryState_static : (entryState state tx).staticCall = state.staticCall := by
  simp [entryState, EvmStateDb.snapshot]

theorem entryState_accounts (h : state.staticCall = false) :
    (entryState state tx).getAccount = World.bump state.getAccount tx.sender := by
  simp [entryState, state.getAccount_setAccount h, World.bump]

theorem entryState_frozen (h : state.staticCall = true) :
    (entryState state tx).getAccount = state.getAccount := by
  simp [entryState, state.setAccount_of_static h]

theorem entryState_revert {s : EvmStateDb} (h : SameBase (entryState state tx) s) :
    s.revert.getAccount = (entryState state tx).getAccount := by
  unfold entryState at h ⊢
  rw [EvmStateDb.getAccount_revert h, EvmStateDb.getAccount_snapshot]

section

variable (hdest : tx.dest = some dest)
  (hrun : run n (entryVm cfg state tx) = some (.finished vm r))
include hdest hrun

theorem recorded_call : Recorded (entryState state tx) vm.trace vm.state := by
  obtain ⟨es, htrace, hrec⟩ := (run_follows hrun).trace
  simp only [entryVm, hdest, Vm.new, List.nil_append] at htrace hrec
  rw [htrace]
  exact hrec

omit hdest hrun in
theorem getAccount_revert_call (hrec : Recorded (entryState state tx) vm.trace vm.state) :
    vm.state.revert.getAccount =
      if ∃ e ∈ vm.trace, e.Creates then vm.state.getAccount
      else (entryState state tx).getAccount := by
  split
  · rw [EvmStateDb.revert_of_nil (hrec.cleared ‹_›)]
  · rename_i hnone
    exact entryState_revert (hrec.base fun e he hc => hnone ⟨e, he, hc⟩)

theorem getAccount_settle_call : (settle state tx vm r.isOk).getAccount =
      if vm.Kept r then vm.state.getAccount else (entryState state tx).getAccount := by
  have hrec := recorded_call hdest hrun
  unfold settle leaveRun
  by_cases hok : r.isOk = true
  · simp [hdest, hok, Vm.Kept]
  · simp [hdest, hok, Vm.Kept, getAccount_revert_call hrec]

theorem settle_call_frozen (h : state.staticCall = true) :
    (settle state tx vm r.isOk).getAccount = state.getAccount := by
  have hrec := recorded_call hdest hrun
  rw [getAccount_settle_call hdest hrun, hrec.frozen (by simpa using h), entryState_frozen h,
    ite_self]

theorem settle_call_accounts (h : state.staticCall = false) :
    (settle state tx vm r.isOk).getAccount =
      if vm.Kept r then exec World.apply (World.bump state.getAccount tx.sender) vm.trace
      else World.bump state.getAccount tx.sender := by
  have hrec := recorded_call hdest hrun
  rw [getAccount_settle_call hdest hrun, hrec.accounts (by simpa using h), entryState_accounts h]

end

theorem getAccount_settle_create (hdest : tx.dest = none) : (settle state tx vm r.isOk).getAccount =
      if vm.Deploys r then
        ((entryState state tx).setAccount (contractAddr state tx)
          { balance := tx.value, code := vm.machine.output }).getAccount
      else (entryState state tx).getAccount := by
  unfold settle leaveRun Vm.Deploys
  by_cases hok : r.isOk = true
  · by_cases hout : vm.machine.output = [] <;> simp [hdest, hok, hout]
  · simp only [hdest, hok, Bool.false_eq_true, false_and, if_false]
    exact entryState_revert (.refl _)

theorem transact_of_run (hgas : ¬ tx.gasLimit < intrinsic cfg tx)
    (hbal : ¬ state.balance tx.sender < tx.value)
    (hrun : run n (entryVm cfg state tx) = some (.finished vm r)) :
    transact cfg state tx n =
      some (.returned (settle state tx vm r.isOk) (.ok (resultOf cfg state tx vm r))) := by
  simp [transact, if_neg hgas, if_neg hbal, hrun, ofRun]

end

theorem transact_returns (cfg : EvmConfig) (state : EvmStateDb) (tx : TransactArgs) :
    ∃ n out, (∀ m, n ≤ m → transact cfg state tx m = some out) ∧
      (∀ state' e, out = .returned state' (.error e) → state' = state) ∧
      ∀ state' res, out = .returned state' (.ok res) →
        ∃ vm r, run n (entryVm cfg state tx) = some (.finished vm r) ∧
          state' = settle state tx vm r.isOk ∧ res = resultOf cfg state tx vm r := by
  by_cases hgas : tx.gasLimit < intrinsic cfg tx
  · refine ⟨0, _, fun m _ => by simp only [transact, if_pos hgas]; rfl, ?_, ?_⟩ <;> simp
  by_cases hbal : state.balance tx.sender < tx.value
  · refine ⟨0, _, fun m _ => by simp only [transact, if_neg hgas, if_pos hbal]; rfl, ?_, ?_⟩ <;>
      simp
  obtain ⟨o, ho⟩ := run_returns (entryVm cfg state tx)
  obtain ⟨n, hn⟩ := ho.eventually
  refine ⟨n, ofRun cfg state tx o, ?_, ?_, ?_⟩
  · intro m hm
    have hrun : run m (entryVm cfg state tx) = some o := hn m hm
    simp [transact, if_neg hgas, if_neg hbal, hrun]
  · cases o <;> simp [ofRun]
  · intro state' res hout
    cases o with
    | panicked => cases hout
    | finished vm r =>
      cases hout
      exact ⟨vm, r, hn n le_rfl, rfl, rfl⟩

/-! ## Closed inputs -/

def endsWith (check : Vm → Except EvmError Unit → Bool) : Option Outcome → Bool
  | some (.finished vm r) => check vm r
  | _ => false

theorem exists_of_endsWith (check : Vm → Except EvmError Unit → Bool) {o : Option Outcome}
    (h : endsWith check o = true) : ∃ vm r, o = some (.finished vm r) ∧ check vm r = true := by
  cases o with
  | none => cases h
  | some o =>
    cases o with
    | panicked => cases h
    | finished vm r => exact ⟨vm, r, rfl, h⟩

def sampleSender : Address := .replicate 20 1

end IonaOs.Evm
