import IonaOs.Execution
import IonaOs.Lib.MapSum

/-!
# The money of a state
-/

namespace IonaOs

open Lib UInt64 KvState

def KvState.balance (s : KvState) (addr : String) : UInt64 := s.balances[addr]?.getD 0

def KvState.money (s : KvState) : ℕ := valueSum toNat s.balances + s.burned.toNat

def Tx.gas (tx : Tx) : ℕ := 21000 + tx.payload.length * 10

def Tx.tipPrice (tx : Tx) (baseFee : UInt64) : ℕ :=
  min tx.maxPriorityFeePerGas.toNat (tx.maxFeePerGas.toNat - baseFee.toNat)

/-- `gas::effective_prices` for a transaction: price, base fee and tip for each unit of gas. -/
abbrev Tx.prices (tx : Tx) (baseFee : UInt64) : UInt64 × UInt64 × UInt64 :=
  effectivePrices baseFee tx.maxFeePerGas tx.maxPriorityFeePerGas

def Tx.gasPrice (tx : Tx) (baseFee : UInt64) : ℕ := baseFee.toNat + tx.tipPrice baseFee

section

variable (state : KvState) (tx : Tx) (baseFee : UInt64) (proposerAddr fromAddr : String)

def paidBalance (addr : String) : ℕ :=
  (state.balance addr).toNat - if addr = fromAddr then tx.gas * tx.gasPrice baseFee else 0

/-- No operation of `apply_tx` wraps. -/
structure NoWrap : Prop where
  intrinsic : tx.gas < 2 ^ 64
  price : tx.gasPrice baseFee < 2 ^ 64
  cost : tx.gas * tx.gasPrice baseFee < 2 ^ 64
  burn : tx.gas * baseFee.toNat < 2 ^ 64
  tip : tx.gas * tx.tipPrice baseFee < 2 ^ 64
  deduct : tx.gas * tx.gasPrice baseFee ≤ (state.balance fromAddr).toNat
  burned : state.burned.toNat + tx.gas * baseFee.toNat < 2 ^ 64
  credit : paidBalance state tx baseFee fromAddr proposerAddr + tx.gas * tx.tipPrice baseFee <
    2 ^ 64
  nonce : (state.nonces[fromAddr]?.getD 0).toNat + 1 < 2 ^ 64
  refund : (tx.gasLimit.toNat - tx.gas) * tx.gasPrice baseFee < 2 ^ 64
  repay : paidBalance state tx baseFee fromAddr fromAddr +
    (if proposerAddr = fromAddr then tx.gas * tx.tipPrice baseFee else 0) +
    (tx.gasLimit.toNat - tx.gas) * tx.gasPrice baseFee < 2 ^ 64

structure Conserves (receipt : Receipt) (newState : KvState) : Prop where
  money : newState.money = state.money
  sender : (newState.balance fromAddr).toNat +
      receipt.gasUsed.toNat * receipt.effectiveGasPrice.toNat =
    (state.balance fromAddr).toNat + if proposerAddr = fromAddr then receipt.tip.toNat else 0
  noWrap : NoWrap state tx baseFee proposerAddr fromAddr

structure ExactCharge : Prop where
  intrinsic : tx.gas < 2 ^ 64
  cost : tx.gas * tx.gasPrice baseFee < 2 ^ 64
  burned : state.burned.toNat + tx.gas * baseFee.toNat < 2 ^ 64
  credit : paidBalance state tx baseFee fromAddr proposerAddr + tx.gas * tx.tipPrice baseFee <
    2 ^ 64
  nonce : (state.nonces[fromAddr]?.getD 0).toNat + 1 < 2 ^ 64
  limit : tx.gasLimit.toNat = tx.gas ∨ tx.gasPrice baseFee = 0

end

/-! ## Amounts -/

section

variable {tx : Tx} {baseFee : UInt64}

theorem toNat_intrinsicGas (h : tx.gas < 2 ^ 64) : (intrinsicGas tx).toNat = tx.gas := by
  simp only [Tx.gas] at h ⊢
  simp only [intrinsicGas, UInt64.toNat_add, UInt64.toNat_mul, toNat_ofNat', reduceToNat]
  omega

theorem toNat_tipPerGas (tx : Tx) (baseFee : UInt64) :
    (tx.prices baseFee).2.2.toNat = tx.tipPrice baseFee := by
  simp only [effectivePrices, Tx.tipPrice, ← toNat_satSub]
  exact toNat_min _ _

theorem toNat_effectiveGasPrice (h : tx.gasPrice baseFee < 2 ^ 64) :
    (tx.prices baseFee).1.toNat = tx.gasPrice baseFee := by
  have htip := toNat_tipPerGas tx baseFee
  simp only [effectivePrices] at htip ⊢
  rw [UInt64.toNat_add, htip, ← Tx.gasPrice, Nat.mod_eq_of_lt h]

theorem Tx.gasPrice_lt (h : baseFee ≤ tx.maxFeePerGas) : tx.gasPrice baseFee < 2 ^ 64 := by
  rw [le_iff_toNat_le] at h
  have hlt := tx.maxFeePerGas.toNat_lt
  simp only [Tx.gasPrice, Tx.tipPrice]
  omega

theorem Tx.gas_mul_gasPrice (tx : Tx) (baseFee : UInt64) :
    tx.gas * tx.gasPrice baseFee = tx.gas * baseFee.toNat + tx.gas * tx.tipPrice baseFee := by
  rw [Tx.gasPrice, Nat.mul_add]

end

/-! ## Accounts -/

section

variable {balances : Std.ExtTreeMap String UInt64} {addr other : String} {amount : UInt64}

/-- Add an amount to an account, as `*balances.entry(addr).or_insert(0) += amount` does. -/
def pay (balances : Std.ExtTreeMap String UInt64) (addr : String) (amount : UInt64) :
    Std.ExtTreeMap String UInt64 :=
  balances.insert addr (balances[addr]?.getD 0 + amount)

theorem getD_insert {value : UInt64} : (balances.insert addr value)[other]?.getD 0 =
    if addr = other then value else balances[other]?.getD 0 := by
  rw [Std.ExtTreeMap.getElem?_insert]
  simp only [Std.LawfulEqCmp.compare_eq_iff_eq]
  split <;> rfl

theorem valueSum_write (balances : Std.ExtTreeMap String UInt64) (addr : String) (value : UInt64) :
    valueSum toNat (balances.insert addr value) + (balances[addr]?.getD (0 : UInt64)).toNat =
      valueSum toNat balances + value.toNat := by
  have hsum := valueSum_insert toNat balances addr value
  have hold : (balances[addr]?.map toNat).getD 0 = (balances[addr]?.getD 0).toNat := by
    cases balances[addr]? <;> rfl
  rwa [hold] at hsum

theorem valueSum_pay (h : (balances[addr]?.getD 0).toNat + amount.toNat < 2 ^ 64) :
    valueSum toNat (pay balances addr amount) =
      valueSum toNat balances + amount.toNat := by
  have hsum := valueSum_write balances addr (balances[addr]?.getD 0 + amount)
  rw [UInt64.toNat_add, Nat.mod_eq_of_lt h] at hsum
  rw [pay]
  omega

theorem getD_pay (h : (balances[addr]?.getD 0).toNat + amount.toNat < 2 ^ 64) :
    ((pay balances addr amount)[other]?.getD 0).toNat =
      (balances[other]?.getD 0).toNat + if addr = other then amount.toNat else 0 := by
  rw [pay, getD_insert]
  by_cases heq : addr = other
  · subst heq
    simp only [if_true]
    rw [UInt64.toNat_add, Nat.mod_eq_of_lt h]
  · simp [heq]

end

/-! ## The charge -/

section

variable (P : Primitives) (cfg : ExecutionConfig)
variable {state newState : KvState} {tx : Tx} {baseFee : UInt64} {proposerAddr fromAddr : String}
  {receipt : Receipt}

def paidBalances (state : KvState) (tx : Tx) (baseFee : UInt64) (fromAddr : String) :
    Std.ExtTreeMap String UInt64 :=
  state.balances.insert fromAddr
    (state.balance fromAddr - intrinsicGas tx * (tx.prices baseFee).1)

def chargedBalances (state : KvState) (tx : Tx) (baseFee : UInt64)
    (proposerAddr fromAddr : String) : Std.ExtTreeMap String UInt64 :=
  pay (paidBalances state tx baseFee fromAddr) proposerAddr
    (intrinsicGas tx * (tx.prices baseFee).2.2)

structure Charged (state : KvState) (tx : Tx) (baseFee : UInt64) (proposerAddr fromAddr : String)
    (receipt : Receipt) (newState : KvState) : Prop where
  fee : baseFee ≤ tx.maxFeePerGas
  limit : intrinsicGas tx ≤ tx.gasLimit
  covered : intrinsicGas tx * (tx.prices baseFee).1 ≤ state.balance fromAddr
  gasUsed : receipt.gasUsed = intrinsicGas tx
  price : receipt.effectiveGasPrice = (tx.prices baseFee).1
  tip : receipt.tip = intrinsicGas tx * (tx.prices baseFee).2.2
  burned : newState.burned = state.burned + intrinsicGas tx * baseFee
  balances : newState.balances =
    let charged := chargedBalances state tx baseFee proposerAddr fromAddr
    if tx.gasLimit - intrinsicGas tx > 0 then
      pay charged fromAddr ((tx.gasLimit - intrinsicGas tx) * (tx.prices baseFee).1)
    else charged

theorem runPayload_kv {working : KvState} {intrinsic : UInt64}
    (hkv : evmMarker.isPrefixOf tx.payload = false) :
    ∃ kv success, runPayload P cfg working tx baseFee intrinsic =
      ({ working with kv }, success, [], 0) := by
  simp only [runPayload, hkv]
  cases applyKvPayload working.kv tx.payload with
  | error => exact ⟨working.kv, false, rfl⟩
  | ok kv => exact ⟨kv, true, rfl⟩

theorem verifyTxSignature_ok {addr : String} (h : verifyTxSignature P tx = .ok addr) :
    addr = P.deriveAddress tx.pubkey := by
  simp only [verifyTxSignature] at h
  split at h
  · cases h
  · split at h
    · cases h
    · exact (Except.ok.inj h).symm

theorem charged_of_chargeAndRun {expectedNonce : UInt64}
    (hkv : evmMarker.isPrefixOf tx.payload = false) (hfee : baseFee ≤ tx.maxFeePerGas)
    (hlimit : intrinsicGas tx ≤ tx.gasLimit)
    (h : chargeAndRun P cfg state tx baseFee proposerAddr fromAddr expectedNonce
      (intrinsicGas tx) = .ok (receipt, newState)) :
    Charged state tx baseFee proposerAddr fromAddr receipt newState := by
  have hrefund : satSub tx.gasLimit (intrinsicGas tx) = tx.gasLimit - intrinsicGas tx :=
    if_pos hlimit
  simp only [chargeAndRun] at h
  split at h
  · cases h
  rename_i hcovered
  obtain ⟨kv, success, hrun⟩ := runPayload_kv P cfg hkv
  rw [hrun] at h
  simp only [add_zero, hrefund, Except.ok.injEq, Prod.mk.injEq] at h
  obtain ⟨rfl, rfl⟩ := h
  refine ⟨hfee, hlimit, UInt64.not_lt.mp hcovered, rfl, rfl, rfl, ?_, ?_⟩
  · split <;> rfl
  · split <;> rfl

theorem applyTx_ok (h : applyTx P cfg state tx baseFee proposerAddr = .ok (receipt, newState)) :
    tx.nonce = state.nonces[P.deriveAddress tx.pubkey]?.getD 0 ∧
      intrinsicGas tx ≤ tx.gasLimit ∧ baseFee ≤ tx.maxFeePerGas ∧
      chargeAndRun P cfg state tx baseFee proposerAddr (P.deriveAddress tx.pubkey)
        (state.nonces[P.deriveAddress tx.pubkey]?.getD 0) (intrinsicGas tx) =
          .ok (receipt, newState) := by
  simp only [applyTx, bind, Except.bind, throw, throwThe, MonadExceptOf.throw] at h
  repeat' split at h
  -- What is left of the paths through the checks are the two that reach the charge.
  all_goals first | cases h | skip
  · rename_i addr haddr _ hnonce _ hlimit hfee
    obtain rfl := verifyTxSignature_ok P haddr
    exact ⟨not_not.mp hnonce, UInt64.not_lt.mp hlimit, UInt64.not_lt.mp hfee, h⟩
  · rename_i hnonce _ hlimit hfee
    exact ⟨not_not.mp hnonce, UInt64.not_lt.mp hlimit, UInt64.not_lt.mp hfee, h⟩

def chargedState (state : KvState) (tx : Tx) (baseFee : UInt64) (proposerAddr fromAddr : String) :
    KvState :=
  { state with
    balances := chargedBalances state tx baseFee proposerAddr fromAddr
    burned := state.burned + intrinsicGas tx * baseFee
    nonces := state.nonces.insert fromAddr (state.nonces[fromAddr]?.getD 0 + 1) }

theorem applyTx_runPayload
    (h : applyTx P cfg state tx baseFee proposerAddr = .ok (receipt, newState)) :
    let run := runPayload P cfg
      (chargedState state tx baseFee proposerAddr (P.deriveAddress tx.pubkey)) tx baseFee
      (intrinsicGas tx)
    newState.nonces = run.1.nonces ∧ receipt.gasUsed = intrinsicGas tx + run.2.2.2 := by
  obtain ⟨-, -, -, hrun⟩ := applyTx_ok P cfg h
  simp only [chargeAndRun] at hrun
  split at hrun
  · cases hrun
  simp only [Except.ok.injEq, Prod.mk.injEq] at hrun
  obtain ⟨rfl, rfl⟩ := hrun
  refine ⟨?_, rfl⟩
  split <;> rfl

variable {P cfg}

section

variable (hw : NoWrap state tx baseFee proposerAddr fromAddr)
include hw

theorem NoWrap.toNat_cost :
    (intrinsicGas tx * (tx.prices baseFee).1).toNat = tx.gas * tx.gasPrice baseFee := by
  rw [UInt64.toNat_mul, toNat_intrinsicGas hw.intrinsic, toNat_effectiveGasPrice hw.price,
    Nat.mod_eq_of_lt hw.cost]

theorem NoWrap.toNat_tip :
    (intrinsicGas tx * (tx.prices baseFee).2.2).toNat = tx.gas * tx.tipPrice baseFee := by
  rw [UInt64.toNat_mul, toNat_intrinsicGas hw.intrinsic, toNat_tipPerGas, Nat.mod_eq_of_lt hw.tip]

theorem NoWrap.toNat_deducted :
    (state.balance fromAddr - intrinsicGas tx * (tx.prices baseFee).1).toNat =
      (state.balance fromAddr).toNat - tx.gas * tx.gasPrice baseFee := by
  have hle : intrinsicGas tx * (tx.prices baseFee).1 ≤ state.balance fromAddr := by
    rw [le_iff_toNat_le, hw.toNat_cost]
    exact hw.deduct
  rw [UInt64.toNat_sub_of_le _ _ hle, hw.toNat_cost]

theorem NoWrap.toNat_paid (addr : String) :
    ((paidBalances state tx baseFee fromAddr)[addr]?.getD 0).toNat =
      paidBalance state tx baseFee fromAddr addr := by
  rw [paidBalances, getD_insert, paidBalance]
  by_cases heq : fromAddr = addr
  · subst heq
    simp only [if_true]
    exact hw.toNat_deducted
  · simp [heq, Ne.symm heq, balance]

theorem NoWrap.credit_lt : ((paidBalances state tx baseFee fromAddr)[proposerAddr]?.getD 0).toNat +
      (intrinsicGas tx * (tx.prices baseFee).2.2).toNat < 2 ^ 64 := by
  rw [hw.toNat_paid, hw.toNat_tip]
  exact hw.credit

theorem NoWrap.valueSum_charged :
    valueSum toNat (chargedBalances state tx baseFee proposerAddr fromAddr) +
        tx.gas * tx.gasPrice baseFee =
      valueSum toNat state.balances + tx.gas * tx.tipPrice baseFee := by
  rw [chargedBalances, valueSum_pay hw.credit_lt, hw.toNat_tip, paidBalances]
  have hsum := valueSum_write state.balances fromAddr
    (state.balance fromAddr - intrinsicGas tx * (tx.prices baseFee).1)
  rw [hw.toNat_deducted, ← balance] at hsum
  have hdeduct := hw.deduct
  omega

theorem NoWrap.toNat_charged :
    ((chargedBalances state tx baseFee proposerAddr fromAddr)[fromAddr]?.getD 0).toNat =
      paidBalance state tx baseFee fromAddr fromAddr +
        if proposerAddr = fromAddr then tx.gas * tx.tipPrice baseFee else 0 := by
  rw [chargedBalances, getD_pay hw.credit_lt, hw.toNat_paid, hw.toNat_tip]

end

section

variable (hc : Charged state tx baseFee proposerAddr fromAddr receipt newState)
  (hw : NoWrap state tx baseFee proposerAddr fromAddr)

include hc hw

theorem Charged.repaid : ∃ refund : UInt64,
    refund.toNat = (tx.gasLimit.toNat - tx.gas) * tx.gasPrice baseFee ∧
    valueSum toNat newState.balances =
      valueSum toNat (chargedBalances state tx baseFee proposerAddr fromAddr) +
        refund.toNat ∧
    (newState.balance fromAddr).toNat =
      ((chargedBalances state tx baseFee proposerAddr fromAddr)[fromAddr]?.getD 0).toNat +
        refund.toNat := by
  have hleft : (tx.gasLimit - intrinsicGas tx).toNat = tx.gasLimit.toNat - tx.gas := by
    rw [UInt64.toNat_sub_of_le _ _ hc.limit, toNat_intrinsicGas hw.intrinsic]
  have hamount : ((tx.gasLimit - intrinsicGas tx) * (tx.prices baseFee).1).toNat =
      (tx.gasLimit.toNat - tx.gas) * tx.gasPrice baseFee := by
    rw [UInt64.toNat_mul, hleft, toNat_effectiveGasPrice hw.price, Nat.mod_eq_of_lt hw.refund]
  refine ⟨_, hamount, ?_⟩
  rw [balance, hc.balances]
  by_cases hpos : tx.gasLimit - intrinsicGas tx > 0
  · have hfits : ((chargedBalances state tx baseFee proposerAddr fromAddr)[fromAddr]?.getD
        0).toNat + ((tx.gasLimit - intrinsicGas tx) * (tx.prices baseFee).1).toNat < 2 ^ 64 := by
      rw [hw.toNat_charged, hamount]
      exact hw.repay
    simp only [hpos, if_true]
    rw [valueSum_pay hfits, getD_pay hfits, if_pos rfl]
    exact ⟨rfl, rfl⟩
  · have hzero : tx.gasLimit - intrinsicGas tx = 0 := by
      rw [gt_iff_lt, UInt64.not_lt, le_iff_toNat_le] at hpos
      exact UInt64.toNat_inj.mp (Nat.le_zero.mp hpos)
    simp [hzero]

theorem Charged.money_eq : newState.money =
    state.money + (tx.gasLimit.toNat - tx.gas) * tx.gasPrice baseFee := by
  obtain ⟨refund, hrefund, hsum, -⟩ := hc.repaid hw
  have hcharged := hw.valueSum_charged
  have hsplit := tx.gas_mul_gasPrice baseFee
  rw [money, money, hsum, hc.burned, UInt64.toNat_add, UInt64.toNat_mul,
    toNat_intrinsicGas hw.intrinsic, Nat.mod_eq_of_lt hw.burn, Nat.mod_eq_of_lt hw.burned,
    ← hrefund]
  omega

theorem Charged.sender_eq : (newState.balance fromAddr).toNat + tx.gas * tx.gasPrice baseFee =
    (state.balance fromAddr).toNat +
      (if proposerAddr = fromAddr then tx.gas * tx.tipPrice baseFee else 0) +
      (tx.gasLimit.toNat - tx.gas) * tx.gasPrice baseFee := by
  obtain ⟨refund, hrefund, -, hbalance⟩ := hc.repaid hw
  have hdeduct := hw.deduct
  rw [hbalance, hw.toNat_charged, paidBalance, if_pos rfl, ← hrefund]
  omega

section

variable (he : ExactCharge state tx baseFee proposerAddr fromAddr)
include he

omit hc hw in
theorem ExactCharge.refund_eq_zero : (tx.gasLimit.toNat - tx.gas) * tx.gasPrice baseFee = 0 := by
  rcases he.limit with heq | heq <;> simp [heq]

omit hw in
theorem ExactCharge.noWrap : NoWrap state tx baseFee proposerAddr fromAddr := by
  have hprice := Tx.gasPrice_lt hc.fee
  have hsplit := tx.gas_mul_gasPrice baseFee
  have hcost := he.cost
  have hcovered := hc.covered
  have hnothing := he.refund_eq_zero
  rw [le_iff_toNat_le, UInt64.toNat_mul, toNat_intrinsicGas he.intrinsic,
    toNat_effectiveGasPrice hprice, Nat.mod_eq_of_lt hcost] at hcovered
  refine ⟨he.intrinsic, hprice, hcost, by omega, by omega, hcovered, he.burned, he.credit, he.nonce,
    by omega, ?_⟩
  rw [hnothing, Nat.add_zero]
  by_cases heq : proposerAddr = fromAddr
  · have hcredit := he.credit
    rw [heq] at hcredit
    rwa [if_pos heq]
  · have hlt := (state.balance fromAddr).toNat_lt
    rw [if_neg heq, paidBalance]
    omega

end

end

variable (P cfg) in
/-- **Conservation of money.**  A call for a payload that is not for the EVM keeps the money of
the state, charges the sender for the gas on the receipt and does not wrap, exactly when its
amounts fit into 64 bits and there is no gas left over to refund. -/
theorem applyTx_conserves_iff (hkv : evmMarker.isPrefixOf tx.payload = false)
    (h : applyTx P cfg state tx baseFee proposerAddr = .ok (receipt, newState)) :
    Conserves state tx baseFee proposerAddr (P.deriveAddress tx.pubkey) receipt newState ↔
      ExactCharge state tx baseFee proposerAddr (P.deriveAddress tx.pubkey) := by
  obtain ⟨-, hlimit, hfee, hrun⟩ := applyTx_ok P cfg h
  have hc := charged_of_chargeAndRun P cfg hkv hfee hlimit hrun
  constructor
  · rintro ⟨hmoney, -, hw⟩
    refine ⟨hw.intrinsic, hw.cost, hw.burned, hw.credit, hw.nonce, ?_⟩
    have hmade := hc.money_eq hw
    have hlimit := hc.limit
    rw [le_iff_toNat_le, toNat_intrinsicGas hw.intrinsic] at hlimit
    have hzero : (tx.gasLimit.toNat - tx.gas) * tx.gasPrice baseFee = 0 := by omega
    rcases Nat.mul_eq_zero.mp hzero with hleft | hprice
    · exact .inl (by omega)
    · exact .inr hprice
  · intro he
    have hw := he.noWrap hc
    refine ⟨?_, ?_, hw⟩
    · rw [hc.money_eq hw, he.refund_eq_zero, Nat.add_zero]
    · have hsender := hc.sender_eq hw
      rw [hc.gasUsed, hc.price, hc.tip, hw.toNat_tip, toNat_intrinsicGas hw.intrinsic,
        toNat_effectiveGasPrice hw.price, hsender, he.refund_eq_zero,
        Nat.add_zero]

end

namespace Sample

def oneAccount : Primitives where
  verifyEd25519 _ _ _ := true
  deriveAddress _ := "alice"
  txSignBytes tx := tx.payload
  txHash _ := .replicate 32 0
  blake3 _ := .replicate 32 0
  encodeReceipt _ := []
  executeEvm _ _ _ _ _ := none
  protocolVersion := 1

/-- The transaction of `test_apply_tx_kv`, with the given gas limit. -/
def setKey (gasLimit : UInt64) : Tx where
  pubkey := List.replicate 32 0
  sender := "alice"
  nonce := 0
  maxFeePerGas := 100
  maxPriorityFeePerGas := 10
  gasLimit := gasLimit
  payload := [115, 101, 116, 32, 107, 101, 121, 32, 118, 97, 108, 117, 101]
  signature := List.replicate 64 0
  chainId := 6126151

/-- The state of `test_apply_tx_kv`. -/
def aliceState : KvState := ⟨∅, Std.ExtTreeMap.insert ∅ "alice" 1000000, ∅, 0⟩

end Sample

open Sample

/-- With a limit of exactly the intrinsic gas the call is exact. -/
theorem applyTx_conserves_setKey : ∃ receipt newState,
    applyTx oneAccount {} aliceState (setKey 21130) 10 "proposer" =
      .ok (receipt, newState) ∧
    Conserves aliceState (setKey 21130) 10 "proposer" "alice" receipt newState := by
  have hok : (applyTx oneAccount {} aliceState (setKey 21130) 10
      "proposer").isOk = true := by decide +kernel
  rcases h : applyTx oneAccount {} aliceState (setKey 21130) 10 "proposer" with
    _ | ⟨receipt, newState⟩
  · rw [h] at hok
    cases hok
  · have hiff := applyTx_conserves_iff oneAccount {} (by decide) h
    refine ⟨receipt, newState, rfl, hiff.mpr ?_⟩
    constructor <;> decide +kernel

/-- **Unused gas is refunded although it was not charged.**  In the call of `test_apply_tx_kv`
the account that pays ends with more than it had. -/
theorem applyTx_makes_money : ∃ receipt newState,
    applyTx oneAccount {} aliceState (setKey 100000) 10 "proposer" =
      .ok (receipt, newState) ∧
    aliceState.money = 1000000 ∧ newState.money = 2577400 ∧
    newState.balance "alice" = 2154800 ∧
    ¬ Conserves aliceState (setKey 100000) 10 "proposer" "alice" receipt
      newState := by
  have hrun : (applyTx oneAccount {} aliceState (setKey 100000) 10
      "proposer").toOption.map (fun r => (r.2.money, r.2.balance "alice")) =
        some (2577400, 2154800) := by decide +kernel
  have hbefore : aliceState.money = 1000000 := by decide +kernel
  rcases h : applyTx oneAccount {} aliceState (setKey 100000) 10
      "proposer" with _ | ⟨receipt, newState⟩
  · rw [h] at hrun
    cases hrun
  · rw [h] at hrun
    simp only [Except.toOption, Option.map_some, Option.some.injEq, Prod.mk.injEq] at hrun
    refine ⟨receipt, newState, rfl, hbefore, hrun.1, hrun.2, ?_⟩
    intro hconserves
    have hmoney := hconserves.money
    rw [hrun.1, hbefore] at hmoney
    omega

end IonaOs
