import IonaOs.Lib.Word
import IonaOs.Types

/-!
# Block execution
-/

namespace IonaOs

open Lib

structure UnifiedEvmResult where
  success : Bool
  gasUsed : UInt64
  returnData : List UInt8

/-- The functions that `execution.rs` imports. -/
structure Primitives where
  verifyEd25519 : PublicKeyBytes → List UInt8 → SignatureBytes → Bool
  deriveAddress : List UInt8 → String
  txSignBytes : Tx → List UInt8
  txHash : Tx → Hash32
  blake3 : List UInt8 → Hash32
  encodeReceipt : Receipt → List UInt8
  executeEvm : KvState → List UInt8 → UInt64 → UInt64 → UInt64 → Option (KvState × UnifiedEvmResult)
  protocolVersion : UInt32

structure ExecutionConfig where
  chainId : UInt64 := 6126151
  verifySignatures : Bool := true
  verifyStateRoots : Bool := true
  verifyTxRoots : Bool := true
  maxPayloadSize : ℕ := 262144
  enableEvm : Bool := true
  evmGasLimit : UInt64 := 15000000
  gasLimit : UInt64 := 86000000

inductive ExecutionError where
  | invalidSignature
  | addressMismatch (expected actual : String)
  | nonceMismatch (expected actual : UInt64)
  | insufficientBalance (needed available : UInt64)
  | gasLimitTooLow (limit intrinsic : UInt64)
  | feeTooLow (maxFee baseFee : UInt64)
  | payloadTooLarge (len max : ℕ)
  | evmError (reason : String)
  | stateRootMismatch (expected actual : String)
  | txRootMismatch (expected actual : String)
  | gasUsedMismatch (expected actual : UInt64)
  | proposerMismatch (expected actual : String)
  | verificationFailed (reason : String)
  | chainIdMismatch (expected actual : UInt64)

/-! ## Gas -/

/-- `gas::intrinsic_gas`. -/
def intrinsicGas (tx : Tx) : UInt64 := 21000 + UInt64.ofNat tx.payload.length * 10

/-- `gas::next_base_fee`. -/
def nextBaseFee (current gasUsed gasTarget : UInt64) : UInt64 :=
  if gasTarget = 0 then max current 1
  else
    let current := max current 1
    if gasUsed = gasTarget then current
    else if gasUsed > gasTarget then
      let delta := max (current * (gasUsed - gasTarget) / gasTarget / 8) 1
      max (satAdd current delta) 1
    else
      let delta := current * (gasTarget - gasUsed) / gasTarget / 8
      max (satSub current delta) 1

/-! ## The base fee over unbounded integers -/

section

variable (current target : ℕ) {used less : ℕ}

end

section

variable {current used target : UInt64} (htarget : target ≠ 0)
include htarget

end

/-- `gas::effective_prices`: the effective price, the base fee and the tip, per gas. -/
def effectivePrices (baseFee maxFee maxPriority : UInt64) : UInt64 × UInt64 × UInt64 :=
  let maxTip := satSub maxFee baseFee
  let priority := min maxPriority maxTip
  (baseFee + priority, baseFee, priority)

/-! ## Payloads -/

/-- The `White_Space` property, which `str::split_whitespace` splits at. -/
def isWhiteSpace (c : Char) : Bool :=
  let n := c.toNat
  (9 ≤ n && n ≤ 13) || n == 0x20 || n == 0x85 || n == 0xA0 || n == 0x1680 ||
    (0x2000 ≤ n && n ≤ 0x200A) || n == 0x2028 || n == 0x2029 || n == 0x202F || n == 0x205F ||
    n == 0x3000

/-- `str::split_whitespace`. -/
def splitWhitespace (s : String) : List String :=
  ((s.toList.splitOnP isWhiteSpace).filter (· ≠ [])).map String.ofList

/-- `str::as_bytes`. -/
def asBytes (s : String) : List UInt8 := s.toUTF8.toList

/-- `kv::apply_kv_payload`. -/
def applyKvPayload (kv : Std.ExtTreeMap (List UInt8) (List UInt8)) (payload : List UInt8) :
    Except String (Std.ExtTreeMap (List UInt8) (List UInt8)) :=
  match String.fromUTF8? ⟨payload.toArray⟩ with
  | none => .error "invalid UTF-8"
  | some s =>
    match splitWhitespace s with
    | [] => .error "empty payload"
    | "set" :: key :: word :: words =>
      .ok (kv.insert (asBytes key) (asBytes (" ".intercalate (word :: words))))
    | ["del", key] => .ok (kv.erase (asBytes key))
    | command :: _ => .error ("unknown KV command: " ++ command)

section

variable (P : Primitives) (cfg : ExecutionConfig)

/-- The prefix `b"evm_unified "` of an EVM payload. -/
def evmMarker : List UInt8 := [101, 118, 109, 95, 117, 110, 105, 102, 105, 101, 100, 32]

/-- `evm::execute_evm_payload`. -/
def executeEvmPayload (state : KvState) (tx : Tx) (baseFeePerGas chainId : UInt64) :
    Except ExecutionError (KvState × UnifiedEvmResult) :=
  if !cfg.enableEvm then .error (.evmError "EVM execution disabled")
  else
    let hexPayload := if evmMarker.isPrefixOf tx.payload then tx.payload.drop evmMarker.length
      else []
    match (hexDecode hexPayload).bind
        (P.executeEvm state · baseFeePerGas chainId cfg.evmGasLimit) with
    | none => .error (.evmError "failed to decode EVM transaction")
    | some result => .ok result

/-- `verify::verify_tx_signature`. -/
def verifyTxSignature (tx : Tx) : Except ExecutionError String :=
  let derivedAddr := P.deriveAddress tx.pubkey
  if tx.sender ≠ derivedAddr then .error (.addressMismatch derivedAddr tx.sender)
  else if !P.verifyEd25519 tx.pubkey (P.txSignBytes tx) tx.signature then .error .invalidSignature
  else .ok derivedAddr

/-! ## Transactions -/

/-- `apply_tx` step 10: run the payload; success, output and gas beyond the intrinsic part. -/
def runPayload (working : KvState) (tx : Tx) (baseFeePerGas intrinsic : UInt64) :
    KvState × Bool × List UInt8 × UInt64 :=
  if evmMarker.isPrefixOf tx.payload then
    match executeEvmPayload P cfg working tx baseFeePerGas cfg.chainId with
    | .ok (working, result) =>
      (working, result.success, result.returnData, satSub result.gasUsed intrinsic)
    | .error _ => (working, false, [], 0)
  else
    match applyKvPayload working.kv tx.payload with
    | .ok kv => ({ working with kv }, true, [], 0)
    | .error _ => (working, false, [], 0)

/-- `apply_tx` steps 7 to 10 and the receipt, for a transaction that passed the checks. -/
def chargeAndRun (working : KvState) (tx : Tx) (baseFeePerGas : UInt64) (proposerAddr : String)
    (fromAddr : String) (expectedNonce intrinsic : UInt64) :
    Except ExecutionError (Receipt × KvState) :=
  let (effectiveGasPrice, _, tipPerGas) :=
    effectivePrices baseFeePerGas tx.maxFeePerGas tx.maxPriorityFeePerGas
  let totalGasCost := intrinsic * effectiveGasPrice
  let burned := intrinsic * baseFeePerGas
  let tip := intrinsic * tipPerGas
  let balance := working.balances[fromAddr]?.getD 0
  if balance < totalGasCost then .error (.insufficientBalance totalGasCost balance)
  else
    let balances := working.balances.insert fromAddr (balance - totalGasCost)
    let balances := balances.insert proposerAddr (balances[proposerAddr]?.getD 0 + tip)
    let working := { working with
      balances
      burned := working.burned + burned
      nonces := working.nonces.insert fromAddr (expectedNonce + 1) }
    let (working, success, output, execGasUsed) := runPayload P cfg working tx baseFeePerGas
      intrinsic
    let totalGasUsed := intrinsic + execGasUsed
    let refund := satSub tx.gasLimit totalGasUsed
    let refunded := working.balances[fromAddr]?.getD 0 + refund * effectiveGasPrice
    let working := if refund > 0 then
        { working with balances := working.balances.insert fromAddr refunded }
      else working
    .ok ({ txHash := P.txHash tx
           success
           gasUsed := totalGasUsed
           intrinsicGasUsed := intrinsic
           execGasUsed
           vmGasUsed := 0
           evmGasUsed := if success then execGasUsed else 0
           effectiveGasPrice
           burned
           tip
           error := if success then none else some "execution failed"
           data := some output }, working)

/-- `block::apply_tx`. -/
def applyTx (state : KvState) (tx : Tx) (baseFeePerGas : UInt64) (proposerAddr : String) :
    Except ExecutionError (Receipt × KvState) := do
  let fromAddr ← if cfg.verifySignatures then verifyTxSignature P tx
    else .ok (P.deriveAddress tx.pubkey)
  if cfg.chainId ≠ tx.chainId then throw (.chainIdMismatch cfg.chainId tx.chainId)
  let expectedNonce := state.nonces[fromAddr]?.getD 0
  if tx.nonce ≠ expectedNonce then throw (.nonceMismatch expectedNonce tx.nonce)
  if tx.payload.length > cfg.maxPayloadSize then
    throw (.payloadTooLarge tx.payload.length cfg.maxPayloadSize)
  let intrinsic := intrinsicGas tx
  if tx.gasLimit < intrinsic then throw (.gasLimitTooLow tx.gasLimit intrinsic)
  if tx.maxFeePerGas < baseFeePerGas then throw (.feeTooLow tx.maxFeePerGas baseFeePerGas)
  chargeAndRun P cfg state tx baseFeePerGas proposerAddr fromAddr expectedNonce intrinsic

/-- The loop of `build_block` and `verify_block`: apply the transactions in order, collecting
receipts and gas. -/
def applyTxs (baseFeePerGas : UInt64) (proposerAddr : String) :
    KvState → List Tx → Except ExecutionError (KvState × List Receipt × UInt64)
  | state, [] => .ok (state, [], 0)
  | state, tx :: txs => do
    let (receipt, state) ← applyTx P cfg state tx baseFeePerGas proposerAddr
    let (state, receipts, gasUsed) ← applyTxs baseFeePerGas proposerAddr state txs
    .ok (state, receipt :: receipts, receipt.gasUsed + gasUsed)

/-! ## Roots -/

/-- The bytes that `root::compute_state_root` hashes. -/
def stateRootBytes (state : KvState) : List UInt8 :=
  state.kv.toList.flatMap (fun e => e.1 ++ e.2) ++
    state.balances.toList.flatMap (fun e => asBytes e.1 ++ le64 e.2) ++
    state.nonces.toList.flatMap (fun e => asBytes e.1 ++ le64 e.2) ++ le64 state.burned

/-- `root::compute_state_root`. -/
def computeStateRoot (state : KvState) : Hash32 := P.blake3 (stateRootBytes state)

/-- `root::compute_tx_root`. -/
def computeTxRoot (txs : List Tx) : Hash32 := P.blake3 (txs.flatMap fun tx => (P.txHash tx).toList)

/-- `root::compute_receipts_root` and `compute_receipts_root_from_receipts`. -/
def computeReceiptsRoot (receipts : List Receipt) : Hash32 :=
  P.blake3 (receipts.flatMap P.encodeReceipt)

/-! ## Blocks -/

/-- `block::build_block`; `timestamp` is the value of `uptime_ms()`. -/
def buildBlock (height : Height) (round : Round) (parentId : Hash32) (proposerPk : PublicKeyBytes)
    (proposerAddr : String) (state : KvState) (baseFee : UInt64) (txs : List Tx)
    (timestamp : UInt64) : Except ExecutionError (Block × KvState × List Receipt) := do
  let (newState, receipts, gasUsed) ← applyTxs P cfg baseFee proposerAddr state txs
  let header : BlockHeader := {
    height
    round
    prev := parentId
    proposerPk
    proposerAddr
    txRoot := computeTxRoot P txs
    receiptsRoot := computeReceiptsRoot P receipts
    stateRoot := computeStateRoot P newState
    baseFeePerGas := baseFee
    gasUsed
    intrinsicGasUsed := (receipts.map (·.intrinsicGasUsed)).sum
    execGasUsed := (receipts.map (·.execGasUsed)).sum
    vmGasUsed := (receipts.map (·.vmGasUsed)).sum
    evmGasUsed := (receipts.map (·.evmGasUsed)).sum
    chainId := cfg.chainId
    timestamp
    protocolVersion := P.protocolVersion }
  .ok ({ header, txs }, newState, receipts)

/-- `block::verify_block`. -/
def verifyBlock (state : KvState) (block : Block) (expectedProposerPk : PublicKeyBytes)
    (proposerAddr : String) : Except ExecutionError (KvState × List Receipt) := do
  let header := block.header
  if header.proposerPk ≠ expectedProposerPk then
    throw (.proposerMismatch (hexEncode expectedProposerPk) (hexEncode header.proposerPk))
  if header.proposerAddr ≠ proposerAddr then
    throw (.proposerMismatch proposerAddr header.proposerAddr)
  if header.chainId ≠ cfg.chainId then
    throw (.chainIdMismatch cfg.chainId header.chainId)
  let (newState, receipts, gasUsed) ←
    applyTxs P cfg header.baseFeePerGas proposerAddr state block.txs
  if cfg.verifyStateRoots && gasUsed ≠ header.gasUsed then
    throw (.gasUsedMismatch header.gasUsed gasUsed)
  let txRoot := computeTxRoot P block.txs
  if cfg.verifyTxRoots && txRoot ≠ header.txRoot then
    throw (.txRootMismatch (hexEncode header.txRoot.toList) (hexEncode txRoot.toList))
  let receiptsRoot := computeReceiptsRoot P receipts
  if receiptsRoot ≠ header.receiptsRoot then
    throw (.verificationFailed ("receipts root mismatch: expected " ++
      hexEncode header.receiptsRoot.toList ++ ", got " ++ hexEncode receiptsRoot.toList))
  let stateRoot := computeStateRoot P newState
  if cfg.verifyStateRoots && stateRoot ≠ header.stateRoot then
    throw (.stateRootMismatch (hexEncode header.stateRoot.toList) (hexEncode stateRoot.toList))
  return (newState, receipts)

theorem buildBlock_header {height : Height} {round : Round} {parentId : Hash32}
    {proposerPk : PublicKeyBytes} {proposerAddr : String} {state newState : KvState}
    {baseFee timestamp : UInt64} {txs : List Tx} {block : Block} {receipts : List Receipt}
    (h : buildBlock P cfg height round parentId proposerPk proposerAddr state baseFee txs
      timestamp = .ok (block, newState, receipts)) :
    block.txs = txs ∧ block.header.height = height ∧ block.header.prev = parentId ∧
      block.header.baseFeePerGas = baseFee := by
  unfold buildBlock at h
  cases htxs : applyTxs P cfg baseFee proposerAddr state txs with
  | error => simp [htxs, bind, Except.bind] at h
  | ok =>
    simp only [htxs, bind, Except.bind, Except.ok.injEq, Prod.mk.injEq] at h
    obtain ⟨rfl, -, -⟩ := h
    exact ⟨rfl, rfl, rfl, rfl⟩

end

end IonaOs
