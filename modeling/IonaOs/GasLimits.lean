import IonaOs.Commitment

/-!
# Gas limits
-/

namespace IonaOs

open Lib

section

variable (P : Primitives) (cfg : ExecutionConfig) (baseFee : UInt64) (proposerAddr : String)

def evmReport (state : KvState) (tx : Tx) : UInt64 :=
  let working := chargedState state tx baseFee proposerAddr (P.deriveAddress tx.pubkey)
  if evmMarker.isPrefixOf tx.payload then
    match executeEvmPayload P cfg working tx baseFee cfg.chainId with
    | .ok (_, result) => result.gasUsed
    | .error _ => 0
  else 0

def gasOf (state : KvState) (tx : Tx) : ℕ :=
  max (intrinsicGas tx).toNat (evmReport P cfg baseFee proposerAddr state tx).toNat

def gasOfAll : KvState → List Tx → ℕ
  | _, [] => 0
  | state, tx :: txs =>
    gasOf P cfg baseFee proposerAddr state tx +
      match applyTx P cfg state tx baseFee proposerAddr with
      | .ok (_, state) => gasOfAll state txs
      | .error _ => 0

end

def receiptsGas (receipts : List Receipt) : ℕ := (receipts.map (·.gasUsed.toNat)).sum

structure WithinGas (cfg : ExecutionConfig) (block : Block) (receipts : List Receipt) :
    Prop where
  fits : receiptsGas receipts < 2 ^ 64
  total : receiptsGas receipts ≤ cfg.gasLimit.toNat
  header : block.header.gasUsed ≤ cfg.gasLimit

variable {P : Primitives} {cfg : ExecutionConfig} {baseFee timestamp : UInt64}
  {proposerAddr : String} {state newState : KvState} {tx : Tx} {txs : List Tx} {receipt : Receipt}
  {receipts : List Receipt} {gasUsed : UInt64} {block : Block} {height : Height} {round : Round}
  {parentId : Hash32} {proposerPk : PublicKeyBytes}

/-! ## Receipts -/

theorem execGas_eq : (runPayload P cfg
      (chargedState state tx baseFee proposerAddr (P.deriveAddress tx.pubkey)) tx baseFee
      (intrinsicGas tx)).2.2.2 =
        satSub (evmReport P cfg baseFee proposerAddr state tx) (intrinsicGas tx) := by
  have hzero : satSub 0 (intrinsicGas tx) = 0 := by
    apply UInt64.toNat_inj.mp
    simp [toNat_satSub]
  unfold runPayload evmReport
  by_cases hevm : evmMarker.isPrefixOf tx.payload = true
  · simp only [hevm, if_true]
    cases executeEvmPayload P cfg
        (chargedState state tx baseFee proposerAddr (P.deriveAddress tx.pubkey)) tx baseFee
        cfg.chainId with
    | error e => exact hzero.symm
    | ok r => rfl
  · simp only [hevm, if_false, Bool.false_eq_true, hzero]
    cases applyKvPayload (chargedState state tx baseFee proposerAddr
      (P.deriveAddress tx.pubkey)).kv tx.payload <;> rfl

section

variable (h : applyTx P cfg state tx baseFee proposerAddr = .ok (receipt, newState))
include h

theorem receipt_gasUsed : receipt.gasUsed.toNat = gasOf P cfg baseFee proposerAddr state tx := by
  rw [(applyTx_runPayload P cfg h).2, execGas_eq, UInt64.toNat_add, toNat_satSub, gasOf]
  have hreport := (evmReport P cfg baseFee proposerAddr state tx).toNat_lt
  have hintrinsic := (intrinsicGas tx).toNat_lt
  omega

end

/-! ## Blocks -/

theorem applyTxs_gas
    (h : applyTxs P cfg baseFee proposerAddr state txs = .ok (newState, receipts, gasUsed)) :
    receiptsGas receipts = gasOfAll P cfg baseFee proposerAddr state txs ∧
      gasUsed.toNat = gasOfAll P cfg baseFee proposerAddr state txs % 2 ^ 64 := by
  induction txs generalizing state newState receipts gasUsed with
  | nil =>
    simp only [applyTxs, Except.ok.injEq, Prod.mk.injEq] at h
    obtain ⟨-, rfl, rfl⟩ := h
    simp [receiptsGas, gasOfAll]
  | cons tx txs ih =>
    simp only [applyTxs, bind, Except.bind] at h
    cases htx : applyTx P cfg state tx baseFee proposerAddr with
    | error => simp [htx] at h
    | ok r =>
      obtain ⟨head, next⟩ := r
      simp only [htx] at h
      cases hrest : applyTxs P cfg baseFee proposerAddr next txs with
      | error => simp [hrest] at h
      | ok r =>
        obtain ⟨last, tail, gas⟩ := r
        simp only [hrest, Except.ok.injEq, Prod.mk.injEq] at h
        obtain ⟨rfl, rfl, rfl⟩ := h
        obtain ⟨hsum, hmod⟩ := ih hrest
        have hhead := receipt_gasUsed htx
        have hcons : receiptsGas (head :: tail) =
            head.gasUsed.toNat + receiptsGas tail := by simp [receiptsGas]
        simp only [gasOfAll, htx, UInt64.toNat_add]
        omega

theorem buildBlock_within_iff
    (h : buildBlock P cfg height round parentId proposerPk proposerAddr state baseFee txs
      timestamp = .ok (block, newState, receipts)) :
    WithinGas cfg block receipts ↔
      gasOfAll P cfg baseFee proposerAddr state txs ≤ cfg.gasLimit.toNat := by
  obtain ⟨hsum, hmod⟩ := applyTxs_gas (commits_of_buildBlock h).run
  obtain ⟨rfl, -, -, rfl⟩ := buildBlock_header P cfg h
  have hlt := cfg.gasLimit.toNat_lt
  constructor
  · intro hwithin
    exact hsum ▸ hwithin.total
  intro hle
  refine ⟨by omega, by omega, ?_⟩
  rw [UInt64.le_iff_toNat_le]
  omega

section

variable (h : verifyBlock P cfg state block proposerPk proposerAddr = .ok (newState, receipts))
include h

theorem verifyBlock_run :
    ∃ gasUsed, applyTxs P cfg block.header.baseFeePerGas proposerAddr state block.txs =
        .ok (newState, receipts, gasUsed) ∧
      (cfg.verifyStateRoots = true → gasUsed = block.header.gasUsed) := by
  simp only [verifyBlock, bind, Except.bind, throw, throwThe, MonadExceptOf.throw, pure,
    Except.pure] at h
  repeat' split at h
  all_goals cases h
  rename_i run hrun hgas _ _ _
  refine ⟨run.2.2, hrun, ?_⟩
  intro hverify
  simpa [hverify] using hgas

theorem verifyBlock_within_iff : WithinGas cfg block receipts ↔
      gasOfAll P cfg block.header.baseFeePerGas proposerAddr state block.txs ≤
          cfg.gasLimit.toNat ∧
        (cfg.verifyStateRoots = true ∨ block.header.gasUsed ≤ cfg.gasLimit) := by
  obtain ⟨gasUsed, hrun, hgas⟩ := verifyBlock_run h
  obtain ⟨hsum, hmod⟩ := applyTxs_gas hrun
  have hlt := cfg.gasLimit.toNat_lt
  constructor
  · intro hwithin
    exact ⟨hsum ▸ hwithin.total, .inr hwithin.header⟩
  intro hle
  refine ⟨by omega, by omega, ?_⟩
  rcases hle.2 with hverify | hheader
  · rw [← hgas hverify, UInt64.le_iff_toNat_le]
    omega
  · exact hheader

end

/-- **Gas limits.**  The gas on a receipt keeps to the limit of the transaction exactly when the gas
that the EVM reports does.  A block that is built, or accepted, keeps to the limit for blocks
exactly when the gas of its transactions adds up to no more; with the check of the gas turned off,
its header must keep to the limit too. -/
theorem gas_limits_iff (P : Primitives) (cfg : ExecutionConfig) :
    (∀ state tx baseFee proposerAddr receipt newState,
      applyTx P cfg state tx baseFee proposerAddr = .ok (receipt, newState) →
        (receipt.gasUsed ≤ tx.gasLimit ↔
          evmReport P cfg baseFee proposerAddr state tx ≤ tx.gasLimit)) ∧
    (∀ height round parentId proposerPk proposerAddr state baseFee txs timestamp block newState
      receipts,
      buildBlock P cfg height round parentId proposerPk proposerAddr state baseFee txs
          timestamp = .ok (block, newState, receipts) →
        (WithinGas cfg block receipts ↔
          gasOfAll P cfg baseFee proposerAddr state txs ≤ cfg.gasLimit.toNat)) ∧
    ∀ state block proposerPk proposerAddr newState receipts,
      verifyBlock P cfg state block proposerPk proposerAddr = .ok (newState, receipts) →
        (WithinGas cfg block receipts ↔
          gasOfAll P cfg block.header.baseFeePerGas proposerAddr state block.txs ≤
              cfg.gasLimit.toNat ∧
            (cfg.verifyStateRoots = true ∨ block.header.gasUsed ≤ cfg.gasLimit)) := by
  refine ⟨?_, ?_, ?_⟩
  · intro state tx baseFee proposerAddr receipt newState h
    have hlimit := (applyTx_ok P cfg h).2.1
    simp only [UInt64.le_iff_toNat_le] at hlimit ⊢
    rw [receipt_gasUsed h, gasOf]
    omega
  · intro height round parentId proposerPk proposerAddr state baseFee txs timestamp block newState
      receipts h
    exact buildBlock_within_iff h
  · intro state block proposerPk proposerAddr newState receipts h
    exact verifyBlock_within_iff h

/-! ### Samples -/

namespace Sample

def fullGas : Primitives :=
  { oneAccount with executeEvm := fun state _ _ _ gasLimit => some (state, ⟨true, gasLimit, []⟩) }

def evmTx (nonce : UInt64) : Tx :=
  { setKey 100000 with nonce, payload := evmMarker, maxFeePerGas := 0, maxPriorityFeePerGas := 0 }

def sixEvmTxs : List Tx := [evmTx 0, evmTx 1, evmTx 2, evmTx 3, evmTx 4, evmTx 5]

end Sample

open Sample in
/-- **Both limits are exceeded**, with the default configuration and an EVM that keeps to the limit
that it is given: a receipt shows 15000000 gas under a limit of 100000, and a block with 90000000
gas is built, and accepted, under a limit of 86000000. -/
theorem gas_limits_exceeded :
    (∀ s bytes baseFee chainId limit r,
      fullGas.executeEvm s bytes baseFee chainId limit = some r → r.2.gasUsed ≤ limit) ∧
    (∃ receipt newState,
      applyTx fullGas {} aliceState (evmTx 0) 0 "proposer" = .ok (receipt, newState) ∧
      receipt.gasUsed = 15000000 ∧ (evmTx 0).gasLimit = 100000) ∧
    ∃ block newState receipts,
      buildBlock fullGas {} 1 0 (.replicate 32 0) [1] "proposer" aliceState 0 sixEvmTxs 0 =
        .ok (block, newState, receipts) ∧
      verifyBlock fullGas {} aliceState block [1] "proposer" = .ok (newState, receipts) ∧
      block.header.gasUsed = 90000000 ∧ ({} : ExecutionConfig).gasLimit = 86000000 := by
  refine ⟨?_, ?_, ?_⟩
  · intro s bytes baseFee chainId limit r h
    cases h
    exact UInt64.le_refl _
  · have hrun : (applyTx fullGas {} aliceState (evmTx 0) 0 "proposer").toOption.map
        (·.1.gasUsed) = some 15000000 := by decide +kernel
    cases h : applyTx fullGas {} aliceState (evmTx 0) 0 "proposer" with
    | error =>
      rw [h] at hrun
      cases hrun
    | ok r =>
      rw [h] at hrun
      exact ⟨r.1, r.2, rfl, Option.some.inj hrun, rfl⟩
  · have hrun : (buildBlock fullGas {} 1 0 (.replicate 32 0) [1] "proposer" aliceState 0 sixEvmTxs
        0).toOption.map (·.1.header.gasUsed) = some 90000000 := by decide +kernel
    cases h : buildBlock fullGas {} 1 0 (.replicate 32 0) [1] "proposer" aliceState 0 sixEvmTxs
        0 with
    | error e =>
      rw [h] at hrun
      cases hrun
    | ok r =>
      rw [h] at hrun
      refine ⟨r.1, r.2.1, r.2.2, rfl, ?_, Option.some.inj hrun, rfl⟩
      exact (commits_of_buildBlock h).verifyBlock_eq

end IonaOs
