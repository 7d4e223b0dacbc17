import IonaOs.Money

/-!
# What a header commits to
-/

namespace IonaOs

open Lib Sample List

variable (P : Primitives) (cfg : ExecutionConfig)

/-! ## Building and verifying -/

variable {P cfg} {height : Height} {round : Round} {parentId : Hash32}
  {proposerPk : PublicKeyBytes} {proposerAddr : String} {state newState : KvState}
  {baseFee timestamp : UInt64} {txs : List Tx} {block : Block} {receipts : List Receipt}

structure Commits (P : Primitives) (cfg : ExecutionConfig) (proposerPk : PublicKeyBytes)
    (proposerAddr : String) (state : KvState) (block : Block) (newState : KvState)
    (receipts : List Receipt) : Prop where
  key : block.header.proposerPk = proposerPk
  addr : block.header.proposerAddr = proposerAddr
  chainId : block.header.chainId = cfg.chainId
  run : applyTxs P cfg block.header.baseFeePerGas proposerAddr state block.txs =
    .ok (newState, receipts, block.header.gasUsed)
  txRoot : block.header.txRoot = computeTxRoot P block.txs
  receiptsRoot : block.header.receiptsRoot = computeReceiptsRoot P receipts
  stateRoot : block.header.stateRoot = computeStateRoot P newState

theorem commits_of_buildBlock
    (h : buildBlock P cfg height round parentId proposerPk proposerAddr state baseFee txs
      timestamp = .ok (block, newState, receipts)) :
    Commits P cfg proposerPk proposerAddr state block newState receipts := by
  unfold buildBlock at h
  cases htxs : applyTxs P cfg baseFee proposerAddr state txs with
  | error => simp [htxs, bind, Except.bind] at h
  | ok =>
    simp only [htxs, bind, Except.bind, Except.ok.injEq, Prod.mk.injEq] at h
    obtain ⟨rfl, rfl, rfl⟩ := h
    exact ⟨rfl, rfl, rfl, htxs, rfl, rfl, rfl⟩

theorem Commits.verifyBlock_eq
    (h : Commits P cfg proposerPk proposerAddr state block newState receipts) :
    verifyBlock P cfg state block proposerPk proposerAddr = .ok (newState, receipts) := by
  simp [verifyBlock, h.key, h.addr, h.chainId, h.run, h.txRoot, h.receiptsRoot,
    h.stateRoot, bind, Except.bind, pure, Except.pure]

/-- **Proposer and verifier agree.**  A block that `build_block` returns passes `verify_block` on
the same initial state, with the same state after it and the same receipts. -/
theorem verifyBlock_of_buildBlock
    (h : buildBlock P cfg height round parentId proposerPk proposerAddr state baseFee txs
      timestamp = .ok (block, newState, receipts)) :
    verifyBlock P cfg state block proposerPk proposerAddr = .ok (newState, receipts) := by
  have hcommits := commits_of_buildBlock h
  exact hcommits.verifyBlock_eq

/-- A block with two transactions. -/
theorem verifyBlock_of_buildBlock_setKey : ∃ txs block newState receipts,
    txs = [setKey 40000, { setKey 40000 with nonce := 1 }] ∧
    buildBlock oneAccount {} 1 0 (.replicate 32 0) [1] "proposer" aliceState 10 txs 0 =
      .ok (block, newState, receipts) ∧ receipts.length = 2 ∧
    verifyBlock oneAccount {} aliceState block [1] "proposer" = .ok (newState, receipts) := by
  have hrun : (buildBlock oneAccount {} 1 0 (.replicate 32 0) [1] "proposer" aliceState 10
      [setKey 40000, { setKey 40000 with nonce := 1 }] 0).toOption.map (fun r => r.2.2.length) =
        some 2 := by decide +kernel
  rcases h : buildBlock oneAccount {} 1 0 (.replicate 32 0) [1] "proposer" aliceState 10
      [setKey 40000, { setKey 40000 with nonce := 1 }] 0 with _ | ⟨block, newState, receipts⟩
  · rw [h] at hrun
    cases hrun
  · rw [h] at hrun
    exact ⟨_, block, newState, receipts, rfl, h, Option.some.inj hrun, verifyBlock_of_buildBlock h⟩

/-! ## The state root -/

def KvState.single (key value : List UInt8) (burned : UInt64) : KvState :=
  ⟨Std.ExtTreeMap.insert ∅ key value, ∅, ∅, burned⟩

theorem stateRootBytes_single (key value : List UInt8) (burned : UInt64) :
    stateRootBytes (.single key value burned) = key ++ value ++ le64 burned := by
  have hperm := toList_insert_perm (∅ : Std.ExtTreeMap (List UInt8) (List UInt8)) key value
  simp only [toList_empty, filter_nil, perm_singleton] at hperm
  simp [stateRootBytes, KvState.single, hperm]

theorem stateRootBytes_none (burned : UInt64) : stateRootBytes ⟨∅, ∅, ∅, burned⟩ = le64 burned := by
  simp [stateRootBytes]

theorem exists_two_states (content : List UInt8) (burned : UInt64) : ∃ s s' : KvState, s ≠ s' ∧
    stateRootBytes s = content ++ le64 burned ∧ stateRootBytes s' = content ++ le64 burned := by
  by_cases hc : content = []
  · refine ⟨.single [] [] burned, ⟨∅, ∅, ∅, burned⟩, ?_, ?_, ?_⟩
    · intro heq
      have hkv := congrArg (fun s : KvState => s.kv[([] : List UInt8)]?) heq
      simp [KvState.single] at hkv
    · rw [stateRootBytes_single, hc, append_nil]
    · rw [stateRootBytes_none, hc, nil_append]
  · refine ⟨.single content [] burned, .single [] content burned, ?_, ?_, ?_⟩
    · intro heq
      have hkv := congrArg (fun s : KvState => s.kv[([] : List UInt8)]?) heq
      simp [KvState.single, hc] at hkv
    · rw [stateRootBytes_single, append_nil]
    · rw [stateRootBytes_single, nil_append]

/-- **The state root binds no state.**  Every state has another one for which
`compute_state_root` hashes the same bytes, so the two have one root under every hash. -/
theorem stateRoot_shared (state : KvState) : ∃ other, other ≠ state ∧
    stateRootBytes other = stateRootBytes state ∧
    ∀ P, computeStateRoot P other = computeStateRoot P state := by
  obtain ⟨content, hcontent⟩ :
      ∃ content, stateRootBytes state = content ++ le64 state.burned := ⟨_, rfl⟩
  obtain ⟨s, s', hne, hs, hs'⟩ := exists_two_states content state.burned
  have hother : ∃ other, other ≠ state ∧ stateRootBytes other = stateRootBytes state := by
    by_cases heq : s = state
    · exact ⟨s', by rw [← heq]; exact hne.symm, by rw [hs', hcontent]⟩
    · exact ⟨s, heq, by rw [hs, hcontent]⟩
  obtain ⟨other, hdiffer, hbytes⟩ := hother
  refine ⟨other, hdiffer, hbytes, fun P => ?_⟩
  rw [computeStateRoot, computeStateRoot, hbytes]

/-- The key `a` with the value `bc`, and the key `ab` with the value `c`. -/
theorem stateRootBytes_moved_boundary :
    KvState.single [97] [98, 99] 0 ≠ KvState.single [97, 98] [99] 0 ∧
    stateRootBytes (.single [97] [98, 99] 0) = stateRootBytes (.single [97, 98] [99] 0) := by
  constructor
  · intro heq
    have hkv := congrArg (fun s : KvState => s.kv[([97] : List UInt8)]?) heq
    revert hkv
    decide +kernel
  · rw [stateRootBytes_single, stateRootBytes_single]
    rfl

end IonaOs
