import IonaOs.Consensus.Engine

/-!
# A runtime that computes
-/

namespace IonaOs

namespace Sample

def blockId (b : Block) : Hash32 :=
  ((((Vector.replicate 32 0).set 0 (UInt8.ofNat b.header.height.toNat)
    (Nat.succ_pos 31)).set 1 (UInt8.ofNat b.header.round.toNat)).set 2
    (UInt8.ofNat b.header.baseFeePerGas.toNat)).set 3 (b.header.prev.get 0)

def block (height : Height) (round : Round) (prev : Hash32) (proposerPk : PublicKeyBytes)
    (baseFee : UInt64) : Block where
  header := {
    height, round, prev, proposerPk
    proposerAddr := ""
    txRoot := .replicate 32 0
    receiptsRoot := .replicate 32 0
    stateRoot := .replicate 32 0
    baseFeePerGas := baseFee
    gasUsed := 0
    intrinsicGasUsed := 0
    execGasUsed := 0
    vmGasUsed := 0
    evmGasUsed := 0
    chainId := 6126151
    timestamp := 0
    protocolVersion := 1 }
  txs := []

structure Store where
  blocks : List Block

instance : BlockStore Store where
  get s id := s.blocks.find? (blockId · = id)
  put s b := ⟨b :: s.blocks⟩

def signer (k : UInt8) : Signer := ⟨[k], fun m => [k] ++ m⟩

def primitives : Primitives where
  verifyEd25519 pk m sig := sig == pk ++ m
  deriveAddress _ := ""
  txSignBytes tx := tx.payload
  txHash _ := .replicate 32 0
  blake3 _ := .replicate 32 0
  encodeReceipt _ := []
  executeEvm _ _ _ _ _ := none
  protocolVersion := 1

def runtime : Runtime where
  verify pk m sig := sig == pk ++ m
  deriveAddress _ := ""
  blockId := blockId
  buildBlock height round prev pk addr state fee txs now :=
    (buildBlock primitives {} height round prev pk addr state fee txs now).toOption.map (·.1)
  verifyBlockWithVset state b addr expected :=
    (verifyBlock primitives {} state b expected addr).toOption
  encodeSigned _ := .ok []

def genesis : Hash32 := .replicate 32 9

def node (dsGuard : Option DoubleSignGuard) : Node Store where
  cfg := {}
  vset := .three
  state := .new 0
  prevBlockId := genesis
  appState := .empty
  stakes := ⟨∅, 0, 0, {}⟩
  baseFeePerGas := 1
  dsGuard := dsGuard
  stepElapsedMs := 0
  store := ⟨[]⟩
  outbox := []

theorem node_initial (dsGuard : Option DoubleSignGuard) : (node dsGuard).Initial :=
  ⟨rfl, {}, .three, 0, genesis, .empty, ⟨∅, 0, 0, {}⟩, dsGuard, rfl⟩

/-- A vote of validator `[k]` at height 0. -/
def vote (k : UInt8) (voteType : VoteType) (round : Round) (bid : Option Hash32) : Vote :=
  ⟨voteType, 0, round, [k], bid, [k] ++ voteSignBytes voteType 0 round bid⟩

/-- The block that validator `[k]` builds on the genesis at height 0. -/
def firstBlock (k : UInt8) (round : Round) : Block := block 0 round genesis [k] 1

/-- A prevote of validator `[k]` for the block that `[j]` builds in a round, in that round. -/
def prevote (k j : UInt8) (round : Round) : Vote :=
  vote k .prevote round (some (blockId (firstBlock j round)))

/-- A precommit of validator `[k]` for the block that `[j]` builds in a round, in that round. -/
def precommit (k j : UInt8) (round : Round) : Vote :=
  vote k .precommit round (some (blockId (firstBlock j round)))

/-- A proposal of validator `[k]` at height 0. -/
def proposal (k : UInt8) (round : Round) (b : Block) (polRound : Option Round) : Proposal :=
  ⟨0, round, [k], blockId b, some b, polRound,
    [k] ++ proposalSignBytes 0 round (blockId b) polRound⟩

def deliver (v : Vote) : Event := .message (.vote v) 0

def propose (p : Proposal) : Event := .message (.proposal p) 0

def wait (ms : UInt64) : Event := .tick ms (fun _ => []) 0

end Sample

end IonaOs
