import Mathlib

/-!
# Types of the chain
-/

namespace IonaOs

/-- `Height(pub u64)`. -/
abbrev Height := UInt64

/-- `Round(pub u32)`. -/
abbrev Round := UInt32

/-- `Hash32(pub [u8; 32])`. -/
abbrev Hash32 := Vector UInt8 32

/-- `PublicKeyBytes(pub Vec<u8>)`. -/
abbrev PublicKeyBytes := List UInt8

/-- `SignatureBytes(pub Vec<u8>)`. -/
abbrev SignatureBytes := List UInt8

/-- `type TaskId = u64`. -/
abbrev Process.TaskId := UInt64

structure Tx where
  pubkey : List UInt8
  sender : String
  nonce : UInt64
  maxFeePerGas : UInt64
  maxPriorityFeePerGas : UInt64
  gasLimit : UInt64
  payload : List UInt8
  signature : SignatureBytes
  chainId : UInt64
deriving DecidableEq

structure Receipt where
  txHash : Hash32
  success : Bool
  gasUsed : UInt64
  intrinsicGasUsed : UInt64
  execGasUsed : UInt64
  vmGasUsed : UInt64
  evmGasUsed : UInt64
  effectiveGasPrice : UInt64
  burned : UInt64
  tip : UInt64
  error : Option String
  data : Option (List UInt8)

structure BlockHeader where
  height : Height
  round : Round
  prev : Hash32
  proposerPk : List UInt8
  proposerAddr : String
  txRoot : Hash32
  receiptsRoot : Hash32
  stateRoot : Hash32
  baseFeePerGas : UInt64
  gasUsed : UInt64
  intrinsicGasUsed : UInt64
  execGasUsed : UInt64
  vmGasUsed : UInt64
  evmGasUsed : UInt64
  chainId : UInt64
  timestamp : UInt64
  protocolVersion : UInt32
deriving DecidableEq

structure Block where
  header : BlockHeader
  txs : List Tx
deriving DecidableEq

structure KvState where
  kv : Std.ExtTreeMap (List UInt8) (List UInt8)
  balances : Std.ExtTreeMap String UInt64
  nonces : Std.ExtTreeMap String UInt64
  burned : UInt64

def KvState.empty : KvState := ⟨∅, ∅, ∅, 0⟩

end IonaOs
