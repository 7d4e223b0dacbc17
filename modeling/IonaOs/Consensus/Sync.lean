import IonaOs.Lib.Run
import IonaOs.Lib.Word
import IonaOs.Types

/-!
# Block sync
-/

namespace IonaOs

open Lib

/-! ## Configuration and messages -/

inductive SyncError where
  | noPeers
  | timeout (ms : UInt64)
  | io (reason : String)
  | serialization (reason : String)
  | invalidBlock (height : UInt64) (reason : String)
  | blockApplicationFailed (height : UInt64) (reason : String)
  | network (reason : String)
  | alreadySyncing
  | inconsistentData (height : UInt64)
  | metrics (reason : String)
  | config (reason : String)

def SyncError.display : SyncError → String
  | .noPeers => "no peers available"
  | .timeout ms => "timeout waiting for peer response after " ++ toString ms ++ "ms"
  | .io reason => "I/O error: " ++ reason
  | .serialization reason => "serialization error: " ++ reason
  | .invalidBlock height reason => "invalid block at height " ++ toString height ++ ": " ++ reason
  | .blockApplicationFailed height reason =>
    "block application failed at height " ++ toString height ++ ": " ++ reason
  | .network reason => "network error: " ++ reason
  | .alreadySyncing => "already syncing"
  | .inconsistentData height => "peer returned inconsistent data at height " ++ toString height
  | .metrics reason => "metrics error: " ++ reason
  | .config reason => "configuration error: " ++ reason

structure SyncConfig where
  timeoutMs : UInt64 := 10000
  maxBlocksBatch : UInt64 := 50
  retryCount : UInt32 := 3
  verifySignatures : Bool := true
  persistBatch : Bool := true
  progressLogInterval : UInt64 := 100

/-- `SyncConfig::validate`. -/
def SyncConfig.validate (cfg : SyncConfig) : Except SyncError Unit :=
  if cfg.timeoutMs = 0 then .error (.config "timeout_ms must be > 0")
  else if cfg.maxBlocksBatch = 0 then .error (.config "max_blocks_batch must be > 0")
  else if cfg.retryCount = 0 then .error (.config "retry_count must be > 0")
  else if cfg.progressLogInterval = 0 then
    .error (.config "progress_log_interval must be > 0")
  else .ok ()

theorem SyncConfig.validate_ok {cfg : SyncConfig} (h : cfg.validate = .ok ()) :
    cfg.maxBlocksBatch ≠ 0 ∧ cfg.retryCount ≠ 0 := by
  unfold SyncConfig.validate at h
  repeat' split at h
  all_goals cases h
  rename_i hbatch hretry _
  exact ⟨hbatch, hretry⟩

inductive SyncMessageKind where
  | getStatus
  | statusResponse
  | getBlocks
  | blockData
deriving DecidableEq

namespace SyncMessageKind

def asU8 : SyncMessageKind → UInt8
  | getStatus => 0x10
  | statusResponse => 0x11
  | getBlocks => 0x12
  | blockData => 0x13

/-- `SyncMessageKind::try_from`. -/
def tryFrom (value : UInt8) : Except SyncError SyncMessageKind :=
  if value = 0x10 then .ok getStatus
  else if value = 0x11 then .ok statusResponse
  else if value = 0x12 then .ok getBlocks
  else if value = 0x13 then .ok blockData
  else .error (.serialization ("unknown message kind: " ++ toString value))

end SyncMessageKind

structure GetStatus where
  height : UInt64
  peerId : String

structure StatusResponse where
  height : UInt64
  bestHash : Hash32
  peerId : String

structure GetBlocks where
  fromHeight : UInt64
  toHeight : UInt64

structure BlockData where
  block : Block
  height : UInt64

/-- `postcard` for the messages of the protocol. -/
structure SyncCodec where
  encodeGetStatus : GetStatus → Except String (List UInt8)
  encodeGetBlocks : GetBlocks → Except String (List UInt8)
  decodeStatusResponse : List UInt8 → Option StatusResponse
  decodeBlockData : List UInt8 → Option BlockData

/-- `serialize_sync_message`, of what `postcard` makes of the message. -/
def serializeSyncMessage (kind : SyncMessageKind) (encoded : Except String (List UInt8)) :
    Except SyncError (List UInt8) :=
  match encoded with
  | .error e => .error (.serialization e)
  | .ok payload => .ok (kind.asU8 :: payload)

/-- `deserialize_sync_message`. -/
def deserializeSyncMessage : List UInt8 → Except SyncError (SyncMessageKind × List UInt8)
  | [] => .error (.serialization "empty message")
  | kind :: payload =>
    match SyncMessageKind.tryFrom kind with
    | .error _ => .error (.serialization ("unknown message kind: " ++ toString kind))
    | .ok kind => .ok (kind, payload)

def payloadOf (kind : SyncMessageKind) (msg : List UInt8) : Option (List UInt8) :=
  match deserializeSyncMessage msg with
  | .error _ => none
  | .ok (k, payload) => if k = kind then some payload else none

def SyncCodec.status (codec : SyncCodec) (msg : List UInt8) : Option StatusResponse :=
  (payloadOf .statusResponse msg).bind codec.decodeStatusResponse

def SyncCodec.blockData (codec : SyncCodec) (msg : List UInt8) : Option BlockData :=
  (payloadOf .blockData msg).bind codec.decodeBlockData

/-! ## State -/

structure PeerStatus where
  peerId : String
  height : UInt64
  bestHash : Hash32

structure SyncState where
  localHeight : UInt64 := 0
  targetHeight : UInt64 := 0
  syncing : Bool := false
  peers : List PeerStatus := []
  blocksReceived : UInt64 := 0
  blocksVerified : UInt64 := 0
  blocksApplied : UInt64 := 0

/-- What sync shares with the rest of the node: `SYNC_STATE`, the height of the engine in
`CONSENSUS_ENGINE` if there is one, the height that `load_persisted_height` reads, and the id of
the node. -/
structure SyncNode where
  sync : SyncState
  engine : Option UInt64
  persisted : UInt64
  nodeId : Option String

inductive SyncEvent where
  | sent (msg : List UInt8)
  | engineHeight (height : UInt64)
  | accepted (height : UInt64)
  | localHeight (height : UInt64)
deriving DecidableEq

inductive SyncPhase where
  | fetching (req : GetBlocks) (reqBytes : List UInt8) (attempt : UInt32)
  | returned (result : Except SyncError Unit)

/-- A run of `sync_from_peers`: the node, the locals `current` and `best_height`, and the trace. -/
structure SyncRun extends SyncNode where
  current : UInt64
  bestHeight : UInt64
  phase : SyncPhase
  trace : List SyncEvent

structure Window where
  broadcast : Except SyncError ℕ
  polls : List (Option (List UInt8))

namespace SyncRun

variable (codec : SyncCodec) (cfg : SyncConfig) (r : SyncRun)

def send (msg : List UInt8) : SyncRun := { r with trace := r.trace ++ [.sent msg] }

/-- `ss.local_height = height`. -/
def setLocalHeight (height : UInt64) : SyncRun :=
  { r with
    sync := { r.sync with localHeight := height }
    trace := r.trace ++ [.localHeight height] }

/-- `e.height = height`, if there is an engine. -/
def setEngineHeight (height : UInt64) : SyncRun :=
  match r.engine with
  | none => r
  | some _ => { r with engine := some height, trace := r.trace ++ [.engineHeight height] }

def ret (result : Except SyncError Unit) : SyncRun := { r with phase := .returned result }

/-- `ss.syncing = false`, and return without an error. -/
def stop : SyncRun := { r with sync := { r.sync with syncing := false } }.ret (.ok ())

/-! ## Blocks -/

/-- `apply_block`. -/
def applyBlock (blockData : BlockData) : Except SyncError SyncRun :=
  if blockData.block.header.height ≠ blockData.height then
    .error (.invalidBlock blockData.height ("block height mismatch: header says " ++
      toString blockData.block.header.height ++ ", expected " ++ toString blockData.height))
  else if cfg.verifySignatures && blockData.block.header.proposerPk.isEmpty then
    .error (.invalidBlock blockData.height "empty proposer public key")
  else
    let r := r.setEngineHeight blockData.height
    .ok { r with trace := r.trace ++ [.accepted blockData.height] }

def advance : SyncRun :=
  let current := satAdd r.current 1
  let r := { r with
    current
    sync := { r.sync with
      blocksReceived := satAdd r.sync.blocksReceived 1
      blocksVerified := satAdd r.sync.blocksVerified 1
      blocksApplied := satAdd r.sync.blocksApplied 1 } }
  (r.setLocalHeight current).setEngineHeight current

/-- The loop of one attempt over what `recv` returns; the number of blocks applied. -/
def receiveBlocks (batchEnd : UInt64) (attempt : UInt32) :
    SyncRun → UInt64 → List (Option (List UInt8)) → SyncRun × Except SyncError UInt64
  | r, applied, [] => (r, .ok applied)
  | r, applied, poll :: polls =>
    if r.current + applied < batchEnd then
      match poll.bind codec.blockData with
      | none => receiveBlocks batchEnd attempt r applied polls
      | some blockData =>
        match r.applyBlock cfg blockData with
        | .error e =>
          if attempt < cfg.retryCount - 1 then (r, .ok applied)
          else (r, .error (.blockApplicationFailed blockData.height e.display))
        | .ok r => receiveBlocks batchEnd attempt r.advance (satAdd applied 1) polls
    else (r, .ok applied)

/-! ## Batches -/

def finish : SyncRun :=
  ({ r with persisted := r.current }.setLocalHeight r.current).stop

def nextBatch : SyncRun :=
  if r.current < r.bestHeight then
    let req : GetBlocks := ⟨r.current, min (r.current + cfg.maxBlocksBatch) r.bestHeight⟩
    match serializeSyncMessage .getBlocks (codec.encodeGetBlocks req) with
    | .error e => r.ret (.error e)
    | .ok reqBytes =>
      if cfg.retryCount = 0 then r.finish else { r with phase := .fetching req reqBytes 0 }
  else r.finish

def afterAttempt (req : GetBlocks) (reqBytes : List UInt8) (attempt : UInt32)
    (applied : UInt64) : SyncRun :=
  if applied = req.toHeight - r.current then
    (if cfg.persistBatch then { r with persisted := r.current } else r).nextBatch codec cfg
  else if attempt + 1 < cfg.retryCount then
    { r with phase := .fetching req reqBytes (attempt + 1) }
  else r.finish

def step (r : SyncRun) (w : Window) : SyncRun :=
  match r.phase with
  | .returned _ => r
  | .fetching req reqBytes attempt =>
    let r := r.send reqBytes
    match w.broadcast with
    | .error e => r.ret (.error e)
    | .ok _ =>
      match receiveBlocks codec cfg req.toHeight attempt r 0 w.polls with
      | (r, .error e) => r.ret (.error e)
      | (r, .ok applied) => r.afterAttempt codec cfg req reqBytes attempt applied

end SyncRun

/-! ## The whole function -/

def receiveStatus (best : UInt64 × List PeerStatus) (status : StatusResponse) :
    UInt64 × List PeerStatus :=
  let peer : PeerStatus := ⟨status.peerId, status.height, status.bestHash⟩
  (if status.height > best.1 then status.height else best.1,
    match best.2.findIdx? (·.peerId = status.peerId) with
    | some i => best.2.set i peer
    | none => best.2 ++ [peer])

def collectStatus (codec : SyncCodec) (localHeight : UInt64) (peers : List PeerStatus)
    (polls : List (Option (List UInt8))) : UInt64 × List PeerStatus :=
  (polls.filterMap (·.bind codec.status)).foldl receiveStatus (localHeight, peers)

def SyncNode.start (node : SyncNode) : SyncRun :=
  let r : SyncRun := ⟨node, node.persisted, node.persisted, .returned (.ok ()), []⟩
  let r := { r with sync := { r.sync with syncing := true } }.setLocalHeight node.persisted
  if node.persisted > 0 then r.setEngineHeight node.persisted else r

section

variable (codec : SyncCodec) (cfg : SyncConfig) (node : SyncNode) (status : Window)

/-- `sync_from_peers` up to its batch loop; `status` is the window of the status request. -/
def chooseTarget : SyncRun :=
  match cfg.validate with
  | .error e => ⟨node, node.persisted, node.persisted, .returned (.error e), []⟩
  | .ok () =>
    let r := node.start
    let request : GetStatus := ⟨node.persisted, node.nodeId.getD "unknown"⟩
    match serializeSyncMessage .getStatus (codec.encodeGetStatus request) with
    | .error e => r.ret (.error e)
    | .ok statusBytes =>
      let r := r.send statusBytes
      match status.broadcast with
      | .error e => r.ret (.error e)
      | .ok 0 => r.stop
      | .ok (_ + 1) =>
        let (bestHeight, peers) := collectStatus codec node.persisted r.sync.peers status.polls
        let r := { r with sync := { r.sync with peers } }
        if bestHeight ≤ node.persisted then r.stop
        else SyncRun.nextBatch codec cfg { r with
          bestHeight, sync := { r.sync with targetHeight := bestHeight } }

/-- `sync_from_peers`; the windows are those of the block requests. -/
def syncFromPeers (windows : List Window) : SyncRun :=
  exec (SyncRun.step codec cfg) (chooseTarget codec cfg node status) windows

end

end IonaOs
