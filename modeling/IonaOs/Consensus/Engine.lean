import IonaOs.Lib.Run
import IonaOs.Slashing
import IonaOs.Execution
import IonaOs.Consensus.Certificate
import IonaOs.Consensus.DoubleSign

/-!
# The consensus engine
-/

namespace IonaOs

open Lib

inductive Step where
  | propose
  | prevote
  | precommit
  | commit
deriving DecidableEq

/-- The position of a step in `Propose < Prevote < Precommit < Commit`. -/
def Step.rank : Step → ℕ
  | propose => 0
  | prevote => 1
  | precommit => 2
  | commit => 3

structure Config where
  proposeTimeoutMs : UInt64 := 300
  prevoteTimeoutMs : UInt64 := 200
  precommitTimeoutMs : UInt64 := 200
  maxRounds : UInt32 := 50
  maxTxsPerBlock : ℕ := 4096
  gasTarget : UInt64 := 43000000
  initialBaseFeePerGas : UInt64 := 1
  includeBlockInProposal : Bool := true
  fastQuorum : Bool := true

/-- `Config::validate`. -/
def Config.validate (c : Config) : Except String Unit :=
  if c.proposeTimeoutMs = 0 then .error "propose_timeout_ms must be > 0"
  else if c.prevoteTimeoutMs = 0 then .error "prevote_timeout_ms must be > 0"
  else if c.precommitTimeoutMs = 0 then .error "precommit_timeout_ms must be > 0"
  else if c.maxRounds = 0 then .error "max_rounds must be > 0"
  else if c.maxTxsPerBlock = 0 then .error "max_txs_per_block must be > 0"
  else if c.gasTarget = 0 then .error "gas_target must be > 0"
  else if c.initialBaseFeePerGas = 0 then .error "initial_base_fee_per_gas must be > 0"
  else .ok ()

/-! ## State -/

/-- The key of `vote_index`: voter, height, round and vote type. -/
structure VoteIndexKey where
  voter : PublicKeyBytes
  height : Height
  round : Round
  voteType : VoteType

def VoteIndexKey.cmp : VoteIndexKey → VoteIndexKey → Ordering :=
  compareLex (compareOn voter) (compareLex (compareOn height)
    (compareLex (compareOn round) (compareOn voteType)))

instance : Std.TransCmp VoteIndexKey.cmp :=
  inferInstanceAs (Std.TransCmp (compareLex (compareOn VoteIndexKey.voter)
    (compareLex (compareOn VoteIndexKey.height)
      (compareLex (compareOn VoteIndexKey.round) (compareOn VoteIndexKey.voteType)))))

instance : Std.LawfulEqCmp VoteIndexKey.cmp where
  eq_of_compare {a b} h := by
    simp only [VoteIndexKey.cmp, compareLex_eq_eq, compareOn,
      Std.LawfulEqOrd.compare_eq_iff_eq] at h
    obtain ⟨hv, hh, hr, ht⟩ := h
    cases a; cases b
    simp_all

def Vote.indexKey (v : Vote) : VoteIndexKey := ⟨v.voter, v.height, v.round, v.voteType⟩

abbrev VoteMap := Std.ExtTreeMap PublicKeyBytes Vote

structure ConsensusState where
  height : Height
  round : Round
  step : Step
  lockedRound : Option Round
  lockedValue : Option Hash32
  validRound : Option Round
  validValue : Option Hash32
  proposal : Option Proposal
  proposalBlock : Option Block
  votes : Std.ExtTreeMap Round (Std.ExtTreeMap VoteType VoteMap)
  voteIndex : Std.ExtTreeMap VoteIndexKey (Option Hash32 × Vote) VoteIndexKey.cmp
  decided : Option CommitCertificate

namespace ConsensusState

/-- `ConsensusState::new`. -/
def new (height : Height) : ConsensusState where
  height := height
  round := 0
  step := .propose
  lockedRound := none
  lockedValue := none
  validRound := none
  validValue := none
  proposal := none
  proposalBlock := none
  votes := ∅
  voteIndex := ∅
  decided := none

variable (s : ConsensusState)

/-- `ConsensusState::advance_round`; the round saturates at `u32::MAX`. -/
def advanceRound : ConsensusState :=
  { s with
    round := if s.round.toNat + 1 < 2 ^ 32 then s.round + 1 else s.round
    proposal := none
    proposalBlock := none
    step := .propose }

def votesAt (round : Round) (voteType : VoteType) : VoteMap :=
  ((s.votes[round]?.getD ∅)[voteType]?).getD ∅

/-- Insert a vote into `votes`, in place of an earlier vote of the same voter. -/
def insertVote (v : Vote) : ConsensusState :=
  let rt := s.votes[v.round]?.getD ∅
  let vt := rt[v.voteType]?.getD ∅
  { s with votes := s.votes.insert v.round (rt.insert v.voteType (vt.insert v.voter v)) }

end ConsensusState

/-- Storage for blocks by their hash. -/
class BlockStore (B : Type*) where
  get : B → Hash32 → Option Block
  put : B → Block → B

/-- A signing key: `Signer::public_key` and `Signer::sign`. -/
structure Signer where
  publicKey : PublicKeyBytes
  sign : List UInt8 → SignatureBytes

inductive Effect where
  | broadcast (msg : ConsensusMsg)
  | requestBlock (blockId : Hash32)
  | onCommit (cert : CommitCertificate) (block : Block) (newState : KvState)
      (newBaseFee : UInt64) (receipts : List Receipt)

structure Engine where
  cfg : Config
  vset : ValidatorSet
  state : ConsensusState
  prevBlockId : Hash32
  appState : KvState
  stakes : StakeLedger
  baseFeePerGas : UInt64
  dsGuard : Option DoubleSignGuard
  stepElapsedMs : UInt64

/-- `Engine::new`. -/
def Engine.new (cfg : Config) (vset : ValidatorSet) (height : Height) (prevBlockId : Hash32)
    (appState : KvState) (stakes : StakeLedger) (dsGuard : Option DoubleSignGuard) :
    Except ConsensusError Engine :=
  match cfg.validate with
  | .error e => .error (.config e)
  | .ok () => .ok {
      cfg, vset, prevBlockId, appState, stakes, dsGuard
      state := ConsensusState.new height
      baseFeePerGas := cfg.initialBaseFeePerGas
      stepElapsedMs := 0 }

structure Node (B : Type*) extends Engine where
  store : B
  outbox : List Effect

/-- The functions that `engine.rs` imports. -/
structure Runtime where
  verify : PublicKeyBytes → List UInt8 → SignatureBytes → Bool
  deriveAddress : List UInt8 → String
  blockId : Block → Hash32
  buildBlock : Height → Round → Hash32 → PublicKeyBytes → String → KvState → UInt64 → List Tx →
    UInt64 → Option Block
  verifyBlockWithVset : KvState → Block → String → PublicKeyBytes → Option (KvState × List Receipt)
  encodeSigned : SignedSet → Except String (List UInt8)

namespace Node

variable {B : Type*} [BlockStore B] (rt : Runtime) (sg : Signer) (n : Node B)

def send (e : Effect) : Node B := { n with outbox := n.outbox ++ [e] }

/-- `store.put(block)`. -/
def put (block : Block) : Node B := { n with store := BlockStore.put n.store block }

/-- `Engine::is_proposer`. -/
def isProposer (pk : PublicKeyBytes) : Bool :=
  (n.vset.proposerFor n.state.height n.state.round).pk == pk

/-- Ask the double-sign guard, and record with it; `false` when it refuses or fails. -/
def guarded (check record : DoubleSignGuard → DoubleSignGuard × Except DoubleSignError Unit) :
    Node B × Bool :=
  match n.dsGuard with
  | none => (n, true)
  | some g =>
    match check g with
    | (g, .error _) => ({ n with dsGuard := some g }, false)
    | (g, .ok _) =>
      match record g with
      | (g, .error _) => ({ n with dsGuard := some g }, false)
      | (g, .ok _) => ({ n with dsGuard := some g }, true)

/-- The vote that `broadcast_vote` signs. -/
def signVote (voteType : VoteType) (blockId : Option Hash32) : Vote where
  voteType := voteType
  height := n.state.height
  round := n.state.round
  voter := sg.publicKey
  blockId := blockId
  signature := sg.sign (voteSignBytes voteType n.state.height n.state.round blockId)

/-- `Engine::broadcast_vote`. -/
def broadcastVote (voteType : VoteType) (blockId : Option Hash32) : Node B :=
  match n.guarded
      (·.checkVote rt.encodeSigned voteType n.state.height n.state.round blockId)
      (·.recordVote rt.encodeSigned voteType n.state.height n.state.round blockId) with
  | (n, false) => n
  | (n, true) => n.send (.broadcast (.vote (n.signVote sg voteType blockId)))

/-- The proposal that `maybe_propose` signs. -/
def signProposal (block : Block) : Proposal where
  height := n.state.height
  round := n.state.round
  proposer := sg.publicKey
  blockId := rt.blockId block
  block := if n.cfg.includeBlockInProposal then some block else none
  polRound := n.state.validRound
  signature := sg.sign
    (proposalSignBytes n.state.height n.state.round (rt.blockId block) n.state.validRound)

/-- `Engine::maybe_propose`. -/
def maybePropose (mempoolDrain : ℕ → List Tx) (now : UInt64) : Node B :=
  if n.state.proposal.isSome then n
  else if !n.isProposer sg.publicKey then n
  else
    match rt.buildBlock n.state.height n.state.round n.prevBlockId sg.publicKey
        (rt.deriveAddress sg.publicKey) n.appState n.baseFeePerGas
        (mempoolDrain n.cfg.maxTxsPerBlock) now with
    | none => n
    | some block =>
      match (n.put block).guarded
          (·.checkProposal rt.encodeSigned n.state.height n.state.round (rt.blockId block))
          (·.recordProposal rt.encodeSigned n.state.height n.state.round (rt.blockId block)) with
      | (n, false) => n
      | (n, true) =>
        let prop := n.signProposal rt sg block
        { n with state := { n.state with
            proposal := some prop
            proposalBlock := some block } }.send (.broadcast (.proposal prop))

/-- `Engine::advance_round`; `round + 1` wraps. -/
def advanceRound (now : UInt64) : Node B :=
  if n.cfg.maxRounds ≤ n.state.round + 1 then n
  else { n with state := n.state.advanceRound, stepElapsedMs := 0 }.maybePropose rt sg (fun _ => [])
    now

/-- Enter the prevote step and prevote: what `tick` and `on_proposal` do alike. -/
def enterPrevote (blockId : Option Hash32) : Node B :=
  { n with state := { n.state with step := .prevote }, stepElapsedMs := 0 }.broadcastVote rt sg
    .prevote blockId

/-- The block id `tick` prevotes at the end of the propose step: the proposal's, if its block
is here. -/
def tickChoice : Option Hash32 :=
  n.state.proposal.bind fun p => if n.state.proposalBlock.isSome then some p.blockId else none

def elapse (dtMs : UInt64) : Node B := { n with stepElapsedMs := satAdd n.stepElapsedMs dtMs }

/-- The first half of `tick` in the propose step: on the first tick, propose. -/
def tickPropose (dtMs : UInt64) (mempoolDrain : ℕ → List Tx) (now : UInt64) : Node B :=
  if n.stepElapsedMs == dtMs && n.state.proposal.isNone then n.maybePropose rt sg mempoolDrain now
  else n

def tickPrevote : Node B :=
  let hasValid := n.cfg.fastQuorum && n.state.proposal.isSome && n.state.proposalBlock.isSome
  if hasValid || n.cfg.proposeTimeoutMs ≤ n.stepElapsedMs then n.enterPrevote rt sg n.tickChoice
  else n

/-- `Engine::tick`. -/
def tick (dtMs : UInt64) (mempoolDrain : ℕ → List Tx) (now : UInt64) : Node B :=
  if n.state.decided.isSome then n
  else
    let n := n.elapse dtMs
    match n.state.step with
    | .propose => (n.tickPropose rt sg dtMs mempoolDrain now).tickPrevote rt sg
    | .prevote =>
      if n.cfg.prevoteTimeoutMs ≤ n.stepElapsedMs then n.advanceRound rt sg now else n
    | .precommit =>
      if n.cfg.precommitTimeoutMs ≤ n.stepElapsedMs then n.advanceRound rt sg now else n
    | .commit => n

/-- `Engine::verify_proposal`. -/
def verifyProposal (p : Proposal) : Except ConsensusError Unit :=
  if !n.vset.contains p.proposer then .error .unknownValidator
  else if (n.vset.proposerFor p.height p.round).pk ≠ p.proposer then .error .unknownValidator
  else if p.height ≠ n.state.height ∨ p.round ≠ n.state.round then .error .badStep
  else if !rt.verify p.proposer p.signBytes p.signature then .error .badSignature
  else .ok ()

/-- `Engine::verify_vote`. -/
def verifyVote (v : Vote) : Except ConsensusError Unit :=
  if !n.vset.contains v.voter then .error .unknownValidator
  else if v.height ≠ n.state.height ∨ v.round ≠ n.state.round then .error .badStep
  else if !rt.verify v.voter v.signBytes v.signature then .error .badSignature
  else .ok ()

/-- `Engine::prevote_choice`: the proposed block, unless the lock is on another one. -/
def prevoteChoice (proposalId : Hash32) : Option Hash32 :=
  match n.state.lockedValue with
  | some locked => if locked ≠ proposalId then none else some proposalId
  | none => some proposalId

def storeCarried (p : Proposal) : Node B :=
  match p.block with
  | some block => n.put block
  | none => n

/-- `on_proposal` for an accepted proposal: prevote it, or nil if its block is missing or
does not verify. -/
def considerProposal (p : Proposal) : Node B :=
  match BlockStore.get n.store p.blockId with
  | none =>
    let n := (n.send (.requestBlock p.blockId)).enterPrevote rt sg none
    { n with state := { n.state with proposal := some p, proposalBlock := none } }
  | some block =>
    match rt.verifyBlockWithVset n.appState block (rt.deriveAddress p.proposer) p.proposer with
    | none => n.enterPrevote rt sg none
    | some _ =>
      let n := { n with state := { n.state with proposal := some p, proposalBlock := some block } }
      n.enterPrevote rt sg (n.prevoteChoice p.blockId)

/-- `Engine::on_proposal`. -/
def onProposal (p : Proposal) : Node B × Except ConsensusError Unit :=
  if n.state.decided.isSome then (n, .ok ())
  else match n.verifyProposal rt p with
    | .error e => (n, .error e)
    | .ok () => ((n.storeCarried p).considerProposal rt sg p, .ok ())

/-- `Engine::record_vote_and_detect_evidence`. -/
def recordVoteAndDetectEvidence (v : Vote) : Node B × Option Evidence :=
  match n.state.voteIndex[v.indexKey]? with
  | some (prevBid, prevVote) =>
    if prevBid ≠ v.blockId then
      (n, some (.doubleVote v.voter v.height v.round v.voteType prevBid v.blockId prevVote v))
    else (n, none)
  | none =>
    ({ n with state := { n.state with
        voteIndex := n.state.voteIndex.insert v.indexKey (v.blockId, v) } }, none)

/-- `self.stakes.apply_evidence(&ev, ..)`, whose result the engine ignores. -/
def applyEvidence (ev : Evidence) : Node B := { n with stakes := n.stakes.afterEvidence ev }

/-- `Engine::tally`. -/
def tally (round : Round) (voteType : VoteType) : Option (Option Hash32 × UInt64) := do
  let rt ← n.state.votes[round]?
  let votes ← rt[voteType]?
  ((VoteTally.new {}).count n.vset (votes.toList.map fun e => (e.1, e.2.blockId))).best.toOption

/-- `Engine::collect_votes`. -/
def collectVotes (round : Round) (voteType : VoteType) (target : Option Hash32) : List Vote :=
  ((n.state.votesAt round voteType).toList.map Prod.snd).filter (·.blockId = target)

def quorum : UInt64 := quorumThreshold n.vset.totalPower

def lockAndPrecommit (bid : Hash32) : Node B :=
  { n with
    state := { n.state with
      validRound := some n.state.round
      validValue := some bid
      lockedRound := some n.state.round
      lockedValue := some bid
      step := .precommit }
    stepElapsedMs := 0 }.broadcastVote rt sg .precommit (some bid)

def commitBlock (round : Round) (bid : Hash32) : Node B × Except ConsensusError Unit :=
  match BlockStore.get n.store bid with
  | none => (n.send (.requestBlock bid), .ok ())
  | some block =>
    let expected := (n.vset.proposerFor n.state.height round).pk
    match rt.verifyBlockWithVset n.appState block (rt.deriveAddress block.header.proposerPk)
        expected with
    | none => (n, .error (.execution "block execution failed"))
    | some (newState, receipts) =>
      let cert : CommitCertificate :=
        ⟨n.state.height, bid, n.collectVotes round .precommit (some bid)⟩
      let newBase := nextBaseFee n.baseFeePerGas block.header.gasUsed n.cfg.gasTarget
      ({ n with
        state := { n.state with decided := some cert, step := .commit }
        stepElapsedMs := 0
        appState := newState
        prevBlockId := bid
        baseFeePerGas := newBase }.send (.onCommit cert block newState newBase receipts), .ok ())

/-- `on_vote` once the vote is recorded: what a quorum brings about. -/
def onQuorum (v : Vote) (now : UInt64) : Node B × Except ConsensusError Unit :=
  match v.voteType with
  | .prevote =>
    if n.state.step = .prevote then
      match n.tally v.round .prevote with
      | none => (n, .ok ())
      | some (bidOpt, pow) =>
        if n.quorum ≤ pow then
          match bidOpt with
          | some bid => (n.lockAndPrecommit rt sg bid, .ok ())
          | none => (n.advanceRound rt sg now, .ok ())
        else (n, .ok ())
    else (n, .ok ())
  | .precommit =>
    if n.state.step = .precommit then
      match n.tally v.round .precommit with
      | none => (n, .ok ())
      | some (bidOpt, pow) =>
        if n.quorum ≤ pow then
          match bidOpt with
          | some bid => n.commitBlock rt v.round bid
          | none => (n.advanceRound rt sg now, .ok ())
        else (n, .ok ())
    else (n, .ok ())

/-- The part of `on_vote` that records an accepted vote: index, evidence and `votes`. -/
def recordVote (v : Vote) : Node B :=
  let n := match n.recordVoteAndDetectEvidence v with
    | (n, some ev) => (n.applyEvidence ev).send (.broadcast (.evidence ev))
    | (n, none) => n
  { n with state := n.state.insertVote v }

/-- `Engine::on_vote`. -/
def onVote (v : Vote) (now : UInt64) : Node B × Except ConsensusError Unit :=
  if n.state.decided.isSome then (n, .ok ())
  else match n.verifyVote rt v with
    | .error e => (n, .error e)
    | .ok () => (n.recordVote v).onQuorum rt sg v now

/-- `Engine::on_message`. -/
def onMessage (msg : ConsensusMsg) (now : UInt64) : Node B × Except ConsensusError Unit :=
  match msg with
  | .proposal p => n.onProposal rt sg p
  | .vote v => n.onVote rt sg v now
  | .evidence ev => (n.applyEvidence ev, .ok ())

def holdBlock (block : Block) : Node B :=
  { n with state := { n.state with proposalBlock := some block } }

/-- `Engine::on_block_received`. -/
def onBlockReceived (block : Block) : Node B × Except ConsensusError Unit :=
  let n := n.put block
  match n.state.proposal with
  | none => (n, .ok ())
  | some prop =>
    if prop.blockId = rt.blockId block ∧ n.state.proposalBlock = none then
      let n := n.holdBlock block
      if n.state.step = .prevote then
        (n.broadcastVote rt sg .prevote (n.prevoteChoice prop.blockId), .ok ())
      else (n, .ok ())
    else (n, .ok ())

/-- `Engine::next_height`; `height + 1` wraps. -/
def nextHeight (now : UInt64) : Node B :=
  { n with state := ConsensusState.new (n.state.height + 1), stepElapsedMs := 0 }.maybePropose rt sg
    (fun _ => []) now

end Node

/-! ## Runs -/

/-- A call of one of the engine's entry points; `now` is the clock that `build_block` reads. -/
inductive Event where
  | tick (dtMs : UInt64) (mempoolDrain : ℕ → List Tx) (now : UInt64)
  | message (msg : ConsensusMsg) (now : UInt64)
  | blockReceived (block : Block)
  | nextHeight (now : UInt64)

section

variable {B : Type*} [BlockStore B] (rt : Runtime) (sg : Signer)

def handle (n : Node B) : Event → Node B
  | .tick dtMs mempoolDrain now => n.tick rt sg dtMs mempoolDrain now
  | .message msg now => (n.onMessage rt sg msg now).1
  | .blockReceived block => (n.onBlockReceived rt sg block).1
  | .nextHeight now => n.nextHeight rt sg now

def Node.Initial (n : Node B) : Prop :=
  n.outbox = [] ∧ ∃ cfg vset height prev app stakes dsGuard,
    Engine.new cfg vset height prev app stakes dsGuard = .ok n.toEngine

def Reachable (n : Node B) : Prop :=
  ∃ (n₀ : Node B) (es : List Event), n₀.Initial ∧ n = exec (handle rt sg) n₀ es

end

end IonaOs
