import IonaOs.Consensus.Engine

/-!
# What a call can do
-/

namespace IonaOs

open Lib Relation DoubleSignGuard ReflTransGen

def Effect.vote? : Effect → Option Vote
  | .broadcast (.vote v) => some v
  | _ => none

def Effect.commit? : Effect → Option (CommitCertificate × Block)
  | .onCommit cert block _ _ _ => some (cert, block)
  | _ => none

namespace Node

variable {B : Type*} (n : Node B)

def castVotes : List Vote := n.outbox.filterMap Effect.vote?

def commits : List (CommitCertificate × Block) := n.outbox.filterMap Effect.commit?

def hasVoted (voteType : VoteType) : Bool :=
  match n.dsGuard with
  | none => false
  | some g => g.hasVote voteType n.state.height n.state.round

/-- Every entry of the double-sign guard for the current slot agrees with a vote for `x`. -/
def Permits (voteType : VoteType) (x : Option Hash32) : Prop :=
  ∀ g, n.dsGuard = some g → ∀ y,
    .vote voteType.asU8 n.state.height n.state.round y ∈ g.signed → y = x

def Links (block : Block) : Prop :=
  block.header.height = n.state.height ∧ block.header.prev = n.prevBlockId ∧
    block.header.baseFeePerGas = n.baseFeePerGas
deriving Decidable

/-- The proposal passes the checks at the head of `on_proposal`. -/
def Accepts (rt : Runtime) (p : Proposal) : Prop :=
  n.state.decided = none ∧ n.verifyProposal rt p = .ok ()
deriving Decidable

/-- The vote passes the checks at the head of `on_vote`. -/
def AcceptsVote (rt : Runtime) (v : Vote) : Prop :=
  n.state.decided = none ∧ n.verifyVote rt v = .ok ()
deriving Decidable

/-! ## Conditions on events -/

section

variable [BlockStore B] (rt : Runtime) (sg : Signer)

def VotesOnce : Event → Prop
  | .tick _ _ _ => True
  | .message (.proposal p) _ =>
    n.Accepts rt p → n.state.step = .propose ∨ n.hasVoted .prevote = true
  | .message (.vote v) _ =>
    n.AcceptsVote rt v → v.voteType = .prevote → n.state.step = .prevote →
      n.state.lockedRound ≠ some n.state.round ∨ n.hasVoted .precommit = true
  | .message (.evidence _) _ => True
  | .blockReceived block =>
    n.state.step = .prevote → n.state.proposalBlock = none →
      n.state.proposal.map (·.blockId) = some (rt.blockId block) → n.hasVoted .prevote = true
  | .nextHeight _ => n.state.height ≠ UInt64.ofNat (2 ^ 64 - 1)

instance (e : Event) : Decidable (n.VotesOnce rt e) := by
  unfold VotesOnce
  split <;> infer_instance

def EndsPropose (dtMs : UInt64) : Prop :=
  n.cfg.fastQuorum = true ∨ n.cfg.proposeTimeoutMs ≤ satAdd n.stepElapsedMs dtMs
deriving Decidable

def KeepsLock : Event → Prop
  | .tick dtMs _ _ =>
    n.state.decided = none → n.state.step = .propose → n.EndsPropose dtMs →
      ∀ locked ∈ n.state.lockedValue,
        (∀ p ∈ n.state.proposal, n.state.proposalBlock.isSome = true → p.blockId = locked) ∧
        (n.state.proposal = none → satAdd n.stepElapsedMs dtMs = dtMs →
          n.isProposer sg.publicKey = false)
  | .message (.proposal p) _ => n.Accepts rt p → n.state.step ≠ .precommit
  | _ => True

instance (e : Event) : Decidable (n.KeepsLock rt sg e) := by
  unfold KeepsLock
  split <;> infer_instance

def CarriesLinked : Event → Prop
  | .tick _ _ _ => True
  | .message (.proposal p) _ => n.Accepts rt p → ∀ block, p.block = some block → n.Links block
  | .message (.vote v) _ => n.AcceptsVote rt v → v.voteType = .precommit →
      ∀ bid block, v.blockId = some bid → BlockStore.get n.store bid = some block → n.Links block
  | .message (.evidence _) _ => True
  | .blockReceived block => n.Links block
  | .nextHeight _ => True

def GenuineEvidence : Event → Prop
  | .message (.evidence ev) _ =>
    (ev.validate rt.verify {} = .ok () ∧ ev.Faithful) ∨ n.stakes.Ignores ev.offender
  | _ => True

end

end Node

structure Discipline where
  votesOnce : Prop
  keepsLock : Prop
  linked : Prop
  genuine : Prop
  oneHeight : Prop
  authentic : Vote → Prop
  backed : Height → Round → Hash32 → Prop

def Discipline.none : Discipline where
  votesOnce := False
  keepsLock := False
  linked := False
  genuine := False
  oneHeight := False
  authentic _ := True
  backed _ _ _ := True

/-- The recorded votes of a type for `x` in a round, counted by the engine, make a quorum. -/
def Node.TallyReaches {B : Type*} (a : Node B) (round : Round) (voteType : VoteType)
    (x : Option Hash32) : Prop :=
  ∃ pow, a.tally round voteType = some (x, pow) ∧ a.quorum ≤ pow

structure EventOk {B : Type*} [BlockStore B] (rt : Runtime) (sg : Signer) (D : Discipline)
    (n : Node B) (e : Event) : Prop where
  votesOnce : D.votesOnce → n.VotesOnce rt e
  keepsLock : D.keepsLock → n.KeepsLock rt sg e
  linked : D.linked → n.CarriesLinked rt e
  genuine : D.genuine → n.GenuineEvidence rt e
  oneHeight : D.oneHeight → ∀ now, e ≠ .nextHeight now
  authentic : ∀ v now, e = .message (.vote v) now → n.AcceptsVote rt v → D.authentic v
  backed : ∀ v now b, e = .message (.vote v) now → n.AcceptsVote rt v →
    (n.recordVote v).TallyReaches n.state.round .prevote (some b) →
    D.backed n.state.height n.state.round b

/-! ## Moves -/

section

variable {B : Type*} [BlockStore B] (rt : Runtime) (sg : Signer)

def GuardKeeps (a : Node B) (g : Option DoubleSignGuard) : Prop :=
  ∀ g', g = some g' → ∃ g₀, a.dsGuard = some g₀ ∧
    ∀ t h r x, .vote t h r x ∈ g'.signed → .vote t h r x ∈ g₀.signed

/-- A guard that may have forgotten entries and learned, if it permits it, a vote for `x`. -/
def GuardNotes (a : Node B) (voteType : VoteType) (x : Option Hash32)
    (g : Option DoubleSignGuard) : Prop :=
  ∀ g', g = some g' → ∃ g₀, a.dsGuard = some g₀ ∧ ∀ k ∈ g'.signed,
    k ∈ g₀.signed ∨ (k = .vote voteType.asU8 a.state.height a.state.round x ∧
      a.Permits voteType x)

/-- What a call of `broadcast_vote` adds to the outbox. -/
def Casts (a : Node B) (voteType : VoteType) (x : Option Hash32) (o : List Effect) : Prop :=
  o = [] ∨ (o = [.broadcast (.vote (a.signVote sg voteType x))] ∧ a.Permits voteType x)

inductive Move (D : Discipline) : Node B → Node B → Prop
  | quiet (a : Node B) (p : Option Proposal) (pb : Option Block) (t : UInt64)
      (g : Option DoubleSignGuard) (o : List Effect) (hg : GuardKeeps a g)
      (ho : ∀ e ∈ o, e.vote? = none ∧ e.commit? = none) :
      Move D a { a with
        state := { a.state with proposal := p, proposalBlock := pb }
        stepElapsedMs := t, dsGuard := g, outbox := a.outbox ++ o }
  | stash (a : Node B) (block : Block) (hlink : D.linked → a.Links block) : Move D a (a.put block)
  | prevote (a : Node B) (x : Option Hash32) (t : UInt64) (g : Option DoubleSignGuard)
      (o : List Effect) (hlive : a.state.decided = none ∨ a.state.step ≠ .commit)
      (hfresh : D.votesOnce → a.state.step = .propose ∨ a.hasVoted .prevote = true)
      (hlock : D.keepsLock → a.state.step ≠ .precommit ∧
        ∀ b locked, x = some b → a.state.lockedValue = some locked → b = locked)
      (hg : GuardNotes a .prevote x g) (ho : Casts sg a .prevote x o) :
      Move D a { a with
        state := { a.state with step := .prevote }
        stepElapsedMs := t, dsGuard := g, outbox := a.outbox ++ o }
  | record (a : Node B) (v : Vote) (hacc : a.AcceptsVote rt v) (hauth : D.authentic v)
      (hlink : D.linked → v.voteType = .precommit → ∀ bid block, v.blockId = some bid →
        BlockStore.get a.store bid = some block → a.Links block) :
      Move D a (a.recordVote v)
  | lock (a : Node B) (b : Hash32) (g : Option DoubleSignGuard) (o : List Effect)
      (hdec : a.state.decided = none) (hstep : a.state.step = .prevote)
      (hfresh : D.votesOnce → a.state.lockedRound ≠ some a.state.round ∨
        a.hasVoted .precommit = true)
      (hq : a.TallyReaches a.state.round .prevote (some b))
      (hback : D.backed a.state.height a.state.round b)
      (hg : GuardNotes a .precommit (some b) g) (ho : Casts sg a .precommit (some b) o) :
      Move D a { a with
        state := { a.state with
          validRound := some a.state.round, validValue := some b
          lockedRound := some a.state.round, lockedValue := some b, step := .precommit }
        stepElapsedMs := 0, dsGuard := g, outbox := a.outbox ++ o }
  | advance (a : Node B) (hlive : a.state.decided = none)
      (hstep : a.state.step = .prevote ∨ a.state.step = .precommit)
      (hmax : ¬ a.cfg.maxRounds ≤ a.state.round + 1) :
      Move D a { a with state := a.state.advanceRound, stepElapsedMs := 0 }
  | commit (a : Node B) (b : Hash32) (block : Block) (newState : KvState) (receipts : List Receipt)
      (hdec : a.state.decided = none) (hstep : a.state.step = .precommit)
      (hq : a.TallyReaches a.state.round .precommit (some b))
      (hget : BlockStore.get a.store b = some block)
      (hver : rt.verifyBlockWithVset a.appState block (rt.deriveAddress block.header.proposerPk)
        (a.vset.proposerFor a.state.height a.state.round).pk = some (newState, receipts)) :
      Move D a (a.commitBlock rt a.state.round b).1
  | nextHeight (a : Node B)
      (hmax : D.votesOnce → a.state.height ≠ UInt64.ofNat (2 ^ 64 - 1)) (hone : ¬ D.oneHeight) :
      Move D a { a with state := ConsensusState.new (a.state.height + 1), stepElapsedMs := 0 }
  | slash (a : Node B) (ev : Evidence)
      (hgen : D.genuine → (ev.validate rt.verify {} = .ok () ∧ ev.Faithful) ∨
        a.stakes.Ignores ev.offender) :
      Move D a (a.applyEvidence ev)

def VoteType.step : VoteType → Step
  | prevote => .prevote
  | precommit => .precommit

inductive Node.CountOutcome (n : Node B) (v : Vote) (now : UInt64) :
    Node B × Except ConsensusError Unit → Prop
  | lock (b : Hash32) (htype : v.voteType = .prevote) (hstep : n.state.step = .prevote)
      (hq : n.TallyReaches v.round .prevote (some b)) :
      CountOutcome n v now (n.lockAndPrecommit rt sg b, .ok ())
  | commit (b : Hash32) (htype : v.voteType = .precommit) (hstep : n.state.step = .precommit)
      (hq : n.TallyReaches v.round .precommit (some b)) :
      CountOutcome n v now (n.commitBlock rt v.round b)
  | advance (hstep : n.state.step = v.voteType.step)
      (hq : n.TallyReaches v.round v.voteType none) :
      CountOutcome n v now (n.advanceRound rt sg now, .ok ())
  | wait (hno : n.state.step = v.voteType.step → ∀ x, ¬ n.TallyReaches v.round v.voteType x) :
      CountOutcome n v now (n, .ok ())

abbrev Moves (D : Discipline) : Node B → Node B → Prop := ReflTransGen (Move rt sg D)

/-! ## The guard and the outbox -/

namespace Node

section

omit [BlockStore B]

theorem guarded_spec (n : Node B)
    (check record : DoubleSignGuard → DoubleSignGuard × Except DoubleSignError Unit) :
    (n.dsGuard = none ∧ n.guarded check record = (n, true)) ∨
    (∃ g₀, n.dsGuard = some g₀ ∧
      n.guarded check record = ({ n with dsGuard := some (check g₀).1 }, false)) ∨
    (∃ g₀ ok, n.dsGuard = some g₀ ∧ (check g₀).2 = .ok () ∧
      n.guarded check record = ({ n with dsGuard := some (record (check g₀).1).1 }, ok)) := by
  rw [guarded]
  cases hg : n.dsGuard with
  | none => exact .inl ⟨rfl, rfl⟩
  | some g₀ =>
    refine .inr ?_
    rcases hc : check g₀ with ⟨g₁, _ | _⟩
    · exact .inl ⟨g₀, rfl, by simp [hc]⟩
    refine .inr ?_
    rcases hr : record g₁ with ⟨g₂, _ | _⟩
    · exact ⟨g₀, false, rfl, by simp [hc], by simp [hc, hr]⟩
    · exact ⟨g₀, true, rfl, by simp [hc], by simp [hc, hr]⟩

theorem broadcastVote_spec (n : Node B) (voteType : VoteType) (x : Option Hash32) :
    ∃ g o, n.broadcastVote rt sg voteType x = { n with dsGuard := g, outbox := n.outbox ++ o } ∧
      GuardNotes n voteType x g ∧ Casts sg n voteType x o := by
  rw [broadcastVote]
  rcases guarded_spec n (·.checkVote rt.encodeSigned voteType n.state.height n.state.round x)
      (·.recordVote rt.encodeSigned voteType n.state.height n.state.round x)
    with ⟨hnone, heq⟩ | ⟨g₀, hg₀, heq⟩ | ⟨g₀, ok, hg₀, hok, heq⟩
  · refine ⟨n.dsGuard, [.broadcast (.vote (n.signVote sg voteType x))], ?_, ?_, .inr ⟨rfl, ?_⟩⟩
    · simp [heq, send]
    · intro g' hg'; simp [hnone] at hg'
    · intro g' hg'; simp [hnone] at hg'
  · refine ⟨some (g₀.checkVote rt.encodeSigned voteType n.state.height n.state.round x).1, [],
      by simp [heq], ?_, .inl rfl⟩
    rintro g' ⟨⟩
    refine ⟨g₀, hg₀, fun k hk => .inl ?_⟩
    rw [checkVote_fst] at hk
    exact mem_of_mem_observe hk
  have hperm : n.Permits voteType x := by
    intro g' hg' y hy
    rw [hg₀] at hg'
    cases hg'
    exact checkVote_ok_iff.mp hok y hy
  rw [checkVote_fst] at heq
  refine ⟨some ((g₀.observe rt.encodeSigned n.state.height).recordVote rt.encodeSigned voteType
    n.state.height n.state.round x).1,
    if ok then [.broadcast (.vote (n.signVote sg voteType x))] else [], ?_, ?_, ?_⟩
  · cases ok <;> simp [heq, send, signVote]
  · rintro g' ⟨⟩
    refine ⟨g₀, hg₀, fun k hk => ?_⟩
    rcases mem_of_mem_record hk with rfl | hk
    · exact .inr ⟨rfl, hperm⟩
    · exact .inl (mem_of_mem_observe hk)
  · cases ok
    · exact .inl rfl
    · exact .inr ⟨rfl, hperm⟩

theorem GuardKeeps.refl (a : Node B) : GuardKeeps a a.dsGuard :=
  fun g' hg' => ⟨g', hg', fun _ _ _ _ h => h⟩

theorem guardKeeps_guarded_proposal (n : Node B) (b : Hash32) :
    ∃ g ok, n.guarded (·.checkProposal rt.encodeSigned n.state.height n.state.round b)
        (·.recordProposal rt.encodeSigned n.state.height n.state.round b) =
        ({ n with dsGuard := g }, ok) ∧ GuardKeeps n g := by
  rcases guarded_spec n (·.checkProposal rt.encodeSigned n.state.height n.state.round b)
      (·.recordProposal rt.encodeSigned n.state.height n.state.round b)
    with ⟨hnone, heq⟩ | ⟨g₀, hg₀, heq⟩ | ⟨g₀, ok, hg₀, -, heq⟩
  · exact ⟨n.dsGuard, true, heq, GuardKeeps.refl n⟩
  · refine ⟨_, false, heq, ?_⟩
    rintro g' ⟨⟩
    refine ⟨g₀, hg₀, fun t h r x hk => ?_⟩
    rw [checkProposal_fst] at hk
    exact mem_of_mem_observe hk
  · refine ⟨_, ok, heq, ?_⟩
    rintro g' ⟨⟩
    refine ⟨g₀, hg₀, fun t h r x hk => ?_⟩
    rw [checkProposal_fst] at hk
    rcases mem_of_mem_record hk with hk | hk
    · cases hk
    · exact mem_of_mem_observe hk

end

end Node

/-! ## Calls as sequences of moves -/

/-- The blocks that `build_block` returns carry the height, parent and base fee it was given. -/
def Runtime.BuildsLinked (rt : Runtime) : Prop :=
  ∀ height round prev pk addr state fee txs now block,
    rt.buildBlock height round prev pk addr state fee txs now = some block →
      block.header.height = height ∧ block.header.prev = prev ∧ block.header.baseFeePerGas = fee

namespace Node

variable {D : Discipline} {n : Node B}

theorem maybePropose_spec (n : Node B) (drain : ℕ → List Tx) (now : UInt64) :
    n.maybePropose rt sg drain now = n ∨
    ∃ block p pb g o, n.state.proposal = none ∧ n.isProposer sg.publicKey = true ∧
      rt.buildBlock n.state.height n.state.round n.prevBlockId sg.publicKey
        (rt.deriveAddress sg.publicKey) n.appState n.baseFeePerGas (drain n.cfg.maxTxsPerBlock)
        now = some block ∧
      GuardKeeps n g ∧ (∀ e ∈ o, e.vote? = none ∧ e.commit? = none) ∧
      n.maybePropose rt sg drain now = { n.put block with
        state := { n.state with proposal := p, proposalBlock := pb }
        dsGuard := g, outbox := n.outbox ++ o } := by
  rw [maybePropose]
  split
  · exact .inl rfl
  rename_i hprop
  split
  · exact .inl rfl
  rename_i hproposer
  split
  · exact .inl rfl
  rename_i block hblock
  obtain ⟨g, ok, heq, hg⟩ := guardKeeps_guarded_proposal rt (n.put block) (rt.blockId block)
  rw [show (n.put block).guarded
      (·.checkProposal rt.encodeSigned n.state.height n.state.round (rt.blockId block))
      (·.recordProposal rt.encodeSigned n.state.height n.state.round (rt.blockId block)) =
        ({ n.put block with dsGuard := g }, ok) from heq]
  refine .inr ?_
  have hnone : n.state.proposal = none := by simpa using hprop
  have hmine : n.isProposer sg.publicKey = true := by simpa using hproposer
  cases ok
  · exact ⟨block, n.state.proposal, n.state.proposalBlock, g, [], hnone, hmine, hblock, hg,
      by simp, by simp [put]⟩
  · exact ⟨block, some (n.signProposal rt sg block), some block, g,
      [.broadcast (.proposal (n.signProposal rt sg block))], hnone, hmine, hblock, hg,
      by simp [Effect.vote?, Effect.commit?], rfl⟩

theorem maybePropose_moves (hbuild : D.linked → rt.BuildsLinked) (n : Node B)
    (drain : ℕ → List Tx) (now : UInt64) : Moves rt sg D n (n.maybePropose rt sg drain now) := by
  rcases maybePropose_spec rt sg n drain now with
    heq | ⟨block, p, pb, g, o, -, -, hblock, hg, ho, heq⟩
  · rw [heq]
  rw [heq]
  have hput : Move rt sg D n (n.put block) :=
    .stash n block fun hD => hbuild hD _ _ _ _ _ _ _ _ _ _ hblock
  exact (single hput).tail (.quiet (n.put block) p pb n.stepElapsedMs g o hg ho)

theorem tickPropose_frame (n : Node B) (dtMs : UInt64) (drain : ℕ → List Tx) (now : UInt64) :
    (n.tickPropose rt sg dtMs drain now).cfg = n.cfg ∧
      (n.tickPropose rt sg dtMs drain now).stepElapsedMs = n.stepElapsedMs ∧
      (n.tickPropose rt sg dtMs drain now).state.step = n.state.step ∧
      (n.tickPropose rt sg dtMs drain now).state.decided = n.state.decided ∧
      (n.tickPropose rt sg dtMs drain now).state.lockedValue = n.state.lockedValue := by
  rw [tickPropose]
  split
  · rcases maybePropose_spec rt sg n drain now with
      heq | ⟨block, p, pb, g, o, -, -, -, -, -, heq⟩ <;> rw [heq] <;>
      exact ⟨rfl, rfl, rfl, rfl, rfl⟩
  · exact ⟨rfl, rfl, rfl, rfl, rfl⟩

variable {rt sg} {x : Option Hash32}

theorem enterPrevote_move
    (hlive : n.state.decided = none ∨ n.state.step ≠ .commit)
    (hfresh : D.votesOnce → n.state.step = .propose ∨ n.hasVoted .prevote = true)
    (hlock : D.keepsLock → n.state.step ≠ .precommit ∧
      ∀ b locked, x = some b → n.state.lockedValue = some locked → b = locked) :
    Move rt sg D n (n.enterPrevote rt sg x) := by
  obtain ⟨g, o, heq, hg, ho⟩ := broadcastVote_spec rt sg
    { n with state := { n.state with step := .prevote }, stepElapsedMs := 0 } .prevote x
  rw [enterPrevote, heq]
  exact .prevote n x 0 g o hlive hfresh hlock hg ho

theorem advanceRound_moves (hbuild : D.linked → rt.BuildsLinked) (n : Node B)
    (hlive : n.state.decided = none)
    (hstep : n.state.step = .prevote ∨ n.state.step = .precommit) (now : UInt64) :
    Moves rt sg D n (n.advanceRound rt sg now) := by
  rw [advanceRound]
  split
  · exact .refl
  · rename_i hmax
    exact (single (.advance n hlive hstep hmax)).trans
      (maybePropose_moves rt sg hbuild _ _ _)

theorem elapse_move (n : Node B) (dtMs : UInt64) : Move rt sg D n (n.elapse dtMs) := by
  have hmove : Move rt sg D n _ := .quiet n n.state.proposal n.state.proposalBlock
    (satAdd n.stepElapsedMs dtMs) n.dsGuard [] (GuardKeeps.refl n) (by simp)
  rwa [List.append_nil] at hmove

variable {now : UInt64} {b : Hash32}

theorem tickChoice_locked {dtMs : UInt64} {drain : ℕ → List Tx} {locked : Hash32}
    (hkeep : n.KeepsLock rt sg (.tick dtMs drain now)) (hdec : n.state.decided = none)
    (hstep : n.state.step = .propose) (hends : n.EndsPropose dtMs)
    (hlocked : n.state.lockedValue = some locked)
    (hb : ((n.elapse dtMs).tickPropose rt sg dtMs drain now).tickChoice = some b) : b = locked := by
  obtain ⟨hheld, hbuilt⟩ := hkeep hdec hstep hends locked hlocked
  cases hp : n.state.proposal with
  | some p =>
    simp only [elapse, tickPropose, hp, Option.isNone_some, Bool.and_false, Bool.false_eq_true,
      if_false, tickChoice, Option.bind_some] at hb
    split at hb
    · rename_i hpb
      cases hb
      exact hheld p hp hpb
    · cases hb
  | none =>
    exfalso
    have hsame : (n.elapse dtMs).tickPropose rt sg dtMs drain now = n.elapse dtMs := by
      rw [tickPropose]
      split
      · rename_i hfirst
        have hnot := hbuilt hp (by simpa [elapse, hp] using hfirst)
        simp only [isProposer] at hnot
        simp [elapse, maybePropose, hp, isProposer, hnot]
      · rfl
    rw [hsame] at hb
    simp [elapse, tickChoice, hp] at hb

theorem tick_moves (hbuild : D.linked → rt.BuildsLinked) {dtMs : UInt64} {drain : ℕ → List Tx}
    (hkeep : D.keepsLock → n.KeepsLock rt sg (.tick dtMs drain now)) :
    Moves rt sg D n (n.tick rt sg dtMs drain now) := by
  rw [tick]
  split
  · exact .refl
  rename_i hsome
  have hdec : n.state.decided = none := by simpa using hsome
  refine (single (elapse_move n dtMs)).trans ?_
  simp only
  split
  · rename_i hstep
    obtain ⟨hcfg, helapsed, hstep', hdec', hlocked'⟩ :=
      tickPropose_frame rt sg (n.elapse dtMs) dtMs drain now
    have hmoves : Moves rt sg D (n.elapse dtMs)
        ((n.elapse dtMs).tickPropose rt sg dtMs drain now) := by
      rw [tickPropose]
      split
      · exact maybePropose_moves rt sg hbuild _ _ _
      · exact .refl
    rw [tickPrevote]
    split
    · rename_i hends
      refine hmoves.tail (enterPrevote_move (.inl (hdec'.trans hdec))
        (fun _ => .inl (hstep'.trans hstep)) fun hD => ⟨by rw [hstep', hstep]; simp, ?_⟩)
      intro b locked hb hlocked
      rw [hcfg, helapsed] at hends
      simp only [Bool.or_eq_true, Bool.and_eq_true, decide_eq_true_eq] at hends
      exact tickChoice_locked (hkeep hD) hdec hstep (hends.imp (·.1.1) id)
        (hlocked'.symm.trans hlocked) hb
    · exact hmoves
  · rename_i hstep
    split
    · exact advanceRound_moves hbuild (n.elapse dtMs) hdec (.inl hstep) now
    · exact .refl
  · rename_i hstep
    split
    · exact advanceRound_moves hbuild (n.elapse dtMs) hdec (.inr hstep) now
    · exact .refl
  · exact .refl

omit [BlockStore B] in
theorem prevoteChoice_eq {proposalId locked : Hash32} (h : n.prevoteChoice proposalId = some b)
    (hlocked : n.state.lockedValue = some locked) : b = locked := by
  simp only [prevoteChoice, hlocked] at h
  split at h
  · cases h
  · rename_i heq
    cases h
    exact (not_ne_iff.mp heq).symm

theorem note_move (n : Node B) (p : Option Proposal) (pb : Option Block) :
    Move rt sg D n { n with state := { n.state with proposal := p, proposalBlock := pb } } := by
  have hmove : Move rt sg D n _ := .quiet n p pb n.stepElapsedMs n.dsGuard [] (GuardKeeps.refl n)
    (by simp)
  rwa [List.append_nil] at hmove

theorem send_move (n : Node B) {e : Effect} (hvote : e.vote? = none) (hcommit : e.commit? = none) :
    Move rt sg D n (n.send e) :=
  .quiet n n.state.proposal n.state.proposalBlock n.stepElapsedMs n.dsGuard [e]
    (GuardKeeps.refl n) (by simp [hvote, hcommit])

theorem considerProposal_moves {p : Proposal} (hdec : n.state.decided = none)
    (hfresh : D.votesOnce → n.state.step = .propose ∨ n.hasVoted .prevote = true)
    (hstep : D.keepsLock → n.state.step ≠ .precommit) :
    Moves rt sg D n (n.considerProposal rt sg p) := by
  rw [considerProposal]
  split
  · have hvote : Move rt sg D (n.send (.requestBlock p.blockId))
        ((n.send (.requestBlock p.blockId)).enterPrevote rt sg none) :=
      enterPrevote_move (.inl hdec) hfresh fun hD => ⟨hstep hD, by simp⟩
    exact (single (send_move n rfl rfl)).tail hvote |>.tail (note_move _ _ _)
  · rename_i block _
    split
    · exact .single (enterPrevote_move (.inl hdec) hfresh fun hD => ⟨hstep hD, by simp⟩)
    refine (single (note_move n (some p) (some block))).tail
      (enterPrevote_move (.inl hdec) hfresh fun hD => ⟨hstep hD, ?_⟩)
    intro b locked hb hlocked
    exact prevoteChoice_eq hb hlocked

theorem onProposal_moves {p : Proposal} (hok : EventOk rt sg D n (.message (.proposal p) now)) :
    Moves rt sg D n (n.onProposal rt sg p).1 := by
  rw [onProposal]
  split
  · exact .refl
  rename_i hsome
  have hdec : n.state.decided = none := by simpa using hsome
  split
  · exact .refl
  rename_i hver
  have hacc : n.Accepts rt p := ⟨hdec, hver⟩
  have hfresh := fun hD => hok.votesOnce hD hacc
  have hstep := fun hD => hok.keepsLock hD hacc
  simp only [storeCarried]
  split
  · rename_i block hblock
    have hput : Move rt sg D n (n.put block) :=
      .stash n block fun hD => hok.linked hD hacc block hblock
    exact (single hput).trans (considerProposal_moves hdec hfresh hstep)
  · exact considerProposal_moves hdec hfresh hstep

/-! ### Votes -/

variable {v : Vote}

omit [BlockStore B] in
theorem AcceptsVote.spec (h : n.AcceptsVote rt v) :
    n.vset.contains v.voter = true ∧ v.height = n.state.height ∧ v.round = n.state.round ∧
      rt.verify v.voter v.signBytes v.signature = true := by
  obtain ⟨-, hver⟩ := h
  simp only [verifyVote] at hver
  repeat' split at hver
  any_goals cases hver
  rename_i hmem hslot hsig
  simp only [Bool.not_eq_true', Bool.not_eq_false, not_or, not_not] at hmem hslot hsig
  exact ⟨hmem, hslot.1, hslot.2, hsig⟩

theorem AcceptsVote.onVote_eq (h : n.AcceptsVote rt v) (now : UInt64) :
    n.onVote rt sg v now = (n.recordVote v).onQuorum rt sg v now := by
  simp [onVote, h.1, h.2]

theorem onVote_of_not_accepts (h : ¬ n.AcceptsVote rt v) (now : UInt64) :
    (n.onVote rt sg v now).1 = n := by
  rw [onVote]
  split
  · rfl
  rename_i hdec
  split
  · rfl
  · rename_i hver
    exact absurd ⟨by simpa using hdec, hver⟩ h

omit [BlockStore B] in
theorem recordVote_spec (n : Node B) (v : Vote) :
    ∃ i s o, n.recordVote v = { n with
        state := { n.state.insertVote v with voteIndex := i }
        stakes := s, outbox := n.outbox ++ o } ∧
      ((s = n.stakes ∧ o = [] ∧ i = n.state.voteIndex) ∨
       (s = n.stakes ∧ o = [] ∧ i = n.state.voteIndex.insert v.indexKey (v.blockId, v)) ∨
       ∃ x w, n.state.voteIndex[v.indexKey]? = some (x, w) ∧ x ≠ v.blockId ∧
        i = n.state.voteIndex ∧
        s = n.stakes.afterEvidence
          (.doubleVote v.voter v.height v.round v.voteType x v.blockId w v) ∧
        o = [.broadcast (.evidence
          (.doubleVote v.voter v.height v.round v.voteType x v.blockId w v))]) := by
  rw [recordVote, recordVoteAndDetectEvidence]
  cases hidx : n.state.voteIndex[v.indexKey]? with
  | none =>
    exact ⟨_, n.stakes, [], by simp [ConsensusState.insertVote], .inr (.inl ⟨rfl, rfl, rfl⟩)⟩
  | some e =>
    obtain ⟨x, w⟩ := e
    by_cases hne : x ≠ v.blockId
    · refine ⟨n.state.voteIndex, _, _, ?_, .inr (.inr ⟨x, w, rfl, hne, rfl, rfl, rfl⟩)⟩
      simp [hne, applyEvidence, send, ConsensusState.insertVote]
    · refine ⟨n.state.voteIndex, n.stakes, [], ?_, .inl ⟨rfl, rfl, rfl⟩⟩
      simp [hne, ConsensusState.insertVote]

omit [BlockStore B] in
theorem recordVote_frame (n : Node B) (v : Vote) :
    (n.recordVote v).state.step = n.state.step ∧ (n.recordVote v).state.round = n.state.round ∧
      (n.recordVote v).state.height = n.state.height ∧
      (n.recordVote v).state.decided = n.state.decided ∧ (n.recordVote v).vset = n.vset ∧
      (n.recordVote v).store = n.store ∧ (n.recordVote v).appState = n.appState := by
  obtain ⟨i, s, o, heq, -⟩ := recordVote_spec n v
  rw [heq]
  exact ⟨rfl, rfl, rfl, rfl, rfl, rfl, rfl⟩

theorem lockAndPrecommit_move (hdec : n.state.decided = none) (hstep : n.state.step = .prevote)
    (hfresh : D.votesOnce → n.state.lockedRound ≠ some n.state.round ∨ n.hasVoted .precommit = true)
    (hq : n.TallyReaches n.state.round .prevote (some b))
    (hback : D.backed n.state.height n.state.round b) :
    Move rt sg D n (n.lockAndPrecommit rt sg b) := by
  obtain ⟨g, o, heq, hg, ho⟩ := broadcastVote_spec rt sg { n with
      state := { n.state with
        validRound := some n.state.round
        validValue := some b
        lockedRound := some n.state.round
        lockedValue := some b
        step := .precommit }
      stepElapsedMs := 0 } .precommit (some b)
  rw [lockAndPrecommit, heq]
  exact .lock n b g o hdec hstep hfresh hq hback hg ho

theorem commitBlock_moves (hdec : n.state.decided = none) (hstep : n.state.step = .precommit)
    (hq : n.TallyReaches n.state.round .precommit (some b)) :
    Moves rt sg D n (n.commitBlock rt n.state.round b).1 := by
  cases hget : BlockStore.get n.store b with
  | none =>
    simp only [commitBlock, hget]
    exact .single (send_move n rfl rfl)
  | some block =>
    cases hver : rt.verifyBlockWithVset n.appState block
        (rt.deriveAddress block.header.proposerPk)
        (n.vset.proposerFor n.state.height n.state.round).pk with
    | none =>
      simp only [commitBlock, hget, hver]
      exact .refl
    | some res => exact .single (.commit n b block res.1 res.2 hdec hstep hq hget hver)

section

omit [BlockStore B]

variable {round : Round}

theorem TallyReaches.unique {voteType : VoteType} {y : Option Hash32}
    (hx : n.TallyReaches round voteType x) (hy : n.TallyReaches round voteType y) : x = y := by
  obtain ⟨pow, htally, -⟩ := hx
  obtain ⟨pow', htally', -⟩ := hy
  rw [htally] at htally'
  cases htally'
  rfl

theorem not_tallyReaches_of_none {voteType : VoteType} (h : n.tally round voteType = none)
    (x : Option Hash32) : ¬ n.TallyReaches round voteType x := by
  rintro ⟨pow, htally, -⟩
  rw [h] at htally
  cases htally

theorem not_tallyReaches_of_not_le {voteType : VoteType} {pow : UInt64}
    (h : n.tally round voteType = some (x, pow)) (hpow : ¬ n.quorum ≤ pow) (y : Option Hash32) :
    ¬ n.TallyReaches round voteType y := by
  rintro ⟨pow', htally, hle⟩
  rw [h] at htally
  cases htally
  exact hpow hle

end

variable (rt sg) in
theorem onQuorum_outcome (n : Node B) (v : Vote) (now : UInt64) :
    CountOutcome rt sg n v now (n.onQuorum rt sg v now) := by
  rw [onQuorum]
  -- The branches for prevotes and for precommits differ in what a quorum for a block does.
  split
  all_goals
    rename_i htype
    split
    · rename_i hstep
      split
      · rename_i htally
        exact .wait fun _ => htype ▸ not_tallyReaches_of_none htally
      rename_i x pow htally
      split
      · rename_i hpow
        split
        · first
            | exact .lock _ htype hstep ⟨pow, htally, hpow⟩
            | exact .commit _ htype hstep ⟨pow, htally, hpow⟩
        · exact .advance (htype ▸ hstep) (htype ▸ ⟨pow, htally, hpow⟩)
      · rename_i hpow
        exact .wait fun _ => htype ▸ not_tallyReaches_of_not_le htally hpow
    · rename_i hstep
      exact .wait fun h => absurd (h.trans (by rw [htype]; rfl)) hstep

theorem onQuorum_moves (hbuild : D.linked → rt.BuildsLinked) (n : Node B)
    (hdec : n.state.decided = none) (hround : v.round = n.state.round)
    (hfresh : D.votesOnce → v.voteType = .prevote → n.state.step = .prevote →
      n.state.lockedRound ≠ some n.state.round ∨ n.hasVoted .precommit = true)
    (hback : ∀ b, n.TallyReaches n.state.round .prevote (some b) →
      D.backed n.state.height n.state.round b) : Moves rt sg D n (n.onQuorum rt sg v now).1 := by
  have houtcome := onQuorum_outcome rt sg n v now
  generalize n.onQuorum rt sg v now = res at houtcome
  cases houtcome with
  | lock b htype hstep hq =>
    rw [hround] at hq
    exact .single (lockAndPrecommit_move hdec hstep (fun hD => hfresh hD htype hstep) hq
      (hback b hq))
  | commit _ _ hstep hq =>
    rw [hround] at hq ⊢
    exact commitBlock_moves hdec hstep hq
  | advance hstep =>
    refine advanceRound_moves hbuild n hdec ?_ now
    cases htype : v.voteType with
    | prevote => exact .inl (by rw [hstep, htype]; rfl)
    | precommit => exact .inr (by rw [hstep, htype]; rfl)
  | wait => exact .refl

theorem onVote_moves (hbuild : D.linked → rt.BuildsLinked)
    (hok : EventOk rt sg D n (.message (.vote v) now)) :
    Moves rt sg D n (n.onVote rt sg v now).1 := by
  by_cases hacc : n.AcceptsVote rt v
  swap
  · rw [onVote_of_not_accepts hacc]
  rw [hacc.onVote_eq]
  have hrec : Move rt sg D n (n.recordVote v) :=
    .record n v hacc (hok.authentic v now rfl hacc) fun hD => hok.linked hD hacc
  refine (single hrec).trans ?_
  have hfresh := fun hD => hok.votesOnce hD hacc
  have hback := fun b => hok.backed v now b rfl hacc
  obtain ⟨-, -, hround, -⟩ := hacc.spec
  obtain ⟨i, s, o, heq, -⟩ := recordVote_spec n v
  rw [heq] at hback ⊢
  exact onQuorum_moves hbuild _ hacc.1 hround hfresh hback

theorem broadcastPrevote_move (hstep : n.state.step = .prevote)
    (hfresh : D.votesOnce → n.hasVoted .prevote = true)
    (hlock : ∀ b locked, x = some b → n.state.lockedValue = some locked → b = locked) :
    Move rt sg D n (n.broadcastVote rt sg .prevote x) := by
  obtain ⟨g, o, heq, hg, ho⟩ := broadcastVote_spec rt sg n .prevote x
  have hmove : Move rt sg D n _ := .prevote n x n.stepElapsedMs g o (.inr (by rw [hstep]; simp))
    (fun hD => .inr (hfresh hD)) (fun _ => ⟨by rw [hstep]; simp, hlock⟩) hg ho
  rw [heq]
  rwa [← hstep] at hmove

theorem onBlockReceived_moves {block : Block} (hok : EventOk rt sg D n (.blockReceived block)) :
    Moves rt sg D n (n.onBlockReceived rt sg block).1 := by
  have hput : Move rt sg D n (n.put block) := .stash n block hok.linked
  refine (single hput).trans ?_
  have hhold : Move rt sg D (n.put block) ((n.put block).holdBlock block) :=
    note_move (n.put block) n.state.proposal (some block)
  simp only [onBlockReceived]
  split
  · exact .refl
  rename_i prop hprop
  split
  · rename_i hmatch
    refine (single hhold).trans ?_
    split
    · rename_i hstep
      refine .single (broadcastPrevote_move hstep ?_ fun b locked hb hl => prevoteChoice_eq hb hl)
      intro hD
      refine hok.votesOnce hD hstep hmatch.2 ?_
      rw [show n.state.proposal = some prop from hprop, Option.map_some, hmatch.1]
    · exact .refl
  · exact .refl

end Node

variable {rt sg} {n : Node B} {D : Discipline}

theorem handle_moves (hbuild : D.linked → rt.BuildsLinked) {e : Event}
    (hok : EventOk rt sg D n e) : Moves rt sg D n (handle rt sg n e) := by
  cases e with
  | tick => exact Node.tick_moves hbuild hok.keepsLock
  | message msg =>
    cases msg with
    | proposal => exact Node.onProposal_moves hok
    | vote => exact Node.onVote_moves hbuild hok
    | evidence ev => exact .single (.slash n ev hok.genuine)
  | blockReceived => exact Node.onBlockReceived_moves hok
  | nextHeight now =>
    have hone : ¬ D.oneHeight := fun hD => hok.oneHeight hD now rfl
    rw [handle, Node.nextHeight]
    exact (single (.nextHeight n hok.votesOnce hone)).trans
      (Node.maybePropose_moves rt sg hbuild _ _ _)

variable {I : Node B → Prop}

theorem Moves.invariant (hmove : ∀ a b, I a → Move rt sg D a b → I b)
    {a b : Node B} (h : Moves rt sg D a b) (ha : I a) : I b := by
  induction h with
  | refl => exact ha
  | tail _ hstep ih => exact hmove _ _ ih hstep

theorem eventOk_none (n : Node B) (e : Event) : EventOk rt sg .none n e :=
  ⟨False.elim, False.elim, False.elim, False.elim, False.elim, fun _ _ _ _ => trivial,
    fun _ _ _ _ _ _ => trivial⟩

theorem Move.vset_eq {a b : Node B} (h : Move rt sg D a b) : b.vset = a.vset := by
  cases h with
  | record v =>
    obtain ⟨i, s, o, heq, -⟩ := Node.recordVote_spec a v
    rw [heq]
  | commit _ _ _ _ _ _ _ hget hver =>
    simp only [Node.commitBlock, hget, hver]
    rfl
  | _ => rfl

theorem handle_vset (n : Node B) (e : Event) : (handle rt sg n e).vset = n.vset :=
  (handle_moves False.elim (eventOk_none n e)).invariant
    (fun _ _ ha hmove => hmove.vset_eq.trans ha) rfl

theorem invariant_of_moves (hbuild : D.linked → rt.BuildsLinked)
    (hmove : ∀ a b, I a → Move rt sg D a b → I b) {es : List Event}
    (hes : Along (handle rt sg) (EventOk rt sg D) n es) (hn : I n) : I (exec (handle rt sg) n es) :=
  hes.invariant hn fun _ _ hI hok => (handle_moves hbuild hok).invariant hmove hI

omit [BlockStore B] in
theorem Node.Initial.spec (h : n.Initial) :
    n.outbox = [] ∧ n.state = ConsensusState.new n.state.height ∧ n.cfg.validate = .ok () := by
  obtain ⟨hout, cfg, vset, height, prev, app, stakes, dsGuard, hnew⟩ := h
  refine ⟨hout, ?_⟩
  simp only [Engine.new] at hnew
  split at hnew
  · cases hnew
  · rename_i hval
    rw [← Except.ok.inj hnew]
    exact ⟨rfl, hval⟩

theorem along_eventOk_none (n : Node B) (es : List Event) :
    Along (handle rt sg) (EventOk rt sg .none) n es := by
  induction es generalizing n with
  | nil => trivial
  | cons e _ ih => exact ⟨eventOk_none n e, ih _⟩

theorem Reachable.handle (h : Reachable rt sg n) (e : Event) :
    Reachable rt sg (handle rt sg n e) := by
  obtain ⟨n₀, es, h0, rfl⟩ := h
  exact ⟨n₀, es ++ [e], h0, by simp⟩

theorem Reachable.invariant (hinit : ∀ n : Node B, n.Initial → I n)
    (hmove : ∀ a b, I a → Move rt sg .none a b → I b) (h : Reachable rt sg n) : I n := by
  obtain ⟨n₀, es, h0, rfl⟩ := h
  exact invariant_of_moves False.elim hmove (along_eventOk_none n₀ es) (hinit n₀ h0)

end

end IonaOs
