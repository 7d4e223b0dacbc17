import IonaOs.Consensus.Tally
import IonaOs.Consensus.Equivocation

/-!
# The blocks an engine commits
-/

namespace IonaOs

open Lib Sample List

variable {B : Type*} [BlockStore B] {rt : Runtime} {sg : Signer}

/-- After a `put`, a block is the one put or was there before. -/
def BlockStore.Lawful (B : Type*) [BlockStore B] : Prop :=
  ∀ (s : B) (block : Block) (id : Hash32) (found : Block),
    get (put s block) id = some found → found = block ∨ get s id = some found

/-- The engine's `build_block` is the one of the execution module. -/
def Runtime.Builds (rt : Runtime) (P : Primitives) (cfg : ExecutionConfig) : Prop :=
  ∀ height round prev pk addr state fee txs now,
    rt.buildBlock height round prev pk addr state fee txs now =
      (IonaOs.buildBlock P cfg height round prev pk addr state fee txs now).toOption.map (·.1)

theorem Runtime.Builds.linked {P : Primitives} {cfg : ExecutionConfig}
    (h : rt.Builds P cfg) : rt.BuildsLinked := by
  intro height round prev pk addr state fee txs now block hblock
  rw [h] at hblock
  cases hbuild : IonaOs.buildBlock P cfg height round prev pk addr state fee txs now with
  | error => simp [hbuild, Except.toOption] at hblock
  | ok res =>
    simp only [hbuild, Except.toOption, Option.map_some, Option.some.injEq] at hblock
    obtain ⟨b, newState, receipts⟩ := res
    obtain rfl : b = block := hblock
    exact (buildBlock_header P cfg hbuild).2

/-! ## Stored blocks with precommits -/

def Linked (n : Node B) : Prop :=
  n.state.decided = none → ∀ (round : Round) (pk : PublicKeyBytes) (v : Vote) (bid : Hash32)
    (block : Block), (n.state.votesAt round .precommit)[pk]? = some v → v.blockId = some bid →
    BlockStore.get n.store bid = some block → n.Links block

variable {n : Node B}

theorem Linked.initial (h : n.Initial) : Linked n := by
  intro _ round pk v bid block hv
  rw [h.spec.2.1] at hv
  simp at hv

theorem Linked.recordVote {v : Vote} (h : Linked n)
    (hlink : v.voteType = .precommit → ∀ bid block, v.blockId = some bid →
      BlockStore.get n.store bid = some block → n.Links block) : Linked (n.recordVote v) := by
  obtain ⟨i, s, o, heq, -⟩ := Node.recordVote_spec n v
  rw [heq]
  intro hdec round pk w bid block hw hid hget
  have hw' : ((n.state.insertVote v).votesAt round .precommit)[pk]? = some w := hw
  rw [ConsensusState.votesAt_insertVote] at hw'
  split at hw'
  · rename_i hslot
    rw [Std.ExtTreeMap.getElem?_insert] at hw'
    split at hw'
    · cases hw'
      exact hlink hslot.2 bid block hid hget
    · exact h hdec round pk w bid block hw' hid hget
  · exact h hdec round pk w bid block hw' hid hget

variable {b a : Node B}

theorem Linked.move {D : Discipline} (hD : D.linked) (hstore : BlockStore.Lawful B) (h : Linked a)
    (hmove : Move rt sg D a b) : Linked b := by
  cases hmove with
  | quiet | prevote | lock | advance | slash => exact h
  | stash _ hlink =>
    intro hdec round pk v bid found hv hid hget
    rcases hstore _ _ _ _ hget with rfl | hold
    · exact hlink hD
    · exact h hdec round pk v bid found hv hid hold
  | record _ _ _ hlink => exact h.recordVote (hlink hD)
  | commit _ _ _ _ _ _ _ hget hver =>
    simp only [Node.commitBlock, hget, hver]
    rintro ⟨⟩
  | nextHeight =>
    intro _ round pk v bid block hv
    have hv' : ((ConsensusState.new (a.state.height + 1)).votesAt round .precommit)[pk]? =
      some v := hv
    simp at hv'

/-! ## What one call commits -/

namespace Node

section

omit [BlockStore B]

variable {o : List Effect}

section

variable (h : b.outbox = a.outbox ++ o)
include h

theorem commits_quiet (ho : ∀ e ∈ o, e.commit? = none) : b.commits = a.commits := by
  rw [commits, commits, h, filterMap_append, filterMap_eq_nil_iff.mpr ho, append_nil]

end

end

theorem commits_nextHeight (n : Node B) (now : UInt64) :
    (n.nextHeight rt sg now).commits = n.commits := by
  rcases maybePropose_spec rt sg
      { n with state := ConsensusState.new (n.state.height + 1), stepElapsedMs := 0 }
      (fun _ => []) now with heq | ⟨block, p, pb, g, o, -, -, -, -, ho, heq⟩
  · rw [nextHeight, heq]
    rfl
  · rw [nextHeight, heq]
    exact commits_quiet (a := n) rfl fun e he => (ho e he).2

end Node

structure Linking (start n : Node B) : Prop where
  linked : Linked n
  log : start.commits.length ≤ n.commits.length
  new : ∀ c ∈ n.commits.drop start.commits.length, start.Links c.2
  stands : n.state.decided = none → n.state.height = start.state.height ∧
    n.prevBlockId = start.prevBlockId ∧ n.baseFeePerGas = start.baseFeePerGas

namespace Linking

variable {start a b : Node B}

theorem refl (h : Linked n) : Linking n n := ⟨h, le_rfl, by simp, fun _ => ⟨rfl, rfl, rfl⟩⟩

theorem stay (h : Linking start a) (hlinked : Linked b) (hcommits : b.commits = a.commits)
    (hdec : b.state.decided = a.state.decided) (hheight : b.state.height = a.state.height)
    (hprev : b.prevBlockId = a.prevBlockId) (hfee : b.baseFeePerGas = a.baseFeePerGas) :
    Linking start b where
  linked := hlinked
  log := by rw [hcommits]; exact h.log
  new := by rw [hcommits]; exact h.new
  stands := by rw [hdec, hheight, hprev, hfee]; exact h.stands

theorem move {D : Discipline} (hD : D.linked) (hone : D.oneHeight) (hstore : BlockStore.Lawful B)
    (h : Linking start a) (hmove : Move rt sg D a b) : Linking start b := by
  have hlinked := h.linked.move hD hstore hmove
  cases hmove with
  | quiet _ _ _ _ _ _ ho =>
    exact h.stay hlinked (Node.commits_quiet rfl fun e he => (ho e he).2) rfl rfl rfl rfl
  | stash | advance | slash => exact h.stay hlinked rfl rfl rfl rfl rfl
  | prevote x t g o hlive hfresh hlock hg ho | lock b g o hdec hstep hfresh hq hback hg ho =>
    refine h.stay hlinked (Node.commits_quiet rfl ?_) rfl rfl rfl rfl
    rcases ho with rfl | ⟨rfl, -⟩ <;> simp [Effect.commit?]
  | record v =>
    obtain ⟨i, s, o, heq, hcases⟩ := Node.recordVote_spec a v
    rw [heq] at hlinked ⊢
    refine h.stay hlinked (Node.commits_quiet rfl ?_) rfl rfl rfl rfl
    rcases hcases with ⟨-, rfl, -⟩ | ⟨-, rfl, -⟩ | ⟨x, w, -, -, -, -, rfl⟩ <;>
      simp [Effect.commit?]
  | commit b block _ _ hdec _ hq hget hver =>
    obtain ⟨pk, v, hv, hid⟩ := hq.exists_vote
    obtain ⟨hheight, hprev, hfee⟩ := h.linked hdec _ pk v b block hv hid hget
    obtain ⟨hheight', hprev', hfee'⟩ := h.stands hdec
    have hlinks : start.Links block :=
      ⟨hheight.trans hheight', hprev.trans hprev', hfee.trans hfee'⟩
    have hcommits : (a.commitBlock rt a.state.round b).1.commits = a.commits ++
        [(⟨a.state.height, b, a.collectVotes a.state.round .precommit (some b)⟩, block)] := by
      simp only [Node.commitBlock, hget, hver, Node.commits, Node.send, filterMap_append]
      rfl
    refine ⟨hlinked, ?_, ?_, ?_⟩
    · rw [hcommits, length_append]
      exact h.log.trans (Nat.le_add_right _ _)
    · intro c hc
      rw [hcommits, drop_append_of_le_length h.log, mem_append, mem_singleton] at hc
      rcases hc with hc | rfl
      · exact h.new c hc
      · exact hlinks
    · simp only [Node.commitBlock, hget, hver]
      rintro ⟨⟩
  | nextHeight _ hone' => exact absurd hone hone'

end Linking

def Discipline.linking (oneHeight : Prop) : Discipline :=
  { Discipline.none with linked := True, oneHeight := oneHeight }

theorem eventOk_linking {oneHeight : Prop} {e : Event} (h : n.CarriesLinked rt e)
    (hone : oneHeight → ∀ now, e ≠ .nextHeight now) : EventOk rt sg (.linking oneHeight) n e where
  votesOnce := False.elim
  keepsLock := False.elim
  linked _ := h
  genuine := False.elim
  oneHeight := hone
  authentic _ _ _ _ := trivial
  backed _ _ _ _ _ _ := trivial

theorem handle_linked (hbuild : rt.BuildsLinked) (hstore : BlockStore.Lawful B) (hlinked : Linked n)
    {e : Event} (he : n.CarriesLinked rt e) :
    ∀ c ∈ (handle rt sg n e).commits.drop n.commits.length, n.Links c.2 := by
  by_cases hnext : ∃ now, e = .nextHeight now
  · obtain ⟨now, rfl⟩ := hnext
    rw [handle, Node.commits_nextHeight, drop_length]
    simp
  · have hok : EventOk rt sg (.linking True) n e :=
      eventOk_linking he fun _ now heq => hnext ⟨now, heq⟩
    exact ((handle_moves (fun _ => hbuild) hok).invariant
      (fun _ _ h hmove => h.move trivial trivial hstore hmove) (Linking.refl hlinked)).new

/-- **Chain linkage.**  In a run that hands the engine only blocks that continue its chain, and
no precommit for a stored block that does not, every block that a call commits has the height,
the parent and the base fee the engine stood at. -/
theorem commits_linked {P : Primitives} {cfg : ExecutionConfig} (hbuild : rt.Builds P cfg)
    (hstore : BlockStore.Lawful B) {n : Node B} (hinit : n.Initial) {es : List Event}
    (hes : Along (handle rt sg) (fun m e => m.CarriesLinked rt e) n es) :
    Along (handle rt sg) (fun m e =>
      ∀ c ∈ (handle rt sg m e).commits.drop m.commits.length, m.Links c.2) n es := by
  rw [along_iff_forall_split]
  rintro pre e post rfl
  obtain ⟨hpre, he, -⟩ := along_append.mp hes
  refine handle_linked hbuild.linked hstore ?_ he
  exact invariant_of_moves (D := .linking False) (fun _ => hbuild.linked)
    (fun _ _ h hmove => h.move trivial hstore hmove)
    (hpre.mono fun _ _ h => eventOk_linking h False.elim) (Linked.initial hinit)

theorem Sample.store_lawful : BlockStore.Lawful Store := by
  intro s block id found h
  simp only [BlockStore.get, BlockStore.put, find?_cons] at h ⊢
  split at h
  · exact .inl (Option.some.inj h).symm
  · exact .inr h

/-- One block after the other: validator `[1]` commits the block it has built. -/
theorem commits_linked_decidingRun :
    Along (handle runtime (signer 1)) (fun m e =>
      ∀ c ∈ (handle runtime (signer 1) m e).commits.drop m.commits.length,
        m.Links c.2) (node none) decidingRun := by
  have hprecommit : ∀ (m : Node Store) (k : UInt8),
      BlockStore.get m.store (blockId (firstBlock 1 0)) =
        some (firstBlock 1 0) → m.Links (firstBlock 1 0) →
      m.CarriesLinked runtime (deliver (precommit k 1 0)) := by
    rintro m k hget hlinks - - bid block ⟨⟩ hfound
    rw [hget] at hfound
    cases hfound
    exact hlinks
  refine commits_linked (P := primitives) (fun _ _ _ _ _ _ _ _ _ => rfl)
    store_lawful (node_initial none) ⟨trivial, ?_, ?_, ?_, ?_, trivial⟩
  · exact fun _ htype => absurd htype (by decide)
  · exact fun _ htype => absurd htype (by decide)
  · exact hprecommit _ 1 (by decide +kernel) (by decide +kernel)
  · exact hprecommit _ 2 (by decide +kernel) (by decide +kernel)

/-- A block of validator `[1]` for another height, on another parent and with another base fee. -/
def craftedBlock : Block := block 7 0 (.replicate 32 5) [1] 99

/-- Validator `[2]` gets a proposal that carries the crafted block, and its votes but one. -/
def craftedRun : List Event :=
  [propose (proposal 1 0 craftedBlock none),
    deliver (vote 1 .prevote 0 (some (blockId craftedBlock))),
    deliver (vote 2 .prevote 0 (some (blockId craftedBlock))),
    deliver (vote 1 .precommit 0 (some (blockId craftedBlock)))]

/-- The crafted block passes `verify_block` and is committed. -/
theorem craftedBlock_committed : ∃ n : Node Store,
    n = exec (handle runtime (signer 2)) (node none) craftedRun ∧
    (handle runtime (signer 2) n (deliver
      (vote 2 .precommit 0 (some (blockId craftedBlock))))).commits.map Prod.snd =
        [craftedBlock] ∧
    craftedBlock.header.height ≠ n.state.height ∧ craftedBlock.header.prev ≠ n.prevBlockId ∧
    craftedBlock.header.baseFeePerGas ≠ n.baseFeePerGas :=
  ⟨_, rfl, by decide +kernel, by decide +kernel, by decide +kernel, by decide +kernel⟩

end IonaOs
