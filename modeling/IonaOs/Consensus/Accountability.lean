import IonaOs.Consensus.Moves
import IonaOs.Consensus.Sample

/-!
# Who is slashed
-/

namespace IonaOs

open Lib Sample

variable {B : Type*} [BlockStore B] {rt : Runtime} {sg : Signer}

def Indexed (rt : Runtime) (n : Node B) : Prop :=
  ∀ (key : VoteIndexKey) (x : Option Hash32) (w : Vote), n.state.voteIndex[key]? = some (x, w) →
    w.indexKey = key ∧ w.blockId = x ∧ rt.verify w.voter w.signBytes w.signature = true

variable {n : Node B}

omit [BlockStore B] in
theorem Indexed.initial (h : n.Initial) : Indexed rt n := by
  intro key x w hw
  rw [h.spec.2.1] at hw
  simp [ConsensusState.new] at hw

omit [BlockStore B] in
theorem Indexed.recordVote {v : Vote} (h : Indexed rt n) (hacc : n.AcceptsVote rt v) :
    Indexed rt (n.recordVote v) := by
  obtain ⟨i, s, o, heq, hcases⟩ := Node.recordVote_spec n v
  rw [heq]
  rcases hcases with ⟨-, -, rfl⟩ | ⟨-, -, rfl⟩ | ⟨x, w, -, -, rfl, -⟩
  · exact h
  · intro key x w hw
    have hw' : (n.state.voteIndex.insert v.indexKey (v.blockId, v))[key]? = some (x, w) := hw
    rw [Std.ExtTreeMap.getElem?_insert] at hw'
    split at hw'
    · rename_i hkey
      cases hw'
      exact ⟨Std.LawfulEqCmp.eq_of_compare hkey, rfl, hacc.spec.2.2.2⟩
    · exact h key x w hw'
  · exact h

variable {b a : Node B}

theorem Indexed.move {D : Discipline} (h : Indexed rt a) (hmove : Move rt sg D a b) :
    Indexed rt b := by
  cases hmove with
  | record _ hacc => exact h.recordVote hacc
  | commit _ _ _ _ _ _ _ hget hver =>
    simp only [Node.commitBlock, hget, hver]
    exact h
  | nextHeight =>
    intro key x w hw
    simp [ConsensusState.new] at hw
  | _ => exact h

/-! ## Slashing -/

section

variable {signed : PublicKeyBytes → List UInt8 → Prop}

omit [BlockStore B] in
theorem equivocated_of_recordVote (hsound : ∀ pk m sig, rt.verify pk m sig = true → signed pk m)
    {v : Vote} (h : Indexed rt n) (hacc : n.AcceptsVote rt v) {pk : PublicKeyBytes}
    (hharm : n.stakes.Harms (n.recordVote v).stakes pk) : Equivocated signed pk := by
  obtain ⟨i, s, o, heq, hcases⟩ := Node.recordVote_spec n v
  rw [heq] at hharm
  rcases hcases with ⟨rfl, -, -⟩ | ⟨rfl, -, -⟩ | ⟨x, w, hidx, hne, -, rfl, -⟩
  · exact absurd hharm (StakeLedger.not_harms_self pk)
  · exact absurd hharm (StakeLedger.not_harms_self pk)
  obtain ⟨rfl, -⟩ := StakeLedger.harms_afterEvidence hharm
  obtain ⟨hkey, rfl, hver⟩ := h _ _ _ hidx
  simp only [Vote.indexKey, VoteIndexKey.mk.injEq] at hkey
  obtain ⟨hvoter, hheight, hround, htype⟩ := hkey
  refine .votes v.voteType v.height v.round w.blockId v.blockId hne ?_
    (hsound _ _ _ hacc.spec.2.2.2)
  have hsigned := hsound _ _ _ hver
  rw [Vote.signBytes, hvoter, hheight, hround, htype] at hsigned
  exact hsigned

structure Accountable (rt : Runtime) (signed : PublicKeyBytes → List UInt8 → Prop)
    (start n : Node B) : Prop where
  indexed : Indexed rt n
  harmed : ∀ pk, start.stakes.Harms n.stakes pk → Equivocated signed pk

omit [BlockStore B] in
theorem Accountable.next {start : Node B} (h : Accountable rt signed start a)
    (hindexed : Indexed rt b) (hharm : ∀ pk, a.stakes.Harms b.stakes pk → Equivocated signed pk) :
    Accountable rt signed start b :=
  ⟨hindexed, fun pk hpk => hpk.or.elim (h.harmed pk) (hharm pk)⟩

theorem Accountable.move (hsound : ∀ pk m sig, rt.verify pk m sig = true → signed pk m)
    {D : Discipline} (hD : D.genuine) {start : Node B} (h : Accountable rt signed start a)
    (hmove : Move rt sg D a b) : Accountable rt signed start b := by
  have hindexed := h.indexed.move hmove
  cases hmove with
  | record _ hacc =>
    exact h.next hindexed fun pk => equivocated_of_recordVote hsound h.indexed hacc
  | commit b _ _ _ _ _ _ hget hver =>
    have hstakes : (a.commitBlock rt a.state.round b).1.stakes = a.stakes := by
      simp only [Node.commitBlock, hget, hver]
      rfl
    exact ⟨hindexed, by rw [hstakes]; exact h.harmed⟩
  | slash _ hgen =>
    refine h.next hindexed fun pk hpk => ?_
    obtain ⟨rfl, hnot⟩ := StakeLedger.harms_afterEvidence hpk
    rcases hgen hD with ⟨hval, hfaith⟩ | hignored
    · exact equivocated_of_validate hsound rfl hval hfaith
    · exact absurd hignored hnot
  | _ => exact ⟨hindexed, h.harmed⟩

def Discipline.genuineOnly : Discipline := { Discipline.none with genuine := True }

theorem eventOk_genuine {e : Event} (h : n.GenuineEvidence rt e) :
    EventOk rt sg .genuineOnly n e where
  votesOnce := False.elim
  keepsLock := False.elim
  linked := False.elim
  genuine _ := h
  oneHeight := False.elim
  authentic _ _ _ _ := trivial
  backed _ _ _ _ _ _ := trivial

/-- **No forged slashing.**  In a run in which every evidence a peer sends validates and has the
block ids of its messages, or is against a key that the ledger passes over, a call takes stake
from a key, or takes it out of the active set, only if the key really signed two block ids for
one height, round and kind of message. -/
theorem slashed_equivocated (hsound : ∀ pk m sig, rt.verify pk m sig = true → signed pk m)
    {n : Node B} (hinit : n.Initial) {es : List Event}
    (hes : Along (handle rt sg) (fun m e => m.GenuineEvidence rt e) n es) :
    Along (handle rt sg) (fun m e => ∀ pk, m.stakes.Harms (handle rt sg m e).stakes pk →
      Equivocated signed pk) n es := by
  rw [along_iff_forall_split]
  rintro pre e post rfl
  obtain ⟨-, he, -⟩ := along_append.mp hes
  have hindexed : Indexed rt (exec (handle rt sg) n pre) :=
    Reachable.invariant (fun _ => Indexed.initial) (fun _ _ h hmove => h.move hmove)
      ⟨n, pre, hinit, rfl⟩
  have hstart : Accountable rt signed (exec (handle rt sg) n pre) (exec (handle rt sg) n pre) :=
    ⟨hindexed, fun pk hpk => absurd hpk (StakeLedger.not_harms_self pk)⟩
  exact ((handle_moves False.elim (eventOk_genuine he)).invariant
    (fun _ _ h hmove => h.move hsound trivial hmove) hstart).harmed

end

/-- A new engine whose ledger has the active validators `[1]` and `[2]` with a stake of 100. -/
def stakedNode : Node Store :=
  { node none with stakes := ⟨((∅ : Std.ExtTreeMap PublicKeyBytes ValidatorRecord).insert [1]
      (.new 100)).insert [2] (.new 100), 0, 0, {}⟩ }

theorem stakedNode_initial : stakedNode.Initial :=
  ⟨rfl, {}, .three, 0, genesis, .empty, _, none, rfl⟩

/-- All that was ever signed: validator `[1]` signed a prevote for nil and one for its block. -/
def signedLog : List (PublicKeyBytes × List UInt8) :=
  [([1], (vote 1 .prevote 0 none).signBytes), ([1], (prevote 1 1 0).signBytes)]

def loggedRuntime : Runtime :=
  { runtime with verify := fun pk m _ => signedLog.contains (pk, m) }

theorem loggedRuntime_sound (pk : PublicKeyBytes) (m : List UInt8) (sig : SignatureBytes)
    (h : loggedRuntime.verify pk m sig = true) : (pk, m) ∈ signedLog :=
  List.contains_iff_mem.mp h

/-- Validator `[1]` prevotes nil and then a block, and is slashed for it. -/
theorem slashed_equivocated_staked : ∃ n : Node Store,
    n = handle loggedRuntime (signer 3) stakedNode
      (deliver (vote 1 .prevote 0 none)) ∧
    n.stakes.Harms (handle loggedRuntime (signer 3) n
      (deliver (prevote 1 1 0))).stakes [1] ∧
    Equivocated (fun pk m => (pk, m) ∈ signedLog) [1] := by
  have hgenuine : Along (handle loggedRuntime (signer 3))
      (fun m e => m.GenuineEvidence loggedRuntime e) stakedNode
      [deliver (vote 1 .prevote 0 none), deliver (prevote 1 1 0)] :=
    ⟨trivial, trivial, trivial⟩
  have hrun := slashed_equivocated loggedRuntime_sound stakedNode_initial hgenuine
  have hharm : (handle loggedRuntime (signer 3) stakedNode
      (deliver (vote 1 .prevote 0 none))).stakes.Harms
      (handle loggedRuntime (signer 3) (handle loggedRuntime (signer 3) stakedNode
        (deliver (vote 1 .prevote 0 none)))
        (deliver (prevote 1 1 0))).stakes [1] := .inl (by decide +kernel)
  exact ⟨_, rfl, hharm, hrun.2.1 [1] hharm⟩

/-- Evidence against validator `[2]` made up of votes that nobody signed. -/
def forgedEvidence : Evidence :=
  .doubleVote [2] 0 0 .prevote none (some genesis)
    ⟨.prevote, 0, 0, [2], none, []⟩ ⟨.prevote, 0, 0, [2], some genesis, []⟩

/-- Validator `[2]` has signed nothing at all and is slashed for an evidence whose signatures do
not verify. -/
theorem forgedEvidence_slashes :
    (∀ pk m sig, loggedRuntime.verify pk m sig = true → (pk, m) ∈ signedLog) ∧
    stakedNode.Initial ∧
    stakedNode.stakes.Harms (handle loggedRuntime (signer 1) stakedNode
      (.message (.evidence forgedEvidence) 0)).stakes [2] ∧
    ¬ Equivocated (fun pk m => (pk, m) ∈ signedLog) [2] := by
  refine ⟨loggedRuntime_sound, stakedNode_initial, .inl (by decide +kernel), ?_⟩
  have hnone : ∀ m, ([2], m) ∉ signedLog := by simp [signedLog]
  rintro (⟨_, _, _, _, _, _, hx, _⟩ | ⟨_, _, _, _, _, _, _, hx, _⟩)
  · exact hnone _ hx
  · exact hnone _ hx

end IonaOs
