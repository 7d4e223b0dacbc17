import IonaOs.Consensus.Accountability

/-!
# How often an offence is punished
-/

namespace IonaOs

open Lib List Evidence Sample

/-- The evidence that is the first in the list about its offence, none of them in `seen`. -/
def firstReports (seen : List Offence) : List Evidence → List Evidence
  | [] => []
  | ev :: evs =>
    if ev.offence ∈ seen then firstReports seen evs
    else ev :: firstReports (ev.offence :: seen) evs

theorem firstReports_concat (seen : List Offence) (evs : List Evidence) (ev : Evidence) :
    firstReports seen (evs ++ [ev]) = firstReports seen evs ++
      if ev.offence ∈ seen ∨ ev.offence ∈ evs.map offence then [] else [ev] := by
  induction evs generalizing seen with
  | nil =>
    by_cases h : ev.offence ∈ seen
    · simp [firstReports, h]
    · simp [firstReports, h]
  | cons first evs ih =>
    by_cases h : first.offence ∈ seen
    · have hsame : (ev.offence ∈ seen ∨ ev.offence = first.offence ∨
          ev.offence ∈ evs.map offence) ↔
          (ev.offence ∈ seen ∨ ev.offence ∈ evs.map offence) := by
        constructor
        · rintro (hs | heq | hm)
          · exact .inl hs
          · exact .inl (heq ▸ h)
          · exact .inr hm
        · rintro (hs | hm)
          · exact .inl hs
          · exact .inr (.inr hm)
      simp only [cons_append, firstReports, h, if_true, ih, map_cons, mem_cons, hsame]
    · have hsame : ((ev.offence = first.offence ∨ ev.offence ∈ seen) ∨
          ev.offence ∈ evs.map offence) ↔
          (ev.offence ∈ seen ∨ ev.offence = first.offence ∨
            ev.offence ∈ evs.map offence) := by
        rw [or_comm (a := ev.offence = first.offence), or_assoc]
      simp only [cons_append, firstReports, h, if_false, ih, map_cons, mem_cons, hsame]

namespace StakeLedger

variable (l : StakeLedger)

def verdict (pk : PublicKeyBytes) : Option (UInt64 × ValidatorStatus) :=
  l.validators[pk]?.map fun record => (record.slashedTotal, record.status)

def Spares (ev : Evidence) : Prop :=
  l.fraction ev = 0 ∨ ∀ record, l.validators[ev.offender]? = some record →
    record.status = .tombstoned

variable {l}

theorem slashedTotal_slashed (record : ValidatorRecord) (amount : UInt64) :
    (l.slashed record amount).slashedTotal = record.slashedTotal + amount := by
  simp only [slashed]
  repeat' split
  all_goals rfl

theorem afterEvidence_of_spares {ev : Evidence} (h : l.Spares ev) : l.afterEvidence ev = l := by
  simp only [afterEvidence, applyEvidence]
  cases hrec : l.validators[ev.offender]? with
  | none => rfl
  | some record =>
    by_cases htomb : record.isTombstoned = true
    · simp [htomb]
    · rcases h with hzero | hall
      · simp [htomb, hzero]
      · exact absurd (by simpa [ValidatorRecord.isTombstoned] using hall record hrec) htomb

theorem spares_of_verdict_eq {ev : Evidence}
    (h : (l.afterEvidence ev).verdict ev.offender = l.verdict ev.offender) : l.Spares ev := by
  by_contra hspares
  simp only [Spares, not_or, not_forall] at hspares
  obtain ⟨hfraction, record, hrec, hstatus⟩ := hspares
  have htomb : record.isTombstoned = false := by simp [ValidatorRecord.isTombstoned, hstatus]
  have hamount := max_one_ne_zero (record.stake / l.fraction ev)
  simp only [verdict, afterEvidence, applyEvidence, hrec, htomb, hfraction, hamount, if_false,
    Bool.false_eq_true, Std.ExtTreeMap.getElem?_insert_self, Option.map_some, Option.some.injEq,
    Prod.mk.injEq, slashedTotal_slashed] at h
  exact hamount (by simpa using h.1)

end StakeLedger

/-! ## What a run delivers -/

section

variable {B : Type*} [BlockStore B] (rt : Runtime) (sg : Signer)

def Node.evidenceOf (n : Node B) : Event → Option Evidence
  | .message (.evidence ev) _ => some ev
  | .message (.vote v) _ =>
    if n.AcceptsVote rt v then (n.recordVoteAndDetectEvidence v).2 else none
  | _ => none

def delivered : Node B → List Event → List Evidence
  | _, [] => []
  | n, e :: es => (n.evidenceOf rt e).toList ++ delivered (handle rt sg n e) es

variable {rt sg}

theorem delivered_concat (n : Node B) (es : List Event) (e : Event) :
    delivered rt sg n (es ++ [e]) =
      delivered rt sg n es ++ ((exec (handle rt sg) n es).evidenceOf rt e).toList := by
  induction es generalizing n with
  | nil => simp [delivered]
  | cons _ _ ih => simp [delivered, ih]

namespace Node

variable (n : Node B)

omit [BlockStore B] in
@[simp] theorem broadcastVote_stakes (voteType : VoteType) (x : Option Hash32) :
    (n.broadcastVote rt sg voteType x).stakes = n.stakes := by
  obtain ⟨g, o, heq, -⟩ := broadcastVote_spec rt sg n voteType x
  rw [heq]

@[simp] theorem maybePropose_stakes (drain : ℕ → List Tx) (now : UInt64) :
    (n.maybePropose rt sg drain now).stakes = n.stakes := by
  rcases maybePropose_spec rt sg n drain now with heq | ⟨_, _, _, _, _, -, -, -, -, -, heq⟩ <;>
    rw [heq]
  rfl

omit [BlockStore B] in
@[simp] theorem enterPrevote_stakes (x : Option Hash32) :
    (n.enterPrevote rt sg x).stakes = n.stakes := by
  rw [enterPrevote, broadcastVote_stakes]

@[simp] theorem advanceRound_stakes (now : UInt64) :
    (n.advanceRound rt sg now).stakes = n.stakes := by
  rw [advanceRound]
  split
  · rfl
  · rw [maybePropose_stakes]

omit [BlockStore B] in
@[simp] theorem elapse_stakes (dtMs : UInt64) : (n.elapse dtMs).stakes = n.stakes := rfl

@[simp] theorem tickPropose_stakes (dtMs : UInt64) (drain : ℕ → List Tx) (now : UInt64) :
    (n.tickPropose rt sg dtMs drain now).stakes = n.stakes := by
  rw [tickPropose]
  split
  · rw [maybePropose_stakes]
  · rfl

theorem tick_stakes (dtMs : UInt64) (drain : ℕ → List Tx) (now : UInt64) :
    (n.tick rt sg dtMs drain now).stakes = n.stakes := by
  simp only [tick, tickPrevote]
  repeat' split
  all_goals simp

theorem onProposal_stakes (p : Proposal) : (n.onProposal rt sg p).1.stakes = n.stakes := by
  have hcarried : (n.storeCarried p).stakes = n.stakes := by
    rw [storeCarried]
    split <;> rfl
  simp only [onProposal, considerProposal]
  repeat' split
  all_goals simp only [enterPrevote_stakes, send, hcarried]

theorem onQuorum_stakes (v : Vote) (now : UInt64) :
    (n.onQuorum rt sg v now).1.stakes = n.stakes := by
  have houtcome := onQuorum_outcome rt sg n v now
  generalize n.onQuorum rt sg v now = res at houtcome
  cases houtcome with
  | lock => rw [lockAndPrecommit, broadcastVote_stakes]
  | commit =>
    simp only [commitBlock]
    repeat' split
    all_goals rfl
  | advance => rw [advanceRound_stakes]
  | wait => rfl

theorem onBlockReceived_stakes (block : Block) :
    (n.onBlockReceived rt sg block).1.stakes = n.stakes := by
  simp only [onBlockReceived]
  repeat' split
  all_goals simp [put, holdBlock]

omit [BlockStore B] in
theorem recordVote_stakes (v : Vote) :
    (n.recordVote v).stakes = match (n.recordVoteAndDetectEvidence v).2 with
      | some ev => n.stakes.afterEvidence ev
      | none => n.stakes := by
  simp only [recordVote, recordVoteAndDetectEvidence]
  cases n.state.voteIndex[v.indexKey]? with
  | none => rfl
  | some prev =>
    by_cases hne : prev.1 ≠ v.blockId
    · simp [hne, applyEvidence, send]
    · simp [hne]

end Node

theorem handle_stakes (n : Node B) (e : Event) :
    (handle rt sg n e).stakes = match n.evidenceOf rt e with
      | some ev => n.stakes.afterEvidence ev
      | none => n.stakes := by
  cases e with
  | tick dtMs drain now => exact n.tick_stakes dtMs drain now
  | message msg =>
    cases msg with
    | proposal p => exact n.onProposal_stakes p
    | evidence => rfl
    | vote v =>
      by_cases hacc : n.AcceptsVote rt v
      · simp only [handle, Node.onMessage, hacc.onVote_eq, Node.onQuorum_stakes,
          Node.evidenceOf, hacc, if_true, Node.recordVote_stakes]
      · simp only [handle, Node.onMessage, Node.onVote_of_not_accepts hacc, Node.evidenceOf,
          hacc, if_false]
  | blockReceived block => exact n.onBlockReceived_stakes block
  | nextHeight => exact Node.maybePropose_stakes _ _ _

variable (rt sg) in
/-- The call after `pre` makes no second report of an offence that can still be punished. -/
def ReportsOnce (n : Node B) (pre : List Event) (e : Event) : Prop :=
  ∀ ev, (exec (handle rt sg) n pre).evidenceOf rt e = some ev →
    ev.offence ∈ (delivered rt sg n pre).map Evidence.offence →
      (exec (handle rt sg) n pre).stakes.Spares ev

theorem stakes_eq_firstReports {n : Node B} {es : List Event}
    (h : ∀ pre e post, es = pre ++ e :: post → ReportsOnce rt sg n pre e) :
    (exec (handle rt sg) n es).stakes =
      (firstReports [] (delivered rt sg n es)).foldl StakeLedger.afterEvidence n.stakes := by
  induction es using reverseRecOn with
  | nil => rfl
  | append_singleton es e ih =>
    have hes := ih fun pre e' post heq => h pre e' (post ++ [e]) (by simp [heq])
    rw [exec_append, delivered_concat, exec_cons, exec_nil, handle_stakes]
    cases hev : (exec (handle rt sg) n es).evidenceOf rt e with
    | none => simpa using hes
    | some ev =>
      simp only [Option.toList_some, firstReports_concat, not_mem_nil, false_or]
      split
      · rename_i hseen
        have hspares := h es e [] (by simp) ev hev hseen
        rw [StakeLedger.afterEvidence_of_spares hspares, append_nil, hes]
      · rw [foldl_append, ← hes]
        rfl

/-- **An offence is punished once.**  At every point of a run the amount slashed from each key and
its status are those after the first report of each offence alone, if and only if no call reports
an offence again whose offender the ledger can still punish. -/
theorem punished_once_iff (n : Node B) (es : List Event) :
    (∀ pre post, es = pre ++ post → ∀ pk, (exec (handle rt sg) n pre).stakes.verdict pk =
      ((firstReports [] (delivered rt sg n pre)).foldl StakeLedger.afterEvidence n.stakes).verdict
        pk) ↔
    ∀ pre e post, es = pre ++ e :: post → ReportsOnce rt sg n pre e := by
  constructor
  · intro h pre e post hes ev hev hseen
    have hbefore := h pre (e :: post) hes ev.offender
    have hafter := h (pre ++ [e]) post (by simp [hes]) ev.offender
    -- A second report is no first report, so the right-hand sides are the same ledger.
    rw [delivered_concat, hev, Option.toList_some, firstReports_concat,
      if_pos (.inr hseen), append_nil, ← hbefore, exec_append, exec_cons, exec_nil,
      handle_stakes, hev] at hafter
    exact StakeLedger.spares_of_verdict_eq hafter
  · intro h pre post hes pk
    rw [stakes_eq_firstReports fun pre' e post' heq => h pre' e (post' ++ post) (by
      rw [hes, heq, append_assoc, cons_append])]

end

/-- Validator `[1]` prevotes nil and then its block, and the second vote arrives twice: it is
slashed twice, and tombstoned. -/
theorem repeatedVote_punished_twice : ∃ n : Node Store,
    n = exec (handle runtime (signer 3)) stakedNode
      [deliver (vote 1 .prevote 0 none), deliver (prevote 1 1 0),
        deliver (prevote 1 1 0)] ∧
    (firstReports [] (delivered runtime (signer 3) stakedNode
      [deliver (vote 1 .prevote 0 none), deliver (prevote 1 1 0),
        deliver (prevote 1 1 0)])).length = 1 ∧
    ((firstReports [] (delivered runtime (signer 3) stakedNode
      [deliver (vote 1 .prevote 0 none), deliver (prevote 1 1 0),
        deliver (prevote 1 1 0)])).foldl StakeLedger.afterEvidence
        stakedNode.stakes).verdict [1] = some (5, .jailed 0 1) ∧
    n.stakes.verdict [1] = some (9, .tombstoned) :=
  ⟨_, rfl, by decide +kernel, by decide +kernel, by decide +kernel⟩

end IonaOs
