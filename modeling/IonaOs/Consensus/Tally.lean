import IonaOs.Consensus.Progress

/-!
# Recorded votes, quorums and certificates
-/

namespace IonaOs

open Lib VoteTally List Sample

variable {B : Type*} [BlockStore B] {rt : Runtime} {sg : Signer}

/-! ## The vote map -/

@[simp] theorem ConsensusState.votesAt_new (height : Height) (round : Round)
    (voteType : VoteType) : (ConsensusState.new height).votesAt round voteType = ∅ := by
  simp [votesAt, new]

theorem ConsensusState.votesAt_insertVote (s : ConsensusState) (v : Vote) (round : Round)
    (voteType : VoteType) :
    (s.insertVote v).votesAt round voteType =
      if v.round = round ∧ v.voteType = voteType then
        (s.votesAt round voteType).insert v.voter v
      else s.votesAt round voteType := by
  simp only [insertVote, votesAt, Std.ExtTreeMap.getElem?_insert, Std.LawfulEqOrd.compare_eq_iff_eq]
  by_cases hround : v.round = round
  · subst hround
    by_cases htype : v.voteType = voteType
    · subst htype
      simp
    · simp [Std.ExtTreeMap.getElem?_insert, htype]
  · simp [hround]

def VoteMap.ballots (votes : VoteMap) : List (PublicKeyBytes × Option Hash32) :=
  votes.toList.map fun e => (e.1, e.2.blockId)

open VoteMap

variable {x : Option Hash32}

theorem VoteMap.mem_ballots {votes : VoteMap} {pk : PublicKeyBytes} :
    (pk, x) ∈ votes.ballots ↔ ∃ v, votes[pk]? = some v ∧ v.blockId = x := by
  simp only [ballots, mem_map, Prod.mk.injEq, Prod.exists,
    Std.ExtTreeMap.mem_toList_iff_getElem?_eq_some]
  constructor
  · rintro ⟨k, v, hv, rfl, rfl⟩
    exact ⟨v, hv, rfl⟩
  · rintro ⟨v, hv, rfl⟩
    exact ⟨pk, v, hv, rfl, rfl⟩

theorem VoteMap.nodup_ballots (votes : VoteMap) : (votes.ballots.map Prod.fst).Nodup := by
  have hkeys := votes.distinct_keys_toList
  rw [ballots, map_map, Nodup, pairwise_map]
  refine hkeys.imp ?_
  intro a b hne heq
  exact hne (by simpa using heq)

variable {n : Node B}

namespace Node

def votePower (n : Node B) (round : Round) (voteType : VoteType) (x : Option Hash32) : ℕ :=
  powerFor n.vset (n.state.votesAt round voteType).ballots x

/-- Those whose recorded vote is for `x`. -/
def votersFor (n : Node B) (round : Round) (voteType : VoteType) (x : Option Hash32) :
    Finset PublicKeyBytes :=
  (((n.state.votesAt round voteType).ballots.filter (·.2 = x)).map Prod.fst).toFinset

omit [BlockStore B] in
theorem mem_votersFor {round : Round} {voteType : VoteType} {pk : PublicKeyBytes} :
    pk ∈ n.votersFor round voteType x ↔
      ∃ v, (n.state.votesAt round voteType)[pk]? = some v ∧ v.blockId = x := by
  simp only [votersFor, mem_toFinset, mem_map, mem_filter, decide_eq_true_eq, Prod.exists]
  constructor
  · rintro ⟨k, y, ⟨hmem, rfl⟩, rfl⟩
    exact mem_ballots.mp hmem
  · intro h
    exact ⟨pk, x, ⟨mem_ballots.mpr h, rfl⟩, rfl⟩

omit [BlockStore B] in
theorem votePower_eq_weight (n : Node B) (round : Round) (voteType : VoteType) (x : Option Hash32) :
    n.votePower round voteType x = weight n.vset.power (n.votersFor round voteType x) := by
  have hnodup : (((n.state.votesAt round voteType).ballots.filter (·.2 = x)).map Prod.fst).Nodup :=
    (nodup_ballots _).sublist (filter_sublist.map _)
  rw [votePower, powerFor, weight, votersFor, sum_toFinset _ hnodup, map_map]
  rfl

/-! ## The tally -/

section

omit [BlockStore B]

theorem tally_eq (n : Node B) (round : Round) (voteType : VoteType) :
    n.tally round voteType =
      ((new {}).count n.vset (n.state.votesAt round voteType).ballots).best.toOption := by
  have hempty : ((new {}).count n.vset (ballots ∅)).best.toOption = none := by
    rfl
  rw [tally, ConsensusState.votesAt]
  cases hround : n.state.votes[round]? with
  | none => simpa using hempty.symm
  | some rt =>
    cases htype : rt[voteType]? with
    | none => simpa [htype] using hempty.symm
    | some => simp [htype, ballots]

theorem count_ballots (n : Node B) (round : Round) (voteType : VoteType) (x : Option Hash32) :
    ((((new {}).count n.vset (n.state.votesAt round voteType).ballots).buckets[x]?).getD
      0).toNat = min (n.votePower round voteType x) (2 ^ 64 - 1) := by
  rw [count_bucket (nodup_ballots _) (by simp [new])]
  simp [new, votePower]

variable {round : Round} {voteType : VoteType}

theorem best_of_tally {res : Option Hash32 × UInt64} (h : n.tally round voteType = some res) :
    ((new {}).count n.vset (n.state.votesAt round voteType).ballots).best = .ok res := by
  rw [tally_eq] at h
  revert h
  cases ((new {}).count n.vset (n.state.votesAt round voteType).ballots).best with
  | error => intro h; cases h
  | ok => intro h; cases h; rfl

theorem tally_spec {pow : UInt64} (h : n.tally round voteType = some (x, pow)) :
    pow.toNat = min (n.votePower round voteType x) (2 ^ 64 - 1) ∧
      ∀ y, min (n.votePower round voteType y) (2 ^ 64 - 1) ≤ pow.toNat := by
  obtain ⟨hbucket, hmax⟩ := best_spec (best_of_tally h)
  refine ⟨?_, fun y => ?_⟩
  · rw [← count_ballots, hbucket, Option.getD_some]
  rw [← count_ballots]
  cases hy : ((new {}).count n.vset
      (n.state.votesAt round voteType).ballots).buckets[y]? with
  | none => simp
  | some p => exact UInt64.le_iff_toNat_le.mp (hmax y p hy)

theorem TallyReaches.exists_vote (h : n.TallyReaches round voteType x) :
    ∃ (pk : PublicKeyBytes) (v : Vote), (n.state.votesAt round voteType)[pk]? = some v ∧
      v.blockId = x := by
  obtain ⟨pow, htally, -⟩ := h
  obtain ⟨pk, hpk⟩ := vote_of_bucket (nodup_ballots _)
    (fun _ _ => by simp [new]) (by simp [new])
    (best_spec (best_of_tally htally)).1
  exact ⟨pk, mem_ballots.mp hpk⟩

theorem exists_tally (h : 0 < n.votePower round voteType x) :
    ∃ y pow, n.tally round voteType = some (y, pow) := by
  obtain ⟨p, hp⟩ := bucket_of_count (t := .new {}) (nodup_ballots _)
    (fun _ _ => by simp [new]) h
  obtain ⟨y, pow, hbest⟩ := best_of_bucket hp
  exact ⟨y, pow, by rw [tally_eq, hbest]; rfl⟩

theorem TallyReaches.quorum_le (h : n.TallyReaches round voteType x) :
    n.quorum.toNat ≤ n.votePower round voteType x := by
  obtain ⟨pow, htally, hq⟩ := h
  have hpow := (tally_spec htally).1
  rw [UInt64.le_iff_toNat_le] at hq
  omega

end

end Node

/-! ## Filed votes -/

/-- Every recorded vote stands under its own round, type and voter, at the engine's height and
at a round it has reached, comes from a member, and satisfies `K`. -/
def Filed (K : Vote → Prop) (n : Node B) : Prop :=
  ∀ (round : Round) (voteType : VoteType) (pk : PublicKeyBytes) (v : Vote),
    (n.state.votesAt round voteType)[pk]? = some v →
    v.round = round ∧ v.voteType = voteType ∧ v.voter = pk ∧ v.height = n.state.height ∧
      n.vset.contains pk = true ∧ round.toNat ≤ n.state.round.toNat ∧ K v

variable {K : Vote → Prop}

section

omit [BlockStore B]

theorem Filed.initial (h : n.Initial) : Filed K n := by
  intro round voteType pk v hv
  rw [h.spec.2.1] at hv
  simp at hv

theorem Filed.votersFor_subset (h : Filed K n) {round : Round} {voteType : VoteType} :
    n.votersFor round voteType x ⊆ n.vset.members := by
  intro pk hpk
  obtain ⟨v, hv, -⟩ := Node.mem_votersFor.mp hpk
  exact n.vset.mem_members.mpr (h _ _ _ _ hv).2.2.2.2.1

theorem Filed.recordVote {v : Vote} (h : Filed K n) (hacc : n.AcceptsVote rt v) (hK : K v) :
    Filed K (n.recordVote v) := by
  obtain ⟨hmem, hheight, hround, -⟩ := hacc.spec
  obtain ⟨i, s, o, heq, -⟩ := Node.recordVote_spec n v
  rw [heq]
  intro round voteType pk w hw
  have hw' : ((n.state.insertVote v).votesAt round voteType)[pk]? = some w := hw
  rw [ConsensusState.votesAt_insertVote] at hw'
  split at hw'
  · rename_i hslot
    obtain ⟨rfl, rfl⟩ := hslot
    rw [Std.ExtTreeMap.getElem?_insert] at hw'
    split at hw'
    · rename_i hpk
      cases hw'
      rw [Std.LawfulEqOrd.compare_eq_iff_eq] at hpk
      subst hpk
      exact ⟨rfl, rfl, rfl, hheight, hmem, by rw [hround]; exact le_rfl, hK⟩
    · exact h _ _ _ _ hw'
  · exact h _ _ _ _ hw'

end

theorem Filed.move {D : Discipline} {a b : Node B} (hK : ∀ v, D.authentic v → K v) (h : Filed K a)
    (hmove : Move rt sg D a b) : Filed K b := by
  cases hmove with
  | quiet | stash | prevote | lock | slash => exact h
  | record v hacc hauth => exact h.recordVote hacc (hK v hauth)
  | advance =>
    intro round voteType pk w hw
    obtain ⟨hr, ht, hp, hh, hmem, hle, hk⟩ := h round voteType pk w hw
    refine ⟨hr, ht, hp, hh, hmem, hle.trans ?_, hk⟩
    simp only [ConsensusState.advanceRound]
    split
    · rename_i hlt
      rw [UInt32.toNat_add, Nat.mod_eq_of_lt (by simpa using hlt)]
      simp
    · exact le_rfl
  | commit _ _ _ _ _ _ _ hget hver =>
    simp only [Node.commitBlock, hget, hver]
    exact h
  | nextHeight =>
    intro round voteType pk w hw
    have hw' : ((ConsensusState.new (a.state.height + 1)).votesAt round voteType)[pk]? = some w :=
      hw
    simp at hw'

theorem Reachable.filed (h : Reachable rt sg n) : Filed (fun _ => True) n :=
  h.invariant (fun _ => Filed.initial) fun _ _ ha hmove => ha.move (fun _ _ => trivial) hmove

/-! ## Certificates -/

structure CommitCertificate.IsQuorum (vset : ValidatorSet) (cert : CommitCertificate) : Prop where
  distinct : (cert.precommits.map Vote.voter).Nodup
  precommits : ∃ round, ∀ v ∈ cert.precommits,
    vset.contains v.voter = true ∧ cert.IsPrecommit round v
  power : (quorumThreshold vset.totalPower).toNat ≤
    CommitCertificate.listedPower vset cert.precommits

section

variable {K : Vote → Prop} {n : Node B} {round : Round} {voteType : VoteType} {x : Option Hash32}

section

omit [BlockStore B]

theorem Node.mem_collectVotes {v : Vote} : v ∈ n.collectVotes round voteType x ↔
    (∃ pk : PublicKeyBytes, (n.state.votesAt round voteType)[pk]? = some v) ∧ v.blockId = x := by
  simp [collectVotes, Std.ExtTreeMap.mem_toList_iff_getElem?_eq_some]

theorem Filed.map_voter_collectVotes (h : Filed K n) :
    (n.collectVotes round voteType x).map Vote.voter =
      ((n.state.votesAt round voteType).ballots.filter (·.2 = x)).map Prod.fst := by
  have hkey : ∀ e ∈ (n.state.votesAt round voteType).toList, e.2.voter = e.1 := fun e he =>
    (h round voteType e.1 e.2 (Std.ExtTreeMap.mem_toList_iff_getElem?_eq_some.mp he)).2.2.1
  rw [Node.collectVotes, ballots, filter_map, filter_map, map_map, map_map]
  refine map_congr_left fun e he => ?_
  exact hkey e (mem_filter.mp he).1

theorem Filed.listedPower_collectVotes (h : Filed K n) :
    CommitCertificate.listedPower n.vset (n.collectVotes round voteType x) =
      n.votePower round voteType x := by
  have hpowers : (n.collectVotes round voteType x).map (n.vset.power ·.voter) =
      ((n.collectVotes round voteType x).map Vote.voter).map n.vset.power := by
    rw [map_map]
    rfl
  rw [CommitCertificate.listedPower, hpowers, h.map_voter_collectVotes, map_map]
  rfl

theorem Filed.isQuorum {b : Hash32} (h : Filed K n)
    (hq : n.TallyReaches round .precommit (some b)) :
    CommitCertificate.IsQuorum n.vset
      ⟨n.state.height, b, n.collectVotes round .precommit (some b)⟩ where
  distinct := by
    simp only [h.map_voter_collectVotes]
    exact (nodup_ballots _).sublist (filter_sublist.map _)
  precommits := by
    refine ⟨round, fun v hv => ?_⟩
    obtain ⟨⟨pk, hpk⟩, hid⟩ := Node.mem_collectVotes.mp hv
    obtain ⟨hr, ht, rfl, hh, hmem, -⟩ := h _ _ _ _ hpk
    exact ⟨hmem, ht, hh, hr, hid⟩
  power := by
    simp only [h.listedPower_collectVotes]
    exact hq.quorum_le

end

end

def Certified (n : Node B) : Prop :=
  ∀ cert, n.state.decided = some cert → cert.IsQuorum n.vset

theorem Certified.move {D : Discipline} {a b : Node B} (hfiled : Filed K a) (h : Certified a)
    (hmove : Move rt sg D a b) : Certified b := by
  cases hmove with
  | quiet | stash | prevote | lock | advance | slash => exact h
  | record v =>
    obtain ⟨i, s, o, heq, -⟩ := Node.recordVote_spec a v
    rw [heq]
    exact h
  | commit _ _ _ _ _ _ hq hget hver =>
    simp only [Node.commitBlock, hget, hver]
    rintro cert ⟨⟩
    exact hfiled.isQuorum hq
  | nextHeight => rintro cert ⟨⟩

theorem Reachable.certified (h : Reachable rt sg n) : Certified n := by
  have hinit : ∀ m : Node B, m.Initial → Filed (fun _ => True) m ∧ Certified m := by
    intro m hm
    refine ⟨Filed.initial hm, fun c hc => ?_⟩
    rw [hm.spec.2.1] at hc
    cases hc
  refine (h.invariant hinit ?_).2
  rintro a b ⟨hfiled, hcert⟩ hmove
  exact ⟨hfiled.move (fun _ _ => trivial) hmove, hcert.move hfiled hmove⟩

/-- **A decision rests on a quorum.**  In every reachable engine the certificate of the decision
lists precommits of distinct members, for its block, at its height and in one round, that have
a quorum of the power, whatever conflicting votes were recorded one over the other. -/
theorem decided_isQuorum {n : Node B} (hreach : Reachable rt sg n) {cert : CommitCertificate}
    (hdec : n.state.decided = some cert) : cert.IsQuorum n.vset :=
  hreach.certified cert hdec

theorem decided_isQuorum_decidingRun : ∃ (n : Node Store) (cert : CommitCertificate),
    n = exec (handle runtime (signer 1)) (node none) decidingRun ∧
    n.state.decided = some cert ∧ cert.IsQuorum n.vset :=
  ⟨_, ⟨0, blockId (firstBlock 1 0), [precommit 1 1 0, precommit 2 1 0]⟩,
    rfl, by decide +kernel, decided_isQuorum
      ⟨node none, decidingRun, node_initial none, rfl⟩ (by decide +kernel)⟩

end IonaOs
