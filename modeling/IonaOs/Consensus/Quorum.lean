import IonaOs.Consensus.ValidatorSet

/-!
# Quorum threshold and vote tally
-/

namespace IonaOs

open Lib List

def quorumThreshold (total : UInt64) : UInt64 :=
  if total = 0 then 0 else total * 2 / 3 + 1

theorem quorumThreshold_large {total : UInt64} (h : 2 * total.toNat < 2 ^ 64) (h0 : total ≠ 0) :
    3 * (quorumThreshold total).toNat > 2 * total.toNat := by
  have hdbl : (total * 2).toNat = total.toNat * 2 := by
    rw [UInt64.toNat_mul]
    exact Nat.mod_eq_of_lt (by simpa [mul_comm] using h)
  have hdiv : (total * 2 / 3).toNat = total.toNat * 2 / 3 := by
    rw [UInt64.toNat_div, hdbl]
    rfl
  rw [quorumThreshold, if_neg h0, UInt64.toNat_add, hdiv]
  have hone : (1 : UInt64).toNat = 1 := rfl
  rw [hone, Nat.mod_eq_of_lt (by omega)]
  omega

theorem ValidatorSet.Fits.quorum {s : ValidatorSet} (h : s.Fits) :
    2 * weight s.power s.members < 3 * (quorumThreshold s.totalPower).toNat := by
  have hne : s.totalPower ≠ 0 := by
    intro h0
    have hpos := h.pos
    simp [h0] at hpos
  rw [← h.total_eq]
  exact quorumThreshold_large h.room hne

inductive TallyError where
  | duplicateVote (voter : String)
  | validatorNotFound
  | noVotes

structure TallyConfig where
  allowDuplicateVotes : Bool := false

structure VoteTally where
  buckets : Std.ExtTreeMap (Option Hash32) UInt64
  voters : Std.ExtTreeMap PublicKeyBytes (Option Hash32 × UInt64)
  config : TallyConfig

namespace VoteTally

def new (cfg : TallyConfig) : VoteTally := ⟨∅, ∅, cfg⟩

variable (t : VoteTally)

def enter (voter : PublicKeyBytes) (bid : Option Hash32) (power : UInt64) :
    VoteTally :=
  { t with
    voters := t.voters.insert voter (bid, power)
    buckets := t.buckets.insert bid (satAdd (t.buckets[bid]?.getD 0) power) }

/-- `VoteTally::add_vote`. -/
def addVote (s : ValidatorSet) (voter : PublicKeyBytes) (bid : Option Hash32) :
    Except TallyError VoteTally :=
  match s.powerOf voter with
  | none => .error .validatorNotFound
  | some power =>
    match t.voters[voter]? with
    | none => .ok (t.enter voter bid power)
    | some (prevBid, prevPower) =>
      if t.config.allowDuplicateVotes then
        -- Take the old vote out of its bucket before the new one is entered.
        let buckets := match t.buckets[prevBid]? with
          | none => t.buckets
          | some oldPower =>
            let newPower := satSub oldPower prevPower
            if newPower = 0 then t.buckets.erase prevBid
            else t.buckets.insert prevBid newPower
        .ok ({ t with buckets }.enter voter bid power)
      else .error (.duplicateVote (String.ofList ((hexEncode voter).toList.take 8)))

/-- `VoteTally::power_for`. -/
def bucketPower (x : Option Hash32) : UInt64 := t.buckets[x]?.getD 0

/-- The buckets without the earlier vote of a voter, as `merge` and a replacement leave them. -/
def withdraw (voter : PublicKeyBytes) : Std.ExtTreeMap (Option Hash32) UInt64 :=
  match t.voters[voter]? with
  | none => t.buckets
  | some (oldBid, oldPower) =>
    match t.buckets[oldBid]? with
    | none => t.buckets
    | some oldVal =>
      let newVal := satSub oldVal oldPower
      if newVal = 0 then t.buckets.erase oldBid else t.buckets.insert oldBid newVal

/-- One step of `Iterator::max_by_key`: a later entry of equal power wins. -/
def heavier : Option (Option Hash32 × UInt64) → Option Hash32 × UInt64 →
    Option (Option Hash32 × UInt64)
  | none, e => some e
  | some m, e => if m.2 ≤ e.2 then some e else some m

def lastMax (l : List (Option Hash32 × UInt64)) : Option (Option Hash32 × UInt64) :=
  l.foldl heavier none

/-- `VoteTally::best`: the block id, or nil, with the highest accumulated power. -/
def best : Except TallyError (Option Hash32 × UInt64) :=
  match lastMax t.buckets.toList with
  | none => .error .noVotes
  | some e => .ok e

def count (s : ValidatorSet) (votes : List (PublicKeyBytes × Option Hash32)) :
    VoteTally :=
  votes.foldl (fun t v =>
    match t.addVote s v.1 v.2 with
    | .ok t' => t'
    | .error _ => t) t

/-! ## The heaviest bucket -/

variable {l : List (Option Hash32 × UInt64)} {power : UInt64}

theorem foldl_heavier_spec (b : Option Hash32 × UInt64) :
    ∃ m, l.foldl heavier (some b) = some m ∧ (m = b ∨ m ∈ l) ∧ b.2 ≤ m.2 ∧ ∀ e ∈ l, e.2 ≤ m.2 := by
  induction l generalizing b with
  | nil => exact ⟨b, rfl, .inl rfl, UInt64.le_refl _, by simp⟩
  | cons e l ih =>
    by_cases hle : b.2 ≤ e.2
    · obtain ⟨m, hfold, hm, hem, hl⟩ := ih e
      refine ⟨m, by simpa [heavier, hle] using hfold, .inr ?_, UInt64.le_trans hle hem,
        forall_mem_cons.mpr ⟨hem, hl⟩⟩
      rcases hm with rfl | hm
      · exact mem_cons_self
      · exact mem_cons_of_mem _ hm
    · obtain ⟨m, hfold, hm, hbm, hl⟩ := ih b
      have heb : e.2 ≤ b.2 := UInt64.le_of_lt (UInt64.not_le.mp hle)
      exact ⟨m, by simpa [heavier, hle] using hfold, hm.imp_right (mem_cons_of_mem _), hbm,
        forall_mem_cons.mpr ⟨UInt64.le_trans heb hbm, hl⟩⟩

theorem lastMax_spec (h : l ≠ []) : ∃ m ∈ l, lastMax l = some m ∧ ∀ e ∈ l, e.2 ≤ m.2 := by
  cases l with
  | nil => exact absurd rfl h
  | cons e =>
    obtain ⟨m, hfold, hm, hem, hl⟩ := foldl_heavier_spec e
    refine ⟨m, ?_, hfold, forall_mem_cons.mpr ⟨hem, hl⟩⟩
    rcases hm with rfl | hm
    · exact mem_cons_self
    · exact mem_cons_of_mem _ hm

variable {bid : Option Hash32}

theorem best_spec {t : VoteTally} (h : t.best = .ok (bid, power)) :
    t.buckets[bid]? = some power ∧ ∀ (x : Option Hash32) p, t.buckets[x]? = some p → p ≤ power := by
  have hne : t.buckets.toList ≠ [] := by
    intro hnil
    simp [best, hnil, lastMax] at h
  obtain ⟨m, hm, hmax, hl⟩ := lastMax_spec hne
  simp only [best, hmax, Except.ok.injEq] at h
  subst h
  refine ⟨Std.ExtTreeMap.mem_toList_iff_getElem?_eq_some.mp hm, ?_⟩
  intro x p hx
  exact hl (x, p) (Std.ExtTreeMap.mem_toList_iff_getElem?_eq_some.mpr hx)

variable {x : Option Hash32}

theorem best_of_bucket {t : VoteTally} {p : UInt64} (h : t.buckets[x]? = some p) :
    ∃ bid power, t.best = .ok (bid, power) := by
  have hmem := Std.ExtTreeMap.mem_toList_iff_getElem?_eq_some.mpr h
  obtain ⟨m, -, hmax, -⟩ := lastMax_spec (ne_nil_of_mem hmem)
  exact ⟨m.1, m.2, by simp [best, hmax]⟩

/-! ## The tally of votes by distinct voters -/

variable {s : ValidatorSet} {t : VoteTally} {votes : List (PublicKeyBytes × Option Hash32)}

/-- The power behind `x` in a list of votes, added up without saturation. -/
def powerFor (s : ValidatorSet) (votes : List (PublicKeyBytes × Option Hash32))
    (x : Option Hash32) : ℕ :=
  ((votes.filter (·.2 = x)).map (s.power ·.1)).sum

variable {voter : PublicKeyBytes}

theorem addVote_fresh (hnew : voter ∉ t.voters) (bid : Option Hash32) :
    t.addVote s voter bid = match s.powerOf voter with
      | none => .error .validatorNotFound
      | some power => .ok (t.enter voter bid power) := by
  have hnone : t.voters[voter]? = none := Std.ExtTreeMap.getElem?_eq_none hnew
  simp only [addVote, hnone]

@[simp] theorem buckets_enter : (t.enter voter bid power).buckets[x]? =
      if bid = x then some (satAdd (t.buckets[bid]?.getD 0) power) else t.buckets[x]? := by
  simp [enter, Std.ExtTreeMap.getElem?_insert]

@[simp] theorem mem_voters_enter {v : PublicKeyBytes} :
    v ∈ (t.enter voter bid power).voters ↔ voter = v ∨ v ∈ t.voters := by
  simp [enter]

def afterVote (t : VoteTally) (s : ValidatorSet) (v : PublicKeyBytes × Option Hash32) : VoteTally :=
  match s.powerOf v.1 with
  | none => t
  | some power => t.enter v.1 v.2 power

variable {v : PublicKeyBytes × Option Hash32}

theorem count_cons (hnew : v.1 ∉ t.voters) :
    t.count s (v :: votes) = (t.afterVote s v).count s votes := by
  rw [count, foldl_cons, addVote_fresh hnew, count, afterVote]
  cases s.powerOf v.1 <;> rfl

theorem notMem_voters_afterVote (hnodup : ((v :: votes).map Prod.fst).Nodup)
    (hnew : ∀ w ∈ v :: votes, w.1 ∉ t.voters) : ∀ w ∈ votes, w.1 ∉ (t.afterVote s v).voters := by
  intro w hw
  have hold : w.1 ∉ t.voters := hnew w (mem_cons_of_mem _ hw)
  have hne : v.1 ≠ w.1 := by
    intro heq
    exact (nodup_cons.mp hnodup).1 (heq ▸ mem_map_of_mem hw)
  rw [afterVote]
  cases s.powerOf v.1 with
  | none => exact hold
  | some => simp [hne, hold]

theorem buckets_afterVote (v : PublicKeyBytes × Option Hash32) (x : Option Hash32) :
    (((t.afterVote s v).buckets[x]?).getD 0).toNat =
      min ((t.buckets[x]?.getD 0).toNat + if v.2 = x then s.power v.1 else 0) (2 ^ 64 - 1) := by
  have hlt := (t.buckets[x]?.getD 0).toNat_lt
  rw [afterVote, ValidatorSet.power]
  cases s.powerOf v.1 with
  | none =>
    have hzero : (0 : UInt64).toNat = 0 := rfl
    simp only [Option.getD_none, hzero, ite_self]
    omega
  | some =>
    by_cases hx : v.2 = x
    · subst hx
      simp [toNat_satAdd]
    · simp only [buckets_enter, if_neg hx]
      omega

theorem powerFor_cons (v : PublicKeyBytes × Option Hash32) (x : Option Hash32) :
    powerFor s (v :: votes) x = (if v.2 = x then s.power v.1 else 0) + powerFor s votes x := by
  by_cases hx : v.2 = x <;> simp [powerFor, hx]

section

variable (hnodup : (votes.map Prod.fst).Nodup) (hnew : ∀ v ∈ votes, v.1 ∉ t.voters)
include hnodup hnew

theorem count_bucket (x : Option Hash32) : (((t.count s votes).buckets[x]?).getD 0).toNat =
      min ((t.buckets[x]?.getD 0).toNat + powerFor s votes x) (2 ^ 64 - 1) := by
  induction votes generalizing t with
  | nil =>
    have hlt := (t.buckets[x]?.getD 0).toNat_lt
    simp only [count, foldl_nil, powerFor, filter_nil, map_nil, sum_nil]
    omega
  | cons v _ ih =>
    rw [count_cons (hnew v mem_cons_self),
      ih hnodup.of_cons (notMem_voters_afterVote hnodup hnew), buckets_afterVote, powerFor_cons]
    omega

theorem bucket_of_count (hpos : 0 < powerFor s votes x) :
    ∃ p, (t.count s votes).buckets[x]? = some p := by
  rcases hp : (t.count s votes).buckets[x]? with _ | p
  · have hsum := count_bucket (s := s) hnodup hnew x
    have hzero : (0 : UInt64).toNat = 0 := rfl
    simp only [hp, Option.getD_none, hzero] at hsum
    omega
  · exact ⟨p, rfl⟩

theorem vote_of_bucket (hx : t.buckets[x]? = none) {p : UInt64}
    (h : (t.count s votes).buckets[x]? = some p) : ∃ pk, (pk, x) ∈ votes := by
  induction votes generalizing t with
  | nil =>
    rw [count, foldl_nil, hx] at h
    cases h
  | cons v _ ih =>
    by_cases hv : v.2 = x
    · exact ⟨v.1, by rw [← hv]; exact mem_cons_self⟩
    have hafter : (t.afterVote s v).buckets[x]? = none := by
      rw [afterVote]
      cases s.powerOf v.1 with
      | none => exact hx
      | some => rw [buckets_enter, if_neg hv, hx]
    rw [count_cons (hnew v mem_cons_self)] at h
    obtain ⟨pk, hpk⟩ := ih hnodup.of_cons (notMem_voters_afterVote hnodup hnew) hafter h
    exact ⟨pk, mem_cons_of_mem _ hpk⟩

end

end VoteTally
end IonaOs
