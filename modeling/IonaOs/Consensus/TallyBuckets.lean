import IonaOs.Consensus.Quorum
import IonaOs.Lib.MapSum

/-!
# The buckets of a vote tally
-/

namespace IonaOs.VoteTally

open Lib Std ExtTreeMap

/-- One round of the loop of `VoteTally::merge`. -/
def mergeVote (t : VoteTally) (e : PublicKeyBytes × Option Hash32 × UInt64) : VoteTally :=
  { t with buckets := t.withdraw e.1 }.enter e.1 e.2.1 e.2.2

/-- `VoteTally::merge`, which never fails and does not read the validator set. -/
def merge (t other : VoteTally) : VoteTally := other.voters.toList.foldl mergeVote t

/-- `VoteTally::clear`. -/
def clear (t : VoteTally) : VoteTally := { t with buckets := ∅, voters := ∅ }

/-- `VoteTally::add_vote` with the tally it leaves: all its errors come before the first write. -/
def addVoteIn (t : VoteTally) (s : ValidatorSet) (voter : PublicKeyBytes) (bid : Option Hash32) :
    Except TallyError Unit × VoteTally :=
  match t.addVote s voter bid with
  | .ok t' => (.ok (), t')
  | .error e => (.error e, t)

/-- The tallies that calls with the powers of one set can build. -/
inductive Built (s : ValidatorSet) : VoteTally → Prop
  | new (cfg : TallyConfig) : Built s (new cfg)
  | addVote {t : VoteTally} (h : Built s t) (voter : PublicKeyBytes) (bid : Option Hash32) :
    Built s (t.addVoteIn s voter bid).2
  | merge {t other : VoteTally} (h : Built s t) (ho : Built s other) : Built s (t.merge other)
  | clear {t : VoteTally} (h : Built s t) : Built s t.clear

def share (x : Option Hash32) (v : Option Hash32 × UInt64) : ℕ := if v.1 = x then v.2.toNat else 0

/-- The sum of the recorded powers of those whose recorded vote is `x`. -/
def recorded (t : VoteTally) (x : Option Hash32) : ℕ := valueSum (share x) t.voters

structure Kept (s : ValidatorSet) (t : VoteTally) : Prop where
  powers : ∀ (voter : PublicKeyBytes) v, t.voters[voter]? = some v → s.powerOf voter = some v.2
  sums : ∀ x, (t.bucketPower x).toNat = t.recorded x
  backed : ∀ (x : Option Hash32) p, t.buckets[x]? = some p →
    ∃ (voter : PublicKeyBytes) (q : UInt64), t.voters[voter]? = some (x, q)

variable {s : ValidatorSet} {t : VoteTally}

theorem power_withdraw (voter : PublicKeyBytes) (x : Option Hash32) :
    ((t.withdraw voter)[x]?.getD 0).toNat =
      (t.bucketPower x).toNat - (t.voters[voter]?.map (share x)).getD 0 := by
  have hzero : (0 : UInt64).toNat = 0 := rfl
  rw [withdraw, bucketPower]
  rcases hv : t.voters[voter]? with _ | ⟨oldBid, oldPower⟩
  · simp
  · dsimp only
    by_cases hx : oldBid = x
    · subst hx
      rcases hb : t.buckets[oldBid]? with _ | oldVal
      · simp [hb]
      · have hsub := toNat_satSub oldVal oldPower
        by_cases hnew : satSub oldVal oldPower = 0
        · rw [hnew, hzero] at hsub
          simpa [share, hnew, hzero] using hsub
        · simpa [share, hnew] using hsub
    · rcases hb : t.buckets[oldBid]? with _ | oldVal
      · simp [share, hx]
      · by_cases hnew : satSub oldVal oldPower = 0
        · simp [share, hx, hnew, getElem?_erase]
        · simp [share, hx, hnew, getElem?_insert]

theorem withdraw_eq_some {voter : PublicKeyBytes} {x : Option Hash32} {q : UInt64}
    (h : (t.withdraw voter)[x]? = some q) :
    (∃ p, t.buckets[x]? = some p) ∧ (q = 0 → ∀ v, t.voters[voter]? = some v → v.1 ≠ x) := by
  rw [withdraw] at h
  rcases hv : t.voters[voter]? with _ | ⟨oldBid, oldPower⟩
  · rw [hv] at h
    exact ⟨⟨q, h⟩, by simp⟩
  · rw [hv] at h
    dsimp only at h
    by_cases hx : oldBid = x
    · subst hx
      rcases hb : t.buckets[oldBid]? with _ | oldVal
      · simp [hb] at h
      · by_cases hnew : satSub oldVal oldPower = 0
        · simp [hb, hnew] at h
        · have hq : satSub oldVal oldPower = q := by simpa [hb, hnew] using h
          exact ⟨⟨oldVal, rfl⟩, fun h0 => absurd (hq.trans h0) hnew⟩
    · have hold : t.buckets[x]? = some q := by
        rcases hb : t.buckets[oldBid]? with _ | oldVal
        · simpa [hb] using h
        · by_cases hnew : satSub oldVal oldPower = 0
          · simpa [hb, hnew, hx, getElem?_erase] using h
          · simpa [hb, hnew, hx, getElem?_insert] using h
      exact ⟨⟨q, hold⟩, fun _ => by simpa using hx⟩

theorem exists_voter_of_recorded {x : Option Hash32} (h : 0 < t.recorded x) :
    ∃ (voter : PublicKeyBytes) (q : UInt64), t.voters[voter]? = some (x, q) := by
  obtain ⟨n, hn, hpos⟩ := List.exists_mem_ne_zero_of_sum_ne_zero h.ne'
  obtain ⟨⟨voter, y, q⟩, hmem, rfl⟩ := List.mem_map.mp hn
  have hy : y = x := by
    by_contra hne
    exact hpos (if_neg hne)
  exact ⟨voter, q, hy ▸ mem_toList_iff_getElem?_eq_some.mp hmem⟩

theorem share_le_recorded (voter : PublicKeyBytes) (x : Option Hash32) :
    (t.voters[voter]?.map (share x)).getD 0 ≤ t.recorded x := by
  rcases hv : t.voters[voter]? with _ | v
  · exact Nat.zero_le _
  · exact Nat.le.intro ((Nat.add_comm _ _).trans (valueSum_erase (share x) hv))

theorem recorded_le
    (h : ∀ (voter : PublicKeyBytes) v, t.voters[voter]? = some v → s.powerOf voter = some v.2)
    (x : Option Hash32) : t.recorded x ≤ weight s.power s.members := by
  have hpower : ∀ e ∈ t.voters.toList, s.powerOf e.1 = some e.2.2 :=
    fun e he => h e.1 e.2 (mem_toList_iff_getElem?_eq_some.mp he)
  have hnodup : (t.voters.toList.map Prod.fst).Nodup := by
    rw [map_fst_toList_eq_keys]
    exact nodup_keys
  calc t.recorded x ≤ (t.voters.toList.map fun e => s.power e.1).sum := by
        refine List.sum_le_sum fun e he => ?_
        simp only [share, ValidatorSet.power, hpower e he, Option.getD_some]
        split_ifs <;> omega
    _ = ∑ pk ∈ (t.voters.toList.map Prod.fst).toFinset, s.power pk := by
        rw [List.sum_toFinset _ hnodup, List.map_map]
        rfl
    _ ≤ weight s.power s.members := by
        refine Finset.sum_le_sum_of_subset fun pk hpk => ?_
        obtain ⟨e, he, rfl⟩ := List.mem_map.mp (List.mem_toFinset.mp hpk)
        have hsome := hpower e he
        rw [ValidatorSet.powerOf] at hsome
        simp [ValidatorSet.members, mem_iff_isSome_getElem?, hsome]

theorem Kept.mergeVote (h : t.Kept s) (hfit : weight s.power s.members < 2 ^ 64)
    {voter : PublicKeyBytes} {bid : Option Hash32} {power : UInt64}
    (hpower : s.powerOf voter = some power) : (t.mergeVote (voter, bid, power)).Kept s := by
  set t' := t.mergeVote (voter, bid, power) with ht'
  have hvoters : ∀ w : PublicKeyBytes, t'.voters[w]? =
      if voter = w then some (bid, power) else t.voters[w]? := by
    simp [ht', VoteTally.mergeVote, enter, getElem?_insert]
  have hbuckets : ∀ x : Option Hash32, t'.buckets[x]? =
      if bid = x then some (satAdd ((t.withdraw voter)[bid]?.getD 0) power)
      else (t.withdraw voter)[x]? := fun x => buckets_enter
  have hpowers : ∀ (w : PublicKeyBytes) v, t'.voters[w]? = some v → s.powerOf w = some v.2 :=
    (forall_write_iff hvoters).mpr ⟨hpower, fun w v _ => h.powers w v⟩
  have hsums : ∀ x, (t'.bucketPower x).toNat = t'.recorded x := by
    intro x
    have hins : t'.recorded x + (t.voters[voter]?.map (share x)).getD 0 =
        t.recorded x + share x (bid, power) :=
      valueSum_insert (share x) t.voters voter (bid, power)
    have hbound := recorded_le hpowers x
    have hshare := share_le_recorded (t := t) voter x
    have hout := power_withdraw (t := t) voter x
    rw [h.sums] at hout
    rw [bucketPower, hbuckets]
    by_cases hx : bid = x
    · subst hx
      simp only [if_pos, Option.getD_some, toNat_satAdd, share] at hins ⊢
      omega
    · simp only [if_neg hx, share] at hins ⊢
      omega
  refine ⟨hpowers, hsums, fun x p hx => ?_⟩
  by_cases hbid : bid = x
  · exact ⟨voter, power, by rw [hvoters, if_pos rfl, hbid]⟩
  · -- A bucket that is not empty has a voter by its sum; an empty one was there before.
    by_cases hp : p = 0
    · rw [hbuckets, if_neg hbid] at hx
      obtain ⟨⟨p', hold⟩, hother⟩ := withdraw_eq_some hx
      obtain ⟨w, q, hw⟩ := h.backed x p' hold
      have hne : voter ≠ w := fun heq => hother hp (x, q) (heq ▸ hw) rfl
      exact ⟨w, q, by rw [hvoters, if_neg hne, hw]⟩
    · refine exists_voter_of_recorded ?_
      rw [← hsums, bucketPower, hx]
      exact Nat.pos_of_ne_zero fun h0 => hp (UInt64.toNat_inj.mp h0)

theorem addVote_eq_ok {t' : VoteTally} {voter : PublicKeyBytes} {bid : Option Hash32}
    (h : t.addVote s voter bid = .ok t') :
    ∃ power, s.powerOf voter = some power ∧ t' = t.mergeVote (voter, bid, power) := by
  rw [addVote] at h
  rcases hpower : s.powerOf voter with _ | power
  · simp [hpower] at h
  · refine ⟨power, rfl, ?_⟩
    rcases hv : t.voters[voter]? with _ | ⟨prevBid, prevPower⟩
    · simp only [hpower, hv, Except.ok.injEq] at h
      simp [← h, mergeVote, withdraw, hv]
    · simp only [hpower, hv] at h
      split_ifs at h
      rcases hb : t.buckets[prevBid]? with _ | oldVal
      · simp [← Except.ok.inj h, mergeVote, withdraw, hv]
      · simp [← Except.ok.inj h, mergeVote, withdraw, hv]

/-! ## Any calls -/

theorem Kept.merge {other : VoteTally} (h : t.Kept s) (ho : other.Kept s)
    (hfit : weight s.power s.members < 2 ^ 64) : (t.merge other).Kept s := by
  have hall : ∀ e ∈ other.voters.toList, s.powerOf e.1 = some e.2.2 :=
    fun e he => ho.powers e.1 e.2 (mem_toList_iff_getElem?_eq_some.mp he)
  rw [VoteTally.merge]
  generalize other.voters.toList = l at hall
  induction l generalizing t with
  | nil => exact h
  | cons e l ih =>
    exact ih (h.mergeVote hfit (hall e List.mem_cons_self))
      fun e' he' => hall e' (List.mem_cons_of_mem _ he')

theorem Built.kept (h : Built s t) (hfit : weight s.power s.members < 2 ^ 64) : t.Kept s := by
  induction h with
  | new => exact ⟨by simp [VoteTally.new], fun x => rfl, by simp [VoteTally.new]⟩
  | @addVote t h voter bid ih =>
    rw [addVoteIn]
    cases hadd : t.addVote s voter bid with
    | error => exact ih
    | ok =>
      obtain ⟨power, hpower, rfl⟩ := addVote_eq_ok hadd
      exact ih.mergeVote hfit hpower
  | merge _ _ ih iho => exact ih.merge iho hfit
  | clear => exact ⟨by simp [VoteTally.clear], fun x => rfl, by simp [VoteTally.clear]⟩

/-- **The buckets.**  Whatever calls built a tally, with powers whose sum fits, the power of each
candidate is the sum of the recorded powers of those whose recorded vote it is, and each bucket has
a voter; and a duplicate that is rejected leaves the tally as it was. -/
theorem buckets_agree_votes (hfit : weight s.power s.members < 2 ^ 64) (h : Built s t) :
    (∀ x, (t.bucketPower x).toNat = t.recorded x) ∧
    (∀ (x : Option Hash32) p, t.buckets[x]? = some p →
      ∃ (voter : PublicKeyBytes) (q : UInt64), t.voters[voter]? = some (x, q)) ∧
    ∀ voter bid text, (t.addVoteIn s voter bid).1 = .error (.duplicateVote text) →
      (t.addVoteIn s voter bid).2 = t := by
  have hkept := h.kept hfit
  refine ⟨hkept.sums, hkept.backed, fun voter bid text herr => ?_⟩
  rw [addVoteIn] at herr ⊢
  cases hadd : t.addVote s voter bid with
  | error => rfl
  | ok =>
    rw [hadd] at herr
    cases herr

/-- The first validator of three votes nil, and then for a block instead. -/
theorem buckets_agree_votes_replaced :
    ∃ t, t = (((new ⟨true⟩).addVoteIn .three [1] none).2.addVoteIn .three [1]
        (some (.replicate 32 9))).2 ∧
      t.voters[([1] : PublicKeyBytes)]? = some (some (.replicate 32 9), 3) ∧
      (t.bucketPower (some (.replicate 32 9))).toNat = t.recorded (some (.replicate 32 9)) := by
  have hfit : weight ValidatorSet.three.power ValidatorSet.three.members < 2 ^ 64 := by
    have htotal := ValidatorSet.fits_three.total_eq
    have hroom := ValidatorSet.fits_three.room
    omega
  refine ⟨_, rfl, by decide +kernel, ?_⟩
  exact (buckets_agree_votes hfit (.addVote (.addVote (.new ⟨true⟩) [1] none) [1]
    (some (.replicate 32 9)))).1 _

end IonaOs.VoteTally
