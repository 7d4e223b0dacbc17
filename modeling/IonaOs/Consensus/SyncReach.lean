import IonaOs.Consensus.SyncChain
import IonaOs.Lib.Halving

/-!
# How far sync gets
-/

namespace IonaOs

open Lib UInt64 List Sample

/-! ## Distances -/

/-- The distances `d` to the target that sync covers with `R` attempts at batches of `B` blocks.

While the distance is more than `B`, whole batches are fetched, of which `leftAfter B` blocks are
left each time; they must not be given up.  From the distance that is then left, the binary digits
decide: no `R` ones in a row but the first ones.  The end of the range of heights adds two things:
the end of the last batch must not overflow, and if a batch of odd size ends at the last height,
the loop of the attempt does not stop halfway. -/
def CanReach (R B best d : ℕ) : Prop :=
  (B < d → ¬ 2 ^ R ∣ B + 1) ∧
  (best + 1 = 2 ^ 64 ∧ lastDistance B (B - leftAfter B) d = B ∧ B % 2 = 1 ∨
    ShortRuns R (lastDistance B (B - leftAfter B) d) ∧
      TopRunOver (best + B + 1 - 2 ^ 64) (lastDistance B (B - leftAfter B) d))

section

variable {R B best d : ℕ}

theorem canReach_of_lt (hB : 0 < B) (hd : B < d) :
    CanReach R B best d ↔ ¬ 2 ^ R ∣ B + 1 ∧ CanReach R B best (d - B + leftAfter B) := by
  have hle := leftAfter_le B
  have hnext : d - B + leftAfter B = d - (B - leftAfter B) := by omega
  have hlast := lastDistance_sub (p := B - leftAfter B) (by omega) (Nat.sub_le _ _) hd
  unfold CanReach
  rw [hnext, ← hlast]
  constructor
  · rintro ⟨hfull, hrest⟩
    exact ⟨hfull hd, fun _ => hfull hd, hrest⟩
  · rintro ⟨hfull, -, hrest⟩
    exact ⟨fun _ => hfull, hrest⟩

theorem not_canReach_of_overflow (hd : d ≤ B) (hbest : d ≤ best)
    (hover : 2 ^ 64 ≤ best - d + B) : ¬ CanReach R B best d := by
  unfold CanReach
  rw [lastDistance_of_le hd]
  rintro ⟨-, ⟨hmax, rfl, -⟩ | ⟨-, htop⟩⟩
  · omega
  · have hlt := htop.lt
    omega

theorem canReach_of_dvd (hd : d ≤ B) (hbest : d ≤ best)
    (hfit : best - d + B < 2 ^ 64) (hlast : ¬ (best + 1 = 2 ^ 64 ∧ d % 2 = 1))
    (hdvd : 2 ^ R ∣ d + 1) : CanReach R B best d ↔ d + 1 = 2 ^ R := by
  unfold CanReach
  rw [lastDistance_of_le hd]
  constructor
  · rintro ⟨-, ⟨hmax, rfl, hodd⟩ | ⟨hruns, -⟩⟩
    · exact absurd ⟨hmax, hodd⟩ hlast
    · simpa using hruns 0 (by simpa using hdvd)
  · intro heq
    have htop : TopRunOver (best + B + 1 - 2 ^ 64) d := ⟨0, R, by simpa using heq, by omega⟩
    exact ⟨fun h => absurd h (by omega), .inr ⟨shortRuns_of_succ_eq heq, htop⟩⟩

theorem canReach_of_not_dvd (hd : d ≤ B) (hpos : 0 < d) (hbest : d ≤ best)
    (hfit : best - d + B < 2 ^ 64) (hlast : ¬ (best + 1 = 2 ^ 64 ∧ d % 2 = 1))
    (hdvd : ¬ 2 ^ R ∣ d + 1) :
    CanReach R B best d ↔ leftAfter d = 0 ∨ CanReach R B best (leftAfter d) := by
  have hle := leftAfter_le d
  have hruns := shortRuns_leftAfter hdvd
  by_cases hzero : leftAfter d = 0
  · -- The number is all ones, and what the last batch starts from is the number itself.
    have hR : 0 < R := by
      by_contra hR
      exact hdvd (by simp [Nat.eq_zero_of_not_pos hR])
    obtain ⟨k, hk⟩ := leftAfter_eq_zero_iff.mp hzero
    have htop : TopRunOver (best + B + 1 - 2 ^ 64) d := ⟨0, k, by simpa using hk, by omega⟩
    refine iff_of_true ?_ (.inl hzero)
    unfold CanReach
    rw [lastDistance_of_le hd]
    refine ⟨fun h => absurd h (by omega), .inr ⟨hruns.mpr ?_, htop⟩⟩
    rw [hzero]
    exact shortRuns_zero hR
  · have hspecial : ¬ (best + 1 = 2 ^ 64 ∧ d = B ∧ B % 2 = 1) := by
      rintro ⟨hmax, rfl, hodd⟩
      exact hlast ⟨hmax, hodd⟩
    have hspecial' : ¬ (best + 1 = 2 ^ 64 ∧ leftAfter d = B ∧ B % 2 = 1) := by omega
    unfold CanReach
    rw [lastDistance_of_le hd, lastDistance_of_le (show leftAfter d ≤ B by omega),
      topRunOver_leftAfter hzero, hruns]
    simp only [hspecial, hspecial', hzero, false_or]
    constructor
    · rintro ⟨-, h⟩
      exact ⟨fun h => absurd h (by omega), h⟩
    · rintro ⟨-, h⟩
      exact ⟨fun h => absurd h (by omega), h⟩

end

/-! ## Batches -/

/-- With `left` blocks of a batch up to `e` to fetch and `s` attempts to do it, sync is on its way
to `best`: the batch goes on to the last height, or it is given up at the target, or it is complete
and the distance after it can be covered. -/
def OnBatch (R B best e left s : ℕ) : Prop :=
  e + 1 = 2 ^ 64 ∧ left % 2 = 1 ∨
    if 2 ^ s ∣ left + 1 then e = best ∧ left + 1 = 2 ^ s
    else best - e + leftAfter left = 0 ∨ CanReach R B best (best - e + leftAfter left)

section

variable {R B best e left s c : ℕ}

theorem onBatch_even (heven : left % 2 = 0) (hs : 0 < s) : OnBatch R B best e left s ↔
    best - e + left / 2 = 0 ∨ CanReach R B best (best - e + left / 2) := by
  have hodd : ¬ (e + 1 = 2 ^ 64 ∧ left % 2 = 1) := by omega
  rw [OnBatch, if_neg (not_two_pow_dvd_of_even heven hs), leftAfter_of_even heven,
    or_iff_right hodd]

theorem onBatch_odd (hodd : left % 2 = 1) (hto : e + 1 ≠ 2 ^ 64) :
    OnBatch R B best e left (s + 1) ↔ OnBatch R B best e (left / 2) s := by
  have hpow : left + 1 = 2 ^ (s + 1) ↔ left / 2 + 1 = 2 ^ s := by
    rw [pow_succ]
    omega
  simp only [OnBatch, hto, false_and, false_or, two_pow_succ_dvd_iff hodd, hpow,
    leftAfter_of_odd hodd]

theorem onBatch_odd_last (hodd : left % 2 = 1) (hto : e + 1 ≠ 2 ^ 64) :
    OnBatch R B best e left 1 ↔ e = best ∧ left = 1 := by
  have hdvd : 2 ^ 1 ∣ left + 1 := by
    rw [pow_one]
    omega
  rw [OnBatch, if_pos hdvd, or_iff_right (by omega)]
  omega

theorem onBatch_first (hB : 0 < B) (hc : c < best) (hbest : best < 2 ^ 64) (hfit : c + B < 2 ^ 64) :
    OnBatch R B best (min (c + B) best) (min (c + B) best - c) R ↔
      CanReach R B best (best - c) := by
  have hle := leftAfter_le B
  by_cases hfull : B < best - c
  · have hto : min (c + B) best = c + B := by omega
    have hleft : c + B - c = B := by omega
    have hdistance : best - (c + B) + leftAfter B = best - c - B + leftAfter B := by omega
    rw [hto, hleft, canReach_of_lt hB hfull, OnBatch, or_iff_right (by omega), hdistance]
    by_cases hdvd : 2 ^ R ∣ B + 1
    · rw [if_pos hdvd]
      simp only [hdvd, not_true_eq_false, false_and, iff_false, not_and]
      omega
    · rw [if_neg hdvd, or_iff_right (by omega)]
      simp [hdvd]
  · have hto : min (c + B) best = best := by omega
    have hover : best - (best - c) + B < 2 ^ 64 := by omega
    rw [hto, OnBatch, Nat.sub_self, Nat.zero_add]
    by_cases hlast : best + 1 = 2 ^ 64 ∧ (best - c) % 2 = 1
    · refine iff_of_true (.inl hlast) ?_
      unfold CanReach
      rw [lastDistance_of_le (by omega)]
      exact ⟨fun h => absurd h (by omega), .inl ⟨hlast.1, by omega, by omega⟩⟩
    rw [or_iff_right hlast]
    by_cases hdvd : 2 ^ R ∣ best - c + 1
    · rw [if_pos hdvd, canReach_of_dvd (by omega) (by omega) hover hlast hdvd]
      simp
    · rw [if_neg hdvd, canReach_of_not_dvd (by omega) (by omega) (by omega) hover hlast hdvd]

end

/-! ## The network -/

section

variable (codec : SyncCodec) (cfg : SyncConfig)

/-- `apply_block` accepts the block. -/
def BlockData.Acceptable (blockData : BlockData) : Prop :=
  blockData.block.header.height = blockData.height ∧
    (cfg.verifySignatures = true → blockData.block.header.proposerPk ≠ [])
deriving Decidable

/-- The blocks among what `recv` returns. -/
def blocksIn (polls : List (Option (List UInt8))) : List BlockData :=
  polls.filterMap (·.bind codec.blockData)

def Delivers (r : SyncRun) (w : Window) : Prop :=
  match r.phase with
  | .returned _ => True
  | .fetching req _ _ => w.broadcast.isOk = true ∧
    (List.range' (req.fromHeight.toNat + 1) (req.toHeight.toNat - req.fromHeight.toNat)).Sublist
      ((blocksIn codec w.polls).map (·.height.toNat)) ∧
    ∀ blockData ∈ blocksIn codec w.polls, blockData.Acceptable cfg

instance (r : SyncRun) (w : Window) : Decidable (Delivers codec cfg r w) := by
  unfold Delivers
  split <;> infer_instance

end

variable {windows : List Window}

namespace SyncRun

variable {codec : SyncCodec} {cfg : SyncConfig} {r : SyncRun} {w : Window}
  {blockData : BlockData}

theorem exists_applyBlock (h : blockData.Acceptable cfg) :
    ∃ next, r.applyBlock cfg blockData = .ok next := by
  obtain ⟨hheight, hkey⟩ := h
  unfold applyBlock
  rw [if_neg (by simpa using hheight)]
  by_cases hverify : cfg.verifySignatures = true
  · rw [if_neg (by simpa [hverify] using hkey hverify)]
    exact ⟨_, rfl⟩
  · rw [if_neg (by simp [hverify])]
    exact ⟨_, rfl⟩

structure Took (r : SyncRun) (res : SyncRun × Except SyncError UInt64) (current applied : ℕ) :
    Prop where
  ok : ∃ n : UInt64, res.2 = .ok n ∧ n.toNat = applied
  current : res.1.current.toNat = current
  best : res.1.bestHeight = r.bestHeight

variable {polls : List (Option (List UInt8))}

theorem blocksIn_of_none {poll : Option (List UInt8)} (h : poll.bind codec.blockData = none) :
    blocksIn codec (poll :: polls) = blocksIn codec polls := by
  simp [blocksIn, h]

theorem blocksIn_of_some {poll : Option (List UInt8)}
    (h : poll.bind codec.blockData = some blockData) :
    blocksIn codec (poll :: polls) = blockData :: blocksIn codec polls := by
  simp [blocksIn, h]

theorem toNat_satAdd_one {x : UInt64} (h : x.toNat + 1 < 2 ^ 64) :
    (satAdd x 1).toNat = x.toNat + 1 := by
  have hone : (1 : UInt64).toNat = 1 := rfl
  rw [toNat_satAdd]
  omega

section

variable {batchEnd : UInt64} {attempt : UInt32} {applied : UInt64} {poll : Option (List UInt8)}
  {polls : List (Option (List UInt8))}

theorem receiveBlocks_of_full (hfull : ¬ r.current + applied < batchEnd) :
    receiveBlocks codec cfg batchEnd attempt r applied polls = (r, .ok applied) := by
  cases polls with
  | nil => rfl
  | cons => rw [receiveBlocks, if_neg hfull]

theorem receiveBlocks_of_none (hroom : r.current + applied < batchEnd)
    (hpoll : poll.bind codec.blockData = none) :
    receiveBlocks codec cfg batchEnd attempt r applied (poll :: polls) =
      receiveBlocks codec cfg batchEnd attempt r applied polls := by
  rw [receiveBlocks, if_pos hroom, hpoll]

theorem receiveBlocks_silent (h : ∀ poll ∈ polls, poll.bind codec.blockData = none) :
    receiveBlocks codec cfg batchEnd attempt r applied polls = (r, .ok applied) := by
  induction polls with
  | nil => rfl
  | cons poll polls ih =>
    by_cases hroom : r.current + applied < batchEnd
    · rw [receiveBlocks_of_none hroom (h poll mem_cons_self)]
      exact ih fun poll' hpoll' => h poll' (mem_cons_of_mem _ hpoll')
    · exact receiveBlocks_of_full hroom

variable (attempt polls) in
theorem receiveBlocks_of_some (hroom : r.current + applied < batchEnd)
    (hpoll : poll.bind codec.blockData = some blockData) (hok : blockData.Acceptable cfg) :
    ∃ next : SyncRun, next.current = satAdd r.current 1 ∧ next.bestHeight = r.bestHeight ∧
      receiveBlocks codec cfg batchEnd attempt r applied (poll :: polls) =
        receiveBlocks codec cfg batchEnd attempt next (satAdd applied 1) polls := by
  obtain ⟨next, hnext⟩ := exists_applyBlock (r := r) hok
  refine ⟨next.advance, current_advance hnext, ?_, ?_⟩
  · rw [applyBlock_ok hnext]
    cases hengine : r.engine <;> simp [advance, setEngineHeight, setLocalHeight, hengine]
  rw [receiveBlocks, if_pos hroom, hpoll]
  simp only [hnext]

theorem receiveBlocks_half (k : ℕ) (hk : r.current.toNat + applied.toNat + 2 * k = batchEnd.toNat ∨
      r.current.toNat + applied.toNat + 2 * k = batchEnd.toNat + 1 ∧ batchEnd.toNat + 1 < 2 ^ 64)
    (hmany : k ≤ (blocksIn codec polls).length)
    (hall : ∀ blockData ∈ blocksIn codec polls, blockData.Acceptable cfg) :
    Took r (receiveBlocks codec cfg batchEnd attempt r applied polls)
      (r.current.toNat + k) (applied.toNat + k) := by
  have hend := batchEnd.toNat_lt
  induction polls generalizing r applied k with
  | nil =>
    have hzero : k = 0 := by simpa [blocksIn] using hmany
    subst hzero
    exact ⟨⟨applied, rfl, rfl⟩, rfl, rfl⟩
  | cons poll polls ih =>
    have hroom : r.current + applied < batchEnd ↔ k ≠ 0 := by
      rw [lt_iff_toNat_lt, UInt64.toNat_add, Nat.mod_eq_of_lt (by omega)]
      omega
    by_cases hzero : k = 0
    · rw [receiveBlocks_of_full (by simpa [hroom] using hzero), hzero]
      exact ⟨⟨applied, rfl, rfl⟩, rfl, rfl⟩
    cases hpoll : poll.bind codec.blockData with
    | none =>
      rw [blocksIn_of_none hpoll] at hmany hall
      rw [receiveBlocks_of_none (hroom.mpr hzero) hpoll]
      exact ih k hk hmany hall
    | some blockData =>
      rw [blocksIn_of_some hpoll] at hmany hall
      rw [length_cons] at hmany
      obtain ⟨next, hcurrent, hbest, heq⟩ := receiveBlocks_of_some attempt polls
        (hroom.mpr hzero) hpoll (hall blockData mem_cons_self)
      have hcurrent : next.current.toNat = r.current.toNat + 1 := by
        rw [hcurrent, toNat_satAdd_one (by omega)]
      have happlied : (satAdd applied 1).toNat = applied.toNat + 1 := toNat_satAdd_one (by omega)
      have hrest : Took next (receiveBlocks codec cfg batchEnd attempt next
          (satAdd applied 1) polls) _ _ :=
        ih (k - 1) (by omega) (by omega) fun b hb => hall b (mem_cons_of_mem _ hb)
      obtain ⟨⟨n, hn, hcount⟩, hcur, hsame⟩ := hrest
      rw [heq]
      exact ⟨⟨n, hn, by omega⟩, by omega, hsame.trans hbest⟩

theorem receiveBlocks_last (hend : batchEnd.toNat + 1 = 2 ^ 64)
    (hleft : r.current = batchEnd ∨ (r.current.toNat + applied.toNat) % 2 = 0 ∧
      applied ≤ r.current ∧ batchEnd.toNat ≤ r.current.toNat + (blocksIn codec polls).length)
    (hall : ∀ blockData ∈ blocksIn codec polls, blockData.Acceptable cfg) :
    ∃ n, Took r (receiveBlocks codec cfg batchEnd attempt r applied polls) batchEnd.toNat n := by
  have hlt : ∀ x : UInt64, x.toNat ≤ batchEnd.toNat := by
    intro x
    have := x.toNat_lt
    omega
  induction polls generalizing r applied with
  | nil =>
    refine ⟨applied.toNat, ⟨applied, rfl, rfl⟩, ?_, rfl⟩
    rcases hleft with heq | ⟨-, -, hmany⟩
    · rw [receiveBlocks, heq]
    · have hle := hlt r.current
      simp only [blocksIn, filterMap_nil, length_nil, Nat.add_zero] at hmany
      exact Nat.le_antisymm hle hmany
  | cons poll polls ih =>
    by_cases hroom : r.current + applied < batchEnd
    · cases hpoll : poll.bind codec.blockData with
      | none =>
        rw [blocksIn_of_none hpoll] at hleft hall
        rw [receiveBlocks_of_none hroom hpoll]
        exact ih hleft hall
      | some blockData =>
        rw [blocksIn_of_some hpoll] at hleft hall
        rw [length_cons] at hleft
        obtain ⟨next, hcurrent, hbest, heq⟩ := receiveBlocks_of_some attempt polls hroom hpoll
          (hall blockData mem_cons_self)
        have hone : (1 : UInt64).toNat = 1 := rfl
        -- The sum stays even until the last height is reached.
        have hnextLeft : next.current = batchEnd ∨
            (next.current.toNat + (satAdd applied 1).toNat) % 2 = 0 ∧
              satAdd applied 1 ≤ next.current ∧
              batchEnd.toNat ≤ next.current.toNat + (blocksIn codec polls).length := by
          rw [← UInt64.toNat_inj, le_iff_toNat_le, hcurrent, toNat_satAdd, toNat_satAdd, hone]
          rcases hleft with heq | ⟨heven, hle, hmany⟩
          · rw [heq]
            omega
          · rw [le_iff_toNat_le] at hle
            omega
        obtain ⟨n, hok, hcur, hsame⟩ := ih hnextLeft fun b hb =>
          hall b (mem_cons_of_mem _ hb)
        rw [heq]
        exact ⟨n, hok, hcur, hsame.trans hbest⟩
    · rw [receiveBlocks_of_full hroom]
      refine ⟨applied.toNat, ⟨applied, rfl, rfl⟩, ?_, rfl⟩
      rcases hleft with heq | ⟨heven, -, -⟩
      · rw [heq]
      · rw [lt_iff_toNat_lt, UInt64.toNat_add] at hroom
        omega

end

/-! ## Attempts -/

structure Underway (cfg : SyncConfig) (r : SyncRun) (req : GetBlocks) (attempt : UInt32) :
    Prop where
  attempt : attempt.toNat < cfg.retryCount.toNat
  start : req.fromHeight.toNat < r.bestHeight.toNat
  batch : req.toHeight.toNat < req.fromHeight.toNat ∧ r.current = req.fromHeight ∨
    req.fromHeight.toNat < req.toHeight.toNat ∧ req.fromHeight.toNat ≤ r.current.toNat ∧
      r.current.toNat ≤ req.toHeight.toNat ∧ req.toHeight.toNat ≤ r.bestHeight.toNat

variable {req : GetBlocks}

theorem Underway.attempt_lt {attempt : UInt32} (h : Underway cfg r req attempt) : attempt.toNat <
      cfg.retryCount.toNat * (r.bestHeight.toNat - req.fromHeight.toNat) := by
  have hattempt := h.attempt
  have hstart := h.start
  have hle : cfg.retryCount.toNat ≤
      cfg.retryCount.toNat * (r.bestHeight.toNat - req.fromHeight.toNat) :=
    Nat.le_mul_of_pos_right _ (by omega)
  omega

def Sound (cfg : SyncConfig) (r : SyncRun) : Prop :=
  match r.phase with
  | .returned result => result = .ok ()
  | .fetching req _ attempt => Underway cfg r req attempt

def Outlook (cfg : SyncConfig) (r : SyncRun) : Prop :=
  match r.phase with
  | .returned _ => r.current = r.bestHeight
  | .fetching req _ attempt => r.current.toNat ≤ req.toHeight.toNat ∧
    OnBatch cfg.retryCount.toNat cfg.maxBlocksBatch.toNat r.bestHeight.toNat
      req.toHeight.toNat (req.toHeight.toNat - r.current.toNat)
      (cfg.retryCount.toNat - attempt.toNat)

def attemptsLeft (cfg : SyncConfig) (r : SyncRun) : ℕ :=
  match r.phase with
  | .returned _ => 0
  | .fetching req _ attempt =>
    cfg.retryCount.toNat * (r.bestHeight.toNat - req.fromHeight.toNat) - attempt.toNat

variable (cfg r) in
theorem finish_spec : Sound cfg r.finish ∧ attemptsLeft cfg r.finish = 0 ∧
    r.finish.bestHeight = r.bestHeight ∧
    (Outlook cfg r.finish ↔ r.current = r.bestHeight) :=
  ⟨rfl, rfl, rfl, Iff.rfl⟩

variable (hvalid : cfg.validate = .ok ())
  (hcodec : ∀ req, ∃ bytes, codec.encodeGetBlocks req = .ok bytes)

section

include hvalid

theorem pos_of_validate : 0 < cfg.maxBlocksBatch.toNat ∧ 0 < cfg.retryCount.toNat := by
  obtain ⟨hbatch, hretry⟩ := SyncConfig.validate_ok hvalid
  rw [ne_eq, ← UInt64.toNat_inj] at hbatch
  rw [ne_eq, ← UInt32.toNat_inj] at hretry
  exact ⟨Nat.pos_of_ne_zero hbatch, Nat.pos_of_ne_zero hretry⟩

theorem fetching_spec {reqBytes : List UInt8} (hlt : r.current.toNat < r.bestHeight.toNat)
    (hfrom : req.fromHeight = r.current)
    (hto : req.toHeight = min (r.current + cfg.maxBlocksBatch) r.bestHeight)
    (hphase : r.phase = .fetching req reqBytes 0) : Sound cfg r ∧ attemptsLeft cfg r =
      cfg.retryCount.toNat * (r.bestHeight.toNat - r.current.toNat) ∧
    (Outlook cfg r ↔ CanReach cfg.retryCount.toNat cfg.maxBlocksBatch.toNat
      r.bestHeight.toNat (r.bestHeight.toNat - r.current.toNat)) := by
  obtain ⟨hB, hR⟩ := pos_of_validate hvalid
  have hbest := r.bestHeight.toNat_lt
  have hmax := cfg.maxBlocksBatch.toNat_lt
  have hend : req.toHeight.toNat = min ((r.current.toNat + cfg.maxBlocksBatch.toNat) % 2 ^ 64)
      r.bestHeight.toNat := by
    rw [hto, ← UInt64.toNat_add]
    exact toNat_min _ _
  have hzero : (0 : UInt32).toNat = 0 := rfl
  simp only [Sound, attemptsLeft, Outlook, hphase, hzero, Nat.sub_zero, hfrom, true_and]
  by_cases hfit : r.current.toNat + cfg.maxBlocksBatch.toNat < 2 ^ 64
  · rw [Nat.mod_eq_of_lt hfit] at hend
    refine ⟨⟨by omega, by rw [hfrom]; exact hlt, .inr ?_⟩, ?_⟩
    · rw [hfrom]
      omega
    · rw [hend, onBatch_first hB hlt hbest hfit]
      exact and_iff_right (by omega)
  · refine ⟨⟨by omega, by rw [hfrom]; exact hlt, .inl ⟨?_, hfrom.symm⟩⟩, ?_⟩
    · rw [hfrom]
      omega
    · refine iff_of_false (by omega) (not_canReach_of_overflow (by omega) (by omega) (by omega))

section

include hcodec

theorem nextBatch_eq (hlt : r.current < r.bestHeight) :
    ∃ reqBytes, r.nextBatch codec cfg = { r with
      phase := .fetching ⟨r.current, min (r.current + cfg.maxBlocksBatch) r.bestHeight⟩
        reqBytes 0 } := by
  obtain ⟨-, hretry⟩ := SyncConfig.validate_ok hvalid
  obtain ⟨bytes, hbytes⟩ := hcodec ⟨r.current, min (r.current + cfg.maxBlocksBatch) r.bestHeight⟩
  unfold nextBatch
  rw [if_pos hlt]
  simp only [serializeSyncMessage, hbytes, hretry, if_false]
  exact ⟨_, rfl⟩

theorem nextBatch_spec (hle : r.current.toNat ≤ r.bestHeight.toNat) :
    Sound cfg (r.nextBatch codec cfg) ∧
    attemptsLeft cfg (r.nextBatch codec cfg) ≤
      cfg.retryCount.toNat * (r.bestHeight.toNat - r.current.toNat) ∧
    (r.nextBatch codec cfg).bestHeight = r.bestHeight ∧
    (Outlook cfg (r.nextBatch codec cfg) ↔ r.bestHeight.toNat - r.current.toNat = 0 ∨
      CanReach cfg.retryCount.toNat cfg.maxBlocksBatch.toNat r.bestHeight.toNat
        (r.bestHeight.toNat - r.current.toNat)) := by
  by_cases hlt : r.current < r.bestHeight
  · obtain ⟨reqBytes, heq⟩ := nextBatch_eq hvalid hcodec hlt
    rw [lt_iff_toNat_lt] at hlt
    rw [heq]
    obtain ⟨hsound, hattempts, houtlook⟩ := fetching_spec (r := { r with
      phase := .fetching ⟨r.current, min (r.current + cfg.maxBlocksBatch) r.bestHeight⟩
        reqBytes 0 }) hvalid hlt rfl rfl rfl
    refine ⟨hsound, hattempts.le, rfl, houtlook.trans ?_⟩
    rw [or_iff_right]
    exact Nat.sub_ne_zero_of_lt hlt
  · rw [nextBatch, if_neg hlt]
    rw [lt_iff_toNat_lt] at hlt
    obtain ⟨hsound, hattempts, hbest, houtlook⟩ := finish_spec cfg r
    refine ⟨hsound, by omega, hbest, ?_⟩
    rw [houtlook, ← UInt64.toNat_inj]
    exact iff_of_true (by omega) (.inl (by omega))

end

end

structure Progresses (cfg : SyncConfig) (r r' : SyncRun) : Prop where
  sound : Sound cfg r'
  fewer : attemptsLeft cfg r' < attemptsLeft cfg r
  best : r'.bestHeight = r.bestHeight
  outlook : Outlook cfg r' ↔ Outlook cfg r

section

variable {r' : SyncRun} {req : GetBlocks} {reqBytes : List UInt8} {attempt : UInt32}
  {applied : UInt64}

include hvalid hcodec in
theorem progresses_of_complete
    (hphase : r.phase = .fetching req reqBytes attempt) (hunder : Underway cfg r req attempt)
    (hbest : r'.bestHeight = r.bestHeight) (heq : applied = req.toHeight - r'.current)
    (hmoved : req.fromHeight.toNat < r'.current.toNat)
    (hle : r'.current.toNat ≤ r'.bestHeight.toNat)
    (houtlook : (r'.bestHeight.toNat - r'.current.toNat = 0 ∨
      CanReach cfg.retryCount.toNat cfg.maxBlocksBatch.toNat r'.bestHeight.toNat
        (r'.bestHeight.toNat - r'.current.toNat)) ↔ Outlook cfg r) :
    Progresses cfg r (r'.afterAttempt codec cfg req reqBytes attempt applied) := by
  rw [afterAttempt, if_pos heq]
  generalize hsaved : (if cfg.persistBatch then { r' with persisted := r'.current } else r') = t
  have hcurrent : t.current = r'.current := by
    rw [← hsaved]
    split <;> rfl
  have htarget : t.bestHeight = r'.bestHeight := by
    rw [← hsaved]
    split <;> rfl
  rw [← hcurrent, ← htarget] at houtlook hle
  rw [← hcurrent] at hmoved
  obtain ⟨hsound, hattempts, hsame, hnext⟩ := nextBatch_spec (r := t) hvalid hcodec hle
  have hattempt := hunder.attempt
  have hbefore : attemptsLeft cfg r = cfg.retryCount.toNat *
      (r.bestHeight.toNat - req.fromHeight.toNat) - attempt.toNat := by
    simp only [attemptsLeft, hphase]
  refine ⟨hsound, ?_, by rw [hsame, htarget, hbest], hnext.trans houtlook⟩
  rw [htarget, hbest] at hattempts hle
  -- One block further is worth all the attempts of a batch.
  have hmul : cfg.retryCount.toNat * (r.bestHeight.toNat - t.current.toNat) +
      cfg.retryCount.toNat ≤
        cfg.retryCount.toNat * (r.bestHeight.toNat - req.fromHeight.toNat) := by
    rw [← Nat.mul_succ]
    exact Nat.mul_le_mul_left _ (by omega)
  omega

theorem toNat_attempt_add_one (h : attempt.toNat < cfg.retryCount.toNat) :
    (attempt + 1).toNat = attempt.toNat + 1 := by
  have hretry := cfg.retryCount.toNat_lt
  have hone : (1 : UInt32).toNat = 1 := rfl
  rw [UInt32.toNat_add, Nat.mod_eq_of_lt (by omega), hone]

section

variable (hphase : r.phase = .fetching req reqBytes attempt)
include hphase

theorem progresses_of_retry
    (hunder : Underway cfg r req attempt) (hbest : r'.bestHeight = r.bestHeight)
    (hne : applied ≠ req.toHeight - r'.current) (hunder' : Underway cfg r' req attempt)
    (hmore : attempt.toNat + 1 < cfg.retryCount.toNat → (r'.current.toNat ≤ req.toHeight.toNat ∧
        OnBatch cfg.retryCount.toNat cfg.maxBlocksBatch.toNat r'.bestHeight.toNat
          req.toHeight.toNat (req.toHeight.toNat - r'.current.toNat)
          (cfg.retryCount.toNat - (attempt.toNat + 1)) ↔ Outlook cfg r))
    (hlast : attempt.toNat + 1 = cfg.retryCount.toNat →
      (r'.current = r'.bestHeight ↔ Outlook cfg r)) :
    Progresses cfg r (r'.afterAttempt codec cfg req reqBytes attempt applied) := by
  have hattempt := hunder.attempt
  have hnext := toNat_attempt_add_one hattempt
  have hpos := hunder.attempt_lt
  rw [afterAttempt, if_neg hne]
  by_cases hagain : attempt + 1 < cfg.retryCount
  · rw [if_pos hagain]
    rw [UInt32.lt_iff_toNat_lt, hnext] at hagain
    refine ⟨⟨by rw [hnext]; exact hagain, hunder'.start, hunder'.batch⟩, ?_, hbest, ?_⟩
    · simp only [attemptsLeft, hphase, hnext, hbest]
      omega
    · have hiff := hmore hagain
      rw [← hnext] at hiff
      exact hiff
  · rw [if_neg hagain]
    rw [UInt32.lt_iff_toNat_lt, hnext] at hagain
    obtain ⟨hsound, hattempts, hsame, houtlook⟩ := finish_spec cfg r'
    refine ⟨hsound, ?_, by rw [hsame, hbest], houtlook.trans (hlast (by omega))⟩
    rw [hattempts]
    simp only [attemptsLeft, hphase]
    omega

theorem step_of_took {current n : ℕ} (hbroadcast : w.broadcast.isOk = true)
    (h : Took (r.send reqBytes) (receiveBlocks codec cfg req.toHeight attempt (r.send reqBytes) 0
      w.polls) current n) :
    ∃ r' applied,
      step codec cfg r w = afterAttempt codec cfg r' req reqBytes attempt applied ∧
      r'.current.toNat = current ∧ applied.toNat = n ∧ r'.bestHeight = r.bestHeight := by
  obtain ⟨⟨applied, hok, hn⟩, hcurrent, hbest⟩ := h
  obtain ⟨peers, hpeers⟩ : ∃ peers, w.broadcast = .ok peers := by
    cases hw : w.broadcast with
    | error =>
      rw [hw] at hbroadcast
      cases hbroadcast
    | ok peers => exact ⟨peers, rfl⟩
  unfold step
  rw [hphase, hpeers]
  rcases hres : receiveBlocks codec cfg req.toHeight attempt (r.send reqBytes) 0 w.polls with
    ⟨r', result⟩
  rw [hres] at hok hcurrent hbest
  subst hok
  dsimp only
  rw [hres]
  exact ⟨r', applied, rfl, hcurrent, hn, hbest⟩

theorem outlook_fetching : Outlook cfg r ↔ r.current.toNat ≤ req.toHeight.toNat ∧
      OnBatch cfg.retryCount.toNat cfg.maxBlocksBatch.toNat r.bestHeight.toNat
        req.toHeight.toNat (req.toHeight.toNat - r.current.toNat)
        (cfg.retryCount.toNat - attempt.toNat) := by
  simp only [Outlook, hphase]

theorem step_overflow
    (hunder : Underway cfg r req attempt) (hbroadcast : w.broadcast.isOk = true)
    (hover : req.toHeight.toNat < req.fromHeight.toNat) (hcurrent : r.current = req.fromHeight) :
    Progresses cfg r (step codec cfg r w) := by
  have hstart := hunder.start
  have hzero : (0 : UInt64).toNat = 0 := rfl
  have hfull : ¬ (r.send reqBytes).current + 0 < req.toHeight := by
    rw [UInt64.add_zero, lt_iff_toNat_lt]
    have hsame : (r.send reqBytes).current = r.current := rfl
    rw [hsame, hcurrent]
    omega
  have htook : Took (r.send reqBytes) (receiveBlocks codec cfg req.toHeight attempt
      (r.send reqBytes) 0 w.polls) r.current.toNat 0 := by
    rw [receiveBlocks_of_full hfull]
    exact ⟨⟨0, rfl, rfl⟩, rfl, rfl⟩
  obtain ⟨r', applied, hstep, hcurrent', hn, hbest⟩ := step_of_took hphase hbroadcast htook
  have hsame : r'.current = r.current := UInt64.toNat_inj.mp hcurrent'
  have hunlikely : ¬ Outlook cfg r := by
    rw [outlook_fetching hphase, hcurrent]
    omega
  rw [hstep]
  refine progresses_of_retry hphase hunder hbest ?_ ?_ ?_ ?_
  · intro heq
    have hfrom := req.fromHeight.toNat_lt
    rw [← UInt64.toNat_inj, hn, UInt64.toNat_sub, hsame, hcurrent] at heq
    omega
  · exact ⟨hunder.attempt, by rw [hbest]; exact hstart, .inl ⟨hover, by rw [hsame, hcurrent]⟩⟩
  · intro _
    refine iff_of_false ?_ hunlikely
    rw [hsame, hcurrent]
    omega
  · intro _
    refine iff_of_false ?_ hunlikely
    rw [hsame, hbest, hcurrent, ← UInt64.toNat_inj]
    omega

end

section

variable (hphase : r.phase = .fetching req reqBytes attempt) (hunder : Underway cfg r req attempt)
  (hbroadcast : w.broadcast.isOk = true)
  (hmany : req.toHeight.toNat - req.fromHeight.toNat ≤ (blocksIn codec w.polls).length)
  (hall : ∀ blockData ∈ blocksIn codec w.polls, blockData.Acceptable cfg)
  (hbatch : req.fromHeight.toNat < req.toHeight.toNat ∧
    req.fromHeight.toNat ≤ r.current.toNat ∧ r.current.toNat ≤ req.toHeight.toNat ∧
    req.toHeight.toNat ≤ r.bestHeight.toNat)

include hvalid hcodec hphase hunder hbroadcast hmany hall hbatch

theorem step_last (hend : req.toHeight.toNat + 1 = 2 ^ 64)
    (hodd : (req.toHeight.toNat - r.current.toNat) % 2 = 1) :
    Progresses cfg r (step codec cfg r w) := by
  have hattempt := hunder.attempt
  have hmax := r.bestHeight.toNat_lt
  have hzero : (0 : UInt64).toNat = 0 := rfl
  have hsame : (r.send reqBytes).current = r.current := rfl
  have hleft : (r.send reqBytes).current = req.toHeight ∨
      ((r.send reqBytes).current.toNat + (0 : UInt64).toNat) % 2 = 0 ∧
        0 ≤ (r.send reqBytes).current ∧ req.toHeight.toNat ≤
          (r.send reqBytes).current.toNat + (blocksIn codec w.polls).length := by
    rw [hsame, hzero, le_iff_toNat_le, hzero]
    omega
  obtain ⟨n, htook⟩ : ∃ n, Took (r.send reqBytes) (receiveBlocks codec cfg req.toHeight attempt
      (r.send reqBytes) 0 w.polls) req.toHeight.toNat n := receiveBlocks_last hend hleft hall
  obtain ⟨r', applied, hstep, hcurrent, -, hbest⟩ := step_of_took hphase hbroadcast htook
  have hlikely : Outlook cfg r := by
    rw [outlook_fetching hphase]
    exact ⟨hbatch.2.2.1, .inl ⟨hend, hodd⟩⟩
  rw [hstep]
  by_cases heq : applied = req.toHeight - r'.current
  · refine progresses_of_complete hvalid hcodec hphase hunder hbest heq (by omega) ?_ ?_
    · rw [hbest]
      omega
    · exact iff_of_true (.inl (by rw [hbest]; omega)) hlikely
  refine progresses_of_retry hphase hunder hbest heq ?_ ?_ ?_
  · exact ⟨hattempt, by rw [hbest]; exact hunder.start, .inr (by rw [hbest]; omega)⟩
  · intro hagain
    refine iff_of_true ⟨by omega, ?_⟩ hlikely
    rw [hcurrent, Nat.sub_self, hbest, onBatch_even rfl (by omega)]
    exact .inl (by omega)
  · intro _
    refine iff_of_true ?_ hlikely
    rw [← UInt64.toNat_inj, hbest]
    omega

theorem step_half (hnot : ¬ (req.toHeight.toNat + 1 = 2 ^ 64 ∧
      (req.toHeight.toNat - r.current.toNat) % 2 = 1)) : Progresses cfg r (step codec cfg r w) := by
  have hattempt := hunder.attempt
  have hend := req.toHeight.toNat_lt
  have hzero : (0 : UInt64).toNat = 0 := rfl
  have hsame : (r.send reqBytes).current = r.current := rfl
  have htook : Took (r.send reqBytes) (receiveBlocks codec cfg req.toHeight attempt
      (r.send reqBytes) 0 w.polls) _ _ :=
    receiveBlocks_half ((req.toHeight.toNat - r.current.toNat + 1) / 2)
      (by rw [hsame, hzero]; omega) (by omega) hall
  obtain ⟨r', applied, hstep, hcurrent, hn, hbest⟩ := step_of_took hphase hbroadcast htook
  rw [hsame] at hcurrent
  rw [hzero, Nat.zero_add] at hn
  have hrest : (req.toHeight - r'.current).toNat = (req.toHeight.toNat - r.current.toNat) / 2 := by
    rw [UInt64.toNat_sub_of_le _ _ (le_iff_toNat_le.mpr (by omega))]
    omega
  rw [hstep]
  rcases Nat.mod_two_eq_zero_or_one (req.toHeight.toNat - r.current.toNat) with heven | hodd
  · refine progresses_of_complete hvalid hcodec hphase hunder hbest ?_ (by omega) ?_ ?_
    · rw [← UInt64.toNat_inj, hn, hrest]
      omega
    · rw [hbest]
      omega
    rw [outlook_fetching hphase, onBatch_even heven (by omega), and_iff_right hbatch.2.2.1, hbest]
    have hdistance : r.bestHeight.toNat - r'.current.toNat = r.bestHeight.toNat -
        req.toHeight.toNat + (req.toHeight.toNat - r.current.toNat) / 2 := by omega
    rw [hdistance]
  · have hto : req.toHeight.toNat + 1 ≠ 2 ^ 64 := fun h => hnot ⟨h, hodd⟩
    refine progresses_of_retry hphase hunder hbest ?_ ?_ ?_ ?_
    · rw [ne_eq, ← UInt64.toNat_inj, hn, hrest]
      omega
    · exact ⟨hattempt, by rw [hbest]; exact hunder.start, .inr (by rw [hbest]; omega)⟩
    · intro hagain
      have hattempts : cfg.retryCount.toNat - attempt.toNat =
          cfg.retryCount.toNat - (attempt.toNat + 1) + 1 := by omega
      have hleft : req.toHeight.toNat - r'.current.toNat =
          (req.toHeight.toNat - r.current.toNat) / 2 := by omega
      rw [outlook_fetching hphase, hattempts, onBatch_odd hodd hto, hleft, hbest,
        and_iff_right hbatch.2.2.1, and_iff_right (by omega)]
    · intro hlast
      have hattempts : cfg.retryCount.toNat - attempt.toNat = 1 := by omega
      rw [outlook_fetching hphase, hattempts, onBatch_odd_last hodd hto, hbest, ← UInt64.toNat_inj]
      omega

end

include hvalid hcodec in
theorem step_progresses (hphase : r.phase = .fetching req reqBytes attempt) (hsound : Sound cfg r)
    (hdelivers : Delivers codec cfg r w) : Progresses cfg r (step codec cfg r w) := by
  simp only [Delivers, hphase] at hdelivers
  simp only [Sound, hphase] at hsound
  obtain ⟨hbroadcast, hsub, hall⟩ := hdelivers
  have hmany := hsub.length_le
  rw [length_range', length_map] at hmany
  rcases hsound.batch with ⟨hover, hcurrent⟩ | hbatch
  · exact step_overflow hphase hsound hbroadcast hover hcurrent
  by_cases hlast : req.toHeight.toNat + 1 = 2 ^ 64 ∧ (req.toHeight.toNat - r.current.toNat) % 2 = 1
  · exact step_last hvalid hcodec hphase hsound hbroadcast hmany hall hbatch hlast.1 hlast.2
  · exact step_half hvalid hcodec hphase hsound hbroadcast hmany hall hbatch hlast

end

/-! ## Runs -/

theorem exec_of_returned {result : Except SyncError Unit} (h : r.phase = .returned result) :
    exec (step codec cfg) r windows = r := by
  induction windows with
  | nil => rfl
  | cons w _ ih =>
    have hsame : step codec cfg r w = r := by
      unfold step
      rw [h]
    rw [exec_cons, hsame, ih]

include hvalid hcodec in
theorem exec_outlook (hsound : Sound cfg r)
    (hdelivers : Along (step codec cfg) (Delivers codec cfg) r windows)
    (henough : attemptsLeft cfg r ≤ windows.length) :
    (exec (step codec cfg) r windows).phase = .returned (.ok ()) ∧
    ((exec (step codec cfg) r windows).current = r.bestHeight ↔ Outlook cfg r) := by
  induction windows generalizing r with
  | nil =>
    cases hphase : r.phase with
    | returned =>
      simp only [Sound, hphase] at hsound
      simp [Outlook, hphase, hsound]
    | fetching =>
      simp only [Sound, hphase] at hsound
      simp only [attemptsLeft, hphase, length_nil] at henough
      have hlt := hsound.attempt_lt
      omega
  | cons _ _ ih =>
    cases hphase : r.phase with
    | returned =>
      rw [exec_of_returned hphase]
      simp only [Sound, hphase] at hsound
      simp [Outlook, hphase, hsound]
    | fetching =>
      have hstep := step_progresses hvalid hcodec hphase hsound hdelivers.1
      have hfewer := hstep.fewer
      rw [length_cons] at henough
      obtain ⟨hreturned, houtlook⟩ := ih hstep.sound hdelivers.2 (by omega)
      rw [hstep.best] at houtlook
      exact ⟨hreturned, houtlook.trans hstep.outlook⟩

theorem exec_silent {reqBytes : List UInt8} {attempt : UInt32}
    (hphase : r.phase = .fetching req reqBytes attempt)
    (hattempt : attempt.toNat < cfg.retryCount.toNat) (hne : req.toHeight ≠ r.current)
    (hsilent : ∀ w ∈ windows, w.broadcast.isOk = true ∧
      ∀ poll ∈ w.polls, poll.bind codec.blockData = none)
    (henough : cfg.retryCount.toNat ≤ windows.length + attempt.toNat) :
    (exec (step codec cfg) r windows).phase = .returned (.ok ()) ∧
    (exec (step codec cfg) r windows).current = r.current := by
  induction windows generalizing r attempt with
  | nil =>
    rw [length_nil] at henough
    omega
  | cons w _ ih =>
    obtain ⟨hbroadcast, hpolls⟩ := hsilent w mem_cons_self
    have htook : Took (r.send reqBytes) (receiveBlocks codec cfg req.toHeight attempt
        (r.send reqBytes) 0 w.polls) r.current.toNat 0 := by
      rw [receiveBlocks_silent hpolls]
      exact ⟨⟨0, rfl, rfl⟩, rfl, rfl⟩
    obtain ⟨r', applied, hstep, hcurrent, hn, -⟩ := step_of_took hphase hbroadcast htook
    have hsame : r'.current = r.current := UInt64.toNat_inj.mp hcurrent
    have hzero : applied = 0 := UInt64.toNat_inj.mp hn
    have hincomplete : applied ≠ req.toHeight - r'.current := by
      rw [hzero, hsame]
      intro heq
      exact hne (sub_eq_zero.mp heq.symm)
    have hnext := toNat_attempt_add_one hattempt
    rw [exec_cons, hstep, afterAttempt, if_neg hincomplete, ← hsame]
    by_cases hagain : attempt + 1 < cfg.retryCount
    · rw [if_pos hagain]
      rw [UInt32.lt_iff_toNat_lt] at hagain
      rw [length_cons] at henough
      exact ih rfl hagain (by rw [hsame]; exact hne)
        (fun w' hw' => hsilent w' (mem_cons_of_mem _ hw')) (by omega)
    · rw [if_neg hagain, exec_of_returned rfl]
      exact ⟨rfl, rfl⟩

end SyncRun

open SyncRun

section

variable {codec : SyncCodec} {cfg : SyncConfig} {node : SyncNode} {status : Window}

def targetHeight (codec : SyncCodec) (node : SyncNode) (status : Window) : UInt64 :=
  (collectStatus codec node.persisted node.sync.peers status.polls).1

section

variable {peers : ℕ} (hvalid : cfg.validate = .ok ())
  (hrequest : ∀ req, ∃ bytes, codec.encodeGetStatus req = .ok bytes)
  (hpeers : status.broadcast = .ok (peers + 1))
  (htarget : node.persisted < targetHeight codec node status)
include hvalid hrequest hpeers htarget

theorem chooseTarget_eq :
    ∃ r, chooseTarget codec cfg node status = nextBatch codec cfg r ∧
      r.current = node.persisted ∧ r.bestHeight = targetHeight codec node status := by
  obtain ⟨bytes, hbytes⟩ := hrequest ⟨node.persisted, node.nodeId.getD "unknown"⟩
  have hknown : ∀ msg, (node.start.send msg).sync.peers = node.sync.peers := by
    intro msg
    unfold SyncNode.start
    by_cases hpos : 0 < node.persisted
    · cases hengine : node.engine <;>
        simp [send, setEngineHeight, setLocalHeight, hpos, hengine]
    · simp [send, setLocalHeight, hpos]
  have hnot : ¬ targetHeight codec node status ≤ node.persisted := UInt64.not_le.mpr htarget
  unfold chooseTarget
  rw [targetHeight] at hnot
  simp only [hvalid, serializeSyncMessage, hbytes, hpeers, hknown, if_neg hnot]
  exact ⟨_, rfl, (start_cases node).1, rfl⟩

/-- **With peers that send no block**, whatever else they send and however often `recv` is called,
sync returns without an error at the height it began at. -/
theorem syncFromPeers_silent (hcodec : ∀ req, ∃ bytes, codec.encodeGetBlocks req = .ok bytes)
    (hsilent : ∀ w ∈ windows, w.broadcast.isOk = true ∧
      ∀ poll ∈ w.polls, poll.bind codec.blockData = none)
    (henough : cfg.retryCount.toNat ≤ windows.length) :
    (syncFromPeers codec cfg node status windows).phase = .returned (.ok ()) ∧
    (syncFromPeers codec cfg node status windows).current = node.persisted := by
  obtain ⟨r, hr, hcurrent, hbest⟩ := chooseTarget_eq hvalid hrequest hpeers htarget
  rw [← hcurrent, ← hbest] at htarget
  obtain ⟨reqBytes, heq⟩ := nextBatch_eq hvalid hcodec htarget
  have hlt := lt_iff_toNat_lt.mp htarget
  obtain ⟨hsound, -, -⟩ := fetching_spec (r := { r with
    phase := .fetching ⟨r.current, min (r.current + cfg.maxBlocksBatch) r.bestHeight⟩
      reqBytes 0 }) hvalid hlt rfl rfl rfl
  have hbatch : min (r.current + cfg.maxBlocksBatch) r.bestHeight ≠ r.current := by
    intro hsame
    rcases hsound.batch with ⟨hover, -⟩ | ⟨hin, -⟩
    · rw [hsame] at hover
      exact Nat.lt_irrefl _ hover
    · rw [hsame] at hin
      exact Nat.lt_irrefl _ hin
  unfold syncFromPeers
  rw [hr, heq, ← hcurrent]
  exact exec_silent rfl (pos_of_validate hvalid).2 hbatch hsilent henough

end

/-- Nothing arrives twice, and then a message that is no block. -/
theorem syncFromPeers_silent_sample : ∃ run, run = syncFromPeers syncCodec {} syncNode
      (statusWindow 15) (replicate 3 { blockWindow [] with polls := [none, none, some []] }) ∧
    run.phase = .returned (.ok ()) ∧ run.current = 0 := by
  refine ⟨_, rfl, syncFromPeers_silent rfl (fun _ => ⟨[], rfl⟩) rfl (by decide +kernel)
    (fun _ => ⟨[], rfl⟩) (fun _ hw => ?_) le_rfl⟩
  rw [eq_of_mem_replicate hw]
  exact ⟨rfl, by decide⟩

variable (codec cfg node status) in
/-- **With a network that delivers all it is asked for**, sync returns without an error, and it is
at its target exactly when the distance to it is one that it covers. -/
theorem syncFromPeers_reaches_iff (peers : ℕ) (windows : List Window)
    (hvalid : cfg.validate = .ok ())
    (hrequest : ∀ req, ∃ bytes, codec.encodeGetStatus req = .ok bytes)
    (hcodec : ∀ req, ∃ bytes, codec.encodeGetBlocks req = .ok bytes)
    (hpeers : status.broadcast = .ok (peers + 1))
    (htarget : node.persisted < targetHeight codec node status)
    (hdelivers : Along (step codec cfg) (Delivers codec cfg)
      (chooseTarget codec cfg node status) windows)
    (henough : cfg.retryCount.toNat *
      ((targetHeight codec node status).toNat - node.persisted.toNat) ≤ windows.length) :
    (syncFromPeers codec cfg node status windows).phase = .returned (.ok ()) ∧
    ((syncFromPeers codec cfg node status windows).current = targetHeight codec node status ↔
      CanReach cfg.retryCount.toNat cfg.maxBlocksBatch.toNat
        (targetHeight codec node status).toNat
        ((targetHeight codec node status).toNat - node.persisted.toNat)) := by
  obtain ⟨r, hr, hcurrent, hbest⟩ := chooseTarget_eq hvalid hrequest hpeers htarget
  rw [lt_iff_toNat_lt] at htarget
  obtain ⟨hsound, hattempts, hsame, houtlook⟩ := nextBatch_spec (r := r) hvalid hcodec
    (by rw [hcurrent, hbest]; omega)
  rw [hr] at hdelivers
  rw [hcurrent, hbest] at hattempts houtlook
  obtain ⟨hreturned, hiff⟩ := exec_outlook hvalid hcodec hsound hdelivers (hattempts.trans henough)
  rw [hsame, hbest] at hiff
  unfold syncFromPeers
  rw [hr]
  refine ⟨hreturned, hiff.trans (houtlook.trans ?_)⟩
  rw [or_iff_right]
  omega

end

/-- Two blocks, in batches of 50 with three attempts. -/
theorem syncFromPeers_reaches_two :
    ∃ run, run = syncFromPeers syncCodec {} syncNode (statusWindow 2)
      (List.replicate 6 (blockWindow [1, 2])) ∧
    run.phase = .returned (.ok ()) ∧ run.current = 2 := by
  have htarget : targetHeight syncCodec syncNode (statusWindow 2) = 2 := by
    decide +kernel
  obtain ⟨hreturned, hiff⟩ := syncFromPeers_reaches_iff syncCodec {} syncNode
    (statusWindow 2) 0 (replicate 6 (blockWindow [1, 2])) rfl
    (fun _ => ⟨[], rfl⟩) (fun _ => ⟨[], rfl⟩) rfl (by decide +kernel) (by decide +kernel)
    (by decide +kernel)
  have hone : CanReach 3 50 2 1 := by
    rw [canReach_of_not_dvd (by norm_num) (by norm_num) (by norm_num) (by norm_num) (by norm_num)
      (by norm_num)]
    exact .inl (leftAfter_eq_zero_iff.mpr ⟨1, rfl⟩)
  have htwo : CanReach 3 50 2 2 := by
    rw [canReach_of_not_dvd (by norm_num) (by norm_num) (by norm_num) (by norm_num) (by norm_num)
      (by norm_num), leftAfter_of_even rfl]
    exact .inr hone
  rw [htarget] at hiff
  exact ⟨_, rfl, hreturned, hiff.mpr htwo⟩

/-- **A batch is given up one block before its end.**  With the default configuration, a node at
height 0 asks for the blocks up to 15 and gets them all in each of its three attempts; it takes 8,
4 and 2 of them and returns without an error at height 14.  If nothing arrives at all, it returns
without an error at height 0. -/
theorem syncFromPeers_stops_short :
    (∃ run, run = syncFromPeers syncCodec {} syncNode (statusWindow 15)
      (List.replicate 3 (blockWindow [1, 2, 3, 4, 5, 6, 7, 8, 9, 10, 11, 12, 13, 14, 15])) ∧
      run.bestHeight = 15 ∧ run.current = 14 ∧ run.phase matches .returned (.ok ())) ∧
    Along (step syncCodec {}) (Delivers syncCodec {})
      (chooseTarget syncCodec {} syncNode (statusWindow 15))
      (List.replicate 3 (blockWindow [1, 2, 3, 4, 5, 6, 7, 8, 9, 10, 11, 12, 13, 14, 15])) ∧
    (∃ run, run = syncFromPeers syncCodec {} syncNode (statusWindow 15)
      (List.replicate 3 (blockWindow [])) ∧
      run.bestHeight = 15 ∧ run.current = 0 ∧ run.phase matches .returned (.ok ())) := by
  refine ⟨⟨_, rfl, ?_⟩, ?_, ⟨_, rfl, ?_⟩⟩
  · decide +kernel
  · decide +kernel
  · decide +kernel

end IonaOs
