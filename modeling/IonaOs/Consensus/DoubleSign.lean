import IonaOs.Consensus.Messages

/-!
# The double-sign guard
-/

namespace IonaOs

open Lib Std.ExtTreeSet

inductive SignedKey where
  | proposal (height : Height) (round : Round) (blockId : Hash32)
  | vote (voteType : UInt8) (height : Height) (round : Round) (blockId : Option Hash32)
deriving DecidableEq

namespace SignedKey

/-- `SignedKey::height`. -/
def height : SignedKey → Height
  | proposal h _ _ => h
  | vote _ h _ _ => h

def round : SignedKey → Round
  | proposal _ r _ => r
  | vote _ _ r _ => r

/-- The block id of a key, `none` for a nil vote. -/
def blockId : SignedKey → Option Hash32
  | proposal _ _ b => some b
  | vote _ _ _ b => b

def kind : SignedKey → ℕ
  | proposal _ _ _ => 0
  | vote t _ _ _ => t.toNat + 1

def cmp : SignedKey → SignedKey → Ordering :=
  compareLex (compareOn kind) (compareLex (compareOn height)
    (compareLex (compareOn round) (compareOn blockId)))

instance : Std.TransCmp cmp :=
  inferInstanceAs (Std.TransCmp (compareLex (compareOn kind) (compareLex (compareOn height)
    (compareLex (compareOn round) (compareOn blockId)))))

instance : Std.LawfulEqCmp cmp where
  eq_of_compare {a b} h := by
    simp only [cmp, compareLex_eq_eq, compareOn, Std.LawfulEqOrd.compare_eq_iff_eq] at h
    obtain ⟨hkind, hheight, hround, hblock⟩ := h
    cases a with
    | proposal =>
      cases b with
      | proposal => simp_all [height, round, blockId]
      | vote => simp [kind] at hkind
    | vote =>
      cases b with
      | proposal => simp [kind] at hkind
      | vote =>
        simp only [kind, Nat.add_right_cancel_iff, UInt8.toNat_inj] at hkind
        simp_all [height, round, blockId]

end SignedKey

structure DoubleSignConfig where
  persist : Bool := true
  maxEntries : ℕ := 10000
  pruneBelow : UInt64 := 1000

inductive DoubleSignError where
  | conflict (height : Height) (round : Round)
  | serialization (reason : String)

/-- The set of signed keys, ordered as the source's `BTreeSet<SignedKey>`. -/
abbrev SignedSet := Std.ExtTreeSet SignedKey SignedKey.cmp

structure DoubleSignGuard where
  signed : SignedSet
  config : DoubleSignConfig
  highestHeight : Height
  file : Option (List UInt8)

namespace DoubleSignGuard

variable (encode : SignedSet → Except String (List UInt8)) (g : DoubleSignGuard)

/-- `DoubleSignGuard::persist`. -/
def persist : DoubleSignGuard × Except DoubleSignError Unit :=
  if g.config.persist then
    match encode g.signed with
    | .error e => (g, .error (.serialization e))
    | .ok data => ({ g with file := some data }, .ok ())
  else (g, .ok ())

/-- `DoubleSignGuard::prune`. -/
def prune (currentHeight : Height) : DoubleSignGuard :=
  if g.config.pruneBelow = 0 then g
  else
    let threshold := satSub currentHeight g.config.pruneBelow
    let kept := { g with signed := g.signed.filter (fun k => threshold ≤ k.height) }
    if g.signed.size - kept.signed.size > 0 then (kept.persist encode).1 else kept

/-- Remove the `n` smallest keys. -/
def evict : ℕ → SignedSet → SignedSet
  | 0, signed => signed
  | n + 1, signed =>
    match signed.min? with
    | some first => evict n (signed.erase first)
    | none => signed

/-- `DoubleSignGuard::enforce_max_entries`: remove the smallest keys until the bound holds. -/
def enforceMaxEntries : DoubleSignGuard :=
  if g.config.maxEntries = 0 then g
  else { g with signed := evict (g.signed.size - g.config.maxEntries) g.signed }

def observe (height : Height) : DoubleSignGuard :=
  if g.highestHeight < height then
    let g := { g with highestHeight := height }
    if g.config.pruneBelow > 0 then g.prune encode height else g
  else g

/-- The common part of `record_proposal` and `record_vote`. -/
def record (key : SignedKey) : DoubleSignGuard × Except DoubleSignError Unit :=
  ({ g with signed := g.signed.insert key }.enforceMaxEntries).persist encode

/-- Whether a key conflicts with signing `blockId` as a proposal for the slot. -/
def proposalConflict (height : Height) (round : Round) (blockId : Hash32) : SignedKey → Bool
  | .proposal h r b => h == height && r == round && b != blockId
  | .vote _ _ _ _ => false

/-- Whether a key conflicts with signing `blockId` as a vote for the slot. -/
def voteConflict (voteType : VoteType) (height : Height) (round : Round)
    (blockId : Option Hash32) : SignedKey → Bool
  | .proposal _ _ _ => false
  | .vote t h r b => t == voteType.asU8 && h == height && r == round && b != blockId

/-- `DoubleSignGuard::check_proposal`. -/
def checkProposal (height : Height) (round : Round) (blockId : Hash32) :
    DoubleSignGuard × Except DoubleSignError Unit :=
  let g := g.observe encode height
  if g.signed.toList.any (proposalConflict height round blockId) then
    (g, .error (.conflict height round))
  else (g, .ok ())

/-- `DoubleSignGuard::record_proposal`. -/
def recordProposal (height : Height) (round : Round) (blockId : Hash32) :
    DoubleSignGuard × Except DoubleSignError Unit :=
  g.record encode (.proposal height round blockId)

/-- `DoubleSignGuard::check_vote`. -/
def checkVote (voteType : VoteType) (height : Height) (round : Round) (blockId : Option Hash32) :
    DoubleSignGuard × Except DoubleSignError Unit :=
  let g := g.observe encode height
  if g.signed.toList.any (voteConflict voteType height round blockId) then
    (g, .error (.conflict height round))
  else (g, .ok ())

/-- `DoubleSignGuard::record_vote`. -/
def recordVote (voteType : VoteType) (height : Height) (round : Round) (blockId : Option Hash32) :
    DoubleSignGuard × Except DoubleSignError Unit :=
  g.record encode (.vote voteType.asU8 height round blockId)

/-- `DoubleSignGuard::has_vote`. -/
def hasVote (voteType : VoteType) (height : Height) (round : Round) : Bool :=
  g.signed.toList.any fun k =>
    match k with
    | .proposal _ _ _ => false
    | .vote t h r _ => t == voteType.asU8 && h == height && r == round

/-! ## What a guard remembers and what it refuses -/

variable {encode g} {k : SignedKey} {voteType : VoteType} {height : Height} {round : Round}
  {bid : Option Hash32}

@[simp] theorem signed_persist : (g.persist encode).1.signed = g.signed := by
  rw [persist]
  split
  · split <;> rfl
  · rfl

theorem mem_prune : k ∈ (g.prune encode height).signed ↔ k ∈ g.signed ∧
    (g.config.pruneBelow = 0 ∨ satSub height g.config.pruneBelow ≤ k.height) := by
  by_cases h0 : g.config.pruneBelow = 0
  · simp [prune, h0]
  have hfilter : ∀ t : Height, k ∈ g.signed.filter (fun k => t ≤ k.height) ↔
      k ∈ g.signed ∧ t ≤ k.height := by
    intro t
    simp [mem_filter]
  rw [prune, if_neg h0]
  simp only
  split <;> simp only [signed_persist, hfilter, h0, false_or]

theorem mem_observe_of_le (hk : height ≤ k.height) :
    k ∈ (g.observe encode height).signed ↔ k ∈ g.signed := by
  have hle : satSub height g.config.pruneBelow ≤ k.height := by
    rw [UInt64.le_iff_toNat_le] at hk ⊢
    rw [toNat_satSub]
    omega
  rw [observe]
  split
  · simp only
    split
    · simp [mem_prune, hle]
    · rfl
  · rfl

theorem mem_of_mem_observe (h : k ∈ (g.observe encode height).signed) : k ∈ g.signed := by
  rw [observe] at h
  split at h
  · simp only at h
    split at h
    · exact (mem_prune.mp h).1
    · exact h
  · exact h

theorem mem_of_mem_evict {n : ℕ} {signed : SignedSet} (h : k ∈ evict n signed) : k ∈ signed := by
  induction n generalizing signed with
  | zero => exact h
  | succ n ih =>
    rw [evict] at h
    split at h
    · exact (mem_erase.mp (ih h)).2
    · exact h

theorem mem_of_mem_record {key : SignedKey} (h : k ∈ (g.record encode key).1.signed) :
    k = key ∨ k ∈ g.signed := by
  rw [record, signed_persist, enforceMaxEntries] at h
  have hins : k ∈ g.signed.insert key := by
    split at h
    · exact h
    · exact mem_of_mem_evict h
  rcases mem_insert.mp hins with heq | hmem
  · exact .inl (Std.LawfulEqCmp.eq_of_compare heq).symm
  · exact .inr hmem

theorem checkProposal_fst {b : Hash32} : (g.checkProposal encode height round b).1 =
    g.observe encode height := by
  simp only [checkProposal]
  split <;> rfl

theorem checkVote_fst : (g.checkVote encode voteType height round bid).1 =
    g.observe encode height := by
  simp only [checkVote]
  split <;> rfl

theorem any_conflict_eq_false_iff {β : Type} {key : β → SignedKey} {b₀ : β}
    {conflict : SignedKey → Bool} (hconf : ∀ k, conflict k = true ↔ ∃ b ≠ b₀, k = key b)
    (hheight : ∀ b, (key b).height = height) :
    (g.observe encode height).signed.toList.any conflict = false ↔
      ∀ b, key b ∈ g.signed → b = b₀ := by
  rw [List.any_eq_false]
  constructor
  · intro hnone b hb
    by_contra hne
    have hle : height ≤ (key b).height := by rw [hheight b]; exact UInt64.le_refl _
    exact hnone _ (mem_toList.mpr ((mem_observe_of_le hle).mpr hb)) ((hconf _).mpr ⟨b, hne, rfl⟩)
  · intro hall k hk hk'
    obtain ⟨b, hne, rfl⟩ := (hconf k).mp hk'
    exact hne (hall b (mem_of_mem_observe (mem_toList.mp hk)))

theorem checkProposal_ok_iff {bid : Hash32} : (g.checkProposal encode height round bid).2 = .ok () ↔
      ∀ b, .proposal height round b ∈ g.signed → b = bid := by
  have hconf : ∀ k, proposalConflict height round bid k = true ↔
      ∃ b ≠ bid, k = .proposal height round b := by
    intro k
    cases k <;> simp [proposalConflict]; tauto
  rw [← any_conflict_eq_false_iff hconf fun _ => rfl]
  cases hany : (g.observe encode height).signed.toList.any
      (proposalConflict height round bid) <;> simp [checkProposal, hany]

theorem checkVote_ok_iff : (g.checkVote encode voteType height round bid).2 = .ok () ↔
      ∀ b, .vote voteType.asU8 height round b ∈ g.signed → b = bid := by
  have hconf : ∀ k, voteConflict voteType height round bid k = true ↔
      ∃ b ≠ bid, k = .vote voteType.asU8 height round b := by
    intro k
    cases k <;> simp [voteConflict]; tauto
  rw [← any_conflict_eq_false_iff hconf fun _ => rfl]
  cases hany : (g.observe encode height).signed.toList.any
      (voteConflict voteType height round bid) <;> simp [checkVote, hany]

theorem hasVote_iff : g.hasVote voteType height round = true ↔
    ∃ b, .vote voteType.asU8 height round b ∈ g.signed := by
  rw [hasVote, List.any_eq_true]
  constructor
  · rintro ⟨key, hmem, hslot⟩
    rw [mem_toList] at hmem
    cases key with
    | proposal => cases hslot
    | vote t h r b =>
      simp only [Bool.and_eq_true, beq_iff_eq] at hslot
      obtain ⟨⟨rfl, rfl⟩, rfl⟩ := hslot
      exact ⟨b, hmem⟩
  · rintro ⟨b, hmem⟩
    exact ⟨_, mem_toList.mpr hmem, by simp⟩

end DoubleSignGuard
end IonaOs
