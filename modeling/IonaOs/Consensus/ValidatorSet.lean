import IonaOs.Lib.LockedVoting
import IonaOs.Lib.Word
import IonaOs.Types

/-!
# Validator sets
-/

namespace IonaOs

open Lib

structure Validator where
  pk : PublicKeyBytes
  power : UInt64

inductive ProposerStrategy where
  | roundRobin
  | weighted
  | heightOnly
  | fixed (idx : ℕ)

inductive ValidatorSetError where
  | emptySet
  | duplicateValidator (pk : String)
  | validatorNotFound (pk : String)
  | zeroPower (power : UInt64)

structure ValidatorSet where
  validators : List Validator
  lookup : Std.ExtTreeMap PublicKeyBytes UInt64
  totalPower : UInt64
  strategy : ProposerStrategy
  generation : UInt64
  nonempty : validators ≠ []

namespace ValidatorSet

variable (s : ValidatorSet) {vs : List Validator} {strategy : ProposerStrategy}

def fill : List Validator → Std.ExtTreeMap PublicKeyBytes UInt64 × UInt64 →
    Except ValidatorSetError (Std.ExtTreeMap PublicKeyBytes UInt64 × UInt64)
  | [], acc => .ok acc
  | v :: vs, (lookup, total) =>
    if v.power = 0 then .error (.zeroPower v.power)
    else if lookup.contains v.pk then .error (.duplicateValidator (hexEncode v.pk))
    else fill vs (lookup.insert v.pk v.power, satAdd total v.power)

/-- `ValidatorSet::new_with_config`. -/
def newWithConfig (vs : List Validator) (strategy : ProposerStrategy) :
    Except ValidatorSetError ValidatorSet :=
  if h : vs = [] then .error .emptySet
  else match fill vs (∅, 0) with
    | .error e => .error e
    | .ok (lookup, totalPower) =>
      .ok { validators := vs, lookup, totalPower, strategy, generation := 0, nonempty := h }

/-- `ValidatorSet::new`: round-robin proposers. -/
def new (vs : List Validator) : Except ValidatorSetError ValidatorSet :=
  newWithConfig vs .roundRobin

/-- `ValidatorSet::contains`. -/
def contains (pk : PublicKeyBytes) : Bool := s.lookup.contains pk

/-- `ValidatorSet::power_of`. -/
def powerOf (pk : PublicKeyBytes) : Option UInt64 := s.lookup[pk]?

def proposerIndex (height : Height) (round : Round) : ℕ :=
  let n := s.validators.length
  match s.strategy with
  | .roundRobin => (height + round.toUInt64).toNat % n
  | .heightOnly => height.toNat % n
  -- Weighted selection is not implemented and falls back to round-robin.
  | .weighted => (height + round.toUInt64).toNat % n
  | .fixed idx => if idx ≥ n then idx % n else idx

theorem length_pos : 0 < s.validators.length := List.length_pos_iff.mpr s.nonempty

theorem proposerIndex_lt (height : Height) (round : Round) :
    s.proposerIndex height round < s.validators.length := by
  have hn := s.length_pos
  simp only [proposerIndex]
  split
  · exact Nat.mod_lt _ hn
  · exact Nat.mod_lt _ hn
  · exact Nat.mod_lt _ hn
  · split
    · exact Nat.mod_lt _ hn
    · omega

/-- `ValidatorSet::proposer_for`. -/
def proposerFor (height : Height) (round : Round) : Validator :=
  s.validators.get ⟨s.proposerIndex height round, s.proposerIndex_lt height round⟩

/-! ## The set as weighted voters -/

def power (pk : PublicKeyBytes) : ℕ := ((s.powerOf pk).getD 0).toNat

def members : Finset PublicKeyBytes := s.lookup.keys.toFinset

@[simp] theorem mem_members {pk : PublicKeyBytes} : pk ∈ s.members ↔ s.contains pk = true := by
  simp [members, contains]

/-! ## Sets built by the constructor -/

def lookupSum (lookup : Std.ExtTreeMap PublicKeyBytes UInt64) : ℕ :=
  weight (fun pk => (lookup[pk]?.getD 0).toNat) lookup.keys.toFinset

theorem lookupSum_insert {lookup : Std.ExtTreeMap PublicKeyBytes UInt64} {pk : PublicKeyBytes}
    (h : pk ∉ lookup) (p : UInt64) :
    lookupSum (lookup.insert pk p) = lookupSum lookup + p.toNat := by
  have hkeys : (lookup.insert pk p).keys.toFinset = insert pk lookup.keys.toFinset := by
    ext k
    simp [eq_comm (a := k)]
  have hnew : pk ∉ lookup.keys.toFinset := by simpa using h
  rw [lookupSum, lookupSum, hkeys, weight, weight, Finset.sum_insert hnew, add_comm]
  congr 1
  · apply Finset.sum_congr rfl
    intro k hk
    have hne : pk ≠ k := by rintro rfl; exact hnew hk
    simp [Std.ExtTreeMap.getElem?_insert, hne]
  · simp

variable {res acc : Std.ExtTreeMap PublicKeyBytes UInt64 × UInt64}

theorem fill_cons {v : Validator} (h : fill (v :: vs) acc = .ok res) : v.power ≠ 0 ∧ v.pk ∉ acc.1 ∧
    fill vs (acc.1.insert v.pk v.power, satAdd acc.2 v.power) = .ok res := by
  obtain ⟨lookup, total⟩ := acc
  rw [fill] at h
  split at h
  · cases h
  split at h
  · cases h
  rename_i hpow hdup
  exact ⟨hpow, by simpa using hdup, h⟩

theorem fill_total (h : fill vs acc = .ok res)
    (hacc : acc.2.toNat = min (lookupSum acc.1) (2 ^ 64 - 1)) :
    res.2.toNat = min (lookupSum res.1) (2 ^ 64 - 1) := by
  induction vs generalizing acc with
  | nil =>
    simp only [fill, Except.ok.injEq] at h
    exact h ▸ hacc
  | cons v vs ih =>
    obtain ⟨-, hnew, h⟩ := fill_cons h
    refine ih h ?_
    simp only [lookupSum_insert hnew, toNat_satAdd]
    omega

theorem newWithConfig_totalPower {s : ValidatorSet} (h : newWithConfig vs strategy = .ok s) :
    s.totalPower.toNat = min (weight s.power s.members) (2 ^ 64 - 1) := by
  unfold newWithConfig at h
  split at h
  · cases h
  split at h
  · cases h
  rename_i lookup total hfill
  have hsum := fill_total hfill (by simp [lookupSum, weight])
  cases h
  exact hsum

theorem fill_sum (h : fill vs acc = .ok res) :
    lookupSum acc.1 + (vs.map (·.power.toNat)).sum = lookupSum res.1 ∧
      ∀ v ∈ vs, 0 < v.power.toNat := by
  induction vs generalizing acc with
  | nil =>
    simp only [fill, Except.ok.injEq] at h
    simp [h]
  | cons v vs ih =>
    obtain ⟨hpow, hnew, h⟩ := fill_cons h
    have hpos : 0 < v.power.toNat := Nat.pos_of_ne_zero fun h0 => hpow (UInt64.toNat_inj.mp h0)
    obtain ⟨hsum, hrest⟩ := ih h
    rw [lookupSum_insert hnew] at hsum
    refine ⟨?_, List.forall_mem_cons.mpr ⟨hpos, hrest⟩⟩
    simp only [List.map_cons, List.sum_cons]
    omega

theorem newWithConfig_weight {s : ValidatorSet} (h : newWithConfig vs strategy = .ok s) :
    weight s.power s.members = (vs.map (·.power.toNat)).sum ∧ 0 < weight s.power s.members := by
  unfold newWithConfig at h
  split at h
  · cases h
  rename_i hne
  split at h
  · cases h
  rename_i lookup total hfill
  obtain ⟨hsum, hpos⟩ := fill_sum hfill
  cases h
  have hweight : lookupSum lookup = (vs.map (·.power.toNat)).sum := by
    rw [← hsum]
    simp [lookupSum, weight]
  obtain ⟨v, hv⟩ := List.exists_mem_of_ne_nil vs hne
  refine ⟨hweight, lt_of_lt_of_le (hpos v hv) ?_⟩
  exact (List.single_le_sum (by simp) _ (List.mem_map_of_mem hv)).trans hweight.ge

structure Fits (s : ValidatorSet) : Prop where
  total_eq : s.totalPower.toNat = weight s.power s.members
  pos : 0 < s.totalPower.toNat
  room : 2 * s.totalPower.toNat < 2 ^ 64

theorem fits_of_newWithConfig {s : ValidatorSet} (h : newWithConfig vs strategy = .ok s)
    (hroom : 2 * (vs.map (·.power.toNat)).sum < 2 ^ 64) : s.Fits := by
  obtain ⟨hsum, hpos⟩ := newWithConfig_weight h
  have htotal := newWithConfig_totalPower h
  constructor <;> omega

/-- Three validators with keys `[1]`, `[2]`, `[3]` and powers 3, 4 and 3. -/
def three : ValidatorSet where
  validators := [⟨[1], 3⟩, ⟨[2], 4⟩, ⟨[3], 3⟩]
  lookup := ((∅ : Std.ExtTreeMap PublicKeyBytes UInt64).insert [1] 3 |>.insert [2] 4).insert [3] 3
  totalPower := 10
  strategy := .roundRobin
  generation := 0
  nonempty := by simp

theorem new_three : new [⟨[1], 3⟩, ⟨[2], 4⟩, ⟨[3], 3⟩] = .ok three := rfl

theorem fits_three : three.Fits := fits_of_newWithConfig new_three (by decide)

end ValidatorSet
end IonaOs
