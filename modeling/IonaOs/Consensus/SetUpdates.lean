import IonaOs.Consensus.ValidatorSet
import IonaOs.Lib.Run

/-!
# Updates of a validator set
-/

namespace IonaOs

open List hiding getElem?_insert
open Lib Std.ExtTreeMap

inductive SetOp where
  | addValidator (validator : Validator)
  | removeValidator (pk : PublicKeyBytes)
  | updatePower (pk : PublicKeyBytes) (newPower : UInt64)

namespace ValidatorSet

section

variable (s : ValidatorSet)

/-- `ValidatorSet::add_validator`. -/
def addValidator (validator : Validator) : Except ValidatorSetError Unit × ValidatorSet :=
  if validator.power = 0 then (.error (.zeroPower validator.power), s)
  else if s.lookup.contains validator.pk then
    (.error (.duplicateValidator (hexEncode validator.pk)), s)
  else
    (.ok (), {
      validators := s.validators ++ [validator]
      lookup := s.lookup.insert validator.pk validator.power
      totalPower := satAdd s.totalPower validator.power
      strategy := s.strategy
      generation := satAdd s.generation 1
      nonempty := by simp })

def position (pk : PublicKeyBytes) : Option ℕ := s.validators.findIdx? (·.pk = pk)

variable {s} in
theorem position_eq_some {pk : PublicKeyBytes} {idx : ℕ} (h : s.position pk = some idx) :
    ∃ l₁ v l₂, s.validators = l₁ ++ v :: l₂ ∧ l₁.length = idx ∧ v.pk = pk := by
  rw [position, findIdx?_eq_some_iff_getElem] at h
  obtain ⟨hlt, hpk, -⟩ := h
  refine ⟨s.validators.take idx, s.validators[idx], s.validators.drop (idx + 1), ?_, ?_, ?_⟩
  · simp
  · simp only [length_take]
    omega
  · simpa using hpk

variable {s} in
theorem position_lt {pk : PublicKeyBytes} {idx : ℕ} (h : s.position pk = some idx) :
    idx < s.validators.length := by
  obtain ⟨l₁, v, l₂, heq, hlen, -⟩ := position_eq_some h
  rw [heq, length_append, length_cons]
  omega

variable {s} in
theorem position_eq_none {pk : PublicKeyBytes} :
    s.position pk = none ↔ ∀ v ∈ s.validators, v.pk ≠ pk := by
  simp [position]

/-- `ValidatorSet::remove_validator`. -/
def removeValidator (pk : PublicKeyBytes) : Except ValidatorSetError Validator × ValidatorSet :=
  if hlen : s.validators.length ≤ 1 then (.error .emptySet, s)
  else
    match hidx : s.position pk with
    | none => (.error (.validatorNotFound (hexEncode pk)), s)
    | some idx =>
      let removed := s.validators.get ⟨idx, position_lt hidx⟩
      (.ok removed, {
        validators := s.validators.eraseIdx idx
        lookup := s.lookup.erase removed.pk
        totalPower := satSub s.totalPower removed.power
        strategy := s.strategy
        generation := satAdd s.generation 1
        nonempty := by
          have hle := le_length_eraseIdx s.validators idx
          rw [← length_pos_iff]
          omega })

/-- `ValidatorSet::update_power`. -/
def updatePower (pk : PublicKeyBytes) (newPower : UInt64) :
    Except ValidatorSetError Unit × ValidatorSet :=
  if newPower = 0 then (.error (.zeroPower newPower), s)
  else
    match hidx : s.position pk with
    | none => (.error (.validatorNotFound (hexEncode pk)), s)
    | some idx =>
      let oldPower := (s.validators.get ⟨idx, position_lt hidx⟩).power
      (.ok (), {
        validators := s.validators.modify idx fun v => { v with power := newPower }
        lookup := s.lookup.insert pk newPower
        totalPower := satAdd (satSub s.totalPower oldPower) newPower
        strategy := s.strategy
        generation := satAdd s.generation 1
        nonempty := by
          have hlen := s.length_pos
          rw [← length_pos_iff, length_modify]
          exact hlen })

def call : SetOp → Except ValidatorSetError Unit × ValidatorSet
  | .addValidator validator => s.addValidator validator
  | .removeValidator pk => ((s.removeValidator pk).1.map fun _ => (), (s.removeValidator pk).2)
  | .updatePower pk newPower => s.updatePower pk newPower

def after (op : SetOp) : ValidatorSet := (s.call op).2

def powerSum : ℕ := (s.validators.map (·.power.toNat)).sum

structure Keyed : Prop where
  nodup : (s.validators.map (·.pk)).Nodup
  positive : ∀ v ∈ s.validators, v.power ≠ 0
  lookup : ∀ (pk : PublicKeyBytes) (p : UInt64),
    s.lookup[pk]? = some p ↔ ⟨pk, p⟩ ∈ s.validators

structure Represents : Prop where
  nonempty : s.validators ≠ []
  keyed : s.Keyed
  total : s.totalPower.toNat = min s.powerSum (2 ^ 64 - 1)

def Tracks : SetOp → Prop
  | .addValidator _ => True
  | .removeValidator pk =>
    s.powerSum < 2 ^ 64 ∨ s.validators.length ≤ 1 ∨ ∀ v ∈ s.validators, v.pk ≠ pk
  | .updatePower pk newPower =>
    s.powerSum < 2 ^ 64 ∨ newPower = 0 ∨ ∀ v ∈ s.validators, v.pk = pk → v.power ≤ newPower

instance : ∀ op, Decidable (s.Tracks op)
  | .addValidator _ => inferInstanceAs (Decidable True)
  | .removeValidator _ => inferInstanceAs (Decidable (_ ∨ _))
  | .updatePower _ _ => inferInstanceAs (Decidable (_ ∨ _))

end

variable {s : ValidatorSet} {pk : PublicKeyBytes}

/-! ## What a call does -/

theorem addValidator_cases (s : ValidatorSet) (v : Validator) :
    (∃ e, s.addValidator v = (.error e, s)) ∨
      (v.power ≠ 0 ∧ v.pk ∉ s.lookup ∧ ∃ t, s.addValidator v = (.ok (), t) ∧
        t.validators = s.validators ++ [v] ∧ t.lookup = s.lookup.insert v.pk v.power ∧
        t.totalPower = satAdd s.totalPower v.power) := by
  rw [addValidator]
  by_cases hzero : v.power = 0
  · exact .inl ⟨_, if_pos hzero⟩
  by_cases hdup : s.lookup.contains v.pk = true
  · exact .inl ⟨_, by rw [if_neg hzero, if_pos hdup]⟩
  · refine .inr ⟨hzero, by simpa using hdup, _, by rw [if_neg hzero, if_neg hdup], ?_⟩
    exact ⟨rfl, rfl, rfl⟩

theorem removeValidator_cases (s : ValidatorSet) (pk : PublicKeyBytes) :
    ((s.validators.length ≤ 1 ∨ ∀ v ∈ s.validators, v.pk ≠ pk) ∧
      ∃ e, s.removeValidator pk = (.error e, s)) ∨
      (1 < s.validators.length ∧ ∃ l₁ v l₂ t, s.validators = l₁ ++ v :: l₂ ∧ v.pk = pk ∧
        s.removeValidator pk = (.ok v, t) ∧ t.validators = l₁ ++ l₂ ∧
        t.lookup = s.lookup.erase v.pk ∧ t.totalPower = satSub s.totalPower v.power) := by
  rw [removeValidator]
  by_cases hlen : s.validators.length ≤ 1
  · exact .inl ⟨.inl hlen, _, dif_pos hlen⟩
  rw [dif_neg hlen]
  split
  · rename_i hnone
    exact .inl ⟨.inr (position_eq_none.mp hnone), _, rfl⟩
  rename_i idx hidx
  obtain ⟨l₁, v, l₂, heq, rfl, hpk⟩ := position_eq_some hidx
  have hget : s.validators.get ⟨l₁.length, position_lt hidx⟩ = v := by simp [heq]
  refine .inr ⟨by omega, l₁, v, l₂, _, heq, hpk, by rw [hget], ?_, rfl, rfl⟩
  change s.validators.eraseIdx l₁.length = l₁ ++ l₂
  rw [heq, eraseIdx_append_of_length_le (le_refl _)]
  simp

theorem updatePower_cases (s : ValidatorSet) (pk : PublicKeyBytes) (newPower : UInt64) :
    ((newPower = 0 ∨ ∀ v ∈ s.validators, v.pk ≠ pk) ∧
      ∃ e, s.updatePower pk newPower = (.error e, s)) ∨
      (newPower ≠ 0 ∧ ∃ l₁ v l₂ t, s.validators = l₁ ++ v :: l₂ ∧ v.pk = pk ∧
        s.updatePower pk newPower = (.ok (), t) ∧ t.validators = l₁ ++ ⟨pk, newPower⟩ :: l₂ ∧
        t.lookup = s.lookup.insert pk newPower ∧
        t.totalPower = satAdd (satSub s.totalPower v.power) newPower) := by
  rw [updatePower]
  by_cases hzero : newPower = 0
  · exact .inl ⟨.inl hzero, _, if_pos hzero⟩
  rw [if_neg hzero]
  split
  · rename_i hnone
    exact .inl ⟨.inr (position_eq_none.mp hnone), _, rfl⟩
  rename_i idx hidx
  obtain ⟨l₁, v, l₂, heq, rfl, hpk⟩ := position_eq_some hidx
  have hget : s.validators.get ⟨l₁.length, position_lt hidx⟩ = v := by simp [heq]
  refine .inr ⟨hzero, l₁, v, l₂, _, heq, hpk, rfl, ?_, rfl, by rw [hget]⟩
  change s.validators.modify l₁.length _ = _
  rw [modify_eq_take_cons_drop (position_lt hidx)]
  simp [heq, hpk]

/-! ## List and table -/

variable {l₁ l₂ : List Validator} {v : Validator} {t : ValidatorSet}

section

variable (h : s.Keyed)
include h

theorem Keyed.contains_iff : pk ∈ s.lookup ↔ pk ∈ s.validators.map (·.pk) := by
  rw [mem_iff_isSome_getElem?, Option.isSome_iff_exists]
  simp only [h.lookup, mem_map]
  constructor
  · rintro ⟨p, hp⟩
    exact ⟨_, hp, rfl⟩
  · rintro ⟨v, hv, rfl⟩
    exact ⟨v.power, hv⟩

omit h in
theorem ne_of_pk_ne {k : PublicKeyBytes} {p : UInt64} (hk : v.pk ≠ k) : ⟨k, p⟩ ≠ v := by
  rintro rfl
  exact hk rfl

theorem Keyed.of_add (hpower : v.power ≠ 0) (hnew : v.pk ∉ s.lookup)
    (hvs : t.validators = s.validators ++ [v]) (hlookup : t.lookup = s.lookup.insert v.pk v.power) :
    t.Keyed := by
  have hfresh : v.pk ∉ s.validators.map (·.pk) := by rwa [h.contains_iff] at hnew
  constructor
  · rw [hvs, map_append, map_singleton, nodup_append]
    refine ⟨h.nodup, by simp, ?_⟩
    intro a ha b hb heq
    rw [mem_singleton] at hb
    exact hfresh (hb ▸ heq ▸ ha)
  · intro u hu
    rw [hvs, mem_append, mem_singleton] at hu
    rcases hu with hu | rfl
    · exact h.positive u hu
    · exact hpower
  intro k p
  rw [hlookup, hvs, getElem?_insert]
  by_cases hk : v.pk = k
  · subst hk
    have hnone : (⟨v.pk, p⟩ : Validator) ∉ s.validators := by
      intro hmem
      exact hfresh (mem_map.mpr ⟨_, hmem, rfl⟩)
    cases v
    simp [hnone, eq_comm]
  · have hne := ne_of_pk_ne (p := p) hk
    simp [hk, hne, h.lookup]

theorem Keyed.pk_ne (heq : s.validators = l₁ ++ v :: l₂) : ∀ u ∈ l₁ ++ l₂, u.pk ≠ v.pk := by
  have hnodup := h.nodup
  rw [heq, map_append, map_cons, nodup_middle, nodup_cons, ← map_append] at hnodup
  intro u hu hpk
  exact hnodup.1 (mem_map.mpr ⟨u, hu, hpk⟩)

omit h in
theorem mem_cut {u : Validator} : u ∈ l₁ ++ v :: l₂ ↔ u = v ∨ u ∈ l₁ ++ l₂ := by
  simp only [mem_append, mem_cons]
  tauto

theorem Keyed.of_remove (heq : s.validators = l₁ ++ v :: l₂) (hvs : t.validators = l₁ ++ l₂)
    (hlookup : t.lookup = s.lookup.erase v.pk) : t.Keyed := by
  have hsub : Sublist (l₁ ++ l₂) s.validators := by
    rw [heq]
    exact (sublist_cons_self v l₂).append_left l₁
  constructor
  · rw [hvs]
    exact h.nodup.sublist (hsub.map _)
  · intro u hu
    rw [hvs] at hu
    exact h.positive u (hsub.subset hu)
  intro k p
  rw [hlookup, hvs, getElem?_erase]
  by_cases hk : v.pk = k
  · subst hk
    have hnone : (⟨v.pk, p⟩ : Validator) ∉ l₁ ++ l₂ := fun hmem => h.pk_ne heq _ hmem rfl
    simpa using hnone
  · have hne := ne_of_pk_ne (p := p) hk
    have hmem := h.lookup k p
    rw [heq, mem_cut] at hmem
    simpa [hk, hne] using hmem

theorem Keyed.of_update {newPower : UInt64} (hnew : newPower ≠ 0)
    (heq : s.validators = l₁ ++ v :: l₂) (hvs : t.validators = l₁ ++ ⟨v.pk, newPower⟩ :: l₂)
    (hlookup : t.lookup = s.lookup.insert v.pk newPower) : t.Keyed := by
  have hold : ∀ u ∈ l₁ ++ l₂, u ∈ s.validators := by
    intro u hu
    rw [heq, mem_cut]
    exact .inr hu
  constructor
  · have hnodup := h.nodup
    rw [heq] at hnodup
    rw [hvs]
    simpa using hnodup
  · intro u hu
    rw [hvs, mem_cut] at hu
    rcases hu with rfl | hu
    · exact hnew
    · exact h.positive u (hold u hu)
  intro k p
  rw [hlookup, hvs, mem_cut, getElem?_insert]
  by_cases hk : v.pk = k
  · subst hk
    have hnone : (⟨v.pk, p⟩ : Validator) ∉ l₁ ++ l₂ := fun hmem => h.pk_ne heq _ hmem rfl
    simp only [hnone, or_false]
    simp [eq_comm]
  · have hne := ne_of_pk_ne (p := p) hk
    have hmem := h.lookup k p
    rw [heq, mem_cut] at hmem
    simp only [hne, false_or] at hmem
    simpa [hk, Ne.symm hk] using hmem

theorem Keyed.after (op : SetOp) : (s.after op).Keyed := by
  cases op with
  | addValidator v =>
    simp only [ValidatorSet.after, call]
    rcases addValidator_cases s v with ⟨e, heq⟩ | ⟨hpower, hnew, t, heq, hvs, hlookup, -⟩
    · rwa [heq]
    · rw [heq]
      exact h.of_add hpower hnew hvs hlookup
  | removeValidator pk =>
    simp only [ValidatorSet.after, call]
    rcases removeValidator_cases s pk with
      ⟨-, e, heq⟩ | ⟨-, l₁, v, l₂, t, hcut, -, heq, hvs, hlookup, -⟩
    · rwa [heq]
    · rw [heq]
      exact h.of_remove hcut hvs hlookup
  | updatePower pk newPower =>
    simp only [ValidatorSet.after, call]
    rcases updatePower_cases s pk newPower with
      ⟨-, e, heq⟩ | ⟨hnew, l₁, v, l₂, t, hcut, rfl, heq, hvs, hlookup, -⟩
    · rwa [heq]
    · rw [heq]
      exact h.of_update hnew hcut hvs hlookup

end

theorem after_of_error {e : ValidatorSetError} {op : SetOp} (h : (s.call op).1 = .error e) :
    s.after op = s := by
  cases op with
  | addValidator v =>
    rcases addValidator_cases s v with ⟨e, heq⟩ | ⟨-, -, t, heq, -⟩
    · simp [ValidatorSet.after, call, heq]
    · simp [call, heq] at h
  | removeValidator pk =>
    rcases removeValidator_cases s pk with ⟨-, e, heq⟩ | ⟨-, l₁, v, l₂, t, -, -, heq, -⟩
    · simp [ValidatorSet.after, call, heq]
    · simp [call, heq, Except.map] at h
  | updatePower pk newPower =>
    rcases updatePower_cases s pk newPower with ⟨-, e, heq⟩ | ⟨-, l₁, v, l₂, t, -, -, heq, -⟩
    · simp [ValidatorSet.after, call, heq]
    · simp [call, heq] at h

/-! ## The total -/

theorem powerSum_cut (hcut : s.validators = l₁ ++ v :: l₂) :
    s.powerSum = v.power.toNat + ((l₁ ++ l₂).map (·.power.toNat)).sum := by
  simp only [powerSum, hcut, map_append, map_cons, sum_append, sum_cons]
  omega

theorem Keyed.forall_pk_iff (h : s.Keyed) (hcut : s.validators = l₁ ++ v :: l₂)
    {P : Validator → Prop} : (∀ u ∈ s.validators, u.pk = v.pk → P u) ↔ P v := by
  constructor
  · intro hall
    exact hall v (by simp [hcut]) rfl
  intro hP u hu hpk
  rw [hcut, mem_cut] at hu
  rcases hu with rfl | hu
  · exact hP
  · exact absurd hpk (h.pk_ne hcut u hu)

theorem Represents.total_after_iff (h : s.Represents) (op : SetOp) :
    (s.after op).totalPower.toNat = min (s.after op).powerSum (2 ^ 64 - 1) ↔ s.Tracks op := by
  have htotal := h.total
  cases op with
  | addValidator v =>
    simp only [ValidatorSet.after, call, Tracks, iff_true]
    rcases addValidator_cases s v with ⟨e, heq⟩ | ⟨-, -, t, heq, hvs, -, hpow⟩
    · rwa [heq]
    have hsum : t.powerSum = s.powerSum + v.power.toNat := by
      simp [powerSum, hvs]
    rw [heq]
    change t.totalPower.toNat = _
    rw [hpow, toNat_satAdd, hsum]
    omega
  | removeValidator pk =>
    simp only [ValidatorSet.after, call, Tracks]
    rcases removeValidator_cases s pk with
      ⟨hwhy, e, heq⟩ | ⟨hlen, l₁, v, l₂, t, hcut, rfl, heq, hvs, -, hpow⟩
    · rw [heq]
      exact iff_of_true htotal (.inr hwhy)
    have hpos : 0 < v.power.toNat := by
      have hne := h.keyed.positive v (by simp [hcut])
      rw [Ne, ← UInt64.toNat_inj, UInt64.toNat_zero] at hne
      omega
    have hmem : ¬ ∀ u ∈ s.validators, u.pk ≠ v.pk := by
      intro hnone
      exact hnone v (by simp [hcut]) rfl
    have hsum := powerSum_cut hcut
    have hlt := v.power.toNat_lt
    rw [heq]
    change t.totalPower.toNat = min t.powerSum _ ↔ _
    rw [hpow, toNat_satSub, powerSum, hvs]
    simp only [hmem, or_false]
    omega
  | updatePower pk newPower =>
    simp only [ValidatorSet.after, call, Tracks]
    rcases updatePower_cases s pk newPower with
      ⟨hwhy, e, heq⟩ | ⟨hnew, l₁, v, l₂, t, hcut, rfl, heq, hvs, -, hpow⟩
    · rw [heq]
      refine iff_of_true htotal (.inr (hwhy.imp_right ?_))
      intro hnone u hu hpk
      exact absurd hpk (hnone u hu)
    have hsum := powerSum_cut hcut
    have hsum' := powerSum_cut hvs
    have hlt := v.power.toNat_lt
    rw [h.keyed.forall_pk_iff hcut (P := fun u => u.power ≤ newPower), heq]
    change t.totalPower.toNat = min t.powerSum _ ↔ _
    rw [hpow, toNat_satAdd, toNat_satSub, UInt64.le_iff_toNat_le]
    simp only [hnew, false_or]
    simp only at hsum'
    omega

theorem represents_after_iff (h : s.Represents) (op : SetOp) :
    (s.after op).Represents ↔ s.Tracks op := by
  rw [← h.total_after_iff op]
  constructor
  · intro ht
    exact ht.total
  · intro ht
    exact ⟨(s.after op).nonempty, h.keyed.after op, ht⟩

/-! ## The constructor -/

theorem fill_spec {vs : List Validator} {acc res : Std.ExtTreeMap PublicKeyBytes UInt64 × UInt64}
    (h : fill vs acc = .ok res) :
    (vs.map (·.pk)).Nodup ∧ (∀ v ∈ vs, v.power ≠ 0 ∧ v.pk ∉ acc.1) ∧
      ∀ (pk : PublicKeyBytes) (p : UInt64),
        res.1[pk]? = some p ↔ acc.1[pk]? = some p ∨ ⟨pk, p⟩ ∈ vs := by
  induction vs generalizing acc with
  | nil =>
    simp only [fill, Except.ok.injEq] at h
    simp [h]
  | cons v vs ih =>
    obtain ⟨hpow, hnew, h⟩ := fill_cons h
    obtain ⟨hnodup, hrest, hlookup⟩ := ih h
    refine ⟨?_, ?_, ?_⟩
    · rw [map_cons, nodup_cons]
      refine ⟨?_, hnodup⟩
      intro hmem
      obtain ⟨u, hu, hpk⟩ := mem_map.mp hmem
      exact (hrest u hu).2 (by simp [hpk])
    · intro u hu
      rcases mem_cons.mp hu with rfl | hu
      · exact ⟨hpow, hnew⟩
      · refine ⟨(hrest u hu).1, fun hin => (hrest u hu).2 ?_⟩
        simp only [mem_insert]
        exact .inr hin
    intro k p
    rw [hlookup, mem_cons, getElem?_insert]
    by_cases hk : v.pk = k
    · subst hk
      have hnone : acc.1[v.pk]? = none := getElem?_eq_none hnew
      cases v
      simp [hnone, eq_comm]
    · have hne := ne_of_pk_ne (p := p) hk
      simp [hk, hne]

theorem represents_of_newWithConfig {vs : List Validator} {strategy : ProposerStrategy}
    (h : newWithConfig vs strategy = .ok s) : s.validators = vs ∧ s.Represents := by
  have htotal := newWithConfig_totalPower h
  have hweight := (newWithConfig_weight h).1
  unfold newWithConfig at h
  split at h
  · cases h
  rename_i hne
  split at h
  · cases h
  rename_i lookup total hfill
  obtain ⟨hnodup, hall, hlookup⟩ := fill_spec hfill
  cases h
  refine ⟨rfl, hne, ⟨hnodup, fun v hv => (hall v hv).1, ?_⟩, ?_⟩
  · simpa using hlookup
  · rw [powerSum, ← hweight]
    exact htotal

end ValidatorSet

open ValidatorSet in
/-- **The representation of a set in a run.**  A failed call changes nothing; the list and the
table stay in step; and the total is right throughout exactly if nobody is removed, and no power
lowered, above the cap. -/
theorem represents_throughout_iff (vs : List Validator) (s : ValidatorSet)
    (h : ValidatorSet.new vs = .ok s) (ops : List SetOp) :
    (∀ (t : ValidatorSet) op e, (t.call op).1 = .error e → t.after op = t) ∧
      (exec ValidatorSet.after s ops).Keyed ∧
      ((∀ past rest, ops = past ++ rest → (exec ValidatorSet.after s past).Represents) ↔
        Along ValidatorSet.after ValidatorSet.Tracks s ops) := by
  have hrep := (represents_of_newWithConfig h).2
  refine ⟨fun t op e => after_of_error, ?_, ?_⟩
  · exact exec_invariant hrep.keyed fun t op ht => ht.after op
  · rw [forall_split_iff_along (L := Represents), and_iff_right hrep]
    apply along_congr (I := Represents) ?_ ?_ hrep
    · intro t op _ ht
      exact ht
    · intro t op ht
      exact represents_after_iff ht op

/-- An addition, a removal, a change of power and a removal that is refused. -/
theorem represents_after_updates :
    ∃ s, ValidatorSet.new [⟨[1], 3⟩, ⟨[2], 4⟩, ⟨[3], 3⟩] = .ok s ∧
      (exec ValidatorSet.after s [.addValidator ⟨[4], 5⟩, .removeValidator [1],
        .updatePower [2] 1, .removeValidator [9]]).Represents := by
  refine ⟨ValidatorSet.three, ValidatorSet.new_three, ?_⟩
  refine (represents_throughout_iff _ _ ValidatorSet.new_three _).2.2.mpr ?_ _ []
    (append_nil _).symm
  decide +kernel

/-- Of two validators with the largest power one is removed: the other keeps its power, and the
total is zero. -/
theorem total_lost_above_cap :
    ∃ s t, ValidatorSet.new [⟨[1], 0xffffffffffffffff⟩, ⟨[2], 0xffffffffffffffff⟩] = .ok s ∧
      s.removeValidator [2] = (.ok ⟨[2], 0xffffffffffffffff⟩, t) ∧
      t.validators = [⟨[1], 0xffffffffffffffff⟩] ∧ t.totalPower = 0 ∧ ¬ t.Represents := by
  refine ⟨_, _, rfl, rfl, rfl, by decide +kernel, ?_⟩
  intro h
  exact absurd h.total (by decide +kernel)

end IonaOs
