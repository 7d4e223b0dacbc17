import IonaOs.Consensus.GuardHistory

/-!
# What a bounded guard forgets
-/

namespace IonaOs

open Lib Std.ExtTreeSet Sample

theorem SignedKey.kind_height_of_isLE {a b : SignedKey} (h : (cmp a b).isLE = true) :
    a.kind < b.kind ∨ a.kind = b.kind ∧ a.height ≤ b.height := by
  simp only [cmp, compareLex, compareOn] at h
  cases hkind : compare a.kind b.kind with
  | lt => exact .inl (Nat.compare_eq_lt.mp hkind)
  | gt => simp [hkind] at h
  | eq =>
    refine .inr ⟨Nat.compare_eq_eq.mp hkind, ?_⟩
    cases hheight : compare a.height b.height with
    | lt => exact UInt64.le_of_lt (Std.compare_eq_lt.mp hheight)
    | eq => rw [Std.LawfulEqOrd.eq_of_compare hheight]; exact UInt64.le_refl _
    | gt => simp [hkind, hheight] at h

namespace DoubleSignGuard

variable (encode : SignedSet → Except String (List UInt8))
  (decode : List UInt8 → Except String SignedSet)

def recordAll (cfg : DoubleSignConfig) (ms : List Signing) : DoubleSignGuard :=
  exec (fun g m => (m.record encode g).1) (withConfig decode cfg none) ms

variable (g : DoubleSignGuard)

structure ForgetsOldest (k : SignedKey) : Prop where
  evicted : ∀ x ∈ g.signed.insert k, x ∉ (g.record encode k).1.signed →
    ∀ y ∈ (g.record encode k).1.signed, x.height ≤ y.height
  recorded : k ∉ (g.record encode k).1.signed → ∀ y ∈ g.signed.insert k, k.height ≤ y.height

def Protects (ms : List Signing) : Prop :=
  ∀ m ∈ ms, (∀ m' ∈ ms, m'.height ≤ m.height) →
    m.key ∈ g.signed ∧ ∀ m', m'.slot = m.slot → m' ≠ m → (m'.check encode g).2 ≠ .ok ()

def HasOldest (k : SignedKey) : Prop :=
  g.config.maxEntries ≠ 0 → g.signed.size = g.config.maxEntries → k ∉ g.signed →
    ∃ x ∈ g.signed.insert k,
      (∀ y ∈ g.signed.insert k, x.kind ≤ y.kind ∧ x.height ≤ y.height) ∧
      ∃ y ∈ g.signed.insert k, x.height < y.height

def Bounded : Prop :=
  g.config.maxEntries ≠ 0 → g.signed.size ≤ g.config.maxEntries

variable {encode decode} {g : DoubleSignGuard} {k : SignedKey} {cfg : DoubleSignConfig}
  {ms : List Signing} {m : Signing} {signed : SignedSet}

theorem evict_one {least : SignedKey} (h : signed.min? = some least) :
    evict 1 signed = signed.erase least := by
  simp [evict, h]

theorem signed_record : (g.record encode k).1.signed =
    if g.config.maxEntries = 0 then g.signed.insert k
    else evict ((g.signed.insert k).size - g.config.maxEntries) (g.signed.insert k) := by
  rw [record, signed_persist, enforceMaxEntries]
  split <;> rfl

variable (encode k) in
theorem Bounded.record_cases (h : g.Bounded) :
    ((g.record encode k).1.signed = g.signed.insert k ∧ (g.record encode k).1.Bounded) ∨
    (g.config.maxEntries ≠ 0 ∧ g.signed.size = g.config.maxEntries ∧ k ∉ g.signed ∧
      (g.record encode k).1.Bounded ∧ ∃ least, (g.signed.insert k).min? = some least ∧
        (g.record encode k).1.signed = (g.signed.insert k).erase least) := by
  simp only [Bounded, record_config, signed_record]
  by_cases hmax : g.config.maxEntries = 0
  · simp [hmax]
  have hsize := h hmax
  simp only [hmax, if_false, ne_eq, not_false_eq_true, true_and, forall_const]
  by_cases hk : k ∈ g.signed
  · have hsame : (g.signed.insert k).size = g.signed.size := by
      rw [size_insert, if_pos (contains_iff_mem.mpr hk)]
    left
    rw [hsame, Nat.sub_eq_zero_of_le hsize]
    exact ⟨rfl, by rw [evict, hsame]; exact hsize⟩
  have hmore : (g.signed.insert k).size = g.signed.size + 1 := by
    rw [size_insert, if_neg (by rwa [contains_iff_mem])]
  by_cases hfull : g.signed.size = g.config.maxEntries
  · right
    have hsome : (g.signed.insert k).min?.isSome = true := isSome_min?_of_mem mem_insert_self
    obtain ⟨least, hleast⟩ := Option.isSome_iff_exists.mp hsome
    have hone : (g.signed.insert k).size - g.config.maxEntries = 1 := by omega
    rw [hone, evict_one hleast]
    refine ⟨hfull, hk, ?_, least, hleast, rfl⟩
    rw [size_erase, if_pos (contains_iff_mem.mpr (min?_mem hleast))]
    omega
  · left
    rw [Nat.sub_eq_zero_of_le (by omega)]
    exact ⟨rfl, by rw [evict]; omega⟩

theorem recordAll_concat : recordAll encode decode cfg (ms ++ [m]) =
    ((recordAll encode decode cfg ms).record encode m.key).1 := by
  simp [recordAll, Signing.record_eq]

theorem withConfig_none : withConfig decode cfg none = ⟨∅, cfg, 0, none⟩ := by
  rw [withConfig]
  split <;> rfl

theorem bounded_recordAll : (recordAll encode decode cfg ms).Bounded := by
  induction ms using List.reverseRecOn with
  | nil => intro _; simp [recordAll, withConfig_none]
  | append_singleton _ m ih =>
    rw [recordAll_concat]
    rcases ih.record_cases encode m.key with ⟨-, h⟩ | ⟨-, -, -, h, -⟩
    · exact h
    · exact h

theorem exists_of_mem_recordAll (h : k ∈ (recordAll encode decode cfg ms).signed) :
    ∃ m ∈ ms, m.key = k := by
  induction ms using List.reverseRecOn with
  | nil => simp [recordAll, withConfig_none] at h
  | append_singleton _ m ih =>
    rw [recordAll_concat] at h
    rcases mem_of_mem_record h with rfl | h
    · exact ⟨m, by simp, rfl⟩
    · obtain ⟨m', hm', heq⟩ := ih h
      exact ⟨m', List.mem_append_left _ hm', heq⟩

theorem exists_of_mem_insert (h : k ∈ (recordAll encode decode cfg ms).signed.insert m.key) :
    ∃ m' ∈ ms ++ [m], m'.key = k := by
  rw [mem_insert, Std.LawfulEqCmp.compare_eq_iff_eq] at h
  rcases h with rfl | h
  · exact ⟨m, by simp, rfl⟩
  · obtain ⟨m', hm', heq⟩ := exists_of_mem_recordAll h
    exact ⟨m', List.mem_append_left _ hm', heq⟩

theorem kind_height_least {least y : SignedKey} (hleast : signed.min? = some least)
    (hy : y ∈ signed) : least.kind < y.kind ∨ least.kind = y.kind ∧ least.height ≤ y.height :=
  SignedKey.kind_height_of_isLE ((min?_eq_some_iff_mem_and_forall.mp hleast).2 y hy)

theorem mem_erase_iff {x y : SignedKey} : y ∈ signed.erase x ↔ x ≠ y ∧ y ∈ signed := by
  rw [mem_erase, ne_eq, Std.LawfulEqCmp.compare_eq_iff_eq]

theorem HasOldest.least {least : SignedKey} (h : g.HasOldest k) (hmax : g.config.maxEntries ≠ 0)
    (hfull : g.signed.size = g.config.maxEntries) (hk : k ∉ g.signed)
    (hleast : (g.signed.insert k).min? = some least) :
    (∀ y ∈ g.signed.insert k, least.height ≤ y.height) ∧
      ∃ y ∈ g.signed.insert k, least.height < y.height := by
  obtain ⟨x, hx, hlowest, y, hy, hlt⟩ := h hmax hfull hk
  have hmem := min?_mem hleast
  have hle : least.height ≤ x.height := by
    rcases kind_height_least hleast hx with hkind | ⟨-, hheight⟩
    · have := (hlowest least hmem).1
      omega
    · exact hheight
  refine ⟨fun z hz => UInt64.le_trans hle (hlowest z hz).2, y, hy, ?_⟩
  exact UInt64.lt_of_le_of_lt hle hlt

theorem HasOldest.forgetsOldest (h : g.HasOldest k) (hb : g.Bounded) :
    g.ForgetsOldest encode k := by
  rcases hb.record_cases encode k with ⟨heq, -⟩ | ⟨hmax, hfull, hk, -, least, hleast, heq⟩
  · constructor
    · intro x hx hnot
      rw [heq] at hnot
      exact absurd hx hnot
    · intro hnot
      rw [heq] at hnot
      exact absurd mem_insert_self hnot
  · obtain ⟨hlow, -⟩ := h.least hmax hfull hk hleast
    have hgone : ∀ x ∈ g.signed.insert k, x ∉ (g.record encode k).1.signed → x = least := by
      intro x hx hnot
      by_contra hne
      rw [heq, mem_erase_iff] at hnot
      exact hnot ⟨Ne.symm hne, hx⟩
    constructor
    · intro x hx hnot y hy
      rw [heq, mem_erase_iff] at hy
      rw [hgone x hx hnot]
      exact hlow y hy.2
    · intro hnot y hy
      rw [hgone k mem_insert_self hnot]
      exact hlow y hy

theorem HasOldest.protects (h : (recordAll encode decode cfg ms).HasOldest m.key)
    (hp : (recordAll encode decode cfg ms).Protects encode ms) :
    (recordAll encode decode cfg (ms ++ [m])).Protects encode (ms ++ [m]) := by
  intro m₀ hm₀ hnewest
  have hinsert : m₀.key ∈ (recordAll encode decode cfg ms).signed.insert m.key := by
    rw [mem_insert]
    rcases List.mem_append.mp hm₀ with hmem | hmem
    · exact .inr (hp m₀ hmem fun m' hm' => hnewest m' (List.mem_append_left _ hm')).1
    · rw [List.mem_singleton.mp hmem]
      exact .inl Std.ReflCmp.compare_self
  have hheld : m₀.key ∈ (recordAll encode decode cfg (ms ++ [m])).signed := by
    rw [recordAll_concat]
    rcases bounded_recordAll.record_cases encode m.key with
      ⟨heq, -⟩ | ⟨hmax, hfull, hk, -, least, hleast, heq⟩
    · rw [heq]
      exact hinsert
    -- The evicted entry is below another one, which is not above `m₀`.
    obtain ⟨-, y, hy, hlt⟩ := h.least hmax hfull hk hleast
    have hle : y.height ≤ m₀.height := by
      obtain ⟨m', hm', rfl⟩ := exists_of_mem_insert hy
      rw [Signing.height_key]
      exact hnewest m' hm'
    rw [heq, mem_erase_iff]
    refine ⟨?_, hinsert⟩
    rintro rfl
    rw [Signing.height_key] at hlt
    exact absurd (UInt64.lt_of_lt_of_le hlt hle) (UInt64.lt_irrefl _)
  exact ⟨hheld, fun m' hslot hne hok =>
    hne (Signing.check_ok_iff.mp hok _ hheld hslot.symm).symm⟩

theorem exists_newest (ms : List Signing) (h : ms ≠ []) :
    ∃ m ∈ ms, ∀ m' ∈ ms, m'.height ≤ m.height := by
  obtain ⟨m, hm, hmax⟩ := ms.toFinset.exists_max_image (fun m => m.height.toNat)
    (by simpa [Finset.nonempty_iff_ne_empty] using h)
  refine ⟨m, by simpa using hm, fun m' hm' => ?_⟩
  rw [UInt64.le_iff_toNat_le]
  exact hmax m' (by simpa using hm')

theorem exists_above_of_protects {x : SignedKey}
    (hx : x ∈ (recordAll encode decode cfg ms).signed.insert m.key)
    (hgone : x ∉ (recordAll encode decode cfg (ms ++ [m])).signed)
    (hp : (recordAll encode decode cfg (ms ++ [m])).Protects encode (ms ++ [m])) :
    ∃ y ∈ (recordAll encode decode cfg ms).signed.insert m.key, x.height < y.height := by
  obtain ⟨m', hm', rfl⟩ := exists_of_mem_insert hx
  obtain ⟨m₀, hm₀, hnewest⟩ := exists_newest (ms ++ [m]) (by simp)
  have hheld := (hp m₀ hm₀ hnewest).1
  rw [recordAll_concat] at hheld
  refine ⟨m₀.key, mem_insert.mpr ?_, ?_⟩
  · rcases mem_of_mem_record hheld with heq | hmem
    · exact .inl (Std.LawfulEqCmp.compare_eq_iff_eq.mpr heq.symm)
    · exact .inr hmem
  · -- Otherwise the entry was of the newest height itself.
    rw [Signing.height_key, Signing.height_key]
    by_contra hnot
    have hle : m₀.height ≤ m'.height := UInt64.not_lt.mp hnot
    exact hgone (hp m' hm' fun m'' hm'' => UInt64.le_trans (hnewest m'' hm'') hle).1

theorem hasOldest_of_forgetsOldest
    (hf : (recordAll encode decode cfg ms).ForgetsOldest encode m.key)
    (hp : (recordAll encode decode cfg (ms ++ [m])).Protects encode (ms ++ [m])) :
    (recordAll encode decode cfg ms).HasOldest m.key := by
  intro hmax hfull hk
  rcases bounded_recordAll.record_cases encode m.key with
    ⟨heq, hb⟩ | ⟨-, -, -, -, least, hleast, heq⟩
  · exfalso
    have hsize := hb (by rwa [record_config])
    rw [heq, record_config, size_insert, if_neg (by rwa [contains_iff_mem])] at hsize
    omega
  have hmem := min?_mem hleast
  have hgone : least ∉ ((recordAll encode decode cfg ms).record encode m.key).1.signed := by
    rw [heq, mem_erase_iff]
    simp
  have hlow : ∀ y ∈ (recordAll encode decode cfg ms).signed.insert m.key,
      least.height ≤ y.height := by
    intro y hy
    by_cases hy' : least = y
    · rw [hy']
      exact UInt64.le_refl _
    · exact hf.evicted least hmem hgone y (by rw [heq, mem_erase_iff]; exact ⟨hy', hy⟩)
  refine ⟨least, hmem, fun y hy => ⟨?_, hlow y hy⟩, ?_⟩
  · rcases kind_height_least hleast hy with hkind | ⟨hkind, -⟩ <;> omega
  · exact exists_above_of_protects hmem (by rwa [recordAll_concat]) hp

variable (encode decode cfg) in
/-- **A bounded guard forgets only old slots.**  Every call of a history forgets only entries
below which it keeps none, and every message of the newest height stays on record, if and only if
each time there is no room one entry is lowest in kind and in height at once and another one is
above it. -/
theorem forgets_oldest_iff (ms : List Signing) :
    ((∀ pre m post, ms = pre ++ m :: post →
        (recordAll encode decode cfg pre).ForgetsOldest encode m.key) ∧
      ∀ pre post, ms = pre ++ post →
        (recordAll encode decode cfg pre).Protects encode pre) ↔
    ∀ pre m post, ms = pre ++ m :: post → (recordAll encode decode cfg pre).HasOldest m.key := by
  constructor
  · rintro ⟨hforgets, hprotects⟩ pre m post hms
    exact hasOldest_of_forgetsOldest (hforgets pre m post hms)
      (hprotects (pre ++ [m]) post (by simp [hms]))
  intro h
  refine ⟨fun pre m post hms => (h pre m post hms).forgetsOldest bounded_recordAll, ?_⟩
  intro pre
  induction pre using List.reverseRecOn with
  | nil => intro post _ m hm; simp at hm
  | append_singleton pre m ih =>
    intro post hms
    have hms' : ms = pre ++ m :: post := by simp [hms]
    exact (h pre m post hms').protects (ih (m :: post) hms')

end DoubleSignGuard

/-- With room for one entry, a prevote of height 1 outlives a proposal of height 2, which is
forgotten as it is recorded; another proposal for the slot then passes the check. -/
theorem newer_proposal_evicted : ∃ g : DoubleSignGuard,
    g = .recordAll encodeOne decodeOne { persist := false, maxEntries := 1 }
      [.vote .prevote 1 0 none, .proposal 2 0 (.replicate 32 1)] ∧
    g.signed.toList = [.vote 0 1 0 none] ∧
    ((Signing.proposal 2 0 (.replicate 32 2)).check encodeOne g).2 = .ok () := by
  let first := DoubleSignGuard.recordAll encodeOne decodeOne
    { persist := false, maxEntries := 1 } [.vote .prevote 1 0 none]
  let key : SignedKey := .proposal 2 0 (.replicate 32 1)
  have hleast : (first.signed.insert key).min? = some key := by
    rw [min?_eq_head?_toList]
    decide +kernel
  have hlist : (first.record encodeOne key).1.signed.toList = [.vote 0 1 0 none] := by
    have hover : (first.signed.insert key).size - first.config.maxEntries = 1 := by decide +kernel
    rw [DoubleSignGuard.signed_record, if_neg (by decide), hover, DoubleSignGuard.evict_one hleast]
    decide +kernel
  refine ⟨(first.record encodeOne key).1, rfl, hlist, Signing.check_ok_iff.mpr ?_⟩
  intro m hm hslot
  rw [← mem_toList, hlist, List.mem_singleton] at hm
  cases m with
  | proposal => cases hm
  | vote => cases hslot

end IonaOs
