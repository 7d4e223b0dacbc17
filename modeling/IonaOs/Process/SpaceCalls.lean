import IonaOs.Process.SpaceBooks

/-!
# The calls keep the books
-/

namespace IonaOs.Process

open Lib Memory BitVec Tables

/-! ## Entries that the mapper writes -/

namespace Entry

variable {e : Entry} {f i : ℕ} {bits : BitVec 64}

theorem getLsbD_setAddr (hf : f < 2 ^ 40) (hi : i < 12) :
    (setAddr (frameAddr f) bits).getLsbD i = bits.getLsbD i := by
  have hlow : ¬ 12 ≤ i := by omega
  rw [setAddr, getLsbD_or, getLsbD_frameAddr hf]
  simp [hlow]

theorem setFlags_or : e.setFlags (e.flags ||| bits) = e ||| bits := by
  have hall : addrMask ||| ~~~addrMask = allOnes 64 := by decide
  rw [setFlags, addr, flags, ← BitVec.or_assoc, ← and_or_distrib_left, hall, and_allOnes]

theorem keeps_or (h : e.isPresent = true) (hplain : bits.getLsbD 7 = false)
    (hbits : bits &&& addrMask = 0#64) : Keeps e (e ||| bits) := by
  refine .inr ⟨h, ?_, ?_, ?_⟩
  · rw [isPresent, getLsbD_or]
    rw [isPresent] at h
    rw [h, Bool.true_or]
  · rw [isHuge, isHuge, getLsbD_or, hplain, Bool.or_false]
  · rw [frame, frame, addr, addr, and_or_distrib_right, hbits, or_zero]

end Entry

open Entry

namespace PageFlags

variable (flags : PageFlags)

theorem getLsbD_forTables_zero : flags.forTables.getLsbD 0 = true := by
  rw [forTables, getLsbD_and, flags.present, Bool.true_and]
  decide

theorem getLsbD_forTables_seven : flags.forTables.getLsbD 7 = false := by
  rw [forTables, getLsbD_and, flags.plain, Bool.false_and]

theorem forTables_and_addrMask : flags.forTables &&& addrMask = 0#64 := by
  have hmask : (Flag.present ||| Flag.writable ||| Flag.userAccessible) &&& addrMask = 0#64 := by
    decide
  rw [forTables, BitVec.and_assoc, hmask, and_zero]

end PageFlags

theorem UserRange.isUser (range : UserRange) {i : ℕ} (hi : i < range.count) :
    IsUser (range.start + UInt64.ofNat i * 4096) := by
  have hinside := range.inside
  have hoffset : (UInt64.ofNat i * 4096).toNat = i * 4096 := by
    rw [UInt64.toNat_mul, UInt64.toNat_ofNat']
    have : (4096 : UInt64).toNat = 4096 := rfl
    rw [this, Nat.mod_mul_mod, Nat.mod_eq_of_lt (by omega)]
  rw [IsUser, UInt64.toNat_add, hoffset, Nat.mod_eq_of_lt (by omega)]
  omega

/-! ## What grows -/

/-- Tables stay as they are, and new ones come from free frames. -/
structure Grows (T : Tables) (k : Kernel) (T' : Tables) (k' : Kernel) : Prop where
  sub : T.set ⊆ T'.set
  level : ∀ t ∈ T.set, T'.level t = T.level t
  owner : ∀ t ∈ T.set, T'.owner t = T.owner t
  new : ∀ t ∈ T'.set, t ∈ T.set ∨ k.frames.Free t
  free : ∀ f, k'.frames.Free f → k.frames.Free f

namespace Grows

variable {T T' T'' : Tables} {k k' k'' : Kernel} {t : ℕ}

theorem refl (hfree : ∀ f, k'.frames.Free f → k.frames.Free f) : Grows T k T k' :=
  ⟨subset_rfl, fun _ _ => rfl, fun _ _ => rfl, fun _ ht => .inl ht, hfree⟩

theorem trans (h : Grows T k T' k') (h' : Grows T' k' T'' k'') : Grows T k T'' k'' where
  sub := h.sub.trans h'.sub
  level t ht := (h'.level t (h.sub ht)).trans (h.level t ht)
  owner t ht := (h'.owner t (h.sub ht)).trans (h.owner t ht)
  new t ht := by
    rcases h'.new t ht with ht | ht
    · exact h.new t ht
    · exact .inr (h.free t ht)
  free f hf := h.free f (h'.free f hf)

theorem add {level owner : ℕ} (ht : t ∉ T.set) (hnew : k.frames.Free t)
    (hfree : ∀ f, k'.frames.Free f → k.frames.Free f) :
    Grows T k (T.add t level owner) k' where
  sub := Finset.subset_insert ..
  level u hu := level_add fun heq => ht (heq ▸ hu)
  owner u hu := owner_add fun heq => ht (heq ▸ hu)
  new u hu := by
    rcases Finset.mem_insert.mp hu with rfl | hu
    · exact .inr hnew
    · exact .inl hu
  free := hfree

end Grows

namespace Kernel

variable {k k' : Kernel} {t : ℕ}

theorem allocateTable_cases (h : k.frames.Sound) :
    (k.allocateTable = (.error .outOfMemory, k) ∧ ∀ f, ¬ k.frames.Free f) ∨
      ∃ t k', k.allocateTable = (.ok t, k') ∧ k.frames.Free t ∧
        (∀ f, k'.frames.Free f → k.frames.Free f) ∧ (∀ i, k'.mem t i = 0) ∧
        ∀ u ≠ t, k'.mem u = k.mem u := by
  rw [allocateTable]
  rcases h.allocateOne_cases with ⟨hnone, hfree⟩ | ⟨t, a, hok, hnew, -, -, hleft⟩
  · rw [hnone]
    exact .inl ⟨rfl, hfree⟩
  rw [hok]
  refine .inr ⟨t, _, rfl, hnew, fun f hf => ((hleft f).mp hf).1, fun i => ?_, fun u hu => ?_⟩
  · simp only [Function.update_self]
  · simp only [Function.update_of_ne hu]

theorem createNextTable_of_used {i : Fin 512} (hpres : (k.mem t i).isPresent = true)
    (hplain : (k.mem t i).isHuge = false) (flags : PageFlags) :
    ∃ e, (k.mem t i).Keeps e ∧ k.createNextTable t i flags.forTables =
      (some (k.mem t i).frame, { k with mem := k.mem.write t i e }) := by
  let e := if (k.mem t i).flags &&& flags.forTables = flags.forTables then k.mem t i
    else (k.mem t i).setFlags ((k.mem t i).flags ||| flags.forTables)
  have hkeeps : (k.mem t i).Keeps e := by
    simp only [e]
    split_ifs
    · exact .inl rfl
    · rw [setFlags_or]
      exact keeps_or hpres flags.getLsbD_forTables_seven flags.forTables_and_addrMask
  have hused : k.mem t i ≠ 0 := by
    intro hzero
    rw [hzero] at hpres
    cases hpres
  have hsame : e.frame = (k.mem t i).frame := by
    have htarget := hkeeps.target
    rw [target_of_present hpres, target_of_present (hkeeps.isPresent.trans hpres)] at htarget
    exact Option.some.inj htarget
  refine ⟨e, hkeeps, ?_⟩
  have hopen : (!e.isPresent || e.isHuge) = false := by
    rw [hkeeps.isPresent, hkeeps.isHuge, hpres, hplain]
    rfl
  rw [createNextTable, if_neg hused]
  change (if (!e.isPresent || e.isHuge) = true then _ else _) = _
  rw [hopen, if_neg (by decide), hsame]

end Kernel

namespace Ledger

variable {bg : Background} {free₀ : ℕ → Prop} {others : ℕ → ℕ} {roots pending : List ℕ} {T : Tables}
variable {k k' : Kernel} {t c f n : ℕ} {i : Fin 512} {e : Entry} {virt : UInt64} {strict : Bool}

/-! ## The mapper -/

section

variable (h : Ledger bg roots T pending k)
include h

theorem next (ht : t ∈ T.set) (hlevel : T.level t = n + 1) (hn : n ≠ 0) (hi : i ∈ indices (n + 1))
    (hpres : (k.mem t i).isPresent = true) :
    (k.mem t i).frame ∈ T.set ∧ T.level (k.mem t i).frame = n ∧
      T.owner (k.mem t i).frame = T.owner t := by
  have hkid : (k.mem t i).frame ∈ T.kids k.mem t := mem_kids.mpr ⟨i, hlevel ▸ hi, hpres, rfl⟩
  obtain ⟨hmem, hbelow, howner⟩ := h.down t ht (by omega) _ hkid
  exact ⟨hmem, by omega, howner⟩

theorem belongs (ht : t ∈ T.set) (hn : n ≠ 4) (new : ℕ) :
    Belongs roots T pending new n (T.owner t) :=
  .inr ⟨hn, h.owned t ht⟩

omit h in
theorem linkTable {bits : BitVec 64} (h : Ledger bg roots T (f :: pending) k)
    (hf : f ∈ T.set) (hc : c ∈ T.set) (hlevel : T.level f + 1 = T.level c)
    (howner : T.owner f = T.owner c) (hi : i ∈ indices (T.level c)) (hzero : k.mem c i = 0)
    (hpres : bits.getLsbD 0 = true) (hplain : bits.getLsbD 7 = false)
    (hbits : bits &&& addrMask = 0#64) :
    Ledger bg roots T pending
      { k with mem := k.mem.write c i (.setAddr (frameAddr f) bits) } := by
  have hlt : f < 2 ^ 40 := (h.small f hf).trans (by decide)
  have hone := (h.levels f hf).1
  have hframe := frame_setAddr hlt hbits
  have hpres' : (setAddr (frameAddr f) bits).isPresent = true :=
    (getLsbD_setAddr hlt (by decide)).trans hpres
  refine h.link hc hi hzero ⟨?_, fun habsent => ?_, fun _ hlast => ?_, fun _ _ => ?_⟩ hpres' hframe
  · exact (getLsbD_setAddr hlt (by decide)).trans hplain
  · rw [hpres'] at habsent
    cases habsent
  · omega
  · rw [hframe]
    exact ⟨hf, hlevel, howner⟩

omit h in
theorem createNextTable (h : Books free₀ others roots T pending k) (ht : t ∈ T.set)
    (hlevel : T.level t = n + 1) (hn : n ≠ 0) (hi : i ∈ indices (n + 1)) (flags : PageFlags)
    {r : Option ℕ} (heq : k.createNextTable t i flags.forTables = (r, k')) :
    ∃ T', Books free₀ others roots T' pending k' ∧ Grows T k T' k' ∧
      ∀ new, r = some new → new ∈ T'.set ∧ T'.level new = n := by
  have hfour := (h.levels t ht).2
  by_cases hpres : (k.mem t i).isPresent = true
  · have hin : i ∈ indices (T.level t) := hlevel ▸ hi
    obtain ⟨e, hkeeps, hused⟩ :=
      Kernel.createNextTable_of_used hpres (h.plain t ht i hin hpres) flags
    cases hused.symm.trans heq
    refine ⟨T, h.keeps rfl fun u _ j _ => PhysMem.keeps_write hkeeps u j,
      Grows.refl fun _ hf => hf, ?_⟩
    rintro _ ⟨⟩
    obtain ⟨hmem, hbelow, -⟩ := h.next ht hlevel hn hi hpres
    exact ⟨hmem, hbelow⟩
  · have hzero := h.unused rfl t ht i (hlevel ▸ hi) (by simpa using hpres)
    rw [Kernel.createNextTable, if_pos hzero] at heq
    rcases Kernel.allocateTable_cases h.sound with ⟨hnone, -⟩ |
      ⟨new, k₁, hok, hnew, hfree, -, hsame⟩
    · rw [hnone] at heq
      cases heq
      exact ⟨T, h, Grows.refl fun _ hf => hf, fun new hr => by cases hr⟩
    rw [hok] at heq
    cases heq
    have hnot := h.notMem_of_free hnew
    have hne : t ≠ new := fun heq => hnot (heq ▸ ht)
    have hbelongs : Belongs roots T pending new n (T.owner t) := h.belongs ht (by omega) new
    obtain ⟨hbooks, -⟩ := h.allocateTable hok (by omega) hbelongs
    refine ⟨_, hbooks.linkTable (Finset.mem_insert_self ..) (Finset.mem_insert_of_mem ht) ?_ ?_ ?_
      ?_ flags.getLsbD_forTables_zero flags.getLsbD_forTables_seven flags.forTables_and_addrMask,
      Grows.add hnot hnew hfree, ?_⟩
    · rw [level_add hne, level_add_self, hlevel]
    · rw [owner_add hne, owner_add_self]
    · rw [level_add hne, hlevel]
      exact hi
    · rw [hsame t hne]
      exact hzero
    · rintro _ ⟨⟩
      exact ⟨Finset.mem_insert_self .., level_add_self⟩

theorem notMem_of_grows {T' : Tables} (hgrows : Grows T k T' k') (hf : f ∈ pending)
    (hnot : f ∉ T.set) : f ∉ T'.set := by
  intro hin
  have hfree := (hgrows.new f hin).resolve_left hnot
  have hzero := h.sound.free f hfree
  have hpos := h.one_le_refs_of_pending hf
  omega

end

/-- The part of the mapper below a table enters the frame `f` or leaves it pending. -/
def Maps (free₀ : ℕ → Prop) (others : ℕ → ℕ) (roots pending : List ℕ) (f level : ℕ)
    (go : ℕ → Kernel → Bool × Kernel) : Prop :=
  ∀ ⦃T k t⦄, Books free₀ others roots T (f :: pending) k → f ∉ T.set → t ∈ T.set →
    T.level t = level →
      ∃ T', f ∉ T'.set ∧
        Books free₀ others roots T' (if (go t k).1 then pending else f :: pending) (go t k).2

theorem maps_enter (hothers : others f = 0) (hsmall : f < 524288) (i : Fin 512)
    (flags : PageFlags) : Maps free₀ others roots pending f 1 fun t k =>
      if k.mem t i ≠ 0 then (false, k)
      else (true, { k with mem := k.mem.write t i (.setAddr (frameAddr f) flags.bits) }) := by
  intro T k t h hf ht hlevel
  have hlt : f < 2 ^ 40 := hsmall.trans (by decide)
  have hframe := frame_setAddr hlt flags.noAddr
  have hpres : (setAddr (frameAddr f) flags.bits).isPresent = true :=
    (getLsbD_setAddr hlt (by decide)).trans flags.present
  refine ⟨T, hf, ?_⟩
  by_cases hzero : k.mem t i = 0
  swap
  · simp only [ne_eq, hzero, not_false_eq_true, if_true, Bool.false_eq_true, if_false]
    exact h
  simp only [ne_eq, hzero, not_true_eq_false, if_false, if_true]
  refine h.link ht (mem_indices (by omega) i) hzero ⟨?_, ?_, ?_, ?_⟩ hpres hframe
  · exact (getLsbD_setAddr hlt (by decide)).trans flags.plain
  · intro habsent
    rw [hpres] at habsent
    cases habsent
  · intro _ _
    rw [hframe]
    exact ⟨hf, hothers⟩
  · intro _ hne
    exact absurd hlevel hne

theorem Maps.above {go : ℕ → Kernel → Bool × Kernel}
    (hgo : Maps free₀ others roots pending f n go) (hn : n ≠ 0) (hi : i ∈ indices (n + 1))
    (flags : PageFlags) : Maps free₀ others roots pending f (n + 1) fun t k =>
      match k.createNextTable t i flags.forTables with
      | (none, k) => (false, k)
      | (some next, k) => go next k := by
  intro T k t h hf ht hlevel
  rcases hnext : k.createNextTable t i flags.forTables with ⟨r, k₁⟩
  obtain ⟨T₁, hbooks, hgrows, hr⟩ := h.createNextTable ht hlevel hn hi flags hnext
  have hnot := h.notMem_of_grows hgrows List.mem_cons_self hf
  simp only [hnext]
  cases r with
  | none => exact ⟨T₁, hnot, hbooks⟩
  | some next => exact hgo hbooks hnot (hr next rfl).1 (hr next rfl).2

theorem mapPage {space : AddressSpace} (h : Books free₀ others roots T (f :: pending) k)
    (hf : f ∉ T.set) (hothers : others f = 0) (hsmall : f < 524288) (hl4 : space.l4 ∈ T.set)
    (hfour : T.level space.l4 = 4) (hvirt : IsUser virt) (flags : PageFlags) :
    (∃ err k' T', k.mapPage space virt f flags = (.error err, k') ∧ f ∉ T'.set ∧
        Books free₀ others roots T' (f :: pending) k') ∨
      ∃ space' k' T', k.mapPage space virt f flags = (.ok space', k') ∧ space'.l4 = space.l4 ∧
        Books free₀ others roots T' pending k' := by
  have hmaps : Maps free₀ others roots pending f 4 fun l4 k => k.mapTo l4 virt f flags :=
    (((maps_enter hothers hsmall (index 1 virt) flags).above (by decide)
      (mem_indices (by decide) (index 2 virt)) flags).above (by decide)
      (mem_indices (by decide) (index 3 virt)) flags).above (by decide) hvirt.mem_indices flags
  obtain ⟨T', hnot, hbooks⟩ := hmaps h hf hl4 hfour
  rw [Kernel.mapPage]
  split
  · exact .inl ⟨_, k, T, rfl, hf, h⟩
  split
  · exact .inl ⟨_, k, T, rfl, hf, h⟩
  rcases heq : k.mapTo space.l4 virt f flags with ⟨_ | _, k'⟩
  · simp only [heq, Bool.false_eq_true, if_false] at hbooks
    exact .inl ⟨_, k', T', rfl, hnot, hbooks⟩
  · simp only [heq, if_true] at hbooks
    exact .inr ⟨_, k', T', rfl, rfl, hbooks⟩

/-! ## Pages that go -/

section

variable (h : Ledger bg roots T pending k)
include h

theorem walk_next (ht : t ∈ T.set)
    (hlevel : T.level t = n + 1) (hn : n ≠ 0) (hi : index (n + 1) virt ∈ indices (n + 1))
    {r : Entry × ℕ} (hwalk : walkFrom k.mem virt (n + 1) t = .ok r) :
    ∃ next ∈ T.set, T.level next = n ∧ k.nextTable t (index (n + 1) virt) = some next ∧
      walkFrom k.mem virt n next = .ok r := by
  cases hpres : (k.mem t (index (n + 1) virt)).isPresent with
  | false =>
    rw [walkFrom_of_absent hpres] at hwalk
    cases hwalk
  | true =>
    have hplain := h.plain t ht (index (n + 1) virt) (by rwa [hlevel]) hpres
    have hleaf : (k.mem t (index (n + 1) virt)).isLeaf (n + 1) = false := by
      simp [isLeaf, hplain, hn]
    rw [walkFrom_of_table hpres hleaf] at hwalk
    obtain ⟨hmem, hbelow, -⟩ := h.next ht hlevel hn hi hpres
    refine ⟨_, hmem, hbelow, ?_, hwalk⟩
    simp [Kernel.nextTable, hpres, hplain]

theorem unmapEntry {l4 : ℕ} (hl4 : l4 ∈ T.set) (hfour : T.level l4 = 4) (hvirt : IsUser virt)
    (hwalk : walkPageTables k.mem l4 virt = .ok (e, n)) :
    ∃ t ∈ T.set, T.level t = 1 ∧ k.mem t (index 1 virt) = e ∧ e.isPresent = true ∧
      k.unmapEntry l4 virt = some { k with mem := k.mem.write t (index 1 virt) 0 } := by
  rw [walkPageTables_eq] at hwalk
  split at hwalk
  swap
  · cases hwalk
  obtain ⟨l3, hl3, hthree, hnext4, hwalk⟩ :=
    h.walk_next hl4 hfour (by decide) hvirt.mem_indices hwalk
  obtain ⟨l2, hl2, htwo, hnext3, hwalk⟩ :=
    h.walk_next hl3 hthree (by decide) (mem_indices (by decide) _) hwalk
  obtain ⟨l1, hl1, hone, hnext2, hwalk⟩ :=
    h.walk_next hl2 htwo (by decide) (mem_indices (by decide) _) hwalk
  cases hpres : (k.mem l1 (index 1 virt)).isPresent with
  | false =>
    rw [walkFrom_of_absent hpres] at hwalk
    cases hwalk
  | true =>
    have hplain := h.plain l1 hl1 (index 1 virt) (mem_indices (by omega) _) hpres
    rw [walkFrom_of_leaf hpres rfl] at hwalk
    cases hwalk
    have hnext1 : k.nextTable l1 (index 1 virt) = some (k.mem l1 (index 1 virt)).frame := by
      simp [Kernel.nextTable, hpres, hplain]
    refine ⟨l1, hl1, hone, rfl, hpres, ?_⟩
    simp [Kernel.unmapEntry, hnext4, hnext3, hnext2, hnext1]

theorem unmapMapped (strict : Bool) {l4 : ℕ}
    (hl4 : l4 ∈ T.set) (hfour : T.level l4 = 4) (hvirt : IsUser virt)
    (hwalk : walkPageTables k.mem l4 virt = .ok (e, n)) :
    Ledger bg roots T pending (k.unmapMapped strict l4 virt e).2 := by
  obtain ⟨t, ht, hone, rfl, hpres, hunmap⟩ := h.unmapEntry hl4 hfour hvirt hwalk
  have hi : index 1 virt ∈ indices (T.level t) := mem_indices (by omega) _
  rw [Kernel.unmapMapped, frame?_of_plain strict hpres (h.plain t ht _ hi hpres)]
  simp only [hunmap]
  exact h.clear ht hone hi hpres

theorem unmapSpacePage {space : AddressSpace}
    (hl4 : space.l4 ∈ T.set) (hfour : T.level space.l4 = 4) (hvirt : IsUser virt) :
    Ledger bg roots T pending (k.unmapSpacePage strict space virt).2 := by
  rw [Kernel.unmapSpacePage]
  split
  · exact h
  split
  · exact h
  rename_i pte _ hwalk
  have hbooks := h.unmapMapped strict hl4 hfour hvirt hwalk
  split
  · rename_i heq
    rwa [heq] at hbooks
  · rename_i heq
    rwa [heq] at hbooks

theorem unmapRange {space : AddressSpace}
    (hl4 : space.l4 ∈ T.set) (hfour : T.level space.l4 = 4) (range : UserRange) :
    Ledger bg roots T pending (k.unmapRange strict space range).2 := by
  have hloop : Ledger bg roots T pending
      (tryExec (Kernel.unmapTurn strict space.l4 range.start) k (List.range range.count)).2 := by
    refine tryExec_invariant h fun k i hi hk => ?_
    have huser : IsUser (range.start + UInt64.ofNat i * 4096) := range.isUser (List.mem_range.mp hi)
    rw [Kernel.unmapTurn]
    split
    · exact hk
    · rename_i hwalk
      exact hk.unmapMapped strict hl4 hfour huser hwalk
  rw [Kernel.unmapRange]
  split
  · exact h
  split
  · rename_i heq
    rwa [heq] at hloop
  · rename_i heq
    rwa [heq] at hloop

end

end Ledger

end IonaOs.Process
