import IonaOs.Process.SpaceCalls

/-!
# A clone in the books
-/

namespace IonaOs.Process

open Lib Memory Kernel List Tables Entry

theorem Entry.flags_and_addrMask {e : Entry} : e.flags &&& addrMask = 0#64 := by
  rw [flags, BitVec.and_assoc, BitVec.not_and_self]
  exact BitVec.and_zero

section Outcome

variable {bg : Background} {roots pending new : List ℕ}
variable {T T' T'' : Tables} {k : Kernel} {r : Except AddressSpaceError Unit × Kernel}
variable {X Y Z : ℕ → Fin 512 → Prop}

/-- After a part of a clone that writes only to the entries `X` of the tables that were there, flags
apart.  If it fails, `new` are the tables that are not linked. -/
structure Cloned (bg : Background) (roots : List ℕ)
    (X : ℕ → Fin 512 → Prop) (T : Tables) (pending : List ℕ) (k : Kernel)
    (r : Except AddressSpaceError Unit × Kernel) (T' : Tables) (new : List ℕ) : Prop where
  books : Ledger bg roots T' (new ++ pending) r.2
  grows : Grows T k T' r.2
  kept : ∀ t ∈ T.set, ∀ i ∈ indices (T.level t), ¬ X t i → (k.mem t i).Keeps (r.2.mem t i)
  tables : ∀ t ∈ new, t ∈ T'.set
  done : r.1 = .ok () → new = []

theorem Cloned.refl (h : Ledger bg roots T pending k) (r : Except AddressSpaceError Unit) :
    Cloned bg roots X T pending k (r, k) T [] where
  books := h
  grows := Grows.refl fun _ hf => hf
  kept _ _ _ _ _ := .inl rfl
  tables _ ht := absurd ht not_mem_nil
  done _ := rfl

theorem Cloned.mono (h : Cloned bg roots X T pending k r T' new)
    (hX : ∀ t i, X t i → Y t i) : Cloned bg roots Y T pending k r T' new :=
  { h with kept := fun t ht i hi hnot => h.kept t ht i hi fun hX' => hnot (hX t i hX') }

theorem Cloned.trans {k' : Kernel} (h : Cloned bg roots X T pending k (.ok (), k') T' [])
    (h' : Cloned bg roots Y T' pending k' r T'' new) (hX : ∀ t i, X t i → Y t i) :
    Cloned bg roots Y T pending k r T'' new where
  books := h'.books
  grows := h.grows.trans h'.grows
  kept t ht i hi hnot := by
    have hi' : i ∈ indices (T'.level t) := by rwa [h.grows.level t ht]
    exact (h.kept t ht i hi fun hX' => hnot (hX t i hX')).trans
      (h'.kept t (h.grows.sub ht) i hi' hnot)
  tables := h'.tables
  done := h'.done

structure Pair (T : Tables) (pending : List ℕ) (level p c : ℕ) : Prop where
  pending : ∀ t ∈ pending, t ∈ T.set
  parent : p ∈ T.set
  child : c ∈ T.set
  parentLevel : T.level p = level
  childLevel : T.level c = level
  ne : p ≠ c

theorem Pair.grows {level p c : ℕ} {k' : Kernel} (h : Pair T pending level p c)
    (hgrows : Grows T k T' k') : Pair T' pending level p c where
  pending t ht := hgrows.sub (h.pending t ht)
  parent := hgrows.sub h.parent
  child := hgrows.sub h.child
  parentLevel := (hgrows.level p h.parent).trans h.parentLevel
  childLevel := (hgrows.level c h.child).trans h.childLevel
  ne := h.ne

def ClonesEntry (bg : Background) (roots : List ℕ) (level : ℕ)
    (turn : ℕ → ℕ → Kernel → Fin 512 → Except AddressSpaceError Unit × Kernel) : Prop :=
  ∀ ⦃T pending k p c i⦄, Ledger bg roots T pending k → Pair T pending level p c →
    i ∈ indices level → k.mem c i = 0 →
      ∃ T' new, Cloned bg roots (fun t j => t = c ∧ j = i) T pending k
        (turn p c k i) T' new

def ClonesTable (bg : Background) (roots : List ℕ) (level : ℕ)
    (clone : ℕ → ℕ → Kernel → Except AddressSpaceError Unit × Kernel) : Prop :=
  ∀ ⦃T pending k p c⦄, Ledger bg roots T pending k → Pair T pending level p c →
    (∀ i ∈ indices level, k.mem c i = 0) →
      ∃ T' new, Cloned bg roots (fun t _ => t = c) T pending k (clone p c k) T' new

variable {turn : ℕ → ℕ → Kernel → Fin 512 → Except AddressSpaceError Unit × Kernel}

theorem ClonesEntry.loop {level : ℕ} (hturn : ClonesEntry bg roots level turn)
    {p c : ℕ} {l : List (Fin 512)} (hl : l.Nodup) (hindices : ∀ i ∈ l, i ∈ indices level)
    (h : Ledger bg roots T pending k) (hpair : Pair T pending level p c)
    (hzero : ∀ i ∈ l, k.mem c i = 0) :
    ∃ T' new, Cloned bg roots (fun t _ => t = c) T pending k
      (tryExec (turn p c) k l) T' new := by
  induction l generalizing T k with
  | nil => exact ⟨T, [], Cloned.refl h _⟩
  | cons i l ih =>
    obtain ⟨hi, hl⟩ := nodup_cons.mp hl
    obtain ⟨T₁, new₁, hone⟩ := hturn h hpair (hindices i mem_cons_self) (hzero i mem_cons_self)
    rw [tryExec]
    rcases heq : turn p c k i with ⟨_ | ⟨⟩, k₁⟩
    · rw [heq] at hone
      exact ⟨T₁, new₁, hone.mono fun _ _ hX => hX.1⟩
    rw [heq] at hone
    obtain rfl := hone.done rfl
    -- the entries of the new table that are still to come are unused
    have hrest : ∀ j ∈ l, k₁.mem c j = 0 := fun j hj => by
      have hin : j ∈ indices (T.level c) := by
        rw [hpair.childLevel]
        exact hindices j (mem_cons_of_mem i hj)
      have hkept := hone.kept c hpair.child j hin fun hX => hi (hX.2 ▸ hj)
      exact hkept.eq_zero (hzero j (mem_cons_of_mem i hj))
    obtain ⟨T₂, new₂, hmore⟩ := ih hl (fun j hj => hindices j (mem_cons_of_mem i hj))
      hone.books (hpair.grows hone.grows) hrest
    exact ⟨T₂, new₂, hone.trans hmore fun _ _ hX => hX.1⟩

theorem ClonesEntry.table {level : ℕ} (hturn : ClonesEntry bg roots level turn)
    {l : List (Fin 512)} (hl : indices level = l) :
    ClonesTable bg roots level fun p c k => tryExec (turn p c) k l := by
  intro T pending k p c h hpair hzero
  subst hl
  exact hturn.loop (nodup_indices level) (fun _ hi => hi) h hpair hzero

end Outcome

namespace Ledger

variable {bg : Background} {roots pending : List ℕ} {T : Tables}
variable {k k' : Kernel} {t c f n : ℕ} {i : Fin 512} {strict : Bool}

/-! ## Pages that are shared -/

theorem length_indices_le (level : ℕ) : (indices level).length ≤ 512 := by
  simpa using (nodup_indices level).length_le_card

section

variable (h : Ledger bg roots T pending k)
include h

theorem refs_le (hpending : ∀ t ∈ pending, t ∈ T.set) (ht : t ∈ T.set) (hone : T.level t = 1)
    (hf : f ∈ T.kids k.mem t) : k.frames.refs f ≤ 524288 * 512 := by
  obtain ⟨hnot, hothers⟩ := h.bottom t ht hone f hf
  have hno : pending.count f = 0 := count_eq_zero.mpr fun hin => hnot (hpending f hin)
  have hroot : roots.count f = 0 := count_eq_zero.mpr fun hin => hnot (h.root f hin).1
  have hcard : T.set.card ≤ 524288 := by
    refine (Finset.card_le_card fun u hu => Finset.mem_range.mpr (h.small u hu)).trans_eq ?_
    exact Finset.card_range _
  have hkids : ∀ u ∈ T.set, (T.kids k.mem u).count f ≤ 512 := fun u _ =>
    count_le_length.trans ((length_filterMap_le _ _).trans (length_indices_le _))
  have hsum : T.refers k.mem f ≤ T.set.card * 512 := Finset.sum_le_card_nsmul _ _ _ hkids
  rw [h.counted, hothers, hno, hroot]
  omega

theorem share {p : ℕ} (hpair : Pair T pending 1 p c) (hzero : k.mem c i = 0)
    (hpres : (k.mem p i).isPresent = true) : Ledger bg roots T pending
      { k with
        mem := k.mem.write c i (k.mem p i).readOnly
        frames := (k.frames.incRef (k.mem p i).frame).2 } := by
  have hkid : (k.mem p i).frame ∈ T.kids k.mem p := by
    refine mem_kids.mpr ⟨i, ?_, hpres, rfl⟩
    rw [hpair.parentLevel]
    exact mem_indices (by decide) i
  have hplain := h.plain p hpair.parent i (by
    rw [hpair.parentLevel]
    exact mem_indices (by decide) i) hpres
  have hpos := h.one_le_refs hpair.parent hkid
  have hle := h.refs_le hpair.pending hpair.parent hpair.parentLevel hkid
  have hpage := h.bottom p hpair.parent hpair.parentLevel _ hkid
  have hne : k.frames.refs (k.mem p i).frame ≠ 0 := by omega
  have hrefs := h.sound.refs_incRef hne (by omega)
  have hnotFree : ¬ k.frames.Free (k.mem p i).frame := fun hfree => hne (h.sound.free _ hfree)
  have hpres' : (k.mem p i).readOnly.isPresent = true := isPresent_readOnly.trans hpres
  refine h.write hpair.child ?_ ⟨?_, ?_, ?_, ?_⟩ rfl (h.sound.incRef hnotFree)
    (h.returned.incRef h.sound hne (by omega)) (fun g => ?_) (fun u hu => ?_)
    fun u hu => (h.owned u hu).2.2
  · rw [hpair.childLevel]
    exact mem_indices (by decide) i
  · rw [isHuge_readOnly, hplain]
  · intro habsent
    rw [hpres'] at habsent
    cases habsent
  · intro _ _
    rw [frame_readOnly]
    exact hpage
  · intro _ habove
    exact absurd hpair.childLevel habove
  · rw [hzero, target_of_present hpres', frame_readOnly, hrefs]
    simp only [target_zero, reduceCtorEq, if_false, Option.some.injEq]
    by_cases hg : g = (k.mem p i).frame
    · rw [if_pos hg, if_pos hg.symm, hg]
      omega
    · rw [if_neg hg, if_neg (Ne.symm hg)]
  · have hother : u ≠ (k.mem p i).frame := fun heq => hpage.1 (heq ▸ hu)
    simp only [hrefs, if_neg hother]
    exact h.single u hu

end

theorem clonesEntry_cloneL1 : ClonesEntry bg roots 1 (cloneL1Entry strict) := by
  intro T pending k p c i h hpair hi hzero
  cases hpres : (k.mem p i).isPresent with
  | false =>
    simp only [cloneL1Entry, hpres, Bool.not_false, if_true]
    exact ⟨T, [], Cloned.refl h _⟩
  | true =>
    have hplain := h.plain p hpair.parent i (hpair.parentLevel ▸ hi) hpres
    have hshared := h.share hpair hzero hpres
    have hcopied : k.mem.write c i (k.mem p i).readOnly p i = k.mem p i := by
      rw [PhysMem.write_apply, if_neg fun heq => hpair.ne heq.1]
    have hturn : cloneL1Entry strict p c k i = (.ok (), { k with
          mem := (k.mem.write c i (k.mem p i).readOnly).write p i (k.mem p i).readOnly
          frames := (k.frames.incRef (k.mem p i).frame).2 }) := by
      simp only [cloneL1Entry, hpres, Bool.not_true, Bool.false_eq_true, if_false,
        Kernel.share, frame?_of_plain strict hpres hplain]
      rw [← readOnly, hcopied, ← readOnly]
    rw [hturn]
    -- in the parent only the write bit goes
    have hkeeps : ∀ u j, (k.mem.write c i (k.mem p i).readOnly u j).Keeps
        ((k.mem.write c i (k.mem p i).readOnly).write p i (k.mem p i).readOnly u j) := by
      refine PhysMem.keeps_write ?_
      rw [hcopied]
      exact keeps_readOnly hpres
    refine ⟨T, [], hshared.keeps rfl fun u _ j _ => hkeeps u j, Grows.refl fun f hf => ?_,
      fun u _ j _ hnot => ?_, fun _ ht => absurd ht not_mem_nil, fun _ => rfl⟩
    · exact (FrameAllocator.free_incRef _ _ _).mp hf
    · have hwrite := hkeeps u j
      rwa [PhysMem.write_apply, if_neg hnot] at hwrite

/-! ## Tables -/

theorem clonesEntry_cloneEntry {huge : Entry → Bool}
    (hhuge : ∀ e : Entry, e.isHuge = false → huge e = false) (hn : n ≠ 0) (hfour : n + 1 ≤ 4)
    {cloneBelow : ℕ → ℕ → Kernel → Except AddressSpaceError Unit × Kernel}
    (hbelow : ClonesTable bg roots n cloneBelow) :
    ClonesEntry bg roots (n + 1) (cloneEntry strict huge cloneBelow) := by
  intro T pending k p c i h hpair hi hzero
  have hpi : i ∈ indices (T.level p) := by rwa [hpair.parentLevel]
  have hci : i ∈ indices (T.level c) := by rwa [hpair.childLevel]
  cases hpres : (k.mem p i).isPresent with
  | false =>
    simp only [cloneEntry, hpres, Bool.not_false, if_true]
    exact ⟨T, [], Cloned.refl h _⟩
  | true =>
    have hplain := h.plain p hpair.parent i hpi hpres
    simp only [cloneEntry, hpres, hhuge _ hplain, Bool.not_true, Bool.false_eq_true, if_false]
    obtain ⟨hnext, hlevel, -⟩ := h.next hpair.parent hpair.parentLevel hn hi hpres
    rcases allocateTable_cases h.sound with ⟨hnone, -⟩ |
      ⟨table, k₁, hok, hnew, hfree, hzeros, hsame⟩
    · rw [hnone]
      exact ⟨T, [], Cloned.refl h _⟩
    have hnot := h.notMem_of_free hnew
    have hne : ∀ {u}, u ∈ T.set → u ≠ table := fun hu heq => hnot (heq ▸ hu)
    have hbelongs : Belongs roots T pending table n (T.owner c) :=
      h.belongs hpair.child (by omega) table
    obtain ⟨hbooks₁, -⟩ := h.allocateTable hok (by omega) hbelongs
    have hgrows₁ : Grows T k (T.add table n (T.owner c)) k₁ := Grows.add hnot hnew hfree
    have hpair₁ : Pair (T.add table n (T.owner c)) (table :: pending) n (k.mem p i).frame
        table := by
      refine ⟨fun t ht => ?_, hgrows₁.sub hnext, Finset.mem_insert_self .., ?_,
        level_add_self, hne hnext⟩
      · rcases mem_cons.mp ht with rfl | ht
        · exact Finset.mem_insert_self ..
        · exact hgrows₁.sub (hpair.pending t ht)
      · rw [level_add (hne hnext), hlevel]
    obtain ⟨T₂, new, hcloned⟩ := hbelow hbooks₁ hpair₁ fun j _ => hzeros j
    have hgrows := hgrows₁.trans hcloned.grows
    have hkept : ∀ u ∈ T.set, ∀ j ∈ indices (T.level u), (k.mem u j).Keeps
        ((cloneBelow (k.mem p i).frame table k₁).2.mem u j) := fun u hu j hj => by
      rw [← hsame u (hne hu)]
      refine hcloned.kept u (hgrows₁.sub hu) j ?_ (hne hu)
      rwa [level_add (hne hu)]
    have htable := hcloned.grows.sub (Finset.mem_insert_self table T.set)
    simp only [hok]
    rcases heq : cloneBelow (k.mem p i).frame table k₁ with ⟨_ | ⟨⟩, k₂⟩
    · rw [heq] at hcloned hkept hgrows
      refine ⟨T₂, new ++ [table], ?_, hgrows, fun u hu j hj _ => hkept u hu j hj, ?_, ?_⟩
      · rw [append_assoc]
        exact hcloned.books
      · intro u hu
        rcases mem_append.mp hu with hu | hu
        · exact hcloned.tables u hu
        · exact mem_singleton.mp hu ▸ htable
      · intro hdone
        cases hdone
    · rw [heq] at hcloned hkept hgrows
      obtain rfl := hcloned.done rfl
      have hparent := hkept p hpair.parent i hpi
      have hlevel₂ : T₂.level table = n :=
        (hcloned.grows.level table (Finset.mem_insert_self ..)).trans level_add_self
      have howner₂ : T₂.owner table = T.owner c :=
        (hcloned.grows.owner table (Finset.mem_insert_self ..)).trans owner_add_self
      refine ⟨T₂, [], hcloned.books.linkTable htable (hgrows.sub hpair.child) ?_ ?_ ?_ ?_ ?_ ?_
        flags_and_addrMask, ⟨hgrows.sub, hgrows.level, hgrows.owner, hgrows.new,
        hgrows.free⟩, fun u hu j hj hother => ?_, fun _ ht => absurd ht not_mem_nil,
        fun _ => rfl⟩
      · rw [hlevel₂, hgrows.level c hpair.child, hpair.childLevel]
      · rw [howner₂, hgrows.owner c hpair.child]
      · rwa [hgrows.level c hpair.child]
      · exact (hkept c hpair.child i hci).eq_zero hzero
      · rw [getLsbD_flags (by decide)]
        exact (Bool.and_true _).trans (hparent.isPresent.trans hpres)
      · rw [getLsbD_flags (by decide)]
        exact (Bool.and_true _).trans (hparent.isHuge.trans hplain)
      · have hwritten := hkept u hu j hj
        simp only [PhysMem.write_apply, if_neg hother]
        exact hwritten

section Loops

variable (bg : Background) (strict : Bool) (roots : List ℕ)

theorem clonesTable_cloneL1 : ClonesTable bg roots 1 (cloneL1 strict) :=
  clonesEntry_cloneL1.table (indices_of_ne (by decide))

theorem clonesTable_cloneL2 : ClonesTable bg roots 2 (cloneL2 strict) :=
  (clonesEntry_cloneEntry (fun _ he => he) (by decide) (by decide)
    (clonesTable_cloneL1 bg strict roots)).table (indices_of_ne (by decide))

theorem clonesTable_cloneL3 : ClonesTable bg roots 3 (cloneL3 strict) :=
  (clonesEntry_cloneEntry (fun _ he => he) (by decide) (by decide)
    (clonesTable_cloneL2 bg strict roots)).table (indices_of_ne (by decide))

theorem clonesTable_cloneL4 : ClonesTable bg roots 4 (cloneL4 strict) :=
  (clonesEntry_cloneEntry (fun _ _ => rfl) (by decide) (by decide)
    (clonesTable_cloneL3 bg strict roots)).table (if_pos rfl)

end Loops

/-! ## Spaces -/

theorem mem_copyKernelHalf {p : ℕ} (hi : t = c → i ∈ indices 4) :
    (k.copyKernelHalf p c).mem t i = k.mem t i := by
  rw [Kernel.copyKernelHalf]
  by_cases ht : t = c
  · have hin : i ∈ userHalf := hi ht
    have hlow : i.1 < 256 := of_decide_eq_true (mem_filter.mp hin).2
    simp only [ht, Function.update_self, hlow, if_true]
  · simp only [Function.update_of_ne ht]

section

variable (h : Ledger bg roots T pending k)
include h

theorem copyKernelHalf (hc : T.level c = 4) (p : ℕ) :
    Ledger bg roots T pending (k.copyKernelHalf p c) := by
  refine h.keeps rfl fun t _ i hi => .inl (mem_copyKernelHalf ?_)
  rintro rfl
  rwa [hc] at hi

theorem allocateRoot (hok : k.allocateTable = (.ok t, k')) :
    Ledger bg roots (T.add t 4 t) (t :: pending) k' :=
  (h.allocateTable hok (by decide) (.inl ⟨rfl, rfl⟩)).1

end

theorem newSpace (h : Ledger bg roots T [] k) (cfg : AddressSpaceConfig) (random : UInt64) :
    (∃ err, k.newSpace cfg random = (.error err, k)) ∨
      ∃ space k' T', k.newSpace cfg random = (.ok space, k') ∧
        Ledger bg (space.l4 :: roots) T' [] k' := by
  rw [Kernel.newSpace]
  rcases allocateTable_cases h.sound with ⟨hnone, -⟩ | ⟨new, k₁, hok, -⟩
  · exact .inl ⟨_, by rw [hnone]⟩
  have hbooks := h.allocateRoot hok
  refine .inr ⟨_, _, T.add new 4 new, by rw [hok], ?_⟩
  exact (hbooks.copyKernelHalf level_add_self k₁.l4).promote
    (Finset.mem_insert_self ..) level_add_self

theorem cloneCow_cases (h : Ledger bg roots T [] k) (strict : Bool)
    {space : AddressSpace} (hl4 : space.l4 ∈ roots) :
    (∃ child k' T', k.cloneCow strict space = (.ok child, k') ∧
        Ledger bg (child.l4 :: roots) T' [] k') ∨
      (∃ err, k.cloneCow strict space = (.error err, k)) ∧ (∀ f, ¬ k.frames.Free f) ∨
      ∃ err k' T' lost, k.cloneCow strict space = (.error err, k') ∧ (∃ f, k.frames.Free f) ∧
        (∃ t ∈ lost, t ∈ T'.set) ∧ Ledger bg roots T' lost k' := by
  obtain ⟨hmem, hfour⟩ := h.root _ hl4
  rw [cloneCow]
  rcases allocateTable_cases h.sound with ⟨hnone, hfull⟩ |
    ⟨new, k₁, hok, hnew, -, hzeros, -⟩
  · exact .inr (.inl ⟨⟨_, by rw [hnone]⟩, hfull⟩)
  have hnot := h.notMem_of_free hnew
  have hne : space.l4 ≠ new := fun heq => hnot (heq ▸ hmem)
  have hbooks := (h.allocateRoot hok).copyKernelHalf level_add_self space.l4
  have hpair : Pair (T.add new 4 new) [new] 4 space.l4 new := by
    refine ⟨?_, Finset.mem_insert_of_mem hmem, Finset.mem_insert_self .., ?_, level_add_self, hne⟩
    · simp [Tables.add]
    · rw [level_add hne, hfour]
  obtain ⟨T', lost, hcloned⟩ := clonesTable_cloneL4 bg strict roots hbooks hpair
    fun i hi => (mem_copyKernelHalf fun _ => hi).trans (hzeros i)
  rcases heq : cloneL4 strict space.l4 new (k₁.copyKernelHalf space.l4 new) with
    ⟨err | ⟨⟩, k₂⟩
  · rw [heq] at hcloned
    refine .inr (.inr ⟨err, k₂, T', _, ?_, ⟨new, hnew⟩, ⟨new, ?_, ?_⟩, hcloned.books⟩)
    · rw [hok]
      simp only [heq]
    · exact mem_append_right _ mem_cons_self
    · exact hcloned.grows.sub hpair.child
  · rw [heq] at hcloned
    obtain rfl := hcloned.done rfl
    refine .inl ⟨{ space with l4 := new, pageTables := space.pageTables + 1, locked := false },
      k₂, T', ?_, hcloned.books.promote (hcloned.grows.sub hpair.child) ?_⟩
    · rw [hok]
      simp only [heq]
    · rw [hcloned.grows.level new hpair.child, level_add_self]

end Ledger

end IonaOs.Process
