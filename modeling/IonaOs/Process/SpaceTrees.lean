import IonaOs.Process.SpaceCalls

/-!
# The tree of an address space
-/

namespace IonaOs.Process

open Finset hiding cons mem_cons mem_singleton
open Lib Memory List Kernel

/-! ## Walks over a space -/

variable (k : Kernel)

def Kernel.release (l : List ℕ) : Kernel := { k with frames := k.frames.release l }

theorem Kernel.frames_release (l : List ℕ) :
    (k.release l).frames = k.frames.release l := rfl

theorem Kernel.mem_release (l : List ℕ) : (k.release l).mem = k.mem := rfl

theorem Kernel.release_release (l l' : List ℕ) :
    (k.release l).release l' = k.release (l ++ l') := by
  simp only [release, FrameAllocator.release, foldl_append]

theorem Kernel.decRef_eq (f : ℕ) : k.decRef f = k.release [f] := rfl

theorem exec_release {turn : Kernel → Fin 512 → Kernel} {frames : Fin 512 → List ℕ} {mem : PhysMem}
    {l : List (Fin 512)}
    (hturn : ∀ k, k.mem = mem → ∀ i ∈ l, turn k i = k.release (frames i)) {k : Kernel}
    (hk : k.mem = mem) : exec turn k l = k.release (l.flatMap frames) := by
  induction l generalizing k with
  | nil => rfl
  | cons i l ih =>
    rw [exec_cons, hturn k hk i mem_cons_self, flatMap_cons, ← release_release]
    exact ih (fun k hk j hj => hturn k hk j (mem_cons_of_mem i hj)) hk

/-- A part of `cleanup` gives back all that is below a table. -/
def Cleans (mem : PhysMem) (level : ℕ) (cleanup : ℕ → Kernel → Kernel) (t : ℕ) : Prop :=
  ∀ k, k.mem = mem → cleanup t k = k.release (framesBelow mem level t)

namespace Ledger

variable {bg : Background} {roots pending : List ℕ} {T : Tables}
variable {k k' : Kernel} {t c f n r : ℕ} {i : Fin 512} {strict : Bool}

theorem isLeaf_of_plain {e : Entry} (hn : n ≠ 0) (h : e.isHuge = false) :
    e.isLeaf (n + 1) = false := by
  simp [Entry.isLeaf, h, hn]

section

variable (h : Ledger bg roots T pending k)
include h

theorem cleans_cleanupL1 (ht : t ∈ T.set)
    (hlevel : T.level t = 1) : Cleans k.mem 1 (cleanupL1 strict) t := by
  intro k' hk'
  rw [cleanupL1, framesBelow, indices_of_ne (by decide)]
  refine exec_release (fun k'' hk'' i _ => ?_) hk'
  rw [hk'']
  cases hpres : (k.mem t i).isPresent with
  | false =>
    simp only [hpres, Bool.not_false, if_true]
    rfl
  | true =>
    have hplain := h.plain t ht i (hlevel ▸ mem_indices (by decide) i) hpres
    have hleaf : (k.mem t i).isLeaf (0 + 1) = true := rfl
    simp only [hpres, hleaf, Bool.not_true, Bool.false_eq_true, if_false, if_true,
      unshare, Entry.frame?_of_plain strict hpres hplain, decRef_eq]

theorem cleans_above {huge : Entry → Bool}
    (hhuge : ∀ e : Entry, e.isHuge = false → huge e = false) (hn : n ≠ 0)
    {cleanupBelow : ℕ → Kernel → Kernel}
    (hbelow : ∀ t ∈ T.set, T.level t = n → Cleans k.mem n cleanupBelow t)
    (ht : t ∈ T.set) (hlevel : T.level t = n + 1) {l : List (Fin 512)} (hl : indices (n + 1) = l) :
    Cleans k.mem (n + 1)
      (fun t k => exec (cleanupEntry strict huge cleanupBelow t) k l) t := by
  intro k' hk'
  subst hl
  rw [framesBelow]
  refine exec_release (fun k'' hk'' i hi => ?_) hk'
  rw [cleanupEntry, hk'']
  cases hpres : (k.mem t i).isPresent with
  | false =>
    simp only [hpres, Bool.not_false, if_true]
    rfl
  | true =>
    have hplain := h.plain t ht i (hlevel ▸ hi) hpres
    obtain ⟨hmem, hnext, -⟩ := h.next ht hlevel hn hi hpres
    simp only [hpres, Bool.not_true, Bool.false_eq_true, if_false, hhuge _ hplain,
      isLeaf_of_plain hn hplain]
    rw [hbelow _ hmem hnext k'' hk'', decRef_eq, release_release]

theorem cleanup_eq (strict : Bool) {space : AddressSpace} (hl4 : space.l4 ∈ roots) :
    (k.cleanup strict space).2 = k.release (spaceFrames k.mem space.l4) := by
  obtain ⟨hmem, hfour⟩ := h.root _ hl4
  have h1 : ∀ t ∈ T.set, T.level t = 1 → Cleans k.mem 1 (cleanupL1 strict) t :=
    fun t ht hlevel => h.cleans_cleanupL1 ht hlevel
  have h2 : ∀ t ∈ T.set, T.level t = 2 → Cleans k.mem 2 (cleanupL2 strict) t :=
    fun t ht hlevel => h.cleans_above (fun _ he => he) (by decide) h1 ht hlevel
      (indices_of_ne (by decide))
  have h3 : ∀ t ∈ T.set, T.level t = 3 → Cleans k.mem 3 (cleanupL3 strict) t :=
    fun t ht hlevel => h.cleans_above (fun _ he => he) (by decide) h2 ht hlevel
      (indices_of_ne (by decide))
  have h4 : Cleans k.mem 4 (cleanupL4 strict) space.l4 :=
    h.cleans_above (fun _ _ => rfl) (by decide) h3 hmem hfour (if_pos rfl)
  rw [cleanup]
  simp only [h4 k rfl]
  rw [decRef_eq, release_release, spaceFrames]

end

/-! ## The tree of a space -/

section

variable (h : Ledger bg roots T pending k)
include h

theorem framesBelow_eq (ht : t ∈ T.set)
    (hlevel : T.level t = n) : framesBelow k.mem n t = below (T.kids k.mem) n t := by
  induction n generalizing t with
  | zero => rfl
  | succ n ih =>
    rw [framesBelow, below, Tables.kids, filterMap_eq_flatMap_toList, flatMap_assoc, hlevel]
    refine flatMap_congr fun i hi => ?_
    cases hpres : (k.mem t i).isPresent with
    | false => simp [hpres, Entry.target_of_absent hpres]
    | true =>
      rw [Entry.target_of_present hpres]
      by_cases hn : n = 0
      · subst hn
        simp [hpres, Entry.isLeaf, below]
      · obtain ⟨hmem, hnext, -⟩ := h.next ht hlevel hn hi hpres
        have hplain := h.plain t ht i (hlevel ▸ hi) hpres
        simp [hpres, isLeaf_of_plain hn hplain, ih hmem hnext]

theorem exists_of_mem_below (ht : t ∈ T.set)
    (hlevel : T.level t = n) (hf : f ∈ below (T.kids k.mem) n t) :
    ∃ u ∈ T.set, f ∈ T.kids k.mem u := by
  induction n generalizing t with
  | zero => exact absurd hf not_mem_nil
  | succ n ih =>
    obtain ⟨c, hc, hmem⟩ := mem_flatMap.mp hf
    rcases mem_append.mp hmem with hmem | hmem
    · by_cases hn : n = 0
      · subst hn
        exact absurd hmem not_mem_nil
      · obtain ⟨hin, hbelow, -⟩ := h.down t ht (by omega) c hc
        exact ih hin (by omega) hmem
    · exact ⟨t, ht, mem_singleton.mp hmem ▸ hc⟩

theorem owner_root (hr : r ∈ roots) : T.owner r = r := h.top r (h.root r hr).1 (h.root r hr).2

end

section

variable (h : Ledger bg roots T [] k)
include h

theorem rooted (hr : r ∈ roots) : Rooted (T.kids k.mem) T.level {t ∈ T.set | T.owner t = r} r := by
  obtain ⟨hmem, hfour⟩ := h.root r hr
  have hset : ∀ {t}, t ∈ {t ∈ T.set | T.owner t = r} → t ∈ T.set ∧ T.owner t = r := mem_filter.mp
  refine ⟨?_, ?_, ?_, ?_, ?_, ?_, ?_⟩
  · exact fun t ht => (h.levels t (hset ht).1).1
  · exact fun t ht => hfour ▸ (h.levels t (hset ht).1).2
  · intro t ht hlevel
    rw [← h.top t (hset ht).1 (hlevel.trans hfour), (hset ht).2]
  · exact mem_filter.mpr ⟨hmem, h.owner_root hr⟩
  · intro t ht hone c hc hin
    exact (h.bottom t (hset ht).1 hone c hc).1 (hset hin).1
  · intro t ht hone c hc
    obtain ⟨hin, hbelow, howner⟩ := h.down t (hset ht).1 hone c hc
    exact ⟨mem_filter.mpr ⟨hin, howner.trans (hset ht).2⟩, hbelow⟩
  intro t ht hne
  obtain ⟨htset, howner⟩ := hset ht
  have hcount := h.counted t
  have hroot : roots.count t = 0 := count_eq_zero.mpr fun hin =>
    hne (by rw [← h.owner_root hin, howner])
  rw [h.single t htset, h.fresh t htset, hroot, count_nil] at hcount
  -- a table is in entries of tables of its own space only
  have hall : ∑ u ∈ T.set with T.owner u = r, (T.kids k.mem u).count t = T.refers k.mem t := by
    refine sum_subset (filter_subset _ _) fun u hu hnot => ?_
    rw [count_eq_zero]
    intro hkid
    by_cases hone : T.level u = 1
    · exact (h.bottom u hu hone t hkid).1 htset
    · have hsame := (h.down u hu hone t hkid).2.2
      exact hnot (mem_filter.mpr ⟨hu, hsame ▸ howner⟩)
  omega

theorem count_spaceFrames (hr : r ∈ roots) (f : ℕ) : (spaceFrames k.mem r).count f =
      (∑ t ∈ T.set with T.owner t = r, (T.kids k.mem t).count f) + [r].count f := by
  obtain ⟨hmem, hfour⟩ := h.root r hr
  rw [spaceFrames, count_append, h.framesBelow_eq hmem hfour, ← hfour, (h.rooted hr).count_below]

omit h in
theorem cleanup (h : Ledger bg (r :: roots) T [] k) :
    Ledger bg roots ⟨{t ∈ T.set | T.owner t ≠ r}, T.level, T.owner⟩ []
      (k.release (spaceFrames k.mem r)) := by
  have hset : ∀ {t}, t ∈ {t ∈ T.set | T.owner t ≠ r} → t ∈ T.set ∧ T.owner t ≠ r := mem_filter.mp
  obtain ⟨hsound, hrefs⟩ := h.sound.release (spaceFrames k.mem r)
  have hspace := h.count_spaceFrames mem_cons_self
  have hsplit : ∀ f, (∑ t ∈ T.set with T.owner t = r, (T.kids k.mem t).count f) +
      ∑ t ∈ T.set with T.owner t ≠ r, (T.kids k.mem t).count f = T.refers k.mem f := fun f =>
    sum_filter_add_sum_filter_not ..
  -- a table of another space is in no entry of this one
  have hother : ∀ t ∈ T.set, T.owner t ≠ r → (spaceFrames k.mem r).count t = 0 := by
    intro t ht hne
    rw [hspace, Nat.add_eq_zero_iff]
    refine ⟨sum_eq_zero fun u hu => ?_, ?_⟩
    · obtain ⟨hu, howner⟩ := mem_filter.mp hu
      rw [count_eq_zero]
      intro hkid
      by_cases hone : T.level u = 1
      · exact (h.bottom u hu hone t hkid).1 ht
      · exact hne ((h.down u hu hone t hkid).2.2.trans howner)
    · rw [count_eq_zero, mem_singleton]
      rintro rfl
      exact hne (h.owner_root mem_cons_self)
  -- the first tables of the others are not this one
  have hroots : ∀ r' ∈ roots, r' ≠ r := by
    intro r' hin heq
    rw [heq] at hin
    have hcount := h.counted r
    rw [h.single r (h.root r mem_cons_self).1, count_cons_self] at hcount
    have := count_pos_iff.mpr hin
    omega
  exact
    { sound := by
        rw [frames_release]
        exact hsound
      returned := by
        rw [frames_release]
        exact h.returned.release h.sound _
      counted := fun f => by
        have hcount := h.counted f
        have hparts := hsplit f
        have hgone := hspace f
        have hone : (r :: roots).count f = [r].count f + roots.count f := by
          rw [← count_append, singleton_append]
        rw [hone] at hcount
        rw [frames_release, mem_release, hrefs, Tables.refers]
        change _ = _ + ∑ t ∈ T.set with T.owner t ≠ r, (T.kids k.mem t).count f
        omega
      single := fun t ht => by
        rw [frames_release, hrefs, hother t (hset ht).1 (hset ht).2, h.single t (hset ht).1]
      fresh := fun t ht => h.fresh t (hset ht).1
      small := fun t ht => h.small t (hset ht).1
      levels := fun t ht => h.levels t (hset ht).1
      unused := fun hswept t ht => h.unused hswept t (hset ht).1
      plain := fun t ht => h.plain t (hset ht).1
      bottom := fun t ht hone c hc => by
        obtain ⟨hnot, hothers⟩ := h.bottom t (hset ht).1 hone c hc
        exact ⟨fun hin => hnot (hset hin).1, hothers⟩
      down := fun t ht hone c hc => by
        obtain ⟨hin, hbelow, howner⟩ := h.down t (hset ht).1 hone c hc
        exact ⟨mem_filter.mpr ⟨hin, howner ▸ (hset ht).2⟩, hbelow, howner⟩
      root := fun r' hr' => by
        have hmem := mem_cons_of_mem r hr'
        obtain ⟨hin, hfour⟩ := h.root r' hmem
        refine ⟨mem_filter.mpr ⟨hin, ?_⟩, hfour⟩
        rw [h.owner_root hmem]
        exact hroots r' hr'
      top := fun t ht => h.top t (hset ht).1
      owned := fun t ht => by
        obtain ⟨hin, hfour, hlisted⟩ := h.owned t (hset ht).1
        refine ⟨mem_filter.mpr ⟨hin, ?_⟩, hfour, ?_⟩
        · rw [h.top _ hin hfour]
          exact (hset ht).2
        · exact hlisted.imp_left fun hlisted =>
            (mem_cons.mp hlisted).resolve_left (hset ht).2 }

/-! ## All spaces -/

omit h in
theorem nodup_roots (h : Ledger bg roots T pending k) : roots.Nodup := by
  rw [nodup_iff_count_le_one]
  intro r
  by_cases hr : r ∈ roots
  · have hcount := h.counted r
    rw [h.single r (h.root r hr).1] at hcount
    omega
  · rw [count_eq_zero.mpr hr]
    exact Nat.zero_le 1

theorem count_frames_of_subset {l : List ℕ} (hl : l.Nodup) (hsub : ∀ r ∈ l, r ∈ roots) (f : ℕ) :
    (l.flatMap (spaceFrames k.mem)).count f =
      (∑ t ∈ T.set with T.owner t ∈ l, (T.kids k.mem t).count f) + l.count f := by
  induction l with
  | nil => simp
  | cons r l ih =>
    obtain ⟨hr, hl⟩ := nodup_cons.mp hl
    have hsplit : {t ∈ T.set | T.owner t ∈ r :: l} =
        {t ∈ T.set | T.owner t = r} ∪ {t ∈ T.set | T.owner t ∈ l} := by
      simp only [mem_cons, filter_or]
    have hdisjoint : Disjoint {t ∈ T.set | T.owner t = r} {t ∈ T.set | T.owner t ∈ l} := by
      rw [disjoint_filter]
      rintro t - rfl
      exact hr
    have hone : (r :: l).count f = [r].count f + l.count f := by
      rw [← count_append, singleton_append]
    rw [flatMap_cons, count_append, h.count_spaceFrames (hsub r mem_cons_self),
      ih hl fun r' hr' => hsub r' (mem_cons_of_mem r hr'), hsplit,
      sum_union hdisjoint, hone]
    omega

theorem counted_frames (f : ℕ) :
    k.frames.refs f = bg.others f + (roots.flatMap (spaceFrames k.mem)).count f := by
  have hall : {t ∈ T.set | T.owner t ∈ roots} = T.set :=
    filter_true_of_mem fun t ht => (h.owned t ht).2.2.resolve_right not_mem_nil
  rw [h.count_frames_of_subset h.nodup_roots (fun _ hr => hr), hall, h.counted, count_nil,
    Tables.refers]
  omega

end

theorem notMem_frames (h : Ledger bg roots T pending k) (ht : t ∈ T.set)
    (hpending : t ∈ pending) : t ∉ roots.flatMap (spaceFrames k.mem) := by
  have hcount := h.counted t
  have hpos := count_pos_iff.mpr hpending
  rw [h.single t ht] at hcount
  intro hin
  obtain ⟨r, hr, hin⟩ := mem_flatMap.mp hin
  obtain ⟨hmem, hfour⟩ := h.root r hr
  rcases mem_append.mp hin with hin | hin
  · rw [h.framesBelow_eq hmem hfour] at hin
    obtain ⟨u, hu, hkid⟩ := h.exists_of_mem_below hmem hfour hin
    have := Tables.one_le_refers hu hkid
    omega
  · have := count_pos_iff.mpr (mem_singleton.mp hin ▸ hr)
    omega

end Ledger

end IonaOs.Process
