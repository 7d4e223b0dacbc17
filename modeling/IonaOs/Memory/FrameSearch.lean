import IonaOs.Memory.FrameOwners

/-!
# What the frame allocator finds and counts
-/

namespace IonaOs.Memory

open Lib RawBitmapAllocator Finset
open FrameAllocator hiding freeFrame

def Usable (memRegions : List MemoryRegion) (f : ℕ) : Prop :=
  ∃ r ∈ memRegions, r.kind = .usable ∧ r.start.toNat ≤ f * Constants.pageSize ∧
    (f + 1) * Constants.pageSize ≤ r.stop.toNat
deriving Decidable

section Map

variable (cfg : FrameConfig) (memRegions : List MemoryRegion)

/-- The frames that have a bit of their own: `with_max_frames` caps the configuration. -/
def frameLimit : ℕ := min cfg.maxFrames Constants.maxFrames

def openFrames : Finset ℕ :=
  (listedFrames memRegions (frameLimit cfg)).toFinset.filter (¬ Reserved cfg ·)

def usableFrames : Finset ℕ :=
  (range (frameLimit cfg)).filter fun f => Usable memRegions f ∧ ¬ Reserved cfg f

/-- `total_frames`: the listed frames, as often as they are listed. -/
def listedCount : ℕ := (listedFrames memRegions (frameLimit cfg)).length

variable {cfg memRegions} {f : ℕ}

theorem mem_listedFrames_of_usable (h : Usable memRegions f) {max : ℕ} (hf : f < max) :
    f ∈ listedFrames memRegions max := by
  obtain ⟨r, hr, hkind, hstart, hstop⟩ := h
  simp only [listedFrames, List.mem_filter, List.mem_flatMap, decide_eq_true_eq]
  refine ⟨⟨r, hr, ?_⟩, hf⟩
  simp only [hkind, ne_eq, not_true_eq_false, if_false, MemoryRegion.frames, List.mem_range'_1,
    Constants.pageSize] at hstart hstop ⊢
  omega

theorem lt_of_mem_listedFrames {max : ℕ} (h : f ∈ listedFrames memRegions max) : f < max := by
  simpa using (List.mem_filter.mp h).2

theorem mem_openFrames : f ∈ openFrames cfg memRegions ↔
    f ∈ listedFrames memRegions (frameLimit cfg) ∧ ¬ Reserved cfg f := by
  simp [openFrames]

theorem usableFrames_subset : usableFrames cfg memRegions ⊆ openFrames cfg memRegions := by
  intro f hf
  simp only [usableFrames, mem_filter, mem_range] at hf
  exact mem_openFrames.mpr ⟨mem_listedFrames_of_usable hf.2.1 hf.1, hf.2.2⟩

theorem mem_usableFrames_of_open (h : f ∈ openFrames cfg memRegions)
    (hu : Usable memRegions f) : f ∈ usableFrames cfg memRegions := by
  obtain ⟨hlist, hres⟩ := mem_openFrames.mp h
  exact mem_filter.mpr ⟨mem_range.mpr (lt_of_mem_listedFrames hlist), hu, hres⟩

end Map

/-! ## Runs of allocations and frees -/

namespace Owners

def Plain (s : Owners) : Call → Prop
  | .incRef _ => False
  | .freeFrame f => 0 < s.holders f
  | .allocateOne | .markHeapReady => True

/-- The bitmap, where the frames `F` are open to the search and it ends at `n`. -/
structure Searched (F : Finset ℕ) (n : ℕ) (b : RawBitmapAllocator) : Prop where
  limit : ∀ f ∈ F, f < b.maxFrames
  total : b.totalFrames = n
  isOpen : ∀ f, b.isFree f = true → f ∈ F
  far : ∀ f ∈ F, n ≤ f → b.isFree f = true
  used : b.usedFrames + (F.filter (b.isFree ·)).card = F.card

structure Kept (F : Finset ℕ) (n : ℕ) (s : Owners) : Prop where
  valid : s.Valid
  bits : Searched F n s.allocator.bitmap
  held : ∀ f, 0 < s.holders f → s.holders f = 1 ∧ f ∈ F ∧ f < n ∧
    s.allocator.bitmap.isFree f = false

variable {F : Finset ℕ} {n : ℕ} {b : RawBitmapAllocator}
variable {cfg : FrameConfig} {memRegions : List MemoryRegion} {s : Owners} {f : ℕ}

section Start

variable {a : FrameAllocator} (hnew : new cfg = some a)

include hnew

theorem new_eq : a.bitmap = .withMaxFrames cfg.maxFrames ∧ a.config = cfg := by
  unfold new at hnew
  split at hnew
  · cases hnew
  · cases hnew
    exact ⟨rfl, rfl⟩

theorem isFree_start_iff :
    (start (a.init memRegions)).allocator.bitmap.isFree f = true ↔
      f ∈ openFrames cfg memRegions := by
  obtain ⟨hbit, hconfig⟩ := new_eq hnew
  have hfree := (init_spec memRegions a.config a.bitmap).2.2.2 f
  rw [hbit, hconfig] at hfree
  simp only [start, FrameAllocator.init, hbit, hconfig, mem_openFrames]
  exact hfree

theorem usedFrames_start : (start (a.init memRegions)).allocator.bitmap.usedFrames = 0 := by
  refine (init_spec memRegions a.config a.bitmap).2.1.trans ?_
  rw [(new_eq hnew).1]
  rfl

theorem kept_start (memRegions : List MemoryRegion) :
    Kept (openFrames cfg memRegions) (listedCount cfg memRegions)
      (start (a.init memRegions)) := by
  obtain ⟨hbit, -⟩ := new_eq hnew
  obtain ⟨hmax, -, htotal, -⟩ := init_spec memRegions a.config a.bitmap
  refine ⟨(exact_start hnew memRegions).valid, ⟨fun f hf => ?_, ?_, fun f =>
    (isFree_start_iff hnew).mp, fun f hf _ => (isFree_start_iff hnew).mpr hf, ?_⟩, by simp [start]⟩
  · refine (lt_of_mem_listedFrames (mem_openFrames.mp hf).1).trans_eq (Eq.trans ?_ hmax.symm)
    rw [hbit]
    rfl
  · refine htotal.trans ?_
    rw [hbit]
    rfl
  · rw [usedFrames_start hnew, Nat.zero_add, filter_true_of_mem fun f hf => ?_]
    exact (isFree_start_iff hnew).mpr hf

end Start

theorem card_filter_take (hf : f ∈ F) (hfree : b.isFree f = true) :
    (F.filter ((b.take f).isFree ·)).card + 1 = (F.filter (b.isFree ·)).card := by
  have herase : F.filter ((b.take f).isFree ·) = (F.filter (b.isFree ·)).erase f := by
    ext g
    by_cases hgf : g = f
    · simp [hgf, isFree_take]
    · simp [hgf, isFree_take]
  rw [herase]
  exact card_erase_add_one (mem_filter.mpr ⟨hf, hfree⟩)

theorem card_filter_freeFrame (hf : f ∈ F) (hlt : f < b.maxFrames) (hused : b.isFree f = false) :
    (F.filter ((b.freeFrame f).isFree ·)).card = (F.filter (b.isFree ·)).card + 1 := by
  have hinsert : F.filter ((b.freeFrame f).isFree ·) = insert f (F.filter (b.isFree ·)) := by
    ext g
    by_cases hgf : g = f
    · simp [hgf, isFree_freeFrame, hlt, hf]
    · simp [hgf, isFree_freeFrame]
  rw [hinsert]
  exact card_insert_of_notMem (by simp [hused])

theorem Searched.take (h : Searched F n b) (hfree : b.isFree f = true) (hlt : f < n) :
    Searched F n (b.take f) := by
  refine ⟨by simpa using h.limit, by simpa using h.total, fun g hg => ?_, fun g hg hfar => ?_, ?_⟩
  · rw [isFree_take] at hg
    split at hg
    · cases hg
    · exact h.isOpen g hg
  · rw [isFree_take, if_neg (by omega)]
    exact h.far g hg hfar
  · have hcard := card_filter_take (h.isOpen f hfree) hfree
    have hused : (b.take f).usedFrames = b.usedFrames + 1 := rfl
    have hbefore := h.used
    omega

theorem Searched.freeFrame (h : Searched F n b) (hf : f ∈ F) (hlt : f < n)
    (hfree : b.isFree f = false) : Searched F n (b.freeFrame f) := by
  refine ⟨by simpa using h.limit, by simpa using h.total, fun g hg => ?_, fun g hg hfar => ?_, ?_⟩
  · rw [isFree_freeFrame] at hg
    by_cases hgf : g = f
    · exact hgf ▸ hf
    · exact h.isOpen g (by simpa [hgf] using hg)
  · rw [isFree_freeFrame, if_neg (by omega)]
    exact h.far g hg hfar
  · have hcard := card_filter_freeFrame hf (h.limit f hf) hfree
    have hused : (b.freeFrame f).usedFrames = b.usedFrames - 1 := by
      simp only [RawBitmapAllocator.freeFrame, if_pos (h.limit f hf)]
    have hsome : (F.filter (b.isFree ·)).card < F.card := by
      refine card_lt_card (filter_ssubset.mpr ⟨f, hf, ?_⟩)
      simp [hfree]
    have hbefore := h.used
    omega

namespace Kept

section

variable (h : Kept F n s)
include h

theorem allocateOne : Kept F n (s.step .allocateOne) := by
  have hvalid := h.valid.step .allocateOne
  rcases step_allocateOne_cases h.valid.allocator with hnone | ⟨f, hf, hres, hsome⟩
  · rwa [hnone]
  have hbit := bitmap_allocateOne h.valid.allocator hres
  have hlt : f < n := h.bits.total ▸ hf.2
  rw [hsome] at hvalid ⊢
  refine ⟨hvalid, ?_, fun g hg => ?_⟩
  · rw [hbit]
    exact h.bits.take hf.1 hlt
  by_cases hgf : g = f
  · -- The frame was free, so nobody held it.
    have hzero : s.holders f = 0 := by
      by_contra hne
      have := (h.held f (Nat.pos_of_ne_zero hne)).2.2.2
      rw [hf.1] at this
      cases this
    subst hgf
    simp [hzero, h.bits.isOpen g hf.1, hlt, hbit, isFree_take]
  · have hkeep := h.held g (by simpa [hgf] using hg)
    simpa [hgf, hbit, isFree_take] using hkeep

theorem freeFrame (hf : 0 < s.holders f) : Kept F n (s.step (.freeFrame f)) := by
  obtain ⟨hone, hopen, hlt, hfree⟩ := h.held f hf
  have hbit := bitmap_freeFrame (f := f) h.valid.allocator.initialised
  have hrest : ∀ g, 0 < (s.step (.freeFrame f)).holders g → g ≠ f ∧ 0 < s.holders g := by
    intro g hg
    by_cases hgf : g = f
    · simp [Owners.step, hgf, hone] at hg
    · exact ⟨hgf, by simpa [Owners.step, hgf] using hg⟩
  refine ⟨h.valid.step _, ?_, fun g hg => ?_⟩
  · simp only [Owners.step, hbit]
    split
    · exact h.bits.freeFrame hopen hlt hfree
    · -- The frame stays as it is, and nobody holds it any more.
      exact h.bits
  · obtain ⟨hgf, hpos⟩ := hrest g hg
    have hkeep := h.held g hpos
    simp only [Owners.step, hbit, Function.update_of_ne hgf]
    split
    · simpa [isFree_freeFrame, hgf] using hkeep
    · exact hkeep

theorem step {call : Call} (hcall : s.Plain call) : Kept F n (s.step call) := by
  cases call with
  | allocateOne => exact h.allocateOne
  | incRef => exact absurd hcall id
  | freeFrame => exact h.freeFrame hcall
  | markHeapReady => exact ⟨h.valid.step .markHeapReady, h.bits, h.held⟩

theorem exec {calls : List Call} (hcalls : Along Owners.step Plain s calls) :
    Kept F n (exec Owners.step s calls) :=
  hcalls.invariant h fun _ _ hs hcall => hs.step hcall

end

end Kept

/-! ## Allocating everything -/

theorem allocator_exec_replicate (s : Owners) (n : ℕ) :
    (exec Owners.step s (List.replicate n .allocateOne)).allocator =
      (fun a => a.allocateOne.2)^[n] s.allocator := by
  induction n generalizing s with
  | zero => rfl
  | succ n ih =>
    rw [List.replicate_succ, exec_cons, ih, Function.iterate_succ_apply]
    congr 1
    simp only [Owners.step]
    split <;> rename_i heq <;> rw [heq]

theorem plain_replicate (s : Owners) (n : ℕ) :
    Along Owners.step Plain s (List.replicate n .allocateOne) := by
  induction n generalizing s with
  | zero => trivial
  | succ n ih => exact ⟨trivial, ih _⟩

theorem exists_exhausted (h : Kept F n s) :
    ∃ n, (exec Owners.step s (List.replicate n .allocateOne)).allocator.allocateOne.1 =
      .error .outOfFrames := by
  induction hk : (F.filter (s.allocator.bitmap.isFree ·)).card using
    Nat.strong_induction_on generalizing s with
  | _ k ih =>
    rcases allocateOne_cases h.valid.allocator with ⟨hnone, -⟩ | ⟨f, hf, hsome⟩
    · exact ⟨0, by simp [hnone]⟩
    have hbit := bitmap_allocateOne (f := f) h.valid.allocator (by rw [hsome])
    have hstep : (s.step .allocateOne).allocator = s.allocator.allocateOne.2 := by
      simpa using allocator_exec_replicate s 1
    have hcard := card_filter_take (h.bits.isOpen f hf.1) hf.1
    rw [← hbit, ← hstep] at hcard
    obtain ⟨n, hn⟩ := ih _ (by omega) h.allocateOne rfl
    exact ⟨n + 1, by rwa [List.replicate_succ, exec_cons]⟩

def Reached (a : FrameAllocator) (memRegions : List MemoryRegion) (s : Owners) : Prop :=
  ∃ calls, Along Owners.step Plain (start (a.init memRegions)) calls ∧
    s = exec Owners.step (start (a.init memRegions)) calls

theorem reached_replicate (a : FrameAllocator) (memRegions : List MemoryRegion) (n : ℕ) :
    Reached a memRegions
      (exec Owners.step (start (a.init memRegions)) (List.replicate n .allocateOne)) :=
  ⟨_, plain_replicate _ n, rfl⟩

theorem Reached.step {a : FrameAllocator} (h : Reached a memRegions s) {call : Call}
    (hcall : s.Plain call) : Reached a memRegions (s.step call) := by
  obtain ⟨calls, hcalls, rfl⟩ := h
  refine ⟨calls ++ [call], ?_, by rw [exec_append]; rfl⟩
  rw [along_append]
  exact ⟨hcalls, hcall, trivial⟩

def clearCount (cfg : FrameConfig) (memRegions : List MemoryRegion) (s : Owners) : ℕ :=
  ((range (frameLimit cfg)).filter fun f =>
    Usable memRegions f ∧ s.allocator.bitmap.isFree f = true).card

theorem clearCount_eq (h : Kept (openFrames cfg memRegions) n s) : clearCount cfg memRegions s =
    ((usableFrames cfg memRegions).filter (s.allocator.bitmap.isFree ·)).card := by
  unfold clearCount
  congr 1
  ext f
  simp only [usableFrames, mem_filter, mem_range]
  constructor
  · rintro ⟨hlt, hu, hfree⟩
    exact ⟨⟨hlt, hu, (mem_openFrames.mp (h.bits.isOpen f hfree)).2⟩, hfree⟩
  · rintro ⟨⟨hlt, hu, -⟩, hfree⟩
    exact ⟨hlt, hu, hfree⟩

section Start

variable {a : FrameAllocator} (hnew : new cfg = some a)

include hnew

theorem Reached.kept (h : Reached a memRegions s) :
    Kept (openFrames cfg memRegions) (listedCount cfg memRegions) s := by
  obtain ⟨calls, hcalls, rfl⟩ := h
  exact (kept_start hnew memRegions).exec hcalls

theorem Reached.used_le (h : Reached a memRegions s) :
    s.allocator.bitmap.usedFrames ≤ s.allocator.bitmap.totalFrames := by
  have hkept := h.kept hnew
  have hcard : (openFrames cfg memRegions).card ≤ listedCount cfg memRegions :=
    (card_filter_le _ _).trans (List.toFinset_card_le _)
  have hused := hkept.bits.used
  rw [hkept.bits.total]
  omega

theorem complete_iff :
    (∀ s, Reached a memRegions s → s.allocator.allocateOne.1 = .error .outOfFrames →
      ∀ f, Usable memRegions f → ¬ Reserved cfg f → s.allocator.bitmap.isFree f = false) ↔
    ∀ f ∈ usableFrames cfg memRegions, f < listedCount cfg memRegions := by
  constructor
  · intro hcomplete f hf
    by_contra hfar
    obtain ⟨n, hn⟩ := exists_exhausted (kept_start hnew memRegions)
    have hreached := reached_replicate a memRegions n
    obtain ⟨-, hu, hres⟩ := mem_filter.mp hf
    have hfree := (hreached.kept hnew).bits.far f (usableFrames_subset hf) (Nat.not_lt.mp hfar)
    rw [hcomplete _ hreached hn f hu hres] at hfree
    cases hfree
  · intro hall s hs hnone f hu hres
    have hkept := hs.kept hnew
    by_contra hfree
    rw [Bool.not_eq_false] at hfree
    have hmem := mem_usableFrames_of_open (hkept.bits.isOpen f hfree) hu
    refine not_free_of_outOfFrames hkept.valid.allocator hnone ⟨hfree, ?_⟩
    rw [hkept.bits.total]
    exact hall f hmem

theorem exists_reached_returned (hf : f ∈ openFrames cfg memRegions)
    (hlt : f < listedCount cfg memRegions) :
    ∃ s, Reached a memRegions s ∧ s.allocator.allocateOne.1 = .ok f := by
  have hstart := kept_start hnew memRegions
  obtain ⟨n, hn⟩ := (allocatable_iff hstart.valid.allocator).mpr
    ⟨(isFree_start_iff hnew).mpr hf, hstart.bits.total ▸ hlt⟩
  exact ⟨_, reached_replicate a memRegions n, by rwa [allocator_exec_replicate]⟩

theorem returned_usable_iff :
    (∀ s, Reached a memRegions s → ∀ f, s.allocator.allocateOne.1 = .ok f →
      Usable memRegions f) ↔
    ∀ f ∈ openFrames cfg memRegions, f < listedCount cfg memRegions →
      Usable memRegions f := by
  constructor
  · intro hall f hf hlt
    obtain ⟨s, hs, hres⟩ := exists_reached_returned hnew hf hlt
    exact hall s hs f hres
  · intro hall s hs f hres
    have hkept := hs.kept hnew
    have hfree := free_of_allocateOne hkept.valid.allocator hres
    exact hall f (hkept.bits.isOpen f hfree.1) (hkept.bits.total ▸ hfree.2)

theorem count_of_card
    (hcard : listedCount cfg memRegions = (usableFrames cfg memRegions).card)
    (hcut : ∀ f ∈ openFrames cfg memRegions, f < listedCount cfg memRegions →
      Usable memRegions f) (hs : Reached a memRegions s) :
    s.allocator.stats.freeFrames = clearCount cfg memRegions s := by
  have hkept := hs.kept hnew
  -- The open frames that are not usable are behind the end of the search, and free.
  have hsplit : (openFrames cfg memRegions).filter (s.allocator.bitmap.isFree ·) =
      (usableFrames cfg memRegions).filter (s.allocator.bitmap.isFree ·) ∪
        (openFrames cfg memRegions \ usableFrames cfg memRegions) := by
    ext f
    simp only [mem_filter, mem_union, mem_sdiff]
    constructor
    · rintro ⟨hopen, hfree⟩
      by_cases hu : f ∈ usableFrames cfg memRegions
      · exact .inl ⟨hu, hfree⟩
      · exact .inr ⟨hopen, hu⟩
    · rintro (⟨hu, hfree⟩ | ⟨hopen, hnot⟩)
      · exact ⟨usableFrames_subset hu, hfree⟩
      · refine ⟨hopen, hkept.bits.far f hopen (Nat.not_lt.mp fun hlt => hnot ?_)⟩
        exact mem_usableFrames_of_open hopen (hcut f hopen hlt)
  have hdisj : Disjoint ((usableFrames cfg memRegions).filter (s.allocator.bitmap.isFree ·))
      (openFrames cfg memRegions \ usableFrames cfg memRegions) :=
    disjoint_of_subset_left (filter_subset _ _) disjoint_sdiff
  have hused := hkept.bits.used
  rw [hsplit, card_union_of_disjoint hdisj, ← clearCount_eq hkept] at hused
  have hsub : usableFrames cfg memRegions ⊆ openFrames cfg memRegions := usableFrames_subset
  have hsdiff := card_sdiff_add_card_eq_card hsub
  have htotal := hkept.bits.total
  simp only [stats]
  omega

theorem count_iff :
    (∀ s, Reached a memRegions s →
      s.allocator.stats.freeFrames = clearCount cfg memRegions s) ↔
    listedCount cfg memRegions = (usableFrames cfg memRegions).card ∧
      ∀ f ∈ openFrames cfg memRegions, f < listedCount cfg memRegions →
        Usable memRegions f := by
  constructor
  · intro hcount
    refine ⟨?_, ?_⟩
    · have hstart := kept_start hnew memRegions
      have hfirst := hcount _ ⟨[], trivial, rfl⟩
      rw [exec_nil, clearCount_eq hstart, filter_true_of_mem] at hfirst
      · rwa [stats, usedFrames_start hnew, Nat.sub_zero, hstart.bits.total] at hfirst
      · intro f hf
        exact (isFree_start_iff hnew).mpr (usableFrames_subset hf)
    intro f hf hlt
    by_contra hu
    -- Its allocation changes the one number and not the other.
    obtain ⟨s, hs, hres⟩ := exists_reached_returned hnew hf hlt
    have hplain : s.Plain .allocateOne := trivial
    have hs' := hs.step hplain
    have hkept := hs.kept hnew
    have hbit : (s.step .allocateOne).allocator.bitmap = s.allocator.bitmap.take f := by
      have hstep := allocator_exec_replicate s 1
      simp only [List.replicate_one, exec_cons, exec_nil, Function.iterate_one] at hstep
      rw [hstep, bitmap_allocateOne hkept.valid.allocator hres]
    have hclear : clearCount cfg memRegions (s.step .allocateOne) =
        clearCount cfg memRegions s := by
      unfold clearCount
      congr 1
      ext g
      by_cases hgf : g = f
      · simp [hgf, hu]
      · simp [hbit, isFree_take, hgf]
    have hafter := hcount _ hs'
    have hle := hs'.used_le hnew
    have htake : (s.allocator.bitmap.take f).usedFrames = s.allocator.bitmap.usedFrames + 1 := rfl
    simp only [stats, hclear, ← hcount s hs, hbit, totalFrames_take, htake] at hafter hle
    omega
  · rintro ⟨hcard, hcut⟩ s hs
    exact count_of_card hnew hcard hcut hs

end Start

/-- **The allocator finds every free frame, returns usable frames only and counts right, exactly if
the usable frames outside the reserved area are the first ones, without a gap, and as many as there
are frames listed.** -/
theorem search_sound_iff {a : FrameAllocator} (hnew : new cfg = some a)
    (memRegions : List MemoryRegion) :
    (∀ s, Reached a memRegions s →
      (s.allocator.allocateOne.1 = .error .outOfFrames → ∀ f, Usable memRegions f →
        ¬ Reserved cfg f → s.allocator.bitmap.isFree f = false) ∧
      (∀ f, s.allocator.allocateOne.1 = .ok f → Usable memRegions f) ∧
      s.allocator.bitmap.usedFrames ≤ s.allocator.bitmap.totalFrames ∧
      s.allocator.stats.freeFrames = clearCount cfg memRegions s) ↔
    usableFrames cfg memRegions = range (listedCount cfg memRegions) := by
  constructor
  · intro hall
    have hcomplete := (complete_iff hnew).mp fun s hs => (hall s hs).1
    have hcount := (count_iff hnew).mp fun s hs => (hall s hs).2.2.2
    refine eq_of_subset_of_card_le ?_ ?_
    · intro f hf
      exact mem_range.mpr (hcomplete f hf)
    · rw [card_range]
      exact hcount.1.le
  · intro heq
    have hcut : ∀ f ∈ openFrames cfg memRegions, f < listedCount cfg memRegions →
        Usable memRegions f := by
      intro f _ hlt
      have hf : f ∈ usableFrames cfg memRegions := heq ▸ mem_range.mpr hlt
      exact (mem_filter.mp hf).2.1
    intro s hs
    refine ⟨(complete_iff hnew).mpr ?_ s hs, (returned_usable_iff hnew).mpr hcut s hs,
      hs.used_le hnew, (count_iff hnew).mpr ⟨?_, hcut⟩ s hs⟩
    · intro f hf
      rw [heq] at hf
      exact mem_range.mp hf
    · rw [heq, card_range]

theorem search_sound_sample : ∃ a, new sampleConfig = some a ∧
    ∀ s, Reached a sampleMap s →
      (s.allocator.allocateOne.1 = .error .outOfFrames → ∀ f, Usable sampleMap f →
        ¬ Reserved sampleConfig f → s.allocator.bitmap.isFree f = false) ∧
      (∀ f, s.allocator.allocateOne.1 = .ok f → Usable sampleMap f) ∧
      s.allocator.bitmap.usedFrames ≤ s.allocator.bitmap.totalFrames ∧
      s.allocator.stats.freeFrames = clearCount sampleConfig sampleMap s := by
  have hnew : new sampleConfig = some _ := rfl
  exact ⟨_, hnew, (search_sound_iff hnew sampleMap).mpr (by decide +kernel)⟩

def highMap : List MemoryRegion := [⟨0x100000, 0x104000, .usable⟩]

/-- With the default configuration, none of these four frames is found. -/
theorem highMap_finds_nothing : ∃ a, new {} = some a ∧
    (a.init highMap).allocateOne.1 = .error .outOfFrames ∧
    Usable highMap 256 ∧ ¬ Reserved {} 256 ∧ (a.init highMap).bitmap.isFree 256 = true := by
  have hnew : new {} = some _ := rfl
  exact ⟨_, hnew, by decide +kernel, by decide +kernel, by decide +kernel, by decide +kernel⟩

end Owners

end IonaOs.Memory
