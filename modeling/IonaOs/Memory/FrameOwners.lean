import IonaOs.Lib.Run
import IonaOs.Memory.FrameAlloc

/-!
# Who holds a frame
-/

namespace IonaOs.Memory

open Lib RawBitmapAllocator Function Refcounts Finset FrameAllocator

inductive Call where
  | allocateOne
  | incRef (frame : ℕ)
  | freeFrame (frame : ℕ)
  | markHeapReady

/-! ## The allocator -/

namespace FrameAllocator

variable {a : FrameAllocator} {f g : ℕ}

variable (a : FrameAllocator)

def refs (f : ℕ) : ℕ :=
  if a.refcounts.heapReady then (a.refcounts.counts.getD f 0).toNat else 1

def Allocatable (f : ℕ) : Prop :=
  ∃ n, (allocateOne ((fun a => (allocateOne a).2)^[n] a)).1 = .ok f

structure Valid : Prop where
  initialised : a.initialised = true
  hint : a.bitmap.HintInRange
  length : a.refcounts.heapReady = true → a.refcounts.counts.length = a.bitmap.maxFrames

def Free (f : ℕ) : Prop :=
  a.bitmap.isFree f = true ∧ f < a.bitmap.totalFrames

variable {a}

section

variable (h : a.Valid)
include h

theorem allocateOne_cases : (a.allocateOne = (.error .outOfFrames, a) ∧ ∀ f, ¬ a.Free f) ∨
      ∃ f, a.Free f ∧ a.allocateOne = (.ok f, { a with
        bitmap := a.bitmap.take f
        allocations := a.allocations + 1
        refcounts := a.refcounts.setOne f }) := by
  unfold allocateOne
  rw [h.initialised]
  rcases allocFrame_cases h.hint with ⟨hnone, hfull⟩ | ⟨i, hi, hfree, hsome⟩
  · refine .inl ⟨by simp [hnone], ?_⟩
    rintro f ⟨hfree, hlt⟩
    rw [hfull f hlt] at hfree
    cases hfree
  · exact .inr ⟨i, ⟨hfree, hi⟩, by simp [hsome]⟩

theorem free_of_allocateOne (hres : a.allocateOne.1 = .ok f) : a.Free f := by
  rcases allocateOne_cases h with ⟨hnone, -⟩ | ⟨f', hf, hsome⟩
  · rw [hnone] at hres
    cases hres
  · rw [hsome] at hres
    cases hres
    exact hf

theorem not_free_of_outOfFrames (hres : a.allocateOne.1 = .error .outOfFrames) : ¬ a.Free f := by
  rcases allocateOne_cases h with ⟨-, hfull⟩ | ⟨f', -, hsome⟩
  · exact hfull f
  · rw [hsome] at hres
    cases hres

theorem bitmap_allocateOne (hres : a.allocateOne.1 = .ok f) :
    a.allocateOne.2.bitmap = a.bitmap.take f := by
  rcases allocateOne_cases h with ⟨hnone, -⟩ | ⟨f', -, hsome⟩
  · rw [hnone] at hres
    cases hres
  · rw [hsome] at hres ⊢
    cases hres
    rfl

omit h in
theorem heapReady_setOne (r : Refcounts) : (r.setOne f).heapReady = r.heapReady := by
  unfold setOne
  split <;> rfl

omit h in
theorem length_setOne (r : Refcounts) : (r.setOne f).counts.length = r.counts.length := by
  unfold setOne
  split
  · exact List.length_set
  · rfl

theorem Valid.allocateOne : a.allocateOne.2.Valid := by
  rcases allocateOne_cases h with ⟨hnone, -⟩ | ⟨f, hf, hsome⟩
  · rwa [hnone]
  rw [hsome]
  refine ⟨h.initialised, hintInRange_take hf.2, ?_⟩
  intro hready
  rw [heapReady_setOne] at hready
  rw [length_setOne, maxFrames_take]
  exact h.length hready

theorem free_allocateOne : a.allocateOne.2.Free g ↔ a.Free g ∧ a.allocateOne.1 ≠ .ok g := by
  rcases allocateOne_cases h with ⟨hnone, hfull⟩ | ⟨f, hf, hsome⟩
  · simp [hnone]
  rw [hsome]
  unfold Free
  rw [isFree_take, totalFrames_take]
  by_cases hgf : g = f
  · simp [hgf]
  · simp [hgf, Ne.symm hgf]

theorem allocatable_iff : a.Allocatable f ↔ a.Free f := by
  constructor
  · rintro ⟨n, hn⟩
    induction n generalizing a with
    | zero => exact free_of_allocateOne h hn
    | succ n ih =>
      rw [iterate_succ_apply] at hn
      exact ((free_allocateOne h).mp (ih h.allocateOne hn)).1
  -- Each allocation takes a free frame, so `f` is reached before they are used up.
  intro hf
  induction hk : ((range a.bitmap.totalFrames).filter (a.bitmap.isFree ·)).card using
    Nat.strong_induction_on generalizing a with
  | _ k ih =>
    rcases allocateOne_cases h with ⟨-, hfull⟩ | ⟨g, hg, hsome⟩
    · exact absurd hf (hfull f)
    by_cases hgf : g = f
    · subst hgf
      exact ⟨0, by simp [hsome]⟩
    have hrest : a.allocateOne.2.Free f := by
      rw [free_allocateOne h, hsome]
      exact ⟨hf, by simpa using hgf⟩
    have hsub : (range a.allocateOne.2.bitmap.totalFrames).filter
        (a.allocateOne.2.bitmap.isFree ·) ⊂
        (range a.bitmap.totalFrames).filter (a.bitmap.isFree ·) := by
      rw [hsome]
      refine ssubset_iff_of_subset ?_ |>.mpr ⟨g, ?_, ?_⟩
      · intro i hi
        simp only [totalFrames_take, isFree_take, mem_filter, mem_range] at hi ⊢
        refine ⟨hi.1, ?_⟩
        by_contra hne
        simp [hne] at hi
      · exact mem_filter.mpr ⟨mem_range.mpr hg.2, hg.1⟩
      · simp [isFree_take]
    obtain ⟨n, hn⟩ := ih _ (hk ▸ card_lt_card hsub) h.allocateOne hrest rfl
    exact ⟨n + 1, by rwa [iterate_succ_apply]⟩

end

theorem incRef_cases (a : FrameAllocator) (f : ℕ) :
    (∃ e, a.incRef f = (.error e, a) ∧ a.refcounts.heapReady = true ∧
        a.refcounts.counts.length ≤ f) ∨
      ∃ r, a.incRef f = (.ok (), { a with refcounts := r }) ∧
        r.heapReady = a.refcounts.heapReady ∧ r.counts.length = a.refcounts.counts.length := by
  cases hready : a.refcounts.heapReady with
  | false => exact .inr ⟨a.refcounts, by simp [incRef, Refcounts.incRef, hready], hready, rfl⟩
  | true =>
    cases hc : a.refcounts.counts[f]? with
    | none =>
      refine .inl ⟨.invalidFrameIndex f a.refcounts.counts.length, ?_, rfl, ?_⟩
      · simp [incRef, Refcounts.incRef, hready, hc]
      · exact List.getElem?_eq_none_iff.mp hc
    | some c =>
      refine .inr ⟨{ a.refcounts with counts := a.refcounts.counts.set f (c + 1) }, ?_, hready,
        List.length_set⟩
      simp [incRef, Refcounts.incRef, hready, hc]

theorem free_incRef (a : FrameAllocator) (f g : ℕ) : (a.incRef f).2.Free g ↔ a.Free g := by
  rcases incRef_cases a f with ⟨e, herr, -⟩ | ⟨r, hok, -⟩
  · rw [herr]
  · rw [hok]
    rfl

theorem Valid.incRef (h : a.Valid) : (a.incRef f).2.Valid := by
  rcases incRef_cases a f with ⟨e, herr, -⟩ | ⟨r, hok, hready, hlen⟩
  · rwa [herr]
  rw [hok]
  refine ⟨h.initialised, h.hint, ?_⟩
  intro hr
  exact hlen.trans (h.length (hready ▸ hr))

theorem bitmap_freeFrame (h : a.initialised = true) :
    (a.freeFrame f).2.bitmap = if a.refs f = 1 then a.bitmap.freeFrame f else a.bitmap := by
  cases hready : a.refcounts.heapReady with
  | false => simp [freeFrame, h, decRef, refs, hready]
  | true =>
    cases hc : a.refcounts.counts[f]? with
    | none => simp [freeFrame, h, decRef, refs, hready, hc]
    | some c =>
      have hone : c.toNat = 1 ↔ c = 1 := by
        rw [← UInt32.toNat_inj]
        rfl
      by_cases hzero : c = 0
      · simp [freeFrame, h, decRef, refs, hready, hc, hzero]
      have hlast : c - 1 = 0 ↔ c = 1 := sub_eq_zero
      by_cases hc1 : c = 1
      · simp [freeFrame, h, decRef, refs, hready, hc, hc1]
      · simp [freeFrame, h, decRef, refs, hready, hc, hzero, hone, hlast, hc1]

theorem refcounts_freeFrame (h : a.initialised = true) :
    (a.freeFrame f).2.initialised = true ∧
      (a.freeFrame f).2.refcounts.heapReady = a.refcounts.heapReady ∧
      (a.freeFrame f).2.refcounts.counts.length = a.refcounts.counts.length := by
  cases hready : a.refcounts.heapReady with
  | false => simp [freeFrame, h, decRef, hready]
  | true =>
    cases hc : a.refcounts.counts[f]? with
    | none => simp [freeFrame, h, decRef, hready, hc]
    | some c =>
      by_cases hzero : c = 0
      · simp [freeFrame, h, decRef, hready, hc, hzero]
      · by_cases hlast : c - 1 = 0
        · simp [freeFrame, h, decRef, hready, hc, hzero, hlast]
        · simp [freeFrame, h, decRef, hready, hc, hzero, hlast]

theorem Valid.freeFrame (h : a.Valid) : (a.freeFrame f).2.Valid := by
  have hbit := bitmap_freeFrame (f := f) h.initialised
  obtain ⟨hinit, hready, hlen⟩ := refcounts_freeFrame (f := f) h.initialised
  refine ⟨hinit, ?_, ?_⟩
  · rw [hbit]
    split
    · exact hintInRange_freeFrame h.hint
    · exact h.hint
  · intro hr
    rw [hlen, h.length (hready ▸ hr), hbit]
    split
    · exact maxFrames_freeFrame.symm
    · rfl

def InRange (a : FrameAllocator) (f : ℕ) : Prop :=
  f < a.bitmap.maxFrames ∧ f < a.bitmap.totalFrames

theorem Free.inRange (h : a.Free f) : a.InRange f := ⟨lt_of_isFree h.1, h.2⟩

theorem free_freeFrame (h : a.Valid) :
    (a.freeFrame f).2.Free g ↔ if g = f ∧ a.refs f = 1 then a.InRange f else a.Free g := by
  unfold Free
  rw [bitmap_freeFrame h.initialised]
  by_cases hrefs : a.refs f = 1
  · rw [if_pos hrefs, isFree_freeFrame, totalFrames_freeFrame]
    by_cases hgf : g = f
    · simp [hgf, hrefs, InRange]
    · simp [hgf]
  · simp [hrefs]

theorem Valid.markHeapReady (h : a.Valid) : a.markHeapReady.Valid := by
  refine ⟨h.initialised, h.hint, ?_⟩
  intro _
  exact (List.length_replicate).trans (Nat.min_eq_left a.bitmap.maxFrames_le)

theorem valid_init (memRegions : List MemoryRegion) : (a.init memRegions).refcounts = {} →
    (a.init memRegions).Valid := by
  intro h
  refine ⟨rfl, hintInRange_init memRegions a.config a.bitmap, ?_⟩
  intro hready
  rw [h] at hready
  cases hready

end FrameAllocator

/-! ## Holders -/

structure Owners where
  allocator : FrameAllocator
  holders : ℕ → ℕ
  handedOut : ℕ → Bool

namespace Owners

def step (s : Owners) : Call → Owners
  | .allocateOne =>
    match s.allocator.allocateOne with
    | (.ok f, allocator) =>
      { allocator
        holders := update s.holders f (s.holders f + 1)
        handedOut := update s.handedOut f true }
    | (.error _, allocator) => { s with allocator }
  | .incRef f =>
    match s.allocator.incRef f with
    | (.ok (), allocator) =>
      { s with allocator, holders := update s.holders f (s.holders f + 1) }
    | (.error _, allocator) => { s with allocator }
  | .freeFrame f =>
    { s with
      allocator := (s.allocator.freeFrame f).2
      holders := update s.holders f (s.holders f - 1) }
  | .markHeapReady => { s with allocator := s.allocator.markHeapReady }

def start (allocator : FrameAllocator) : Owners := ⟨allocator, fun _ => 0, fun _ => false⟩

def Disciplined (s : Owners) : Call → Prop
  | .freeFrame f => 0 < s.holders f
  | _ => True

instance (s : Owners) : ∀ call, Decidable (s.Disciplined call)
  | .freeFrame _ => inferInstanceAs (Decidable (0 < _))
  | .allocateOne | .incRef _ | .markHeapReady => inferInstanceAs (Decidable True)

def Owned (s : Owners) : Prop :=
  ∀ f, (0 < s.holders f → ¬ s.allocator.Allocatable f) ∧
    (s.handedOut f = true → s.holders f = 0 → s.allocator.Allocatable f)

/-- `inc_ref` is for frames that cannot be allocated, and at a release the count is one exactly for
the last holder. -/
def Counted (s : Owners) : Call → Prop
  | .incRef f => ¬ s.allocator.Allocatable f
  | .freeFrame f =>
    (s.allocator.InRange f → s.allocator.refs f = 1 → s.holders f = 1) ∧
      (s.handedOut f = true → s.holders f = 1 → s.allocator.refs f = 1)
  | _ => True

structure Valid (s : Owners) : Prop where
  allocator : s.allocator.Valid
  inRange : ∀ f, s.handedOut f = true → s.allocator.InRange f

variable {s : Owners}

theorem owned_iff_free (h : s.allocator.Valid) :
    s.Owned ↔ ∀ f, (0 < s.holders f → ¬ s.allocator.Free f) ∧
      (s.handedOut f = true → s.holders f = 0 → s.allocator.Free f) := by
  simp only [Owned, allocatable_iff h]

theorem step_allocateOne_cases (h : s.allocator.Valid) :
    s.step .allocateOne = s ∨ ∃ f, s.allocator.Free f ∧ s.allocator.allocateOne.1 = .ok f ∧
      s.step .allocateOne =
        { allocator := s.allocator.allocateOne.2
          holders := update s.holders f (s.holders f + 1)
          handedOut := update s.handedOut f true } := by
  rcases allocateOne_cases h with ⟨hnone, -⟩ | ⟨f, hf, hsome⟩
  · exact .inl (by simp [step, hnone])
  · exact .inr ⟨f, hf, by rw [hsome], by simp only [step, hsome]⟩

theorem step_incRef_cases (h : s.allocator.Valid) (f : ℕ) :
    (s.step (.incRef f) = s ∧ ¬ s.allocator.Free f) ∨
      s.step (.incRef f) =
        { s with
          allocator := (s.allocator.incRef f).2
          holders := update s.holders f (s.holders f + 1) } ∧
        (s.allocator.incRef f).2.bitmap = s.allocator.bitmap := by
  rcases incRef_cases s.allocator f with ⟨e, herr, hready, hlen⟩ | ⟨r, hok, -⟩
  · refine .inl ⟨by simp [step, herr], ?_⟩
    intro hfree
    have hlt := hfree.inRange.1
    rw [h.length hready] at hlen
    omega
  · exact .inr ⟨by simp only [step, hok], by rw [hok]⟩

theorem Valid.step (hs : s.Valid) (call : Call) : (s.step call).Valid := by
  cases call with
  | allocateOne =>
    rcases step_allocateOne_cases hs.allocator with hnone | ⟨f, hf, hres, hsome⟩
    · rwa [hnone]
    rw [hsome]
    refine ⟨hs.allocator.allocateOne, ?_⟩
    intro g hg
    have hrange : s.allocator.InRange g := by
      by_cases hgf : g = f
      · exact hgf ▸ hf.inRange
      · exact hs.inRange g (by simpa [hgf] using hg)
    simpa [InRange, bitmap_allocateOne hs.allocator hres] using hrange
  | incRef f =>
    rcases step_incRef_cases hs.allocator f with ⟨hsame, -⟩ | ⟨hstep, hbit⟩
    · rwa [hsame]
    rw [hstep]
    refine ⟨hs.allocator.incRef, ?_⟩
    intro g hg
    have hrange := hs.inRange g hg
    simpa only [InRange, hbit] using hrange
  | freeFrame =>
    refine ⟨hs.allocator.freeFrame, ?_⟩
    intro g hg
    have hrange := hs.inRange g hg
    simp only [Owners.step, InRange, bitmap_freeFrame hs.allocator.initialised]
    split
    · simpa [InRange] using hrange
    · exact hrange
  | markHeapReady => exact ⟨hs.allocator.markHeapReady, hs.inRange⟩

theorem owned_step_iff (hs : s.Valid) (h : s.Owned) {call : Call} (hcall : s.Disciplined call) :
    (s.step call).Owned ↔ s.Counted call := by
  have hfree := (owned_iff_free hs.allocator).mp h
  rw [owned_iff_free (hs.step call).allocator]
  cases call with
  | allocateOne =>
    refine iff_of_true ?_ trivial
    rcases step_allocateOne_cases hs.allocator with hnone | ⟨f, -, hres, hsome⟩
    · rwa [hnone]
    intro g
    simp only [hsome, free_allocateOne hs.allocator, hres]
    by_cases hgf : g = f
    · simp [hgf]
    · simpa [hgf, Ne.symm hgf] using hfree g
  | incRef f =>
    simp only [Counted, allocatable_iff hs.allocator]
    rcases step_incRef_cases hs.allocator f with ⟨hsame, hnot⟩ | ⟨hstep, hbit⟩
    · rw [hsame]
      exact iff_of_true hfree hnot
    simp only [hstep, Free, hbit]
    constructor
    · intro hall
      exact (hall f).1 (by simp)
    intro hnot g
    by_cases hgf : g = f
    · subst hgf
      exact ⟨fun _ => hnot, by simp⟩
    · simpa [hgf, Free] using hfree g
  | freeFrame f =>
    have hheld : 0 < s.holders f := hcall
    have hnot := (hfree f).1 hheld
    simp only [Owners.step, Counted, free_freeFrame hs.allocator]
    constructor
    · intro hall
      have hf := hall f
      simp only [true_and, update_self] at hf
      refine ⟨?_, ?_⟩
      · intro hrange hrefs
        rw [if_pos hrefs] at hf
        by_contra hne
        exact hf.1 (by omega) hrange
      · intro hout hlast
        by_contra hrefs
        rw [if_neg hrefs] at hf
        exact hnot (hf.2 hout (by omega))
    · rintro ⟨honly, hlast⟩ g
      by_cases hgf : g = f
      · subst hgf
        simp only [true_and, update_self]
        by_cases hrefs : s.allocator.refs g = 1
        · rw [if_pos hrefs]
          refine ⟨?_, fun hout _ => hs.inRange g hout⟩
          intro hmore hrange
          have := honly hrange hrefs
          omega
        · rw [if_neg hrefs]
          refine ⟨fun _ => hnot, ?_⟩
          intro hout hzero
          exact absurd (hlast hout (by omega)) hrefs
      · simpa [hgf] using hfree g
  | markHeapReady => exact iff_of_true hfree trivial

/-! ## Runs in which every reference is counted -/

def Careful (s : Owners) : Call → Prop
  | .allocateOne => True
  | .incRef f => s.allocator.refcounts.heapReady = true ∧ 0 < s.holders f ∧ s.holders f + 1 < 2 ^ 32
  | .freeFrame f => 0 < s.holders f
  | .markHeapReady => ∀ f, s.holders f = 0

structure Exact (s : Owners) : Prop where
  valid : s.Valid
  owned : s.Owned
  out : ∀ f, 0 < s.holders f → s.handedOut f = true
  refs : ∀ f, 0 < s.holders f → s.allocator.refs f = s.holders f

theorem Exact.counted (hs : s.Exact) {call : Call} (h : s.Careful call) : s.Counted call := by
  cases call with
  | allocateOne | markHeapReady => trivial
  | incRef f => exact (hs.owned f).1 h.2.1
  | freeFrame f =>
    have hrefs := hs.refs f h
    exact ⟨fun _ hone => hrefs ▸ hone, fun _ hone => hrefs.trans hone⟩

end Owners

namespace FrameAllocator

variable {a : FrameAllocator} {f g : ℕ}

theorem getD_set {counts : List UInt32} {c : UInt32} (hf : f < counts.length) :
    (counts.set f c).getD g 0 = if g = f then c else counts.getD g 0 := by
  by_cases hgf : g = f
  · simp [hgf, hf]
  · simp [hgf, List.getElem?_set_ne (Ne.symm hgf)]

theorem refs_allocateOne (h : a.Valid) (hres : a.allocateOne.1 = .ok f) :
    a.allocateOne.2.refs g = if g = f then 1 else a.refs g := by
  rcases allocateOne_cases h with ⟨hnone, -⟩ | ⟨f', hf, hsome⟩
  · rw [hnone] at hres
    cases hres
  rw [hsome] at hres
  cases hres
  cases hready : a.refcounts.heapReady with
  | false => simp [hsome, refs, setOne, hready]
  | true =>
    have hlen : f < a.refcounts.counts.length := h.length hready ▸ hf.inRange.1
    simp only [hsome, refs, setOne, hready, if_true, getD_set hlen]
    split <;> rfl

theorem refs_incRef (hready : a.refcounts.heapReady = true) (hf : f < a.refcounts.counts.length) :
    (a.incRef f).2.refs g = if g = f then (a.refs f + 1) % 2 ^ 32 else a.refs g := by
  have hc : a.refcounts.counts[f]? = some (a.refcounts.counts.getD f 0) := by simp [hf]
  simp only [incRef, Refcounts.incRef, hready, Bool.true_eq_false, if_false, hc, refs, if_true,
    getD_set hf]
  split
  · exact UInt32.toNat_add _ _
  · rfl

theorem refs_freeFrame (h : a.Valid) (hready : a.refcounts.heapReady = true)
    (hf : f < a.refcounts.counts.length) :
    (a.freeFrame f).2.refs g = if g = f then a.refs f - 1 else a.refs g := by
  have hc : a.refcounts.counts[f]? = some (a.refcounts.counts.getD f 0) := by simp [hf]
  generalize hv : a.refcounts.counts.getD f 0 = c at hc
  have hrefs : a.refs f = c.toNat := by rw [refs, if_pos hready, hv]
  rw [hrefs]
  by_cases hzero : c = 0
  · have hsame : (a.freeFrame f).2.refs g = a.refs g := by
      simp [freeFrame, h.initialised, decRef, hready, hc, hzero, refs]
    rw [hsame]
    split
    · rename_i hgf
      rw [hgf, hrefs, hzero]
      rfl
    · rfl
  · have hpos : 1 ≤ c := by
      rw [UInt32.le_iff_toNat_le]
      exact Nat.pos_of_ne_zero fun h0 => hzero (UInt32.toNat_inj.mp h0)
    have hsub : (c - 1).toNat = c.toNat - 1 := UInt32.toNat_sub_of_le _ _ hpos
    have hstep : (a.freeFrame f).2.refs g =
        ((a.refcounts.counts.set f (c - 1)).getD g 0).toNat := by
      by_cases hlast : c - 1 = 0
      · simp [freeFrame, h.initialised, decRef, hready, hc, hzero, hlast, refs]
      · simp [freeFrame, h.initialised, decRef, hready, hc, hzero, hlast, refs]
    rw [hstep, getD_set hf]
    split
    · exact hsub
    · rw [refs, if_pos hready]

end FrameAllocator

namespace Owners

variable {s : Owners}

theorem Exact.length (hs : s.Exact) {f : ℕ} (hf : 0 < s.holders f)
    (hready : s.allocator.refcounts.heapReady = true) :
    f < s.allocator.refcounts.counts.length := by
  rw [hs.valid.allocator.length hready]
  exact (hs.valid.inRange f (hs.out f hf)).1

theorem Exact.refs_step (hs : s.Exact) {call : Call} (h : s.Careful call) (g : ℕ)
    (hg : 0 < (s.step call).holders g) :
    (s.step call).allocator.refs g = (s.step call).holders g := by
  cases call with
  | allocateOne =>
    rcases step_allocateOne_cases hs.valid.allocator with hnone | ⟨f, hf, hres, hsome⟩
    · rw [hnone] at hg ⊢
      exact hs.refs g hg
    rw [hsome] at hg ⊢
    simp only [refs_allocateOne hs.valid.allocator hres]
    by_cases hgf : g = f
    · -- The frame was free, so nobody held it.
      have hzero : s.holders f = 0 := by
        by_contra hne
        refine (hs.owned f).1 (Nat.pos_of_ne_zero hne) ?_
        exact (allocatable_iff hs.valid.allocator).mpr hf
      simp [hgf, hzero]
    · rw [if_neg hgf, update_of_ne hgf]
      exact hs.refs g (by simpa [hgf] using hg)
  | incRef f =>
    rcases step_incRef_cases hs.valid.allocator f with ⟨hsame, -⟩ | ⟨hstep, -⟩
    · rw [hsame] at hg ⊢
      exact hs.refs g hg
    rw [hstep] at hg ⊢
    simp only [refs_incRef h.1 (hs.length h.2.1 h.1)]
    by_cases hgf : g = f
    · rw [if_pos hgf, hgf, update_self, hs.refs f h.2.1]
      exact Nat.mod_eq_of_lt h.2.2
    · rw [if_neg hgf, update_of_ne hgf]
      exact hs.refs g (by simpa [hgf] using hg)
  | freeFrame f =>
    have hf : 0 < s.holders f := h
    have hrefs := hs.refs f hf
    simp only [Owners.step] at hg ⊢
    cases hready : s.allocator.refcounts.heapReady with
    | true =>
      rw [refs_freeFrame hs.valid.allocator hready (hs.length hf hready)]
      by_cases hgf : g = f
      · rw [if_pos hgf, hgf, update_self, hrefs]
      · rw [if_neg hgf, update_of_ne hgf]
        exact hs.refs g (by simpa [hgf] using hg)
    | false =>
      have hkept := refcounts_freeFrame (f := f) hs.valid.allocator.initialised
      have hone : ∀ g, s.allocator.refs g = 1 := fun g => by simp [FrameAllocator.refs, hready]
      have hgf : g ≠ f := by
        rintro rfl
        rw [update_self, ← hrefs, hone] at hg
        exact absurd hg (by decide)
      rw [update_of_ne hgf] at hg ⊢
      rw [FrameAllocator.refs, hkept.2.1, hready, ← hs.refs g hg, hone]
      rfl
  | markHeapReady => exact absurd (h g) (Nat.pos_iff_ne_zero.mp hg)

theorem Exact.out_step (hs : s.Exact) (call : Call) (h : s.Careful call) (g : ℕ)
    (hg : 0 < (s.step call).holders g) : (s.step call).handedOut g = true := by
  cases call with
  | allocateOne =>
    rcases step_allocateOne_cases hs.valid.allocator with hnone | ⟨f, -, -, hsome⟩
    · rw [hnone] at hg ⊢
      exact hs.out g hg
    rw [hsome] at hg ⊢
    by_cases hgf : g = f
    · simp [hgf]
    · simpa [hgf] using hs.out g (by simpa [hgf] using hg)
  | incRef f =>
    rcases step_incRef_cases hs.valid.allocator f with ⟨hsame, -⟩ | ⟨hstep, -⟩
    · rw [hsame] at hg ⊢
      exact hs.out g hg
    rw [hstep] at hg ⊢
    by_cases hgf : g = f
    · exact hgf ▸ hs.out f h.2.1
    · exact hs.out g (by simpa [hgf] using hg)
  | freeFrame f =>
    by_cases hgf : g = f
    · exact hgf ▸ hs.out f h
    · exact hs.out g (by simpa [Owners.step, hgf] using hg)
  | markHeapReady => exact hs.out g hg

theorem Exact.step (hs : s.Exact) {call : Call} (h : s.Careful call) : (s.step call).Exact := by
  have hdisc : s.Disciplined call := by
    cases call with
    | freeFrame => exact h
    | _ => trivial
  exact ⟨hs.valid.step call, (owned_step_iff hs.valid hs.owned hdisc).mpr (hs.counted h),
    hs.out_step call h, hs.refs_step h⟩

theorem exact_start {cfg : FrameConfig} {a : FrameAllocator}
    (hnew : new cfg = some a) (memRegions : List MemoryRegion) :
    (start (a.init memRegions)).Exact := by
  have hcounts : (a.init memRegions).refcounts = {} := by
    unfold new at hnew
    split at hnew
    · cases hnew
    · cases hnew
      rfl
  have hvalid : (start (a.init memRegions)).Valid :=
    ⟨valid_init memRegions hcounts, by simp [start]⟩
  refine ⟨hvalid, ?_, by simp [start], by simp [start]⟩
  rw [owned_iff_free hvalid.allocator]
  simp [start]

/-- **A run gives no frame to two owners, and every frame back when its last holder releases it,
exactly if the counts tell the last holder at each release and `inc_ref` is for frames in use.**
Runs in which the counting starts before anything is held and only held frames are shared are such
runs. -/
theorem owned_along_iff {cfg : FrameConfig} {a : FrameAllocator}
    (hnew : new cfg = some a) (memRegions : List MemoryRegion) {calls : List Call}
    (hcalls : Along Owners.step Disciplined (start (a.init memRegions)) calls) :
    ((∀ past rest, calls = past ++ rest →
        (exec Owners.step (start (a.init memRegions)) past).Owned) ↔
      Along Owners.step Counted (start (a.init memRegions)) calls) ∧
    (Along Owners.step Careful (start (a.init memRegions)) calls →
      Along Owners.step Counted (start (a.init memRegions)) calls) := by
  have hstart := exact_start hnew memRegions
  constructor
  · rw [forall_split_iff_along (L := Owned), and_iff_right hstart.owned]
    apply along_congr_given (I := fun s => s.Valid ∧ s.Owned) hcalls ?_ ?_
      ⟨hstart.valid, hstart.owned⟩
    · rintro s call ⟨hs, -⟩ - howned
      exact ⟨hs.step call, howned⟩
    · rintro s call ⟨hs, howned⟩ hcall
      exact owned_step_iff hs howned hcall
  · intro hcareful
    exact hcareful.imp hstart (fun s call hs h => hs.step h) fun s call hs h => hs.counted h

def sampleConfig : FrameConfig := ⟨512, false⟩

def sampleMap : List MemoryRegion := [⟨0, 0x4000, .usable⟩]

theorem owned_along_sample : ∃ a calls, new sampleConfig = some a ∧
    calls = [Call.markHeapReady, .allocateOne, .incRef 0, .freeFrame 0, .freeFrame 0] ∧
    ((∀ past rest, calls = past ++ rest →
        (exec Owners.step (start (a.init sampleMap)) past).Owned) ↔
      Along Owners.step Counted (start (a.init sampleMap)) calls) := by
  have hnew : new sampleConfig = some _ := rfl
  exact ⟨_, _, hnew, rfl, (owned_along_iff hnew sampleMap (by decide +kernel)).1⟩

/-- A frame that is shared before the heap is ready is free after one of its two holders releases
it, and a frame that is held when the heap gets ready is never free again. -/
theorem early_frames_lost : ∃ a, new sampleConfig = some a ∧
    (∃ s, s = exec Owners.step (start (a.init sampleMap))
        [.allocateOne, .incRef 0, .freeFrame 0] ∧
      s.holders 0 = 1 ∧ s.allocator.allocateOne.1 = .ok 0) ∧
    ∃ s, s = exec Owners.step (start (a.init sampleMap))
        [.allocateOne, .markHeapReady, .freeFrame 0] ∧
      s.handedOut 0 = true ∧ s.holders 0 = 0 ∧ ¬ s.allocator.Allocatable 0 := by
  have hnew : new sampleConfig = some _ := rfl
  refine ⟨_, hnew, ⟨_, rfl, by decide +kernel, by decide +kernel⟩, _, rfl, by decide +kernel,
    by decide +kernel, ?_⟩
  have hvalid : (exec Owners.step _ [.allocateOne, .markHeapReady, .freeFrame 0]).Valid :=
    exec_invariant (exact_start hnew sampleMap).valid fun s call hs => hs.step call
  rw [allocatable_iff hvalid.allocator]
  rintro ⟨hfree, -⟩
  exact absurd hfree (by decide +kernel)

end Owners

end IonaOs.Memory
