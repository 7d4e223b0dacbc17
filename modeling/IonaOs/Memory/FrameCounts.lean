import IonaOs.Memory.FrameOwners

/-!
# Reference counts, once they are kept
-/

namespace IonaOs.Memory.FrameAllocator

variable {a : FrameAllocator} {f g : ℕ}

structure Sound (a : FrameAllocator) : Prop where
  valid : a.Valid
  ready : a.refcounts.heapReady = true
  free : ∀ f, a.Free f → a.refs f = 0

section

variable (h : a.Sound)
include h

theorem Sound.lt_length (hf : a.refs f ≠ 0) : f < a.refcounts.counts.length := by
  by_contra hge
  refine hf ?_
  simp [refs, h.ready, List.getElem?_eq_none (Nat.not_lt.mp hge)]

theorem Sound.refs_freeFrame (f g : ℕ) :
    (a.freeFrame f).2.refs g = if g = f then a.refs f - 1 else a.refs g := by
  by_cases hf : f < a.refcounts.counts.length
  · exact FrameAllocator.refs_freeFrame h.valid h.ready hf
  have hnone : a.refcounts.counts[f]? = none := List.getElem?_eq_none (Nat.not_lt.mp hf)
  have hsame : (a.freeFrame f).2.refs g = a.refs g := by
    simp [freeFrame, h.valid.initialised, Refcounts.decRef, h.ready, hnone, refs]
  have hzero : a.refs f = 0 := by
    by_contra hne
    exact hf (h.lt_length hne)
  rw [hsame]
  split
  · rename_i hgf
    rw [hgf, hzero]
  · rfl

theorem Sound.freeFrame (f : ℕ) : (a.freeFrame f).2.Sound := by
  refine ⟨h.valid.freeFrame, (refcounts_freeFrame h.valid.initialised).2.1.trans h.ready, ?_⟩
  intro g hg
  rw [free_freeFrame h.valid] at hg
  rw [h.refs_freeFrame]
  by_cases hgf : g = f ∧ a.refs f = 1
  · rw [if_pos hgf.1, hgf.2]
  rw [if_neg hgf] at hg
  have hzero := h.free g hg
  split
  · rename_i heq
    rw [← heq, hzero]
  · exact hzero

theorem Sound.allocateOne_cases : (a.allocateOne = (.error .outOfFrames, a) ∧ ∀ f, ¬ a.Free f) ∨
      ∃ f a', a.allocateOne = (.ok f, a') ∧ a.Free f ∧ a'.Sound ∧
        (∀ g, a'.refs g = if g = f then 1 else a.refs g) ∧ ∀ g, a'.Free g ↔ a.Free g ∧ g ≠ f := by
  rcases FrameAllocator.allocateOne_cases h.valid with hnone | ⟨f, hfree, hok⟩
  · exact .inl hnone
  refine .inr ⟨f, a.allocateOne.2, ?_, hfree, ?_, ?_, ?_⟩
  · rw [hok]
  · refine ⟨h.valid.allocateOne, ?_, ?_⟩
    · rw [hok]
      exact (heapReady_setOne _).trans h.ready
    intro g hg
    have hg' := (free_allocateOne h.valid).mp hg
    rw [refs_allocateOne (f := f) h.valid (by rw [hok]), if_neg ?_]
    · exact h.free g hg'.1
    · rintro rfl
      exact hg'.2 (by rw [hok])
  · exact fun g => refs_allocateOne h.valid (by rw [hok])
  · intro g
    rw [free_allocateOne h.valid, hok]
    simp [eq_comm]

theorem Sound.incRef (hf : ¬ a.Free f) : (a.incRef f).2.Sound := by
  have hready : (a.incRef f).2.refcounts.heapReady = true := by
    rcases incRef_cases a f with ⟨e, herr, -⟩ | ⟨r, hok, hr, -⟩
    · rw [herr]
      exact h.ready
    · rw [hok]
      exact hr.trans h.ready
  refine ⟨h.valid.incRef, hready, ?_⟩
  intro g hg
  have hg' := (free_incRef a f g).mp hg
  have hne : g ≠ f := fun heq => hf (heq ▸ hg')
  by_cases hlt : f < a.refcounts.counts.length
  · rw [refs_incRef h.ready hlt, if_neg hne]
    exact h.free g hg'
  have hnone : a.refcounts.counts[f]? = none := List.getElem?_eq_none (Nat.not_lt.mp hlt)
  have hsame : (a.incRef f).2 = a := by
    simp [FrameAllocator.incRef, Refcounts.incRef, h.ready, hnone]
  rw [hsame]
  exact h.free g hg'

end

theorem refs_markHeapReady (a : FrameAllocator) (f : ℕ) : a.markHeapReady.refs f = 0 := by
  simp only [refs, FrameAllocator.markHeapReady, Refcounts.markHeapReady, if_true,
    List.getD_eq_getElem?_getD, List.getElem?_replicate]
  split
  · rfl
  · rfl

theorem Valid.sound_markHeapReady (h : a.Valid) : a.markHeapReady.Sound :=
  ⟨h.markHeapReady, rfl, fun f _ => refs_markHeapReady a f⟩

/-! ## Frames that come back -/

def Returns (frames : ℕ → Prop) (a : FrameAllocator) : Prop :=
  ∀ f, frames f → a.InRange f ∧ (a.refs f = 0 → a.Free f)

variable {frames : ℕ → Prop}

theorem Returns.allocateOne {a' : FrameAllocator} (h : a.Returns frames) (hs : a.Sound)
    (hok : a.allocateOne = (.ok f, a')) : a'.Returns frames := by
  rcases hs.allocateOne_cases with ⟨hnone, -⟩ | ⟨f', a₁, hok', -, -, hrefs, hfree⟩
  · rw [hnone] at hok
    cases hok
  cases hok'.symm.trans hok
  intro g hg
  obtain ⟨hrange, hzero⟩ := h g hg
  refine ⟨?_, fun hg0 => ?_⟩
  · have hbit : a'.bitmap = a.bitmap.take f := by
      have htake := bitmap_allocateOne hs.valid (f := f) (by rw [hok])
      rwa [hok] at htake
    simpa [InRange, hbit] using hrange
  · rw [hrefs] at hg0
    split_ifs at hg0 with hgf
    exact (hfree g).mpr ⟨hzero hg0, hgf⟩

theorem Returns.freeFrame (h : a.Returns frames) (hs : a.Sound) (f : ℕ) :
    (a.freeFrame f).2.Returns frames := by
  intro g hg
  obtain ⟨hrange, hzero⟩ := h g hg
  refine ⟨?_, fun hg0 => ?_⟩
  · rw [InRange, bitmap_freeFrame hs.valid.initialised]
    split
    · simpa [InRange] using hrange
    · exact hrange
  rw [free_freeFrame hs.valid]
  rw [hs.refs_freeFrame] at hg0
  split_ifs with hlast
  · exact hlast.1 ▸ hrange
  refine hzero ?_
  split_ifs at hg0 with hgf
  · subst hgf
    have hne : a.refs g ≠ 1 := fun hone => hlast ⟨rfl, hone⟩
    omega
  · exact hg0

theorem Sound.refs_incRef (h : a.Sound) (hpos : a.refs f ≠ 0) (hsmall : a.refs f + 1 < 2 ^ 32)
    (g : ℕ) : (a.incRef f).2.refs g = if g = f then a.refs f + 1 else a.refs g := by
  rw [FrameAllocator.refs_incRef h.ready (h.lt_length hpos), Nat.mod_eq_of_lt hsmall]

theorem Returns.incRef (h : a.Returns frames) (hs : a.Sound) (hpos : a.refs f ≠ 0)
    (hsmall : a.refs f + 1 < 2 ^ 32) : (a.incRef f).2.Returns frames := by
  intro g hg
  obtain ⟨hrange, hzero⟩ := h g hg
  refine ⟨?_, fun hg0 => ?_⟩
  · rcases incRef_cases a f with ⟨e, herr, -⟩ | ⟨r, hok, -⟩
    · rwa [herr]
    · rwa [hok]
  · rw [free_incRef]
    refine hzero ?_
    rw [hs.refs_incRef hpos hsmall] at hg0
    split_ifs at hg0
    exact hg0

/-! ## Lists of frames -/

def release (a : FrameAllocator) (frames : List ℕ) : FrameAllocator :=
  frames.foldl (fun a f => (a.freeFrame f).2) a

theorem Sound.release (h : a.Sound) (frames : List ℕ) :
    (a.release frames).Sound ∧ ∀ g, (a.release frames).refs g = a.refs g - frames.count g := by
  induction frames generalizing a with
  | nil => exact ⟨h, fun g => rfl⟩
  | cons f _ ih =>
    obtain ⟨hsound, hrefs⟩ := ih (h.freeFrame f)
    refine ⟨hsound, fun g => (hrefs g).trans ?_⟩
    rw [h.refs_freeFrame, List.count_cons]
    by_cases hgf : g = f
    · subst hgf
      simp only [beq_self_eq_true, if_true]
      omega
    · have hne : (f == g) = false := beq_eq_false_iff_ne.mpr (Ne.symm hgf)
      simp [hgf, hne]

theorem Returns.release (h : a.Returns frames) (hs : a.Sound) (l : List ℕ) :
    (a.release l).Returns frames := by
  induction l generalizing a with
  | nil => exact h
  | cons f l ih => exact ih (h.freeFrame hs f) (hs.freeFrame f)

def allocateFrames : ℕ → List ℕ → FrameAllocator → Option (List ℕ) × FrameAllocator
  | 0, taken, a => (some taken, a)
  | n + 1, taken, a =>
    match a.allocateOne with
    | (.ok f, a) => allocateFrames n (taken ++ [f]) a
    | (.error _, a) => (none, a.release taken)

theorem Sound.allocateFrames_cases (h : a.Sound) (n : ℕ) (taken : List ℕ) :
    (∃ new a', allocateFrames n taken a = (some (taken ++ new), a') ∧ new.length = n ∧ a'.Sound ∧
        ∀ g, a'.refs g = a.refs g + new.count g) ∨
      ∃ a', allocateFrames n taken a = (none, a') ∧ a'.Sound ∧
        ∀ g, a'.refs g = a.refs g - taken.count g := by
  induction n generalizing a taken with
  | zero => exact .inl ⟨[], a, by simp [allocateFrames], rfl, h, fun g => rfl⟩
  | succ n ih =>
    rcases h.allocateOne_cases with ⟨hnone, -⟩ | ⟨f, a₁, hok, hfree, hsound, hrefs, -⟩
    · obtain ⟨hreleased, hrefs⟩ := h.release taken
      exact .inr ⟨_, by rw [allocateFrames, hnone], hreleased, hrefs⟩
    have hone : ∀ g, a₁.refs g = a.refs g + [f].count g := by
      intro g
      rw [hrefs]
      by_cases hgf : g = f
      · subst hgf
        simp [h.free g hfree]
      · simp [hgf, Ne.symm hgf]
    rcases ih hsound (taken ++ [f]) with ⟨new, a', heq, hlen, hsound', hrefs'⟩ |
      ⟨a', heq, hsound', hrefs'⟩
    · refine .inl ⟨f :: new, a', ?_, by rw [List.length_cons, hlen], hsound', fun g => ?_⟩
      · rw [allocateFrames, hok]
        simpa using heq
      have hcount : (f :: new).count g = [f].count g + new.count g :=
        by rw [← List.count_append, List.singleton_append]
      rw [hrefs', hone, hcount]
      omega
    · refine .inr ⟨a', ?_, hsound', fun g => ?_⟩
      · rw [allocateFrames, hok]
        exact heq
      · rw [hrefs', hone, List.count_append]
        omega

end IonaOs.Memory.FrameAllocator
