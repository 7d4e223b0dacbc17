import Mathlib

/-!
# The physical frame allocator
-/

namespace IonaOs.Memory

open List BitVec Function

namespace Constants

def pageSize : ℕ := 4096

def maxFrames : ℕ := 2 * 1024 * 1024 * 1024 / pageSize

def bitmapSize : ℕ := maxFrames / 64

end Constants

structure FrameConfig where
  maxFrames : ℕ := Constants.maxFrames
  reserveFirstMib : Bool := true

def FrameConfig.validate (cfg : FrameConfig) : Except String Unit :=
  if cfg.maxFrames = 0 then .error "max_frames must be > 0" else .ok ()

inductive FrameError where
  | outOfFrames
  | invalidFrameIndex (index max : ℕ)
  | refcountUnderflow (frame : ℕ)
  | notInitialised
deriving DecidableEq

inductive MemoryRegionKind where
  | usable
  | other
deriving DecidableEq

structure MemoryRegion where
  start : UInt64
  stop : UInt64
  kind : MemoryRegionKind

/-- The frames `frame_start..frame_end` of a region. -/
def MemoryRegion.frames (region : MemoryRegion) : List ℕ :=
  let frameStart := region.start.toNat / Constants.pageSize
  let frameEnd := region.stop.toNat / Constants.pageSize
  range' frameStart (frameEnd - frameStart)

def frameToWordBit (frame : ℕ) : ℕ × ℕ := (frame / 64, frame % 64)

/-! ## The bitmap -/

/-- A bitmap allocator; `with_max_frames` caps the number of frames. -/
structure RawBitmapAllocator where
  bitmap : ℕ → BitVec 64
  nextHint : ℕ
  totalFrames : ℕ
  usedFrames : ℕ
  maxFrames : ℕ
  maxFrames_le : maxFrames ≤ Constants.maxFrames

namespace RawBitmapAllocator

def withMaxFrames (maxFrames : ℕ) : RawBitmapAllocator where
  bitmap := fun _ => 0
  nextHint := 0
  totalFrames := 0
  usedFrames := 0
  maxFrames := min maxFrames Constants.maxFrames
  maxFrames_le := Nat.min_le_right _ _

variable (s : RawBitmapAllocator)

def markFree (frame : ℕ) : RawBitmapAllocator :=
  if s.maxFrames ≤ frame then s
  else
    let (word, bit) := frameToWordBit frame
    if word < Constants.bitmapSize then
      { s with bitmap := Function.update s.bitmap word (s.bitmap word &&& ~~~(1#64 <<< bit)) }
    else s

def markUsed (frame : ℕ) : RawBitmapAllocator :=
  if s.maxFrames ≤ frame then s
  else
    let (word, bit) := frameToWordBit frame
    if word < Constants.bitmapSize then
      { s with bitmap := Function.update s.bitmap word (s.bitmap word ||| 1#64 <<< bit) }
    else s

def isFree (frame : ℕ) : Bool :=
  if s.maxFrames ≤ frame then false
  else
    let (word, bit) := frameToWordBit frame
    decide (word < Constants.bitmapSize) && (s.bitmap word >>> bit) &&& 1#64 == 0#64

/-- One frame of a usable region, in the loop of `init`. -/
def initFrame (acc : RawBitmapAllocator × ℕ) (i : ℕ) : RawBitmapAllocator × ℕ :=
  if i < acc.1.maxFrames then (acc.1.markFree i, acc.2 + 1) else acc

/-- One region, in the loop of `init`. -/
def initRegion (acc : RawBitmapAllocator × ℕ) (region : MemoryRegion) : RawBitmapAllocator × ℕ :=
  if region.kind ≠ .usable then acc else region.frames.foldl initFrame acc

def reservedEnd : ℕ := 0x100000 / Constants.pageSize

def init (memRegions : List MemoryRegion) (cfg : FrameConfig) : RawBitmapAllocator :=
  let (s, total) := memRegions.foldl initRegion ({ s with bitmap := fun _ => BitVec.allOnes 64 }, 0)
  -- `mark_used` leaves frames alone that are too large, as the guard of the loop does.
  let s := if cfg.reserveFirstMib then (range reservedEnd).foldl markUsed s else s
  { s with totalFrames := total, nextHint := if cfg.reserveFirstMib then 256 else 0 }

def take (i : ℕ) : RawBitmapAllocator :=
  { s.markUsed i with usedFrames := s.usedFrames + 1, nextHint := i + 1 }

def allocFrame : Option (ℕ × RawBitmapAllocator) :=
  match (range' s.nextHint (s.totalFrames - s.nextHint)).find? s.isFree with
  | some i => some (i, s.take i)
  | none =>
    match (range s.nextHint).find? s.isFree with
    | some i => some (i, s.take i)
    | none => none

def freeFrame (idx : ℕ) : RawBitmapAllocator :=
  if idx < s.maxFrames then
    { s.markFree idx with
      usedFrames := s.usedFrames - 1
      nextHint := if idx < s.nextHint then idx else s.nextHint }
  else s

end RawBitmapAllocator

/-! ## Reference counts -/

/-- The statics `REFCOUNTS` and `HEAP_READY`. -/
structure Refcounts where
  counts : List UInt32 := []
  heapReady : Bool := false

namespace Refcounts

variable (r : Refcounts)

def markHeapReady (maxFrames : ℕ) : Refcounts where
  counts := replicate (min maxFrames Constants.maxFrames) 0
  heapReady := true

def incRef (idx : ℕ) : Except FrameError Refcounts :=
  if r.heapReady = false then .ok r
  else
    match r.counts[idx]? with
    | none => .error (.invalidFrameIndex idx r.counts.length)
    | some c => .ok { r with counts := r.counts.set idx (c + 1) }

/-- `dec_ref`, with the bitmap that a frame without references goes back to. -/
def decRef (idx : ℕ) (bitmap : RawBitmapAllocator) :
    Except FrameError (Refcounts × RawBitmapAllocator) :=
  if r.heapReady = false then .ok (r, bitmap.freeFrame idx)
  else
    match r.counts[idx]? with
    | none => .error (.invalidFrameIndex idx r.counts.length)
    | some c =>
      if c = 0 then .error (.refcountUnderflow idx)
      else
        let r := { r with counts := r.counts.set idx (c - 1) }
        if c - 1 = 0 then .ok (r, bitmap.freeFrame idx) else .ok (r, bitmap)

/-- `allocate_one` sets the count of a frame, if there is one. -/
def setOne (idx : ℕ) : Refcounts :=
  if r.heapReady then { r with counts := r.counts.set idx 1 } else r

end Refcounts

/-! ## The allocator -/

structure FrameStats where
  totalFrames : ℕ
  freeFrames : ℕ
  usedFrames : ℕ
  refcountedFrames : ℕ
  totalAllocations : UInt64
  totalFrees : UInt64

structure FrameAllocator where
  config : FrameConfig
  bitmap : RawBitmapAllocator
  initialised : Bool
  refcounts : Refcounts
  allocations : UInt64
  frees : UInt64

namespace FrameAllocator

/-- `new` expects a configuration that is valid. -/
def new (cfg : FrameConfig) : Option FrameAllocator :=
  match cfg.validate with
  | .error _ => none
  | .ok () => some ⟨cfg, .withMaxFrames cfg.maxFrames, false, {}, 0, 0⟩

variable (a : FrameAllocator)

def init (memRegions : List MemoryRegion) : FrameAllocator :=
  { a with bitmap := a.bitmap.init memRegions a.config, initialised := true }

def markHeapReady : FrameAllocator :=
  { a with refcounts := .markHeapReady a.bitmap.maxFrames }

def allocateOne : Except FrameError ℕ × FrameAllocator :=
  if a.initialised = false then (.error .notInitialised, a)
  else
    match a.bitmap.allocFrame with
    | none => (.error .outOfFrames, a)
    | some (frame, bitmap) =>
      (.ok frame, { a with
        bitmap
        allocations := a.allocations + 1
        refcounts := a.refcounts.setOne frame })

def freeFrame (frame : ℕ) : Except FrameError Unit × FrameAllocator :=
  if a.initialised = false then (.error .notInitialised, a)
  else
    let a := { a with frees := a.frees + 1 }
    match a.refcounts.decRef frame a.bitmap with
    | .error e => (.error e, a)
    | .ok (refcounts, bitmap) => (.ok (), { a with refcounts, bitmap })

def incRef (frame : ℕ) : Except FrameError Unit × FrameAllocator :=
  match a.refcounts.incRef frame with
  | .error e => (.error e, a)
  | .ok refcounts => (.ok (), { a with refcounts })

def stats : FrameStats where
  totalFrames := a.bitmap.totalFrames
  freeFrames := a.bitmap.totalFrames - a.bitmap.usedFrames
  usedFrames := a.bitmap.usedFrames
  refcountedFrames :=
    if a.refcounts.heapReady then a.refcounts.counts.countP (0 < ·) else 0
  totalAllocations := a.allocations
  totalFrees := a.frees

end FrameAllocator

/-! ## The bitmap as a set of frames -/

namespace RawBitmapAllocator

variable {s s' : RawBitmapAllocator} {f g i : ℕ}

theorem word_lt_bitmapSize (h : f < s.maxFrames) : f / 64 < Constants.bitmapSize := by
  have hmax := s.maxFrames_le
  simp only [Constants.bitmapSize, Constants.maxFrames, Constants.pageSize] at *
  omega

theorem shift_and_one_eq_zero (w : BitVec 64) (b : ℕ) :
    (w >>> b &&& 1#64 == 0#64) = !w.getLsbD b := by
  rw [and_one_eq_setWidth_ofBool_getLsbD]
  cases h : w.getLsbD b <;> simp [h]

theorem isFree_eq :
    s.isFree f = (decide (f < s.maxFrames) && !(s.bitmap (f / 64)).getLsbD (f % 64)) := by
  unfold isFree
  by_cases hf : f < s.maxFrames
  · simp [Nat.not_le.mpr hf, hf, frameToWordBit, word_lt_bitmapSize hf, shift_and_one_eq_zero]
  · simp [Nat.not_lt.mp hf, hf]

theorem lt_of_isFree (h : s.isFree f = true) : f < s.maxFrames := by
  rw [isFree_eq, Bool.and_eq_true] at h
  exact of_decide_eq_true h.1

theorem markFree_of_lt (h : f < s.maxFrames) :
    s.markFree f =
      { s with
        bitmap :=
          update s.bitmap (f / 64) (s.bitmap (f / 64) &&& ~~~(1#64 <<< (f % 64))) } := by
  simp [markFree, Nat.not_le.mpr h, frameToWordBit, word_lt_bitmapSize h]

theorem markUsed_of_lt (h : f < s.maxFrames) :
    s.markUsed f =
      { s with
        bitmap :=
          update s.bitmap (f / 64) (s.bitmap (f / 64) ||| 1#64 <<< (f % 64)) } := by
  simp [markUsed, Nat.not_le.mpr h, frameToWordBit, word_lt_bitmapSize h]

theorem markFree_eq (s : RawBitmapAllocator) (f : ℕ) :
    s.markFree f = { s with bitmap := (s.markFree f).bitmap } := by
  by_cases h : f < s.maxFrames
  · rw [markFree_of_lt h]
  · rw [show s.markFree f = s from if_pos (Nat.not_lt.mp h)]

theorem markUsed_eq (s : RawBitmapAllocator) (f : ℕ) :
    s.markUsed f = { s with bitmap := (s.markUsed f).bitmap } := by
  by_cases h : f < s.maxFrames
  · rw [markUsed_of_lt h]
  · rw [show s.markUsed f = s from if_pos (Nat.not_lt.mp h)]

@[simp] theorem maxFrames_markFree : (s.markFree f).maxFrames = s.maxFrames := by
  rw [markFree_eq]

@[simp] theorem totalFrames_markFree : (s.markFree f).totalFrames = s.totalFrames := by
  rw [markFree_eq]

@[simp] theorem maxFrames_markUsed : (s.markUsed f).maxFrames = s.maxFrames := by
  rw [markUsed_eq]

@[simp] theorem totalFrames_markUsed : (s.markUsed f).totalFrames = s.totalFrames := by
  rw [markUsed_eq]

theorem bit_ne_of_ne (h : g ≠ f) (hword : g / 64 = f / 64) : g % 64 ≠ f % 64 := by
  omega

theorem getLsbD_one_shift {b c : ℕ} (hb : b < 64) : (1#64 <<< b).getLsbD c = decide (c = b) := by
  rw [← twoPow_eq, getLsbD_twoPow]
  by_cases hc : c = b
  · simp [hc, hb]
  · simp [hc, Ne.symm hc]

variable (s : RawBitmapAllocator)

theorem isFree_markFree (f g : ℕ) :
    (s.markFree f).isFree g = if g = f then decide (f < s.maxFrames) else s.isFree g := by
  by_cases hf : f < s.maxFrames
  · rw [isFree_eq, isFree_eq, markFree_of_lt hf]
    dsimp only
    have hbit : f % 64 < 64 := Nat.mod_lt _ (by decide)
    by_cases hgf : g = f
    · subst hgf
      simp [getLsbD_and, getLsbD_not, getLsbD_one_shift hbit, -getLsbD_eq_getElem]
    · rw [if_neg hgf]
      by_cases hword : g / 64 = f / 64
      · have hbit' : g % 64 < 64 := Nat.mod_lt _ (by decide)
        rw [hword, update_self, getLsbD_and, getLsbD_not,
          getLsbD_one_shift hbit, decide_eq_false (bit_ne_of_ne hgf hword)]
        simp [hbit']
      · rw [update_of_ne hword]
  · have hsame : s.markFree f = s := if_pos (Nat.not_lt.mp hf)
    by_cases hgf : g = f <;> simp [hsame, hgf, isFree_eq, hf]

theorem isFree_markUsed (f g : ℕ) :
    (s.markUsed f).isFree g = if g = f then false else s.isFree g := by
  by_cases hf : f < s.maxFrames
  · rw [isFree_eq, isFree_eq, markUsed_of_lt hf]
    dsimp only
    have hbit : f % 64 < 64 := Nat.mod_lt _ (by decide)
    by_cases hgf : g = f
    · subst hgf
      simp [getLsbD_one_shift hbit]
    rw [if_neg hgf]
    by_cases hword : g / 64 = f / 64
    · simp [hword, getLsbD_one_shift hbit, bit_ne_of_ne hgf hword]
    · rw [update_of_ne hword]
  · have hsame : s.markUsed f = s := if_pos (Nat.not_lt.mp hf)
    by_cases hgf : g = f <;> simp [hsame, hgf, isFree_eq, hf]

theorem isFree_take (f g : ℕ) :
    (s.take f).isFree g = if g = f then false else s.isFree g :=
  isFree_markUsed s f g

theorem isFree_freeFrame (f g : ℕ) :
    (s.freeFrame f).isFree g = if g = f then decide (f < s.maxFrames) else s.isFree g := by
  unfold freeFrame
  split
  · exact isFree_markFree s f g
  rename_i hf
  split
  · rename_i hgf
    subst hgf
    simp [isFree_eq, hf]
  · rfl

variable {s}

@[simp] theorem maxFrames_take : (s.take f).maxFrames = s.maxFrames := maxFrames_markUsed

@[simp] theorem totalFrames_take : (s.take f).totalFrames = s.totalFrames := totalFrames_markUsed

@[simp] theorem maxFrames_freeFrame : (s.freeFrame f).maxFrames = s.maxFrames := by
  unfold freeFrame
  split
  · exact maxFrames_markFree
  · rfl

@[simp] theorem totalFrames_freeFrame : (s.freeFrame f).totalFrames = s.totalFrames := by
  unfold freeFrame
  split
  · exact totalFrames_markFree
  · rfl

/-! ## The search -/

def HintInRange (s : RawBitmapAllocator) : Prop :=
  ∀ i, s.totalFrames ≤ i → i < s.nextHint → s.isFree i = false

theorem allocFrame_cases (hhint : s.HintInRange) :
    (s.allocFrame = none ∧ ∀ i < s.totalFrames, s.isFree i = false) ∨
      ∃ i < s.totalFrames, s.isFree i = true ∧ s.allocFrame = some (i, s.take i) := by
  unfold allocFrame
  cases hup : (range' s.nextHint (s.totalFrames - s.nextHint)).find? s.isFree with
  | some i =>
    have hmem := mem_of_find?_eq_some hup
    rw [mem_range'_1] at hmem
    exact .inr ⟨i, by omega, find?_some hup, rfl⟩
  | none =>
    cases hdown : (range s.nextHint).find? s.isFree with
    | some i =>
      have hlt := mem_range.mp (mem_of_find?_eq_some hdown)
      have hfree := find?_some hdown
      refine .inr ⟨i, ?_, hfree, rfl⟩
      by_contra hge
      rw [hhint i (Nat.not_lt.mp hge) hlt] at hfree
      cases hfree
    | none =>
      rw [find?_eq_none] at hup hdown
      refine .inl ⟨rfl, ?_⟩
      intro i hi
      rw [Bool.eq_false_iff]
      by_cases hlt : i < s.nextHint
      · exact hdown i (mem_range.mpr hlt)
      · exact hup i (mem_range'_1.mpr (by omega))

theorem hintInRange_take (hi : i < s.totalFrames) : (s.take i).HintInRange := by
  intro j hj hlt
  rw [totalFrames_take] at hj
  have hnext : (s.take i).nextHint = i + 1 := rfl
  omega

theorem hintInRange_freeFrame (h : s.HintInRange) : (s.freeFrame f).HintInRange := by
  intro j hj hlt
  rw [totalFrames_freeFrame] at hj
  rw [isFree_freeFrame]
  unfold freeFrame at hlt
  split at hlt
  · dsimp only at hlt
    split at hlt
    · rw [if_neg (by omega)]
      exact h j hj (by omega)
    · rw [if_neg (by omega)]
      exact h j hj hlt
  · rename_i hf
    split
    · exact decide_eq_false hf
    · exact h j hj hlt

/-! ## The start -/

/-- The frames that `init` marks as free and counts, one after the other. -/
def listedFrames (memRegions : List MemoryRegion) (maxFrames : ℕ) : List ℕ :=
  (memRegions.flatMap fun r => if r.kind ≠ .usable then [] else r.frames).filter (· < maxFrames)

def Reserved (cfg : FrameConfig) (i : ℕ) : Prop :=
  cfg.reserveFirstMib = true ∧ i < reservedEnd
deriving Decidable

theorem foldl_initRegion (memRegions : List MemoryRegion) (acc : RawBitmapAllocator × ℕ) :
    memRegions.foldl initRegion acc =
      (memRegions.flatMap fun r => if r.kind ≠ .usable then [] else r.frames).foldl initFrame
        acc := by
  induction memRegions generalizing acc with
  | nil => rfl
  | cons _ _ ih =>
    rw [foldl_cons, ih, flatMap_cons, foldl_append, initRegion]
    split <;> rfl

structure Freed (s : RawBitmapAllocator) (frames : List ℕ) (out : RawBitmapAllocator × ℕ) (n : ℕ) :
    Prop where
  maxFrames : out.1.maxFrames = s.maxFrames
  usedFrames : out.1.usedFrames = s.usedFrames
  isFree : ∀ i, out.1.isFree i = true ↔
    s.isFree i = true ∨ i ∈ frames.filter (· < s.maxFrames)
  count : out.2 = n + (frames.filter (· < s.maxFrames)).length

theorem freed_foldl (frames : List ℕ) (s : RawBitmapAllocator) (n : ℕ) :
    Freed s frames (frames.foldl initFrame (s, n)) n := by
  induction frames generalizing s n with
  | nil => exact ⟨rfl, rfl, by simp, by simp⟩
  | cons f fs ih =>
    rw [foldl_cons]
    by_cases hf : f < s.maxFrames
    · have hstep : initFrame (s, n) f = (s.markFree f, n + 1) := if_pos hf
      rw [hstep]
      have h := ih (s.markFree f) (n + 1)
      refine ⟨h.maxFrames.trans maxFrames_markFree, ?_, ?_, ?_⟩
      · rw [h.usedFrames, markFree_eq]
      · intro i
        rw [h.isFree, isFree_markFree, maxFrames_markFree, filter_cons_of_pos (by simpa), mem_cons]
        by_cases hi : i = f
        · simp [hi, hf]
        · simp [hi]
      · rw [h.count, maxFrames_markFree, filter_cons_of_pos (by simpa), length_cons]
        omega
    · have hstep : initFrame (s, n) f = (s, n) := if_neg hf
      rw [hstep]
      have h := ih s n
      have hskip : (f :: fs).filter (· < s.maxFrames) = fs.filter (· < s.maxFrames) :=
        filter_cons_of_neg (by simpa using hf)
      exact ⟨h.maxFrames, h.usedFrames, hskip ▸ h.isFree, hskip ▸ h.count⟩

theorem foldl_markUsed (frames : List ℕ) (s : RawBitmapAllocator) :
    (frames.foldl markUsed s).maxFrames = s.maxFrames ∧
      (frames.foldl markUsed s).usedFrames = s.usedFrames ∧
      ∀ i, (frames.foldl markUsed s).isFree i = true ↔ s.isFree i = true ∧ i ∉ frames := by
  induction frames generalizing s with
  | nil => simp
  | cons f _ ih =>
    obtain ⟨hmax, hused, hfree⟩ := ih (s.markUsed f)
    refine ⟨hmax.trans maxFrames_markUsed, ?_, ?_⟩
    · rw [foldl_cons, hused, markUsed_eq]
    intro i
    rw [foldl_cons, hfree, isFree_markUsed]
    by_cases hi : i = f
    · simp [hi]
    · simp [hi]

section Start

variable (memRegions : List MemoryRegion) (cfg : FrameConfig)

theorem init_spec (s : RawBitmapAllocator) :
    (s.init memRegions cfg).maxFrames = s.maxFrames ∧
      (s.init memRegions cfg).usedFrames = s.usedFrames ∧
      (s.init memRegions cfg).totalFrames = (listedFrames memRegions s.maxFrames).length ∧
      ∀ i, (s.init memRegions cfg).isFree i = true ↔
        i ∈ listedFrames memRegions s.maxFrames ∧ ¬ Reserved cfg i := by
  have hfreed := freed_foldl (memRegions.flatMap fun r => if r.kind ≠ .usable then [] else r.frames)
    { s with bitmap := fun _ => allOnes 64 } 0
  rw [← foldl_initRegion] at hfreed
  generalize hout : memRegions.foldl initRegion
    ({ s with bitmap := fun _ => allOnes 64 }, 0) = out at hfreed
  have hnone : ∀ i, ({ s with bitmap := fun _ => allOnes 64 } :
      RawBitmapAllocator).isFree i = false := by
    intro i
    have hbit : i % 64 < 64 := Nat.mod_lt _ (by decide)
    rw [isFree_eq, getLsbD_allOnes]
    simp [hbit]
  have hlisted : ∀ i, out.1.isFree i = true ↔ i ∈ listedFrames memRegions s.maxFrames := by
    intro i
    rw [hfreed.isFree, hnone]
    simp [listedFrames]
  have hcount : out.2 = (listedFrames memRegions s.maxFrames).length := by
    rw [hfreed.count, Nat.zero_add]
    rfl
  unfold init
  rw [hout]
  dsimp only
  by_cases hres : cfg.reserveFirstMib = true
  · obtain ⟨hmax, hused, hfree⟩ := foldl_markUsed (range reservedEnd) out.1
    rw [if_pos hres]
    generalize (range reservedEnd).foldl markUsed out.1 = s' at hmax hused hfree
    refine ⟨hmax.trans hfreed.maxFrames, hused.trans hfreed.usedFrames, hcount, ?_⟩
    intro i
    have hsame : RawBitmapAllocator.isFree { s' with
          totalFrames := out.2, nextHint := if cfg.reserveFirstMib then 256 else 0 } i =
        s'.isFree i := rfl
    rw [hsame, hfree, hlisted]
    simp [Reserved, hres]
  · rw [if_neg hres]
    refine ⟨hfreed.maxFrames, hfreed.usedFrames, hcount, ?_⟩
    intro i
    have hsame : RawBitmapAllocator.isFree { out.1 with
          totalFrames := out.2, nextHint := if cfg.reserveFirstMib then 256 else 0 } i =
        out.1.isFree i := rfl
    rw [hsame, hlisted]
    simp [Reserved, hres]

theorem hintInRange_init (s : RawBitmapAllocator) : (s.init memRegions cfg).HintInRange := by
  obtain ⟨-, -, -, hfree⟩ := init_spec memRegions cfg s
  intro i _ hlt
  have hhint : (s.init memRegions cfg).nextHint =
      if cfg.reserveFirstMib then 256 else 0 := rfl
  rw [hhint] at hlt
  rw [Bool.eq_false_iff, ne_eq, hfree]
  rintro ⟨-, hnot⟩
  split at hlt
  · rename_i hres
    exact hnot ⟨hres, hlt⟩
  · exact absurd hlt (Nat.not_lt_zero i)

end Start

end RawBitmapAllocator

end IonaOs.Memory
