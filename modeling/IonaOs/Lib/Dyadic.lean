import Mathlib

/-!
# Dyadic blocks
-/

namespace IonaOs.Lib

/-- The numbers with the quotient `index` by `2 ^ order`. -/
@[ext]
structure Block where
  order : ℕ
  index : ℕ
deriving DecidableEq

open Block hiding ext

namespace Block

variable {b c : Block} {p q : ℕ}

instance : Membership ℕ Block := ⟨fun b p => p / 2 ^ b.order = b.index⟩

theorem mem_def : p ∈ b ↔ p / 2 ^ b.order = b.index := Iff.rfl

instance (p : ℕ) (b : Block) : Decidable (p ∈ b) := inferInstanceAs (Decidable (_ = _))

def first (b : Block) : ℕ := b.index * 2 ^ b.order

theorem mem_iff : p ∈ b ↔ b.first ≤ p ∧ p < b.first + 2 ^ b.order := by
  rw [mem_def, first, Nat.div_eq_iff (Nat.two_pow_pos _)]
  have hpos := Nat.two_pow_pos b.order
  constructor
  · rintro ⟨hle, hlt⟩
    omega
  · rintro ⟨hle, hlt⟩
    omega

theorem first_mem (b : Block) : b.first ∈ b := Nat.mul_div_cancel _ (Nat.two_pow_pos _)

theorem eq_of_mem (hb : p ∈ b) (hc : p ∈ c) (h : b.order = c.order) : b = c := by
  rw [mem_def] at hb hc
  refine Block.ext h ?_
  rw [← hb, ← hc, h]

def Within (b c : Block) : Prop := ∀ p ∈ b, p ∈ c

theorem Within.refl (b : Block) : b.Within b := fun _ h => h

theorem within_of_mem (hb : p ∈ b) (hc : p ∈ c) (h : b.order ≤ c.order) : b.Within c := by
  intro q hq
  have hpow : 2 ^ c.order = 2 ^ b.order * 2 ^ (c.order - b.order) := by
    rw [← pow_add, Nat.add_sub_cancel' h]
  rw [mem_def] at hb hc hq ⊢
  rw [← hc, hpow, ← Nat.div_div_eq_div_mul, ← Nat.div_div_eq_div_mul, hb, hq]

theorem Within.order_le (h : b.Within c) : b.order ≤ c.order := by
  by_contra hlt
  have hpow : 2 ^ c.order < 2 ^ b.order := Nat.pow_lt_pow_right (by decide) (Nat.not_le.mp hlt)
  -- The last number of `b` is not in `c`, which has fewer numbers.
  have hlast : b.first + (2 ^ b.order - 1) ∈ c := by
    refine h _ (mem_iff.mpr ?_)
    have hpos := Nat.two_pow_pos b.order
    omega
  have hfirst := mem_iff.mp (h _ b.first_mem)
  have hlast' := mem_iff.mp hlast
  omega

/-! ## Buddies -/

def parent (b : Block) : Block := ⟨b.order + 1, b.index / 2⟩

def buddy (b : Block) : Block :=
  ⟨b.order, if b.index % 2 = 0 then b.index + 1 else b.index - 1⟩

@[simp] theorem order_parent (b : Block) : b.parent.order = b.order + 1 := rfl
@[simp] theorem order_buddy (b : Block) : b.buddy.order = b.order := rfl

theorem buddy_of_even (h : b.index % 2 = 0) : b.buddy.index = b.index + 1 := if_pos h
theorem buddy_of_odd (h : b.index % 2 ≠ 0) : b.buddy.index = b.index - 1 := if_neg h

theorem div_two_pow_succ (p o : ℕ) : p / 2 ^ (o + 1) = p / 2 ^ o / 2 := by
  rw [pow_succ, Nat.div_div_eq_div_mul]

theorem mem_parent_iff : p ∈ b.parent ↔ p ∈ b ∨ p ∈ b.buddy := by
  simp only [mem_def, parent, order_buddy, div_two_pow_succ]
  by_cases heven : b.index % 2 = 0
  · rw [buddy_of_even heven]
    omega
  · rw [buddy_of_odd heven]
    omega

theorem notMem_buddy (h : p ∈ b) : p ∉ b.buddy := by
  rw [mem_def] at h ⊢
  rw [order_buddy, h]
  by_cases heven : b.index % 2 = 0
  · rw [buddy_of_even heven]
    omega
  · rw [buddy_of_odd heven]
    omega

@[simp] theorem buddy_buddy (b : Block) : b.buddy.buddy = b := by
  refine Block.ext rfl ?_
  by_cases heven : b.index % 2 = 0
  · rw [buddy_of_odd (by rw [buddy_of_even heven]; omega), buddy_of_even heven]
    omega
  · rw [buddy_of_even (by rw [buddy_of_odd heven]; omega), buddy_of_odd heven]
    omega

@[simp] theorem parent_buddy (b : Block) : b.buddy.parent = b.parent := by
  refine Block.ext rfl ?_
  simp only [parent]
  by_cases heven : b.index % 2 = 0
  · rw [buddy_of_even heven]
    omega
  · rw [buddy_of_odd heven]
    omega

theorem buddy_ne (b : Block) : b.buddy ≠ b := by
  intro h
  have hnot := notMem_buddy b.first_mem
  rw [h] at hnot
  exact hnot b.first_mem

theorem within_parent (b : Block) : b.Within b.parent := fun _ h => mem_parent_iff.mpr (.inl h)

theorem parent_within (h : b.Within c) (hne : b ≠ c) : b.parent.Within c := by
  have hlt : b.order < c.order := by
    by_contra hge
    exact hne (eq_of_mem b.first_mem (h _ b.first_mem)
      (Nat.le_antisymm h.order_le (Nat.not_lt.mp hge)))
  exact within_of_mem (within_parent b _ b.first_mem) (h _ b.first_mem) hlt

theorem exists_parent_eq (h : b.order ≠ 0) : ∃ c : Block, c.parent = b :=
  ⟨⟨b.order - 1, 2 * b.index⟩,
    Block.ext (Nat.sub_add_cancel (Nat.pos_of_ne_zero h)) (Nat.mul_div_cancel_left _ (by decide))⟩

/-! ## Weights -/

def Additive (w : Block → ℕ) : Prop := ∀ b, w b.parent = w b + w b.buddy

theorem additive_mem (p : ℕ) : Additive fun b => if p ∈ b then 1 else 0 := by
  intro b
  by_cases hb : p ∈ b
  · simp [mem_parent_iff, hb, notMem_buddy hb]
  · simp [mem_parent_iff, hb]

theorem additive_size : Additive fun b => 2 ^ b.order := by
  intro b
  simp only [order_parent, order_buddy]
  ring

def weigh (w : Block → ℕ) (l : List Block) : ℕ := (l.map w).sum

section Weigh

variable {w : Block → ℕ} {l l' : List Block}

@[simp] theorem weigh_nil : weigh w [] = 0 := rfl
@[simp] theorem weigh_cons : weigh w (b :: l) = w b + weigh w l := rfl

@[simp] theorem weigh_append : weigh w (l ++ l') = weigh w l + weigh w l' := by
  simp [weigh]

theorem weigh_perm (h : l.Perm l') : weigh w l = weigh w l' := (h.map w).sum_eq

theorem le_weigh (h : b ∈ l) : w b ≤ weigh w l := List.le_sum_of_mem (List.mem_map_of_mem h)

end Weigh

def cover (l : List Block) (p : ℕ) : ℕ := weigh (fun b => if p ∈ b then 1 else 0) l

theorem cover_pos_iff {l : List Block} : 0 < cover l p ↔ ∃ b ∈ l, p ∈ b := by
  induction l with
  | nil => simp [cover]
  | cons b l ih =>
    have hcons : cover (b :: l) p = (if p ∈ b then 1 else 0) + cover l p := rfl
    by_cases hb : p ∈ b
    · simp [hcons, hb]
    · simp [hcons, hb, ih]

theorem pairwise_of_cover_le_one {l : List Block} (h : ∀ p, cover l p ≤ 1) :
    l.Pairwise fun b c => ∀ p ∈ b, p ∉ c := by
  induction l with
  | nil => exact List.Pairwise.nil
  | cons b l ih =>
    have hcons : ∀ p, cover (b :: l) p = (if p ∈ b then 1 else 0) + cover l p := fun _ => rfl
    refine List.pairwise_cons.mpr ⟨?_, ih ?_⟩
    · intro c hc p hpb hpc
      have hpos : 0 < cover l p := cover_pos_iff.mpr ⟨c, hc, hpc⟩
      have hle := h p
      rw [hcons, if_pos hpb] at hle
      omega
    · intro p
      have hle := h p
      rw [hcons] at hle
      omega

end Block

/-! ## Tilings -/

structure Tiling (F : Set Block) (P : Set ℕ) : Prop where
  covers : ∀ p, p ∈ P ↔ ∃ b ∈ F, p ∈ b
  disjoint : ∀ b ∈ F, ∀ c ∈ F, ∀ p, p ∈ b → p ∈ c → b = c

/-- No block has the order `K` or more, and no two buddies have a parent below that order. -/
structure Reduced (K : ℕ) (F : Set Block) : Prop where
  order_lt : ∀ b ∈ F, b.order < K
  buddy : ∀ b ∈ F, b.order + 1 < K → b.buddy ∉ F

namespace Tiling

variable {F G : Set Block} {P : Set ℕ} {K : ℕ} {b c : Block}

def Fits (P : Set ℕ) (b : Block) : Prop := ∀ p ∈ b, p ∈ P

theorem of_cover {l : List Block} (h1 : ∀ p ∈ P, cover l p = 1)
    (h0 : ∀ p ∉ P, cover l p = 0) : Tiling {b | b ∈ l} P := by
  have hle : ∀ p, cover l p ≤ 1 := by
    intro p
    by_cases hp : p ∈ P
    · exact (h1 p hp).le
    · rw [h0 p hp]
      exact Nat.zero_le 1
  refine ⟨?_, ?_⟩
  · intro p
    simp only [Set.mem_ofPred_eq, ← cover_pos_iff]
    by_cases hp : p ∈ P
    · simp [hp, h1 p hp]
    · simp [hp, h0 p hp]
  · intro b hb c hc p hpb hpc
    by_contra hne
    have : Std.Symm fun b c : Block => ∀ p ∈ b, p ∉ c := ⟨fun b c hbc p hpc hpb => hbc p hpb hpc⟩
    exact (pairwise_of_cover_le_one hle).forall hb hc hne p hpb hpc

theorem fits (h : Tiling F P) (hb : b ∈ F) : Fits P b :=
  fun p hp => (h.covers p).mpr ⟨b, hb, hp⟩

theorem exists_within (h : Tiling F P) (hred : Reduced K F) (hc : c.order < K) (hfit : Fits P c) :
    ∃ b ∈ F, c.Within b := by
  -- The blocks that hold the two halves hold the whole, or are the halves: two buddies.
  induction ho : c.order generalizing c with
  | zero =>
    obtain ⟨b, hb, hmem⟩ := (h.covers c.first).mp (hfit _ c.first_mem)
    exact ⟨b, hb, within_of_mem c.first_mem hmem (by omega)⟩
  | succ o ih =>
    obtain ⟨d, rfl⟩ := exists_parent_eq (b := c) (by omega)
    have hdo : d.order = o := by simpa using ho
    have half : ∀ e : Block, e.order = o → e.parent = d.parent →
        e ∈ F ∨ ∃ b ∈ F, d.parent.Within b := by
      intro e heo hpar
      obtain ⟨b, hb, hwithin⟩ := ih (c := e) (by omega)
        (fun p hp => hfit p (hpar ▸ within_parent e p hp)) heo
      by_cases heq : e = b
      · exact .inl (heq ▸ hb)
      · exact .inr ⟨b, hb, hpar ▸ parent_within hwithin heq⟩
    rcases half d hdo rfl with hd | hwhole
    · rcases half d.buddy hdo d.parent_buddy with hbuddy | hwhole
      · exact absurd hbuddy (hred.buddy d hd (by simpa using hc))
      · exact hwhole
    · exact hwhole

theorem mem_iff (h : Tiling F P) (hred : Reduced K F) :
    b ∈ F ↔ b.order < K ∧ Fits P b ∧ (b.order + 1 < K → ¬ Fits P b.parent) := by
  constructor
  · intro hb
    refine ⟨hred.order_lt b hb, h.fits hb, ?_⟩
    intro hK hfit
    obtain ⟨c, hc, hwithin⟩ := h.exists_within hred hK hfit
    have hmem := hwithin _ (b.within_parent _ b.first_mem)
    have hle := hwithin.order_le
    rw [← h.disjoint b hb c hc _ b.first_mem hmem, order_parent] at hle
    omega
  · rintro ⟨hK, hfit, hmax⟩
    obtain ⟨c, hc, hwithin⟩ := h.exists_within hred hK hfit
    by_cases heq : b = c
    · exact heq ▸ hc
    have hparent := parent_within hwithin heq
    have hle := hparent.order_le
    rw [order_parent] at hle
    have hlt := hred.order_lt c hc
    exact absurd (fun p hp => h.fits hc p (hparent p hp)) (hmax (by omega))

theorem unique (hF : Tiling F P) (hG : Tiling G P) (hredF : Reduced K F) (hredG : Reduced K G) :
    F = G := by
  ext b
  rw [hF.mem_iff hredF, hG.mem_iff hredG]

end Tiling

end IonaOs.Lib
