import Mathlib

/-!
# Stable priority queues
-/

namespace IonaOs.Lib

open List

variable {α β κ : Type*} [LinearOrder κ] {key : α → κ} {older : α → α → Prop}
  {x : α} {l : List α}

/-- `x` goes before the first entry of a larger key. -/
def insertLast (key : α → κ) (x : α) (l : List α) : List α :=
  l.takeWhile (fun a => key a ≤ key x) ++ x :: l.dropWhile (fun a => key a ≤ key x)

/-- `a` is served before `b`. -/
def Ahead (key : α → κ) (older : α → α → Prop) (a b : α) : Prop :=
  key a < key b ∨ key a = key b ∧ older a b

theorem Ahead.le {a b : α} (h : Ahead key older a b) : key a ≤ key b := by
  rcases h with h | ⟨h, -⟩
  · exact h.le
  · exact h.le

theorem perm_insertLast : (insertLast key x l).Perm (x :: l) := by
  calc (insertLast key x l).Perm
        (x :: (l.takeWhile (fun a => key a ≤ key x) ++ l.dropWhile (fun a => key a ≤ key x))) :=
          perm_middle
    _ = x :: l := by rw [takeWhile_append_dropWhile]

theorem length_insertLast : (insertLast key x l).length = l.length + 1 := perm_insertLast.length_eq

theorem map_insertLast (f : β → α) (x : β) (l : List β) :
    (insertLast (fun b => key (f b)) x l).map f = insertLast key (f x) (l.map f) := by
  simp [insertLast, takeWhile_map, dropWhile_map, Function.comp_def]

theorem lt_of_mem_dropWhile (h : l.Pairwise (Ahead key older)) {k : κ} {b : α}
    (hb : b ∈ l.dropWhile fun a => key a ≤ k) : k < key b := by
  induction l with
  | nil => simp at hb
  | cons a l ih =>
    obtain ⟨ha, hl⟩ := pairwise_cons.mp h
    by_cases hak : key a ≤ k
    · rw [dropWhile_cons_of_pos (by simpa using hak)] at hb
      exact ih hl hb
    rw [dropWhile_cons_of_neg (by simpa using hak)] at hb
    have hka := not_le.mp hak
    rcases mem_cons.mp hb with rfl | hb
    · exact hka
    · exact hka.trans_le (ha b hb).le

theorem pairwise_insertLast (h : l.Pairwise (Ahead key older)) (hx : ∀ a ∈ l, older a x) :
    (insertLast key x l).Pairwise (Ahead key older) := by
  have hsplit : (l.takeWhile (fun a => key a ≤ key x) ++
      l.dropWhile (fun a => key a ≤ key x)).Pairwise (Ahead key older) := by
    rwa [takeWhile_append_dropWhile]
  obtain ⟨hfront, hback, hcross⟩ := pairwise_append.mp hsplit
  have hle : ∀ a ∈ l.takeWhile (fun a => key a ≤ key x), Ahead key older a x := by
    intro a ha
    have hkey : key a ≤ key x := by simpa using mem_takeWhile_imp ha
    rcases hkey.lt_or_eq with hlt | heq
    · exact .inl hlt
    · exact .inr ⟨heq, hx a ((takeWhile_sublist _).subset ha)⟩
  refine pairwise_append.mpr ⟨hfront, pairwise_cons.mpr ⟨?_, hback⟩, ?_⟩
  · intro b hb
    exact .inl (lt_of_mem_dropWhile h hb)
  intro a ha b hb
  rcases mem_cons.mp hb with rfl | hb
  · exact hle a ha
  · exact hcross a ha b hb

/-! ## Accounts -/

structure Account (α : Type*) where
  accepted : List α
  received : List ℕ

namespace Account

variable {a a' : Account α} {i : ℕ} {xs : List α}

def empty : Account α := ⟨[], []⟩

def pending (a : Account α) : List ℕ :=
  (List.range a.accepted.length).filter fun i => i ∉ a.received

def accept (a : Account α) (xs : List α) : Account α := { a with accepted := a.accepted ++ xs }

def receive (a : Account α) (i : ℕ) : Account α := { a with received := a.received ++ [i] }

/-- Number `i`, which is `x`, is the earliest of the pending entries with the smallest key. -/
def First (key : α → κ) (a : Account α) (i : ℕ) (x : α) : Prop :=
  i ∈ a.pending ∧ a.accepted[i]? = some x ∧
    ∀ j ∈ a.pending, ∀ y, a.accepted[j]? = some y → key x < key y ∨ key x = key y ∧ i ≤ j

inductive Takes (key : α → κ) : Account α → List α → Account α → Prop where
  | nil (a : Account α) : Takes key a [] a
  | cons {a a' : Account α} {i : ℕ} {x : α} {xs : List α} (first : a.First key i x)
      (rest : Takes key (a.receive i) xs a') : Takes key a (x :: xs) a'

structure Sound (a : Account α) : Prop where
  lt : ∀ i ∈ a.received, i < a.accepted.length
  nodup : a.received.Nodup

theorem mem_pending : i ∈ a.pending ↔ i < a.accepted.length ∧ i ∉ a.received := by
  simp [pending]

theorem Sound.pending_accept (h : a.Sound) :
    (a.accept [x]).pending = a.pending ++ [a.accepted.length] := by
  have hfresh : a.accepted.length ∉ a.received := fun hmem => lt_irrefl _ (h.lt _ hmem)
  simp only [pending, accept, length_append, length_singleton, range_succ, filter_append]
  congr 1
  simp [hfresh]

theorem pending_receive : (a.receive i).pending = a.pending.filter (· ≠ i) := by
  simp only [pending, receive, filter_filter]
  refine filter_congr fun j _ => ?_
  simp [and_comm]

structure Holds (key : α → κ) (a : Account α) (l : List α) : Prop where
  sound : a.Sound
  order : ∃ order : List (ℕ × α), order.map Prod.snd = l ∧
    (order.map Prod.fst).Perm a.pending ∧ (∀ p ∈ order, a.accepted[p.1]? = some p.2) ∧
    order.Pairwise (Ahead (fun p => key p.2) fun p q => p.1 < q.1)

theorem Holds.perm (h : a.Holds key l) : (a.pending.filterMap (a.accepted[·]?)).Perm l := by
  obtain ⟨order, rfl, hperm, hmem, -⟩ := h.order
  refine (hperm.filterMap _).symm.trans (.of_eq ?_)
  rw [filterMap_map]
  calc order.filterMap ((a.accepted[·]?) ∘ Prod.fst)
      = order.filterMap (some ∘ Prod.snd) := filterMap_congr fun p hp => hmem p hp
    _ = order.map Prod.snd := by rw [filterMap_eq_map]

theorem Holds.accept (h : a.Holds key l) (x : α) :
    (a.accept [x]).Holds key (insertLast key x l) := by
  obtain ⟨order, rfl, hperm, hmem, hord⟩ := h.order
  have hlt : ∀ p ∈ order, p.1 < a.accepted.length := fun p hp =>
    (mem_pending.mp (hperm.mem_iff.mp (mem_map_of_mem hp))).1
  refine ⟨⟨fun i hi => ?_, h.sound.nodup⟩, insertLast (fun p => key p.2) (a.accepted.length, x)
    order, map_insertLast Prod.snd _ _, ?_, ?_, pairwise_insertLast hord hlt⟩
  · have := h.sound.lt i hi
    simp only [Account.accept, length_append, length_singleton]
    omega
  · calc (map Prod.fst (insertLast (fun p => key p.2) (a.accepted.length, x) order)).Perm
          (a.accepted.length :: order.map Prod.fst) := perm_insertLast.map _
      _ |>.Perm (a.accepted.length :: a.pending) := hperm.cons _
      _ |>.Perm (a.accept [x]).pending := by
          rw [h.sound.pending_accept]
          exact (perm_append_singleton _ _).symm
  · intro p hp
    rcases mem_cons.mp (perm_insertLast.mem_iff.mp hp) with rfl | hp
    · simp [Account.accept]
    · simp only [Account.accept]
      rw [getElem?_append_left (hlt p hp)]
      exact hmem p hp

theorem Holds.take (h : a.Holds key (x :: l)) :
    ∃ i, a.First key i x ∧ (a.receive i).Holds key l := by
  obtain ⟨order, hmap, hperm, hmem, hord⟩ := h.order
  match order, hmap with
  | (i, y) :: order, hmap =>
    obtain ⟨rfl, rfl⟩ := cons.inj hmap
    obtain ⟨hfront, hord⟩ := pairwise_cons.mp hord
    have hi : i ∈ a.pending := hperm.mem_iff.mp (by simp)
    have hix : a.accepted[i]? = some y := hmem (i, y) mem_cons_self
    have hnodup : ((i :: order.map Prod.fst)).Nodup := hperm.nodup_iff.mpr (nodup_range.filter _)
    refine ⟨i, ⟨hi, hix, ?_⟩, ⟨?_, ?_⟩, order, rfl, ?_, ?_, hord⟩
    · intro j hj z hz
      have hj' : j ∈ i :: order.map Prod.fst := hperm.mem_iff.mpr hj
      rcases mem_cons.mp hj' with rfl | hj'
      · cases hix.symm.trans hz
        exact .inr ⟨rfl, le_rfl⟩
      · obtain ⟨p, hp, rfl⟩ := mem_map.mp hj'
        cases (hmem p (mem_cons_of_mem _ hp)).symm.trans hz
        exact (hfront p hp).imp id fun h => ⟨h.1, h.2.le⟩
    · intro j hj
      rcases mem_append.mp hj with hj | hj
      · exact h.sound.lt j hj
      · rw [mem_singleton.mp hj]
        exact (mem_pending.mp hi).1
    · refine nodup_append.mpr ⟨h.sound.nodup, nodup_singleton i, ?_⟩
      intro j hj k hk
      rw [mem_singleton.mp hk]
      rintro rfl
      exact (mem_pending.mp hi).2 hj
    · rw [pending_receive]
      have hfilter := hperm.filter (· ≠ i)
      have hself : filter (fun j => decide (j ≠ i)) (order.map Prod.fst) =
          order.map Prod.fst := by
        refine filter_eq_self.mpr fun j hj => ?_
        have := (nodup_cons.mp hnodup).1
        simp only [decide_eq_true_eq]
        rintro rfl
        exact this hj
      rwa [map_cons, filter_cons_of_neg (by simp), hself] at hfilter
    · intro p hp
      exact hmem p (mem_cons_of_mem _ hp)

theorem Holds.takeAll (h : a.Holds key l) : ∃ a', Takes key a l a' ∧ a'.Holds key [] := by
  induction l generalizing a with
  | nil => exact ⟨a, .nil a, h⟩
  | cons x l ih =>
    obtain ⟨i, hfirst, hrest⟩ := h.take
    obtain ⟨a', htakes, hempty⟩ := ih hrest
    exact ⟨a', .cons hfirst htakes, hempty⟩

theorem Holds.pending_eq_nil (h : a.Holds key []) : a.pending = [] := by
  obtain ⟨order, hmap, hperm, -⟩ := h.order
  rw [map_eq_nil_iff.mp hmap] at hperm
  exact hperm.symm.eq_nil

def delivered (a : Account α) : List α := a.received.filterMap (a.accepted[·]?)

theorem Sound.delivered_accept (h : a.Sound) (xs : List α) :
    (a.accept xs).delivered = a.delivered := by
  refine filterMap_congr fun i hi => ?_
  exact getElem?_append_left (h.lt i hi)

theorem Takes.delivered_eq (h : Takes key a xs a') :
    a'.accepted = a.accepted ∧ a'.delivered = a.delivered ++ xs := by
  induction h with
  | nil => exact ⟨rfl, by simp⟩
  | cons first _ ih =>
    refine ⟨ih.1, ih.2.trans ?_⟩
    simp [delivered, receive, first.2.1]

end Account

end IonaOs.Lib
