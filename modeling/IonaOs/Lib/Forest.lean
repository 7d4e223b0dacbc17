import Mathlib

/-!
# Forests of nodes that refer to each other
-/

namespace IonaOs.Lib

open Finset

variable {α : Type*} [DecidableEq α]

def below (kids : α → List α) : ℕ → α → List α
  | 0, _ => []
  | n + 1, a => (kids a).flatMap fun c => below kids n c ++ [c]

variable {kids : α → List α} {level : α → ℕ} {nodes : Finset α} {root x : α}

theorem count_flatMap_append {l : List α} {f g : α → List α} :
    (l.flatMap fun a => f a ++ g a).count x = (l.flatMap f).count x + (l.flatMap g).count x := by
  induction l with
  | nil => rfl
  | cons a l ih =>
    simp only [List.flatMap_cons, List.count_append, ih]
    omega

theorem count_below_succ (l : List α) (n : ℕ) : (l.flatMap (below kids (n + 1))).count x =
      (l.flatMap kids).count x + ((l.flatMap kids).flatMap (below kids n)).count x := by
  have hsplit : l.flatMap (below kids (n + 1)) =
      (l.flatMap kids).flatMap fun c => below kids n c ++ [c] := by
    rw [List.flatMap_assoc]
    rfl
  rw [hsplit, count_flatMap_append, List.flatMap_singleton', Nat.add_comm]

theorem count_filterMap_of_ne {ι : Type*} {l : List ι} (hl : l.Nodup) {i : ι} (hi : i ∈ l)
    {f g : ι → Option α} (hfg : ∀ j ≠ i, g j = f j) (x : α) :
    (l.filterMap g).count x + (if f i = some x then 1 else 0) =
      (l.filterMap f).count x + if g i = some x then 1 else 0 := by
  have hcons : ∀ (h : ι → Option α) (j : ι) (l : List ι), ((j :: l).filterMap h).count x =
      (l.filterMap h).count x + if h j = some x then 1 else 0 := by
    intro h j l
    rw [List.filterMap_cons]
    cases hj : h j with
    | none => simp
    | some => simp [List.count_cons]
  induction l with
  | nil => cases hi
  | cons j l ih =>
    obtain ⟨hj, hl⟩ := List.nodup_cons.mp hl
    rw [hcons, hcons]
    rcases List.mem_cons.mp hi with rfl | hi
    · have hsame : l.filterMap g = l.filterMap f :=
        List.filterMap_congr fun j' hj' => hfg j' fun heq => hj (heq ▸ hj')
      rw [hsame]
      omega
    · rw [hfg j fun heq => hj (heq ▸ hi)]
      have := ih hl hi
      omega

structure Rooted (kids : α → List α) (level : α → ℕ) (nodes : Finset α) (root : α) : Prop where
  pos : ∀ a ∈ nodes, 1 ≤ level a
  le : ∀ a ∈ nodes, level a ≤ level root
  top : ∀ a ∈ nodes, level a = level root → a = root
  mem : root ∈ nodes
  bottom : ∀ a ∈ nodes, level a = 1 → ∀ c ∈ kids a, c ∉ nodes
  down : ∀ a ∈ nodes, level a ≠ 1 → ∀ c ∈ kids a, c ∈ nodes ∧ level c + 1 = level a
  once : ∀ a ∈ nodes, a ≠ root → ∑ b ∈ nodes, (kids b).count a = 1

def ListsLevel (level : α → ℕ) (nodes : Finset α) (n : ℕ) (l : List α) : Prop :=
  ∀ a, l.count a = if a ∈ nodes ∧ level a = n then 1 else 0

theorem ListsLevel.sum {n : ℕ} {l : List α} (h : ListsLevel level nodes n l) (x : α) :
    (l.flatMap kids).count x = ∑ a ∈ nodes with level a = n, (kids a).count x := by
  have hfinset : l.toFinset = {a ∈ nodes | level a = n} := by
    ext a
    rw [List.mem_toFinset, ← List.count_pos_iff, h a, mem_filter]
    split_ifs with ha
    · simp [ha]
    · simp [ha]
  rw [List.count_flatMap, sum_list_map_count, hfinset]
  refine sum_congr rfl fun a ha => ?_
  rw [h a, if_pos (mem_filter.mp ha), one_smul]
  rfl

namespace Rooted

variable (h : Rooted kids level nodes root)

include h

theorem count_eq_zero {a b : α} (ha : a ∈ nodes) (hb : b ∈ nodes) (hne : level a + 1 ≠ level b) :
    (kids b).count a = 0 := by
  rw [List.count_eq_zero]
  intro hmem
  by_cases hone : level b = 1
  · exact h.bottom b hb hone a hmem ha
  · exact hne (h.down b hb hone a hmem).2

theorem lists_kids {n : ℕ} {l : List α} (hl : ListsLevel level nodes (n + 1) l) (hn : 1 ≤ n)
    (hroot : n + 1 ≤ level root) : ListsLevel level nodes n (l.flatMap kids) := by
  intro a
  rw [hl.sum a]
  split_ifs with ha
  · obtain ⟨ha, hlevel⟩ := ha
    have hne : a ≠ root := by
      rintro rfl
      omega
    refine Eq.trans ?_ (h.once a ha hne)
    refine sum_subset (filter_subset _ _) fun b hb hnot => ?_
    refine h.count_eq_zero ha hb fun heq => hnot ?_
    exact mem_filter.mpr ⟨hb, by omega⟩
  · refine sum_eq_zero fun b hb => ?_
    obtain ⟨hb, hlevel⟩ := mem_filter.mp hb
    rw [List.count_eq_zero]
    intro hmem
    obtain ⟨hc, hc'⟩ := h.down b hb (by omega) a hmem
    exact ha ⟨hc, by omega⟩

theorem count_below_level {n : ℕ} (hn : 1 ≤ n) : ∀ {l : List α}, n ≤ level root →
    ListsLevel level nodes n l → ∀ x, (l.flatMap (below kids n)).count x =
      ∑ a ∈ nodes with level a ≤ n, (kids a).count x := by
  induction n, hn using Nat.le_induction with
  | base =>
    intro l _ hl x
    have hempty : (l.flatMap kids).flatMap (below kids 0) = [] :=
      List.flatMap_eq_nil_iff.mpr fun _ _ => rfl
    rw [count_below_succ, hempty, hl.sum x]
    refine sum_congr (filter_congr fun a ha => ?_) fun _ _ => rfl
    have := h.pos a ha
    omega
  | succ n hn ih =>
    intro l hroot hl x
    have hsplit : {a ∈ nodes | level a ≤ n + 1} =
        {a ∈ nodes | level a = n + 1} ∪ {a ∈ nodes | level a ≤ n} := by
      ext a
      simp only [mem_union, mem_filter]
      grind
    rw [count_below_succ, hl.sum x, ih (by omega) (h.lists_kids hl hn hroot) x, hsplit, sum_union]
    rw [disjoint_filter]
    intro a _ heq
    omega

theorem count_below (x : α) :
    (below kids (level root) root).count x = ∑ a ∈ nodes, (kids a).count x := by
  have hroot : ListsLevel level nodes (level root) [root] := by
    intro a
    rw [List.count_singleton]
    by_cases ha : a = root
    · subst ha
      simp [h.mem]
    · have hnot : ¬ (a ∈ nodes ∧ level a = level root) := fun hin => ha (h.top a hin.1 hin.2)
      rw [if_neg hnot, if_neg (by simpa using Ne.symm ha)]
  have hall : {a ∈ nodes | level a ≤ level root} = nodes := filter_true_of_mem h.le
  have hcount := h.count_below_level (h.pos root h.mem) le_rfl hroot x
  rwa [hall, List.flatMap_singleton] at hcount

end Rooted

end IonaOs.Lib
