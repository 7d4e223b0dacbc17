import Mathlib

/-!
# Sums over the values of an ordered map
-/

namespace IonaOs.Lib

open Std ExtTreeMap

variable {α β : Type*} {cmp : α → α → Ordering} [TransCmp cmp] [LawfulEqCmp cmp]

/-- The sum of `f` over the values of a map. -/
def valueSum (f : β → ℕ) (t : ExtTreeMap α β cmp) : ℕ := (t.toList.map fun e => f e.2).sum

omit [LawfulEqCmp cmp] in
@[simp] theorem toList_empty : (∅ : ExtTreeMap α β cmp).toList = [] := rfl

theorem nodup_toList (t : ExtTreeMap α β cmp) : t.toList.Nodup := by
  refine distinct_keys_toList.imp ?_
  intro a b hab heq
  subst heq
  exact hab ReflCmp.compare_self

theorem toList_insert_perm [DecidableEq α] (t : ExtTreeMap α β cmp) (k : α) (v : β) :
    (t.insert k v).toList.Perm ((k, v) :: t.toList.filter (fun e => e.1 ≠ k)) := by
  have hnodup : ((k, v) :: t.toList.filter (fun e => e.1 ≠ k)).Nodup := by
    refine List.nodup_cons.mpr ⟨?_, (nodup_toList t).filter _⟩
    simp
  rw [List.perm_ext_iff_of_nodup (nodup_toList _) hnodup]
  rintro ⟨j, w⟩
  simp only [mem_toList_iff_getElem?_eq_some, getElem?_insert,
    LawfulEqCmp.compare_eq_iff_eq, List.mem_cons, List.mem_filter, Prod.mk.injEq]
  by_cases hj : k = j
  · simp [hj, eq_comm]
  · simp [hj, Ne.symm hj]

theorem valueSum_insert [DecidableEq α] (f : β → ℕ) (t : ExtTreeMap α β cmp) (k : α) (v : β) :
    valueSum f (t.insert k v) + (t[k]?.map f).getD 0 = valueSum f t + f v := by
  have hins : ∀ u, valueSum f (t.insert k u) =
      f u + ((t.toList.filter (fun e => e.1 ≠ k)).map fun e => f e.2).sum := by
    intro u
    rw [valueSum, ((toList_insert_perm t k u).map _).sum_eq]
    simp
  cases hk : t[k]? with
  | none =>
    -- Nothing stood under the key, so nothing is filtered out.
    have hfilter : t.toList.filter (fun e => e.1 ≠ k) = t.toList := by
      refine List.filter_eq_self.mpr ?_
      rintro ⟨j, w⟩ hmem
      rw [mem_toList_iff_getElem?_eq_some] at hmem
      have hne : j ≠ k := by
        rintro rfl
        simp [hk] at hmem
      simpa using hne
    rw [hins v, hfilter, valueSum]
    simp [Nat.add_comm]
  | some w =>
    -- Writing the old value back changes nothing, which gives the old total.
    have hsame : t.insert k w = t := by
      refine ext_getElem? fun j => ?_
      rw [getElem?_insert]
      by_cases hj : cmp k j = .eq
      · obtain rfl := LawfulEqCmp.compare_eq_iff_eq.mp hj
        rw [if_pos hj, hk]
      · rw [if_neg hj]
    have hold := hins w
    rw [hsame] at hold
    rw [hins v, hold]
    simp only [Option.map_some, Option.getD_some]
    omega

variable {t : ExtTreeMap α β cmp}

theorem insert_erase {k : α} {v : β} (h : t[k]? = some v) : (t.erase k).insert k v = t := by
  refine ext_getElem? fun j => ?_
  rw [getElem?_insert, getElem?_erase]
  by_cases hj : cmp k j = .eq
  · obtain rfl := LawfulEqCmp.compare_eq_iff_eq.mp hj
    rw [if_pos hj, h]
  · rw [if_neg hj, if_neg hj]

theorem valueSum_erase [DecidableEq α] (f : β → ℕ) {k : α} {v : β} (h : t[k]? = some v) :
    valueSum f (t.erase k) + f v = valueSum f t := by
  have hback := valueSum_insert f (t.erase k) k v
  rw [insert_erase h] at hback
  simpa using hback.symm

omit [LawfulEqCmp cmp] in
@[simp] theorem valueSum_empty (f : β → ℕ) : valueSum f (∅ : ExtTreeMap α β cmp) = 0 := rfl

omit [LawfulEqCmp cmp] in
theorem forall_write_iff {u : ExtTreeMap α β cmp} {k : α} {v : β} [DecidableEq α]
    (h : ∀ j : α, u[j]? = if k = j then some v else t[j]?) {P : α → β → Prop} :
    (∀ j w, u[j]? = some w → P j w) ↔ P k v ∧ ∀ j w, k ≠ j → t[j]? = some w → P j w := by
  constructor
  · intro hall
    refine ⟨hall k v (by rw [h, if_pos rfl]), ?_⟩
    intro j w hne hj
    exact hall j w (by rw [h, if_neg hne, hj])
  · rintro ⟨hnew, hold⟩ j w hj
    rw [h] at hj
    by_cases hkj : k = j
    · rw [if_pos hkj, Option.some.injEq] at hj
      exact hkj ▸ hj ▸ hnew
    · rw [if_neg hkj] at hj
      exact hold j w hkj hj

/-! ## Maps that are functions -/

variable {ι : Type*} [Fintype ι] [DecidableEq ι]

theorem sum_update {M : Type*} [AddCommMonoid M] (f : β → M) (w : ι → β) (i : ι) (v : β) :
    ∑ j, f (Function.update w i v j) + f (w i) = ∑ j, f (w j) + f v := by
  have hpush : ∀ j, f (Function.update w i v j) = Function.update (fun j => f (w j)) i (f v) j :=
    fun j => Function.apply_update (fun _ => f) w i v j
  simp only [hpush]
  rw [Finset.sum_update_of_mem (Finset.mem_univ i), Finset.sdiff_singleton_eq_erase,
    ← Finset.add_sum_erase _ _ (Finset.mem_univ i)]
  abel

/-- The sum of `f` over the values of a function. -/
def holdings (f : β → ℕ) (w : ι → β) : ℕ := ∑ i, f (w i)

theorem holdings_update (f : β → ℕ) (w : ι → β) (i : ι) (v : β) :
    holdings f (Function.update w i v) + f (w i) = holdings f w + f v :=
  sum_update f w i v

end IonaOs.Lib
