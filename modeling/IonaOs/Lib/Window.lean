import Mathlib

/-!
# Flat memories
-/

namespace IonaOs.Lib

open List

variable {α : Type*} {mem mem' : ℕ → α} {start off n i : ℕ} {data : List α}

def window (mem : ℕ → α) (start n : ℕ) : List α := (List.range n).map fun i => mem (start + i)

def patch (mem : ℕ → α) (off : ℕ) (data : List α) (i : ℕ) : α :=
  if off ≤ i then data[i - off]?.getD (mem i) else mem i

@[simp] theorem length_window : (window mem start n).length = n := by
  simp [window]

theorem getElem?_window (h : i < n) : (window mem start n)[i]? = some (mem (start + i)) := by
  simp [window, h]

theorem window_congr (h : ∀ i, start ≤ i → i < start + n → mem i = mem' i) :
    window mem start n = window mem' start n := by
  apply map_congr_left
  intro i hi
  exact h _ (by omega) (by simpa using hi)

theorem window_eq_replicate {a : α} (h : ∀ i, start ≤ i → mem i = a) :
    window mem start n = replicate n a := by
  rw [window, eq_replicate_iff]
  refine ⟨by simp, fun b hb => ?_⟩
  obtain ⟨i, -, rfl⟩ := mem_map.mp hb
  exact h _ (by omega)

theorem window_append (mem : ℕ → α) (start m n : ℕ) :
    window mem start m ++ window mem (start + m) n = window mem start (m + n) := by
  simp only [window, range_add, map_append, map_map]
  congr 1
  apply map_congr_left
  intro i _
  rw [Function.comp_apply, Nat.add_assoc]

theorem take_window (h : off ≤ n) : (window mem start n).take off = window mem start off := by
  obtain ⟨r, rfl⟩ := Nat.exists_eq_add_of_le h
  rw [← window_append, take_left' length_window]

theorem drop_window (h : off ≤ n) :
    (window mem start n).drop off = window mem (start + off) (n - off) := by
  obtain ⟨r, rfl⟩ := Nat.exists_eq_add_of_le h
  rw [← window_append, drop_left' length_window, Nat.add_sub_cancel_left]

theorem patch_of_lt (h : i < off) : patch mem off data i = mem i := if_neg (by omega)

theorem patch_of_le (h : off + data.length ≤ i) : patch mem off data i = mem i := by
  rw [patch, if_pos (by omega), getElem?_eq_none (by omega), Option.getD_none]

@[simp] theorem patch_nil : patch mem off [] = mem := by
  funext i
  simp [patch]

theorem patch_patch (mem : ℕ → α) (off : ℕ) (xs ys : List α) :
    patch (patch mem off xs) (off + xs.length) ys = patch mem off (xs ++ ys) := by
  funext i
  by_cases hi : off + xs.length ≤ i
  · rw [patch, if_pos hi, patch_of_le hi, patch, if_pos (by omega),
      getElem?_append_right (by omega)]
    congr 2
    omega
  · rw [patch_of_lt (by omega), patch, patch]
    split
    · rw [getElem?_append_left (by omega)]
    · rfl

theorem window_patch (mem : ℕ → α) (off : ℕ) (data : List α) :
    window (patch mem off data) off data.length = data := by
  apply ext_getElem?
  intro i
  by_cases hi : i < data.length
  · rw [getElem?_window hi, patch, if_pos (by omega), Nat.add_sub_cancel_left,
      getElem?_eq_getElem hi, Option.getD_some]
  · rw [getElem?_eq_none (by simpa using hi), getElem?_eq_none (by omega)]

theorem window_patch_of_covers (mem : ℕ → α) (start : ℕ) (h : off + data.length ≤ n) :
    window (patch mem (start + off) data) start n =
      (window mem start n).take off ++ data ++ (window mem start n).drop (off + data.length) := by
  rw [take_window (by omega), drop_window h]
  obtain ⟨r, rfl⟩ := Nat.exists_eq_add_of_le h
  have hbefore : window (patch mem (start + off) data) start off = window mem start off :=
    window_congr fun i _ hi => patch_of_lt hi
  have hafter : window (patch mem (start + off) data) (start + (off + data.length)) r =
      window mem (start + (off + data.length)) r :=
    window_congr fun i hi _ => patch_of_le (by omega)
  rw [← window_append, ← window_append, hbefore, hafter, window_patch, Nat.add_sub_cancel_left]

theorem window_patch_of_apart (h : start + n ≤ off ∨ off + data.length ≤ start) :
    window (patch mem off data) start n = window mem start n := by
  apply window_congr
  intro i hstart hend
  obtain h | h := h
  · exact patch_of_lt (by omega)
  · exact patch_of_le (by omega)

/-! ## Patch after patch -/

def patchAll (mem : ℕ → α) (ps : List (ℕ × List α)) : ℕ → α :=
  ps.foldl (fun mem p => patch mem p.1 p.2) mem

/-- What the last of the patches to cover position `i` puts there. -/
def lastPut (ps : List (ℕ × List α)) (i : ℕ) : Option α :=
  ps.reverse.findSome? fun p => if p.1 ≤ i then p.2[i - p.1]? else none

theorem patchAll_concat (ps : List (ℕ × List α)) (off : ℕ) (data : List α) :
    patchAll mem (ps ++ [(off, data)]) = patch (patchAll mem ps) off data := by
  simp [patchAll]

theorem patchAll_apply (mem : ℕ → α) (ps : List (ℕ × List α)) (i : ℕ) :
    patchAll mem ps i = (lastPut ps i).getD (mem i) := by
  induction ps using reverseRecOn with
  | nil => rfl
  | append_singleton ps p ih =>
    have hlast : lastPut (ps ++ [p]) i =
        (if p.1 ≤ i then p.2[i - p.1]? else none).or (lastPut ps i) := by
      rw [lastPut, reverse_append, reverse_singleton, singleton_append, findSome?_cons]
      cases (if p.1 ≤ i then p.2[i - p.1]? else none) <;> rfl
    rw [patchAll_concat ps p.1 p.2, patch, hlast, ih]
    split
    · cases p.2[i - p.1]? <;> simp
    · simp

end IonaOs.Lib
