import Mathlib

/-!
# Ring buffers
-/

namespace IonaOs.Lib

open List

variable {α : Type*} {buf : List α} {head count : ℕ}

def ring (buf : List α) (head count : ℕ) : List α := (buf.rotate head).take count

theorem length_ring (h : count ≤ buf.length) : (ring buf head count).length = count := by
  rw [ring, length_take, length_rotate, min_eq_left h]

theorem getElem?_ring {i : ℕ} (h : count ≤ buf.length) (hi : i < count) :
    (ring buf head count)[i]? = buf[(i + head) % buf.length]? := by
  rw [ring, getElem?_take, if_pos hi, getElem?_rotate (by omega)]

theorem ring_zero : ring buf head 0 = [] := take_zero

theorem ring_set (h : count < buf.length) (a : α) :
    ring (buf.set ((head + count) % buf.length) a) head (count + 1) =
      ring buf head count ++ [a] := by
  have hlen : (ring buf head count).length = count := length_ring h.le
  refine ext_getElem? fun i => ?_
  obtain hi | rfl | hi := lt_trichotomy i count
  · -- the positions of two different elements differ
    have hne : (head + count) % buf.length ≠ (i + head) % buf.length := by
      intro heq
      have hmod : count + head ≡ i + head [MOD buf.length] := by
        rw [Nat.add_comm count]
        exact heq
      have := (Nat.ModEq.add_right_cancel' head hmod).eq_of_lt_of_lt h (by omega)
      omega
    rw [getElem?_ring (by simp; omega) (by omega), length_set, getElem?_set_ne hne,
      getElem?_append_left (by omega), getElem?_ring h.le hi]
  · rw [getElem?_ring (by simp; omega) (by omega), length_set, Nat.add_comm i head,
      getElem?_set_self (Nat.mod_lt _ (by omega)), getElem?_append_right (by omega)]
    simp [hlen]
  · rw [getElem?_eq_none, getElem?_eq_none]
    · rw [length_append, hlen, length_singleton]
      omega
    · rw [length_ring (by simp; omega)]
      omega

theorem ring_succ {a : α} (hcount : count + 1 ≤ buf.length) (ha : buf[head]? = some a) :
    ring buf head (count + 1) = a :: ring buf ((head + 1) % buf.length) count := by
  have hhead : head < buf.length := (List.getElem?_eq_some_iff.mp ha).1
  refine ext_getElem? fun i => ?_
  obtain hi | hi := lt_or_ge i (count + 1)
  · rw [getElem?_ring hcount hi]
    cases i with
    | zero => rw [Nat.zero_add, Nat.mod_eq_of_lt hhead, ha, getElem?_cons_zero]
    | succ i =>
      have hpos : (i + (head + 1) % buf.length) % buf.length = (i + 1 + head) % buf.length := by
        rw [Nat.add_mod_mod]
        congr 1
        omega
      rw [getElem?_cons_succ, getElem?_ring (by omega) (by omega), hpos]
  · rw [getElem?_eq_none, getElem?_eq_none]
    · rw [length_cons, length_ring (by omega)]
      exact hi
    · rw [length_ring hcount]
      exact hi

/-! ## Loops -/

/-- Put elements in, from position `tail` on, around the end at `capacity`. -/
def ringPut (capacity : ℕ) : List α → List α → ℕ → Option (List α × ℕ)
  | [], buf, tail => some (buf, tail)
  | a :: as, buf, tail =>
    if tail < buf.length then ringPut capacity as (buf.set tail a) ((tail + 1) % capacity) else none

/-- Take `n` elements out, from position `head` on. -/
def ringGet (capacity : ℕ) (buf : List α) : ℕ → ℕ → Option (List α × ℕ)
  | 0, head => some ([], head)
  | n + 1, head => do
    let a ← buf[head]?
    let (as, head) ← ringGet capacity buf n ((head + 1) % capacity)
    some (a :: as, head)

theorem ringPut_eq_some {as : List α} (head : ℕ) (h : count + as.length ≤ buf.length)
    (hpos : 0 < buf.length) :
    ∃ buf', ringPut buf.length as buf ((head + count) % buf.length) =
        some (buf', (head + (count + as.length)) % buf.length) ∧ buf'.length = buf.length ∧
      ring buf' head (count + as.length) = ring buf head count ++ as := by
  induction as generalizing buf count with
  | nil => exact ⟨buf, rfl, rfl, (append_nil _).symm⟩
  | cons a as ih =>
    rw [length_cons] at h
    have hlen : (buf.set ((head + count) % buf.length) a).length = buf.length := length_set
    obtain ⟨buf', hput, hlen', hring⟩ :=
      @ih (buf.set ((head + count) % buf.length) a) (count + 1) (by omega) (by omega)
    have hnext : ((head + count) % buf.length + 1) % buf.length =
        (head + (count + 1)) % buf.length := by
      rw [Nat.mod_add_mod, Nat.add_assoc]
    have htotal : count + 1 + as.length = count + (as.length + 1) := by omega
    rw [hlen, htotal] at hput
    rw [hlen] at hlen'
    rw [htotal, ring_set (by omega), append_assoc, singleton_append] at hring
    refine ⟨buf', ?_, hlen', hring⟩
    rw [ringPut, if_pos (Nat.mod_lt _ hpos), hnext]
    exact hput

theorem ringGet_eq_some {n : ℕ} (hn : n ≤ count) (hcount : count ≤ buf.length)
    (hhead : head < buf.length) :
    ∃ as, ringGet buf.length buf n head = some (as, (head + n) % buf.length) ∧ as.length = n ∧
      ring buf head count = as ++ ring buf ((head + n) % buf.length) (count - n) := by
  induction n generalizing head count with
  | zero => exact ⟨[], by rw [ringGet, Nat.add_zero, Nat.mod_eq_of_lt hhead], rfl,
      by rw [Nat.add_zero, Nat.mod_eq_of_lt hhead]; rfl⟩
  | succ n ih =>
    obtain ⟨count, rfl⟩ : ∃ c, count = c + 1 := ⟨count - 1, by omega⟩
    have hget := getElem?_eq_getElem hhead
    obtain ⟨as, has, hlen, hring⟩ :=
      @ih ((head + 1) % buf.length) count (by omega) (by omega) (Nat.mod_lt _ (by omega))
    have hnext : ((head + 1) % buf.length + n) % buf.length = (head + (n + 1)) % buf.length := by
      rw [Nat.mod_add_mod]
      congr 1
      omega
    rw [hnext] at has hring
    refine ⟨buf[head] :: as, ?_, by rw [length_cons, hlen], ?_⟩
    · rw [ringGet, hget]
      simp [has]
    · rw [ring_succ hcount hget, hring, Nat.add_sub_add_right, cons_append]

end IonaOs.Lib
