import Mathlib.Data.Set.Function

/-!
# Slots that share frames
-/

namespace IonaOs.Lib

structure Sharing (σ φ π : Type*) where
  name : σ → Option φ
  writable : σ → Bool
  page : φ → π

namespace Sharing

variable {σ φ π : Type*} (s : Sharing σ φ π)

def view (slot : σ) : Option π := (s.name slot).map s.page

def Alone (slot : σ) : Prop :=
  ∀ f other, s.name slot = some f → s.name other = some f → other = slot

def Exclusive : Prop := ∀ slot, s.writable slot = true → s.Alone slot

structure Writes (slot : σ) (x : π) (s' : Sharing σ φ π) : Prop where
  name : s'.name = s.name
  writable : s'.writable = s.writable
  here : ∀ f, s.name slot = some f → s'.page f = x
  there : ∀ other f, s.name other = some f → s.name slot ≠ some f → s'.page f = s.page f

structure Claims (slot : σ) (s' : Sharing σ φ π) : Prop where
  alone : s.Alone slot
  name : s'.name = s.name
  writable : ∀ other ≠ slot, s'.writable other = s.writable other
  page : ∀ other f, s.name other = some f → s'.page f = s.page f

/-- A slot gets a copy of its page in the frame `new`, and becomes writable. -/
structure Moves (slot : σ) (new : φ) (s' : Sharing σ φ π) : Prop where
  fresh : ∀ other, s.name other ≠ some new
  named : s'.name slot = some new
  name : ∀ other ≠ slot, s'.name other = s.name other
  writable : ∀ other ≠ slot, s'.writable other = s.writable other
  copied : ∀ f, s.name slot = some f → s'.page new = s.page f
  mapped : s.name slot ≠ none
  page : ∀ other f, s.name other = some f → s'.page f = s.page f

structure Copies (origin : σ → σ) (s' : Sharing σ φ π) : Prop where
  name : ∀ slot, s'.name slot = s.name (origin slot)
  writable : ∀ slot, s'.writable slot = true →
    s.writable slot = true ∧ ∀ other, origin other = slot ↔ other = slot
  page : ∀ slot f, s.name slot = some f → s'.page f = s.page f

/-! ## What is seen -/

variable {s} {s' : Sharing σ φ π} {slot other : σ}

theorem view_eq_of_name {origin : σ} (hname : s'.name slot = s.name origin)
    (hpage : ∀ f, s.name origin = some f → s'.page f = s.page f) :
    s'.view slot = s.view origin := by
  rw [view, view, hname]
  cases hf : s.name origin with
  | none => rfl
  | some f => exact congrArg some (hpage f hf)

theorem Claims.view (h : s.Claims slot s') : s'.view = s.view :=
  funext fun other => view_eq_of_name (congrFun h.name other) (h.page other)

theorem Copies.view {origin : σ → σ} (h : s.Copies origin s') (slot : σ) :
    s'.view slot = s.view (origin slot) :=
  view_eq_of_name (h.name slot) (h.page (origin slot))

theorem Moves.view {new : φ} (h : s.Moves slot new s') : s'.view = s.view := by
  funext other
  by_cases hother : other = slot
  · subst hother
    obtain ⟨f, hf⟩ := Option.ne_none_iff_exists'.mp h.mapped
    simp only [Sharing.view, h.named, hf, Option.map_some, h.copied f hf]
  · exact view_eq_of_name (h.name other hother) (h.page other)

theorem Writes.view_self {x : π} (h : s.Writes slot x s') (hmapped : s.name slot ≠ none) :
    s'.view slot = some x := by
  obtain ⟨f, hf⟩ := Option.ne_none_iff_exists'.mp hmapped
  simp only [Sharing.view, h.name, hf, Option.map_some, h.here f hf]

theorem Writes.view_of_ne {x : π} (h : s.Writes slot x s') (halone : s.Alone slot)
    (hne : other ≠ slot) : s'.view other = s.view other :=
  view_eq_of_name (congrFun h.name other) fun f hf =>
    h.there other f hf fun hslot => hne (halone f other hslot hf)

/-! ## Writable slots -/

section

variable (hs : s.Exclusive)
include hs

theorem Exclusive.writes {x : π} (h : s.Writes slot x s') : s'.Exclusive := by
  intro w hw f other hf hother
  rw [h.writable] at hw
  rw [h.name] at hf hother
  exact hs w hw f other hf hother

theorem Exclusive.claims (h : s.Claims slot s') : s'.Exclusive := by
  intro w hw f other hf hother
  rw [h.name] at hf hother
  by_cases hslot : w = slot
  · subst hslot
    exact h.alone f other hf hother
  · exact hs w (h.writable w hslot ▸ hw) f other hf hother

theorem Exclusive.moves {new : φ} (h : s.Moves slot new s') : s'.Exclusive := by
  intro w hw f other hf hother
  by_cases hslot : w = slot
  · subst hslot
    rw [h.named] at hf
    cases hf
    by_contra hne
    rw [h.name other hne] at hother
    exact h.fresh other hother
  rw [h.writable w hslot] at hw
  rw [h.name w hslot] at hf
  by_cases hmoved : other = slot
  · subst hmoved
    rw [h.named] at hother
    cases hother
    exact absurd hf (h.fresh w)
  · rw [h.name other hmoved] at hother
    exact hs w hw f other hf hother

theorem Exclusive.copies {origin : σ → σ} (h : s.Copies origin s') : s'.Exclusive := by
  intro w hw f other hf hother
  obtain ⟨hbefore, horigin⟩ := h.writable w hw
  rw [h.name, (horigin w).mpr rfl] at hf
  rw [h.name] at hother
  exact (horigin other).mp (hs w hbefore f (origin other) hf hother)

end

end Sharing

end IonaOs.Lib
