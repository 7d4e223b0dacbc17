import IonaOs.Lib.Run

/-!
# Programs that take locks
-/

namespace IonaOs.Lib

open Function

/-- A program with locks `L` over the shared data `σ`. -/
inductive Prog (L σ α : Type) where
  | done (a : α)
  | lock (l : L) (next : Prog L σ α)
  | unlock (l : L) (next : Prog L σ α)
  | block (next : Prog L σ α)
  | access (f : σ → σ) (next : σ → Prog L σ α)

namespace Prog

variable {L σ α β : Type}

def bind : Prog L σ α → (α → Prog L σ β) → Prog L σ β
  | done a, f => f a
  | lock l next, f => lock l (next.bind f)
  | unlock l next, f => unlock l (next.bind f)
  | block next, f => block (next.bind f)
  | access g next, f => access g fun s => (next s).bind f

instance : Monad (Prog L σ) where
  pure := done
  bind := bind

def get : Prog L σ σ := access id done

def modify (f : σ → σ) : Prog L σ Unit := access f fun _ => done ()

def yield : Prog L σ Unit := block (done ())

def acquire (l : L) : Prog L σ Unit := lock l (done ())

def release (l : L) : Prog L σ Unit := unlock l (done ())

def guard (l : L) (p : Prog L σ α) : Prog L σ α :=
  lock l (p.bind fun a => unlock l (done a))

/-! ### One program alone -/

def run : Prog L σ α → σ → α × σ
  | done a, s => (a, s)
  | lock _ next, s => next.run s
  | unlock _ next, s => next.run s
  | block next, s => next.run s
  | access f next, s => (next s).run (f s)

@[simp] theorem run_pure (a : α) (s : σ) : (pure a : Prog L σ α).run s = (a, s) := rfl
@[simp] theorem run_get (s : σ) : (get : Prog L σ σ).run s = (s, s) := rfl
@[simp] theorem run_modify (f : σ → σ) (s : σ) : (modify f : Prog L σ Unit).run s = ((), f s) := rfl

@[simp] theorem run_bind (p : Prog L σ α) (f : α → Prog L σ β) (s : σ) :
    (p >>= f).run s = (f (p.run s).1).run (p.run s).2 := by
  induction p generalizing s with
  | done => rfl
  | lock l next ih | unlock l next ih | block next ih => exact ih s
  | access g _ ih => exact ih s (g s)

@[simp] theorem run_map (f : α → β) (p : Prog L σ α) (s : σ) :
    (f <$> p).run s = (f (p.run s).1, (p.run s).2) :=
  run_bind p (pure ∘ f) s

@[simp] theorem run_guard (l : L) (p : Prog L σ α) (s : σ) : (guard l p).run s = p.run s :=
  run_bind p (fun a => unlock l (done a)) s

/-! ### Nesting -/

variable [DecidableEq L]

/-- Locks are taken in nestings that `E` allows, the program blocks with the locks `idle`, and ends
with those that `final` has for its result. -/
def Within (E : L → L → Prop) (idle : List L) (final : α → List L) :
    List L → Prog L σ α → Prop
  | held, done a => held = final a
  | held, lock l next => (∀ m ∈ held, E m l) ∧ Within E idle final (l :: held) next
  | held, unlock l next => l ∈ held ∧ Within E idle final (held.erase l) next
  | held, block next => held = idle ∧ Within E idle final held next
  | held, access _ next => ∀ s, Within E idle final held (next s)

abbrev Balanced (E : L → L → Prop) (idle held : List L) (p : Prog L σ α) : Prop :=
  Within E idle (fun _ => held) held p

variable {E : L → L → Prop} {idle held : List L} {p : Prog L σ α}

@[simp] theorem balanced_pure {a : α} : Balanced E idle held (pure a : Prog L σ α) := rfl

@[simp] theorem balanced_get : Balanced E idle held (get : Prog L σ σ) := fun _ => rfl

@[simp] theorem balanced_modify {f : σ → σ} : Balanced E idle held (modify f : Prog L σ Unit) :=
  fun _ => rfl

theorem balanced_yield : Balanced E idle idle (yield : Prog L σ Unit) := ⟨rfl, rfl⟩

variable {final : β → List L}

theorem within_bind {mid : α → List L} {f : α → Prog L σ β} (hp : Within E idle mid held p)
    (hf : ∀ a, Within E idle final (mid a) (f a)) : Within E idle final held (p >>= f) := by
  induction p generalizing held with
  | done a =>
    cases hp
    exact hf a
  | lock l next ih | unlock l next ih | block next ih => exact ⟨hp.1, ih hp.2⟩
  | access _ _ ih => exact fun s => ih s (hp s)

theorem balanced_bind {f : α → Prog L σ β} (hp : Balanced E idle held p)
    (hf : ∀ a, Within E idle final held (f a)) : Within E idle final held (p >>= f) :=
  within_bind hp hf

theorem balanced_map {f : α → β} (hp : Balanced E idle held p) :
    Balanced E idle held (p >>= fun a => pure (f a)) :=
  balanced_bind hp fun _ => balanced_pure

@[simp] theorem within_get_bind {f : σ → Prog L σ β} :
    Within E idle final held ((get : Prog L σ σ) >>= f) ↔ ∀ s, Within E idle final held (f s) :=
  Iff.rfl

@[simp] theorem within_modify_bind {g : σ → σ} {f : Unit → Prog L σ β} :
    Within E idle final held ((modify g : Prog L σ Unit) >>= f) ↔
      ∀ _ : σ, Within E idle final held (f ()) :=
  Iff.rfl

@[simp] theorem within_ite {final : α → List L} {c : Prop} [Decidable c] {q : Prog L σ α} :
    Within E idle final held (if c then p else q) ↔
      (c → Within E idle final held p) ∧ (¬ c → Within E idle final held q) := by
  split_ifs with h <;> simp [h]

theorem balanced_guard {l : L} (hl : ∀ m ∈ held, E m l) (hp : Balanced E idle (l :: held) p) :
    Balanced E idle held (guard l p) := by
  refine ⟨hl, within_bind hp fun a => ⟨List.mem_cons_self, ?_⟩⟩
  exact List.erase_cons_head l held

/-- A section that begins by reading the data. -/
theorem balanced_section {l : L} {f : σ → Prog L σ α} (hl : ∀ m ∈ held, E m l)
    (hf : ∀ s, Balanced E idle (l :: held) (f s)) : Balanced E idle held (guard l (get >>= f)) :=
  balanced_guard hl (balanced_bind balanced_get hf)

theorem balanced_foldlM {γ : Type} {f : α → γ → Prog L σ α} {xs : List γ}
    (hf : ∀ a x, Balanced E idle held (f a x)) (a : α) : Balanced E idle held (xs.foldlM f a) := by
  induction xs generalizing a with
  | nil => exact balanced_pure
  | cons x _ ih => exact within_bind (hf a x) ih

end Prog

/-! ## Tasks -/

inductive Turn (X R : Type) where
  | again (x : X)
  | done (r : R)

/-- Programs `ι`, with what comes before the loop and one round of the loop. -/
structure Routines (ι L σ X R : Type) where
  entry : ι → Prog L σ (Turn X R)
  body : ι → X → Prog L σ (Turn X R)

def Turn.locks {X R L : Type} (idle : List L) : Turn X R → List L
  | again _ => idle
  | done _ => []

/-- A program that keeps to the nestings, in all rounds of its loop, and between them has the locks
`idle`. -/
structure Routines.Keeps {ι L σ X R : Type} [DecidableEq L] (r : Routines ι L σ X R)
    (E : L → L → Prop) (idle : List L) (op : ι) : Prop where
  entry : (r.entry op).Within E idle (Turn.locks idle) []
  body : ∀ x, (r.body op x).Within E idle (Turn.locks idle) idle

theorem Routines.keeps_of_balanced {ι L σ X R : Type} [DecidableEq L] {r : Routines ι L σ X R}
    {E : L → L → Prop} {op : ι} (hentry : (r.entry op).Balanced E [] [])
    (hbody : ∀ x, (r.body op x).Balanced E [] []) : r.Keeps E [] op := by
  have hlocks : (Turn.locks [] : Turn X R → List L) = fun _ => [] := by
    funext turn
    cases turn with
    | again => rfl
    | done => rfl
  constructor
  · rw [hlocks]
    exact hentry
  · rw [hlocks]
    exact hbody

structure Machine (T ι L σ X R : Type) where
  owner : L → Option T
  code : T → Option (ι × Prog L σ (Turn X R))
  data : σ

inductive MachineEvent (T ι σ : Type) where
  | call (t : T) (op : ι)
  | step (t : T)
  | other (f : σ → σ)

namespace Machine

variable {T ι L σ X R : Type}

def start (data : σ) : Machine T ι L σ X R := ⟨fun _ => none, fun _ => none, data⟩

section Step

variable [DecidableEq T] [DecidableEq L] (r : Routines ι L σ X R)

def advance (s : Machine T ι L σ X R) (t : T) (op : ι) :
    Prog L σ (Turn X R) → Machine T ι L σ X R
  | .lock l next =>
    if s.owner l = none then
      { s with
        owner := update s.owner l (some t)
        code := update s.code t (some (op, next)) }
    else s
  | .unlock l next =>
    { s with
      owner := update s.owner l none
      code := update s.code t (some (op, next)) }
  | .block next => { s with code := update s.code t (some (op, next)) }
  | .access f next =>
    { s with code := update s.code t (some (op, next s.data)), data := f s.data }
  | .done (.again x) => { s with code := update s.code t (some (op, r.body op x)) }
  | .done (.done _) => { s with code := update s.code t none }

def step (s : Machine T ι L σ X R) : MachineEvent T ι σ → Machine T ι L σ X R
  | .call t op =>
    match s.code t with
    | none => { s with code := update s.code t (some (op, r.entry op)) }
    | some _ => s
  | .step t =>
    match s.code t with
    | none => s
    | some (op, p) => s.advance r t op p
  | .other f => { s with data := f s.data }

end Step

variable (s : Machine T ι L σ X R)

def running (t : T) : Option ι := (s.code t).map (·.1)

def wants (t : T) : Option L :=
  match s.code t with
  | some (_, .lock l _) => some l
  | _ => none

def blocks (t : T) : Bool :=
  match s.code t with
  | some (_, .block _) => true
  | _ => false

def Waits (t u : T) : Prop :=
  ∃ l, s.wants t = some l ∧ s.owner l = some u

/-! ### The invariant -/

variable {r : Routines ι L σ X R} {s s' : Machine T ι L σ X R} {t : T} {op : ι}
  {p : Prog L σ (Turn X R)} {held : List L} {E : ι → L → L → Prop} {idle : ι → List L}

def Holds (s : Machine T ι L σ X R) (t : T) (held : List L) : Prop :=
  held.Nodup ∧ ∀ l, l ∈ held ↔ s.owner l = some t

theorem Holds.congr (h : s.Holds t held) (howner : ∀ l, s'.owner l = some t ↔ s.owner l = some t) :
    s'.Holds t held :=
  ⟨h.1, fun l => (h.2 l).trans (howner l).symm⟩

variable [DecidableEq L]

def TaskOk (r : Routines ι L σ X R) (E : ι → L → L → Prop) (idle : ι → List L)
    (s : Machine T ι L σ X R) (t : T) : Prop :=
  match s.code t with
  | none => s.Holds t []
  | some (op, p) =>
    r.Keeps (E op) (idle op) op ∧
      ∃ held, s.Holds t held ∧ p.Within (E op) (idle op) (Turn.locks (idle op)) held

def Proper (r : Routines ι L σ X R) (E : ι → L → L → Prop) (idle : ι → List L)
    (s : Machine T ι L σ X R) : Prop :=
  ∀ t, s.TaskOk r E idle t

theorem proper_start (data : σ) : (start data : Machine T ι L σ X R).Proper r E idle :=
  fun _ => ⟨List.nodup_nil, fun _ => by simp [start]⟩

theorem TaskOk.of_running (h : s.TaskOk r E idle t) (hcode : s.code t = some (op, p)) :
    r.Keeps (E op) (idle op) op ∧
      ∃ held, s.Holds t held ∧ p.Within (E op) (idle op) (Turn.locks (idle op)) held := by
  rwa [TaskOk, hcode] at h

theorem taskOk_of_running (hcode : s.code t = some (op, p)) (hkeeps : r.Keeps (E op) (idle op) op)
    (hheld : s.Holds t held) (hp : p.Within (E op) (idle op) (Turn.locks (idle op)) held) :
    s.TaskOk r E idle t := by
  rw [TaskOk, hcode]
  exact ⟨hkeeps, held, hheld, hp⟩

theorem taskOk_of_idle (hcode : s.code t = none) (hheld : s.Holds t []) : s.TaskOk r E idle t := by
  rwa [TaskOk, hcode]

theorem Proper.nested (h : s.Proper r E idle) {l m : L} (hwants : s.wants t = some l)
    (howner : s.owner m = some t) : ∃ op, s.running t = some op ∧ E op m l := by
  rw [wants] at hwants
  split at hwants
  · rename_i op l' next hcode
    cases hwants
    obtain ⟨-, held, hheld, hp⟩ := (h t).of_running hcode
    exact ⟨op, by rw [running, hcode]; rfl, hp.1 m ((hheld.2 m).mpr howner)⟩
  · cases hwants

theorem Proper.holds_of_blocks (h : s.Proper r E idle) (hblocks : s.blocks t = true) :
    ∃ op, s.running t = some op ∧ s.Holds t (idle op) := by
  rw [blocks] at hblocks
  split at hblocks
  · rename_i op next hcode
    obtain ⟨-, held, hheld, hp⟩ := (h t).of_running hcode
    exact ⟨op, by rw [running, hcode]; rfl, hp.1 ▸ hheld⟩
  · cases hblocks

theorem Proper.not_waits_cycle (h : s.Proper r E idle) (rank : L → ℕ)
    (hrank : ∀ t op, s.running t = some op → ∀ m l, E op m l → rank m < rank l) (t : T) :
    ¬ Relation.TransGen s.Waits t t := by
  -- along a chain of waiting tasks the locks they want have growing ranks
  have hchain : ∀ u, Relation.TransGen s.Waits t u → ∀ l m, s.wants t = some l →
      s.wants u = some m → rank l < rank m := by
    intro u hu
    induction hu with
    | single hwait =>
      intro l m hl hm
      obtain ⟨l', hl', howner⟩ := hwait
      obtain ⟨op, hrun, hE⟩ := h.nested hm howner
      cases hl.symm.trans hl'
      exact hrank _ op hrun _ _ hE
    | tail _ hwait ih =>
      intro l m hl hm
      obtain ⟨l', hl', howner⟩ := hwait
      obtain ⟨op, hrun, hE⟩ := h.nested hm howner
      exact (ih l l' hl hl').trans (hrank _ op hrun _ _ hE)
  intro hcycle
  have hwants : ∃ l, s.wants t = some l := by
    obtain ⟨u, ⟨l, hl, -⟩, -⟩ := Relation.TransGen.head'_iff.mp hcycle
    exact ⟨l, hl⟩
  obtain ⟨l, hl⟩ := hwants
  exact lt_irrefl _ (hchain t hcycle l l hl hl)

/-! ### Its steps -/

theorem Holds.lock {l : L} (h : s.Holds t held) (hfree : s.owner l = none)
    (howner : s'.owner = update s.owner l (some t)) : s'.Holds t (l :: held) := by
  refine ⟨List.nodup_cons.mpr ⟨fun hmem => ?_, h.1⟩, fun m => ?_⟩
  · rw [h.2, hfree] at hmem
    cases hmem
  rw [List.mem_cons, howner]
  by_cases hm : m = l
  · simp [hm]
  · simp [hm, h.2 m]

theorem Holds.unlock {l : L} (h : s.Holds t held)
    (howner : s'.owner = update s.owner l none) : s'.Holds t (held.erase l) := by
  refine ⟨h.1.erase l, fun m => ?_⟩
  rw [h.1.mem_erase_iff, howner]
  by_cases hm : m = l
  · simp [hm]
  · simp [hm, h.2 m]

variable [DecidableEq T]

theorem Proper.change (h : s.Proper r E idle) (hcode : ∀ u ≠ t, s'.code u = s.code u)
    (howner : ∀ u ≠ t, ∀ l, s'.owner l = some u ↔ s.owner l = some u) (ht : s'.TaskOk r E idle t) :
    s'.Proper r E idle := by
  intro u
  by_cases hu : u = t
  · rw [hu]
    exact ht
  have hok := h u
  rw [TaskOk] at hok ⊢
  rw [hcode u hu]
  split at hok
  · exact hok.congr (howner u hu)
  · obtain ⟨hkeeps, held, hheld, hp⟩ := hok
    exact ⟨hkeeps, held, hheld.congr (howner u hu), hp⟩

theorem Proper.advance (h : s.Proper r E idle) (hcode : s.code t = some (op, p)) :
    (s.advance r t op p).Proper r E idle := by
  obtain ⟨hkeeps, held, hheld, hp⟩ := (h t).of_running hcode
  have hothers : ∀ c : Option (ι × Prog L σ (Turn X R)), ∀ u ≠ t,
      update s.code t c u = s.code u := fun c u hu => update_of_ne hu _ _
  cases p with
  | done turn =>
    cases turn with
    | again x =>
      rw [show held = idle op from hp] at hheld
      exact h.change (hothers _) (fun _ _ _ => Iff.rfl)
        (taskOk_of_running (update_self ..) hkeeps hheld (hkeeps.body x))
    | done =>
      rw [show held = [] from hp] at hheld
      exact h.change (hothers _) (fun _ _ _ => Iff.rfl) (taskOk_of_idle (update_self ..) hheld)
  | lock l =>
    simp only [Machine.advance]
    split
    · rename_i hfree
      refine h.change (hothers _) (fun u hu m => ?_)
        (taskOk_of_running (update_self ..) hkeeps (hheld.lock hfree rfl) hp.2)
      by_cases hm : m = l
      · simp [hm, hfree, hu.symm]
      · simp [update_of_ne hm]
    · exact h
  | unlock l =>
    refine h.change (hothers _) (fun u hu m => ?_)
      (taskOk_of_running (update_self ..) hkeeps (hheld.unlock rfl) hp.2)
    by_cases hm : m = l
    · have howner := (hheld.2 l).mp hp.1
      simp [hm, Machine.advance, howner, hu.symm]
    · simp [Machine.advance, update_of_ne hm]
  | block =>
    exact h.change (hothers _) (fun _ _ _ => Iff.rfl)
      (taskOk_of_running (update_self ..) hkeeps hheld hp.2)
  | access =>
    exact h.change (hothers _) (fun _ _ _ => Iff.rfl)
      (taskOk_of_running (update_self ..) hkeeps hheld (hp s.data))

variable {ev : MachineEvent T ι σ}

theorem Proper.step (h : s.Proper r E idle)
    (hcall : ∀ t op, ev = .call t op → r.Keeps (E op) (idle op) op) :
    (s.step r ev).Proper r E idle := by
  cases ev with
  | call t op =>
    simp only [Machine.step]
    split
    · rename_i hcode
      have hkeeps := hcall t op rfl
      have hheld : s.Holds t [] := by
        have := h t
        rwa [TaskOk, hcode] at this
      exact h.change (fun u hu => update_of_ne hu _ _) (fun _ _ _ => Iff.rfl)
        (taskOk_of_running (update_self ..) hkeeps hheld hkeeps.entry)
    · exact h
  | step =>
    simp only [Machine.step]
    split
    · exact h
    · exact h.advance ‹_›
  | other => exact h

theorem code_advance (s : Machine T ι L σ X R) (t : T) (op : ι) (p : Prog L σ (Turn X R)) :
    (s.advance r t op p).code = s.code ∨
    ∃ c, (∀ x, c = some x → x.1 = op) ∧ (s.advance r t op p).code = update s.code t c := by
  cases p with
  | done turn =>
    cases turn with
    | again x => exact .inr ⟨some (op, r.body op x), by simp, rfl⟩
    | done => exact .inr ⟨none, by simp, rfl⟩
  | lock l next =>
    simp only [Machine.advance]
    split
    · exact .inr ⟨some (op, next), by simp, rfl⟩
    · exact .inl rfl
  | unlock l next | block next => exact .inr ⟨some (op, next), by simp, rfl⟩
  | access f next => exact .inr ⟨some (op, next s.data), by simp, rfl⟩

theorem running_step (h : (s.step r ev).running t = some op) :
    s.running t = some op ∨ s.running t = none ∧ ev = .call t op := by
  cases ev with
  | call u =>
    simp only [Machine.step] at h
    split at h
    · rename_i hidle
      by_cases htu : t = u
      · subst htu
        right
        simpa [running, hidle] using h
      · left
        simpa [running, update_of_ne htu] using h
    · exact .inl h
  | step u =>
    left
    simp only [Machine.step] at h
    split at h
    · exact h
    rename_i op' p hcode
    rw [running] at h ⊢
    obtain hsame | ⟨c, hc, hcode'⟩ := code_advance (r := r) s u op' p
    · rwa [hsame] at h
    rw [hcode'] at h
    by_cases htu : t = u
    · subst htu
      rw [update_self] at h
      obtain ⟨x, hx, rfl⟩ := Option.map_eq_some_iff.mp h
      rw [hcode, hc x hx]
      rfl
    · rwa [update_of_ne htu] at h
  | other => exact .inl h

end Machine

end IonaOs.Lib
