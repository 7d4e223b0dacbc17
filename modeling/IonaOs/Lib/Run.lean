import Mathlib

/-!
# Runs of a deterministic machine
-/

namespace IonaOs.Lib

open List

variable {σ ε : Type*} {step : σ → ε → σ} {P Q : σ → ε → Prop} {s : σ} {es fs : List ε} {e : ε}

def exec (step : σ → ε → σ) (s : σ) (es : List ε) : σ := es.foldl step s

@[simp] theorem exec_nil : exec step s [] = s := rfl
@[simp] theorem exec_cons : exec step s (e :: es) = exec step (step s e) es := rfl

@[simp] theorem exec_append : exec step s (es ++ fs) = exec step (exec step s es) fs := foldl_append

/-- Every event of the run meets `P` in the state it arrives in. -/
def Along (step : σ → ε → σ) (P : σ → ε → Prop) : σ → List ε → Prop
  | _, [] => True
  | s, e :: es => P s e ∧ Along step P (step s e) es

instance Along.decidable [∀ s e, Decidable (P s e)] :
    ∀ (s : σ) (es : List ε), Decidable (Along step P s es)
  | _, [] => inferInstanceAs (Decidable True)
  | s, e :: es => @instDecidableAnd (P s e) (Along step P (step s e) es) _
      (Along.decidable (step s e) es)

@[simp] theorem along_nil : Along step P s [] := trivial
@[simp] theorem along_cons : Along step P s (e :: es) ↔ P s e ∧ Along step P (step s e) es :=
  Iff.rfl

@[simp] theorem along_append :
    Along step P s (es ++ fs) ↔ Along step P s es ∧ Along step P (exec step s es) fs := by
  induction es generalizing s with
  | nil => simp
  | cons _ _ ih => simp [ih, and_assoc]

theorem Along.mono (h : Along step P s es) (hPQ : ∀ s e, P s e → Q s e) : Along step Q s es := by
  induction es generalizing s with
  | nil => trivial
  | cons e _ ih => exact ⟨hPQ s e h.1, ih h.2⟩

theorem along_iff_forall_split :
    Along step P s es ↔ ∀ es₁ e es₂, es = es₁ ++ e :: es₂ → P (exec step s es₁) e := by
  constructor
  · rintro h es₁ e es₂ rfl
    exact (along_append.mp h).2.1
  intro h
  induction es generalizing s with
  | nil => trivial
  | cons e es ih =>
    refine ⟨h [] e es rfl, ih fun es₁ e' es₂ heq => ?_⟩
    exact h (e :: es₁) e' es₂ (by rw [heq, cons_append])

theorem along_iff_forall_mem {P : ε → Prop} : Along step (fun _ e => P e) s es ↔ ∀ e ∈ es, P e := by
  induction es generalizing s with
  | nil => simp
  | cons _ _ ih => rw [along_cons, ih, forall_mem_cons]

variable {I : σ → Prop}

theorem Along.invariant (h : Along step P s es) (h0 : I s)
    (hstep : ∀ s e, I s → P s e → I (step s e)) : I (exec step s es) := by
  induction es generalizing s with
  | nil => exact h0
  | cons e _ ih => exact ih h.2 (hstep s e h0 h.1)

theorem Along.imp (h : Along step P s es) (h0 : I s) (hstep : ∀ s e, I s → P s e → I (step s e))
    (hPQ : ∀ s e, I s → P s e → Q s e) : Along step Q s es := by
  induction es generalizing s with
  | nil => trivial
  | cons e _ ih => exact ⟨hPQ s e h0 h.1, ih h.2 (hstep s e h0 h.1)⟩

theorem exec_invariant (h0 : I s) (hstep : ∀ s e, I s → I (step s e)) : I (exec step s es) := by
  induction es generalizing s with
  | nil => exact h0
  | cons e _ ih => exact ih (hstep s e h0)

variable {L : σ → Prop}

theorem exec_iff_along (hback : ∀ s e, L (step s e) → L s)
    (hstep : ∀ s e, I s → (L (step s e) ↔ L s ∧ P s e)) (hI : ∀ s e, I s → P s e → I (step s e))
    (h0 : I s) : L (exec step s es) ↔ L s ∧ Along step P s es := by
  have hlost : ∀ es s, L (exec step s es) → L s := by
    intro es
    induction es with
    | nil => exact fun s h => h
    | cons e _ ih => exact fun s h => hback s e (ih _ h)
  induction es generalizing s with
  | nil => simp
  | cons e es ih =>
    by_cases hP : P s e
    · calc L (exec step (step s e) es)
          ↔ L (step s e) ∧ Along step P (step s e) es := ih (hI s e h0 hP)
        _ ↔ (L s ∧ P s e) ∧ Along step P (step s e) es := and_congr_left' (hstep s e h0)
        _ ↔ L s ∧ Along step P s (e :: es) := and_assoc
    · constructor
      · intro h
        exact absurd ((hstep s e h0).mp (hlost es _ h)).2 hP
      · intro h
        exact absurd h.2.1 hP

theorem exec_iff_along_of_invariant (hI : ∀ s e, I s → I (step s e))
    (hstep : ∀ s e, I s → (L (step s e) ↔ L s ∧ P s e)) (h0 : I s) :
    L (exec step s es) ↔ L s ∧ Along step P s es := by
  induction es generalizing s with
  | nil => simp
  | cons e _ ih =>
    rw [exec_cons, ih (hI s e h0), hstep s e h0, along_cons, and_assoc]

theorem forall_split_iff_along : (∀ past rest, es = past ++ rest → L (exec step s past)) ↔
      L s ∧ Along step (fun s e => L (step s e)) s es := by
  constructor
  · intro h
    refine ⟨h [] es rfl, along_iff_forall_split.mpr ?_⟩
    intro past e rest heq
    have hsnoc := h (past ++ [e]) rest (by simp [heq])
    rwa [exec_append] at hsnoc
  · rintro ⟨h0, h⟩ past rest rfl
    rcases eq_nil_or_concat' past with rfl | ⟨past, e, rfl⟩
    · exact h0
    · rw [along_append, along_append] at h
      rw [exec_append]
      exact h.1.2.1

theorem along_congr_given {D : σ → ε → Prop} (hD : Along step D s es)
    (hI : ∀ s e, I s → D s e → P s e → I (step s e)) (hPQ : ∀ s e, I s → D s e → (P s e ↔ Q s e))
    (h0 : I s) : Along step P s es ↔ Along step Q s es := by
  induction es generalizing s with
  | nil => simp
  | cons e _ ih =>
    rw [along_cons, along_cons, ← hPQ s e h0 hD.1]
    apply and_congr_right
    intro hP
    exact ih hD.2 (hI s e h0 hD.1 hP)

theorem along_true : Along step (fun _ _ => True) s es := by
  induction es generalizing s with
  | nil => trivial
  | cons _ _ ih => exact ⟨trivial, ih⟩

theorem along_congr (hI : ∀ s e, I s → P s e → I (step s e)) (hPQ : ∀ s e, I s → (P s e ↔ Q s e))
    (h0 : I s) : Along step P s es ↔ Along step Q s es :=
  along_congr_given along_true (fun s e hs _ => hI s e hs) (fun s e hs _ => hPQ s e hs) h0

/-! ## Several machines -/

section Several

variable {ι : Type*} [DecidableEq ι]

def stepAt (step : ι → σ → ε → σ) (s : ι → σ) (x : ι × ε) : ι → σ :=
  Function.update s x.1 (step x.1 (s x.1) x.2)

variable {step : ι → σ → ε → σ} {s : ι → σ} {xs : List (ι × ε)}

@[simp] theorem stepAt_self (i : ι) (e : ε) : stepAt step s (i, e) i = step i (s i) e :=
  Function.update_self ..

@[simp] theorem stepAt_of_ne {i j : ι} (h : j ≠ i) (e : ε) : stepAt step s (i, e) j = s j :=
  Function.update_of_ne h ..

theorem Along.invariant_each {P : (ι → σ) → ι × ε → Prop} {I : ι → σ → Prop}
    (h : Along (stepAt step) P s xs) (h0 : ∀ i, I i (s i))
    (hstep : ∀ s i e, (∀ j, I j (s j)) → P s (i, e) → I i (step i (s i) e)) :
    ∀ i, I i (exec (stepAt step) s xs i) := by
  refine h.invariant (I := fun s => ∀ i, I i (s i)) h0 ?_
  rintro s ⟨i, e⟩ hs hP j
  by_cases hij : j = i
  · subst hij
    rw [stepAt_self]
    exact hstep s j e hs hP
  · rw [stepAt_of_ne hij]
    exact hs j

theorem exec_stepAt_grows {R : σ → σ → Prop} (hrefl : ∀ s, R s s)
    (htrans : ∀ a b c, R a b → R b c → R a c) (hstep : ∀ i s e, R s (step i s e)) (i : ι) :
    R (s i) (exec (stepAt step) s xs i) := by
  refine exec_invariant (I := fun t : ι → σ => R (s i) (t i)) (hrefl _) ?_
  rintro t ⟨j, e⟩ ht
  by_cases hij : i = j
  · subst hij
    rw [stepAt_self]
    exact htrans _ _ _ ht (hstep i (t i) e)
  · rw [stepAt_of_ne hij]
    exact ht

end Several

/-! ## Loops that may fail -/

section Fallible

variable {η : Type*} {turn : σ → ε → Except η Unit × σ} {s' : σ}

def tryExec (turn : σ → ε → Except η Unit × σ) : σ → List ε → Except η Unit × σ
  | s, [] => (.ok (), s)
  | s, e :: es =>
    match turn s e with
    | (.error err, s) => (.error err, s)
    | (.ok (), s) => tryExec turn s es

theorem tryExec_cons_eq_ok (h : tryExec turn s (e :: es) = (.ok (), s')) :
    ∃ s₁, turn s e = (.ok (), s₁) ∧ tryExec turn s₁ es = (.ok (), s') := by
  rw [tryExec] at h
  split at h
  · cases h
  · exact ⟨_, ‹_›, h⟩

theorem tryExec_invariant (h0 : I s) (hturn : ∀ s, ∀ e ∈ es, I s → I (turn s e).2) :
    I (tryExec turn s es).2 := by
  induction es generalizing s with
  | nil => exact h0
  | cons e es ih =>
    have hstep := hturn s e mem_cons_self h0
    rw [tryExec]
    split
    · rename_i heq
      rwa [heq] at hstep
    · rename_i heq
      rw [heq] at hstep
      exact ih hstep fun s e he => hturn s e (mem_cons_of_mem _ he)

theorem tryExec_each {P Q : σ → ε → Prop}
    (hturn : ∀ s e s', I s → P s e → turn s e = (.ok (), s') →
      I s' ∧ Q s' e ∧ ∀ e' ≠ e, (P s e' → P s' e') ∧ (Q s e' → Q s' e'))
    (hI : I s) (hP : ∀ e ∈ es, P s e) (hnodup : es.Nodup) (hok : tryExec turn s es = (.ok (), s')) :
    I s' ∧ (∀ e ∈ es, Q s' e) ∧ ∀ e ∉ es, Q s e → Q s' e := by
  induction es generalizing s with
  | nil =>
    cases hok
    exact ⟨hI, fun _ h => absurd h not_mem_nil, fun _ _ h => h⟩
  | cons e _ ih =>
    obtain ⟨s₁, hstep, hrest⟩ := tryExec_cons_eq_ok hok
    obtain ⟨hI₁, hQ₁, hothers⟩ := hturn s e s₁ hI (hP e mem_cons_self) hstep
    obtain ⟨hne, hnodup⟩ := nodup_cons.mp hnodup
    obtain ⟨hI', hdone, hkept⟩ := ih hI₁ (fun e' he' => (hothers e' fun heq => hne (heq ▸ he')).1
      (hP e' (mem_cons_of_mem e he'))) hnodup hrest
    refine ⟨hI', ?_, ?_⟩
    · intro e' he'
      rcases mem_cons.mp he' with rfl | he'
      · exact hkept e' hne hQ₁
      · exact hdone e' he'
    · intro e' he' hQ
      obtain ⟨hne', he'⟩ := not_or.mp (mt mem_cons.mpr he')
      exact hkept e' he' ((hothers e' hne').2 hQ)

end Fallible

end IonaOs.Lib
