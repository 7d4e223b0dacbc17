import Mathlib

/-!
# Interpreters that start interpreters
-/

namespace IonaOs.Lib

inductive Step (σ ω : Type*) where
  | halt (o : ω)
  | next (s : σ)
  | enter (s : σ) (resume : ω → ω ⊕ σ)

/-- A step leads to states that meet `N` and outcomes that meet `H`, if the runs it starts are
related to their outcomes by `R`. -/
def Step.Leads {σ ω : Type*} (R : σ → ω → Prop) (N : σ → Prop) (H : ω → Prop) : Step σ ω → Prop
  | .halt o => H o
  | .next s => N s
  | .enter c resume =>
    ∀ o, R c o → (∀ o', resume o = .inl o' → H o') ∧ ∀ s, resume o = .inr s → N s

theorem Step.Leads.mono {σ ω : Type*} {R R' : σ → ω → Prop} {N N' : σ → Prop} {H H' : ω → Prop}
    {a : Step σ ω} (h : a.Leads R N H) (hR : ∀ s o, R' s o → R s o) (hN : ∀ s, N s → N' s)
    (hH : ∀ o, H o → H' o) : a.Leads R' N' H' := by
  cases a with
  | halt o => exact hH o h
  | next s => exact hN s h
  | enter c =>
    intro o ho
    obtain ⟨hhalt, hgo⟩ := h o (hR c o ho)
    exact ⟨fun o' hres => hH o' (hhalt o' hres), fun s hres => hN s (hgo s hres)⟩

variable {σ ω : Type*} {step : σ → Step σ ω} {s c : σ} {o : ω} {n m : ℕ}

def interp (step : σ → Step σ ω) : ℕ → σ → Option ω
  | 0, _ => none
  | n + 1, s =>
    match step s with
    | .halt o => some o
    | .next s' => interp step n s'
    | .enter c resume => (interp step n c).bind fun o => (resume o).elim some (interp step n)

theorem interp_succ_halt (h : step s = .halt o) : interp step (n + 1) s = some o := by
  simp [interp, h]

theorem interp_succ_next {s' : σ} (h : step s = .next s') :
    interp step (n + 1) s = interp step n s' := by
  simp [interp, h]

variable {resume : ω → ω ⊕ σ} {R : σ → ω → Prop}

theorem interp_succ_enter (h : step s = .enter c resume) : interp step (n + 1) s =
      (interp step n c).bind fun o => (resume o).elim some (interp step n) := by
  simp [interp, h]

theorem interp_succ : interp step n s = some o → interp step (n + 1) s = some o := by
  induction n generalizing s o with
  | zero => simp [interp]
  | succ n ih =>
    cases h : step s with
    | halt => simp [interp_succ_halt h]
    | next =>
      rw [interp_succ_next h, interp_succ_next h]
      exact ih
    | enter c resume =>
      rw [interp_succ_enter h, interp_succ_enter h]
      intro hrun
      obtain ⟨o', hc, hk⟩ := Option.bind_eq_some_iff.mp hrun
      refine Option.bind_eq_some_iff.mpr ⟨o', ih hc, ?_⟩
      cases hres : resume o' with
      | inl => simpa [hres] using hk
      | inr =>
        simp only [hres, Sum.elim_inr] at hk ⊢
        exact ih hk

theorem interp_mono (hle : n ≤ m) (h : interp step n s = some o) : interp step m s = some o := by
  induction hle with
  | refl => exact h
  | step _ ih => exact interp_succ ih

/-- The run from `s` returns `o`. -/
def Returns (step : σ → Step σ ω) (s : σ) (o : ω) : Prop := ∃ n, interp step n s = some o

theorem Returns.eventually (h : Returns step s o) : ∃ n, ∀ m, n ≤ m → interp step m s = some o := by
  obtain ⟨n, hn⟩ := h
  exact ⟨n, fun m hm => interp_mono hm hn⟩

theorem interp_rule (hstep : ∀ s, (step s).Leads R (fun s' => ∀ o, R s' o → R s o) (R s)) :
    interp step n s = some o → R s o := by
  induction n generalizing s o with
  | zero => simp [interp]
  | succ n ih =>
    intro hrun
    have hs := hstep s
    cases h : step s with
    | halt =>
      rw [h] at hs
      rw [interp_succ_halt h] at hrun
      cases hrun
      exact hs
    | next =>
      rw [h] at hs
      rw [interp_succ_next h] at hrun
      exact hs o (ih hrun)
    | enter c resume =>
      rw [h] at hs
      rw [interp_succ_enter h] at hrun
      obtain ⟨o', hc, hk⟩ := Option.bind_eq_some_iff.mp hrun
      obtain ⟨hend, hgo⟩ := hs o' (ih hc)
      cases hres : resume o' with
      | inl o'' =>
        simp only [hres, Sum.elim_inl, Option.some.injEq] at hk
        subst hk
        exact hend o'' hres
      | inr s' =>
        simp only [hres, Sum.elim_inr] at hk
        exact hgo s' hres o (ih hk)

theorem interp_keeps {T : σ → σ → Prop} (final : ω → Option σ)
    (htrans : ∀ a b c, T a b → T b c → T a c)
    (hstep : ∀ s, (step s).Leads (fun s o => ∀ s' ∈ final o, T s s') (T s)
      fun o => ∀ s' ∈ final o, T s s') (hrun : interp step n s = some o) :
    ∀ s' ∈ final o, T s s' := by
  refine interp_rule (R := fun s o => ∀ s' ∈ final o, T s s') ?_ hrun
  intro s
  have hs := hstep s
  cases h : step s with
  | halt =>
    rw [h] at hs
    exact hs
  | next s' =>
    rw [h] at hs
    intro o ho s'' hs''
    exact htrans s s' s'' hs (ho s'' hs'')
  | enter =>
    rw [h] at hs
    intro o ho
    refine ⟨(hs o ho).1, ?_⟩
    intro s' hres o' ho' s'' hs''
    exact htrans s s' s'' ((hs o ho).2 s' hres) (ho' s'' hs'')

inductive Reaches (step : σ → Step σ ω) : σ → σ → Prop
  | refl (s : σ) : Reaches step s s
  | next {s s' t : σ} (hstep : step s = .next s') (h : Reaches step s' t) : Reaches step s t
  | sub {s c t : σ} {resume : ω → ω ⊕ σ} (hstep : step s = .enter c resume)
      (h : Reaches step c t) : Reaches step s t
  | resume {s c s' t : σ} {resume : ω → ω ⊕ σ} {o : ω} (hstep : step s = .enter c resume)
      (hsub : Returns step c o) (hres : resume o = .inr s') (h : Reaches step s' t) :
      Reaches step s t

theorem Reaches.invariant {I : σ → Prop} {t : σ} (h : Reaches step s t) (h0 : I s)
    (hnext : ∀ s s', I s → step s = .next s' → I s')
    (hsub : ∀ s c resume, I s → step s = .enter c resume → I c)
    (hres : ∀ s c resume o s', I s → step s = .enter c resume → Returns step c o →
      resume o = .inr s' → I s') : I t := by
  induction h with
  | refl => exact h0
  | next hstep _ ih => exact ih (hnext _ _ h0 hstep)
  | sub hstep _ ih => exact ih (hsub _ _ _ h0 hstep)
  | resume hstep hrun hgo _ ih => exact ih (hres _ _ _ _ _ h0 hstep hrun hgo)

theorem Returns.of_enter {o' : ω} (h : step s = .enter c resume) (hc : Returns step c o')
    (hk : ∀ s', resume o' = .inr s' → ∃ o, Returns step s' o) : ∃ o, Returns step s o := by
  obtain ⟨n, hn⟩ := hc
  cases hres : resume o' with
  | inl o => exact ⟨o, n + 1, by simp [interp_succ_enter h, hn, hres]⟩
  | inr s' =>
    obtain ⟨o, m, hm⟩ := hk s' hres
    refine ⟨o, max n m + 1, ?_⟩
    rw [interp_succ_enter h, interp_mono (le_max_left n m) hn]
    simp [hres, interp_mono (le_max_right n m) hm]

theorem returns_of_wellFounded (hR : ∀ n s o, interp step n s = some o → R s o) {r : σ → σ → Prop}
    (hr : WellFounded r) (hstart : ∀ s c resume, step s = .enter c resume → r c s)
    (hstep : ∀ s, (step s).Leads R (r · s) fun _ => True) (s : σ) : ∃ o, Returns step s o := by
  induction s using hr.induction with
  | _ s ih =>
    have hs := hstep s
    cases h : step s with
    | halt o => exact ⟨o, 1, interp_succ_halt h⟩
    | next s' =>
      rw [h] at hs
      obtain ⟨o, n, hn⟩ := ih s' hs
      exact ⟨o, n + 1, by rw [interp_succ_next h, hn]⟩
    | enter c resume =>
      rw [h] at hs
      obtain ⟨o', n, hn⟩ := ih c (hstart s c resume h)
      refine Returns.of_enter h ⟨n, hn⟩ ?_
      intro s' hres
      exact ih s' ((hs o' (hR n c o' hn)).2 s' hres)

end IonaOs.Lib
