import IonaOs.Process.Descriptors

/-!
# When pipe ends and sockets are closed
-/

namespace IonaOs.Process.Fd

open Lib List Function Option

namespace FdTable

variable {t : FdTable} {fd i : ℕ} {e : FdEntry} {r : Resource}

def resource (t : FdTable) (fd : ℕ) : Option Resource := (t.entry fd).bind (·.desc.resource)

def Names (t : FdTable) (r : Resource) : Prop := ∃ fd, t.resource fd = some r

theorem lt_of_resource (h : t.resource fd = some r) : fd < t.entries.length := by
  obtain ⟨e, he, -⟩ := bind_eq_some_iff.mp h
  exact lt_of_entry he

theorem resource_put (hfd : fd < t.entries.length) (e : Option FdEntry) :
    (t.put fd e).resource i = if i = fd then e.bind (·.desc.resource) else t.resource i := by
  simp only [resource, entry_put hfd]
  split <;> rfl

theorem names_put (hfd : fd < t.entries.length) (e : Option FdEntry) : (t.put fd e).Names r ↔
      (∃ i ≠ fd, t.resource i = some r) ∨ e.bind (·.desc.resource) = some r := by
  simp only [Names, resource_put hfd]
  constructor
  · rintro ⟨i, hi⟩
    split at hi
    · exact .inr hi
    · exact .inl ⟨i, ‹_›, hi⟩
  · rintro (⟨i, hne, hi⟩ | h)
    · exact ⟨i, by rwa [if_neg hne]⟩
    · exact ⟨fd, by rwa [if_pos rfl]⟩

theorem names_iff (fd : ℕ) :
    t.Names r ↔ (∃ i ≠ fd, t.resource i = some r) ∨ t.resource fd = some r := by
  constructor
  · rintro ⟨i, hi⟩
    by_cases hne : i = fd
    · exact .inr (hne ▸ hi)
    · exact .inl ⟨i, hne, hi⟩
  · rintro (⟨i, -, hi⟩ | h)
    · exact ⟨i, hi⟩
    · exact ⟨fd, h⟩

theorem Names.put_free (h : t.Names r) (hfd : fd < t.entries.length ∧ t.entry fd = none)
    (e : Option FdEntry) : (t.put fd e).Names r := by
  rw [names_put hfd.1]
  rw [names_iff fd] at h
  refine h.imp id fun hr => ?_
  simp [resource, hfd.2] at hr

theorem not_names_put (h : ¬ t.Names r) (he : e.desc.resource = none) :
    ¬ (t.put fd (some e)).Names r := by
  by_cases hfd : fd < t.entries.length
  · rw [names_put hfd]
    rintro (⟨i, -, hi⟩ | hr)
    · exact h ⟨i, hi⟩
    · simp [he] at hr
  · have : t.put fd (some e) = t := by simp [put, set_eq_of_length_le (not_lt.mp hfd)]
    rwa [this]

theorem not_names_withMax (maxFd : ℕ) (r : Resource) : ¬ (withMax maxFd).Names r := by
  have hempty : ¬ (⟨replicate (min maxFd maxFdLimit) none⟩ : FdTable).Names r := by
    rintro ⟨fd, h⟩
    simp only [resource, entry, getElem?_replicate] at h
    split at h <;> cases h
  exact not_names_put (not_names_put (not_names_put hempty rfl) rfl) rfl

/-- What a call on one table has to close, if `outside` is what the other tables name. -/
def Exact (outside : Resource → Prop) (t t' : FdTable) (closed : List Resource) : Prop :=
  ∀ r, closed.count r ≤ 1 ∧
    (r ∈ closed ↔ (outside r ∨ t.Names r) ∧ ¬ (outside r ∨ t'.Names r))

variable {outside : Resource → Prop} {t' : FdTable}

theorem exact_of_kept (h : ∀ r, t.Names r → t'.Names r) : Exact outside t t' [] := by
  intro r
  refine ⟨by simp, ?_⟩
  have := h r
  simp only [not_mem_nil, false_iff]
  tauto

theorem exact_put_iff (hfd : fd < t.entries.length) (e : Option FdEntry) :
    Exact outside t (t.put fd e) (t.resource fd).toList ↔
      ∀ r, t.resource fd = some r →
        ¬ outside r ∧ (∀ i ≠ fd, t.resource i ≠ some r) ∧ e.bind (·.desc.resource) ≠ some r := by
  simp only [Exact, names_put hfd, names_iff (t := t) fd, mem_toList]
  constructor
  · intro h r hr
    obtain ⟨-, hout⟩ := (h r).2.mp hr
    refine ⟨fun ho => hout (.inl ho), ?_, fun he => hout (.inr (.inr he))⟩
    intro i hi hri
    exact hout (.inr (.inl ⟨i, hi, hri⟩))
  intro h r
  constructor
  · cases t.resource fd with
    | none => simp
    | some q => simpa using count_le_length (a := r) (l := [q])
  constructor
  · intro hr
    obtain ⟨hout, hothers, he⟩ := h r hr
    refine ⟨.inr (.inr hr), ?_⟩
    rintro (ho | ⟨i, hi, hri⟩ | hre)
    · exact hout ho
    · exact hothers i hi hri
    · exact he hre
  · rintro ⟨ho | ⟨i, hi, hri⟩ | hr, hnot⟩
    · exact absurd (.inl ho) hnot
    · exact absurd (.inr (.inl ⟨i, hi, hri⟩)) hnot
    · exact hr

theorem closeInternal_some (he : t.entry fd = some e) :
    t.closeInternal fd = .ok ((), t.put fd none, (t.resource fd).toList) := by
  simp [closeInternal, resource, he]

theorem dup_some {old : FdEntry} {flags : FdFlags} {oldFd : ℕ} (hold : t.entry oldFd = some old)
    (hfd : fd < t.entries.length) : t.dup oldFd (some fd) flags =
      .ok (fd, t.put fd (some { old with flags }), (t.resource fd).toList) := by
  simp only [dup, hold, not_le.mpr hfd, if_false]
  cases he : t.entry fd with
  | none => simp [closeInternal, resource, he]
  | some => simp [closeInternal_some he, put]

/-! ### Closing on exec -/

theorem resource_of_marked (h : t.markedResource fd = some r) : t.resource fd = some r := by
  obtain ⟨e, he, hr⟩ := bind_eq_some_iff.mp h
  exact bind_eq_some_iff.mpr ⟨e, (marked_eq_some.mp he).1, hr⟩

theorem resource_unmark : (t.unmark t.entries.length).resource fd = some r ↔
      t.resource fd = some r ∧ t.markedResource fd ≠ some r := by
  simp only [resource, entry_unmark, markedResource]
  by_cases hm : (t.marked fd).isSome
  · obtain ⟨e, he⟩ := isSome_iff_exists.mp hm
    have hentry := (marked_eq_some.mp he).1
    simp [he, hentry, lt_of_entry hentry]
  · simp only [hm, Bool.false_eq_true, and_false, if_false]
    have hnone : t.marked fd = none := by simpa using hm
    simp [hnone]

theorem exact_closeOnExec_iff : Exact outside t t.closeOnExec.2.1 t.closeOnExec.2.2 ↔
      ∀ fd r, t.markedResource fd = some r →
        ¬ outside r ∧ ∀ i ≠ fd, t.resource i ≠ some r := by
  have hclosed : ∀ r, r ∈ t.closeOnExec.2.2 ↔ ∃ fd, t.markedResource fd = some r := by
    intro r
    simp only [closeOnExec_eq, mem_filterMap, mem_range]
    exact exists_congr fun fd => and_iff_right_of_imp fun h =>
      lt_of_resource (resource_of_marked h)
  -- the marked descriptors name different resources
  have honce : (∀ r, t.closeOnExec.2.2.count r ≤ 1) ↔
      ∀ fd r, t.markedResource fd = some r → ∀ i ≠ fd, t.markedResource i ≠ some r := by
    rw [← nodup_iff_count_le_one, closeOnExec_eq]
    simp only [Nodup, pairwise_filterMap]
    constructor
    · intro hpair fd r hfd i hi hri
      have hlt := mem_range.mpr (lt_of_resource (resource_of_marked hfd))
      have hlt' := mem_range.mpr (lt_of_resource (resource_of_marked hri))
      have hsymm : Std.Symm fun a b => ∀ x, t.markedResource a = some x →
          ∀ y, t.markedResource b = some y → x ≠ y :=
        ⟨fun a b hab x hx y hy heq => hab y hy x hx heq.symm⟩
      exact hpair.forall hlt hlt' (Ne.symm hi) r hfd r hri rfl
    · intro h
      refine nodup_range.imp fun {a b} hab x hx y hy heq => ?_
      exact h a x hx b (Ne.symm hab) (heq ▸ hy)
  have hunmark : t.closeOnExec.2.1 = t.unmark t.entries.length := by rw [closeOnExec_eq]
  constructor
  · intro h fd r hfd
    obtain ⟨-, hout⟩ := (h r).2.mp ((hclosed r).mpr ⟨fd, hfd⟩)
    refine ⟨fun ho => hout (.inl ho), ?_⟩
    intro i hi hri
    apply honce.mp (fun r => (h r).1) fd r hfd i hi
    by_contra hmarked
    refine hout (.inr ⟨i, ?_⟩)
    rw [hunmark]
    exact resource_unmark.mpr ⟨hri, hmarked⟩
  · intro h r
    refine ⟨honce.mpr (fun fd r hfd i hi hri => (h fd r hfd).2 i hi (resource_of_marked hri)) r, ?_⟩
    rw [hclosed, hunmark]
    constructor
    · rintro ⟨fd, hfd⟩
      refine ⟨.inr ⟨fd, resource_of_marked hfd⟩, ?_⟩
      rintro (ho | ⟨i, hi⟩)
      · exact (h fd r hfd).1 ho
      obtain ⟨hri, hmarked⟩ := resource_unmark.mp hi
      by_cases hne : i = fd
      · exact hmarked (hne ▸ hfd)
      · exact (h fd r hfd).2 i hne hri
    · rintro ⟨ho | ⟨fd, hfd⟩, hnot⟩
      · exact absurd (.inl ho) hnot
      · refine ⟨fd, ?_⟩
        by_contra hmarked
        exact hnot (.inr ⟨fd, resource_unmark.mpr ⟨hfd, hmarked⟩⟩)

end FdTable

namespace Descriptors

variable (s : Descriptors)

def Live (i : ℕ) : Prop := ∃ tid, s.tables tid = some i

def tableAt (i : ℕ) : FdTable := s.arcs[i]?.getD ⟨[]⟩

def Named (r : Resource) : Prop := ∃ i, s.Live i ∧ (s.tableAt i).Names r

def ClosesExactly (c : FdCall) : Prop :=
  ∀ r, (s.closedBy c).count r ≤ 1 ∧
    (r ∈ s.closedBy c ↔ s.Named r ∧ ¬ (s.step c).Named r)

/-- A live table other than `i` names the resource. -/
def NamedOutside (i : ℕ) (r : Resource) : Prop :=
  ∃ j ≠ i, s.Live j ∧ (s.tableAt j).Names r

def Only (i fd : ℕ) (r : Resource) : Prop :=
  ¬ s.NamedOutside i r ∧ ∀ fd' ≠ fd, (s.tableAt i).resource fd' ≠ some r

def NamedWithout (tid : TaskId) (r : Resource) : Prop :=
  ∃ tid' ≠ tid, ∃ j, s.tables tid' = some j ∧ (s.tableAt j).Names r

def Spared (tid : TaskId) : Prop :=
  ∀ i r, s.tables tid = some i → (s.tableAt i).Names r → s.NamedWithout tid r

def ClosesLast : FdCall → Prop
  | .close tid fd => ∀ i r, s.tables tid = some i → (s.tableAt i).resource fd = some r →
      s.Only i fd r
  | .dup2 tid oldFd newFd _ => ∀ i r, s.tables tid = some i →
      ((s.tableAt i).entry oldFd).isSome → (s.tableAt i).resource newFd = some r →
      oldFd ≠ newFd ∧ s.Only i newFd r
  | .closeOnExec tid => ∀ i fd r, s.tables tid = some i →
      (s.tableAt i).markedResource fd = some r → s.Only i fd r
  | .initFor tid | .removeFor tid => s.Spared tid
  | .cloneFdTable parentTid childTid | .shareFdTable parentTid childTid =>
    (s.tables parentTid).isSome → parentTid ≠ childTid → s.Spared childTid
  | .open .. | .dup .. | .fcntlDupfd .. => True

def Valid : Prop := ∀ tid i, s.tables tid = some i → i < s.arcs.length

variable {s} {tid : TaskId} {i : ℕ} {r : Resource}

theorem getTable_eq (hv : s.Valid) (h : s.tables tid = some i) :
    s.getTable tid = some (i, s.tableAt i) := by
  simp [getTable, h, tableAt, getElem?_eq_getElem (hv tid i h)]

theorem getTable_eq_none (h : s.tables tid = none) : s.getTable tid = none := by
  simp [getTable, h]

/-! ## Calls on one table -/

theorem named_iff_outside (h : s.tables tid = some i) :
    s.Named r ↔ s.NamedOutside i r ∨ (s.tableAt i).Names r := by
  constructor
  · rintro ⟨j, hlive, hj⟩
    by_cases hne : j = i
    · exact .inr (hne ▸ hj)
    · exact .inl ⟨j, hne, hlive, hj⟩
  · rintro (⟨j, -, hlive, hj⟩ | hi)
    · exact ⟨j, hlive, hj⟩
    · exact ⟨i, ⟨tid, h⟩, hi⟩

theorem named_set (h : s.tables tid = some i) (hi : i < s.arcs.length) (t : FdTable) :
    Named { s with arcs := s.arcs.set i t } r ↔ s.NamedOutside i r ∨ t.Names r := by
  have hself : tableAt { s with arcs := s.arcs.set i t } i = t := by simp [tableAt, hi]
  have hother : ∀ j ≠ i, tableAt { s with arcs := s.arcs.set i t } j = s.tableAt j := by
    intro j hj
    simp [tableAt, getElem?_set_ne (Ne.symm hj)]
  have hin := named_iff_outside (s := { s with arcs := s.arcs.set i t }) (r := r) h
  rw [hself] at hin
  rw [hin]
  apply or_congr_left
  refine exists_congr fun j => and_congr_right fun hj => ?_
  rw [hother j hj]
  rfl

variable {α : Type} {c : FdCall} {parentTid childTid : TaskId}

theorem closesExactly_of_same (h : s.call c = (s, [])) : s.ClosesExactly c := by
  intro r
  simp [step, closedBy, h]

theorem closesExactly_onTable {f : FdTable → Except FdError (α × FdTable × List Resource)}
    (hc : s.call c = s.settle (s.onTable tid f)) (hv : s.Valid) :
    s.ClosesExactly c ↔ ∀ i a t' closed, s.tables tid = some i →
      f (s.tableAt i) = .ok (a, t', closed) →
      (s.tableAt i).Exact (s.NamedOutside i) t' closed := by
  cases htid : s.tables tid with
  | none =>
    have : s.call c = (s, []) := by rw [hc, onTable, getTable_eq_none htid]; rfl
    exact iff_of_true (closesExactly_of_same this) (fun _ _ _ _ h => nomatch h)
  | some i =>
    rw [onTable, getTable_eq hv htid] at hc
    cases hf : f (s.tableAt i) with
    | error =>
      simp only [hf] at hc
      refine iff_of_true (closesExactly_of_same hc) ?_
      rintro j a t' closed ⟨⟩ hok
      rw [hf] at hok
      cases hok
    | ok res =>
      obtain ⟨a, t', closed⟩ := res
      simp only [hf] at hc
      have hstep : s.call c = ({ s with arcs := s.arcs.set i t' }, closed) := hc
      have hmain : s.ClosesExactly c ↔
          (s.tableAt i).Exact (s.NamedOutside i) t' closed := by
        refine forall_congr' fun r => ?_
        rw [step, closedBy, hstep, named_set htid (hv tid i htid), named_iff_outside htid]
      rw [hmain]
      constructor
      · rintro h j b u cl ⟨⟩ hok
        rw [hf] at hok
        cases hok
        exact h
      · intro h
        exact h i a t' closed rfl hf

theorem tables_onTable (f : FdTable → Except FdError (α × FdTable × List Resource)) :
    (s.settle (s.onTable tid f)).1.tables = s.tables := by
  simp only [onTable]
  split
  · rfl
  · split <;> rfl

/-! ## Calls that replace a task's table -/

theorem named_iff_without (tid : TaskId) :
    s.Named r ↔ s.NamedWithout tid r ∨ ∃ i, s.tables tid = some i ∧ (s.tableAt i).Names r := by
  constructor
  · rintro ⟨i, ⟨tid', htid'⟩, hi⟩
    by_cases hne : tid' = tid
    · exact .inr ⟨i, hne ▸ htid', hi⟩
    · exact .inl ⟨tid', hne, i, htid', hi⟩
  · rintro (⟨tid', -, i, htid', hi⟩ | ⟨i, htid, hi⟩)
    · exact ⟨i, ⟨tid', htid'⟩, hi⟩
    · exact ⟨i, ⟨tid, htid⟩, hi⟩

theorem namedWithout_update (x : Option ℕ) :
    NamedWithout { s with tables := update s.tables tid x } tid r ↔
      s.NamedWithout tid r := by
  refine exists_congr fun tid' => and_congr_right fun hne => ?_
  simp only [update_of_ne hne]
  rfl

theorem named_allot (hv : s.Valid) (t : FdTable) :
    (s.allot tid t).Named r ↔ s.NamedWithout tid r ∨ t.Names r := by
  rw [named_iff_without tid]
  apply or_congr
  · refine exists_congr fun tid' => and_congr_right fun hne => exists_congr fun j => ?_
    simp only [allot, update_of_ne hne]
    refine and_congr_right fun hj => ?_
    simp [tableAt, getElem?_append_left (hv tid' j hj)]
  · simp [allot, tableAt]

theorem named_removeFor : (s.removeFor tid).Named r ↔ s.NamedWithout tid r := by
  rw [named_iff_without tid, removeFor, namedWithout_update]
  simp

theorem closesExactly_replace {new : Resource → Prop} (hclosed : s.closedBy c = [])
    (hnamed : ∀ r, (s.step c).Named r ↔ s.NamedWithout tid r ∨ new r) : s.ClosesExactly c ↔
      ∀ i r, s.tables tid = some i → (s.tableAt i).Names r → s.NamedWithout tid r ∨ new r := by
  simp only [ClosesExactly, hclosed, count_nil, Nat.zero_le, true_and, not_mem_nil,
    false_iff, not_and, not_not, hnamed, named_iff_without tid]
  constructor
  · intro h i r hi hr
    exact h r (.inr ⟨i, hi, hr⟩)
  · rintro h r (hr | ⟨i, hi, hr⟩)
    · exact .inl hr
    · exact h i r hi hr

section

variable (hv : s.Valid)
include hv

theorem closesExactly_initFor (hc : s.call c = (s.initFor tid, [])) :
    s.ClosesExactly c ↔ s.Spared tid := by
  have hnamed : ∀ r, (s.step c).Named r ↔ s.NamedWithout tid r ∨ FdTable.new.Names r := by
    intro r
    rw [step, hc, initFor, named_allot hv]
  rw [closesExactly_replace (by rw [closedBy, hc]) hnamed]
  simp only [FdTable.new, FdTable.not_names_withMax, or_false]
  rfl

omit hv in
theorem closesExactly_inherit (hi : s.tables parentTid = some i) (hclosed : s.closedBy c = [])
    (hnamed : ∀ r, (s.step c).Named r ↔ s.NamedWithout childTid r ∨ (s.tableAt i).Names r) :
    s.ClosesExactly c ↔ (parentTid ≠ childTid → s.Spared childTid) := by
  rw [closesExactly_replace hclosed hnamed]
  by_cases hne : parentTid = childTid
  · subst hne
    refine iff_of_true (fun j r hj hr => ?_) (fun h => absurd rfl h)
    cases hi.symm.trans hj
    exact .inr hr
  · simp only [ne_eq, hne, not_false_eq_true, forall_const, Spared]
    refine forall_congr' fun j => forall_congr' fun r => forall₂_congr fun _ _ => ?_
    exact or_iff_left_of_imp fun hr => ⟨parentTid, hne, i, hi, hr⟩

theorem closesExactly_cloneFdTable (parentTid childTid : TaskId) :
    s.ClosesExactly (.cloneFdTable parentTid childTid) ↔
      s.ClosesLast (.cloneFdTable parentTid childTid) := by
  rw [ClosesLast]
  cases hi : s.tables parentTid with
  | none =>
    refine iff_of_true (closesExactly_of_same ?_) nofun
    simp [call, cloneFdTable, getTable_eq_none hi]
  | some =>
    simp only [isSome_some, forall_const]
    refine closesExactly_inherit hi rfl fun r => ?_
    simp only [step, call, cloneFdTable, getTable_eq hv hi, named_allot hv]

theorem closesExactly_shareFdTable (parentTid childTid : TaskId) :
    s.ClosesExactly (.shareFdTable parentTid childTid) ↔
      s.ClosesLast (.shareFdTable parentTid childTid) := by
  rw [ClosesLast]
  cases hi : s.tables parentTid with
  | none =>
    refine iff_of_true (closesExactly_of_same ?_) nofun
    simp [call, shareFdTable, getTable_eq_none hi]
  | some =>
    simp only [isSome_some, forall_const]
    refine closesExactly_inherit hi rfl fun r => ?_
    simp only [step, call, shareFdTable, getTable_eq hv hi]
    rw [named_iff_without childTid, namedWithout_update]
    simp only [update_self, Option.some.injEq, exists_eq_left']
    rfl

/-! ## Runs -/

theorem valid_onTable (f : FdTable → Except FdError (α × FdTable × List Resource)) :
    (s.settle (s.onTable tid f)).1.Valid := by
  simp only [onTable]
  split
  · exact hv
  split
  · exact hv
  · intro tid' j hj
    simpa [settle] using hv tid' j hj

theorem valid_update {x : Option ℕ} (hx : ∀ i, x = some i → i < s.arcs.length) :
    Valid { s with tables := update s.tables tid x } := by
  intro tid' j hj
  by_cases hne : tid' = tid
  · subst hne
    exact hx j (by simpa using hj)
  · exact hv tid' j (by simpa [update_of_ne hne] using hj)

theorem valid_allot (t : FdTable) : (s.allot tid t).Valid := by
  have hgrown : Valid ⟨s.arcs ++ [t], s.tables⟩ := by
    intro tid' j hj
    have := hv tid' j hj
    simp only [length_append, length_singleton]
    omega
  exact valid_update hgrown (by simp)

theorem valid_step (c : FdCall) : (s.step c).Valid := by
  cases c with
  | initFor => exact valid_allot hv _
  | «open» | dup | dup2 | fcntlDupfd | close | closeOnExec => exact valid_onTable hv _
  | cloneFdTable =>
    simp only [step, call, cloneFdTable]
    split
    · exact hv
    · exact valid_allot hv _
  | shareFdTable parentTid =>
    cases hi : s.tables parentTid with
    | none =>
      simp only [step, call, shareFdTable, getTable_eq_none hi]
      exact hv
    | some i =>
      simp only [step, call, shareFdTable, getTable_eq hv hi]
      refine valid_update hv fun j hj => ?_
      cases hj
      exact hv parentTid i hi
  | removeFor => exact valid_update hv (by simp)

theorem closesExactly_iff (c : FdCall) : s.ClosesExactly c ↔ s.ClosesLast c := by
  cases c with
  | initFor => exact closesExactly_initFor hv rfl
  | «open» tid desc flags openFlags =>
    refine iff_of_true ((closesExactly_onTable rfl hv).mpr ?_) trivial
    intro i fd t' closed _ hok
    simp only [FdTable.open] at hok
    split at hok <;> cases hok
    exact FdTable.exact_of_kept fun r hr => hr.put_free (FdTable.lowestFree_spec ‹_›) _
  | dup =>
    refine iff_of_true ((closesExactly_onTable rfl hv).mpr ?_) trivial
    intro i fd t' closed _ hok
    simp only [FdTable.dup] at hok
    split at hok
    · cases hok
    · split at hok <;> cases hok
      exact FdTable.exact_of_kept fun r hr => hr.put_free (FdTable.lowestFree_spec ‹_›) _
  | dup2 _ oldFd newFd =>
    rw [closesExactly_onTable rfl hv]
    constructor
    · intro h i r hi hold hr
      obtain ⟨old, hold⟩ := isSome_iff_exists.mp hold
      have hlt := FdTable.lt_of_resource hr
      have hexact := h i _ _ _ hi (FdTable.dup_some hold hlt)
      obtain ⟨hout, hothers, hcopy⟩ := (FdTable.exact_put_iff hlt _).mp hexact r hr
      refine ⟨?_, hout, hothers⟩
      rintro rfl
      exact hcopy (by simpa [FdTable.resource, hold] using hr)
    · intro h i fd t' closed hi hok
      cases hold : (s.tableAt i).entry oldFd with
      | none => simp [FdTable.dup, hold] at hok
      | some =>
        by_cases hlt : newFd < (s.tableAt i).entries.length
        · rw [FdTable.dup_some hold hlt] at hok
          cases hok
          refine (FdTable.exact_put_iff hlt _).mpr fun r hr => ?_
          obtain ⟨hne, hout, hothers⟩ := h i r hi (by simp [hold]) hr
          refine ⟨hout, hothers, fun hcopy => hothers oldFd hne ?_⟩
          simpa [FdTable.resource, hold] using hcopy
        · simp [FdTable.dup, hold, not_lt.mp hlt] at hok
  | fcntlDupfd _ fd =>
    refine iff_of_true ((closesExactly_onTable rfl hv).mpr ?_) trivial
    intro i fd t' closed _ hok
    simp only [FdTable.fcntlDupfd] at hok
    split at hok
    · cases hok
    · split at hok <;> cases hok
      exact FdTable.exact_of_kept fun r hr => hr.put_free (FdTable.lowestFree_spec ‹_›) _
  | close _ fd =>
    rw [closesExactly_onTable rfl hv]
    constructor
    · intro h i r hi hr
      have hlt := FdTable.lt_of_resource hr
      obtain ⟨e, he, -⟩ := bind_eq_some_iff.mp hr
      have hexact := h i _ _ _ hi (FdTable.closeInternal_some he)
      obtain ⟨hout, hothers, -⟩ := (FdTable.exact_put_iff hlt _).mp hexact r hr
      exact ⟨hout, hothers⟩
    intro h i a t' closed hi hok
    cases he : (s.tableAt i).entry fd with
    | none => simp [FdTable.close, FdTable.closeInternal, he] at hok
    | some =>
      rw [FdTable.close, FdTable.closeInternal_some he] at hok
      cases hok
      refine (FdTable.exact_put_iff (FdTable.lt_of_entry he) _).mpr fun r hr => ?_
      obtain ⟨hout, hothers⟩ := h i r hi hr
      exact ⟨hout, hothers, by simp⟩
  | closeOnExec =>
    rw [closesExactly_onTable rfl hv]
    constructor
    · intro h i fd r hi hr
      exact FdTable.exact_closeOnExec_iff.mp (h i _ _ _ hi rfl) fd r hr
    · intro h i a t' closed hi hok
      have hexact := FdTable.exact_closeOnExec_iff.mpr fun fd r hr => h i fd r hi hr
      rwa [Except.ok.inj hok] at hexact
  | cloneFdTable parentTid childTid => exact closesExactly_cloneFdTable hv parentTid childTid
  | shareFdTable parentTid childTid => exact closesExactly_shareFdTable hv parentTid childTid
  | removeFor tid =>
    have hnamed : ∀ r, (s.step (.removeFor tid)).Named r ↔ s.NamedWithout tid r ∨ False := by
      intro r
      rw [or_false]
      exact named_removeFor
    rw [closesExactly_replace rfl hnamed]
    simp only [or_false]
    rfl

end

/-- **When resources are closed.**  In a run from an empty system, every call closes exactly the
resources whose last descriptor goes away, each once, if and only if every descriptor that is
closed is the only one for its resource and no table with a last descriptor is dropped. -/
theorem closes_exactly_iff (calls : List FdCall) :
    (∀ past c rest, calls = past ++ c :: rest → (exec step start past).ClosesExactly c) ↔
      Along step ClosesLast start calls := by
  rw [← along_iff_forall_split]
  refine along_congr (I := Valid) (fun s c hv _ => valid_step hv c)
    (fun s c hv => closesExactly_iff hv c) ?_
  intro tid i h
  cases h

def onePipe : List FdCall := [.initFor 1, .open 1 (.pipe true 7) .empty .read]

/-- A descriptor is closed while its copy stays, by `close` after `dup`, by `dup2` onto itself and
by `close` after a fork; and a task's last descriptor is dropped with its table and closed by
nobody. -/
theorem closed_while_named :
    (let s := exec step start (onePipe ++ [.dup 1 3 .empty]);
      s.closedBy (.close 1 3) = [.pipeEnd 7 true] ∧
        (s.step (.close 1 3)).Named (.pipeEnd 7 true)) ∧
    (let s := exec step start onePipe;
      s.closedBy (.dup2 1 3 3 .empty) = [.pipeEnd 7 true] ∧
        (s.step (.dup2 1 3 3 .empty)).Named (.pipeEnd 7 true)) ∧
    (let s := exec step start (onePipe ++ [.cloneFdTable 1 2]);
      s.closedBy (.close 1 3) = [.pipeEnd 7 true] ∧
        (s.step (.close 1 3)).Named (.pipeEnd 7 true)) ∧
    (let s := exec step start onePipe;
      s.Named (.pipeEnd 7 true) ∧ s.closedBy (.removeFor 1) = [] ∧
        ¬ (s.step (.removeFor 1)).Named (.pipeEnd 7 true)) := by
  refine ⟨⟨by decide +kernel, 0, ⟨1, by decide +kernel⟩, 4, by decide +kernel⟩,
    ⟨by decide +kernel, 0, ⟨1, by decide +kernel⟩, 3, by decide +kernel⟩,
    ⟨by decide +kernel, 1, ⟨2, by decide +kernel⟩, 3, by decide +kernel⟩,
    ⟨0, ⟨1, by decide +kernel⟩, 3, by decide +kernel⟩, rfl, ?_⟩
  intro h
  obtain ⟨tid, hne, i, hi, -⟩ := named_removeFor.mp h
  simp only [onePipe, exec_cons, exec_nil, step, call, «open», tables_onTable, initFor, allot,
    start, update_of_ne hne, reduceCtorEq] at hi

end Descriptors

end IonaOs.Process.Fd
