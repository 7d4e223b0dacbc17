import IonaOs.Containers.Cgroups

/-!
# The control groups form a tree
-/

namespace IonaOs.Containers

open Std Lib Process Function Option List

namespace CgroupManager

variable {m : CgroupManager} {c d id : CgroupId} {tid : TaskId}

/-! ## The invariant -/

variable (m : CgroupManager)

def parentOf (c : CgroupId) : Option CgroupId := m.cgroups[c]?.bind (·.parent)

structure Hierarchy : Prop where
  root : ∃ cg, m.cgroups[rootCgroupId]? = some cg ∧ cg.parent = none
  tree : ∀ c cg, m.cgroups[c]? = some cg →
    Relation.ReflTransGen (fun d p => m.parentOf d = some p) c rootCgroupId
  children : ∀ c cg d, m.cgroups[c]? = some cg →
    cg.children.count d = if m.parentOf d = some c then 1 else 0
  tasks : ∀ t c, m.taskCgroup t = some c ↔
    (∃ cg, m.cgroups[c]? = some cg ∧ cg.tasks.count t = 1) ∧
      ∀ d dg, d ≠ c → m.cgroups[d]? = some dg → t ∉ dg.tasks

def childrenOf (c : CgroupId) : List CgroupId :=
  m.cgroups[c]?.elim [] (·.children)

def tasksOf (c : CgroupId) : List TaskId := m.cgroups[c]?.elim [] (·.tasks)

structure Kept : Prop where
  root : m.cgroups[rootCgroupId]?.isSome ∧ m.parentOf rootCgroupId = none
  parent : ∀ c, m.cgroups[c]?.isSome → c ≠ rootCgroupId → (m.parentOf c).isSome
  below : ∀ c p, m.parentOf c = some p → p < c ∧ m.cgroups[p]?.isSome
  fresh : ∀ c, m.cgroups[c]?.isSome → c < m.nextId
  children : ∀ c d, (m.childrenOf c).count d = if m.parentOf d = some c then 1 else 0
  tasks : ∀ c t, (m.tasksOf c).count t = if m.taskCgroup t = some c then 1 else 0
  homes : ∀ t c, m.taskCgroup t = some c → m.cgroups[c]?.isSome

variable {m}

theorem childrenOf_eq {cg : CgroupData} (hcg : m.cgroups[c]? = some cg) :
    m.childrenOf c = cg.children := by rw [childrenOf, hcg, elim_some]

theorem tasksOf_eq {cg : CgroupData} (hcg : m.cgroups[c]? = some cg) :
    m.tasksOf c = cg.tasks := by rw [tasksOf, hcg, elim_some]

section

variable (h : m.Kept)
include h

theorem Kept.hierarchy : m.Hierarchy where
  root := by
    obtain ⟨cg, hcg⟩ := isSome_iff_exists.mp h.root.1
    refine ⟨cg, hcg, ?_⟩
    simpa [parentOf, hcg] using h.root.2
  tree := by
    intro c
    induction hn : c.toNat using Nat.strong_induction_on generalizing c with
    | _ n ih =>
      intro cg hcg
      by_cases hroot : c = rootCgroupId
      · rw [hroot]
      obtain ⟨p, hstep⟩ := isSome_iff_exists.mp (h.parent c (by simp [hcg]) hroot)
      obtain ⟨hlt, hsome⟩ := h.below c p hstep
      obtain ⟨pg, hpg⟩ := isSome_iff_exists.mp hsome
      refine .head hstep (ih p.toNat ?_ p rfl pg hpg)
      rw [← hn]
      exact UInt32.lt_iff_toNat_lt.mp hlt
  children := by
    intro c cg d hcg
    rw [← childrenOf_eq hcg, h.children]
  tasks := by
    intro t c
    constructor
    · intro hc
      obtain ⟨cg, hcg⟩ := isSome_iff_exists.mp (h.homes t c hc)
      refine ⟨⟨cg, hcg, by rw [← tasksOf_eq hcg, h.tasks, if_pos hc]⟩, ?_⟩
      intro d dg hd hdg
      rw [← count_eq_zero, ← tasksOf_eq hdg, h.tasks, if_neg]
      intro hd'
      exact hd (Option.some.inj (hd'.symm.trans hc))
    · rintro ⟨⟨cg, hcg, hcount⟩, -⟩
      rw [← tasksOf_eq hcg, h.tasks] at hcount
      by_contra hne
      rw [if_neg hne] at hcount
      cases hcount

omit h in
theorem kept_new (maxCgroups : ℕ) : (new maxCgroups).Kept := by
  have hget (c : CgroupId) : (new maxCgroups).cgroups[c]? =
      if c = rootCgroupId then some (.new rootCgroupId "/" none) else none := by
    simp [new, ExtTreeMap.getElem?_insert, @eq_comm _ rootCgroupId]
  have hparent (d : CgroupId) : (new maxCgroups).parentOf d = none := by
    by_cases hd : d = rootCgroupId <;> simp [parentOf, hget, hd, CgroupData.new]
  refine ⟨⟨by simp [hget], hparent _⟩, ?_, by simp [hparent], ?_, ?_, ?_, fun _ _ => nofun⟩
  · intro c hc hroot
    simp [hget, hroot] at hc
  · intro c hc
    by_cases hroot : c = rootCgroupId
    · rw [hroot]
      exact (by decide : rootCgroupId < 1)
    · simp [hget, hroot] at hc
  · intro c d
    by_cases hc : c = rootCgroupId <;> simp [childrenOf, hget, hc, CgroupData.new, hparent]
  · intro c t
    rw [tasksOf, hget]
    by_cases hc : c = rootCgroupId <;> simp [hc, CgroupData.new, new]

theorem Kept.create {p : CgroupId} (hp : m.cgroups[p]?.isSome) (name : String)
    (hroom : m.nextId.toNat + 1 < 2 ^ 32) : Kept { m with
      nextId := m.nextId + 1
      cgroups := alterAt (m.cgroups.insert m.nextId (.new m.nextId name (some p))) p
        (·.addChild m.nextId) } := by
  have hnew : ∀ c : CgroupId, m.cgroups[c]?.isSome → c ≠ m.nextId := by
    rintro c hc rfl
    exact UInt32.lt_irrefl _ (h.fresh _ hc)
  have hnone : m.cgroups[m.nextId]? = none :=
    not_isSome_iff_eq_none.mp fun hsome => hnew _ hsome rfl
  have hnext : m.nextId < m.nextId + 1 := by
    have hone : (1 : UInt32).toNat = 1 := rfl
    rw [UInt32.lt_iff_toNat_lt, UInt32.toNat_add, hone, Nat.mod_eq_of_lt hroom]
    exact Nat.lt_succ_self _
  generalize hm : CgroupManager.mk (alterAt _ p _) _ _ _ = m'
  -- a group is the new one, or an old one that may have one more child
  have hget (c : CgroupId) : m'.cgroups[c]? =
      if c = m.nextId then some (.new m.nextId name (some p))
      else if c = p then m.cgroups[c]?.map (·.addChild m.nextId) else m.cgroups[c]? := by
    rw [← hm, getElem?_alterAt, ExtTreeMap.getElem?_insert]
    by_cases hc : c = m.nextId
    · simp [hc, Ne.symm (hnew p hp)]
    · simp [hc, Ne.symm hc]
  have hsome (c : CgroupId) : m'.cgroups[c]?.isSome ↔ c = m.nextId ∨ m.cgroups[c]?.isSome := by
    rw [hget]
    split_ifs with hc <;> simp [hc]
  have hparent (d : CgroupId) : m'.parentOf d = if d = m.nextId then some p else m.parentOf d := by
    rw [parentOf, hget]
    split_ifs
    · rfl
    · cases hd : m.cgroups[d]? <;> simp [parentOf, hd, CgroupData.addChild]
    · rfl
  have hchildren (c : CgroupId) : m'.childrenOf c =
      if c = p then m.childrenOf c ++ [m.nextId] else m.childrenOf c := by
    rw [childrenOf, hget]
    split_ifs with hc hcp hcp
    · exact absurd (hcp.symm.trans hc) (hnew p hp)
    · simp [hc, childrenOf, hnone, CgroupData.new]
    · obtain ⟨cg, hcg⟩ := isSome_iff_exists.mp hp
      simp [hcp, childrenOf, hcg, CgroupData.addChild]
    · rfl
  have htasks (c : CgroupId) : m'.tasksOf c = m.tasksOf c := by
    rw [tasksOf, hget]
    split_ifs with hc
    · simp [hc, tasksOf, hnone, CgroupData.new]
    · cases hcg : m.cgroups[c]? <;> simp [tasksOf, hcg, CgroupData.addChild]
    · rfl
  have hnewborn : m.parentOf m.nextId = none := by simp [parentOf, hnone]
  refine ⟨⟨(hsome _).mpr (.inr h.root.1), ?_⟩, ?_, ?_, ?_, ?_, ?_, ?_⟩
  · rw [hparent, if_neg (hnew _ h.root.1), h.root.2]
  · intro c hc hroot
    rw [hparent]
    split_ifs with hcn
    · rfl
    · exact h.parent c (((hsome c).mp hc).resolve_left hcn) hroot
  · intro c q hq
    rw [hparent] at hq
    split_ifs at hq with hcn
    · cases hq
      exact ⟨hcn ▸ h.fresh p hp, (hsome p).mpr (.inr hp)⟩
    · exact (h.below c q hq).imp_right fun hqs => (hsome q).mpr (.inr hqs)
  · intro c hc
    rw [← hm]
    rcases (hsome c).mp hc with rfl | hc
    · exact hnext
    · exact UInt32.lt_trans (h.fresh c hc) hnext
  · intro c d
    have hcount := h.children c d
    rw [hchildren, hparent]
    by_cases hd : d = m.nextId
    · rw [hd, hnewborn] at hcount
      by_cases hcp : c = p
      · subst hcp
        simp [hd, count_append, hcount]
      · simp [hd, hcp, Ne.symm hcp, hcount]
    · rw [if_neg hd, ← hcount]
      split_ifs <;> simp [count_append, Ne.symm hd]
  · intro c t
    rw [htasks, h.tasks, ← hm]
  · intro t c ht
    rw [← hm] at ht
    exact (hsome c).mpr (.inr (h.homes t c ht))

theorem Kept.remove {cg : CgroupData} {p : CgroupId} (hcg : m.cgroups[id]? = some cg)
    (htasks : cg.tasks = []) (hchildren : cg.children = []) (hp : cg.parent = some p) :
    Kept { m with cgroups := (alterAt m.cgroups p (·.dropChild id)).erase id } := by
  have hpar : m.parentOf id = some p := by simp [parentOf, hcg, hp]
  have hleaf (d : CgroupId) : m.parentOf d ≠ some id := by
    intro hd
    have hcount := h.children id d
    rw [childrenOf_eq hcg, hchildren, if_pos hd] at hcount
    cases hcount
  generalize hm : CgroupManager.mk ((alterAt _ p _).erase id) _ _ _ = m'
  have hget (c : CgroupId) : m'.cgroups[c]? = if c = id then none
      else if c = p then m.cgroups[c]?.map (·.dropChild id) else m.cgroups[c]? := by
    rw [← hm, ExtTreeMap.getElem?_erase, getElem?_alterAt]
    by_cases hc : c = id
    · simp [hc]
    · simp [hc, Ne.symm hc]
  have hsome (c : CgroupId) : m'.cgroups[c]?.isSome ↔ c ≠ id ∧ m.cgroups[c]?.isSome := by
    rw [hget]
    split_ifs with hc <;> simp [hc]
  have hparent (d : CgroupId) : m'.parentOf d = if d = id then none else m.parentOf d := by
    rw [parentOf, hget]
    split_ifs
    · rfl
    · cases hd : m.cgroups[d]? <;> simp [parentOf, hd, CgroupData.dropChild]
    · rfl
  have hdropped (c : CgroupId) : m'.childrenOf c =
      if c = p then (m.childrenOf c).filter (· ≠ id) else m.childrenOf c := by
    rw [childrenOf, hget]
    split_ifs with hc
    · simp [hc, childrenOf_eq hcg, hchildren]
    · simp [hc, childrenOf_eq hcg, hchildren]
    · cases hcg : m.cgroups[c]? <;> simp [childrenOf, hcg, CgroupData.dropChild]
    · rfl
  have hsame (c : CgroupId) : m'.tasksOf c = m.tasksOf c := by
    rw [tasksOf, hget]
    split_ifs with hc
    · simp [hc, tasksOf_eq hcg, htasks]
    · cases hcg : m.cgroups[c]? <;> simp [tasksOf, hcg, CgroupData.dropChild]
    · rfl
  refine ⟨⟨(hsome _).mpr ⟨?_, h.root.1⟩, ?_⟩, ?_, ?_, ?_, ?_, ?_, ?_⟩
  · intro hroot
    rw [← hroot, h.root.2] at hpar
    cases hpar
  · rw [hparent, h.root.2, ite_self]
  · intro c hc hroot
    rw [hparent, if_neg ((hsome c).mp hc).1]
    exact h.parent c ((hsome c).mp hc).2 hroot
  · intro c q hq
    rw [hparent] at hq
    split_ifs at hq
    refine (h.below c q hq).imp_right fun hqs => (hsome q).mpr ⟨?_, hqs⟩
    rintro rfl
    exact hleaf c hq
  · intro c hc
    rw [← hm]
    exact h.fresh c ((hsome c).mp hc).2
  · intro c d
    have hcount := h.children c d
    rw [hdropped, hparent]
    by_cases hd : d = id
    · rw [hd, hpar] at hcount
      by_cases hcp : c = p
      · simp [hd, hcp, count_eq_zero]
      · simpa [hd, hcp, Ne.symm hcp] using hcount
    · rw [if_neg hd, ← hcount]
      split_ifs <;> simp [count_filter, hd]
  · intro c t
    rw [hsame, h.tasks, ← hm]
  · intro t c ht
    rw [← hm] at ht
    refine (hsome c).mpr ⟨?_, h.homes t c ht⟩
    rintro rfl
    have hcount := h.tasks c t
    rw [tasksOf_eq hcg, htasks, if_pos ht] at hcount
    cases hcount

theorem Kept.retask {cgroups : ExtTreeMap CgroupId CgroupData compare}
    {f : TaskId → Option CgroupId} {T : CgroupId → List TaskId → List TaskId}
    (hget : ∀ c : CgroupId,
      cgroups[c]? = m.cgroups[c]?.map fun cg => { cg with tasks := T c cg.tasks })
    (htasks : ∀ c t, m.cgroups[c]?.isSome →
      (T c (m.tasksOf c)).count t = if f t = some c then 1 else 0)
    (hhomes : ∀ t c, f t = some c → m.cgroups[c]?.isSome) :
    Kept { m with cgroups := cgroups, taskCgroup := f } := by
  have hsome (c : CgroupId) : cgroups[c]?.isSome = m.cgroups[c]?.isSome := by
    rw [hget, isSome_map]
  have hparent (d : CgroupId) :
      parentOf { m with cgroups := cgroups, taskCgroup := f } d = m.parentOf d := by
    rw [parentOf, hget, parentOf]
    cases m.cgroups[d]? <;> rfl
  refine ⟨?_, ?_, ?_, ?_, ?_, ?_, ?_⟩
  · rw [hsome, hparent]
    exact h.root
  · intro c
    rw [hsome, hparent]
    exact h.parent c
  · intro c p
    rw [hsome, hparent]
    exact h.below c p
  · intro c
    rw [hsome]
    exact h.fresh c
  · intro c d
    rw [hparent, ← h.children, childrenOf, hget, childrenOf]
    cases m.cgroups[c]? <;> rfl
  · intro c t
    rw [tasksOf, hget]
    cases hcg : m.cgroups[c]? with
    | none =>
      rw [if_neg fun ht => by simpa [hcg] using hhomes t c ht]
      rfl
    | some cg => rw [← htasks c t (by simp [hcg]), tasksOf_eq hcg]; rfl
  · intro t c ht
    rw [hsome]
    exact hhomes t c ht

theorem Kept.leave (tid : TaskId) : Kept { m with
      cgroups := (m.leave tid (m.taskCgroup tid)).cgroups
      taskCgroup := update m.taskCgroup tid none } := by
  refine h.retask (T := fun c ts => if m.taskCgroup tid = some c then ts.filter (· ≠ tid) else ts)
    ?_ ?_ ?_
  · intro c
    rw [getElem?_leave]
    split
    · rfl
    · simp
  · intro c t _
    have hcount := h.tasks c t
    by_cases ht : t = tid
    · subst ht
      rw [update_self]
      by_cases hc : m.taskCgroup t = some c
      · simp [hc, count_eq_zero]
      · simpa [hc] using hcount
    · rw [update_of_ne ht, ← hcount]
      split
      · rw [count_filter (by simpa using ht)]
      · rfl
  · intro t c ht
    by_cases htid : t = tid
    · simp [htid] at ht
    · rw [update_of_ne htid] at ht
      exact h.homes t c ht

theorem Kept.join {cg : CgroupData} (hcg : m.cgroups[id]? = some cg)
    (hnone : m.taskCgroup tid = none) : Kept { m with
      cgroups := m.cgroups.insert id (cg.addTask tid)
      taskCgroup := update m.taskCgroup tid (some id) } := by
  refine h.retask (T := fun c ts => if c = id then ts ++ [tid] else ts) ?_ ?_ ?_
  · intro c
    rw [ExtTreeMap.getElem?_insert]
    by_cases hc : c = id
    · subst hc
      simp [hcg, CgroupData.addTask]
    · simp [hc, Ne.symm hc]
  · intro c t _
    have hcount := h.tasks c t
    by_cases ht : t = tid
    · subst ht
      rw [hnone] at hcount
      rw [update_self]
      by_cases hc : c = id
      · subst hc
        simp [count_append, hcount]
      · simp [hc, Ne.symm hc, hcount]
    · rw [update_of_ne ht, ← hcount]
      split
      · simp [count_append, Ne.symm ht]
      · rfl
  · intro t c ht
    by_cases htid : t = tid
    · rw [htid, update_self] at ht
      cases ht
      simp [hcg]
    · rw [update_of_ne htid] at ht
      exact h.homes t c ht

theorem Kept.step (c : CgroupCall) (hroom : (m.created c).isSome → m.nextId.toNat + 1 < 2 ^ 32) :
    (m.step c).Kept := by
  rw [created] at hroom
  have heffect := m.effect c
  generalize m.step c = after, m.reply c = answer at heffect hroom ⊢
  cases heffect with
  | failed => exact h
  | created hp => exact h.create hp _ (hroom rfl)
  | removed hcg htasks hchildren hp => exact h.remove hcg htasks hchildren hp
  | attached hcg =>
    have hjoin := (h.leave _).join hcg (update_self ..)
    rwa [update_idem] at hjoin
  | left tid => exact h.leave tid

/-! ## Whole runs -/

theorem Kept.run {calls : List CgroupCall}
    (hroom : m.nextId.toNat + (createdIds m calls).length < 2 ^ 32) :
    (exec CgroupManager.step m calls).Kept ∧ (createdIds m calls).Pairwise (· < ·) ∧
      ∀ id ∈ createdIds m calls, m.nextId ≤ id := by
  induction calls generalizing m with
  | nil => simpa [createdIds] using h
  | cons c calls ih =>
    rw [createdIds] at hroom ⊢
    rcases m.nextId_step c with ⟨hnone, hnext⟩ | ⟨hsome, hnext⟩
    · rw [hnone] at hroom ⊢
      have hkept := h.step c (by simp [hnone])
      rw [← hnext] at hroom ⊢
      exact ih hkept hroom
    rw [hsome] at hroom ⊢
    simp only [toList_some, cons_append, nil_append, length_cons] at hroom ⊢
    have hone : (1 : UInt32).toNat = 1 := rfl
    have hstep : (m.nextId + 1).toNat = m.nextId.toNat + 1 := by
      rw [UInt32.toNat_add, hone, Nat.mod_eq_of_lt (by omega)]
    have hkept := h.step c (fun _ => by omega)
    obtain ⟨hrun, hpair, hle⟩ := ih hkept (by rw [hnext, hstep]; omega)
    rw [hnext] at hle
    have hlt : ∀ id ∈ createdIds (m.step c) calls, m.nextId < id := by
      intro id hid
      have := UInt32.le_iff_toNat_le.mp (hle id hid)
      rw [UInt32.lt_iff_toNat_lt]
      omega
    refine ⟨hrun, pairwise_cons.mpr ⟨hlt, hpair⟩, ?_⟩
    intro id hid
    rcases mem_cons.mp hid with rfl | hid
    · exact UInt32.le_refl _
    · exact UInt32.le_of_lt (hlt id hid)

end

/-- **The hierarchy is kept.**  After every run with fewer than `2^32 - 1` creations the groups form
a tree, children and tasks are listed exactly once, and no number was given twice; a call that
fails changes nothing, and a group is removed only by `remove` and only when it is empty. -/
theorem hierarchy_kept (maxCgroups : ℕ) (calls : List CgroupCall)
    (hfew : (createdIds (new maxCgroups) calls).length < 2 ^ 32 - 1) :
    (exec step (new maxCgroups) calls).Hierarchy ∧
    (rootCgroupId :: createdIds (new maxCgroups) calls).Nodup ∧
    ∀ past c rest, calls = past ++ c :: rest →
      (∀ err, (exec step (new maxCgroups) past).reply c = .error err →
        (exec step (new maxCgroups) past).step c = exec step (new maxCgroups) past) ∧
      ∀ id, (exec step (new maxCgroups) past).cgroups[id]?.isSome →
        ((exec step (new maxCgroups) past).step c).cgroups[id]? = none →
        c = .remove id ∧ ∃ cg, (exec step (new maxCgroups) past).cgroups[id]? = some cg ∧
          cg.tasks = [] ∧ cg.children = [] := by
  have hone : (new maxCgroups).nextId.toNat = 1 := rfl
  have hroom : (new maxCgroups).nextId.toNat + (createdIds (new maxCgroups) calls).length <
      2 ^ 32 := by omega
  obtain ⟨hkept, hpair, hle⟩ := (kept_new maxCgroups).run hroom
  refine ⟨hkept.hierarchy, nodup_cons.mpr ⟨?_, hpair.imp UInt32.ne_of_lt⟩, ?_⟩
  · intro hzero
    exact (by decide : ¬ (1 : UInt32) ≤ rootCgroupId) (hle _ hzero)
  · intro past c rest _
    exact ⟨fun err => step_eq_of_error, fun id => removed_empty⟩

def nested : List CgroupCall :=
  [.create "a" none, .create "b" (some 1), .attach 7 2, .attach 7 2, .remove 1, .removeTask 7,
    .remove 2]

theorem hierarchy_kept_nested :
    createdIds (new 3) nested = [1, 2] ∧ (exec step (new 3) nested).Hierarchy := by
  have hcreated : createdIds (new 3) nested = [1, 2] := by decide +kernel
  exact ⟨hcreated, (hierarchy_kept 3 nested (by rw [hcreated]; decide)).1⟩

end CgroupManager

end IonaOs.Containers
