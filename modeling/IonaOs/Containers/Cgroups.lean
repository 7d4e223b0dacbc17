import IonaOs.Lib.Run
import IonaOs.Types

/-!
# The hierarchy of control groups
-/

namespace IonaOs.Containers

open Std Lib Process

abbrev CgroupId := UInt32

def rootCgroupId : CgroupId := 0

structure CgroupData where
  id : CgroupId
  name : String
  parent : Option CgroupId
  tasks : List TaskId
  children : List CgroupId

def CgroupData.new (id : CgroupId) (name : String) (parent : Option CgroupId) : CgroupData :=
  ⟨id, name, parent, [], []⟩

inductive CgroupError where
  | notFound (id : CgroupId)
  | emptyName
  | parentNotFound (id : CgroupId)
  | hasChildren
  | hasTasks
  | cannotDeleteRoot
  | tooManyCgroups (max : ℕ)

structure CgroupManager where
  cgroups : ExtTreeMap CgroupId CgroupData compare
  taskCgroup : TaskId → Option CgroupId
  nextId : CgroupId
  maxCgroups : ℕ

/-- `get_mut`, and a change to what is found. -/
def alterAt (cgroups : ExtTreeMap CgroupId CgroupData compare) (id : CgroupId)
    (f : CgroupData → CgroupData) : ExtTreeMap CgroupId CgroupData compare :=
  match cgroups[id]? with
  | none => cgroups
  | some cg => cgroups.insert id (f cg)

theorem getElem?_alterAt (cgroups : ExtTreeMap CgroupId CgroupData compare) (id c : CgroupId)
    (f : CgroupData → CgroupData) :
    (alterAt cgroups id f)[c]? = if c = id then cgroups[c]?.map f else cgroups[c]? := by
  by_cases hc : c = id
  · subst hc
    cases h : cgroups[c]? <;> simp [alterAt, h]
  · have hne : ¬ id = c := fun heq => hc heq.symm
    cases h : cgroups[id]? <;> simp [alterAt, h, hc, hne, ExtTreeMap.getElem?_insert]

theorem alterAt_eq_some {cgroups : ExtTreeMap CgroupId CgroupData compare} {id c : CgroupId}
    {f : CgroupData → CgroupData} {cg' : CgroupData} :
    (alterAt cgroups id f)[c]? = some cg' ↔
      ∃ cg, cgroups[c]? = some cg ∧ cg' = if c = id then f cg else cg := by
  rw [getElem?_alterAt]
  split
  · rw [Option.map_eq_some_iff]
    exact exists_congr fun cg => and_congr_right fun _ => eq_comm
  · simp

def CgroupData.addChild (id : CgroupId) (cg : CgroupData) : CgroupData :=
  { cg with children := cg.children ++ [id] }

def CgroupData.dropChild (id : CgroupId) (cg : CgroupData) : CgroupData :=
  { cg with children := cg.children.filter (· ≠ id) }

def CgroupData.addTask (tid : TaskId) (cg : CgroupData) : CgroupData :=
  { cg with tasks := cg.tasks ++ [tid] }

def CgroupData.dropTask (tid : TaskId) (cg : CgroupData) : CgroupData :=
  { cg with tasks := cg.tasks.filter (· ≠ tid) }

namespace CgroupManager

def new (maxCgroups : ℕ) : CgroupManager where
  cgroups := (∅ : ExtTreeMap _ _ _).insert rootCgroupId (.new rootCgroupId "/" none)
  taskCgroup := fun _ => none
  nextId := 1
  maxCgroups := maxCgroups

variable (m : CgroupManager)

def create (name : String) (parent : Option CgroupId) :
    Except CgroupError CgroupId × CgroupManager :=
  if name = "" then (.error .emptyName, m)
  else
    let parentId := parent.getD rootCgroupId
    if m.maxCgroups ≤ m.cgroups.size then (.error (.tooManyCgroups m.maxCgroups), m)
    else if !m.cgroups.contains parentId then (.error (.parentNotFound parentId), m)
    else
      let id := m.nextId
      let m := { m with nextId := m.nextId + 1 }
      -- the parent is looked up once more, under another lock
      if !m.cgroups.contains parentId then (.error (.parentNotFound parentId), m)
      else
        let cgroups := m.cgroups.insert id (.new id name (some parentId))
        (.ok id, { m with cgroups := alterAt cgroups parentId (·.addChild id) })

def remove (id : CgroupId) : Except CgroupError Unit × CgroupManager :=
  if id = rootCgroupId then (.error .cannotDeleteRoot, m)
  else
    match m.cgroups[id]? with
    | none => (.error (.notFound id), m)
    | some cg =>
      if cg.tasks ≠ [] then (.error .hasTasks, m)
      else if cg.children ≠ [] then (.error .hasChildren, m)
      else
        match cg.parent with
        | none => (.error (.notFound id), m)
        | some parentId =>
          (.ok (), { m with cgroups := (alterAt m.cgroups parentId (·.dropChild id)).erase id })

def leave (tid : TaskId) : Option CgroupId → CgroupManager
  | none => m
  | some old => { m with cgroups := alterAt m.cgroups old (·.dropTask tid) }

def attach (tid : TaskId) (id : CgroupId) :
    Except CgroupError Unit × CgroupManager :=
  if !m.cgroups.contains id then (.error (.notFound id), m)
  else
    let oldId := m.taskCgroup tid
    let m := { m with taskCgroup := Function.update m.taskCgroup tid (some id) }
    let m := m.leave tid oldId
    match m.cgroups[id]? with
    | none => (.error (.notFound id), m)
    | some cg =>
      (.ok (), { m with
        cgroups := m.cgroups.insert id (cg.addTask tid)
        taskCgroup := Function.update m.taskCgroup tid (some id) })

def removeTask (tid : TaskId) : CgroupManager :=
  let oldId := m.taskCgroup tid
  let m := { m with taskCgroup := Function.update m.taskCgroup tid none }
  m.leave tid oldId

end CgroupManager

/-! ## Runs -/

inductive CgroupCall where
  | create (name : String) (parent : Option CgroupId)
  | remove (id : CgroupId)
  | attach (tid : TaskId) (id : CgroupId)
  | removeTask (tid : TaskId)

namespace CgroupManager

variable (m : CgroupManager)

/-- What a call returns (the number of the new group for `create`), and what it leaves. -/
def call : CgroupCall → Except CgroupError (Option CgroupId) × CgroupManager
  | .create name parent => ((m.create name parent).1.map some, (m.create name parent).2)
  | .remove id => ((m.remove id).1.map fun _ => none, (m.remove id).2)
  | .attach tid id => ((m.attach tid id).1.map fun _ => none, (m.attach tid id).2)
  | .removeTask tid => (.ok none, m.removeTask tid)

def reply (c : CgroupCall) : Except CgroupError (Option CgroupId) :=
  (m.call c).1

def step (c : CgroupCall) : CgroupManager := (m.call c).2

def created (c : CgroupCall) : Option CgroupId :=
  match m.reply c with
  | .ok id => id
  | .error _ => none

def createdIds : CgroupManager → List CgroupCall → List CgroupId
  | _, [] => []
  | m, c :: cs => (m.created c).toList ++ createdIds (m.step c) cs

/-! ## One call -/

variable {m : CgroupManager} {id : CgroupId} {tid : TaskId}

theorem getElem?_leave (old : Option CgroupId) (c : CgroupId) : (m.leave tid old).cgroups[c]? =
      if old = some c then m.cgroups[c]?.map (·.dropTask tid) else m.cgroups[c]? := by
  cases old with
  | none => simp [leave]
  | some =>
    simp only [leave, getElem?_alterAt, Option.some.injEq, eq_comm]

theorem leave_with (x : Option CgroupId) (f : TaskId → Option CgroupId) :
    leave { m with taskCgroup := f } tid x =
      { m with cgroups := (m.leave tid x).cgroups, taskCgroup := f } := by
  cases x <;> rfl

/-- What a call can do: the reply, and the manager it leaves. -/
inductive Effect (m : CgroupManager) :
    CgroupCall → Except CgroupError (Option CgroupId) → CgroupManager → Prop
  | failed (c : CgroupCall) (err : CgroupError) : Effect m c (.error err) m
  | created {name : String} {parent : Option CgroupId} {p : CgroupId} (hp : m.cgroups[p]?.isSome) :
    Effect m (.create name parent) (.ok (some m.nextId)) { m with
      nextId := m.nextId + 1
      cgroups := alterAt (m.cgroups.insert m.nextId (.new m.nextId name (some p))) p
        (·.addChild m.nextId) }
  | removed {id p : CgroupId} {cg : CgroupData} (hcg : m.cgroups[id]? = some cg)
    (htasks : cg.tasks = []) (hchildren : cg.children = []) (hp : cg.parent = some p) :
    Effect m (.remove id) (.ok none)
      { m with cgroups := (alterAt m.cgroups p (·.dropChild id)).erase id }
  | attached {tid : TaskId} {id : CgroupId} {cg : CgroupData}
    (hcg : (m.leave tid (m.taskCgroup tid)).cgroups[id]? = some cg) :
    Effect m (.attach tid id) (.ok none) { m with
      cgroups := (m.leave tid (m.taskCgroup tid)).cgroups.insert id (cg.addTask tid)
      taskCgroup := Function.update m.taskCgroup tid (some id) }
  | left (tid : TaskId) : Effect m (.removeTask tid) (.ok none) { m with
      cgroups := (m.leave tid (m.taskCgroup tid)).cgroups
      taskCgroup := Function.update m.taskCgroup tid none }

theorem effect_attach (tid : TaskId) (id : CgroupId) :
    Effect m (.attach tid id) (m.reply (.attach tid id)) (m.step (.attach tid id)) := by
  simp only [reply, step, call, attach, leave_with]
  split
  · exact .failed ..
  rename_i hcontains
  have hstill : (m.leave tid (m.taskCgroup tid)).cgroups[id]? ≠ none := by
    rw [getElem?_leave]
    split <;> simpa using hcontains
  split
  · rename_i hnone
    exact absurd hnone hstill
  · rename_i cg hcg
    rw [Function.update_idem]
    exact .attached hcg

theorem effect (m : CgroupManager) (c : CgroupCall) : Effect m c (m.reply c) (m.step c) := by
  cases c with
  | create name parent =>
    simp only [reply, step, call, create]
    split
    · exact .failed ..
    split
    · exact .failed ..
    split
    · exact .failed ..
    · rename_i hcontains
      exact .created (by simpa using hcontains)
  | remove id =>
    simp only [reply, step, call, remove]
    split
    · exact .failed ..
    split
    · exact .failed ..
    split
    · exact .failed ..
    split
    · exact .failed ..
    split
    · exact .failed ..
    · rename_i _ _ _ hcg htasks hchildren _ _ hp
      exact .removed hcg (not_not.mp htasks) (not_not.mp hchildren) hp
  | attach => exact effect_attach ..
  | removeTask tid =>
    simp only [reply, step, call, removeTask, leave_with]
    exact .left tid

theorem step_eq_of_error {c : CgroupCall} {err : CgroupError} (h : m.reply c = .error err) :
    m.step c = m := by
  have heffect := m.effect c
  rw [h] at heffect
  generalize m.step c = after at heffect ⊢
  cases heffect
  rfl

theorem isSome_alterAt (cgroups : ExtTreeMap CgroupId CgroupData compare) (id c : CgroupId)
    (f : CgroupData → CgroupData) : (alterAt cgroups id f)[c]?.isSome = cgroups[c]?.isSome := by
  rw [getElem?_alterAt]
  split <;> simp

theorem isSome_leave (old : Option CgroupId) (c : CgroupId) :
    (m.leave tid old).cgroups[c]?.isSome = m.cgroups[c]?.isSome := by
  rw [getElem?_leave]
  split <;> simp

theorem isSome_insert (cgroups : ExtTreeMap CgroupId CgroupData compare) (id c : CgroupId)
    (cg : CgroupData) (h : cgroups[c]?.isSome) : (cgroups.insert id cg)[c]?.isSome := by
  rw [ExtTreeMap.getElem?_insert]
  split
  · rfl
  · exact h

theorem removed_empty {c : CgroupCall} (hbefore : m.cgroups[id]?.isSome)
    (hafter : (m.step c).cgroups[id]? = none) :
    c = .remove id ∧ ∃ cg, m.cgroups[id]? = some cg ∧ cg.tasks = [] ∧ cg.children = [] := by
  have hgone : ¬ (m.step c).cgroups[id]?.isSome := by simp [hafter]
  have heffect := m.effect c
  generalize m.step c = after, m.reply c = answer at heffect hgone
  cases heffect with
  | failed => exact absurd hbefore hgone
  | created =>
    refine absurd ?_ hgone
    rw [isSome_alterAt]
    exact isSome_insert _ _ _ _ hbefore
  | @removed id' p cg hcg htasks hchildren =>
    by_cases hid : id' = id
    · subst hid
      exact ⟨rfl, cg, hcg, htasks, hchildren⟩
    refine absurd ?_ hgone
    rw [ExtTreeMap.getElem?_erase, if_neg (by simpa using hid), isSome_alterAt]
    exact hbefore
  | attached =>
    refine absurd (isSome_insert _ _ _ _ ?_) hgone
    rwa [isSome_leave]
  | left =>
    refine absurd ?_ hgone
    rwa [isSome_leave]

theorem nextId_step (c : CgroupCall) : m.created c = none ∧ (m.step c).nextId = m.nextId ∨
      m.created c = some m.nextId ∧ (m.step c).nextId = m.nextId + 1 := by
  rw [created]
  have heffect := m.effect c
  generalize m.step c = after, m.reply c = answer at heffect ⊢
  cases heffect with
  | created => exact .inr ⟨rfl, rfl⟩
  | failed | removed | attached | left => exact .inl ⟨rfl, rfl⟩

end CgroupManager

end IonaOs.Containers
