import IonaOs.Lib.Run
import IonaOs.Types

/-!
# Waiting for children
-/

namespace IonaOs.Process.Waitpid

open Lib Function List

inductive ProcessState where
  | running
  | sleeping
  | stopped
  | zombie
  | dead
deriving DecidableEq

structure Proc where
  parent : TaskId
  state : ProcessState
  exitCode : Option Int32

def Proc.isZombie (p : Proc) : Bool := p.state = .zombie

def Proc.terminate (p : Proc) (code : Int32) : Proc :=
  { p with state := .zombie, exitCode := some code }

/-- The errors of `do_waitpid`. -/
inductive ProcessError where
  | noChildProcess
deriving DecidableEq

structure WaitOptions where
  bits : UInt32
deriving DecidableEq

def WaitOptions.isWnohang (o : WaitOptions) : Bool := o.bits &&& 1 != 0

inductive Phase where
  | idle
  | checking (target : TaskId) (options : WaitOptions) (children : List TaskId)
  | waiting (target : TaskId) (options : WaitOptions) (children : List TaskId)
  | unlisting (pid : TaskId) (code : Int32)
  | reaping (pid : TaskId) (code : Int32)
  | answered (r : Except ProcessError (TaskId × Int32))
  | terminating (code : Int32)
  | recording (code : Int32)
  | notifying
  | signalling (parent : TaskId)
  | gone
deriving DecidableEq

structure Family where
  parent : TaskId → Option TaskId
  children : TaskId → List TaskId
  mem_children : ∀ p c, c ∈ children p ↔ parent c = some p

structure Taken where
  caller : TaskId
  pid : TaskId
  code : Int32

structure Reaper where
  registry : TaskId → Option Proc
  childrenIndex : TaskId → List TaskId
  exitStatus : TaskId → Option Int32
  phase : TaskId → Phase
  exited : TaskId → Option Int32
  taken : List Taken

inductive WaitEvent where
  | doWaitpid (caller : TaskId) (child : Option TaskId) (options : WaitOptions)
  | notifyExit (tid : TaskId) (code : Int32)
  | run (tid : TaskId)
  | wake (tid : TaskId)

namespace Reaper

def start (fam : Family) : Reaper where
  registry c := (fam.parent c).map (⟨·, .running, none⟩)
  childrenIndex := fam.children
  exitStatus _ := none
  phase _ := .idle
  exited _ := none
  taken := []

variable (w : Reaper)

def setPhase (tid : TaskId) (p : Phase) : Reaper :=
  { w with phase := update w.phase tid p }

def findZombie (target : TaskId) (children : List TaskId) : Option TaskId :=
  children.find? fun c => (target = 0 ∨ c = target) ∧ (w.registry c).any Proc.isZombie

/-- The section of the loop of `do_waitpid`. -/
def check (tid target : TaskId) (options : WaitOptions) (children : List TaskId) :
    Reaper :=
  match w.findZombie target children with
  | some pid =>
    let code := (w.exitStatus pid).getD 0
    { w with
      exitStatus := update w.exitStatus pid none
      taken := w.taken ++ [Taken.mk tid pid code] }.setPhase tid (.unlisting pid code)
  | none =>
    if options.isWnohang then w.setPhase tid (.answered (.error .noChildProcess))
    else w.setPhase tid (.waiting target options children)

def wakeUp (tid : TaskId) : Reaper :=
  match w.phase tid with
  | .waiting target options children => w.setPhase tid (.checking target options children)
  | _ => w

def run (tid : TaskId) : Reaper :=
  match w.phase tid with
  | .checking target options children => w.check tid target options children
  | .unlisting pid code =>
    { w with
      childrenIndex := update w.childrenIndex tid
        ((w.childrenIndex tid).filter (· ≠ pid)) }.setPhase tid (.reaping pid code)
  | .reaping pid code =>
    { w with registry := update w.registry pid none }.setPhase tid
      (.answered (.ok (pid, code)))
  | .terminating code =>
    { w with
      registry := update w.registry tid
        ((w.registry tid).map (Proc.terminate · code)) }.setPhase tid (.recording code)
  | .recording code =>
    { w with exitStatus := update w.exitStatus tid (some code) }.setPhase tid .notifying
  | .notifying =>
    match w.registry tid with
    | none => w.setPhase tid .gone
    | some p => w.setPhase tid (.signalling p.parent)
  | .signalling parent => (w.setPhase tid .gone).wakeUp parent
  | _ => w

def free (tid : TaskId) : Bool :=
  match w.phase tid with
  | .idle => true
  | .answered _ => true
  | _ => false

def step : WaitEvent → Reaper
  | .doWaitpid caller child options =>
    if w.free caller then
      let children := w.childrenIndex caller
      if children = [] then w.setPhase caller (.answered (.error .noChildProcess))
      else w.setPhase caller (.checking (child.getD 0) options children)
    else w
  | .notifyExit tid code =>
    if w.free tid then
      { w with exited := update w.exited tid (some code) }.setPhase tid
        (.terminating code)
    else w
  | .run tid => w.run tid
  | .wake tid => w.wakeUp tid

/-! ## What the steps should do -/

def Careful (w : Reaper) : WaitEvent → Prop
  | .run tid =>
    match w.phase tid with
    | .checking target options children =>
      match w.findZombie target children with
      | some pid => w.exitStatus pid = none → w.exited pid = some 0
      | none => target ≠ 0 → target ∉ w.childrenIndex tid → options.isWnohang = true
    | _ => True
  | _ => True

/-! ## What every step keeps -/

end Reaper

def Phase.snapshot : Phase → Option (List TaskId)
  | .checking _ _ children => some children
  | .waiting _ _ children => some children
  | _ => none

def Phase.took : Phase → Option (TaskId × Int32)
  | .unlisting pid code => some (pid, code)
  | .reaping pid code => some (pid, code)
  | .answered (.ok r) => some r
  | _ => none

def Phase.ending : Phase → Option Int32
  | .terminating code => some code
  | .recording code => some code
  | _ => none

/-- The task has not called `notify_exit`. -/
def Phase.alive : Phase → Bool
  | .terminating _ | .recording _ | .notifying | .signalling _ | .gone => false
  | _ => true

namespace Reaper

structure PhaseOk (w : Reaper) (tid : TaskId) (p : Phase) : Prop where
  snapshot : ∀ children, p.snapshot = some children → children = w.childrenIndex tid
  took : ∀ r, p.took = some r → ⟨tid, r.1, r.2⟩ ∈ w.taken
  unlisted : ∀ r ∈ w.taken, r.caller = tid →
    r.pid ∉ w.childrenIndex tid ∨ p = .unlisting r.pid r.code
  ending : ∀ code, p.ending = some code → w.exited tid = some code
  alive : p.alive = true → w.exited tid = none

structure Books (fam : Family) (w : Reaper) : Prop where
  kids : ∀ p, ∀ c ∈ w.childrenIndex p, fam.parent c = some p
  parents : ∀ r ∈ w.taken, fam.parent r.pid = some r.caller
  status : ∀ c d, w.exitStatus c = some d → w.exited c = some d
  phases : ∀ tid, w.PhaseOk tid (w.phase tid)

variable {fam : Family} {w : Reaper} {tid target pid : TaskId} {p : Phase} {options : WaitOptions}
  {children : List TaskId} {code : Int32} {e : WaitEvent}

theorem books_start (fam : Family) : (start fam).Books fam where
  kids p c hc := (fam.mem_children p c).mp hc
  parents r hr := by cases hr
  status c d h := by cases h
  phases tid := ⟨nofun, nofun, nofun, nofun, fun _ => rfl⟩

theorem Books.setPhase (h : w.Books fam) (hp : w.PhaseOk tid p) : (w.setPhase tid p).Books fam := by
  refine ⟨h.kids, h.parents, h.status, fun tid' => ?_⟩
  have hok : w.PhaseOk tid' ((w.setPhase tid p).phase tid') :=
    (forall_update_iff w.phase w.PhaseOk).mpr ⟨hp, fun tid' _ => h.phases tid'⟩ tid'
  exact ⟨hok.snapshot, hok.took, hok.unlisted, hok.ending, hok.alive⟩

theorem Books.plain (h : w.Books fam) (hold : ∀ pid code, w.phase tid ≠ .unlisting pid code)
    (hsnapshot : ∀ children, p.snapshot = some children → children = w.childrenIndex tid)
    (htook : p.took = none) (hending : ∀ code, p.ending = some code → w.exited tid = some code)
    (halive : p.alive = true → (w.phase tid).alive = true) : (w.setPhase tid p).Books fam := by
  refine h.setPhase ⟨hsnapshot, ?_, ?_, hending, fun hp => (h.phases tid).alive (halive hp)⟩
  · intro r hr
    cases htook.symm.trans hr
  · intro r hr hcaller
    exact .inl (((h.phases tid).unlisted r hr hcaller).resolve_right (hold _ _))

theorem findZombie_eq_some (h : w.findZombie target children = some pid) :
    pid ∈ children ∧ (target = 0 ∨ pid = target) ∧ (w.registry pid).any Proc.isZombie := by
  refine ⟨mem_of_find?_eq_some h, ?_⟩
  simpa using find?_some h

section

variable (h : w.Books fam)
include h

theorem Books.check (hphase : w.phase tid = .checking target options children) :
    (w.check tid target options children).Books fam := by
  have hold : ∀ pid code, w.phase tid ≠ .unlisting pid code := by simp [hphase]
  have hsnap : children = w.childrenIndex tid :=
    (h.phases tid).snapshot children (by rw [hphase]; rfl)
  rw [Reaper.check]
  split
  · rename_i pid hfind
    have hkid : fam.parent pid = some tid := h.kids tid pid (hsnap ▸ (findZombie_eq_some hfind).1)
    dsimp only
    refine ⟨h.kids, ?_, ?_, fun tid' => ?_⟩
    · intro r hr
      rcases mem_append.mp hr with hr | hr
      · exact h.parents r hr
      · rw [mem_singleton.mp hr]
        exact hkid
    · intro c d hd
      by_cases hc : c = pid
      · subst hc
        cases (update_self ..).symm.trans hd
      · exact h.status c d ((update_of_ne hc ..).symm.trans hd)
    simp only [Reaper.setPhase]
    by_cases htid : tid' = tid
    · subst htid
      rw [update_self]
      refine ⟨nofun, ?_, ?_, nofun, fun _ => (h.phases tid').alive (by rw [hphase]; rfl)⟩
      · intro r hr
        cases hr
        exact mem_append_right _ (mem_singleton_self _)
      · intro r hr hcaller
        rcases mem_append.mp hr with hr | hr
        · exact .inl (((h.phases tid').unlisted r hr hcaller).resolve_right (hold _ _))
        · rw [mem_singleton.mp hr]
          exact .inr rfl
    · rw [update_of_ne htid]
      have hok := h.phases tid'
      refine ⟨hok.snapshot, fun r hr => mem_append_left _ (hok.took r hr), ?_, hok.ending,
        hok.alive⟩
      intro r hr hcaller
      rcases mem_append.mp hr with hr | hr
      · exact hok.unlisted r hr hcaller
      · rw [mem_singleton.mp hr] at hcaller
        exact absurd hcaller.symm htid
  · split
    · exact h.plain hold nofun rfl nofun fun _ => by rw [hphase]; rfl
    · refine h.plain hold ?_ rfl nofun fun _ => by rw [hphase]; rfl
      rintro _ ⟨⟩
      exact hsnap

theorem Books.wakeUp (tid : TaskId) : (w.wakeUp tid).Books fam := by
  rw [Reaper.wakeUp]
  split
  · rename_i target options children hphase
    refine h.plain (by simp [hphase]) ?_ rfl nofun fun _ => by rw [hphase]; rfl
    rintro _ ⟨⟩
    exact (h.phases tid).snapshot children (by rw [hphase]; rfl)
  · exact h

theorem Books.unlist (hphase : w.phase tid = .unlisting pid code) : Books fam ({ w with
      childrenIndex := update w.childrenIndex tid
        ((w.childrenIndex tid).filter (· ≠ pid)) }.setPhase tid (.reaping pid code)) := by
  have hkeep : ∀ q, ∀ c ∈ update w.childrenIndex tid
      ((w.childrenIndex tid).filter (· ≠ pid)) q, c ∈ w.childrenIndex q := by
    intro q c hc
    by_cases hq : q = tid
    · subst hq
      rw [update_self] at hc
      exact (mem_filter.mp hc).1
    · rwa [update_of_ne hq] at hc
  refine ⟨fun q c hc => h.kids q c (hkeep q c hc), h.parents, h.status, fun tid' => ?_⟩
  have hok := h.phases tid'
  simp only [Reaper.setPhase]
  by_cases htid : tid' = tid
  · subst htid
    rw [hphase] at hok
    rw [update_self]
    refine ⟨nofun, fun r hr => hok.took r hr, fun r hr hcaller => ?_, nofun, hok.alive⟩
    refine .inl ?_
    dsimp only
    rw [update_self, mem_filter]
    rintro ⟨hmem, hne⟩
    rcases hok.unlisted r hr hcaller with hgone | heq
    · exact hgone hmem
    · exact absurd (Phase.unlisting.inj heq).1.symm (by simpa using hne)
  · rw [update_of_ne htid]
    refine ⟨fun cs hcs => ?_, hok.took, fun r hr hcaller => ?_, hok.ending, hok.alive⟩
    · simp only [update_of_ne htid]
      exact hok.snapshot cs hcs
    · simp only [update_of_ne htid]
      exact hok.unlisted r hr hcaller

theorem Books.setRegistry (registry : TaskId → Option Proc) : Books fam { w with registry } := by
  refine ⟨h.kids, h.parents, h.status, fun tid => ?_⟩
  have hok := h.phases tid
  exact ⟨hok.snapshot, hok.took, hok.unlisted, hok.ending, hok.alive⟩

theorem Books.setStatus (hcode : w.exited tid = some code) :
    Books fam { w with exitStatus := update w.exitStatus tid (some code) } := by
  refine ⟨h.kids, h.parents, fun c d hd => ?_, fun tid' => ?_⟩
  · by_cases hc : c = tid
    · subst hc
      cases (update_self ..).symm.trans hd
      exact hcode
    · exact h.status c d ((update_of_ne hc ..).symm.trans hd)
  · have hok := h.phases tid'
    exact ⟨hok.snapshot, hok.took, hok.unlisted, hok.ending, hok.alive⟩

theorem Books.answer (hphase : w.phase tid = .reaping pid code) :
    (w.setPhase tid (.answered (.ok (pid, code)))).Books fam := by
  have hok := h.phases tid
  rw [hphase] at hok
  refine h.setPhase ⟨nofun, fun r hr => hok.took r hr, fun r hr hcaller => ?_, nofun, hok.alive⟩
  exact .inl ((hok.unlisted r hr hcaller).resolve_right nofun)

theorem Books.run (tid : TaskId) : (w.run tid).Books fam := by
  have hending : ∀ code, (w.phase tid).ending = some code → w.exited tid = some code :=
    (h.phases tid).ending
  cases hphase : w.phase tid with
  | checking =>
    rw [Reaper.run, hphase]
    exact h.check hphase
  | unlisting =>
    rw [Reaper.run, hphase]
    exact h.unlist hphase
  | reaping =>
    rw [Reaper.run, hphase]
    exact (h.setRegistry _).answer hphase
  | terminating =>
    rw [hphase] at hending
    rw [Reaper.run, hphase]
    exact (h.setRegistry _).plain (by simp [hphase]) nofun rfl hending nofun
  | recording code =>
    rw [hphase] at hending
    rw [Reaper.run, hphase]
    exact (h.setStatus (hending code rfl)).plain (by simp [hphase]) nofun rfl nofun nofun
  | notifying =>
    rw [Reaper.run, hphase]
    dsimp only
    split
    · exact h.plain (by simp [hphase]) nofun rfl nofun nofun
    · exact h.plain (by simp [hphase]) nofun rfl nofun nofun
  | signalling parent =>
    rw [Reaper.run, hphase]
    have hgone : (w.setPhase tid .gone).Books fam :=
      h.plain (by simp [hphase]) nofun rfl nofun nofun
    exact hgone.wakeUp parent
  | _ =>
    rw [Reaper.run, hphase]
    exact h

end

theorem free_cases (h : w.free tid) :
    (w.phase tid).alive = true ∧ ∀ pid code, w.phase tid ≠ .unlisting pid code := by
  rw [free] at h
  split at h
  · rename_i hphase
    rw [hphase]
    exact ⟨rfl, nofun⟩
  · rename_i hphase
    rw [hphase]
    exact ⟨rfl, nofun⟩
  · cases h

theorem Books.step (h : w.Books fam) (e : WaitEvent) : (w.step e).Books fam := by
  cases e with
  | doWaitpid =>
    rw [Reaper.step]
    split
    · rename_i hfree
      obtain ⟨halive, hold⟩ := free_cases hfree
      dsimp only
      split
      · exact h.plain hold nofun rfl nofun fun _ => halive
      · refine h.plain hold ?_ rfl nofun fun _ => halive
        rintro _ ⟨⟩
        rfl
    · exact h
  | notifyExit tid =>
    rw [Reaper.step]
    split
    · rename_i hfree
      obtain ⟨halive, hold⟩ := free_cases hfree
      have hnone := (h.phases tid).alive halive
      refine ⟨h.kids, h.parents, fun c d hd => ?_, fun tid' => ?_⟩
      · have hne : c ≠ tid := by
          rintro rfl
          cases hnone.symm.trans (h.status c d hd)
        exact (update_of_ne hne ..).trans (h.status c d hd)
      have hok := h.phases tid'
      simp only [Reaper.setPhase]
      by_cases htid : tid' = tid
      · subst htid
        rw [update_self]
        refine ⟨nofun, nofun, fun r hr hcaller => .inl ?_, ?_, nofun⟩
        · exact (hok.unlisted r hr hcaller).resolve_right (hold _ _)
        · rintro _ ⟨⟩
          exact update_self ..
      · rw [update_of_ne htid]
        exact ⟨hok.snapshot, hok.took, hok.unlisted,
          fun c hc => (update_of_ne htid ..).trans (hok.ending c hc),
          fun ha => (update_of_ne htid ..).trans (hok.alive ha)⟩
    · exact h
  | run tid => exact h.run tid
  | wake tid => exact h.wakeUp tid

/-! ## When the steps are right -/

end Reaper

end IonaOs.Process.Waitpid
