import IonaOs.Evm.World

/-!
# A run does what its trace says
-/

namespace IonaOs.Evm

open Lib

def Event.Creates : Event → Prop
  | .created .. => True
  | _ => False

instance : DecidablePred Event.Creates
  | .created .. => inferInstanceAs (Decidable True)
  | .paid .. | .destroyed .. | .stored .. => inferInstanceAs (Decidable False)

/-! ## Databases -/

structure SameBase (s s' : EvmStateDb) : Prop where
  accounts : s'.accounts = s.accounts
  db : s'.db = s.db
  snapshots : s'.snapshots = s.snapshots
  static : s'.staticCall = s.staticCall

namespace SameBase

variable {s s' s'' : EvmStateDb}

theorem refl (s : EvmStateDb) : SameBase s s := ⟨rfl, rfl, rfl, rfl⟩

theorem trans (h : SameBase s s') (h' : SameBase s' s'') : SameBase s s'' where
  accounts := h'.accounts.trans h.accounts
  db := h'.db.trans h.db
  snapshots := h'.snapshots.trans h.snapshots
  static := h'.static.trans h.static

theorem setAccount (s : EvmStateDb) (addr : Address) (acc : Account) :
    SameBase s (s.setAccount addr acc) := by
  constructor <;> simp

end SameBase

namespace EvmStateDb

variable {s s' : EvmStateDb} {a b : Address} {v : U128}

theorem transfer_spec (h : s.transfer a b v = .ok s') :
    v ≤ (s.getAccount a).balance ∧ SameBase s s' ∧ (s.staticCall = true → s' = s) ∧
      (s.staticCall = false → s'.getAccount = World.pay s.getAccount a b v) := by
  unfold transfer at h
  by_cases hv : v = 0
  · simp only [hv, if_true, Except.ok.injEq] at h
    subst h hv
    exact ⟨by simp [BitVec.le_def], .refl s, fun _ => rfl, fun _ => World.pay_zero.symm⟩
  simp only [hv, if_false] at h
  by_cases hlow : (s.getAccount a).balance < v
  · simp [hlow] at h
  simp only [hlow, if_false, Except.ok.injEq] at h
  subst h
  refine ⟨BitVec.not_lt.mp hlow, (SameBase.setAccount ..).trans (.setAccount ..), ?_, ?_⟩
  · intro hs
    simp [setAccount_of_static, hs]
  · intro hs
    rw [getAccount_setAccount _ (by simpa using hs), getAccount_setAccount _ hs]
    rfl

end EvmStateDb

/-- The events `es` lead from the database `s` to the database `s'`. -/
structure Recorded (s : EvmStateDb) (es : List Event) (s' : EvmStateDb) : Prop where
  static : s'.staticCall = s.staticCall
  frozen : s.staticCall = true → s'.getAccount = s.getAccount
  enabled : s.staticCall = false → Along World.apply World.Enabled s.getAccount es
  accounts : s.staticCall = false → s'.getAccount = exec World.apply s.getAccount es
  base : (∀ e ∈ es, ¬ e.Creates) → SameBase s s'
  cleared : (∃ e ∈ es, e.Creates) → s'.snapshots = []

namespace Recorded

variable {s s' s'' : EvmStateDb} {es fs : List Event} {a b : Address} {v : U128}

theorem nil (s : EvmStateDb) : Recorded s [] s where
  static := rfl
  frozen _ := rfl
  enabled _ := trivial
  accounts _ := rfl
  base _ := .refl s
  cleared := by simp

theorem append (h : Recorded s es s') (h' : Recorded s' fs s'') : Recorded s (es ++ fs) s'' where
  static := h'.static.trans h.static
  frozen hs := (h'.frozen (h.static.trans hs)).trans (h.frozen hs)
  enabled hs := by
    have hfs := h'.enabled (h.static.trans hs)
    rw [h.accounts hs] at hfs
    exact along_append.mpr ⟨h.enabled hs, hfs⟩
  accounts hs := by rw [h'.accounts (h.static.trans hs), h.accounts hs, exec_append]
  base hes :=
    (h.base fun e he => hes e (by simp [he])).trans (h'.base fun e he => hes e (by simp [he]))
  cleared hes := by
    by_cases hfs : ∃ e ∈ fs, e.Creates
    · exact h'.cleared hfs
    -- The creation is among the first events, and the later ones leave the snapshots alone.
    have hes' : ∃ e ∈ es, e.Creates := by
      obtain ⟨e, hmem, he⟩ := hes
      rcases List.mem_append.mp hmem with hmem | hmem
      · exact ⟨e, hmem, he⟩
      · exact absurd ⟨e, hmem, he⟩ hfs
    have hbase := h'.base fun e he hc => hfs ⟨e, he, hc⟩
    rw [hbase.snapshots, h.cleared hes']

section

variable (h : s.transfer a b v = .ok s')
include h

theorem paid : Recorded s [.paid a b v] s' := by
  obtain ⟨hv, hbase, hstatic, hacc⟩ := EvmStateDb.transfer_spec h
  refine ⟨hbase.static, ?_, ?_, ?_, fun _ => hbase, by simp [Event.Creates]⟩
  · intro hs
    rw [hstatic hs]
  · intro _
    exact ⟨hv, trivial⟩
  · intro hs
    simp [hacc hs, World.apply]

theorem transfer_setAccount (c : Address) (acc : Account) :
    SameBase s (s'.setAccount c acc) ∧ (s.staticCall = true → s'.setAccount c acc = s) ∧
      (s.staticCall = false →
        (s'.setAccount c acc).getAccount =
          Function.update (World.pay s.getAccount a b v) c acc) := by
  obtain ⟨-, hbase, hstatic, hacc⟩ := EvmStateDb.transfer_spec h
  refine ⟨hbase.trans (.setAccount ..), ?_, ?_⟩
  · intro hs
    rw [hstatic hs, s.setAccount_of_static hs]
  · intro hs
    rw [s'.getAccount_setAccount (hbase.static.trans hs), hacc hs]

theorem created (code : List UInt8) :
    Recorded s [.created a b v code] (s'.setAccount b { balance := v, code }).commit := by
  obtain ⟨hbase, hstatic, hacc⟩ := transfer_setAccount h b { balance := v, code }
  refine ⟨hbase.static, ?_, ?_, ?_, by simp [Event.Creates], fun _ => rfl⟩
  · intro hs
    rw [EvmStateDb.getAccount_commit, hstatic hs]
  · intro _
    exact ⟨(EvmStateDb.transfer_spec h).1, trivial⟩
  · intro hs
    rw [EvmStateDb.getAccount_commit, hacc hs]
    rfl

end

theorem destroyed (h : s.transfer a b (s.balance a) = .ok s') :
    Recorded s [.destroyed a b] (s'.setAccount a {}) := by
  obtain ⟨hbase, hstatic, hacc⟩ := transfer_setAccount h a {}
  refine ⟨hbase.static, ?_, fun _ => ⟨trivial, trivial⟩, ?_, fun _ => hbase,
    by simp [Event.Creates]⟩
  · intro hs
    rw [hstatic hs]
  · intro hs
    rw [hacc hs]
    rfl

theorem stored (s : EvmStateDb) (a : Address) (slot v : U256) :
    Recorded s [.stored a slot v] (s.setStorage a slot v) := by
  have hset : s.setStorage a slot v = s.setAccount a ((s.getAccount a).store slot v) := by
    simp only [EvmStateDb.setStorage, EvmStateDb.setAccount]
    split <;> rfl
  rw [hset]
  refine ⟨by simp, ?_, fun _ => ⟨trivial, trivial⟩, ?_, fun _ => .setAccount ..,
    by simp [Event.Creates]⟩
  · intro hs
    rw [s.setAccount_of_static hs]
  · intro hs
    rw [s.getAccount_setAccount hs]
    rfl

end Recorded

/-! ## Steps and runs -/

def Outcome.final : Outcome → Option Vm
  | .panicked => none
  | .finished vm _ => some vm

@[simp] theorem Outcome.final_panicked : Outcome.panicked.final = none := rfl

@[simp] theorem Outcome.final_finished (vm : Vm) (r : Except EvmError Unit) :
    (Outcome.finished vm r).final = some vm := rfl

namespace Vm

variable {vm vm' vm'' : Vm}

structure Follows (vm vm' : Vm) : Prop where
  frame : vm'.frame = vm.frame
  trace : ∃ es, vm'.trace = vm.trace ++ es ∧ Recorded vm.state es vm'.state

def LeadsOn (vm : Vm) (s : Step Vm Outcome) : Prop :=
  s.Leads (fun _ _ => True) vm.Follows fun o => ∀ vm' ∈ o.final, vm.Follows vm'

namespace Follows

theorem trans (h : vm.Follows vm') (h' : vm'.Follows vm'') : vm.Follows vm'' := by
  obtain ⟨es, htrace, hrec⟩ := h.trace
  obtain ⟨fs, htrace', hrec'⟩ := h'.trace
  refine ⟨h'.frame.trans h.frame, es ++ fs, ?_, hrec.append hrec'⟩
  rw [htrace', htrace, List.append_assoc]

theorem machine (vm : Vm) (m : Machine) : vm.Follows { vm with machine := m } :=
  ⟨rfl, [], by simp, .nil _⟩

theorem afterDeploy {state : EvmStateDb} {v : U128} {a : Address}
    (h : vm.state.transfer vm.frame.caller a v = .ok state) (sub : Machine) (ok : Bool) :
    vm.Follows (vm.afterDeploy state v a sub ok) := by
  unfold Vm.afterDeploy
  by_cases hok : ok = true ∧ sub.output ≠ []
  · simp only [if_pos hok]
    exact ⟨rfl, _, rfl, .created h _⟩
  · simp only [if_neg hok]
    exact ⟨rfl, _, rfl, .paid h⟩

theorem afterCall {off len : UInt64} {sub : Machine} {ok : Bool}
    (h : vm.afterCall off len sub ok = some vm') : vm.Follows vm' := by
  unfold Vm.afterCall at h
  cases ok with
  | false =>
    simp only [Bool.false_eq_true, if_false, pure, Option.some.injEq] at h
    subst h
    exact machine vm _
  | true =>
    simp only [if_true] at h
    obtain ⟨m, -, hm⟩ := Option.bind_eq_some_iff.mp h
    simp only [pure, Option.some.injEq] at hm
    subst hm
    exact machine vm _

end Follows

namespace LeadsOn

variable {s : Step Vm Outcome}

theorem of_follows (h : vm.Follows vm') (hs : LeadsOn vm' s) : LeadsOn vm s :=
  hs.mono (fun _ _ => id) (fun _ => h.trans) fun _ ho vm'' hvm => h.trans (ho vm'' hvm)

theorem orPanic {α : Type} (x : Option α) {next : α → Step Vm Outcome}
    (h : ∀ a, LeadsOn vm (next a)) : LeadsOn vm (orPanic x next) := by
  cases x with
  | none => simp [Vm.orPanic, LeadsOn, Step.Leads]
  | some a => exact h a

theorem next {vm'' : Vm} (h : vm.Follows vm'') : LeadsOn vm (.next vm'') := h

theorem panic : LeadsOn vm (.halt .panicked) := by simp [LeadsOn, Step.Leads]

theorem finished (h : vm.Follows vm') (r : Except EvmError Unit) :
    LeadsOn vm (.halt (.finished vm' r)) := by
  intro vm'' ho
  simp only [Outcome.final_finished, Option.mem_some_iff] at ho
  exact ho ▸ h

variable (vm : Vm)

theorem fail (m : Machine) (e : EvmError) :
    LeadsOn vm (Vm.fail { vm with machine := m } e) :=
  finished (.machine vm m) _

theorem deploy (v : U128) (code : List UInt8) (a : Address) :
    LeadsOn vm (vm.deploy v code a) := by
  unfold Vm.deploy
  cases h : vm.state.transfer vm.frame.caller a v with
  | error e => exact fail vm vm.machine e
  | ok =>
    intro o _
    cases o with
    | panicked => simp
    | finished =>
      simp only [reduceCtorEq, false_implies, implies_true, Sum.inr.injEq, true_and]
      intro vm' hvm'
      subst hvm'
      refine (Follows.machine vm (vm.machine.lend vm.subGasLimit)).trans ?_
      exact .afterDeploy (by exact h) _ _

theorem enterCall (gas : UInt64) (code : List UInt8) (a : Address) (v : U128)
    (calldata : List UInt8) (off len : UInt64) :
    LeadsOn vm (vm.enterCall gas code a v calldata off len) := by
  intro o _
  cases o with
  | panicked => simp
  | finished sub result =>
    have hlend := Follows.machine vm (vm.machine.lend (min gas vm.subGasLimit))
    cases h : Vm.afterCall { vm with machine := vm.machine.lend (min gas vm.subGasLimit) } off len
        sub.machine result.isOk with
    | none => simp [h]
    | some vm₁ =>
      simp only [h, reduceCtorEq, false_implies, implies_true, Sum.inr.injEq, true_and]
      intro vm' hvm'
      subst hvm'
      exact hlend.trans (.afterCall h)

theorem payAndCall (a : Address) : LeadsOn vm (vm.payAndCall a) := by
  unfold Vm.payAndCall
  simp only
  split
  · exact fail vm _ _
  refine orPanic _ ?_
  intro x
  cases h : vm.state.transfer vm.frame.caller a (U256.toU128 (vm.machine.arg 2)) with
  | error =>
    simp only [pay, h]
    exact fail vm _ _
  | ok =>
    simp only [pay, h]
    refine of_follows (Follows.trans (.machine vm x.2) ?_) (enterCall _ _ _ _ _ _ _ _)
    exact ⟨rfl, _, rfl, .paid h⟩

theorem createWith (pops : ℕ) (address : List UInt8 → Address) :
    LeadsOn vm (vm.createWith pops address) := by
  unfold Vm.createWith
  simp only
  split
  · exact fail vm vm.machine _
  split
  · exact next (.machine vm _)
  refine orPanic _ ?_
  intro x
  exact of_follows (.machine vm x.2) (deploy _ _ _ _)

theorem exec (i : Instr) : LeadsOn vm (vm.exec i) := by
  cases i with
  | machine i =>
    simp only [Vm.exec]
    cases i.exec vm.frame vm.state vm.machine with
    | panic => exact panic
    | error m e => exact fail vm m e
    | next m => exact next (.machine vm m)
  | sstore =>
    simp only [Vm.exec]
    split
    · exact fail vm _ _
    · exact next ⟨rfl, _, rfl, .stored ..⟩
  | create | create2 =>
    simp only [Vm.exec]
    exact createWith vm _ _
  | call | callcode => exact payAndCall vm _
  | delegatecall =>
    refine orPanic _ ?_
    intro x
    exact of_follows (.machine vm x.2) (enterCall _ _ _ _ _ _ _ _)
  | selfdestruct =>
    simp only [Vm.exec]
    split
    · exact fail vm vm.machine _
    cases h : vm.state.transfer vm.frame.address (U256.toAddress (vm.machine.arg 0))
        (vm.state.balance vm.frame.address) with
    | error e => exact fail vm _ _
    | ok state => exact next ⟨rfl, _, rfl, .destroyed h⟩

theorem step : LeadsOn vm vm.step := by
  unfold Vm.step
  simp only
  split
  · exact finished (.machine vm vm.machine) _
  cases vm.frame.code[vm.machine.pc]? with
  | none => exact finished (.machine vm vm.machine) _
  | some => exact of_follows (.machine vm _) (exec _ _)

end LeadsOn

end Vm

theorem run_follows {n : ℕ} {vm vm' : Vm} {r : Except EvmError Unit}
    (h : run n vm = some (.finished vm' r)) : vm.Follows vm' := by
  refine interp_keeps (T := Vm.Follows) Outcome.final (fun _ _ _ => .trans) ?_ h vm' (by simp)
  exact fun vm => (Vm.LeadsOn.step vm).mono (fun _ _ _ => trivial) (fun _ => id) fun _ => id

end IonaOs.Evm
