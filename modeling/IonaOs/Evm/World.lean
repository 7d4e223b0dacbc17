import IonaOs.Evm.Vm
import IonaOs.Lib.MapSum
import IonaOs.Lib.Run

/-!
# What the interpreter does to the accounts
-/

namespace IonaOs.Evm

open Lib Function

abbrev World := Address → Account

/-- There are finitely many addresses.  Nothing outside this namespace should enumerate them. -/
noncomputable scoped instance : Fintype Address :=
  Fintype.ofInjective (fun a : Address => a.get) fun a b h => by
    ext i hi
    exact congrArg UInt8.toNat (congrFun h ⟨i, hi⟩)

namespace World

variable (w : World)

/-- A value goes from one account to another, as `transfer` moves it. -/
def pay (sender receiver : Address) (value : U128) : World :=
  let w' := update w sender ((w sender).withBalance ((w sender).balance - value))
  update w' receiver ((w' receiver).withBalance ((w' receiver).balance + value))

def apply : Event → World
  | .paid sender receiver value => w.pay sender receiver value
  | .created sender address value code =>
    update (w.pay sender address value) address { balance := value, code }
  | .destroyed address beneficiary =>
    update (w.pay address beneficiary (w address).balance) address {}
  | .stored address slot value => update w address ((w address).store slot value)

def Enabled : Event → Prop
  | .paid sender _ value | .created sender _ value _ => value ≤ (w sender).balance
  | _ => True

def Harmless : Event → Prop
  | .paid sender receiver value =>
    sender = receiver ∨ (w receiver).balance.toNat + value.toNat < 2 ^ 128
  | .created sender address value _ =>
    if sender = address then (w sender).balance = value else (w address).balance = 0
  | .destroyed address beneficiary =>
    address = beneficiary ∨
      (w beneficiary).balance.toNat + (w address).balance.toNat < 2 ^ 128
  | .stored .. => True

def burned : Event → ℕ
  | .destroyed address beneficiary =>
    if address = beneficiary then (w address).balance.toNat else 0
  | _ => 0

def burnedBy : World → List Event → ℕ
  | _, [] => 0
  | w, e :: es => w.burned e + burnedBy (w.apply e) es

noncomputable def total : ℕ := holdings (fun acc : Account => acc.balance.toNat) w

/-! ### Payments -/

variable {w} {a b : Address} {v : U128}

theorem total_update (acc : Account) :
    total (update w a acc) + (w a).balance.toNat = w.total + acc.balance.toNat :=
  holdings_update _ w a acc

@[simp] theorem pay_self : w.pay a a v = w := by
  have hback : (w a).balance - v + v = (w a).balance := BitVec.sub_add_cancel _ _
  simp [pay, hback]

@[simp] theorem pay_zero : w.pay a b 0 = w := by
  simp [pay]

theorem toNat_add_or (x y : U128) :
    (x + y).toNat = x.toNat + y.toNat ∧ x.toNat + y.toNat < 2 ^ 128 ∨
      (x + y).toNat + 2 ^ 128 = x.toNat + y.toNat ∧ ¬ x.toNat + y.toNat < 2 ^ 128 := by
  rw [BitVec.toNat_add]
  have hx := x.isLt
  have hy := y.isLt
  omega

theorem total_pay (hab : a ≠ b) (hv : v ≤ (w a).balance) :
    ∃ lost, total (w.pay a b v) + lost = w.total ∧
      (lost = 0 ↔ (w b).balance.toNat + v.toNat < 2 ^ 128) := by
  have hdebit := total_update (w := w) (a := a) ((w a).withBalance ((w a).balance - v))
  have hcredit := total_update (a := b) (w := update w a ((w a).withBalance ((w a).balance - v)))
    ((w b).withBalance ((w b).balance + v))
  rw [update_of_ne hab.symm, Account.withBalance_balance] at hcredit
  rw [Account.withBalance_balance, BitVec.toNat_sub_of_le hv] at hdebit
  have hle : v.toNat ≤ (w a).balance.toNat := hv
  simp only [pay, update_of_ne hab.symm]
  obtain ⟨hsum, hlt⟩ | ⟨hsum, hlt⟩ := toNat_add_or (w b).balance v
  · exact ⟨0, by omega, by omega⟩
  · exact ⟨2 ^ 128, by omega, by omega⟩

/-! ### Events and runs -/

theorem total_created {s a : Address} {v : U128} {code : List UInt8} (hsa : s ≠ a)
    (h : v ≤ (w s).balance) :
    total (w.apply (.created s a v code)) + (w a).balance.toNat = w.total := by
  have hdebit := total_update (w := w) (a := s) ((w s).withBalance ((w s).balance - v))
  have hplace : total (update (update w s
      ((w s).withBalance ((w s).balance - v))) a { balance := v, code }) +
      (update w s ((w s).withBalance ((w s).balance - v)) a).balance.toNat =
      total (update w s ((w s).withBalance ((w s).balance - v))) + v.toNat :=
    total_update _
  rw [update_of_ne (Ne.symm hsa)] at hplace
  rw [Account.withBalance_balance, BitVec.toNat_sub_of_le h] at hdebit
  have hle : v.toNat ≤ (w s).balance.toNat := h
  simp only [apply, pay, update_idem]
  omega

theorem total_apply {e : Event} (h : w.Enabled e) :
    ∃ lost, total (w.apply e) + lost + w.burned e = w.total ∧ (lost = 0 ↔ w.Harmless e) := by
  cases e with
  | paid s r =>
    by_cases hsr : s = r
    · exact ⟨0, by simp [apply, burned, hsr], by simp [Harmless, hsr]⟩
    · obtain ⟨lost, hsum, hzero⟩ := total_pay hsr h
      exact ⟨lost, by simpa [apply, burned] using hsum, by simpa [Harmless, hsr] using hzero⟩
  | created s a v code =>
    by_cases hsa : s = a
    · subst hsa
      have hsum : total (w.apply (.created s s v code)) + (w s).balance.toNat =
          w.total + v.toNat := by
        rw [apply, pay_self]
        exact total_update _
      have hle : v.toNat ≤ (w s).balance.toNat := h
      refine ⟨(w s).balance.toNat - v.toNat, ?_, ?_⟩
      · simp only [burned]
        omega
      · simp only [Harmless, if_true, ← BitVec.toNat_inj]
        omega
    · refine ⟨(w a).balance.toNat, ?_, ?_⟩
      · simpa only [burned, Nat.add_zero] using total_created hsa h
      · simp [Harmless, hsa, ← BitVec.toNat_inj]
  | destroyed a b =>
    by_cases hab : a = b
    · subst hab
      have hclear := total_update (w := w) (a := a) {}
      refine ⟨0, ?_, by simp [Harmless]⟩
      simp only [apply, pay_self, burned, if_true]
      simpa using hclear
    obtain ⟨lost, hsum, hzero⟩ := total_pay (v := (w a).balance) hab (BitVec.le_refl _)
    have hempty : (w.pay a b (w a).balance a).balance = 0 := by
      simp [pay, update_of_ne hab]
    have hclear : total (update (w.pay a b (w a).balance) a {}) =
        total (w.pay a b (w a).balance) := by
      simpa [hempty] using total_update (w := w.pay a b (w a).balance) (a := a) {}
    refine ⟨lost, ?_, by simpa [Harmless, hab] using hzero⟩
    rw [apply, hclear]
    simpa [burned, hab] using hsum
  | stored a slot v =>
    have hsame := total_update (w := w) (a := a) ((w a).store slot v)
    refine ⟨0, ?_, by simp [Harmless]⟩
    simp only [apply, burned, Account.store] at hsame ⊢
    omega

theorem total_exec_iff {es : List Event} (h : Along apply Enabled w es) :
    total (exec apply w es) + w.burnedBy es ≤ w.total ∧
      (total (exec apply w es) + w.burnedBy es = w.total ↔ Along apply Harmless w es) := by
  induction es generalizing w with
  | nil => simp [burnedBy]
  | cons _ _ ih =>
    obtain ⟨lost, hsum, hzero⟩ := total_apply h.1
    obtain ⟨hle, hiff⟩ := ih h.2
    rw [exec_cons, burnedBy, along_cons, ← hiff, ← hzero]
    omega

end World

end IonaOs.Evm
