import IonaOs.Evm.Keccak
import IonaOs.Evm.U256

/-!
# Accounts
-/

namespace IonaOs.Evm

open Lib Std.ExtTreeMap

inductive EvmError where
  | outOfGas (limit needed : UInt64)
  | invalidJumpDest (dest : UInt64)
  | insufficientBalance (need have_ : U128)
  | revert (data : List UInt8)
  | invalidOpcode (op : UInt8)
  | staticCallViolation

def EvmError.display : EvmError → String
  | outOfGas limit needed =>
    "out of gas: limit " ++ toString limit ++ ", needed " ++ toString needed
  | invalidJumpDest dest => "invalid jump destination (dest=" ++ toString dest ++ ")"
  | insufficientBalance need have_ =>
    "insufficient balance: need " ++ toString need.toNat ++ ", have " ++ toString have_.toNat
  | revert data => "revert: [" ++ ", ".intercalate (data.map toString) ++ "]"
  | invalidOpcode op =>
    "invalid opcode: 0x" ++ (String.ofList (Nat.toDigits 16 op.toNat)).toUpper
  | staticCallViolation => "static call violation (state modification attempted)"

structure Account where
  balance : U128 := 0
  nonce : UInt64 := 0
  code : List UInt8 := []
  storage : Std.ExtTreeMap U256 U256 := ∅

instance : Inhabited Account := ⟨{}⟩

namespace Account

variable (acc : Account)

def withBalance (balance : U128) : Account := { acc with balance }

@[simp] theorem withBalance_balance (b : U128) : (acc.withBalance b).balance = b := rfl

@[simp] theorem withBalance_withBalance (b b' : U128) :
    (acc.withBalance b).withBalance b' = acc.withBalance b' := rfl

@[simp] theorem withBalance_self : acc.withBalance acc.balance = acc := rfl

def ofFile (data : List UInt8) : Account :=
  if 32 ≤ data.length then
    { balance := BitVec.ofNat 128 (leNat (data.take 16))
      nonce := UInt64.ofNat (leNat ((data.drop 16).take 8))
      code := data.drop 32 }
  else {}

/-- The file that `commit` writes. -/
def toFile : List UInt8 :=
  leBytes 16 acc.balance.toNat ++ le64 acc.nonce ++ List.replicate 8 0 ++ acc.code

/-- The file holds every field but the storage. -/
theorem ofFile_toFile : ofFile acc.toFile = { acc with storage := ∅ } := by
  have hlen : 32 ≤ acc.toFile.length := by simp [toFile]; omega
  have hbalance : leNat (leBytes 16 acc.balance.toNat) = acc.balance.toNat :=
    leNat_leBytes acc.balance.isLt
  have hnonce : leNat (le64 acc.nonce) = acc.nonce.toNat := leNat_leBytes acc.nonce.toNat_lt
  rw [ofFile, if_pos hlen]
  simp [toFile, List.drop_append, List.drop_of_length_le, hbalance, hnonce]

def store (slot value : U256) : Account :=
  { acc with storage :=
      if value = U256.zero then acc.storage.erase slot else acc.storage.insert slot value }

end Account

structure EvmStateDb where
  accounts : Std.ExtTreeMap Address Account
  dirty : Std.ExtTreeMap Address Account
  db : Option (Address → Option (List UInt8))
  snapshots : List (Std.ExtTreeMap Address Account)
  staticCall : Bool

namespace EvmStateDb

/-- `EvmStateDb::new`, over the files that are there. -/
def new (db : Option (Address → Option (List UInt8))) : EvmStateDb := ⟨∅, ∅, db, [], false⟩

variable (s : EvmStateDb)

variable (addr : Address)

/-- `EvmStateDb::get_account`. -/
def getAccount : Account :=
  match s.dirty[addr]? with
  | some acc => acc
  | none =>
    match s.accounts[addr]? with
    | some acc => acc
    | none => ((s.db.bind (· addr)).map Account.ofFile).getD {}

variable (acc : Account)

/-- `EvmStateDb::set_account`. -/
def setAccount : EvmStateDb :=
  if s.staticCall then s else { s with dirty := s.dirty.insert addr acc }

/-- `EvmStateDb::get_storage`. -/
def getStorage (slot : U256) : U256 :=
  (s.getAccount addr).storage[slot]?.getD U256.zero

/-- `EvmStateDb::set_storage`. -/
def setStorage (slot value : U256) : EvmStateDb :=
  if s.staticCall then s else s.setAccount addr ((s.getAccount addr).store slot value)

/-- `EvmStateDb::snapshot`. -/
def snapshot : EvmStateDb := { s with snapshots := s.dirty :: s.snapshots }

/-- `EvmStateDb::revert`. -/
def revert : EvmStateDb :=
  match s.snapshots with
  | [] => s
  | dirty :: snapshots => { s with dirty, snapshots }

/-- `EvmStateDb::commit`. -/
def commit : EvmStateDb where
  accounts := s.accounts.insertMany s.dirty.toList
  dirty := ∅
  db := s.db.map fun files addr => ((s.dirty[addr]?).map Account.toFile).or (files addr)
  snapshots := []
  staticCall := s.staticCall

/-- `EvmStateDb::balance`. -/
def balance (addr : Address) : U128 := (s.getAccount addr).balance

/-- `EvmStateDb::transfer`. -/
def transfer (sender receiver : Address) (value : U128) : Except EvmError EvmStateDb :=
  if value = 0 then .ok s
  else
    let fromAcc := s.getAccount sender
    if fromAcc.balance < value then .error (.insufficientBalance value fromAcc.balance)
    else
      let s := s.setAccount sender (fromAcc.withBalance (fromAcc.balance - value))
      let toAcc := s.getAccount receiver
      .ok (s.setAccount receiver (toAcc.withBalance (toAcc.balance + value)))

/-! ### What is read after a write -/

@[simp] theorem setAccount_staticCall : (s.setAccount addr acc).staticCall = s.staticCall := by
  unfold setAccount
  split <;> rfl

@[simp] theorem setAccount_accounts : (s.setAccount addr acc).accounts = s.accounts := by
  unfold setAccount
  split <;> rfl

@[simp] theorem setAccount_db : (s.setAccount addr acc).db = s.db := by
  unfold setAccount
  split <;> rfl

@[simp] theorem setAccount_snapshots : (s.setAccount addr acc).snapshots = s.snapshots := by
  unfold setAccount
  split <;> rfl

theorem setAccount_of_static (h : s.staticCall = true) (addr : Address) (acc : Account) :
    s.setAccount addr acc = s := by
  simp [setAccount, h]

theorem getAccount_setAccount (h : s.staticCall = false) (addr : Address) (acc : Account) :
    (s.setAccount addr acc).getAccount = Function.update s.getAccount addr acc := by
  ext1 a
  by_cases ha : a = addr
  · subst ha
    simp [setAccount, h, getAccount]
  have hne : ¬ compare addr a = .eq := by
    intro heq
    exact ha (Std.LawfulEqOrd.eq_of_compare heq).symm
  simp [setAccount, h, getAccount, getElem?_insert, hne, Function.update_of_ne ha]

@[simp] theorem getAccount_commit : s.commit.getAccount = s.getAccount := by
  ext1 a
  cases hd : s.dirty[a]? with
  | some acc =>
    have hmem : (a, acc) ∈ s.dirty.toList := by simpa using hd
    have hnew : (s.accounts.insertMany s.dirty.toList)[a]? = some acc :=
      getElem?_insertMany_list_of_mem Std.ReflCmp.compare_self
        distinct_keys_toList hmem
    simp [getAccount, commit, hd, hnew]
  | none =>
    have hkey : (s.dirty.toList.map Prod.fst).contains a = false := by
      have hmem : a ∉ s.dirty := by
        rw [mem_iff_isSome_getElem?, hd]
        simp
      simpa using hmem
    rw [getAccount, getAccount, hd]
    simp only [commit, getElem?_empty, getElem?_insertMany_list_of_contains_eq_false hkey]
    cases s.accounts[a]? with
    | some => rfl
    | none => cases s.db <;> simp [hd]

@[simp] theorem getAccount_snapshot : s.snapshot.getAccount = s.getAccount := rfl

/-- A fresh instance reads an account just committed back up to its storage. -/
theorem commit_persists_iff (files : Address → Option (List UInt8)) (hdb : s.db = some files)
    (addr : Address) (acc : Account) (h : s.dirty[addr]? = some acc) :
    (new s.commit.db).getAccount addr = { s.commit.getAccount addr with storage := ∅ } ∧
      ((new s.commit.db).getAccount addr = s.commit.getAccount addr ↔ acc.storage = ∅) := by
  have hold : s.commit.getAccount addr = acc := by rw [getAccount_commit, getAccount, h]
  have hnew : (new s.commit.db).getAccount addr = { acc with storage := ∅ } := by
    simp [getAccount, new, commit, hdb, h, Account.ofFile_toFile]
  rw [hold, hnew]
  exact ⟨rfl, fun heq => (congrArg Account.storage heq).symm, fun hempty => by rw [← hempty]⟩

/-- One account touched over a database without files. -/
def touched : EvmStateDb :=
  (new (some fun _ => none)).setAccount (Vector.replicate 20 0) acc

theorem commit_persists_iff_coded :
    (new (touched { code := [1] }).commit.db).getAccount (Vector.replicate 20 0) =
      (touched { code := [1] }).commit.getAccount (Vector.replicate 20 0) :=
  have h := commit_persists_iff _ _ rfl _ { code := [1] } (by simp [touched, setAccount, new])
  h.2.mpr rfl

/-- Storage stays in memory: after the commit a new state over the same files reads zero. -/
theorem commit_loses_storage :
    let s := (touched (Account.store {} U256.zero (U256.ofNat 1))).commit
    s.getStorage (Vector.replicate 20 0) U256.zero = U256.ofNat 1 ∧
      (new s.db).getStorage (Vector.replicate 20 0) U256.zero = U256.zero := by
  decide +kernel

end EvmStateDb

def trimmedBytes (n : UInt64) : List UInt8 :=
  let bytes := (le64 n).reverse
  bytes.drop ((bytes.findIdx? (· ≠ 0)).getD 7)

/-- `EvmStateDb::compute_create_addr`. -/
def computeCreateAddr (sender : Address) (nonce : UInt64) : Address :=
  let rlp := 0x94 :: sender.toList ++
    (if nonce = 0 then [0x80]
     else if nonce < 0x80 then [nonce.toUInt8]
     else
      let bytes := trimmedBytes nonce
      (0x80 + UInt8.ofNat bytes.length) :: bytes)
  let header :=
    if rlp.length < 56 then [0xc0 + UInt8.ofNat rlp.length]
    else
      let bytes := trimmedBytes (UInt64.ofNat rlp.length)
      (0xf7 + UInt8.ofNat bytes.length) :: bytes
  U256.toAddress (keccak256 (header ++ rlp))

end IonaOs.Evm
