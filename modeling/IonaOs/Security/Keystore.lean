import IonaOs.Fs.Ionafs

/-!
# The keystore
-/

namespace IonaOs.Security

open Std Lib Fs

/-- `[u8; 32]`. -/
abbrev Key := Vector UInt8 32

structure Crypto where
  sha256 : List UInt8 → Key
  aeadSeal : (key : Key) → (nonce aad plain : List UInt8) → List UInt8
  aeadOpen : (key : Key) → (nonce aad cipher : List UInt8) → Option (List UInt8)
  open_seal : ∀ key nonce aad plain,
    aeadOpen key nonce aad (aeadSeal key nonce aad plain) = some plain
  length_seal : ∀ key nonce aad plain, (aeadSeal key nonce aad plain).length = plain.length + 16

def Crypto.standIn : Crypto where
  sha256 data := (Vector.replicate 32 0).set 0 (UInt8.ofNat data.length)
  aeadSeal _ _ _ plain := plain ++ List.replicate 16 0
  aeadOpen _ _ _ cipher :=
    if cipher.length < 16 then none else some (cipher.take (cipher.length - 16))
  open_seal _ _ _ plain := by simp
  length_seal _ _ _ plain := by simp

/-! ## Entries -/

structure KeystoreConfig where
  path : String := "/etc/iona-keystore.enc"
  salt : String := "iona-keystore-salt-v1"
  iterations : ℕ := 1000

inductive KeystoreError where
  | notUnlocked
  | keyNotFound
  | keyAlreadyExists
  | invalidKeyLength
  | decryptionFailed
  | persistenceFailed
  | config (reason : String)
deriving DecidableEq

def KeystoreConfig.validate (cfg : KeystoreConfig) : Except KeystoreError Unit :=
  if cfg.path = "" then .error (.config "path must not be empty")
  else if cfg.salt = "" then .error (.config "salt must not be empty")
  else if cfg.iterations = 0 then .error (.config "iterations must be > 0")
  else .ok ()

inductive KeyType where
  | ecdsaP256
  | ed25519
  | raw32
  | raw64
deriving DecidableEq

namespace KeyType

def toU8 : KeyType → UInt8
  | ecdsaP256 => 0
  | ed25519 => 1
  | raw32 => 2
  | raw64 => 3

def fromU8 (v : UInt8) : KeyType :=
  if v = 1 then ed25519 else if v = 2 then raw32 else if v = 3 then raw64 else ecdsaP256

def expectedLen : KeyType → ℕ
  | ecdsaP256 | ed25519 | raw32 => 32
  | raw64 => 64

end KeyType

structure KeyEntry where
  id : String
  keyType : KeyType
  created : UInt64
  label : String
  encrypted : List UInt8

/-! ## The store -/

structure Keystore where
  config : KeystoreConfig
  masterKey : Option Key
  keys : ExtTreeMap String KeyEntry compare
  unlocked : Bool

/-- `derive_key`: the hash with the salt, again and again. -/
def deriveKey (c : Crypto) (passphrase salt : List UInt8) (iterations : ℕ) : Key :=
  ((fun x : Key × List UInt8 => (c.sha256 x.2, (c.sha256 x.2).toList ++ salt))^[iterations]
    (Vector.replicate 32 0, passphrase ++ salt)).1

/-- The nonce that `encrypt` and `decrypt` compute. -/
def nonceFor (c : Crypto) (key : Key) (id : String) : List UInt8 :=
  (c.sha256 (key.toList ++ utf8 id ++ utf8 "iona-nonce-v1")).toList.take 12

namespace Keystore

def new (cfg : KeystoreConfig) : Keystore := ⟨cfg, none, ∅, false⟩

def deriveKey (c : Crypto) (k : Keystore) (passphrase : String) : Key :=
  Security.deriveKey c (utf8 passphrase) (utf8 k.config.salt) k.config.iterations

def encrypt (c : Crypto) (key : Key) (id : String) (data : List UInt8) : List UInt8 :=
  c.aeadSeal key (nonceFor c key id) [] data

def decrypt (c : Crypto) (key : Key) (id : String) (ciphertext : List UInt8) :
    Except KeystoreError (List UInt8) :=
  if ciphertext.length < 16 then .error .decryptionFailed
  else
    match c.aeadOpen key (nonceFor c key id) [] ciphertext with
    | none => .error .decryptionFailed
    | some plain => .ok plain

def entryBytes (id : String) (entry : KeyEntry) : List UInt8 :=
  leBytes 2 (utf8 id).length ++ utf8 id ++
    leBytes 2 (utf8 entry.label).length ++ utf8 entry.label ++
    [entry.keyType.toU8] ++ le64 entry.created ++
    leBytes 2 entry.encrypted.length ++ entry.encrypted

def serialize (k : Keystore) : List UInt8 :=
  k.keys.toList.flatMap fun (id, entry) => entryBytes id entry

/-- The next `n` bytes, if there are as many. -/
def takeBytes (n : ℕ) (data : List UInt8) : Option (List UInt8 × List UInt8) :=
  if n ≤ data.length then some (data.take n, data.drop n) else none

/-- A turn of the loop of `load_from_bytes`; `none` where the loop ends. -/
def loadEntry (lossy : FromUtf8Lossy) (data : List UInt8) : Option (KeyEntry × List UInt8) := do
  let (idLen, data) ← takeBytes 2 data
  let (id, data) ← takeBytes (leNat idLen) data
  let (lblLen, data) ← takeBytes 2 data
  let (label, data) ← takeBytes (leNat lblLen) data
  let (kt, data) ← takeBytes 1 data
  let (created, data) ← takeBytes 8 data
  let (encLen, data) ← takeBytes 2 data
  let (encrypted, data) ← takeBytes (leNat encLen) data
  return (⟨lossy.decode id, .fromU8 (kt.headD 0), .ofNat (leNat created), lossy.decode label,
    encrypted⟩, data)

/-- The loop of `load_from_bytes`, for at most so many entries. -/
def loadLoop (lossy : FromUtf8Lossy) : ℕ → List UInt8 → ExtTreeMap String KeyEntry compare →
    ExtTreeMap String KeyEntry compare
  | 0, _, keys => keys
  | fuel + 1, data, keys =>
    match loadEntry lossy data with
    | none => keys
    | some (entry, data) => loadLoop lossy fuel data (keys.insert entry.id entry)

def loadFromBytes (lossy : FromUtf8Lossy) (k : Keystore) (data : List UInt8) : Keystore :=
  { k with keys := loadLoop lossy data.length data k.keys }

end Keystore

/-! ## The manager -/

structure KeystoreManager where
  fs : Files
  inner : Keystore

namespace KeystoreManager

variable (c : Crypto) (lossy : FromUtf8Lossy) (m : KeystoreManager)

def persist : Bool × KeystoreManager :=
  (true, { m with fs := m.fs.write m.inner.config.path m.inner.serialize })

def loadFile : KeystoreManager :=
  match m.fs m.inner.config.path with
  | none => m
  | some data => { m with inner := m.inner.loadFromBytes lossy data }

def coldInit : KeystoreManager := m.loadFile lossy

def new (fs : Files) (cfg : KeystoreConfig) : Except KeystoreError KeystoreManager :=
  match cfg.validate with
  | .error e => .error e
  | .ok () => .ok (coldInit lossy ⟨fs, .new cfg⟩)

def init (passphrase : String) : KeystoreManager :=
  let m := { m with
    inner := { m.inner with masterKey := some (m.inner.deriveKey c passphrase), unlocked := true } }
  if m.inner.keys.isEmpty then m.loadFile lossy else m

def store (now : UInt64) (id label : String) (keyType : KeyType) (keyBytes : List UInt8) :
    Except KeystoreError Unit × KeystoreManager :=
  if !m.inner.unlocked then (.error .notUnlocked, m)
  else
    match m.inner.masterKey with
    | none => (.error .notUnlocked, m)
    | some masterKey =>
      if keyBytes.length ≠ keyType.expectedLen then (.error .invalidKeyLength, m)
      else if m.inner.keys.contains id then (.error .keyAlreadyExists, m)
      else
        let entry := ⟨id, keyType, now, label, Keystore.encrypt c masterKey id keyBytes⟩
        let m := { m with inner := { m.inner with keys := m.inner.keys.insert id entry } }
        let (saved, m) := m.persist
        if saved then (.ok (), m) else (.error .persistenceFailed, m)

def load (id : String) : Except KeystoreError (List UInt8) :=
  if !m.inner.unlocked then .error .notUnlocked
  else
    match m.inner.masterKey with
    | none => .error .notUnlocked
    | some masterKey =>
      match m.inner.keys[id]? with
      | none => .error .keyNotFound
      | some entry => Keystore.decrypt c masterKey id entry.encrypted

def delete (id : String) : Except KeystoreError Unit × KeystoreManager :=
  if !m.inner.unlocked then (.error .notUnlocked, m)
  else if !m.inner.keys.contains id then (.error .keyNotFound, m)
  else
    let m := { m with inner := { m.inner with keys := m.inner.keys.erase id } }
    let (saved, m) := m.persist
    if saved then (.ok (), m) else (.error .persistenceFailed, m)

def list : List (String × String × KeyType) :=
  m.inner.keys.toList.map fun (_, e) => (e.id, e.label, e.keyType)

/-- A turn of the loop of `rotate_master_key`. -/
def rotateEntry (oldMaster newMaster : Key) (keys : ExtTreeMap String KeyEntry compare)
    (id : String) : Except KeystoreError Unit × ExtTreeMap String KeyEntry compare :=
  match keys[id]? with
  | none => (.ok (), keys)
  | some entry =>
    match Keystore.decrypt c oldMaster id entry.encrypted with
    | .error e => (.error e, keys)
    | .ok plain =>
      (.ok (), keys.insert id { entry with encrypted := Keystore.encrypt c newMaster id plain })

def rotateMasterKey (newPassphrase : String) : Except KeystoreError Unit × KeystoreManager :=
  if !m.inner.unlocked then (.error .notUnlocked, m)
  else
    match m.inner.masterKey with
    | none => (.error .notUnlocked, m)
    | some oldMaster =>
      let newMaster := m.inner.deriveKey c newPassphrase
      match tryExec (rotateEntry c oldMaster newMaster) m.inner.keys m.inner.keys.keys with
      | (.error e, keys) => (.error e, { m with inner := { m.inner with keys := keys } })
      | (.ok (), keys) =>
        let inner := { m.inner with keys := keys, masterKey := some newMaster }
        let (saved, m) := { m with inner := inner }.persist
        if saved then (.ok (), m) else (.error .persistenceFailed, m)

end KeystoreManager

/-! ## Runs -/

inductive KeystoreCall where
  | store (now : UInt64) (id label : String) (keyType : KeyType) (keyBytes : List UInt8)
  | load (id : String)
  | delete (id : String)
  | rotateMasterKey (newPassphrase : String)
  | restart

def KeystoreCall.textLen : KeystoreCall → ℕ
  | store _ id label _ _ => max (utf8 id).length (utf8 label).length
  | _ => 0

/-- What was given to a `store`. -/
structure StoredKey where
  keyType : KeyType
  created : UInt64
  label : String
  bytes : List UInt8
deriving DecidableEq

/-- The manager.  The other two are not part of the program: the passphrase set last, and the keys
stored and not deleted since, going by the calls that returned `Ok`. -/
structure Vault where
  manager : KeystoreManager
  passphrase : String
  held : String → Option StoredKey

namespace Vault

variable (c : Crypto) (lossy : FromUtf8Lossy)

/-- A new manager, `cold_init` and `init`. -/
def unlocked (fs : Files) (cfg : KeystoreConfig) (passphrase : String) :
    Except KeystoreError KeystoreManager :=
  (KeystoreManager.new lossy fs cfg).map fun m => (m.coldInit lossy).init c lossy passphrase

def start (fs : Files) (cfg : KeystoreConfig) (passphrase : String) :
    Except KeystoreError Vault :=
  (unlocked c lossy fs cfg passphrase).map fun m => ⟨m, passphrase, fun _ => none⟩

def step (v : Vault) : KeystoreCall → Vault
  | .store now id label keyType keyBytes =>
    match v.manager.store c now id label keyType keyBytes with
    | (.error _, m) => { v with manager := m }
    | (.ok (), m) =>
      { v with
        manager := m
        held := Function.update v.held id (some ⟨keyType, now, label, keyBytes⟩) }
  | .load _ => v
  | .delete id =>
    match v.manager.delete id with
    | (.error _, m) => { v with manager := m }
    | (.ok (), m) => { v with manager := m, held := Function.update v.held id none }
  | .rotateMasterKey newPassphrase =>
    match v.manager.rotateMasterKey c newPassphrase with
    | (.error _, m) => { v with manager := m }
    | (.ok (), m) => { v with manager := m, passphrase := newPassphrase }
  | .restart =>
    match unlocked c lossy v.manager.fs v.manager.inner.config v.passphrase with
    | .error _ => v
    | .ok m => { v with manager := m }

end Vault

end IonaOs.Security
