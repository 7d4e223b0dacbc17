import IonaOs.Security.Keystore

/-!
# The keystore returns what was stored
-/

namespace IonaOs.Security

open Std Lib Fs ExtTreeMap Option

variable {c : Crypto} (lossy : FromUtf8Lossy) {fs : Files} {k : Keystore}

/-! ## The format -/

structure KeyEntry.Fits (e : KeyEntry) : Prop where
  id : (utf8 e.id).length < 65536
  label : (utf8 e.label).length < 65536
  encrypted : e.encrypted.length < 65536

@[simp] theorem KeyType.fromU8_toU8 (t : KeyType) : fromU8 t.toU8 = t := by
  cases t <;> decide

theorem KeyType.expectedLen_le (t : KeyType) : t.expectedLen ≤ 64 := by
  cases t <;> decide

namespace Keystore

theorem takeBytes_append {n : ℕ} {xs : List UInt8} (h : xs.length = n) (ys : List UInt8) :
    takeBytes n (xs ++ ys) = some (xs, ys) := by
  rw [takeBytes, if_pos (by simp [h]), List.take_left' h, List.drop_left' h]

theorem leNat_leBytes_two {n : ℕ} (h : n < 65536) : leNat (leBytes 2 n) = n := leNat_leBytes h

theorem loadEntry_entryBytes {e : KeyEntry} (h : e.Fits) (rest : List UInt8) :
    loadEntry lossy (entryBytes e.id e ++ rest) = some (e, rest) := by
  have hcreated : UInt64.ofNat (leNat (le64 e.created)) = e.created := by
    rw [le64, leNat_leBytes (by exact e.created.toNat_lt), UInt64.ofNat_toNat]
  simp only [loadEntry, entryBytes, List.append_assoc, bind, Option.bind,
    takeBytes_append (length_leBytes 2 _), leNat_leBytes_two h.id, leNat_leBytes_two h.label,
    leNat_leBytes_two h.encrypted, takeBytes_append rfl, takeBytes_append (length_le64 _),
    takeBytes_append (List.length_singleton), lossy.decode_utf8, List.headD_cons,
    KeyType.fromU8_toU8, hcreated, pure]

variable {es : List (String × KeyEntry)}

theorem loadLoop_flatMap (hes : ∀ p ∈ es, p.2.id = p.1 ∧ p.2.Fits) {fuel : ℕ}
    (hfuel : es.length ≤ fuel) (keys : ExtTreeMap String KeyEntry compare) :
    loadLoop lossy fuel (es.flatMap fun p => entryBytes p.1 p.2) keys =
      exec (fun keys p => keys.insert p.1 p.2) keys es := by
  induction es generalizing fuel keys with
  | nil => cases fuel <;> rfl
  | cons p _ ih =>
    obtain ⟨fuel, rfl⟩ := Nat.exists_eq_add_of_le' (Nat.one_le_of_lt hfuel)
    obtain ⟨hid, hfits⟩ := hes p (by simp)
    have hread := loadEntry_entryBytes lossy hfits
    rw [hid] at hread
    simp only [List.flatMap_cons, loadLoop, hread, hid, exec_cons]
    exact ih (fun q hq => hes q (by simp [hq])) (by simpa using hfuel) _

theorem insert_entries {K K' : ExtTreeMap String KeyEntry compare}
    (hes : ∀ p ∈ es, K[p.1]? = some p.2)
    (hsub : ∀ (id : String) e, K'[id]? = some e → K[id]? = some e) (id : String) (e : KeyEntry) :
    ((exec (fun keys p => keys.insert p.1 p.2) K' es)[id]? = some e → K[id]? = some e) ∧
      ((id, e) ∈ es ∨ K'[id]? = some e →
        (exec (fun keys p => keys.insert p.1 p.2) K' es)[id]? = some e) := by
  induction es generalizing K' with
  | nil => exact ⟨hsub id e, fun h => by simpa using h⟩
  | cons p _ ih =>
    have hp := hes p (by simp)
    have hinsert : ∀ id' : String, (K'.insert p.1 p.2)[id']? =
        if p.1 = id' then some p.2 else K'[id']? := fun id' => by
      simp [getElem?_insert]
    have hsub' : ∀ (id' : String) e', (K'.insert p.1 p.2)[id']? = some e' →
        K[id']? = some e' := by
      intro id' e' he'
      rw [hinsert] at he'
      split at he'
      · next heq => rw [← heq, hp, he']
      · exact hsub id' e' he'
    obtain ⟨hpart, hall⟩ := ih (fun q hq => hes q (by simp [hq])) hsub'
    refine ⟨hpart, fun h => hall ?_⟩
    rw [hinsert, List.mem_cons] at *
    obtain (rfl | h) | h := h
    · exact .inr (if_pos rfl)
    · exact .inl h
    -- a key that is there already is given the value it has
    refine .inr ?_
    split
    · next heq => rw [← hp, heq, hsub id e h]
    · exact h

def Sound (k : Keystore) : Prop := ∀ (id : String) e, k.keys[id]? = some e → e.id = id ∧ e.Fits

theorem loadLoop_serialize (h : k.Sound) {K' : ExtTreeMap String KeyEntry compare}
    (hsub : ∀ (id : String) e, K'[id]? = some e → k.keys[id]? = some e) :
    loadLoop lossy k.serialize.length k.serialize K' = k.keys := by
  have hlisted : ∀ p ∈ k.keys.toList, k.keys[p.1]? = some p.2 := fun p hp =>
    mem_toList_iff_getElem?_eq_some.mp hp
  have hfuel : ∀ es : List (String × KeyEntry),
      es.length ≤ (es.flatMap fun p => entryBytes p.1 p.2).length := by
    intro es
    induction es with
    | nil => simp
    | cons p =>
      have : 0 < (entryBytes p.1 p.2).length := by simp [entryBytes]
      simp only [List.flatMap_cons, List.length_append, List.length_cons]
      omega
  have hloop :=
    loadLoop_flatMap lossy (fun p hp => h p.1 p.2 (hlisted p hp)) (hfuel k.keys.toList) K'
  refine hloop.trans (ext_getElem? fun id => ?_)
  have hentries := insert_entries hlisted hsub id
  cases he : k.keys[id]? with
  | some e => exact (hentries e).2 (.inl (mem_toList_iff_getElem?_eq_some.mpr he))
  | none =>
    refine eq_none_iff_forall_ne_some.mpr fun e hload => ?_
    rw [(hentries e).1 hload] at he
    cases he

def Saved (k : Keystore) (fs : Files) : Prop :=
  fs k.config.path = some k.serialize ∨ (fs k.config.path = none ∧ k.keys = ∅)

end Keystore

namespace KeystoreManager

theorem loadFile_eq (hsaved : k.Saved fs) (hsound : k.Sound)
    {keys : ExtTreeMap String KeyEntry compare}
    (hsub : ∀ (id : String) e, keys[id]? = some e → k.keys[id]? = some e) (masterKey : Option Key)
    (unlocked : Bool) :
    loadFile lossy ⟨fs, ⟨k.config, masterKey, keys, unlocked⟩⟩ =
      ⟨fs, ⟨k.config, masterKey, k.keys, unlocked⟩⟩ := by
  obtain hfile | ⟨hfile, hempty⟩ := hsaved
  · have hload := Keystore.loadLoop_serialize lossy hsound hsub
    simp [loadFile, hfile, Keystore.loadFromBytes, hload]
  have hnone : keys = ∅ := by
    refine ext_getElem? fun id => ?_
    refine eq_none_iff_forall_ne_some.mpr fun e he => ?_
    simpa [hempty] using hsub id e he
  simp [loadFile, hfile, hnone, hempty]

theorem unlocked_eq (hsaved : k.Saved fs) (hsound : k.Sound) (hvalid : k.config.validate = .ok ())
    (passphrase : String) :
    Vault.unlocked c lossy fs k.config passphrase =
      .ok ⟨fs, ⟨k.config, some (k.deriveKey c passphrase), k.keys, true⟩⟩ := by
  have hcold : coldInit lossy ⟨fs, .new k.config⟩ = ⟨fs, ⟨k.config, none, k.keys, false⟩⟩ :=
    loadFile_eq lossy hsaved hsound (by simp) none false
  have hagain := loadFile_eq lossy hsaved hsound fun _ _ he => he
  simp only [Vault.unlocked, new, hvalid, hcold, Except.map]
  rw [coldInit, hagain, init]
  simp only [Keystore.deriveKey]
  split
  · rw [hagain]
  · rfl

end KeystoreManager

open KeystoreManager hiding persist

/-! ## Ciphers -/

@[simp] theorem Keystore.length_encrypt (key : Key) (id : String) (data : List UInt8) :
    (encrypt c key id data).length = data.length + 16 := c.length_seal ..

@[simp] theorem Keystore.decrypt_encrypt (key : Key) (id : String) (data : List UInt8) :
    decrypt c key id (encrypt c key id data) = .ok data := by
  rw [decrypt, if_neg (by simp), encrypt, c.open_seal]

def StoredKey.entry (c : Crypto) (key : Key) (id : String) (x : StoredKey) : KeyEntry :=
  ⟨id, x.keyType, x.created, x.label, Keystore.encrypt c key id x.bytes⟩

structure StoredKey.Fits (id : String) (x : StoredKey) : Prop where
  id : (utf8 id).length < 65536
  label : (utf8 x.label).length < 65536
  bytes : x.bytes.length = x.keyType.expectedLen

theorem StoredKey.Fits.entry {id : String} {x : StoredKey} (h : x.Fits id) (key : Key) :
    (x.entry c key id).Fits := by
  refine ⟨h.id, h.label, ?_⟩
  have hlen := x.keyType.expectedLen_le
  rw [StoredKey.entry, Keystore.length_encrypt, h.bytes]
  omega

/-! ## The invariant -/

def Holding (c : Crypto) (key : Key) (held : String → Option StoredKey)
    (keys : ExtTreeMap String KeyEntry compare) : Prop :=
  ∀ id, keys[id]? = (held id).map (·.entry c key id)

namespace Vault

variable {v : Vault}

def key (c : Crypto) (v : Vault) : Key := v.manager.inner.deriveKey c v.passphrase

structure Kept (c : Crypto) (v : Vault) : Prop where
  valid : v.manager.inner.config.validate = .ok ()
  unlocked : v.manager.inner.unlocked = true
  master : v.manager.inner.masterKey = some (v.key c)
  holding : Holding c (v.key c) v.held v.manager.inner.keys
  fits : ∀ id x, v.held id = some x → x.Fits id
  saved : v.manager.inner.Saved v.manager.fs

namespace Kept

section

variable (h : v.Kept c)
include h

theorem sound : v.manager.inner.Sound := by
  intro id e he
  rw [h.holding id, map_eq_some_iff] at he
  obtain ⟨x, hx, rfl⟩ := he
  exact ⟨rfl, (h.fits id x hx).entry (v.key c)⟩

theorem contains_eq (id : String) : v.manager.inner.keys.contains id = (v.held id).isSome := by
  rw [contains_eq_isSome_getElem?, h.holding id, isSome_map]

/-! ### Reading -/

theorem load_eq (id : String) : v.manager.load c id =
      match v.held id with
      | none => .error .keyNotFound
      | some x => .ok x.bytes := by
  simp only [load, h.unlocked, h.master, h.holding id]
  cases v.held id with
  | none => rfl
  | some x => exact Keystore.decrypt_encrypt (v.key c) id x.bytes

theorem mem_list (id label : String) (keyType : KeyType) : (id, label, keyType) ∈ v.manager.list ↔
      ∃ x, v.held id = some x ∧ x.label = label ∧ x.keyType = keyType := by
  have hentry : ∀ id' e, (id', e) ∈ v.manager.inner.keys.toList ↔
      ∃ x, v.held id' = some x ∧ x.entry c (v.key c) id' = e := fun id' e => by
    rw [mem_toList_iff_getElem?_eq_some, h.holding id', map_eq_some_iff]
  rw [list, List.mem_map]
  constructor
  · rintro ⟨⟨id', e⟩, hmem, heq⟩
    obtain ⟨x, hx, rfl⟩ := (hentry id' e).mp hmem
    cases heq
    exact ⟨x, hx, rfl, rfl⟩
  · rintro ⟨x, hx, rfl, rfl⟩
    exact ⟨(id, x.entry c (v.key c) id), (hentry id _).mpr ⟨x, hx, rfl⟩, rfl⟩

/-! ### Changing -/

omit h in
theorem persist {inner : Keystore} {passphrase : String} {held : String → Option StoredKey}
    (hvalid : inner.config.validate = .ok ()) (hunlocked : inner.unlocked = true)
    (hmaster : inner.masterKey = some (inner.deriveKey c passphrase))
    (hholding : Holding c (inner.deriveKey c passphrase) held inner.keys)
    (hfits : ∀ id x, held id = some x → x.Fits id) :
    Kept c ⟨(KeystoreManager.persist ⟨fs, inner⟩).2, passphrase, held⟩ :=
  ⟨hvalid, hunlocked, hmaster, hholding, hfits, .inl (Files.write_self ..)⟩

theorem store_eq (now : UInt64) (id label : String) (keyType : KeyType) (keyBytes : List UInt8) :
    v.manager.store c now id label keyType keyBytes =
      if keyBytes.length ≠ keyType.expectedLen then (.error .invalidKeyLength, v.manager)
      else if (v.held id).isSome then (.error .keyAlreadyExists, v.manager)
      else
        let x : StoredKey := ⟨keyType, now, label, keyBytes⟩
        (.ok (), (KeystoreManager.persist ⟨v.manager.fs, { v.manager.inner with
          keys := v.manager.inner.keys.insert id (x.entry c (v.key c) id) }⟩).2) := by
  simp only [store, h.unlocked, h.master, h.contains_eq]
  rfl

theorem store {now : UInt64} {id label : String} {keyType : KeyType} {keyBytes : List UInt8}
    (hid : (utf8 id).length < 65536) (hlabel : (utf8 label).length < 65536) :
    (v.step c lossy (.store now id label keyType keyBytes)).Kept c := by
  simp only [step, h.store_eq]
  split_ifs with hlen hheld
  · exact h
  · exact h
  refine persist h.valid h.unlocked h.master (fun id' => ?_) fun id' x hx => ?_
  · simp only [getElem?_insert, Std.compare_eq_iff_eq, Function.update_apply, @eq_comm _ id']
    split
    · next heq => rw [heq]; rfl
    · exact h.holding id'
  · rw [Function.update_apply] at hx
    split at hx
    · next heq =>
        cases hx
        exact heq ▸ ⟨hid, hlabel, not_not.mp hlen⟩
    · exact h.fits id' x hx

theorem delete_eq (id : String) : v.manager.delete id =
      if (v.held id).isNone then (.error .keyNotFound, v.manager)
      else (.ok (), (KeystoreManager.persist ⟨v.manager.fs, { v.manager.inner with
        keys := v.manager.inner.keys.erase id }⟩).2) := by
  simp only [delete, h.unlocked, h.contains_eq, not_isSome]
  rfl

theorem delete (id : String) : (v.step c lossy (.delete id)).Kept c := by
  simp only [step, h.delete_eq]
  split_ifs with hheld
  · exact h
  refine persist h.valid h.unlocked h.master (fun id' => ?_) fun id' x hx => ?_
  · simp only [getElem?_erase, Std.compare_eq_iff_eq, Function.update_apply, @eq_comm _ id']
    split
    · rfl
    · exact h.holding id'
  · rw [Function.update_apply] at hx
    split at hx
    · cases hx
    · exact h.fits id' x hx

end

end Kept

/-- The entries of `done` are encrypted anew, and the first one of `rest` does not decrypt. -/
structure Renewed (c : Crypto) (oldMaster newMaster : Key)
    (keys keys' : ExtTreeMap String KeyEntry compare) (done rest : List String) : Prop where
  kept : ∀ id ∉ done, keys'[id]? = keys[id]?
  renewed : ∀ id ∈ done, ∃ e plain, keys[id]? = some e ∧
    Keystore.decrypt c oldMaster id e.encrypted = .ok plain ∧
      keys'[id]? = some { e with encrypted := Keystore.encrypt c newMaster id plain }
  stop : ∀ id ∈ rest.head?, ∃ e err, keys[id]? = some e ∧
    Keystore.decrypt c oldMaster id e.encrypted = .error err

/-- The loop of `rotate_master_key` goes up to the first entry that does not decrypt. -/
theorem rotateEntries (c : Crypto) (oldMaster newMaster : Key) {ids : List String}
    (hnodup : ids.Nodup) (keys : ExtTreeMap String KeyEntry compare)
    (hin : ∀ id ∈ ids, ∃ e, keys[id]? = some e) :
    ∃ done rest result keys', ids = done ++ rest ∧
      tryExec (rotateEntry c oldMaster newMaster) keys ids = (result, keys') ∧
      (result = .ok () ↔ rest = []) ∧ Renewed c oldMaster newMaster keys keys' done rest := by
  induction ids generalizing keys with
  | nil => exact ⟨[], [], _, keys, rfl, rfl, by simp, by simp, by simp, by simp⟩
  | cons id ids ih =>
    obtain ⟨hnotin, hnodup⟩ := List.nodup_cons.mp hnodup
    obtain ⟨e, he⟩ := hin id List.mem_cons_self
    cases hplain : Keystore.decrypt c oldMaster id e.encrypted with
    | error err =>
      refine ⟨[], id :: ids, .error err, keys, rfl, ?_, by simp, by simp, by simp,
        by simp [he, hplain]⟩
      rw [tryExec, rotateEntry, he]
      simp only [hplain]
    | ok plain =>
      set keys₁ := keys.insert id { e with encrypted := Keystore.encrypt c newMaster id plain }
      have hsame : ∀ id', id' ≠ id → keys₁[id']? = keys[id']? := fun id' hne => by
        simp [keys₁, getElem?_insert, Ne.symm hne]
      obtain ⟨done, rest, result, keys', rfl, hloop, hres, hkept, hdone, hstop⟩ :=
        ih hnodup keys₁ fun id' h => by
          rw [hsame id' fun heq => hnotin (heq ▸ h)]
          exact hin id' (List.mem_cons_of_mem _ h)
      refine ⟨id :: done, rest, result, keys', rfl, ?_, hres, ?_, ?_, ?_⟩
      · rw [tryExec, rotateEntry, he]
        simp only [hplain]
        exact hloop
      · intro id' h
        obtain ⟨hne, h⟩ := not_or.mp (List.mem_cons.not.mp h)
        rw [hkept id' h, hsame id' hne]
      · intro id' h
        rcases List.mem_cons.mp h with rfl | h
        · refine ⟨e, plain, he, hplain, ?_⟩
          rw [hkept id' fun h => hnotin (List.mem_append_left _ h)]
          simp [keys₁]
        · obtain ⟨e', plain', he', hrest⟩ := hdone id' h
          rw [hsame id' fun heq => hnotin (heq ▸ List.mem_append_left _ h)] at he'
          exact ⟨e', plain', he', hrest⟩
      · intro id' h
        obtain ⟨e', err, he', herr⟩ := hstop id' h
        have hmem := List.mem_append_right done (List.mem_of_mem_head? h)
        rw [hsame id' fun heq => hnotin (heq ▸ hmem)] at he'
        exact ⟨e', err, he', herr⟩

namespace Kept

theorem rotate_eq (h : v.Kept c) (newPassphrase : String) :
    ∃ keys, v.manager.rotateMasterKey c newPassphrase =
      (.ok (), (KeystoreManager.persist ⟨v.manager.fs, { v.manager.inner with
        keys := keys, masterKey := some (v.manager.inner.deriveKey c newPassphrase) }⟩).2) ∧
      Holding c (v.manager.inner.deriveKey c newPassphrase) v.held keys := by
  have hin : ∀ id ∈ v.manager.inner.keys.keys, ∃ e, v.manager.inner.keys[id]? = some e := by
    intro id hid
    exact ⟨_, getElem?_eq_some_getElem (mem_keys.mp hid)⟩
  have hopens : ∀ id e, v.manager.inner.keys[id]? = some e → ∃ x, v.held id = some x ∧
      x.entry c (v.key c) id = e := by
    intro id e he
    rwa [h.holding id, map_eq_some_iff] at he
  obtain ⟨done, rest, result, keys, hids, hloop, hres, hkept, hdone, hstop⟩ :=
    rotateEntries c (v.key c) (v.manager.inner.deriveKey c newPassphrase) nodup_keys _ hin
  have hrest : rest = [] := by
    cases rest with
    | nil => rfl
    | cons id =>
      obtain ⟨e, err, he, herr⟩ := hstop id rfl
      obtain ⟨x, -, rfl⟩ := hopens id e he
      simp [StoredKey.entry] at herr
  rw [hres.mpr hrest] at hloop
  refine ⟨keys, ?_, fun id => ?_⟩
  · simp only [rotateMasterKey, h.unlocked, h.master, hloop]
    rfl
  by_cases hid : id ∈ done
  · obtain ⟨e, plain, he, hplain, hkey⟩ := hdone id hid
    obtain ⟨x, hx, rfl⟩ := hopens id e he
    simp only [StoredKey.entry, Keystore.decrypt_encrypt, Except.ok.injEq] at hplain
    rw [hkey, hx, ← hplain]
    rfl
  · rw [hkept id hid, h.holding id]
    rw [hrest, List.append_nil] at hids
    rw [← hids, mem_keys, ← contains_iff_mem, h.contains_eq] at hid
    rw [not_isSome_iff_eq_none.mp hid]
    rfl

theorem rotateMasterKey (h : v.Kept c) (newPassphrase : String) :
    (v.step c lossy (.rotateMasterKey newPassphrase)).Kept c := by
  obtain ⟨keys, heq, hholding⟩ := h.rotate_eq newPassphrase
  simp only [step, heq]
  exact persist h.valid h.unlocked rfl hholding h.fits

theorem restart_eq (h : v.Kept c) :
    Vault.unlocked c lossy v.manager.fs v.manager.inner.config v.passphrase = .ok v.manager := by
  rw [unlocked_eq lossy h.saved h.sound h.valid, ← key, ← h.master, ← h.unlocked]

theorem step (h : v.Kept c) {x : KeystoreCall} (hx : x.textLen < 65536) :
    (v.step c lossy x).Kept c := by
  cases x with
  | store =>
    obtain ⟨hid, hlabel⟩ := max_lt_iff.mp hx
    exact h.store lossy hid hlabel
  | load => exact h
  | delete id => exact h.delete lossy id
  | rotateMasterKey newPassphrase => exact h.rotateMasterKey lossy newPassphrase
  | restart =>
    rw [Vault.step, h.restart_eq]
    exact h

end Kept

theorem start_eq (cfg : KeystoreConfig) (passphrase : String) (hvalid : cfg.validate = .ok ())
    (hnew : fs cfg.path = none) :
    ∃ v, start c lossy fs cfg passphrase = .ok v ∧ v.Kept c ∧ ∀ id, v.held id = none := by
  have hsaved : (Keystore.new cfg).Saved fs := .inr ⟨hnew, rfl⟩
  have hsound : (Keystore.new cfg).Sound := fun id e he => by simp [Keystore.new] at he
  have hopen := unlocked_eq (c := c) lossy hsaved hsound hvalid passphrase
  refine ⟨_, by rw [start, show cfg = (Keystore.new cfg).config from rfl, hopen]; rfl, ?_,
    fun _ => rfl⟩
  exact ⟨hvalid, rfl, rfl, fun id => by simp [Keystore.new], by simp, .inr ⟨hnew, rfl⟩⟩

/-- Over every run, `load` gives the bytes of the keys stored and not deleted since and finds no
others, and `list` shows them; a `store` succeeds if the length is right and the id not in use, a
`delete` if it is, and rotations and restarts always do. -/
theorem returns_stored (c : Crypto) (lossy : FromUtf8Lossy) (fs : Files) (cfg : KeystoreConfig)
    (passphrase : String) (hvalid : cfg.validate = .ok ()) (hnew : fs cfg.path = none)
    (xs : List KeystoreCall) (hxs : ∀ x ∈ xs, x.textLen < 65536) :
    ∃ v₀, start c lossy fs cfg passphrase = .ok v₀ ∧ (∀ id, v₀.held id = none) ∧
      let v := exec (step c lossy) v₀ xs
      (∀ id, v.manager.load c id =
        match v.held id with
        | none => .error .keyNotFound
        | some x => .ok x.bytes) ∧
      (∀ id label keyType, (id, label, keyType) ∈ v.manager.list ↔
        ∃ x, v.held id = some x ∧ x.label = label ∧ x.keyType = keyType) ∧
      (∀ now id label keyType keyBytes,
        (v.manager.store c now id label keyType keyBytes).1 = .ok () ↔
          keyBytes.length = keyType.expectedLen ∧ v.held id = none) ∧
      (∀ id, (v.manager.delete id).1 = .ok () ↔ v.held id ≠ none) ∧
      (∀ newPassphrase, (v.manager.rotateMasterKey c newPassphrase).1 = .ok ()) ∧
      ∃ m, unlocked c lossy v.manager.fs v.manager.inner.config v.passphrase = .ok m := by
  obtain ⟨v₀, hstart, hkept, hempty⟩ := start_eq lossy cfg passphrase hvalid hnew
  refine ⟨v₀, hstart, hempty, ?_⟩
  have h : (exec (step c lossy) v₀ xs).Kept c :=
    ((along_iff_forall_mem).mpr hxs).invariant hkept fun _ _ hv hx => hv.step lossy hx
  refine ⟨h.load_eq, h.mem_list, fun now id label keyType keyBytes => ?_, fun id => ?_,
    fun newPassphrase => ?_, _, h.restart_eq lossy⟩
  · rw [h.store_eq]
    split_ifs with hlen hheld
    · simp [hlen]
    · simp [isSome_iff_ne_none.mp hheld]
    · simp [not_not.mp hlen, not_isSome_iff_eq_none.mp hheld]
  · rw [h.delete_eq]
    split_ifs with hheld
    · simp [isNone_iff_eq_none.mp hheld]
    · simpa using hheld
  · obtain ⟨keys, heq, -⟩ := h.rotate_eq newPassphrase
    rw [heq]

def sampleCalls : List KeystoreCall :=
  [.store 5 "a" "first" .raw32 (List.replicate 32 1),
    .store 6 "b" "second" .ed25519 (List.replicate 32 2), .rotateMasterKey "new", .restart,
    .delete "a", .store 7 "a" "third" .raw64 (List.replicate 64 3)]

/-- Two keys that outlive a rotation and a restart, one of them replaced afterwards. -/
theorem returns_stored_sample :
    ∃ v₀, start .standIn sampleDecoder (fun _ => none) {} "old" = .ok v₀ ∧
      let v := exec (step .standIn sampleDecoder) v₀ sampleCalls
      v.manager.load .standIn "a" = .ok (List.replicate 64 3) ∧
        v.manager.load .standIn "b" = .ok (List.replicate 32 2) ∧
        v.manager.load .standIn "c" = .error .keyNotFound ∧
        ("b", "second", .ed25519) ∈ v.manager.list := by
  obtain ⟨v₀, hstart, -, hload, hlist, -⟩ := returns_stored .standIn sampleDecoder (fun _ => none)
    {} "old" rfl rfl sampleCalls (by decide)
  have hheld : ((start .standIn sampleDecoder (fun _ => none) {} "old").toOption.map fun v =>
      ["a", "b", "c"].map (exec (step .standIn sampleDecoder) v sampleCalls).held) =
      some [some ⟨.raw64, 7, "third", List.replicate 64 3⟩,
        some ⟨.ed25519, 6, "second", List.replicate 32 2⟩, none] := by
    decide +kernel
  simp only [hstart, Except.toOption, map_some, List.map_cons, List.map_nil,
    Option.some.injEq, List.cons.injEq, and_true] at hheld
  obtain ⟨ha, hb, hc⟩ := hheld
  refine ⟨v₀, hstart, ?_, ?_, ?_, (hlist _ _ _).mpr ⟨_, hb, rfl, rfl⟩⟩
  · rw [hload, ha]
  · rw [hload, hb]
  · rw [hload, hc]

end Vault

/-! ## Rotations that fail -/

namespace KeystoreManager

theorem load_of_unlocked (c : Crypto) {m : KeystoreManager} {key : Key}
    (hunlocked : m.inner.unlocked = true) (hmaster : m.inner.masterKey = some key) (id : String) :
    m.load c id = m.inner.keys[id]?.elim (.error .keyNotFound) fun e =>
      Keystore.decrypt c key id e.encrypted := by
  simp only [load, hunlocked, hmaster]
  cases m.inner.keys[id]? <;> rfl

/-- The entries before the first one that does not decrypt are encrypted anew, and then still open
under the key that is in use. -/
def StillOpens (c : Crypto) (m : KeystoreManager) (newPassphrase : String) : Prop :=
  ∀ id ∈ m.inner.keys.keys.takeWhile fun id => (m.load c id).isOk, ∀ plain,
    m.load c id = .ok plain → ∀ old ∈ m.inner.masterKey, Keystore.decrypt c old id
      (Keystore.encrypt c (m.inner.deriveKey c newPassphrase) id plain) = .ok plain

/-- Every entry decrypts under the key that is in use. -/
def Decrypts (c : Crypto) (m : KeystoreManager) : Prop :=
  m.inner.unlocked = true ∧ m.inner.masterKey.isSome = true ∧
    ∀ id ∈ m.inner.keys, (m.load c id).isOk = true

section Rotation

variable {c : Crypto} {m : KeystoreManager} {old new : Key} {done rest : List String}
variable {keys : ExtTreeMap String KeyEntry compare} {newPassphrase : String}
variable (hunlocked : m.inner.unlocked = true) (hmaster : m.inner.masterKey = some old)
variable (h : Vault.Renewed c old new m.inner.keys keys done rest)
include hunlocked hmaster h

theorem load_renewed {id : String} (hid : id ∈ done) : ∃ e plain, m.inner.keys[id]? = some e ∧
    m.load c id = .ok plain ∧
      keys[id]? = some { e with encrypted := Keystore.encrypt c new id plain } := by
  obtain ⟨e, plain, he, hplain, hkey⟩ := h.renewed id hid
  refine ⟨e, plain, he, ?_, hkey⟩
  rw [load_of_unlocked c hunlocked hmaster, he]
  exact hplain

theorem not_isOk_load_stop {id : String} (hid : id ∈ rest.head?) : ¬ (m.load c id).isOk := by
  obtain ⟨e, err, he, hstop⟩ := h.stop id hid
  simp [load_of_unlocked c hunlocked hmaster, he, hstop, Except.isOk, Except.toBool]

theorem isOk_load_renewed {id : String} (hid : id ∈ done) : (m.load c id).isOk := by
  obtain ⟨_, _, -, hplain, -⟩ := load_renewed hunlocked hmaster h hid
  rw [hplain]
  rfl

variable (hids : m.inner.keys.keys = done ++ rest)
include hids

theorem decrypts_iff : m.Decrypts c ↔ rest = [] := by
  constructor
  · rintro ⟨-, -, hall⟩
    cases rest with
    | nil => rfl
    | cons stop rest =>
      have hloads := hall stop (by simp [← mem_keys, hids])
      exact absurd hloads (not_isOk_load_stop hunlocked hmaster h rfl)
  · rintro rfl
    refine ⟨hunlocked, by rw [hmaster]; rfl, fun id hid => ?_⟩
    rw [← mem_keys, hids, List.append_nil] at hid
    exact isOk_load_renewed hunlocked hmaster h hid

variable {m' : KeystoreManager} (hunlocked' : m'.inner.unlocked = true)
  (hkeys : m'.inner.keys = keys)
include hunlocked' hkeys

/-- After a loop that came to its end, every key loads as before under the new key. -/
theorem load_eq (hmaster' : m'.inner.masterKey = some new) (hrest : rest = []) (id : String) :
    m'.load c id = m.load c id := by
  rw [load_of_unlocked c hunlocked' hmaster', hkeys]
  by_cases hid : id ∈ done
  · obtain ⟨e, plain, -, hplain, hkey⟩ := load_renewed hunlocked hmaster h hid
    simp [hplain, hkey]
  · have hnone : m.inner.keys[id]? = none := by
      rwa [← List.append_nil done, ← hrest, ← hids, mem_keys, ← getElem?_eq_none_iff] at hid
    simp [load_of_unlocked c hunlocked hmaster, h.kept id hid, hnone]

theorem load_iff (hmaster' : m'.inner.masterKey = some old)
    (hnew : new = m.inner.deriveKey c newPassphrase) (hrest : rest ≠ []) :
    (∀ id, m'.load c id = m.load c id) ↔ m.StillOpens c newPassphrase := by
  have htake : m.inner.keys.keys.takeWhile (fun id => (m.load c id).isOk) = done := by
    obtain ⟨stop, rest, rfl⟩ := List.exists_cons_of_ne_nil hrest
    rw [hids, List.takeWhile_append_of_pos, List.takeWhile_cons_of_neg, List.append_nil]
    · exact not_isOk_load_stop hunlocked hmaster h rfl
    · exact fun id => isOk_load_renewed hunlocked hmaster h
  simp only [load_of_unlocked c hunlocked' hmaster', hkeys, StillOpens, htake, hmaster,
    mem_some_iff, ← hnew]
  constructor
  · rintro hsame id hid plain hloaded _ rfl
    obtain ⟨_, _, -, hplain, hkey⟩ := load_renewed hunlocked hmaster h hid
    cases hloaded.symm.trans hplain
    simpa [hkey, hplain] using hsame id
  · intro hopens id
    by_cases hid : id ∈ done
    · obtain ⟨_, plain, -, hplain, hkey⟩ := load_renewed hunlocked hmaster h hid
      simpa [hkey, hplain] using hopens id hid plain hplain old rfl
    · rw [load_of_unlocked c hunlocked hmaster, h.kept id hid]

end Rotation

/-- **A rotation of the master key.**  If every entry decrypts, it encrypts them all anew and
switches the key, and no `load` gives another result.  Else it returns an error, with the files as
they were, and the `load`s are as they were exactly in the case of `StillOpens`. -/
theorem rotation_atomic_iff (c : Crypto) (lossy : FromUtf8Lossy) (m : KeystoreManager)
    (newPassphrase : String) :
    let r := m.rotateMasterKey c newPassphrase
    let key := m.inner.deriveKey c newPassphrase
    (m.Decrypts c ∧ r.1 = .ok () ∧ r.2.inner.masterKey = some key ∧
        r.2.fs = m.fs.write m.inner.config.path r.2.inner.serialize ∧
        (∀ id, r.2.load c id = m.load c id) ∧
        ∀ id e, m.inner.keys[id]? = some e → ∃ plain, m.load c id = .ok plain ∧
          r.2.inner.keys[id]? = some { e with encrypted := Keystore.encrypt c key id plain }) ∨
      ¬ m.Decrypts c ∧ (∃ err, r.1 = .error err) ∧
        (∀ passphrase, Vault.unlocked c lossy r.2.fs r.2.inner.config passphrase =
          Vault.unlocked c lossy m.fs m.inner.config passphrase) ∧
        ((∀ id, r.2.load c id = m.load c id) ↔ m.StillOpens c newPassphrase) := by
  intro r key
  by_cases hopen : m.inner.unlocked = true ∧ m.inner.masterKey.isSome
  · obtain ⟨hunlocked, hsome⟩ := hopen
    obtain ⟨old, hmaster⟩ := isSome_iff_exists.mp hsome
    obtain ⟨done, rest, result, keys, hids, hloop, hres, h⟩ :=
      Vault.rotateEntries c old key (nodup_keys (t := m.inner.keys)) _ fun id hid =>
        ⟨_, getElem?_eq_some_getElem (mem_keys.mp hid)⟩
    have hdecrypts := decrypts_iff hunlocked hmaster h hids
    by_cases hrest : rest = []
    · have hr : r = (.ok (), (persist ⟨m.fs, { m.inner with
          keys := keys, masterKey := some key }⟩).2) := by
        simp only [r, rotateMasterKey, hunlocked, hmaster]
        rw [hloop, hres.mpr hrest]
        rfl
      rw [hr]
      refine .inl ⟨hdecrypts.mpr hrest, rfl, rfl, rfl, load_eq hunlocked hmaster h hids
        hunlocked rfl rfl hrest, fun id e he => ?_⟩
      have hid : id ∈ done := by
        rw [← List.append_nil done, ← hrest, ← hids, mem_keys, mem_iff_isSome_getElem?, he]
        rfl
      obtain ⟨e', plain, he', hplain, hkey⟩ := load_renewed hunlocked hmaster h hid
      cases he.symm.trans he'
      exact ⟨plain, hplain, hkey⟩
    · obtain ⟨err, rfl⟩ : ∃ err, result = .error err := by
        cases result with
        | ok => exact absurd (hres.mp rfl) hrest
        | error err => exact ⟨err, rfl⟩
      have hr : r = (.error err, ⟨m.fs, { m.inner with keys := keys }⟩) := by
        simp only [r, rotateMasterKey, hunlocked, hmaster]
        rw [hloop]
        rfl
      rw [hr]
      exact .inr ⟨hdecrypts.not.mpr hrest, ⟨err, rfl⟩, fun _ => rfl,
        load_iff hunlocked hmaster h hids hunlocked rfl hmaster rfl hrest⟩
  · have hr : r = (.error .notUnlocked, m) := by
      simp only [r, rotateMasterKey]
      grind
    have hlocked : ∀ id, m.load c id = .error .notUnlocked := by
      simp only [load]
      grind
    rw [hr]
    exact .inr ⟨fun h => hopen ⟨h.1, h.2.1⟩, ⟨_, rfl⟩, fun _ => rfl, by simp [StillOpens, hlocked]⟩

def keyed : Crypto where
  sha256 data := .replicate 32 (data.headD 0)
  aeadSeal key _ _ plain := plain ++ key.toList.take 16
  aeadOpen key _ _ cipher :=
    if cipher.drop (cipher.length - 16) = key.toList.take 16
    then some (cipher.take (cipher.length - 16)) else none
  open_seal key _ _ plain := by simp
  length_seal key _ _ plain := by simp

/-- A key is stored under one passphrase, and one more under another after a restart. -/
def twoPassphrases : KeystoreManager :=
  let stored := (init keyed sampleDecoder ⟨fun _ => none, .new {}⟩ "first").store keyed 0 "b" ""
    .raw32 (List.replicate 32 2)
  ((init keyed sampleDecoder ⟨stored.2.fs, .new {}⟩ "old").store keyed 1 "a" "" .raw32
    (List.replicate 32 1)).2

/-- Key "a" is encrypted anew, key "b" does not decrypt, and "a" is out of reach. -/
theorem failed_rotation_loses_key :
    twoPassphrases.load keyed "a" = .ok (List.replicate 32 1) ∧
      let r := twoPassphrases.rotateMasterKey keyed "new"
      r.1 = .error .decryptionFailed ∧ r.2.load keyed "a" = .error .decryptionFailed := by
  decide +kernel

end KeystoreManager

end IonaOs.Security
