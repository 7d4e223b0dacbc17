import IonaOs.Lib.Run
import IonaOs.Money

/-!
# Nonces over a run of transactions
-/

namespace IonaOs

open Lib

/-- The arguments of a call of `apply_tx`, without the state. -/
structure Call where
  config : ExecutionConfig
  tx : Tx
  baseFee : UInt64
  proposerAddr : String

open Call

def KvState.nonce (s : KvState) (addr : String) : ℕ := (s.nonces[addr]?.getD 0).toNat

section

variable (P : Primitives)

def Call.sender (c : Call) : String := P.deriveAddress c.tx.pubkey

def Call.apply (s : KvState) (c : Call) : Except ExecutionError (Receipt × KvState) :=
  applyTx P c.config s c.tx c.baseFee c.proposerAddr

def Call.next (s : KvState) (c : Call) : KvState :=
  match c.apply P s with
  | .ok (_, s') => s'
  | .error _ => s

def accepted : KvState → List Call → List (String × ℕ)
  | _, [] => []
  | s, c :: cs =>
    if (c.apply P s).isOk then (c.sender P, c.tx.nonce.toNat) :: accepted (c.next P s) cs
    else accepted (c.next P s) cs

def acceptedFrom (s : KvState) (cs : List Call) (addr : String) : List ℕ :=
  ((accepted P s cs).filter (·.1 = addr)).map (·.2)

def EvmLowersNoNonce : Prop :=
  ∀ s bytes baseFee chainId gasLimit s' result,
    P.executeEvm s bytes baseFee chainId gasLimit = some (s', result) →
      ∀ addr, s.nonce addr ≤ s'.nonce addr

def CountsUp (s : KvState) (c : Call) : Prop :=
  (c.apply P s).isOk = true → s.nonce (c.sender P) + 1 < 2 ^ 64
deriving Decidable

def RunsClear (s : KvState) (c : Call) : Prop :=
  (c.apply P s).isOk = true →
    let working := chargedState s c.tx c.baseFee c.proposerAddr (c.sender P)
    ∀ addr, (runPayload P c.config working c.tx c.baseFee (intrinsicGas c.tx)).1.nonce addr =
      working.nonce addr

end

/-! ## One call -/

section

variable {P : Primitives} {s s' : KvState} {c : Call} {receipt : Receipt} {addr : String}

theorem nonce_chargedState {tx : Tx} {baseFee : UInt64} {proposerAddr fromAddr : String}
    (h : s.nonce fromAddr + 1 < 2 ^ 64) :
    (chargedState s tx baseFee proposerAddr fromAddr).nonce addr =
      s.nonce addr + if fromAddr = addr then 1 else 0 := by
  simp only [KvState.nonce, chargedState] at h ⊢
  rw [getD_insert]
  by_cases heq : fromAddr = addr
  · subst heq
    simp only [if_true, UInt64.toNat_add, UInt64.reduceToNat]
    omega
  · simp [heq]

theorem nonce_le_runPayload (hevm : EvmLowersNoNonce P) (cfg : ExecutionConfig) (s : KvState)
    (tx : Tx) (baseFee intrinsic : UInt64) (addr : String) :
    s.nonce addr ≤ (runPayload P cfg s tx baseFee intrinsic).1.nonce addr := by
  unfold runPayload
  split
  · cases hrun : executeEvmPayload P cfg s tx baseFee cfg.chainId with
    | error => exact le_rfl
    | ok result =>
      simp only [executeEvmPayload] at hrun
      split at hrun
      · cases hrun
      split at hrun
      · cases hrun
      rename_i heq
      cases hrun
      obtain ⟨bytes, -, hbytes⟩ := Option.bind_eq_some_iff.mp heq
      exact hevm _ _ _ _ _ _ _ hbytes addr
  · cases applyKvPayload s.kv tx.payload with
    | error e | ok kv => exact le_rfl

theorem nonce_of_apply (h : c.apply P s = .ok (receipt, s')) :
    c.tx.nonce.toNat = s.nonce (c.sender P) := by
  rw [(applyTx_ok P c.config h).1]
  rfl

theorem nonce_le_apply (hevm : EvmLowersNoNonce P) (hup : CountsUp P s c)
    (h : c.apply P s = .ok (receipt, s')) (addr : String) :
    s.nonce addr + (if c.sender P = addr then 1 else 0) ≤ s'.nonce addr := by
  have hlt := hup (by rw [h]; rfl)
  have hrun := nonce_le_runPayload hevm c.config
    (chargedState s c.tx c.baseFee c.proposerAddr (c.sender P)) c.tx c.baseFee
    (intrinsicGas c.tx) addr
  rw [nonce_chargedState hlt] at hrun
  refine hrun.trans_eq ?_
  simp only [KvState.nonce, (applyTx_runPayload P c.config h).1]
  rfl

theorem nonce_apply (hup : CountsUp P s c) (hclear : RunsClear P s c)
    (h : c.apply P s = .ok (receipt, s')) :
    s'.nonce addr = s.nonce addr + if c.sender P = addr then 1 else 0 := by
  have hok : (c.apply P s).isOk = true := by rw [h]; rfl
  rw [KvState.nonce, (applyTx_runPayload P c.config h).1, ← nonce_chargedState (hup hok)]
  exact hclear hok addr

end

/-! ## Runs -/

section

variable {P : Primitives} {s s' : KvState} {c : Call} {cs : List Call} {receipt : Receipt}

theorem Call.next_of_ok (h : c.apply P s = .ok (receipt, s')) : c.next P s = s' := by
  simp [next, h]

theorem Call.next_of_error {e : ExecutionError} (h : c.apply P s = .error e) : c.next P s = s := by
  simp [next, h]

theorem accepted_cons_ok (h : c.apply P s = .ok (receipt, s')) :
    accepted P s (c :: cs) = (c.sender P, s.nonce (c.sender P)) :: accepted P s' cs := by
  simp [accepted, h, next_of_ok h, nonce_of_apply h, Except.isOk, Except.toBool]

theorem accepted_cons_error {e : ExecutionError} (h : c.apply P s = .error e) :
    accepted P s (c :: cs) = accepted P s cs := by
  simp [accepted, h, next_of_error h, Except.isOk, Except.toBool]

theorem nonce_le_of_mem (hevm : EvmLowersNoNonce P) (hup : Along (next P) (CountsUp P) s cs)
    {x : String × ℕ} (hx : x ∈ accepted P s cs) : s.nonce x.1 ≤ x.2 := by
  induction cs generalizing s with
  | nil => simp [accepted] at hx
  | cons c _ ih =>
    have hrest := hup.2
    cases h : c.apply P s with
    | error =>
      rw [next_of_error h] at hrest
      rw [accepted_cons_error h] at hx
      exact ih hrest hx
    | ok =>
      rw [next_of_ok h] at hrest
      rw [accepted_cons_ok h] at hx
      rcases List.mem_cons.mp hx with heq | hx
      · rw [heq]
      · have hle := nonce_le_apply hevm hup.1 h x.1
        have hlater := ih hrest hx
        omega

theorem accepted_nodup (hevm : EvmLowersNoNonce P)
    (hup : Along (next P) (CountsUp P) s cs) : (accepted P s cs).Nodup := by
  induction cs generalizing s with
  | nil => simp [accepted]
  | cons c _ ih =>
    have hrest := hup.2
    cases h : c.apply P s with
    | error =>
      rw [next_of_error h] at hrest
      rw [accepted_cons_error h]
      exact ih hrest
    | ok r =>
      rw [next_of_ok h] at hrest
      rw [accepted_cons_ok h, List.nodup_cons]
      refine ⟨?_, ih hrest⟩
      -- The counter has passed this nonce, and what follows is accepted from there on.
      intro hmem
      have hle : r.2.nonce (c.sender P) ≤ s.nonce (c.sender P) := nonce_le_of_mem hevm hrest hmem
      have hstep := nonce_le_apply hevm hup.1 h (c.sender P)
      rw [if_pos rfl] at hstep
      omega

theorem acceptedFrom_eq_range (hup : Along (next P) (CountsUp P) s cs)
    (hclear : Along (next P) (RunsClear P) s cs) (addr : String) :
    acceptedFrom P s cs addr = List.range' (s.nonce addr) (acceptedFrom P s cs addr).length := by
  induction cs generalizing s with
  | nil => simp [acceptedFrom, accepted]
  | cons c cs ih =>
    have huprest := hup.2
    have hclearrest := hclear.2
    cases h : c.apply P s with
    | error =>
      rw [next_of_error h] at huprest hclearrest
      have hsame : acceptedFrom P s (c :: cs) addr = acceptedFrom P s cs addr := by
        rw [acceptedFrom, accepted_cons_error h, acceptedFrom]
      rw [hsame]
      exact ih huprest hclearrest
    | ok r =>
      rw [next_of_ok h] at huprest hclearrest
      have hlater := ih huprest hclearrest
      rw [nonce_apply hup.1 hclear.1 h] at hlater
      by_cases hsender : c.sender P = addr
      · have hcons : acceptedFrom P s (c :: cs) addr =
            s.nonce addr :: acceptedFrom P r.2 cs addr := by
          simp [acceptedFrom, accepted_cons_ok h, hsender]
        rw [if_pos hsender] at hlater
        rw [hcons, List.length_cons, List.range'_succ, ← hlater]
      · have hsame : acceptedFrom P s (c :: cs) addr = acceptedFrom P r.2 cs addr := by
          simp [acceptedFrom, accepted_cons_ok h, hsender]
        rw [if_neg hsender, Nat.add_zero] at hlater
        rw [hsame]
        exact hlater

end

/-- **No replay.**  If the EVM lowers no nonce and no transaction is accepted with the last nonce,
no sender and nonce are accepted twice; and if the payloads leave the nonces alone as well, the
nonces that are accepted from an account are consecutive, from the one that it starts with. -/
theorem accepted_unique (P : Primitives) (hevm : EvmLowersNoNonce P) (s : KvState) (cs : List Call)
    (hup : Along (next P) (CountsUp P) s cs) :
    (accepted P s cs).Nodup ∧
      (Along (next P) (RunsClear P) s cs → ∀ addr,
        acceptedFrom P s cs addr =
          List.range' (s.nonce addr) (acceptedFrom P s cs addr).length) :=
  ⟨accepted_nodup hevm hup, acceptedFrom_eq_range hup⟩

/-! ### Samples -/

theorem runsClear_of_kv {P : Primitives} {s : KvState} {c : Call}
    (hkv : evmMarker.isPrefixOf c.tx.payload = false) : RunsClear P s c := by
  intro _ working addr
  obtain ⟨kv, success, hrun⟩ : ∃ kv success,
      runPayload P c.config working c.tx c.baseFee (intrinsicGas c.tx) =
        ({ working with kv }, success, [], 0) := runPayload_kv P c.config hkv
  rw [hrun]
  rfl

namespace Sample

/-- A call with the transaction of `test_apply_tx_kv` and the given nonce. -/
def setKeyAt (nonce : UInt64) : Call := ⟨{}, { setKey 100000 with nonce }, 10, "proposer"⟩

theorem oneAccount_lowersNoNonce : EvmLowersNoNonce oneAccount := by
  intro s bytes baseFee chainId gasLimit s' result h
  cases h

/-- The state of `test_apply_tx_kv`, with the last nonce. -/
def lastNonce : KvState := { aliceState with nonces := Std.ExtTreeMap.insert ∅ "alice" (-1) }

end Sample

open Sample in
/-- Two transactions in order, and one that comes back. -/
theorem accepted_unique_setKey : ∃ cs, cs = [setKeyAt 0, setKeyAt 1, setKeyAt 0] ∧
    (accepted oneAccount aliceState cs).Nodup ∧
      acceptedFrom oneAccount aliceState cs "alice" = [0, 1] := by
  have hunique := accepted_unique oneAccount oneAccount_lowersNoNonce aliceState
    [setKeyAt 0, setKeyAt 1, setKeyAt 0] (by decide +kernel)
  refine ⟨_, rfl, hunique.1, ?_⟩
  have hkv : ∀ s n, RunsClear oneAccount s (setKeyAt n) := fun s n => runsClear_of_kv rfl
  have hlength : (acceptedFrom oneAccount aliceState [setKeyAt 0, setKeyAt 1, setKeyAt 0]
    "alice").length = 2 := by decide +kernel
  rw [hunique.2 ⟨hkv _ _, hkv _ _, hkv _ _, trivial⟩ "alice", hlength]
  decide +kernel

open Sample in
/-- **After the last nonce comes zero.** -/
theorem accepted_wraps : ∃ cs, cs = [setKeyAt (-1), setKeyAt 0] ∧
    EvmLowersNoNonce oneAccount ∧ lastNonce.nonce "alice" = 2 ^ 64 - 1 ∧
    acceptedFrom oneAccount lastNonce cs "alice" = [2 ^ 64 - 1, 0] ∧
    acceptedFrom oneAccount lastNonce cs "alice" ≠ List.range' (lastNonce.nonce "alice") 2 := by
  have hrun : acceptedFrom oneAccount lastNonce [setKeyAt (-1), setKeyAt 0] "alice" =
      [2 ^ 64 - 1, 0] := by decide +kernel
  have hnonce : lastNonce.nonce "alice" = 2 ^ 64 - 1 := by decide +kernel
  refine ⟨_, rfl, oneAccount_lowersNoNonce, hnonce, hrun, ?_⟩
  rw [hrun, hnonce]
  decide

end IonaOs
