import IonaOs.Consensus.Sample

/-!
# The kernel bridge
-/

namespace IonaOs

open Lib UInt64

/-! ## User memory -/

abbrev UserMemory := UInt64 → UInt8

/-- `user_access::USER_SPACE_MAX`. -/
def userSpaceMax : UInt64 := 0x0000800000000000

/-- `user_access::check_user_range`. -/
def checkUserRange (ptr len : UInt64) : Bool :=
  if ptr = 0 then false
  else if userSpaceMax ≤ ptr then false
  else if len > 0 then ptr.toNat + len.toNat < 2 ^ 64 && ptr + len ≤ userSpaceMax
  else true

/-- `user_access::copy_from_user` into a buffer of `len` bytes. -/
def copyFromUser (mem : UserMemory) (len : ℕ) (srcUser : UInt64) : Except String (List UInt8) :=
  if !checkUserRange srcUser (ofNat len) then .error "EFAULT: bad user pointer"
  else .ok ((List.range len).map fun i => mem (srcUser + ofNat i))

/-! ## The certificate -/

structure KernelCommitCert where
  height : UInt64
  voteCount : UInt32
  quorum : UInt32
  votesHash : Hash32
  valsetHash : Hash32
deriving DecidableEq

namespace KernelCommitCert

/-- `size_of::<KernelCommitCert>()`. -/
def size : ℕ := 80

/-- The fields where `repr(C)` has them, little endian. -/
def readUnaligned (buf : List UInt8) : KernelCommitCert where
  height := ofNat (leNat (buf.take 8))
  voteCount := UInt32.ofNat (leNat ((buf.drop 8).take 4))
  quorum := UInt32.ofNat (leNat ((buf.drop 12).take 4))
  votesHash := .ofFn fun i => buf.getD (16 + i) 0
  valsetHash := .ofFn fun i => buf.getD (48 + i) 0

def bytes (cert : KernelCommitCert) : List UInt8 :=
  le64 cert.height ++ le32 cert.voteCount ++ le32 cert.quorum ++ cert.votesHash.toList ++
    cert.valsetHash.toList

end KernelCommitCert

/-- `load_commit_cert`. -/
def loadCommitCert (mem : UserMemory) (ptr : UInt64) : Option KernelCommitCert :=
  if ptr = 0 then none
  else if !checkUserRange ptr (ofNat KernelCommitCert.size) then none
  else
    match copyFromUser mem KernelCommitCert.size ptr with
    | .error _ => none
    | .ok buf => some (.readUnaligned buf)

/-- `verify_commit_cert`. -/
def verifyCommitCert (cert : KernelCommitCert) (expectedHeight : UInt64) : Bool :=
  if cert.height ≠ expectedHeight then false
  else if cert.quorum = 0 then false
  else cert.quorum ≤ cert.voteCount

/-! ## The system call -/

def padded (width : ℕ) (digits : List Char) : String :=
  String.ofList (List.replicate (width - digits.length) '0' ++ digits)

/-- `persist_committed_block`: the path and the contents of the file it writes. -/
def persistCommittedBlock (height : UInt64) (validatorId certVotes : UInt32) (ts : UInt64) :
    String × String :=
  ("/var/iona-node/blocks/" ++ padded 10 (Nat.toDigits 10 height.toNat),
    "\x7b\"h\":" ++ toString height ++ ",\"ts\":" ++ toString ts ++ ",\"val\":" ++
      toString validatorId ++ ",\"votes\":" ++ toString certVotes ++ ",\"hash\":\"0x" ++
      padded 4 (Nat.toDigits 16 ((height * 1009) % 0xFFFF).toNat) ++
      padded 4 (Nat.toDigits 16 ((height * 7919) % 0xFFFF).toNat) ++ "\"\x7d")

structure Tick where
  engine : Option Engine
  result : UInt64
  written : Option (String × String)

/-- Whether `advance_tick` takes the height to be committed. -/
def Engine.admits (e : Engine) (certPtr : UInt32) (mem : UserMemory) : Bool :=
  if certPtr = 0 then (quorumThreshold e.vset.totalPower).toUInt32 ≤ e.vset.totalPower.toUInt32
  else
    match loadCommitCert mem certPtr.toUInt64 with
    | some cert => verifyCommitCert cert e.state.height
    | none => false

/-- The number of votes `advance_tick` writes to the file. -/
def Engine.certVotes (e : Engine) (certPtr : UInt32) (mem' : UserMemory) : UInt32 :=
  if certPtr = 0 then e.vset.totalPower.toUInt32
  else ((loadCommitCert mem' certPtr.toUInt64).map (·.voteCount)).getD e.vset.totalPower.toUInt32

/-- `advance_tick`; `uptimeMs` is the clock that the file's time is taken from. -/
def advanceTick (engine : Option Engine) (height round : UInt64) (step : UInt8) (certPtr : UInt32)
    (mem mem' : UserMemory) (uptimeMs : UInt64) : Tick :=
  match engine with
  | none => ⟨none, 0, none⟩
  | some e =>
    if height ≠ e.state.height then ⟨some e, 0, none⟩
    else
      let e := { e with state := { e.state with round := round.toUInt32 } }
      if step ≠ 3 then ⟨some e, 0, none⟩
      else if e.vset.totalPower = 0 then ⟨some e, 0, none⟩
      else if e.admits certPtr mem then
        let h := e.state.height
        ⟨some { e with state := { e.state with height := satAdd h 1, round := 0 } }, h,
          some (persistCommittedBlock h 0 (e.certVotes certPtr mem') uptimeMs)⟩
      else ⟨some e, 0, none⟩

/-! ## What the gate lets through -/

/-- The purpose of the gate, for a call made to `e` with `mem` at hand: the height goes up only
with a certificate for it that has the votes of a quorum of the validator set, and a call that
commits nothing changes nothing. -/
structure Tick.Gated (t : Tick) (e : Engine) (certPtr : UInt32) (mem : UserMemory) : Prop where
  certified : ∀ e', t.engine = some e' → e.state.height < e'.state.height →
    ∃ cert, loadCommitCert mem certPtr.toUInt64 = some cert ∧ cert.height = e.state.height ∧
      (quorumThreshold e.vset.totalPower).toNat ≤ cert.voteCount.toNat
  unchanged : t.written = none → t.engine = some e

namespace Engine

variable (e : Engine) (round : UInt64) (step : UInt8) (certPtr : UInt32) (mem : UserMemory)

def AsksCommit : Prop := step = 3 ∧ e.vset.totalPower ≠ 0

/-- A commit is asked for without a certificate, and the low 32 bits of the set's power are no less
than those of the threshold, as they are for every power below `2 ^ 32`. -/
def Uncertified : Prop :=
  e.AsksCommit step ∧ certPtr = 0 ∧
    (quorumThreshold e.vset.totalPower).toUInt32 ≤ e.vset.totalPower.toUInt32

def Understated : Prop :=
  e.AsksCommit step ∧ certPtr ≠ 0 ∧ ∃ cert, loadCommitCert mem certPtr.toUInt64 = some cert ∧
    verifyCommitCert cert e.state.height = true ∧
    cert.voteCount.toNat < (quorumThreshold e.vset.totalPower).toNat

def MovesRound : Prop :=
  round.toUInt32 ≠ e.state.round ∧ ¬ (e.AsksCommit step ∧ e.admits certPtr mem = true)

end Engine

section

variable {e : Engine} {round : UInt64} {step : UInt8} {certPtr : UInt32} {mem mem' : UserMemory}
  {uptimeMs : UInt64}

theorem advanceTick_of_ne {height : UInt64} (h : height ≠ e.state.height) :
    advanceTick (some e) height round step certPtr mem mem' uptimeMs = ⟨some e, 0, none⟩ := by
  simp [advanceTick, h]

theorem advanceTick_of_refused (h : ¬ (e.AsksCommit step ∧ e.admits certPtr mem = true)) :
    advanceTick (some e) e.state.height round step certPtr mem mem' uptimeMs =
      ⟨some { e with state := { e.state with round := round.toUInt32 } }, 0, none⟩ := by
  simp only [advanceTick, ne_eq, not_true_eq_false, if_false]
  by_cases hstep : step ≠ 3
  · rw [if_pos hstep]
  by_cases hpower : e.vset.totalPower = 0
  · rw [if_neg hstep, if_pos hpower]
  rw [if_neg hstep, if_neg hpower, if_neg]
  intro hadmits
  exact h ⟨⟨not_not.mp hstep, hpower⟩, hadmits⟩

theorem lt_satAdd_one_iff (h : UInt64) : h < satAdd h 1 ↔ h ≠ ofNat (2 ^ 64 - 1) := by
  have hlt := h.toNat_lt
  rw [UInt64.lt_iff_toNat_lt, toNat_satAdd, ne_eq, ← UInt64.toNat_inj]
  simp only [UInt64.toNat_one, UInt64.toNat_ofNat', Nat.reducePow, Nat.reduceSub, Nat.reduceMod]
  omega

theorem admits_iff : e.admits certPtr mem = true ↔
    (certPtr = 0 ∧ (quorumThreshold e.vset.totalPower).toUInt32 ≤ e.vset.totalPower.toUInt32) ∨
      (certPtr ≠ 0 ∧ ∃ cert, loadCommitCert mem certPtr.toUInt64 = some cert ∧
        verifyCommitCert cert e.state.height = true) := by
  by_cases hptr : certPtr = 0
  · simp [Engine.admits, hptr]
  · cases hload : loadCommitCert mem certPtr.toUInt64 <;> simp [Engine.admits, hptr, hload]

theorem gated_same : (Tick.mk (some e) 0 none).Gated e certPtr mem where
  certified := by
    rintro e' ⟨⟩ hlt
    exact absurd hlt (UInt64.lt_irrefl _)
  unchanged _ := rfl

theorem gated_granted_iff (hasks : e.AsksCommit step) (hadmits : e.admits certPtr mem = true) :
    (advanceTick (some e) e.state.height round step certPtr mem mem' uptimeMs).Gated e certPtr mem ↔
      (e.state.height ≠ ofNat (2 ^ 64 - 1) →
        ¬ e.Uncertified step certPtr ∧ ¬ e.Understated step certPtr mem) := by
  obtain ⟨rfl, hpower⟩ := id hasks
  simp only [advanceTick, ne_eq, not_true_eq_false, if_false, hpower]
  have hgrant : Engine.admits { e with state := { e.state with round := round.toUInt32 } } certPtr
    mem = true := hadmits
  rw [if_pos hgrant]
  constructor
  · rintro ⟨hcert, -⟩ hmax
    obtain ⟨cert, hload, -, hquorum⟩ := hcert _ rfl ((lt_satAdd_one_iff _).mpr hmax)
    constructor
    · rintro ⟨-, rfl, -⟩
      simp [loadCommitCert] at hload
    rintro ⟨-, -, cert', hload', -, hshort⟩
    rw [hload] at hload'
    cases hload'
    omega
  · intro hkinds
    refine ⟨?_, by simp⟩
    rintro e' ⟨⟩ hlt
    obtain ⟨huncert, hunder⟩ := hkinds ((lt_satAdd_one_iff _).mp hlt)
    rcases admits_iff.mp hadmits with ⟨hptr, hle⟩ | ⟨hptr, cert, hload, hverify⟩
    · exact absurd ⟨hasks, hptr, hle⟩ huncert
    · have hheight : cert.height = e.state.height := by
        by_contra hne
        simp [verifyCommitCert, hne] at hverify
      refine ⟨cert, hload, hheight, ?_⟩
      by_contra hshort
      exact hunder ⟨hasks, hptr, cert, hload, hverify, by omega⟩

theorem gated_refused_iff (hrefused : ¬ (e.AsksCommit step ∧ e.admits certPtr mem = true)) :
    (advanceTick (some e) e.state.height round step certPtr mem mem' uptimeMs).Gated e certPtr mem ↔
      ¬ e.MovesRound round step certPtr mem := by
  rw [advanceTick_of_refused hrefused]
  constructor
  · rintro ⟨-, hsame⟩ ⟨hround, -⟩
    have heq := Option.some.inj (hsame rfl)
    exact hround (congrArg (fun e' : Engine => e'.state.round) heq)
  · intro hround
    have heq : round.toUInt32 = e.state.round := by
      by_contra hne
      exact hround ⟨hne, hrefused⟩
    rw [heq]
    exact gated_same

/-- **The kernel commit gate.**  A call does what the gate is for if and only if it is for another
height than the engine's, or it does not ask for a commit without a certificate that would raise
the height, or with a certificate that falls short of the set's quorum, and it names the current
round unless it commits. -/
theorem advanceTick_gated_iff (e : Engine) (height round : UInt64) (step : UInt8)
    (certPtr : UInt32) (mem mem' : UserMemory) (uptimeMs : UInt64) :
    (advanceTick (some e) height round step certPtr mem mem' uptimeMs).Gated e certPtr mem ↔
      height ≠ e.state.height ∨
        (height ≠ ofNat (2 ^ 64 - 1) →
          ¬ e.Uncertified step certPtr ∧ ¬ e.Understated step certPtr mem) ∧
        ¬ e.MovesRound round step certPtr mem := by
  by_cases hheight : height ≠ e.state.height
  · rw [advanceTick_of_ne hheight]
    exact iff_of_true gated_same (.inl hheight)
  obtain rfl : height = e.state.height := not_not.mp hheight
  rw [or_iff_right hheight]
  by_cases hgrant : e.AsksCommit step ∧ e.admits certPtr mem = true
  · -- The call commits: the round is not at issue, and what admitted it decides.
    have hround : ¬ e.MovesRound round step certPtr mem := fun h => h.2 hgrant
    rw [gated_granted_iff hgrant.1 hgrant.2, and_iff_left hround]
  · -- The call is refused: only the round can have changed.
    have huncert : ¬ e.Uncertified step certPtr := fun h =>
      hgrant ⟨h.1, admits_iff.mpr (.inl h.2)⟩
    have hunder : ¬ e.Understated step certPtr mem :=
      fun ⟨hstep, hptr, cert, hload, hverify, _⟩ =>
        hgrant ⟨hstep, admits_iff.mpr (.inr ⟨hptr, cert, hload, hverify⟩)⟩
    rw [gated_refused_iff hgrant, and_iff_right fun _ => ⟨huncert, hunder⟩]

end

def UserMemory.holding (ptr : UInt64) (cert : KernelCommitCert) : UserMemory :=
  fun a => cert.bytes.getD (a - ptr).toNat 0

def KernelCommitCert.lone : KernelCommitCert := ⟨0, 1, 1, .replicate 32 0, .replicate 32 0⟩

/-- An engine of the validators with powers 3, 4 and 3, whose quorum is 7, commits height 0 on a
certificate with a single vote, and with none at all; and a call that commits nothing moves it to
round 9. -/
theorem advanceTick_lone_commits : ∃ e : Engine, e = (Sample.node none).toEngine ∧
    loadCommitCert (.holding 4096 .lone) 4096 = some .lone ∧
    KernelCommitCert.lone.voteCount.toNat < (quorumThreshold e.vset.totalPower).toNat ∧
    (advanceTick (some e) 0 0 3 4096 (.holding 4096 .lone) (.holding 4096 .lone) 0).engine.map
      (·.state.height) = some 1 ∧
    (advanceTick (some e) 0 0 3 0 (.holding 4096 .lone) (.holding 4096 .lone) 0).engine.map
      (·.state.height) = some 1 ∧
    (advanceTick (some e) 0 9 2 0 (.holding 4096 .lone) (.holding 4096 .lone) 0).written = none ∧
    (advanceTick (some e) 0 9 2 0 (.holding 4096 .lone) (.holding 4096 .lone) 0).engine.map
      (·.state.round) = some 9 ∧ e.state.round = 0 :=
  ⟨_, rfl, by decide +kernel, by decide +kernel, by decide +kernel, by decide +kernel, rfl, rfl,
    rfl⟩

/-! ## What the calls of `user_access` touch -/

inductive UserCall where
  | copyFromUser (len srcUser : UInt64)
  | copyToUser (dstUser len : UInt64)
  | getUserU64 (addr : UInt64)
  | putUserU64 (addr : UInt64)
  | copyCstrFromUser (ptr : UInt64)

/-- The bytes that the loop of `copy_cstr_from_user` reads in `turns` turns.  A zero and a byte that
is not ASCII end it. -/
def cstrReads (mem : UserMemory) (ptr : UInt64) : ℕ → ℕ
  | 0 => 0
  | turns + 1 => if mem ptr = 0 ∨ 128 ≤ mem ptr then 1 else cstrReads mem (ptr + 1) turns + 1

/-- The addresses of `n` bytes, if a check of `len` bytes passes. -/
def checkedBytes (ptr len : UInt64) (n : ℕ) : List UInt64 :=
  if checkUserRange ptr len then (List.range n).map fun i => ptr + .ofNat i else []

namespace UserCall

def touches (mem : UserMemory) : UserCall → List UInt64
  | copyFromUser len ptr | copyToUser ptr len => checkedBytes ptr len len.toNat
  | getUserU64 addr | putUserU64 addr => checkedBytes addr 8 8
  | copyCstrFromUser ptr => checkedBytes ptr 1 (cstrReads mem ptr 4095)

/-- A string that passes the check ends below the limit. -/
def EndsBelow (mem : UserMemory) : UserCall → Prop
  | copyCstrFromUser ptr =>
    checkUserRange ptr 1 = true → ptr.toNat + cstrReads mem ptr 4095 ≤ userSpaceMax.toNat
  | _ => True

end UserCall

variable {ptr len : UInt64}

theorem checkUserRange_iff : checkUserRange ptr len = true ↔ 0 < ptr.toNat ∧
    ptr.toNat < userSpaceMax.toNat ∧ ptr.toNat + len.toNat ≤ userSpaceMax.toNat := by
  have hmax : userSpaceMax.toNat = 2 ^ 47 := rfl
  have hptr := ptr.toNat_lt
  have hzero : ptr = 0 ↔ ptr.toNat = 0 := UInt64.toNat_inj.symm
  simp only [checkUserRange, hzero, le_iff_toNat_le, gt_iff_lt, UInt64.lt_iff_toNat_lt,
    UInt64.toNat_add, UInt64.toNat_zero, hmax]
  split_ifs <;> simp <;> omega

theorem cstrReads_le (mem : UserMemory) (ptr : UInt64) (turns : ℕ) :
    cstrReads mem ptr turns ≤ turns := by
  induction turns generalizing ptr with
  | zero => exact le_rfl
  | succ turns ih =>
    rw [cstrReads]
    split
    · omega
    · exact Nat.succ_le_succ (ih _)

theorem checkedBytes_user_iff {n : ℕ} (hn : n < 2 ^ 63 ∨ n = len.toNat) :
    (∀ a ∈ checkedBytes ptr len n, 1 ≤ a.toNat ∧ a.toNat < userSpaceMax.toNat) ↔
    (checkUserRange ptr len = true → ptr.toNat + n ≤ userSpaceMax.toNat) := by
  unfold checkedBytes
  split_ifs with hcheck
  · obtain ⟨hpos, hlt, hle⟩ := checkUserRange_iff.mp hcheck
    have hmax : userSpaceMax.toNat = 2 ^ 47 := rfl
    have haddr : ∀ i < n, (ptr + .ofNat i).toNat = ptr.toNat + i := by
      intro i hi
      rw [UInt64.toNat_add, UInt64.toNat_ofNat']
      omega
    simp only [List.forall_mem_map, List.mem_range, hcheck, true_implies]
    refine ⟨fun hall => ?_, fun hend i hi => ?_⟩
    · by_contra hover
      have hlast := hall (n - 1) (by omega)
      rw [haddr _ (by omega)] at hlast
      omega
    · rw [haddr i hi]
      omega
  · simp [hcheck]

/-- **User memory.**  The range check does not wrap, and a call touches user memory only, exactly if
a string that it copies ends below the limit. -/
theorem touches_user_iff (mem : UserMemory) (call : UserCall) :
    (∀ ptr len, checkUserRange ptr len = true ↔ 0 < ptr.toNat ∧
      ptr.toNat < userSpaceMax.toNat ∧ ptr.toNat + len.toNat ≤ userSpaceMax.toNat) ∧
    ((∀ a ∈ call.touches mem, 1 ≤ a.toNat ∧ a.toNat < userSpaceMax.toNat) ↔
      call.EndsBelow mem) := by
  refine ⟨fun _ _ => checkUserRange_iff, ?_⟩
  cases call with
  | copyFromUser | copyToUser | getUserU64 | putUserU64 =>
    exact iff_true_intro
      ((checkedBytes_user_iff (.inr rfl)).mpr fun h => (checkUserRange_iff.mp h).2.2)
  | copyCstrFromUser ptr =>
    exact checkedBytes_user_iff (.inl ((cstrReads_le mem ptr 4095).trans_lt (by decide)))

/-- A string without an end begins at the last byte of user memory. -/
theorem string_leaves_user_memory : ∃ call, call = UserCall.copyCstrFromUser 0x7fffffffffff ∧
    0x800000000000 ∈ call.touches fun _ => 97 :=
  ⟨_, rfl, by decide +kernel⟩

end IonaOs
