import IonaOs.Consensus.Messages

/-!
# Evidence of misbehaviour
-/

namespace IonaOs

structure EvidenceConfig where
  maxAge : Height := 100000
  slashFractionDoubleVote : UInt64 := 20
  slashFractionDoubleProposal : UInt64 := 20
  verifySignatures : Bool := true
  allowNilEquivocation : Bool := true

inductive EvidenceError where
  | duplicateMessages
  | heightMismatch (expected actual : Height)
  | roundMismatch (expected actual : Round)
  | voteTypeMismatch (expected actual : VoteType)
  | offenderMismatch
  | invalidSignature
  | sameBlock
  | sameProposal
  | staleEvidence (height maxAge : Height)
  | validatorNotFound
  | alreadyTombstoned
  | alreadyProcessed
  | incompleteEvidence
  | internal (reason : String)
  | divideByZero
deriving DecidableEq

inductive EvidenceType where
  | doubleVote
  | doubleProposal
deriving DecidableEq

structure EvidenceId where
  offender : PublicKeyBytes
  height : Height
  round : Round
  evType : EvidenceType
deriving DecidableEq

/-- An equivocation: who signed twice, in which slot, and as what; `kind` is the type of the
votes, and `none` for proposals. -/
structure Offence where
  offender : PublicKeyBytes
  height : Height
  round : Round
  kind : Option VoteType
deriving DecidableEq

def Evidence.offence : Evidence → Offence
  | doubleVote voter height round voteType _ _ _ _ => ⟨voter, height, round, some voteType⟩
  | doubleProposal proposer height round _ _ _ _ => ⟨proposer, height, round, none⟩

namespace Evidence

/-- `Evidence::offender`. -/
def offender : Evidence → PublicKeyBytes
  | doubleVote voter _ _ _ _ _ _ _ => voter
  | doubleProposal proposer _ _ _ _ _ _ => proposer

/-- `Evidence::height`. -/
def height : Evidence → Height
  | doubleVote _ h _ _ _ _ _ _ => h
  | doubleProposal _ h _ _ _ _ _ => h

/-- `Evidence::round`. -/
def round : Evidence → Round
  | doubleVote _ _ r _ _ _ _ _ => r
  | doubleProposal _ _ r _ _ _ _ => r

/-- `Evidence::slash_fraction`. -/
def slashFraction (cfg : EvidenceConfig) : Evidence → UInt64
  | doubleVote .. => cfg.slashFractionDoubleVote
  | doubleProposal .. => cfg.slashFractionDoubleProposal

/-- `Evidence::is_fresh`. -/
def isFresh (e : Evidence) (currentHeight maxAge : Height) : Bool :=
  Lib.satSub currentHeight e.height ≤ maxAge

/-- `Evidence::id`. -/
def id (e : Evidence) : EvidenceId :=
  ⟨e.offender, e.height, e.round, match e with
    | doubleVote .. => .doubleVote
    | doubleProposal .. => .doubleProposal⟩

/-- `Evidence::validate`, over the signature check of the verifier. -/
def validate (verify : PublicKeyBytes → List UInt8 → SignatureBytes → Bool)
    (cfg : EvidenceConfig) : Evidence → Except EvidenceError Unit
  | doubleVote voter height round voteType a b voteA voteB =>
    if voteA.voter ≠ voter ∨ voteB.voter ≠ voter then .error .offenderMismatch
    else if voteA.height ≠ height ∨ voteB.height ≠ height then
      .error (.heightMismatch height voteA.height)
    else if voteA.round ≠ round ∨ voteB.round ≠ round then
      .error (.roundMismatch round voteA.round)
    else if voteA.voteType ≠ voteType ∨ voteB.voteType ≠ voteType then
      .error (.voteTypeMismatch voteType voteA.voteType)
    else if voteA = voteB then .error .duplicateMessages
    else if a = b then .error .sameBlock
    else if !cfg.allowNilEquivocation && (a.isNone || b.isNone) then
      .error (.internal "nil equivocation not allowed")
    else if cfg.verifySignatures &&
        !(verify voter (voteSignBytes voteType height round voteA.blockId) voteA.signature &&
          verify voter (voteSignBytes voteType height round voteB.blockId) voteB.signature) then
      .error .invalidSignature
    else .ok ()
  | doubleProposal proposer height round a b proposalA proposalB =>
    match proposalA, proposalB with
    | some propA, some propB =>
      if propA.proposer ≠ proposer ∨ propB.proposer ≠ proposer then .error .offenderMismatch
      else if propA.height ≠ height ∨ propB.height ≠ height then
        .error (.heightMismatch height propA.height)
      else if propA.round ≠ round ∨ propB.round ≠ round then
        .error (.roundMismatch round propA.round)
      else if propA = propB then .error .duplicateMessages
      else if a = b then .error .sameProposal
      else if cfg.verifySignatures &&
          !(verify proposer (proposalSignBytes height round propA.blockId propA.polRound)
              propA.signature &&
            verify proposer (proposalSignBytes height round propB.blockId propB.polRound)
              propB.signature) then
        .error .invalidSignature
      else .ok ()
    | _, _ => .error .incompleteEvidence

def Faithful : Evidence → Prop
  | doubleVote _ _ _ _ a b voteA voteB => a = voteA.blockId ∧ b = voteB.blockId
  | doubleProposal _ _ _ a b proposalA proposalB =>
    a = proposalA.map (·.blockId) ∧ b = proposalB.map (·.blockId)

instance (e : Evidence) : Decidable e.Faithful := by
  cases e <;> exact instDecidableAnd

end Evidence

inductive Equivocated (signed : PublicKeyBytes → List UInt8 → Prop) (pk : PublicKeyBytes) : Prop
  | votes (voteType : VoteType) (height : Height) (round : Round) (x y : Option Hash32)
      (hne : x ≠ y) (hx : signed pk (voteSignBytes voteType height round x))
      (hy : signed pk (voteSignBytes voteType height round y))
  | proposals (height : Height) (round : Round) (x y : Hash32) (s t : Option Round)
      (hne : x ≠ y) (hx : signed pk (proposalSignBytes height round x s))
      (hy : signed pk (proposalSignBytes height round y t))

variable {verify : PublicKeyBytes → List UInt8 → SignatureBytes → Bool}
  {signed : PublicKeyBytes → List UInt8 → Prop}

theorem equivocated_of_validate (hsound : ∀ pk m sig, verify pk m sig = true → signed pk m)
    {e : Evidence} {cfg : EvidenceConfig} (hsig : cfg.verifySignatures = true)
    (hval : e.validate verify cfg = .ok ()) (hfaith : e.Faithful) :
    Equivocated signed e.offender := by
  cases e with
  | doubleVote voter height round voteType a b voteA voteB =>
    obtain ⟨rfl, rfl⟩ := hfaith
    simp only [Evidence.validate] at hval
    repeat' split at hval
    any_goals cases hval
    rename_i hne _ hver
    simp only [hsig, Bool.true_and, Bool.not_eq_true', Bool.not_eq_false, Bool.and_eq_true] at hver
    exact .votes voteType height round voteA.blockId voteB.blockId hne
      (hsound _ _ _ hver.1) (hsound _ _ _ hver.2)
  | doubleProposal proposer height round a b proposalA proposalB =>
    obtain ⟨rfl, rfl⟩ := hfaith
    simp only [Evidence.validate] at hval
    repeat' split at hval
    any_goals cases hval
    rename_i propA propB _ _ _ _ hne hver
    simp only [hsig, Bool.true_and, Bool.not_eq_true', Bool.not_eq_false, Bool.and_eq_true] at hver
    refine .proposals height round propA.blockId propB.blockId _ _ ?_
      (hsound _ _ _ hver.1) (hsound _ _ _ hver.2)
    intro heq
    exact hne (by simp [heq])

end IonaOs
