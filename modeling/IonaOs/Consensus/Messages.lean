import IonaOs.Lib.Word
import IonaOs.Types

/-!
# Consensus messages and the bytes that are signed
-/

namespace IonaOs

open Lib List

inductive VoteType where
  | prevote
  | precommit
deriving DecidableEq

/-- `VoteType::as_u8`. -/
def VoteType.asU8 : VoteType → UInt8
  | prevote => 0
  | precommit => 1

theorem VoteType.asU8_inj {s t : VoteType} (h : s.asU8 = t.asU8) : s = t := by
  cases s <;> cases t <;> first | rfl | exact absurd h (by decide)

/-- The derived order of `VoteType`: `Prevote < Precommit`. -/
instance : Ord VoteType := ⟨fun s t => compare s.asU8 t.asU8⟩

instance : Std.TransOrd VoteType where
  eq_swap {s t} := @Std.OrientedCmp.eq_swap _ compare _ s.asU8 t.asU8
  isLE_trans {r s t} := @Std.TransCmp.isLE_trans _ compare _ r.asU8 s.asU8 t.asU8

instance : Std.LawfulEqOrd VoteType where
  compare_self := Std.ReflCmp.compare_self
  eq_of_compare h := VoteType.asU8_inj (Std.LawfulEqOrd.eq_of_compare h)

structure Proposal where
  height : Height
  round : Round
  proposer : PublicKeyBytes
  blockId : Hash32
  block : Option Block
  polRound : Option Round
  signature : SignatureBytes
deriving DecidableEq

structure Vote where
  voteType : VoteType
  height : Height
  round : Round
  voter : PublicKeyBytes
  blockId : Option Hash32
  signature : SignatureBytes
deriving DecidableEq

inductive Evidence where
  | doubleVote (voter : PublicKeyBytes) (height : Height) (round : Round) (voteType : VoteType)
      (a b : Option Hash32) (voteA voteB : Vote)
  | doubleProposal (proposer : PublicKeyBytes) (height : Height) (round : Round)
      (a b : Option Hash32) (proposalA proposalB : Option Proposal)

inductive ConsensusMsg where
  | proposal (p : Proposal)
  | vote (v : Vote)
  | evidence (e : Evidence)

def proposalSignBytes (height : Height) (round : Round) (blockId : Hash32)
    (polRound : Option Round) : List UInt8 :=
  le64 height ++ le32 round ++ blockId.toList ++
    match polRound with
    | some pr => 1 :: le32 pr
    | none => [0]

def voteSignBytes (voteType : VoteType) (height : Height) (round : Round)
    (blockId : Option Hash32) : List UInt8 :=
  voteType.asU8 :: (le64 height ++ le32 round ++
    match blockId with
    | some bid => bid.toList
    | none => [])

/-- `Proposal::sign_bytes`. -/
def Proposal.signBytes (p : Proposal) : List UInt8 :=
  proposalSignBytes p.height p.round p.blockId p.polRound

/-- `Vote::sign_bytes`. -/
def Vote.signBytes (v : Vote) : List UInt8 :=
  voteSignBytes v.voteType v.height v.round v.blockId

def ConsensusMsg.signBytes : ConsensusMsg → Option (List UInt8)
  | proposal p => some p.signBytes
  | vote v => some v.signBytes
  | evidence _ => none

/-! ## What signed bytes determine -/

theorem voteSignBytes_inj {s t : VoteType} {h k : Height} {r q : Round} {x y : Option Hash32}
    (e : voteSignBytes s h r x = voteSignBytes t k q y) : s = t ∧ h = k ∧ r = q ∧ x = y := by
  simp only [voteSignBytes, cons.injEq, append_assoc] at e
  obtain ⟨htype, hrest⟩ := e
  obtain ⟨hheight, hrest⟩ := append_inj hrest (by simp)
  obtain ⟨hround, hblock⟩ := append_inj hrest (by simp)
  refine ⟨VoteType.asU8_inj htype, le64_inj hheight, le32_inj hround, ?_⟩
  cases x with
  | none =>
    cases y with
    | none => rfl
    | some => simpa using congrArg length hblock
  | some =>
    cases y with
    | none => simpa using congrArg length hblock
    | some => rw [Vector.toList_inj.mp hblock]

theorem proposalSignBytes_inj {h k : Height} {r q : Round} {a b : Hash32} {s t : Option Round}
    (e : proposalSignBytes h r a s = proposalSignBytes k q b t) : h = k ∧ r = q ∧ a = b := by
  simp only [proposalSignBytes, append_assoc] at e
  obtain ⟨hheight, hrest⟩ := append_inj e (by simp)
  obtain ⟨hround, hrest⟩ := append_inj hrest (by simp)
  obtain ⟨hblock, -⟩ := append_inj hrest (by simp)
  exact ⟨le64_inj hheight, le32_inj hround, Vector.toList_inj.mp hblock⟩

end IonaOs
