import IonaOs.Consensus.Messages

/-!
# Whether signed bytes tell proposals from votes
-/

namespace IonaOs

open Lib

inductive SignedContent where
  | proposal (height : Height) (round : Round) (blockId : Hash32) (polRound : Option Round)
  | vote (voteType : VoteType) (height : Height) (round : Round) (blockId : Option Hash32)
deriving DecidableEq

def SignedContent.signBytes : SignedContent → List UInt8
  | proposal height round blockId polRound => proposalSignBytes height round blockId polRound
  | vote voteType height round blockId => voteSignBytes voteType height round blockId

/-! ## Within a kind -/

theorem proposalSignBytes_inj_polRound {h k : Height} {r q : Round} {a b : Hash32}
    {s t : Option Round} (e : proposalSignBytes h r a s = proposalSignBytes k q b t) : s = t := by
  obtain ⟨rfl, rfl, rfl⟩ := proposalSignBytes_inj e
  simp only [proposalSignBytes, List.append_cancel_left_eq] at e
  cases s with
  | none =>
    cases t with
    | none => rfl
    | some => simp at e
  | some =>
    cases t with
    | none => simp at e
    | some => rw [le32_inj (List.cons.inj e).2]

/-! ## Across kinds -/

/-- The proposal of `height'`, `round'` and `blockId'` without a proof-of-lock round is the vote
shifted by a byte: each field takes over the last byte of the field before it, and the last byte of
the block id is the mark of a missing round. -/
structure Shifted (voteType : VoteType) (height : Height) (round : Round) (blockId : Hash32)
    (height' : Height) (round' : Round) (blockId' : Hash32) : Prop where
  height_eq : height'.toNat = voteType.asU8.toNat + 256 * (height.toNat % 256 ^ 7)
  round_eq : round'.toNat = height.toNat / 256 ^ 7 + 256 * (round.toNat % 256 ^ 3)
  blockId_eq : blockId'.toList = UInt8.ofNat (round.toNat / 256 ^ 3) :: blockId.toList.take 31
  mark : blockId.toList.drop 31 = [0]

theorem voteSignBytes_cut (t : VoteType) (h : Height) (r : Round) (b : Hash32) :
    voteSignBytes t h r (some b) = leBytes 8 (t.asU8.toNat + 256 * (h.toNat % 256 ^ 7)) ++
      leBytes 4 (h.toNat / 256 ^ 7 + 256 * (r.toNat % 256 ^ 3)) ++
      (UInt8.ofNat (r.toNat / 256 ^ 3) :: b.toList.take 31) ++ b.toList.drop 31 := by
  have hh := h.toNat_lt
  have hr := r.toNat_lt
  have hheight : le64 h = leBytes 7 h.toNat ++ [UInt8.ofNat (h.toNat / 256 ^ 7)] := by
    rw [le64, leBytes_add 7 1, leBytes_one (by omega)]
  have hround : le32 r = leBytes 3 r.toNat ++ [UInt8.ofNat (r.toNat / 256 ^ 3)] := by
    rw [le32, leBytes_add 3 1, leBytes_one (by omega)]
  have hbyte : (UInt8.ofNat (h.toNat / 256 ^ 7)).toNat = h.toNat / 256 ^ 7 := by
    rw [UInt8.toNat_ofNat', Nat.mod_eq_of_lt (by omega)]
  have hfirst := cons_leBytes 7 t.asU8 h.toNat
  have hsecond := cons_leBytes 3 (UInt8.ofNat (h.toNat / 256 ^ 7)) r.toNat
  rw [hbyte] at hsecond
  rw [← hfirst, ← hsecond]
  simp [voteSignBytes, hheight, hround]

theorem voteSignBytes_eq_proposalSignBytes_iff {t : VoteType} {h h' : Height} {r r' : Round}
    {b b' : Hash32} : voteSignBytes t h r (some b) = proposalSignBytes h' r' b' none ↔
      Shifted t h r b h' r' b' := by
  have hh := h.toNat_lt
  have hr := r.toNat_lt
  have ht : t.asU8.toNat < 256 := t.asU8.toNat_lt
  rw [voteSignBytes_cut]
  constructor
  · intro heq
    obtain ⟨heq, hmark⟩ := List.append_inj heq (by simp)
    obtain ⟨heq, hblock⟩ := List.append_inj heq (by simp)
    obtain ⟨hheight, hround⟩ := List.append_inj heq (by simp)
    refine ⟨?_, ?_, hblock.symm, hmark⟩
    · exact (leBytes_inj (by omega) (by have := h'.toNat_lt; omega) hheight).symm
    · exact (leBytes_inj (by omega) (by have := r'.toNat_lt; omega) hround).symm
  · intro hshift
    rw [← hshift.height_eq, ← hshift.round_eq, ← hshift.blockId_eq, hshift.mark]
    rfl

theorem length_eq_of_signBytes_eq {t : VoteType} {h h' : Height} {r r' : Round} {x : Option Hash32}
    {b' : Hash32} {s : Option Round} (heq : voteSignBytes t h r x = proposalSignBytes h' r' b' s) :
    (∃ b, x = some b) ∧ s = none := by
  have hlength := congrArg List.length heq
  cases x with
  | none => cases s <;> simp [voteSignBytes, proposalSignBytes] at hlength
  | some b =>
    cases s with
    | none => exact ⟨⟨b, rfl⟩, rfl⟩
    | some => simp [voteSignBytes, proposalSignBytes] at hlength

namespace SignedContent

inductive Collides : SignedContent → SignedContent → Prop
  | spells {t h r b h' r' b'} (hshift : Shifted t h r b h' r' b') :
      Collides (vote t h r (some b)) (proposal h' r' b' none)
  | spelled {t h r b h' r' b'} (hshift : Shifted t h r b h' r' b') :
      Collides (proposal h' r' b' none) (vote t h r (some b))

/-- A signature for `c` that a sound verifier accepts for `d` shows that the two are the same:
for every way to sign, and to verify, in which a signature is accepted only for the bytes it was
made for. -/
def SignatureBinds (c d : SignedContent) : Prop :=
  ∀ (sign : List UInt8 → SignatureBytes) (verify : List UInt8 → SignatureBytes → Bool),
    (∀ x y, verify x (sign y) = true ↔ x = y) → verify d.signBytes (sign c.signBytes) = true → c = d

theorem eq_of_signBytes_eq {c d : SignedContent} (heq : c.signBytes = d.signBytes)
    (h : ¬ c.Collides d) : c = d := by
  cases c with
  | proposal =>
    cases d with
    | proposal =>
      obtain ⟨hheight, hround, hblock⟩ := proposalSignBytes_inj heq
      rw [hheight, hround, hblock, proposalSignBytes_inj_polRound heq]
    | vote =>
      obtain ⟨⟨b, rfl⟩, rfl⟩ := length_eq_of_signBytes_eq heq.symm
      exact absurd (.spelled (voteSignBytes_eq_proposalSignBytes_iff.mp heq.symm)) h
  | vote =>
    cases d with
    | proposal =>
      obtain ⟨⟨b, rfl⟩, rfl⟩ := length_eq_of_signBytes_eq heq
      exact absurd (.spells (voteSignBytes_eq_proposalSignBytes_iff.mp heq)) h
    | vote =>
      obtain ⟨htype, hheight, hround, hblock⟩ := voteSignBytes_inj heq
      rw [htype, hheight, hround, hblock]

theorem signBytes_eq_of_collides {c d : SignedContent} (h : c.Collides d) :
    c.signBytes = d.signBytes ∧ c ≠ d := by
  cases h with
  | spells hshift => exact ⟨voteSignBytes_eq_proposalSignBytes_iff.mpr hshift, by simp⟩
  | spelled hshift => exact ⟨(voteSignBytes_eq_proposalSignBytes_iff.mpr hshift).symm, by simp⟩

/-- **Domain separation.**  The signed bytes tell two contents apart, and with them a signature
for one from a signature for the other, if and only if it is not the case that one is a vote for a
block and the other the proposal without a proof-of-lock round that it spells, shifted by a
byte. -/
theorem signBytes_separates_iff (c d : SignedContent) :
    ((c.signBytes = d.signBytes → c = d) ∧ c.SignatureBinds d) ↔ ¬ c.Collides d := by
  constructor
  · rintro ⟨hinj, -⟩ hcollides
    obtain ⟨heq, hne⟩ := signBytes_eq_of_collides hcollides
    exact hne (hinj heq)
  · intro h
    refine ⟨fun heq => eq_of_signBytes_eq heq h, fun sign verify hscheme hverify => ?_⟩
    exact eq_of_signBytes_eq ((hscheme _ _).mp hverify).symm h

/-- A prevote at height 0 for the block whose id is all zeros is signed with the bytes of a
proposal at height 0 without a proof-of-lock round. -/
theorem vote_spells_proposal :
    (vote .prevote 0 0 (some (.replicate 32 0))).signBytes =
      (proposal 0 0 (.replicate 32 0) none).signBytes ∧
    vote .prevote 0 0 (some (.replicate 32 0)) ≠ proposal 0 0 (.replicate 32 0) none :=
  ⟨by decide +kernel, by decide⟩

end SignedContent

end IonaOs
