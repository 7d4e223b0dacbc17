import IonaOs.Lib.Run
import IonaOs.Consensus.DoubleSign

/-!
# Histories of the double-sign guard
-/

namespace IonaOs

open DoubleSignGuard hiding observe persist prune record
open Lib Std.ExtTreeSet List

/-! ## The file -/

namespace DoubleSignGuard

variable (decode : List UInt8 → Except String SignedSet)

/-- `DoubleSignGuard::load`; the last key in the order of the set gives the highest height. -/
def load (g : DoubleSignGuard) : DoubleSignGuard × Except DoubleSignError Unit :=
  match g.file with
  | none => (g, .ok ())
  | some data =>
    match decode data with
    | .error e => (g, .error (.serialization e))
    | .ok signed =>
      let last := signed.toList.getLast?
      ({ g with signed, highestHeight := (last.map (·.height)).getD g.highestHeight }, .ok ())

/-- `DoubleSignGuard::with_config`, with what is in the file. -/
def withConfig (cfg : DoubleSignConfig) (file : Option (List UInt8)) : DoubleSignGuard :=
  let g : DoubleSignGuard := { signed := ∅, config := cfg, highestHeight := 0, file }
  if cfg.persist then (g.load decode).1 else g

@[simp] theorem load_config (g : DoubleSignGuard) : (g.load decode).1.config = g.config := by
  rw [load]
  repeat' split
  all_goals rfl

@[simp] theorem withConfig_config (cfg : DoubleSignConfig) (file : Option (List UInt8)) :
    (withConfig decode cfg file).config = cfg := by
  rw [withConfig]
  split <;> simp

end DoubleSignGuard

/-! ## Messages to sign -/

inductive Signing where
  | proposal (height : Height) (round : Round) (blockId : Hash32)
  | vote (voteType : VoteType) (height : Height) (round : Round) (blockId : Option Hash32)
deriving DecidableEq

namespace Signing

def key : Signing → SignedKey
  | proposal h r b => .proposal h r b
  | vote t h r b => .vote t.asU8 h r b

def height : Signing → Height
  | proposal h _ _ => h
  | vote _ h _ _ => h

def slot : Signing → Option VoteType × Height × Round
  | proposal h r _ => (none, h, r)
  | vote t h r _ => (some t, h, r)

variable (encode : SignedSet → Except String (List UInt8))

/-- `check_proposal` or `check_vote`. -/
def check (m : Signing) (g : DoubleSignGuard) : DoubleSignGuard × Except DoubleSignError Unit :=
  match m with
  | proposal h r b => g.checkProposal encode h r b
  | vote t h r b => g.checkVote encode t h r b

/-- `record_proposal` or `record_vote`. -/
def record (m : Signing) (g : DoubleSignGuard) : DoubleSignGuard × Except DoubleSignError Unit :=
  match m with
  | proposal h r b => g.recordProposal encode h r b
  | vote t h r b => g.recordVote encode t h r b

variable {encode} {m m' : Signing} {g : DoubleSignGuard}

@[simp] theorem height_key : m.key.height = m.height := by cases m <;> rfl

theorem height_eq_of_slot_eq (h : m.slot = m'.slot) : m.height = m'.height := by
  cases m <;> cases m' <;> simp_all [slot, height]

theorem record_eq : m.record encode g = g.record encode m.key := by cases m <;> rfl

theorem check_fst : (m.check encode g).1 = g.observe encode m.height := by
  cases m with
  | proposal => exact checkProposal_fst
  | vote => exact checkVote_fst

theorem check_ok_iff : (m.check encode g).2 = .ok () ↔
    ∀ m' : Signing, m'.key ∈ g.signed → m'.slot = m.slot → m' = m := by
  cases m with
  | proposal h r =>
    rw [check, checkProposal_ok_iff]
    constructor
    · intro hall m' hmem hslot
      cases m' with
      | proposal _ _ b' =>
        simp only [slot, Prod.mk.injEq, true_and] at hslot
        obtain ⟨rfl, rfl⟩ := hslot
        rw [hall b' hmem]
      | vote => simp [slot] at hslot
    · intro hall b' hmem
      have heq := hall (.proposal h r b') hmem rfl
      simpa using heq
  | vote t h r =>
    rw [check, checkVote_ok_iff]
    constructor
    · intro hall m' hmem hslot
      cases m' with
      | proposal => simp [slot] at hslot
      | vote _ _ _ b' =>
        simp only [slot, Prod.mk.injEq, Option.some.injEq] at hslot
        obtain ⟨rfl, rfl, rfl⟩ := hslot
        rw [hall b' hmem]
    · intro hall b' hmem
      have heq := hall (.vote t h r b') hmem rfl
      simpa using heq

end Signing

/-! ## Keys that stay -/

namespace DoubleSignGuard

variable (decode : List UInt8 → Except String SignedSet)

structure Keeps (g : DoubleSignGuard) (k : SignedKey) : Prop where
  held : k ∈ g.signed
  saved : g.config.persist = true →
    ∃ data signed, g.file = some data ∧ decode data = .ok signed ∧ k ∈ signed

variable {decode} {encode : SignedSet → Except String (List UInt8)} {g : DoubleSignGuard}
  {k : SignedKey}

theorem persist_cases (encode : SignedSet → Except String (List UInt8)) (g : DoubleSignGuard) :
    (g.persist encode).1 = g ∨
      ∃ data, encode g.signed = .ok data ∧ (g.persist encode).1 = { g with file := some data } := by
  rw [persist]
  split
  · split
    · exact .inl rfl
    · rename_i data hdata
      exact .inr ⟨data, hdata, rfl⟩
  · exact .inl rfl

@[simp] theorem persist_config : (g.persist encode).1.config = g.config := by
  rcases persist_cases encode g with heq | ⟨data, -, heq⟩ <;> rw [heq]

@[simp] theorem prune_config (h : Height) : (g.prune encode h).config = g.config := by
  simp only [prune]
  repeat' split
  all_goals simp

@[simp] theorem observe_config (h : Height) : (g.observe encode h).config = g.config := by
  simp only [observe]
  repeat' split
  all_goals simp

@[simp] theorem record_config (key : SignedKey) : (g.record encode key).1.config = g.config := by
  simp only [record, persist_config, enforceMaxEntries]
  split <;> rfl

variable (hcodec : ∀ signed data, encode signed = .ok data → decode data = .ok signed)
include hcodec

section

variable (h : g.Keeps decode k)
include h

theorem Keeps.persist : (g.persist encode).1.Keeps decode k := by
  rcases persist_cases encode g with heq | ⟨data, hdata, heq⟩
  · rwa [heq]
  · rw [heq]
    exact ⟨h.held, fun _ => ⟨data, g.signed, rfl, hcodec _ _ hdata, h.held⟩⟩

theorem Keeps.prune {height : Height}
    (hk : g.config.pruneBelow = 0 ∨ satSub height g.config.pruneBelow ≤ k.height) :
    (g.prune encode height).Keeps decode k := by
  have hmem : k ∈ (g.prune encode height).signed := mem_prune.mpr ⟨h.held, hk⟩
  simp only [DoubleSignGuard.prune] at hmem ⊢
  by_cases h0 : g.config.pruneBelow = 0
  · simpa [h0] using h
  simp only [h0, if_false] at hmem ⊢
  -- The set has lost other keys only, and the file is the old one or holds the new set.
  have hkept : Keeps decode { g with
      signed := g.signed.filter (fun k => satSub height g.config.pruneBelow ≤ k.height) } k := by
    refine ⟨?_, h.saved⟩
    split at hmem
    · rwa [signed_persist] at hmem
    · exact hmem
  split
  · exact Keeps.persist hcodec hkept
  · exact hkept

theorem Keeps.observe {height : Height} (hk : height ≤ k.height) :
    (g.observe encode height).Keeps decode k := by
  have hle : satSub height g.config.pruneBelow ≤ k.height := by
    rw [UInt64.le_iff_toNat_le] at hk ⊢
    rw [toNat_satSub]
    omega
  simp only [DoubleSignGuard.observe]
  split
  · split
    · exact Keeps.prune hcodec (g := { g with highestHeight := height }) ⟨h.held, h.saved⟩
        (.inr hle)
    · exact ⟨h.held, h.saved⟩
  · exact h

theorem Keeps.record {key : SignedKey} (hmax : g.config.maxEntries = 0) :
    (g.record encode key).1.Keeps decode k := by
  rw [DoubleSignGuard.record, enforceMaxEntries, if_pos hmax]
  refine Keeps.persist hcodec ⟨?_, h.saved⟩
  exact mem_insert.mpr (.inr h.held)

omit h in
theorem keeps_of_record_ok (key : SignedKey) (hmax : g.config.maxEntries = 0)
    (hok : (g.record encode key).2 = .ok ()) : (g.record encode key).1.Keeps decode key := by
  have hmem : key ∈ g.signed.insert key := mem_insert_self
  rw [DoubleSignGuard.record, enforceMaxEntries, if_pos hmax] at hok ⊢
  refine ⟨by rw [signed_persist]; exact hmem, ?_⟩
  intro hpersist
  have hpersist : g.config.persist = true := by simpa using hpersist
  simp only [DoubleSignGuard.persist, hpersist, if_true] at hok ⊢
  cases hdata : encode (g.signed.insert key) with
  | error => simp [hdata] at hok
  | ok data => exact ⟨data, _, rfl, hcodec _ _ hdata, hmem⟩

omit hcodec in
theorem Keeps.restart (hpersist : g.config.persist = true) :
    (withConfig decode g.config g.file).Keeps decode k := by
  obtain ⟨data, signed, hfile, hdata, hmem⟩ := h.saved hpersist
  simp only [withConfig, hpersist, if_true, load, hfile, hdata]
  exact ⟨hmem, fun _ => ⟨data, signed, rfl, hdata, hmem⟩⟩

end

end DoubleSignGuard

/-! ## Histories -/

inductive GuardOp where
  | sign (m : Signing)
  | prune (currentHeight : Height)
  | restart

structure GuardLog where
  guard : DoubleSignGuard
  recorded : List Signing

section

variable (encode : SignedSet → Except String (List UInt8))
  (decode : List UInt8 → Except String SignedSet)

def GuardLog.step (s : GuardLog) : GuardOp → GuardLog
  | .sign m =>
    match m.check encode s.guard with
    | (g, .error _) => { s with guard := g }
    | (g, .ok _) =>
      match m.record encode g with
      | (g, .error _) => { s with guard := g }
      | (g, .ok _) => ⟨g, s.recorded ++ [m]⟩
  | .prune currentHeight => { s with guard := s.guard.prune encode currentHeight }
  | .restart => { s with guard := .withConfig decode s.guard.config s.guard.file }

variable (cfg : DoubleSignConfig)

def GuardOp.floor : GuardOp → ℕ
  | sign m => m.height.toNat
  | prune currentHeight =>
    if cfg.pruneBelow = 0 then 0 else currentHeight.toNat - cfg.pruneBelow.toNat
  | restart => 0

def GuardOp.Precedes (a b : GuardOp) : Prop :=
  ∀ m, b = .sign m → a.floor cfg ≤ m.height.toNat

structure GuardLog.Safe (floor : ℕ) (s : GuardLog) : Prop where
  config_eq : s.guard.config = cfg
  keeps : ∀ m ∈ s.recorded, floor ≤ m.height.toNat → s.guard.Keeps decode m.key
  agree : ∀ m ∈ s.recorded, ∀ m' ∈ s.recorded, m.slot = m'.slot → m = m'

variable {encode decode} {cfg : DoubleSignConfig} {floor : ℕ} {s : GuardLog} {m : Signing}

section

variable (hcodec : ∀ signed data, encode signed = .ok data → decode data = .ok signed)
include hcodec

theorem GuardLog.Safe.check (h : s.Safe decode cfg floor) (hfloor : floor ≤ m.height.toNat) :
    Safe decode cfg m.height.toNat { s with guard := (m.check encode s.guard).1 } := by
  rw [Signing.check_fst]
  refine ⟨by rw [observe_config, h.config_eq], ?_, h.agree⟩
  intro m' hm' hle
  refine DoubleSignGuard.Keeps.observe hcodec (h.keeps m' hm' (by omega)) ?_
  rw [Signing.height_key, UInt64.le_iff_toNat_le]
  exact hle

theorem GuardLog.Safe.record (hmax : cfg.maxEntries = 0) (h : s.Safe decode cfg floor)
    (m : Signing) : Safe decode cfg floor { s with guard := (m.record encode s.guard).1 } := by
  rw [Signing.record_eq]
  refine ⟨by rw [record_config, h.config_eq], ?_, h.agree⟩
  intro m' hm' hle
  exact DoubleSignGuard.Keeps.record hcodec (h.keeps m' hm' hle) (by rw [h.config_eq, hmax])

end

theorem GuardLog.Safe.concat (h : s.Safe decode cfg floor) (hkeeps : s.guard.Keeps decode m.key)
    (hsame : ∀ m' ∈ s.recorded, m'.slot = m.slot → m' = m) :
    Safe decode cfg floor ⟨s.guard, s.recorded ++ [m]⟩ := by
  refine ⟨h.config_eq, ?_, ?_⟩
  · intro m' hm' hle
    rcases mem_append.mp hm' with hm' | hm'
    · exact h.keeps m' hm' hle
    · rw [mem_singleton.mp hm']
      exact hkeeps
  intro m₁ h₁ m₂ h₂ hslot
  rcases mem_append.mp h₁ with h₁ | h₁ <;> rcases mem_append.mp h₂ with h₂ | h₂
  · exact h.agree m₁ h₁ m₂ h₂ hslot
  · rw [mem_singleton.mp h₂] at hslot ⊢
    exact hsame m₁ h₁ hslot
  · rw [mem_singleton.mp h₁] at hslot ⊢
    exact (hsame m₂ h₂ hslot.symm).symm
  · rw [mem_singleton.mp h₁, mem_singleton.mp h₂]

section

variable (hcodec : ∀ signed data, encode signed = .ok data → decode data = .ok signed)
include hcodec

theorem GuardLog.Safe.sign (hmax : cfg.maxEntries = 0) (h : s.Safe decode cfg floor)
    (hfloor : floor ≤ m.height.toNat) :
    (s.step encode decode (.sign m)).Safe decode cfg m.height.toNat := by
  have hchecked := h.check hcodec hfloor
  rw [GuardLog.step]
  rcases hcheck : m.check encode s.guard with ⟨g, _ | _⟩
  · rwa [hcheck] at hchecked
  rw [hcheck] at hchecked
  have hrecorded := hchecked.record hcodec hmax m
  rcases hrec : m.record encode g with ⟨g', _ | _⟩
  · simp only [hrec] at hrecorded ⊢
    exact hrecorded
  simp only [hrec] at hrecorded ⊢
  have hnew : g'.Keeps decode m.key := by
    rw [Signing.record_eq] at hrec
    have hkeeps := keeps_of_record_ok hcodec m.key
      (g := g) (by rw [hchecked.config_eq, hmax]) (by rw [hrec])
    rwa [hrec] at hkeeps
  refine hrecorded.concat hnew ?_
  -- The check passed, so a recorded message of the slot is `m` itself.
  intro m' hm' hslot
  have hheight := Signing.height_eq_of_slot_eq hslot
  have hkeeps := h.keeps m' hm' (by rw [hheight]; exact hfloor)
  exact Signing.check_ok_iff.mp (by rw [hcheck]) m' hkeeps.held hslot

theorem GuardLog.Safe.prune (h : s.Safe decode cfg floor) (height : Height) :
    (s.step encode decode (.prune height)).Safe decode cfg
      (max floor ((GuardOp.prune height).floor cfg)) := by
  refine ⟨by rw [GuardLog.step, prune_config, h.config_eq], ?_, h.agree⟩
  intro m hm hle
  refine DoubleSignGuard.Keeps.prune hcodec (h.keeps m hm (by omega)) ?_
  rw [h.config_eq, Signing.height_key, UInt64.le_iff_toNat_le, toNat_satSub]
  by_cases h0 : cfg.pruneBelow = 0
  · exact .inl h0
  · simp only [GuardOp.floor, h0, if_false] at hle
    exact .inr (by omega)

end

theorem GuardLog.Safe.restart (hpersist : cfg.persist = true) (h : s.Safe decode cfg floor) :
    (s.step encode decode .restart).Safe decode cfg floor := by
  refine ⟨by rw [GuardLog.step, withConfig_config, h.config_eq], ?_, h.agree⟩
  intro m hm hle
  exact (h.keeps m hm hle).restart (by rw [h.config_eq, hpersist])

theorem GuardLog.Safe.exec
    (hcodec : ∀ signed data, encode signed = .ok data → decode data = .ok signed)
    (hmax : cfg.maxEntries = 0) {ops : List GuardOp}
    (hrestart : cfg.persist = true ∨ .restart ∉ ops) (hops : ops.Pairwise (GuardOp.Precedes cfg))
    (hfloor : ∀ m, .sign m ∈ ops → floor ≤ m.height.toNat) (h : s.Safe decode cfg floor) :
    ∃ floor', (exec (GuardLog.step encode decode) s ops).Safe decode cfg floor' := by
  induction ops generalizing s floor with
  | nil => exact ⟨floor, h⟩
  | cons op ops ih =>
    obtain ⟨hnext, hrest⟩ := pairwise_cons.mp hops
    have hrestart' : cfg.persist = true ∨ .restart ∉ ops :=
      hrestart.imp id fun hnot hmem => hnot (mem_cons_of_mem _ hmem)
    have hlater : ∀ m, .sign m ∈ ops → floor ≤ m.height.toNat :=
      fun m hm => hfloor m (mem_cons_of_mem _ hm)
    rw [exec_cons]
    cases op with
    | sign m =>
      exact ih hrestart' hrest (fun m' hm' => hnext _ hm' m' rfl)
        (h.sign hcodec hmax (hfloor m mem_cons_self))
    | prune height =>
      refine ih hrestart' hrest (fun m' hm' => ?_) (h.prune hcodec height)
      exact max_le (hlater m' hm') (hnext _ hm' m' rfl)
    | restart =>
      have hpersist := hrestart.resolve_right (not_not.mpr mem_cons_self)
      exact ih hrestart' hrest hlater (h.restart hpersist)

/-- **No double signing.**  Take any history of a guard without a bound on its entries, with
restarts only if the guard persists, in which nothing is signed below a height signed at before,
or below the threshold of an earlier prune.  Then no two recorded messages of one kind, vote type,
height and round differ in their block id. -/
theorem recorded_agree
    (hcodec : ∀ signed data, encode signed = .ok data → decode data = .ok signed)
    {cfg : DoubleSignConfig} (hmax : cfg.maxEntries = 0) (file : Option (List UInt8))
    {ops : List GuardOp} (hrestart : cfg.persist = true ∨ .restart ∉ ops)
    (hops : ops.Pairwise (GuardOp.Precedes cfg)) :
    ∀ m ∈ (exec (GuardLog.step encode decode) ⟨.withConfig decode cfg file, []⟩ ops).recorded,
    ∀ m' ∈ (exec (GuardLog.step encode decode) ⟨.withConfig decode cfg file, []⟩ ops).recorded,
      m.slot = m'.slot → m = m' := by
  have hstart : GuardLog.Safe decode cfg 0 ⟨.withConfig decode cfg file, []⟩ :=
    ⟨withConfig_config .., by simp, by simp⟩
  obtain ⟨floor, hsafe⟩ := hstart.exec hcodec hmax hrestart hops (by simp)
  exact hsafe.agree

end

namespace Sample

def nilVote : Signing := .vote .prevote 5 0 none

def blockVote : Signing := .vote .prevote 5 0 (some (.replicate 32 1))

def laterProposal : Signing := .proposal 9 0 (.replicate 32 1)

def encodeOne (signed : SignedSet) : Except String (List UInt8) :=
  if signed.toList = [nilVote.key] then .ok [1]
  else if signed.toList = [laterProposal.key] then .ok [2]
  else .error "no such set"

def decodeOne (data : List UInt8) : Except String SignedSet :=
  if data = [1] then .ok (insert ∅ nilVote.key)
  else if data = [2] then .ok (insert ∅ laterProposal.key)
  else .error "no such file"

theorem eq_insert_of_toList {signed : SignedSet} {k : SignedKey} (h : signed.toList = [k]) :
    signed = insert ∅ k := by
  apply ext_mem
  intro k'
  rw [← mem_toList, h, mem_singleton, mem_insert, Std.LawfulEqCmp.compare_eq_iff_eq]
  simp [eq_comm]

theorem decodeOne_encodeOne (signed : SignedSet) (data : List UInt8)
    (h : encodeOne signed = .ok data) : decodeOne data = .ok signed := by
  rw [encodeOne] at h
  split at h
  · rename_i hone
    cases h
    rw [eq_insert_of_toList hone]
    rfl
  · split at h
    · rename_i htwo
      cases h
      rw [eq_insert_of_toList htwo]
      rfl
    · cases h

end Sample

open Sample

/-- A vote is recorded, the guard restarts and refuses the conflicting one, prunes and goes on. -/
theorem recorded_agree_restarted : ∃ ops : List GuardOp,
    ops = [.sign nilVote, .restart, .sign blockVote, .prune 6,
      .sign laterProposal] ∧
    ops.Pairwise (GuardOp.Precedes { maxEntries := 0, pruneBelow := 2 }) ∧
    (exec (GuardLog.step encodeOne decodeOne)
      ⟨.withConfig decodeOne { maxEntries := 0, pruneBelow := 2 } none, []⟩ ops).recorded =
      [nilVote, laterProposal] ∧
    ∀ m ∈ [nilVote, laterProposal], ∀ m' ∈ [nilVote, laterProposal], m.slot = m'.slot → m = m' := by
  have hrecorded : (exec (GuardLog.step encodeOne decodeOne)
      ⟨.withConfig decodeOne { maxEntries := 0, pruneBelow := 2 } none, []⟩
      [.sign nilVote, .restart, .sign blockVote, .prune 6,
        .sign laterProposal]).recorded = [nilVote, laterProposal] := by
    decide +kernel
  have hops : [.sign nilVote, .restart, .sign blockVote, .prune 6, .sign laterProposal].Pairwise
      (GuardOp.Precedes { maxEntries := 0, pruneBelow := 2 }) := by
    simp [GuardOp.Precedes, GuardOp.floor, nilVote, blockVote, laterProposal, Signing.height]
  have hagree := recorded_agree decodeOne_encodeOne rfl none (.inl rfl) hops
  rw [hrecorded] at hagree
  exact ⟨_, rfl, hops, hrecorded, hagree⟩

/-- A guard that does not persist signs both votes of a slot with a restart in between, and a
guard that is pruned far above the height it signs at does so without one. -/
theorem recorded_conflict : ∃ cfg : DoubleSignConfig,
    cfg = { persist := false, maxEntries := 0 } ∧
    (exec (GuardLog.step encodeOne decodeOne)
      ⟨.withConfig decodeOne cfg none, []⟩
      [.sign nilVote, .restart, .sign blockVote]).recorded =
      [nilVote, blockVote] ∧
    (exec (GuardLog.step encodeOne decodeOne)
      ⟨.withConfig decodeOne cfg none, []⟩
      [.sign nilVote, .prune 5000, .sign blockVote]).recorded =
      [nilVote, blockVote] ∧
    nilVote.slot = blockVote.slot ∧ nilVote ≠ blockVote :=
  ⟨_, rfl, by decide +kernel, by decide +kernel, rfl, by decide⟩

end IonaOs
