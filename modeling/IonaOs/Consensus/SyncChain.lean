import IonaOs.Consensus.Sample
import IonaOs.Consensus.Sync

/-!
# What sync applies
-/

namespace IonaOs

open Lib List Sample

/-! ## Traces -/

def acceptedHeights (trace : List SyncEvent) : List ℕ :=
  trace.filterMap fun
    | .accepted height => some height.toNat
    | _ => none

def engineAfter (engine : Option UInt64) (trace : List SyncEvent) : Option UInt64 :=
  trace.foldl (fun engine event => match event with
    | .engineHeight height => some height
    | _ => engine) engine

def Lawful (node : SyncNode) (before : List SyncEvent) : SyncEvent → Prop
  | .localHeight height => acceptedHeights before =
      List.range' (node.persisted.toNat + 1) (height.toNat - node.persisted.toNat)
  | .engineHeight height => ∀ h, engineAfter node.engine before = some h → h ≤ height
  | _ => True

def AppliesChain (node : SyncNode) (trace : List SyncEvent) : Prop :=
  ∀ before event after, trace = before ++ event :: after → Lawful node before event

section

variable {node : SyncNode} {trace : List SyncEvent} {event : SyncEvent}

@[simp] theorem acceptedHeights_append (t t' : List SyncEvent) :
    acceptedHeights (t ++ t') = acceptedHeights t ++ acceptedHeights t' := by
  simp [acceptedHeights]

variable (engine : Option UInt64)

@[simp] theorem engineAfter_append (t t' : List SyncEvent) :
    engineAfter engine (t ++ t') = engineAfter (engineAfter engine t) t' := by
  simp [engineAfter]

@[simp] theorem acceptedHeights_accepted (h : UInt64) :
    acceptedHeights [.accepted h] = [h.toNat] := rfl

@[simp] theorem acceptedHeights_engineHeight (h : UInt64) :
    acceptedHeights [.engineHeight h] = [] := rfl

@[simp] theorem acceptedHeights_localHeight (h : UInt64) :
    acceptedHeights [.localHeight h] = [] := rfl

@[simp] theorem engineAfter_accepted (h : UInt64) :
    engineAfter engine [.accepted h] = engine := rfl

@[simp] theorem engineAfter_engineHeight (h : UInt64) :
    engineAfter engine [.engineHeight h] = some h := rfl

@[simp] theorem engineAfter_localHeight (h : UInt64) :
    engineAfter engine [.localHeight h] = engine := rfl

theorem appliesChain_nil : AppliesChain node [] := by
  intro before event after heq
  simp at heq

theorem exec_snoc (t t' : List SyncEvent) :
    exec (fun before event => before ++ [event]) t t' = t ++ t' := by
  induction t' generalizing t with
  | nil => simp
  | cons _ _ ih => simp [ih]

theorem appliesChain_iff_along : AppliesChain node trace ↔
    Along (fun before event => before ++ [event]) (Lawful node) [] trace := by
  simp only [along_iff_forall_split, exec_snoc, nil_append]
  rfl

theorem appliesChain_concat :
    AppliesChain node (trace ++ [event]) ↔ AppliesChain node trace ∧ Lawful node trace event := by
  rw [appliesChain_iff_along, appliesChain_iff_along, along_append, exec_snoc]
  simp

theorem AppliesChain.of_grows {longer : List SyncEvent} (h : AppliesChain node longer)
    (hgrows : trace <+: longer) : AppliesChain node trace := by
  obtain ⟨rest, rfl⟩ := hgrows
  intro before e after heq
  exact h before e (after ++ rest) (by simp [heq])

end

/-! ## Order -/

section

variable (codec : SyncCodec) (cfg : SyncConfig)

def SyncRun.Expects (r : SyncRun) (blockData : BlockData) : Prop :=
  blockData.height.toNat = r.current.toNat + 1 ∧ ∀ h, r.engine = some h → h ≤ blockData.height

def OrderedPolls (batchEnd : UInt64) : SyncRun → UInt64 → List (Option (List UInt8)) → Prop
  | _, _, [] => True
  | r, applied, poll :: polls => r.current + applied < batchEnd →
    match poll.bind codec.blockData with
    | none => OrderedPolls batchEnd r applied polls
    | some blockData =>
      match r.applyBlock cfg blockData with
      | .error _ => True
      | .ok next => r.Expects blockData ∧
        OrderedPolls batchEnd next.advance (satAdd applied 1) polls

def Ordered (r : SyncRun) (w : Window) : Prop :=
  match r.phase with
  | .returned _ => True
  | .fetching req reqBytes _ =>
    match w.broadcast with
    | .error _ => True
    | .ok _ => OrderedPolls codec cfg req.toHeight (r.send reqBytes) 0 w.polls

end

open SyncRun

/-! ## Steps -/

structure InChain (node : SyncNode) (r : SyncRun) : Prop where
  le : node.persisted ≤ r.current
  accepted : acceptedHeights r.trace =
    List.range' (node.persisted.toNat + 1) (r.current.toNat - node.persisted.toNat)
  engine : engineAfter node.engine r.trace = r.engine

namespace SyncRun

variable {codec : SyncCodec} {cfg : SyncConfig} {node : SyncNode} {r next : SyncRun}
  {blockData : BlockData}

section

variable (h : r.applyBlock cfg blockData = .ok next)
include h

theorem applyBlock_ok :
    next = { r.setEngineHeight blockData.height with
      trace := (r.setEngineHeight blockData.height).trace ++ [.accepted blockData.height] } := by
  unfold applyBlock at h
  split at h
  · cases h
  · split at h
    · cases h
    · exact (Except.ok.inj h).symm

theorem trace_advance :
    next.advance.trace = match r.engine with
      | none => r.trace ++ [.accepted blockData.height] ++ [.localHeight (satAdd r.current 1)]
      | some _ => r.trace ++ [.engineHeight blockData.height] ++ [.accepted blockData.height] ++
          [.localHeight (satAdd r.current 1)] ++ [.engineHeight (satAdd r.current 1)] := by
  rw [applyBlock_ok h]
  cases hengine : r.engine <;> simp [advance, setEngineHeight, setLocalHeight, hengine]

theorem current_advance : next.advance.current = satAdd r.current 1 := by
  rw [applyBlock_ok h]
  cases hengine : r.engine <;> simp [advance, setEngineHeight, setLocalHeight, hengine]

theorem engine_advance : next.advance.engine = r.engine.map fun _ => satAdd r.current 1 := by
  rw [applyBlock_ok h]
  cases hengine : r.engine <;> simp [advance, setEngineHeight, setLocalHeight, hengine]

end

theorem accepted_concat_iff (h : InChain node r) (height : UInt64) :
    acceptedHeights r.trace ++ [height.toNat] = range' (node.persisted.toNat + 1)
      ((satAdd r.current 1).toNat - node.persisted.toNat) ↔
        height.toNat = r.current.toNat + 1 := by
  have hle := UInt64.le_iff_toNat_le.mp h.le
  have hlt := height.toNat_lt
  have hone : (1 : UInt64).toNat = 1 := rfl
  rw [h.accepted, toNat_satAdd, hone]
  by_cases hmax : r.current.toNat + 1 < 2 ^ 64
  · have hmin : min (r.current.toNat + 1) (2 ^ 64 - 1) - node.persisted.toNat =
        (r.current.toNat - node.persisted.toNat) + 1 := by omega
    rw [hmin, range'_concat, append_right_inj, singleton_inj]
    omega
  -- At the largest height nothing can follow, and the count stays where it is.
  constructor
  · intro heq
    have hlength := congrArg length heq
    simp only [length_append, length_range', length_singleton] at hlength
    omega
  · intro heq
    omega

theorem appliesChain_advance (hin : InChain node r) (h : r.applyBlock cfg blockData = .ok next) :
    AppliesChain node next.advance.trace ↔ AppliesChain node r.trace ∧ r.Expects blockData := by
  have hnext := accepted_concat_iff hin blockData.height
  have hengine := hin.engine
  rw [trace_advance h, Expects]
  cases he : r.engine with
  | none =>
    dsimp only
    rw [appliesChain_concat, appliesChain_concat]
    simp only [Lawful, acceptedHeights_append, acceptedHeights_accepted, hnext]
    simp
  | some =>
    dsimp only
    rw [appliesChain_concat, appliesChain_concat, appliesChain_concat, appliesChain_concat]
    rw [he] at hengine
    simp only [Lawful, acceptedHeights_append, acceptedHeights_accepted,
      acceptedHeights_engineHeight, append_nil, hnext, engineAfter_append, hengine,
      engineAfter_engineHeight, engineAfter_accepted, engineAfter_localHeight, Option.some.injEq,
      forall_eq', and_true]
    constructor
    · rintro ⟨⟨⟨htrace, hle⟩, hheight⟩, -⟩
      exact ⟨htrace, hheight, hle⟩
    rintro ⟨htrace, hheight, hle⟩
    refine ⟨⟨⟨htrace, hle⟩, hheight⟩, ?_⟩
    rw [UInt64.le_iff_toNat_le, toNat_satAdd]
    have hlt := blockData.height.toNat_lt
    have hone : (1 : UInt64).toNat = 1 := rfl
    omega

theorem inChain_advance (hin : InChain node r) (h : r.applyBlock cfg blockData = .ok next)
    (hexpects : r.Expects blockData) : InChain node next.advance := by
  have hnext := (accepted_concat_iff hin blockData.height).mpr hexpects.1
  have hengine := hin.engine
  have hlt := blockData.height.toNat_lt
  have hone : (1 : UInt64).toNat = 1 := rfl
  refine ⟨?_, ?_, ?_⟩
  · have hle := UInt64.le_iff_toNat_le.mp hin.le
    have hheight := hexpects.1
    rw [current_advance h, UInt64.le_iff_toNat_le, toNat_satAdd]
    omega
  · rw [trace_advance h, current_advance h]
    cases he : r.engine <;> simpa [acceptedHeights] using hnext
  · rw [trace_advance h, engine_advance h]
    cases he : r.engine with
    | none =>
      rw [he] at hengine
      simpa [engineAfter] using hengine
    | some => simp [engineAfter]

structure Keeps (node : SyncNode) (r r' : SyncRun) : Prop where
  grows : r.trace <+: r'.trace
  inChain : InChain node r → InChain node r'
  applies : InChain node r → (AppliesChain node r'.trace ↔ AppliesChain node r.trace)

theorem Keeps.trans {r' r'' : SyncRun} (h : Keeps node r r') (h' : Keeps node r' r'') :
    Keeps node r r'' where
  grows := h.grows.trans h'.grows
  inChain hin := h'.inChain (h.inChain hin)
  applies hin := (h'.applies (h.inChain hin)).trans (h.applies hin)

theorem keeps_of_eq {r' : SyncRun} (hcurrent : r'.current = r.current)
    (hengine : r'.engine = r.engine) (htrace : r'.trace = r.trace) : Keeps node r r' where
  grows := by rw [htrace]
  inChain hin := ⟨by rw [hcurrent]; exact hin.le, by rw [htrace, hcurrent]; exact hin.accepted,
    by rw [htrace, hengine]; exact hin.engine⟩
  applies _ := by rw [htrace]

theorem keeps_send (msg : List UInt8) : Keeps node r (r.send msg) where
  grows := prefix_append _ _
  inChain hin := ⟨hin.le, by simpa [send, acceptedHeights] using hin.accepted,
    by simpa [send, engineAfter] using hin.engine⟩
  applies _ := by
    rw [send, appliesChain_concat]
    simp [Lawful]

theorem keeps_finish : Keeps node r r.finish where
  grows := prefix_append _ _
  inChain hin := ⟨hin.le, by simpa [finish, stop, ret, setLocalHeight] using hin.accepted,
    by simpa [finish, stop, ret, setLocalHeight] using hin.engine⟩
  applies hin := by
    have htrace : r.finish.trace = r.trace ++ [.localHeight r.current] := rfl
    rw [htrace, appliesChain_concat, and_iff_left]
    exact hin.accepted

theorem keeps_nextBatch : Keeps node r (r.nextBatch codec cfg) := by
  unfold nextBatch
  split
  · dsimp only
    split
    · exact keeps_of_eq rfl rfl rfl
    · split
      · exact keeps_finish
      · exact keeps_of_eq rfl rfl rfl
  · exact keeps_finish

theorem keeps_afterAttempt {req : GetBlocks} {reqBytes : List UInt8} {attempt : UInt32}
    {applied : UInt64} : Keeps node r (r.afterAttempt codec cfg req reqBytes attempt applied) := by
  unfold afterAttempt
  split
  · refine Keeps.trans ?_ keeps_nextBatch
    split <;> exact keeps_of_eq rfl rfl rfl
  · split
    · exact keeps_of_eq rfl rfl rfl
    · exact keeps_finish

theorem trace_advance_grows (h : r.applyBlock cfg blockData = .ok next) :
    r.trace <+: next.advance.trace := by
  rw [trace_advance h]
  cases r.engine <;> simp

theorem trace_receiveBlocks_grows {batchEnd : UInt64} {attempt : UInt32} {applied : UInt64}
    {polls : List (Option (List UInt8))} :
    r.trace <+: (receiveBlocks codec cfg batchEnd attempt r applied polls).1.trace := by
  induction polls generalizing r applied with
  | nil => exact prefix_refl _
  | cons poll polls ih =>
    rw [receiveBlocks]
    split
    · split
      · exact ih
      split
      · split <;> exact prefix_refl _
      · rename_i hnext
        exact (trace_advance_grows hnext).trans ih
    · exact prefix_refl _

variable (codec cfg) in
theorem receiveBlocks_chain (batchEnd : UInt64) (attempt : UInt32) (applied : UInt64)
    (polls : List (Option (List UInt8))) (hin : InChain node r) :
    (AppliesChain node (receiveBlocks codec cfg batchEnd attempt r applied polls).1.trace ↔
      AppliesChain node r.trace ∧ OrderedPolls codec cfg batchEnd r applied polls) ∧
    (OrderedPolls codec cfg batchEnd r applied polls →
      InChain node (receiveBlocks codec cfg batchEnd attempt r applied polls).1) := by
  induction polls generalizing r applied with
  | nil => simp [receiveBlocks, OrderedPolls, hin]
  | cons poll _ ih =>
    rw [receiveBlocks, OrderedPolls]
    by_cases hroom : r.current + applied < batchEnd
    · simp only [hroom, if_true, true_imp_iff]
      cases hpoll : poll.bind codec.blockData with
      | none => exact ih applied hin
      | some blockData =>
        dsimp only
        cases happly : r.applyBlock cfg blockData with
        | error =>
          dsimp only
          split <;> simp [hin]
        | ok =>
          dsimp only
          have hchain := appliesChain_advance hin happly
          by_cases hexpects : r.Expects blockData
          · have hrest := ih (satAdd applied 1) (inChain_advance hin happly hexpects)
            rw [hchain] at hrest
            simpa [hexpects] using hrest
          · -- A block out of order leaves an unlawful event behind.
            simp only [hexpects, false_and, and_false, iff_false, false_imp_iff, and_true]
            intro h
            exact hexpects (hchain.mp (h.of_grows trace_receiveBlocks_grows)).2
    · simp [hroom, hin]

variable (codec cfg node r) in
theorem step_cases (w : Window) :
    ((Ordered codec cfg r w ↔ True) ∧ Keeps node r (step codec cfg r w)) ∨
    ∃ r₁ batchEnd attempt, Keeps node r r₁ ∧
      (Ordered codec cfg r w ↔ OrderedPolls codec cfg batchEnd r₁ 0 w.polls) ∧
      Keeps node (receiveBlocks codec cfg batchEnd attempt r₁ 0 w.polls).1
        (step codec cfg r w) := by
  unfold step Ordered
  rcases r.phase with ⟨req, reqBytes, attempt⟩ | result
  · rcases w.broadcast with e | k
    · exact .inl ⟨Iff.rfl, (keeps_send reqBytes).trans (keeps_of_eq rfl rfl rfl)⟩
    refine .inr ⟨r.send reqBytes, req.toHeight, attempt, keeps_send reqBytes, Iff.rfl, ?_⟩
    dsimp only
    rcases receiveBlocks codec cfg req.toHeight attempt (r.send reqBytes) 0 w.polls with
      ⟨r', e | applied⟩
    · exact keeps_of_eq rfl rfl rfl
    · exact keeps_afterAttempt
  · exact .inl ⟨Iff.rfl, keeps_of_eq rfl rfl rfl⟩

theorem step_chain {w : Window} (hin : InChain node r) :
    (AppliesChain node (step codec cfg r w).trace ↔
      AppliesChain node r.trace ∧ Ordered codec cfg r w) ∧
    (Ordered codec cfg r w → InChain node (step codec cfg r w)) := by
  rcases step_cases codec cfg node r w with
    ⟨hordered, hkeeps⟩ | ⟨r₁, batchEnd, attempt, hbefore, hordered, hafter⟩
  · rw [hordered, and_true]
    exact ⟨hkeeps.applies hin, fun _ => hkeeps.inChain hin⟩
  obtain ⟨hchain, hinner⟩ :=
    receiveBlocks_chain codec cfg batchEnd attempt 0 w.polls (hbefore.inChain hin)
  rw [hbefore.applies hin] at hchain
  rw [hordered]
  refine ⟨?_, fun hpolls => hafter.inChain (hinner hpolls)⟩
  by_cases hpolls : OrderedPolls codec cfg batchEnd r₁ 0 w.polls
  · exact (hafter.applies (hinner hpolls)).trans hchain
  constructor
  · intro h
    exact hchain.mp (h.of_grows hafter.grows)
  · intro h
    exact absurd h.2 hpolls

end SyncRun

/-! ## Runs -/

section

variable (codec : SyncCodec) (cfg : SyncConfig) (node : SyncNode) (status : Window)

def SyncNode.EngineBehind : Prop :=
  0 < node.persisted → ∀ h, node.engine = some h → h ≤ node.persisted

theorem start_cases : node.start.current = node.persisted ∧
    ((∃ e, 0 < node.persisted ∧ node.engine = some e ∧ node.start.engine = some node.persisted ∧
        node.start.trace = [.localHeight node.persisted] ++ [.engineHeight node.persisted]) ∨
      (0 < node.persisted → node.engine = none) ∧ node.start.engine = node.engine ∧
        node.start.trace = [.localHeight node.persisted]) := by
  unfold SyncNode.start
  by_cases hpos : 0 < node.persisted
  · cases hengine : node.engine <;>
      simp [setEngineHeight, setLocalHeight, hpos, hengine]
  · simp [setLocalHeight, hpos]

theorem start_chain : InChain node node.start ∧
    (AppliesChain node node.start.trace ↔ node.EngineBehind) := by
  have hlocal : AppliesChain node [.localHeight node.persisted] := by
    rw [← nil_append [SyncEvent.localHeight node.persisted], appliesChain_concat]
    refine ⟨appliesChain_nil, ?_⟩
    rw [Lawful, Nat.sub_self]
    rfl
  obtain ⟨hcurrent, ⟨e, hpos, hsome, hengine, htrace⟩ | ⟨hnone, hengine, htrace⟩⟩ :=
    start_cases node
  · refine ⟨⟨?_, ?_, ?_⟩, ?_⟩
    · rw [hcurrent]
      exact UInt64.le_refl _
    · rw [hcurrent, htrace, Nat.sub_self]
      rfl
    · rw [hengine, htrace]
      rfl
    · rw [htrace, appliesChain_concat, and_iff_right hlocal, Lawful, SyncNode.EngineBehind,
        engineAfter_localHeight]
      exact (imp_iff_right hpos).symm
  · refine ⟨⟨?_, ?_, ?_⟩, ?_⟩
    · rw [hcurrent]
      exact UInt64.le_refl _
    · rw [hcurrent, htrace, Nat.sub_self]
      rfl
    · rw [hengine, htrace]
      rfl
    rw [htrace]
    refine iff_of_true hlocal ?_
    intro hpos h hsome
    rw [hnone hpos] at hsome
    cases hsome

theorem keeps_chooseTarget (hvalid : cfg.validate = .ok ()) :
    Keeps node node.start (chooseTarget codec cfg node status) := by
  unfold chooseTarget
  rw [hvalid]
  dsimp only
  split
  · exact keeps_of_eq rfl rfl rfl
  rename_i statusBytes _
  refine (keeps_send statusBytes).trans ?_
  split
  · exact keeps_of_eq rfl rfl rfl
  · exact keeps_of_eq rfl rfl rfl
  split
  · exact keeps_of_eq rfl rfl rfl
  · refine Keeps.trans ?_ keeps_nextBatch
    exact keeps_of_eq rfl rfl rfl

theorem chooseTarget_chain : InChain node (chooseTarget codec cfg node status) ∧
    (AppliesChain node (chooseTarget codec cfg node status).trace ↔
      (cfg.validate = .ok () → node.EngineBehind)) := by
  cases hvalid : cfg.validate with
  | error e =>
    have heq : chooseTarget codec cfg node status =
        ⟨node, node.persisted, node.persisted, .returned (.error e), []⟩ := by
      rw [chooseTarget, hvalid]
    rw [heq]
    refine ⟨⟨UInt64.le_refl _, ?_, rfl⟩, ?_⟩
    · rw [Nat.sub_self]
      rfl
    · simp [appliesChain_nil]
  | ok =>
    obtain ⟨hin, happlies⟩ := start_chain node
    have hkeeps := keeps_chooseTarget codec cfg node status hvalid
    refine ⟨hkeeps.inChain hin, ?_⟩
    rw [hkeeps.applies hin, happlies]
    simp

/-- **Sync applies a chain** exactly when the engine was not past the persisted height at the
start and the blocks of every window come in order: each block that the loop accepts is the one
after the height the run is at, and the engine is not past it. -/
theorem syncFromPeers_chain_iff (windows : List Window) :
    AppliesChain node (syncFromPeers codec cfg node status windows).trace ↔
      (cfg.validate = .ok () → node.EngineBehind) ∧
      Along (step codec cfg) (Ordered codec cfg)
        (chooseTarget codec cfg node status) windows := by
  obtain ⟨hin, hstart⟩ := chooseTarget_chain codec cfg node status
  rw [← hstart]
  refine exec_iff_along (I := InChain node) (L := fun r => AppliesChain node r.trace) ?_ ?_ ?_ hin
  · intro r w h
    refine h.of_grows ?_
    rcases step_cases codec cfg r.toSyncNode r w with
      ⟨-, hkeeps⟩ | ⟨r₁, batchEnd, attempt, hbefore, -, hafter⟩
    · exact hkeeps.grows
    · exact (hbefore.grows.trans trace_receiveBlocks_grows).trans hafter.grows
  · intro r w hr
    exact (step_chain hr).1
  · intro r w hr
    exact (step_chain hr).2

end

namespace Sample

def syncCodec : SyncCodec where
  encodeGetStatus _ := .ok []
  encodeGetBlocks _ := .ok []
  decodeStatusResponse
    | [height] => some ⟨height.toUInt64, genesis, "peer"⟩
    | _ => none
  decodeBlockData
    | [height] => some ⟨block height.toUInt64 0 genesis [1] 1, height.toUInt64⟩
    | _ => none

def syncNode : SyncNode := ⟨{}, some 0, 0, none⟩

def statusWindow (height : UInt8) : Window := ⟨.ok 1, [some [0x11, height]]⟩

def blockWindow (heights : List UInt8) : Window :=
  ⟨.ok 1, heights.map fun height => some [0x13, height]⟩

end Sample

/-- **Any block counts as the next one.**  A peer that is asked for block 1 sends block 5: it is
accepted, the local height becomes 1, and the engine goes to 5 and back. -/
theorem syncFromPeers_skips :
    ∃ run, run = syncFromPeers syncCodec {} syncNode (statusWindow 1)
      [blockWindow [5]] ∧
    run.trace = [.localHeight 0, .sent [0x10], .sent [0x12], .engineHeight 5, .accepted 5,
      .localHeight 1, .engineHeight 1] ∧
    ¬ AppliesChain syncNode run.trace := by
  refine ⟨_, rfl, ?_⟩
  have htrace : (syncFromPeers syncCodec {} syncNode (statusWindow 1)
      [blockWindow [5]]).trace = [.localHeight 0, .sent [0x10], .sent [0x12],
        .engineHeight 5, .accepted 5, .localHeight 1, .engineHeight 1] := by
    decide +kernel
  refine ⟨htrace, ?_⟩
  rw [htrace]
  intro h
  have hlawful := h [.localHeight 0, .sent [0x10], .sent [0x12], .engineHeight 5, .accepted 5]
    (.localHeight 1) [.engineHeight 1] rfl
  revert hlawful
  unfold Lawful
  decide

end IonaOs
