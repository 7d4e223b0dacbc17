import IonaOs.Process.IpcCalls

/-!
# The order of the locks
-/

namespace IonaOs.Process

open Std Lib Prog Routines Machine

def IpcOp.nests : IpcOp → List (IpcLock × IpcLock)
  | epollCtl .. => [(.epollInstances, .fdWatchers)]
  | epollNotifyFd .. => [(.fdWatchers, .epollInstances)]
  | epollWait .. => [(.epollInstances, .pipes)]
  | createPipe => [(.pipeConfig, .pipes)]
  | pipeWrite .. | pipeRead .. => [(.pipes, .pipeConfig), (.fdWatchers, .epollInstances)]
  | register .. | send .. | sendBlocking .. | sendBatch .. => [(.ipcConfig, .ipcManager)]
  | unregister .. => [(.ipcManager, .ipcConfig)]
  | recv .. | recvBlocking .. => []

def IpcOp.idle : IpcOp → List IpcLock
  | sendBlocking .. => [.ipcConfig]
  | _ => []

def IpcOp.Opposite (op op' : IpcOp) : Prop := ∃ m l, (m, l) ∈ op.nests ∧ (l, m) ∈ op'.nests

/-! ## The calls keep to their nestings -/

section Calls

variable {E : IpcLock → IpcLock → Prop} {idle held : List IpcLock}

theorem balanced_touch {l : IpcLock} (hl : ∀ m ∈ held, E m l) : Balanced E idle held (touch l) :=
  balanced_guard hl balanced_pure

theorem balanced_epollNotifyFd (hE : E .fdWatchers .epollInstances) (fd : ℕ) :
    Balanced E idle [] (epollNotifyFd fd) := by
  refine balanced_section (by simp) fun s => ?_
  split
  · exact balanced_pure
  · exact balanced_guard (by simpa using hE) balanced_modify

theorem balanced_epollCtl (hE : E .epollInstances .fdWatchers) (eid : EpollFd) (op : UInt32)
    (fd : ℕ) (event : EpollEvent) : Balanced E idle [] (epollCtl eid op fd event) := by
  -- all that `ADD` and `DEL` do besides reading
  have hboth : ∀ f g : IpcState → IpcState, Balanced E idle [.epollInstances]
      (do modify f; guard .fdWatchers (modify g); return (0 : ℤ)) := by
    intro f g
    refine balanced_bind balanced_modify fun _ => balanced_bind ?_ fun _ => balanced_pure
    exact balanced_guard (by simpa using hE) balanced_modify
  refine balanced_section (by simp) fun s => ?_
  split
  · exact balanced_pure
  · simp [hboth]

section

variable (hE : E .epollInstances .pipes)
include hE

theorem balanced_readable (desc : FileDesc) : Balanced E idle [.epollInstances] desc.readable := by
  cases desc with
  | pipe readEnd =>
    cases readEnd with
    | true =>
      exact balanced_section (by simpa using hE) fun _ => balanced_pure
    | false => exact balanced_pure
  | device => exact balanced_pure

theorem balanced_writable (desc : FileDesc) : Balanced E idle [.epollInstances] desc.writable := by
  cases desc with
  | pipe readEnd =>
    cases readEnd with
    | true => exact balanced_pure
    | false =>
      exact balanced_section (by simpa using hE) fun _ => balanced_pure
  | device => exact balanced_pure

omit hE in
theorem balanced_ifWanted {state : MonitoredFd} {event : UInt32} {question : IpcProg Bool}
    (h : Balanced E idle held question) : Balanced E idle held (ifWanted state event question) := by
  simp [ifWanted, h]

theorem balanced_checkFdReadiness (tid : TaskId) (fd : ℕ) (state : MonitoredFd) :
    Balanced E idle [.epollInstances] (checkFdReadiness tid fd state) := by
  refine balanced_bind balanced_get fun s => ?_
  split
  · exact balanced_pure
  · exact balanced_bind (balanced_ifWanted (balanced_readable hE _)) fun _ =>
      balanced_map (balanced_ifWanted (balanced_writable hE _))

theorem balanced_checkReady (tid : TaskId) (ep : EpollInstance) :
    Balanced E idle [.epollInstances] (checkReady tid ep) := by
  refine balanced_map (balanced_foldlM (fun acc x => ?_) _)
  refine balanced_bind (balanced_checkFdReadiness hE tid x.1 x.2) fun revents => ?_
  simp

theorem balanced_epollPoll (eid : EpollFd) (tid : TaskId) (bufLen : ℕ) (timeoutMs : ℤ)
    (deadline : ℕ) : Balanced E idle [] (epollPoll eid tid bufLen timeoutMs deadline) := by
  refine balanced_section (by simp) fun s => ?_
  split
  · exact balanced_pure
  · refine balanced_bind (balanced_checkReady hE tid _) fun _ => ?_
    simp

end

theorem balanced_createPipe (hE : E .pipeConfig .pipes) : Balanced E idle [] createPipe := by
  refine balanced_guard (by simp) (balanced_bind balanced_get fun s =>
    balanced_bind balanced_get fun s' => balanced_bind balanced_modify fun _ =>
    balanced_bind ?_ fun full => ?_)
  · exact balanced_section (by simpa using hE) fun _ => balanced_pure
  split_ifs
  · exact balanced_pure
  · exact balanced_map (balanced_guard (by simpa using hE) balanced_modify)

theorem balanced_pipeSection (hE : E .pipes .pipeConfig) (id : PipeId)
    (section' : PipeBuffer → Outcome × PipeBuffer) (counts : PipeBuffer → Outcome → Bool) :
    Balanced E idle [] (pipeSection id section' counts) := by
  refine balanced_section (by simp) fun s => ?_
  split
  · exact balanced_pure
  dsimp only
  split_ifs
  · exact balanced_bind (balanced_touch (by simpa using hE)) fun _ =>
      balanced_map balanced_modify
  · exact balanced_map balanced_modify

theorem balanced_pipeReport (hE : E .fdWatchers .epollInstances) (id : PipeId) (outcome : Outcome) :
    Balanced E [] [] (pipeReport id outcome) := by
  rw [pipeReport]
  split_ifs
  · exact balanced_bind (balanced_touch (by simp)) fun _ =>
      balanced_map (balanced_epollNotifyFd hE id)
  · exact balanced_pure

theorem balanced_pipeCall (hE : E .pipes .pipeConfig) (hE' : E .fdWatchers .epollInstances)
    (tid : TaskId) (c : PipeCall) (counts : PipeBuffer → Outcome → Bool) :
    Balanced E [] [] (pipeCall tid c counts) := by
  rw [pipeCall]
  split_ifs
  · exact balanced_pure
  refine balanced_bind (balanced_pipeSection hE _ _ _) fun outcome => ?_
  split_ifs
  · exact balanced_bind balanced_yield fun _ =>
      balanced_bind (balanced_pipeSection hE _ _ _) fun outcome =>
        balanced_pipeReport hE' _ outcome
  · exact balanced_pipeReport hE' _ outcome

theorem balanced_register (hE : E .ipcConfig .ipcManager) (tid : TaskId) :
    Balanced E idle [] (register tid) := by
  refine balanced_section (by simp) fun s => ?_
  refine balanced_section (by simpa using hE) fun s => ?_
  simp

theorem balanced_unregister (hE : E .ipcManager .ipcConfig) (tid : TaskId) :
    Balanced E idle [] (unregister tid) := by
  refine balanced_section (by simp) fun s => ?_
  split_ifs
  · exact balanced_bind balanced_modify fun _ => balanced_touch (by simpa using hE)
  · exact balanced_pure

theorem balanced_trySend (hE : ∀ m ∈ held, E m .ipcManager) (sender tid : TaskId) (msg : Message)
    {full : MessageQueue → IpcProg (Option (Except IpcError ℕ))}
    (hfull : ∀ q, Balanced E idle (.ipcManager :: held) (full q)) :
    Balanced E idle held (trySend sender tid msg full) := by
  refine balanced_guard hE (balanced_bind balanced_get fun s => ?_)
  split
  · exact balanced_pure
  split_ifs
  · exact balanced_pure
  · exact balanced_pure
  · split
    · simp
    · exact hfull _

theorem balanced_tryRecv (hE : ∀ m ∈ held, E m .ipcManager) (tid : TaskId)
    {empty : MessageQueue → IpcProg (Option (Except IpcError Message))}
    (hempty : ∀ q, Balanced E idle (.ipcManager :: held) (empty q)) :
    Balanced E idle held (tryRecv tid empty) := by
  refine balanced_guard hE (balanced_bind balanced_get fun s => ?_)
  split
  · exact balanced_pure
  split_ifs
  · exact balanced_pure
  · split
    · exact balanced_map balanced_modify
    · exact hempty _

theorem balanced_send (hE : E .ipcConfig .ipcManager) (sender tid : TaskId) (msg : Message) :
    Balanced E idle [] (send sender tid msg) := by
  refine balanced_section (by simp) fun s => ?_
  dsimp only
  split_ifs
  · exact balanced_pure
  · exact balanced_map (balanced_trySend (by simpa using hE) _ _ _ fun _ => balanced_pure)

theorem balanced_sendBatch (hE : E .ipcConfig .ipcManager) (sender tid : TaskId)
    (messages : List Message) : Balanced E idle [] (sendBatch sender tid messages) := by
  refine balanced_section (by simp) fun s => ?_
  refine balanced_section (by simpa using hE) fun s => ?_
  split
  · exact balanced_pure
  · simp

theorem balanced_recvReport (result : Except IpcError Message) :
    Balanced E idle [] (recvReport result) := by
  cases result with
  | ok => exact balanced_map (balanced_touch (by simp))
  | error => exact balanced_pure

theorem balanced_recvBlockingBody (tid : TaskId) (deadline : Option ℕ) :
    Balanced E [] [] (recvBlockingBody tid deadline) := by
  refine balanced_bind (balanced_tryRecv (by simp) _ fun q => ?_) fun result => ?_
  · simp
  split
  · exact balanced_recvReport _
  · exact balanced_bind (balanced_touch (by simp)) fun _ =>
      balanced_map balanced_yield

theorem within_sendBlockingEntry (msg : Message) (timeoutMs : Option ℕ) :
    Within E [.ipcConfig] (Turn.locks [.ipcConfig]) [] (sendBlockingEntry msg timeoutMs) := by
  refine ⟨by simp, fun s => ?_⟩
  change Within E _ _ _ (if _ then _ else _)
  split_ifs
  · exact ⟨List.mem_cons_self, rfl⟩
  · rfl

theorem within_sendBlockingBody (hE : E .ipcConfig .ipcManager) (sender tid : TaskId)
    (msg : Message) (deadline : Option ℕ) :
    Within E [.ipcConfig] (Turn.locks [.ipcConfig]) [.ipcConfig]
      (sendBlockingBody sender tid msg deadline) := by
  refine balanced_bind (balanced_trySend (by simpa using hE) _ _ _ fun q => ?_) fun result => ?_
  · simp
  · split
    · exact ⟨List.mem_cons_self, rfl⟩
    · exact balanced_bind balanced_yield fun _ => rfl

end Calls

attribute [local simp] IpcOp.nests in
theorem ipcRoutines_keeps (op : IpcOp) :
    ipcRoutines.Keeps (fun m l => (m, l) ∈ op.nests) op.idle op := by
  cases op with
  | epollCtl =>
    refine keeps_of_balanced ?_ fun _ => balanced_pure
    exact balanced_map (balanced_epollCtl (by simp) _ _ _ _)
  | epollNotifyFd =>
    refine keeps_of_balanced ?_ fun _ => balanced_pure
    exact balanced_map (balanced_epollNotifyFd (by simp) _)
  | epollWait =>
    refine keeps_of_balanced (balanced_map balanced_get) ?_
    intro deadline
    refine balanced_bind (balanced_epollPoll (by simp) _ _ _ _ _) fun reply => ?_
    split
    · exact balanced_pure
    · exact balanced_map balanced_yield
  | createPipe =>
    refine keeps_of_balanced ?_ fun _ => balanced_pure
    exact balanced_map (balanced_createPipe (by simp))
  | pipeWrite | pipeRead =>
    refine keeps_of_balanced ?_ fun _ => balanced_pure
    exact balanced_pipeCall (by simp) (by simp) _ _ _
  | register =>
    refine keeps_of_balanced ?_ fun _ => balanced_pure
    exact balanced_map (balanced_register (by simp) _)
  | unregister =>
    refine keeps_of_balanced ?_ fun _ => balanced_pure
    exact balanced_map (balanced_unregister (by simp) _)
  | send =>
    exact keeps_of_balanced (balanced_send (by simp) _ _ _) fun _ => balanced_pure
  | sendBlocking sender tid msg timeoutMs =>
    exact ⟨within_sendBlockingEntry msg timeoutMs, within_sendBlockingBody (by simp) sender tid msg⟩
  | recv tid =>
    exact keeps_of_balanced (balanced_bind (balanced_tryRecv (by simp) _ fun _ =>
      balanced_pure) fun _ => balanced_recvReport _) fun _ => balanced_pure
  | recvBlocking tid =>
    exact keeps_of_balanced (balanced_map balanced_get) (balanced_recvBlockingBody tid)
  | sendBatch =>
    exact keeps_of_balanced (balanced_sendBatch (by simp) _ _ _) fun _ => balanced_pure

/-! ## Runs -/

abbrev IpcMachine := Machine TaskId IpcOp IpcLock IpcState (Option ℕ) IpcReply

abbrev IpcEvent := MachineEvent TaskId IpcOp IpcState

namespace IpcMachine

variable {s : IpcMachine} {m l : IpcLock}

abbrev step : IpcMachine → IpcEvent → IpcMachine := Machine.step ipcRoutines

def Apart (s : IpcMachine) : IpcEvent → Prop
  | .call t op => s.running t = none → ∀ u op', s.running u = some op' → ¬ op.Opposite op'
  | _ => True

def Nests (s : IpcMachine) (m l : IpcLock) : Prop :=
  ∃ t op, s.running t = some op ∧ (m, l) ∈ op.nests

def OneWay (s : IpcMachine) : Prop := ∀ m l, s.Nests m l → ¬ s.Nests l m

theorem oneWay_start (data : IpcState) : OneWay (Machine.start data) := by
  rintro m l ⟨t, op, hrun, -⟩
  cases hrun

theorem not_opposite_self (op : IpcOp) : ¬ op.Opposite op := by
  rintro ⟨m, l, h, h'⟩
  cases op <;> grind [IpcOp.nests]

theorem OneWay.step (h : s.OneWay) {ev : IpcEvent} (hev : s.Apart ev) : (step s ev).OneWay := by
  rintro m l ⟨t, op, hrun, hmem⟩ ⟨u, op', hrun', hmem'⟩
  obtain hbefore | ⟨hidle, rfl⟩ := running_step hrun
  · obtain hbefore' | ⟨hidle', rfl⟩ := running_step hrun'
    · exact h m l ⟨t, op, hbefore, hmem⟩ ⟨u, op', hbefore', hmem'⟩
    · exact hev hidle' t op hbefore ⟨l, m, hmem', hmem⟩
  · obtain hbefore' | ⟨-, heq⟩ := running_step hrun'
    · exact hev hidle u op' hbefore' ⟨m, l, hmem, hmem'⟩
    · cases heq
      exact not_opposite_self op ⟨m, l, hmem, hmem'⟩

theorem mem_nests {op : IpcOp} (h : (m, l) ∈ op.nests) :
    (m, l) ∈ [(IpcLock.epollInstances, IpcLock.fdWatchers), (.fdWatchers, .epollInstances),
      (.epollInstances, .pipes), (.pipeConfig, .pipes), (.pipes, .pipeConfig),
      (.ipcConfig, .ipcManager), (.ipcManager, .ipcConfig)] := by
  cases op <;> grind [IpcOp.nests]

theorem mem_idle {op : IpcOp} (h : l ∈ op.idle) :
    ∃ sender tid msg timeoutMs, op = .sendBlocking sender tid msg timeoutMs := by
  cases op with
  | sendBlocking sender tid msg timeoutMs => exact ⟨sender, tid, msg, timeoutMs, rfl⟩
  | _ => cases h

open Classical in
noncomputable def rank (s : IpcMachine) : IpcLock → ℕ
  | .fdWatchers => if s.Nests .epollInstances .fdWatchers then 2 else 0
  | .epollInstances => 1
  | .pipes => 4
  | .pipeConfig => if s.Nests .pipeConfig .pipes then 3 else 5
  | .ipcManager => 1
  | .ipcConfig => if s.Nests .ipcConfig .ipcManager then 0 else 2

theorem OneWay.rank_lt (h : s.OneWay) (hnests : s.Nests m l) : s.rank m < s.rank l := by
  have hnot := h m l hnests
  obtain ⟨t, op, -, hmem⟩ := id hnests
  have hall := mem_nests hmem
  simp only [List.mem_cons, Prod.mk.injEq, List.not_mem_nil, or_false] at hall
  obtain ⟨rfl, rfl⟩ | ⟨rfl, rfl⟩ | ⟨rfl, rfl⟩ | ⟨rfl, rfl⟩ | ⟨rfl, rfl⟩ | ⟨rfl, rfl⟩ | ⟨rfl, rfl⟩ :=
    hall
  all_goals simp [rank, hnests, hnot]

def start (data : IpcState) : IpcMachine := Machine.start data

/-- **The order of the locks.**  In every run in which no two calls overlap that take two of the
locks in opposite orders, no tasks ever wait for each other's locks in a cycle.  And in every run
at all, a task that blocks has a lock exactly if it is in `send_blocking`. -/
theorem locks_ordered (data : IpcState) (evs : List IpcEvent) :
    let s := exec step (start data) evs
    (Along step Apart (start data) evs → ∀ t, ¬ Relation.TransGen s.Waits t t) ∧
      ∀ t, s.blocks t = true →
        ((∃ l, s.owner l = some t) ↔
          ∃ sender tid msg timeoutMs,
            s.running t = some (.sendBlocking sender tid msg timeoutMs)) := by
  intro s
  have hproper : s.Proper ipcRoutines (fun op m l => (m, l) ∈ op.nests) IpcOp.idle :=
    exec_invariant (proper_start data) fun _ _ h =>
      h.step fun _ op _ => ipcRoutines_keeps op
  refine ⟨fun hapart t => ?_, fun t hblocks => ?_⟩
  · have honeWay : s.OneWay := hapart.invariant (oneWay_start data) fun _ _ h hev => h.step hev
    refine hproper.not_waits_cycle s.rank ?_ t
    exact fun u op hrun m l hmem => honeWay.rank_lt ⟨u, op, hrun, hmem⟩
  obtain ⟨op, hrun, -, hholds⟩ := hproper.holds_of_blocks hblocks
  constructor
  · rintro ⟨l, howner⟩
    obtain ⟨sender, tid, msg, timeoutMs, rfl⟩ := mem_idle ((hholds l).mpr howner)
    exact ⟨sender, tid, msg, timeoutMs, hrun⟩
  · rintro ⟨sender, tid, msg, timeoutMs, hrun'⟩
    cases hrun.symm.trans hrun'
    exact ⟨.ipcConfig, (hholds _).mp List.mem_cons_self⟩

/-! ## Runs that go wrong -/

def race (op op' : IpcOp) (n n' : ℕ) : List IpcEvent :=
  [.call 1 op, .call 2 op'] ++ List.replicate n (.step 1) ++ List.replicate n' (.step 2)

def sampleState : IpcState where
  fdWatchers := (∅ : ExtTreeMap _ _ _).insert 3 ((∅ : ExtTreeSet _ _).insert 5000)
  epollInstances := (∅ : ExtTreeMap _ _ _).insert 5000
    ⟨(∅ : ExtTreeMap _ _ _).insert 3 ⟨epollIn, 0, false, false⟩, []⟩
  pipes := (∅ : ExtTreeMap _ _ _).insert 1 { PipeBuffer.new 4096 with readClosed := true }
  ipcManager := (∅ : ExtTreeMap _ _ _).insert 8 ⟨[⟨[1], 0⟩], 1, [], [], false, []⟩

/-- A pipe is made while another task waits to make one. -/
theorem locks_ordered_sample :
    ∃ evs, evs = race .createPipe .createPipe 4 2 ∧
      (exec step (start sampleState) evs).Waits 2 1 ∧
      ∀ t, ¬ Relation.TransGen (exec step (start sampleState) evs).Waits t t := by
  refine ⟨_, rfl, ⟨.pipeConfig, ?_, ?_⟩, (locks_ordered sampleState _).1 ⟨?_, ?_, ?_⟩⟩
  · decide +kernel
  · decide +kernel
  · intro _ u op' hrun
    cases hrun
  · rintro - u op' hrun ⟨m, l, hmem, hmem'⟩
    obtain hrun | ⟨-, heq⟩ := running_step hrun
    · cases hrun
    · cases heq
      grind [IpcOp.nests]
  · exact ⟨trivial, trivial, trivial, trivial, trivial, trivial, trivial⟩

/-- **Calls that wait for each other.**  `epoll_ctl` and `epoll_notify_fd`, `create_pipe` and
`pipe_write`, `register` and `unregister` may each hold the lock that the other one wants; and
`send_blocking` blocks with the configuration locked. -/
theorem calls_wait_in_cycle :
    (∃ s, s = exec step (start sampleState)
        (race (.epollCtl 5000 epollCtlAdd 4 ⟨epollIn, 0⟩) (.epollNotifyFd 3) 3 2) ∧
      s.Waits 1 2 ∧ s.Waits 2 1) ∧
    (∃ s, s = exec step (start sampleState)
        (race .createPipe (.pipeWrite 1 2 [0] false none) 4 2) ∧
      s.Waits 1 2 ∧ s.Waits 2 1) ∧
    (∃ s, s = exec step (start sampleState) (race (.register 7) (.unregister 8) 2 3) ∧
      s.Waits 1 2 ∧ s.Waits 2 1) ∧
    ∃ s, s = exec step (start sampleState)
        (race (.sendBlocking 1 8 ⟨[2], 0⟩ none) (.recv 9) 8 0) ∧
      s.blocks 1 = true ∧ s.owner .ipcConfig = some 1 := by
  refine ⟨⟨_, rfl, ⟨.fdWatchers, ?_, ?_⟩, .epollInstances, ?_, ?_⟩,
    ⟨_, rfl, ⟨.pipes, ?_, ?_⟩, .pipeConfig, ?_, ?_⟩,
    ⟨_, rfl, ⟨.ipcManager, ?_, ?_⟩, .ipcConfig, ?_, ?_⟩, ⟨_, rfl, ?_, ?_⟩⟩
  all_goals decide +kernel

end IpcMachine

end IonaOs.Process
