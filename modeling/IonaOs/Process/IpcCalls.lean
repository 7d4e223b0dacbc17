import IonaOs.Lib.Locks
import IonaOs.Process.Pipe

/-!
# Calls between tasks, with their locks
-/

namespace IonaOs.Process

open Std Lib Prog

/-! ## Event polling -/

def epollIn : UInt32 := 0x001
def epollOut : UInt32 := 0x004
def epollErr : UInt32 := 0x008
def epollHup : UInt32 := 0x010
def epollEt : UInt32 := 0x80000000

def epollCtlAdd : UInt32 := 1
def epollCtlMod : UInt32 := 2
def epollCtlDel : UInt32 := 3

abbrev EpollFd := UInt64

structure EpollEvent where
  events : UInt32
  data : UInt64

structure MonitoredFd where
  events : UInt32
  data : UInt64
  reported : Bool
  ready : Bool

structure EpollInstance where
  interests : ExtTreeMap ℕ MonitoredFd compare
  waiters : List TaskId

namespace EpollInstance

def addWaiter (ep : EpollInstance) (tid : TaskId) : EpollInstance :=
  if tid ∈ ep.waiters then ep else { ep with waiters := ep.waiters ++ [tid] }

def notify (ep : EpollInstance) (fd : ℕ) : EpollInstance :=
  { interests :=
      match ep.interests[fd]? with
      | none => ep.interests
      | some state =>
        ep.interests.insert fd
          { state with
            ready := true
            reported := if state.events &&& epollEt ≠ 0 then false else state.reported }
    waiters := [] }

end EpollInstance

inductive FileDesc where
  | pipe (readEnd : Bool) (id : PipeId)
  | device (readable writable error hup : Bool)

/-! ## Messages -/

structure Message where
  data : List UInt8
  priority : UInt8
deriving DecidableEq

structure MessageQueue where
  queue : List Message
  capacity : ℕ
  readersWaiting : List TaskId
  writersWaiting : List TaskId
  closed : Bool
  allowedSenders : List TaskId
deriving DecidableEq

inductive IpcError where
  | queueFull
  | queueEmpty
  | taskNotFound
  | permissionDenied
  | timeout
  | invalidArgument
  | queueClosed

namespace MessageQueue

def new (capacity : ℕ) : MessageQueue := ⟨[], capacity, [], [], false, []⟩

variable (q : MessageQueue)

def isFull : Bool := q.capacity ≤ q.queue.length

/-- A message goes before the first one of a larger number; `none` if the queue is full. -/
def push (msg : Message) : Option MessageQueue :=
  if q.isFull then none
  else
    let before := q.queue.takeWhile fun m => !(msg.priority < m.priority)
    let after := q.queue.dropWhile fun m => !(msg.priority < m.priority)
    some { q with queue := before ++ msg :: after }

def pop : Option (Message × MessageQueue) :=
  match q.queue with
  | [] => none
  | msg :: rest => some (msg, { q with queue := rest })

def wakeReaders : MessageQueue := { q with readersWaiting := [] }
def wakeWriters : MessageQueue := { q with writersWaiting := [] }

def addReader (tid : TaskId) : MessageQueue :=
  if tid ∈ q.readersWaiting then q else { q with readersWaiting := q.readersWaiting ++ [tid] }

def addWriter (tid : TaskId) : MessageQueue :=
  if tid ∈ q.writersWaiting then q else { q with writersWaiting := q.writersWaiting ++ [tid] }

def isSenderAllowed (tid : TaskId) : Bool :=
  q.allowedSenders.isEmpty || q.allowedSenders.contains tid

/-- The loop of `send_batch`: the number of messages sent. -/
def pushAll (maxSize : ℕ) (q : MessageQueue) : List Message → ℕ × MessageQueue
  | [] => (0, q)
  | msg :: rest =>
    if maxSize < msg.data.length then pushAll maxSize q rest
    else
      match q.push msg with
      | none => (0, q)
      | some q =>
        let (sent, q) := pushAll maxSize q rest
        (sent + 1, q)

end MessageQueue

/-! ## The data and the locks -/

structure PipeConfig where
  defaultBufferSize : ℕ := 65536
  maxPipes : ℕ := 1024

structure IpcConfig where
  defaultCapacity : ℕ := 1024
  maxMessageSize : ℕ := 1048576

inductive IpcLock where
  | fdWatchers
  | epollInstances
  | pipeConfig
  | pipes
  | ipcConfig
  | ipcManager
deriving DecidableEq

structure IpcState where
  fdWatchers : ExtTreeMap ℕ (ExtTreeSet EpollFd compare) compare := ∅
  epollInstances : ExtTreeMap EpollFd EpollInstance compare := ∅
  pipeConfig : PipeConfig := {}
  pipes : ExtTreeMap PipeId PipeBuffer compare := ∅
  ipcConfig : IpcConfig := {}
  ipcManager : ExtTreeMap TaskId MessageQueue compare := ∅
  nextPipeId : PipeId := 1
  fds : TaskId → ℕ → Option FileDesc := fun _ _ => none
  now : ℕ := 0

namespace IpcState

variable (s : IpcState)

def setInstance (eid : EpollFd) (ep : EpollInstance) : IpcState :=
  { s with epollInstances := s.epollInstances.insert eid ep }

def setPipe (id : PipeId) (p : PipeBuffer) : IpcState := { s with pipes := s.pipes.insert id p }

def setQueue (tid : TaskId) (q : MessageQueue) : IpcState :=
  { s with ipcManager := s.ipcManager.insert tid q }

def watch (fd : ℕ) (eid : EpollFd) : IpcState :=
  { s with fdWatchers := s.fdWatchers.insert fd ((s.fdWatchers.getD fd ∅).insert eid) }

def unwatch (fd : ℕ) (eid : EpollFd) : IpcState :=
  match s.fdWatchers[fd]? with
  | none => s
  | some ids =>
    let ids := ids.erase eid
    { s with
      fdWatchers := if ids.isEmpty then s.fdWatchers.erase fd else s.fdWatchers.insert fd ids }

def notify (fd : ℕ) (ids : List EpollFd) : IpcState :=
  ids.foldl (fun s eid =>
    match s.epollInstances[eid]? with
    | none => s
    | some ep => s.setInstance eid (ep.notify fd)) s

end IpcState

/-! ## The calls -/

abbrev IpcProg := Prog IpcLock IpcState

inductive IpcReply where
  | unit
  | epoll (code : ℤ) (events : List EpollEvent)
  | created (result : Except PipeError PipeId)
  | pipe (outcome : Outcome)
  | sent (result : Except IpcError ℕ)
  | received (result : Except IpcError Message)

abbrev IpcTurn := Turn (Option ℕ) IpcReply

def touch (l : IpcLock) : IpcProg Unit := guard l (pure ())

def epollNotifyFd (fd : ℕ) : IpcProg Unit :=
  guard .fdWatchers do
    let s ← get
    match s.fdWatchers[fd]? with
    | none => return ()
    | some ids => guard .epollInstances (modify (·.notify fd ids.toList))

def epollCtl (eid : EpollFd) (op : UInt32) (fd : ℕ) (event : EpollEvent) : IpcProg ℤ :=
  guard .epollInstances do
    let s ← get
    match s.epollInstances[eid]? with
    | none => return -1
    | some ep =>
      if op = epollCtlAdd then
        if ep.interests.contains fd then return -1
        else
          let state : MonitoredFd := ⟨event.events, event.data, false, false⟩
          modify (·.setInstance eid { ep with interests := ep.interests.insert fd state })
          guard .fdWatchers (modify (·.watch fd eid))
          return 0
      else if op = epollCtlMod then
        if ep.interests.contains fd then
          let state : MonitoredFd := ⟨event.events, event.data, false, false⟩
          modify (·.setInstance eid { ep with interests := ep.interests.insert fd state })
          return 0
        else return -1
      else if op = epollCtlDel then
        if ep.interests.contains fd then
          modify (·.setInstance eid { ep with interests := ep.interests.erase fd })
          guard .fdWatchers (modify (·.unwatch fd eid))
          return 0
        else return -1
      else return -1

namespace FileDesc

def readable : FileDesc → IpcProg Bool
  | pipe true id => guard .pipes do
    let s ← get
    return (s.pipes[id]?).any fun p => !p.isEmpty
  | pipe false _ => return false
  | device r _ _ _ => return r

def writable : FileDesc → IpcProg Bool
  | pipe false id => guard .pipes do
    let s ← get
    return (s.pipes[id]?).any fun p => !p.isFull
  | pipe true _ => return true
  | device _ w _ _ => return w

def hasError : FileDesc → Bool
  | pipe .. => false
  | device _ _ e _ => e

def hasHup : FileDesc → Bool
  | pipe .. => false
  | device _ _ _ h => h

end FileDesc

def ifWanted (state : MonitoredFd) (event : UInt32) (question : IpcProg Bool) : IpcProg Bool :=
  if state.events &&& event ≠ 0 then question else return false

def checkFdReadiness (tid : TaskId) (fd : ℕ) (state : MonitoredFd) : IpcProg UInt32 := do
  let s ← get
  match s.fds tid fd with
  | none => return epollErr
  | some desc =>
    let readable ← ifWanted state epollIn desc.readable
    let writable ← ifWanted state epollOut desc.writable
    return (if readable then epollIn else 0) ||| (if writable then epollOut else 0) |||
      (if desc.hasError then epollErr else 0) ||| (if desc.hasHup then epollHup else 0)

/-- One turn of the loop in `check_ready`. -/
def checkOne (tid : TaskId) (acc : ExtTreeMap ℕ MonitoredFd compare × List EpollEvent)
    (x : ℕ × MonitoredFd) : IpcProg (ExtTreeMap ℕ MonitoredFd compare × List EpollEvent) := do
  let (fd, state) := x
  let revents ← checkFdReadiness tid fd state
  if revents = 0 then return acc
  else if state.events &&& epollEt ≠ 0 then
    -- an edge is reported once
    if state.reported then return acc
    else return (acc.1.insert fd { state with reported := true }, acc.2 ++ [⟨revents, state.data⟩])
  else return (acc.1.insert fd { state with ready := true }, acc.2 ++ [⟨revents, state.data⟩])

def checkReady (tid : TaskId) (ep : EpollInstance) : IpcProg (EpollInstance × List EpollEvent) := do
  let (interests, ready) ← ep.interests.toList.foldlM (checkOne tid) (ep.interests, [])
  return ({ ep with interests := interests }, ready)

/-- The deadline of `epoll_wait`: the end of time for a negative timeout. -/
def epollDeadline (now : ℕ) (timeoutMs : ℤ) : ℕ :=
  if timeoutMs < 0 then 2 ^ 64 - 1
  else if timeoutMs = 0 then 0
  else min (now + timeoutMs.toNat) (2 ^ 64 - 1)

/-- The section of a round of `epoll_wait`; `none` if the task is to block. -/
def epollPoll (eid : EpollFd) (tid : TaskId) (bufLen : ℕ) (timeoutMs : ℤ) (deadline : ℕ) :
    IpcProg (Option IpcReply) :=
  guard .epollInstances do
    let s ← get
    match s.epollInstances[eid]? with
    | none => return some (.epoll (-1) [])
    | some ep =>
      let (ep, ready) ← checkReady tid ep
      modify (·.setInstance eid ep)
      if ready ≠ [] then return some (.epoll (min ready.length bufLen) (ready.take bufLen))
      else
        let s ← get
        if timeoutMs = 0 ∨ deadline ≤ s.now then return some (.epoll 0 [])
        else
          modify (·.setInstance eid (ep.addWaiter tid))
          return none

def createPipe : IpcProg (Except PipeError PipeId) :=
  guard .pipeConfig do
    let cfg := (← get).pipeConfig
    let id := (← get).nextPipeId
    modify fun s => { s with nextPipeId := s.nextPipeId + 1 }
    let full ← guard .pipes do
      let s ← get
      return decide (cfg.maxPipes ≤ s.pipes.size)
    if full then return .error .tooManyPipes
    else
      guard .pipes (modify (·.setPipe id (.new cfg.defaultBufferSize)))
      return .ok id

def Outcome.moved : Outcome → Bool
  | .done (.wrote _) _ => true
  | .done (.read bytes) _ => !bytes.isEmpty
  | _ => false

/-- A section of `pipe_write` or `pipe_read`.  The configuration is read in the middle of it where
`counts` says so. -/
def pipeSection (id : PipeId) (section' : PipeBuffer → Outcome × PipeBuffer)
    (counts : PipeBuffer → Outcome → Bool) : IpcProg Outcome :=
  guard .pipes do
    let s ← get
    match s.pipes[id]? with
    | none => return .done (.error .invalidPipe) []
    | some p =>
      let (outcome, p') := section' p
      if counts p outcome then
        touch .pipeConfig
        modify (·.setPipe id p')
        return outcome
      else
        modify (·.setPipe id p')
        return outcome

def pipeReport (id : PipeId) (outcome : Outcome) : IpcProg IpcTurn :=
  if outcome.moved then do
    touch .pipeConfig
    epollNotifyFd id
    return .done (.pipe outcome)
  else return .done (.pipe outcome)

/-- `pipe_write` and `pipe_read`: a section, and a second one if the task had to block. -/
def pipeCall (tid : TaskId) (c : PipeCall) (counts : PipeBuffer → Outcome → Bool) :
    IpcProg IpcTurn :=
  if c.isInvalid then return .done (.pipe (.done (.error .invalidArgument) []))
  else do
    let outcome ← pipeSection c.pipe (c.enter tid) counts
    if outcome = .wait then
      yield
      let outcome ← pipeSection c.pipe (c.resume tid) fun _ _ => false
      pipeReport c.pipe outcome
    else pipeReport c.pipe outcome

def pipeWrite (id : PipeId) (tid : TaskId) (data : List UInt8) (nonblock : Bool)
    (timeoutMs : Option ℕ) : IpcProg IpcTurn :=
  pipeCall tid (.write id data nonblock timeoutMs) fun p outcome => p.readClosed || outcome = .wait

def pipeRead (id : PipeId) (tid : TaskId) (len : ℕ) (nonblock : Bool) (timeoutMs : Option ℕ) :
    IpcProg IpcTurn :=
  pipeCall tid (.read id len nonblock timeoutMs) fun _ outcome => outcome = .wait

def register (tid : TaskId) : IpcProg Unit :=
  guard .ipcConfig do
    let cfg := (← get).ipcConfig
    guard .ipcManager do
      let s ← get
      if s.ipcManager.contains tid then return ()
      else modify (·.setQueue tid (.new cfg.defaultCapacity))

def unregister (tid : TaskId) : IpcProg Unit :=
  guard .ipcManager do
    let s ← get
    if s.ipcManager.contains tid then
      modify fun s => { s with ipcManager := s.ipcManager.erase tid }
      touch .ipcConfig
    else return ()

def trySend (sender tid : TaskId) (msg : Message)
    (full : MessageQueue → IpcProg (Option (Except IpcError ℕ))) :
    IpcProg (Option (Except IpcError ℕ)) :=
  guard .ipcManager do
    let s ← get
    match s.ipcManager[tid]? with
    | none => return some (.error .taskNotFound)
    | some q =>
      if !q.isSenderAllowed sender then return some (.error .permissionDenied)
      else if q.closed then return some (.error .queueClosed)
      else
        match q.push msg with
        | some q =>
          modify (·.setQueue tid q.wakeReaders)
          return some (.ok 1)
        | none => full q

def send (sender tid : TaskId) (msg : Message) : IpcProg IpcTurn :=
  guard .ipcConfig do
    let cfg := (← get).ipcConfig
    if cfg.maxMessageSize < msg.data.length then return .done (.sent (.error .invalidArgument))
    else
      let result ← trySend sender tid msg fun _ => return none
      return .done (.sent (result.getD (.error .queueFull)))

/-- The guard of the configuration lives until `send_blocking` returns. -/
def sendBlockingEntry (msg : Message) (timeoutMs : Option ℕ) : IpcProg IpcTurn := do
  acquire .ipcConfig
  let s ← get
  if s.ipcConfig.maxMessageSize < msg.data.length then
    release .ipcConfig
    return .done (.sent (.error .invalidArgument))
  else return .again (timeoutMs.map fun ms => (s.now + ms) % 2 ^ 64)

def sendBlockingBody (sender tid : TaskId) (msg : Message) (deadline : Option ℕ) :
    IpcProg IpcTurn := do
  let result ← trySend sender tid msg fun q => do
    let s ← get
    if deadline.any (· ≤ s.now) then return some (.error .timeout)
    else
      modify (·.setQueue tid (q.addWriter sender))
      return none
  match result with
  | some result =>
    release .ipcConfig
    return .done (.sent result)
  | none =>
    yield
    return .again deadline

def tryRecv (tid : TaskId) (empty : MessageQueue → IpcProg (Option (Except IpcError Message))) :
    IpcProg (Option (Except IpcError Message)) :=
  guard .ipcManager do
    let s ← get
    match s.ipcManager[tid]? with
    | none => return some (.error .taskNotFound)
    | some q =>
      if q.closed then return some (.error .queueClosed)
      else
        match q.pop with
        | some (msg, q) =>
          modify (·.setQueue tid q.wakeWriters)
          return some (.ok msg)
        | none => empty q

def recvReport (result : Except IpcError Message) : IpcProg IpcTurn :=
  match result with
  | .ok msg => do
    touch .ipcConfig
    return .done (.received (.ok msg))
  | .error e => return .done (.received (.error e))

def recv (tid : TaskId) : IpcProg IpcTurn := do
  let result ← tryRecv tid fun _ => return none
  recvReport (result.getD (.error .queueEmpty))

def recvBlockingBody (tid : TaskId) (deadline : Option ℕ) : IpcProg IpcTurn := do
  let result ← tryRecv tid fun q => do
    let s ← get
    if deadline.any (· ≤ s.now) then return some (.error .timeout)
    else
      modify (·.setQueue tid (q.addReader tid))
      return none
  match result with
  | some result => recvReport result
  | none =>
    touch .ipcConfig
    yield
    return .again deadline

def sendBatch (sender tid : TaskId) (messages : List Message) : IpcProg IpcTurn :=
  guard .ipcConfig do
    let cfg := (← get).ipcConfig
    guard .ipcManager do
      let s ← get
      match s.ipcManager[tid]? with
      | none => return .done (.sent (.error .taskNotFound))
      | some q =>
        if q.closed then return .done (.sent (.error .queueClosed))
        else if !q.isSenderAllowed sender then return .done (.sent (.error .permissionDenied))
        else
          let (sent, q) := q.pushAll cfg.maxMessageSize messages
          modify (·.setQueue tid (if 0 < sent then q.wakeReaders else q))
          return .done (.sent (.ok sent))

/-! ## The routines -/

inductive IpcOp where
  | epollCtl (eid : EpollFd) (op : UInt32) (fd : ℕ) (event : EpollEvent)
  | epollNotifyFd (fd : ℕ)
  | epollWait (eid : EpollFd) (tid : TaskId) (bufLen : ℕ) (timeoutMs : ℤ)
  | createPipe
  | pipeWrite (id : PipeId) (tid : TaskId) (data : List UInt8) (nonblock : Bool)
      (timeoutMs : Option ℕ)
  | pipeRead (id : PipeId) (tid : TaskId) (len : ℕ) (nonblock : Bool) (timeoutMs : Option ℕ)
  | register (tid : TaskId)
  | unregister (tid : TaskId)
  | send (sender tid : TaskId) (msg : Message)
  | sendBlocking (sender tid : TaskId) (msg : Message) (timeoutMs : Option ℕ)
  | recv (tid : TaskId)
  | recvBlocking (tid : TaskId) (timeoutMs : Option ℕ)
  | sendBatch (sender tid : TaskId) (messages : List Message)

def ipcRoutines : Routines IpcOp IpcLock IpcState (Option ℕ) IpcReply where
  entry
    | .epollCtl eid op fd event => do
      let code ← epollCtl eid op fd event
      return .done (.epoll code [])
    | .epollNotifyFd fd => do
      epollNotifyFd fd
      return .done .unit
    | .epollWait _ _ _ timeoutMs => do
      let s ← get
      return .again (some (epollDeadline s.now timeoutMs))
    | .createPipe => do
      let result ← createPipe
      return .done (.created result)
    | .pipeWrite id tid data nonblock timeoutMs => pipeWrite id tid data nonblock timeoutMs
    | .pipeRead id tid len nonblock timeoutMs => pipeRead id tid len nonblock timeoutMs
    | .register tid => do
      register tid
      return .done .unit
    | .unregister tid => do
      unregister tid
      return .done .unit
    | .send sender tid msg => send sender tid msg
    | .sendBlocking _ _ msg timeoutMs => sendBlockingEntry msg timeoutMs
    | .recv tid => recv tid
    | .recvBlocking _ timeoutMs => do
      let s ← get
      return .again (timeoutMs.map fun ms => (s.now + ms) % 2 ^ 64)
    | .sendBatch sender tid messages => sendBatch sender tid messages
  body op deadline :=
    match op with
    | .epollWait eid tid bufLen timeoutMs => do
      let reply ← epollPoll eid tid bufLen timeoutMs (deadline.getD 0)
      match reply with
      | some reply => return .done reply
      | none =>
        yield
        return .again deadline
    | .sendBlocking sender tid msg _ => sendBlockingBody sender tid msg deadline
    | .recvBlocking tid _ => recvBlockingBody tid deadline
    -- the others have no loop
    | _ => return .done .unit

end IonaOs.Process
