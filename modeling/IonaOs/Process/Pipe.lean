import IonaOs.Lib.Ring
import IonaOs.Process.Wait

/-!
# Pipes
-/

namespace IonaOs.Process

open Lib

abbrev PipeId := ℕ

inductive PipeError where
  | wouldBlock
  | brokenPipe
  | invalidPipe
  | tooManyPipes
  | invalidArgument
deriving DecidableEq

def minPipeBufSize : ℕ := 4096
def maxPipeBufSize : ℕ := 1048576

/-! ## The buffer -/

structure PipeBuffer where
  buf : List UInt8
  head : ℕ
  tail : ℕ
  count : ℕ
  capacity : ℕ
  readersWaiting : List TaskId
  writersWaiting : List TaskId
  writeClosed : Bool
  readClosed : Bool

inductive PipeResult where
  | wrote (n : ℕ)
  | read (bytes : List UInt8)
  | closed
  | error (e : PipeError)
deriving DecidableEq

inductive Outcome where
  | done (result : PipeResult) (woken : List TaskId)
  | wait
  | panic
deriving DecidableEq

namespace PipeBuffer

def new (capacity : ℕ) : PipeBuffer :=
  let capacity := max minPipeBufSize (min capacity maxPipeBufSize)
  ⟨List.replicate capacity 0, 0, 0, 0, capacity, [], [], false, false⟩

variable (p : PipeBuffer)

def isEmpty : Bool := p.count = 0
def isFull : Bool := p.count = p.capacity
def space : ℕ := p.capacity - p.count

def writeBytes (data : List UInt8) : Option (PipeBuffer × ℕ) := do
  let n := min data.length p.space
  let (buf, tail) ← ringPut p.capacity (data.take n) p.buf p.tail
  some ({ p with buf := buf, tail := tail, count := p.count + n }, n)

/-- The bytes that go to a buffer of length `len`. -/
def readBytes (len : ℕ) : Option (PipeBuffer × List UInt8) := do
  let n := min len p.count
  let (bytes, head) ← ringGet p.capacity p.buf n p.head
  some ({ p with head := head, count := p.count - n }, bytes)

def wakeReaders : List TaskId × PipeBuffer := (p.readersWaiting, { p with readersWaiting := [] })
def wakeWriters : List TaskId × PipeBuffer := (p.writersWaiting, { p with writersWaiting := [] })

variable (tid : TaskId)

def addReader : PipeBuffer :=
  if tid ∈ p.readersWaiting then p else { p with readersWaiting := p.readersWaiting ++ [tid] }

def addWriter : PipeBuffer :=
  if tid ∈ p.writersWaiting then p else { p with writersWaiting := p.writersWaiting ++ [tid] }

def removeReader : Bool × PipeBuffer :=
  (p.readersWaiting.contains tid, { p with readersWaiting := p.readersWaiting.erase tid })

def removeWriter : Bool × PipeBuffer :=
  (p.writersWaiting.contains tid, { p with writersWaiting := p.writersWaiting.erase tid })

/-! ### Writing -/

def finishWrite (data : List UInt8) : Outcome × PipeBuffer :=
  match p.writeBytes data with
  | none => (.panic, p)
  | some (p, n) => (.done (.wrote n) p.wakeReaders.1, p.wakeReaders.2)

/-- The first section of `pipe_write`. -/
def writeEnter (data : List UInt8) (nonblock : Bool) : Outcome × PipeBuffer :=
  if p.readClosed then (.done (.error .brokenPipe) [], p)
  else if p.writeClosed then (.done (.error .brokenPipe) [], p)
  else if nonblock && p.isFull then (.done (.error .wouldBlock) [], p)
  else if !p.isFull then p.finishWrite data
  else (.wait, p.addWriter tid)

/-- The second section of `pipe_write`: a task that is still on the list has timed out. -/
def writeResume (data : List UInt8) : Outcome × PipeBuffer :=
  let wasRemoved := (p.removeWriter tid).1
  let p := (p.removeWriter tid).2
  if p.readClosed then (.done (.error .brokenPipe) [], p)
  else if p.writeClosed then (.done (.error .brokenPipe) [], p)
  else if !wasRemoved then
    if !p.isFull then p.finishWrite data else (.done (.error .wouldBlock) [], p)
  else (.done (.error .wouldBlock) [], p)

/-! ### Reading -/

def finishRead (len : ℕ) : Outcome × PipeBuffer :=
  match p.readBytes len with
  | none => (.panic, p)
  | some (p, bytes) => (.done (.read bytes) p.wakeWriters.1, p.wakeWriters.2)

/-- The first section of `pipe_read`. -/
def readEnter (len : ℕ) (nonblock : Bool) : Outcome × PipeBuffer :=
  if p.writeClosed && p.isEmpty then (.done (.read []) [], p)
  else if p.readClosed then (.done (.error .brokenPipe) [], p)
  else if nonblock && p.isEmpty then (.done (.error .wouldBlock) [], p)
  else if !p.isEmpty then p.finishRead len
  else (.wait, p.addReader tid)

/-- The second section of `pipe_read`. -/
def readResume (len : ℕ) : Outcome × PipeBuffer :=
  let wasRemoved := (p.removeReader tid).1
  let p := (p.removeReader tid).2
  if p.readClosed then (.done (.error .brokenPipe) [], p)
  else if p.writeClosed && p.isEmpty then (.done (.read []) [], p)
  else if !wasRemoved then
    if !p.isEmpty then p.finishRead len else (.done (.error .wouldBlock) [], p)
  else (.done (.error .wouldBlock) [], p)

/-! ### Closing -/

def closeWriteEnd : Outcome × PipeBuffer :=
  if p.writeClosed then (.done .closed [], p)
  else
    let p := { p with writeClosed := true }
    (.done .closed p.wakeReaders.1, p.wakeReaders.2)

def closeReadEnd : Outcome × PipeBuffer :=
  if p.readClosed then (.done .closed [], p)
  else
    let p := { p with readClosed := true }
    (.done .closed p.wakeWriters.1, p.wakeWriters.2)

end PipeBuffer

/-! ## Calls -/

/-- A call of `pipe_write`, `pipe_read`, `close_write_end` or `close_read_end`. -/
inductive PipeCall where
  | write (pipe : PipeId) (data : List UInt8) (nonblock : Bool) (timeoutMs : Option ℕ)
  | read (pipe : PipeId) (len : ℕ) (nonblock : Bool) (timeoutMs : Option ℕ)
  | closeWrite (pipe : PipeId)
  | closeRead (pipe : PipeId)
deriving DecidableEq

namespace PipeCall

def pipe : PipeCall → PipeId
  | write pipe .. | read pipe .. | closeWrite pipe | closeRead pipe => pipe

def isInvalid : PipeCall → Bool
  | write _ data .. => data.isEmpty
  | read _ len .. => len = 0
  | _ => false

def enter (tid : TaskId) : PipeCall → PipeBuffer → Outcome × PipeBuffer
  | write _ data nonblock _, p => p.writeEnter tid data nonblock
  | read _ len nonblock _, p => p.readEnter tid len nonblock
  | closeWrite _, p => p.closeWriteEnd
  | closeRead _, p => p.closeReadEnd

def resume (tid : TaskId) : PipeCall → PipeBuffer → Outcome × PipeBuffer
  | write _ data .., p => p.writeResume tid data
  | read _ len .., p => p.readResume tid len
  | _, p => (.done .closed [], p)

end PipeCall

def PipeCall.condition (now : ℕ) : PipeCall → WakeCondition
  | write _ _ _ (some ms) | read _ _ _ (some ms) =>
    .timer (if ms = 0 then 2 ^ 64 - 1 else (now + ms) % 2 ^ 64)
  | _ => .any

/-! ## The system -/

inductive TaskPhase where
  | returning (rest : List TaskId)
  | entering (call : PipeCall) (condition : WakeCondition)
  | queued (call : PipeCall)
  | asleep (call : PipeCall)
deriving DecidableEq

structure Returned where
  tid : TaskId
  call : PipeCall
  result : PipeResult

structure PipeSystem where
  pipes : PipeId → Option PipeBuffer
  tasks : TaskId → TaskPhase
  sched : Sched
  log : List Returned
  panicked : Bool

inductive PipeEvent where
  | call (tid : TaskId) (c : PipeCall)
  | enqueue (tid : TaskId)
  | block (tid : TaskId)
  | resume (tid : TaskId)
  | wake (tid : TaskId)
  | tick (now : ℕ)

namespace PipeSystem

def start (sizes : PipeId → Option ℕ) : PipeSystem :=
  ⟨fun id => (sizes id).map PipeBuffer.new, fun _ => .returning [], .start, [], false⟩

variable (s : PipeSystem)

def settle (tid : TaskId) (c : PipeCall) : Outcome → PipeSystem
  | .done result woken =>
    { s with
      tasks := Function.update s.tasks tid (.returning woken)
      log := s.log ++ [⟨tid, c, result⟩] }
  | .wait => { s with tasks := Function.update s.tasks tid (.entering c (c.condition s.sched.now)) }
  | .panic => { s with panicked := true }

def locked (tid : TaskId) (c : PipeCall) (sec : PipeBuffer → Outcome × PipeBuffer) : PipeSystem :=
  match s.pipes c.pipe with
  | none => s.settle tid c (.done (.error .invalidPipe) [])
  | some p =>
    { s with pipes := Function.update s.pipes c.pipe (some (sec p).2) }.settle tid c (sec p).1

def step : PipeEvent → PipeSystem
  | .call tid c =>
    match s.tasks tid with
    | .returning [] =>
      if c.isInvalid then s.settle tid c (.done (.error .invalidArgument) [])
      else s.locked tid c (c.enter tid)
    | _ => s
  | .enqueue tid =>
    match s.tasks tid with
    | .entering c condition =>
      { s with
        tasks := Function.update s.tasks tid (.queued c)
        sched := s.sched.enqueue tid condition }
    | _ => s
  | .block tid =>
    match s.tasks tid with
    | .queued c =>
      { s with
        tasks := Function.update s.tasks tid (.asleep c)
        sched := s.sched.blockTask tid }
    | _ => s
  | .resume tid =>
    match s.tasks tid with
    | .asleep c => s.locked tid c (c.resume tid)
    | _ => s
  | .wake tid =>
    match s.tasks tid with
    | .returning (first :: rest) =>
      { s with
        tasks := Function.update s.tasks tid (.returning rest)
        sched := s.sched.wakeTask first }
    | _ => s
  | .tick now => { s with sched := s.sched.tick now }

end PipeSystem

end IonaOs.Process
