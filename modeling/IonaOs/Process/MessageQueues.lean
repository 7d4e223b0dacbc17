import IonaOs.Lib.StableQueue
import IonaOs.Process.IpcCalls

/-!
# Message queues over whole runs
-/

namespace IonaOs.Process

open Std Lib

def maxQueueCapacity : ℕ := 65536

def Message.rank (msg : Message) : ℕ := msg.priority.toNat

namespace MessageQueue

/-- The loop of `recv_all`. -/
def popAll (q : MessageQueue) : List Message × MessageQueue :=
  match _h : q.pop with
  | none => ([], q)
  | some (msg, q') =>
    let (msgs, rest) := popAll q'
    (msg :: msgs, rest)
termination_by q.queue.length
decreasing_by
  simp only [pop] at _h
  split at _h
  · cases _h
  · rename_i heq
    cases _h
    simp [heq]

theorem popAll_eq (q : MessageQueue) : q.popAll = (q.queue, { q with queue := [] }) := by
  obtain ⟨queue, capacity, readers, writers, closed, allowed⟩ := q
  induction queue with
  | nil => rw [popAll]; rfl
  | cons _ _ ih => rw [popAll]; simp [pop, ih]

theorem push_of_lt {q : MessageQueue} (h : q.queue.length < q.capacity) (msg : Message) :
    q.push msg = some { q with queue := insertLast Message.rank msg q.queue } := by
  have hrank : (fun m : Message => !decide (msg.priority < m.priority)) =
      fun m => decide (m.rank ≤ msg.rank) := by
    funext m
    rw [Bool.eq_iff_iff]
    simp only [Bool.not_eq_true', decide_eq_false_iff_not, Message.rank, UInt8.lt_iff_toNat_lt,
      Nat.not_lt]
    exact decide_eq_true_iff.symm
  rw [push, isFull, if_neg (by simpa using h), hrank]
  rfl

theorem push_of_le {q : MessageQueue} (h : q.capacity ≤ q.queue.length) (msg : Message) :
    q.push msg = none := by
  rw [push, isFull, if_pos (by simpa using h)]

end MessageQueue

open MessageQueue

/-- `recv_all`. -/
def recvAll (tid : TaskId) : IpcProg (Except IpcError (List Message)) := do
  let result : Except IpcError (List Message) ← Prog.guard .ipcManager do
    let s ← Prog.get
    match s.ipcManager[tid]? with
    | none => return .error .taskNotFound
    | some q =>
      if q.closed then return .error .queueClosed
      else
        let (msgs, q) := q.popAll
        Prog.modify (·.setQueue tid q.wakeWriters)
        return .ok msgs
  match result with
  | .ok msgs =>
    touch .ipcConfig
    return .ok msgs
  | .error e => return .error e

/-- `set_queue_capacity`. -/
def setQueueCapacity (tid : TaskId) (newCapacity : ℕ) : IpcProg (Except IpcError Unit) :=
  if newCapacity = 0 ∨ maxQueueCapacity < newCapacity then return .error .invalidArgument
  else
    Prog.guard .ipcManager do
      let s ← Prog.get
      match s.ipcManager[tid]? with
      | none => return .error .taskNotFound
      | some q =>
        if q.closed then return .error .queueClosed
        else if newCapacity < q.queue.length then return .error .queueFull
        else
          Prog.modify (·.setQueue tid { q with capacity := newCapacity })
          return .ok ()

/-! ## Runs -/

inductive QueueCall where
  | send (sender : TaskId) (msg : Message)
  | sendBatch (sender : TaskId) (messages : List Message)
  | recv
  | recvAll
  | setQueueCapacity (newCapacity : ℕ)

inductive QueueReply where
  | sent (result : Except IpcError ℕ)
  | received (result : Except IpcError (List Message))
  | resized (result : Except IpcError Unit)

def QueueReply.Rejected : QueueReply → Prop
  | sent (.error _) | received (.error _) | resized (.error _) => True
  | _ => False

/-- `send`, `send_batch` and `recv` have no loop: their first turn is their last. -/
def QueueReply.ofTurn : IpcTurn → QueueReply
  | .done (.sent result) => .sent result
  | .done (.received result) => .received (result.map ([·]))
  | _ => .sent (.error .invalidArgument)

def queueCall (tid : TaskId) : QueueCall → IpcProg QueueReply
  | .send sender msg => QueueReply.ofTurn <$> send sender tid msg
  | .sendBatch sender messages => QueueReply.ofTurn <$> sendBatch sender tid messages
  | .recv => QueueReply.ofTurn <$> recv tid
  | .recvAll => QueueReply.received <$> recvAll tid
  | .setQueueCapacity newCapacity => QueueReply.resized <$> setQueueCapacity tid newCapacity

def queueReply (tid : TaskId) (s : IpcState) (c : QueueCall) : QueueReply :=
  ((queueCall tid c).run s).1

def queueStep (tid : TaskId) (s : IpcState) (c : QueueCall) : IpcState :=
  ((queueCall tid c).run s).2

def queueLog (tid : TaskId) : IpcState → List QueueCall → List (QueueCall × QueueReply)
  | _, [] => []
  | s, c :: cs => (c, queueReply tid s c) :: queueLog tid (queueStep tid s c) cs

/-! ## What the replies mean -/

def fitting (maxSize : ℕ) (messages : List Message) : List Message :=
  messages.filter fun msg => msg.data.length ≤ maxSize

def Follows (maxSize : ℕ) : QueueCall → QueueReply → Account Message → Account Message → Prop
  | .send _ msg, .sent (.ok _), a, a' => a' = a.accept [msg]
  | .sendBatch _ messages, .sent (.ok sent), a, a' =>
    sent ≤ (fitting maxSize messages).length ∧
      a' = a.accept ((fitting maxSize messages).take sent)
  | .recv, .received (.ok msgs), a, a' =>
    ∃ msg, msgs = [msg] ∧ a.Takes Message.rank msgs a'
  | .recvAll, .received (.ok msgs), a, a' =>
    a.Takes Message.rank msgs a' ∧ a'.pending = []
  | .setQueueCapacity _, .resized (.ok ()), a, a' => a' = a
  | _, reply, a, a' => reply.Rejected ∧ a' = a

inductive Explains (maxSize : ℕ) :
    Account Message → List (QueueCall × QueueReply) → Account Message → Prop where
  | nil (a : Account Message) : Explains maxSize a [] a
  | cons {a a' a'' : Account Message} {c : QueueCall} {reply : QueueReply}
      {log : List (QueueCall × QueueReply)} (follows : Follows maxSize c reply a a')
      (rest : Explains maxSize a' log a'') : Explains maxSize a ((c, reply) :: log) a''

def acceptedBy (maxSize : ℕ) : QueueCall × QueueReply → List Message
  | (.send _ msg, .sent (.ok _)) => [msg]
  | (.sendBatch _ messages, .sent (.ok sent)) => (fitting maxSize messages).take sent
  | _ => []

def deliveredBy : QueueCall × QueueReply → List Message
  | (_, .received (.ok msgs)) => msgs
  | _ => []

variable {a' : Account Message} {reply : QueueReply} {c : QueueCall}

theorem Follows.books {maxSize : ℕ} {a : Account Message} (h : Follows maxSize c reply a a')
    (ha : a.Sound) : a'.accepted = a.accepted ++ acceptedBy maxSize (c, reply) ∧
      a'.delivered = a.delivered ++ deliveredBy (c, reply) := by
  have hkept {c : QueueCall} {reply : QueueReply} (haccepted : acceptedBy maxSize (c, reply) = [])
      (hdelivered : deliveredBy (c, reply) = []) (heq : a' = a) :
      a'.accepted = a.accepted ++ acceptedBy maxSize (c, reply) ∧
        a'.delivered = a.delivered ++ deliveredBy (c, reply) := by
    simp [haccepted, hdelivered, heq]
  match c, reply with
  | .send _ msg, .sent (.ok _) =>
    cases h
    exact ⟨rfl, by simp [ha.delivered_accept, deliveredBy]⟩
  | .sendBatch _ messages, .sent (.ok sent) =>
    obtain ⟨-, rfl⟩ := h
    exact ⟨rfl, by simp [ha.delivered_accept, deliveredBy]⟩
  | .recv, .received (.ok msgs) =>
    obtain ⟨msg, -, htakes⟩ := h
    exact ⟨by simp [htakes.delivered_eq.1, acceptedBy], htakes.delivered_eq.2⟩
  | .recvAll, .received (.ok msgs) =>
    exact ⟨by simp [h.1.delivered_eq.1, acceptedBy], h.1.delivered_eq.2⟩
  | .setQueueCapacity _, .resized (.ok ()) => exact hkept rfl rfl h
  | .send .., .sent (.error _) | .send .., .received (.error _) | .send .., .resized (.error _)
  | .sendBatch .., .sent (.error _) | .sendBatch .., .received (.error _)
  | .sendBatch .., .resized (.error _) | .recv, .sent (.error _) | .recv, .received (.error _)
  | .recv, .resized (.error _) | .recvAll, .sent (.error _) | .recvAll, .received (.error _)
  | .recvAll, .resized (.error _) | .setQueueCapacity _, .sent (.error _)
  | .setQueueCapacity _, .received (.error _) | .setQueueCapacity _, .resized (.error _) =>
    exact hkept rfl rfl h.2
  | .send .., .received (.ok _) | .send .., .resized (.ok _) | .sendBatch .., .received (.ok _)
  | .sendBatch .., .resized (.ok _) | .recv, .sent (.ok _) | .recv, .resized (.ok _)
  | .recvAll, .sent (.ok _) | .recvAll, .resized (.ok _) | .setQueueCapacity _, .sent (.ok _)
  | .setQueueCapacity _, .received (.ok _) =>
    exact absurd h.1 (fun hrej => hrej)

/-! ## One call -/

section Call

variable {s : IpcState} {tid : TaskId} {q q' : MessageQueue} {a : Account Message} {maxSize : ℕ}

structure Serves (maxSize : ℕ) (tid : TaskId) (a : Account Message) (s : IpcState)
    (q : MessageQueue) : Prop where
  config : s.ipcConfig.maxMessageSize = maxSize
  queue : s.ipcManager[tid]? = some q
  isOpen : q.closed = false
  holds : a.Holds Message.rank q.queue
  room : q.queue.length ≤ q.capacity

theorem Serves.setQueue (h : Serves maxSize tid a s q) (hopen : q'.closed = false)
    (hholds : a'.Holds Message.rank q'.queue) (hroom : q'.queue.length ≤ q'.capacity) :
    Serves maxSize tid a' (s.setQueue tid q') q' where
  config := h.config
  queue := by simp [IpcState.setQueue]
  isOpen := hopen
  holds := hholds
  room := hroom

theorem holds_pushAll (messages : List Message) (hholds : a.Holds Message.rank q.queue)
    (hroom : q.queue.length ≤ q.capacity) {sent : ℕ} (h : q.pushAll maxSize messages = (sent, q')) :
    sent ≤ (fitting maxSize messages).length ∧
      (a.accept ((fitting maxSize messages).take sent)).Holds Message.rank q'.queue ∧
      q'.queue.length ≤ q'.capacity ∧ q'.closed = q.closed := by
  induction messages generalizing a q sent with
  | nil =>
    cases h
    simpa [fitting, Account.accept] using ⟨hholds, hroom⟩
  | cons msg messages ih =>
    rw [pushAll] at h
    split at h
    · rename_i hlong
      have hfit : fitting maxSize (msg :: messages) = fitting maxSize messages := by
        simp [fitting, hlong]
      rw [hfit]
      exact ih hholds hroom h
    rename_i hshort
    have hfit : fitting maxSize (msg :: messages) = msg :: fitting maxSize messages := by
      simp [fitting, Nat.le_of_not_lt hshort]
    rw [hfit]
    rcases lt_or_ge q.queue.length q.capacity with hlt | hfull
    · rw [push_of_lt hlt] at h
      have hroom₁ : (insertLast Message.rank msg q.queue).length ≤ q.capacity := by
        rw [length_insertLast]
        exact hlt
      obtain ⟨sent₁, q₁, hrest⟩ : ∃ sent₁ q₁, pushAll maxSize
          { q with queue := insertLast Message.rank msg q.queue } messages = (sent₁, q₁) :=
        ⟨_, _, rfl⟩
      simp only [hrest] at h
      cases h
      obtain ⟨hsent, hholds', hroom', hclosed⟩ := ih (hholds.accept msg) hroom₁ hrest
      refine ⟨by simpa using hsent, ?_, hroom', hclosed⟩
      simpa [Account.accept] using hholds'
    · rw [push_of_le hfull] at h
      cases h
      simpa [Account.accept] using ⟨hholds, hroom⟩

def Served (maxSize : ℕ) (tid : TaskId) (a : Account Message) (s : IpcState) (c : QueueCall) :
    Prop :=
  (∃ a' q', Follows maxSize c (queueReply tid s c) a a' ∧
    Serves maxSize tid a' (queueStep tid s c) q') ∧
  ((queueReply tid s c).Rejected → queueStep tid s c = s)

section

variable (h : Serves maxSize tid a s q)
include h

theorem Serves.rejected (hrun : (queueCall tid c).run s = (reply, s))
    (hfollows : Follows maxSize c reply a a) : Served maxSize tid a s c := by
  refine ⟨⟨a, q, ?_, ?_⟩, fun _ => ?_⟩
  · rwa [queueReply, hrun]
  · rwa [queueStep, hrun]
  · rw [queueStep, hrun]

theorem Serves.accepted (hrun : (queueCall tid c).run s = (reply, s.setQueue tid q'))
    (hreply : ¬ reply.Rejected) (hfollows : Follows maxSize c reply a a')
    (hopen : q'.closed = false) (hholds : a'.Holds Message.rank q'.queue)
    (hroom : q'.queue.length ≤ q'.capacity) : Served maxSize tid a s c := by
  refine ⟨⟨a', q', ?_, ?_⟩, fun hrej => absurd ?_ hreply⟩
  · rwa [queueReply, hrun]
  · rw [queueStep, hrun]
    exact h.setQueue hopen hholds hroom
  · rwa [queueReply, hrun] at hrej

theorem Serves.send (sender : TaskId) (msg : Message) :
    Served maxSize tid a s (.send sender msg) := by
  by_cases hsize : s.ipcConfig.maxMessageSize < msg.data.length
  · have hrun : (queueCall tid (.send sender msg)).run s =
        (.sent (.error .invalidArgument), s) := by
      simp [queueCall, Process.send, QueueReply.ofTurn, hsize]
    exact h.rejected hrun ⟨trivial, rfl⟩
  by_cases hallowed : q.isSenderAllowed sender
  · rcases lt_or_ge q.queue.length q.capacity with hlt | hfull
    · have hrun : (queueCall tid (.send sender msg)).run s = (.sent (.ok 1), s.setQueue tid
          { q with queue := insertLast Message.rank msg q.queue, readersWaiting := [] }) := by
        simp [queueCall, Process.send, trySend, QueueReply.ofTurn, hsize, h.queue, h.isOpen,
          hallowed, push_of_lt hlt, wakeReaders]
      refine h.accepted hrun (fun hrej => hrej) rfl h.isOpen (h.holds.accept msg) ?_
      exact length_insertLast.trans_le hlt
    · have hrun : (queueCall tid (.send sender msg)).run s = (.sent (.error .queueFull), s) := by
        simp [queueCall, Process.send, trySend, QueueReply.ofTurn, hsize, h.queue, h.isOpen,
          hallowed, push_of_le hfull]
      exact h.rejected hrun ⟨trivial, rfl⟩
  · have hrun : (queueCall tid (.send sender msg)).run s =
        (.sent (.error .permissionDenied), s) := by
      simp [queueCall, Process.send, trySend, QueueReply.ofTurn, hsize, h.queue, hallowed]
    exact h.rejected hrun ⟨trivial, rfl⟩

theorem Serves.sendBatch (sender : TaskId)
    (messages : List Message) : Served maxSize tid a s (.sendBatch sender messages) := by
  by_cases hallowed : q.isSenderAllowed sender
  · obtain ⟨sent, q', hpush⟩ : ∃ sent q', q.pushAll maxSize messages = (sent, q') := ⟨_, _, rfl⟩
    obtain ⟨hsent, hholds, hroom, hclosed⟩ := holds_pushAll messages h.holds h.room hpush
    have hrun : (queueCall tid (.sendBatch sender messages)).run s = (.sent (.ok sent),
        s.setQueue tid (if 0 < sent then q'.wakeReaders else q')) := by
      simp [queueCall, Process.sendBatch, QueueReply.ofTurn, h.config, h.queue, h.isOpen, hallowed,
        hpush]
    refine h.accepted hrun (fun hrej => hrej) ⟨hsent, rfl⟩ ?_ ?_ ?_
    · split <;> simpa [wakeReaders, h.isOpen] using hclosed
    · split <;> exact hholds
    · split <;> exact hroom
  · have hrun : (queueCall tid (.sendBatch sender messages)).run s =
        (.sent (.error .permissionDenied), s) := by
      simp [queueCall, Process.sendBatch, QueueReply.ofTurn, h.queue, h.isOpen, hallowed]
    exact h.rejected hrun ⟨trivial, rfl⟩

theorem Serves.recv : Served maxSize tid a s .recv := by
  cases hqueue : q.queue with
  | nil =>
    have hrun : (queueCall tid .recv).run s = (.received (.error .queueEmpty), s) := by
      simp [queueCall, Process.recv, tryRecv, recvReport, QueueReply.ofTurn, h.queue, h.isOpen,
        pop, hqueue, Except.map]
    exact h.rejected hrun ⟨trivial, rfl⟩
  | cons msg rest =>
    have hrun : (queueCall tid .recv).run s = (.received (.ok [msg]),
        s.setQueue tid { q with queue := rest, writersWaiting := [] }) := by
      simp [queueCall, Process.recv, tryRecv, recvReport, touch, QueueReply.ofTurn, h.queue,
        h.isOpen, pop, wakeWriters, hqueue, Except.map]
    have hholds := h.holds
    rw [hqueue] at hholds
    obtain ⟨i, hfirst, hrest⟩ := hholds.take
    refine h.accepted hrun (fun hrej => hrej) ⟨msg, rfl, .cons hfirst (.nil _)⟩ h.isOpen hrest ?_
    have := h.room
    rw [hqueue] at this
    exact (Nat.le_succ _).trans this

theorem Serves.recvAll : Served maxSize tid a s .recvAll := by
  have hrun : (queueCall tid .recvAll).run s = (.received (.ok q.queue),
      s.setQueue tid { q with queue := [], writersWaiting := [] }) := by
    simp [queueCall, Process.recvAll, touch, h.queue, h.isOpen, popAll_eq, wakeWriters]
  obtain ⟨a', htakes, hempty⟩ := h.holds.takeAll
  exact h.accepted hrun (fun hrej => hrej) ⟨htakes, hempty.pending_eq_nil⟩ h.isOpen hempty
    (Nat.zero_le _)

theorem Serves.setQueueCapacity (newCapacity : ℕ) :
    Served maxSize tid a s (.setQueueCapacity newCapacity) := by
  by_cases hrange : newCapacity = 0 ∨ maxQueueCapacity < newCapacity
  · have hrun : (queueCall tid (.setQueueCapacity newCapacity)).run s =
        (.resized (.error .invalidArgument), s) := by
      simp [queueCall, Process.setQueueCapacity, hrange]
    exact h.rejected hrun ⟨trivial, rfl⟩
  by_cases hsmall : newCapacity < q.queue.length
  · have hrun : (queueCall tid (.setQueueCapacity newCapacity)).run s =
        (.resized (.error .queueFull), s) := by
      simp [queueCall, Process.setQueueCapacity, hrange, h.queue, h.isOpen, hsmall]
    exact h.rejected hrun ⟨trivial, rfl⟩
  · have hrun : (queueCall tid (.setQueueCapacity newCapacity)).run s =
        (.resized (.ok ()), s.setQueue tid { q with capacity := newCapacity }) := by
      simp [queueCall, Process.setQueueCapacity, hrange, h.queue, h.isOpen, hsmall]
    exact h.accepted hrun (fun hrej => hrej) rfl h.isOpen h.holds (Nat.le_of_not_lt hsmall)

theorem Serves.call (c : QueueCall) : Served maxSize tid a s c := by
  cases c with
  | send sender msg => exact h.send sender msg
  | sendBatch sender messages => exact h.sendBatch sender messages
  | recv => exact h.recv
  | recvAll => exact h.recvAll
  | setQueueCapacity newCapacity => exact h.setQueueCapacity newCapacity

end

/-! ## Whole runs -/

theorem Serves.run (h : Serves maxSize tid a s q) (calls : List QueueCall) :
    ∃ a' q', Explains maxSize a (queueLog tid s calls) a' ∧
      a'.accepted = a.accepted ++ (queueLog tid s calls).flatMap (acceptedBy maxSize) ∧
      a'.delivered = a.delivered ++ (queueLog tid s calls).flatMap deliveredBy ∧
      Serves maxSize tid a' (exec (queueStep tid) s calls) q' := by
  induction calls generalizing a s q with
  | nil => exact ⟨a, q, .nil a, by simp [queueLog], by simp [queueLog], h⟩
  | cons c _ ih =>
    obtain ⟨⟨a₁, q₁, hfollows, hserves⟩, -⟩ := h.call c
    obtain ⟨haccepted, hdelivered⟩ := hfollows.books h.holds.sound
    obtain ⟨a', q', hexplains, haccepted', hdelivered', hserves'⟩ := ih hserves
    refine ⟨a', q', .cons hfollows hexplains, ?_, ?_, hserves'⟩
    · rw [haccepted', haccepted, queueLog, List.flatMap_cons, List.append_assoc]
    · rw [hdelivered', hdelivered, queueLog, List.flatMap_cons, List.append_assoc]

end Call

end IonaOs.Process
