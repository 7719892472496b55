import Mathlib.Logic.Basic
import Mathlib.Tactic.Common

/-!
# POSIX message queues

Queues are found by name in a process-wide table. All messages here have one
priority, so a queue is a list of messages, oldest first. Descriptors are not
modelled: a call on a descriptor is a call on the queue it was opened for. Every
descriptor is `O_NONBLOCK`.
-/

namespace CLib

/-- A queue with its attributes `mq_maxmsg` and `mq_msgsize`. -/
structure MsgQueue where
  maxmsg : Nat
  msgsize : Nat
  messages : List (List UInt8)
  deriving DecidableEq, Repr

/-- The error numbers of the calls below. -/
inductive MqErrno where
  | eagain
  | emsgsize
  | enoent
  deriving DecidableEq, Repr

/-- The queues that exist, by name. -/
abbrev MqTable := String → Option MsgQueue

/-- The table after a queue has changed. -/
def mqStore (table : MqTable) (name : String) (queue : MsgQueue) : MqTable :=
  fun other => if other = name then some queue else table other

/-- `mq_open(name, O_WRONLY)`: the queue must exist. -/
def mqOpen (table : MqTable) (name : String) : Except MqErrno MsgQueue :=
  match table name with
  | none => .error .enoent
  | some q => .ok q

/-- `mq_open(name, O_CREAT, mode, attr)`: an existing queue keeps its
attributes. -/
def mqCreate (table : MqTable) (name : String) (maxmsg msgsize : Nat) : MqTable :=
  match table name with
  | none => mqStore table name ⟨maxmsg, msgsize, []⟩
  | some _ => table

/-- `mq_unlink(name)`. -/
def mqUnlink (table : MqTable) (name : String) : MqTable :=
  fun other => if other = name then none else table other

/-- `mq_send(queue, msg, len, 0)`. -/
def mqSend (q : MsgQueue) (msg : List UInt8) : Except MqErrno MsgQueue :=
  if q.msgsize < msg.length then .error .emsgsize
  else if q.maxmsg ≤ q.messages.length then .error .eagain
  else .ok { q with messages := q.messages ++ [msg] }

/-- `mq_receive(queue, buf, len, 0)`: the message and the queue without it. -/
def mqReceive (q : MsgQueue) (len : Nat) : Except MqErrno (List UInt8 × MsgQueue) :=
  if len < q.msgsize then .error .emsgsize
  else
    match q.messages with
    | [] => .error .eagain
    | msg :: rest => .ok (msg, { q with messages := rest })

theorem mqStore_eq_some {table : MqTable} {name other : String} {queue q : MsgQueue}
    (h : mqStore table name queue other = some q) : q = queue ∨ table other = some q := by
  unfold mqStore at h
  split at h
  · exact .inl (Option.some.inj h).symm
  · exact .inr h

/-- A queue that exists after an `mq_open` is new and empty or was there. -/
theorem mqCreate_eq_some {table : MqTable} {name other : String} {maxmsg msgsize : Nat}
    {q : MsgQueue} (h : mqCreate table name maxmsg msgsize other = some q) :
    q = ⟨maxmsg, msgsize, []⟩ ∨ table other = some q := by
  unfold mqCreate at h
  cases hname : table name with
  | none =>
    rw [hname] at h
    exact mqStore_eq_some h
  | some queue =>
    rw [hname] at h
    exact .inr h

theorem mqUnlink_eq_some {table : MqTable} {name other : String} {q : MsgQueue}
    (h : mqUnlink table name other = some q) : table other = some q := by
  unfold mqUnlink at h
  split at h
  · cases h
  · exact h

/-- What a receive takes is the oldest message. -/
theorem mqReceive_eq_ok {q q' : MsgQueue} {len : Nat} {msg : List UInt8}
    (h : mqReceive q len = .ok (msg, q')) :
    q.messages = msg :: q'.messages ∧ q'.msgsize = q.msgsize ∧ q'.maxmsg = q.maxmsg := by
  unfold mqReceive at h
  split at h
  · cases h
  · split at h
    · cases h
    · rename_i rest hmsgs
      cases h
      exact ⟨hmsgs, rfl, rfl⟩

/-- A message longer than `mq_msgsize` is refused. -/
theorem mqSend_of_oversize {q : MsgQueue} {msg : List UInt8} (h : q.msgsize < msg.length) :
    mqSend q msg = .error .emsgsize := by
  unfold mqSend
  rw [if_pos h]

end CLib
