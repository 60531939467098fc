import Nanvix.Pm.Thread

/-!
# Messages, events and mailboxes

A message has a type, a source and a destination, which are processes or threads,
and a payload. Events are interrupts, exceptions and scheduling events; a message
reports one of them, or was sent by a thread, or came from another kernel. A mailbox
keeps the messages of a process that nobody has received.

## Implementation notes

Sources and destinations are signed numbers, as in the source: a process is its
identifier and a thread is minus its identifier. The bytes of a payload that the
kernel writes are kept as what they encode. A letter is a message with a serial
number and the place it came from; no routine reads these two.
-/
namespace Nanvix.Pm
open Config Library

/-- The types of messages. -/
inductive MessageType where
  | interrupt
  | exception
  | ipc
  | processTerminationEvent
  | ikc
  | pullResponse
  | processCreationEvent
  deriving DecidableEq

inductive SchedulingEvent where
  | processTermination
  | processCreation
  deriving DecidableEq

def SchedulingEvent.values : List SchedulingEvent := [processTermination, processCreation]

/-- What a process can register for. -/
inductive Event where
  | interrupt (n : Fin 32)
  | exception (n : Fin 32)
  | scheduling (ev : SchedulingEvent)
  deriving DecidableEq

inductive Capability where
  | exceptionControl
  | interruptControl
  | ioManagement
  | memoryManagement
  | processManagement
  deriving DecidableEq

/-- The capability that the owner of an event needs. -/
def Event.capability : Event → Capability
  | interrupt _ => .interruptControl
  | exception _ => .exceptionControl
  | scheduling _ => .processManagement

def Event.isInterrupt : Event → Bool
  | interrupt _ => true
  | _ => false

/-- The number and kind of an occurrence. -/
structure EventDescriptor where
  id : Nat
  event : Event
  deriving DecidableEq

/-- The number of an event is kept in 24 bits. -/
def EventDescriptor.new (id : Nat) (ev : Event) : EventDescriptor := ⟨id % 2 ^ 24, ev⟩

structure ExceptionInformation where
  num : Nat
  code : Nat
  addr : Nat
  instruction : Nat
  deriving DecidableEq

/-- The payloads that the kernel makes, and bytes of users. -/
inductive Payload where
  | bytes (data : List UInt8)
  | exception (id : EventDescriptor) (pid : Nat) (info : ExceptionInformation)
  | termination (pid : Nat) (status : ExitStatus)
  deriving DecidableEq

/-- A message as it is sent; parties are numbers. -/
structure Message where
  messageType : MessageType
  source : Int
  destination : Int
  status : Int
  payload : Payload
  deriving DecidableEq

/-- A process or a thread as the source or destination of a message. -/
inductive Party where
  | process (pid : Nat)
  | thread (tid : Nat)
  deriving DecidableEq

namespace Party

/-- Numbers from zero on are processes and the others are threads. -/
def ofRaw (raw : Int) : Party := if 0 ≤ raw then process raw.toNat else thread (-raw).toNat

/-- Threads are negative. -/
def raw : Party → Int
  | process pid => pid
  | thread tid => -tid

def isProcess : Party → Bool
  | process _ => true
  | thread _ => false

end Party

namespace Message

/-- The payload of a message, in bytes. -/
def payloadSize : Nat := ipcMessageSize - 13

def receiver (m : Message) : Party := .ofRaw m.destination

/-- The kernel is the source. -/
def ofInterrupt (pid : Nat) : Message :=
  ⟨.interrupt, (Party.process 0).raw, (Party.process pid).raw, 0,
    .bytes (List.replicate payloadSize 0)⟩

/-- The message names the process of the thread that raised the exception as its source. -/
def ofException (pid : Nat) (id : EventDescriptor) (faulting : Nat) (info : ExceptionInformation) :
    Message :=
  ⟨.exception, (Party.process faulting).raw, (Party.process pid).raw, 0,
    .exception id faulting info⟩

/-- The kernel is the source of news of a dead process. -/
def ofTermination (pid dead : Nat) (status : ExitStatus) : Message :=
  ⟨.processTerminationEvent, (Party.process 0).raw, (Party.process pid).raw, 0,
    .termination dead status⟩

end Message

/-- Where a letter came from: a send call of a thread, or another kernel. -/
inductive Origin where
  | send (pid tid : Nat)
  | channel
  deriving DecidableEq

/-- A message in a mailbox, with its origin. -/
structure Letter where
  message : Message
  serial : Nat
  origin : Origin
  deriving DecidableEq

def Letter.receiver (l : Letter) : Party := l.message.receiver

namespace Mailbox

/-- The first letter to the thread, or else the first one to a process. -/
def receive (tid : Nat) (mailbox : List Letter) : Option (Letter × List Letter) :=
  match removeIf (·.receiver == .thread tid) mailbox with
  | some r => some r
  | none => removeIf (·.receiver.isProcess) mailbox

end Mailbox
end Nanvix.Pm
