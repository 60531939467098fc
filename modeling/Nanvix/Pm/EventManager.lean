import Mathlib.Data.Fin.VecNotation
import Mathlib.Logic.Function.Basic
import Nanvix.Pm.Message

/-!
# The event manager

Every event has a slot for the process that owns it and a queue of occurrences that
nobody has collected. Threads that wait for a message are listed with their process.

## Implementation notes

The condition variable on which the thread that raised an exception waits is named by
the number of the exception, which is not used twice.
-/
namespace Nanvix.Pm
open Config Library

/-- The requests of `evctrl`. -/
inductive EventCtrlRequest where
  | register
  | unregister
  deriving DecidableEq

/-- An exception, with the condition variable on which its thread waits. -/
structure PendingException where
  id : EventDescriptor
  pid : Nat
  tid : Nat
  info : ExceptionInformation
  resume : Nat
  deriving DecidableEq

/-- Who owns which event, and what has happened and is not collected. -/
structure EventManager where
  interruptCapable : Bool
  nevents : Nat
  waitingThreads : List (Nat × Nat)
  interruptOwnership : Fin 32 → Option Nat
  pendingInterrupts : Fin 32 → List EventDescriptor
  exceptionOwnership : Fin 32 → Option Nat
  pendingExceptions : Fin 32 → List PendingException
  schedulingOwnership : SchedulingEvent → Option Nat
  pendingScheduling : SchedulingEvent → List (EventDescriptor × Nat × ExitStatus)

namespace EventManager

/-- No event has an owner. -/
def init (interruptCapable : Bool) : EventManager :=
  ⟨interruptCapable, 0, [], fun _ => none, fun _ => [], fun _ => none, fun _ => [], fun _ => none,
    fun _ => []⟩

/-- The slot of an event. -/
def owner (em : EventManager) : Event → Option Nat
  | .interrupt n => em.interruptOwnership n
  | .exception n => em.exceptionOwnership n
  | .scheduling ev => em.schedulingOwnership ev

/-- The slot of an event is set. -/
def setOwner (em : EventManager) (o : Option Nat) : Event → EventManager
  | .interrupt n => { em with interruptOwnership := Function.update em.interruptOwnership n o }
  | .exception n => { em with exceptionOwnership := Function.update em.exceptionOwnership n o }
  | .scheduling ev => { em with schedulingOwnership := Function.update em.schedulingOwnership ev o }

section Control

/-- What a request does to the slot of an event. No process is named when an ownership is dropped. -/
def evctrlSlot (noCapability busy notOwner : String) (hasCapability : Except Error Bool)
    (pid : Option Nat) (slot : Option Nat) : EventCtrlRequest → Except Error (Option Nat)
  | .register =>
    match pid with
    | some pid => do
        if !(← hasCapability) then .error ⟨.permissionDenied, noCapability⟩
        else if slot.isSome then .error ⟨.resourceBusy, busy⟩
        else .ok (some pid)
    | none => .error ⟨.invalidArgument, "invalid process identifier"⟩
  | .unregister =>
    match pid with
    | some pid =>
      if slot = some pid then .ok none else .error ⟨.permissionDenied, notOwner⟩
    | none => .ok none

/-- A slot that is taken is busy, whatever the request. -/
def doEvctrlInterrupt (hasCapability : Except Error Bool) (pid : Option Nat) (slot : Option Nat)
    (req : EventCtrlRequest) : Except Error (Option Nat) :=
  if slot.isSome then .error ⟨.resourceBusy, "interrupt is already owned by another process"⟩
  else evctrlSlot "process does not have interrupt control capability"
    "interrupt is already owned by another process" "process does not own interrupt"
    hasCapability pid slot req

def doEvctrlException : Except Error Bool → Option Nat → Option Nat → EventCtrlRequest →
    Except Error (Option Nat) :=
  evctrlSlot "process does not have exception control capability"
    "exception is already owned by another process" "process does not own exception"

def doEvctrlScheduling : Except Error Bool → Option Nat → Option Nat → EventCtrlRequest →
    Except Error (Option Nat) :=
  evctrlSlot "process does not have scheduling control capability"
    "scheduling event is already owned by another process" "process does not own scheduling event"

/-- A request on the slot of an event. -/
def doEvctrl (em : EventManager) (hasCapability : Except Error Bool) (pid : Option Nat) (ev : Event)
    (req : EventCtrlRequest) : Except Error EventManager :=
  match ev with
  | .interrupt n => do
      let o ← doEvctrlInterrupt hasCapability pid (em.interruptOwnership n) req
      return em.setOwner o ev
  | .exception n => do
      let o ← doEvctrlException hasCapability pid (em.exceptionOwnership n) req
      return em.setOwner o ev
  | .scheduling sev => do
      let o ← doEvctrlScheduling hasCapability pid (em.schedulingOwnership sev) req
      return em.setOwner o ev

/-- Dropping an ownership gives the event up; an error is only logged. -/
def dropOwnership (em : EventManager) (ev : Event) : EventManager :=
  match em.doEvctrl (.ok true) none ev .unregister with
  | .ok em' => em'
  | .error _ => em

end Control

section Collecting

/-- The events of one process: those that a thread collects while it waits. -/
structure Interests where
  interrupts : List (Fin 32)
  exceptions : List (Fin 32)
  scheduling : List SchedulingEvent
  deriving DecidableEq

/-- The events that a process owns. -/
def interests (em : EventManager) (pid : Nat) : Interests :=
  ⟨(List.finRange 32).filter fun n => em.interruptOwnership n == some pid,
    (List.finRange 32).filter fun n => em.exceptionOwnership n == some pid,
    SchedulingEvent.values.filter fun ev => em.schedulingOwnership ev == some pid⟩

/-- The first event that has occurred. The three kinds are searched in an order that rotates. -/
def nextEvent (em : EventManager) (i : Interests) : Option Event :=
  (List.range 3).findSome? fun k =>
    match (em.nevents + k) % 3 with
    | 0 => (i.interrupts.find? fun n => !(em.pendingInterrupts n).isEmpty).map .interrupt
    | 1 => (i.exceptions.find? fun n => !(em.pendingExceptions n).isEmpty).map .exception
    | _ => (i.scheduling.find? fun ev => !(em.pendingScheduling ev).isEmpty).map .scheduling

/-- The message of an occurrence. An exception goes to the end of its queue until it is resumed. -/
def collect (em : EventManager) (pid : Nat) : Event → Option (Message × EventManager)
  | .interrupt n =>
    match em.pendingInterrupts n with
    | [] => none
    | _ :: rest => some (.ofInterrupt pid,
        { em with pendingInterrupts := Function.update em.pendingInterrupts n rest })
  | .exception n =>
    match em.pendingExceptions n with
    | [] => none
    | e :: rest => some (.ofException pid e.id e.pid e.info,
        { em with pendingExceptions := Function.update em.pendingExceptions n (rest ++ [e]) })
  | .scheduling ev =>
    match em.pendingScheduling ev with
    | [] => none
    | (_, dead, status) :: rest => some (.ofTermination pid dead status,
        { em with pendingScheduling := Function.update em.pendingScheduling ev rest })

end Collecting

/-- A new occurrence has a number of its own. -/
def count (em : EventManager) : EventManager := { em with nevents := em.nevents + 1 }

/-- The thread waits for messages. -/
def register (em : EventManager) (pid tid : Nat) : EventManager :=
  { em with waitingThreads := em.waitingThreads ++ [(pid, tid)] }

def unregister (em : EventManager) (pid tid : Nat) : EventManager :=
  { em with waitingThreads := em.waitingThreads.filter fun e => e.1 != pid || e.2 != tid }

end EventManager
end Nanvix.Pm
