import Nanvix.Pm.Locks

/-!
# Messages and events

Threads send messages to processes and threads and wait for messages and events; the
kernel reports interrupts, exceptions and the ends of processes, and polls the channel
to other kernels.

## Implementation notes

A call that copies a message from or to user memory is told the message, or how its
copy ends. What the channel holds is given to a poll as the results of its reads.
-/
namespace Nanvix.Pm
open Config Library Library.Prog Mm

namespace KM

section Notification

/-- The loop of `notify_all_process_threads`, with the first error so far. -/
def notifyWaiting : List (Nat × Nat) → Option Error → KM (Option Error)
  | [], firstError => return firstError
  | (_, tid) :: rest, firstError => do
      match ← attempt (notifyThread .events tid) with
      | .ok _ => notifyWaiting rest firstError
      | .error e => notifyWaiting rest (firstError.or (some e))

/-- Every thread of the process that waits for messages is woken. -/
def notifyAllProcessThreads (pid : Nat) : KM Unit := do
  let waiting ← gets fun k => k.em.waitingThreads
  match ← notifyWaiting (waiting.filter fun e => e.1 == pid) none with
  | some e => throw e
  | none => pure ()

/-- Refused by a manager that is capable of interrupts, as in the source. -/
def wakeupInterrupt (n : Fin 32) : KM Unit := do
  let em ← gets Kernel.em
  if em.interruptCapable then
    throw ⟨.operationNotSupported, "interrupt manager is not capable of handling ginterrupts"⟩
  else
    let em := em.count
    modify fun k => { k with em := { em with
      pendingInterrupts := Function.update em.pendingInterrupts n
        (em.pendingInterrupts n ++ [.new em.nevents (.interrupt n)]) } }
    match em.interruptOwnership n with
    | some pid => notifyAllProcessThreads pid
    | none => throw ⟨.noSuchProcess, "no owner for interrupt"⟩

/-- Returns the number of the condition variable on which the thread waits. -/
def wakeupException (n : Fin 32) (pid tid : Nat) (info : ExceptionInformation) : KM Nat := do
  let em ← gets fun k => k.em.count
  modify fun k => { k with em := { em with
    pendingExceptions := Function.update em.pendingExceptions n
      (em.pendingExceptions n ++ [⟨.new em.nevents (.exception n), pid, tid, info, em.nevents⟩]) } }
  match em.exceptionOwnership n with
  | some owner =>
    notifyAllProcessThreads owner
    return em.nevents
  | none => throw ⟨.noSuchProcess, "no owner for exception"⟩

/-- The owner of terminations is told of a dead process. -/
def notifyProcessTermination (dead : Nat) (status : ExitStatus) : KM Unit := do
  let em ← gets fun k => k.em.count
  let ev : SchedulingEvent := .processTermination
  modify fun k => { k with em := { em with
    pendingScheduling := Function.update em.pendingScheduling ev
      (em.pendingScheduling ev ++ [(.new em.nevents (.scheduling ev), dead, status)]) } }
  match em.schedulingOwnership ev with
  | some owner => notifyAllProcessThreads owner
  | none => throw ⟨.noSuchProcess, "no owner for scheduling event"⟩

/-- `EventManager::post_message`: the receivers are woken after the letter is in the mailbox. -/
def postMessage (m : Message) (origin : Origin) : KM Unit := do
  let serial ← gets Kernel.nextSerial
  modify fun k => { k with nextSerial := serial + 1 }
  sched (PM.postMessage m.receiver ⟨m, serial, origin⟩)
  match m.receiver with
  | .process pid => notifyAllProcessThreads pid
  | .thread tid => notifyThread .events tid

end Notification

section Ownership

/-- The running process registers for an event or gives it up. -/
def evctrl (ev : Event) (req : EventCtrlRequest) : KM Reply := do
  let p ← sched PM.getRunning
  let em ← gets Kernel.em
  if ev.isInterrupt && !em.interruptCapable then
    throw ⟨.operationNotSupported, "interrupt manager is not capable of handling ginterrupts"⟩
  else
    let hasCapability ← attempt (sched (PM.hasCapability p.state.pid ev.capability))
    let em ← ofExcept (em.doEvctrl hasCapability (some p.state.pid) ev req)
    modify fun k => { k with em := em }
    match req with
    | .register =>
      sched (PM.addEvent ev)
      return .done
    | .unregister =>
      sched (PM.removeEvent ev)
      -- The ownerships taken out of the list are dropped.
      modify fun k => { k with
        em := (p.state.events.filter (· == ev)).foldl EventManager.dropOwnership k.em }
      return .done

def capctl (c : Capability) (set : Bool) : KM Reply := do
  let p ← sched PM.getRunning
  sched (PM.capctl p.state.pid c set)
  return .done

end Ownership

section Receiving

/-- The next occurrence of an event or the next letter for a thread. -/
def tryWait (tid pid : Nat) (i : EventManager.Interests) :
    KM (Option (Message × Option Letter)) := do
  let em ← gets Kernel.em
  match (em.nextEvent i).bind (em.collect pid) with
  | some (m, em) =>
    modify fun k => { k with em := em }
    return some (m, none)
  | none =>
    match ← sched (PM.tryRecv tid) with
    | some l => return some (l.message, some l)
    | none => return none

/-- The thread no longer waits for messages. -/
def leaveWaiting (pid tid : Nat) : KM Unit :=
  modify fun k => { k with em := k.em.unregister pid tid }

/-- One round of the loop of `EventManager::wait`. -/
def recvRound (i : EventManager.Interests) (copy : Except Error Unit) : KM Reply := do
  let p ← sched PM.getRunning
  match ← attempt (tryWait p.running.state.id p.state.pid i) with
  | .error e =>
    leaveWaiting p.state.pid p.running.state.id
    throw e
  | .ok (some (m, letter)) =>
    leaveWaiting p.state.pid p.running.state.id
    modify fun k => { k with
      deliveries := ⟨p.state.pid, p.running.state.id, m, letter⟩ :: k.deliveries }
    ofExcept copy
    return .received m
  | .ok none =>
    condWait .events none (.recv i copy)
    return .switched

/-- Waits for an event of the process or a letter. -/
def recv (copy : Except Error Unit) : KM Reply := do
  let p ← sched PM.getRunning
  let i ← gets fun k => k.em.interests p.state.pid
  modify fun k => { k with em := k.em.register p.state.pid p.running.state.id }
  recvRound i copy

/-- A source that is neither the thread nor its process is only logged. -/
def send (m : Message) : KM Reply := do
  let p ← sched PM.getRunning
  let origin : Origin := .send p.state.pid p.running.state.id
  if m.messageType = .ikc then
    modify fun k => { k with
      nextSerial := k.nextSerial + 1, forwarded := ⟨m, k.nextSerial, origin⟩ :: k.forwarded }
    return .done
  else
    postMessage m origin
    return .done

end Receiving

section Exceptions

/-- An exception that nobody handles ends the process of the thread that raised it. -/
def exception (n : Fin 32) (info : ExceptionInformation) : KM Reply := do
  let p ← sched PM.getRunning
  match ← attempt (wakeupException n p.state.pid p.running.state.id info) with
  | .ok event =>
    condWait (.exception event) none (.exception event)
    return .switched
  | .error e => exit (.error e.code)

/-- `EventManager::resume`: the thread that raised the exception goes on. -/
def resumeEvent (id : EventDescriptor) : KM Reply := do
  match id.event with
  | .exception n =>
    let em ← gets Kernel.em
    if (em.exceptionOwnership n).isNone then abort "terminate process"
    else
      match removeIf (·.id == id) (em.pendingExceptions n) with
      | some (e, rest) =>
        modify fun k => { k with em := { k.em with
          pendingExceptions := Function.update k.em.pendingExceptions n rest } }
        let _ ← attempt (notifyThread (.exception e.resume) e.tid)
        return .done
      | none => return .done
  | _ => return .done

end Exceptions

section Bus

/-- `Vmem::user_vaddr_to_paddr` -/
def userVaddrToPaddr (space vaddr : Nat) : KM Nat := do
  let frame ← memory (MM.findUserFrame space (.alignDown vaddr))
  return frame * pageSize + pageOffset vaddr

/-- The checks of a transfer over the bus, and the address that the request carries. -/
def bulkRequest (reason : String) (buffer transferLen : Nat) : KM Nat := do
  let p ← sched PM.getRunning
  if transferLen > 0 && pageOffset buffer + transferLen > pageSize then
    throw ⟨.invalidArgument, reason⟩
  else userVaddrToPaddr p.state.space buffer

/-- A push to the kernel goes over the bus. -/
def push (dstPid dstTid buffer transferLen : Nat) : KM Reply :=
  if dstPid = kernelPid then do
    let _ ← bulkRequest "bulk push buffer crosses a page boundary" buffer transferLen
    return .done
  else doPush dstPid dstTid buffer transferLen

/-- A pull from the kernel's process is a request over the bus; the caller waits for its completion. -/
def pull (srcPid srcTid buffer transferLen : Nat) : KM Reply :=
  if srcPid = kernelPid then do
    let _ ← bulkRequest "bulk pull buffer crosses a page boundary" buffer transferLen
    let (_, tid, call) ← newRequest
    modify fun k => { k with
      bulkPulls := mapInsert tid call k.bulkPulls,
      transferred := Function.update k.transferred call 0 }
    condWait (.bulk call) none (.bulk call)
    return .switched
  else doPull srcPid srcTid buffer transferLen

/-- `bulk_pull::complete`; a failed wakeup is only logged. -/
def completeBulkPull (tid bytes : Nat) : KM Unit := do
  match (← gets Kernel.bulkPulls).lookup tid with
  | none => pure ()
  | some call =>
    modify fun k => { k with
      bulkPulls := mapErase tid k.bulkPulls,
      transferred := Function.update k.transferred call bytes }
    let _ ← attempt (notifyThread (.bulk call) tid)

/-- What a read of the channel gives: the header of a completed pull, a message or an error. -/
inductive IkcRead where
  | completion (tid bytes : Nat)
  | message (m : Message)
  | failed (e : Error)

/-- The loop of `poll_ikc_messages`; returns whether a message was received. -/
def pollLoop : Nat → List IkcRead → Bool → KM Bool
  | 0, _, received => return received
  | _ + 1, [], received => return received
  | n + 1, r :: reads, received => do
      if maxIkcMessages ≤ (← gets fun k => k.pm.numberBufferedMessages) then return received
      else
        match r with
        | .completion tid bytes =>
          completeBulkPull tid bytes
          return received
        | .message m =>
          let _ ← attempt (postMessage m .channel)
          pollLoop n reads true
        | .failed _ => pollLoop n reads received

/-- At most a batch of messages is taken. -/
def pollIkcMessages (reads : List IkcRead) : KM Bool := pollLoop ikcPollBatchSize reads false

end Bus

/-- The identifier of the process whose end ends the system. -/
def initd : Nat := 1

/-- The round of the kernel's loop that harvests a process and reports its end. -/
def harvestRound : KM Reply := do
  match ← harvestZombies with
  | none => return .done
  | some (pid, status) =>
    if pid = initd then return .done
    else
      let _ ← attempt (notifyProcessTermination pid status)
      return .done

end KM
end Nanvix.Pm
