import Nanvix.Library.Machine
import Nanvix.Pm.Kernel

/-!
# Kernel calls

The calls by which threads create, end, join and detach threads and processes, push
and pull bytes, and lock mutexes and wait on condition variables at user addresses.
A call runs to its end or to the point where its thread is switched out; the thread
takes up the rest of the call when it runs again.

## Implementation notes

Arguments are decoded: timeouts and alarms are times. What a call does to memory apart
from the copy of a rendezvous is left to the memory commands; a command that needs
memory is told how its memory steps end.
-/
namespace Nanvix.Pm
open Config Library Library.Prog Mm

/-- What a call hands back: nothing yet, when its thread was switched out or is gone. -/
inductive Reply where
  | switched
  | done
  | value (n : Nat)
  | joined (status : ExitStatus)
  | pushed (r : PendingPush)
  | pulled (r : PendingPull) (bytes : Nat)
  | received (m : Message)

namespace KM

section Rendezvous

/-- The requests of a process are dropped, and so are those that wait for it. -/
def cleanupProcess (pid : Nat) : KM (List Nat) := do
  let k ← gets id
  modify fun k => { k with
    pushes := k.pushes.filter fun r => r.pid != pid && r.dstPid != pid,
    pulls := k.pulls.filter fun r => r.pid != pid && r.srcPid != pid }
  return (k.pushes.filter fun r => r.pid != pid && r.dstPid == pid).map (·.tid) ++
    (k.pulls.filter fun r => r.pid != pid && r.srcPid == pid).map (·.tid)

/-- Those that waited for a dead process are woken. -/
def cleanupRendezvous (pid : Nat) : KM Unit := do
  let orphaned ← cleanupProcess pid
  forEach (fun tid => do let _ ← attempt (wakeup tid)) orphaned

/-- `Vec::swap_remove` of the first member that passes a test. -/
def swapRemove {α : Type} (p : α → Bool) : List α → Option (α × List α)
  | [] => none
  | x :: xs =>
    if p x then some (x, match xs.getLast? with
      | none => []
      | some y => y :: xs.dropLast)
    else (swapRemove p xs).map fun r => (r.1, x :: r.2)

/-- The copy of a matched pair. Pages of the puller are made its own before the pusher is found. -/
def transfer (push : PendingPush) (pull : PendingPull) : KM Unit :=
  let len := min push.transferLen pull.transferLen
  if len = 0 then pure ()
  else do
    let dst ← sched (PM.findProcess pull.pid)
    match ← attempt (sched (PM.findProcess push.pid)) with
    | .error e =>
      memory (MM.resolveCowForRegion dst.state.space pull.buffer len)
      throw e
    | .ok src =>
      memory (MM.vmcopyUserToUser src.state.space push.buffer dst.state.space pull.buffer len)

/-- The caller and the number of its request. -/
def newRequest : KM (Nat × Nat × Nat) := do
  let p ← sched PM.getRunning
  let call ← gets Kernel.nextCall
  modify fun k => { k with nextCall := call + 1 }
  return (p.state.pid, p.running.state.id, call)

/-- The counterpart of a matched request is woken, whether or not the copy worked. -/
def complete (push : PendingPush) (pull : PendingPull) (sleeper : Nat) (store : KM Unit) :
    KM Unit := do
  match ← attempt (transfer push pull) with
  | .error e =>
    let _ ← attempt (wakeup sleeper)
    throw e
  | .ok _ =>
    store
    wakeup sleeper

/-- The two requests name each other. -/
def isMatch (push : PendingPush) (pull : PendingPull) : Bool :=
  pull.srcPid == push.pid && pull.srcTid == push.tid && pull.pid == push.dstPid &&
    pull.tid == push.dstTid

/-- A push meets a pull that waits, or waits for one. -/
def doPush (dstPid dstTid buffer transferLen : Nat) : KM Reply := do
  let (pid, tid, call) ← newRequest
  let push : PendingPush := ⟨call, pid, tid, dstPid, dstTid, buffer, transferLen⟩
  if tid = dstTid then throw ⟨.invalidArgument, "cannot push data to self"⟩
  else
    match swapRemove (isMatch push) (← gets Kernel.pulls) with
    | some (pull, rest) =>
      modify fun k => { k with pulls := rest }
      complete push pull pull.tid (modify fun k => { k with
        transferred := Function.update k.transferred pull.call
          (min push.transferLen pull.transferLen) })
      return .pushed push
    | none =>
      modify fun k => { k with pushes := k.pushes ++ [push] }
      sleepAs (.push push) none
      return .switched

/-- A pull meets a push that waits, or waits for one. -/
def doPull (srcPid srcTid buffer transferLen : Nat) : KM Reply := do
  let (pid, tid, call) ← newRequest
  let pull : PendingPull := ⟨call, pid, tid, srcPid, srcTid, buffer, transferLen⟩
  if tid = srcTid then throw ⟨.invalidArgument, "cannot pull data from self"⟩
  else
    match swapRemove (isMatch · pull) (← gets Kernel.pushes) with
    | some (push, rest) =>
      modify fun k => { k with pushes := rest }
      complete push pull push.tid (pure ())
      return .pulled pull (min push.transferLen pull.transferLen)
    | none =>
      modify fun k => { k with
        pulls := k.pulls ++ [pull], transferred := Function.update k.transferred call 0 }
      sleepAs (.pull pull) none
      return .switched

end Rendezvous

section Ending

/-- The process ends, and its other threads are made to end. -/
def exit (status : ExitStatus) : KM Reply := do
  reapDeferred
  let now ← gets Kernel.now
  let p ← sched PM.takeRunning
  if p.state.pid = kernelPid then abort "kernel process cannot exit"
  else
    modify fun k => { k with exits := (p.state.pid, status) :: k.exits }
    -- The slot of the running process is empty while its counterparts are released.
    cleanupRendezvous p.state.pid
    sched (PM.exitProcess p status now)
    return .switched

/-- When no thread that waits to join can be woken the call returns, in the name of the next thread. -/
def exitThread (status : ExitStatus) : KM Reply := do
  reapDeferred
  let now ← gets Kernel.now
  let tid ← sched (PM.doExitThread status now)
  match ← attempt (notifyAll (.join tid)) with
  | .ok _ => return .switched
  | .error e =>
    let next ← runningTid
    modify fun k => { k with waits := mapErase next k.waits }
    throw e

/-- The requests of a process go before it is killed. -/
def terminate (pid : Nat) : KM Reply := do
  sched (PM.checkTerminate pid)
  cleanupRendezvous pid
  let now ← gets Kernel.now
  sched (PM.terminateProcess pid now)
  return .done

/-- One round of `join_thread`. -/
def joinRound (tid : Nat) : KM Reply := do
  let p ← sched PM.getRunning
  match ← sched (PM.tryJoinThread p.state.pid tid) with
  | some dead =>
    harvestZombieThread p.state.pid dead
    return .joined dead.status
  | none =>
    condWait (.join tid) none (.join tid)
    return .switched

/-- Waits until the thread is dead, then reaps it. -/
def joinThread (tid : Nat) : KM Reply := do
  reapDeferred
  joinRound tid

/-- A dead thread is reaped at once. -/
def detachThread (tid : Nat) : KM Reply := do
  reapDeferred
  let p ← sched PM.getRunning
  match ← sched (PM.doDetachThread p.state.pid tid) with
  | some dead =>
    harvestZombieThread p.state.pid dead
    return .done
  | none => return .done

/-- `handle_sleep_error`: a killed thread ends its process. -/
def sleepError : SleepError → KM Reply
  | .generic e => throw e
  | .interrupted .killed => exit (.error .interrupted)
  | .interrupted .timedOut => throw ⟨.operationTimedOut, "operation timed out"⟩

end Ending

end KM
end Nanvix.Pm
