import Nanvix.Mm.Copy
import Nanvix.Pm.EventManager
import Nanvix.Pm.Manager

/-!
# The state of the kernel, and its condition variables and mutexes

The kernel's state is the process manager, the event manager, the pending requests of
the rendezvous and of the bus, the queues of the condition variables, the mutexes
behind user addresses, and memory.
A thread that is switched out in the middle of a call leaves behind what it does when
it runs again.

## Implementation notes

A condition variable is named by what it belongs to: a thread to be joined, a mutex,
a user address of some process, the threads that wait for messages, an exception, or
a request of the bus. Mutexes and the condition variables of user
addresses are named by a number that is not used twice; their reference counts are
kept next to them. A condition variable is alive while a thread is queued on it,
since the waiting call holds a reference, so its destructor is left out. Requests of
the rendezvous are numbered; the number of a pull names the cell in which the puller
finds how many bytes it got. No routine reads `deliveries` and `forwarded`, which
list the messages received and those handed to the channel, or `exits`, which lists
the exit calls, the latest first.
-/
namespace Nanvix.Pm
open Config Library Library.Prog Mm

/-- The condition variables, by what they are for. -/
inductive CondId where
  | join (tid : Nat)
  | mutex (mutex : Nat)
  | user (cond : Nat)
  | events
  | exception (event : Nat)
  | bulk (call : Nat)
  deriving DecidableEq

/-- A push that waits for its pull. -/
structure PendingPush where
  call : Nat
  pid : Nat
  tid : Nat
  dstPid : Nat
  dstTid : Nat
  buffer : Nat
  transferLen : Nat
  deriving DecidableEq

/-- A pull that waits for its push. -/
structure PendingPull where
  call : Nat
  pid : Nat
  tid : Nat
  srcPid : Nat
  srcTid : Nat
  buffer : Nat
  transferLen : Nat
  deriving DecidableEq

/-- Why a sleep did not end well. -/
inductive SleepError where
  | interrupted (reason : InterruptReason)
  | generic (e : Error)
  deriving DecidableEq

/-- What a thread that was switched out does when it runs again. -/
inductive Wait where
  | yield
  | sleep
  | push (r : PendingPush)
  | pull (r : PendingPull)
  | join (tid : Nat)
  | lock (addr mutex : Nat) (timeout : Option Nat)
  | cond (cond condAddr mutexAddr : Nat)
  | relock (addr mutex : Nat) (result : Except SleepError Unit)
  | recv (interests : EventManager.Interests) (copy : Except Error Unit)
  | exception (event : Nat)
  | bulk (call : Nat)

/-- A message that a thread received, with the letter it was if it came by mail. -/
structure Delivery where
  pid : Nat
  tid : Nat
  message : Message
  letter : Option Letter
  deriving DecidableEq

/-- The state of the kernel. `waits` is what switched-out threads do next. -/
structure Kernel where
  pm : ProcessManager
  em : EventManager
  pushes : List PendingPush
  pulls : List PendingPull
  /-- The bytes a puller finds transferred, by the number of its request. -/
  transferred : Nat → Nat
  nextCall : Nat
  /-- The requests of the bus that are not complete, by thread. -/
  bulkPulls : List (Nat × Nat)
  nextSerial : Nat
  deliveries : List Delivery
  forwarded : List Letter
  exits : List (Nat × ExitStatus)
  queue : CondId → List Nat
  locked : Nat → Bool
  mutexRefs : Nat → Nat
  nextMutex : Nat
  condRefs : Nat → Nat
  nextCond : Nat
  waits : List (Nat × Wait)
  mem : MemState
  now : Nat

/-- Programs of the kernel. -/
abbrev KM (α : Type) := Prog Kernel Error α

namespace KM

/-- A step of the process manager. -/
def sched {α : Type} (x : PM α) : KM α :=
  focus (fun k => some k.pm) (fun pm k => { k with pm := pm }) x

/-- A step of the memory manager. -/
def memory {α : Type} (x : MM α) : KM α :=
  focus (fun k => some k.mem) (fun mem k => { k with mem := mem }) x

def runningTid : KM Nat := do
  let p ← sched PM.getRunning
  return p.running.state.id

section Condvars

def setQueue (c : CondId) (q : List Nat) : KM Unit :=
  modify fun k => { k with queue := Function.update k.queue c q }

/-- A sleeping thread is made ready. -/
def wakeup (tid : Nat) : KM Unit := do
  let now ← gets Kernel.now
  sched (PM.doWakeup tid now)

/-- The first thread of the queue is taken out and woken; returns how many threads woke up. -/
def notifyFirst (c : CondId) : KM Nat := do
  match ← gets fun k => k.queue c with
  | [] => return 0
  | tid :: rest =>
    setQueue c rest
    wakeup tid
    return 1

/-- The loop of `notify_all`, with the threads woken and the first error so far. -/
def wakeAll (c : CondId) : List Nat → Nat → Option Error → KM (Nat × Option Error)
  | [], awakened, firstError => return (awakened, firstError)
  | tid :: rest, awakened, firstError => do
      setQueue c rest
      match ← attempt (wakeup tid) with
      | .ok _ => wakeAll c rest (awakened + 1) firstError
      | .error e => wakeAll c rest awakened (firstError.or (some e))

/-- The first place of a thread in the queue is given up and the thread is woken. -/
def notifyThread (c : CondId) (tid : Nat) : KM Unit := do
  let q ← gets fun k => k.queue c
  if q.contains tid then
    setQueue c (q.erase tid)
    wakeup tid
  else pure ()

/-- Fails only when no thread could be woken. -/
def notifyAll (c : CondId) : KM Nat := do
  let q ← gets fun k => k.queue c
  let (awakened, firstError) ← wakeAll c q 0 none
  match firstError with
  | some e => if awakened = 0 then throw e else return awakened
  | none => return awakened

/-- The queue of a condition variable without a thread whose wait failed. -/
def leaveQueue (c : CondId) (tid : Nat) : KM Unit :=
  modify fun k => { k with queue := Function.update k.queue c ((k.queue c).filter (· != tid)) }

end Condvars

section Reaping

/-- Dropping a guard unlocks its mutex; a failed notification is only logged. -/
def dropGuard (m : Nat) : KM Unit := do
  modify fun k => { k with locked := Function.update k.locked m false }
  let _ ← attempt (notifyFirst (.mutex m))
  modify fun k => { k with mutexRefs := Function.update k.mutexRefs m (k.mutexRefs m - 1) }

/-- The state of a dead thread is dropped, which unlocks the mutexes it still holds. -/
def dropThreadState (t : ThreadState) : KM Unit := forEach (fun e => dropGuard e.2) t.lockedMutexes

/-- A thread whose process is gone is not counted as reaped if its stack had to be unmapped. -/
def harvestZombieThread (pid : Nat) (dead : ZombieThread) : KM Unit := do
  dropThreadState dead.state
  if dead.ownsStacks then
    match ← attempt (sched (PM.findProcess pid)) with
    | .error _ => pure ()
    | .ok _ => sched (PM.onThreadReaped dead.state.id)
  else sched (PM.onThreadReaped dead.state.id)

/-- The threads that died detached are reaped. -/
def reapDeferred : KM Unit := do
  let deferred ← gets fun k => k.pm.deferredReap
  sched (modify fun pm => { pm with deferredReap := [] })
  forEach (fun e => harvestZombieThread e.1 e.2) deferred

/-- The threads of a dead process are harvested and its state is dropped, with the events it owns. -/
def harvestZombies : KM (Option (Nat × ExitStatus)) := do
  match ← sched PM.popZombieProcess with
  | none => return none
  | some p =>
    forEach (fun dead => do
      dropThreadState dead.state
      sched (PM.onThreadReaped dead.state.id)) p.zombieThreads.toList
    modify fun k => { k with
      em := p.process.events.foldl EventManager.dropOwnership k.em,
      mutexRefs := fun m => k.mutexRefs m - (p.process.mutexes.map (·.2)).count m,
      condRefs := fun c => k.condRefs c - (p.process.conditions.map (·.2)).count c }
    return some (p.process.pid, p.status)

end Reaping

section Switching

/-- `ProcessManager::sleep`, with what the thread does when it runs again. -/
def sleepAs (w : Wait) (alarm : Option Nat) : KM Unit := do
  reapDeferred
  let tid ← runningTid
  let now ← gets Kernel.now
  modify fun k => { k with waits := (tid, w) :: k.waits }
  sched (PM.doSleep alarm now)

/-- The running thread stays ready, and another one may run. -/
def giveup : KM Unit := do
  reapDeferred
  let tid ← runningTid
  let now ← gets Kernel.now
  modify fun k => { k with waits := (tid, .yield) :: k.waits }
  sched (PM.schedule now)

/-- `Condvar::wait`: an alarm that has passed is an error before the thread is queued. -/
def condWait (c : CondId) (alarm : Option Nat) (w : Wait) : KM Unit := do
  let p ← sched PM.getRunning
  let now ← gets Kernel.now
  if p.state.pid = kernelPid then abort "kernel process cannot sleep"
  else if alarm.any fun a => decide (a ≤ now) then
    throw ⟨.operationTimedOut, "alarm has already expired"⟩
  else
    modify fun k => { k with
      queue := Function.update k.queue c (k.queue c ++ [p.running.state.id]) }
    sleepAs w alarm

end Switching

end KM
end Nanvix.Pm
