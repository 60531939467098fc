import Nanvix.Pm.Calls

/-!
# Mutexes and condition variables at user addresses

A process has a table from user addresses to kernel mutexes and one to condition
variables. An entry is made when an address is first used and removed when the
reference count says that nobody else uses the object.
-/
namespace Nanvix.Pm
open Config Library Library.Prog

namespace KM

/-- The running process with a changed state. -/
def modifyRunning (f : RunningProcess → RunningProcess) : KM Unit := do
  let p ← sched PM.getRunning
  sched (PM.setRunning (f p))

section Mutexes

def addMutexRefs (m n : Nat) : KM Unit := modify fun k => { k with
  mutexRefs := Function.update k.mutexRefs m (k.mutexRefs m + n) }

def dropMutex (m : Nat) : KM Unit := modify fun k => { k with
  mutexRefs := Function.update k.mutexRefs m (k.mutexRefs m - 1) }

/-- A reference to the mutex of an address, which is made if there is none. -/
def getMutex (addr : Nat) : KM Nat := do
  let p ← sched PM.getRunning
  match p.state.mutexes.lookup addr with
  | some m =>
    addMutexRefs m 1
    return m
  | none =>
    if mutexOpenMax ≤ p.state.mutexes.length then
      throw ⟨.outOfMemory, "maximum number of mutexes reached"⟩
    else
      let m ← gets Kernel.nextMutex
      modify fun k => { k with
        nextMutex := m + 1, locked := Function.update k.locked m false,
        mutexRefs := Function.update k.mutexRefs m 2 }
      modifyRunning fun p => { p with
        state := { p.state with mutexes := mapInsert addr m p.state.mutexes } }
      return m

/-- The entry of an address goes when only the table and the guard at hand refer to the mutex. -/
def putMutex (addr : Nat) : KM Unit := do
  let p ← sched PM.getRunning
  match p.state.mutexes.lookup addr with
  | none => throw ⟨.noSuchEntry, "mutex not found"⟩
  | some m =>
    if (← gets fun k => k.mutexRefs m) ≤ 2 then
      modifyRunning fun p => { p with
        state := { p.state with mutexes := mapErase addr p.state.mutexes } }
      dropMutex m
    else pure ()

/-- A lock that succeeds holds a reference. -/
def tryLock (m : Nat) : KM Bool := do
  if ← gets fun k => k.locked m then return false
  else
    modify fun k => { k with locked := Function.update k.locked m true }
    addMutexRefs m 1
    return true

/-- A guard that is replaced is dropped. -/
def storeMutexGuard (addr m : Nat) : KM Unit := do
  let p ← sched PM.getRunning
  let old := p.running.state.lockedMutexes.lookup addr
  modifyRunning fun p => { p with
    running := ⟨{ p.running.state with
      lockedMutexes := mapInsert addr m p.running.state.lockedMutexes }⟩ }
  forEach dropGuard old.toList

/-- The guard of an address; it is dropped when the table has no entry for the address. -/
def takeMutexGuard (addr : Nat) : KM Nat := do
  let p ← sched PM.getRunning
  match p.running.state.lockedMutexes.lookup addr with
  | none => throw ⟨.operationNotPermitted, "thread does not own mutex"⟩
  | some m =>
    modifyRunning fun p => { p with
      running := ⟨{ p.running.state with
        lockedMutexes := mapErase addr p.running.state.lockedMutexes }⟩ }
    match ← attempt (putMutex addr) with
    | .ok _ => return m
    | .error e =>
      dropGuard m
      throw e

/-- Unlocking wakes a thread that waits. -/
def unlockMutex (addr : Nat) : KM Reply := do
  let m ← takeMutexGuard addr
  dropGuard m
  return .done

/-- One round of `Mutex::lock` in `lock_mutex`, with the guard put away when it succeeds. -/
def lockRound (addr m : Nat) (timeout : Option Nat) : KM Reply := do
  if ← tryLock m then
    storeMutexGuard addr m
    dropMutex m
    return .done
  else
    match ← attempt (condWait (.mutex m) timeout (.lock addr m timeout)) with
    | .ok _ => return .switched
    | .error e =>
      dropMutex m
      throw e

/-- The mutex is made when it is first locked. -/
def lockMutex (addr : Nat) (timeout : Option Nat) : KM Reply := do
  let m ← getMutex addr
  lockRound addr m timeout

end Mutexes

section Conditions

def dropCond (c : Nat) : KM Unit := modify fun k => { k with
  condRefs := Function.update k.condRefs c (k.condRefs c - 1) }

/-- A reference to the condition variable of an address, which is made if there is none. -/
def getCond (addr : Nat) : KM Nat := do
  let p ← sched PM.getRunning
  match p.state.conditions.lookup addr with
  | some c =>
    modify fun k => { k with condRefs := Function.update k.condRefs c (k.condRefs c + 1) }
    return c
  | none =>
    if condOpenMax ≤ p.state.conditions.length then
      throw ⟨.outOfMemory, "maximum number of condition variables reached"⟩
    else
      let c ← gets Kernel.nextCond
      modify fun k => { k with
        nextCond := c + 1, condRefs := Function.update k.condRefs c 2 }
      modifyRunning fun p => { p with
        state := { p.state with conditions := mapInsert addr c p.state.conditions } }
      return c

/-- The entry goes when only the table refers to the condition variable. -/
def putCond (addr : Nat) : KM Unit := do
  let p ← sched PM.getRunning
  match p.state.conditions.lookup addr with
  | none => throw ⟨.noSuchEntry, "condition variable not found"⟩
  | some c =>
    if (← gets fun k => k.condRefs c) ≤ 1 then
      modifyRunning fun p => { p with
        state := { p.state with conditions := mapErase addr p.state.conditions } }
      dropCond c
    else pure ()

/-- What a call whose wait is over returns. -/
def finish : Except SleepError Unit → KM Reply
  | .ok _ => return .done
  | .error e => sleepError e

/-- One round of the lock that takes the mutex again at the end of `wait_cond`. -/
def relockRound (addr m : Nat) (result : Except SleepError Unit) : KM Reply := do
  if ← tryLock m then
    storeMutexGuard addr m
    dropMutex m
    finish result
  else
    condWait (.mutex m) none (.relock addr m result)
    return .switched

/-- The part of `wait_cond` after the wait. -/
def afterWait (condAddr mutexAddr : Nat) (result : Except SleepError Unit) : KM Reply := do
  putCond condAddr
  let m ← getMutex mutexAddr
  relockRound mutexAddr m result

/-- The mutex is given up for the time of the wait. -/
def waitCond (condAddr mutexAddr : Nat) (alarm : Option Nat) : KM Reply := do
  let m ← takeMutexGuard mutexAddr
  dropGuard m
  match ← attempt (getCond condAddr) with
  | .error e => afterWait condAddr mutexAddr (.error (.generic e))
  | .ok c =>
    match ← attempt (condWait (.user c) alarm (.cond c condAddr mutexAddr)) with
    | .ok _ => return .switched
    | .error e =>
      dropCond c
      afterWait condAddr mutexAddr (.error (.generic e))

/-- Returns how many threads woke up. -/
def signalCond (condAddr : Nat) (broadcast : Bool) : KM Reply := do
  let c ← getCond condAddr
  match ← attempt (if broadcast then notifyAll (.user c) else notifyFirst (.user c)) with
  | .error e =>
    dropCond c
    throw e
  | .ok awakened =>
    dropCond c
    putCond condAddr
    return .value awakened

end Conditions

end KM
end Nanvix.Pm
