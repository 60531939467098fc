import Nanvix.Base
import Nanvix.Library.Containers

/-!
# Threads

A thread is running, ready, asleep, interrupted or a zombie; each of these is a
type of its own around the state that a thread keeps for its whole life.

## Implementation notes

Contexts, the floating-point state and the thread data area are left out. Of the
stacks only the presence is kept, which decides how a dead thread is harvested. A
join condition variable is named by its thread. `ThreadManager.reaped` lists the
threads reaped so far; no routine reads it.
-/
namespace Nanvix.Pm
open Config Library

/-- Why a sleep was cut short. -/
inductive InterruptReason where
  | killed
  | timedOut
  deriving DecidableEq

/-- How a thread or a process ended. -/
inductive ExitStatus where
  | code (value : Nat)
  | error (code : ErrorCode)
  deriving DecidableEq

/-- What a thread keeps for its whole life. -/
structure ThreadState where
  id : Nat
  kernelStack : Bool
  userStack : Bool
  /-- The guards the thread holds, by address; a guard is named by its mutex. -/
  lockedMutexes : List (Nat × Nat)
  interruptReason : Option InterruptReason
  detached : Bool
  deriving DecidableEq

namespace ThreadState

def new (id : Nat) (kernelStack userStack : Bool) : ThreadState :=
  ⟨id, kernelStack, userStack, [], none, false⟩

/-- The reason is found when the thread runs. -/
def setInterruptReason (t : ThreadState) (reason : InterruptReason) : ThreadState :=
  { t with interruptReason := some reason }

def takeInterruptReason (t : ThreadState) : ThreadState × Option InterruptReason :=
  ({ t with interruptReason := none }, t.interruptReason)

def setDetached (t : ThreadState) : ThreadState := { t with detached := true }

end ThreadState

/-- A thread that can run, since when. -/
structure ReadyThread where
  state : ThreadState
  admissionTime : Nat
  deriving DecidableEq

/-- A thread that waits, maybe with an alarm. -/
structure SleepingThread where
  state : ThreadState
  alarm : Option Nat
  deriving DecidableEq

/-- A thread whose sleep was cut short. -/
structure InterruptedThread where
  state : ThreadState
  reason : InterruptReason
  deriving DecidableEq

/-- A dead thread that is not reaped. -/
structure ZombieThread where
  state : ThreadState
  status : ExitStatus
  deriving DecidableEq

structure RunningThread where
  state : ThreadState
  deriving DecidableEq

namespace RunningThread

def sleep (t : RunningThread) (alarm : Option Nat) : SleepingThread := ⟨t.state, alarm⟩

def schedule (t : RunningThread) (now : Nat) : ReadyThread := ⟨t.state, now⟩

def exit (t : RunningThread) (status : ExitStatus) : ZombieThread := ⟨t.state, status⟩

end RunningThread

namespace ReadyThread

/-- The reason of an interrupt is handed over with the thread. -/
def run (t : ReadyThread) : RunningThread × Option InterruptReason :=
  (⟨t.state.takeInterruptReason.1⟩, t.state.takeInterruptReason.2)

/-- A ready thread dies without running again. -/
def terminate (t : ReadyThread) : ZombieThread := ⟨t.state, .error .interrupted⟩

def setDetached (t : ReadyThread) : ReadyThread := { t with state := t.state.setDetached }

end ReadyThread

namespace SleepingThread

def wakeup (t : SleepingThread) (now : Nat) : ReadyThread := ⟨t.state, now⟩

def interrupt (t : SleepingThread) (reason : InterruptReason) : InterruptedThread :=
  ⟨t.state, reason⟩

def setDetached (t : SleepingThread) : SleepingThread := { t with state := t.state.setDetached }

/-- The alarm of the thread has gone off. -/
def expired (t : SleepingThread) (now : Nat) : Bool := t.alarm.any fun alarm => decide (alarm ≤ now)

end SleepingThread

namespace InterruptedThread

/-- The reason is kept for the thread to find. -/
def resume (t : InterruptedThread) (now : Nat) : ReadyThread :=
  ⟨t.state.setInterruptReason t.reason, now⟩

def setDetached (t : InterruptedThread) : InterruptedThread :=
  { t with state := t.state.setDetached }

end InterruptedThread

/-- The stacks of a dead thread: both are there, and the user stack has to be unmapped. -/
def ZombieThread.ownsStacks (t : ZombieThread) : Bool := t.state.kernelStack && t.state.userStack

/-- The counters of threads. No routine reads `reaped`. -/
structure ThreadManager where
  nextId : Nat
  liveCount : Nat
  reaped : List Nat
  deriving DecidableEq

namespace ThreadManager

/-- The kernel's thread has identifier zero. -/
def new : ThreadManager := ⟨1, 1, []⟩

/-- Largest value of a thread or process identifier. -/
def maxIdentifier : Nat := 2 ^ 31 - 1

/-- The identifier of a new thread and the one after it. -/
def tryNextTid (tm : ThreadManager) : Except Error (Nat × Nat) :=
  if maxThreads ≤ tm.liveCount then
    .error ⟨.outOfMemory, "system-wide thread limit reached"⟩
  else if maxIdentifier < tm.nextId + 1 then
    .error ⟨.valueOverflow, "thread identifier overflow"⟩
  else .ok (tm.nextId, tm.nextId + 1)

/-- The thread is counted. -/
def commitNextTid (tm : ThreadManager) (next : Nat) : ThreadManager :=
  { tm with nextId := next, liveCount := tm.liveCount + 1 }

end ThreadManager
end Nanvix.Pm
