import Nanvix.Library.Outcome
import Nanvix.Pm.Process

/-!
# The process manager

The manager holds every process in the collection of its state and moves it to
another one when the state changes. At most one process runs; the slot of the
running process is empty while a transition takes it out.

## Implementation notes

Routines take the time at which they run. Context pointers and stack guards are
left out. The rounds over the collections that put every member back are written
as one operation on the list.
-/
namespace Nanvix.Pm
open Config Library Library.Prog

/-- The processes by what they do, and the counters. -/
structure ProcessManager where
  interruptReason : Option InterruptReason
  nextPid : Nat
  running : Option RunningProcess
  ready : List RunnableProcess
  suspended : List SleepingProcess
  interrupted : List InterruptedProcess
  zombies : List ZombieProcess
  tm : ThreadManager
  liveCount : Nat
  numberBufferedMessages : Nat
  deferredReap : List (Nat × ZombieThread)
  deriving DecidableEq

/-- The identifier of the kernel's process. -/
def kernelPid : Nat := 0

/-- Programs over the process manager. -/
abbrev PM (α : Type) := Prog ProcessManager Error α

namespace ProcessManager

/-- The manager with the kernel's process, whose address space is `root`. -/
def new (root : Nat) : ProcessManager :=
  ⟨none, 1, some (RunnableProcess.new kernelPid root ⟨.new 0 false false, 0⟩).run.1,
    [], [], [], [], .new, 1, 0, []⟩

end ProcessManager

namespace PM

/-- The message of the panic when the slot of the running process is empty. -/
def slotEmpty : String := "the kernel should be running"

/-- The slot is empty until the process is put somewhere. -/
def takeRunning : PM RunningProcess := do
  match ← gets ProcessManager.running with
  | none => abort slotEmpty
  | some p =>
    modify fun pm => { pm with running := none }
    return p

def getRunning : PM RunningProcess := do
  match ← gets ProcessManager.running with
  | none => abort slotEmpty
  | some p => return p

def setRunning (p : RunningProcess) : PM Unit := modify fun pm => { pm with running := some p }

section Creation

/-- The identifier of a new process and the one after it. -/
def tryNextPid : PM (Nat × Nat) := do
  let pid ← gets ProcessManager.nextPid
  if ThreadManager.maxIdentifier < pid + 1 then
    throw ⟨.valueOverflow, "process identifier overflow"⟩
  else return (pid, pid + 1)

def tryNextTid : PM (Nat × Nat) := do
  let tm ← gets ProcessManager.tm
  ofExcept tm.tryNextTid

/-- What a process with one new thread adds to the manager. -/
def addProcess (pid nextPid tid nextTid space : Nat) (userStack : Bool) (now : Nat) : PM Unit :=
  modify fun pm => { pm with
    nextPid := nextPid, tm := pm.tm.commitNextTid nextTid, liveCount := pm.liveCount + 1,
    ready := pm.ready ++ [.new pid space ⟨.new tid true userStack, now⟩] }

/-- `memory` is how the steps that build the address space end. -/
def createProcess (space : Nat) (memory : Except Error Unit) (now : Nat) : PM Nat := do
  let live ← gets ProcessManager.liveCount
  if maxProcesses ≤ live then throw ⟨.outOfMemory, "maximum number of processes reached"⟩
  else
    let (pid, nextPid) ← tryNextPid
    let (tid, nextTid) ← tryNextTid
    ofExcept memory
    addProcess pid nextPid tid nextTid space true now
    return pid

/-- `checks` is how the checks of the arguments and of the caller's resources end. -/
def duplicateProcess (space : Nat) (checks memory : Except Error Unit) (now : Nat) : PM Nat := do
  let _ ← getRunning
  ofExcept checks
  let live ← gets ProcessManager.liveCount
  if maxProcesses ≤ live then throw ⟨.outOfMemory, "maximum number of processes reached"⟩
  else
    let (pid, nextPid) ← tryNextPid
    let (tid, nextTid) ← tryNextTid
    ofExcept memory
    addProcess pid nextPid tid nextTid space false now
    return pid

/-- The new thread belongs to the running process. -/
def createThread (memory : Except Error Unit) (now : Nat) : PM Nat := do
  let (tid, nextTid) ← tryNextTid
  ofExcept memory
  let p ← getRunning
  modify fun pm => { pm with tm := pm.tm.commitNextTid nextTid }
  setRunning (p.addThread ⟨.new tid true false, now⟩)
  return tid

end Creation

section Switching

/-- The process whose ready thread was admitted first. -/
def takeEarliestReady : PM RunnableProcess := do
  match ← gets ProcessManager.ready with
  | [] => abort "there should always be a process ready to run"
  | p :: ps =>
    match removeMin (·.earliestAdmissionTime) p ps with
    | (next, rest) =>
      modify fun pm => { pm with ready := rest }
      return next

/-- The part that all switches share: the process admitted first runs. -/
def runNext : PM Unit := do
  let next ← takeEarliestReady
  modify fun pm => { pm with interruptReason := next.run.2, running := some next.run.1 }

/-- The processes some of whose alarms have gone off, and the others. -/
def splitAlarms (now : Nat) : List SleepingProcess → List InterruptedProcess × List SleepingProcess
  | [] => ([], [])
  | p :: ps =>
    match splitAlarms now ps, p.wakeupAlarm now with
    | (late, rest), .inl q => (q :: late, rest)
    | (late, rest), .inr q => (late, q :: rest)

/-- Processes with an expired alarm are interrupted. -/
def checkAlarm (now : Nat) : PM Unit := modify fun pm => { pm with
  interrupted := pm.interrupted ++ (splitAlarms now pm.suspended).1,
  suspended := (splitAlarms now pm.suspended).2 }

/-- Interrupted processes are resumed before the next one is chosen. -/
def schedule (now : Nat) : PM Unit := do
  let previous ← takeRunning
  modify fun pm => { pm with ready := pm.ready ++ [previous.schedule now] }
  checkAlarm now
  modify fun pm => { pm with
    ready := pm.ready ++ pm.interrupted.map (·.resume now), interrupted := [] }
  runNext

def pushReady (p : RunnableProcess) : PM Unit := modify fun pm => { pm with ready := pm.ready ++ [p] }

def pushSuspended (p : SleepingProcess) : PM Unit :=
  modify fun pm => { pm with suspended := pm.suspended ++ [p] }

def pushInterrupted (p : InterruptedProcess) : PM Unit :=
  modify fun pm => { pm with interrupted := pm.interrupted ++ [p] }

def pushZombie (p : ZombieProcess) : PM Unit :=
  modify fun pm => { pm with zombies := pm.zombies ++ [p] }

/-- A process with another thread to run stays ready. -/
def doSleep (alarm : Option Nat) (now : Nat) : PM Unit := do
  let p ← takeRunning
  if p.state.pid = kernelPid then abort "kernel process cannot sleep"
  else
    let _ ← ((p.sleep alarm now).elim pushReady pushSuspended : PM Unit)
    runNext

/-- The part of `do_exit` after the rendezvous lists are cleaned up. -/
def exitProcess (p : RunningProcess) (status : ExitStatus) (now : Nat) : PM Unit := do
  let _ ← ((p.exit status now).elim pushReady pushZombie : PM Unit)
  runNext

/-- The thread that exited is returned; its join condition variable is notified next. -/
def doExitThread (status : ExitStatus) (now : Nat) : PM Nat := do
  let p ← takeRunning
  if p.state.pid = kernelPid then abort "kernel process cannot exit"
  else
    let _ ← (match (p.exitThread status now).1 with
      | .runnable q => pushReady q
      | .sleeping q => pushSuspended q
      | .zombie q => pushZombie q : PM Unit)
    modify fun pm => { pm with
      deferredReap := pm.deferredReap ++
        (p.exitThread status now).2.toList.map fun dead => (p.state.pid, dead) }
    runNext
    return p.running.state.id

end Switching

section Wakeup

/-- The search for the process that has a thread, and what its wakeup leaves. -/
def searchWakeup {π : Type} (find : π → Bool) (wake : π → Option RunnableProcess) :
    List π → Option (Option (RunnableProcess × List π))
  | [] => none
  | p :: ps =>
    if find p then some ((wake p).map fun q => (q, ps))
    else (searchWakeup find wake ps).map fun r => r.map fun (q, rest) => (q, p :: rest)

/-- The sleeping processes are searched first; one that has the thread ends the search. -/
def tryWakeup (tid now : Nat) : PM (Option RunnableProcess) := do
  let pm ← gets id
  match searchWakeup (·.findThread tid) (·.wakeup tid now) pm.suspended with
  | some (some (q, rest)) =>
    modify fun pm => { pm with suspended := rest }
    return some q
  | some none => return none
  | none =>
    match searchWakeup (·.findThread tid) (·.wakeup tid now) pm.ready with
    | some (some (q, rest)) =>
      modify fun pm => { pm with ready := rest }
      return some q
    | some none => return none
    | none => return none

/-- The running process is searched before the others. -/
def doWakeup (tid now : Nat) : PM Unit := do
  let p ← getRunning
  if p.findThread tid then
    match p.wakeup tid now with
    | some q => setRunning q
    | none => throw ⟨.noSuchEntry, "thread not found"⟩
  else
    match ← tryWakeup tid now with
    | some q => pushReady q
    | none => throw ⟨.noSuchEntry, "thread not found"⟩

end Wakeup

section Termination

/-- The part of `terminate` before the rendezvous lists are cleaned up. -/
def checkTerminate (pid : Nat) : PM Unit := do
  let running ← gets ProcessManager.running
  if pid = kernelPid then throw ⟨.invalidArgument, "cannot terminate kernel process"⟩
  else if running.any (·.state.pid == pid) then
    throw ⟨.invalidArgument, "cannot terminate running process"⟩
  else pure ()

/-- The part of `terminate` after the rendezvous lists are cleaned up. -/
def terminateProcess (pid now : Nat) : PM Unit := do
  let pm ← gets id
  match removeIf (·.state.pid == pid) pm.ready with
  | some (p, rest) =>
    modify fun pm => { pm with ready := rest }
    p.terminate.elim (fun q => pushReady (q.resume now)) pushZombie
  | none =>
    match removeIf (·.state.pid == pid) pm.suspended with
    | some (p, rest) =>
      modify fun pm => { pm with suspended := rest }
      pushInterrupted p.terminate
    | none => throw ⟨.noSuchProcess, "process not found"⟩

/-- The process that died first; the kernel's own stays counted. -/
def popZombieProcess : PM (Option ZombieProcess) := do
  let pm ← gets id
  match pm.zombies with
  | [] => return none
  | p :: ps =>
    if pm.liveCount ≤ 1 then
      abort "live_count underflow: kernel process must always remain counted"
    else
      modify fun pm => { pm with zombies := ps, liveCount := pm.liveCount - 1 }
      return some p

/-- A reaped thread is no longer counted. -/
def onThreadReaped (tid : Nat) : PM Unit := do
  let tm ← gets ProcessManager.tm
  if tm.liveCount ≤ 1 then abort "live_count underflow: kernel thread must always remain counted"
  else modify fun pm => { pm with
    tm := { pm.tm with liveCount := pm.tm.liveCount - 1, reaped := tid :: pm.tm.reaped } }

end Termination

section Lookup

/-- A process in the collection where it was found. -/
inductive ProcessRef where
  | running (p : RunningProcess)
  | runnable (p : RunnableProcess)
  | sleeping (p : SleepingProcess)
  | interrupted (p : InterruptedProcess)
  | zombie (p : ZombieProcess)

def ProcessRef.state : ProcessRef → ProcessState
  | .running p => p.state
  | .runnable p => p.state
  | .sleeping p => p.state
  | .interrupted p => p.state
  | .zombie p => p.process

/-- The collections are searched in this order. -/
def findProcess (pid : Nat) : PM ProcessRef := do
  let running ← getRunning
  let pm ← gets id
  if running.state.pid = pid then return .running running
  else if let some p := pm.ready.find? (·.state.pid == pid) then return .runnable p
  else if let some p := pm.suspended.find? (·.state.pid == pid) then return .sleeping p
  else if let some p := pm.interrupted.find? (·.state.pid == pid) then return .interrupted p
  else if let some p := pm.zombies.find? (·.process.pid == pid) then return .zombie p
  else throw ⟨.noSuchProcess, "process not found"⟩

/-- A zombie that was joined, or nothing when the caller has to wait for the thread. -/
def tryJoinThread (pid tid : Nat) : PM (Option ZombieThread) := do
  match ← findProcess pid with
  | .running p =>
    match p.tryJoinThread tid with
    | .joined dead q =>
      setRunning q
      return some dead
    | .wait => return none
    | .failed e => throw e
  | .runnable _ => throw ⟨.operationNotPermitted, "process is runnable"⟩
  | .sleeping _ => throw ⟨.operationNotPermitted, "process is sleeping"⟩
  | .interrupted _ => throw ⟨.operationNotPermitted, "process is interrupted"⟩
  | .zombie _ => throw ⟨.operationNotPermitted, "process is a zombie"⟩

/-- Only a thread of the running process can be detached. -/
def doDetachThread (pid tid : Nat) : PM (Option ZombieThread) := do
  match ← findProcess pid with
  | .running p =>
    let (q, dead) ← ofExcept (p.detachThread tid)
    setRunning q
    return dead
  | _ => throw ⟨.operationNotPermitted, "process is not running"⟩

/-- `interrupt_reason`: the reason is taken. -/
def takeInterruptReason : PM (Option InterruptReason) := do
  let reason ← gets ProcessManager.interruptReason
  modify fun pm => { pm with interruptReason := none }
  return reason

end Lookup

section Mail

/-- A test that tells one process from the others. -/
structure Finder where
  running : RunningProcess → Bool
  runnable : RunnableProcess → Bool
  sleeping : SleepingProcess → Bool
  interrupted : InterruptedProcess → Bool
  zombie : ZombieProcess → Bool

def Finder.byPid (pid : Nat) : Finder :=
  ⟨(·.state.pid == pid), (·.state.pid == pid), (·.state.pid == pid), (·.state.pid == pid),
    (·.process.pid == pid)⟩

def Finder.byTid (tid : Nat) : Finder :=
  ⟨(·.findThread tid), (·.findThread tid), (·.findThread tid), (·.findThread tid),
    (·.findThread tid)⟩

/-- The state of the first process that passes a test is changed. -/
def alter (test : Finder) (notFound : Error) (f : ProcessState → ProcessState) : PM Unit := do
  let running ← getRunning
  let pm ← gets id
  if test.running running then setRunning { running with state := f running.state }
  else if pm.ready.any test.runnable then modify fun pm => { pm with
    ready := updateFirst test.runnable (fun p => { p with state := f p.state }) pm.ready }
  else if pm.suspended.any test.sleeping then modify fun pm => { pm with
    suspended := updateFirst test.sleeping (fun p => { p with state := f p.state }) pm.suspended }
  else if pm.interrupted.any test.interrupted then modify fun pm => { pm with
    interrupted :=
      updateFirst test.interrupted (fun p => { p with state := f p.state }) pm.interrupted }
  else if pm.zombies.any test.zombie then modify fun pm => { pm with
    zombies := updateFirst test.zombie (fun p => { p with process := f p.process }) pm.zombies }
  else throw notFound

def findProcessMut (pid : Nat) : (ProcessState → ProcessState) → PM Unit :=
  alter (.byPid pid) ⟨.noSuchProcess, "process not found"⟩

def findProcessByTid (tid : Nat) : (ProcessState → ProcessState) → PM Unit :=
  alter (.byTid tid) ⟨.noSuchEntry, "thread not found"⟩

/-- The counter of buffered messages, which may not overflow. -/
def noteMessagePosted : PM Unit := do
  let n ← gets ProcessManager.numberBufferedMessages
  if usizeMax < n + 1 then throw ⟨.valueOverflow, "number of buffered messages overflowed"⟩
  else modify fun pm => { pm with numberBufferedMessages := n + 1 }

def noteMessageReceived : PM Unit := do
  let n ← gets ProcessManager.numberBufferedMessages
  if n = 0 then throw ⟨.invalidArgument, "number of buffered messages underflowed"⟩
  else modify fun pm => { pm with numberBufferedMessages := n - 1 }

/-- The letter goes to the mailbox of the process, also for a thread. -/
def postMessage (receiver : Party) (l : Letter) : PM Unit := do
  let _ ← (match receiver with
    | .process pid => findProcessMut pid (·.postMessage l)
    | .thread tid => findProcessByTid tid (·.postMessage l) : PM Unit)
  noteMessagePosted

/-- The first letter that the thread may take. -/
def tryRecv (tid : Nat) : PM (Option Letter) := do
  let p ← getRunning
  match p.state.receiveMessage tid with
  | some (l, state) =>
    setRunning { p with state := state }
    noteMessageReceived
    return some l
  | none => return none

def hasCapability (pid : Nat) (c : Capability) : PM Bool := do
  let p ← findProcess pid
  return p.state.hasCapability c

/-- A capability is set once and cleared once. -/
def capctl (pid : Nat) (c : Capability) (set : Bool) : PM Unit := do
  let p ← findProcess pid
  if set then
    if p.state.hasCapability c then throw ⟨.resourceBusy, "capability already set"⟩
    else findProcessMut pid (·.setCapability c)
  else
    if p.state.hasCapability c then findProcessMut pid (·.clearCapability c)
    else throw ⟨.noSuchEntry, "capability not set"⟩

def addEvent (ev : Event) : PM Unit := do
  let p ← getRunning
  setRunning { p with state := p.state.addEvent ev }

def removeEvent (ev : Event) : PM Unit := do
  let p ← getRunning
  setRunning { p with state := p.state.removeEvent ev }

end Mail

end PM
end Nanvix.Pm
