import Nanvix.Pm.Message

/-!
# Processes

A process is running, runnable, asleep, interrupted or a zombie, with a type for
each. The type says which threads the process must have: a running process has one
running thread, a runnable one a ready thread, a sleeping one a sleeping thread and
no thread that is ready or interrupted, an interrupted one an interrupted thread, and
a zombie has zombies only.

## Implementation notes

An optional queue that may not be empty is a list. The input/output regions and ports
of a process are left out. Of the ownership of an event only the event is kept.
-/
namespace Nanvix.Pm
open Library

/-- What a process keeps whatever its threads do. -/
structure ProcessState where
  pid : Nat
  /-- The address space, by its name in the memory manager. -/
  space : Nat
  capabilities : List Capability
  events : List Event
  mailbox : List Letter
  mutexes : List (Nat × Nat)
  conditions : List (Nat × Nat)
  pendingExitStatus : Option ExitStatus
  deriving DecidableEq

namespace ProcessState

/-- A process with nothing but its space. -/
def new (pid space : Nat) : ProcessState := ⟨pid, space, [], [], [], [], [], none⟩

def hasCapability (p : ProcessState) (c : Capability) : Bool := p.capabilities.contains c

def setCapability (p : ProcessState) (c : Capability) : ProcessState :=
  { p with capabilities := c :: p.capabilities }

def clearCapability (p : ProcessState) (c : Capability) : ProcessState :=
  { p with capabilities := p.capabilities.filter (· != c) }

def addEvent (p : ProcessState) (ev : Event) : ProcessState := { p with events := p.events ++ [ev] }

def removeEvent (p : ProcessState) (ev : Event) : ProcessState :=
  { p with events := p.events.filter (· != ev) }

/-- Letters are kept in the order they came. -/
def postMessage (p : ProcessState) (l : Letter) : ProcessState :=
  { p with mailbox := p.mailbox ++ [l] }

def receiveMessage (p : ProcessState) (tid : Nat) : Option (Letter × ProcessState) :=
  (Mailbox.receive tid p.mailbox).map fun (l, rest) => (l, { p with mailbox := rest })

/-- The first status counts. -/
def setPendingExitStatus (p : ProcessState) (status : ExitStatus) : ProcessState :=
  if p.pendingExitStatus.isNone then { p with pendingExitStatus := some status } else p

def takePendingExitStatus (p : ProcessState) : ProcessState × Option ExitStatus :=
  ({ p with pendingExitStatus := none }, p.pendingExitStatus)

end ProcessState

/-- A process with a running thread. -/
structure RunningProcess where
  state : ProcessState
  running : RunningThread
  ready : List ReadyThread
  interruptedThreads : List InterruptedThread
  sleepingThreads : List SleepingThread
  zombie : List ZombieThread
  deriving DecidableEq

/-- A process with a ready thread, none of which runs. -/
structure RunnableProcess where
  state : ProcessState
  readyThreads : NonEmptyDeque ReadyThread
  interruptedThreads : List InterruptedThread
  sleepingThreads : List SleepingThread
  zombieThreads : List ZombieThread
  deriving DecidableEq

/-- A process all of whose live threads sleep. -/
structure SleepingProcess where
  state : ProcessState
  sleepingThreads : NonEmptyDeque SleepingThread
  zombieThreads : List ZombieThread
  deriving DecidableEq

/-- A process with a thread whose sleep was cut short. -/
structure InterruptedProcess where
  state : ProcessState
  sleepingThreads : List SleepingThread
  interruptedThreads : NonEmptyDeque InterruptedThread
  zombieThreads : List ZombieThread
  deriving DecidableEq

/-- A process all of whose threads are dead. -/
structure ZombieProcess where
  zombieThreads : NonEmptyDeque ZombieThread
  process : ProcessState
  status : ExitStatus
  deriving DecidableEq

/-- The first interrupted thread becomes ready; the others wait for their turn. -/
def InterruptedProcess.resume (p : InterruptedProcess) (now : Nat) : RunnableProcess :=
  ⟨p.state, .new (p.interruptedThreads.head.resume now), p.interruptedThreads.tail,
    p.sleepingThreads, p.zombieThreads⟩

def InterruptedProcess.findThread (p : InterruptedProcess) (tid : Nat) : Bool :=
  p.interruptedThreads.toList.any (·.state.id == tid) ||
    p.sleepingThreads.any (·.state.id == tid) || p.zombieThreads.any (·.state.id == tid)

def ZombieProcess.findThread (p : ZombieProcess) (tid : Nat) : Bool :=
  p.zombieThreads.toList.any (·.state.id == tid)

/-- The threads killed in their sleep. -/
def killed (threads : List SleepingThread) : List InterruptedThread :=
  threads.map (·.interrupt .killed)

namespace SleepingProcess

/-- All sleepers are killed in their sleep. -/
def terminate (p : SleepingProcess) : InterruptedProcess :=
  ⟨p.state, [], p.sleepingThreads.map (·.interrupt .killed), p.zombieThreads⟩

/-- The one thread that is ready then is the woken one. -/
def wakeup (p : SleepingProcess) (tid now : Nat) : Option RunnableProcess :=
  (removeIf (·.state.id == tid) p.sleepingThreads.toList).map fun (t, rest) =>
    ⟨p.state, .new (t.wakeup now), [], rest, p.zombieThreads⟩

/-- The threads whose alarm has gone off are interrupted; both kinds keep their order. -/
def wakeupAlarm (p : SleepingProcess) (now : Nat) : InterruptedProcess ⊕ SleepingProcess :=
  match p.sleepingThreads.toList.filter (·.expired now) with
  | [] => .inr p
  | t :: ts =>
    .inl ⟨p.state, p.sleepingThreads.toList.filter fun t => !t.expired now,
      ⟨t.interrupt .timedOut, ts.map (·.interrupt .timedOut)⟩, p.zombieThreads⟩

def findThread (p : SleepingProcess) (tid : Nat) : Bool :=
  p.sleepingThreads.toList.any (·.state.id == tid) || p.zombieThreads.any (·.state.id == tid)

end SleepingProcess

namespace RunnableProcess

def new (pid space : Nat) (thread : ReadyThread) : RunnableProcess :=
  ⟨.new pid space, .new thread, [], [], []⟩

/-- The ready thread admitted first runs. -/
def run (p : RunnableProcess) : RunningProcess × Option InterruptReason :=
  match removeMin (·.admissionTime) p.readyThreads.head p.readyThreads.tail with
  | (next, rest) =>
    (⟨p.state, next.run.1, rest, p.interruptedThreads, p.sleepingThreads, p.zombieThreads⟩,
      next.run.2)

/-- Threads that sleep have to be resumed before the process is dead. -/
def terminate (p : RunnableProcess) : InterruptedProcess ⊕ ZombieProcess :=
  let zombies := (p.readyThreads.map (·.terminate)).append p.zombieThreads
  match p.interruptedThreads ++ killed p.sleepingThreads with
  | t :: ts => .inl ⟨p.state, [], ⟨t, ts⟩, zombies.toList⟩
  | [] =>
    let (state, pending) := p.state.takePendingExitStatus
    .inr ⟨zombies, state, pending.getD (.error .interrupted)⟩

def wakeup (p : RunnableProcess) (tid now : Nat) : Option RunnableProcess :=
  (removeIf (·.state.id == tid) p.sleepingThreads).map fun (t, rest) =>
    { p with readyThreads := p.readyThreads.pushBack (t.wakeup now), sleepingThreads := rest }

/-- The earliest time at which a ready thread was admitted. -/
def earliestAdmissionTime (p : RunnableProcess) : Nat :=
  p.readyThreads.tail.foldl (fun m t => min m t.admissionTime) p.readyThreads.head.admissionTime

def findThread (p : RunnableProcess) (tid : Nat) : Bool :=
  p.readyThreads.toList.any (·.state.id == tid) || p.interruptedThreads.any (·.state.id == tid) ||
    p.sleepingThreads.any (·.state.id == tid) || p.zombieThreads.any (·.state.id == tid)

end RunnableProcess

namespace RunningProcess

/-- The running thread goes behind the ready ones. -/
def schedule (p : RunningProcess) (now : Nat) : RunnableProcess :=
  ⟨p.state, .ofPush p.ready (p.running.schedule now), p.interruptedThreads, p.sleepingThreads,
    p.zombie⟩

/-- The process sleeps when none of its threads can run. -/
def sleep (p : RunningProcess) (alarm : Option Nat) (now : Nat) :
    RunnableProcess ⊕ SleepingProcess :=
  let sleeping := NonEmptyDeque.ofPush p.sleepingThreads (p.running.sleep alarm)
  match p.ready, p.interruptedThreads with
  | r :: rs, interrupted => .inl ⟨p.state, ⟨r, rs⟩, interrupted, sleeping.toList, p.zombie⟩
  | [], i :: is =>
    .inl ((⟨p.state, sleeping.toList, ⟨i, is⟩, p.zombie⟩ : InterruptedProcess).resume now)
  | [], [] => .inr ⟨p.state, sleeping, p.zombie⟩

/-- Every thread is made to end: those that sleep are killed and resumed one by one. -/
def exit (p : RunningProcess) (status : ExitStatus) (now : Nat) :
    RunnableProcess ⊕ ZombieProcess :=
  let state := p.state.setPendingExitStatus status
  let zombies :=
    (NonEmptyDeque.ofPush p.zombie (p.running.exit status)).append (p.ready.map (·.terminate))
  match p.interruptedThreads ++ killed p.sleepingThreads with
  | t :: ts => .inl ((⟨state, [], ⟨t, ts⟩, zombies.toList⟩ : InterruptedProcess).resume now)
  | [] =>
    let (state, pending) := state.takePendingExitStatus
    .inr ⟨zombies, state, pending.getD status⟩

/-- What becomes of a process when its running thread exits. -/
inductive AfterExit where
  | runnable (p : RunnableProcess)
  | sleeping (p : SleepingProcess)
  | zombie (p : ZombieProcess)

/-- A detached thread that leaves others behind is handed back, to be reaped after the switch. -/
def exitThread (p : RunningProcess) (status : ExitStatus) (now : Nat) :
    AfterExit × Option ZombieThread :=
  let dead := p.running.exit status
  let others := !p.ready.isEmpty || !p.interruptedThreads.isEmpty || !p.sleepingThreads.isEmpty
  let deferred := p.running.state.detached && others
  let zombies := if deferred then p.zombie else p.zombie ++ [dead]
  (match p.ready, p.interruptedThreads, p.sleepingThreads with
    | r :: rs, is, ss => .runnable ⟨p.state, ⟨r, rs⟩, is, ss, zombies⟩
    | [], i :: is, ss =>
      .runnable ((⟨p.state, ss, ⟨i, is⟩, zombies⟩ : InterruptedProcess).resume now)
    | [], [], s :: ss => .sleeping ⟨p.state, ⟨s, ss⟩, zombies⟩
    | [], [], [] =>
      let (state, pending) := p.state.takePendingExitStatus
      .zombie ⟨.ofPush p.zombie dead, state, pending.getD status⟩,
    if deferred then some dead else none)

def addThread (p : RunningProcess) (t : ReadyThread) : RunningProcess :=
  { p with ready := p.ready ++ [t] }

def wakeup (p : RunningProcess) (tid now : Nat) : Option RunningProcess :=
  (removeIf (·.state.id == tid) p.sleepingThreads).map fun (t, rest) =>
    { p with ready := p.ready ++ [t.wakeup now], sleepingThreads := rest }

def findThread (p : RunningProcess) (tid : Nat) : Bool :=
  p.running.state.id == tid || p.ready.any (·.state.id == tid) ||
    p.interruptedThreads.any (·.state.id == tid) || p.sleepingThreads.any (·.state.id == tid) ||
      p.zombie.any (·.state.id == tid)

/-- The states of the threads that are neither running nor dead, in the order of the search. -/
def liveStates (p : RunningProcess) : List ThreadState :=
  p.ready.map (·.state) ++ p.sleepingThreads.map (·.state) ++ p.interruptedThreads.map (·.state)

/-- How an attempt to join a thread ends. -/
inductive JoinAttempt where
  | joined (dead : ZombieThread) (p : RunningProcess)
  | wait
  | failed (e : Error)

/-- A zombie is handed over; a live thread has to be waited for. -/
def tryJoinThread (p : RunningProcess) (tid : Nat) : JoinAttempt :=
  if p.running.state.id = tid then .failed ⟨.operationNotPermitted, "thread is running"⟩
  else if p.zombie.any (fun t => t.state.id == tid && t.state.detached) then
    .failed ⟨.invalidArgument, "cannot join a detached thread"⟩
  else match removeIf (·.state.id == tid) p.zombie with
    | some (dead, rest) => .joined dead { p with zombie := rest }
    | none =>
      match p.liveStates.find? (·.id == tid) with
      | some t =>
        if t.detached then .failed ⟨.invalidArgument, "cannot join a detached thread"⟩
        else .wait
      | none => .failed ⟨.noSuchProcess, "thread not found"⟩

/-- The process with a thread marked as detached, in the first queue that has it. -/
def setDetached (p : RunningProcess) (tid : Nat) : RunningProcess :=
  if p.ready.any (·.state.id == tid) then
    { p with
      ready := updateFirst (·.state.id == tid) (·.setDetached) p.ready }
  else if p.sleepingThreads.any (·.state.id == tid) then
    { p with
      sleepingThreads := updateFirst (·.state.id == tid) (·.setDetached) p.sleepingThreads }
  else
    { p with
      interruptedThreads := updateFirst (·.state.id == tid) (·.setDetached) p.interruptedThreads }

/-- A thread that is dead already is handed back, to be reaped. -/
def detachThread (p : RunningProcess) (tid : Nat) :
    Except Error (RunningProcess × Option ZombieThread) :=
  if p.running.state.id = tid then
    if p.running.state.detached then .error ⟨.invalidArgument, "thread is already detached"⟩
    else .ok ({ p with running := ⟨p.running.state.setDetached⟩ }, none)
  else match removeIf (·.state.id == tid) p.zombie with
    | some (dead, rest) => .ok ({ p with zombie := rest }, some dead)
    | none =>
      match p.liveStates.find? (·.id == tid) with
      | some t =>
        if t.detached then .error ⟨.invalidArgument, "thread is already detached"⟩
        else .ok (p.setDetached tid, none)
      | none => .error ⟨.noSuchProcess, "thread not found"⟩

end RunningProcess
end Nanvix.Pm
