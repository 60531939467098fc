import Nanvix.Mm.Accounting
import Nanvix.Pm.Events

/-!
# The kernel as a machine

Every step of the machine is a kernel call of the running thread, or the rest of a
call that the running thread takes up again, or time that passes, or a step of the
memory manager. A thread that has left a call unfinished takes it up before it does
anything else.

## Implementation notes

The kernel's own thread creates processes and harvests dead ones; all other calls
are made by user processes. The channel is polled when a call ends, and by the
kernel's own thread.
-/
namespace Nanvix.Pm
open Config Library Library.Prog Mm

namespace KM

/-- The rest of a call, given why its sleep was interrupted. -/
def continueFrom (tid : Nat) (reason : Option InterruptReason) : Wait → KM Reply
  | .yield => return .done
  | .sleep =>
    match reason with
    | none => return .done
    | some .timedOut => return .done
    | some .killed => sleepError (.interrupted .killed)
  | .push r =>
    match reason with
    | none => return .pushed r
    | some why => do
        modify fun k => { k with pushes := k.pushes.filter fun e => e.pid != r.pid || e.tid != tid }
        sleepError (.interrupted why)
  | .pull r =>
    match reason with
    | none => do return .pulled r (← gets fun k => k.transferred r.call)
    | some why => do
        modify fun k => { k with pulls := k.pulls.filter fun e => e.pid != r.pid || e.tid != tid }
        sleepError (.interrupted why)
  | .join target =>
    match reason with
    | none => joinRound target
    | some why => do
        leaveQueue (.join target) tid
        sleepError (.interrupted why)
  | .lock addr m timeout =>
    match reason with
    | none => lockRound addr m timeout
    | some why => do
        leaveQueue (.mutex m) tid
        dropMutex m
        sleepError (.interrupted why)
  | .cond c condAddr mutexAddr =>
    match reason with
    | none => do
        dropCond c
        afterWait condAddr mutexAddr (.ok ())
    | some why => do
        leaveQueue (.user c) tid
        dropCond c
        afterWait condAddr mutexAddr (.error (.interrupted why))
  | .relock addr m result =>
    match reason with
    | none => relockRound addr m result
    | some why => do
        leaveQueue (.mutex m) tid
        dropMutex m
        sleepError (.interrupted why)
  | .recv i copy =>
    match reason with
    | none => recvRound i copy
    | some why => do
        leaveQueue .events tid
        let p ← sched PM.getRunning
        leaveWaiting p.state.pid tid
        sleepError (.interrupted why)
  | .exception event =>
    match reason with
    | none => return .done
    | some why => do
        leaveQueue (.exception event) tid
        match why with
        | .killed => exit (.error .interrupted)
        | .timedOut => exit (.error .operationTimedOut)
  | .bulk call =>
    match reason with
    | none => do return .value (← gets fun k => k.transferred call)
    | some why => do
        leaveQueue (.bulk call) tid
        modify fun k => { k with bulkPulls := mapErase tid k.bulkPulls }
        sleepError (.interrupted why)

/-- Only a thread that slept looks at the interrupt reason. -/
def resume : KM Reply := do
  let tid ← runningTid
  match (← gets Kernel.waits).lookup tid with
  | none => return .done
  | some .yield => do
      modify fun k => { k with waits := mapErase tid k.waits }
      return .done
  | some w => do
      modify fun k => { k with waits := mapErase tid k.waits }
      let reason ← sched PM.takeInterruptReason
      continueFrom tid reason w

end KM

/-- What can happen next: calls of the running thread, interrupts and time. -/
inductive KernelCmd where
  | createProcess (space : Nat) (memory : Except Error Unit)
  | harvestZombies
  | duplicateProcess (space : Nat) (checks memory : Except Error Unit)
  | createThread (memory : Except Error Unit)
  | sleep (duration : Nat)
  | push (dstPid dstTid buffer transferLen : Nat)
  | pull (srcPid srcTid buffer transferLen : Nat)
  | exit (status : ExitStatus)
  | exitThread (status : ExitStatus)
  | terminate (pid : Nat)
  | joinThread (tid : Nat)
  | detachThread (tid : Nat)
  | lockMutex (addr : Nat) (timeout : Option Nat)
  | unlockMutex (addr : Nat)
  | waitCond (condAddr mutexAddr : Nat) (alarm : Option Nat)
  | signalCond (condAddr : Nat) (broadcast : Bool)
  | send (m : Message)
  | recv (copy : Except Error Unit)
  | evctrl (ev : Event) (req : EventCtrlRequest)
  | capctl (c : Capability) (set : Bool)
  | exception (n : Fin 32) (info : ExceptionInformation)
  | resumeEvent (id : EventDescriptor)
  | interrupt (n : Fin 32)
  | poll (reads : List KM.IkcRead)
  | giveup
  | resume
  | tick (duration : Nat)
  | memory (c : CopyCmd)

namespace Kernel

/-- The running thread has left a call unfinished. -/
def midCall (k : Kernel) : Bool :=
  k.pm.running.any fun p => (k.waits.lookup p.running.state.id).isSome

/-- The kernel's own thread runs and is between calls. -/
def kernelRuns (k : Kernel) : Bool := k.pm.running.any (·.state.pid == kernelPid) && !k.midCall

/-- A user thread runs and is between calls. -/
def userRuns (k : Kernel) : Bool := k.pm.running.any (·.state.pid != kernelPid) && !k.midCall

/-- The kernel with its own process only, whose address space is `root`. -/
def boot (mem : MemState) (root : Nat) (interruptCapable : Bool) : Kernel where
  pm := .new root
  em := .init interruptCapable
  pushes := []
  pulls := []
  transferred := fun _ => 0
  nextCall := 0
  bulkPulls := []
  nextSerial := 0
  deliveries := []
  forwarded := []
  exits := []
  queue := fun _ => []
  locked := fun _ => false
  mutexRefs := fun _ => 0
  nextMutex := 0
  condRefs := fun _ => 0
  nextCond := 0
  waits := []
  mem := mem
  now := 0

end Kernel

namespace KernelCmd

/-- Calls are made by threads that are between calls. -/
def enabled (kernelFrames : List Nat) : KernelCmd → Kernel → Bool
  | createProcess space _, k => k.kernelRuns && (k.mem.spaces space).isSome
  | harvestZombies, k => k.kernelRuns
  | duplicateProcess space _ _, k => k.userRuns && (k.mem.spaces space).isSome
  | interrupt _, k => k.pm.running.isSome
  | poll _, k => k.pm.running.isSome && !k.midCall
  | giveup, k => k.pm.running.isSome && !k.midCall
  | resume, k => k.midCall
  | tick _, _ => true
  | memory c, k => (copyMachine kernelFrames).enabled c k.mem
  | _, k => k.userRuns

/-- The routine of each call. -/
def exec : KernelCmd → KM Reply
  | createProcess space mem => do
      let now ← gets Kernel.now
      return .value (← KM.sched (PM.createProcess space mem now))
  | harvestZombies => KM.harvestRound
  | duplicateProcess space checks mem => do
      let now ← gets Kernel.now
      return .value (← KM.sched (PM.duplicateProcess space checks mem now))
  | createThread mem => do
      let now ← gets Kernel.now
      return .value (← KM.sched (PM.createThread mem now))
  | sleep duration => do
      let now ← gets Kernel.now
      KM.sleepAs .sleep (some (now + duration))
      return .switched
  | push dstPid dstTid buffer transferLen => KM.push dstPid dstTid buffer transferLen
  | pull srcPid srcTid buffer transferLen => KM.pull srcPid srcTid buffer transferLen
  | exit status => KM.exit status
  | exitThread status => KM.exitThread status
  | terminate pid => KM.terminate pid
  | joinThread tid => KM.joinThread tid
  | detachThread tid => KM.detachThread tid
  | lockMutex addr timeout => KM.lockMutex addr timeout
  | unlockMutex addr => KM.unlockMutex addr
  | waitCond condAddr mutexAddr alarm => KM.waitCond condAddr mutexAddr alarm
  | signalCond condAddr broadcast => KM.signalCond condAddr broadcast
  | send m => KM.send m
  | recv copy => KM.recv copy
  | evctrl ev req => KM.evctrl ev req
  | capctl c set => KM.capctl c set
  | exception n info => KM.exception n info
  | resumeEvent id => KM.resumeEvent id
  | interrupt n => do
      let _ ← attempt (KM.wakeupInterrupt n)
      return .done
  | poll reads => do
      let _ ← KM.pollIkcMessages reads
      return .done
  | giveup => do
      KM.giveup
      return .switched
  | resume => KM.resume
  | tick duration => do
      modify fun k => { k with now := k.now + duration }
      return .done
  | memory c => do
      let _ ← KM.memory c.exec
      return .done

end KernelCmd

/-- The kernel, with the frames of its buffers. -/
def kernelMachine (kernelFrames : List Nat) : Machine Kernel Error KernelCmd Reply :=
  ⟨KernelCmd.enabled kernelFrames, KernelCmd.exec⟩

end Nanvix.Pm
