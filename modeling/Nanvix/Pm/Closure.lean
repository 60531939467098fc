import Nanvix.Library.Endings
import Nanvix.Pm.System
import Nanvix.Pm.TeardownSpec

/-!
# What every kernel call keeps

An invariant of the kernel is kept by every call if it is kept by a few routines: those
that move threads and processes, change the state of a process, or hand over a message.
All other steps change only queues, lists of requests, locks, memory and time.

## Implementation notes

A guard may restrict the calls that send a message or harvest a process. The kernel's own
thread harvests, and only other processes terminate one.
-/
namespace Nanvix.Pm
open Config Library Library.Prog Mm KM

/-- What an invariant of this kind may speak of. -/
def Kernel.essence (k : Kernel) : ProcessManager × (Event → Option Nat) × Bool × List Delivery ×
    List Letter × Nat × List (Nat × ExitStatus) :=
  (k.pm, k.em.owner, k.em.interruptCapable, k.deliveries, k.forwarded, k.nextSerial, k.exits)

theorem Kernel.pm_of_essence {k k' : Kernel} (h : k'.essence = k.essence) : k'.pm = k.pm :=
  congrArg (fun e => e.1) h

/-- Only the tables of a process and the guards of its running thread change. -/
def TablesOnly (f : RunningProcess → RunningProcess) : Prop :=
  ∀ p, f p = { p with
    state := { p.state with
      mutexes := (f p).state.mutexes, conditions := (f p).state.conditions },
    running := ⟨{ p.running.state with lockedMutexes := (f p).running.state.lockedMutexes }⟩ }

/-- A user process runs. -/
def ProcessManager.UserRuns (pm : ProcessManager) : Prop :=
  ∃ p, pm.running = some p ∧ p.state.pid ≠ kernelPid

/-- The kernel's own process runs. -/
def ProcessManager.KernelRuns (pm : ProcessManager) : Prop :=
  ∃ p, pm.running = some p ∧ p.state.pid = kernelPid

/-- The routines that an invariant has to be checked for. -/
structure Closed (guard : KernelCmd → Kernel → Prop) (I : Kernel → Prop) : Prop where
  idle : ∀ {k k' : Kernel}, k'.essence = k.essence → I k → I k'
  wakeup : ∀ tid, Keeps I (wakeup tid)
  takeInterruptReason : Keeps I (KM.sched PM.takeInterruptReason)
  createProcess : ∀ space mem now, Keeps I (KM.sched (PM.createProcess space mem now))
  duplicateProcess : ∀ space checks mem now,
    Keeps I (KM.sched (PM.duplicateProcess space checks mem now))
  createThread : ∀ mem now, Keeps I (KM.sched (PM.createThread mem now))
  reapDeferred : Keeps I reapDeferred
  sleepAs : ∀ w alarm, Keeps I (sleepAs w alarm)
  giveup : Keeps I giveup
  exit : ∀ status, Keeps I (KM.exit status)
  exitThread : ∀ status, Keeps I (KM.exitThread status)
  terminate : ∀ pid now k, I k → k.pm.UserRuns → ends (KM.sched (PM.terminateProcess pid now))
    (fun _ k' => I k') (fun _ k' => I k') (fun _ => True) k
  joinRound : ∀ tid, Keeps I (joinRound tid)
  detachThread : ∀ tid, Keeps I (KM.detachThread tid)
  harvest : ∀ k, I k → k.pm.KernelRuns → guard .harvestZombies k →
    ends harvestZombies (fun _ k' => I k') (fun _ k' => I k') (fun _ => True) k
  tables : ∀ f, TablesOnly f → Keeps I (modifyRunning f)
  evctrl : ∀ ev req, Keeps I (evctrl ev req)
  capctl : ∀ c set, Keeps I (capctl c set)
  send : ∀ m k, I k → guard (.send m) k →
    ends (send m) (fun _ k' => I k') (fun _ k' => I k') (fun _ => True) k
  channel : ∀ m k, I k → k.pm.numberBufferedMessages < maxIkcMessages →
    ends (postMessage m .channel) (fun _ k' => I k') (fun _ k' => I k') (fun _ => True) k
  recvRound : ∀ i copy, Keeps I (recvRound i copy)

variable {α : Type} {k : Kernel}

section Reads

variable {x : PM α} {A : String → Prop}

/-- A routine of the manager, run by the kernel. -/
@[simp] theorem ends_sched {Q : α → Kernel → Prop} {E : Error → Kernel → Prop} :
    ends (KM.sched x) Q E A k ↔ ends x (fun a pm => Q a { k with pm := pm })
      (fun e pm => E e { k with pm := pm }) A k.pm :=
  ends_focus (fun k : Kernel => some k.pm) _ rfl

/-- A routine of the manager that changes nothing, run by the kernel. -/
theorem keeps_read {I : Kernel → Prop}
    (hx : ∀ J : ProcessManager → Prop, KeepsIn A J x) : KeepsIn A I (KM.sched x) := by
  intro k hk
  exact ends_sched.mpr (hx (fun pm => I { k with pm := pm }) k.pm hk)

theorem keeps_running {I : Kernel → Prop} : Keeps I (KM.sched PM.getRunning) :=
  keeps_read fun _ => keeps_getRunning

theorem keeps_sched {I : ProcessManager → Prop}
    (h : KeepsIn A I x) : KeepsIn A (fun k : Kernel => I k.pm) (KM.sched x) := by
  intro k hk
  exact ends_sched.mpr (h k.pm hk)

end Reads

section Runner

theorem ProcessManager.UserRuns.of_runner {pm pm' : ProcessManager} (h : pm.UserRuns)
    (hsame : pm'.runner = pm.runner) : pm'.UserRuns := by
  obtain ⟨p, hp, hpid⟩ := h
  obtain ⟨q, hq, hstate, -⟩ := ProcessManager.exists_running hsame hp
  exact ⟨q, hq, hstate ▸ hpid⟩

theorem keeps_userRuns_doWakeup (tid now : Nat) :
    Keeps ProcessManager.UserRuns (PM.doWakeup tid now) := by
  intro pm h
  obtain ⟨p, hp, -⟩ := id h
  refine (doWakeup_spec hp tid).stays (fun _ => h) ?_
  rintro _ pm' ⟨-, hsame⟩
  exact h.of_runner hsame.runner

theorem keeps_userRuns_wakeup (tid : Nat) : Keeps (fun k : Kernel => k.pm.UserRuns) (wakeup tid) :=
  .gets fun _ => keeps_sched (keeps_userRuns_doWakeup _ _)

end Runner

section Notify
variable {A : String → Prop} {I : Kernel → Prop}
  (hwake : ∀ tid, KeepsIn A I (wakeup tid)) (hqueue : ∀ c q, KeepsIn A I (setQueue c q))
include hwake hqueue

theorem keeps_notifyFirst (c : CondId) : KeepsIn A I (notifyFirst c) := by
  refine .gets fun q => ?_
  cases q with
  | nil => exact keeps_pure _
  | cons t rest => exact (hqueue c rest).bind fun _ => (hwake t).ret

theorem keeps_notifyThread (c : CondId) (tid : Nat) : KeepsIn A I (notifyThread c tid) :=
  .gets fun _ => .ite ((hqueue c _).bind fun _ => hwake tid) (keeps_pure _)

theorem keeps_wakeAll (c : CondId) (q : List Nat) (n : Nat) (e : Option Error) :
    KeepsIn A I (wakeAll c q n e) := by
  induction q generalizing n e with
  | nil => exact keeps_pure _
  | cons t rest ih =>
    refine (hqueue c rest).bind fun _ => (hwake t).attempt.bind fun r => ?_
    cases r with
    | ok _ | error _ => exact ih _ _

theorem keeps_notifyAll (c : CondId) : KeepsIn A I (notifyAll c) := by
  refine .gets fun q => (keeps_wakeAll hwake hqueue c q 0 none).bind fun r => ?_
  obtain ⟨n, e⟩ := r
  cases e with
  | none => exact keeps_pure _
  | some e => exact .ite (keeps_throw _) (keeps_pure _)

theorem keeps_notifyWaiting (l : List (Nat × Nat)) (e : Option Error) :
    KeepsIn A I (notifyWaiting l e) := by
  induction l generalizing e with
  | nil => exact keeps_pure _
  | cons t rest ih =>
    refine (keeps_notifyThread hwake hqueue _ _).attempt.bind fun r => ?_
    cases r with
    | ok _ | error _ => exact ih _

theorem keeps_notifyAllProcessThreads (pid : Nat) : KeepsIn A I (notifyAllProcessThreads pid) := by
  refine .gets fun l => (keeps_notifyWaiting hwake hqueue _ _).bind fun e => ?_
  cases e with
  | none => exact keeps_pure _
  | some e => exact keeps_throw _

end Notify

section Reaping
variable {A : String → Prop} {I : Kernel → Prop} (hwake : ∀ tid, KeepsIn A I (wakeup tid))
  (hlocks : ∀ k queue locked refs, I k →
    I { k with queue := queue, locked := locked, mutexRefs := refs })
include hwake hlocks

omit hwake in
theorem keeps_queues (c : CondId) (q : List Nat) : KeepsIn A I (setQueue c q) :=
  keeps_modify fun k hk => hlocks k _ k.locked k.mutexRefs hk

theorem keeps_dropThreadState (t : ThreadState) : KeepsIn A I (dropThreadState t) := by
  apply KeepsIn.forEach
  intro e _
  refine .bind (keeps_modify ?_) fun _ =>
    (keeps_notifyFirst hwake (keeps_queues hlocks) _).attempt.bind fun _ => keeps_modify ?_
  · exact fun k hk => hlocks k k.queue _ k.mutexRefs hk
  · exact fun k hk => hlocks k k.queue k.locked _ hk

variable (hread : ∀ pid, KeepsIn A I (KM.sched (PM.findProcess pid)))
  (hreap : ∀ tid, KeepsIn A I (KM.sched (PM.onThreadReaped tid)))
include hread hreap

theorem keeps_harvestZombieThread (pid : Nat) (dead : ZombieThread) :
    KeepsIn A I (harvestZombieThread pid dead) := by
  refine (keeps_dropThreadState hwake hlocks _).bind fun _ => .ite ?_ (hreap _)
  refine (hread _).attempt.bind fun r => ?_
  cases r with
  | error e => exact keeps_pure _
  | ok p => exact hreap _

theorem keeps_reapDeferred
    (htake : ∀ k, I k → I { k with pm := { k.pm with deferredReap := [] } }) :
    KeepsIn A I reapDeferred := by
  refine .gets fun deferred => .bind ?_ fun _ =>
    .forEach fun e _ => keeps_harvestZombieThread hwake hlocks hread hreap _ _
  intro k hk
  exact ends_sched.mpr ((ends_modify _).mpr (htake k hk))

end Reaping

section Waiting
variable {I : Kernel → Prop}

theorem keeps_condWait (hidle : ∀ {k k' : Kernel}, k'.essence = k.essence → I k → I k')
    (hsleep : ∀ w alarm, Keeps I (sleepAs w alarm)) (c : CondId) (alarm : Option Nat) (w : Wait) :
    Keeps I (condWait c alarm w) := by
  refine keeps_running.bind fun p => .gets fun now => ?_
  refine .ite (keeps_abort _) (.ite (keeps_throw _) (.bind (keeps_modify ?_) fun _ => hsleep w alarm))
  intro k hk
  exact hidle (by exact (rfl : k.essence = k.essence)) hk

end Waiting

namespace Closed
variable {guard : KernelCmd → Kernel → Prop} {I : Kernel → Prop} (h : Closed guard I)
include h

section Basic

theorem modify {f : Kernel → Kernel} (hf : ∀ k, (f k).essence = k.essence) :
    Keeps I (Prog.modify f : KM Unit) :=
  keeps_modify fun k hk => h.idle (hf k) hk

theorem memory (x : MM α) : Keeps I (memory x) := by
  intro k hk
  refine (ends_focus (fun k : Kernel => some k.mem) _ rfl).mpr ?_
  have hsame : ∀ mem, I { k with mem := mem } := fun _ =>
    h.idle (by exact (rfl : k.essence = k.essence)) hk
  exact (ends_true x k.mem).weaken (fun _ mem _ => hsame mem) (fun _ mem _ => hsame mem)

theorem setQueue (c : CondId) (q : List Nat) : Keeps I (setQueue c q) := (h.modify (by exact fun _ => rfl))

theorem leaveQueue (c : CondId) (tid : Nat) : Keeps I (leaveQueue c tid) := (h.modify (by exact fun _ => rfl))

theorem notifyFirst (c : CondId) : Keeps I (notifyFirst c) :=
  keeps_notifyFirst h.wakeup h.setQueue c

theorem notifyThread (c : CondId) (tid : Nat) : Keeps I (notifyThread c tid) :=
  keeps_notifyThread h.wakeup h.setQueue c tid

theorem notifyAll (c : CondId) : Keeps I (notifyAll c) :=
  keeps_notifyAll h.wakeup h.setQueue c

theorem notifyAllProcessThreads (pid : Nat) : Keeps I (notifyAllProcessThreads pid) :=
  keeps_notifyAllProcessThreads h.wakeup h.setQueue pid

theorem dropGuard (m : Nat) : Keeps I (dropGuard m) :=
  (h.modify (by exact fun _ => rfl)).bind fun _ => (h.notifyFirst _).attempt.bind fun _ =>
    (h.modify (by exact fun _ => rfl))

theorem condWait (c : CondId) (alarm : Option Nat) (w : Wait) : Keeps I (condWait c alarm w) :=
  keeps_condWait h.idle h.sleepAs c alarm w

theorem sleepError (e : SleepError) : Keeps I (sleepError e) := by
  cases e with
  | generic e => exact keeps_throw _
  | interrupted r =>
    cases r with
    | killed => exact h.exit _
    | timedOut => exact keeps_throw _

end Basic

section Rendezvous

theorem cleanupProcess (pid : Nat) : Keeps I (cleanupProcess pid) :=
  .gets fun _ => (h.modify (by exact fun _ => rfl)).ret

theorem cleanupRendezvous (pid : Nat) : Keeps I (KM.cleanupRendezvous pid) :=
  (h.cleanupProcess pid).bind fun _ => .forEach fun _ _ => (h.wakeup _).attempt.ret

theorem transfer (push : PendingPush) (pull : PendingPull) : Keeps I (KM.transfer push pull) := by
  unfold KM.transfer
  refine .ite (keeps_pure _) ?_
  refine (keeps_read fun _ => keeps_findProcess _).bind fun dst => ?_
  refine (keeps_read fun _ => keeps_findProcess _).attempt.bind fun src => ?_
  cases src with
  | error e => exact (h.memory _).bind fun _ => keeps_throw _
  | ok src => exact h.memory _

theorem newRequest : Keeps I newRequest :=
  keeps_running.bind fun _ => .gets fun _ =>
    (h.modify (by exact fun _ => rfl)).ret

theorem complete (push : PendingPush) (pull : PendingPull) (sleeper : Nat) {store : KM Unit}
    (hstore : Keeps I store) : Keeps I (complete push pull sleeper store) := by
  refine (h.transfer push pull).attempt.bind fun r => ?_
  cases r with
  | error e => exact (h.wakeup _).attempt.bind fun _ => keeps_throw _
  | ok _ => exact hstore.bind fun _ => h.wakeup _

theorem doPush (dstPid dstTid buffer len : Nat) : Keeps I (doPush dstPid dstTid buffer len) := by
  refine h.newRequest.bind fun r => .ite (keeps_throw _) (.gets fun pulls => ?_)
  split
  · exact (h.modify (by exact fun _ => rfl)).bind fun _ =>
      (h.complete _ _ _ (h.modify (by exact fun _ => rfl))).ret
  · exact (h.modify (by exact fun _ => rfl)).bind fun _ => (h.sleepAs _ _).ret

theorem doPull (srcPid srcTid buffer len : Nat) : Keeps I (doPull srcPid srcTid buffer len) := by
  refine h.newRequest.bind fun r => .ite (keeps_throw _) (.gets fun pushes => ?_)
  split
  · exact (h.modify (by exact fun _ => rfl)).bind fun _ =>
      (h.complete _ _ _ (keeps_pure _)).ret
  · exact (h.modify (by exact fun _ => rfl)).bind fun _ => (h.sleepAs _ _).ret

end Rendezvous

section Locks

theorem getMutex (addr : Nat) : Keeps I (getMutex addr) := by
  refine keeps_running.bind fun p => ?_
  split
  · exact (h.modify (by exact fun _ => rfl)).ret
  · exact .ite (keeps_throw _) (.gets fun m => (h.modify (by exact fun _ => rfl)).bind fun _ =>
      (h.tables _ (by exact fun _ => rfl)).ret)

theorem putMutex (addr : Nat) : Keeps I (putMutex addr) := by
  refine keeps_running.bind fun p => ?_
  split
  · exact keeps_throw _
  · exact .gets fun _ => .ite
      ((h.tables _ (by exact fun _ => rfl)).bind fun _ => (h.modify (by exact fun _ => rfl))) (keeps_pure _)

theorem tryLock (m : Nat) : Keeps I (tryLock m) :=
  .gets fun _ => .ite (keeps_pure _)
    ((h.modify (by exact fun _ => rfl)).bind fun _ => (h.modify (by exact fun _ => rfl)).ret)

theorem storeMutexGuard (addr m : Nat) : Keeps I (storeMutexGuard addr m) :=
  keeps_running.bind fun _ => (h.tables _ (by exact fun _ => rfl)).bind fun _ =>
    .forEach fun _ _ => h.dropGuard _

theorem takeMutexGuard (addr : Nat) : Keeps I (takeMutexGuard addr) := by
  refine keeps_running.bind fun p => ?_
  split
  · exact keeps_throw _
  · refine (h.tables _ (by exact fun _ => rfl)).bind fun _ => (h.putMutex addr).attempt.bind fun r => ?_
    cases r with
    | ok _ => exact keeps_pure _
    | error e => exact (h.dropGuard _).bind fun _ => keeps_throw _

theorem dropMutex (m : Nat) : Keeps I (dropMutex m) := (h.modify (by exact fun _ => rfl))

theorem dropCond (c : Nat) : Keeps I (dropCond c) := (h.modify (by exact fun _ => rfl))

theorem unlockMutex (addr : Nat) : Keeps I (unlockMutex addr) :=
  (h.takeMutexGuard addr).bind fun _ => (h.dropGuard _).ret

theorem lockRound (addr m : Nat) (timeout : Option Nat) : Keeps I (lockRound addr m timeout) := by
  refine (h.tryLock m).bind fun _ => .ite
    ((h.storeMutexGuard addr m).bind fun _ => (h.dropMutex m).ret) ?_
  refine (h.condWait _ _ _).attempt.bind fun r => ?_
  cases r with
  | ok _ => exact keeps_pure _
  | error e => exact (h.dropMutex m).bind fun _ => keeps_throw _

theorem lockMutex (addr : Nat) (timeout : Option Nat) : Keeps I (lockMutex addr timeout) :=
  (h.getMutex addr).bind fun _ => h.lockRound _ _ _

theorem getCond (addr : Nat) : Keeps I (getCond addr) := by
  refine keeps_running.bind fun p => ?_
  split
  · exact (h.modify (by exact fun _ => rfl)).ret
  · exact .ite (keeps_throw _) (.gets fun m => (h.modify (by exact fun _ => rfl)).bind fun _ =>
      (h.tables _ (by exact fun _ => rfl)).ret)

theorem putCond (addr : Nat) : Keeps I (putCond addr) := by
  refine keeps_running.bind fun p => ?_
  split
  · exact keeps_throw _
  · exact .gets fun _ => .ite
      ((h.tables _ (by exact fun _ => rfl)).bind fun _ => h.dropCond _) (keeps_pure _)

theorem finish (result : Except SleepError Unit) : Keeps I (finish result) := by
  cases result with
  | ok _ => exact keeps_pure _
  | error e => exact h.sleepError e

theorem relockRound (addr m : Nat) (result : Except SleepError Unit) :
    Keeps I (relockRound addr m result) :=
  (h.tryLock m).bind fun _ => .ite
    ((h.storeMutexGuard addr m).bind fun _ => (h.dropMutex m).bind fun _ => h.finish result)
    ((h.condWait _ _ _).ret)

theorem afterWait (condAddr mutexAddr : Nat) (result : Except SleepError Unit) :
    Keeps I (afterWait condAddr mutexAddr result) :=
  (h.putCond _).bind fun _ => (h.getMutex _).bind fun _ => h.relockRound _ _ _

theorem waitCond (condAddr mutexAddr : Nat) (alarm : Option Nat) :
    Keeps I (waitCond condAddr mutexAddr alarm) := by
  refine (h.takeMutexGuard _).bind fun m => (h.dropGuard m).bind fun _ =>
    (h.getCond _).attempt.bind fun c => ?_
  cases c with
  | error e => exact h.afterWait _ _ _
  | ok c =>
    refine (h.condWait _ _ _).attempt.bind fun r => ?_
    cases r with
    | ok _ => exact keeps_pure _
    | error e => exact (h.dropCond c).bind fun _ => h.afterWait _ _ _

theorem signalCond (condAddr : Nat) (broadcast : Bool) :
    Keeps I (signalCond condAddr broadcast) := by
  refine (h.getCond _).bind fun c =>
    (KeepsIn.ite (h.notifyAll _) (h.notifyFirst _)).attempt.bind fun r => ?_
  cases r with
  | error e => exact (h.dropCond c).bind fun _ => keeps_throw _
  | ok n => exact (h.dropCond c).bind fun _ => (h.putCond _).ret

end Locks

section Events

theorem wakeupInterrupt (n : Fin 32) : Keeps I (KM.wakeupInterrupt n) := by
  intro k hk
  unfold KM.wakeupInterrupt
  simp only [ends_bind, ends_gets, ends_ite, ends_modify]
  split
  · exact (ends_throw _).mpr hk
  · have hk' : I { k with em := { k.em.count with
        pendingInterrupts := Function.update k.em.count.pendingInterrupts n
          (k.em.count.pendingInterrupts n ++ [.new k.em.count.nevents (.interrupt n)]) } } :=
      h.idle (by exact (rfl : k.essence = k.essence)) hk
    split
    · exact h.notifyAllProcessThreads _ _ hk'
    · exact (ends_throw _).mpr hk'

/-- A change that depends on what was read before. -/
theorem gets_modify {α β : Type} {g : Kernel → α} {f : α → Kernel → Kernel} {x : α → KM β}
    (hf : ∀ k, (f (g k) k).essence = k.essence) (hx : ∀ a, Keeps I (x a)) :
    Keeps I (gets g >>= fun a => Prog.modify (f a) >>= fun _ => x a) := by
  intro k hk
  simp only [ends_bind, ends_gets, ends_modify]
  exact hx _ _ (h.idle (hf k) hk)

theorem wakeupException (n : Fin 32) (pid tid : Nat) (info : ExceptionInformation) :
    Keeps I (KM.wakeupException n pid tid info) := by
  refine h.gets_modify (by exact fun _ => rfl) fun em => ?_
  split
  · exact (h.notifyAllProcessThreads _).ret
  · exact keeps_throw _

theorem notifyProcessTermination (dead : Nat) (status : ExitStatus) :
    Keeps I (KM.notifyProcessTermination dead status) := by
  refine h.gets_modify (by exact fun _ => rfl) fun em => ?_
  split
  · exact h.notifyAllProcessThreads _
  · exact keeps_throw _

theorem recv (copy : Except Error Unit) : Keeps I (recv copy) :=
  keeps_running.bind fun _ => .gets fun _ =>
    (h.modify (by exact fun _ => rfl)).bind fun _ => h.recvRound _ _

theorem exception (n : Fin 32) (info : ExceptionInformation) : Keeps I (exception n info) := by
  refine keeps_running.bind fun p =>
    (h.wakeupException _ _ _ _).attempt.bind fun r => ?_
  cases r with
  | ok event => exact (h.condWait _ _ _).ret
  | error e => exact h.exit _

theorem resumeEvent (id : EventDescriptor) : Keeps I (KM.resumeEvent id) := by
  unfold KM.resumeEvent
  split
  · refine .gets fun em => .ite (keeps_abort _) ?_
    split
    · exact (h.modify (by exact fun _ => rfl)).bind fun _ => (h.notifyThread _ _).attempt.ret
    · exact keeps_pure _
  · exact keeps_pure _

theorem bulkRequest (reason : String) (buffer len : Nat) : Keeps I (bulkRequest reason buffer len) :=
  keeps_running.bind fun _ => .ite (keeps_throw _)
    ((h.memory _).ret)

theorem push (dstPid dstTid buffer len : Nat) : Keeps I (KM.push dstPid dstTid buffer len) :=
  .ite ((h.bulkRequest _ _ _).ret) (h.doPush _ _ _ _)

theorem pull (srcPid srcTid buffer len : Nat) : Keeps I (KM.pull srcPid srcTid buffer len) :=
  .ite ((h.bulkRequest _ _ _).bind fun _ => h.newRequest.bind fun _ =>
    (h.modify (by exact fun _ => rfl)).bind fun _ => (h.condWait _ _ _).ret)
    (h.doPull _ _ _ _)

theorem completeBulkPull (tid bytes : Nat) : Keeps I (completeBulkPull tid bytes) := by
  refine .gets fun pulls => ?_
  split
  · exact keeps_pure _
  · exact (h.modify (by exact fun _ => rfl)).bind fun _ => (h.notifyThread _ _).attempt.ret

theorem pollLoop (n : Nat) (reads : List IkcRead) (received : Bool) :
    Keeps I (KM.pollLoop n reads received) := by
  induction n generalizing reads received with
  | zero => exact keeps_pure _
  | succ n ih =>
    cases reads with
    | nil => exact keeps_pure _
    | cons r reads =>
      intro k hk
      unfold KM.pollLoop
      simp only [ends_bind, ends_gets, ends_ite]
      split
      · exact (ends_pure _).mpr hk
      next hroom =>
        cases r with
        | completion tid bytes =>
          exact ((h.completeBulkPull tid bytes).ret) k hk
        | failed e => exact ih reads received k hk
        | message m =>
          simp only [ends_bind, ends_attempt]
          exact (h.channel m k hk (Nat.not_le.mp hroom)).weaken (fun _ _ hk' => ih reads true _ hk') (fun _ _ hk' => ih reads true _ hk')

end Events

section Commands

/-- Whatever a thread waited for, going on keeps the invariant. -/
theorem continueFrom (tid : Nat) (reason : Option InterruptReason) (w : Wait) :
    Keeps I (continueFrom tid reason w) := by
  cases reason with
  | none =>
    cases w with
    | yield | sleep | push r | exception event => exact keeps_pure _
    | pull r | bulk call => exact (keeps_gets _).ret
    | join target => exact h.joinRound _
    | lock addr m timeout => exact h.lockRound _ _ _
    | cond c condAddr mutexAddr => exact (h.dropCond _).bind fun _ => h.afterWait _ _ _
    | relock addr m result => exact h.relockRound _ _ _
    | recv i copy => exact h.recvRound _ _
  | some why =>
    cases w with
    | yield => exact keeps_pure _
    | sleep =>
      cases why with
      | killed => exact h.sleepError (.interrupted .killed)
      | timedOut => exact keeps_pure _
    | push r | pull r =>
      exact (h.modify (by exact fun _ => rfl)).bind fun _ => h.sleepError _
    | join target => exact (h.leaveQueue _ _).bind fun _ => h.sleepError _
    | lock addr m timeout | relock addr m result =>
      exact (h.leaveQueue _ _).bind fun _ => (h.dropMutex _).bind fun _ => h.sleepError _
    | cond c condAddr mutexAddr =>
      exact (h.leaveQueue _ _).bind fun _ => (h.dropCond _).bind fun _ => h.afterWait _ _ _
    | recv i copy =>
      exact (h.leaveQueue _ _).bind fun _ => keeps_running.bind fun _ =>
        (h.modify (by exact fun _ => rfl)).bind fun _ => h.sleepError _
    | exception event =>
      refine (h.leaveQueue _ _).bind fun _ => ?_
      cases why with
      | killed | timedOut => exact h.exit _
    | bulk call =>
      exact (h.leaveQueue _ _).bind fun _ => (h.modify (by exact fun _ => rfl)).bind fun _ =>
        h.sleepError _

theorem resume : Keeps I resume := by
  refine (keeps_running.ret).bind fun tid =>
    .gets fun waits => ?_
  split
  · exact keeps_pure _
  · exact (h.modify (by exact fun _ => rfl)).ret
  · exact (h.modify (by exact fun _ => rfl)).bind fun _ => h.takeInterruptReason.bind fun _ =>
      h.continueFrom _ _ _

/-- A process that is terminated while another user process runs. -/
theorem terminateCall (pid : Nat) (hk : I k) (huser : k.pm.UserRuns) :
    ends (KM.terminate pid) (fun _ k' => I k') (fun _ k' => I k') (fun _ => True) k := by
  have hcheck : Keeps (fun k => I k ∧ k.pm.UserRuns) (KM.sched (PM.checkTerminate pid)) :=
    keeps_read fun _ => keeps_checkTerminate pid
  have hclean : Keeps (fun k => I k ∧ k.pm.UserRuns) (KM.cleanupRendezvous pid) := by
    refine (h.cleanupRendezvous pid).and ?_
    exact (KeepsIn.gets fun _ => (keeps_modify (by exact fun _ hu => hu)).ret).bind fun _ => .forEach fun _ _ =>
        (keeps_userRuns_wakeup _).attempt.ret
  unfold KM.terminate
  simp only [ends_bind, ends_gets, ends_pure]
  refine (hcheck k ⟨hk, huser⟩).weaken (fun _ k₁ h₁ => ?_) (fun _ _ he => he.1)
  refine (hclean k₁ h₁).weaken (fun _ k₂ h₂ => ?_) (fun _ _ he => he.1)
  exact h.terminate pid _ k₂ h₂.1 h₂.2

/-- The round of the kernel's own thread that harvests a process. -/
theorem harvestCall (hk : I k) (hkernel : k.pm.KernelRuns) (hg : guard .harvestZombies k) :
    ends harvestRound (fun _ k' => I k') (fun _ k' => I k') (fun _ => True) k := by
  unfold harvestRound
  simp only [ends_bind]
  refine (h.harvest k hk hkernel hg).imp fun r k' hk' => ?_
  cases r with
  | none => exact (ends_pure _).mpr hk'
  | some r =>
    exact (KeepsIn.ite (keeps_pure _) ((h.notifyProcessTermination _ _).attempt.ret)) k' hk'

/-- An invariant that the listed routines keep is kept by every call. -/
theorem exec {kernelFrames : List Nat} (c : KernelCmd) (hk : I k)
    (henabled : c.enabled kernelFrames k = true) (hg : guard c k) :
    ends c.exec (fun _ k' => I k') (fun _ k' => I k') (fun _ => True) k := by
  have huser : k.userRuns = true → k.pm.UserRuns := by
    intro hu
    obtain ⟨p, hp, hpid⟩ := Option.any_eq_true _ _ |>.mp (Bool.and_eq_true_iff.mp hu).1
    exact ⟨p, hp, by simpa using hpid⟩
  cases c with
  | createProcess space mem =>
    exact (KeepsIn.gets fun _ => (h.createProcess _ _ _).ret) k hk
  | harvestZombies =>
    obtain ⟨p, hp, hpid⟩ := Option.any_eq_true _ _ |>.mp (Bool.and_eq_true_iff.mp henabled).1
    exact h.harvestCall hk ⟨p, hp, by simpa using hpid⟩ hg
  | duplicateProcess space checks mem =>
    exact (KeepsIn.gets fun _ => (h.duplicateProcess _ _ _ _).ret) k hk
  | createThread mem =>
    exact (KeepsIn.gets fun _ => (h.createThread _ _).ret) k hk
  | sleep duration =>
    exact (KeepsIn.gets fun _ => (h.sleepAs _ _).ret) k hk
  | push dstPid dstTid buffer len => exact h.push _ _ _ _ k hk
  | pull srcPid srcTid buffer len => exact h.pull _ _ _ _ k hk
  | exit status => exact h.exit _ k hk
  | exitThread status => exact h.exitThread _ k hk
  | terminate pid => exact h.terminateCall pid hk (huser henabled)
  | joinThread tid => exact (h.reapDeferred.bind fun _ => h.joinRound _) k hk
  | detachThread tid => exact h.detachThread _ k hk
  | lockMutex addr timeout => exact h.lockMutex _ _ k hk
  | unlockMutex addr => exact h.unlockMutex _ k hk
  | waitCond condAddr mutexAddr alarm => exact h.waitCond _ _ _ k hk
  | signalCond condAddr broadcast => exact h.signalCond _ _ k hk
  | send m => exact h.send m k hk hg
  | recv copy => exact h.recv copy k hk
  | evctrl ev req => exact h.evctrl ev req k hk
  | capctl c set => exact h.capctl c set k hk
  | exception n info => exact h.exception n info k hk
  | resumeEvent id => exact h.resumeEvent id k hk
  | interrupt n => exact ((h.wakeupInterrupt n).attempt.ret) k hk
  | poll reads => exact ((h.pollLoop _ reads false).ret) k hk
  | giveup => exact (h.giveup.ret) k hk
  | resume => exact h.resume k hk
  | tick duration =>
    exact ((h.modify (by exact fun _ => rfl)).ret) k hk
  | memory c => exact ((h.memory _).ret) k hk

/-- The invariant holds in every state that a run of the kernel reaches. -/
theorem reach {kernelFrames : List Nat} {k₀ k : Kernel} (h₀ : I k₀)
    (hreach : (kernelMachine kernelFrames).Reach guard k₀ k) : I k :=
  hreach.invariant_of_ends h₀ fun c _ hk henabled hg => h.exec c hk henabled hg

end Commands

end Closed
end Nanvix.Pm
