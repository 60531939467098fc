import Nanvix.Pm.Closure
import Nanvix.Pm.EditSpec

/-!
# Conservation of threads and processes

Every thread identifier handed out belongs to one thread of the roster or to one
thread that was reaped, never to two; the counters of the managers say how many
threads and processes there are. The routines keep this with the threads that they
have taken out of the roster and not yet reaped in hand.

## Implementation notes

A thread that waits for its deferred reaping is reaped at the next switch. Its
process is then still there: it was alive when the thread left it, only the kernel's
thread buries processes, and it runs only after a switch.
-/
namespace Nanvix.Pm
open Library Library.Prog KM ProcessManager

variable {q : RunningProcess} {k : Kernel} {dead : ZombieThread} {z : ZombieProcess}
variable {zs : List ZombieProcess}

namespace ProcessManager

/-- The identifiers of all processes. -/
def pids (pm : ProcessManager) : Multiset Nat := pm.standings.map fun s => s.1.pid

/-- The identifiers of all threads that are not reaped. -/
def tids (pm : ProcessManager) : Multiset Nat := pm.rows.map Row.tid

def runningPid (pm : ProcessManager) : Option Nat := pm.running.map (·.state.pid)

def zombiePids (pm : ProcessManager) : List Nat := pm.zombies.map (·.process.pid)

/-- A thread that waits for its reaping is one of a process that is not buried before. -/
def DeferredAlive (pm : ProcessManager) : Prop :=
  ∀ e ∈ pm.deferredReap, e.1 ∈ pm.pids ∧ (pm.runningPid = some kernelPid → e.1 ∉ pm.zombiePids)

end ProcessManager

/-- Nothing is lost or counted twice, with the threads `loose` in hand. -/
structure Conserved (loose : List Nat) (pm : ProcessManager) : Prop where
  running : pm.running.isSome
  threads : pm.tids + (loose : Multiset Nat) + (pm.tm.reaped : Multiset Nat) =
    Multiset.range pm.tm.nextId
  threadCount : pm.tm.liveCount = pm.tids.card + loose.length
  pids : pm.pids.Nodup
  pidBound : ∀ n ∈ pm.pids, n < pm.nextPid
  processCount : pm.liveCount = pm.pids.card
  awake : ∀ l ∈ pm.interrupted.map (·.sleepingThreads), l = []
  deferred : pm.DeferredAlive

/-- Conservation between the routines of a kernel call. -/
abbrev Balanced (k : Kernel) : Prop := Conserved [] k.pm

variable {loose : List Nat} {now tid pid : Nat} {ok : Kind → Row → Prop}
variable {pm pm' : ProcessManager} {p : RunningProcess}

/-- All that conservation is about is the same. -/
structure SameCensus (pm pm' : ProcessManager) : Prop where
  tids : pm'.tids = pm.tids
  pids : pm'.pids = pm.pids
  runningPid : pm'.runningPid = pm.runningPid
  sleepers : pm'.interrupted.map (·.sleepingThreads) = pm.interrupted.map (·.sleepingThreads)
  zombiePids : pm'.zombiePids = pm.zombiePids
  tm : pm'.tm = pm.tm
  nextPid : pm'.nextPid = pm.nextPid
  liveCount : pm'.liveCount = pm.liveCount
  deferredReap : pm'.deferredReap = pm.deferredReap

section Census

theorem Moved.tids (h : Moved now ok pm pm') : pm'.tids = pm.tids :=
  (h.rows.map_eq fun _ _ hstep => congrArg (fun c => c.2.1) hstep.core_eq).symm

theorem Moved.pids (h : Moved now ok pm pm') : pm'.pids = pm.pids :=
  (h.standings.map_eq fun _ _ hbury => ProcessState.pid_eq_of_book hbury.book_eq).symm

namespace SameCensus

theorem of_undisturbed (hm : Moved now ok pm pm') (h : Undisturbed pm pm') : SameCensus pm pm' := by
  have hrunning := congrArg (Option.map fun r : ProcessState × RunningThread => r.1.pid) h.runner
  unfold runner at hrunning
  rw [Option.map_map, Option.map_map] at hrunning
  exact ⟨hm.tids, hm.pids, hrunning, by rw [h.interrupted],
    congrArg (List.map fun z : ZombieProcess => z.process.pid) h.zombies, hm.tm, hm.nextPid,
    hm.liveCount, h.deferredReap⟩

theorem of_edited {s s' : Standing} (h : Edited s s' pm pm') (hpid : s'.1.pid = s.1.pid) :
    SameCensus pm pm' := by
  obtain ⟨rest, hbefore, hafter⟩ := h.standings
  refine ⟨congrArg (Multiset.map Row.tid) h.rows, ?_, h.runningPid, h.sleepers, h.zombiePids, h.tm,
    h.nextPid, h.liveCount, h.deferredReap⟩
  unfold ProcessManager.pids
  rw [hbefore, hafter, Multiset.map_cons, Multiset.map_cons, hpid]

/-- The running process changes and keeps its identifier and the identifiers of its threads. -/
theorem of_running (hp : pm.running = some p) {reason : Option InterruptReason}
    (hrows : (q.rows reason).map Row.tid = (p.rows pm.interruptReason).map Row.tid)
    (hpid : q.state.pid = p.state.pid) :
    SameCensus pm { pm with running := some q, interruptReason := reason } := by
  refine ⟨?_, ?_, ?_, rfl, rfl, rfl, rfl, rfl, rfl⟩
  · simp only [ProcessManager.tids, ProcessManager.rows, hp, Option.elim_some, Multiset.map_add,
      hrows]
  · simp only [ProcessManager.pids, ProcessManager.standings, hp, Option.elim_some,
      Multiset.map_add, Multiset.map_singleton, RunningProcess.standing, hpid]
  · simp only [ProcessManager.runningPid, hp, Option.map_some, hpid]

end SameCensus

namespace Conserved

section
variable (h : Conserved loose pm)
include h

/-- Threads may come or go as long as the counters follow them; the processes are the same. -/
theorem of_threads {loose' : List Nat}
    (hthreads : pm'.tids + (loose' : Multiset Nat) + (pm'.tm.reaped : Multiset Nat) =
      Multiset.range pm'.tm.nextId) (hcount : pm'.tm.liveCount = pm'.tids.card + loose'.length)
    (hpids : pm'.pids = pm.pids) (hrunning : pm'.runningPid = pm.runningPid)
    (hsleepers : pm'.interrupted.map (·.sleepingThreads) = pm.interrupted.map (·.sleepingThreads))
    (hzombies : pm'.zombiePids = pm.zombiePids) (hnextPid : pm'.nextPid = pm.nextPid)
    (hlive : pm'.liveCount = pm.liveCount) (hdeferred : pm'.deferredReap = pm.deferredReap) :
    Conserved loose' pm' where
  running := by
    have hsome := congrArg Option.isSome hrunning
    rw [ProcessManager.runningPid, ProcessManager.runningPid, Option.isSome_map,
      Option.isSome_map] at hsome
    exact hsome.trans h.running
  threads := hthreads
  threadCount := hcount
  pids := by rw [hpids]; exact h.pids
  pidBound := by rw [hpids, hnextPid]; exact h.pidBound
  processCount := by rw [hlive, hpids, h.processCount]
  awake := by rw [hsleepers]; exact h.awake
  deferred := by
    unfold DeferredAlive
    rw [hdeferred, hpids, hrunning, hzombies]
    exact h.deferred

theorem of_census (hs : SameCensus pm pm') : Conserved loose pm' :=
  h.of_threads (by rw [hs.tids, hs.tm, h.threads]) (by rw [hs.tm, hs.tids, h.threadCount]) hs.pids
    hs.runningPid hs.sleepers hs.zombiePids hs.nextPid hs.liveCount hs.deferredReap

/-- Rows that only move conserve threads and processes. -/
theorem of_moved (hm : Moved now ok pm pm') (hrunning : pm'.running.isSome)
    (hawake : ∀ l ∈ pm'.interrupted.map (·.sleepingThreads), l = [])
    (hdeferred : pm'.DeferredAlive) : Conserved loose pm' where
  running := hrunning
  threads := by rw [hm.tids, hm.tm, h.threads]
  threadCount := by rw [hm.tm, hm.tids, h.threadCount]
  pids := by rw [hm.pids]; exact h.pids
  pidBound := by rw [hm.pids, hm.nextPid]; exact h.pidBound
  processCount := by rw [hm.liveCount, hm.pids, h.processCount]
  awake := hawake
  deferred := hdeferred

theorem exists_running : ∃ p, pm.running = some p :=
  Option.isSome_iff_exists.mp h.running

/-- A manager that has nothing left to reap after a switch. -/
theorem of_switch (hm : Moved now ok pm pm') (hrunning : pm'.running.isSome)
    (hawake : ∀ l ∈ pm'.interrupted.map (·.sleepingThreads), l = [])
    (hnone : pm'.deferredReap = []) : Conserved loose pm' := by
  refine h.of_moved hm hrunning hawake fun e he => ?_
  rw [hnone] at he
  cases he

/-- The running thread is there. -/
theorem tids_pos : 0 < pm.tids.card := by
  obtain ⟨p, hp⟩ := h.exists_running
  rw [ProcessManager.tids, Multiset.card_map, rows_of_running hp, RunningProcess.rows,
    Multiset.card_add, Multiset.card_add, Multiset.card_singleton]
  omega

end

theorem pid_mem (hp : pm.running = some p) : p.state.pid ∈ pm.pids := by
  unfold ProcessManager.pids
  rw [standings_of_running hp]
  exact Multiset.mem_map.mpr ⟨p.standing, Multiset.mem_add.mpr (.inl (Multiset.mem_singleton_self _)),
    rfl⟩

end Conserved

end Census

section Wakeups

/-- Conservation, with processes that are known to be there and threads that wait to be reaped. -/
structure Holds (loose pids : List Nat) (deferred : List (Nat × ZombieThread))
    (pm : ProcessManager) : Prop where
  conserved : Conserved loose pm
  present : ∀ n ∈ pids, n ∈ pm.pids
  waiting : pm.deferredReap = deferred

variable {pids : List Nat} {deferred : List (Nat × ZombieThread)} {A : String → Prop}

theorem Holds.of_census (h : Holds loose pids deferred pm) (hs : SameCensus pm pm') :
    Holds loose pids deferred pm' :=
  ⟨h.conserved.of_census hs, by rw [hs.pids]; exact h.present, hs.deferredReap.trans h.waiting⟩

/-- A property of the census, of a manager with a running process. -/
structure CensusOnly (I : ProcessManager → Prop) : Prop where
  running : ∀ pm, I pm → pm.running.isSome
  of_census : ∀ pm pm', I pm → SameCensus pm pm' → I pm'

theorem Holds.censusOnly : CensusOnly (Holds loose pids deferred) :=
  ⟨fun _ h => h.conserved.running, fun _ _ => Holds.of_census⟩

section CensusOnly
variable {I : ProcessManager → Prop} (hI : CensusOnly I)
include hI

theorem CensusOnly.keeps_doWakeup (tid now : Nat) : KeepsIn A I (PM.doWakeup tid now) := by
  intro pm h
  obtain ⟨p, hp⟩ := Option.isSome_iff_exists.mp (hI.running pm h)
  refine (doWakeup_spec hp tid).stays (fun _ => h) ?_
  rintro _ pm' ⟨hm, hsame⟩
  exact hI.of_census pm pm' h (.of_undisturbed hm hsame)

theorem CensusOnly.keeps_wakeup (tid : Nat) : KeepsIn A (fun k : Kernel => I k.pm) (wakeup tid) :=
  .gets fun _ => keeps_sched (hI.keeps_doWakeup tid _)

omit hI in
theorem keeps_setQueue (c : CondId) (q : List Nat) :
    KeepsIn A (fun k : Kernel => I k.pm) (setQueue c q) :=
  keeps_modify (by exact fun _ h => h)

theorem CensusOnly.steady_dropGuard (m : Nat) :
    Steady A (fun k : Kernel => I k.pm) (dropGuard m) :=
  (steady_modify (by exact fun _ h => h)).bind fun _ =>
    (keeps_notifyFirst hI.keeps_wakeup keeps_setQueue _).steady_attempt.bind fun _ =>
      steady_modify (by exact fun _ h => h)

/-- Waking the threads that wait for the mutexes of a dead thread keeps the census. -/
theorem CensusOnly.steady_dropThreadState (t : ThreadState) :
    Steady A (fun k : Kernel => I k.pm) (dropThreadState t) :=
  .forEach fun e _ => hI.steady_dropGuard e.2

end CensusOnly

end Wakeups

section Reaping
variable {pids : List Nat} {deferred : List (Nat × ZombieThread)} {A : String → Prop}

theorem not_mem_of_find {α : Type} {f : α → Nat} {l : List α}
    (h : ∀ x, l.find? (fun x => f x == pid) = some x → False) : pid ∉ l.map f := by
  intro hmem
  obtain ⟨x, hx, hpid⟩ := List.mem_map.mp hmem
  have hsome : (l.find? fun x => f x == pid).isSome :=
    List.find?_isSome.mpr ⟨x, hx, beq_iff_eq.mpr hpid⟩
  obtain ⟨y, hy⟩ := Option.isSome_iff_exists.mp hsome
  exact h y hy

/-- The collection in which a process is found. -/
theorem mem_pids (hp : pm.running = some p) (h : pid ∈ pm.pids) :
    p.state.pid = pid ∨ pid ∈ pm.ready.map (·.state.pid) ∨ pid ∈ pm.suspended.map (·.state.pid) ∨
      pid ∈ pm.interrupted.map (·.state.pid) ∨ pid ∈ pm.zombiePids := by
  simp only [ProcessManager.pids, ProcessManager.standings, hp, Option.elim_some, Multiset.map_add,
    Multiset.map_singleton, Multiset.mem_add, Multiset.mem_singleton, Multiset.map_coe,
    Multiset.mem_coe, List.map_map, or_assoc] at h
  exact h.imp_left Eq.symm

/-- A process that is not found is not there. -/
theorem findProcess_spec (hp : pm.running = some p) (pid : Nat) :
    ends (PM.findProcess pid) (fun _ pm' => pm' = pm) (fun _ pm' => pm' = pm ∧ pid ∉ pm.pids)
      A pm := by
  unfold PM.findProcess
  simp only [ends_bind, ends_getRunning hp, ends_gets, id_eq, ends_ite]
  split
  · exact (ends_pure _).mpr rfl
  split
  · exact (ends_pure _).mpr rfl
  split
  · exact (ends_pure _).mpr rfl
  split
  · exact (ends_pure _).mpr rfl
  split
  · exact (ends_pure _).mpr rfl
  next hrunning _ hready _ hsuspended _ hinterrupted _ hzombies =>
    refine (ends_throw _).mpr ⟨rfl, fun hmem => ?_⟩
    rcases mem_pids hp hmem with h | h | h | h | h
    · exact hrunning h
    · exact not_mem_of_find hready h
    · exact not_mem_of_find hsuspended h
    · exact not_mem_of_find hinterrupted h
    · exact not_mem_of_find hzombies h

theorem onThreadReaped_holds (h : Holds (tid :: loose) pids deferred pm) :
    ends (PM.onThreadReaped tid) (fun _ pm' => Holds loose pids deferred pm')
      (fun _ _ => False) A pm := by
  unfold PM.onThreadReaped
  simp only [ends_bind, ends_gets, ends_ite, ends_abort, ends_modify]
  split
  next hfew =>
    have hcount := h.conserved.threadCount
    have hsome := h.conserved.tids_pos
    rw [List.length_cons] at hcount
    omega
  · refine ⟨{ h.conserved with threads := ?_, threadCount := ?_ }, h.present, h.waiting⟩
    · rw [← h.conserved.threads]
      simp only [← Multiset.cons_coe, Multiset.add_cons, Multiset.cons_add]
      rfl
    · have hcount := h.conserved.threadCount
      rw [List.length_cons] at hcount
      change pm.tm.liveCount - 1 = pm.tids.card + loose.length
      omega

theorem sched_onThreadReaped (h : Holds (tid :: loose) pids deferred k.pm) :
    ends (sched (PM.onThreadReaped tid)) (fun _ k' => Holds loose pids deferred k'.pm)
      (fun _ _ => False) A k :=
  ends_sched.mpr (onThreadReaped_holds h)

/-- Harvesting a dead thread of a process that is there reaps it. -/
theorem harvestZombieThread_holds (h : Holds (dead.state.id :: loose) (pid :: pids) deferred k.pm) :
    ends (harvestZombieThread pid dead)
      (fun _ k' => Holds loose (pid :: pids) deferred k'.pm) (fun _ _ => False) A k := by
  unfold harvestZombieThread
  rw [ends_bind]
  refine (Holds.censusOnly.steady_dropThreadState dead.state k h).imp ?_
  intro _ k' h'
  rw [ends_ite]
  split
  · obtain ⟨p, hp⟩ := h'.conserved.exists_running
    rw [ends_bind, ends_attempt, ends_sched]
    refine (findProcess_spec hp pid).weaken ?_ ?_
    · rintro r pm rfl
      exact sched_onThreadReaped h'
    · exact fun _ _ hnone => absurd (h'.present pid List.mem_cons_self) hnone.2
  · exact sched_onThreadReaped h'

theorem rows_withoutDeferred (pm : ProcessManager) :
    pm.rows = ({ pm with deferredReap := [] } : ProcessManager).rows +
      (pm.deferredReap.map fun e => e.2.deferredRow e.1 : Multiset Row) := by
  simp only [ProcessManager.rows, List.map_nil, Multiset.coe_nil, add_zero]

/-- Threads that leave the roster are in hand. -/
theorem Conserved.threads_in_hand (h : Conserved [] pm) {l : List Nat}
    (htids : pm.tids = pm'.tids + (l : Multiset Nat)) (htm : pm'.tm = pm.tm) :
    pm'.tids + (l : Multiset Nat) + (pm'.tm.reaped : Multiset Nat) =
        Multiset.range pm'.tm.nextId ∧ pm'.tm.liveCount = pm'.tids.card + l.length := by
  have hcount := h.threadCount
  rw [htids, Multiset.card_add] at hcount
  rw [htm, ← htids, ← h.threads, Multiset.coe_nil, add_zero]
  exact ⟨rfl, hcount⟩

/-- The threads that wait to be reaped are taken in hand. -/
theorem Conserved.take_deferred (h : Conserved [] pm) :
    Holds (pm.deferredReap.map fun e => e.2.state.id) (pm.deferredReap.map fun e => e.1) []
      { pm with deferredReap := [] } := by
  have htids : pm.tids = ({ pm with deferredReap := [] } : ProcessManager).tids +
      (pm.deferredReap.map fun e => e.2.state.id : List Nat) := by
    unfold ProcessManager.tids
    rw [rows_withoutDeferred pm, Multiset.map_add, Multiset.map_coe, List.map_map]
    rfl
  obtain ⟨hthreads, hcount⟩ := h.threads_in_hand htids rfl
  refine ⟨{ h with threads := hthreads, threadCount := hcount, deferred := ?_ }, ?_, rfl⟩
  · exact List.forall_mem_nil _
  · intro n hn
    obtain ⟨e, he, rfl⟩ := List.mem_map.mp hn
    exact (h.deferred e he).1

theorem harvestAll_holds {l : List (Nat × ZombieThread)}
    (h : Holds (l.map fun e => e.2.state.id) (l.map fun e => e.1) [] k.pm) :
    ends (forEach (fun e => harvestZombieThread e.1 e.2) l) (fun _ k' => Holds [] [] [] k'.pm)
      (fun _ _ => False) A k := by
  refine ends_forEach
    (fun l (k : Kernel) => Holds (l.map fun e => e.2.state.id) (l.map fun e => e.1) [] k.pm) ?_ l h
  intro e l k hl
  refine (harvestZombieThread_holds hl).imp ?_
  intro _ k' hk'
  exact ⟨hk'.conserved, fun n hn => hk'.present n (List.mem_cons_of_mem _ hn), hk'.waiting⟩

theorem reapDeferred_holds (h : Conserved [] k.pm) :
    ends reapDeferred (fun _ k' => Conserved [] k'.pm ∧ k'.pm.deferredReap = [])
      (fun _ _ => False) A k := by
  unfold reapDeferred
  simp only [ends_bind, ends_gets, ends_sched, ends_modify]
  refine (harvestAll_holds h.take_deferred).imp ?_
  intro _ k' hk'
  exact ⟨hk'.conserved, hk'.waiting⟩

end Reaping

section Switches

/-- A program that takes in what is conserved with nothing left to reap. -/
theorem keeps_after_reaping {α : Type} {x : KM α}
    (h : ∀ k : Kernel, Conserved [] k.pm → k.pm.deferredReap = [] →
      ends x (fun _ k' => Conserved [] k'.pm) (fun _ k' => Conserved [] k'.pm) (fun _ => True) k) :
    Keeps Balanced (reapDeferred >>= fun _ => x) := by
  intro k hk
  rw [ends_bind]
  refine (reapDeferred_holds hk).total ?_
  intro _ k' hk'
  exact h k' hk'.1 hk'.2

theorem keeps_sleepAs (w : Wait) (alarm : Option Nat) : Keeps Balanced (sleepAs w alarm) := by
  apply keeps_after_reaping
  intro k hk hnone
  obtain ⟨p, hp⟩ := hk.exists_running
  simp only [runningTid, ends_bind, ends_sched, ends_getRunning hp, ends_pure, ends_gets,
    ends_modify]
  refine (doSleep_spec hp alarm fun _ _ => trivial).imp ?_
  rintro _ pm ⟨hm, hrunning, hinterrupted, -, hdeferred, -⟩
  exact hk.of_switch hm hrunning (by rw [hinterrupted]; exact hk.awake) (hdeferred.trans hnone)

theorem keeps_giveup : Keeps Balanced giveup := by
  apply keeps_after_reaping
  intro k hk hnone
  obtain ⟨p, hp⟩ := hk.exists_running
  simp only [runningTid, ends_bind, ends_sched, ends_getRunning hp, ends_pure, ends_gets,
    ends_modify]
  refine (schedule_spec hp fun _ _ => trivial).imp ?_
  rintro _ pm ⟨hm, hrunning, hinterrupted, -, hdeferred⟩
  refine hk.of_switch hm hrunning ?_ (hdeferred.trans hnone)
  rw [hinterrupted]
  exact List.forall_mem_nil _

/-- Another process has a request that waits for this one. -/
def Kernel.Awaited (k : Kernel) (pid : Nat) : Prop :=
  (∃ r ∈ k.pushes, r.pid ≠ pid ∧ r.dstPid = pid) ∨ ∃ r ∈ k.pulls, r.pid ≠ pid ∧ r.srcPid = pid

theorem orphaned_eq_nil (k : Kernel) (pid : Nat) :
    (k.pushes.filter fun r => r.pid != pid && r.dstPid == pid).map (·.tid) ++
      (k.pulls.filter fun r => r.pid != pid && r.srcPid == pid).map (·.tid) = [] ↔
        ¬ k.Awaited pid := by
  simp [Kernel.Awaited, List.filter_eq_nil_iff]

/-- Without a running process the release of the first waiting thread panics. -/
theorem cleanupRendezvous_emptySlot (hnone : k.pm.running = none) (pid : Nat) :
    ends (cleanupRendezvous pid) (fun _ k' => k'.essence = k.essence ∧ ¬ k.Awaited pid)
      (fun _ _ => False) (fun m => m = PM.slotEmpty ∧ k.Awaited pid) k := by
  unfold cleanupRendezvous cleanupProcess
  simp only [ends_bind, ends_gets, id_eq, ends_modify, ends_pure]
  have hawaited := orphaned_eq_nil k pid
  generalize (k.pushes.filter fun r => r.pid != pid && r.dstPid == pid).map (·.tid) ++
    (k.pulls.filter fun r => r.pid != pid && r.srcPid == pid).map (·.tid) = orphaned at hawaited ⊢
  cases orphaned with
  | nil => exact (ends_pure _).mpr ⟨rfl, hawaited.mp rfl⟩
  | cons t rest =>
    unfold forEach wakeup PM.doWakeup PM.getRunning
    simp only [ends_bind, ends_attempt, ends_gets, ends_sched, hnone, ends_abort]
    exact ⟨trivial, by_contra fun h => List.cons_ne_nil _ _ (hawaited.mpr h)⟩

theorem Conserved.withPending (h : Conserved loose pm) (hp : pm.running = some p)
    (status : ExitStatus) : Conserved loose (pm.withPending p status) :=
  h.of_census (.of_running hp (by rw [RunningProcess.rows_withPending])
    (ProcessState.pid_setPendingExitStatus _ _))

theorem keeps_exit (status : ExitStatus) : Keeps Balanced (exit status) := by
  apply keeps_after_reaping
  intro k hk hnone
  obtain ⟨p, hp⟩ := hk.exists_running
  simp only [ends_bind, ends_gets, ends_sched, ends_takeRunning hp, ends_ite, ends_abort]
  split
  · trivial
  rw [ends_modify]
  refine (cleanupRendezvous_emptySlot rfl p.state.pid).mono ?_ (fun _ _ he => he.elim)
    fun _ _ => trivial
  rintro _ k' ⟨hessence, -⟩
  have hpm : k'.pm = { k.pm with running := none } := Kernel.pm_of_essence hessence
  rw [hpm]
  refine (exitProcess_spec p k.pm status fun _ _ => trivial).imp ?_
  rintro _ pm ⟨hm, hrunning, hinterrupted, hdeferred, -⟩
  exact (ends_pure _).mpr ((hk.withPending hp status).of_switch hm hrunning
    (by rw [hinterrupted]; exact hk.awake) (hdeferred.trans hnone))

/-- The running process is not among the dead. -/
theorem Conserved.runner_not_dead (h : Conserved loose pm) (hp : pm.running = some p) :
    p.state.pid ∉ pm.zombiePids := by
  intro hmem
  have hnodup := h.pids
  unfold ProcessManager.pids at hnodup
  rw [standings_of_running hp, Multiset.map_add, Multiset.map_singleton,
    Multiset.singleton_add, Multiset.nodup_cons] at hnodup
  apply hnodup.1
  obtain ⟨z, hz, hpid⟩ := List.mem_map.mp hmem
  refine Multiset.mem_map.mpr ⟨z.standing, ?_, hpid⟩
  exact Multiset.mem_add.mpr (.inr (List.mem_map_of_mem hz))

/-- A thread that left a process which lives on may wait to be reaped. -/
theorem Conserved.left (h : Conserved [] pm) (hp : pm.running = some p)
    (hnone : pm.deferredReap = []) (hm : Moved now ok pm pm') (hleft : Left p.state.pid pm pm') :
    pm'.DeferredAlive := by
  intro e he
  rcases hleft with ⟨hdeferred, -⟩ | ⟨dead, hdeferred, hzombies⟩
  · rw [hdeferred, hnone] at he
    cases he
  · rw [hdeferred, hnone, List.nil_append, List.mem_singleton] at he
    rw [he, hm.pids]
    refine ⟨Conserved.pid_mem hp, fun _ => ?_⟩
    rw [zombiePids, hzombies]
    exact h.runner_not_dead hp

theorem keeps_of_holds {α : Type} {x : KM α}
    (h : ∀ deferred, Keeps (fun k : Kernel => Holds [] [] deferred k.pm) x) : Keeps Balanced x := by
  intro k hk
  have hholds : Holds [] [] k.pm.deferredReap k.pm :=
    ⟨hk, List.forall_mem_nil _, rfl⟩
  exact (h _ k hholds).weaken (fun _ _ h => h.conserved) (fun _ _ h => h.conserved)

theorem keeps_notifications (c : CondId) : Keeps Balanced (notifyAll c) :=
  keeps_of_holds fun _ => keeps_notifyAll Holds.censusOnly.keeps_wakeup keeps_setQueue c

theorem keeps_exitThread (status : ExitStatus) : Keeps Balanced (exitThread status) := by
  apply keeps_after_reaping
  intro k hk hnone
  obtain ⟨p, hp⟩ := hk.exists_running
  simp only [ends_bind, ends_gets, ends_sched, ends_attempt]
  refine (doExitThread_spec hp status fun _ _ => trivial).imp ?_
  rintro tid pm ⟨-, hm, hrunning, hinterrupted, hleft⟩
  have hpm : Conserved [] pm := hk.of_moved hm hrunning (by rw [hinterrupted]; exact hk.awake)
    (hk.left hp hnone hm hleft)
  refine (keeps_notifications (.join tid) { k with pm := pm } hpm).weaken ?_ ?_
  · intro _ k' hk'
    exact (ends_pure _).mpr hk'
  · intro e k' hk'
    obtain ⟨q, hq⟩ := hk'.exists_running
    simp only [runningTid, ends_bind, ends_sched, ends_getRunning hq, ends_pure, ends_modify,
      ends_throw]
    exact hk'

theorem terminateProcess_conserved (h : Conserved [] pm) (huser : pm.UserRuns) (pid : Nat) :
    ends (PM.terminateProcess pid now) (fun _ pm' => Conserved [] pm')
      (fun _ pm' => Conserved [] pm') (fun _ => True) pm := by
  obtain ⟨p, hp, hne⟩ := huser
  refine (terminateProcess_spec pm pid).stays (fun _ => h) ?_
  rintro _ pm' ⟨hm, hrunning, -, hdeferred, -, hawake⟩
  refine h.of_moved hm (by rw [hrunning]; exact h.running) ?_ ?_
  · intro l hl
    obtain ⟨q, hq, rfl⟩ := List.mem_map.mp hl
    rcases hawake q hq with hq | hq
    · exact h.awake _ (List.mem_map_of_mem hq)
    · exact hq
  · intro e he
    rw [hdeferred] at he
    rw [hm.pids, ProcessManager.runningPid, hrunning, hp]
    exact ⟨(h.deferred e he).1, fun hkernel => absurd (Option.some.inj hkernel) hne⟩

end Switches

theorem conserved_idle {k' : Kernel} (hessence : k'.essence = k.essence)
    (h : Conserved [] k.pm) : Conserved [] k'.pm := by
  rw [Kernel.pm_of_essence hessence]
  exact h

section Joining

/-- A dead thread that is taken out of its process is in hand. -/
theorem Conserved.tookZombie (h : Conserved [] pm)
    (hp : pm.running = some p) (ht : TookZombie dead p q) :
    Holds [dead.state.id] [p.state.pid] pm.deferredReap { pm with running := some q } := by
  have htids : pm.tids =
      ({ pm with running := some q } : ProcessManager).tids + ([dead.state.id] : List Nat) := by
    simp only [ProcessManager.tids, ProcessManager.rows, hp, Option.elim_some, ht.rows,
      Multiset.map_add, Multiset.map_singleton, Multiset.coe_singleton]
    rw [show (dead.row p.state.pid).tid = dead.state.id from rfl]
    abel
  have hpids : ({ pm with running := some q } : ProcessManager).pids = pm.pids := by
    simp only [ProcessManager.pids, ProcessManager.standings, hp, Option.elim_some,
      RunningProcess.standing, ht.state]
  have hrunning : ({ pm with running := some q } : ProcessManager).runningPid = pm.runningPid := by
    simp only [ProcessManager.runningPid, hp, Option.map_some, ht.state]
  obtain ⟨hthreads, hcount⟩ := h.threads_in_hand htids rfl
  refine ⟨h.of_threads hthreads hcount hpids hrunning rfl rfl rfl rfl rfl, fun n hn => ?_, rfl⟩
  rw [List.mem_singleton.mp hn, hpids]
  exact Conserved.pid_mem hp

/-- A dead thread that was joined or detached is reaped. -/
theorem harvest_taken {r : Reply}
    (h : Conserved [] k.pm) (hp : k.pm.running = some p) (ht : TookZombie dead p q) :
    ends (harvestZombieThread p.state.pid dead >>= fun _ => pure r)
      (fun _ k' => Conserved [] k'.pm) (fun _ k' => Conserved [] k'.pm) (fun _ => True)
      { k with pm := { k.pm with running := some q } } := by
  rw [ends_bind]
  refine (harvestZombieThread_holds (h.tookZombie hp ht)).total ?_
  intro _ k' hk'
  exact (ends_pure _).mpr hk'.conserved

theorem keeps_joinRound (tid : Nat) : Keeps Balanced (joinRound tid) := by
  intro k hk
  obtain ⟨p, hp⟩ := hk.exists_running
  unfold joinRound
  simp only [ends_bind, ends_sched, ends_getRunning hp]
  refine (tryJoinThread_spec hp tid).stays (fun _ => hk) ?_
  rintro r pm (⟨rfl, rfl⟩ | ⟨dead, q, rfl, -, htook, rfl⟩)
  · have hwait := keeps_condWait conserved_idle keeps_sleepAs (.join tid) none (.join tid) k hk
    exact ends_bind.mpr (hwait.imp fun _ _ h => (ends_pure _).mpr h)
  · exact harvest_taken hk hp htook

theorem keeps_detachThread (tid : Nat) : Keeps Balanced (detachThread tid) := by
  apply keeps_after_reaping
  intro k hk _
  obtain ⟨p, hp⟩ := hk.exists_running
  simp only [ends_bind, ends_sched, ends_getRunning hp]
  refine (doDetachThread_spec hp tid).stays (fun _ => hk) ?_
  rintro r pm ⟨q, rfl, ⟨rfl, hmarked⟩ | ⟨dead, rfl, -, htook⟩⟩
  · have hrows := (hmarked.rows k.pm.interruptReason).map_eq fun _ _ hd =>
      congrArg (fun c : Nat × Nat × Bool × List (Nat × Nat) => c.2.1) hd.core_eq
    exact (ends_pure _).mpr (hk.of_census (.of_running hp hrows.symm (by rw [hmarked.state])))
  · exact harvest_taken hk hp htook

end Joining

section Harvest

theorem rows_popZombie (h : pm.zombies = z :: zs) :
    pm.rows = ({ pm with zombies := zs, liveCount := pm.liveCount - 1 } : ProcessManager).rows +
      z.rows := by
  simp only [ProcessManager.rows, h, List.map_cons, List.sum_cons]
  abel

theorem standings_popZombie (h : pm.zombies = z :: zs) :
    pm.standings = z.standing ::ₘ
      ({ pm with zombies := zs, liveCount := pm.liveCount - 1 } : ProcessManager).standings := by
  simp only [ProcessManager.standings, h, List.map_cons, ← Multiset.cons_coe, Multiset.add_cons]

theorem pids_popZombie (h : pm.zombies = z :: zs) :
    pm.pids = z.process.pid ::ₘ
      ({ pm with zombies := zs, liveCount := pm.liveCount - 1 } : ProcessManager).pids := by
  unfold ProcessManager.pids
  rw [standings_popZombie h, Multiset.map_cons]
  rfl

theorem ZombieProcess.tids_rows (z : ZombieProcess) :
    z.rows.map Row.tid = (z.zombieThreads.toList.map fun t => t.state.id : List Nat) := by
  simp only [ZombieProcess.rows, crew, List.map_nil, Multiset.coe_nil, zero_add, Multiset.map_coe,
    List.map_map]
  rfl

/-- The threads of a dead process that the kernel's thread buries are in hand. -/
theorem Conserved.popZombie (h : Conserved [] pm)
    (hkernel : pm.KernelRuns) (hz : pm.zombies = z :: zs) :
    Holds (z.zombieThreads.toList.map fun t => t.state.id) [] pm.deferredReap
      { pm with zombies := zs, liveCount := pm.liveCount - 1 } := by
  obtain ⟨p, hp, hpid⟩ := hkernel
  have htids : pm.tids =
      ({ pm with zombies := zs, liveCount := pm.liveCount - 1 } : ProcessManager).tids +
        (z.zombieThreads.toList.map fun t => t.state.id : List Nat) := by
    unfold ProcessManager.tids
    rw [rows_popZombie hz, Multiset.map_add, z.tids_rows]
  have hpids := pids_popZombie hz
  have hnodup := h.pids
  rw [hpids, Multiset.nodup_cons] at hnodup
  obtain ⟨hthreads, hcount⟩ := h.threads_in_hand htids rfl
  refine ⟨⟨h.running, hthreads, hcount, hnodup.2, ?_, ?_, h.awake, ?_⟩, ?_, rfl⟩
  · intro n hn
    exact h.pidBound n (hpids ▸ Multiset.mem_cons_of_mem hn)
  · have hcount := h.processCount
    rw [hpids, Multiset.card_cons] at hcount
    change pm.liveCount - 1 = _
    omega
  · intro e he
    obtain ⟨hmem, hdead⟩ := h.deferred e he
    have hdead := hdead (by rw [ProcessManager.runningPid, hp, Option.map_some, hpid])
    rw [zombiePids, hz, List.map_cons, List.mem_cons, not_or] at hdead
    rw [hpids] at hmem
    exact ⟨(Multiset.mem_cons.mp hmem).resolve_left hdead.1, fun _ => hdead.2⟩
  · exact List.forall_mem_nil _

/-- Threads are reaped, and the processes stay as they are. -/
structure Reaped (tids : List Nat) (pm pm' : ProcessManager) : Prop where
  pids : pm'.pids = pm.pids
  zombiePids : pm'.zombiePids = pm.zombiePids
  reaped : (pm'.tm.reaped : Multiset Nat) = (tids : Multiset Nat) + pm.tm.reaped

theorem Reaped.censusOnly {deferred : List (Nat × ZombieThread)} {tids : List Nat}
    {pm₀ : ProcessManager} :
    CensusOnly fun pm => Holds loose [] deferred pm ∧ Reaped tids pm₀ pm where
  running _ h := h.1.conserved.running
  of_census _ _ h hs := ⟨h.1.of_census hs, hs.pids.trans h.2.pids,
    hs.zombiePids.trans h.2.zombiePids, by rw [hs.tm]; exact h.2.reaped⟩

theorem onThreadReaped_reaped {tids : List Nat} {pm₀ : ProcessManager} {A : String → Prop}
    (h : Reaped tids pm₀ pm) (hlive : 1 < pm.tm.liveCount) :
    ends (PM.onThreadReaped tid) (fun _ pm' => Reaped (tids ++ [tid]) pm₀ pm')
      (fun _ _ => False) A pm := by
  unfold PM.onThreadReaped
  simp only [ends_bind, ends_gets, ends_ite, ends_abort, ends_modify]
  rw [if_neg (Nat.not_le.mpr hlive)]
  refine ⟨h.pids, h.zombiePids, ?_⟩
  rw [← Multiset.cons_coe, h.reaped, ← Multiset.coe_add, add_assoc, Multiset.coe_singleton,
    Multiset.singleton_add, Multiset.add_cons]

/-- The threads of a dead process are reaped one by one. -/
theorem harvestThreads_holds {deferred : List (Nat × ZombieThread)} {l : List ZombieThread}
    {A : String → Prop} (h : Holds (l.map fun t => t.state.id) [] deferred k.pm) :
    ends (forEach (fun dead : ZombieThread => do
        dropThreadState dead.state
        sched (PM.onThreadReaped dead.state.id)) l)
      (fun _ k' => Holds [] [] deferred k'.pm ∧
        Reaped (l.map fun t => t.state.id) k.pm k'.pm) (fun _ _ => False) A k := by
  -- The threads that are done and those that are left are the threads of the process.
  refine (ends_forEach (fun rest (k' : Kernel) => ∃ done : List Nat,
    done ++ rest.map (fun t => t.state.id) = l.map (fun t => t.state.id) ∧
      Holds (rest.map fun t => t.state.id) [] deferred k'.pm ∧ Reaped done k.pm k'.pm)
    ?_ l ⟨[], rfl, h, rfl, rfl, (zero_add _).symm⟩).imp ?_
  · rintro t rest k₁ ⟨done, hdone, hk₁⟩
    rw [ends_bind]
    refine (Reaped.censusOnly.steady_dropThreadState t.state k₁ hk₁).imp ?_
    rintro _ k₂ ⟨hholds, hreaped⟩
    have hlive : 1 < k₂.pm.tm.liveCount := by
      have hcount := hholds.conserved.threadCount
      have hsome := hholds.conserved.tids_pos
      rw [List.map_cons, List.length_cons] at hcount
      omega
    have hboth := (onThreadReaped_holds (A := A) hholds).and
      (onThreadReaped_reaped (A := A) hreaped hlive)
    rw [ends_sched]
    refine hboth.mono ?_ (fun _ _ hf => hf.1) fun _ ha => ha.1
    rintro _ pm' ⟨hholds', hreaped'⟩
    exact ⟨_, by rw [← hdone, List.map_cons, List.append_assoc, List.singleton_append], hholds',
      hreaped'⟩
  · rintro _ k' ⟨done, hdone, hholds, hreaped⟩
    rw [List.map_nil, List.append_nil] at hdone
    exact ⟨hholds, hdone ▸ hreaped⟩

theorem harvestZombies_conserved (h : Conserved [] k.pm) (hkernel : k.pm.KernelRuns) :
    ends harvestZombies (fun _ k' => Conserved [] k'.pm) (fun _ k' => Conserved [] k'.pm)
      (fun _ => True) k := by
  unfold harvestZombies
  simp only [ends_bind, ends_sched]
  refine (popZombieProcess_spec k.pm).imp ?_
  rintro r pm (⟨rfl, rfl⟩ | ⟨z, zs, rfl, hz, -, rfl⟩)
  · exact (ends_pure _).mpr h
  · rw [ends_bind]
    refine (harvestThreads_holds (h.popZombie hkernel hz)).total ?_
    intro _ k' hk'
    simp only [ends_bind, ends_modify, ends_pure]
    exact hk'.1.conserved

/-- A dead process is taken out and reported, and its threads are reaped. -/
structure Buried (z : ZombieProcess) (pm pm' : ProcessManager) : Prop where
  pids : pm.pids = z.process.pid ::ₘ pm'.pids
  zombiePids : pm.zombiePids = z.process.pid :: pm'.zombiePids
  reaped : (pm'.tm.reaped : Multiset Nat) =
    (z.zombieThreads.toList.map fun t => t.state.id : List Nat) + pm.tm.reaped

/-- A harvest by the kernel's thread does not panic, and it takes the process that died first. -/
theorem harvestZombies_buries (h : Conserved [] k.pm) (hkernel : k.pm.KernelRuns)
    (hz : k.pm.zombies = z :: zs) : ∃ k',
      harvestZombies k = .ok (some (z.process.pid, z.status)) k' ∧ Buried z k.pm k'.pm := by
  have hlive : ¬ k.pm.liveCount ≤ 1 := by
    obtain ⟨p, hp, -⟩ := hkernel
    have hmem : p.state.pid ∈
        ({ k.pm with zombies := zs, liveCount := k.pm.liveCount - 1 } : ProcessManager).pids :=
      Conserved.pid_mem hp
    have hcard := Multiset.card_pos_iff_exists_mem.mpr ⟨_, hmem⟩
    rw [h.processCount, pids_popZombie hz, Multiset.card_cons]
    exact Nat.not_le.mpr (Nat.succ_lt_succ hcard)
  have hends : ends harvestZombies
      (fun r k' => r = some (z.process.pid, z.status) ∧ Buried z k.pm k'.pm)
      (fun _ _ => False) (fun _ => False) k := by
    unfold harvestZombies PM.popZombieProcess
    simp only [ends_bind, ends_sched, ends_gets, id_eq, hz, if_neg hlive, ends_modify,
      ends_pure]
    refine (harvestThreads_holds (h.popZombie hkernel hz)).imp ?_
    rintro _ k' ⟨-, hreaped⟩
    refine ⟨trivial, by rw [hreaped.pids]; exact pids_popZombie hz, ?_, hreaped.reaped⟩
    rw [hreaped.zombiePids, ProcessManager.zombiePids, hz]
    rfl
  obtain ⟨r, k', hrun, rfl, hburied⟩ := hends.exists_ok
  exact ⟨k', hrun, hburied⟩

end Harvest

end Nanvix.Pm
