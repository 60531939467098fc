import Nanvix.Pm.Conservation

/-!
# Conservation in every run

Creating threads and processes and changing the state of a process conserve them too,
so every kernel call does. In every state that a run reaches each identifier handed out
is that of one thread or of one reaped thread, each process is in one collection, and
the phases of its threads are those that the collection stands for.
-/
namespace Nanvix.Pm
open Library Library.Prog

variable {now tid pid : Nat} {pm pm' : ProcessManager} {p : RunningProcess}

section Creation

/-- A new thread has the next number, so that each number is still in use or reaped. -/
theorem Conserved.threads_cons {loose : List Nat} (h : Conserved loose pm)
    (htids : pm'.tids = pm.tm.nextId ::ₘ pm.tids)
    (htm : pm'.tm = pm.tm.commitNextTid (pm.tm.nextId + 1)) :
    pm'.tids + (loose : Multiset Nat) + (pm'.tm.reaped : Multiset Nat) =
      Multiset.range pm'.tm.nextId ∧ pm'.tm.liveCount = pm'.tids.card + loose.length := by
  rw [htids, htm]
  constructor
  · change _ = Multiset.range (pm.tm.nextId + 1)
    rw [Multiset.range_succ, ← h.threads, Multiset.cons_add, Multiset.cons_add]
    rfl
  · rw [Multiset.card_cons]
    change pm.tm.liveCount + 1 = _
    rw [h.threadCount, Nat.add_right_comm]

theorem Conserved.withProcess (h : Conserved [] pm) (space : Nat) (userStack : Bool) :
    Conserved [] (pm.withProcess space userStack now) := by
  have htids : (pm.withProcess space userStack now).tids = pm.tm.nextId ::ₘ pm.tids := by
    unfold ProcessManager.tids
    rw [rows_withProcess, Multiset.singleton_add, Multiset.map_cons]
    rfl
  have hpids : (pm.withProcess space userStack now).pids = pm.nextPid ::ₘ pm.pids := by
    unfold ProcessManager.pids
    rw [standings_withProcess, Multiset.singleton_add, Multiset.map_cons]
    rfl
  obtain ⟨hthreads, hcount⟩ := h.threads_cons htids rfl
  refine ⟨h.running, hthreads, hcount, ?_, ?_, ?_, h.awake, ?_⟩
  · rw [hpids, Multiset.nodup_cons]
    exact ⟨fun hmem => Nat.lt_irrefl _ (h.pidBound _ hmem), h.pids⟩
  · intro n hn
    rw [hpids] at hn
    rcases Multiset.mem_cons.mp hn with rfl | hn
    · exact Nat.lt_succ_self _
    · exact Nat.lt_succ_of_lt (h.pidBound n hn)
  · rw [hpids, Multiset.card_cons]
    exact congrArg (· + 1) h.processCount
  · intro e he
    rw [hpids]
    exact ⟨Multiset.mem_cons_of_mem (h.deferred e he).1, (h.deferred e he).2⟩

theorem Conserved.withThread (h : Conserved [] pm) (hp : pm.running = some p) :
    Conserved [] (pm.withThread p now) := by
  have htids : (pm.withThread p now).tids = pm.tm.nextId ::ₘ pm.tids := by
    unfold ProcessManager.tids
    rw [rows_withThread hp, Multiset.singleton_add, Multiset.map_cons]
    rfl
  have hpids : (pm.withThread p now).pids = pm.pids :=
    congrArg (Multiset.map fun s : Standing => s.1.pid) (standings_withThread hp)
  have hrunning : (pm.withThread p now).runningPid = pm.runningPid := by
    rw [ProcessManager.runningPid, ProcessManager.runningPid, hp]
    rfl
  obtain ⟨hthreads, hcount⟩ := h.threads_cons htids rfl
  exact h.of_threads hthreads hcount hpids hrunning rfl rfl rfl rfl rfl

theorem keeps_createProcess (space : Nat) (memory : Except Error Unit) (now : Nat) :
    Keeps (Conserved []) (PM.createProcess space memory now) := by
  intro pm h
  refine (createProcess_spec pm space memory).stays (fun _ => h) ?_
  rintro _ pm' ⟨-, rfl⟩
  exact h.withProcess space true

theorem keeps_duplicateProcess (space : Nat) (checks memory : Except Error Unit) (now : Nat) :
    Keeps (Conserved []) (PM.duplicateProcess space checks memory now) := by
  intro pm h
  obtain ⟨p, hp⟩ := h.exists_running
  refine (duplicateProcess_spec hp space checks memory).stays (fun _ => h) ?_
  rintro _ pm' ⟨-, rfl⟩
  exact h.withProcess space false

theorem keeps_createThread (memory : Except Error Unit) (now : Nat) :
    Keeps (Conserved []) (PM.createThread memory now) := by
  intro pm h
  obtain ⟨p, hp⟩ := h.exists_running
  refine (createThread_spec hp memory).stays (fun _ => h) ?_
  rintro _ pm' ⟨-, rfl⟩
  exact h.withThread hp

end Creation

section Edits

theorem keeps_setState (f : ProcessState → ProcessState) (hpid : ∀ q, (f q).pid = q.pid) :
    Keeps (Conserved []) (do
      let p ← PM.getRunning
      PM.setRunning { p with state := f p.state }) := by
  intro pm h
  obtain ⟨p, hp⟩ := h.exists_running
  simp only [ends_bind, ends_getRunning hp, ends_setRunning]
  exact h.of_census (.of_edited (edited_running hp hpid) (hpid _))

theorem keeps_takeInterruptReason : Keeps (Conserved []) PM.takeInterruptReason := by
  intro pm h
  obtain ⟨p, hp⟩ := h.exists_running
  unfold PM.takeInterruptReason
  simp only [ends_bind, ends_gets, ends_modify, ends_pure]
  have hcensus : SameCensus pm { pm with running := some p, interruptReason := none } :=
    .of_running hp (by simp only [RunningProcess.rows, Multiset.map_add, Multiset.map_singleton]; rfl)
      rfl
  rw [← hp] at hcensus
  exact h.of_census hcensus

theorem keeps_tables {f : RunningProcess → RunningProcess} (hf : TablesOnly f) :
    Keeps Balanced (KM.modifyRunning f) := by
  intro k h
  obtain ⟨p, hp⟩ := h.exists_running
  unfold KM.modifyRunning
  simp only [ends_bind, ends_sched, ends_getRunning hp, ends_setRunning]
  refine h.of_census (.of_running hp ?_ (by rw [hf p]))
  rw [hf p]
  simp only [RunningProcess.rows, Multiset.map_add, Multiset.map_singleton]
  rfl

theorem keeps_postMessage (receiver : Party) (l : Letter) :
    Keeps (Conserved []) (PM.postMessage receiver l) := by
  intro pm h
  refine (postMessage_spec receiver l pm).mono ?_ ?_ fun _ _ => trivial
  · rintro _ pm' ⟨s, -, hedit, -⟩
    exact h.of_census (.of_edited hedit rfl)
  · rintro _ pm' (⟨rfl, -⟩ | ⟨-, s, -, hedit, -⟩)
    · exact h
    · exact h.of_census (.of_edited hedit rfl)

theorem keeps_tryRecv (tid : Nat) : Keeps (Conserved []) (PM.tryRecv tid) := by
  intro pm h
  obtain ⟨p, hp⟩ := h.exists_running
  refine (tryRecv_spec hp tid).weaken ?_ ?_
  · rintro _ pm' (⟨-, rfl, -⟩ | ⟨l, -, ⟨rest, -, hedit⟩, -⟩)
    · exact h
    · exact h.of_census (.of_edited hedit rfl)
  · rintro _ pm' ⟨l, ⟨rest, -, hedit⟩, -⟩
    exact h.of_census (.of_edited hedit rfl)

theorem keeps_capctl (pid : Nat) (c : Capability) (set : Bool) :
    Keeps (Conserved []) (PM.capctl pid c set) := by
  intro pm h
  refine (capctl_spec pid c set pm).stays (fun _ => h) ?_
  rintro _ pm' ⟨s, -, hedit | hedit, -⟩
  · exact h.of_census (.of_edited hedit rfl)
  · exact h.of_census (.of_edited hedit rfl)

theorem keeps_hasCapability {J : ProcessManager → Prop} (pid : Nat) (c : Capability) :
    Keeps J (PM.hasCapability pid c) :=
  (keeps_findProcess pid).ret

end Edits

section Calls

theorem keeps_conserved_wakeup (tid : Nat) : Keeps Balanced (KM.wakeup tid) :=
  keeps_of_holds fun _ => Holds.censusOnly.keeps_wakeup tid

theorem keeps_conserved_post (m : Message) (origin : Origin) :
    Keeps Balanced (KM.postMessage m origin) := by
  have hqueue : ∀ c q, Keeps Balanced (KM.setQueue c q) :=
    fun c q => keeps_modify (by exact fun _ h => h)
  refine .gets fun serial => (keeps_modify (by exact fun _ h => h)).bind fun _ =>
    (keeps_sched (keeps_postMessage _ _)).bind fun _ => ?_
  split
  · exact keeps_notifyAllProcessThreads keeps_conserved_wakeup hqueue _
  · exact keeps_notifyThread keeps_conserved_wakeup hqueue _ _

theorem keeps_conserved_evctrl (ev : Event) (req : EventCtrlRequest) :
    Keeps Balanced (KM.evctrl ev req) := by
  refine keeps_running.bind fun p => .gets fun em =>
    .ite (keeps_throw _) ?_
  refine (keeps_read fun _ => keeps_hasCapability _ _).attempt.bind fun r =>
    (keeps_ofExcept _).bind fun em => (keeps_modify (by exact fun _ h => h)).bind fun _ => ?_
  cases req with
  | register =>
    exact (keeps_sched (keeps_setState (·.addEvent ev) fun _ => rfl)).ret
  | unregister =>
    exact (keeps_sched (keeps_setState (·.removeEvent ev) fun _ => rfl)).bind fun _ =>
      (keeps_modify (by exact fun _ h => h)).ret

theorem keeps_conserved_tryWait (tid pid : Nat) (i : EventManager.Interests) :
    Keeps Balanced (KM.tryWait tid pid i) := by
  refine .gets fun em => ?_
  split
  · exact (keeps_modify (by exact fun _ h => h)).ret
  · refine (keeps_sched (keeps_tryRecv tid)).bind fun l => ?_
    cases l with
    | none | some l => exact keeps_pure _

theorem keeps_conserved_recvRound (i : EventManager.Interests) (copy : Except Error Unit) :
    Keeps Balanced (KM.recvRound i copy) := by
  refine keeps_running.bind fun p =>
    (keeps_conserved_tryWait _ _ i).attempt.bind fun r => ?_
  split
  · exact (keeps_modify (by exact fun _ h => h)).bind fun _ => keeps_throw _
  · exact (keeps_modify (by exact fun _ h => h)).bind fun _ =>
      (keeps_modify (by exact fun _ h => h)).bind fun _ => (keeps_ofExcept _).ret
  · exact (keeps_condWait conserved_idle keeps_sleepAs _ _ _).ret

theorem keeps_conserved_send (m : Message) : Keeps Balanced (KM.send m) :=
  keeps_running.bind fun _ => .ite
    ((keeps_modify (by exact fun _ h => h)).ret)
    ((keeps_conserved_post m _).ret)

/-- Every kernel call conserves threads and processes. -/
theorem closed_conserved {guard : KernelCmd → Kernel → Prop} :
    Closed guard Balanced where
  idle := conserved_idle
  wakeup := keeps_conserved_wakeup
  takeInterruptReason := keeps_sched keeps_takeInterruptReason
  createProcess space mem now := keeps_sched (keeps_createProcess space mem now)
  duplicateProcess space checks mem now := keeps_sched (keeps_duplicateProcess space checks mem now)
  createThread mem now := keeps_sched (keeps_createThread mem now)
  reapDeferred _ hk := (reapDeferred_holds hk).total fun _ _ h => h.1
  sleepAs := keeps_sleepAs
  giveup := keeps_giveup
  exit := keeps_exit
  exitThread := keeps_exitThread
  terminate pid _ _ hk huser := ends_sched.mpr (terminateProcess_conserved hk huser pid)
  joinRound := keeps_joinRound
  detachThread := keeps_detachThread
  harvest _ hk hkernel _ := harvestZombies_conserved hk hkernel
  tables _ hf := keeps_tables hf
  evctrl := keeps_conserved_evctrl
  capctl c set := keeps_running.bind fun _ =>
    (keeps_sched (keeps_capctl _ c set)).ret
  send m k hk _ := keeps_conserved_send m k hk
  channel m k hk _ := keeps_conserved_post m .channel k hk
  recvRound := keeps_conserved_recvRound

end Calls

section Agreement

namespace Phase

def isRunning : Phase → Bool
  | running _ => true
  | _ => false

def isReady : Phase → Bool
  | ready _ => true
  | _ => false

def isSleeping : Phase → Bool
  | sleeping _ => true
  | _ => false

def isInterrupted : Phase → Bool
  | interrupted _ => true
  | _ => false

def isZombie : Phase → Bool
  | zombie _ => true
  | _ => false

end Phase

/-- Some thread is in the phase that gives the process its state, and none is in a phase it excludes. -/
def Agrees (lead excluded : Phase → Bool) (rows : Multiset Row) : Prop :=
  (∃ r ∈ rows, lead r.phase = true) ∧ ∀ r ∈ rows, excluded r.phase = false

/-- The phases of the threads of every process agree with the collection it is in. -/
structure StatesAgree (pm : ProcessManager) : Prop where
  running : ∃ p, pm.running = some p ∧ Agrees (·.isRunning) (fun _ => false)
    (p.rows pm.interruptReason)
  ready : ∀ p ∈ pm.ready, Agrees (·.isReady) (·.isRunning) p.rows
  suspended : ∀ p ∈ pm.suspended, Agrees (·.isSleeping)
    (fun f => f.isRunning || f.isReady || f.isInterrupted) p.rows
  interrupted : ∀ p ∈ pm.interrupted, Agrees (·.isInterrupted)
    (fun f => f.isRunning || f.isReady || f.isSleeping) p.rows
  zombies : ∀ p ∈ pm.zombies, Agrees (·.isZombie) (fun f => !f.isZombie) p.rows

theorem RunnableProcess.agrees (q : RunnableProcess) : Agrees (·.isReady) (·.isRunning) q.rows := by
  constructor
  · exact ⟨_, mem_crew.mpr (.inl ⟨_, q.readyThreads.head_mem, rfl⟩), rfl⟩
  · intro r hr
    rcases mem_crew.mp hr with ⟨t, -, rfl⟩ | ⟨t, -, rfl⟩ | ⟨t, -, rfl⟩ | ⟨t, -, rfl⟩ <;> rfl

theorem SleepingProcess.agrees (q : SleepingProcess) :
    Agrees (·.isSleeping) (fun f => f.isRunning || f.isReady || f.isInterrupted) q.rows := by
  constructor
  · exact ⟨_, mem_crew.mpr (.inr (.inr (.inl ⟨_, q.sleepingThreads.head_mem, rfl⟩))), rfl⟩
  · intro r hr
    rcases mem_crew.mp hr with ⟨t, ⟨⟩, -⟩ | ⟨t, ⟨⟩, -⟩ | ⟨t, -, rfl⟩ | ⟨t, -, rfl⟩ <;> rfl

theorem InterruptedProcess.agrees (q : InterruptedProcess) (hawake : q.sleepingThreads = []) :
    Agrees (·.isInterrupted) (fun f => f.isRunning || f.isReady || f.isSleeping) q.rows := by
  constructor
  · exact ⟨_, mem_crew.mpr (.inr (.inl ⟨_, q.interruptedThreads.head_mem, rfl⟩)), rfl⟩
  · intro r hr
    rw [InterruptedProcess.rows, hawake] at hr
    rcases mem_crew.mp hr with ⟨t, ⟨⟩, -⟩ | ⟨t, -, rfl⟩ | ⟨t, ⟨⟩, -⟩ | ⟨t, -, rfl⟩ <;> rfl

theorem ZombieProcess.agrees (q : ZombieProcess) :
    Agrees (·.isZombie) (fun f => !f.isZombie) q.rows := by
  constructor
  · exact ⟨_, mem_crew.mpr (.inr (.inr (.inr ⟨_, q.zombieThreads.head_mem, rfl⟩))), rfl⟩
  · intro r hr
    rcases mem_crew.mp hr with ⟨t, ⟨⟩, -⟩ | ⟨t, ⟨⟩, -⟩ | ⟨t, ⟨⟩, -⟩ | ⟨t, -, rfl⟩
    rfl

theorem Conserved.statesAgree (h : Conserved [] pm) : StatesAgree pm where
  running := by
    obtain ⟨p, hp⟩ := h.exists_running
    refine ⟨p, hp, ⟨p.running.row p.state.pid pm.interruptReason, ?_, rfl⟩, fun _ _ => rfl⟩
    exact Multiset.mem_add.mpr (.inl (Multiset.mem_singleton_self _))
  ready q _ := q.agrees
  suspended q _ := q.agrees
  interrupted q hq := q.agrees (h.awake _ (List.mem_map_of_mem hq))
  zombies q _ := q.agrees

end Agreement

section Runs

/-- What holds of threads and processes between kernel calls. -/
structure Conserves (pm : ProcessManager) : Prop where
  /-- An identifier handed out is that of one thread of one queue, or of one reaped thread. -/
  created : ∀ tid < pm.tm.nextId, pm.tids.count tid + pm.tm.reaped.count tid = 1
  known : ∀ tid, tid ∈ pm.tids ∨ tid ∈ pm.tm.reaped → tid < pm.tm.nextId
  processes : pm.pids.Nodup
  agree : StatesAgree pm
  threadCount : pm.tm.liveCount = pm.rows.card
  processCount : pm.liveCount = pm.standings.card

theorem Conserved.conserves (h : Conserved [] pm) : Conserves pm where
  created tid htid := by
    have hcount := congrArg (Multiset.count tid) h.threads
    rw [Multiset.coe_nil, add_zero, Multiset.count_add, Multiset.coe_count,
      Multiset.count_eq_one_of_mem (Multiset.nodup_range _) (Multiset.mem_range.mpr htid)] at hcount
    exact hcount
  known tid htid := by
    rw [← Multiset.mem_range, ← h.threads, Multiset.coe_nil, add_zero]
    exact Multiset.mem_add.mpr htid
  processes := h.pids
  agree := h.statesAgree
  threadCount := by
    rw [h.threadCount, ProcessManager.tids, Multiset.card_map]
    rfl
  processCount := by rw [h.processCount, ProcessManager.pids, Multiset.card_map]

theorem conserved_boot (mem : Mm.MemState) (root : Nat) (interruptCapable : Bool) :
    Conserved [] (Kernel.boot mem root interruptCapable).pm := by
  refine ⟨rfl, rfl, rfl, ?_, ?_, rfl, ?_, ?_⟩
  · exact Multiset.nodup_singleton _
  · intro n hn
    rw [Multiset.mem_singleton.mp hn]
    exact Nat.zero_lt_one
  · exact List.forall_mem_nil _
  · exact List.forall_mem_nil _

/-- In every state that a run of the kernel reaches, threads and processes are conserved, and a
harvest takes the process that died first and reaps its threads. -/
theorem conserves_of_reach {kernelFrames : List Nat} {mem : Mm.MemState} {root : Nat}
    {interruptCapable : Bool} {k : Kernel} (h : (kernelMachine kernelFrames).Reach
      (fun _ _ => True) (.boot mem root interruptCapable) k) :
    Conserves k.pm ∧ ∀ z zs, k.pm.KernelRuns → k.pm.zombies = z :: zs → ∃ k',
      KM.harvestZombies k = .ok (some (z.process.pid, z.status)) k' ∧ Buried z k.pm k'.pm := by
  have hconserved := closed_conserved.reach (conserved_boot mem root interruptCapable) h
  exact ⟨hconserved.conserves, fun _ _ => harvestZombies_buries hconserved⟩

/-- A thread is joined and reaped. Another one ends their process, which is then harvested. -/
theorem conserves_join_and_exit : ∃ k k' z, (kernelMachine []).Reach (fun _ _ => True)
    (.boot (.boot 128) 0 false) k ∧ k.pm.tm.reaped = [1] ∧ Conserves k.pm ∧
      z.zombieThreads.toList.map (fun t => t.state.id) = [2] ∧
        KM.harvestZombies k = .ok (some (1, .code 0)) k' ∧ Buried z k.pm k'.pm := by
  obtain ⟨k, hk, hreaped, hrunning, hzombies⟩ := (kernelMachine []).exists_reach
    (.boot (.boot 128) 0 false)
    [.memory .newVmem, .createProcess 0 (.ok ()), .giveup, .createThread (.ok ()),
      .exitThread (.code 3), .resume, .giveup, .joinThread 1, .exit (.code 0), .resume]
    (fun k => k.pm.tm.reaped = [1] ∧ k.pm.runningPid = some kernelPid ∧ k.pm.zombies.map (fun z =>
      (z.process.pid, z.status, z.zombieThreads.toList.map fun t => t.state.id)) =
        [(1, .code 0, [2])]) (by decide +kernel)
  obtain ⟨p, hp, hpid⟩ := Option.map_eq_some_iff.mp hrunning
  obtain ⟨z, zs, hz, hfirst, -⟩ := List.map_eq_cons_iff.mp hzombies
  obtain ⟨hconserves, hharvest⟩ := conserves_of_reach hk
  obtain ⟨k', hrun, hburied⟩ := hharvest z zs ⟨p, hp, hpid⟩ hz
  simp only [Prod.mk.injEq] at hfirst
  obtain ⟨hzpid, hstatus, htids⟩ := hfirst
  rw [hzpid, hstatus] at hrun
  exact ⟨k, k', z, hk, hreaped, hconserves, htids, hrun, hburied⟩

end Runs
end Nanvix.Pm
