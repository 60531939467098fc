import Nanvix.Pm.ConservedRuns

/-!
# Alarms

When the alarms of a time fire, every thread that sleeps with such an alarm should move
to the interrupted threads of its process, and all others should stay where they are.
The scheduler looks only at the processes that are asleep.
-/
namespace Nanvix.Pm
open Library Library.Prog

variable {now : Nat} {pm : ProcessManager}

/-- The threads of a process, each in its queue. -/
structure Queues where
  running : Option RunningThread
  ready : List ReadyThread
  sleeping : List SleepingThread
  interrupted : List InterruptedThread
  zombies : List ZombieThread
  deriving DecidableEq

namespace Queues

/-- The queues after the alarms of a time: the late threads go to the end of the interrupted ones. -/
def fire (now : Nat) (q : Queues) : Queues :=
  { q with
    sleeping := q.sleeping.filter fun t => !t.expired now
    interrupted := q.interrupted ++
      (q.sleeping.filter fun t => t.expired now).map (·.interrupt .timedOut) }

/-- No thread sleeps with an alarm that has passed. -/
def OnTime (now : Nat) (q : Queues) : Prop := ∀ t ∈ q.sleeping, t.expired now = false

theorem onTime_fire (q : Queues) : (q.fire now).OnTime now := by
  intro t ht
  have hpass := (List.mem_filter.mp ht).2
  exact Bool.not_eq_true' _ |>.mp hpass

theorem fire_of_onTime {q : Queues} (h : q.OnTime now) : q.fire now = q := by
  have hkept : (q.sleeping.filter fun t => !t.expired now) = q.sleeping := by
    apply List.filter_eq_self.mpr
    intro t ht
    rw [h t ht]
    rfl
  have hnone : (q.sleeping.filter fun t => t.expired now) = [] := by
    apply List.filter_eq_nil_iff.mpr
    intro t ht
    rw [h t ht]
    exact Bool.false_ne_true
  unfold fire
  rw [hkept, hnone, List.map_nil, List.append_nil]

end Queues

section Processes

def RunningProcess.queues (p : RunningProcess) : ProcessState × Queues :=
  (p.state, ⟨some p.running, p.ready, p.sleepingThreads, p.interruptedThreads, p.zombie⟩)

def RunnableProcess.queues (p : RunnableProcess) : ProcessState × Queues :=
  (p.state, ⟨none, p.readyThreads.toList, p.sleepingThreads, p.interruptedThreads, p.zombieThreads⟩)

def SleepingProcess.queues (p : SleepingProcess) : ProcessState × Queues :=
  (p.state, ⟨none, [], p.sleepingThreads.toList, [], p.zombieThreads⟩)

def InterruptedProcess.queues (p : InterruptedProcess) : ProcessState × Queues :=
  (p.state, ⟨none, [], p.sleepingThreads, p.interruptedThreads.toList, p.zombieThreads⟩)

def ZombieProcess.queues (p : ZombieProcess) : ProcessState × Queues :=
  (p.process, ⟨none, [], [], [], p.zombieThreads.toList⟩)

namespace ProcessManager

/-- The queues of the processes that do not sleep as a whole. -/
def otherQueues (pm : ProcessManager) : Multiset (ProcessState × Queues) :=
  pm.running.elim 0 (fun p => {p.queues}) + (pm.ready.map (·.queues) : Multiset (ProcessState × Queues)) +
    (pm.interrupted.map (·.queues) : Multiset (ProcessState × Queues)) +
      (pm.zombies.map (·.queues) : Multiset (ProcessState × Queues))

/-- The queues of all processes. -/
def queues (pm : ProcessManager) : Multiset (ProcessState × Queues) :=
  pm.otherQueues + (pm.suspended.map (·.queues) : Multiset (ProcessState × Queues))

end ProcessManager

/-- The alarms of a time have fired: the late threads moved and all others stayed, in their order. -/
structure AlarmsFired (now : Nat) (pm pm' : ProcessManager) : Prop where
  onTime : ∀ e ∈ pm'.queues, e.2.OnTime now
  moved : pm'.queues = pm.queues.map fun e => (e.1, e.2.fire now)

end Processes

section Scheduler

theorem SleepingProcess.wakeupAlarm_queues (p : SleepingProcess) (now : Nat) :
    (p.wakeupAlarm now).elim InterruptedProcess.queues SleepingProcess.queues =
      (p.queues.1, p.queues.2.fire now) := by
  unfold wakeupAlarm
  cases hlate : p.sleepingThreads.toList.filter fun t => t.expired now with
  | nil =>
    have hontime : p.queues.2.OnTime now := by
      intro t ht
      exact Bool.eq_false_iff.mpr (List.filter_eq_nil_iff.mp hlate t ht)
    rw [Queues.fire_of_onTime hontime]
    rfl
  | cons t ts =>
    have hmap : (p.queues.2.sleeping.filter fun t => t.expired now).map (·.interrupt .timedOut) =
        t.interrupt .timedOut :: ts.map (·.interrupt .timedOut) := by
      rw [show p.queues.2.sleeping = p.sleepingThreads.toList from rfl, hlate, List.map_cons]
    unfold Queues.fire
    rw [hmap]
    rfl

theorem splitAlarms_queues (now : Nat) (l : List SleepingProcess) :
    ((PM.splitAlarms now l).1.map (·.queues) : Multiset (ProcessState × Queues)) +
      ((PM.splitAlarms now l).2.map (·.queues) : Multiset (ProcessState × Queues)) =
        (l.map (·.queues) : Multiset (ProcessState × Queues)).map fun e => (e.1, e.2.fire now) := by
  induction l with
  | nil => rfl
  | cons p ps ih =>
    have hp := p.wakeupAlarm_queues now
    unfold PM.splitAlarms
    rw [List.map_cons, ← Multiset.cons_coe, Multiset.map_cons, ← ih]
    cases halarm : p.wakeupAlarm now with
    | inl q =>
      rw [halarm, Sum.elim_inl] at hp
      dsimp only
      rw [List.map_cons, ← Multiset.cons_coe, hp, Multiset.cons_add]
    | inr q =>
      rw [halarm, Sum.elim_inr] at hp
      dsimp only
      rw [List.map_cons, ← Multiset.cons_coe, hp, Multiset.add_cons]

/-- What the check of the alarms does to the queues: it leaves alone those it does not look at. -/
theorem checkAlarm_queues (now : Nat) (pm : ProcessManager) :
    ∃ pm', PM.checkAlarm now pm = .ok () pm' ∧ pm'.queues = pm.otherQueues +
      (pm.suspended.map (·.queues) : Multiset (ProcessState × Queues)).map
        fun e => (e.1, e.2.fire now) := by
  refine ⟨_, rfl, ?_⟩
  rw [← splitAlarms_queues]
  simp only [ProcessManager.queues, ProcessManager.otherQueues, List.map_append,
    ← Multiset.coe_add]
  abel

/-- The check of the alarms does its work if and only if no thread with a late alarm sleeps in a
process that is running, ready or interrupted. -/
theorem checkAlarm_fires_iff (now : Nat) (pm : ProcessManager) :
    ∃ pm', PM.checkAlarm now pm = .ok () pm' ∧
      (AlarmsFired now pm pm' ↔ ∀ e ∈ pm.otherQueues, e.2.OnTime now) := by
  obtain ⟨pm', hcheck, hqueues⟩ := checkAlarm_queues now pm
  refine ⟨pm', hcheck, ?_⟩
  constructor
  · intro hfired e he
    apply hfired.onTime e
    rw [hqueues]
    exact Multiset.mem_add.mpr (.inl he)
  · intro hontime
    have hother : pm.otherQueues.map (fun e => (e.1, e.2.fire now)) = pm.otherQueues := by
      conv_rhs => rw [← Multiset.map_id pm.otherQueues]
      apply Multiset.map_congr rfl
      intro e he
      rw [Queues.fire_of_onTime (hontime e he)]
      rfl
    have hmoved : pm'.queues = pm.queues.map fun e => (e.1, e.2.fire now) := by
      rw [hqueues, ProcessManager.queues, Multiset.map_add, hother]
    refine ⟨?_, hmoved⟩
    intro e he
    rw [hmoved] at he
    obtain ⟨e', -, rfl⟩ := Multiset.mem_map.mp he
    exact Queues.onTime_fire e'.2

/-- A thread whose process has another thread that is ready sleeps past its alarm. -/
theorem checkAlarm_skips_ready_process : ∃ k pm', (kernelMachine []).Reach (fun _ _ => True)
    (.boot (.boot 128) 0 false) k ∧ PM.checkAlarm k.now k.pm = .ok () pm' ∧
      ¬ AlarmsFired k.now k.pm pm' := by
  obtain ⟨k, hk, p, hp, t, ht, hexpired⟩ := (kernelMachine []).exists_reach
    (.boot (.boot 128) 0 false)
    [.memory .newVmem, .createProcess 0 (.ok ()), .giveup, .createThread (.ok ()), .sleep 3,
      .tick 10]
    (fun k => ∃ p ∈ k.pm.ready, ∃ t ∈ p.sleepingThreads, t.expired k.now = true) (by decide +kernel)
  obtain ⟨pm', hcheck, hqueues⟩ := checkAlarm_queues k.now k.pm
  refine ⟨k, pm', hk, hcheck, fun hfired => ?_⟩
  have hmem : p.queues ∈ pm'.queues := by
    rw [hqueues]
    refine Multiset.mem_add.mpr (.inl (Multiset.mem_add.mpr (.inl (Multiset.mem_add.mpr (.inl ?_)))))
    exact Multiset.mem_add.mpr (.inr (List.mem_map_of_mem hp))
  rw [hfired.onTime _ hmem t ht] at hexpired
  cases hexpired

end Scheduler
end Nanvix.Pm
