import Nanvix.Library.Endings
import Nanvix.Pm.Roster

/-!
# What the routines of the process manager do to the roster

The roster of the manager gathers the rows of all processes, its standings the states
of the processes, and its books what the scheduler keeps of these states. Every routine that moves processes
between the collections is described once: which moves it may make, and what it
leaves alone.
-/
namespace Nanvix.Pm
open Library Library.Prog PM ProcessManager

namespace ProcessManager

/-- The rows of all threads, those that wait for their deferred reaping included. -/
def rows (pm : ProcessManager) : Multiset Row :=
  pm.running.elim 0 (·.rows pm.interruptReason) + (pm.ready.map (·.rows)).sum +
    (pm.suspended.map (·.rows)).sum + (pm.interrupted.map (·.rows)).sum +
      (pm.zombies.map (·.rows)).sum + (pm.deferredReap.map fun e => e.2.deferredRow e.1 : Multiset Row)

/-- The standings of all processes. -/
def standings (pm : ProcessManager) : Multiset Standing :=
  pm.running.elim 0 (fun p => {p.standing}) + (pm.ready.map (·.standing) : Multiset Standing) +
    (pm.suspended.map (·.standing) : Multiset Standing) +
      (pm.interrupted.map (·.standing) : Multiset Standing) +
        (pm.zombies.map (·.standing) : Multiset Standing)

/-- What the scheduler keeps of the states of all processes. -/
def books (pm : ProcessManager) : Multiset ProcessState := pm.standings.map fun s => s.1.book

end ProcessManager

section Members

theorem mem_sum_map {α β : Type} {f : α → Multiset β} {l : List α} {b : β} :
    b ∈ (l.map f).sum ↔ ∃ a ∈ l, b ∈ f a := by
  induction l with
  | nil => simp
  | cons a l ih => simp [ih]

theorem ProcessManager.mem_rows {pm : ProcessManager} {r : Row} :
    r ∈ pm.rows ↔ (∃ p, pm.running = some p ∧ r ∈ p.rows pm.interruptReason) ∨
      (∃ p ∈ pm.ready, r ∈ p.rows) ∨ (∃ p ∈ pm.suspended, r ∈ p.rows) ∨
        (∃ p ∈ pm.interrupted, r ∈ p.rows) ∨ (∃ p ∈ pm.zombies, r ∈ p.rows) ∨
          ∃ e ∈ pm.deferredReap, e.2.deferredRow e.1 = r := by
  have hrunning : r ∈ pm.running.elim 0 (·.rows pm.interruptReason) ↔
      ∃ p, pm.running = some p ∧ r ∈ p.rows pm.interruptReason := by
    cases pm.running with
    | none | some p => simp
  simp only [rows, Multiset.mem_add, mem_sum_map, Multiset.mem_coe, List.mem_map, hrunning, or_assoc]

end Members

/-- The rows moved as `ok` allows, processes at most died, and everything that is counted stayed. -/
structure Moved (now : Nat) (ok : Kind → Row → Prop) (pm pm' : ProcessManager) : Prop where
  rows : Evolves (Step now ok) pm.rows pm'.rows
  standings : Evolves Buries pm.standings pm'.standings
  tm : pm'.tm = pm.tm
  nextPid : pm'.nextPid = pm.nextPid
  liveCount : pm'.liveCount = pm.liveCount
  buffered : pm'.numberBufferedMessages = pm.numberBufferedMessages

variable {now : Nat} {ok ok' : Kind → Row → Prop} {pm pm' pm'' : ProcessManager}

namespace Moved

protected theorem trans (h : Moved now ok pm pm') (h' : Moved now ok pm' pm'') :
    Moved now ok pm pm'' :=
  ⟨h.rows.trans h'.rows, h.standings.trans h'.standings, h'.tm.trans h.tm,
    h'.nextPid.trans h.nextPid, h'.liveCount.trans h.liveCount, h'.buffered.trans h.buffered⟩

theorem books (h : Moved now ok pm pm') : pm'.books = pm.books :=
  (h.standings.map_eq fun _ _ hbury => hbury.book_eq).symm

/-- A row that none of the moves changes stays. -/
theorem mem_of_stuck (h : Moved now ok pm pm') {r : Row} (hr : r ∈ pm.rows)
    (hstuck : ∀ k, ok k r → ∀ b, ¬ Move now k r b) : r ∈ pm'.rows :=
  h.rows.mem_of_stuck hr fun b ⟨k, hk, hmove⟩ => hstuck k hk b hmove

end Moved

section Slot
variable {p : RunningProcess} {E : Error → ProcessManager → Prop} {A : String → Prop}
variable (h : pm.running = some p)
include h

variable {Q : RunningProcess → ProcessManager → Prop}

theorem ends_takeRunning : ends takeRunning Q E A pm ↔ Q p { pm with running := none } := by
  unfold takeRunning
  simp only [ends_bind, ends_gets, h, ends_modify, ends_pure]

theorem ends_getRunning : ends getRunning Q E A pm ↔ Q p pm := by
  unfold getRunning
  simp only [ends_bind, ends_gets, h, ends_pure]

theorem rows_of_running :
    pm.rows = p.rows pm.interruptReason + ({ pm with running := none } : ProcessManager).rows := by
  simp only [rows, h, Option.elim_some, Option.elim_none]
  abel

theorem standings_of_running :
    pm.standings = {p.standing} + ({ pm with running := none } : ProcessManager).standings := by
  simp only [standings, h, Option.elim_some, Option.elim_none]
  abel

end Slot

variable {q : ZombieProcess} {a b : Standing}

section Splitting
variable {α : Type} {l rest : List α} {x : α}

theorem sum_of_perm (h : l.Perm (x :: rest)) (f : α → Multiset Row) :
    (l.map f).sum = f x + (rest.map f).sum :=
  (h.map f).sum_eq.trans List.sum_cons

theorem coe_of_perm (h : l.Perm (x :: rest)) (f : α → Standing) :
    (l.map f : Multiset Standing) = {f x} + (rest.map f : Multiset Standing) :=
  Multiset.coe_eq_coe.mpr (h.map f)

/-- The manager consists of one process, with its rows and its standing, and of what is left. -/
structure Splits (pm : ProcessManager) (rows : Multiset Row) (standing : Standing)
    (rest : ProcessManager) : Prop where
  rows : pm.rows = rows + rest.rows
  standings : pm.standings = {standing} + rest.standings
  tm : pm.tm = rest.tm
  nextPid : pm.nextPid = rest.nextPid
  liveCount : pm.liveCount = rest.liveCount
  buffered : pm.numberBufferedMessages = rest.numberBufferedMessages

theorem splits_running {p : RunningProcess} (h : pm.running = some p) :
    Splits pm (p.rows pm.interruptReason) p.standing { pm with running := none } :=
  ⟨rows_of_running h, standings_of_running h, rfl, rfl, rfl, rfl⟩

theorem splits_ready {q : RunnableProcess} {rest : List RunnableProcess}
    (h : pm.ready.Perm (q :: rest)) : Splits pm q.rows q.standing { pm with ready := rest } := by
  refine ⟨?_, ?_, rfl, rfl, rfl, rfl⟩
  · simp only [rows, sum_of_perm h]
    abel
  · simp only [standings, coe_of_perm h]
    abel

theorem splits_suspended {q : SleepingProcess} {rest : List SleepingProcess}
    (h : pm.suspended.Perm (q :: rest)) :
    Splits pm q.rows q.standing { pm with suspended := rest } := by
  refine ⟨?_, ?_, rfl, rfl, rfl, rfl⟩
  · simp only [rows, sum_of_perm h]
    abel
  · simp only [standings, coe_of_perm h]
    abel

theorem splits_interrupted {q : InterruptedProcess} {rest : List InterruptedProcess}
    (h : pm.interrupted.Perm (q :: rest)) :
    Splits pm q.rows q.standing { pm with interrupted := rest } := by
  refine ⟨?_, ?_, rfl, rfl, rfl, rfl⟩
  · simp only [rows, sum_of_perm h]
    abel
  · simp only [standings, coe_of_perm h]
    abel

theorem splits_zombies {rest : List ZombieProcess}
    (h : pm.zombies.Perm (q :: rest)) : Splits pm q.rows q.standing { pm with zombies := rest } := by
  refine ⟨?_, ?_, rfl, rfl, rfl, rfl⟩
  · simp only [rows, sum_of_perm h]
    abel
  · simp only [standings, coe_of_perm h]
    abel

theorem splits_pushReady (pm : ProcessManager) (q : RunnableProcess) :
    Splits { pm with ready := pm.ready ++ [q] } q.rows q.standing pm :=
  splits_ready (List.perm_append_singleton q pm.ready)

theorem splits_pushSuspended (pm : ProcessManager) (q : SleepingProcess) :
    Splits { pm with suspended := pm.suspended ++ [q] } q.rows q.standing pm :=
  splits_suspended (List.perm_append_singleton q pm.suspended)

theorem splits_pushInterrupted (pm : ProcessManager) (q : InterruptedProcess) :
    Splits { pm with interrupted := pm.interrupted ++ [q] } q.rows q.standing pm :=
  splits_interrupted (List.perm_append_singleton q pm.interrupted)

theorem splits_pushZombie (pm : ProcessManager) (q : ZombieProcess) :
    Splits { pm with zombies := pm.zombies ++ [q] } q.rows q.standing pm :=
  splits_zombies (List.perm_append_singleton q pm.zombies)

/-- One process moves on and what is left stays. -/
theorem Splits.moved {X Y : Multiset Row} {rest : ProcessManager}
    (h : Splits pm X a rest) (h' : Splits pm' Y b rest) (hrows : Evolves (Step now ok) X Y)
    (hstanding : Evolves Buries {a} {b}) : Moved now ok pm pm' :=
  ⟨hrows.beside _ h.rows h'.rows, hstanding.beside _ h.standings h'.standings, h'.tm.trans h.tm.symm,
    h'.nextPid.trans h.nextPid.symm, h'.liveCount.trans h.liveCount.symm,
    h'.buffered.trans h.buffered.symm⟩

theorem Splits.mem {X : Multiset Row} {a : Standing} {rest : ProcessManager} {r : Row}
    (h : Splits pm X a rest) (hr : r ∈ X) : r ∈ pm.rows := by
  rw [h.rows]
  exact Multiset.mem_add.mpr (.inl hr)

end Splitting

section Switch
variable {E : Error → ProcessManager → Prop} {A : String → Prop}

theorem ends_runNext {Q : Unit → ProcessManager → Prop}
    (hA : A "there should always be a process ready to run")
    (hQ : ∀ next rest, pm.ready.Perm (next :: rest) → Q () { pm with
      ready := rest, interruptReason := next.run.2, running := some next.run.1 }) :
    ends runNext Q E A pm := by
  unfold runNext takeEarliestReady
  simp only [ends_bind, ends_gets]
  cases hready : pm.ready with
  | nil => simpa only [ends_abort] using hA
  | cons p ps =>
    have hperm := perm_removeMin (·.earliestAdmissionTime) p ps
    rw [← hready] at hperm
    simp only [ends_bind, ends_modify, ends_pure]
    exact hQ _ _ hperm

/-- The next process to run moves from the ready ones into the empty slot. -/
theorem runNext_moved (hnone : pm.running = none) {next : RunnableProcess}
    {rest : List RunnableProcess} (hperm : pm.ready.Perm (next :: rest))
    (hok : ∀ r, ok .dispatch r) :
    Moved now ok pm { pm with
      ready := rest, interruptReason := next.run.2, running := some next.run.1 } := by
  have hout : Splits pm next.rows next.standing { pm with ready := rest } := splits_ready hperm
  refine hout.moved ⟨?_, ?_, rfl, rfl, rfl, rfl⟩ (next.run_evolves hok) (.refl _)
  · simp only [rows, hnone, Option.elim_none, Option.elim_some]
    abel
  · simp only [standings, hnone, Option.elim_none, Option.elim_some]
    rfl

/-- A ready process was put into the empty slot; the other collections stayed. -/
structure Dispatched (pm pm' : ProcessManager) : Prop where
  running : pm'.running.isSome
  interrupted : pm'.interrupted = pm.interrupted
  zombies : pm'.zombies = pm.zombies
  deferredReap : pm'.deferredReap = pm.deferredReap
  rows : ∀ r ∈ pm.rows, (∀ t, r.phase ≠ .ready t) → r ∈ pm'.rows

/-- The last part of a switch, after the moves of its first part. -/
theorem ends_switch {Q : Unit → ProcessManager → Prop} (hmoved : Moved now ok pm pm')
    (hnone : pm'.running = none) (hok : ∀ r, ok .dispatch r) (hA : ∀ m, m ≠ slotEmpty → A m)
    (hQ : ∀ pm'', Moved now ok pm pm'' → Dispatched pm' pm'' → Q () pm'') :
    ends runNext Q E A pm' := by
  refine ends_runNext (hA _ (by decide)) fun next rest hperm => ?_
  refine hQ _ (hmoved.trans (runNext_moved hnone hperm hok)) ⟨rfl, rfl, rfl, rfl, ?_⟩
  intro r hr hphase
  have hrun : Moved now (fun k _ => k = .dispatch) pm' { pm' with
      ready := rest, interruptReason := next.run.2, running := some next.run.1 } :=
    runNext_moved hnone hperm fun _ => rfl
  refine hrun.mem_of_stuck hr ?_
  rintro k rfl b ⟨⟩
  exact hphase _ rfl

end Switch

section Alarms

/-- The moves that scheduling alone makes. -/
def Quiet (k : Kind) (_ : Row) : Prop := k = .preempt ∨ k = .dispatch ∨ k = .expire ∨ k = .resume

theorem splitAlarms_evolves (hok : ∀ r, ok .expire r) (l : List SleepingProcess) :
    Evolves (Step now ok) (l.map (·.rows)).sum
      (((splitAlarms now l).1.map (·.rows)).sum + ((splitAlarms now l).2.map (·.rows)).sum) := by
  induction l with
  | nil => exact .refl _
  | cons p ps ih =>
    have hp : Evolves (Step now ok) p.rows
        ((p.wakeupAlarm now).elim InterruptedProcess.rows SleepingProcess.rows) :=
      p.wakeupAlarm_evolves hok
    unfold splitAlarms
    rw [List.map_cons, List.sum_cons]
    cases halarm : p.wakeupAlarm now with
    | inl q =>
      rw [halarm] at hp
      dsimp only
      rw [List.map_cons, List.sum_cons, add_assoc]
      exact hp.add ih
    | inr q =>
      rw [halarm] at hp
      dsimp only
      rw [List.map_cons, List.sum_cons, add_left_comm]
      exact hp.add ih

theorem splitAlarms_standings (now : Nat) (l : List SleepingProcess) :
    ((splitAlarms now l).1.map (·.standing) : Multiset Standing) +
      ((splitAlarms now l).2.map (·.standing) : Multiset Standing) =
        (l.map (·.standing) : Multiset Standing) := by
  induction l with
  | nil => rfl
  | cons p ps ih =>
    have hp : (p.wakeupAlarm now).elim InterruptedProcess.standing SleepingProcess.standing =
        p.standing := p.wakeupAlarm_standing
    unfold splitAlarms
    cases halarm : p.wakeupAlarm now with
    | inl q =>
      rw [halarm, Sum.elim_inl] at hp
      dsimp only
      rw [List.map_cons, List.map_cons, ← Multiset.cons_coe, ← Multiset.cons_coe, hp, ← ih,
        Multiset.cons_add]
    | inr q =>
      rw [halarm, Sum.elim_inr] at hp
      dsimp only
      rw [List.map_cons, List.map_cons, ← Multiset.cons_coe, ← Multiset.cons_coe, hp, ← ih,
        Multiset.add_cons]

theorem checkAlarm_moved (hok : ∀ r, ok .expire r) (pm : ProcessManager) :
    Moved now ok pm { pm with
      interrupted := pm.interrupted ++ (splitAlarms now pm.suspended).1,
      suspended := (splitAlarms now pm.suspended).2 } := by
  refine ⟨(splitAlarms_evolves hok pm.suspended).beside
    ({ pm with suspended := [] } : ProcessManager).rows ?_ ?_, .of_eq ?_, rfl, rfl, rfl, rfl⟩
  · simp only [rows, List.map_nil, List.sum_nil]
    abel
  · simp only [rows, List.map_append, List.sum_append, List.map_nil, List.sum_nil]
    abel
  · simp only [standings, List.map_append, ← Multiset.coe_add,
      ← splitAlarms_standings now pm.suspended]
    abel

theorem resumeAll_moved (hok : ∀ r, ok .resume r) (pm : ProcessManager) :
    Moved now ok pm { pm with
      ready := pm.ready ++ pm.interrupted.map (·.resume now), interrupted := [] } := by
  have hsum : Evolves (Step now ok) (pm.interrupted.map (·.rows)).sum
      (pm.interrupted.map fun p => (p.resume now).rows).sum :=
    .sum fun p _ => p.resume_evolves hok
  refine ⟨hsum.beside ({ pm with interrupted := [] } : ProcessManager).rows ?_ ?_,
    .of_eq ?_, rfl, rfl, rfl, rfl⟩
  · simp only [rows, List.map_nil, List.sum_nil]
    abel
  · simp only [rows, List.map_append, List.sum_append, List.map_nil, List.sum_nil,
      List.map_map, Function.comp_def]
    abel
  · have hsame : (fun p : InterruptedProcess => (p.resume now).standing) = (·.standing) := rfl
    simp only [standings, List.map_append, ← Multiset.coe_add, List.map_map,
      Function.comp_def, List.map_nil, Multiset.coe_nil, hsame]
    abel

end Alarms

section Specs
variable {p : RunningProcess} {E : Error → ProcessManager → Prop} {A : String → Prop}

/-- Scheduling kills no thread and leaves no process interrupted. -/
theorem schedule_spec (h : pm.running = some p) (hA : ∀ m, m ≠ slotEmpty → A m) :
    ends (schedule now) (fun _ pm' => Moved now Quiet pm pm' ∧ pm'.running.isSome ∧
      pm'.interrupted = [] ∧ pm'.zombies = pm.zombies ∧ pm'.deferredReap = pm.deferredReap)
      E A pm := by
  have hpreempt : Moved now Quiet pm { pm with
      running := none, ready := pm.ready ++ [p.schedule now] } :=
    (splits_running h).moved (splits_pushReady { pm with running := none } _)
      (p.schedule_evolves _ fun _ => .inl rfl) (.refl _)
  have halarm := hpreempt.trans (checkAlarm_moved (fun _ => .inr (.inr (.inl rfl))) _)
  have hresume := halarm.trans (resumeAll_moved (fun _ => .inr (.inr (.inr rfl))) _)
  unfold schedule checkAlarm
  simp only [ends_bind, ends_takeRunning h, ends_modify]
  refine ends_switch hresume rfl (fun _ => .inr (.inl rfl)) hA fun pm' hmoved hnext => ?_
  exact ⟨hmoved, hnext.running, hnext.interrupted, hnext.zombies, hnext.deferredReap⟩

/-- The moves of a thread that goes to sleep: its own, and those that let another one run. -/
def Sleeps (tid : Nat) (alarm : Option Nat) (k : Kind) (r : Row) : Prop :=
  (k = .sleep alarm ∧ r.tid = tid) ∨ k = .dispatch ∨ k = .resume

/-- The running thread sleeps with its alarm, and another one runs. -/
theorem doSleep_spec (h : pm.running = some p) (alarm : Option Nat)
    (hA : ∀ m, m ≠ slotEmpty → A m) :
    ends (doSleep alarm now) (fun _ pm' => Moved now (Sleeps p.running.state.id alarm) pm pm' ∧
      pm'.running.isSome ∧ pm'.interrupted = pm.interrupted ∧ pm'.zombies = pm.zombies ∧
        pm'.deferredReap = pm.deferredReap ∧
          (p.running.sleep alarm).row p.state.pid ∈ pm'.rows) E A pm := by
  have hevolves : Evolves (Step now (Sleeps p.running.state.id alarm)) (p.rows pm.interruptReason)
      ((p.sleep alarm now).elim RunnableProcess.rows SleepingProcess.rows) :=
    p.sleep_evolves _ alarm (.inl ⟨rfl, rfl⟩) fun _ => .inr (.inr rfl)
  have hmem : (p.running.sleep alarm).row p.state.pid ∈
      (p.sleep alarm now).elim RunnableProcess.rows SleepingProcess.rows := p.sleep_mem alarm
  have hstate : (p.sleep alarm now).elim RunnableProcess.standing SleepingProcess.standing =
      p.standing := p.sleep_standing alarm
  unfold doSleep
  simp only [ends_bind, ends_takeRunning h, ends_ite]
  split_ifs with hpid
  · exact (ends_abort _).mpr (hA _ (by decide))
  cases hsleep : p.sleep alarm now with
  | inl q =>
    rw [hsleep, Sum.elim_inl] at hevolves hmem hstate
    have hsplit := splits_pushReady { pm with running := none } q
    rw [hstate] at hsplit
    simp only [Sum.elim_inl, pushReady, ends_modify]
    refine ends_switch ((splits_running h).moved hsplit hevolves (.refl _)) rfl
      (fun _ => .inr (.inl rfl)) hA fun pm' hmoved hnext => ?_
    exact ⟨hmoved, hnext.running, hnext.interrupted, hnext.zombies, hnext.deferredReap,
      hnext.rows _ (hsplit.mem hmem) (by rintro _ ⟨⟩)⟩
  | inr q =>
    rw [hsleep, Sum.elim_inr] at hevolves hmem hstate
    have hsplit := splits_pushSuspended { pm with running := none } q
    rw [hstate] at hsplit
    simp only [Sum.elim_inr, pushSuspended, ends_modify]
    refine ends_switch ((splits_running h).moved hsplit hevolves (.refl _)) rfl
      (fun _ => .inr (.inl rfl)) hA fun pm' hmoved hnext => ?_
    exact ⟨hmoved, hnext.running, hnext.interrupted, hnext.zombies, hnext.deferredReap,
      hnext.rows _ (hsplit.mem hmem) (by rintro _ ⟨⟩)⟩

/-- A process keeps its identifier when it dies. -/
theorem pid_eq_of_buries (h : Evolves Buries {a} {b}) : b.1.pid = a.1.pid := by
  have hbook := h.map_eq fun _ _ hbury => hbury.book_eq
  rw [Multiset.map_singleton, Multiset.map_singleton, Multiset.singleton_inj] at hbook
  exact (ProcessState.pid_eq_of_book hbook).symm

/-- The moves of a process that exits: its own threads end, and another one runs. -/
def Exits (pid tid : Nat) (k : Kind) (r : Row) : Prop :=
  (k = .exit ∧ r.tid = tid) ∨ ((k = .terminate ∨ k = .kill) ∧ r.pid = pid) ∨ k = .dispatch ∨
    k = .resume

/-- At most one zombie was added, of the given process. -/
def ZombiesGrew (pid : Nat) (pm pm' : ProcessManager) : Prop :=
  pm'.zombies = pm.zombies ∨ ∃ z, pm'.zombies = pm.zombies ++ [z] ∧ z.process.pid = pid

/-- The running process is put back with the status of its exit pending. -/
def ProcessManager.withPending (pm : ProcessManager) (p : RunningProcess) (status : ExitStatus) :
    ProcessManager := { pm with running := some (p.withPending status) }

/-- Only threads of the process that exits end, and another one runs. -/
theorem exitProcess_spec (p : RunningProcess) (pm : ProcessManager) (status : ExitStatus)
    (hA : ∀ m, m ≠ slotEmpty → A m) :
    ends (exitProcess p status now) (fun _ pm' =>
      Moved now (Exits p.state.pid p.running.state.id) (pm.withPending p status) pm' ∧
        pm'.running.isSome ∧ pm'.interrupted = pm.interrupted ∧
          pm'.deferredReap = pm.deferredReap ∧ ZombiesGrew p.state.pid pm pm')
      E A { pm with running := none } := by
  have h : (pm.withPending p status).running = some (p.withPending status) := rfl
  have hevolves : Evolves (Step now (Exits p.state.pid p.running.state.id))
      ((p.withPending status).rows pm.interruptReason)
        ((p.exit status now).elim RunnableProcess.rows ZombieProcess.rows) := by
    rw [RunningProcess.rows_withPending]
    exact p.exit_evolves _ status (.inl ⟨rfl, rfl⟩) (fun _ hpid => .inr (.inl ⟨.inl rfl, hpid⟩))
      (fun _ hpid => .inr (.inl ⟨.inr rfl, hpid⟩)) fun _ => .inr (.inr (.inr rfl))
  have hstanding : Evolves Buries {(p.withPending status).standing}
      {(p.exit status now).elim RunnableProcess.standing ZombieProcess.standing} :=
    p.exit_standing status
  unfold exitProcess
  simp only [ends_bind]
  cases hexit : p.exit status now with
  | inl q =>
    rw [hexit, Sum.elim_inl] at hevolves hstanding
    simp only [Sum.elim_inl, pushReady, ends_modify]
    refine ends_switch ((splits_running h).moved (splits_pushReady { pm with running := none } q)
      hevolves hstanding) rfl (fun _ => .inr (.inr (.inl rfl))) hA fun pm' hmoved hnext => ?_
    exact ⟨hmoved, hnext.running, hnext.interrupted, hnext.deferredReap, .inl hnext.zombies⟩
  | inr q =>
    rw [hexit, Sum.elim_inr] at hevolves hstanding
    simp only [Sum.elim_inr, pushZombie, ends_modify]
    refine ends_switch ((splits_running h).moved (splits_pushZombie { pm with running := none } q)
      hevolves hstanding) rfl (fun _ => .inr (.inr (.inl rfl))) hA fun pm' hmoved hnext => ?_
    exact ⟨hmoved, hnext.running, hnext.interrupted, hnext.deferredReap,
      .inr ⟨q, hnext.zombies, (pid_eq_of_buries hstanding).trans (by
        exact ProcessState.pid_setPendingExitStatus _ _)⟩⟩

/-- The moves of a thread that exits: its own, and those that let another one run. -/
def Leaves (tid : Nat) (k : Kind) (r : Row) : Prop :=
  ((k = .exit ∨ k = .retire) ∧ r.tid = tid) ∨ k = .dispatch ∨ k = .resume

/-- What an exiting thread leaves to be reaped: a zombie, or a deferred thread of a live process. -/
def Left (pid : Nat) (pm pm' : ProcessManager) : Prop :=
  (pm'.deferredReap = pm.deferredReap ∧ ZombiesGrew pid pm pm') ∨
    ∃ dead, pm'.deferredReap = pm.deferredReap ++ [(pid, dead)] ∧ pm'.zombies = pm.zombies

/-- A process of which a detached thread is handed back lives on. -/
theorem RunningProcess.exitThread_deferred {status : ExitStatus}
    (h : (p.exitThread status now).1 = .zombie q) : (p.exitThread status now).2 = none := by
  unfold exitThread at h ⊢
  dsimp only at h ⊢
  split at h <;> try cases h
  next hready hinterrupted hsleeping =>
    rw [hready, hinterrupted, hsleeping]
    simp only [List.isEmpty_nil, Bool.not_true, Bool.or_self, Bool.and_false, Bool.false_eq_true,
      ↓reduceIte]

/-- The process of the exiting thread and the thread it hands back are put away. -/
theorem exitThread_placed {status : ExitStatus} {q : RunningProcess.AfterExit} {X : ProcessManager}
    (h : pm.running = some p) (hq : (p.exitThread status now).1 = q)
    (hsplit : Splits X q.rows q.standing { pm with running := none }) :
    Moved now (Leaves p.running.state.id) pm { X with
      deferredReap := X.deferredReap ++
        (p.exitThread status now).2.toList.map fun dead => (p.state.pid, dead) } := by
  have hevolves : Evolves (Step now (Leaves p.running.state.id)) (p.rows pm.interruptReason)
      ((p.exitThread status now).1.rows +
        ((p.exitThread status now).2.toList.map (·.deferredRow p.state.pid) : Multiset Row)) :=
    p.exitThread_evolves _ status (.inl ⟨.inl rfl, rfl⟩) (.inl ⟨.inr rfl, rfl⟩)
      fun _ => .inr (.inr rfl)
  subst hq
  refine (splits_running h).moved ⟨?_, hsplit.standings, hsplit.tm, hsplit.nextPid,
    hsplit.liveCount, hsplit.buffered⟩ hevolves (p.exitThread_standing status)
  rw [add_right_comm, ← hsplit.rows]
  simp only [rows, List.map_append, List.map_map, Function.comp_def,
    ← Multiset.coe_add]
  abel

/-- Only the running thread ends, and another one runs. -/
theorem doExitThread_spec (h : pm.running = some p) (status : ExitStatus)
    (hA : ∀ m, m ≠ slotEmpty → A m) :
    ends (doExitThread status now) (fun tid pm' => tid = p.running.state.id ∧
      Moved now (Leaves p.running.state.id) pm pm' ∧ pm'.running.isSome ∧
        pm'.interrupted = pm.interrupted ∧ Left p.state.pid pm pm') E A pm := by
  unfold doExitThread
  simp only [ends_bind, ends_takeRunning h, ends_ite]
  split_ifs with hpid
  · exact (ends_abort _).mpr (hA _ (by decide))
  have hstanding : Evolves Buries {p.standing} {(p.exitThread status now).1.standing} :=
    p.exitThread_standing status
  -- A detached thread is handed back by a process that lives on.
  have hleft : ∀ {pm₁ pm₂ : ProcessManager}, Dispatched pm₁ pm₂ → pm₁.zombies = pm.zombies →
      pm₁.deferredReap = pm.deferredReap ++
        (p.exitThread status now).2.toList.map (fun dead => (p.state.pid, dead)) →
      Left p.state.pid pm pm₂ := by
    intro pm₁ pm₂ hnext hzombies hdeferred
    cases hdead : (p.exitThread status now).2 with
    | none =>
      rw [hdead, Option.toList_none, List.map_nil, List.append_nil] at hdeferred
      exact .inl ⟨hnext.deferredReap.trans hdeferred, .inl (hnext.zombies.trans hzombies)⟩
    | some dead =>
      rw [hdead] at hdeferred
      exact .inr ⟨dead, hnext.deferredReap.trans hdeferred, hnext.zombies.trans hzombies⟩
  cases hafter : (p.exitThread status now).1 with
  | runnable q =>
    simp only [pushReady, ends_modify, ends_pure]
    refine ends_switch (exitThread_placed h hafter (splits_pushReady { pm with running := none } q)) rfl
      (fun _ => .inr (.inl rfl)) hA fun pm' hmoved hnext => ?_
    exact ⟨trivial, hmoved, hnext.running, hnext.interrupted, hleft hnext rfl rfl⟩
  | sleeping q =>
    simp only [pushSuspended, ends_modify, ends_pure]
    refine ends_switch
      (exitThread_placed h hafter (splits_pushSuspended { pm with running := none } q)) rfl
      (fun _ => .inr (.inl rfl)) hA fun pm' hmoved hnext => ?_
    exact ⟨trivial, hmoved, hnext.running, hnext.interrupted, hleft hnext rfl rfl⟩
  | zombie q =>
    rw [hafter] at hstanding
    simp only [pushZombie, ends_modify, ends_pure]
    refine ends_switch (exitThread_placed h hafter (splits_pushZombie { pm with running := none } q)) rfl
      (fun _ => .inr (.inl rfl)) hA fun pm' hmoved hnext => ?_
    refine ⟨trivial, hmoved, hnext.running, hnext.interrupted,
      .inl ⟨?_, .inr ⟨q, hnext.zombies, pid_eq_of_buries hstanding⟩⟩⟩
    rw [hnext.deferredReap, RunningProcess.exitThread_deferred hafter, Option.toList_none,
      List.map_nil, List.append_nil]

end Specs

end Nanvix.Pm
