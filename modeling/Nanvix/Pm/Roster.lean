import Mathlib.Tactic.Abel
import Nanvix.Library.Evolution
import Nanvix.Pm.Manager

/-!
# The roster of threads

The roster of a process, or of the whole manager, has one row for each thread: its
process, its state and the phase it is in. A transition of the scheduler moves rows
from phase to phase. The kinds of moves and what each does to a row are fixed here
once; a transition is described by the kinds it may use on which rows.

## Implementation notes

A row of the running thread shows the interrupt reason that the manager keeps for
it. A row of a thread that waits for its deferred reaping is `deferred`. The standing
of a process is its state, and its exit status once it is a zombie.
-/
namespace Nanvix.Pm
open Library Relation NonEmptyDeque

/-- What a thread does, with what its queue keeps about it. -/
inductive Phase where
  | running (reason : Option InterruptReason)
  | ready (admissionTime : Nat)
  | sleeping (alarm : Option Nat)
  | interrupted (reason : InterruptReason)
  | zombie (status : ExitStatus)
  | deferred (status : ExitStatus)
  deriving DecidableEq

/-- A thread in the list of all threads. -/
structure Row where
  pid : Nat
  state : ThreadState
  phase : Phase
  deriving DecidableEq

namespace Row

def tid (r : Row) : Nat := r.state.id

/-- What no move changes: the process, the identifier, the stacks and the guards. -/
def core (r : Row) : Nat × Nat × Bool × List (Nat × Nat) :=
  (r.pid, r.state.id, r.state.kernelStack && r.state.userStack, r.state.lockedMutexes)

end Row

/-- The moves of a row. -/
inductive Kind where
  | preempt
  | dispatch
  | sleep (alarm : Option Nat)
  | expire
  | kill
  | resume
  | wake
  | exit
  | retire
  | terminate

/-- What a move does to a row, at a time. -/
inductive Move (now : Nat) : Kind → Row → Row → Prop
  | preempt (p t r) : Move now .preempt ⟨p, t, .running r⟩ ⟨p, t, .ready now⟩
  | dispatch (p t a) :
      Move now .dispatch ⟨p, t, .ready a⟩ ⟨p, t.takeInterruptReason.1, .running t.interruptReason⟩
  | sleep (p t r alarm) : Move now (.sleep alarm) ⟨p, t, .running r⟩ ⟨p, t, .sleeping alarm⟩
  | expire (p t) {alarm : Nat} (h : alarm ≤ now) :
      Move now .expire ⟨p, t, .sleeping (some alarm)⟩ ⟨p, t, .interrupted .timedOut⟩
  | kill (p t a) : Move now .kill ⟨p, t, .sleeping a⟩ ⟨p, t, .interrupted .killed⟩
  | resume (p t r) :
      Move now .resume ⟨p, t, .interrupted r⟩ ⟨p, t.setInterruptReason r, .ready now⟩
  | wake (p t a) : Move now .wake ⟨p, t, .sleeping a⟩ ⟨p, t, .ready now⟩
  | exit (p t r status) : Move now .exit ⟨p, t, .running r⟩ ⟨p, t, .zombie status⟩
  | retire (p t r status) : Move now .retire ⟨p, t, .running r⟩ ⟨p, t, .deferred status⟩
  | terminate (p t a) : Move now .terminate ⟨p, t, .ready a⟩ ⟨p, t, .zombie (.error .interrupted)⟩

variable {now : Nat} {k : Kind} {a b : Row}

theorem Move.core_eq (h : Move now k a b) : a.core = b.core := by
  cases h <;> rfl

/-- A move of a kind that `ok` allows on the row. -/
def Step (now : Nat) (ok : Kind → Row → Prop) (a b : Row) : Prop := ∃ k, ok k a ∧ Move now k a b

theorem Step.core_eq {ok : Kind → Row → Prop} (h : Step now ok a b) : a.core = b.core := by
  obtain ⟨k, -, hk⟩ := h
  exact hk.core_eq

section Threads

def RunningThread.row (pid : Nat) (reason : Option InterruptReason) (t : RunningThread) : Row :=
  ⟨pid, t.state, .running reason⟩

def ReadyThread.row (pid : Nat) (t : ReadyThread) : Row := ⟨pid, t.state, .ready t.admissionTime⟩

def SleepingThread.row (pid : Nat) (t : SleepingThread) : Row := ⟨pid, t.state, .sleeping t.alarm⟩

def InterruptedThread.row (pid : Nat) (t : InterruptedThread) : Row :=
  ⟨pid, t.state, .interrupted t.reason⟩

def ZombieThread.row (pid : Nat) (t : ZombieThread) : Row := ⟨pid, t.state, .zombie t.status⟩

end Threads

section Processes

/-- The rows of the threads of a process, but for a running one. -/
def crew (pid : Nat) (ready : List ReadyThread) (interrupted : List InterruptedThread)
    (sleeping : List SleepingThread) (zombies : List ZombieThread) : Multiset Row :=
  (ready.map (·.row pid) : Multiset Row) + (interrupted.map (·.row pid) : Multiset Row) +
    (sleeping.map (·.row pid) : Multiset Row) + (zombies.map (·.row pid) : Multiset Row)

def RunningProcess.rows (p : RunningProcess) (reason : Option InterruptReason) : Multiset Row :=
  {p.running.row p.state.pid reason} +
    crew p.state.pid p.ready p.interruptedThreads p.sleepingThreads p.zombie

def RunnableProcess.rows (p : RunnableProcess) : Multiset Row :=
  crew p.state.pid p.readyThreads.toList p.interruptedThreads p.sleepingThreads p.zombieThreads

def SleepingProcess.rows (p : SleepingProcess) : Multiset Row :=
  crew p.state.pid [] [] p.sleepingThreads.toList p.zombieThreads

def InterruptedProcess.rows (p : InterruptedProcess) : Multiset Row :=
  crew p.state.pid [] p.interruptedThreads.toList p.sleepingThreads p.zombieThreads

def ZombieProcess.rows (p : ZombieProcess) : Multiset Row :=
  crew p.process.pid [] [] [] p.zombieThreads.toList

/-- The state of a process, and the exit status of a zombie. -/
abbrev Standing := ProcessState × Option ExitStatus

def RunningProcess.standing (p : RunningProcess) : Standing := (p.state, none)

def RunnableProcess.standing (p : RunnableProcess) : Standing := (p.state, none)

def SleepingProcess.standing (p : SleepingProcess) : Standing := (p.state, none)

def InterruptedProcess.standing (p : InterruptedProcess) : Standing := (p.state, none)

def ZombieProcess.standing (p : ZombieProcess) : Standing := (p.process, some p.status)

/-- A process becomes a zombie: its pending status counts, or else one that is at hand. -/
inductive Buries : Standing → Standing → Prop
  | bury (p : ProcessState) (status : ExitStatus) :
      Buries (p, none) (p.takePendingExitStatus.1, some (p.takePendingExitStatus.2.getD status))

/-- What the scheduler keeps of the state of a process. -/
def ProcessState.book (p : ProcessState) : ProcessState := { p with pendingExitStatus := none }

@[simp] theorem ProcessState.pid_book (p : ProcessState) : p.book.pid = p.pid := rfl

variable {p q : ProcessState}

theorem ProcessState.pid_eq_of_book (h : p.book = q.book) : p.pid = q.pid := by
  rw [← pid_book p, h, pid_book]

theorem ProcessState.mailbox_eq_of_book (h : p.book = q.book) : p.mailbox = q.mailbox :=
  show p.book.mailbox = q.book.mailbox from congrArg mailbox h

theorem ProcessState.events_eq_of_book (h : p.book = q.book) : p.events = q.events :=
  show p.book.events = q.book.events from congrArg events h

@[simp] theorem ProcessState.book_setPendingExitStatus (p : ProcessState) (status : ExitStatus) :
    (p.setPendingExitStatus status).book = p.book := by
  unfold setPendingExitStatus
  split <;> rfl

@[simp] theorem ProcessState.pid_setPendingExitStatus (p : ProcessState) (status : ExitStatus) :
    (p.setPendingExitStatus status).pid = p.pid := by
  rw [← pid_book, book_setPendingExitStatus, pid_book]

@[simp] theorem ProcessState.pid_takePendingExitStatus (p : ProcessState) :
    p.takePendingExitStatus.1.pid = p.pid := rfl

theorem Buries.book_eq {a b : Standing} (h : Buries a b) : a.1.book = b.1.book := by
  cases h
  rfl

end Processes

section Crew
variable {pid : Nat} {r r' : List ReadyThread} {i i' : List InterruptedThread}
variable {s s' : List SleepingThread} {z z' : List ZombieThread}

theorem mem_crew {x : Row} :
    x ∈ crew pid r i s z ↔ (∃ t ∈ r, t.row pid = x) ∨ (∃ t ∈ i, t.row pid = x) ∨
      (∃ t ∈ s, t.row pid = x) ∨ ∃ t ∈ z, t.row pid = x := by
  simp only [crew, Multiset.mem_add, Multiset.mem_coe, List.mem_map, or_assoc]

theorem crew_append_ready :
    crew pid (r ++ r') i s z = (r'.map (·.row pid) : Multiset Row) + crew pid r i s z := by
  simp only [crew, List.map_append, ← Multiset.coe_add]
  abel

theorem crew_append_interrupted :
    crew pid r (i ++ i') s z = (i'.map (·.row pid) : Multiset Row) + crew pid r i s z := by
  simp only [crew, List.map_append, ← Multiset.coe_add]
  abel

theorem crew_append_sleeping :
    crew pid r i (s ++ s') z = (s'.map (·.row pid) : Multiset Row) + crew pid r i s z := by
  simp only [crew, List.map_append, ← Multiset.coe_add]
  abel

theorem crew_append_zombies :
    crew pid r i s (z ++ z') = (z'.map (·.row pid) : Multiset Row) + crew pid r i s z := by
  simp only [crew, List.map_append, ← Multiset.coe_add]
  abel

theorem crew_cons_ready (t : ReadyThread) :
    crew pid (t :: r) i s z = {t.row pid} + crew pid r i s z := by
  simp only [crew, List.map_cons, ← Multiset.cons_coe, ← Multiset.singleton_add]
  abel

theorem crew_cons_interrupted (t : InterruptedThread) :
    crew pid r (t :: i) s z = {t.row pid} + crew pid r i s z := by
  simp only [crew, List.map_cons, ← Multiset.cons_coe, ← Multiset.singleton_add]
  abel

theorem crew_cons_sleeping (t : SleepingThread) :
    crew pid r i (t :: s) z = {t.row pid} + crew pid r i s z := by
  simp only [crew, List.map_cons, ← Multiset.cons_coe, ← Multiset.singleton_add]
  abel

theorem crew_cons_zombies (t : ZombieThread) :
    crew pid r i s (t :: z) = {t.row pid} + crew pid r i s z := by
  simp only [crew, List.map_cons, ← Multiset.cons_coe, ← Multiset.singleton_add]
  abel

theorem crew_perm_ready (h : r.Perm r') : crew pid r i s z = crew pid r' i s z := by
  simp only [crew, Multiset.coe_eq_coe.mpr (h.map (·.row pid))]

theorem crew_perm_sleeping (h : s.Perm s') : crew pid r i s z = crew pid r i s' z := by
  simp only [crew, Multiset.coe_eq_coe.mpr (h.map (·.row pid))]

theorem crew_perm_zombies (h : z.Perm z') : crew pid r i s z = crew pid r i s z' := by
  simp only [crew, Multiset.coe_eq_coe.mpr (h.map (·.row pid))]

end Crew

section Transitions
variable {ok : Kind → Row → Prop}

/-- One row takes a move and the others stay. -/
theorem evolves_one {k : Kind} {x y : Row} (rest : Multiset Row) (hok : ok k x)
    (hmove : Move now k x y) : Evolves (Step now ok) ({x} + rest) ({y} + rest) :=
  (Evolves.single ⟨k, hok, hmove⟩).add (.refl rest)

theorem InterruptedProcess.resume_evolves (p : InterruptedProcess) (hok : ∀ r, ok .resume r) :
    Evolves (Step now ok) p.rows (p.resume now).rows := by
  rw [show p.rows = _ from crew_cons_interrupted _,
    show (p.resume now).rows = _ from crew_cons_ready _]
  exact evolves_one _ (hok _) (.resume _ _ _)

theorem RunnableProcess.run_evolves (p : RunnableProcess) (hok : ∀ r, ok .dispatch r) :
    Evolves (Step now ok) p.rows (p.run.1.rows p.run.2) := by
  have hperm := perm_removeMin (·.admissionTime) p.readyThreads.head p.readyThreads.tail
  unfold rows run
  rw [show p.readyThreads.toList = p.readyThreads.head :: p.readyThreads.tail from rfl,
    crew_perm_ready hperm, crew_cons_ready]
  exact evolves_one _ (hok _) (.dispatch _ _ _)

theorem RunningProcess.schedule_evolves (p : RunningProcess) (reason : Option InterruptReason)
    (hok : ∀ r, ok .preempt r) :
    Evolves (Step now ok) (p.rows reason) (p.schedule now).rows := by
  unfold schedule RunnableProcess.rows
  rw [toList_ofPush, crew_append_ready]
  exact evolves_one _ (hok _) (.preempt _ _ _)

theorem RunningProcess.sleep_evolves (p : RunningProcess) (reason : Option InterruptReason)
    (alarm : Option Nat) (hsleep : ok (.sleep alarm) (p.running.row p.state.pid reason))
    (hresume : ∀ r, ok .resume r) :
    Evolves (Step now ok) (p.rows reason)
      ((p.sleep alarm now).elim RunnableProcess.rows SleepingProcess.rows) := by
  have hslept : Evolves (Step now ok) (p.rows reason) (crew p.state.pid p.ready
      p.interruptedThreads (ofPush p.sleepingThreads (p.running.sleep alarm)).toList p.zombie) := by
    rw [toList_ofPush, crew_append_sleeping]
    exact evolves_one _ hsleep (.sleep _ _ _ _)
  unfold sleep
  split
  next r rs hready =>
    rw [hready] at hslept
    exact hslept
  next i is hready hinterrupted =>
    -- The thread goes to sleep in an interrupted process, which is then resumed.
    rw [hready, hinterrupted] at hslept
    exact hslept.trans (InterruptedProcess.resume_evolves (.mk _ _ ⟨i, is⟩ _) hresume)
  next hready hinterrupted =>
    rw [hready, hinterrupted] at hslept
    exact hslept

variable {pid : Nat} {r : List ReadyThread} {i : List InterruptedThread} {s : List SleepingThread}
variable {z : List ZombieThread} {t : SleepingThread}

theorem mem_crew_sleeping (h : t ∈ s) : t.row pid ∈ crew pid r i s z := by
  unfold crew
  exact Multiset.mem_add.mpr (.inl (Multiset.mem_add.mpr (.inr (List.mem_map_of_mem h))))

/-- The thread that went to sleep is there. -/
theorem RunningProcess.sleep_mem (p : RunningProcess) (alarm : Option Nat) :
    (p.running.sleep alarm).row p.state.pid ∈
      (p.sleep alarm now).elim RunnableProcess.rows SleepingProcess.rows := by
  have hmem : p.running.sleep alarm ∈
      (ofPush p.sleepingThreads (p.running.sleep alarm)).toList := by
    rw [toList_ofPush]
    exact List.mem_append_right _ (List.mem_singleton_self _)
  unfold sleep
  split
  · exact mem_crew_sleeping hmem
  · exact mem_crew_sleeping hmem
  · exact mem_crew_sleeping hmem

/-- The end of a process: its ready threads die and its sleeping threads are killed. -/
theorem crew_evolves (hterminate : ∀ t ∈ r, ok .terminate (t.row pid))
    (hkill : ∀ x : Row, x.pid = pid → ok .kill x) :
    Evolves (Step now ok) (crew pid r i s z)
      (crew pid [] (i ++ killed s) [] (z ++ r.map (·.terminate))) := by
  have hready : Evolves (Step now ok) (r.map (·.row pid) : Multiset Row)
      (r.map (fun t => t.terminate.row pid) : Multiset Row) :=
    .map fun t ht => ⟨.terminate, hterminate t ht, .terminate _ _ _⟩
  have hsleeping : Evolves (Step now ok) (s.map (·.row pid) : Multiset Row)
      (s.map (fun t => (t.interrupt .killed).row pid) : Multiset Row) :=
    .map fun t _ => ⟨.kill, hkill _ rfl, .kill _ _ _⟩
  have hcrew : crew pid [] (i ++ killed s) [] (z ++ r.map (·.terminate)) =
      (r.map (fun t => t.terminate.row pid) : Multiset Row) + (i.map (·.row pid) : Multiset Row) +
        (s.map (fun t => (t.interrupt .killed).row pid) : Multiset Row) +
          (z.map (·.row pid) : Multiset Row) := by
    rw [crew_append_interrupted, crew_append_zombies]
    simp only [crew, killed, List.map_map, Function.comp_def, List.map_nil, Multiset.coe_nil]
    abel
  rw [hcrew]
  exact ((hready.add (.refl _)).add hsleeping).add (.refl _)

theorem RunningProcess.exit_evolves (p : RunningProcess) (reason : Option InterruptReason)
    (status : ExitStatus) (hexit : ok .exit (p.running.row p.state.pid reason))
    (hterminate : ∀ x : Row, x.pid = p.state.pid → ok .terminate x)
    (hkill : ∀ x : Row, x.pid = p.state.pid → ok .kill x) (hresume : ∀ r, ok .resume r) :
    Evolves (Step now ok) (p.rows reason)
      ((p.exit status now).elim RunnableProcess.rows ZombieProcess.rows) := by
  have hzombies : ((ofPush p.zombie (p.running.exit status)).append
      (p.ready.map (·.terminate))).toList =
      p.zombie ++ [p.running.exit status] ++ p.ready.map (·.terminate) := by
    rw [toList_append, toList_ofPush]
  have hcrew : Evolves (Step now ok) (p.rows reason) (crew p.state.pid []
      (p.interruptedThreads ++ killed p.sleepingThreads) []
        (p.zombie ++ [p.running.exit status] ++ p.ready.map (·.terminate))) := by
    refine Evolves.trans ?_ (crew_evolves (fun _ _ => hterminate _ rfl) hkill)
    rw [crew_append_zombies]
    exact evolves_one _ hexit (.exit _ _ _ status)
  unfold exit
  dsimp only
  split
  next t ts hinterrupted =>
    refine Evolves.trans ?_ (InterruptedProcess.resume_evolves _ hresume)
    unfold InterruptedProcess.rows
    rw [hzombies, ProcessState.pid_setPendingExitStatus,
      show (NonEmptyDeque.mk t ts).toList = t :: ts from rfl, ← hinterrupted]
    exact hcrew
  next hinterrupted =>
    rw [Sum.elim_inr]
    unfold ZombieProcess.rows
    dsimp only
    rw [hzombies, ProcessState.pid_takePendingExitStatus, ProcessState.pid_setPendingExitStatus]
    rw [hinterrupted] at hcrew
    exact hcrew

theorem RunnableProcess.terminate_evolves (p : RunnableProcess)
    (hterminate : ∀ x : Row, x.pid = p.state.pid → ok .terminate x)
    (hkill : ∀ x : Row, x.pid = p.state.pid → ok .kill x) :
    Evolves (Step now ok) p.rows (p.terminate.elim InterruptedProcess.rows ZombieProcess.rows) := by
  have hcrew : Evolves (Step now ok) p.rows (crew p.state.pid []
      (p.interruptedThreads ++ killed p.sleepingThreads) []
        ((p.readyThreads.map (·.terminate)).append p.zombieThreads).toList) := by
    rw [toList_append, toList_map,
      crew_perm_zombies (List.perm_append_comm)]
    exact crew_evolves (fun _ _ => hterminate _ rfl) hkill
  unfold terminate
  dsimp only
  split
  next t ts hinterrupted =>
    rw [hinterrupted] at hcrew
    exact hcrew
  next hinterrupted =>
    rw [hinterrupted] at hcrew
    exact hcrew

theorem SleepingProcess.terminate_evolves (p : SleepingProcess)
    (hkill : ∀ x : Row, x.pid = p.state.pid → ok .kill x) :
    Evolves (Step now ok) p.rows p.terminate.rows := by
  have hcrew : Evolves (Step now ok) p.rows (crew p.state.pid []
      (killed p.sleepingThreads.toList) [] (p.zombieThreads ++ [])) :=
    crew_evolves (List.forall_mem_nil _) hkill
  rw [List.append_nil] at hcrew
  rw [terminate, InterruptedProcess.rows, toList_map]
  exact hcrew

/-- Waking a thread moves its row from the sleeping threads to the ready ones. -/
theorem crew_wakeup_evolves {pid tid : Nat} {ss ts : List SleepingThread}
    (htid : t.state.id = tid) (hwake : ∀ x : Row, x.tid = tid → ok .wake x) :
    Evolves (Step now ok) (crew pid r i (ss ++ t :: ts) z)
      (crew pid (r ++ [t.wakeup now]) i (ss ++ ts) z) := by
  rw [crew_perm_sleeping List.perm_middle, crew_cons_sleeping, crew_append_ready]
  exact evolves_one _ (hwake _ htid) (.wake _ _ _)

theorem SleepingThread.expired_move (pid : Nat) (h : t.expired now = true) :
    Move now .expire (t.row pid) ((t.interrupt .timedOut).row pid) := by
  unfold expired at h
  unfold row interrupt InterruptedThread.row
  cases halarm : t.alarm with
  | none =>
    rw [halarm] at h
    cases h
  | some alarm =>
    rw [halarm] at h
    exact .expire _ _ (of_decide_eq_true h)

theorem SleepingProcess.wakeupAlarm_evolves (p : SleepingProcess) (hok : ∀ r, ok .expire r) :
    Evolves (Step now ok) p.rows
      ((p.wakeupAlarm now).elim InterruptedProcess.rows SleepingProcess.rows) := by
  unfold wakeupAlarm
  split
  next => exact .refl _
  next t ts hlate =>
    have hsplit : (p.sleepingThreads.toList.filter (·.expired now) ++
        p.sleepingThreads.toList.filter fun t => !t.expired now).Perm p.sleepingThreads.toList :=
      List.filter_append_perm _ _
    have hrows : p.rows = ((t :: ts).map (·.row p.state.pid) : Multiset Row) + crew p.state.pid [] []
        (p.sleepingThreads.toList.filter fun t => !t.expired now) p.zombieThreads := by
      rw [rows, crew_perm_sleeping (hsplit.symm.trans List.perm_append_comm), crew_append_sleeping,
        hlate]
    have hrows' : (InterruptedProcess.mk p.state
        (p.sleepingThreads.toList.filter fun t => !t.expired now)
          ⟨t.interrupt .timedOut, ts.map (·.interrupt .timedOut)⟩ p.zombieThreads).rows =
        ((t :: ts).map (fun t => (t.interrupt .timedOut).row p.state.pid) : Multiset Row) +
          crew p.state.pid [] []
            (p.sleepingThreads.toList.filter fun t => !t.expired now) p.zombieThreads := by
      simp only [InterruptedProcess.rows, toList, crew, List.map_cons, List.map_map,
        Function.comp_def, List.map_nil, Multiset.coe_nil]
      abel
    rw [Sum.elim_inl, hrows, hrows']
    refine (Evolves.map fun t ht => ?_).add (.refl _)
    rw [← hlate] at ht
    exact ⟨.expire, hok _, t.expired_move _ (List.mem_filter.mp ht).2⟩

/-- A dead thread that no process has any more. -/
def ZombieThread.deferredRow (pid : Nat) (t : ZombieThread) : Row :=
  ⟨pid, t.state, .deferred t.status⟩

namespace RunningProcess

def AfterExit.rows : AfterExit → Multiset Row
  | .runnable p => p.rows
  | .sleeping p => p.rows
  | .zombie p => p.rows

def AfterExit.standing : AfterExit → Standing
  | .runnable p => p.standing
  | .sleeping p => p.standing
  | .zombie p => p.standing

/-- The exiting thread dies in its process or waits for its reaping outside of it. -/
theorem exitThread_evolves (p : RunningProcess) (reason : Option InterruptReason)
    (status : ExitStatus) (hexit : ok .exit (p.running.row p.state.pid reason))
    (hretire : ok .retire (p.running.row p.state.pid reason)) (hresume : ∀ r, ok .resume r) :
    Evolves (Step now ok) (p.rows reason) ((p.exitThread status now).1.rows +
      ((p.exitThread status now).2.toList.map (·.deferredRow p.state.pid) : Multiset Row)) := by
  have hdead : ∀ deferred : Bool, Evolves (Step now ok) (p.rows reason) (crew p.state.pid p.ready
      p.interruptedThreads p.sleepingThreads
        (if deferred then p.zombie else p.zombie ++ [p.running.exit status]) +
      ((if deferred then some (p.running.exit status) else none).toList.map
        (·.deferredRow p.state.pid) : Multiset Row)) := by
    intro deferred
    cases deferred with
    | true =>
      rw [add_comm]
      exact evolves_one _ hretire (.retire _ _ _ status)
    | false =>
      rw [if_neg Bool.false_ne_true, crew_append_zombies]
      exact (evolves_one _ hexit (.exit _ _ _ status)).trans (.of_eq (add_zero _).symm)
  unfold exitThread
  refine (hdead _).trans (Evolves.add ?_ (.refl _))
  dsimp only
  generalize hdeferred : (p.running.state.detached && _) = deferred
  generalize hzombies : (if deferred then p.zombie else p.zombie ++ [_]) = zombies
  split
  next hready => rw [hready]; exact .refl _
  next i is hready hinterrupted =>
    rw [hready, hinterrupted]
    exact InterruptedProcess.resume_evolves (.mk p.state _ ⟨i, is⟩ _) hresume
  next hready hinterrupted hsleeping => rw [hready, hinterrupted, hsleeping]; exact .refl _
  next hready hinterrupted hsleeping =>
    -- A detached thread is handed back only when there are others.
    simp only [hready, hinterrupted, hsleeping, List.isEmpty_nil, Bool.not_true, Bool.or_self,
      Bool.and_false] at hdeferred
    rw [← hdeferred, if_neg Bool.false_ne_true, ← toList_ofPush] at hzombies
    rw [hready, hinterrupted, hsleeping, ← hzombies]
    exact .refl _

end RunningProcess

end Transitions

section States
variable {now tid : Nat}

theorem RunningProcess.sleep_standing (p : RunningProcess) (alarm : Option Nat) :
    (p.sleep alarm now).elim RunnableProcess.standing SleepingProcess.standing = p.standing := by
  unfold sleep
  split <;> rfl

/-- The status of an exit is pending, unless there is one already. -/
def RunningProcess.withPending (p : RunningProcess) (status : ExitStatus) : RunningProcess :=
  { p with state := p.state.setPendingExitStatus status }

@[simp] theorem RunningProcess.rows_withPending (p : RunningProcess) (status : ExitStatus)
    (reason : Option InterruptReason) : (p.withPending status).rows reason = p.rows reason := by
  simp only [rows, withPending, ProcessState.pid_setPendingExitStatus]

theorem RunningProcess.exit_standing (p : RunningProcess) (status : ExitStatus) :
    Evolves Buries {(p.withPending status).standing}
      {(p.exit status now).elim RunnableProcess.standing ZombieProcess.standing} := by
  unfold exit
  dsimp only
  split
  · exact .refl _
  · exact .single (.bury _ _)

theorem RunningProcess.exitThread_standing (p : RunningProcess) (status : ExitStatus) :
    Evolves Buries {p.standing} {(p.exitThread status now).1.standing} := by
  unfold exitThread
  dsimp only
  split
  · exact .refl _
  · exact .refl _
  · exact .refl _
  · exact .single (.bury _ _)

theorem RunnableProcess.terminate_standing (p : RunnableProcess) :
    Evolves Buries {p.standing}
      {p.terminate.elim InterruptedProcess.standing ZombieProcess.standing} := by
  unfold terminate
  dsimp only
  split
  · exact .refl _
  · exact .single (.bury _ _)

theorem SleepingProcess.wakeupAlarm_standing (p : SleepingProcess) :
    (p.wakeupAlarm now).elim InterruptedProcess.standing SleepingProcess.standing =
      p.standing := by
  unfold wakeupAlarm
  split <;> rfl

end States
end Nanvix.Pm
