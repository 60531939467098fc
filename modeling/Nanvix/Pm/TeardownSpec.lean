import Nanvix.Pm.ManagerSpec

/-!
# Wakeups, termination, reaping and creation

The routines of the process manager that leave the running process in its slot: what
they do to the roster and what they leave alone.
-/
namespace Nanvix.Pm
open Library Library.Prog PM

variable {now tid pid : Nat} {ok : Kind → Row → Prop} {pm pm' : ProcessManager}
variable {p : RunningProcess} {E : Error → ProcessManager → Prop} {A : String → Prop}

section Reads
variable {J : ProcessManager → Prop}

theorem keeps_getRunning : Keeps J getRunning := by
  refine .gets fun p => ?_
  cases p with
  | none => exact keeps_abort _
  | some p => exact keeps_pure _

theorem keeps_findProcess (pid : Nat) : Keeps J (findProcess pid) := by
  refine keeps_getRunning.bind fun p => .gets fun pm => ?_
  refine .ite (keeps_pure _) ?_
  split
  · exact keeps_pure _
  split
  · exact keeps_pure _
  split
  · exact keeps_pure _
  split
  · exact keeps_pure _
  · exact keeps_throw _

theorem keeps_checkTerminate (pid : Nat) : Keeps J (checkTerminate pid) :=
  .gets fun _ => .ite (keeps_throw _) (.ite (keeps_throw _) (keeps_pure _))

end Reads

namespace ProcessManager

/-- The state of the running process and its running thread. -/
def runner (pm : ProcessManager) : Option (ProcessState × RunningThread) :=
  pm.running.map fun p => (p.state, p.running)

theorem exists_running {pm pm' : ProcessManager} (h : pm'.runner = pm.runner) {p : RunningProcess}
    (hp : pm.running = some p) :
    ∃ q, pm'.running = some q ∧ q.state = p.state ∧ q.running = p.running := by
  unfold runner at h
  rw [hp, Option.map_some] at h
  obtain ⟨q, hq, heq⟩ := Option.map_eq_some_iff.mp h
  exact ⟨q, hq, (Prod.mk.inj heq).1, (Prod.mk.inj heq).2⟩

end ProcessManager

/-- The running thread goes on, and nothing is added that has to be reaped. -/
structure Undisturbed (pm pm' : ProcessManager) : Prop where
  runner : pm'.runner = pm.runner
  interruptReason : pm'.interruptReason = pm.interruptReason
  interrupted : pm'.interrupted = pm.interrupted
  zombies : pm'.zombies = pm.zombies
  deferredReap : pm'.deferredReap = pm.deferredReap

section Wakeup

/-- The only move of a wakeup. -/
def Wakes (tid : Nat) (k : Kind) (r : Row) : Prop := k = .wake ∧ r.tid = tid

theorem searchWakeup_some {π : Type} {find : π → Bool} {wake : π → Option RunnableProcess}
    {l rest : List π} {q : RunnableProcess} (h : searchWakeup find wake l = some (some (q, rest))) :
    ∃ ps x qs, wake x = some q ∧ l = ps ++ x :: qs ∧ rest = ps ++ qs := by
  induction l generalizing rest with
  | nil => cases h
  | cons y ys ih =>
    unfold searchWakeup at h
    split at h
    next =>
      obtain ⟨q', hwake, heq⟩ := Option.map_eq_some_iff.mp (Option.some.inj h)
      cases heq
      exact ⟨[], y, ys, hwake, rfl, rfl⟩
    next =>
      obtain ⟨r, hr, heq⟩ := Option.map_eq_some_iff.mp h
      obtain ⟨⟨q', rest'⟩, rfl, heq'⟩ := Option.map_eq_some_iff.mp heq
      cases heq'
      obtain ⟨ps, x, qs, hwake, rfl, rfl⟩ := ih hr
      exact ⟨y :: ps, x, qs, hwake, rfl, rfl⟩

/-- A process manager after the wakeup of a thread, which is the last of the ready threads of its
process. Every other thread and process is where it was. -/
inductive Woken (tid now : Nat) (pm : ProcessManager) : ProcessManager → Prop where
  | running {p : RunningProcess} {t : SleepingThread} {ss ts : List SleepingThread}
      (hp : pm.running = some p) (hslept : p.sleepingThreads = ss ++ t :: ts)
      (htid : t.state.id = tid) :
      Woken tid now pm { pm with
        running := some { p with
          ready := p.ready ++ [t.wakeup now], sleepingThreads := ss ++ ts } }
  | suspended {p : SleepingProcess} {ps qs : List SleepingProcess} {t : SleepingThread}
      {ss ts : List SleepingThread} (hp : pm.suspended = ps ++ p :: qs)
      (hslept : p.sleepingThreads.toList = ss ++ t :: ts) (htid : t.state.id = tid) :
      Woken tid now pm { pm with
        suspended := ps ++ qs,
        ready := pm.ready ++ [⟨p.state, .new (t.wakeup now), [], ss ++ ts, p.zombieThreads⟩] }
  | ready {p : RunnableProcess} {ps qs : List RunnableProcess} {t : SleepingThread}
      {ss ts : List SleepingThread} (hp : pm.ready = ps ++ p :: qs)
      (hslept : p.sleepingThreads = ss ++ t :: ts) (htid : t.state.id = tid) :
      Woken tid now pm { pm with
        ready := ps ++ qs ++ [{ p with
          readyThreads := p.readyThreads.pushBack (t.wakeup now), sleepingThreads := ss ++ ts }] }

theorem removeIf_woken {α : Type} {s : List SleepingThread}
    {f : SleepingThread × List SleepingThread → α} {q : α}
    (h : (removeIf (·.state.id == tid) s).map f = some q) :
    ∃ ss t ts, s = ss ++ t :: ts ∧ t.state.id = tid ∧ q = f (t, ss ++ ts) := by
  obtain ⟨⟨t, rest⟩, hfound, rfl⟩ := Option.map_eq_some_iff.mp h
  obtain ⟨ss, ts, hs, rfl, htid, -⟩ := removeIf_split hfound
  exact ⟨ss, t, ts, hs, beq_iff_eq.mp htid, rfl⟩

/-- A wakeup wakes one thread, or fails and changes nothing. -/
theorem doWakeup_woken (h : pm.running = some p) (tid : Nat) :
    ends (doWakeup tid now) (fun _ pm' => Woken tid now pm pm') (fun _ pm' => pm' = pm) A
      pm := by
  unfold doWakeup
  simp only [ends_bind, ends_getRunning h, ends_ite]
  split_ifs with hfind
  · cases hwake : p.wakeup tid now with
    | none => exact (ends_throw _).mpr rfl
    | some q =>
      obtain ⟨ss, t, ts, hslept, htid, rfl⟩ := removeIf_woken hwake
      simp only [setRunning, ends_modify]
      exact .running h hslept htid
  · unfold tryWakeup
    simp only [ends_bind, ends_gets, id_eq]
    split
    next q rest hsearch =>
      obtain ⟨ps, x, qs, hwake, hp, rfl⟩ := searchWakeup_some hsearch
      obtain ⟨ss, t, ts, hslept, htid, rfl⟩ := removeIf_woken hwake
      simp only [ends_bind, ends_modify, ends_pure, pushReady]
      exact .suspended hp hslept htid
    next => simp only [ends_pure, ends_throw]
    next =>
      split
      next q rest hsearch =>
        obtain ⟨ps, x, qs, hwake, hp, rfl⟩ := searchWakeup_some hsearch
        obtain ⟨ss, t, ts, hslept, htid, rfl⟩ := removeIf_woken hwake
        simp only [ends_bind, ends_modify, ends_pure, pushReady]
        exact .ready hp hslept htid
      next => simp only [ends_pure, ends_throw]
      next => simp only [ends_pure, ends_throw]

theorem Woken.moved (h : Woken tid now pm pm') :
    Moved now (Wakes tid) pm pm' ∧ Undisturbed pm pm' := by
  have hok : ∀ x : Row, x.tid = tid → Wakes tid .wake x := fun _ hx => ⟨rfl, hx⟩
  cases h with
  | @running p t ss ts hp hslept htid =>
    refine ⟨(splits_running hp).moved (splits_running rfl) ?_ (.refl _), ⟨?_, rfl, rfl, rfl, rfl⟩⟩
    · rw [RunningProcess.rows, hslept]
      exact (Evolves.refl _).add (crew_wakeup_evolves htid hok)
    · simp only [ProcessManager.runner, hp, Option.map_some]
  | @suspended p ps qs t ss ts hp hslept htid =>
    have hperm : pm.suspended.Perm (p :: (ps ++ qs)) := hp ▸ List.perm_middle
    refine ⟨(splits_suspended hperm).moved (splits_pushReady { pm with suspended := ps ++ qs } _) ?_
      (.refl _), ⟨rfl, rfl, rfl, rfl, rfl⟩⟩
    rw [SleepingProcess.rows, hslept]
    exact crew_wakeup_evolves htid hok
  | @ready p ps qs t ss ts hp hslept htid =>
    have hperm : pm.ready.Perm (p :: (ps ++ qs)) := hp ▸ List.perm_middle
    refine ⟨(splits_ready hperm).moved (splits_pushReady { pm with ready := ps ++ qs } _) ?_
      (.refl _), ⟨rfl, rfl, rfl, rfl, rfl⟩⟩
    rw [RunnableProcess.rows, RunnableProcess.rows, hslept, NonEmptyDeque.toList_pushBack]
    exact crew_wakeup_evolves htid hok

theorem doWakeup_spec (h : pm.running = some p) (tid : Nat) :
    ends (doWakeup tid now) (fun _ pm' => Moved now (Wakes tid) pm pm' ∧ Undisturbed pm pm')
      (fun _ pm' => pm' = pm) A pm :=
  (doWakeup_woken h tid).imp fun _ _ hw => hw.moved

end Wakeup

section Termination

/-- The moves of a process that is terminated. -/
def Terminates (pid : Nat) (k : Kind) (r : Row) : Prop :=
  ((k = .terminate ∨ k = .kill) ∧ r.pid = pid) ∨ k = .resume

/-- Only threads of that process end; a failure changes nothing. -/
theorem terminateProcess_spec (pm : ProcessManager) (pid : Nat) :
    ends (terminateProcess pid now) (fun _ pm' => Moved now (Terminates pid) pm pm' ∧
      pm'.running = pm.running ∧ pm'.interruptReason = pm.interruptReason ∧
        pm'.deferredReap = pm.deferredReap ∧ ZombiesGrew pid pm pm' ∧
          ∀ q ∈ pm'.interrupted, q ∈ pm.interrupted ∨ q.sleepingThreads = [])
      (fun _ pm' => pm' = pm) A pm := by
  unfold terminateProcess
  simp only [ends_bind, ends_gets, id_eq]
  split
  next q rest hfound =>
    obtain ⟨hq, hperm⟩ := removeIf_eq_some hfound
    have hpid : q.state.pid = pid := beq_iff_eq.mp hq
    have hevolves : Evolves (Step now (Terminates pid)) q.rows
        (q.terminate.elim InterruptedProcess.rows ZombieProcess.rows) :=
      q.terminate_evolves (fun _ hx => .inl ⟨.inl rfl, hx.trans hpid⟩)
        fun _ hx => .inl ⟨.inr rfl, hx.trans hpid⟩
    have hstanding := q.terminate_standing
    simp only [ends_bind, ends_modify]
    cases hterminate : q.terminate with
    | inl t =>
      rw [hterminate, Sum.elim_inl] at hevolves hstanding
      simp only [Sum.elim_inl, pushReady, ends_modify]
      exact ⟨(splits_ready hperm).moved (splits_pushReady { pm with ready := rest } _)
        (hevolves.trans (t.resume_evolves fun _ => .inr rfl)) hstanding,
        trivial, trivial, trivial, .inl rfl, fun q hq => .inl hq⟩
    | inr t =>
      rw [hterminate, Sum.elim_inr] at hevolves hstanding
      simp only [Sum.elim_inr, pushZombie, ends_modify]
      exact ⟨(splits_ready hperm).moved (splits_pushZombie { pm with ready := rest } t) hevolves
        hstanding, trivial, trivial, trivial, .inr ⟨t, rfl, (pid_eq_of_buries hstanding).trans hpid⟩,
        fun q hq => .inl hq⟩
  next =>
    split
    next q rest hfound =>
      obtain ⟨hq, hperm⟩ := removeIf_eq_some hfound
      have hpid : q.state.pid = pid := beq_iff_eq.mp hq
      simp only [ends_bind, ends_modify, pushInterrupted]
      refine ⟨(splits_suspended hperm).moved
        (splits_pushInterrupted { pm with suspended := rest } q.terminate)
        (q.terminate_evolves fun _ hx => .inl ⟨.inr rfl, hx.trans hpid⟩) (.refl _),
        trivial, trivial, trivial, .inl rfl, ?_⟩
      exact List.forall_mem_append.mpr
        ⟨fun _ hx => .inl hx, List.forall_mem_singleton.mpr (.inr rfl)⟩
    next => simp only [ends_throw]

/-- The zombie that died first is taken out. -/
theorem popZombieProcess_spec (pm : ProcessManager) :
    ends popZombieProcess (fun r pm' => (r = none ∧ pm' = pm) ∨
      ∃ z zs, r = some z ∧ pm.zombies = z :: zs ∧ 1 < pm.liveCount ∧
        pm' = { pm with zombies := zs, liveCount := pm.liveCount - 1 }) E (fun _ => True) pm := by
  unfold popZombieProcess
  simp only [ends_bind, ends_gets, id_eq]
  cases hz : pm.zombies with
  | nil => exact (ends_pure _).mpr (.inl ⟨rfl, rfl⟩)
  | cons z zs =>
    simp only [ends_ite, ends_abort, ends_bind, ends_modify, ends_pure]
    split
    next => trivial
    next hlive => exact .inr ⟨z, zs, rfl, rfl, Nat.not_le.mp hlive, rfl⟩

end Termination

section Creation

/-- The manager with a new process of one new thread. -/
def ProcessManager.withProcess (pm : ProcessManager) (space : Nat) (userStack : Bool) (now : Nat) :
    ProcessManager :=
  { pm with
    nextPid := pm.nextPid + 1, tm := pm.tm.commitNextTid (pm.tm.nextId + 1),
    liveCount := pm.liveCount + 1,
    ready := pm.ready ++ [.new pm.nextPid space ⟨.new pm.tm.nextId true userStack, now⟩] }

variable {Q : Nat × Nat → ProcessManager → Prop}

theorem ends_tryNextPid (hQ : Q (pm.nextPid, pm.nextPid + 1) pm) (hE : ∀ e, E e pm) :
    ends tryNextPid Q E A pm := by
  unfold tryNextPid
  simp only [ends_bind, ends_gets, ends_ite, ends_throw, ends_pure]
  split
  · exact hE _
  · exact hQ

theorem ends_tryNextTid (hQ : Q (pm.tm.nextId, pm.tm.nextId + 1) pm) (hE : ∀ e, E e pm) :
    ends tryNextTid Q E A pm := by
  unfold tryNextTid ThreadManager.tryNextTid
  simp only [ends_bind, ends_gets]
  split
  · exact (ends_ofExcept_error _).mpr (hE _)
  split
  · exact (ends_ofExcept_error _).mpr (hE _)
  · exact (ends_ofExcept_ok _).mpr hQ

theorem ends_ofExcept {α : Type} {x : Except Error α} {Q : α → ProcessManager → Prop}
    (hQ : ∀ a, Q a pm) (hE : ∀ e, E e pm) : ends (ofExcept x : PM α) Q E A pm := by
  cases x with
  | ok a => exact (ends_ofExcept_ok a).mpr (hQ a)
  | error e => exact (ends_ofExcept_error e).mpr (hE e)

theorem createProcess_spec (pm : ProcessManager) (space : Nat) (memory : Except Error Unit) :
    ends (createProcess space memory now)
      (fun pid pm' => pid = pm.nextPid ∧ pm' = pm.withProcess space true now)
      (fun _ pm' => pm' = pm) A pm := by
  unfold createProcess
  simp only [ends_bind, ends_gets, ends_ite, ends_throw]
  split
  · trivial
  refine ends_tryNextPid ?_ fun _ => rfl
  refine ends_tryNextTid ?_ fun _ => rfl
  refine ends_ofExcept (fun _ => ?_) fun _ => rfl
  simp only [addProcess, ends_modify, ends_pure]
  exact ⟨trivial, rfl⟩

theorem duplicateProcess_spec (hp : pm.running = some p) (space : Nat)
    (checks memory : Except Error Unit) :
    ends (duplicateProcess space checks memory now)
      (fun pid pm' => pid = pm.nextPid ∧ pm' = pm.withProcess space false now)
      (fun _ pm' => pm' = pm) A pm := by
  unfold duplicateProcess
  simp only [ends_bind, ends_getRunning hp]
  refine ends_ofExcept (fun _ => ?_) fun _ => rfl
  simp only [ends_bind, ends_gets, ends_ite, ends_throw]
  split
  · trivial
  refine ends_tryNextPid ?_ fun _ => rfl
  refine ends_tryNextTid ?_ fun _ => rfl
  refine ends_ofExcept (fun _ => ?_) fun _ => rfl
  simp only [addProcess, ends_modify, ends_pure]
  exact ⟨trivial, rfl⟩

/-- The manager with a new thread of the running process. -/
def ProcessManager.withThread (pm : ProcessManager) (p : RunningProcess) (now : Nat) :
    ProcessManager :=
  { pm with
    tm := pm.tm.commitNextTid (pm.tm.nextId + 1),
    running := some (p.addThread ⟨.new pm.tm.nextId true false, now⟩) }

theorem createThread_spec (hp : pm.running = some p) (memory : Except Error Unit) :
    ends (createThread memory now)
      (fun tid pm' => tid = pm.tm.nextId ∧ pm' = pm.withThread p now)
      (fun _ pm' => pm' = pm) A pm := by
  unfold createThread
  simp only [ends_bind]
  refine ends_tryNextTid ?_ fun _ => rfl
  refine ends_ofExcept (fun _ => ?_) fun _ => rfl
  simp only [ends_getRunning hp, ends_modify, setRunning, ends_pure]
  exact ⟨trivial, rfl⟩

theorem rows_withProcess (pm : ProcessManager) (space : Nat) (userStack : Bool) :
    (pm.withProcess space userStack now).rows =
      {⟨pm.nextPid, .new pm.tm.nextId true userStack, .ready now⟩} + pm.rows :=
  (splits_pushReady pm (.new pm.nextPid space ⟨.new pm.tm.nextId true userStack, now⟩)).rows

theorem standings_withProcess (pm : ProcessManager) (space : Nat) (userStack : Bool) :
    (pm.withProcess space userStack now).standings =
      {(.new pm.nextPid space, none)} + pm.standings :=
  (splits_pushReady pm (.new pm.nextPid space ⟨.new pm.tm.nextId true userStack, now⟩)).standings

theorem rows_withThread (hp : pm.running = some p) :
    (pm.withThread p now).rows =
      {⟨p.state.pid, .new pm.tm.nextId true false, .ready now⟩} + pm.rows := by
  simp only [ProcessManager.rows, ProcessManager.withThread, hp, Option.elim_some,
    RunningProcess.rows, RunningProcess.addThread, crew_append_ready, List.map_cons, List.map_nil,
    Multiset.coe_singleton, ReadyThread.row]
  abel

theorem standings_withThread (hp : pm.running = some p) :
    (pm.withThread p now).standings = pm.standings := by
  simp only [ProcessManager.standings, ProcessManager.withThread, hp, Option.elim_some]
  rfl

end Creation

section Joining

/-- A thread is marked as detached. -/
inductive Detaches : Row → Row → Prop
  | mark (pid : Nat) (t : ThreadState) (phase : Phase) :
      Detaches ⟨pid, t, phase⟩ ⟨pid, t.setDetached, phase⟩

theorem Detaches.core_eq {a b : Row} (h : Detaches a b) : a.core = b.core := by
  cases h
  rfl

theorem evolves_updateFirst {α β : Type} {R : β → β → Prop} {g : α → β} {f : α → α}
    (h : ∀ x, R (g x) (g (f x))) (test : α → Bool) (l : List α) :
    Evolves R (l.map g : Multiset β) ((updateFirst test f l).map g : Multiset β) := by
  induction l with
  | nil => exact .refl _
  | cons x l ih =>
    unfold updateFirst
    split
    · exact (Evolves.single (h x)).add (.refl (l.map g : Multiset β))
    · exact (Evolves.refl {g x}).add ih

theorem RunningProcess.setDetached_evolves (p : RunningProcess) (tid : Nat)
    (reason : Option InterruptReason) :
    Evolves Detaches (p.rows reason) ((p.setDetached tid).rows reason) := by
  unfold setDetached
  split
  · exact (Evolves.refl _).add
      ((((evolves_updateFirst (fun _ => .mark _ _ _) _ _).add (.refl _)).add (.refl _)).add
        (.refl _))
  split
  · exact (Evolves.refl _).add
      (((Evolves.refl _).add (evolves_updateFirst (fun _ => .mark _ _ _) _ _)).add (.refl _))
  · exact (Evolves.refl _).add
      ((((Evolves.refl _).add (evolves_updateFirst (fun _ => .mark _ _ _) _ _)).add
        (.refl _)).add (.refl _))

/-- A dead thread is taken out of the running process. -/
structure TookZombie (dead : ZombieThread) (p q : RunningProcess) : Prop where
  state : q.state = p.state
  running : q.running = p.running
  rows : ∀ reason, p.rows reason = {dead.row p.state.pid} + q.rows reason

theorem tookZombie {dead : ZombieThread} {rest : List ZombieThread}
    (h : removeIf (·.state.id == tid) p.zombie = some (dead, rest)) :
    dead.state.id = tid ∧ TookZombie dead p { p with zombie := rest } := by
  obtain ⟨hid, hperm⟩ := removeIf_eq_some h
  refine ⟨beq_iff_eq.mp hid, rfl, rfl, fun reason => ?_⟩
  unfold RunningProcess.rows
  rw [crew_perm_zombies hperm, crew_cons_zombies]
  abel

theorem ends_findProcess_running {Q : ProcessRef → ProcessManager → Prop}
    (hp : pm.running = some p) :
    ends (findProcess p.state.pid) Q E A pm ↔ Q (.running p) pm := by
  unfold findProcess
  simp only [ends_bind, ends_getRunning hp, ends_gets, ends_ite, if_true, ends_pure]

/-- A join takes the dead thread, waits, or fails. -/
theorem tryJoinThread_spec (hp : pm.running = some p) (tid : Nat) :
    ends (tryJoinThread p.state.pid tid) (fun r pm' => (r = none ∧ pm' = pm) ∨
      ∃ dead q, r = some dead ∧ dead.state.id = tid ∧ TookZombie dead p q ∧
        pm' = { pm with running := some q }) (fun _ pm' => pm' = pm) A pm := by
  unfold tryJoinThread
  simp only [ends_bind, ends_findProcess_running hp]
  cases hjoin : p.tryJoinThread tid with
  | wait => exact (ends_pure _).mpr (.inl ⟨rfl, rfl⟩)
  | failed e => exact (ends_throw _).mpr rfl
  | joined dead q =>
    simp only [ends_bind, setRunning, ends_modify, ends_pure]
    unfold RunningProcess.tryJoinThread at hjoin
    split at hjoin
    · cases hjoin
    split at hjoin
    · cases hjoin
    split at hjoin
    next hfound =>
      cases hjoin
      obtain ⟨hid, htook⟩ := tookZombie hfound
      exact .inr ⟨dead, _, rfl, hid, htook, rfl⟩
    next =>
      split at hjoin
      · split at hjoin <;> cases hjoin
      · cases hjoin

/-- The running process has a thread marked as detached. -/
structure Marked (p q : RunningProcess) : Prop where
  state : q.state = p.state
  id : q.running.state.id = p.running.state.id
  rows : ∀ reason, Evolves Detaches (p.rows reason) (q.rows reason)

/-- A thread is marked, or handed back if it is dead. -/
theorem doDetachThread_spec (hp : pm.running = some p) (tid : Nat) :
    ends (doDetachThread p.state.pid tid) (fun r pm' =>
      ∃ q, pm' = { pm with running := some q } ∧ ((r = none ∧ Marked p q) ∨
        ∃ dead, r = some dead ∧ dead.state.id = tid ∧ TookZombie dead p q))
      (fun _ pm' => pm' = pm) A pm := by
  unfold doDetachThread
  simp only [ends_bind, ends_findProcess_running hp]
  cases hdetach : p.detachThread tid with
  | error e => exact (ends_ofExcept_error e).mpr rfl
  | ok r =>
    obtain ⟨q, dead⟩ := r
    simp only [ends_ofExcept_ok, setRunning, ends_modify, ends_pure]
    refine ⟨q, rfl, ?_⟩
    unfold RunningProcess.detachThread at hdetach
    split at hdetach
    · split at hdetach
      · cases hdetach
      · cases hdetach
        exact .inl ⟨rfl, rfl, rfl, fun reason => (Evolves.single (.mark _ _ _)).add (.refl _)⟩
    split at hdetach
    next hfound =>
      cases hdetach
      obtain ⟨hid, htook⟩ := tookZombie hfound
      exact .inr ⟨_, rfl, hid, htook⟩
    next =>
      split at hdetach
      next =>
        split at hdetach
        · cases hdetach
        · cases hdetach
          refine .inl ⟨rfl, ?_, ?_, fun reason => p.setDetached_evolves tid reason⟩
          · unfold RunningProcess.setDetached
            split <;> [skip; split] <;> rfl
          · unfold RunningProcess.setDetached
            split <;> [skip; split] <;> rfl
      next => cases hdetach

end Joining
end Nanvix.Pm
