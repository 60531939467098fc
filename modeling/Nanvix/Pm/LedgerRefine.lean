import Nanvix.Pm.ConservedRuns
import Nanvix.Pm.Ledger
import Nanvix.Pm.Wakeups

/-!
# The kernel keeps its ledger

Every kernel call changes the ledger by the changes listed for it, and by no others.
Most routines only settle it: threads leave, processes die and nothing else happens. What holds of
every ledger reached by these changes therefore holds in every run of the kernel.
-/
namespace Nanvix.Pm
open Config Library Library.Prog Relation KM Kernel ProcessManager EventManager

variable {k₀ k k' : Kernel} {pm' : ProcessManager} {now : Nat} {ok : Kind → Row → Prop}
variable {p : RunningProcess} {π : Policy}
variable {q : RunningProcess} {s : Standing} {ev : Event} {m : Message}

/-- Some threads left and some processes died, and nothing else happened to the ledger. -/
structure Settles (k k' : Kernel) : Prop where
  running : k'.pm.running.isSome
  standings : Evolves Buries k.pm.standings k'.pm.standings
  members : k'.pm.members ≤ k.pm.members
  rest : k'.ledger = { k.ledger with standings := k'.pm.standings, members := k'.pm.members }

/-- However the program ends, the ledger went on by the changes listed. -/
def Advances {α : Type} (π : Policy) (x : KM α) (k : Kernel) : Prop :=
  ends x (fun _ k' => Ledger.Reaches π k.ledger k'.ledger)
    (fun _ k' => Ledger.Reaches π k.ledger k'.ledger) (fun _ => True) k

section Members
variable {pm pm' : ProcessManager} {reason reason' : Option InterruptReason}

theorem Row.member_eq_of_core {a b : Row} (h : a.core = b.core) : a.member = b.member :=
  congrArg (fun c => (c.1, c.2.1)) h

theorem Moved.members (h : Moved now ok pm pm') : pm'.members = pm.members :=
  (h.rows.map_eq fun _ _ hstep => Row.member_eq_of_core hstep.core_eq).symm

theorem RunningProcess.map_member_rows (p : RunningProcess) :
    (p.rows reason).map Row.member = (p.rows reason').map Row.member := by
  simp only [RunningProcess.rows, Multiset.map_add, Multiset.map_singleton]
  rfl

theorem members_split (hp : pm.running = some p) : pm.members =
    (p.rows none).map Row.member + ({ pm with running := none } : ProcessManager).members := by
  rw [members, rows_of_running hp, Multiset.map_add, p.map_member_rows]
  rfl

/-- The running process changes, and at most loses threads. -/
theorem members_of_running (hp : pm.running = some p)
    (h : (q.rows none).map Row.member ≤ (p.rows none).map Row.member) :
    ({ pm with running := some q, interruptReason := reason } : ProcessManager).members ≤
      pm.members := by
  rw [members_split hp, members_split rfl]
  exact add_le_add h le_rfl

theorem TookZombie.members {dead : ZombieThread} (h : TookZombie dead p q) :
    (q.rows none).map Row.member ≤ (p.rows none).map Row.member := by
  rw [h.rows none, Multiset.map_add]
  exact Multiset.le_add_left _ _

theorem Marked.members (h : Marked p q) :
    (q.rows none).map Row.member ≤ (p.rows none).map Row.member :=
  ((h.rows none).map_eq fun _ _ hd => Row.member_eq_of_core hd.core_eq).ge

theorem members_withProcess (pm : ProcessManager) (space : Nat) (userStack : Bool) :
    (pm.withProcess space userStack now).members = (pm.nextPid, pm.tm.nextId) ::ₘ pm.members := by
  rw [members, rows_withProcess, Multiset.map_add, Multiset.map_singleton]
  rfl

theorem members_withThread (hp : pm.running = some p) :
    (pm.withThread p now).members = (p.state.pid, pm.tm.nextId) ::ₘ pm.members := by
  rw [members, rows_withThread hp, Multiset.map_add, Multiset.map_singleton]
  rfl

end Members

theorem Kernel.ledger_of_essence (h : k'.essence = k.essence) : k'.ledger = k.ledger := by
  simp only [essence, Prod.mk.injEq] at h
  obtain ⟨hpm, howner, hcapable, hdeliveries, hforwarded, hserial, hexits⟩ := h
  simp only [ledger, hpm, howner, hcapable, hdeliveries, hforwarded, hserial, hexits]

namespace Settles

protected theorem refl (h : k.pm.running.isSome) : Settles k k := ⟨h, .refl _, le_rfl, rfl⟩

theorem of_essence (h : Settles k₀ k) (he : k'.essence = k.essence) : Settles k₀ k' := by
  have hpm := pm_of_essence he
  refine ⟨?_, ?_, ?_, ?_⟩
  · rw [hpm]
    exact h.running
  · rw [hpm]
    exact h.standings
  · rw [hpm]
    exact h.members
  · rw [ledger_of_essence he, hpm]
    exact h.rest

theorem of_moved (h : Settles k₀ k) (hm : Moved now ok k.pm pm') (hrunning : pm'.running.isSome) :
    Settles k₀ { k with pm := pm' } := by
  refine ⟨hrunning, h.standings.trans hm.standings, hm.members.le.trans h.members, ?_⟩
  have hledger : ({ k with pm := pm' } : Kernel).ledger =
      { k.ledger with standings := pm'.standings, members := pm'.members } := by
    simp only [ledger, hm.nextPid, hm.buffered, hm.tm]
  rw [hledger, h.rest]

/-- The manager changed in what the ledger does not show, and threads left. -/
theorem of_same (h : Settles k₀ k) (hrunning : pm'.running.isSome)
    (hstandings : pm'.standings = k.pm.standings) (hmembers : pm'.members ≤ k.pm.members)
    (hnext : pm'.nextPid = k.pm.nextPid) (htm : pm'.tm.nextId = k.pm.tm.nextId)
    (hbuffered : pm'.numberBufferedMessages = k.pm.numberBufferedMessages) :
    Settles k₀ { k with pm := pm' } := by
  refine ⟨hrunning, ?_, hmembers.trans h.members, ?_⟩
  · change Evolves Buries k₀.pm.standings pm'.standings
    rw [hstandings]
    exact h.standings
  · have hledger : ({ k with pm := pm' } : Kernel).ledger =
        { k.ledger with members := pm'.members } := by
      simp only [ledger, hstandings, hnext, htm, hbuffered]
    rw [hledger, h.rest]
    change { k₀.ledger with standings := k.pm.standings, members := pm'.members } =
      { k₀.ledger with standings := pm'.standings, members := pm'.members }
    rw [hstandings]

theorem reaches (h : Settles k k') : Ledger.Reaches π k.ledger k'.ledger :=
  .of_buries h.standings rfl h.members h.rest

theorem exists_running (h : Settles k₀ k) : ∃ p, k.pm.running = some p :=
  Option.isSome_iff_exists.mp h.running

end Settles

section Calm

theorem calm_wakeup (tid : Nat) : Keeps (Settles k₀) (wakeup tid) := by
  intro k h
  obtain ⟨p, hp⟩ := h.exists_running
  unfold wakeup
  simp only [ends_bind, ends_gets, ends_sched]
  refine (doWakeup_spec hp tid).stays (fun _ => h) ?_
  rintro _ pm ⟨hm, hsame⟩
  obtain ⟨q, hq, -⟩ := exists_running hsame.runner hp
  exact h.of_moved hm (by rw [hq]; rfl)

theorem calm_modify {f : Kernel → Kernel} (hf : ∀ k, (f k).essence = k.essence) :
    Keeps (Settles k₀) (modify f : KM Unit) :=
  keeps_modify fun k h => h.of_essence (hf k)

theorem calm_setQueue (c : CondId) (q : List Nat) : Keeps (Settles k₀) (setQueue c q) :=
  calm_modify (by exact fun _ => rfl)

theorem calm_getRunning : Keeps (Settles k₀) (sched PM.getRunning) :=
  keeps_read fun _ => keeps_getRunning

theorem calm_onThreadReaped (tid : Nat) : Keeps (Settles k₀) (sched (PM.onThreadReaped tid)) := by
  intro k h
  unfold PM.onThreadReaped
  simp only [ends_sched, ends_bind, ends_gets, ends_ite, ends_abort, ends_modify]
  split
  · trivial
  · exact h.of_same h.running rfl le_rfl rfl rfl rfl

theorem calm_locks (k : Kernel) (queue : CondId → List Nat) (locked : Nat → Bool)
    (refs : Nat → Nat) (h : Settles k₀ k) :
    Settles k₀ { k with queue := queue, locked := locked, mutexRefs := refs } :=
  h.of_essence rfl

theorem calm_harvestZombieThread (pid : Nat) (dead : ZombieThread) :
    Keeps (Settles k₀) (harvestZombieThread pid dead) :=
  keeps_harvestZombieThread calm_wakeup calm_locks (fun _ => keeps_read fun _ => keeps_findProcess _)
    calm_onThreadReaped pid dead

theorem calm_reapDeferred : Keeps (Settles k₀) reapDeferred := by
  apply keeps_reapDeferred calm_wakeup calm_locks (fun _ => keeps_read fun _ => keeps_findProcess _)
    calm_onThreadReaped
  intro k h
  refine h.of_same h.running rfl (Multiset.map_le_map ?_) rfl rfl rfl
  exact add_le_add le_rfl (Multiset.zero_le _)

theorem calm_runningTid : Keeps (Settles k₀) runningTid :=
  calm_getRunning.ret

theorem calm_sleepAs (w : Wait) (alarm : Option Nat) : Keeps (Settles k₀) (sleepAs w alarm) := by
  refine calm_reapDeferred.bind fun _ => calm_runningTid.bind fun tid => (keeps_gets _).bind
    fun now => (calm_modify (by exact fun _ => rfl)).bind fun _ => ?_
  intro k h
  obtain ⟨p, hp⟩ := h.exists_running
  rw [ends_sched]
  refine (doSleep_spec hp alarm fun _ _ => trivial).imp ?_
  rintro _ pm ⟨hm, hrunning, -⟩
  exact h.of_moved hm hrunning

theorem calm_giveup : Keeps (Settles k₀) giveup := by
  refine calm_reapDeferred.bind fun _ => calm_runningTid.bind fun tid => (keeps_gets _).bind
    fun now => (calm_modify (by exact fun _ => rfl)).bind fun _ => ?_
  intro k h
  obtain ⟨p, hp⟩ := h.exists_running
  rw [ends_sched]
  refine (schedule_spec hp fun _ _ => trivial).imp ?_
  rintro _ pm ⟨hm, hrunning, -⟩
  exact h.of_moved hm hrunning

theorem calm_condWait (c : CondId) (alarm : Option Nat) (w : Wait) :
    Keeps (Settles k₀) (condWait c alarm w) :=
  keeps_condWait (fun he h => h.of_essence he) calm_sleepAs c alarm w

theorem calm_exitThread (status : ExitStatus) : Keeps (Settles k₀) (exitThread status) := by
  refine calm_reapDeferred.bind fun _ => .gets fun now => .bind ?_ fun tid => ?_
  · intro k h
    obtain ⟨p, hp⟩ := h.exists_running
    rw [ends_sched]
    refine (doExitThread_spec hp status fun _ _ => trivial).imp ?_
    rintro tid pm ⟨-, hm, hrunning, -⟩
    exact h.of_moved hm hrunning
  · refine (keeps_notifyAll calm_wakeup calm_setQueue _).attempt.bind fun r => ?_
    cases r with
    | ok _ => exact keeps_pure _
    | error e =>
      exact calm_runningTid.bind fun _ => (calm_modify (by exact fun _ => rfl)).bind fun _ =>
        keeps_throw _

theorem calm_terminateProcess (pid now : Nat) :
    Keeps (Settles k₀) (sched (PM.terminateProcess pid now)) := by
  intro k h
  rw [ends_sched]
  refine (terminateProcess_spec k.pm pid).stays (fun _ => h) ?_
  rintro _ pm ⟨hm, hrunning, -⟩
  exact h.of_moved hm (by rw [hrunning]; exact h.running)

/-- The running process changes and keeps its state. -/
theorem Settles.of_running (h : Settles k₀ k) (hp : k.pm.running = some p)
    (hstate : q.state = p.state)
    (hmembers : (q.rows none).map Row.member ≤ (p.rows none).map Row.member) :
    Settles k₀ { k with pm := { k.pm with running := some q } } := by
  refine h.of_same rfl ?_ (members_of_running hp hmembers) rfl rfl rfl
  simp only [ProcessManager.standings, hp, Option.elim_some, RunningProcess.standing, hstate]

theorem calm_joinRound (tid : Nat) : Keeps (Settles k₀) (joinRound tid) := by
  intro k h
  obtain ⟨p, hp⟩ := h.exists_running
  unfold joinRound
  simp only [ends_bind, ends_sched, ends_getRunning hp]
  refine (tryJoinThread_spec hp tid).stays (fun _ => h) ?_
  rintro r pm (⟨rfl, rfl⟩ | ⟨dead, q, rfl, -, htook, rfl⟩)
  · exact ((calm_condWait _ _ _).ret) k h
  · exact ((calm_harvestZombieThread _ _).ret) _
      (h.of_running hp htook.state htook.members)

theorem calm_detachThread (tid : Nat) : Keeps (Settles k₀) (detachThread tid) := by
  refine calm_reapDeferred.bind fun _ => ?_
  intro k h
  obtain ⟨p, hp⟩ := h.exists_running
  simp only [ends_bind, ends_sched, ends_getRunning hp]
  refine (doDetachThread_spec hp tid).stays (fun _ => h) ?_
  rintro r pm ⟨q, rfl, ⟨rfl, hmarked⟩ | ⟨dead, rfl, -, htook⟩⟩
  · exact (ends_pure _).mpr (h.of_running hp hmarked.state hmarked.members)
  · exact ((calm_harvestZombieThread _ _).ret) _
      (h.of_running hp htook.state htook.members)

theorem calm_takeInterruptReason : Keeps (Settles k₀) (sched PM.takeInterruptReason) := by
  intro k h
  obtain ⟨p, hp⟩ := h.exists_running
  unfold PM.takeInterruptReason
  simp only [ends_sched, ends_bind, ends_gets, ends_modify, ends_pure]
  have hmembers : ({ k.pm with interruptReason := none } : ProcessManager).members =
      k.pm.members := by
    rw [members_split hp]
    exact members_split hp
  exact h.of_same h.running rfl hmembers.le rfl rfl rfl

end Calm

section Processes

theorem ledger_withPm (k : Kernel) (pm : ProcessManager) :
    ({ k with pm := pm } : Kernel).ledger = { k.ledger with
      standings := pm.standings
      members := pm.members
      nextPid := pm.nextPid
      nextTid := pm.tm.nextId
      buffered := pm.numberBufferedMessages } := rfl

/-- The standing of the running process is there. -/
theorem standings_cons_running (hp : k.pm.running = some p) :
    k.ledger.standings =
      (p.state, none) ::ₘ ({ k.pm with running := none } : ProcessManager).standings :=
  (standings_of_running hp).trans (Multiset.singleton_add _ _)

theorem exit_reaches (hk : Conserved [] k.pm) (status : ExitStatus) :
    Advances π (exit status) k := by
  unfold Advances
  unfold exit
  rw [ends_bind]
  refine (calm_reapDeferred k (.refl hk.running)).weaken ?_ (fun _ _ h => h.reaches)
  intro _ k₁ hsettles
  obtain ⟨p, hp⟩ := hsettles.exists_running
  simp only [ends_bind, ends_gets, ends_sched, ends_takeRunning hp, ends_ite, ends_abort]
  split
  · trivial
  rw [ends_modify]
  refine (cleanupRendezvous_emptySlot rfl p.state.pid).mono ?_ (fun _ _ he => he.elim)
    fun _ _ => trivial
  rintro _ k₂ ⟨hessence, -⟩
  have hpm : k₂.pm = { k₁.pm with running := none } := pm_of_essence hessence
  have hledger := ledger_of_essence hessence
  rw [hpm]
  refine (exitProcess_spec p k₁.pm status fun _ _ => trivial).imp ?_
  rintro _ pm ⟨hm, -⟩
  rw [ends_pure, ledger_withPm k₂ pm, hledger]
  -- The status is entered, and then processes die.
  have hstep : Ledger.Step π k₁.ledger { k₁.ledger with
      standings := (k₁.pm.withPending p status).standings
      exits := (p.state.pid, status) :: k₁.exits } := by
    have hpending : (k₁.pm.withPending p status).standings =
        (p.state.setPendingExitStatus status, none) ::ₘ
          ({ k₁.pm with running := none } : ProcessManager).standings :=
      (standings_of_running rfl).trans (Multiset.singleton_add _ _)
    rw [hpending]
    exact .exit status (standings_cons_running hp)
  have hmembers : pm.members ≤ k₁.pm.members := by
    rw [hm.members]
    refine members_of_running hp (le_of_eq ?_)
    rw [RunningProcess.rows_withPending]
  refine (hsettles.reaches.tail hstep).trans
    (Ledger.Reaches.of_buries hm.standings rfl hmembers ?_)
  rw [hm.nextPid, hm.buffered, hm.tm]
  rfl

theorem create_step {k : Kernel} (space : Nat) (userStack : Bool) :
    Ledger.Step π k.ledger
      ({ k with pm := k.pm.withProcess space userStack now } : Kernel).ledger := by
  have hledger : ({ k with pm := k.pm.withProcess space userStack now } : Kernel).ledger =
      { k.ledger with
        standings := (.new k.ledger.nextPid space, none) ::ₘ k.ledger.standings
        members := (k.ledger.nextPid, k.ledger.nextTid) ::ₘ k.ledger.members
        nextPid := k.ledger.nextPid + 1
        nextTid := k.ledger.nextTid + 1 } := by
    rw [ledger_withPm, standings_withProcess, members_withProcess, Multiset.singleton_add]
    rfl
  rw [hledger]
  exact .create space

theorem spawn_step (hp : k.pm.running = some p) :
    Ledger.Step π k.ledger ({ k with pm := k.pm.withThread p now } : Kernel).ledger := by
  have hledger : ({ k with pm := k.pm.withThread p now } : Kernel).ledger = { k.ledger with
      members := (p.state.pid, k.ledger.nextTid) ::ₘ k.ledger.members
      nextTid := k.ledger.nextTid + 1 } := by
    rw [ledger_withPm, standings_withThread hp, members_withThread hp]
    rfl
  rw [hledger]
  refine .spawn ?_
  rw [standings_cons_running hp]
  exact Multiset.mem_cons_self _ _

/-- The first zombie and its ownerships go, and then processes die. -/
theorem harvestZombies_reaches (hk : Conserved [] k.pm) (hkernel : k.pm.KernelRuns)
    (hmay : ∀ z zs, k.pm.zombies = z :: zs → π.harvests k.ledger z.standing) :
    Advances π harvestZombies k := by
  unfold Advances
  unfold harvestZombies
  simp only [ends_bind, ends_sched]
  refine (popZombieProcess_spec k.pm).imp ?_
  rintro r pm (⟨rfl, rfl⟩ | ⟨z, zs, rfl, hz, -, rfl⟩)
  · exact (ends_pure _).mpr .refl
  · have hcalm : ∀ k₀, Keeps (Settles k₀) (forEach (fun dead : ZombieThread => do
        dropThreadState dead.state
        sched (PM.onThreadReaped dead.state.id)) z.zombieThreads.toList) := fun _ =>
      .forEach fun _ _ => (keeps_dropThreadState calm_wakeup calm_locks _).bind fun _ =>
        calm_onThreadReaped _
    have hrunning : ({ k.pm with zombies := zs, liveCount := k.pm.liveCount - 1 } :
        ProcessManager).running.isSome := hk.running
    rw [ends_bind]
    refine ((harvestThreads_holds (A := fun _ => True) (k := { k with
        pm := { k.pm with zombies := zs, liveCount := k.pm.liveCount - 1 } })
      (hk.popZombie hkernel hz)).and (hcalm _ _ (.refl hrunning))).mono ?_
        (fun _ _ h => h.1.elim) fun _ _ => trivial
    rintro _ k₂ ⟨-, hsettles⟩
    simp only [ends_bind, ends_modify, ends_pure]
    obtain ⟨howner, hcapable⟩ := foldl_dropOwnership z.process.events k₂.em
    have hstep : Ledger.Step π k.ledger { k.ledger with
        standings := ({ k.pm with zombies := zs, liveCount := k.pm.liveCount - 1 } :
          ProcessManager).standings
        owner := z.process.events.foldl dropOwner k.em.owner } :=
      .harvest (standings_popZombie hz) (hmay z zs hz)
    have hmembers : ({ k.pm with zombies := zs, liveCount := k.pm.liveCount - 1 } :
        ProcessManager).members ≤ k.pm.members := by
      rw [members, members, rows_popZombie hz, Multiset.map_add]
      exact Multiset.le_add_right _ _
    refine (ReflTransGen.single hstep).trans (Ledger.Reaches.of_buries hsettles.standings rfl
      (hsettles.members.trans hmembers) ?_)
    have hrest := hsettles.rest
    simp only [ledger, Ledger.mk.injEq] at hrest ⊢
    obtain ⟨-, -, hpid, htid, hbuffered, howner', hcapable', hlogs⟩ := hrest
    rw [howner, hcapable, howner']
    exact ⟨trivial, trivial, hpid, htid, hbuffered, rfl, hcapable', hlogs⟩

end Processes

variable {f : RunningProcess → RunningProcess} {em : EventManager} {A : String → Prop}

section Edits

/-- What one edit of a standing does to the ledger. -/
theorem Edited.ledger {s' : Standing} (h : Edited s s' k.pm pm') :
    ∃ rest, k.ledger.standings = s ::ₘ rest ∧ ({ k with pm := pm' } : Kernel).ledger =
      { k.ledger with standings := s' ::ₘ rest, buffered := pm'.numberBufferedMessages } := by
  obtain ⟨rest, hbefore, hafter⟩ := h.standings
  refine ⟨rest, hbefore, ?_⟩
  rw [ledger_withPm, hafter, h.nextPid, h.tm, members, h.rows]
  rfl

theorem Edited.running_isSome {s' : Standing} (h : Edited s s' k.pm pm')
    (hk : k.pm.running.isSome) : pm'.running.isSome := by
  have hsome := congrArg Option.isSome h.runningPid
  rw [Option.isSome_map, Option.isSome_map] at hsome
  exact hsome.trans hk

theorem tables_step (hf : TablesOnly f) (hp : k.pm.running = some p) :
    Ledger.Step π k.ledger
      ({ k with pm := { k.pm with running := some (f p) } } : Kernel).ledger := by
  have hledger : ({ k with pm := { k.pm with running := some (f p) } } : Kernel).ledger =
      { k.ledger with standings := ((f p).state, none) ::ₘ
        ({ k.pm with running := none } : ProcessManager).standings } := by
    have hmembers : ({ k.pm with running := some (f p) } : ProcessManager).members =
        k.pm.members := by
      rw [members_split hp, members_split rfl, hf p]
      simp only [RunningProcess.rows, Multiset.map_add, Multiset.map_singleton]
      rfl
    rw [ledger_withPm, standings_of_running rfl, Multiset.singleton_add, hmembers]
    rfl
  rw [hledger]
  refine .edit (standings_cons_running hp) ?_
  rw [hf p]

theorem capctl_reaches (hk : Conserved [] k.pm) (c : Capability) (set : Bool) :
    Advances π (capctl c set) k := by
  unfold Advances
  obtain ⟨q, hq⟩ := hk.exists_running
  unfold capctl
  simp only [ends_bind, ends_sched, ends_getRunning hq, ends_pure]
  refine (capctl_spec q.state.pid c set k.pm).stays (fun _ => .refl) ?_
  rintro _ pm ⟨s, -, hedit, hcount⟩
  rcases hedit with hedit | hedit
  · obtain ⟨rest, hbefore, hafter⟩ := hedit.ledger
    rw [hafter, hcount]
    exact .single (.edit (p := s.1) (o := s.2) hbefore rfl)
  · obtain ⟨rest, hbefore, hafter⟩ := hedit.ledger
    rw [hafter, hcount]
    exact .single (.edit (p := s.1) (o := s.2) hbefore rfl)

/-- The request is granted to the running process. -/
def Grants (k : Kernel) (p : ProcessState) (ev : Event) : EventCtrlRequest → Prop
  | .register => (ev.isInterrupt = true → k.em.interruptCapable = true) ∧
      p.hasCapability ev.capability = true ∧ k.em.owner ev = none
  | .unregister => ev.isInterrupt = false ∧ k.em.owner ev = some p.pid

/-- The kernel after a request that is granted. -/
def Kernel.granted (k : Kernel) (p : RunningProcess) (ev : Event) : EventCtrlRequest → Kernel
  | .register => { k with
      em := k.em.setOwner (some p.state.pid) ev
      pm := { k.pm with running := some { p with state := p.state.addEvent ev } } }
  | .unregister => { k with
      em := (p.state.events.filter (· == ev)).foldl dropOwnership
        (k.em.setOwner none ev)
      pm := { k.pm with running := some { p with state := p.state.removeEvent ev } } }

/-- A check that is known to pass under one condition only. -/
theorem ends_ofExcept_of_toOption {x : Except Error EventManager} {c : Prop}
    [Decidable c] {Q : EventManager → Kernel → Prop} {E : Error → Kernel → Prop}
    (h : x.toOption = if c then some em else none) (hok : c → Q em k)
    (herr : ∀ e, ¬c → E e k) : ends (ofExcept x : KM EventManager) Q E A k := by
  cases x with
  | error e =>
    refine (ends_ofExcept_error e).mpr (herr e fun hc => ?_)
    rw [if_pos hc] at h
    cases h
  | ok em' =>
    rw [ends_ofExcept_ok]
    split_ifs at h with hc
    · cases h
      exact hok hc
    · cases h

theorem evctrl_spec (hp : k.pm.running = some p) (ev : Event) (req : EventCtrlRequest) :
    ends (evctrl ev req) (fun _ k' => Grants k p.state ev req ∧ k' = k.granted p ev req)
      (fun _ k' => ¬ Grants k p.state ev req ∧ k' = k) A k := by
  unfold evctrl PM.hasCapability
  simp only [ends_bind, ends_sched, ends_getRunning hp, ends_gets, ends_ite, ends_throw,
    ends_attempt, ends_findProcess_running hp, ends_pure, PM.ProcessRef.state]
  split
  next hrefused =>
    obtain ⟨hinterrupt, hnot⟩ := Bool.and_eq_true_iff.mp hrefused
    refine ⟨?_, trivial⟩
    cases req with
    | register =>
      intro hgrants
      rw [hgrants.1 hinterrupt] at hnot
      cases hnot
    | unregister =>
      intro hgrants
      rw [hgrants.1] at hinterrupt
      cases hinterrupt
  next hallowed =>
    have hcapable : ev.isInterrupt = true → k.em.interruptCapable = true := by
      intro hinterrupt
      by_contra hnot
      apply hallowed
      rw [hinterrupt, Bool.eq_false_iff.mpr hnot]
      rfl
    cases req with
    | register =>
      refine ends_ofExcept_of_toOption (k.em.doEvctrl_register _ p.state.pid ev) ?_ ?_
      · intro hfree
        unfold PM.addEvent
        simp only [ends_bind, ends_modify, ends_sched, ends_getRunning hp, ends_setRunning, ends_pure]
        exact ⟨⟨hcapable, hfree⟩, rfl⟩
      · exact fun _ hnot => ⟨fun hgrants => hnot hgrants.2, rfl⟩
    | unregister =>
      refine ends_ofExcept_of_toOption (k.em.doEvctrl_unregister _ p.state.pid ev) ?_ ?_
      · intro howner
        unfold PM.removeEvent
        simp only [ends_bind, ends_modify, ends_sched, ends_getRunning hp, ends_setRunning, ends_pure]
        exact ⟨howner, rfl⟩
      · exact fun _ hnot => ⟨hnot, rfl⟩

theorem foldl_dropOwner_free {owner : Event → Option Nat} (h : owner ev = none)
    {l : List Event} (hl : ∀ e ∈ l, e = ev) : l.foldl dropOwner owner = owner := by
  induction l with
  | nil => rfl
  | cons e l ih =>
    obtain rfl := hl e List.mem_cons_self
    have hdrop : dropOwner owner e = owner := by
      unfold dropOwner
      split
      · rfl
      · rw [← h]
        exact Function.update_eq_self _ _
    rw [List.foldl_cons, hdrop]
    exact ih fun e' he' => hl e' (List.mem_cons_of_mem _ he')

/-- The owners after a request that is granted. -/
theorem Kernel.owner_granted (k : Kernel) (p : RunningProcess) (ev : Event)
    (req : EventCtrlRequest) : (k.granted p ev req).em.owner = Function.update k.em.owner ev
      (match req with
        | .register => some p.state.pid
        | .unregister => none) ∧
      (k.granted p ev req).em.interruptCapable = k.em.interruptCapable := by
  cases req with
  | register => exact ⟨owner_setOwner .., interruptCapable_setOwner ..⟩
  | unregister =>
    obtain ⟨howner, hcapable⟩ := foldl_dropOwnership
      (p.state.events.filter (· == ev)) (k.em.setOwner none ev)
    have hfree : (Function.update k.em.owner ev none) ev = none := Function.update_self ..
    rw [owner_setOwner, foldl_dropOwner_free hfree fun e he =>
      beq_iff_eq.mp (List.mem_filter.mp he).2] at howner
    exact ⟨howner, hcapable.trans (interruptCapable_setOwner ..)⟩

theorem Kernel.ledger_granted (k : Kernel) (p : RunningProcess) (ev : Event)
    (req : EventCtrlRequest) : (k.granted p ev req).ledger =
      { ({ k with pm := (k.granted p ev req).pm } : Kernel).ledger with
        owner := (k.granted p ev req).em.owner
        interruptCapable := (k.granted p ev req).em.interruptCapable } := by
  cases req with
  | register | unregister => rfl

/-- A request that is granted is a change of the ledger. -/
theorem granted_step (hp : k.pm.running = some p) {req : EventCtrlRequest}
    (h : Grants k p.state ev req) : Ledger.Step π k.ledger (k.granted p ev req).ledger := by
  obtain ⟨howner, hcapable⟩ := k.owner_granted p ev req
  cases req with
  | register =>
    obtain ⟨rest, hbefore, hafter⟩ : ∃ rest, k.ledger.standings = (p.state, none) ::ₘ rest ∧
        ({ k with pm := (k.granted p ev .register).pm } : Kernel).ledger =
          { k.ledger with standings := (p.state.addEvent ev, none) ::ₘ rest } :=
      (edited_running hp (f := (·.addEvent ev)) fun _ => rfl).ledger
    have hstep : Ledger.Step π k.ledger { k.ledger with
        standings := (p.state.addEvent ev, none) ::ₘ rest
        owner := Function.update k.ledger.owner ev (some p.state.pid) } :=
      .register hbefore h.2.2 h.1
    rw [k.ledger_granted, hafter, howner, hcapable]
    exact hstep
  | unregister =>
    obtain ⟨rest, hbefore, hafter⟩ : ∃ rest, k.ledger.standings = (p.state, none) ::ₘ rest ∧
        ({ k with pm := (k.granted p ev .unregister).pm } : Kernel).ledger =
          { k.ledger with standings := (p.state.removeEvent ev, none) ::ₘ rest } :=
      (edited_running hp (f := (·.removeEvent ev)) fun _ => rfl).ledger
    have hstep : Ledger.Step π k.ledger { k.ledger with
        standings := (p.state.removeEvent ev, none) ::ₘ rest
        owner := Function.update k.ledger.owner ev none } :=
      .unregister hbefore h.2 h.1
    rw [k.ledger_granted, hafter, howner, hcapable]
    exact hstep

theorem evctrl_reaches (hk : Conserved [] k.pm) (ev : Event) (req : EventCtrlRequest) :
    Advances π (evctrl ev req) k := by
  unfold Advances
  obtain ⟨p, hp⟩ := hk.exists_running
  refine (evctrl_spec hp ev req).weaken ?_ ?_
  · rintro _ k' ⟨hgrants, rfl⟩
    exact .single (granted_step hp hgrants)
  · rintro _ k' ⟨-, rfl⟩
    exact .refl

end Edits

section Mail

theorem pid_of_mem_crew {pid : Nat} {r : List ReadyThread} {i : List InterruptedThread}
    {s : List SleepingThread} {z : List ZombieThread} {x : Row} (hx : x ∈ crew pid r i s z) :
    x.pid = pid := by
  rcases mem_crew.mp hx with ⟨t, -, rfl⟩ | ⟨t, -, rfl⟩ | ⟨t, -, rfl⟩ | ⟨t, -, rfl⟩ <;> rfl

theorem RunningProcess.pid_of_mem_rows {reason : Option InterruptReason} {x : Row}
    (hx : x ∈ p.rows reason) : x.pid = p.state.pid := by
  rcases Multiset.mem_add.mp hx with hx | hx
  · rw [Multiset.mem_singleton.mp hx]
    rfl
  · exact pid_of_mem_crew hx

theorem mem_members {pm : ProcessManager} {pid tid : Nat} :
    (pid, tid) ∈ pm.members ↔ ∃ x ∈ pm.rows, x.pid = pid ∧ x.tid = tid := by
  simp only [members, Multiset.mem_map, Row.member, Prod.mk.injEq]

/-- The process found for a thread has that thread. -/
theorem PM.Finder.Hits.member {pm : ProcessManager} {tid : Nat}
    (h : (Finder.byTid tid).Hits pm s) : (s.1.pid, tid) ∈ pm.members := by
  rw [mem_members]
  cases h with
  | running hq ht =>
    obtain ⟨x, hx, htid⟩ := (RunningProcess.findThread_iff _ pm.interruptReason).mp ht
    exact ⟨x, mem_rows.mpr (.inl ⟨_, hq, hx⟩), RunningProcess.pid_of_mem_rows hx,
      htid⟩
  | runnable hq ht =>
    obtain ⟨x, hx, htid⟩ := (RunnableProcess.findThread_iff _).mp ht
    exact ⟨x, mem_rows.mpr (.inr (.inl ⟨_, hq, hx⟩)), pid_of_mem_crew hx, htid⟩
  | sleeping hq ht =>
    obtain ⟨x, hx, htid⟩ := (SleepingProcess.findThread_iff _).mp ht
    exact ⟨x, mem_rows.mpr (.inr (.inr (.inl ⟨_, hq, hx⟩))), pid_of_mem_crew hx,
      htid⟩
  | interrupted hq ht =>
    obtain ⟨x, hx, htid⟩ := (InterruptedProcess.findThread_iff _).mp ht
    exact ⟨x, mem_rows.mpr (.inr (.inr (.inr (.inl ⟨_, hq, hx⟩)))),
      pid_of_mem_crew hx, htid⟩
  | zombie hq ht =>
    obtain ⟨x, hx, htid⟩ := (ZombieProcess.findThread_iff _).mp ht
    exact ⟨x, mem_rows.mpr (.inr (.inr (.inr (.inr (.inl ⟨_, hq, hx⟩))))),
      pid_of_mem_crew hx, htid⟩

theorem fits_of_hits {l : Letter} (h : l.receiver.finder.Hits k.pm s) :
    Ledger.Fits k.ledger l s := by
  constructor
  · intro pid hpid
    rw [hpid] at h
    exact PM.Finder.Hits.pid_eq h
  · intro tid htid
    rw [htid] at h
    exact PM.Finder.Hits.member h

/-- The receivers of a letter are woken. -/
theorem notifyReceivers_reaches (receiver : Party) (hrunning : k.pm.running.isSome)
    {L : Ledger} (h : Ledger.Reaches π L k.ledger) :
    ends (match receiver with
      | .process pid => notifyAllProcessThreads pid
      | .thread tid => notifyThread .events tid : KM Unit)
      (fun _ k' => Ledger.Reaches π L k'.ledger) (fun _ k' => Ledger.Reaches π L k'.ledger)
      (fun _ => True) k := by
  have hcalm : Keeps (Settles k) (match receiver with
      | .process pid => notifyAllProcessThreads pid
      | .thread tid => notifyThread .events tid : KM Unit) := by
    cases receiver with
    | process pid => exact keeps_notifyAllProcessThreads calm_wakeup calm_setQueue pid
    | thread tid => exact keeps_notifyThread calm_wakeup calm_setQueue .events tid
  exact (hcalm k (.refl hrunning)).weaken (fun _ _ hs => h.trans hs.reaches)
    (fun _ _ hs => h.trans hs.reaches)

/-- A letter that may be sent is delivered by a step of the ledger. -/
theorem postMessage_reaches {origin : Origin} (hrunning : k.pm.running.isSome)
    (htakes : Ledger.Takes π k.ledger ⟨m, k.nextSerial, origin⟩) :
    Advances π (postMessage m origin) k := by
  unfold Advances
  unfold postMessage
  simp only [ends_bind, ends_gets, ends_modify, ends_sched]
  refine (postMessage_spec m.receiver ⟨m, k.nextSerial, origin⟩ k.pm).mono ?_ ?_
    fun _ _ => trivial
  · rintro _ pm ⟨s, hhits, hedit, hcount, -⟩
    refine notifyReceivers_reaches m.receiver (hedit.running_isSome hrunning) (.single ?_)
    obtain ⟨rest, hbefore, hafter⟩ := hedit.ledger
    have hstep : Ledger.Step π k.ledger { k.ledger with
        standings := (s.1.postMessage ⟨m, k.nextSerial, origin⟩, s.2) ::ₘ rest
        buffered := k.ledger.buffered + 1
        nextSerial := k.ledger.nextSerial + 1 } := .post hbefore htakes (fits_of_hits hhits)
    rw [hcount] at hafter
    convert hstep using 1
    exact congrArg (fun L : Ledger => { L with nextSerial := k.nextSerial + 1 }) hafter
  · rintro _ pm (⟨rfl, -⟩ | ⟨hfull, s, hhits, hedit, hcount⟩)
    · exact .single .skip
    · obtain ⟨rest, hbefore, hafter⟩ := hedit.ledger
      have hstep : Ledger.Step π k.ledger { k.ledger with
          standings := (s.1.postMessage ⟨m, k.nextSerial, origin⟩, s.2) ::ₘ rest
          nextSerial := k.ledger.nextSerial + 1 } :=
        .overflow hbefore htakes (fits_of_hits hhits) hfull
      rw [hcount] at hafter
      refine .single ?_
      convert hstep using 1
      exact congrArg (fun L : Ledger => { L with nextSerial := k.nextSerial + 1 }) hafter

theorem send_reaches (hk : Conserved [] k.pm) (hmay : ∀ p, k.pm.running = some p →
      π.sends k.ledger ⟨m, k.nextSerial, .send p.state.pid p.running.state.id⟩) :
    Advances π (send m) k := by
  unfold Advances
  obtain ⟨p, hp⟩ := hk.exists_running
  unfold send
  simp only [ends_bind, ends_sched, ends_getRunning hp, ends_ite, ends_modify, ends_pure]
  split
  · exact .single (.forward rfl rfl (hmay p hp))
  · exact postMessage_reaches hk.running ⟨rfl, .inr ⟨⟨_, _, rfl⟩, hmay p hp⟩⟩

/-- An occurrence that is collected is reported by a message of the kernel. -/
theorem collect_notice {em em' : EventManager} {pid : Nat} (h : em.collect pid ev = some (m, em')) :
    m.IsNotice ∧ em'.owner = em.owner ∧ em'.interruptCapable = em.interruptCapable := by
  cases ev with
  | interrupt n | exception n | scheduling sev =>
    simp only [collect] at h
    split at h
    · cases h
    · cases h
      exact ⟨by simp [Message.IsNotice, Message.ofInterrupt, Message.ofException,
        Message.ofTermination], rfl, rfl⟩

theorem member_running (hp : k.pm.running = some p) :
    (p.state.pid, p.running.state.id) ∈ k.ledger.members := by
  refine mem_members.mpr ⟨p.running.row p.state.pid k.pm.interruptReason,
    mem_rows.mpr (.inl ⟨p, hp, ?_⟩), rfl, rfl⟩
  exact Multiset.mem_add.mpr (.inl (Multiset.mem_singleton_self _))

/-- What the running thread gets when it asks for an event or a letter. -/
inductive Taken (k : Kernel) (p : RunningProcess) (i : Interests) :
    Option (Message × Option Letter) → Kernel → Prop
  | event {ev : Event} {m : Message} {em : EventManager} (hevent : k.em.nextEvent i = some ev)
      (hcollect : k.em.collect p.state.pid ev = some (m, em)) :
      Taken k p i (some (m, none)) { k with em := em }
  | letter {l : Letter} {pm : ProcessManager} (hfetch : Fetched p.running.state.id l p k.pm pm)
      (hcount : pm.numberBufferedMessages + 1 = k.pm.numberBufferedMessages) :
      Taken k p i (some (l.message, some l)) { k with pm := pm }
  | nothing (hevent : (k.em.nextEvent i).bind (k.em.collect p.state.pid) = none)
      (hmail : Mailbox.receive p.running.state.id p.state.mailbox = none) : Taken k p i none k

theorem tryWait_spec (hp : k.pm.running = some p) (i : Interests) :
    ends (tryWait p.running.state.id p.state.pid i) (Taken k p i)
      (fun _ k' => ∃ l pm, k' = { k with pm := pm } ∧ Fetched p.running.state.id l p k.pm pm ∧
        k.pm.numberBufferedMessages = 0 ∧ pm.numberBufferedMessages = 0) A k := by
  unfold tryWait
  simp only [ends_bind, ends_gets]
  cases hevent : (k.em.nextEvent i).bind (k.em.collect p.state.pid) with
  | some r =>
    obtain ⟨m, em⟩ := r
    obtain ⟨ev, hnext, hcollect⟩ := Option.bind_eq_some_iff.mp hevent
    simp only [ends_bind, ends_modify, ends_pure]
    exact .event hnext hcollect
  | none =>
    simp only [ends_bind, ends_sched]
    refine (tryRecv_spec hp p.running.state.id).weaken ?_ ?_
    · rintro r pm (⟨rfl, rfl, hmail⟩ | ⟨l, rfl, hfetch, hcount⟩)
      · exact (ends_pure _).mpr (.nothing hevent hmail)
      · exact (ends_pure _).mpr (.letter hfetch hcount)
    · rintro _ pm ⟨l, hfetch, hzero, hzero'⟩
      exact ⟨l, pm, rfl, hfetch, hzero, hzero'⟩

/-- The running thread leaves the list of waiting threads with a message. -/
def Kernel.handed (k : Kernel) (p : RunningProcess) (m : Message) (letter : Option Letter) :
    Kernel := { k with
  em := k.em.unregister p.state.pid p.running.state.id
  deliveries := ⟨p.state.pid, p.running.state.id, m, letter⟩ :: k.deliveries }

/-- A letter that is fetched is handed over. -/
theorem fetch_step (hp : k.pm.running = some p) {l : Letter}
    (hfetch : Fetched p.running.state.id l p k.pm pm')
    (hcount : pm'.numberBufferedMessages + 1 = k.pm.numberBufferedMessages) :
    Ledger.Step π k.ledger (({ k with pm := pm' } : Kernel).handed p l.message (some l)).ledger := by
  obtain ⟨mailbox, hreceive, hedit⟩ := hfetch
  obtain ⟨rest, hbefore, hafter⟩ := hedit.ledger
  have hstep : Ledger.Step π k.ledger { k.ledger with
      standings := ({ p.state with mailbox := mailbox }, none) ::ₘ rest
      buffered := k.ledger.buffered - 1
      deliveries := ⟨p.state.pid, p.running.state.id, l.message, some l⟩ :: k.ledger.deliveries } :=
    .fetch hbefore (member_running hp) hreceive (Nat.lt_of_lt_of_eq (Nat.succ_pos _) hcount)
  have hbuffered : pm'.numberBufferedMessages = k.ledger.buffered - 1 := Nat.eq_sub_of_add_eq hcount
  rw [hbuffered] at hafter
  convert hstep using 1
  exact congrArg (fun L : Ledger => { L with
    deliveries := ⟨p.state.pid, p.running.state.id, l.message, some l⟩ :: k.deliveries }) hafter

theorem lose_step {l : Letter} (hfetch : Fetched p.running.state.id l p k.pm pm')
    (hzero : k.pm.numberBufferedMessages = 0) (hzero' : pm'.numberBufferedMessages = 0) :
    Ledger.Step π k.ledger ({ k with pm := pm' } : Kernel).ledger := by
  obtain ⟨mailbox, hreceive, hedit⟩ := hfetch
  obtain ⟨rest, hbefore, hafter⟩ := hedit.ledger
  have hstep : Ledger.Step π k.ledger { k.ledger with
      standings := ({ p.state with mailbox := mailbox }, none) ::ₘ rest } :=
    .lose hbefore hreceive hzero
  rw [hafter, hzero', ← hzero]
  exact hstep

theorem notice_step (hcollect : k.em.collect p.state.pid ev = some (m, em)) :
    Ledger.Step π k.ledger (({ k with em := em } : Kernel).handed p m none).ledger := by
  obtain ⟨hnotice, howner, hcapable⟩ := collect_notice hcollect
  have hstep : Ledger.Step π k.ledger { k.ledger with
      deliveries := ⟨p.state.pid, p.running.state.id, m, none⟩ :: k.ledger.deliveries } :=
    .notice _ _ hnotice
  convert hstep using 1
  change ({ k.ledger with
    owner := em.owner, interruptCapable := em.interruptCapable, deliveries := _ } : Ledger) = _
  rw [howner, hcapable]
  rfl

theorem recvRound_reaches (hk : Conserved [] k.pm) (i : Interests) (copy : Except Error Unit) :
    Advances π (recvRound i copy) k := by
  unfold Advances
  have hcopy : Keeps (fun k' : Kernel => Ledger.Reaches π k.ledger k'.ledger)
      (ofExcept copy : KM Unit) := keeps_ofExcept copy
  obtain ⟨p, hp⟩ := hk.exists_running
  unfold recvRound leaveWaiting
  simp only [ends_bind, ends_sched, ends_getRunning hp, ends_attempt]
  refine (tryWait_spec hp i).weaken ?_ ?_
  · intro r k' htaken
    cases htaken with
    | event hevent hcollect =>
      simp only [ends_bind, ends_modify, ends_pure]
      exact hcopy _ (.single (notice_step hcollect))
    | letter hfetch hcount =>
      simp only [ends_bind, ends_modify, ends_pure]
      exact hcopy _ (.single (fetch_step hp hfetch hcount))
    | nothing hevent hmail =>
      refine (((calm_condWait .events none (.recv i copy)).ret) k
        (.refl hk.running)).weaken ?_ ?_
      · exact fun _ _ hs => hs.reaches
      · exact fun _ _ hs => hs.reaches
  · rintro e k' ⟨l, pm, rfl, hfetch, hzero, hzero'⟩
    simp only [ends_modify, ends_throw]
    exact .single (lose_step hfetch hzero hzero')

end Mail

section Runs
variable {L₀ : Ledger} {α : Type} {guard : KernelCmd → Kernel → Prop}

/-- The threads and processes are conserved, and the ledger came about by the changes listed. -/
def Kept (π : Policy) (L₀ : Ledger) (k : Kernel) : Prop :=
  Conserved [] k.pm ∧ Ledger.Reaches π L₀ k.ledger

theorem Kept.idle (he : k'.essence = k.essence) (h : Kept π L₀ k) : Kept π L₀ k' := by
  refine ⟨conserved_idle he h.1, ?_⟩
  rw [ledger_of_essence he]
  exact h.2

theorem Kept.ends_of {x : KM α} (h : Kept π L₀ k)
    (hc : ends x (fun _ k' => Conserved [] k'.pm) (fun _ k' => Conserved [] k'.pm) (fun _ => True) k)
    (hr : Advances π x k) :
    ends x (fun _ k' => Kept π L₀ k') (fun _ k' => Kept π L₀ k') (fun _ => True) k :=
  (hc.and hr).mono (fun _ _ hx => ⟨hx.1, h.2.trans hx.2⟩) (fun _ _ hx => ⟨hx.1, h.2.trans hx.2⟩)
    fun _ _ => trivial

theorem kept_of_calm {x : KM α} (hc : Keeps Balanced x)
    (hs : ∀ k₀, Keeps (Settles k₀) x) : Keeps (Kept π L₀) x := fun k h =>
  h.ends_of (hc k h.1) ((hs k k (.refl h.1.running)).weaken (fun _ _ hk => hk.reaches)
    (fun _ _ hk => hk.reaches))

theorem createProcess_reaches (space : Nat) (memory : Except Error Unit) (now : Nat) :
    Advances π (sched (PM.createProcess space memory now)) k := by
  unfold Advances
  rw [ends_sched]
  refine (createProcess_spec k.pm space memory).stays (fun _ => .refl) ?_
  rintro _ pm ⟨-, rfl⟩
  exact .single (create_step _ _)

theorem duplicateProcess_reaches (hk : Conserved [] k.pm) (space : Nat)
    (checks memory : Except Error Unit) (now : Nat) :
    Advances π (sched (PM.duplicateProcess space checks memory now)) k := by
  unfold Advances
  obtain ⟨p, hp⟩ := hk.exists_running
  rw [ends_sched]
  refine (duplicateProcess_spec hp space checks memory).stays (fun _ => .refl) ?_
  rintro _ pm ⟨-, rfl⟩
  exact .single (create_step _ _)

theorem createThread_reaches (hk : Conserved [] k.pm) (memory : Except Error Unit) (now : Nat) :
    Advances π (sched (PM.createThread memory now)) k := by
  unfold Advances
  obtain ⟨p, hp⟩ := hk.exists_running
  rw [ends_sched]
  refine (createThread_spec hp memory).stays (fun _ => .refl) ?_
  rintro _ pm ⟨-, rfl⟩
  exact .single (spawn_step hp)

theorem tables_reaches (hk : Conserved [] k.pm) (hf : TablesOnly f) :
    Advances π (modifyRunning f) k := by
  unfold Advances
  obtain ⟨p, hp⟩ := hk.exists_running
  unfold modifyRunning
  simp only [ends_bind, ends_sched, ends_getRunning hp, ends_setRunning]
  exact .single (tables_step hf hp)

/-- Every kernel call keeps the ledger, under a guard that the policy allows for. -/
theorem closed_kept (hc : Closed guard Balanced)
    (hsend : ∀ m k p, guard (.send m) k → k.pm.running = some p →
      π.sends k.ledger ⟨m, k.nextSerial, .send p.state.pid p.running.state.id⟩)
    (hharvest : ∀ k z zs, guard .harvestZombies k → k.pm.zombies = z :: zs →
      π.harvests k.ledger z.standing) : Closed guard (Kept π L₀) where
  idle := Kept.idle
  wakeup tid := kept_of_calm (hc.wakeup tid) fun _ => calm_wakeup tid
  takeInterruptReason := kept_of_calm hc.takeInterruptReason fun _ =>
    calm_takeInterruptReason
  createProcess space mem now k h := h.ends_of (hc.createProcess space mem now k h.1)
    (createProcess_reaches space mem now)
  duplicateProcess space checks mem now k h :=
    h.ends_of (hc.duplicateProcess space checks mem now k h.1)
      (duplicateProcess_reaches h.1 space checks mem now)
  createThread mem now k h := h.ends_of (hc.createThread mem now k h.1)
    (createThread_reaches h.1 mem now)
  reapDeferred := kept_of_calm hc.reapDeferred fun _ => calm_reapDeferred
  sleepAs w alarm := kept_of_calm (hc.sleepAs w alarm) fun _ => calm_sleepAs w alarm
  giveup := kept_of_calm hc.giveup fun _ => calm_giveup
  exit status k h := h.ends_of (hc.exit status k h.1) (exit_reaches h.1 status)
  exitThread status := kept_of_calm (hc.exitThread status) fun _ =>
    calm_exitThread status
  terminate pid now k h huser := h.ends_of (hc.terminate pid now k h.1 huser)
    ((calm_terminateProcess pid now k (.refl h.1.running)).weaken (fun _ _ hk => hk.reaches)
      (fun _ _ hk => hk.reaches))
  joinRound tid := kept_of_calm (hc.joinRound tid) fun _ => calm_joinRound tid
  detachThread tid := kept_of_calm (hc.detachThread tid) fun _ => calm_detachThread tid
  harvest k h hkernel hguard := h.ends_of (hc.harvest k h.1 hkernel hguard)
    (harvestZombies_reaches h.1 hkernel fun z zs hz => hharvest k z zs hguard hz)
  tables f hf k h := h.ends_of (hc.tables f hf k h.1) (tables_reaches h.1 hf)
  evctrl ev req k h := h.ends_of (hc.evctrl ev req k h.1) (evctrl_reaches h.1 ev req)
  capctl c set k h := h.ends_of (hc.capctl c set k h.1) (capctl_reaches h.1 c set)
  send m k h hguard := h.ends_of (hc.send m k h.1 hguard)
    (send_reaches h.1 fun p hp => hsend m k p hguard hp)
  channel m k h hroom := h.ends_of (hc.channel m k h.1 hroom)
    (postMessage_reaches h.1.running ⟨rfl, .inl ⟨rfl, hroom⟩⟩)
  recvRound i copy k h := h.ends_of (hc.recvRound i copy k h.1)
    (recvRound_reaches h.1 i copy)

/-- In every run the ledger comes about by the changes listed. -/
theorem kept_of_reach {kernelFrames : List Nat} {mem : Mm.MemState} {root : Nat} {capable : Bool}
    (hsend : ∀ m k p, guard (.send m) k → k.pm.running = some p →
      π.sends k.ledger ⟨m, k.nextSerial, .send p.state.pid p.running.state.id⟩)
    (hharvest : ∀ k z zs, guard .harvestZombies k → k.pm.zombies = z :: zs →
      π.harvests k.ledger z.standing)
    (h : (kernelMachine kernelFrames).Reach guard (.boot mem root capable) k) :
    Kept π (boot mem root capable).ledger k :=
  (closed_kept closed_conserved hsend hharvest).reach ⟨conserved_boot mem root capable, .refl⟩ h

end Runs

end Nanvix.Pm
