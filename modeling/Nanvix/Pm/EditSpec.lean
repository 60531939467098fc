import Nanvix.Pm.TeardownSpec

/-!
# Changes to the state of one process

Posting and receiving a message, changing a capability and taking or giving up an event
change the state of one process and leave every thread where it is.
-/
namespace Nanvix.Pm
open Config Library Library.Prog

/-- The standing of one process is changed and nothing moves. -/
structure Edited (s s' : Standing) (pm pm' : ProcessManager) : Prop where
  standings : ∃ rest, pm.standings = s ::ₘ rest ∧ pm'.standings = s' ::ₘ rest
  rows : pm'.rows = pm.rows
  runningPid : pm'.running.map (·.state.pid) = pm.running.map (·.state.pid)
  runningThread : pm'.running.map (·.running) = pm.running.map (·.running)
  interruptReason : pm'.interruptReason = pm.interruptReason
  sleepers : pm'.interrupted.map (·.sleepingThreads) = pm.interrupted.map (·.sleepingThreads)
  zombiePids : pm'.zombies.map (·.process.pid) = pm.zombies.map (·.process.pid)
  tm : pm'.tm = pm.tm
  nextPid : pm'.nextPid = pm.nextPid
  liveCount : pm'.liveCount = pm.liveCount
  deferredReap : pm'.deferredReap = pm.deferredReap

variable {pm : ProcessManager} {p : RunningProcess} {f : ProcessState → ProcessState}

/-- The state of one process changes beside what is left of the manager. -/
theorem Splits.edited {pm' rest : ProcessManager} {rows rows' : Multiset Row} {s s' a : Standing}
    (h : Splits pm rows s rest) (h' : Splits pm' rows' a rest) (hrows : rows' = rows) (ha : a = s')
    (hrunning : pm'.running = pm.running) (hreason : pm'.interruptReason = pm.interruptReason)
    (hsleepers : pm'.interrupted.map (·.sleepingThreads) = pm.interrupted.map (·.sleepingThreads))
    (hzombies : pm'.zombies.map (·.process.pid) = pm.zombies.map (·.process.pid))
    (hdeferred : pm'.deferredReap = pm.deferredReap) : Edited s s' pm pm' :=
  ⟨⟨rest.standings, h.standings, ha ▸ h'.standings⟩, by rw [h.rows, h'.rows, hrows], by rw [hrunning],
    by rw [hrunning], hreason, hsleepers, hzombies, h'.tm.trans h.tm.symm,
    h'.nextPid.trans h.nextPid.symm, h'.liveCount.trans h.liveCount.symm, hdeferred⟩

/-- The tests that single out a process agree with its standing. -/
inductive PM.Finder.Hits (test : Finder) (pm : ProcessManager) : Standing → Prop
  | running {p : RunningProcess} (h : pm.running = some p) (ht : test.running p = true) :
      Hits test pm p.standing
  | runnable {p : RunnableProcess} (h : p ∈ pm.ready) (ht : test.runnable p = true) :
      Hits test pm p.standing
  | sleeping {p : SleepingProcess} (h : p ∈ pm.suspended) (ht : test.sleeping p = true) :
      Hits test pm p.standing
  | interrupted {p : InterruptedProcess} (h : p ∈ pm.interrupted) (ht : test.interrupted p = true) :
      Hits test pm p.standing
  | zombie {p : ZombieProcess} (h : p ∈ pm.zombies) (ht : test.zombie p = true) :
      Hits test pm p.standing

theorem edited_running (hp : pm.running = some p) (hpid : ∀ q, (f q).pid = q.pid) :
    Edited p.standing (f p.state, none) pm
      { pm with running := some { p with state := f p.state } } := by
  have hafter : ({ pm with running := some { p with state := f p.state } } :
      ProcessManager).standings = {({ p with state := f p.state } : RunningProcess).standing} +
        ({ pm with running := none } : ProcessManager).standings := standings_of_running rfl
  refine ⟨⟨({ pm with running := none } : ProcessManager).standings, standings_of_running hp,
    hafter⟩, ?_, ?_, ?_, rfl, rfl, rfl, rfl, rfl, rfl, rfl⟩
  · simp only [ProcessManager.rows, hp, Option.elim_some, RunningProcess.rows, hpid]
  · simp only [hp, Option.map_some, hpid]
  · simp only [hp, Option.map_some]

theorem ends_setRunning {Q : Unit → ProcessManager → Prop} {E : Error → ProcessManager → Prop}
    {A : String → Prop} :
    ends (PM.setRunning p) Q E A pm ↔ Q () { pm with running := some p } := ends_modify _

section Alter

/-- The state of one process that passes the test is changed, if there is one. -/
theorem alter_spec (test : PM.Finder) (notFound : Error) (f : ProcessState → ProcessState)
    (hpid : ∀ q, (f q).pid = q.pid) (pm : ProcessManager) :
    ends (PM.alter test notFound f) (fun _ pm' => ∃ s, test.Hits pm s ∧
      Edited s (f s.1, s.2) pm pm' ∧ pm'.numberBufferedMessages = pm.numberBufferedMessages)
      (fun e pm' => pm' = pm ∧ e = notFound ∧ ∀ s, ¬ test.Hits pm s)
      (fun _ => pm.running = none) pm := by
  cases hp : pm.running with
  | none =>
    unfold PM.alter PM.getRunning
    simp only [ends_bind, ends_gets, hp, ends_abort]
  | some p =>
    unfold PM.alter
    simp only [ends_bind, ends_getRunning hp, ends_gets, id_eq, ends_ite, ends_setRunning,
      ends_modify, ends_throw]
    split
    next ht => exact ⟨_, .running hp ht, edited_running hp hpid, trivial⟩
    next hrunning =>
    split
    next ht =>
      obtain ⟨x, l₁, l₂, hx, hl, hu⟩ :=
        updateFirst_split ht fun p => { p with state := f p.state }
      rw [hu]
      exact ⟨_, .runnable (hl ▸ List.mem_append_right _ List.mem_cons_self) hx,
        (splits_ready (hl ▸ List.perm_middle)).edited (splits_ready List.perm_middle)
          (by simp only [RunnableProcess.rows, hpid]) rfl rfl rfl rfl rfl rfl, trivial⟩
    next hready =>
    split
    next ht =>
      obtain ⟨x, l₁, l₂, hx, hl, hu⟩ :=
        updateFirst_split ht fun p => { p with state := f p.state }
      rw [hu]
      exact ⟨_, .sleeping (hl ▸ List.mem_append_right _ List.mem_cons_self) hx,
        (splits_suspended (hl ▸ List.perm_middle)).edited (splits_suspended List.perm_middle)
          (by simp only [SleepingProcess.rows, hpid]) rfl rfl rfl rfl rfl rfl, trivial⟩
    next hsuspended =>
    split
    next ht =>
      obtain ⟨x, l₁, l₂, hx, hl, hu⟩ :=
        updateFirst_split ht fun p => { p with state := f p.state }
      rw [hu]
      exact ⟨_, .interrupted (hl ▸ List.mem_append_right _ List.mem_cons_self) hx,
        (splits_interrupted (hl ▸ List.perm_middle)).edited (splits_interrupted List.perm_middle)
          (by simp only [InterruptedProcess.rows, hpid]) rfl rfl rfl (by simp [hl]) rfl rfl, trivial⟩
    next hinterrupted =>
    split
    next ht =>
      obtain ⟨x, l₁, l₂, hx, hl, hu⟩ :=
        updateFirst_split ht fun p => { p with process := f p.process }
      rw [hu]
      exact ⟨_, .zombie (hl ▸ List.mem_append_right _ List.mem_cons_self) hx,
        (splits_zombies (hl ▸ List.perm_middle)).edited (splits_zombies List.perm_middle)
          (by simp only [ZombieProcess.rows, hpid]) rfl rfl rfl rfl (by simp [hl, hpid]) rfl,
        trivial⟩
    next hzombies =>
      refine ⟨trivial, trivial, fun s hhits => ?_⟩
      cases hhits with
      | running hq ht =>
        cases hp.symm.trans hq
        exact hrunning ht
      | runnable hq ht => exact hready (List.any_eq_true.mpr ⟨_, hq, ht⟩)
      | sleeping hq ht => exact hsuspended (List.any_eq_true.mpr ⟨_, hq, ht⟩)
      | interrupted hq ht => exact hinterrupted (List.any_eq_true.mpr ⟨_, hq, ht⟩)
      | zombie hq ht => exact hzombies (List.any_eq_true.mpr ⟨_, hq, ht⟩)

end Alter

/-- The counter of buffered messages is not part of an edit. -/
theorem Edited.withBuffered {s s' : Standing} {pm' : ProcessManager} (h : Edited s s' pm pm')
    (n : Nat) : Edited s s' pm { pm' with numberBufferedMessages := n } :=
  ⟨h.standings, h.rows, h.runningPid, h.runningThread, h.interruptReason, h.sleepers, h.zombiePids,
    h.tm, h.nextPid, h.liveCount, h.deferredReap⟩

theorem PM.Finder.Hits.pid_eq {pid : Nat} {s : Standing} (h : (Finder.byPid pid).Hits pm s) :
    s.1.pid = pid := by
  cases h with
  | running _ ht | runnable _ ht | sleeping _ ht | interrupted _ ht | zombie _ ht =>
    exact beq_iff_eq.mp ht

section Mail

/-- The test for the process that gets a message. -/
def Party.finder : Party → PM.Finder
  | .process pid => .byPid pid
  | .thread tid => .byTid tid

/-- A letter is put into one mailbox and counted, if the receiver exists and the counter has
room. -/
theorem postMessage_spec (receiver : Party) (l : Letter) (pm : ProcessManager) :
    ends (PM.postMessage receiver l)
      (fun _ pm' => ∃ s, receiver.finder.Hits pm s ∧ Edited s (s.1.postMessage l, s.2) pm pm' ∧
        pm'.numberBufferedMessages = pm.numberBufferedMessages + 1 ∧
        pm.numberBufferedMessages < usizeMax)
      (fun _ pm' => (pm' = pm ∧ ∀ s, ¬ receiver.finder.Hits pm s) ∨
        usizeMax < pm.numberBufferedMessages + 1 ∧
        ∃ s, receiver.finder.Hits pm s ∧ Edited s (s.1.postMessage l, s.2) pm pm' ∧
          pm'.numberBufferedMessages = pm.numberBufferedMessages)
      (fun _ => pm.running = none) pm := by
  have halter : ends (match receiver with
      | .process pid => PM.findProcessMut pid (·.postMessage l)
      | .thread tid => PM.findProcessByTid tid (·.postMessage l) : PM Unit)
      (fun _ pm' => ∃ s, receiver.finder.Hits pm s ∧ Edited s (s.1.postMessage l, s.2) pm pm' ∧
        pm'.numberBufferedMessages = pm.numberBufferedMessages)
      (fun _ pm' => pm' = pm ∧ ∀ s, ¬ receiver.finder.Hits pm s)
      (fun _ => pm.running = none) pm := by
    cases receiver with
    | process pid =>
      exact (alter_spec (.byPid pid) _ (·.postMessage l) (fun _ => rfl) pm).weaken (fun _ _ h => h)
        (fun _ _ h => ⟨h.1, h.2.2⟩)
    | thread tid =>
      exact (alter_spec (.byTid tid) _ (·.postMessage l) (fun _ => rfl) pm).weaken (fun _ _ h => h)
        (fun _ _ h => ⟨h.1, h.2.2⟩)
  unfold PM.postMessage
  rw [ends_bind]
  refine halter.weaken ?_ (fun _ _ h => .inl h)
  rintro _ pm' ⟨s, hhits, hedit, hcount⟩
  unfold PM.noteMessagePosted
  simp only [ends_bind, ends_gets, ends_ite, ends_throw, ends_modify, hcount]
  split
  next hover => exact .inr ⟨hover, s, hhits, hedit, trivial⟩
  next hroom => exact ⟨s, hhits, hedit.withBuffered _, trivial, Nat.succ_le_of_lt (by omega)⟩

/-- A letter is taken out of the mailbox of the running process. -/
def Fetched (tid : Nat) (l : Letter) (p : RunningProcess) (pm pm' : ProcessManager) : Prop :=
  ∃ rest, Mailbox.receive tid p.state.mailbox = some (l, rest) ∧
    Edited p.standing ({ p.state with mailbox := rest }, none) pm pm'

/-- A letter leaves the mailbox even if the count of letters is wrong. -/
theorem tryRecv_spec (hp : pm.running = some p) (tid : Nat) {A : String → Prop} :
    ends (PM.tryRecv tid)
      (fun r pm' => (r = none ∧ pm' = pm ∧ Mailbox.receive tid p.state.mailbox = none) ∨
        ∃ l, r = some l ∧ Fetched tid l p pm pm' ∧
          pm'.numberBufferedMessages + 1 = pm.numberBufferedMessages)
      (fun _ pm' => ∃ l, Fetched tid l p pm pm' ∧ pm.numberBufferedMessages = 0 ∧
        pm'.numberBufferedMessages = 0) A pm := by
  unfold PM.tryRecv ProcessState.receiveMessage
  simp only [ends_bind, ends_getRunning hp]
  cases hfetch : Mailbox.receive tid p.state.mailbox with
  | none => exact (ends_pure _).mpr (.inl ⟨rfl, rfl, rfl⟩)
  | some r =>
    obtain ⟨l, rest⟩ := r
    have hedit := edited_running hp (f := fun q => { q with mailbox := rest }) fun _ => rfl
    simp only [Option.map_some, ends_bind, ends_setRunning]
    unfold PM.noteMessageReceived
    simp only [ends_bind, ends_gets, ends_ite, ends_throw, ends_modify, ends_pure]
    split
    next hzero => exact ⟨l, ⟨rest, hfetch, hedit⟩, hzero, hzero⟩
    next hpos =>
      exact .inr ⟨l, rfl, ⟨rest, hfetch, hedit.withBuffered _⟩,
        Nat.sub_add_cancel (Nat.one_le_iff_ne_zero.mpr hpos)⟩

end Mail

section Rights

/-- One capability of a process is set or cleared. -/
theorem capctl_spec (pid : Nat) (c : Capability) (set : Bool) (pm : ProcessManager) :
    ends (PM.capctl pid c set)
      (fun _ pm' => ∃ s, s.1.pid = pid ∧ (Edited s (s.1.setCapability c, s.2) pm pm' ∨
        Edited s (s.1.clearCapability c, s.2) pm pm') ∧
          pm'.numberBufferedMessages = pm.numberBufferedMessages)
      (fun _ pm' => pm' = pm) (fun _ => True) pm := by
  have hfind : ends (PM.findProcess pid) (fun _ pm' => pm' = pm) (fun _ pm' => pm' = pm)
      (fun _ => True) pm := keeps_findProcess pid pm rfl
  unfold PM.capctl
  rw [ends_bind]
  refine hfind.imp ?_
  rintro r pm' rfl
  have hset := alter_spec (.byPid pid) ⟨.noSuchProcess, "process not found"⟩ (·.setCapability c)
    (fun _ => rfl) pm'
  have hclear := alter_spec (.byPid pid) ⟨.noSuchProcess, "process not found"⟩
    (·.clearCapability c) (fun _ => rfl) pm'
  simp only [ends_ite, ends_throw]
  split
  · split
    · trivial
    · refine hset.mono ?_ (fun _ _ h => h.1) fun _ _ => trivial
      rintro _ pm'' ⟨s, hhits, hedit, hcount⟩
      exact ⟨s, hhits.pid_eq, .inl hedit, hcount⟩
  · split
    · refine hclear.mono ?_ (fun _ _ h => h.1) fun _ _ => trivial
      rintro _ pm'' ⟨s, hhits, hedit, hcount⟩
      exact ⟨s, hhits.pid_eq, .inr hedit, hcount⟩
    · trivial

end Rights

end Nanvix.Pm
