import Nanvix.Pm.ConservedRuns

/-!
# Which threads a wakeup wakes

A wakeup looks for the process that has the thread and succeeds exactly when the
thread sleeps. A notification of one thread takes the first thread out of the queue of
its condition variable, whether or not that thread still sleeps.
-/
namespace Nanvix.Pm
open Library Library.Prog ProcessManager

variable {now tid pid : Nat} {pm pm' : ProcessManager} {loose : List Nat}
variable {s : List SleepingThread} {x : Row} {A : String → Prop}

namespace ProcessManager

/-- The thread sleeps. -/
def Asleep (pm : ProcessManager) (tid : Nat) : Prop :=
  ∃ r ∈ pm.rows, r.tid = tid ∧ r.phase.isSleeping = true

/-- The thread is ready to run. -/
def Ready (pm : ProcessManager) (tid : Nat) : Prop :=
  ∃ r ∈ pm.rows, r.tid = tid ∧ r.phase.isReady = true

end ProcessManager

section Search

variable {r : List ReadyThread} {i : List InterruptedThread} {z : List ZombieThread}

theorem exists_mem_crew :
    (∃ x ∈ crew pid r i s z, x.tid = tid) ↔ (∃ t ∈ r, t.state.id = tid) ∨
      (∃ t ∈ i, t.state.id = tid) ∨ (∃ t ∈ s, t.state.id = tid) ∨ ∃ t ∈ z, t.state.id = tid := by
  constructor
  · rintro ⟨x, hx, htid⟩
    rcases mem_crew.mp hx with ⟨t, ht, rfl⟩ | ⟨t, ht, rfl⟩ | ⟨t, ht, rfl⟩ | ⟨t, ht, rfl⟩
    · exact .inl ⟨t, ht, htid⟩
    · exact .inr (.inl ⟨t, ht, htid⟩)
    · exact .inr (.inr (.inl ⟨t, ht, htid⟩))
    · exact .inr (.inr (.inr ⟨t, ht, htid⟩))
  · rintro (⟨t, ht, htid⟩ | ⟨t, ht, htid⟩ | ⟨t, ht, htid⟩ | ⟨t, ht, htid⟩)
    · exact ⟨_, mem_crew.mpr (.inl ⟨t, ht, rfl⟩), htid⟩
    · exact ⟨_, mem_crew.mpr (.inr (.inl ⟨t, ht, rfl⟩)), htid⟩
    · exact ⟨_, mem_crew.mpr (.inr (.inr (.inl ⟨t, ht, rfl⟩))), htid⟩
    · exact ⟨_, mem_crew.mpr (.inr (.inr (.inr ⟨t, ht, rfl⟩))), htid⟩

theorem RunningProcess.findThread_iff (p : RunningProcess) (reason : Option InterruptReason) :
    p.findThread tid = true ↔ ∃ x ∈ p.rows reason, x.tid = tid := by
  have hrows : (∃ x ∈ p.rows reason, x.tid = tid) ↔ p.running.state.id = tid ∨
      ∃ x ∈ crew p.state.pid p.ready p.interruptedThreads p.sleepingThreads p.zombie,
        x.tid = tid := by
    simp only [rows, Multiset.mem_add, Multiset.mem_singleton, or_and_right, exists_or,
      exists_eq_left]
    rfl
  rw [hrows, exists_mem_crew]
  simp only [findThread, Bool.or_eq_true, beq_iff_eq, List.any_eq_true, or_assoc]

theorem RunnableProcess.findThread_iff (p : RunnableProcess) :
    p.findThread tid = true ↔ ∃ x ∈ p.rows, x.tid = tid := by
  rw [rows, exists_mem_crew]
  simp only [findThread, Bool.or_eq_true, beq_iff_eq, List.any_eq_true, or_assoc]

theorem SleepingProcess.findThread_iff (p : SleepingProcess) :
    p.findThread tid = true ↔ ∃ x ∈ p.rows, x.tid = tid := by
  rw [rows, exists_mem_crew]
  simp only [findThread, Bool.or_eq_true, beq_iff_eq, List.any_eq_true, List.not_mem_nil,
    false_and, exists_false, false_or]

theorem InterruptedProcess.findThread_iff (p : InterruptedProcess) :
    p.findThread tid = true ↔ ∃ x ∈ p.rows, x.tid = tid := by
  rw [rows, exists_mem_crew]
  simp only [findThread, Bool.or_eq_true, beq_iff_eq, List.any_eq_true, List.not_mem_nil,
    false_and, exists_false, false_or, or_assoc]

theorem ZombieProcess.findThread_iff (p : ZombieProcess) :
    p.findThread tid = true ↔ ∃ x ∈ p.rows, x.tid = tid := by
  rw [rows, exists_mem_crew]
  simp only [findThread, beq_iff_eq, List.any_eq_true, List.not_mem_nil, false_and, exists_false,
    false_or]

/-- A thread that sleeps in a process is in its list of sleeping threads. -/
theorem sleeping_of_mem_crew (hx : x ∈ crew pid r i s z)
    (hsleeping : x.phase.isSleeping = true) : ∃ t ∈ s, t.row pid = x := by
  rcases mem_crew.mp hx with ⟨t, -, rfl⟩ | ⟨t, -, rfl⟩ | h | ⟨t, -, rfl⟩
  · cases hsleeping
  · cases hsleeping
  · exact h
  · cases hsleeping

variable {π : Type} {find : π → Bool} {wake : π → Option RunnableProcess} {l : List π}

theorem searchWakeup_none (h : PM.searchWakeup find wake l = none) : ∀ x ∈ l, find x = false := by
  induction l with
  | nil => exact List.forall_mem_nil _
  | cons y ys ih =>
    unfold PM.searchWakeup at h
    split at h
    next => cases h
    next hy =>
      exact List.forall_mem_cons.mpr ⟨Bool.not_eq_true _ ▸ hy, ih (Option.map_eq_none_iff.mp h)⟩

theorem searchWakeup_some_none (h : PM.searchWakeup find wake l = some none) :
    ∃ x ∈ l, find x = true ∧ wake x = none := by
  induction l with
  | nil => cases h
  | cons y ys ih =>
    unfold PM.searchWakeup at h
    split at h
    next hy =>
      exact ⟨y, List.mem_cons_self, hy, Option.map_eq_none_iff.mp (Option.some.inj h)⟩
    next =>
      obtain ⟨r, hr, heq⟩ := Option.map_eq_some_iff.mp h
      obtain rfl := Option.map_eq_none_iff.mp heq
      obtain ⟨x, hx, hfound⟩ := ih hr
      exact ⟨x, List.mem_cons_of_mem y hx, hfound⟩

end Search

section Wake

/-- Who is woken was asleep and is ready. -/
theorem Woken.wakes (h : Woken tid now pm pm') : pm.Asleep tid ∧ pm'.Ready tid := by
  have hmem : ∀ {t : SleepingThread} {s ss ts : List SleepingThread}, s = ss ++ t :: ts → t ∈ s :=
    fun hs => hs ▸ List.mem_append_right _ List.mem_cons_self
  cases h with
  | @running p t ss ts hp hslept htid =>
    constructor
    · exact ⟨_, mem_rows.mpr (.inl ⟨p, hp, Multiset.mem_add.mpr
        (.inr (mem_crew_sleeping (hmem hslept)))⟩), htid, rfl⟩
    · refine ⟨(t.wakeup now).row p.state.pid, mem_rows.mpr (.inl ⟨_, rfl, ?_⟩), htid,
        rfl⟩
      exact Multiset.mem_add.mpr
        (.inr (mem_crew.mpr (.inl ⟨_, List.mem_append_right _ (List.mem_singleton_self _), rfl⟩)))
  | @suspended p ps qs t ss ts hp hslept htid =>
    constructor
    · exact ⟨_, mem_rows.mpr (.inr (.inr (.inl ⟨p,
        hp ▸ List.mem_append_right _ List.mem_cons_self, mem_crew_sleeping (hmem hslept)⟩))), htid,
        rfl⟩
    · refine ⟨(t.wakeup now).row p.state.pid, mem_rows.mpr (.inr (.inl ⟨_,
        List.mem_append_right _ (List.mem_singleton_self _), ?_⟩)), htid, rfl⟩
      exact mem_crew.mpr (.inl ⟨_, List.mem_cons_self, rfl⟩)
  | @ready p ps qs t ss ts hp hslept htid =>
    constructor
    · exact ⟨_, mem_rows.mpr (.inr (.inl ⟨p,
        hp ▸ List.mem_append_right _ List.mem_cons_self, mem_crew_sleeping (hmem hslept)⟩)), htid,
        rfl⟩
    · refine ⟨(t.wakeup now).row p.state.pid, mem_rows.mpr (.inr (.inl ⟨_,
        List.mem_append_right _ (List.mem_singleton_self _), ?_⟩)), htid, rfl⟩
      refine mem_crew.mpr (.inl ⟨_, ?_, rfl⟩)
      rw [NonEmptyDeque.toList_pushBack]
      exact List.mem_append_right _ (List.mem_singleton_self _)

/-- A failed wakeup of a process: none of its threads of that name sleeps. -/
theorem no_sleeper (h : removeIf (·.state.id == tid) s = none)
    (hx : ∃ t ∈ s, t.row pid = x) : x.tid ≠ tid := by
  obtain ⟨t, ht, rfl⟩ := hx
  exact beq_eq_false_iff_ne.mp (removeIf_eq_none h t ht)

theorem RunningProcess.wakeup_none {p : RunningProcess} (h : p.wakeup tid now = none)
    {reason : Option InterruptReason} (hx : x ∈ p.rows reason)
    (hsleeping : x.phase.isSleeping = true) : x.tid ≠ tid := by
  rcases Multiset.mem_add.mp hx with hx | hx
  · rw [Multiset.mem_singleton.mp hx] at hsleeping
    cases hsleeping
  · exact no_sleeper (Option.map_eq_none_iff.mp h) (sleeping_of_mem_crew hx hsleeping)

theorem RunnableProcess.wakeup_none {p : RunnableProcess} (h : p.wakeup tid now = none)
    (hx : x ∈ p.rows) (hsleeping : x.phase.isSleeping = true) : x.tid ≠ tid :=
  no_sleeper (Option.map_eq_none_iff.mp h) (sleeping_of_mem_crew hx hsleeping)

theorem SleepingProcess.wakeup_none {p : SleepingProcess} (h : p.wakeup tid now = none)
    (hx : x ∈ p.rows) (hsleeping : x.phase.isSleeping = true) : x.tid ≠ tid :=
  no_sleeper (Option.map_eq_none_iff.mp h) (sleeping_of_mem_crew hx hsleeping)

end Wake

section Exact

section
variable (h : Conserved loose pm)
include h

theorem Conserved.tids_nodup : pm.tids.Nodup := by
  have hle : pm.tids ≤ Multiset.range pm.tm.nextId := by
    rw [← h.threads, add_assoc]
    exact Multiset.le_add_right _ _
  exact Multiset.nodup_of_le hle (Multiset.nodup_range _)

/-- A thread has one row. -/
theorem Conserved.row_eq {y : Row} (hx : x ∈ pm.rows) (hy : y ∈ pm.rows)
    (htid : x.tid = y.tid) : x = y :=
  Multiset.inj_on_of_nodup_map h.tids_nodup x hx y hy htid

/-- A sleeping thread is one of a process that runs, is ready or is asleep. -/
theorem Conserved.sleeper (hx : x ∈ pm.rows) (hsleeping : x.phase.isSleeping = true) :
    (∃ p, pm.running = some p ∧ x ∈ p.rows pm.interruptReason) ∨ (∃ p ∈ pm.ready, x ∈ p.rows) ∨
      ∃ p ∈ pm.suspended, x ∈ p.rows := by
  rcases mem_rows.mp hx with hx | hx | hx | ⟨p, hp, hx⟩ | ⟨p, -, hx⟩ | ⟨e, -, rfl⟩
  · exact .inl hx
  · exact .inr (.inl hx)
  · exact .inr (.inr hx)
  · have hagrees := (p.agrees (h.awake _ (List.mem_map_of_mem hp))).2 x hx
    simp only [hsleeping, Bool.or_true, Bool.true_eq_false] at hagrees
  · obtain ⟨t, ht, -⟩ := sleeping_of_mem_crew hx hsleeping
    cases ht
  · cases hsleeping

/-- A wakeup fails only if the thread does not sleep. -/
theorem doWakeup_fails (tid : Nat) :
    ends (PM.doWakeup tid now) (fun _ _ => True) (fun _ _ => ¬ pm.Asleep tid) A pm := by
  obtain ⟨p, hp⟩ := h.exists_running
  -- A process that has the thread and cannot wake it shows that the thread does not sleep.
  have hawake : ∀ rows : Multiset Row, (∀ x ∈ rows, x ∈ pm.rows) → (∃ x ∈ rows, x.tid = tid) →
      (∀ x ∈ rows, x.phase.isSleeping = true → x.tid ≠ tid) → ¬ pm.Asleep tid := by
    rintro rows hsub ⟨y, hy, hytid⟩ hnone ⟨x, hx, hxtid, hsleeping⟩
    obtain rfl := h.row_eq hx (hsub y hy) (hxtid.trans hytid.symm)
    exact hnone x hy hsleeping hxtid
  have hrunning : ∀ x ∈ p.rows pm.interruptReason, x ∈ pm.rows :=
    fun x hx => mem_rows.mpr (.inl ⟨p, hp, hx⟩)
  have hready : ∀ q ∈ pm.ready, ∀ x ∈ q.rows, x ∈ pm.rows :=
    fun q hq x hx => mem_rows.mpr (.inr (.inl ⟨q, hq, hx⟩))
  have hsuspended : ∀ q ∈ pm.suspended, ∀ x ∈ q.rows, x ∈ pm.rows :=
    fun q hq x hx => mem_rows.mpr (.inr (.inr (.inl ⟨q, hq, hx⟩)))
  unfold PM.doWakeup
  simp only [ends_bind, ends_getRunning hp, ends_ite]
  split_ifs with hfind
  · cases hwake : p.wakeup tid now with
    | none =>
      rw [ends_throw]
      exact hawake _ hrunning ((p.findThread_iff _).mp hfind)
        fun x hx => RunningProcess.wakeup_none hwake hx
    | some q =>
      simp only [PM.setRunning, ends_modify]
  · unfold PM.tryWakeup
    simp only [ends_bind, ends_gets, id_eq]
    split
    next => simp only [ends_bind, ends_modify, ends_pure, PM.pushReady]
    next hsearch =>
      obtain ⟨s, hs, hfound, hwake⟩ := searchWakeup_some_none hsearch
      simp only [ends_pure, ends_throw]
      exact hawake _ (hsuspended s hs) (s.findThread_iff.mp hfound)
        fun x hx => SleepingProcess.wakeup_none hwake hx
    next hnone =>
      split
      next => simp only [ends_bind, ends_modify, ends_pure, PM.pushReady]
      next hsearch =>
        obtain ⟨s, hs, hfound, hwake⟩ := searchWakeup_some_none hsearch
        simp only [ends_pure, ends_throw]
        exact hawake _ (hready s hs) (s.findThread_iff.mp hfound)
          fun x hx => RunnableProcess.wakeup_none hwake hx
      next hnone' =>
        simp only [ends_pure, ends_throw]
        rintro ⟨x, hx, hxtid, hsleeping⟩
        rcases h.sleeper hx hsleeping with ⟨q, hq, hx⟩ | ⟨q, hq, hx⟩ | ⟨q, hq, hx⟩
        · cases hp.symm.trans hq
          exact hfind ((p.findThread_iff _).mpr ⟨x, hx, hxtid⟩)
        · have hfalse := searchWakeup_none hnone' q hq
          rw [q.findThread_iff.mpr ⟨x, hx, hxtid⟩] at hfalse
          cases hfalse
        · have hfalse := searchWakeup_none hnone q hq
          rw [q.findThread_iff.mpr ⟨x, hx, hxtid⟩] at hfalse
          cases hfalse

/-- What a wakeup does: it succeeds exactly when the thread sleeps. -/
theorem doWakeup_exact (tid : Nat) : ends (PM.doWakeup tid now)
      (fun _ pm' => pm.Asleep tid ∧ pm'.Ready tid ∧ Woken tid now pm pm')
      (fun _ pm' => ¬ pm.Asleep tid ∧ pm' = pm) A pm := by
  obtain ⟨p, hp⟩ := h.exists_running
  refine ((doWakeup_woken hp tid).and (doWakeup_fails h tid (A := A))).mono ?_
    (fun _ _ he => ⟨he.2, he.1⟩) fun _ ha => ha.1
  rintro _ pm' ⟨hwoken, -⟩
  exact ⟨hwoken.wakes.1, hwoken.wakes.2, hwoken⟩

end

/-- In every state a run reaches, a wakeup of a thread that sleeps makes it the last ready thread of
its process, which is then one that runs or may run, and moves nothing else. A wakeup of any other
thread fails and changes nothing. -/
theorem wakeup_frame {k : Kernel} {kernelFrames : List Nat} {mem : Mm.MemState} {root : Nat}
    {interruptCapable : Bool} (hreach : (kernelMachine kernelFrames).Reach (fun _ _ => True)
      (.boot mem root interruptCapable) k) (tid now : Nat) :
    (∃ pm', PM.doWakeup tid now k.pm = .ok () pm' ∧ k.pm.Asleep tid ∧ pm'.Ready tid ∧
      Woken tid now k.pm pm') ∨
      ∃ e, PM.doWakeup tid now k.pm = .err e k.pm ∧ ¬ k.pm.Asleep tid := by
  have hconserved := closed_conserved.reach (conserved_boot mem root interruptCapable) hreach
  have hends : ends (PM.doWakeup tid now) _ _ (fun _ => False) k.pm := doWakeup_exact hconserved tid
  cases hwakeup : PM.doWakeup tid now k.pm with
  | ok u pm' => exact .inl ⟨pm', rfl, hends.of_ok hwakeup⟩
  | err e pm' =>
    obtain ⟨hawake, rfl⟩ := hends.of_err hwakeup
    exact .inr ⟨e, rfl, hawake⟩
  | abort m => exact (hends.of_abort hwakeup).elim

/-- A thread that sleeps is not ready. -/
theorem Conserved.not_ready_of_asleep (h : Conserved loose pm) (hasleep : pm.Asleep tid) :
    ¬ pm.Ready tid := by
  rintro ⟨y, hy, hytid, hready⟩
  obtain ⟨x, hx, hxtid, hsleeping⟩ := hasleep
  obtain rfl := h.row_eq hx hy (hxtid.trans hytid.symm)
  cases hphase : x.phase with
  | sleeping a | running _ =>
    rw [hphase] at hready
    cases hready
  | ready _ =>
    rw [hphase] at hsleeping
    cases hsleeping
  | interrupted _ | zombie _ | deferred _ =>
    rw [hphase] at hready
    cases hready

theorem wakeup_exact {k : Kernel} (h : Conserved loose k.pm) (tid : Nat) :
    ends (KM.wakeup tid) (fun _ k' => k.pm.Asleep tid ∧ k'.pm.Ready tid)
      (fun _ k' => ¬ k.pm.Asleep tid ∧ k'.pm = k.pm) A k := by
  obtain ⟨p, hp⟩ := h.exists_running
  unfold KM.wakeup
  simp only [ends_bind, ends_gets, ends_sched]
  exact (doWakeup_exact h tid).imp fun _ _ hw => ⟨hw.1, hw.2.1⟩

end Exact

section Notify
variable {k : Kernel} {c : CondId}

/-- Some thread that slept in the queue is ready after the call. -/
def WakesSleeper {α : Type} (c : CondId) (k : Kernel) (x : KM α) : Prop :=
  ∃ k', (x k).final = some k' ∧ ∃ t ∈ k.queue c, k.pm.Asleep t ∧ k'.pm.Ready t

/-- The thread at the front of the queue sleeps. -/
def FrontAsleep (c : CondId) (k : Kernel) : Prop := ∃ t ∈ (k.queue c).head?, k.pm.Asleep t

/-- A run that ends in one of two ways, told apart by a condition. -/
theorem wakesSleeper_iff {α : Type} {x : KM α} {cond : Prop} {test : Kernel → Prop}
    (hok : ends x (fun _ k' => (cond ∧ test k') ∨ ¬ cond ∧ ¬ test k')
      (fun _ k' => (cond ∧ test k') ∨ ¬ cond ∧ ¬ test k') (fun _ => False) k) :
    (∃ k', (x k).final = some k' ∧ test k') ↔ cond := by
  have hfinal : ∃ k', (x k).final = some k' ∧ ((cond ∧ test k') ∨ ¬ cond ∧ ¬ test k') := by
    cases hx : x k with
    | ok a k' => exact ⟨k', rfl, hok.of_ok hx⟩
    | err e k' => exact ⟨k', rfl, hok.of_err hx⟩
    | abort m => exact (hok.of_abort hx).elim
  obtain ⟨k', hk', hcase⟩ := hfinal
  constructor
  · rintro ⟨k'', hk'', htest⟩
    cases hk'.symm.trans hk''
    rcases hcase with h | h
    · exact h.1
    · exact absurd htest h.2
  · intro hcond
    rcases hcase with h | h
    · exact ⟨k', hk', h.2⟩
    · exact absurd hcond h.1

section
variable (h : Conserved loose k.pm)
include h

/-- What a notification of one thread does when a thread sleeps in the queue. -/
theorem notifyFirst_exact (hqueued : ∃ t ∈ k.queue c, k.pm.Asleep t) : ends (KM.notifyFirst c)
      (fun _ k' => FrontAsleep c k ∧ ∃ t ∈ k.queue c, k.pm.Asleep t ∧ k'.pm.Ready t)
      (fun _ k' => ¬ FrontAsleep c k ∧ k'.pm = k.pm) (fun _ => False) k := by
  unfold KM.notifyFirst FrontAsleep
  simp only [ends_bind, ends_gets]
  cases hqueue : k.queue c with
  | nil =>
    rw [hqueue] at hqueued
    obtain ⟨t, ht, -⟩ := hqueued
    cases ht
  | cons t rest =>
    have hfront : (∃ u ∈ (t :: rest).head?, k.pm.Asleep u) ↔ k.pm.Asleep t := by
      simp only [List.head?_cons, Option.mem_def, Option.some.injEq, exists_eq_left']
    simp only [KM.setQueue, ends_bind, ends_modify, ends_pure, hfront]
    refine (wakeup_exact (k := { k with queue := Function.update k.queue c rest }) h t).imp ?_
    rintro _ k' ⟨hasleep, hready⟩
    exact ⟨hasleep, t, List.mem_cons_self, hasleep, hready⟩

/-- A failed notification leaves the sleepers of the queue asleep. -/
theorem not_ready_of_same {k' : Kernel} (hpm : k'.pm = k.pm) :
    ¬ ∃ t ∈ k.queue c, k.pm.Asleep t ∧ k'.pm.Ready t := by
  rintro ⟨t, -, hasleep, hready⟩
  rw [hpm] at hready
  exact h.not_ready_of_asleep hasleep hready

theorem notifyFirst_wakes (hqueued : ∃ t ∈ k.queue c, k.pm.Asleep t) :
    WakesSleeper c k (KM.notifyFirst c) ↔ FrontAsleep c k := by
  apply wakesSleeper_iff
  refine (notifyFirst_exact h hqueued).weaken (fun _ _ hw => .inl hw) ?_
  rintro _ k' ⟨hnot, hpm⟩
  exact .inr ⟨hnot, not_ready_of_same h hpm⟩

theorem dropGuard_wakes {m : Nat} (hqueued : ∃ t ∈ k.queue (.mutex m), k.pm.Asleep t) :
    WakesSleeper (.mutex m) k (KM.dropGuard m) ↔ FrontAsleep (.mutex m) k := by
  apply wakesSleeper_iff
  unfold KM.dropGuard
  simp only [ends_bind, ends_modify, ends_attempt]
  refine (notifyFirst_exact (k := { k with locked := Function.update k.locked m false }) h
    hqueued).weaken (fun _ _ hw => .inl hw) ?_
  rintro _ k' ⟨hnot, hpm⟩
  exact .inr ⟨hnot, not_ready_of_same h hpm⟩

end

/-- In every state a run reaches, a notification of one thread wakes a sleeper of the queue if and
only if the thread at the front of the queue sleeps. -/
theorem notification_wakes_iff {kernelFrames : List Nat} {mem : Mm.MemState} {root : Nat}
    {interruptCapable : Bool} (hreach : (kernelMachine kernelFrames).Reach (fun _ _ => True)
      (.boot mem root interruptCapable) k) (c : CondId) (hqueued : ∃ t ∈ k.queue c, k.pm.Asleep t) :
    (WakesSleeper c k (KM.notifyFirst c) ↔ FrontAsleep c k) ∧
      ∀ m, c = .mutex m → (WakesSleeper c k (KM.dropGuard m) ↔ FrontAsleep c k) := by
  have hconserved := closed_conserved.reach (conserved_boot mem root interruptCapable) hreach
  constructor
  · exact notifyFirst_wakes hconserved hqueued
  · rintro m rfl
    exact dropGuard_wakes hconserved hqueued

instance (pm : ProcessManager) (tid : Nat) : Decidable (pm.Asleep tid) :=
  Multiset.decidableExistsMultiset

/-- Three threads: the first sleeps, the others wait for a condition, one of them with an alarm. -/
def threeSleepers (alarm : Option Nat) : List KernelCmd :=
  [.memory .newVmem, .createProcess 0 (.ok ()), .giveup, .createThread (.ok ()),
    .createThread (.ok ()), .sleep 3, .resume, .giveup, .lockMutex 4096 none,
    .waitCond 8192 4096 alarm, .resume, .giveup, .lockMutex 4096 none, .waitCond 8192 4096 none,
    .resume, .tick 10, .giveup, .resume, .giveup]

theorem wakeup_frame_waiter : ∃ k pm', (kernelMachine []).Reach (fun _ _ => True)
    (.boot (.boot 128) 0 false) k ∧ PM.doWakeup 2 10 k.pm = .ok () pm' ∧ Woken 2 10 k.pm pm' := by
  obtain ⟨k, hk, hasleep⟩ := (kernelMachine []).exists_reach (.boot (.boot 128) 0 false)
    (threeSleepers none) (·.pm.Asleep 2) (by decide +kernel)
  rcases wakeup_frame hk 2 10 with ⟨pm', hok, -, -, hwoken⟩ | ⟨-, -, hawake⟩
  · exact ⟨k, pm', hk, hok, hwoken⟩
  · exact absurd hasleep hawake

/-- With nobody interrupted in the queue the first waiter is woken. -/
theorem notification_wakes_waiter : ∃ k, (kernelMachine []).Reach (fun _ _ => True)
    (.boot (.boot 128) 0 false) k ∧ k.queue (.user 0) = [2, 3] ∧
      WakesSleeper (.user 0) k (KM.notifyFirst (.user 0)) := by
  obtain ⟨k, hk, hqueue, hasleep⟩ := (kernelMachine []).exists_reach (.boot (.boot 128) 0 false)
    (threeSleepers none) (fun k => k.queue (.user 0) = [2, 3] ∧ k.pm.Asleep 2) (by decide +kernel)
  have hmem : 2 ∈ k.queue (.user 0) := hqueue ▸ List.mem_cons_self
  have hfront : FrontAsleep (.user 0) k := ⟨2, by rw [hqueue]; rfl, hasleep⟩
  exact ⟨k, hk, hqueue, (notification_wakes_iff hk (.user 0) ⟨2, hmem, hasleep⟩).1.mpr hfront⟩

/-- A waiter whose alarm has gone off takes the notification from the one behind it. -/
theorem notification_lost : ∃ k, (kernelMachine []).Reach (fun _ _ => True)
    (.boot (.boot 128) 0 false) k ∧ k.queue (.user 0) = [2, 3] ∧ k.pm.Asleep 3 ∧
      ¬ WakesSleeper (.user 0) k (KM.notifyFirst (.user 0)) := by
  obtain ⟨k, hk, hqueue, hasleep, hfront⟩ := (kernelMachine []).exists_reach
    (.boot (.boot 128) 0 false) (threeSleepers (some 5))
    (fun k => k.queue (.user 0) = [2, 3] ∧ k.pm.Asleep 3 ∧ ¬ k.pm.Asleep 2) (by decide +kernel)
  have hmem : 3 ∈ k.queue (.user 0) := hqueue ▸ List.mem_cons_of_mem _ List.mem_cons_self
  refine ⟨k, hk, hqueue, hasleep, fun hwakes => ?_⟩
  have hconserved := closed_conserved.reach (conserved_boot _ _ _) hk
  obtain ⟨t, ht, hasleep'⟩ := (notifyFirst_wakes hconserved ⟨3, hmem, hasleep⟩).mp hwakes
  rw [hqueue] at ht
  cases ht
  exact hfront hasleep'

end Notify
end Nanvix.Pm
