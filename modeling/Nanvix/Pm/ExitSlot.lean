import Nanvix.Pm.ConservedRuns

/-!
# The slot of the running process while a process ends

An exiting process is taken out of its slot before the threads that wait for it are
released, and the release of a thread looks into the slot. The other ways in which a
process or a thread ends find the slot occupied.
-/
namespace Nanvix.Pm
open Library Library.Prog KM

variable {k : Kernel} {p : RunningProcess} {pid : Nat} {A : String → Prop}

section Frames
variable {pushes : List PendingPush} {pulls : List PendingPull}

/-- The requests and the running process, which reaping leaves alone. -/
def Frame (pushes : List PendingPush) (pulls : List PendingPull) (pid : Nat) (k : Kernel) : Prop :=
  k.pushes = pushes ∧ k.pulls = pulls ∧ k.pm.runningPid = some pid

theorem frame_of_running (hp : k.pm.running = some p) : Frame k.pushes k.pulls p.state.pid k :=
  ⟨rfl, rfl, by rw [ProcessManager.runningPid, hp, Option.map_some]⟩

theorem Frame.exists_running (h : Frame pushes pulls pid k) :
    ∃ p, k.pm.running = some p ∧ p.state.pid = pid := by
  obtain ⟨p, hp, hpid⟩ := Option.map_eq_some_iff.mp h.2.2
  exact ⟨p, hp, hpid⟩

theorem keeps_frame_wakeup (tid : Nat) : KeepsIn A (Frame pushes pulls pid) (wakeup tid) := by
  intro k h
  obtain ⟨p, hp, hpid⟩ := h.exists_running
  unfold wakeup
  simp only [ends_bind, ends_gets, ends_sched]
  refine (doWakeup_spec hp tid).stays (fun _ => h) ?_
  rintro _ pm ⟨hm, hsame⟩
  exact ⟨h.1, h.2.1, (SameCensus.of_undisturbed hm hsame).runningPid.trans h.2.2⟩

theorem keeps_frame_findProcess (pid' : Nat) :
    KeepsIn A (Frame pushes pulls pid) (sched (PM.findProcess pid')) := by
  intro k h
  obtain ⟨p, hp, -⟩ := h.exists_running
  rw [ends_sched]
  refine (findProcess_spec hp pid').weaken ?_ ?_
  · rintro _ pm rfl
    exact h
  · rintro _ pm ⟨rfl, -⟩
    exact h

theorem keeps_frame_reapDeferred : Keeps (Frame pushes pulls pid) reapDeferred := by
  refine keeps_reapDeferred keeps_frame_wakeup (fun _ _ _ _ h => h) keeps_frame_findProcess ?_
    fun _ h => h
  intro tid k h
  unfold PM.onThreadReaped
  simp only [ends_sched, ends_bind, ends_gets, ends_ite, ends_abort, ends_modify]
  split
  · trivial
  · exact h

/-- Reaping ends, and leaves the requests and the running process alone. -/
theorem reapDeferred_frame (h : Conserved [] k.pm) (hframe : Frame pushes pulls pid k) :
    ends reapDeferred (fun _ k' => Conserved [] k'.pm ∧ Frame pushes pulls pid k')
      (fun _ _ => False) (fun _ => False) k := by
  refine ((reapDeferred_holds h (A := fun _ => False)).and
    (keeps_frame_reapDeferred k hframe)).mono ?_ ?_ ?_
  · exact fun _ _ hk => ⟨hk.1.1, hk.2⟩
  · exact fun _ _ he => he.1
  · exact fun _ ha => ha.1

end Frames

section Ending

/-- An exit panics over the empty slot if and only if another process waits for the exiting one. -/
theorem exit_ends (h : Conserved [] k.pm) (hp : k.pm.running = some p)
    (hne : p.state.pid ≠ kernelPid) (status : ExitStatus) :
    ends (exit status) (fun _ _ => ¬ k.Awaited p.state.pid) (fun _ _ => ¬ k.Awaited p.state.pid)
      (fun m => m = PM.slotEmpty ↔ k.Awaited p.state.pid) k := by
  unfold exit
  rw [ends_bind]
  refine (reapDeferred_frame h (frame_of_running hp)).mono ?_ (fun _ _ he => he.elim) fun _ ha => ha.elim
  rintro _ k₁ ⟨-, hframe₁⟩
  obtain ⟨q, hq, hpid⟩ := hframe₁.exists_running
  have hawaited : k₁.Awaited q.state.pid ↔ k.Awaited p.state.pid := by
    unfold Kernel.Awaited
    rw [hframe₁.1, hframe₁.2.1, hpid]
  simp only [ends_bind, ends_gets, ends_sched, ends_takeRunning hq, ends_ite, hpid, hne, if_false,
    ends_modify]
  refine (cleanupRendezvous_emptySlot rfl p.state.pid).mono ?_ (fun _ _ he => he.elim) ?_
  · rintro _ k₂ ⟨hessence, hnot⟩
    have hnot' : ¬ k.Awaited p.state.pid := fun hk => hnot (hpid ▸ hawaited.mpr hk)
    have hpm : k₂.pm = { k₁.pm with running := none } := Kernel.pm_of_essence hessence
    rw [hpm]
    refine (exitProcess_spec q k₁.pm status (E := fun _ _ => ¬ k.Awaited p.state.pid) ?_).imp ?_
    · intro m hm
      exact ⟨fun heq => absurd heq hm, fun hk => absurd hk hnot'⟩
    · intro _ pm _
      exact (ends_pure _).mpr hnot'
  · rintro m ⟨rfl, hawaits⟩
    exact ⟨fun _ => hawaited.mp (hpid.symm ▸ hawaits), fun _ => rfl⟩

theorem exit_panics_iff (h : Conserved [] k.pm) (hp : k.pm.running = some p)
    (hne : p.state.pid ≠ kernelPid) (status : ExitStatus) :
    exit status k = .abort PM.slotEmpty ↔ k.Awaited p.state.pid := by
  have hends := exit_ends h hp hne status
  cases hx : exit status k with
  | ok a k' => exact ⟨nofun, fun hk => absurd hk (hends.of_ok hx)⟩
  | err e k' => exact ⟨nofun, fun hk => absurd hk (hends.of_err hx)⟩
  | abort m =>
    rw [← hends.of_abort hx]
    exact ⟨fun heq => (Outcome.abort.inj heq), fun heq => by rw [heq]⟩

theorem keeps_occupied_wakeup (tid : Nat) :
    KeepsIn A (fun k : Kernel => k.pm.running.isSome) (wakeup tid) := by
  intro k h
  obtain ⟨p, hp⟩ := Option.isSome_iff_exists.mp h
  have hsome : ∀ k', Frame k.pushes k.pulls p.state.pid k' → k'.pm.running.isSome := by
    intro k' hk'
    obtain ⟨q, hq, -⟩ := hk'.exists_running
    rw [hq]
    rfl
  exact (keeps_frame_wakeup tid k (frame_of_running hp)).weaken (fun _ => hsome) fun _ => hsome

theorem keeps_occupied_setQueue (c : CondId) (q : List Nat) :
    KeepsIn A (fun k : Kernel => k.pm.running.isSome) (setQueue c q) :=
  keeps_modify (by exact fun _ h => h)

/-- A thread that exits leaves an occupied slot to the threads that join it. -/
theorem exitThread_ends (h : Conserved [] k.pm) (hp : k.pm.running = some p) (status : ExitStatus) :
    ends (exitThread status) (fun _ _ => True) (fun _ _ => True) (· ≠ PM.slotEmpty) k := by
  unfold exitThread
  rw [ends_bind]
  refine (reapDeferred_frame h (frame_of_running hp)).mono ?_ (fun _ _ he => he.elim) fun _ ha => ha.elim
  rintro _ k₁ ⟨-, hframe₁⟩
  obtain ⟨q, hq, -⟩ := hframe₁.exists_running
  simp only [ends_bind, ends_gets, ends_sched, ends_attempt]
  refine (doExitThread_spec hq status fun _ hm => hm).imp ?_
  rintro tid pm ⟨-, -, hrunning, -⟩
  refine (keeps_notifyAll keeps_occupied_wakeup keeps_occupied_setQueue (.join tid)
    { k₁ with pm := pm } hrunning).weaken ?_ ?_
  · intro _ k₂ _
    exact (ends_pure _).mpr trivial
  · intro e k₂ hk₂
    obtain ⟨r, hr⟩ := Option.isSome_iff_exists.mp hk₂
    simp only [runningTid, ends_bind, ends_sched, ends_getRunning hr, ends_pure, ends_modify,
      ends_throw]

/-- The process that terminates another one stays in the slot. -/
theorem terminate_ends (h : k.pm.running.isSome) (target : Nat) :
    ends (terminate target) (fun _ _ => True) (fun _ _ => True) (· ≠ PM.slotEmpty) k := by
  have hcleanup : KeepsIn (· ≠ PM.slotEmpty) (fun k : Kernel => k.pm.running.isSome)
      (cleanupRendezvous target) :=
    (KeepsIn.bind (keeps_gets _) fun _ => (keeps_modify (by exact fun _ h => h)).ret).bind fun _ =>
      .forEach fun _ _ => (keeps_occupied_wakeup _).attempt.bind fun _ => keeps_pure _
  have hcheck : KeepsIn (· ≠ PM.slotEmpty) (fun k : Kernel => k.pm.running.isSome)
      (sched (PM.checkTerminate target)) :=
    keeps_read fun _ => .gets fun _ =>
      .ite (keeps_throw _) (.ite (keeps_throw _) (keeps_pure _))
  unfold terminate
  rw [ends_bind]
  refine (hcheck k h).weaken ?_ (fun _ _ _ => trivial)
  intro _ k₁ h₁
  rw [ends_bind]
  refine (hcleanup k₁ h₁).weaken ?_ (fun _ _ _ => trivial)
  intro _ k₂ _
  simp only [ends_bind, ends_gets, ends_sched]
  refine (terminateProcess_spec k₂.pm target).weaken ?_ (fun _ _ _ => trivial)
  intro _ pm _
  exact (ends_pure _).mpr trivial

/-- From every state a run reaches, whatever requests are pending and whoever owns which event: an
exit panics over the empty slot if and only if a request of another process waits for the exiting
process; the exit of a thread and the termination of a process do not. Of other panics nothing is
said. -/
theorem exit_panics_iff_awaited {kernelFrames : List Nat} {mem : Mm.MemState} {root : Nat}
    {interruptCapable : Bool} {k₀ : Kernel} (hreach : (kernelMachine kernelFrames).Reach
      (fun _ _ => True) (.boot mem root interruptCapable) k₀) (hpm : k.pm = k₀.pm)
    (hp : k.pm.running = some p) (hne : p.state.pid ≠ kernelPid) :
    (∀ status, exit status k = .abort PM.slotEmpty ↔ k.Awaited p.state.pid) ∧
      (∀ status, exitThread status k ≠ .abort PM.slotEmpty) ∧
        ∀ target, terminate target k ≠ .abort PM.slotEmpty := by
  have h : Conserved [] k.pm :=
    hpm ▸ closed_conserved.reach (conserved_boot mem root interruptCapable) hreach
  refine ⟨fun status => exit_panics_iff h hp hne status, fun status hx => ?_, fun target hx => ?_⟩
  · exact (exitThread_ends h hp status).of_abort hx rfl
  · exact (terminate_ends h.running target).of_abort hx rfl

/-- A process exits without that panic while a push from a second process to a third one waits. -/
theorem exit_alone : ∃ k, (kernelMachine []).Reach (fun _ _ => True) (.boot (.boot 128) 0 false) k ∧
    k.userRuns = true ∧ k.pushes.map (fun r => (r.pid, r.dstPid)) = [(1, 3)] ∧
      exit (.code 0) k ≠ .abort PM.slotEmpty := by
  obtain ⟨k, hk, huser, hpushes, hothers, hpulls, hpid⟩ := (kernelMachine []).exists_reach
    (.boot (.boot 128) 0 false)
    [.memory .newVmem, .createProcess 0 (.ok ()), .createProcess 0 (.ok ()),
      .createProcess 0 (.ok ()), .giveup, .push 3 3 0x40000000 4]
    (fun k => k.userRuns = true ∧ k.pushes.map (fun r => (r.pid, r.dstPid)) = [(1, 3)] ∧
      (∀ r ∈ k.pushes, r.dstPid ≠ 2) ∧ k.pulls = [] ∧ k.pm.runningPid = some 2)
    (by decide +kernel)
  obtain ⟨p, hp, hne⟩ := (Option.any_eq_true _ _).mp (Bool.and_eq_true_iff.mp huser).1
  rw [ProcessManager.runningPid, hp, Option.map_some, Option.some.injEq] at hpid
  refine ⟨k, hk, huser, hpushes, fun hx => ?_⟩
  rcases ((exit_panics_iff_awaited hk rfl hp (bne_iff_ne.mp hne)).1 (.code 0)).mp hx
    with ⟨r, hr, hawaits⟩ | ⟨r, hr, -⟩
  · exact hothers r hr (hawaits.2.trans hpid)
  · rw [hpulls] at hr
    exact List.not_mem_nil hr

/-- A process to which another one pushes panics the kernel when it exits. -/
theorem exit_with_pending_push_panics : ∃ k, (kernelMachine []).Reach (fun _ _ => True)
    (.boot (.boot 128) 0 false) k ∧ k.userRuns = true ∧
      exit (.code 0) k = .abort PM.slotEmpty := by
  obtain ⟨k, hk, huser, hpid, r, hr, hother, hdst⟩ := (kernelMachine []).exists_reach
    (.boot (.boot 128) 0 false)
    [.memory .newVmem, .createProcess 0 (.ok ()), .createProcess 0 (.ok ()), .giveup,
      .push 2 2 0x40000000 4]
    (fun k => k.userRuns = true ∧ k.pm.runningPid = some 2 ∧
      ∃ r ∈ k.pushes, r.pid ≠ 2 ∧ r.dstPid = 2) (by decide +kernel)
  obtain ⟨p, hp, hne⟩ := (Option.any_eq_true _ _).mp (Bool.and_eq_true_iff.mp huser).1
  rw [ProcessManager.runningPid, hp, Option.map_some, Option.some.injEq] at hpid
  have h := closed_conserved.reach (conserved_boot _ _ _) hk
  refine ⟨k, hk, huser, (exit_panics_iff h hp (bne_iff_ne.mp hne) (.code 0)).mpr (.inl ?_)⟩
  exact ⟨r, hr, hpid ▸ hother, hpid ▸ hdst⟩

end Ending
end Nanvix.Pm
