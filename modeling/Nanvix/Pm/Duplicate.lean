import Nanvix.Mm.Clone
import Nanvix.Pm.Closure

/-!
# Duplicating a process

`duplicate_process` checks its arguments and the resources of the caller, reserves
identifiers, makes the memory of the child and only then commits the identifiers
and adds the process. Whatever fails, the process manager is left as it was; the
memory is left as it was when making the memory of the child can be undone.

## Implementation notes

The memory-mapped and port-mapped regions of a process are not part of its state
here; whether it has any is an argument. The thread of the child owns the kernel
stack, whose frames are returned next to the identifier.
-/
namespace Nanvix.Pm
open Config Library Library.Prog Mm KM

/-- What a forked thread starts with. -/
structure ThreadCreateArgs where
  userFn : Nat
  userStackBase : Nat
  userStackSize : Nat
  userTda : Option Nat

/-- The addresses that user code hands over lie in user space. -/
def ThreadCreateArgs.check (args : ThreadCreateArgs) : Except Error Unit :=
  if !isUserAddr args.userFn then
    .error ⟨.invalidArgument, "user function does not lie within the user address space"⟩
  else if !isUserRegion args.userStackBase args.userStackSize then
    .error ⟨.invalidArgument, "user stack does not lie within the user address space"⟩
  else if args.userTda.any fun tda => !isUserAddr tda then
    .error ⟨.invalidArgument,
      "user-space thread data area does not lie within the user address space"⟩
  else .ok ()

/-- `io` says that the process has memory-mapped or port-mapped regions. -/
def ProcessState.hasSpecialResources (p : ProcessState) (io : Bool) : Bool :=
  io || !p.events.isEmpty || !p.mailbox.isEmpty

/-- Identifiers that are reserved, and the counters after they are committed. -/
structure Reserved where
  pid : Nat
  nextPid : Nat
  tid : Nat
  nextTid : Nat

namespace KM

/-- The steps of `duplicate_process` before it allocates anything. -/
def admitDuplicate (args : ThreadCreateArgs) (io : Bool) : KM (RunningProcess × Reserved) := do
  let p ← sched PM.getRunning
  ofExcept args.check
  if p.state.hasSpecialResources io then
    throw ⟨.operationNotPermitted, "caller owns special resources (mmio/pmio/events/mailbox)"⟩
  else do
    let live ← sched (gets ProcessManager.liveCount)
    if maxProcesses ≤ live then throw ⟨.outOfMemory, "maximum number of processes reached"⟩
    else do
      let (pid, nextPid) ← sched PM.tryNextPid
      let (tid, nextTid) ← sched PM.tryNextTid
      return (p, ⟨pid, nextPid, tid, nextTid⟩)

/-- `duplicate_process`; the second part of the result is the kernel stack. -/
def duplicateProcess (args : ThreadCreateArgs) (io : Bool) : KM (Nat × List Nat) := do
  let (p, ids) ← admitDuplicate args io
  let (child, kernelStack) ← memory (MM.cloneSpace p.state.space)
  let now ← gets Kernel.now
  sched (PM.addProcess ids.pid ids.nextPid ids.tid ids.nextTid child false now)
  return (ids.pid, kernelStack)

end KM

variable {args : ThreadCreateArgs} {io : Bool} {k k' : Kernel} {p : RunningProcess}

/-- The call is not refused: the arguments and the resources of the caller pass, and there is
room for a process and a thread and for their identifiers. -/
structure Admitted (args : ThreadCreateArgs) (io : Bool) (p : RunningProcess)
    (pm : ProcessManager) : Prop where
  arguments : args.check = .ok ()
  resources : p.state.hasSpecialResources io = false
  processes : pm.liveCount < maxProcesses
  pid : pm.nextPid + 1 ≤ ThreadManager.maxIdentifier
  threads : pm.tm.liveCount < maxThreads
  tid : pm.tm.nextId + 1 ≤ ThreadManager.maxIdentifier

/-- The checks change nothing, the caller is the running process, and they pass exactly when the
call is admitted. -/
theorem admitDuplicate_ends (args : ThreadCreateArgs) (io : Bool) (hp : k.pm.running = some p) :
    ends (admitDuplicate args io)
      (fun r k' => (r = (p, ⟨k.pm.nextPid, k.pm.nextPid + 1, k.pm.tm.nextId, k.pm.tm.nextId + 1⟩) ∧
        k' = k) ∧ Admitted args io p k.pm)
      (fun _ k' => k' = k ∧ ¬Admitted args io p k.pm) (fun _ => False) k := by
  unfold admitDuplicate
  simp only [ends_bind, ends_sched, ends_getRunning hp]
  cases hargs : args.check with
  | error e =>
    refine (ends_ofExcept_error e).mpr ⟨rfl, fun h => ?_⟩
    rw [h.arguments] at hargs
    cases hargs
  | ok _ =>
    simp only [ends_ofExcept_ok, ends_ite, ends_throw, ends_bind, ends_sched, ends_gets,
      PM.tryNextPid, PM.tryNextTid, ends_pure]
    split_ifs with hres hlive hpid
    · refine ⟨trivial, fun h => ?_⟩
      rw [h.resources] at hres
      cases hres
    · exact ⟨trivial, fun h => Nat.not_lt.mpr hlive h.processes⟩
    · exact ⟨trivial, fun h => Nat.not_lt.mpr h.pid hpid⟩
    · unfold ThreadManager.tryNextTid
      split_ifs with hthreads htid
      · exact (ends_ofExcept_error _).mpr ⟨rfl, fun h => Nat.not_lt.mpr hthreads h.threads⟩
      · exact (ends_ofExcept_error _).mpr ⟨rfl, fun h => Nat.not_lt.mpr h.tid htid⟩
      · refine (ends_ofExcept_ok _).mpr ⟨⟨rfl, rfl⟩, hargs, ?_, ?_, ?_, ?_, ?_⟩
        · simpa using hres
        all_goals omega

/-- An admitted call passes the checks. -/
theorem admitDuplicate_of_admitted (hp : k.pm.running = some p) (h : Admitted args io p k.pm) :
    ∃ r, admitDuplicate args io k = .ok r k := by
  have hends := admitDuplicate_ends args io hp
  cases hrun : admitDuplicate args io k with
  | ok r k' =>
    obtain ⟨⟨-, rfl⟩, -⟩ := hends.of_ok hrun
    exact ⟨r, rfl⟩
  | err e k' => exact absurd h (hends.of_err hrun).2
  | abort m => exact (hends.of_abort hrun).elim

theorem memory_run {α : Type} (x : MM α) (k : Kernel) :
    memory x k = match x k.mem with
      | .ok a m => .ok a { k with mem := m }
      | .err e m => .err e { k with mem := m }
      | .abort msg => .abort msg := by
  cases h : x k.mem <;> simp only [memory, focus, h]

/-- A call that fails is refused, or cannot make the memory of the child. -/
theorem duplicateProcess_err_cases (hp : k.pm.running = some p) {e : Error}
    (hrun : duplicateProcess args io k = .err e k') :
    k' = k ∨ Admitted args io p k.pm ∧
      ∃ m, MM.cloneSpace p.state.space k.mem = .err e m ∧ k' = { k with mem := m } := by
  unfold duplicateProcess at hrun
  rcases bind_eq_err hrun with hpass | ⟨r, k₁, hpass, hrun⟩
  · exact Or.inl ((admitDuplicate_ends args io hp).of_err hpass).1
  obtain ⟨⟨rfl, rfl⟩, hadmitted⟩ := (admitDuplicate_ends args io hp).of_ok hpass
  refine Or.inr ⟨hadmitted, ?_⟩
  rcases bind_eq_err hrun with hmem | ⟨c, k₂, -, hrun⟩
  · rw [memory_run] at hmem
    cases hclone : MM.cloneSpace p.state.space k₁.mem with
    | err e' m =>
      rw [hclone] at hmem
      cases hmem
      exact ⟨m, rfl, rfl⟩
    | ok c m | abort m =>
      rw [hclone] at hmem
      cases hmem
  · cases hrun

/-- A call that is not refused fails when the memory of the child cannot be made. -/
theorem duplicateProcess_of_cloneSpace {r : RunningProcess × Reserved}
    (hp : k.pm.running = some p) (hpass : admitDuplicate args io k = .ok r k) {e : Error}
    {m : MemState} (hclone : MM.cloneSpace p.state.space k.mem = .err e m) :
    duplicateProcess args io k = .err e { k with mem := m } := by
  obtain ⟨⟨rfl, -⟩, -⟩ := (admitDuplicate_ends args io hp).of_ok hpass
  have hmem : memory (MM.cloneSpace p.state.space) k = .err e { k with mem := m } := by
    rw [memory_run, hclone]
  rw [duplicateProcess, bind_ok hpass]
  exact bind_err hmem

/-- The processes, the threads, the counters and live counts, the entries of the caller and the
counters of all frames are those before the call. -/
structure DuplicateUndone (parent : Nat) (k k' : Kernel) : Prop where
  pm : k'.pm = k.pm
  memory : CloneUndone parent k.mem k'.mem

/-- What runs of the memory manager reach, with processes that come and go. -/
theorem lifeMachine_sound {n : Nat} {l : LifeState} (hpos : 0 < n) (hn : n * pageSize ≤ usizeMax)
    (h : lifeMachine.Reach (fun _ _ => True) (.boot n) l) :
    (∃ held, Accounted held l.mem) ∧ Trimmed l.mem := by
  obtain ⟨leaked, hl⟩ := exists_keptWith hpos hn h
  exact ⟨⟨_, hl.accounted⟩, trimmed_of_reach h (trimmed_boot n)⟩

/-- In every state of the memory that runs reach, a duplication that fails has no effect if and only
if it is refused or the memory of the child can be undone. -/
theorem duplicateProcess_undone_iff {n : Nat} {l : LifeState} (hpos : 0 < n)
    (hn : n * pageSize ≤ usizeMax) (hreach : lifeMachine.Reach (fun _ _ => True) (.boot n) l)
    (hmem : k.mem = l.mem) (hp : k.pm.running = some p)
    (hlive : (k.mem.spaces p.state.space).isSome) :
    (∀ e k', duplicateProcess args io k = .err e k' → DuplicateUndone p.state.space k k') ↔
      (Admitted args io p k.pm → CloneUndoable p.state.space k.mem) := by
  obtain ⟨⟨held, hacc⟩, htrim⟩ := lifeMachine_sound hpos hn hreach
  rw [← hmem] at hacc htrim
  constructor
  · intro hundone hadmitted
    obtain ⟨r, hpass⟩ := admitDuplicate_of_admitted hp hadmitted
    refine (cloneSpace_undone_iff hacc htrim hlive).mp fun e m hclone => ?_
    exact (hundone e _ (duplicateProcess_of_cloneSpace hp hpass hclone)).memory
  · intro hundoable e k' hrun
    rcases duplicateProcess_err_cases hp hrun with rfl | ⟨hadmitted, m, hclone, rfl⟩
    · exact ⟨rfl, rfl, rfl⟩
    · exact ⟨rfl, (cloneSpace_undone_iff hacc htrim hlive).mpr (hundoable hadmitted) e m hclone⟩

/-- Arguments that pass the checks. -/
def callerArgs : ThreadCreateArgs := ⟨userBase, userBase, pageSize, none⟩

/-- Over any memory with a space, the kernel runs a process in that space, and a duplication passes
the checks. -/
theorem exists_caller (m : MemState) (hm : (m.spaces 0).isSome = true) :
    ∃ k p r, (kernelMachine []).Reach (fun _ _ => True) (.boot m 0 false) k ∧ k.mem = m ∧
      k.userRuns = true ∧ k.pm.running = some p ∧ p.state.space = 0 ∧
      admitDuplicate callerArgs false k = .ok r k := by
  refine ⟨_, _, _, (Machine.Reach.start.step (.createProcess 0 (.ok ())) ?_ trivial rfl).step
    .giveup ?_ trivial rfl, rfl, ?_, rfl, rfl, rfl⟩
  · exact Bool.and_eq_true_iff.mpr ⟨rfl, hm⟩
  · rfl
  · rfl

/-- A process with a page in each of two regions cannot be duplicated for want of a page table, and
no trace is left. -/
theorem duplicateProcess_undone_two_regions : ∃ l k p e k',
    lifeMachine.Reach (fun _ _ => True) (.boot 73) l ∧
    (kernelMachine []).Reach (fun _ _ => True) (.boot l.mem 0 false) k ∧
    k.userRuns = true ∧ k.pm.running = some p ∧
    duplicateProcess callerArgs false k = .err e k' ∧
    DuplicateUndone p.state.space k k' := by
  obtain ⟨l, hl, hspace, hmarks, hstops, hfails⟩ := lifeMachine.exists_reach (.boot 73)
    ((twoRegions []).map .mem)
    (fun l => (l.mem.spaces 0).isSome = true ∧ noneMarkedTwice 0 l.mem = true ∧
      (l.mem.linkStops 0 1).isSome = true ∧
      ((MM.cloneSpace 0 l.mem).fails fun _ => true) = true) (by decide +kernel)
  have hundoable : CloneUndoable 0 l.mem := by
    refine ⟨fun _ => undoesMarks_of_noneMarkedTwice 1 hmarks, fun hnone => ?_⟩
    rw [hnone] at hstops
    cases hstops
  obtain ⟨e, t, hclone, -⟩ := Outcome.of_fails hfails
  obtain ⟨k, p, r, hk, hmem, huser, hp, hzero, hpass⟩ := exists_caller l.mem hspace
  rw [← hmem] at hspace hundoable
  rw [← hzero] at hspace hundoable hclone
  rw [← hmem] at hclone
  have hrun := duplicateProcess_of_cloneSpace hp hpass hclone
  exact ⟨l, k, p, e, _, hl, hk, huser, hp, hrun, (duplicateProcess_undone_iff (by decide)
    (by decide) hl hmem hp hspace).mpr (fun _ => hundoable) e _ hrun⟩

/-- A process with one page is duplicated up to its kernel stack, for which there are no frames; the
frame of the page keeps the owner that the child was. -/
theorem duplicateProcess_leaves_owner : ∃ l k p e k',
    lifeMachine.Reach (fun _ _ => True) (.boot 70) l ∧
    (kernelMachine []).Reach (fun _ _ => True) (.boot l.mem 0 false) k ∧
    k.userRuns = true ∧ k.pm.running = some p ∧
    duplicateProcess callerArgs false k = .err e k' ∧
    ¬DuplicateUndone p.state.space k k' := by
  obtain ⟨l, hl, hspace, hfails⟩ := lifeMachine.exists_reach (.boot 70)
    ([.mem .newVmem, .mem (.allocUpages 0 firstUserPage .RDWR true 1 [] 1)] ++
      List.replicate 65 (.mem .newVmem))
    (fun l => (l.mem.spaces 0).isSome = true ∧ ((MM.cloneSpace 0 l.mem).fails fun t : MemState =>
      (l.mem.pte 0 firstUserPage).any fun p =>
        t.frames.refcount p.frame != l.mem.frames.refcount p.frame) = true) (by decide +kernel)
  obtain ⟨e, t, hclone, hcount⟩ := Outcome.of_fails hfails
  obtain ⟨k, p, r, hk, hmem, huser, hp, hzero, hpass⟩ := exists_caller l.mem hspace
  rw [← hzero, ← hmem] at hclone
  refine ⟨l, k, p, e, _, hl, hk, huser, hp, duplicateProcess_of_cloneSpace hp hpass hclone,
    fun hundone => ?_⟩
  obtain ⟨q, -, hq⟩ := Option.any_eq_true _ _ |>.mp hcount
  refine bne_iff_ne.mp hq ?_
  rw [← hmem]
  exact congrFun hundone.memory.refcount q.frame

end Nanvix.Pm
