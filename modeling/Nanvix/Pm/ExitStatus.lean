import Nanvix.Pm.LedgerRefine

/-!
# The first exit status counts

A process ends with the status of the first exit call of its threads, if there was one:
the status is kept with the process, where later exit calls, terminations and the ends of
single threads find it.
-/
namespace Nanvix.Pm
open Config Library Library.Prog

/-- The status of the first exit call of a process. Exit calls are listed from the latest on. -/
def firstExit (exits : List (Nat × ExitStatus)) (pid : Nat) : Option ExitStatus :=
  exits.reverse.lookup pid

theorem firstExit_cons (exits : List (Nat × ExitStatus)) (pid n : Nat) (status : ExitStatus) :
    firstExit ((pid, status) :: exits) n =
      (firstExit exits n).or (if n = pid then some status else none) := by
  unfold firstExit
  rw [List.reverse_cons, List.lookup_append, List.lookup_cons, List.lookup_nil]
  by_cases h : n = pid
  · rw [if_pos h, beq_iff_eq.mpr h]
  · rw [if_neg h, beq_eq_false_iff_ne.mpr h]

theorem firstExit_eq_none {exits : List (Nat × ExitStatus)} {pid : Nat}
    (h : ∀ e ∈ exits, e.1 ≠ pid) : firstExit exits pid = none := by
  rw [firstExit, List.lookup_eq_none_iff]
  intro e he
  exact bne_iff_ne.mpr (h e (List.mem_reverse.mp he)).symm

/-- What a standing shows of the first exit call: it is pending, or the zombie has it. -/
def Recorded (first : Option ExitStatus) (s : Standing) : Prop :=
  match s.2 with
  | none => s.1.pendingExitStatus = first
  | some status => ∀ e, first = some e → status = e

theorem Recorded.bury {first : Option ExitStatus} {a b : Standing} (h : Recorded first a)
    (hbury : Buries a b) : Recorded first b := by
  cases hbury with
  | bury p status =>
    intro e he
    have hpending : p.pendingExitStatus = some e := h.trans he
    change p.pendingExitStatus.getD status = e
    rw [hpending]
    rfl

namespace Ledger
variable {π : Policy} {L L' : Ledger}

/-- Every standing shows the first exit call of its process. -/
structure Faithful (L : Ledger) : Prop where
  distinct : Distinct L
  bound : ∀ e ∈ L.exits, e.1 < L.nextPid
  recorded : ∀ s ∈ L.standings, Recorded (firstExit L.exits s.1.pid) s

/-- One standing changes, and no exit call is made. -/
theorem Faithful.replace (h : Faithful L) (hdistinct : Distinct L') {s s' : Standing}
    {rest : Multiset Standing} (hs : L.standings = s ::ₘ rest) (hs' : L'.standings = s' ::ₘ rest)
    (hnext : L'.nextPid = L.nextPid) (hexits : L'.exits = L.exits)
    (hstanding : Recorded (firstExit L.exits s.1.pid) s →
      Recorded (firstExit L.exits s'.1.pid) s') : Faithful L' := by
  constructor
  · exact hdistinct
  · rw [hexits, hnext]
    exact h.bound
  · intro t ht
    rw [hexits]
    rw [hs'] at ht
    rcases Multiset.mem_cons.mp ht with rfl | ht
    · apply hstanding
      apply h.recorded
      rw [hs]
      exact Multiset.mem_cons_self _ _
    · apply h.recorded
      rw [hs]
      exact Multiset.mem_cons_of_mem ht

theorem Faithful.of_same (h : Faithful L) (hdistinct : Distinct L')
    (hs : L'.standings = L.standings) (hnext : L'.nextPid = L.nextPid)
    (hexits : L'.exits = L.exits) : Faithful L' :=
  ⟨hdistinct, by rw [hexits, hnext]; exact h.bound, by rw [hexits, hs]; exact h.recorded⟩

/-- An exit call is recorded with the process that makes it, and with no other. -/
theorem Faithful.exit (h : Faithful L) (hdistinct : Distinct L') {p : ProcessState}
    {rest : Multiset Standing} (status : ExitStatus) (hs : L.standings = (p, none) ::ₘ rest)
    (hL' : L' = { L with
      standings := (p.setPendingExitStatus status, none) ::ₘ rest
      exits := (p.pid, status) :: L.exits }) : Faithful L' := by
  subst hL'
  have hp : Recorded (firstExit L.exits p.pid) (p, none) :=
    h.recorded (p, none) (hs ▸ Multiset.mem_cons_self _ _)
  refine ⟨hdistinct, ?_, ?_⟩
  · intro e he
    rcases List.mem_cons.mp he with rfl | he
    · apply h.distinct.bound
      rw [pids_cons hs]
      exact Multiset.mem_cons_self _ _
    · exact h.bound e he
  · intro s hmem
    change Recorded (firstExit ((p.pid, status) :: L.exits) s.1.pid) s
    rw [firstExit_cons]
    rcases Multiset.mem_cons.mp hmem with rfl | hmem
    · rw [ProcessState.pid_setPendingExitStatus, if_pos rfl]
      change (p.setPendingExitStatus status).pendingExitStatus = _
      rw [← show p.pendingExitStatus = firstExit L.exits p.pid from hp]
      unfold ProcessState.setPendingExitStatus
      cases hpending : p.pendingExitStatus with
      | none => rfl
      | some e => exact hpending
    · have hne : s.1.pid ≠ p.pid := by
        have hnodup := h.distinct.nodup
        rw [pids_cons hs, Multiset.nodup_cons] at hnodup
        intro heq
        exact hnodup.1 (heq ▸ Multiset.mem_map_of_mem _ hmem)
      rw [if_neg hne, Option.or_none]
      exact h.recorded s (hs ▸ Multiset.mem_cons_of_mem hmem)

theorem Step.faithful (h : Faithful L) (hstep : Step π L L') : Faithful L' := by
  have hdistinct : Distinct L' := hstep.distinct h.distinct
  cases hstep with
  | bury hs hbury =>
    apply h.replace hdistinct hs rfl rfl rfl
    rw [ProcessState.pid_eq_of_book hbury.book_eq]
    exact fun hrec => hrec.bury hbury
  | leave _ => exact h.of_same hdistinct rfl rfl rfl
  | create space =>
    refine ⟨hdistinct, fun e he => Nat.lt_succ_of_lt (h.bound e he), ?_⟩
    intro s hs
    rcases Multiset.mem_cons.mp hs with rfl | hs
    · exact (firstExit_eq_none fun e he => (h.bound e he).ne).symm
    · exact h.recorded s hs
  | spawn _ => exact h.of_same hdistinct rfl rfl rfl
  | exit status hs => exact h.exit hdistinct status hs rfl
  | harvest hs _ =>
    refine ⟨hdistinct, h.bound, fun s hmem => h.recorded s ?_⟩
    rw [hs]
    exact Multiset.mem_cons_of_mem hmem
  | edit hs hsame =>
    apply h.replace hdistinct hs rfl rfl rfl
    rw [hsame]
    exact id
  | register hs _ _ | unregister hs _ _ | post hs _ _ | overflow hs _ _ _ =>
    exact h.replace hdistinct hs rfl rfl rfl id
  | skip => exact h.of_same hdistinct rfl rfl rfl
  | fetch hs _ _ _ | lose hs _ _ => exact h.replace hdistinct hs rfl rfl rfl id
  | notice _ _ _ | forward _ _ _ => exact h.of_same hdistinct rfl rfl rfl

end Ledger

/-- The zombies have the status of their first exit call, and so has what a harvest reports. -/
structure FirstExitCounts (k : Kernel) : Prop where
  zombies : ∀ z ∈ k.pm.zombies, ∀ e, firstExit k.exits z.process.pid = some e → z.status = e
  reported : ∀ {pid status k'}, KM.harvestZombies k = .ok (some (pid, status)) k' →
    ∀ e, firstExit k.exits pid = some e → status = e
  /-- What a harvest reports is the zombie that died first. -/
  first : ∀ z zs, k.pm.KernelRuns → k.pm.zombies = z :: zs →
    ∃ k', KM.harvestZombies k = .ok (some (z.process.pid, z.status)) k'

/-- A harvest reports the number and status of a dead process. -/
theorem harvestZombies_reports (k : Kernel) :
    ends KM.harvestZombies (fun r _ => ∀ pid status, r = some (pid, status) →
      ∃ z ∈ k.pm.zombies, z.process.pid = pid ∧ z.status = status)
      (fun _ _ => True) (fun _ => True) k := by
  unfold KM.harvestZombies
  simp only [ends_bind, ends_sched]
  refine (popZombieProcess_spec k.pm).imp ?_
  rintro r pm (⟨rfl, -⟩ | ⟨z, zs, rfl, hz, -, -⟩)
  · rw [ends_pure]
    rintro _ _ ⟨⟩
  · simp only [ends_bind]
    refine (ends_true _ _).mono (fun _ _ _ => ?_) (fun _ _ _ => trivial) fun _ _ => trivial
    simp only [ends_modify, ends_pure]
    intro pid status heq
    cases heq
    exact ⟨z, hz ▸ List.mem_cons_self, rfl, rfl⟩

theorem mem_standings_zombie {pm : ProcessManager} {z : ZombieProcess} (h : z ∈ pm.zombies) :
    z.standing ∈ pm.standings :=
  Multiset.mem_add.mpr (.inr (List.mem_map_of_mem h))

end Nanvix.Pm
