import Nanvix.Library.Positions
import Nanvix.Mm.HarvestSpec

/-!
# Physical-frame accounting

The counter of a frame is the number of its owners: user entries of live spaces
and `UserFrame` handles for a user frame, page tables, directories and kernel
stacks for a kernel frame. Every command keeps this, unless an address space is
dropped that still has a user page: the drop releases the tables and forgets the
pages, and their frames are never freed.
-/
namespace Nanvix.Mm
open Config Library Library.Prog LifeState

variable {s s' : LifeState}
variable {E : Error → LifeState → Prop} {m : MemState} {k i p : Nat} {proc : ProcessMem}

/-- The counters are right, and every process has a live space of its own. -/
structure Settled (s : LifeState) : Prop where
  accounted : Accounted (s.handles ++ s.kernelStackFrames) s.mem
  live : ∀ p ∈ s.all, (s.mem.spaces p.space).isSome
  apart : (s.all.map ProcessMem.space).Nodup

/-- The same when each of the frames in `leaked` has an owner more that is gone. -/
structure SettledWith (leaked : List Nat) (s : LifeState) : Prop where
  accounted : Accounted (s.handles ++ (s.kernelStackFrames ++ leaked)) s.mem
  live : ∀ p ∈ s.all, (s.mem.spaces p.space).isSome
  apart : (s.all.map ProcessMem.space).Nodup

variable {leaked : List Nat}

theorem settledWith_nil : SettledWith [] s ↔ Settled s := by
  constructor
  · rintro ⟨hacc, hlive, hapart⟩
    rw [List.append_nil] at hacc
    exact ⟨hacc, hlive, hapart⟩
  · rintro ⟨hacc, hlive, hapart⟩
    rw [← List.append_nil s.kernelStackFrames] at hacc
    exact ⟨hacc, hlive, hapart⟩

/-- The same for any order of the processes. -/
theorem settledWith_iff {l : List ProcessMem} (hl : s.all.Perm l) : SettledWith leaked s ↔
    Accounted (s.handles ++ (l.flatMap processFrames ++ leaked)) s.mem ∧
      (∀ p ∈ l, (s.mem.spaces p.space).isSome) ∧ (l.map ProcessMem.space).Nodup := by
  have hcount : ∀ f, (s.handles ++ (l.flatMap processFrames ++ leaked)).count f =
      (s.handles ++ (s.kernelStackFrames ++ leaked)).count f := fun f =>
    (((hl.flatMap_right _).append_right leaked).append_left s.handles).symm.count_eq f
  constructor
  · intro h
    exact ⟨h.accounted.perm hcount, fun p hp => h.live p (hl.mem_iff.mpr hp),
      (hl.map _).nodup_iff.mp h.apart⟩
  · rintro ⟨hacc, hlive, hapart⟩
    exact ⟨hacc.perm fun f => (hcount f).symm, fun p hp => hlive p (hl.mem_iff.mp hp),
      (hl.map _).nodup_iff.mpr hapart⟩

/-- An address space is dropped only when it has no user page left, where harvesting has
unmapped the user stacks before. -/
def DropsEmpty : LifeCmd → LifeState → Prop
  | .dropVmem i, s => ∀ v, s.mem.pte i v = none
  | .harvestZombies, s => ∀ z, s.zombies.head? = some z →
      ∀ v, s.mem.pte z.space v ≠ none → MM.Harvested z v
  | _, _ => True

/-- The command neither unmaps the page, nor shares it, nor makes it read-only. -/
def MemCmd.Spares (i : Nat) (v : PageAligned) : MemCmd → Prop
  | .unmap j w => ¬(i = j ∧ v = w)
  | .uctrl j w access => i = j → v = w → access.isWritable = true
  | .linkUserPages parent _ => parent ≠ i
  | _ => True

/-- The same for the commands on the memory of processes. -/
def LifeCmd.Spares (s : LifeState) (i : Nat) (v : PageAligned) : LifeCmd → Prop
  | .mem c => c.Spares i v
  | .unmap j w => ¬(i = j ∧ v = w)
  | .harvestThread p t => ∀ proc thread, s.processes[p]? = some proc →
      proc.threads[t]? = some thread → ¬(i = proc.space ∧ MM.inUserStack thread v)
  | .harvestZombies => ∀ z, s.zombies.head? = some z → i ≠ z.space
  | .dropVmem j => i ≠ j
  | _ => True

theorem wp_onMem {α : Type} {x : MM α} {Q : α → LifeState → Prop} :
    wp (LM.onMem x) Q E s ↔
      wp x (fun a m => Q a { s with mem := m }) (fun e m => E e { s with mem := m }) s.mem :=
  wp_focus (fun s : LifeState => some s.mem) _ rfl

/-- A routine that keeps the spaces and the processes. -/
theorem SettledWith.withMem (h : SettledWith leaked s) {handles : List Nat}
    (hacc : Accounted (handles ++ (s.kernelStackFrames ++ leaked)) m)
    (hlive : ∀ i, (s.mem.spaces i).isSome → (m.spaces i).isSome) :
    SettledWith leaked { s with mem := m, handles := handles } :=
  ⟨hacc, fun p hp => hlive _ (h.live p hp), h.apart⟩

theorem takeHandle_wp (hk : k < s.handles.length) {Q : Nat → LifeState → Prop}
    (h : ∀ f, s.handles.Perm (f :: s.handles.eraseIdx k) →
      Q f { s with handles := s.handles.eraseIdx k }) : wp (LM.takeHandle k) Q E s := by
  have hget := List.getElem?_eq_getElem hk
  simp only [LM.takeHandle, wp_bind, wp_gets, hget, wp_modify, wp_pure]
  exact h _ (perm_cons_eraseIdx hget)

/-- A handle taken out of the list is still alive. -/
theorem SettledWith.taken (h : SettledWith leaked s) {f : Nat}
    (hperm : s.handles.Perm (f :: s.handles.eraseIdx k)) :
    Accounted (f :: (s.handles.eraseIdx k ++ (s.kernelStackFrames ++ leaked))) s.mem :=
  h.accounted.perm fun g => (hperm.append_right (s.kernelStackFrames ++ leaked)).symm.count_eq g

/-- What every command keeps: right counters and the number of frames. -/
structure Kept (n : Nat) (s : LifeState) : Prop extends Settled s where
  capacity : s.mem.frames.capacity = n

/-- The same with leaked frames. -/
structure KeptWith (leaked : List Nat) (n : Nat) (s : LifeState) : Prop
    extends SettledWith leaked s where
  capacity : s.mem.frames.capacity = n

variable {n : Nat}

theorem keptWith_nil : KeptWith [] n s ↔ Kept n s :=
  ⟨fun h => ⟨settledWith_nil.mp h.toSettledWith, h.capacity⟩,
    fun h => ⟨settledWith_nil.mpr h.toSettled, h.capacity⟩⟩

/-- A step of the memory alone. -/
theorem KeptWith.sameSpaces (h : KeptWith leaked n s) {handles : List Nat}
    (hacc : Accounted (handles ++ (s.kernelStackFrames ++ leaked)) m) (hsp : SameSpaces s.mem m) :
    KeptWith leaked n { s with mem := m, handles := handles } :=
  ⟨h.withMem hacc fun i hi => (hsp.live i).trans hi, hsp.capacity.trans h.capacity⟩

/-- A command keeps the counters right, up to frames that it leaks. -/
def Leaks (leaked : List Nat) (n : Nat) (c : LifeCmd) (s t : LifeState) : Prop :=
  ∃ more, KeptWith (more ++ leaked) n t ∧ (DropsEmpty c s → more = [])

/-- Entries of spared pages stay, and no frame gets a second owner. -/
structure PagesKept (spared : Nat → PageAligned → Prop) (m m' : MemState) : Prop where
  owners : NoNewOwners m m'
  kept : ∀ i v, spared i v → m.pte i v ≠ none → m'.pte i v = m.pte i v

theorem PagesKept.of_eq {spared : Nat → PageAligned → Prop} {m' : MemState}
    (howners : NoNewOwners m m') (hpte : m'.pte = m.pte) : PagesKept spared m m' :=
  ⟨howners, fun _ _ _ _ => by rw [hpte]⟩

theorem MM.Shrinks.pagesKept {gone spared : Nat → PageAligned → Prop} {m' : MemState}
    (h : MM.Shrinks gone m m') (hgone : ∀ i v, spared i v → ¬gone i v) : PagesKept spared m m' :=
  ⟨fun g => (h.owners g).trans (Nat.le_max_left _ _), fun i v hspared _ =>
    h.kept i v (hgone i v hspared)⟩

/-- What a command left of counters and pages. -/
structure Lived (leaked : List Nat) (n : Nat) (c : LifeCmd) (s t : LifeState) : Prop where
  leaks : Leaks leaked n c s t
  pages : (∃ d, c = .mem d ∧
      Effect (s.handles ++ (s.kernelStackFrames ++ leaked)) d s.mem t.mem) ∨
    PagesKept (c.Spares s) s.mem t.mem

theorem KeptWith.lived {c : LifeCmd} (h : KeptWith leaked n s')
    (hpages : PagesKept (c.Spares s) s.mem s'.mem) : Lived leaked n c s s' :=
  ⟨⟨[], h, fun _ => rfl⟩, .inr hpages⟩

theorem KeptWith.lived_same {c : LifeCmd} (h : KeptWith leaked n s') (hmem : s'.mem = s.mem) :
    Lived leaked n c s s' :=
  h.lived (.of_eq (hmem ▸ .refl _) (by rw [hmem]))

/-- The command keeps the counters right. -/
def Keeping (leaked : List Nat) (n : Nat) (c : LifeCmd) (s : LifeState) : Prop :=
  wp (lifeMachine.exec c) (fun _ t => Lived leaked n c s t) (fun _ t => Lived leaked n c s t) s

section Handles

variable (h : KeptWith leaked n s)
include h

theorem mem_kept {c : MemCmd} (henabled : c.enabled s.mem = true) :
    Keeping leaked n (.mem c) s := by
  have hpost : ∀ m, Performed (s.handles ++ (s.kernelStackFrames ++ leaked)) c s.mem m →
      Lived leaked n (.mem c) s { s with mem := m } := fun m hm =>
    ⟨⟨[], ⟨h.withMem hm.accounted hm.live, hm.capacity.trans h.capacity⟩, fun _ => rfl⟩,
      .inl ⟨c, rfl, hm.effect⟩⟩
  change wp (LM.onMem c.exec) _ _ s
  rw [wp_onMem]
  exact (memMachine_performed c h.accounted henabled).mono (fun _ => hpost) (fun _ => hpost)

theorem allocUserFrame_kept : Keeping leaked n .allocUserFrame s := by
  change wp (LM.onMem MM.allocUserFrame >>= fun f => modify _) _ _ s
  rw [wp_bind, wp_onMem]
  refine (MM.allocUserFrame_wp h.accounted).mono ?_ ?_
  · rintro f _ ⟨⟨hacc, hzero, a, rfl, hcap, hcount⟩, -⟩
    rw [wp_modify]
    refine (h.sameSpaces hacc ((SameSpaces.refl _).after_frames hcap)).lived (.of_eq ?_ rfl)
    intro g
    rw [hcount, Function.update_apply]
    split_ifs <;> omega
  · rintro e m ⟨rfl, -⟩
    exact h.lived_same rfl

theorem map_kept {v : PageAligned} {access : AccessPermission}
    (henabled : lifeMachine.enabled (.map k i v access) s = true) :
    Keeping leaked n (.map k i v access) s := by
  simp only [lifeMachine, LifeCmd.enabled, Bool.and_eq_true, decide_eq_true_eq] at henabled
  obtain ⟨hk, hi⟩ := henabled
  obtain ⟨vm, hvm⟩ := Option.isSome_iff_exists.mp hi
  change wp (LM.takeHandle k >>= fun f => LM.onMem (MM.map i f v access)) _ _ s
  rw [wp_bind]
  refine takeHandle_wp hk fun f hperm => ?_
  rw [wp_onMem]
  refine (MM.map_wp (h.taken hperm) hvm).mono ?_ ?_
  · rintro _ m ⟨hacc, hq, -, hnone, hpte⟩
    refine (h.sameSpaces hacc hq.spaces).lived ⟨hq.owners, fun j w _ hsome => ?_⟩
    rw [hpte, setPte_of_ne]
    rintro ⟨rfl, rfl⟩
    exact hsome hnone
  · rintro e m ⟨hacc, hsp, -, -, howners, hpte, -⟩
    exact (h.sameSpaces hacc hsp).lived (.of_eq howners hpte)

theorem unmap_kept {v : PageAligned} (hi : (s.mem.spaces i).isSome) :
    Keeping leaked n (.unmap i v) s := by
  obtain ⟨vm, hvm⟩ := Option.isSome_iff_exists.mp hi
  change wp (LM.onMem (MM.unmap i v) >>= fun r => _) _ _ s
  rw [wp_bind, wp_onMem]
  refine (MM.unmap_wp h.accounted hvm).mono ?_ ?_
  · rintro r m (⟨rfl, -, rfl⟩ | ⟨p, -, rfl, hun⟩)
    · rw [wp_pure]
      exact h.lived_same rfl
    · rw [wp_modify]
      exact (h.sameSpaces hun.accounted hun.spaces).lived
        ⟨fun g => (hun.owners g).trans (Nat.le_max_left _ _), fun j w hspared _ => by
          rw [hun.pte, setPte_of_ne hspared]⟩
  · rintro e m ⟨-, rfl⟩
    exact h.lived_same rfl

theorem dropFrame_kept (hk : k < s.handles.length) : Keeping leaked n (.dropFrame k) s := by
  change wp (LM.takeHandle k >>= fun f => LM.onMem (MM.dropFrame f)) _ _ s
  rw [wp_bind]
  refine takeHandle_wp hk fun f hperm => ?_
  rw [wp_onMem]
  refine (MM.dropFrame_wp (h.taken hperm)).total ?_
  rintro _ _ ⟨hacc, a, rfl, hcap, hcount⟩
  refine (h.sameSpaces hacc ((SameSpaces.refl _).after_frames hcap)).lived (.of_eq ?_ rfl)
  intro g
  rw [hcount, Function.update_apply]
  split_ifs with hgf
  · subst hgf
    omega
  · exact Nat.le_max_left _ _

end Handles

section Processes

/-- The processes with one of them first. -/
theorem all_perm (h : s.processes[p]? = some proc) :
    s.all.Perm (proc :: (s.processes.eraseIdx p ++ s.zombies)) :=
  (perm_cons_eraseIdx h).append_right s.zombies

/-- A process gets another set of threads, for frames that are handles before. -/
theorem KeptWith.setThreads (h : KeptWith leaked n s)
    (hp : s.processes[p]? = some proc) {threads : List ThreadStacks} (hsp : SameSpaces s.mem m)
    (hacc : Accounted (threads.flatMap stackFrames ++ (s.handles ++
      ((s.processes.eraseIdx p ++ s.zombies).flatMap processFrames ++ leaked))) m) :
    KeptWith leaked n { s with
      mem := m, processes := s.processes.set p { proc with threads := threads } } := by
  obtain ⟨-, hlive, hapart⟩ := (settledWith_iff (all_perm hp)).mp h.toSettledWith
  have hperm : all { s with
      mem := m, processes := s.processes.set p { proc with threads := threads } }
      |>.Perm ({ proc with threads := threads } :: (s.processes.eraseIdx p ++ s.zombies)) :=
    (set_perm_cons hp _).append_right s.zombies
  refine ⟨(settledWith_iff hperm).mpr ⟨hacc.perm fun f => ?_, fun q hq => ?_, hapart⟩,
    hsp.capacity.trans h.capacity⟩
  · simp only [List.flatMap_cons, List.count_append, processFrames]
    omega
  · refine (hsp.live _).trans ?_
    rcases List.mem_cons.mp hq with rfl | hq
    · exact hlive proc List.mem_cons_self
    · exact hlive q (List.mem_cons_of_mem _ hq)

theorem getProcess_wp (hp : s.processes[p]? = some proc)
    {Q : ProcessMem → LifeState → Prop} (h : Q proc s) :
    wp (LM.getProcess p) Q E s := by
  simp only [LM.getProcess, wp_bind, wp_gets, hp, wp_pure]
  exact h

/-- The frames of a process next to those of the others. -/
theorem SettledWith.split (h : SettledWith leaked s) (hp : s.processes[p]? = some proc) :
    Accounted (processFrames proc ++ (s.handles ++
      ((s.processes.eraseIdx p ++ s.zombies).flatMap processFrames ++ leaked)))
      s.mem := by
  refine ((settledWith_iff (all_perm hp)).mp h).1.perm fun f => ?_
  simp only [List.flatMap_cons, List.count_append]
  omega

/-- The frames of a thread next to those of the others. -/
theorem KeptWith.splitThread (h : KeptWith leaked n s) {t : Nat}
    (hp : s.processes[p]? = some proc) {thread : ThreadStacks}
    (ht : proc.threads[t]? = some thread) :
    Accounted (stackFrames thread ++
      ((proc.threads.eraseIdx t).flatMap stackFrames ++ (s.handles ++
        ((s.processes.eraseIdx p ++ s.zombies).flatMap processFrames ++
          leaked)))) s.mem ∧
      (s.mem.spaces proc.space).isSome := by
  have hperm := (perm_cons_eraseIdx ht).flatMap_right stackFrames
  rw [List.flatMap_cons] at hperm
  refine ⟨(h.split hp).perm fun f => ?_, ?_⟩
  · rw [← List.append_assoc]
    exact (hperm.append_right _).symm.count_eq f
  · exact h.live proc ((all_perm hp).mem_iff.mpr List.mem_cons_self)

theorem not_owned (h : s.owned i = false) : ∀ p ∈ s.all, p.space ≠ i := by
  intro p hp heq
  have hany : s.owned i = true := List.any_eq_true.mpr ⟨p, hp, by rw [heq, beq_self_eq_true]⟩
  cases h.symm.trans hany

section
variable (h : KeptWith leaked n s)
include h

theorem createProcess_kept {userStack : Option PageAligned}
    (henabled : lifeMachine.enabled (.createProcess i userStack) s = true) :
    Keeping leaked n (.createProcess i userStack) s := by
  simp only [lifeMachine, LifeCmd.enabled, Bool.and_eq_true, Bool.not_eq_true'] at henabled
  obtain ⟨hi, howned⟩ := henabled
  change wp (LM.onMem MM.newKernelStack >>= fun k => modify _) _ _ s
  rw [wp_bind, wp_onMem]
  refine ((MM.newKernelStack_wp h.accounted).mono (fun _ _ hs => hs) fun _ _ he => he.1).stays
    (fun _ => h.lived_same rfl) ?_
  rintro kernelStack m ⟨hacc, hsp, howners, hpte⟩
  rw [wp_modify]
  refine KeptWith.lived ?_ (.of_eq howners hpte)
  have hperm : all { s with
      mem := m, processes := s.processes ++ [⟨i, [⟨some kernelStack, userStack⟩]⟩] }
      |>.Perm (⟨i, [⟨some kernelStack, userStack⟩]⟩ :: s.all) :=
    (List.perm_append_singleton _ _).append_right s.zombies
  refine ⟨(settledWith_iff hperm).mpr ⟨hacc.perm fun f => ?_, fun q hq => ?_, ?_⟩,
    hsp.capacity.trans h.capacity⟩
  · simp only [List.flatMap_cons, List.flatMap_nil, List.append_nil, List.count_append,
      processFrames, stackFrames, Option.getD_some,
      kernelStackFrames]
    omega
  · refine (hsp.live _).trans ?_
    rcases List.mem_cons.mp hq with rfl | hq
    · exact hi
    · exact h.live q hq
  · refine List.nodup_cons.mpr ⟨fun hmem => ?_, h.apart⟩
    obtain ⟨q, hq, hspace⟩ := List.mem_map.mp hmem
    exact not_owned howned q hq hspace

theorem createThread_kept (hp : p < s.processes.length) : Keeping leaked n (.createThread p) s := by
  have hget := List.getElem?_eq_getElem hp
  change wp (LM.getProcess p >>= fun proc => LM.onMem MM.newKernelStack >>= fun k => modify _) _ _ s
  rw [wp_bind]
  refine getProcess_wp hget ?_
  rw [wp_bind, wp_onMem]
  refine ((MM.newKernelStack_wp (h.split hget)).mono (fun _ _ hs => hs) fun _ _ he => he.1).stays
    (fun _ => h.lived_same rfl) ?_
  rintro kernelStack m ⟨hacc, hsp, howners, hpte⟩
  rw [wp_modify]
  refine (h.setThreads hget hsp (hacc.perm fun f => ?_)).lived (.of_eq howners hpte)
  simp only [List.flatMap_append, List.flatMap_cons, List.flatMap_nil, List.append_nil,
    List.count_append, processFrames, stackFrames, Option.getD_some]
  omega

theorem harvestThread_kept {t : Nat}
    (henabled : lifeMachine.enabled (.harvestThread p t) s = true) :
    Keeping leaked n (.harvestThread p t) s := by
  simp only [lifeMachine, LifeCmd.enabled] at henabled
  cases hget : s.processes[p]? with
  | none =>
    rw [hget] at henabled
    cases henabled
  | some proc =>
    rw [hget, Option.any_some, decide_eq_true_eq] at henabled
    have hthread := List.getElem?_eq_getElem henabled
    change wp (LM.getProcess p >>= fun proc => _) _ _ s
    rw [wp_bind]
    refine getProcess_wp hget ?_
    simp only [hthread, wp_bind, wp_modify]
    rw [wp_onMem]
    obtain ⟨hacc, hlive⟩ := h.splitThread hget hthread
    refine (MM.harvestThread_wp hacc hlive).total ?_
    rintro _ m ⟨hacc', hsp, hshrink, -⟩
    exact (h.setThreads hget hsp hacc').lived (hshrink.pagesKept fun j w hspared =>
      hspared proc _ hget hthread)

theorem terminate_kept (hp : p < s.processes.length) : Keeping leaked n (.terminate p) s := by
  have hget := List.getElem?_eq_getElem hp
  change wp (LM.getProcess p >>= fun proc => modify _) _ _ s
  rw [wp_bind]
  refine getProcess_wp hget ?_
  rw [wp_modify]
  have hperm : all { s with
      processes := s.processes.eraseIdx p, zombies := s.zombies ++ [s.processes[p]] }
      |>.Perm (s.processes[p] :: (s.processes.eraseIdx p ++ s.zombies)) := by
    rw [all, ← List.append_assoc]
    exact List.perm_append_singleton _ _
  have hsettled := (settledWith_iff (all_perm hget)).mp h.toSettledWith
  exact KeptWith.lived_same ⟨(settledWith_iff hperm).mpr hsettled, h.capacity⟩ rfl

variable {z : ProcessMem} {zs : List ProcessMem}

/-- Taking a process out of the lists, with its space. -/
theorem KeptWith.removeProcess (hz : s.zombies = z :: zs) {leaked' : List Nat}
    (hacc : Accounted (s.handles ++ ((s.processes ++ zs).flatMap processFrames ++
      leaked')) m) (hlive : ∀ j, j ≠ z.space → (m.spaces j).isSome = (s.mem.spaces j).isSome)
    (hcap : m.frames.capacity = s.mem.frames.capacity) :
    KeptWith leaked' n { s with mem := m, zombies := zs } := by
  have hperm : s.all.Perm (z :: (s.processes ++ zs)) := by
    rw [all, hz]
    exact List.perm_middle
  obtain ⟨-, hold, hapart⟩ := (settledWith_iff hperm).mp h.toSettledWith
  rw [List.map_cons, List.nodup_cons] at hapart
  refine ⟨⟨hacc, fun p hp => ?_, hapart.2⟩, hcap.trans h.capacity⟩
  have hne : p.space ≠ z.space := fun heq => hapart.1 (heq ▸ List.mem_map_of_mem hp)
  exact (hlive p.space hne).trans (hold p (List.mem_cons_of_mem z hp))

/-- The frames of a zombie next to those of the others. -/
theorem KeptWith.splitZombie (hz : s.zombies = z :: zs) :
    Accounted (processFrames z ++ (s.handles ++
      ((s.processes ++ zs).flatMap processFrames ++ leaked))) s.mem ∧
      (s.mem.spaces z.space).isSome := by
  have hperm : s.all.Perm (z :: (s.processes ++ zs)) := by
    rw [all, hz]
    exact List.perm_middle
  obtain ⟨hacc, hlive, -⟩ := (settledWith_iff hperm).mp h.toSettledWith
  refine ⟨hacc.perm fun f => ?_, hlive z List.mem_cons_self⟩
  simp only [List.flatMap_cons, List.count_append]
  omega

end

theorem harvestZombies_kept (h : KeptWith leaked n s) : Keeping leaked n .harvestZombies s := by
  change wp (gets (fun s => s.zombies) >>= fun zombies => _) _ _ s
  rw [wp_bind, wp_gets]
  cases hz : s.zombies with
  | nil =>
    simp only [wp_pure]
    exact h.lived_same rfl
  | cons z zs =>
    simp only [wp_bind, wp_modify]
    rw [wp_onMem]
    obtain ⟨hsplit, hlive⟩ := h.splitZombie hz
    refine (MM.harvestProcess_wp hsplit hlive).total ?_
    rintro _ m ⟨more, hacc, hnone, hspaces, hcap, hshrink⟩
    have hhead : s.zombies.head? = some z := by rw [hz]; rfl
    refine ⟨⟨more, h.removeProcess hz (hacc.perm fun f => ?_) hspaces hcap, fun hguard => ?_⟩,
      .inr (hshrink.pagesKept fun j w hspared => hspared z hhead)⟩
    · simp only [List.count_append]
      omega
    · exact hnone (hguard z hhead)

theorem dropVmem_kept (h : KeptWith leaked n s)
    (henabled : lifeMachine.enabled (.dropVmem i) s = true) :
    Keeping leaked n (.dropVmem i) s := by
  simp only [lifeMachine, LifeCmd.enabled, Bool.and_eq_true, Bool.not_eq_true'] at henabled
  obtain ⟨hi, howned⟩ := henabled
  obtain ⟨vm, hvm⟩ := Option.isSome_iff_exists.mp hi
  change wp (LM.onMem (MM.dropVmem i)) _ _ s
  rw [wp_onMem]
  refine (MM.dropVmem_wp h.accounted hvm).total ?_
  rintro _ m ⟨hacc, hspaces, -, hcap, hle⟩
  refine ⟨⟨vm.userFrames, ⟨⟨hacc.perm fun f => ?_, fun p hp => ?_, h.apart⟩,
    hcap.trans h.capacity⟩, fun hguard => ?_⟩,
    .inr ⟨fun g => (hle g).trans (Nat.le_max_left _ _), fun j w hspared _ => ?_⟩⟩
  · simp only [List.count_append, kernelStackFrames, all]
    omega
  · change (m.spaces p.space).isSome
    rw [hspaces, Function.update_of_ne (not_owned howned p hp)]
    exact h.live p hp
  · refine Vmem.userFrames_eq_nil fun v => ?_
    rw [← Accounted.pte_of_space hvm]
    exact hguard v
  · change MemState.pte m j w = _
    rw [MemState.pte, hspaces, Function.update_of_ne hspared]
    rfl

end Processes

/-- Every command keeps the counters right, up to the pages of a space that it drops. -/
theorem lifeMachine_lived (c : LifeCmd) (h : KeptWith leaked n s)
    (henabled : lifeMachine.enabled c s = true) : Keeping leaked n c s := by
  cases c with
  | mem c => exact mem_kept h henabled
  | allocUserFrame => exact allocUserFrame_kept h
  | map k i v access => exact map_kept h henabled
  | unmap i v => exact unmap_kept h henabled
  | dropFrame k => exact dropFrame_kept h (of_decide_eq_true henabled)
  | createProcess i userStack => exact createProcess_kept h henabled
  | createThread p => exact createThread_kept h (of_decide_eq_true henabled)
  | harvestThread p t => exact harvestThread_kept h henabled
  | terminate p => exact terminate_kept h (of_decide_eq_true henabled)
  | harvestZombies => exact harvestZombies_kept h
  | dropVmem i => exact dropVmem_kept h henabled

/-- Every command keeps the counters right when spaces are dropped without user pages. -/
theorem lifeMachine_kept (c : LifeCmd) (h : Kept n s) (henabled : lifeMachine.enabled c s = true)
    (hguard : DropsEmpty c s) :
    wp (lifeMachine.exec c) (fun _ t => Kept n t) (fun _ t => Kept n t) s := by
  have hpost : ∀ t, Lived [] n c s t → Kept n t := by
    rintro t ⟨⟨more, ht, hnone⟩, -⟩
    rw [hnone hguard] at ht
    exact keptWith_nil.mp ht
  exact (lifeMachine_lived c (keptWith_nil.mpr h) henabled).mono (fun _ => hpost) (fun _ => hpost)

section Owners
variable {f : Nat}

/-- The present user entries of live spaces that map a frame. -/
def MemState.userPtes (f : Nat) (s : MemState) : Nat :=
  tally (Finset.range s.numSpaces) (fun o : Option Vmem => o.elim 0 (·.userRefs f)) s.spaces

/-- The page tables and directories of live spaces that are stored in a frame. -/
def MemState.tablePages (f : Nat) (s : MemState) : Nat :=
  tally (Finset.range s.numSpaces) (fun o : Option Vmem => o.elim 0 (·.kernelRefs f)) s.spaces

theorem MemState.refs_eq (f : Nat) (s : MemState) : s.refs f = s.userPtes f + s.tablePages f := by
  have hweight : spaceRefs f = fun o => o.elim 0 fun vm => vm.userRefs f + vm.kernelRefs f := by
    funext o
    cases o <;> rfl
  unfold refs
  rw [hweight]
  exact tally_elim_add (Vmem.userRefs f) (Vmem.kernelRefs f) s.spaces

/-- The owners of a frame as a user frame. -/
def LifeState.userOwners (f : Nat) (s : LifeState) : Nat := s.mem.userPtes f + s.handles.count f

/-- The owners of a frame as a kernel frame. -/
def LifeState.kernelOwners (f : Nat) (s : LifeState) : Nat :=
  s.mem.tablePages f + s.kernelStackFrames.count f

/-- The number of frames that have an owner. -/
def LifeState.ownedFrames (s : LifeState) : Nat :=
  ((Finset.range s.mem.frames.capacity).filter fun f =>
    s.userOwners f + s.kernelOwners f ≠ 0).card

theorem SettledWith.refcount_eq (h : SettledWith leaked s) (f : Nat) :
    s.mem.frames.refcount f = s.userOwners f + s.kernelOwners f + leaked.count f := by
  have hcount := h.accounted.count f
  rw [MemState.refs_eq, List.count_append, List.count_append] at hcount
  unfold userOwners kernelOwners
  omega

theorem Settled.refcount_eq (h : Settled s) (f : Nat) :
    s.mem.frames.refcount f = s.userOwners f + s.kernelOwners f :=
  (settledWith_nil.mpr h).refcount_eq f

/-- The free frames are those that nobody owns. -/
theorem Settled.freeCount_add (h : Settled s) :
    s.mem.frames.freeCount + s.ownedFrames = s.mem.frames.capacity := by
  have hfree := h.accounted.valid.freeCount_eq
  simp only [h.refcount_eq] at hfree
  have hsplit := Finset.card_filter_add_card_filter_not
    (s := Finset.range s.mem.frames.capacity) (fun f => s.userOwners f + s.kernelOwners f = 0)
  rw [Finset.card_range] at hsplit
  rw [hfree]
  exact hsplit

end Owners

/-- Counters and free frames follow the owners, seen from an earlier state. -/
structure FramesFollowOwners (s₀ s : LifeState) : Prop where
  refcount : ∀ f, s.kernelOwners f = 0 → s.mem.frames.refcount f = s.userOwners f
  freed : ∀ f, s.kernelOwners f = 0 → s.userOwners f = 0 → s.mem.frames.bitmap.bits f = false
  freeCount : s.ownedFrames = s₀.ownedFrames → s.mem.frames.freeCount = s₀.mem.frames.freeCount

/-- Along every run that drops spaces without user pages only, counters are owner counts. -/
theorem frames_follow_owners {s₀ : LifeState} (h₀ : Settled s₀)
    (hreach : lifeMachine.Reach DropsEmpty s₀ s) : FramesFollowOwners s₀ s := by
  have hkept : Kept s₀.mem.frames.capacity s :=
    hreach.invariant ⟨h₀, rfl⟩ fun c _ ht => lifeMachine_kept c ht
  refine ⟨fun f hf => ?_, fun f hk hu => ?_, fun howned => ?_⟩
  · rw [hkept.refcount_eq, hf, Nat.add_zero]
  · have hzero := hkept.refcount_eq f
    rw [hk, hu] at hzero
    rw [← Bool.not_eq_true, hkept.accounted.valid.bit_iff, hzero]
    exact Nat.lt_irrefl 0
  · have hnow := hkept.freeCount_add
    have hthen := h₀.freeCount_add
    rw [hkept.capacity] at hnow
    omega

/-- The space shows no user page. -/
def noUserPage (i : Nat) (s : MemState) : Bool :=
  (s.spaces i).all fun vm => vm.userMappings.isEmpty

theorem pte_of_noUserPage (h : noUserPage i m = true) (v : PageAligned) : m.pte i v = none := by
  rw [Option.eq_none_iff_forall_ne_some]
  intro p hp
  obtain ⟨vm, hvm, hv⟩ := Accounted.pte_eq_some hp
  rw [noUserPage, hvm, Option.all_some, List.isEmpty_iff] at h
  have hmem := Vmem.mem_userMappings.mpr hv
  rw [h] at hmem
  cases hmem

/-- A check that a space is dropped without user pages. -/
def dropsNoPage : LifeCmd → LifeState → Bool
  | .dropVmem i, s => noUserPage i s.mem
  | .harvestZombies, s => s.zombies.head?.all fun z => noUserPage z.space s.mem
  | _, _ => true

theorem dropsEmpty_of_dropsNoPage (c : LifeCmd) (s : LifeState) (h : dropsNoPage c s = true) :
    DropsEmpty c s := by
  cases c with
  | dropVmem i => exact pte_of_noUserPage h
  | harvestZombies =>
    intro z hz v hv
    rw [dropsNoPage, hz, Option.all_some] at h
    exact absurd (pte_of_noUserPage h v) hv
  | _ => trivial

/-- No address space, no process and no handle, over free frames. -/
def LifeState.boot (n : Nat) : LifeState := ⟨.boot n, [], [], []⟩

theorem settled_boot {n : Nat} (hpos : 0 < n) (hn : n * pageSize ≤ usizeMax) : Settled (.boot n) :=
  ⟨accounted_boot hpos hn, List.forall_mem_nil _, List.nodup_nil⟩

section AnyRun

variable (hpos : 0 < n) (hn : n * pageSize ≤ usizeMax)
variable (hreach : lifeMachine.Reach (fun _ _ => True) (.boot n) s)
include hpos hn hreach

theorem exists_keptWith : ∃ leaked, KeptWith leaked n s := by
  refine hreach.invariant (I := fun s => ∃ leaked, KeptWith leaked n s) ?_ ?_
  · exact ⟨[], keptWith_nil.mpr ⟨settled_boot hpos hn, rfl⟩⟩
  · rintro c t ⟨leaked, ht⟩ henabled -
    exact (lifeMachine_lived c ht henabled).mono (fun _ _ ⟨⟨_, hmore, _⟩, _⟩ => ⟨_, hmore⟩)
      (fun _ _ ⟨⟨_, hmore, _⟩, _⟩ => ⟨_, hmore⟩)

/-- In every run, also one that leaks frames, no call panics. -/
theorem lifeMachine_never_panics (c : LifeCmd) (henabled : lifeMachine.enabled c s = true)
    (message : String) : lifeMachine.exec c s ≠ .abort message := by
  obtain ⟨leaked, h⟩ := exists_keptWith hpos hn hreach
  exact (lifeMachine_lived c h henabled).not_abort message

/-- In every run a frame has at least as many references as owners, and a frame with an owner is
not free. -/
theorem owned_frames_counted (f : Nat) :
    s.userOwners f + s.kernelOwners f ≤ s.mem.frames.refcount f ∧
      (s.userOwners f + s.kernelOwners f ≠ 0 → s.mem.frames.bitmap.bits f = true) := by
  obtain ⟨leaked, h⟩ := exists_keptWith hpos hn hreach
  have hcount := h.refcount_eq f
  exact ⟨by omega, fun howned => (h.accounted.valid.bit_iff f).mpr (by omega)⟩

end AnyRun

/-- A process with a page forks, and the child ends. -/
def forkAndEnd (unmapped : List LifeCmd) : List LifeCmd :=
  [.mem .newVmem, .mem (.allocUpages 0 firstUserPage .RDWR true 1 [] 1), .mem .newVmem,
    .mem (.linkUserPages 0 1)] ++ unmapped ++
  [.createProcess 1 none, .terminate 0, .harvestZombies, .mem (.unmap 0 firstUserPage),
    .dropVmem 0]

/-- A child that unmapped its page is reaped without a trace. -/
theorem frames_follow_owners_fork : ∃ s, lifeMachine.Reach DropsEmpty (.boot 128) s ∧
    s.mem.numSpaces = 2 ∧ s.mem.frames.freeCount = 128 ∧ FramesFollowOwners (.boot 128) s := by
  obtain ⟨s, hs, hnum, hfree⟩ := (lifeMachine.restrict dropsNoPage).exists_reach (.boot 128)
    (forkAndEnd [.mem (.unmap 1 firstUserPage)])
    (fun s => s.mem.numSpaces = 2 ∧ s.mem.frames.freeCount = 128) (by decide +kernel)
  have hreach := hs.of_restrict dropsEmpty_of_dropsNoPage
  exact ⟨s, hreach, hnum, hfree,
    frames_follow_owners (settled_boot (by decide) (by decide)) hreach⟩

/-- A child that maps a page is a zombie that can be harvested. -/
theorem zombie_harvested : ∃ s, lifeMachine.Reach (fun _ _ => True) (.boot 128) s ∧
    s.zombies.length = 1 ∧ ∀ message, lifeMachine.exec .harvestZombies s ≠ .abort message := by
  obtain ⟨s, hs, hone⟩ := lifeMachine.exists_reach (.boot 128) ((forkAndEnd []).take 6)
    (·.zombies.length = 1) (by decide +kernel)
  exact ⟨s, hs, hone, lifeMachine_never_panics (by decide) (by decide) hs .harvestZombies rfl⟩

/-- Of three handles one is dropped. The frames of the others are taken. -/
theorem handle_frames_taken : ∃ s, lifeMachine.Reach (fun _ _ => True) (.boot 128) s ∧
    s.handles.length = 2 ∧ s.userOwners 0 = 0 ∧ s.mem.frames.bitmap.bits 0 = false ∧
      ∀ f, f = 1 ∨ f = 2 → s.userOwners f = 1 ∧ s.mem.frames.bitmap.bits f = true := by
  obtain ⟨s, hs, htwo, hnone, hfree, hfirst, hsecond⟩ := lifeMachine.exists_reach (.boot 128)
    [.allocUserFrame, .allocUserFrame, .allocUserFrame, .dropFrame 2]
    (fun s => s.handles.length = 2 ∧ s.userOwners 0 = 0 ∧ s.mem.frames.bitmap.bits 0 = false ∧
      s.userOwners 1 = 1 ∧ s.userOwners 2 = 1) (by decide +kernel)
  have htaken : ∀ f, s.userOwners f = 1 → s.mem.frames.bitmap.bits f = true := fun f hone =>
    (owned_frames_counted (by decide) (by decide) hs f).2 (by omega)
  refine ⟨s, hs, htwo, hnone, hfree, ?_⟩
  rintro f (rfl | rfl)
  · exact ⟨hfirst, htaken 1 hfirst⟩
  · exact ⟨hsecond, htaken 2 hsecond⟩

/-- A child that still maps its page is reaped, and the frame of the page stays taken when the
parent has given it up as well. -/
theorem harvest_leaks_frame : Settled (.boot 128) ∧
    ∃ s, lifeMachine.Reach (fun _ _ => True) (.boot 128) s ∧
      s.all.length = 0 ∧ s.ownedFrames = 0 ∧ s.mem.frames.freeCount = 127 ∧
      ¬FramesFollowOwners (.boot 128) s := by
  refine ⟨settled_boot (by decide) (by decide), ?_⟩
  obtain ⟨s, hs, hall, howned, hfree⟩ := lifeMachine.exists_reach (.boot 128) (forkAndEnd [])
    (fun s => s.all.length = 0 ∧ s.ownedFrames = 0 ∧ s.mem.frames.freeCount = 127)
    (by decide +kernel)
  refine ⟨s, hs, hall, howned, hfree, fun hfollow => ?_⟩
  have hboot : (boot 128).ownedFrames = 0 := by decide +kernel
  have hsame := hfollow.freeCount (howned.trans hboot.symm)
  rw [hfree] at hsame
  exact absurd hsame (by decide)

end Nanvix.Mm
