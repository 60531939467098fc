import Nanvix.Mm.LinkOrder

/-!
# What a failed link leaves behind

When a page cannot be shared, `link_user_pages` takes every page back from the
child. Taking a page back clears the mark of the parent's entry when the child
has a marked one, and the child has a marked one when the parent's entry was
writable. An entry that was writable and marked when the call began, as an entry
is whose rights were changed after an earlier link, loses its mark. All other
entries and the owners of all frames are what they were.
-/
namespace Nanvix.Mm
open Config Library Library.Prog PageTableEntry

variable {held : List Nat} {s s₁ t : MemState} {parent child : Nat} {v : PageAligned}

/-- The entries of all pages and the counters of all frames are those before the call. -/
structure LinkRestored (s t : MemState) : Prop where
  pte : t.pte = s.pte
  refcount : t.frames.refcount = s.frames.refcount

/-- An entry that a link would mark, and that is marked already. -/
def PageTableEntry.markedTwice (p : PageTableEntry) : Bool := p.isWritable && p.isCow

/-- If the walk stops before its end, the pages before were not marked twice. -/
def UndoesMarks (parent spent : Nat) (s : MemState) : Prop :=
  ∀ pre, s.linkStops parent spent = some pre →
    ∀ e ∈ pre, ∀ p, s.pte parent e.page = some p → p.markedTwice = false

theorem undoneEntry_frame (p : PageTableEntry) : (undoneEntry p).frame = p.frame := by
  unfold undoneEntry
  split <;> rfl

/-- Marking an entry and clearing the mark gives the entry, unless it was marked before. -/
theorem undoneEntry_eq_self_iff (p : PageTableEntry) :
    undoneEntry p = p ↔ p.markedTwice = false := by
  obtain ⟨⟨_, rw, _, _, _, _, _, cow⟩, _⟩ := p
  cases rw <;> cases cow <;>
    simp [undoneEntry, markedTwice, marked,
      unmarked, isWritable, isCow,
      setReadWrite, setCow]

section Rollback

/-- The entries while the pages that were shared in `s₁` are taken back. -/
structure TakenBack (parent child : Nat) (s₀ s₁ s : MemState) : Prop where
  linked : ∀ w, s.pte child w ≠ none → s₁.pte child w ≠ none
  undone : ∀ w, s.pte child w = none → s.pte parent w =
    if s₁.pte child w = none then s₀.pte parent w else (s₀.pte parent w).map undoneEntry

theorem takenBack_undoable (s₁ : MemState) :
    MM.Undoable held parent child s (TakenBack parent child s s₁) := by
  intro t t' v _ hv h hchild hparent
  refine ⟨fun w hw => ?_, fun w hw => ?_⟩
  · rw [hchild, Function.update_apply] at hw
    split_ifs at hw
    · exact absurd rfl hw
    · exact h.linked w hw
  · rw [hchild, Function.update_apply] at hw
    rw [hparent, Function.update_apply]
    by_cases hwv : w = v
    · subst hwv
      rw [if_pos rfl, if_neg (h.linked w hv)]
    · rw [if_neg hwv] at hw ⊢
      exact h.undone w hw

/-- The walk failed in `s₁`, and all its pages were taken back. -/
structure RolledBack (held : List Nat) (parent child : Nat) (s s₁ t : MemState) : Prop where
  unlinked : Unlinked held parent s t
  parent : ∀ w, t.pte parent w =
    if s₁.pte child w = none then s.pte parent w else (s.pte parent w).map undoneEntry

/-- A link that fails is a walk that fails, and its rollback. -/
theorem linkUserPages_rolledBack (h : Accounted held s) (hne : parent ≠ child)
    (hparent : (s.spaces parent).isSome) (hchild : (s.spaces child).isSome)
    (hempty : ∀ w, s.pte child w = none) {e : Error}
    (hwalk : MM.linkPages parent child s = .err e s₁) :
    ∃ t, MM.linkUserPages parent child s = .err e t ∧ RolledBack held parent child s s₁ t := by
  obtain ⟨hlink, -⟩ := (MM.linkPages_wp h hne hparent hchild hempty).of_err hwalk
  have hstart : TakenBack parent child s s₁ s₁ :=
    ⟨fun _ hw => hw, fun w hw => by rw [if_pos hw, hlink.untouched w hw]⟩
  obtain ⟨u, t, hrun, hstate, hback, hnow⟩ :=
    (MM.rollbackLinkedPages_wp (takenBack_undoable s₁) hne hchild hlink.toLinkState
      hstart).exists_ok
  refine ⟨t, ?_, hstate.unlinked_of_empty hempty hnow, fun w => hback.undone w (hnow w)⟩
  rw [MM.linkUserPages_eq, MM.orRollback, attempt_bind_err hwalk]
  exact bind_ok hrun

/-- A link fails only when the walk does. -/
theorem exists_linkPages_of_err {e : Error} (hrun : MM.linkUserPages parent child s = .err e t) :
    ∃ e' s₁, MM.linkPages parent child s = .err e' s₁ := by
  rw [MM.linkUserPages_eq] at hrun
  obtain ⟨r, s₁, hrun, hwalk⟩ := attempt_bind_eq_err hrun
  cases r with
  | ok u => cases hrun
  | error e' => exact ⟨e', s₁, hwalk⟩

/-- A link succeeds when the walk does. -/
theorem linkUserPages_eq_ok_iff {u : Unit} :
    MM.linkUserPages parent child s = .ok u t ↔ MM.linkPages parent child s = .ok u t := by
  rw [MM.linkUserPages_eq, MM.orRollback]
  cases hwalk : MM.linkPages parent child s with
  | ok u s₁ => rw [attempt_bind_ok hwalk]; rfl
  | err e s₁ =>
    rw [attempt_bind_err hwalk]
    refine iff_of_false (fun hrun => ?_) (fun hok => ?_)
    · obtain ⟨_, _, -, hthrow⟩ := bind_eq_ok hrun
      cases hthrow
    · cases hok
  | abort m => rw [attempt_bind_abort hwalk]

end Rollback

section Owners

/-- The directory of a space other than the child is that of the first state, and that of the
child is stored where it was. -/
def SameDirectory (child : Nat) (s₀ : MemState) (i : Nat) (d : PageDirectory) : Prop :=
  ∃ vm, s₀.spaces i = some vm ∧ d.storage = vm.pgdir.storage ∧ (i ≠ child → d = vm.pgdir)

theorem sameDirectory_storageOnly : StorageOnly (SameDirectory child s child) := by
  rintro d d' hd ⟨vm, hvm, hstore, -⟩
  exact ⟨vm, hvm, hd.trans hstore, fun hne => absurd rfl hne⟩

theorem Trimmed.sameDirectory (h : Trimmed s) : Tidied (SameDirectory child s) s := fun i vm hi =>
  ⟨(h i vm hi).wellFormed, (h i vm hi).trim, vm, hi, rfl, fun _ => rfl⟩

/-- A space whose directory and whose frames stay has the owners it had. -/
theorem spaceRefs_congr {f i : Nat} (hlive : (t.spaces i).isSome = (s.spaces i).isSome)
    (hdir : ∀ vm vm', s.spaces i = some vm → t.spaces i = some vm' → vm'.pgdir = vm.pgdir)
    (hframes : ∀ w, (t.pte i w).map (·.frame) = (s.pte i w).map (·.frame)) :
    spaceRefs f (t.spaces i) = spaceRefs f (s.spaces i) := by
  cases hi : s.spaces i with
  | none =>
    rw [hi, Option.isSome_none, Option.isSome_eq_false_iff, Option.isNone_iff_eq_none] at hlive
    rw [hlive]
  | some vm =>
    rw [hi, Option.isSome_some] at hlive
    obtain ⟨vm', hi'⟩ := Option.isSome_iff_exists.mp hlive
    rw [hi']
    have hkernel := Vmem.kernelRefs_congr (f := f) (hdir vm vm' hi hi')
    have huser : vm'.userRefs f = vm.userRefs f := viewRefs_congr fun w => by
      rw [← Accounted.pte_of_space hi, ← Accounted.pte_of_space hi', hframes]
    change vm'.userRefs f + vm'.kernelRefs f = vm.userRefs f + vm.kernelRefs f
    rw [huser, hkernel]

/-- A child without pages has the directory it had without pages. -/
theorem pgdir_eq {vm vm' : Vmem} (h : Trimmed s) (h' : Tidied (SameDirectory child s) t) {i : Nat}
    (hi : s.spaces i = some vm) (hi' : t.spaces i = some vm')
    (hempty : ∀ w, s.pte child w = none) (hnow : ∀ w, t.pte child w = none) :
    vm'.pgdir = vm.pgdir := by
  obtain ⟨-, htrim', vm₀, hvm₀, hstore, hsame⟩ := h' i vm' hi'
  cases hi.symm.trans hvm₀
  by_cases hic : i = child
  · subst hic
    have hnone := (h i vm hi).trim.entries_eq_none fun w => by
      rw [← Accounted.pte_of_space hi, hempty]
    have hnone' := htrim'.entries_eq_none fun w => by
      rw [← Accounted.pte_of_space hi', hnow]
    have hentries : vm'.pgdir.entries = vm.pgdir.entries := by
      funext u
      rw [hnone, hnone']
    cases hd : vm'.pgdir with
    | mk storage entries =>
      cases hd₀ : vm.pgdir with
      | mk storage₀ entries₀ =>
        rw [hd, hd₀] at hstore hentries
        cases hstore
        cases hentries
        rfl
  · exact hsame hic

/-- Pages that are taken back map the frames they did. -/
theorem RolledBack.frames (h : RolledBack held parent child s s₁ t) (i : Nat) (w : PageAligned) :
    (t.pte i w).map (·.frame) = (s.pte i w).map (·.frame) := by
  by_cases hip : i = parent
  · subst hip
    rw [h.parent]
    split_ifs
    · rfl
    · cases s.pte i w with
      | none => rfl
      | some p => exact congrArg some (undoneEntry_frame p)
  · rw [h.unlinked.other i hip]

/-- Taking all pages back gives every frame the owners it had. -/
theorem RolledBack.refcount_eq (h : Accounted held s) (htrim : Trimmed s)
    (hempty : ∀ w, s.pte child w = none) (hne : parent ≠ child)
    (hback : RolledBack held parent child s s₁ t) (htidy : Tidied (SameDirectory child s) t) :
    t.frames.refcount = s.frames.refcount := by
  have hnow : ∀ w, t.pte child w = none := fun w => by
    rw [hback.unlinked.other child (Ne.symm hne), hempty]
  funext f
  rw [h.count f, hback.unlinked.accounted.count f]
  congr 1
  unfold MemState.refs
  rw [hback.unlinked.spaces.numSpaces]
  refine Finset.sum_congr rfl fun i _ => spaceRefs_congr (hback.unlinked.spaces.live i) ?_ ?_
  · exact fun vm vm' hi hi' => pgdir_eq htrim htidy hi hi' hempty hnow
  · exact hback.frames i

end Owners

/-- A link that fails restores entries and counters if and only if no page before the first one
that cannot be shared is marked twice. -/
theorem linkUserPages_restored_iff (h : Accounted held s) (htrim : Trimmed s)
    (henabled : memMachine.enabled (.linkUserPages parent child) s = true) :
    (∀ e t, MM.linkUserPages parent child s = .err e t → LinkRestored s t) ↔
      UndoesMarks parent 0 s := by
  obtain ⟨hne, hparent, hchild, hempty⟩ := linkUserPages_enabled henabled
  constructor
  · intro hrestored pre hpre e he p hp
    have hstops := linkPages_stops h htrim hne hparent hchild hempty
    simp only [hpre, reduceCtorEq, false_and, Option.some.injEq, exists_eq_left'] at hstops
    obtain ⟨err, s₁, hwalk, hpages⟩ := hstops.exists_err
    obtain ⟨t, hrun, hback⟩ := linkUserPages_rolledBack h hne hparent hchild hempty hwalk
    have hpte := congrFun (congrFun (hrestored err t hrun).pte parent) e.page
    rw [hback.parent, if_neg ((hpages _).mpr ⟨e, he, rfl⟩), hp, Option.map_some,
      Option.some.injEq] at hpte
    exact (undoneEntry_eq_self_iff p).mp hpte
  · intro hundoes e t hrun
    obtain ⟨e', s₁, hwalk⟩ := exists_linkPages_of_err hrun
    obtain ⟨t', hrun', hback⟩ := linkUserPages_rolledBack h hne hparent hchild hempty hwalk
    cases hrun.symm.trans hrun'
    obtain ⟨pre, hpre, hpages⟩ :=
      (linkPages_stops h htrim hne hparent hchild hempty).of_err hwalk
    refine ⟨?_, ?_⟩
    · funext i w
      by_cases hip : i = parent
      · subst hip
        rw [hback.parent]
        split_ifs with hw
        · rfl
        · cases hp : s.pte i w with
          | none => rfl
          | some p =>
            obtain ⟨en, hen, rfl⟩ := (hpages w).mp hw
            rw [Option.map_some,
              (undoneEntry_eq_self_iff p).mpr (hundoes pre hpre en hen p hp)]
      · rw [hback.unlinked.other i hip]
    · refine hback.refcount_eq h htrim hempty hne ?_
      exact (MM.linkUserPages_keeps sameDirectory_storageOnly s htrim.sameDirectory).of_err hrun

/-- What a run of the memory manager reaches. -/
theorem accounted_trimmed_of_reach {n : Nat} (hpos : 0 < n) (hn : n * pageSize ≤ usizeMax)
    (h : memMachine.Reach (fun _ _ => True) (.boot n) s) : Accounted [] s ∧ Trimmed s :=
  ⟨(memMachine_invariant (I := fun _ => True) (accounted_boot hpos hn) trivial
      (fun _ _ _ _ _ _ _ => trivial) h).1,
    h.invariant_of_ends (trimmed_boot n) fun c s hs _ _ => memMachine_trimmed c s hs⟩

/-- A space with a page in each of two regions. Frames are spent until one is left, which stores
the first page table of the child. -/
def twoRegions (before : List MemCmd) : List MemCmd :=
  [.newVmem, .newVmem, .allocUpages 0 firstUserPage .RDWR true 1 [] 1] ++ before ++
    [.newVmem, .allocUpages 0 ⟨firstUserPage.number + pageTableLength⟩ .RDWR true 1 [] 1,
      .uctrl 0 firstUserPage .RDWR] ++ List.replicate 65 .newVmem

/-- The mappings of the space show no page that is marked twice. -/
def noneMarkedTwice (i : Nat) (s : MemState) : Bool :=
  (s.spaces i).all fun vm => vm.userMappings.all fun m => !m.2.markedTwice

theorem undoesMarks_of_noneMarkedTwice (spent : Nat) (h : noneMarkedTwice parent s = true) :
    UndoesMarks parent spent s := by
  intro _ _ e _ p hp
  obtain ⟨vm, hvm, hv⟩ := Accounted.pte_eq_some hp
  rw [noneMarkedTwice, hvm, Option.all_some, List.all_eq_true] at h
  simpa only [Bool.not_eq_true'] using h (e.page, p) (Vmem.mem_userMappings.mpr hv)

/-- The second page of a first fork has no frame for its table, and the fork leaves no trace. -/
theorem first_fork_restored : ∃ s e t, memMachine.Reach (fun _ _ => True) (.boot 73) s ∧
    MM.linkUserPages 0 2 s = .err e t ∧ LinkRestored s t := by
  obtain ⟨s, hs, henabled, hnone, hfails⟩ := memMachine.exists_reach (.boot 73) (twoRegions [])
    (fun s => memMachine.enabled (.linkUserPages 0 2) s = true ∧ noneMarkedTwice 0 s = true ∧
      ((MM.linkUserPages 0 2 s).fails fun _ => true) = true) (by decide +kernel)
  obtain ⟨e, t, hrun, -⟩ := Outcome.of_fails hfails
  obtain ⟨hacc, htrim⟩ := accounted_trimmed_of_reach (by decide) (by decide) hs
  exact ⟨s, e, t, hs, hrun, (linkUserPages_restored_iff hacc htrim henabled).mpr
    (undoesMarks_of_noneMarkedTwice 0 hnone) e t hrun⟩

/-- A page that an earlier fork marked and `uctrl` made writable loses its mark in a fork that
fails. -/
theorem second_fork_unmarks : ∃ s e t, memMachine.Reach (fun _ _ => True) (.boot 74) s ∧
    Accounted [] s ∧ Trimmed s ∧ memMachine.enabled (.linkUserPages 0 2) s = true ∧
    MM.linkUserPages 0 2 s = .err e t ∧ ¬LinkRestored s t := by
  obtain ⟨s, hs, henabled, hfails⟩ := memMachine.exists_reach (.boot 74)
    (twoRegions [.linkUserPages 0 1])
    (fun s => memMachine.enabled (.linkUserPages 0 2) s = true ∧
      ((MM.linkUserPages 0 2 s).fails fun t : MemState =>
        decide (t.pte 0 firstUserPage ≠ s.pte 0 firstUserPage)) = true) (by decide +kernel)
  obtain ⟨e, t, hrun, hmark⟩ := Outcome.of_fails hfails
  obtain ⟨hacc, htrim⟩ := accounted_trimmed_of_reach (by decide) (by decide) hs
  refine ⟨s, e, t, hs, hacc, htrim, henabled, hrun, fun hrestored => ?_⟩
  exact of_decide_eq_true hmark (by rw [hrestored.pte])

end Nanvix.Mm
