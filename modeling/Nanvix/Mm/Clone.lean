import Nanvix.Mm.FrameAccounting
import Nanvix.Mm.LinkExact

/-!
# Making the memory of a child process

`duplicate_process` makes an address space, shares the pages of the caller with it
and allocates a kernel stack. When a step fails, the new address space goes out of
scope. Dropping it releases its page tables and its directory. It does not release
the pages that were shared, so a failure after the sharing leaves every shared
frame with one owner more, and the caller's pages marked.
-/
namespace Nanvix.Mm
open Config Function Library Library.Prog MM

namespace MM

/-- The steps of `duplicate_process` on the memory: the space of the child and the frames of its
kernel stack. -/
def cloneSpace (parent : Nat) : MM (Nat × List Nat) := do
  let child ← newVmem
  match ← attempt (linkUserPages parent child) with
  | .error e => do
      dropVmem child
      throw e
  | .ok _ =>
    match ← attempt newKernelStack with
    | .error e => do
        dropVmem child
        throw e
    | .ok kernelStack => return (child, kernelStack)

end MM

variable {held : List Nat} {s s₁ s₂ t : MemState} {parent child : Nat}

/-- When a step that fails leaves no trace. With a frame for the directory of the child, the pages
before the first one that cannot be shared are not marked twice. With all pages shared, and a frame
taken for the directory and for each page table, the frames of a kernel stack are left, unless
there is no page. -/
structure CloneUndoable (parent : Nat) (s : MemState) : Prop where
  walk : 0 < s.frames.freeCount → UndoesMarks parent 1 s
  stack : s.linkStops parent 1 = none → ∀ b e,
    s.frames.bitmap.takes ((regions (s.linkOrder parent)).card + 1) = some b →
      b.allocRange (kstackSize / pageSize) = .error e → ∀ v, s.pte parent v = none

section Clone

/-- A space is made, and pages of the parent may have been shared with it. -/
structure Cloning (held : List Nat) (child : Nat) (s s₁ t : MemState) : Prop where
  accounted : Accounted held t
  spaces : SameSpaces s₁ t
  tidy : Tidied (SameDirectory child s₁) t
  frames : ∀ i w, i ≠ child → (t.pte i w).map (·.frame) = (s.pte i w).map (·.frame)

/-- What `newVmem` made. -/
structure Made (held : List Nat) (child : Nat) (s s₁ : MemState) : Prop where
  name : child = s.numSpaces
  accounted : Accounted held s₁
  trimmed : Trimmed s₁
  pte : s₁.pte = s.pte
  spaces : ∃ d, s₁.spaces = update s.spaces child (some (.empty d))
  numSpaces : s₁.numSpaces = s.numSpaces + 1
  frames : TookTable false s.frames.bitmap s₁.frames.bitmap
  owners : ∀ f, 0 < s.frames.refcount f → s₁.frames.refcount f = s.frames.refcount f

theorem newVmem_took (h : Accounted held s) :
    wp newVmem
      (fun _ s' => TookTable false s.frames.bitmap s'.frames.bitmap ∧
        ∀ f, 0 < s.frames.refcount f → s'.frames.refcount f = s.frames.refcount f)
      (fun _ _ => ∃ e, s.frames.bitmap.alloc = .error e) s := by
  simp only [newVmem, allocKernelFrame, wp_bind, wp_gets, wp_modify, wp_pure]
  refine ((allocFrame_wp h).and_ends (allocFrame_took s)).mono ?_ fun _ _ he => he.2
  rintro k s₁ ⟨⟨-, hzero, a, rfl, -, hcount⟩, htook⟩
  refine ⟨htook, fun f hf => ?_⟩
  have hne : f ≠ k := fun hfk => by rw [hfk, hzero] at hf; cases hf
  exact (congrFun hcount f).trans (update_of_ne hne ..)

theorem made_of_newVmem (h : Accounted held s) (htrim : Trimmed s)
    (hnew : newVmem s = .ok child s₁) : Made held child s s₁ := by
  obtain ⟨rfl, hacc, -, -, hpte, hspaces, hnum, -⟩ := (newVmem_wp h).of_ok hnew
  obtain ⟨hframes, howners⟩ := (newVmem_took h).of_ok hnew
  exact ⟨rfl, hacc, (newVmem_trimmed s htrim).of_ok hnew, hpte, hspaces, hnum, hframes, howners⟩

theorem freeCount_pos_of_takes (h : Accounted held s) {n : Nat} {b : Bitmap}
    (htakes : s.frames.bitmap.takes (n + 1) = some b) : 0 < s.frames.freeCount := by
  obtain ⟨r, hr, -⟩ := Option.bind_eq_some_iff.mp htakes
  refine h.valid.alloc_ok_iff.mp ⟨r.1, r.2, ?_⟩
  cases halloc : s.frames.bitmap.alloc with
  | error e =>
    rw [halloc] at hr
    cases hr
  | ok r' =>
    rw [halloc] at hr
    cases hr
    rfl

/-- A space is made when a frame is free. -/
theorem exists_newVmem (h : Accounted held s) (hfree : 0 < s.frames.freeCount) :
    ∃ child s₁, newVmem s = .ok child s₁ := by
  obtain ⟨k, b, halloc⟩ := h.valid.alloc_ok_iff.mpr hfree
  cases hnew : newVmem s with
  | ok child s₁ => exact ⟨child, s₁, rfl⟩
  | err e s₁ =>
    obtain ⟨e', he'⟩ := (newVmem_took h).of_err hnew
    rw [he'] at halloc
    cases halloc
  | abort m => exact absurd hnew ((newVmem_took h).not_abort m)

namespace Made

theorem spaces_of_ne (h : Made held child s s₁) {i : Nat} (hi : i ≠ child) :
    s₁.spaces i = s.spaces i := by
  obtain ⟨d, hd⟩ := h.spaces
  rw [hd, update_of_ne hi]

theorem pte_child (h : Made held child s s₁) (w : PageAligned) : s₁.pte child w = none := by
  obtain ⟨d, hd⟩ := h.spaces
  unfold MemState.pte
  rw [hd, update_self, Option.bind_some, Vmem.tryFindUserPte_empty]

/-- A link into the new space may be called. -/
theorem enabled (h : Made held child s s₁) (hacc : Accounted held s)
    (hparent : (s.spaces parent).isSome) :
    parent ≠ child ∧ (s₁.spaces parent).isSome ∧ (s₁.spaces child).isSome := by
  obtain ⟨vm, hvm⟩ := Option.isSome_iff_exists.mp hparent
  have hne : parent ≠ child := by
    rw [h.name]
    exact Nat.ne_of_lt (hacc.lt_numSpaces hvm)
  obtain ⟨d, hd⟩ := h.spaces
  refine ⟨hne, ?_, ?_⟩
  · rw [h.spaces_of_ne hne, hvm]
    rfl
  · rw [hd, update_self]
    rfl

section Walk
variable (h : Made held child s s₁) (hne : parent ≠ child)
include h

theorem freeCount_pos (hacc : Accounted held s) : 0 < s.frames.freeCount := by
  obtain ⟨k, halloc⟩ := h.frames
  exact hacc.valid.alloc_ok_iff.mp ⟨k, _, halloc⟩

/-- A frame was taken for the directory. -/
theorem freeCount_eq : s₁.frames.freeCount = s.frames.freeCount - 1 := by
  obtain ⟨k, halloc⟩ := h.frames
  obtain ⟨-, -, hbits⟩ := Bitmap.allocRange_ok halloc
  unfold FrameAllocator.freeCount
  rw [hbits]
  exact Nat.sub_add_eq ..

include hne

theorem linkOrder_eq : s₁.linkOrder parent = s.linkOrder parent := by
  unfold MemState.linkOrder
  rw [h.spaces_of_ne hne, h.pte]

/-- Where the walk stops is known before the space is made. -/
theorem linkStops_eq (hacc : Accounted held s) :
    s₁.linkStops parent 0 = s.linkStops parent 1 := by
  unfold MemState.linkStops
  rw [h.linkOrder_eq hne, h.freeCount_eq, Nat.sub_zero]
  refine sharedBefore_congr fun e he => ?_
  unfold MemState.linkOrder at he
  cases hvm : s.spaces parent with
  | none =>
    rw [hvm] at he
    cases he
  | some vm =>
    rw [hvm] at he
    obtain ⟨p, hp, hframe⟩ := exists_of_mem_walkOrder he
    exact h.owners _ (hframe ▸ hacc.refcount_pos hp)

end Walk

/-- What the walk into the new space comes to is known before the space is made. -/
theorem walk_stops (h : Made held child s s₁) (hacc : Accounted held s)
    (hparent : (s.spaces parent).isSome) :
    wp (linkPages parent child)
      (fun _ s' => s.linkStops parent 1 = none ∧
        s.frames.bitmap.takes ((regions (s.linkOrder parent)).card + 1) = some s'.frames.bitmap)
      (fun _ s' => ∃ pre, s.linkStops parent 1 = some pre ∧
        ∀ w, s'.pte child w ≠ none ↔ ∃ e ∈ pre, e.page = w) s₁ := by
  obtain ⟨hne, hlive, hc⟩ := h.enabled hacc hparent
  obtain ⟨k, halloc⟩ := h.frames
  rw [← h.linkStops_eq hne hacc, ← h.linkOrder_eq hne, Bitmap.takes_succ halloc]
  exact linkPages_stops h.accounted h.trimmed hne hlive hc h.pte_child

end Made

/-- Without a run of frames there is no kernel stack. -/
theorem newKernelStack_of_full {e : Error}
    (hfull : s.frames.bitmap.allocRange (kstackSize / pageSize) = .error e) :
    newKernelStack s = .err e s := by
  have hread : (gets fun a => a.bitmap.allocRange (kstackSize / pageSize) :
      Prog FrameAllocator Error _) s.frames = .ok (.error e) s.frames :=
    congrArg (Outcome.ok · s.frames) hfull
  have halloc : FrameAllocator.allocContiguous (kstackSize / pageSize) s.frames =
      .err e s.frames := (bind_ok hread).trans (bind_err rfl)
  refine bind_err ?_
  simp only [onFrames, focus, halloc]

/-- The spaces other than the child own what they owned. -/
theorem Cloning.spaceRefs_eq (h : Cloning held child s s₁ t) (hmade : Made held child s s₁)
    {i : Nat} (hi : i ≠ child) (f : Nat) :
    spaceRefs f (t.spaces i) = spaceRefs f (s.spaces i) := by
  refine spaceRefs_congr ?_ ?_ fun w => h.frames i w hi
  · rw [h.spaces.live, hmade.spaces_of_ne hi]
  · intro vm vm' hvm hvm'
    obtain ⟨-, -, vm₀, hvm₀, -, hsame⟩ := h.tidy i vm' hvm'
    rw [hmade.spaces_of_ne hi, hvm, Option.some.injEq] at hvm₀
    rw [hsame hi, hvm₀]

/-- Dropping the child leaves its pages as owners: a frame has one owner more for each page of the
child that maps it. -/
theorem Cloning.dropped (h : Cloning held child s s₁ t) (hs : Accounted held s)
    (hmade : Made held child s s₁) {vm : Vmem} (hvm : t.spaces child = some vm) :
    ∃ t', dropVmem child t = .ok () t' ∧ (∀ i w, i ≠ child → t'.pte i w = t.pte i w) ∧
      ∀ f, t'.frames.refcount f = s.frames.refcount f + vm.userFrames.count f := by
  obtain ⟨u, t', hrun, hacc, hspaces, hnum, -, -⟩ :=
    (dropVmem_wp h.accounted hvm).exists_ok
  refine ⟨t', hrun, fun i w hi => ?_, fun f => ?_⟩
  · unfold MemState.pte
    rw [hspaces, update_of_ne hi]
  · have hrefs : t'.refs f = s.refs f := by
      unfold MemState.refs tally
      rw [hnum, h.spaces.numSpaces, hmade.numSpaces, Finset.sum_range_succ, hspaces, ← hmade.name,
        update_self]
      refine (Nat.add_zero _).trans (Finset.sum_congr rfl fun i hi => ?_)
      have hne : i ≠ child := by
        rw [hmade.name] at hi ⊢
        exact Nat.ne_of_lt (Finset.mem_range.mp hi)
      rw [update_of_ne hne]
      exact h.spaceRefs_eq hmade hne f
    rw [hacc.count f, hs.count f, hrefs, List.count_append]
    omega

/-- The caller's entries and the counters of all frames are those before the call. -/
structure CloneUndone (parent : Nat) (s t : MemState) : Prop where
  pte : t.pte parent = s.pte parent
  refcount : t.frames.refcount = s.frames.refcount

section Failures
variable (h : Accounted held s) (hparent : (s.spaces parent).isSome)
  (hmade : Made held child s s₁) (hnew : newVmem s = .ok child s₁)
include h hparent hmade hnew

/-- The walk failed: the pages were taken back, and the child was dropped without a page. -/
theorem cloneSpace_of_walk {e : Error} (hwalk : linkPages parent child s₁ = .err e s₂) :
    ∃ t, cloneSpace parent s = .err e t ∧ t.frames.refcount = s.frames.refcount ∧
      ∀ w, t.pte parent w =
        if s₂.pte child w = none then s.pte parent w else (s.pte parent w).map undoneEntry := by
  obtain ⟨hne, hp, hc⟩ := hmade.enabled h hparent
  obtain ⟨u, hlink, hback⟩ :=
    linkUserPages_rolledBack hmade.accounted hne hp hc hmade.pte_child hwalk
  have hcloning : Cloning held child s s₁ u := by
    refine ⟨hback.unlinked.accounted, hback.unlinked.spaces, ?_, fun i w _ => ?_⟩
    · exact (linkUserPages_keeps sameDirectory_storageOnly s₁
        hmade.trimmed.sameDirectory).of_err hlink
    · rw [hback.frames, hmade.pte]
  obtain ⟨vm, hvm⟩ := hback.unlinked.spaces.exists_space hc
  have hempty : vm.userFrames = [] := Vmem.userFrames_eq_nil fun w => by
    rw [← Accounted.pte_of_space hvm, hback.unlinked.other child (Ne.symm hne), hmade.pte_child]
  obtain ⟨t, hdrop, hpte, hcount⟩ := hcloning.dropped h hmade hvm
  refine ⟨t, ?_, ?_, fun w => ?_⟩
  · rw [cloneSpace, bind_ok hnew, attempt_bind_err hlink]
    exact bind_ok hdrop
  · funext f
    rw [hcount, hempty, List.count_nil, Nat.add_zero]
  · rw [hpte parent w hne, hback.parent, hmade.pte]

/-- There was no kernel stack: the child was dropped with its pages. -/
theorem cloneSpace_of_stack {e : Error} (hlink : linkUserPages parent child s₁ = .ok () s₂)
    (hstack : newKernelStack s₂ = .err e t) :
    ∃ t', cloneSpace parent s = .err e t' ∧
      (t'.frames.refcount = s.frames.refcount ↔ ∀ v, s.pte parent v = none) ∧
      ∀ w, t'.pte parent w = (s.pte parent w).map parentEntry := by
  obtain ⟨hne, hp, hc⟩ := hmade.enabled h hparent
  obtain ⟨hlinking, hpte₂⟩ :=
    (linkUserPages_wp hmade.accounted hne hp hc hmade.pte_child).of_ok hlink
  obtain ⟨rfl, -⟩ := (newKernelStack_wp hlinking.accounted).of_err hstack
  have hviews : ∀ i w, i ≠ child → t.pte i w =
      if i = parent then (s.pte i w).map parentEntry else s.pte i w := by
    intro i w hi
    rw [hpte₂, linkedPte, if_neg hi, hmade.pte]
    split_ifs with hip
    · rw [hip]
    · rfl
  have hcloning : Cloning held child s s₁ t := by
    refine ⟨hlinking.accounted, hlinking.spaces, ?_, fun i w hi => ?_⟩
    · exact (linkUserPages_keeps sameDirectory_storageOnly s₁
        hmade.trimmed.sameDirectory).of_ok hlink
    · rw [hviews i w hi]
      split_ifs
      · cases s.pte i w with
        | none => rfl
        | some p => exact congrArg some (parentEntry_frame p)
      · rfl
  obtain ⟨vm, hvm⟩ := hlinking.spaces.exists_space hc
  have hchild : ∀ w, vm.tryFindUserPte w = (s.pte parent w).map childEntry := fun w => by
    rw [← Accounted.pte_of_space hvm, hpte₂, linkedPte, if_pos rfl, hmade.pte]
  obtain ⟨t', hdrop, hpte, hcount⟩ := hcloning.dropped h hmade hvm
  refine ⟨t', ?_, ⟨fun hsame v => ?_, fun hnone => ?_⟩, fun w => ?_⟩
  · rw [cloneSpace, bind_ok hnew, attempt_bind_ok hlink]
    exact (attempt_bind_err hstack).trans (bind_ok hdrop)
  · rw [Option.eq_none_iff_forall_ne_some]
    intro p hv
    have hf := hcount p.frame
    rw [hsame] at hf
    have hzero : vm.userFrames.count p.frame = 0 := by omega
    refine List.count_eq_zero.mp hzero (List.mem_filterMap.mpr ⟨v.number, ?_, ?_⟩)
    · exact List.mem_range.mpr (number_lt_numPages (h.isUserAddr hv))
    · rw [hchild, hv]
      exact congrArg some (childEntry_frame p)
  · funext f
    have hempty : vm.userFrames = [] := Vmem.userFrames_eq_nil fun w => by
      rw [hchild, hnone, Option.map_none]
    rw [hcount, hempty, List.count_nil, Nat.add_zero]
  · rw [hpte parent w hne, hviews parent w hne, if_pos rfl]

end Failures

/-- The ways in which making the child can fail. -/
theorem cloneSpace_err_cases {e : Error} (hrun : cloneSpace parent s = .err e t) :
    (∃ e', newVmem s = .err e' t) ∨ ∃ child s₁, newVmem s = .ok child s₁ ∧
      ((∃ e' s₂, linkPages parent child s₁ = .err e' s₂) ∨
        ∃ s₂ e' t', linkUserPages parent child s₁ = .ok () s₂ ∧
          newKernelStack s₂ = .err e' t') := by
  rcases bind_eq_err hrun with hnew | ⟨child, s₁, hnew, hrun⟩
  · exact Or.inl ⟨e, hnew⟩
  refine Or.inr ⟨child, s₁, hnew, ?_⟩
  obtain ⟨r, s₂, hrun, hlink⟩ := attempt_bind_eq_err hrun
  cases r with
  | error e' => exact Or.inl (exists_linkPages_of_err hlink)
  | ok u =>
    obtain ⟨r, t', hrun, hstack⟩ := attempt_bind_eq_err hrun
    cases r with
    | error e' => exact Or.inr ⟨s₂, e', t', hlink, hstack⟩
    | ok frames => cases hrun

/-- Making a child that fails leaves no trace if and only if what failed can be undone. -/
theorem cloneSpace_undone_iff (h : Accounted held s) (htrim : Trimmed s)
    (hparent : (s.spaces parent).isSome) :
    (∀ e t, cloneSpace parent s = .err e t → CloneUndone parent s t) ↔
      CloneUndoable parent s := by
  constructor
  · intro hundone
    constructor
    · intro hfree pre hpre e he p hp
      obtain ⟨child, s₁, hnew⟩ := exists_newVmem h hfree
      have hmade := made_of_newVmem h htrim hnew
      have hstops := hmade.walk_stops h hparent
      simp only [hpre, reduceCtorEq, false_and, Option.some.injEq, exists_eq_left'] at hstops
      obtain ⟨err, s₂, hwalk, hpages⟩ := hstops.exists_err
      obtain ⟨t, hrun, -, hpte⟩ := cloneSpace_of_walk h hparent hmade hnew hwalk
      have hback := congrFun (hundone err t hrun).pte e.page
      rw [hpte, if_neg ((hpages _).mpr ⟨e, he, rfl⟩), hp, Option.map_some,
        Option.some.injEq] at hback
      exact (undoneEntry_eq_self_iff p).mp hback
    · intro hnone b e htakes hfull
      obtain ⟨child, s₁, hnew⟩ := exists_newVmem h (freeCount_pos_of_takes h htakes)
      have hmade := made_of_newVmem h htrim hnew
      have hstops := hmade.walk_stops h hparent
      simp only [hnone, htakes, reduceCtorEq, true_and, false_and, exists_false,
        Option.some.injEq] at hstops
      obtain ⟨⟨⟩, s₂, hwalk, hframes⟩ := hstops.exists_ok
      obtain ⟨t', hrun, hcount, -⟩ := cloneSpace_of_stack h hparent hmade hnew
        (linkUserPages_eq_ok_iff.mpr hwalk) (newKernelStack_of_full (hframes ▸ hfull))
      exact hcount.mp (hundone e t' hrun).refcount
  · rintro ⟨hwalks, hstacks⟩ e t hrun
    rcases cloneSpace_err_cases hrun with
      ⟨e', hnew⟩ | ⟨child, s₁, hnew, ⟨e', s₂, hwalk⟩ | ⟨s₂, e', t', hlink, hstack⟩⟩
    · obtain ⟨rfl, -⟩ := (newVmem_wp h).of_err hnew
      exact ⟨rfl, rfl⟩
    · have hmade := made_of_newVmem h htrim hnew
      obtain ⟨u, hrun', hcount, hpte⟩ := cloneSpace_of_walk h hparent hmade hnew hwalk
      cases hrun.symm.trans hrun'
      obtain ⟨pre, hpre, hpages⟩ := (hmade.walk_stops h hparent).of_err hwalk
      refine ⟨?_, hcount⟩
      funext w
      rw [hpte]
      split_ifs with hw
      · rfl
      · cases hp : s.pte parent w with
        | none => rfl
        | some p =>
          obtain ⟨en, hen, rfl⟩ := (hpages w).mp hw
          have htwice := hwalks (hmade.freeCount_pos h) pre hpre en hen p hp
          rw [Option.map_some, (undoneEntry_eq_self_iff p).mpr htwice]
    · have hmade := made_of_newVmem h htrim hnew
      obtain ⟨hne, hlive, hc⟩ := hmade.enabled h hparent
      obtain ⟨hstops, hframes⟩ :=
        (hmade.walk_stops h hparent).of_ok (linkUserPages_eq_ok_iff.mp hlink)
      obtain ⟨hlinking, -⟩ :=
        (linkUserPages_wp hmade.accounted hne hlive hc hmade.pte_child).of_ok hlink
      obtain ⟨-, err, hfull⟩ := (newKernelStack_wp hlinking.accounted).of_err hstack
      have hnone := hstacks hstops _ err hframes hfull
      obtain ⟨u, hrun', hcount, hpte⟩ := cloneSpace_of_stack h hparent hmade hnew hlink hstack
      cases hrun.symm.trans hrun'
      refine ⟨?_, hcount.mpr hnone⟩
      funext w
      rw [hpte, hnone, Option.map_none]

end Clone
end Nanvix.Mm
