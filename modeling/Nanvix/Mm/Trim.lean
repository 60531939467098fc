import Nanvix.Library.Endings
import Nanvix.Mm.HarvestSpec

/-!
# No page table is empty

A page table is created for the first page of a region and removed with the last
one, so between two calls every page table of an address space maps a page. Which
frame stores a directory never changes, and only `map` and `unmap` change the
tables that a directory lists.

## Implementation notes

What a routine does to the directories is described by a property `D` of the
directory of each space. A routine that rewrites entries keeps any such property;
one that maps or unmaps pages of a space keeps the properties that depend on the
storage of its directory only.
-/
namespace Nanvix.Mm
open Config Function Library Library.Prog MM Vmem KeepsIn

variable {D : Nat → PageDirectory → Prop} {s : MemState} {i : Nat} {vm vm' : Vmem}
variable {v : PageAligned} {t : PageTableAddress}
variable {pt : PageTable} {α : Type} {x : Prog Vmem Error α} {Q : α → MemState → Prop}
variable {E : Error → MemState → Prop}

/-- Every page table of the space maps a page. -/
def Vmem.Trim (vm : Vmem) : Prop :=
  ∀ t, (vm.pgdir.entries t).isSome →
    ∃ w : PageAligned, w.pgtab = t ∧ (vm.tryFindUserPte w).isSome

/-- A space between two calls. -/
structure Vmem.Tidy (D : PageDirectory → Prop) (vm : Vmem) : Prop where
  wellFormed : vm.WellFormed
  trim : vm.Trim
  directory : D vm.pgdir

/-- All spaces are in order. -/
def Tidied (D : Nat → PageDirectory → Prop) (s : MemState) : Prop :=
  ∀ i vm, s.spaces i = some vm → vm.Tidy (D i)

/-- A property of a directory that depends on its storage only. -/
def StorageOnly (D : PageDirectory → Prop) : Prop :=
  ∀ d d' : PageDirectory, d'.storage = d.storage → D d → D d'

theorem Vmem.tidy_empty (f : Nat) {D : PageDirectory → Prop} (hD : D ⟨f, fun _ => none⟩) :
    (empty f).Tidy D :=
  ⟨wellFormed_empty f, fun _ ht => (Bool.false_ne_true ht).elim, hD⟩

/-- Without pages a trim space has no page tables. -/
theorem Vmem.Trim.entries_eq_none (h : vm.Trim) (hempty : ∀ w, vm.tryFindUserPte w = none)
    (t : PageTableAddress) : vm.pgdir.entries t = none := by
  cases ht : vm.pgdir.entries t with
  | none => rfl
  | some k =>
    obtain ⟨w, -, hw⟩ := h t (by rw [ht]; rfl)
    rw [hempty] at hw
    cases hw

/-- The tables stay and no page goes. -/
theorem Vmem.Trim.of_view (h : vm.Trim) (hdir : vm'.pgdir = vm.pgdir)
    (hview : ∀ w, (vm.tryFindUserPte w).isSome → (vm'.tryFindUserPte w).isSome) : vm'.Trim := by
  intro t ht
  rw [hdir] at ht
  obtain ⟨w, hw, hp⟩ := h t ht
  exact ⟨w, hw, hview w hp⟩

/-- Only the region of a page that is there got a table. -/
theorem Vmem.Trim.at_page (h : vm.Trim) (hv : (vm'.tryFindUserPte v).isSome)
    (hdir : ∀ u, u ≠ v.pgtab → (vm'.pgdir.entries u).isSome → (vm.pgdir.entries u).isSome)
    (hview : ∀ w : PageAligned, w.pgtab ≠ v.pgtab →
      vm'.tryFindUserPte w = vm.tryFindUserPte w) : vm'.Trim := by
  intro u hu
  by_cases huv : u = v.pgtab
  · exact ⟨v, huv.symm, hv⟩
  · obtain ⟨w, hw, hp⟩ := h u (hdir u huv hu)
    exact ⟨w, hw, by rwa [hview w (hw ▸ huv)]⟩

theorem Vmem.isSome_update {g : PageAligned → Option PageTableEntry} {q : PageTableEntry}
    (w : PageAligned) (h : (g w).isSome) : (update g v (some q) w).isSome := by
  rw [update_apply]
  split_ifs
  · rfl
  · exact h

/-- A table that counts an entry has one. -/
theorem PageTable.Counted.exists_present (h : pt.Counted) (hz : pt.nmapped ≠ 0)
    (t : PageTableAddress) : ∃ w : PageAligned, w.pgtab = t ∧ (pt.readPteAt w).isSome := by
  by_contra hnone
  apply hz
  rw [h]
  refine tally_eq_zero fun n hn => ?_
  have hn := Finset.mem_range.mp hn
  have habs : (pt.readPteAt (t.page n)).isSome = false := by
    rw [← Bool.not_eq_true]
    exact fun hp => hnone ⟨t.page n, PageTableAddress.page_pgtab hn, hp⟩
  rw [Option.isSome_eq_false_iff, Option.isNone_iff_eq_none, readPteAt_eq_none, readPte,
    PageTableAddress.page_pteIndex hn] at habs
  rw [presence, habs]
  rfl

namespace Tidied

theorem setSpace (h : Tidied D s) (hv : vm'.Tidy (D i)) :
    Tidied D { s with spaces := update s.spaces i (some vm') } := by
  intro j vj hj
  by_cases hji : j = i
  · subst hji
    simp only [update_self, Option.some.injEq] at hj
    exact hj ▸ hv
  · exact h j vj (by simpa only [update_of_ne hji] using hj)

theorem of_spaces {s' : MemState} (h : Tidied D s) (hs : s'.spaces = s.spaces) : Tidied D s' :=
  fun i vm hi => h i vm (by rw [← hs, hi])

end Tidied

namespace MM

/-- A routine that leaves the spaces alone keeps them in order. -/
theorem keeps_of_spaces {x : MM α}
    (hx : ∀ s, ends x (fun _ t => t.spaces = s.spaces) (fun _ t => t.spaces = s.spaces)
      (fun _ => True) s) : Keeps (Tidied D) x :=
  fun s hs => (hx s).weaken (fun _ _ ht => hs.of_spaces ht) (fun _ _ ht => hs.of_spaces ht)

theorem onFrames_ends (x : Prog FrameAllocator Error α) (s : MemState) :
    ends (onFrames x) (fun _ t => t.spaces = s.spaces ∧ t.memory = s.memory)
      (fun _ t => t.spaces = s.spaces ∧ t.memory = s.memory) (fun _ => True) s :=
  (ends_focus (fun s : MemState => some s.frames) _ rfl).mpr
    ((ends_true x s.frames).weaken (fun _ _ _ => ⟨rfl, rfl⟩) (fun _ _ _ => ⟨rfl, rfl⟩))

theorem onFrames_keeps (x : Prog FrameAllocator Error α) : Keeps (Tidied D) (onFrames x) :=
  keeps_of_spaces fun s =>
    (onFrames_ends x s).weaken (fun _ _ h => h.1) (fun _ _ h => h.1)

theorem dropFrame_keeps (f : Nat) : Keeps (Tidied D) (dropFrame f) :=
  (onFrames_keeps _).attempt.ret

theorem memset_keeps (base : Nat) (value : UInt8) (size : Nat) :
    Keeps (Tidied D) (memset base value size) :=
  .ite (keeps_pure _) (.ite (keeps_throw _) (keeps_modify fun _ h => h))

theorem memcpy_keeps (dst src size : Nat) : Keeps (Tidied D) (memcpy dst src size) :=
  .ite (keeps_pure _) (.ite (keeps_throw _) (.ite (keeps_throw _) (.ite (keeps_throw _)
    (keeps_modify fun _ h => h))))

/-- Nothing runs on a space that is not there. -/
theorem onSpace_none (hi : s.spaces i = none) : ends (onSpace i x) Q E (fun _ => True) s := by
  have habort : onSpace i x s = .abort "no such component" := by
    simp only [onSpace, focus, hi]
  unfold Prog.ends
  rw [habort]
  trivial

/-- A routine of one space that keeps the space in order. -/
theorem onSpace_keeps (hx : Keeps (Tidy (D i)) x) : Keeps (Tidied D) (onSpace i x) := by
  intro s hs
  cases hi : s.spaces i with
  | none => exact onSpace_none hi
  | some vm =>
    refine (ends_focus (fun s : MemState => s.spaces i) _ hi).mpr ?_
    exact (hx vm (hs i vm hi)).weaken (fun _ _ h => hs.setSpace h) (fun _ _ h => hs.setSpace h)

theorem onSpace_gets_keeps (i : Nat) (g : Vmem → α) : Keeps (Tidied D) (onSpace i (gets g)) :=
  onSpace_keeps (keeps_gets g)

/-- Rewriting an entry keeps a space in order. -/
theorem withUserPage_keeps {D : PageDirectory → Prop}
    {r : PageTableEntry → Except Error (α × PageTableEntry)}
    (hr : ∀ p a q, p.isPresent = true → r p = .ok (a, q) → q.isPresent = true) :
    Keeps (Tidy D) (withUserPage v (·.rewrite v r)) := by
  refine fun vm hvm => ((withUserPage_wp hvm.wellFormed hr).mono ?_ ?_).ends
  · rintro a vm' ⟨hwf, hdir, p, q, -, -, hview⟩
    refine ⟨hwf, hvm.trim.of_view hdir fun w hw => ?_, hdir ▸ hvm.directory⟩
    rw [hview]
    exact isSome_update w hw
  · rintro e vm' ⟨hwf, hdir, hview, -⟩
    exact ⟨hwf, hvm.trim.of_view hdir fun w hw => by rwa [hview], hdir ▸ hvm.directory⟩

theorem markCow_keeps : Keeps (Tidied D) (onSpace i (markUserPageCow v)) :=
  onSpace_keeps <| withUserPage_keeps fun p _ q hp hq => by
    obtain ⟨-, rfl⟩ := PageTableEntry.markCow_eq_ok hq
    exact hp

theorem unmarkCow_keeps : Keeps (Tidied D) (onSpace i (unmarkUserPageCow v)) :=
  onSpace_keeps <| withUserPage_keeps fun p _ q hp hq => by
    obtain ⟨-, rfl⟩ := PageTableEntry.unmarkCow_eq_ok hq
    exact hp

theorem replaceCow_keeps (n : Nat) : Keeps (Tidied D) (onSpace i (replaceUserPageCowFrame v n)) :=
  onSpace_keeps <| withUserPage_keeps fun p _ q hp hq => by
    obtain ⟨-, -, -, rfl⟩ := PageTableEntry.replaceCowFrame_eq_ok hq
    exact hp

theorem uctrl_keeps (access : AccessPermission) : Keeps (Tidied D) (uctrl i v access) := by
  refine onSpace_keeps (.ite (keeps_throw _) (.gets fun _ => .ite (keeps_throw _) ?_))
  exact withUserPage_keeps fun p _ q hp hq => by
    cases hq
    exact hp

/-- Running a routine of a space that is there. -/
theorem onSpace_ends (hi : s.spaces i = some vm) {A : String → Prop} (h : ends x
      (fun a vm' => Q a { s with spaces := update s.spaces i (some vm') })
      (fun e vm' => E e { s with spaces := update s.spaces i (some vm') }) A vm) :
    ends (onSpace i x) Q E A s :=
  (ends_focus (fun s : MemState => s.spaces i) _ hi).mpr h

theorem onSpace_gets_ends {g : Vmem → α} (hi : s.spaces i = some vm) {A : String → Prop}
    (h : Q (g vm) s) : ends (onSpace i (gets g)) Q E A s := by
  apply onSpace_ends hi
  rw [ends_gets, ← hi, update_eq_self]
  exact h

/-- A new page table is cleared memory: no space has changed yet. -/
theorem pageTableAllocator_ends (s : MemState) :
    ends pageTableAllocator (fun pt t => t.spaces = s.spaces ∧ ∃ k, pt = .new k)
      (fun _ t => t.spaces = s.spaces) (fun _ => True) s := by
  have hset : ∀ k, Keeps (fun t : MemState => t.spaces = s.spaces)
      (memset (k * pageSize) 0 pageSize) := fun k =>
    .ite (keeps_pure _) (.ite (keeps_throw _) (keeps_modify fun _ h => h))
  simp only [pageTableAllocator, allocKernelFrame, ends_bind, ends_attempt]
  refine (onFrames_ends _ s).weaken ?_ (fun _ _ h => h.1)
  rintro k s₁ ⟨hsp, -⟩
  refine (hset k s₁ hsp).weaken ?_ ?_
  · intro _ s₂ hsp₂
    rw [ends_pure]
    exact ⟨hsp₂, k, rfl⟩
  · intro e s₂ hsp₂
    simp only [dropFrame, ends_bind, ends_attempt, ends_pure, ends_throw]
    refine (onFrames_ends _ s₂).weaken ?_ ?_
    · exact fun _ _ h => h.1.trans hsp₂
    · exact fun _ _ h => h.1.trans hsp₂

/-- Afterwards the region has a page table, and the other regions are as they were. -/
theorem ensurePageTable_ends (hs : Tidied D s) (hi : s.spaces i = some vm)
    (hu : ∀ n < pageTableLength, isUserAddr (t.page n).raw = true) :
    ends (ensurePageTable i t)
      (fun _ s' => ∃ vm', s'.spaces = update s.spaces i (some vm') ∧ vm'.WellFormed ∧
        t ∈ vm'.userPageTables ∧ vm'.pgdir.storage = vm.pgdir.storage ∧
        vm'.tryFindUserPte = vm.tryFindUserPte ∧
        ∀ u, u ≠ t → vm'.pgdir.entries u = vm.pgdir.entries u)
      (fun _ s' => s'.spaces = s.spaces) (fun _ => True) s := by
  have hwf := (hs i vm hi).wellFormed
  simp only [ensurePageTable, vmemIsPresent, ends_bind]
  apply onSpace_gets_ends hi
  simp only [ends_ite, ends_bind, ends_pure]
  cases ht : vm.pgdir.entries t with
  | some k =>
    simp only [PageDirectory.isPresent, ht, Option.isSome_some, Bool.not_true,
      Bool.false_eq_true, if_false]
    refine ⟨vm, ?_, hwf, hwf.mem_of_entries ht, rfl, rfl, fun _ _ => rfl⟩
    rw [← hi, update_eq_self]
  | none =>
    simp only [PageDirectory.isPresent, ht, Option.isSome_none, Bool.not_false, if_true]
    refine (pageTableAllocator_ends s).imp ?_
    rintro pt s₁ ⟨hsp, k, rfl⟩
    have hi₁ : s₁.spaces i = some vm := by rw [hsp, hi]
    rw [ends_attempt]
    apply onSpace_ends hi₁
    simp only [PageDirectory.map, PageDirectory.isPresent, ht, Option.isSome_none,
      Bool.false_eq_true, if_false, ends_bind, ends_gets, ends_ofExcept_ok, ends_modify]
    apply onSpace_ends (update_self ..)
    simp only [putPageTable, ends_modify, update_idem]
    obtain ⟨hwf', hview, -⟩ := addTable_spec k hwf ht hu
    refine ⟨addTable vm t k, ?_, hwf', (AList.mem_insert _).mpr (Or.inl rfl), rfl, hview,
      fun u hut => update_of_ne hut _ _⟩
    rw [hsp]
    rfl

theorem mapUserFrame_keeps (hD : StorageOnly (D i)) (f : Nat) (access : AccessPermission) :
    Keeps (Tidied D) (mapUserFrame i f v access) := by
  intro s hs
  simp only [mapUserFrame, ends_ite, ends_throw, ends_bind]
  split_ifs with huser
  · exact hs
  cases hi : s.spaces i with
  | none =>
    simp only [ensurePageTable, vmemIsPresent, ends_bind]
    exact onSpace_none hi
  | some vm =>
  have hvm := hs i vm hi
  have hu : isUserAddr v.raw = true := by simpa using huser
  refine (ensurePageTable_ends hs hi fun n hn => isUserAddr_region hu hn).weaken ?_
    (fun _ _ h => hs.of_spaces h)
  rintro _ s₁ ⟨vm₁, hsp, hwf₁, hmem, hstore, hview₁, hrest⟩
  have hi₁ : s₁.spaces i = some vm₁ := by rw [hsp, update_self]
  have htidy : ∀ vm₂ : Vmem, vm₂.WellFormed → vm₂.pgdir = vm₁.pgdir →
      (vm₂.tryFindUserPte v).isSome →
      (∀ w : PageAligned, w ≠ v → vm₂.tryFindUserPte w = vm.tryFindUserPte w) →
      Tidied D { s₁ with spaces := update s₁.spaces i (some vm₂) } := by
    intro vm₂ hwf₂ hdir hp hother
    have htidy₂ : vm₂.Tidy (D i) := by
      refine ⟨hwf₂, hvm.trim.at_page hp (fun u hut hsome => ?_) (fun w hw => ?_),
        hD _ _ (by rw [hdir, hstore]) hvm.directory⟩
      · rwa [hdir, hrest u hut] at hsome
      · exact hother w fun hwv => hw (by rw [hwv])
    exact (hs.setSpace htidy₂).of_spaces (by rw [hsp, update_idem])
  apply onSpace_ends hi₁
  refine ((mapPage_wp hwf₁ hmem f access).mono ?_ ?_).ends
  · rintro _ vm₂ ⟨hwf₂, hdir, -, hupd⟩
    refine htidy vm₂ hwf₂ hdir ?_ fun w hw => ?_
    · rw [hupd, update_self]
      rfl
    · rw [hupd, update_of_ne hw, hview₁]
  · rintro e vm₂ ⟨hwf₂, hdir, hsame, hbusy⟩
    refine htidy vm₂ hwf₂ hdir ?_ fun w _ => by rw [hsame, hview₁]
    rw [hsame]
    exact Option.isSome_iff_ne_none.mpr hbusy

theorem map_keeps (hD : StorageOnly (D i)) (f : Nat) (access : AccessPermission) :
    Keeps (Tidied D) (map i f v access) := by
  refine (mapUserFrame_keeps hD f access).attempt.bind fun r => ?_
  cases r with
  | ok _ => exact keeps_pure _
  | error e => exact (dropFrame_keeps f).bind fun _ => keeps_throw e

/-- Taking an entry out of a table that keeps another one. -/
theorem tidy_unmapped {D : PageDirectory → Prop} (h : vm.Tidy D)
    (hpt : vm.userPageTables.lookup t = some pt) {pt' : PageTable} (hcount : pt'.Counted)
    (hstore : pt'.storage = pt.storage) (hz : pt'.nmapped ≠ 0) :
    Tidy D { vm with userPageTables := vm.userPageTables.insert t pt' } := by
  obtain ⟨w, rfl, hw⟩ := hcount.exists_present hz t
  refine ⟨h.wellFormed.putPageTable hpt hstore hcount, h.trim.at_page (v := w) ?_ ?_ ?_,
    h.directory⟩
  · rwa [tryFindUserPte_putPageTable, if_pos rfl]
  · exact fun _ _ hu => hu
  · intro u hu
    rw [tryFindUserPte_putPageTable, if_neg hu]

/-- Removing the table after its last entry. -/
theorem tidy_removed {D : PageDirectory → Prop} (h : vm.Tidy D)
    (hD : StorageOnly D) (hpt : vm.userPageTables.lookup t = some pt) {pt' : PageTable}
    (hcount : pt'.Counted) (hstore : pt'.storage = pt.storage) (hz : pt'.nmapped = 0) :
    Tidy D
      (removeTable { vm with userPageTables := vm.userPageTables.insert t pt' } t) := by
  obtain ⟨hwf, hview, -⟩ := removeTable_spec (h.wellFormed.putPageTable hpt hstore hcount)
    (AList.lookup_insert _) hz
  refine ⟨hwf, fun u hu => ?_, hD vm.pgdir _ rfl h.directory⟩
  have hut : u ≠ t := by
    rintro rfl
    simp only [removeTable, update_self, Option.isSome_none] at hu
    cases hu
  simp only [removeTable, update_of_ne hut] at hu
  obtain ⟨w, hw, hp⟩ := h.trim u hu
  refine ⟨w, hw, ?_⟩
  rwa [hview, tryFindUserPte_putPageTable, if_neg (hw ▸ hut)]

/-- A table that is removed is listed by the directory no more. -/
theorem removePageTable_ends (hi : s.spaces i = some vm)
    (hdir : (vm.pgdir.entries t).isSome) {P : MemState → Prop}
    (hP : ∀ s', s'.spaces = update s.spaces i (some (removeTable vm t)) → P s') :
    ends (removePageTable i t pt) (fun _ s' => P s') (fun _ s' => P s') (fun _ => True) s := by
  obtain ⟨k, hk⟩ := Option.isSome_iff_exists.mp hdir
  simp only [removePageTable, pgdirUnmap, ends_bind, ends_attempt]
  apply onSpace_ends hi
  rw [ends_modify]
  apply onSpace_ends (update_self ..)
  simp only [PageDirectory.unmap, hk, ends_bind, ends_gets, ends_ofExcept_ok, ends_modify,
    update_idem, dropFrame, ends_attempt, ends_pure]
  refine (onFrames_ends _ _).weaken ?_ ?_
  · exact fun _ s' h => hP s' h.1
  · exact fun _ s' h => hP s' h.1

theorem unmap_keeps (hD : StorageOnly (D i)) : Keeps (Tidied D) (unmap i v) := by
  intro s hs
  simp only [unmap, ends_ite, ends_throw, ends_bind]
  split_ifs with huser
  · exact hs
  cases hi : s.spaces i with
  | none => exact onSpace_none hi
  | some vm =>
  have hvm := hs i vm hi
  apply onSpace_gets_ends hi
  cases hv : vm.tryFindUserPte v with
  | none =>
    simp only [tryFindUserFrame, hv, Option.map_none, ends_pure]
    exact hs
  | some p =>
    obtain ⟨pt, hpt, hread⟩ := tryFindUserPte_eq_some hv
    have hdir : (vm.pgdir.entries v.pgtab).isSome := by
      rw [hvm.wellFormed.directory, hpt]
      rfl
    simp only [tryFindUserFrame, hv, Option.map_some, ends_bind, vmemIsPresent]
    apply onSpace_gets_ends hi
    simp only [PageDirectory.isPresent, hdir, Bool.not_true, Bool.false_eq_true, if_false,
      ends_bind, ends_ite]
    apply onSpace_ends hi
    refine ((lookupUserPageTable_wp v.pgtab).mono ?_ ?_).ends
    · rintro pt₁ vm₁ ⟨hpt₁, rfl⟩
      cases hpt.symm.trans hpt₁
      simp only [PageTable.lookup_present hread, PageTable.unmap_present hread, ends_ofExcept_ok,
        ne_eq, not_true_eq_false, if_false]
      apply onSpace_ends (update_self ..)
      simp only [putPageTable, ends_modify, update_idem, AList.insert_insert]
      have hcount := (hvm.wellFormed.counted _ _ hpt).unmap hread
      rw [ends_pure]
      split_ifs with hz
      · simp only [ends_pure]
        refine removePageTable_ends (update_self ..) (by exact hdir) fun s' hs' => ?_
        refine (hs.setSpace (tidy_removed hvm hD hpt hcount rfl hz)).of_spaces ?_
        rw [hs', update_idem]
      · exact hs.setSpace (tidy_unmapped hvm hpt hcount rfl hz)
    · rintro e vm₁ ⟨-, rfl, -⟩
      rw [← hi, update_eq_self]
      exact hs

theorem tryUnmapUpage_keeps (hD : StorageOnly (D i)) : Keeps (Tidied D) (tryUnmapUpage i v) := by
  refine (unmap_keeps hD).bind fun r => ?_
  cases r with
  | some f => exact (dropFrame_keeps f).ret
  | none => exact keeps_pure _

section Link
variable {parent child : Nat} (hD : StorageOnly (D child))
include hD

theorem linkOneUserPage_keeps (e : LinkEntry) :
    Keeps (Tidied D) (linkOneUserPage parent child e) := by
  refine (onFrames_keeps _).bind fun _ => (map_keeps hD _ _).bind fun _ => .ite ?_ (keeps_pure _)
  refine markCow_keeps.attempt.bind fun r => ?_
  cases r with
  | error err => exact (tryUnmapUpage_keeps hD).attempt.bind fun _ => keeps_throw err
  | ok _ =>
    refine markCow_keeps.attempt.bind fun r => ?_
    cases r with
    | ok _ => exact keeps_pure _
    | error err =>
      exact unmarkCow_keeps.attempt.bind fun _ =>
        (tryUnmapUpage_keeps hD).attempt.bind fun _ => keeps_throw err

theorem rollbackOnePage_keeps (page : PageAligned × Bool) :
    Keeps (Tidied D) (rollbackOnePage parent child page) := by
  have hunmap : Keeps (Tidied D)
      (attempt (tryUnmapUpage child page.1) >>= fun _ => pure ()) :=
    (tryUnmapUpage_keeps hD).attempt.ret
  exact .ite (unmarkCow_keeps.attempt.bind fun _ => hunmap) hunmap

theorem rollbackLoop_keeps (fuel : Nat) : Keeps (Tidied D) (rollbackLoop parent child fuel) := by
  induction fuel with
  | zero => exact keeps_abort _
  | succ fuel ih =>
    refine (onSpace_gets_keeps child _).bind fun pages => .ite (keeps_pure _) ?_
    exact (forEach fun page _ => rollbackOnePage_keeps hD page).bind fun _ =>
      .ite (keeps_pure _) ih

theorem rollbackLinkedPages_keeps : Keeps (Tidied D) (rollbackLinkedPages parent child) :=
  (onSpace_gets_keeps child _).bind fun _ => rollbackLoop_keeps hD _

omit hD in
theorem linkSnapshot_keeps : Keeps (Tidied D) (linkSnapshot parent child) :=
  (onSpace_gets_keeps child _).bind fun _ => (onSpace_gets_keeps parent _).ret

theorem linkLoop_keeps (fuel : Nat) : Keeps (Tidied D) (linkLoop parent child fuel) := by
  induction fuel with
  | zero => exact keeps_abort _
  | succ fuel ih =>
    refine linkSnapshot_keeps.bind fun chunk => .ite (keeps_pure _) ?_
    refine (forEach fun e _ => linkOneUserPage_keeps hD e).attempt.bind fun r => ?_
    cases r with
    | error e => exact (rollbackLinkedPages_keeps hD).bind fun _ => keeps_throw e
    | ok _ => exact .ite (keeps_pure _) ih

theorem linkUserPages_keeps : Keeps (Tidied D) (linkUserPages parent child) :=
  (onSpace_gets_keeps parent _).bind fun _ => linkLoop_keeps hD _

end Link

section Calls
variable (hD : StorageOnly (D i))

theorem checkUserWatermark_keeps (count : Nat) : Keeps (Tidied D) (checkUserWatermark count) :=
  .ite (keeps_throw _) (.gets fun _ => .ite (keeps_throw _) (keeps_pure _))

theorem allocUserFrame_keeps : Keeps (Tidied D) allocUserFrame :=
  (checkUserWatermark_keeps 1).bind fun _ => onFrames_keeps _

theorem dropFrames_keeps (fs : List Nat) : Keeps (Tidied D) (forEach dropFrame fs) :=
  .forEach fun f _ => dropFrame_keeps f

theorem allocUserFramesLoop_keeps (n : Nat) (frames : List Nat) :
    Keeps (Tidied D) (allocUserFramesLoop n frames) := by
  induction n generalizing frames with
  | zero => exact keeps_pure _
  | succ n ih =>
    refine (onFrames_keeps _).attempt.bind fun r => ?_
    cases r with
    | ok f => exact ih _
    | error e => exact (dropFrames_keeps frames).bind fun _ => keeps_throw e

theorem allocManyUserFrames_keeps (count capacity : Nat) (frames : List Nat) :
    Keeps (Tidied D) (allocManyUserFrames count frames capacity) :=
  .ite (keeps_throw _) (.ite (keeps_throw _) (.ite (keeps_pure _)
    ((checkUserWatermark_keeps count).bind fun _ => allocUserFramesLoop_keeps count [])))

theorem checkUnmapped_keeps (n : Nat) (v : PageAligned) :
    Keeps (Tidied D) (checkUnmapped i n v) := by
  induction n generalizing v with
  | zero => exact keeps_pure _
  | succ n ih =>
    exact (onSpace_gets_keeps i _).bind fun _ => (keeps_ofExcept _).bind fun _ =>
      .ite (keeps_throw _) (.ite (keeps_throw _) (ih v.next))

theorem memsetPage_keeps (value : UInt8) : Keeps (Tidied D) (memsetPage i v value) :=
  bind ((onSpace_gets_keeps i _).bind fun _ => keeps_ofExcept _) fun _ =>
    memset_keeps _ _ _

theorem resolveCowAt_keeps : Keeps (Tidied D) (resolveCowAt i v) := by
  refine .ite (keeps_pure _) ((onSpace_gets_keeps i _).bind fun r => ?_)
  cases r with
  | none => exact keeps_pure _
  | some pte =>
    refine .ite (keeps_pure _) ((onFrames_keeps _).bind fun _ => .ite ?_ ?_)
    · exact unmarkCow_keeps.ret
    · refine allocUserFrame_keeps.bind fun n => ?_
      refine bind (attempt ((memcpy_keeps _ _ _).bind fun _ =>
        replaceCow_keeps n)) fun r => ?_
      cases r with
      | ok old => exact (dropFrame_keeps old).ret
      | error e => exact (dropFrame_keeps n).bind fun _ => keeps_throw e

theorem resolveCowForRegion_keeps (addr size : Nat) :
    Keeps (Tidied D) (resolveCowForRegion i addr size) :=
  .ite (keeps_pure _) (.ite (keeps_throw _)
    (.forEach fun _ _ => resolveCowAt_keeps.ret))

include hD

theorem mapFramesLoop_keeps (access : AccessPermission) (clear : Bool) (frames : List Nat)
    (v : PageAligned) (mapped : Nat) :
    Keeps (Tidied D) (mapFramesLoop i access clear frames v mapped) := by
  induction frames generalizing v mapped with
  | nil => exact keeps_pure _
  | cons f frames ih =>
    refine (map_keeps hD f access).attempt.bind fun r => ?_
    cases r with
    | error e => exact (dropFrames_keeps frames).ret
    | ok _ =>
      refine bind (attempt (.ite (memsetPage_keeps 0) (keeps_pure _)))
        fun r => ?_
      cases r with
      | error e => exact (dropFrames_keeps frames).ret
      | ok _ => exact ih v.next (mapped + 1)

theorem rollbackRange_keeps (n : Nat) (v : PageAligned) :
    Keeps (Tidied D) (rollbackRange i n v) := by
  induction n generalizing v with
  | zero => exact keeps_pure _
  | succ n ih => exact (tryUnmapUpage_keeps hD).attempt.bind fun _ => ih v.next

theorem allocUpages_keeps (access : AccessPermission) (clear : Bool) (nframes : Nat)
    (uframes : List Nat) (capacity : Nat) :
    Keeps (Tidied D) (allocUpages i v access clear nframes uframes capacity) := by
  refine .ite (keeps_throw _) (.ite (keeps_throw _) (.ite (keeps_throw _) (.ite (keeps_throw _)
    ((checkUnmapped_keeps nframes v).bind fun _ =>
      (allocManyUserFrames_keeps nframes capacity uframes).bind fun frames =>
        (mapFramesLoop_keeps hD access clear frames v 0).bind fun r => ?_))))
  obtain ⟨mapped, failed⟩ := r
  cases failed with
  | none => exact keeps_pure _
  | some e => exact (rollbackRange_keeps hD mapped v).bind fun _ => keeps_throw e

end Calls

theorem newVmem_keeps (hD : ∀ i d, (d : PageDirectory).entries = (fun _ => none) → D i d) :
    Keeps (Tidied D) newVmem :=
  (onFrames_keeps _).bind fun f => .gets fun i =>
    (keeps_modify fun _ h => h.setSpace (tidy_empty f (hD i _ rfl))).bind fun _ => keeps_pure i

end MM

/-- No space has an empty page table. -/
abbrev Trimmed (s : MemState) : Prop := Tidied (fun _ _ => True) s

theorem trimmed_boot (n : Nat) : Trimmed (.boot n) := fun _ _ hi => by cases hi

section Runs
variable {guard : LifeCmd → LifeState → Prop} {l l₀ : LifeState}

/-- What is asked of a directory in a run is nothing. -/
theorem storageOnly_true : StorageOnly fun _ => True := fun _ _ _ _ => trivial

theorem MM.newVmem_trimmed : Keeps Trimmed newVmem := newVmem_keeps fun _ _ _ => trivial

theorem memMachine_trimmed (c : MemCmd) : Keeps Trimmed (memMachine.exec c) := by
  cases c with
  | newVmem => exact newVmem_trimmed.ret
  | allocUpages => exact allocUpages_keeps storageOnly_true _ _ _ _ _
  | linkUserPages => exact linkUserPages_keeps storageOnly_true
  | resolveCowAt => exact resolveCowAt_keeps.ret
  | resolveCowForRegion => exact resolveCowForRegion_keeps _ _
  | tryResolveCowFault =>
    exact bind (.ite (keeps_pure _) resolveCowAt_keeps) fun _ => keeps_pure _
  | uctrl => exact uctrl_keeps _
  | unmap => exact (tryUnmapUpage_keeps storageOnly_true).ret

theorem MM.newKernelStack_keeps : Keeps (Tidied D) newKernelStack := by
  refine (onFrames_keeps _).bind fun base => ?_
  refine bind (attempt (.forEach fun f _ => memset_keeps _ _ _)) fun r => ?_
  cases r with
  | ok _ => exact keeps_pure _
  | error e => exact (dropFrames_keeps _).bind fun _ => keeps_throw e

theorem MM.dropVmem_keeps (i : Nat) : Keeps (Tidied D) (dropVmem i) := by
  refine (onSpace_gets_keeps i id).bind fun vm => ?_
  refine (keeps_modify fun s h j vj hj => ?_).bind fun _ =>
    (dropFrames_keeps _).bind fun _ => dropFrame_keeps _
  by_cases hji : j = i
  · subst hji
    simp only [update_self] at hj
    cases hj
  · exact h j vj (by simpa only [update_of_ne hji] using hj)

theorem MM.harvestThread_keeps (hD : StorageOnly (D i)) (t : ThreadStacks) :
    Keeps (Tidied D) (harvestThread i t) := by
  obtain ⟨kernelStack, userStack⟩ := t
  cases kernelStack with
  | none => exact keeps_pure _
  | some kernelStack =>
    cases userStack with
    | none => exact dropFrames_keeps _
    | some base =>
      exact bind (.forEach fun n _ => (tryUnmapUpage_keeps hD).attempt.ret) fun _ => dropFrames_keeps _

/-- A routine of the memory manager keeps what it keeps of the memory. -/
theorem LM.onMem_keeps {x : MM α} {I : MemState → Prop} (hx : Keeps I x) :
    Keeps (fun l : LifeState => I l.mem) (LM.onMem x) :=
  fun l hl => (ends_focus (fun l : LifeState => some l.mem) _ rfl).mpr (hx l.mem hl)

/-- A step that changes the processes and the handles only. -/
theorem LM.modify_keeps {I : MemState → Prop} {g : LifeState → LifeState}
    (hg : ∀ l, (g l).mem = l.mem) :
    Keeps (fun l : LifeState => I l.mem) (modify g : LM Unit) :=
  keeps_modify fun l hl => by rwa [hg]

theorem lifeMachine_trimmed (c : LifeCmd) :
    Keeps (fun l : LifeState => Trimmed l.mem) (lifeMachine.exec c) := by
  have htake : ∀ k, Keeps (fun l : LifeState => Trimmed l.mem) (LM.takeHandle k) := by
    intro k
    refine .gets fun r => ?_
    cases r with
    | none => exact keeps_abort _
    | some f => exact bind (LM.modify_keeps (by exact fun _ => rfl)) fun _ => keeps_pure f
  have hget : ∀ p, Keeps (fun l : LifeState => Trimmed l.mem) (LM.getProcess p) := by
    intro p
    refine .gets fun r => ?_
    cases r with
    | none => exact keeps_abort _
    | some proc => exact keeps_pure _
  cases c with
  | mem c => exact LM.onMem_keeps (memMachine_trimmed c)
  | allocUserFrame =>
    exact (LM.onMem_keeps allocUserFrame_keeps).bind fun _ => LM.modify_keeps fun _ => rfl
  | map k i v access =>
    exact (htake k).bind fun f => LM.onMem_keeps (map_keeps storageOnly_true f access)
  | unmap i v =>
    refine (LM.onMem_keeps (unmap_keeps storageOnly_true)).bind fun r => ?_
    cases r with
    | none => exact keeps_pure _
    | some f => exact LM.modify_keeps fun _ => rfl
  | dropFrame k => exact (htake k).bind fun f => LM.onMem_keeps (dropFrame_keeps f)
  | createProcess i userStack =>
    exact (LM.onMem_keeps newKernelStack_keeps).bind fun _ => LM.modify_keeps fun _ => rfl
  | createThread p =>
    exact (hget p).bind fun _ => (LM.onMem_keeps newKernelStack_keeps).bind fun _ =>
      LM.modify_keeps fun _ => rfl
  | harvestThread p t =>
    refine (hget p).bind fun proc => ?_
    cases proc.threads[t]? with
    | none => exact keeps_abort _
    | some thread =>
      exact bind (LM.modify_keeps (by exact fun _ => rfl)) fun _ =>
        LM.onMem_keeps (harvestThread_keeps (by exact storageOnly_true) thread)
  | terminate p => exact (hget p).bind fun _ => LM.modify_keeps fun _ => rfl
  | harvestZombies =>
    refine .gets fun zs => ?_
    cases zs with
    | nil => exact keeps_pure _
    | cons z zs =>
      refine bind (LM.modify_keeps (by exact fun _ => rfl)) fun _ => LM.onMem_keeps ?_
      exact bind (.forEach fun t _ => harvestThread_keeps storageOnly_true t)
        fun _ => dropVmem_keeps _
  | dropVmem i => exact LM.onMem_keeps (dropVmem_keeps i)

/-- In every state that a run reaches, no space has an empty page table. -/
theorem trimmed_of_reach (h : lifeMachine.Reach guard l₀ l) (h₀ : Trimmed l₀.mem) : Trimmed l.mem :=
  h.invariant_of_ends (I := fun l => Trimmed l.mem) h₀ fun c l hl _ _ =>
    lifeMachine_trimmed c l hl

end Runs
end Nanvix.Mm
