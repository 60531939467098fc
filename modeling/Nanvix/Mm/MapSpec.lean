import Nanvix.Mm.HandleSpec

/-!
# Specifications of the memory routines: mapping and unmapping

Mapping a page moves the handle of its frame into the page table, unmapping
turns the entry back into a handle. Both may change the set of page tables: a
table is created for the first page of a region and removed with the last one.
-/
namespace Nanvix.Mm
open Config Function Library Library.Prog Vmem

variable {held : List Nat} {s : MemState} {i f : Nat} {vm vm' : Vmem} {v : PageAligned}
variable {t : PageTableAddress} {pt : PageTable}

namespace MM

/-- The frames of the bitmap end within the machine word. -/
theorem frame_end_le (h : s.frames.Valid) (hf : 0 < s.frames.refcount f) :
    f * pageSize + pageSize ≤ usizeMax := by
  have hlt := h.bound f hf
  have hmem := h.addressable
  have hle : (f + 1) * pageSize ≤ s.frames.bitmap.numberOfBits * pageSize :=
    Nat.mul_le_mul_right _ hlt
  rw [Nat.add_mul, Nat.one_mul] at hle
  omega

theorem memset_wp {base size : Nat} {value : UInt8} (h : base + size ≤ usizeMax) :
    wp (memset base value size)
      (fun _ s' => s' = { s with memory := fillBytes s.memory base value size })
      (fun _ _ => False) s := by
  simp only [memset, wp_ite, wp_pure, wp_modify, if_neg (Nat.not_lt.mpr h)]
  split_ifs with hsize
  subst hsize
  have hfill : fillBytes s.memory base value 0 = s.memory := by
    funext a
    exact if_neg (by omega)
  rw [hfill]

/-- Filling a frame leaves the bytes of every other frame. -/
theorem fillBytes_of_ne {m : Nat → UInt8} {value : UInt8} {g o : Nat} (hg : g ≠ f)
    (ho : o < pageSize) :
    fillBytes m (f * pageSize) value pageSize (g * pageSize + o) = m (g * pageSize + o) := by
  unfold pageSize at ho ⊢
  exact if_neg (by omega)

/-- A new page table is stored in a frame that had no owner. -/
theorem pageTableAllocator_wp (h : Accounted held s) :
    wp pageTableAllocator
      (fun pt s' => ∃ k, pt = .new k ∧ s.frames.refcount k = 0 ∧ Accounted (k :: held) s' ∧
        Quiet s s' ∧ s'.spaces = s.spaces)
      (fun e s' => s' = s ∧ e.code = .outOfMemory) s := by
  simp only [pageTableAllocator, allocKernelFrame, wp_bind]
  refine (allocFrame_wp h).mono ?_ (fun _ _ he => ⟨he.1, he.2.1⟩)
  rintro k s₁ ⟨hacc, hzero, a, rfl, hcap, hcount⟩
  have hend := frame_end_le hacc.valid hacc.refcount_pos_of_held
  rw [wp_attempt]
  refine (memset_wp hend).total ?_
  rintro _ s₂ rfl
  rw [wp_pure]
  refine ⟨k, rfl, hzero, hacc.setMemory _, ⟨⟨fun _ => rfl, rfl, hcap⟩, ?_, ?_, ?_⟩, rfl⟩
  · intro f hf o ho
    have hne : f ≠ k := fun hfk => by rw [hfk, hzero] at hf; cases hf
    exact fillBytes_of_ne hne ho
  · intro f
    change a.refcount f ≤ _
    rw [hcount]
    by_cases hfk : f = k
    · subst hfk
      rw [update_self]
      exact Nat.le_max_right _ _
    · rw [update_of_ne hfk]
      exact Nat.le_max_left _ _
  · intro f hf
    have hne : f ≠ k := fun hfk => by rw [hfk, hzero] at hf; cases hf
    change a.refcount f = _
    rw [hcount, update_of_ne hne]

/-- The bounds of user space are bounds of regions. -/
theorem isUserAddr_region (hv : isUserAddr v.raw = true) {n : Nat} (hn : n < pageTableLength) :
    isUserAddr (v.pgtab.page n).raw = true := by
  obtain ⟨hlo, hhi⟩ := isUserAddr_iff.mp hv
  apply isUserAddr_iff.mpr
  unfold PageAligned.raw userBase pageSize at hlo
  unfold PageAligned.raw userEnd pageSize at hhi
  unfold pageTableLength at hn
  unfold PageTableAddress.page PageAligned.pgtab PageAligned.raw userBase userEnd pageSize
    pageTableLength
  dsimp only
  omega

/-- An address space with one page table more. -/
def addTable (vm : Vmem) (t : PageTableAddress) (k : Nat) : Vmem where
  pgdir := ⟨vm.pgdir.storage, update vm.pgdir.entries t (some k)⟩
  userPageTables := vm.userPageTables.insert t (.new k)

/-- The new table maps nothing; it is one more owner of the frame that stores it. -/
theorem addTable_spec (k : Nat) (hwf : vm.WellFormed) (ht : vm.pgdir.entries t = none)
    (hu : ∀ n < pageTableLength, isUserAddr (t.page n).raw = true) :
    (addTable vm t k).WellFormed ∧ (addTable vm t k).tryFindUserPte = vm.tryFindUserPte ∧
      ∀ f, (addTable vm t k).refs f = vm.refs f + stores f (some k) := by
  have hnone := hwf.lookup_eq_none ht
  have hview : (addTable vm t k).tryFindUserPte = vm.tryFindUserPte := by
    funext w
    simp only [tryFindUserPte, addTable]
    by_cases hw : w.pgtab = t
    · rw [hw, AList.lookup_insert, hnone]
      rfl
    · rw [AList.lookup_insert_ne hw]
  refine ⟨⟨fun u => ?_, fun u pu hpu => ?_, fun u humem => ?_⟩, hview, fun f => ?_⟩
  · simp only [addTable]
    by_cases hut : u = t
    · subst hut
      rw [AList.lookup_insert, update_self]
      rfl
    · rw [AList.lookup_insert_ne hut, update_of_ne hut, ← hwf.directory u]
  · simp only [addTable] at hpu
    by_cases hut : u = t
    · subst hut
      rw [AList.lookup_insert, Option.some.injEq] at hpu
      exact hpu ▸ PageTable.counted_new k
    · rw [AList.lookup_insert_ne hut] at hpu
      exact hwf.counted u pu hpu
  · simp only [addTable, AList.mem_insert] at humem
    rcases humem with rfl | humem
    · exact hu
    · exact hwf.user u humem
  · have hstore : (addTable vm t k).pgdir.storage = vm.pgdir.storage := rfl
    have hker := kernelRefs_update (f := f)
      (number_lt_pageTableLength (hu 0 (by decide))) hstore rfl
    have husr := userRefs_congr (f := f) hview
    rw [ht, stores_none] at hker
    unfold refs
    omega

/-- Afterwards the region has a page table, and nothing that had an owner has changed. -/
theorem ensurePageTable_wp (h : Accounted held s) (hi : s.spaces i = some vm)
    (hu : ∀ n < pageTableLength, isUserAddr (t.page n).raw = true) :
    wp (ensurePageTable i t)
      (fun _ s' => Accounted held s' ∧ Quiet s s' ∧ s'.pte = s.pte ∧
        ∃ vm', s'.spaces i = some vm' ∧ t ∈ vm'.userPageTables)
      (fun e s' => s' = s ∧ e.code = .outOfMemory) s := by
  have hwf := h.wellFormed i vm hi
  simp only [ensurePageTable, vmemIsPresent, wp_bind]
  apply onSpace_gets_wp hi
  simp only [wp_ite, wp_bind, wp_pure]
  cases ht : vm.pgdir.entries t with
  | some k =>
    simp only [PageDirectory.isPresent, ht, Option.isSome_some, Bool.not_true,
      Bool.false_eq_true, if_false]
    exact ⟨h, .refl s, trivial, vm, hi, hwf.mem_of_entries ht⟩
  | none =>
    simp only [PageDirectory.isPresent, ht, Option.isSome_none, Bool.not_false, if_true]
    refine (pageTableAllocator_wp h).imp ?_
    rintro pt s₁ ⟨k, rfl, -, hacc, hq, hsp⟩
    have hi₁ : s₁.spaces i = some vm := by rw [hsp, hi]
    rw [wp_attempt]
    apply onSpace_wp hi₁
    simp only [PageDirectory.map, PageDirectory.isPresent, ht, Option.isSome_none,
      Bool.false_eq_true, if_false, wp_bind, wp_gets, wp_ofExcept_ok, wp_modify]
    apply onSpace_wp (update_self ..)
    simp only [putPageTable, wp_modify, update_idem]
    obtain ⟨hwf', hview, hrefs⟩ := addTable_spec k hwf ht hu
    have hset : Accounted held
        { s₁ with spaces := update s₁.spaces i (some (addTable vm t k)) } :=
      hacc.setSpace hi₁ hwf' fun f => by
        rw [hrefs, count_cons_eq]
        omega
    have hpte : MemState.pte
        { s₁ with spaces := update s₁.spaces i (some (addTable vm t k)) } = s.pte := by
      rw [pte_setSpace_same hi₁ hview]
      funext j w
      simp only [MemState.pte, hsp]
    exact ⟨hset, hq.trans (quiet_of_frames_memory (sameSpaces_setSpace hi₁ _) rfl rfl), hpte, _,
      update_self .., (AList.mem_insert _).mpr (Or.inl rfl)⟩

/-- Writing the entry of a user page moves the handle of its frame into the table. -/
theorem mapUserFrame_wp {access : AccessPermission} (h : Accounted (f :: held) s)
    (hi : s.spaces i = some vm) :
    wp (mapUserFrame i f v access)
      (fun _ s' => Accounted held s' ∧ Quiet s s' ∧ isUserAddr v.raw = true ∧
        s.pte i v = none ∧ s'.pte = setPte s.pte i v (some (userEntry f access)))
      (fun e s' => Accounted (f :: held) s' ∧ Quiet s s' ∧ s'.pte = s.pte ∧
        (isUserAddr v.raw = true → s.pte i v = none → e.code = .outOfMemory)) s := by
  simp only [mapUserFrame, wp_ite, wp_throw, wp_bind]
  split_ifs with huser
  · refine ⟨h, .refl s, trivial, fun hu => ?_⟩
    rw [hu] at huser
    cases huser
  have hu : isUserAddr v.raw = true := by simpa using huser
  refine (ensurePageTable_wp h hi fun n hn => isUserAddr_region hu hn).mono ?_ ?_
  · rintro _ s₁ ⟨hacc, hq, hpte, vm₁, hi₁, htab⟩
    have hwf := hacc.wellFormed i vm₁ hi₁
    have hview : s.pte i v = vm₁.tryFindUserPte v := by
      rw [← hpte, Accounted.pte_of_space hi₁]
    apply onSpace_wp hi₁
    refine (mapPage_wp hwf htab f access).mono ?_ ?_
    · rintro _ vm₂ ⟨hwf₂, hdir, habs, hupd⟩
      refine ⟨hacc.setSpace hi₁ hwf₂ fun g => ?_,
        hq.trans (quiet_of_frames_memory (sameSpaces_setSpace hi₁ vm₂) rfl rfl), hu,
        hview.trans habs, ?_⟩
      · have husr := userRefs_update (f := g) (number_lt_numPages hu) hupd
        have hker := kernelRefs_congr (f := g) hdir
        rw [habs, mapsTo_none, mapsTo_some] at husr
        change vm₂.userRefs g + 0 = vm₁.userRefs g + stores g (some f) at husr
        rw [count_cons_eq]
        unfold refs
        omega
      · rw [pte_setSpace_update hi₁ hupd, hpte]
    · rintro e vm₂ ⟨hwf₂, hdir, hsame, hbusy⟩
      refine ⟨hacc.setSpace hi₁ hwf₂ fun g => ?_,
        hq.trans (quiet_of_frames_memory (sameSpaces_setSpace hi₁ vm₂) rfl rfl), ?_,
        fun _ hnone => absurd (hview ▸ hnone) hbusy⟩
      · rw [refs, userRefs_congr hsame, kernelRefs_congr hdir, refs]
      · rw [pte_setSpace_same hi₁ hsame, hpte]
  · rintro e s₁ ⟨rfl, hoom⟩
    exact ⟨h, .refl _, rfl, fun _ _ => hoom⟩

/-- `map` takes the handle of the frame in either case. -/
theorem map_wp {access : AccessPermission} (h : Accounted (f :: held) s)
    (hi : s.spaces i = some vm) :
    wp (map i f v access)
      (fun _ s' => Accounted held s' ∧ Quiet s s' ∧ isUserAddr v.raw = true ∧
        s.pte i v = none ∧ s'.pte = setPte s.pte i v (some (userEntry f access)))
      (fun e s' => Accounted held s' ∧ SameSpaces s s' ∧ KeepsBytes s s' ∧
        (∀ g, 0 < s.frames.refcount g →
          s'.frames.refcount g + stores g (some f) = s.frames.refcount g) ∧ NoNewOwners s s' ∧
        s'.pte = s.pte ∧ (isUserAddr v.raw = true → s.pte i v = none → e.code = .outOfMemory)) s := by
  simp only [map, wp_bind, wp_attempt]
  refine (mapUserFrame_wp h hi).mono ?_ ?_
  · rintro _ s₁ hok
    rw [wp_pure]
    exact hok
  · rintro e s₁ ⟨hacc, hq, hpte, hoom⟩
    simp only [wp_throw]
    refine (dropFrame_wp hacc).total ?_
    rintro _ s₂ ⟨hacc₂, a, rfl, hcap, hcount⟩
    refine ⟨hacc₂, hq.spaces.after_frames hcap, hq.bytes, fun g hg => ?_, fun g => ?_, hpte, hoom⟩
    · change a.refcount g + _ = _
      rw [hcount, ← hq.kept g hg]
      by_cases hgf : g = f
      · subst hgf
        have hpos := hacc.refcount_pos_of_held
        rw [update_self, stores_self]
        omega
      · rw [update_of_ne hgf, stores_of_ne hgf, Nat.add_zero]
    · have hle := hq.owners g
      change a.refcount g ≤ _
      rw [hcount]
      by_cases hgf : g = f
      · subst hgf
        rw [update_self]
        omega
      · rwa [update_of_ne hgf]

/-- An address space with one page table less. -/
def removeTable (vm : Vmem) (t : PageTableAddress) : Vmem where
  pgdir := ⟨vm.pgdir.storage, update vm.pgdir.entries t none⟩
  userPageTables := vm.userPageTables.erase t

/-- Removing a table that maps nothing keeps the view and gives its frame back. -/
theorem removeTable_spec (hwf : vm.WellFormed)
    (ht : vm.userPageTables.lookup t = some pt) (hz : pt.nmapped = 0) :
    (removeTable vm t).WellFormed ∧ (removeTable vm t).tryFindUserPte = vm.tryFindUserPte ∧
      ∀ f, (removeTable vm t).refs f + stores f (some pt.storage) = vm.refs f := by
  have hview : (removeTable vm t).tryFindUserPte = vm.tryFindUserPte := by
    funext w
    simp only [tryFindUserPte, removeTable]
    by_cases hw : w.pgtab = t
    · rw [hw, AList.lookup_erase, ht]
      exact ((hwf.counted t pt ht).eq_none hz w).symm
    · rw [AList.lookup_erase_ne hw]
  have hmem : t ∈ vm.userPageTables := AList.lookup_isSome.mp (by rw [ht]; rfl)
  refine ⟨⟨fun u => ?_, fun u pu hpu => ?_, fun u humem => ?_⟩, hview, fun f => ?_⟩
  · simp only [removeTable]
    by_cases hut : u = t
    · subst hut
      rw [AList.lookup_erase, update_self]
      rfl
    · rw [AList.lookup_erase_ne hut, update_of_ne hut, ← hwf.directory u]
  · simp only [removeTable] at hpu
    by_cases hut : u = t
    · subst hut
      rw [AList.lookup_erase] at hpu
      cases hpu
    · rw [AList.lookup_erase_ne hut] at hpu
      exact hwf.counted u pu hpu
  · simp only [removeTable, AList.mem_erase] at humem
    exact hwf.user u humem.2
  · have hstore : (removeTable vm t).pgdir.storage = vm.pgdir.storage := rfl
    have hker := kernelRefs_update (f := f)
      (number_lt_pageTableLength (hwf.user t hmem 0 (by decide))) hstore rfl
    have husr := userRefs_congr (f := f) hview
    rw [hwf.directory, ht, Option.map_some, stores_none] at hker
    unfold refs
    omega

/-- Removing a table that maps nothing only gives back the frame that stores it. -/
theorem removePageTable_wp (h : Accounted held s)
    (hi : s.spaces i = some vm) (ht : vm.userPageTables.lookup t = some pt) (hz : pt.nmapped = 0) :
    wp (removePageTable i t pt)
      (fun _ s' => Accounted held s' ∧ SameSpaces s s' ∧ s'.memory = s.memory ∧
        (∀ g, s'.frames.refcount g ≤ s.frames.refcount g) ∧ s'.pte = s.pte)
      (fun _ _ => False) s := by
  have hwf := h.wellFormed i vm hi
  obtain ⟨hwf', hview, hrefs⟩ := removeTable_spec hwf ht hz
  have hdir : vm.pgdir.entries t = some pt.storage := by rw [hwf.directory, ht, Option.map_some]
  have hset : Accounted (pt.storage :: held)
      { s with spaces := update s.spaces i (some (removeTable vm t)) } :=
    h.setSpace hi hwf' fun f => by
      have href := hrefs f
      rw [count_cons_eq]
      omega
  simp only [removePageTable, pgdirUnmap, wp_bind, wp_attempt]
  apply onSpace_wp hi
  rw [wp_modify]
  apply onSpace_wp (update_self ..)
  simp only [PageDirectory.unmap, hdir, wp_bind, wp_gets, wp_ofExcept_ok, wp_modify,
    update_idem]
  refine (dropFrame_wp hset).total ?_
  rintro _ s' ⟨hacc, a, rfl, hcap, hcount⟩
  refine ⟨hacc, (sameSpaces_setSpace hi _).after_frames hcap, rfl, fun g => ?_, ?_⟩
  · change a.refcount g ≤ s.frames.refcount g
    rw [hcount, update_apply]
    split_ifs with hg
    · subst hg
      exact Nat.sub_le _ _
    · exact Nat.le_refl _
  · exact pte_setSpace_same hi hview

/-- The state after an unmapped page: the table entry became a handle. -/
structure Unmapped (held : List Nat) (i : Nat) (v : PageAligned) (p : PageTableEntry)
    (s s' : MemState) : Prop where
  accounted : Accounted (p.frame :: held) s'
  spaces : SameSpaces s s'
  memory : s'.memory = s.memory
  owners : ∀ g, s'.frames.refcount g ≤ s.frames.refcount g
  pte : s'.pte = setPte s.pte i v none

/-- Writing the empty entry, before an empty table is removed. -/
theorem unmapEntry_spec {p : PageTableEntry} (h : Accounted held s)
    (hi : s.spaces i = some vm) (hpt : vm.userPageTables.lookup v.pgtab = some pt)
    (hread : pt.readPteAt v = some p) (hvm : vm' = { vm with
      userPageTables := vm.userPageTables.insert v.pgtab
        { pt.writePte v .unmapped with nmapped := pt.nmapped - 1 } }) :
    Unmapped held i v p s { s with spaces := update s.spaces i (some vm') } := by
  have hwf := h.wellFormed i vm hi
  have hv : vm.tryFindUserPte v = some p := (tryFindUserPte_of_lookup hpt).trans hread
  have hupd : vm'.tryFindUserPte = update vm.tryFindUserPte v none := by
    rw [hvm]
    exact tryFindUserPte_writePte (q := .unmapped) hpt fun _ => rfl
  have hwf' : vm'.WellFormed := by
    rw [hvm]
    exact hwf.putPageTable hpt rfl ((hwf.counted _ _ hpt).unmap hread)
  refine ⟨h.setSpace hi hwf' fun g => ?_, sameSpaces_setSpace hi vm', rfl, fun _ => Nat.le_refl _,
    pte_setSpace_update hi hupd⟩
  have husr := userRefs_update (f := g) (number_lt_numPages (hwf.isUserAddr hv)) hupd
  have hker := kernelRefs_congr (f := g) (congrArg pgdir hvm)
  rw [hv, mapsTo_none, mapsTo_some] at husr
  change vm'.kernelRefs g = vm.kernelRefs g at hker
  rw [count_cons_eq]
  unfold refs
  omega

/-- `unmap` turns the entry of a present page into a handle; it fails outside user space only. -/
theorem unmap_wp (h : Accounted held s) (hi : s.spaces i = some vm) :
    wp (unmap i v)
      (fun r s' => (r = none ∧ s.pte i v = none ∧ s' = s) ∨
        ∃ p, s.pte i v = some p ∧ r = some p.frame ∧ Unmapped held i v p s s')
      (fun _ s' => isUserAddr v.raw = false ∧ s' = s) s := by
  have hwf := h.wellFormed i vm hi
  simp only [unmap, wp_ite, wp_throw, wp_bind]
  split_ifs with huser
  · exact ⟨by simpa using huser, trivial⟩
  apply onSpace_gets_wp hi
  cases hv : vm.tryFindUserPte v with
  | none =>
    simp only [tryFindUserFrame, hv, Option.map_none, wp_pure]
    exact Or.inl ⟨trivial, (Accounted.pte_of_space hi).trans hv, trivial⟩
  | some p =>
    obtain ⟨pt, hpt, hread⟩ := tryFindUserPte_eq_some hv
    have hpte : s.pte i v = some p := (Accounted.pte_of_space hi).trans hv
    have hdir : vm.pgdir.isPresent v.pgtab = true := by
      rw [PageDirectory.isPresent, hwf.directory, hpt]
      rfl
    simp only [tryFindUserFrame, hv, Option.map_some, wp_bind, vmemIsPresent]
    apply onSpace_gets_wp hi
    simp only [hdir, Bool.not_true, Bool.false_eq_true, if_false, wp_bind, wp_ite]
    apply onSpace_wp hi
    refine (lookupUserPageTable_wp v.pgtab).mono ?_ ?_
    · rintro pt₁ vm₁ ⟨hpt₁, rfl⟩
      cases hpt.symm.trans hpt₁
      simp only [PageTable.lookup_present hread, PageTable.unmap_present hread, wp_ofExcept_ok,
        ne_eq, not_true_eq_false, if_false]
      apply onSpace_wp (update_self ..)
      simp only [putPageTable, wp_modify, update_idem, AList.insert_insert]
      have hun := unmapEntry_spec h hi hpt hread rfl
      split_ifs with hz
      · refine (removePageTable_wp hun.accounted (update_self ..)
          (AList.lookup_insert _) hz).total ?_
        rintro _ s' ⟨hacc, hsp, hmem, hle, hsame⟩
        rw [wp_pure]
        exact Or.inr ⟨p, hpte, rfl, hacc, hun.spaces.trans hsp, hmem, hle, hsame.trans hun.pte⟩
      · rw [wp_pure]
        exact Or.inr ⟨p, hpte, rfl, hun⟩
    · rintro e vm₁ ⟨hnone, -, -⟩
      cases hpt.symm.trans hnone

end MM
end Nanvix.Mm
