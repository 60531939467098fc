import Nanvix.Mm.Trim

/-!
# The structure of an address space

An address space keeps its page tables three ways: in the directory that the
processor walks, in a list that lookups reorder, and in a counter for each table.
The three agree after every sequence of the routines of `Vmem`, whether a routine
returns or fails.

## Implementation notes

`push_front` of a new table is the insertion of a key into an association list. The
table is created for a region without an entry in the directory, which has no table
in the list either.
-/
namespace Nanvix.Mm
open Config Library Library.Prog

/-- The routines that read or change the page tables of a space. -/
inductive VmemCmd where
  | newVmem
  | map (space frame : Nat) (vaddr : PageAligned) (access : AccessPermission)
  | unmap (space : Nat) (vaddr : PageAligned)
  | lookupUserPageTable (space : Nat) (address : PageTableAddress)
  | uctrl (space : Nat) (vaddr : PageAligned) (access : AccessPermission)
  | markUserPageCow (space : Nat) (vaddr : PageAligned)
  | unmarkUserPageCow (space : Nat) (vaddr : PageAligned)
  | replaceUserPageCowFrame (space : Nat) (vaddr : PageAligned) (newFrame : Nat)
  | linkUserPages (parent child : Nat)

def VmemCmd.exec : VmemCmd → MM Unit
  | newVmem => do let _ ← MM.newVmem
  | map i frame v access => MM.map i frame v access
  | unmap i v => do let _ ← MM.unmap i v
  | lookupUserPageTable i t => do let _ ← MM.onSpace i (Vmem.lookupUserPageTable t)
  | uctrl i v access => MM.uctrl i v access
  | markUserPageCow i v => MM.onSpace i (Vmem.markUserPageCow v)
  | unmarkUserPageCow i v => MM.onSpace i (Vmem.unmarkUserPageCow v)
  | replaceUserPageCowFrame i v frame => do
      let _ ← MM.onSpace i (Vmem.replaceUserPageCowFrame v frame)
  | linkUserPages parent child => MM.linkUserPages parent child

def vmemMachine : Machine MemState Error VmemCmd Unit := ⟨fun _ _ => true, VmemCmd.exec⟩

/-- The directory, the list and the counters agree, and no table is empty. -/
structure Vmem.Structured (vm : Vmem) : Prop where
  distinct : vm.userPageTables.keys.Nodup
  listed : ∀ t, vm.pgdir.isPresent t = true ↔ t ∈ vm.userPageTables
  points : ∀ t pt, vm.userPageTables.lookup t = some pt → vm.pgdir.entries t = some pt.storage
  counted : ∀ t pt, vm.userPageTables.lookup t = some pt → pt.Counted ∧ pt.nmapped ≠ 0

variable {vm : Vmem} {D : PageDirectory → Prop}

theorem PageTable.Counted.nmapped_ne_zero {pt : PageTable} {w : PageAligned} (h : pt.Counted)
    (hw : (pt.readPteAt w).isSome) : pt.nmapped ≠ 0 := by
  obtain ⟨p, hp⟩ := Option.isSome_iff_exists.mp hw
  obtain ⟨rfl, hpresent⟩ := readPteAt_eq_some.mp hp
  have hle := weight_le_tally presence pt.entries (Finset.mem_range.mpr w.pteIndex_lt)
  rw [← h, presence, if_pos (by exact hpresent)] at hle
  omega

theorem Vmem.Tidy.structured (h : vm.Tidy D) : vm.Structured where
  distinct := vm.userPageTables.keys_nodup
  listed t := by
    rw [PageDirectory.isPresent, h.wellFormed.directory, Option.isSome_map, AList.lookup_isSome]
  points t pt hpt := by rw [h.wellFormed.directory, hpt, Option.map_some]
  counted t pt hpt := by
    have hcounted := h.wellFormed.counted t pt hpt
    obtain ⟨w, rfl, hw⟩ := h.trim t (by rw [h.wellFormed.directory, hpt]; rfl)
    rw [tryFindUserPte_of_lookup hpt] at hw
    exact ⟨hcounted, hcounted.nmapped_ne_zero hw⟩

/-- A lookup keeps the translation of every page and the space in order. -/
theorem Vmem.lookupUserPageTable_same (h : vm.Tidy D) (t : PageTableAddress) :
    wp (lookupUserPageTable t)
      (fun _ vm' => vm'.tryFindUserPte = vm.tryFindUserPte ∧ vm'.Tidy D)
      (fun _ vm' => vm'.tryFindUserPte = vm.tryFindUserPte ∧ vm'.Tidy D) vm := by
  refine (lookupUserPageTable_wp t).mono ?_ ?_
  · rintro pt _ ⟨hpt, rfl⟩
    have hview := tryFindUserPte_touch hpt
    refine ⟨hview, h.wellFormed.putPageTable hpt rfl (h.wellFormed.counted t pt hpt), ?_,
      h.directory⟩
    exact h.trim.of_view rfl fun w hw => by rwa [hview]
  · rintro e _ ⟨-, rfl, -⟩
    exact ⟨rfl, h⟩

theorem vmemMachine_trimmed (c : VmemCmd) : Keeps Trimmed (vmemMachine.exec c) := by
  cases c with
  | newVmem => exact MM.newVmem_trimmed.ret
  | map i frame v access => exact MM.map_keeps storageOnly_true frame access
  | unmap i v => exact (MM.unmap_keeps storageOnly_true).ret
  | lookupUserPageTable i t =>
    refine KeepsIn.bind (MM.onSpace_keeps fun vm hvm => ?_) fun _ => keeps_pure _
    exact ((Vmem.lookupUserPageTable_same hvm t).mono (fun _ _ h => h.2) fun _ _ h => h.2).ends
  | uctrl i v access => exact MM.uctrl_keeps access
  | markUserPageCow i v => exact MM.markCow_keeps
  | unmarkUserPageCow i v => exact MM.unmarkCow_keeps
  | replaceUserPageCowFrame i v frame =>
    exact (MM.replaceCow_keeps frame).ret
  | linkUserPages parent child => exact MM.linkUserPages_keeps storageOnly_true

/-- In every state a run of these routines reaches, the structure of each space holds, and a lookup
changes the translation of no page. -/
theorem vmem_structured {n i : Nat} {s : MemState}
    (hreach : vmemMachine.Reach (fun _ _ => True) (.boot n) s) (hi : s.spaces i = some vm) :
    vm.Structured ∧ ∀ t, wp (Vmem.lookupUserPageTable t)
      (fun _ vm' => vm'.tryFindUserPte = vm.tryFindUserPte)
      (fun _ vm' => vm'.tryFindUserPte = vm.tryFindUserPte) vm := by
  have htidy := hreach.invariant_of_ends (I := Trimmed) (trimmed_boot n)
    (fun c s hs _ _ => vmemMachine_trimmed c s hs) i vm hi
  exact ⟨htidy.structured, fun t =>
    (Vmem.lookupUserPageTable_same htidy t).mono (fun _ _ h => h.1) fun _ _ h => h.1⟩

/-- Two pages in two regions, one of them gone again. -/
theorem vmem_structured_two_regions : ∃ s vm, vmemMachine.Reach (fun _ _ => True) (.boot 128) s ∧
    s.spaces 0 = some vm ∧ vm.Structured := by
  let page : Nat → PageAligned := fun k => ⟨firstUserPage.number + k⟩
  obtain ⟨s, hs, vm, hi, -⟩ := vmemMachine.exists_reach (.boot 128)
    [.newVmem, .map 0 100 (page 0) .RDWR, .map 0 101 (page 1024) .RDWR,
      .lookupUserPageTable 0 (page 0).pgtab, .unmap 0 (page 1024)]
    (fun s => ∃ vm ∈ s.spaces 0, vm.userPageTables.keys.length = 1) (by decide +kernel)
  exact ⟨s, vm, hs, hi, (vmem_structured hs hi).1⟩

end Nanvix.Mm
