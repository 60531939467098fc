import Nanvix.Mm.Vmem

/-!
# What the routines of an address space do to its mappings

An address space is seen as the partial function from pages to present entries
that `tryFindUserPte` reads. A routine that rewrites an entry updates that
function at one page; a routine that fails leaves it alone, although it may have
moved a page table to the front of the list.
-/
namespace Nanvix.Mm
open Config Function Library Library.Prog PageTable

namespace Vmem

/-- The tables and the directory agree, the tables count their entries, and only
regions of user space have a table. -/
structure WellFormed (vm : Vmem) : Prop where
  directory : ∀ t, vm.pgdir.entries t = (vm.userPageTables.lookup t).map (·.storage)
  counted : ∀ t pt, vm.userPageTables.lookup t = some pt → pt.Counted
  user : ∀ t, t ∈ vm.userPageTables → ∀ i < pageTableLength, isUserAddr (t.page i).raw = true

variable {vm : Vmem} {v w : PageAligned} {t : PageTableAddress} {pt pt' : PageTable}
variable {p q : PageTableEntry}

/-- A table is pushed for a region that has none in the list, so that inserting is pushing. -/
theorem WellFormed.lookup_eq_none (hwf : vm.WellFormed) (ht : vm.pgdir.entries t = none) :
    vm.userPageTables.lookup t = none := by
  have hd := hwf.directory t
  rw [ht] at hd
  exact Option.map_eq_none_iff.mp hd.symm

/-- A region that is present in the directory has a table. -/
theorem WellFormed.mem_of_entries {k : Nat} (hwf : vm.WellFormed)
    (ht : vm.pgdir.entries t = some k) : t ∈ vm.userPageTables := by
  rw [← AList.lookup_isSome, ← Option.isSome_map, ← hwf.directory t, ht]
  rfl

theorem tryFindUserPte_of_lookup (h : vm.userPageTables.lookup v.pgtab = some pt) :
    vm.tryFindUserPte v = pt.readPteAt v := by
  simp only [tryFindUserPte, h]

/-- A present page lies in a table, which has the entry. -/
theorem tryFindUserPte_eq_some (h : vm.tryFindUserPte v = some p) :
    ∃ pt, vm.userPageTables.lookup v.pgtab = some pt ∧ pt.readPteAt v = some p := by
  unfold tryFindUserPte at h
  split at h
  · next pt hpt => exact ⟨pt, hpt, h⟩
  · cases h

/-- Only user pages are present. -/
theorem WellFormed.isUserAddr (h : vm.WellFormed) (hv : vm.tryFindUserPte v = some p) :
    isUserAddr v.raw = true := by
  obtain ⟨pt, hpt, -⟩ := tryFindUserPte_eq_some hv
  have hmem : v.pgtab ∈ vm.userPageTables := AList.lookup_isSome.mp (by rw [hpt]; rfl)
  simpa only [PageAligned.page_pgtab_pteIndex] using h.user v.pgtab hmem v.pteIndex v.pteIndex_lt

theorem wellFormed_empty (frame : Nat) : (empty frame).WellFormed where
  directory t := by simp only [empty, AList.lookup_empty, Option.map_none]
  counted t pt h := by simp only [empty, AList.lookup_empty, reduceCtorEq] at h
  user t h := absurd h (AList.notMem_empty t)

@[simp] theorem tryFindUserPte_empty (frame : Nat) (v : PageAligned) :
    (empty frame).tryFindUserPte v = none := by
  simp only [tryFindUserPte, empty, AList.lookup_empty]

/-- Replacing a table by one with the same storage that counts its entries. -/
theorem WellFormed.putPageTable (h : vm.WellFormed) (ht : vm.userPageTables.lookup t = some pt)
    (hs : pt'.storage = pt.storage) (hc : pt'.Counted) :
    WellFormed { vm with userPageTables := vm.userPageTables.insert t pt' } where
  directory u := by
    by_cases hu : u = t
    · subst hu
      simp only [AList.lookup_insert, Option.map_some, hs, h.directory, ht]
    · simp only [AList.lookup_insert_ne hu, h.directory]
  counted u pu hpu := by
    by_cases hu : u = t
    · subst hu
      simp only [AList.lookup_insert, Option.some.injEq] at hpu
      exact hpu ▸ hc
    · exact h.counted u pu (by simpa only [AList.lookup_insert_ne hu] using hpu)
  user u hu := by
    rcases (AList.mem_insert _).mp hu with rfl | hu
    · exact h.user u (AList.lookup_isSome.mp (by rw [ht]; rfl))
    · exact h.user u hu

theorem tryFindUserPte_putPageTable (vm : Vmem) (t : PageTableAddress) (pt' : PageTable)
    (w : PageAligned) :
    tryFindUserPte { vm with userPageTables := vm.userPageTables.insert t pt' } w =
      if w.pgtab = t then pt'.readPteAt w else vm.tryFindUserPte w := by
  split_ifs with hw
  · subst hw
    simp only [tryFindUserPte, AList.lookup_insert]
  · simp only [tryFindUserPte, AList.lookup_insert_ne hw]

/-- Writing one entry of a table updates the view at its page. -/
theorem tryFindUserPte_writePte (ht : vm.userPageTables.lookup v.pgtab = some pt)
    (hread : ∀ w, pt'.readPteAt w = (pt.writePte v q).readPteAt w) :
    tryFindUserPte { vm with userPageTables := vm.userPageTables.insert v.pgtab pt' } =
      update vm.tryFindUserPte v (if q.isPresent then some q else none) := by
  funext w
  rw [tryFindUserPte_putPageTable]
  by_cases hw : w = v
  · subst hw
    rw [if_pos rfl, hread, readPteAt_writePte, if_pos rfl, update_self]
  · rw [update_of_ne hw]
    split_ifs with hpg
    · have hidx : w.pteIndex ≠ v.pteIndex := fun hi => hw (PageAligned.eq_of_pgtab_pteIndex hpg hi)
      rw [hread, readPteAt_writePte, if_neg hidx]
      rw [← hpg] at ht
      exact (tryFindUserPte_of_lookup ht).symm
    · rfl

/-- Moving a table to the front changes nothing that can be seen. -/
theorem tryFindUserPte_touch (ht : vm.userPageTables.lookup t = some pt) :
    tryFindUserPte { vm with userPageTables := vm.userPageTables.insert t pt } =
      vm.tryFindUserPte := by
  funext w
  rw [tryFindUserPte_putPageTable]
  split_ifs with hw
  · subst hw
    exact (tryFindUserPte_of_lookup ht).symm
  · rfl

/-- Looking a table up finds it and moves it to the front, or fails. -/
theorem lookupUserPageTable_wp (t : PageTableAddress) :
    wp (lookupUserPageTable t)
      (fun pt vm' => vm.userPageTables.lookup t = some pt ∧
        vm' = { vm with userPageTables := vm.userPageTables.insert t pt })
      (fun e vm' => vm.userPageTables.lookup t = none ∧ vm' = vm ∧ e.code = .noSuchEntry) vm := by
  simp only [lookupUserPageTable, wp_bind, wp_gets]
  cases hpt : vm.userPageTables.lookup t with
  | none =>
    rw [wp_throw]
    exact ⟨rfl, rfl, rfl⟩
  | some pt =>
    simp only [wp_bind, putPageTable, wp_modify, wp_pure]
    exact ⟨trivial, trivial⟩

/-- A routine that rewrites an entry updates the view at its page, or fails and leaves it. -/
theorem withUserPage_wp {α : Type} {r : PageTableEntry → Except Error (α × PageTableEntry)}
    (h : vm.WellFormed) (hr : ∀ p a q, p.isPresent = true → r p = .ok (a, q) → q.isPresent = true) :
    wp (withUserPage v (·.rewrite v r))
      (fun a vm' => vm'.WellFormed ∧ vm'.pgdir = vm.pgdir ∧ ∃ p q,
        vm.tryFindUserPte v = some p ∧ r p = .ok (a, q) ∧
        vm'.tryFindUserPte = update vm.tryFindUserPte v (some q))
      (fun e vm' => vm'.WellFormed ∧ vm'.pgdir = vm.pgdir ∧
        vm'.tryFindUserPte = vm.tryFindUserPte ∧
        ∀ p, vm.tryFindUserPte v = some p → r p = .error e) vm := by
  simp only [withUserPage, wp_ite, wp_throw, wp_bind]
  split_ifs with huser
  · refine ⟨h, trivial, trivial, fun p hp => ?_⟩
    rw [h.isUserAddr hp] at huser
    cases huser
  refine (lookupUserPageTable_wp v.pgtab).mono ?_ ?_
  · rintro pt vm' ⟨hpt, rfl⟩
    have hview := tryFindUserPte_of_lookup hpt
    have htouch : WellFormed { vm with userPageTables := vm.userPageTables.insert v.pgtab pt } :=
      h.putPageTable hpt rfl (h.counted _ _ hpt)
    cases hread : pt.readPteAt v with
    | none =>
      rw [rewrite_absent hread, wp_ofExcept_error]
      refine ⟨htouch, rfl, tryFindUserPte_touch hpt, fun p hp => ?_⟩
      rw [hview, hread] at hp
      cases hp
    | some p =>
      have hpres := (readPteAt_eq_some.mp hread).2
      rw [rewrite_present hread]
      cases hrp : r p with
      | error e =>
        rw [Except.map, wp_ofExcept_error]
        refine ⟨htouch, rfl, tryFindUserPte_touch hpt, fun p' hp' => ?_⟩
        rw [hview, hread, Option.some.injEq] at hp'
        exact hp' ▸ hrp
      | ok aq =>
        obtain ⟨a, q⟩ := aq
        have hq := hr p a q hpres hrp
        have hcount : (pt.writePte v q).Counted := (h.counted _ _ hpt).writePte hread hq
        have hstore : (pt.writePte v q).storage = pt.storage := rfl
        have hput := h.putPageTable hpt hstore hcount
        have hupd := tryFindUserPte_writePte (q := q) hpt (fun _ => rfl)
        rw [if_pos hq] at hupd
        simp only [Except.map, wp_ofExcept_ok, putPageTable, wp_modify, wp_pure,
          AList.insert_insert]
        exact ⟨hput, trivial, p, q, hview.trans hread, hrp, hupd⟩
  · rintro e vm' ⟨hnone, rfl, -⟩
    refine ⟨h, rfl, rfl, fun p hp => ?_⟩
    obtain ⟨pt, hpt, -⟩ := tryFindUserPte_eq_some hp
    cases hnone.symm.trans hpt

/-- The mappings of a space are its present entries. -/
theorem mem_userMappings : (v, p) ∈ vm.userMappings ↔ vm.tryFindUserPte v = some p := by
  simp only [userMappings, List.mem_flatMap, List.mem_map]
  constructor
  · rintro ⟨⟨t, pt⟩, he, ⟨i, q⟩, hiq, hvp⟩
    obtain ⟨hi, rfl, hpres⟩ := mem_iterPresentPtes.mp hiq
    cases hvp
    have hpt : vm.userPageTables.lookup (t.page i).pgtab = some pt := by
      rw [PageTableAddress.page_pgtab hi]
      exact AList.mem_lookup_iff.mpr he
    rw [tryFindUserPte_of_lookup hpt]
    refine readPteAt_eq_some.mpr ⟨?_, hpres⟩
    rw [readPte, PageTableAddress.page_pteIndex hi]
  · intro hv
    obtain ⟨pt, hpt, hread⟩ := tryFindUserPte_eq_some hv
    obtain ⟨hp, hpres⟩ := readPteAt_eq_some.mp hread
    refine ⟨⟨v.pgtab, pt⟩, AList.mem_lookup_iff.mp hpt, (v.pteIndex, p),
      mem_iterPresentPtes.mpr ⟨v.pteIndex_lt, hp, hpres⟩, ?_⟩
    rw [PageAligned.page_pgtab_pteIndex]

/-- No page occurs twice among the mappings. -/
theorem nodup_userMappings (vm : Vmem) : (vm.userMappings.map Prod.fst).Nodup := by
  rw [userMappings, List.map_flatMap, List.nodup_flatMap]
  constructor
  · rintro ⟨t, pt⟩ -
    rw [List.map_map]
    have hpages : (Prod.fst ∘ fun ip : Nat × PageTableEntry => (t.page ip.1, ip.2)) =
        t.page ∘ Prod.fst := rfl
    rw [hpages, ← List.map_map]
    refine (nodup_iterPresentPtes pt).map fun i j hij => ?_
    exact Nat.add_left_cancel (PageAligned.mk.inj hij)
  · refine (List.nodupKeys_iff_pairwise.mp vm.userPageTables.nodupKeys).imp ?_
    rintro ⟨t, pt⟩ ⟨u, pu⟩ hne w hw hw'
    simp only [List.mem_map] at hw hw'
    obtain ⟨_, ⟨⟨i, _⟩, hi, rfl⟩, rfl⟩ := hw
    obtain ⟨_, ⟨⟨j, _⟩, hj, rfl⟩, heq⟩ := hw'
    have hit := (mem_iterPresentPtes.mp hi).1
    have hju := (mem_iterPresentPtes.mp hj).1
    apply hne
    rw [← PageTableAddress.page_pgtab (t := t) hit, ← PageTableAddress.page_pgtab (t := u) hju]
    exact congrArg PageAligned.pgtab heq.symm

/-- The entry that `map` writes for a user page. -/
def userEntry (frame : Nat) (access : AccessPermission) : PageTableEntry :=
  .mapped frame false false true access

/-- Mapping a page of a region that has a table works when the page is absent. -/
theorem mapPage_wp (h : vm.WellFormed) (ht : v.pgtab ∈ vm.userPageTables) (frame : Nat)
    (access : AccessPermission) :
    wp (mapPage frame v access)
      (fun _ vm' => vm'.WellFormed ∧ vm'.pgdir = vm.pgdir ∧ vm.tryFindUserPte v = none ∧
        vm'.tryFindUserPte =
          update vm.tryFindUserPte v (some (userEntry frame access)))
      (fun _ vm' => vm'.WellFormed ∧ vm'.pgdir = vm.pgdir ∧
        vm'.tryFindUserPte = vm.tryFindUserPte ∧ vm.tryFindUserPte v ≠ none) vm := by
  simp only [mapPage, wp_bind]
  refine (lookupUserPageTable_wp v.pgtab).mono ?_ ?_
  · rintro pt vm' ⟨hpt, rfl⟩
    have hview := tryFindUserPte_of_lookup hpt
    cases hread : pt.readPteAt v with
    | none =>
      have hpres : (userEntry frame access).isPresent = true := rfl
      have hcount := (h.counted _ _ hpt).map hread hpres
      have hupd := tryFindUserPte_writePte (q := userEntry frame access) hpt
        (show ∀ w, readPteAt { pt.writePte v (userEntry frame access) with
          nmapped := pt.nmapped + 1 } w = _ from fun _ => rfl)
      rw [if_pos hpres] at hupd
      simp only [map_absent hread, wp_ofExcept_ok, putPageTable, wp_modify,
        AList.insert_insert]
      exact ⟨h.putPageTable hpt rfl hcount, trivial, hview.trans hread, hupd⟩
    | some p =>
      obtain ⟨hp, hpres⟩ := readPteAt_eq_some.mp hread
      simp only [map, hp, hpres, if_true, wp_ofExcept_error]
      refine ⟨h.putPageTable hpt rfl (h.counted _ _ hpt), trivial, tryFindUserPte_touch hpt, ?_⟩
      rw [hview, hread]
      exact Option.some_ne_none p
  · rintro e vm' ⟨hnone, -, -⟩
    exact absurd ht (AList.lookup_eq_none.mp hnone)

end Vmem
end Nanvix.Mm
