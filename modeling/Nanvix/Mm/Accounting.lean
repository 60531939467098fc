import Nanvix.Mm.Manager
import Nanvix.Mm.VmemView

/-!
# Who owns a frame

A frame is owned by the present user entries that map it, by the page tables and
page directories stored in it, and by the handles that routines hold while they
run. `Accounted held s` says that the counter of every frame is the number of
its owners in `s`, when the handles of the frames in `held` are alive.

## Implementation notes

Handles are linear in the source: they are moved, leaked into a page table or
dropped. Here a specification names the handles a routine takes and leaves as a
list, and only how often a frame occurs in it matters.
-/
namespace Nanvix.Mm
open Config Function Library Library.Prog

/-- Pages of the 32-bit address range. -/
def numPages : Nat := 2 ^ 20

/-- One owner when the slot names the frame. -/
def stores (f : Nat) (o : Option Nat) : Nat := if o = some f then 1 else 0

/-- One owner when the entry maps the frame. -/
def mapsTo (f : Nat) (o : Option PageTableEntry) : Nat := stores f (o.map (·.frame))

@[simp] theorem stores_none (f : Nat) : stores f none = 0 := rfl

@[simp] theorem mapsTo_none (f : Nat) : mapsTo f none = 0 := rfl

@[simp] theorem mapsTo_some (f : Nat) (p : PageTableEntry) :
    mapsTo f (some p) = stores f (some p.frame) := rfl

@[simp] theorem stores_self (f : Nat) : stores f (some f) = 1 := if_pos rfl

theorem stores_of_ne {f g : Nat} (h : f ≠ g) : stores f (some g) = 0 :=
  if_neg (by simpa using Ne.symm h)

/-- A count of owners that goes up at a frame goes up by the one who stores it. -/
theorem update_succ_eq (count : Nat → Nat) (f g : Nat) :
    update count f (count f + 1) g = count g + stores g (some f) := by
  rw [update_apply]
  split_ifs with h
  · rw [h, stores_self]
  · rw [stores_of_ne h, Nat.add_zero]

/-- A handle counts as one owner of its frame. -/
theorem count_cons_eq (f g : Nat) (held : List Nat) :
    (g :: held).count f = held.count f + stores f (some g) := by
  by_cases h : g = f
  · subst h
    rw [List.count_cons_self, stores_self]
  · rw [List.count_cons_of_ne h, stores_of_ne (Ne.symm h), Nat.add_zero]

/-- The pages that map a frame, in a view of an address space. -/
def viewRefs (f : Nat) (view : PageAligned → Option PageTableEntry) : Nat :=
  tally (Finset.range numPages) (mapsTo f) fun n => view ⟨n⟩

namespace Vmem

/-- The user entries of a space that map a frame. -/
def userRefs (f : Nat) (vm : Vmem) : Nat := viewRefs f vm.tryFindUserPte

/-- The page tables and the directory of a space that are stored in a frame. -/
def kernelRefs (f : Nat) (vm : Vmem) : Nat :=
  stores f (some vm.pgdir.storage) +
    tally (Finset.range pageTableLength) (stores f) fun n => vm.pgdir.entries ⟨n⟩

def refs (f : Nat) (vm : Vmem) : Nat := vm.userRefs f + vm.kernelRefs f

end Vmem

/-- The owners of a frame in a space that may have been dropped. -/
def spaceRefs (f : Nat) : Option Vmem → Nat
  | none => 0
  | some vm => vm.refs f

namespace MemState

/-- The present entry of a page of a space. -/
def pte (s : MemState) (i : Nat) (v : PageAligned) : Option PageTableEntry :=
  (s.spaces i).bind (·.tryFindUserPte v)

/-- The owners of a frame in all spaces. -/
def refs (f : Nat) (s : MemState) : Nat := tally (Finset.range s.numSpaces) (spaceRefs f) s.spaces

end MemState

/-- The counters are right, with the handles in `held` alive. -/
structure Accounted (held : List Nat) (s : MemState) : Prop where
  valid : s.frames.Valid
  wellFormed : ∀ i vm, s.spaces i = some vm → vm.WellFormed
  bound : ∀ i, s.numSpaces ≤ i → s.spaces i = none
  count : ∀ f, s.frames.refcount f = s.refs f + held.count f

section Arithmetic
variable {v : PageAligned} {t : PageTableAddress}

/-- A user page is a page of the address range. -/
theorem number_lt_numPages (h : isUserAddr v.raw = true) : v.number < numPages := by
  have hlt := (isUserAddr_iff.mp h).2
  simp only [PageAligned.raw, userEnd, pageSize] at hlt
  unfold numPages
  omega

/-- A region whose first page is a user page has an entry in the directory. -/
theorem number_lt_pageTableLength (h : isUserAddr (t.page 0).raw = true) :
    t.number < pageTableLength := by
  have hlt := (isUserAddr_iff.mp h).2
  simp only [PageAligned.raw, PageTableAddress.page, userEnd, pageSize, pageTableLength] at hlt
  unfold pageTableLength
  omega

end Arithmetic

section Refs
variable {f : Nat} {vm vm' : Vmem} {v : PageAligned} {t : PageTableAddress}

/-- An update of a view exchanges the owner of the old entry for that of the new one. -/
theorem viewRefs_update (view : PageAligned → Option PageTableEntry)
    (x : Option PageTableEntry) (hv : v.number < numPages) :
    viewRefs f (update view v x) + mapsTo f (view v) = viewRefs f view + mapsTo f x := by
  have hfam : (fun n => update view v x ⟨n⟩) =
      update (fun n => view ⟨n⟩) v.number x := by
    funext n
    rw [update_apply, update_apply]
    congr 1
    exact propext ⟨fun hn => by rw [← hn], fun hn => by rw [hn]⟩
  unfold viewRefs
  rw [hfam]
  exact tally_update (mapsTo f) _ (Finset.mem_range.mpr hv) x

/-- Views that map the same frames have the same owners. -/
theorem viewRefs_congr {g g' : PageAligned → Option PageTableEntry}
    (h : ∀ w, (g' w).map (·.frame) = (g w).map (·.frame)) : viewRefs f g' = viewRefs f g := by
  unfold viewRefs tally
  refine Finset.sum_congr rfl fun n _ => ?_
  unfold mapsTo
  rw [h]

/-- A frame that no entry maps has no owner among the entries. -/
theorem viewRefs_eq_zero {view : PageAligned → Option PageTableEntry}
    (h : ∀ w p, view w = some p → p.frame ≠ f) : viewRefs f view = 0 := by
  refine tally_eq_zero fun n _ => ?_
  cases hv : view ⟨n⟩ with
  | none => exact mapsTo_none f
  | some p => rw [mapsTo_some, stores_of_ne (h ⟨n⟩ p hv).symm]

theorem Vmem.userRefs_update {x : Option PageTableEntry} (hv : v.number < numPages)
    (h : vm'.tryFindUserPte = update vm.tryFindUserPte v x) :
    vm'.userRefs f + mapsTo f (vm.tryFindUserPte v) = vm.userRefs f + mapsTo f x := by
  unfold userRefs
  rw [h]
  exact viewRefs_update vm.tryFindUserPte x hv

/-- The same for the directory. -/
theorem Vmem.kernelRefs_update {x : Option Nat} (ht : t.number < pageTableLength)
    (hs : vm'.pgdir.storage = vm.pgdir.storage)
    (h : vm'.pgdir.entries = update vm.pgdir.entries t x) :
    vm'.kernelRefs f + stores f (vm.pgdir.entries t) = vm.kernelRefs f + stores f x := by
  have hfam : (fun n => vm'.pgdir.entries ⟨n⟩) =
      update (fun n => vm.pgdir.entries ⟨n⟩) t.number x := by
    funext n
    rw [h, update_apply, update_apply]
    congr 1
    exact propext ⟨fun hn => by rw [← hn], fun hn => by rw [hn]⟩
  have hsum := tally_update (stores f) (fun n => vm.pgdir.entries ⟨n⟩) (Finset.mem_range.mpr ht) x
  change _ + stores f (vm.pgdir.entries t) = _ at hsum
  unfold kernelRefs
  rw [hfam, hs]
  omega

theorem Vmem.userRefs_congr (h : vm'.tryFindUserPte = vm.tryFindUserPte) :
    vm'.userRefs f = vm.userRefs f := by
  simp only [userRefs, h]

theorem Vmem.kernelRefs_congr (h : vm'.pgdir = vm.pgdir) : vm'.kernelRefs f = vm.kernelRefs f := by
  simp only [kernelRefs, h]

/-- An empty space owns its directory only. -/
theorem Vmem.refs_empty (d : Nat) : (Vmem.empty d).refs f = stores f (some d) := by
  have husr : (Vmem.empty d).userRefs f = 0 :=
    viewRefs_eq_zero fun w p hp => by rw [tryFindUserPte_empty] at hp; cases hp
  have htab : tally (Finset.range pageTableLength) (stores f)
      (fun n => (Vmem.empty d).pgdir.entries ⟨n⟩) = 0 := tally_eq_zero fun _ _ => rfl
  rw [refs, husr, kernelRefs, htab]
  change 0 + (stores f (some d) + 0) = _
  omega

end Refs

namespace Accounted
variable {held held' : List Nat} {s : MemState} {i j f : Nat} {vm vm' : Vmem}
variable {v w : PageAligned} {p q : PageTableEntry}

section
variable (h : Accounted held s)
include h

theorem lt_numSpaces (hi : s.spaces i = some vm) : i < s.numSpaces := by
  by_contra hle
  rw [h.bound i (Nat.not_lt.mp hle)] at hi
  cases hi

/-- Replacing a space by one with other owners, and the handles accordingly. -/
theorem setSpace (hi : s.spaces i = some vm) (hw : vm'.WellFormed)
    (hrefs : ∀ f, vm'.refs f + held'.count f = vm.refs f + held.count f) :
    Accounted held' { s with spaces := update s.spaces i (some vm') } where
  valid := h.valid
  wellFormed j vj hj := by
    by_cases hji : j = i
    · subst hji
      simp only [update_self, Option.some.injEq] at hj
      exact hj ▸ hw
    · exact h.wellFormed j vj (by simpa only [update_of_ne hji] using hj)
  bound j hj := by
    have hji : j ≠ i := Nat.ne_of_gt (Nat.lt_of_lt_of_le (h.lt_numSpaces hi) hj)
    simpa only [update_of_ne hji] using h.bound j hj
  count f := by
    have hsum := tally_update (spaceRefs f) s.spaces
      (Finset.mem_range.mpr (h.lt_numSpaces hi)) (some vm')
    rw [hi] at hsum
    have hold := h.count f
    have hnew := hrefs f
    change s.frames.refcount f =
      tally (Finset.range s.numSpaces) _ (update s.spaces i (some vm')) + _
    change tally _ _ (update s.spaces i (some vm')) + vm.refs f =
      s.refs f + vm'.refs f at hsum
    omega

/-- Changing the allocator and the handles together. -/
theorem setFrames {a : FrameAllocator} (ha : a.Valid)
    (hcount : ∀ f, a.refcount f + held.count f = s.frames.refcount f + held'.count f) :
    Accounted held' { s with frames := a } where
  valid := ha
  wellFormed := h.wellFormed
  bound := h.bound
  count f := by
    have hold := h.count f
    have hnew := hcount f
    change a.refcount f = s.refs f + _
    omega

/-- Memory has no owners. -/
theorem setMemory (m : Nat → UInt8) : Accounted held { s with memory := m } :=
  ⟨h.valid, h.wellFormed, h.bound, h.count⟩

/-- Only the number of handles of each frame matters. -/
theorem perm (hp : ∀ f, held'.count f = held.count f) : Accounted held' s :=
  ⟨h.valid, h.wellFormed, h.bound, fun f => by rw [hp f]; exact h.count f⟩

end

/-- A frame with a live handle has an owner. -/
theorem refcount_pos_of_held (h : Accounted (f :: held) s) : 0 < s.frames.refcount f := by
  rw [h.count f, List.count_cons_self]
  omega

/-- The entry of a page is that of the space it belongs to. -/
theorem pte_eq_some (hp : s.pte i v = some p) :
    ∃ vm, s.spaces i = some vm ∧ vm.tryFindUserPte v = some p := by
  unfold MemState.pte at hp
  exact Option.bind_eq_some_iff.mp hp

theorem pte_of_space (hi : s.spaces i = some vm) : s.pte i v = vm.tryFindUserPte v := by
  simp only [MemState.pte, hi, Option.bind_some]

/-- A present entry is a user entry. -/
theorem isUserAddr (h : Accounted held s) (hp : s.pte i v = some p) : isUserAddr v.raw = true := by
  obtain ⟨vm, hi, hv⟩ := pte_eq_some hp
  exact (h.wellFormed i vm hi).isUserAddr hv


theorem mapsTo_self (p : PageTableEntry) : mapsTo p.frame (some p) = 1 := stores_self p.frame

section
variable (h : Accounted held s)
include h

/-- The owners of a frame in one space are among all its owners. -/
theorem refs_le (hi : s.spaces i = some vm) (f : Nat) : vm.refs f ≤ s.refs f := by
  have hle := weight_le_tally (spaceRefs f) s.spaces (Finset.mem_range.mpr (h.lt_numSpaces hi))
  rwa [hi] at hle

/-- An entry of a space is one of the owners the space has. -/
theorem one_le_refs (hi : s.spaces i = some vm)
    (hv : vm.tryFindUserPte v = some p) : 1 ≤ vm.refs p.frame := by
  have huser := number_lt_numPages ((h.wellFormed i vm hi).isUserAddr hv)
  have hle := weight_le_tally (mapsTo p.frame) (fun n => vm.tryFindUserPte ⟨n⟩)
    (Finset.mem_range.mpr huser)
  change mapsTo p.frame (vm.tryFindUserPte v) ≤ vm.userRefs p.frame at hle
  rw [hv, mapsTo_self] at hle
  exact Nat.le_trans hle (Nat.le_add_right _ _)

/-- A mapped frame has an owner. -/
theorem refcount_pos (hp : s.pte i v = some p) : 0 < s.frames.refcount p.frame := by
  obtain ⟨vm, hi, hv⟩ := pte_eq_some hp
  have hone := h.one_le_refs hi hv
  have hle := h.refs_le hi p.frame
  have hcount := h.count p.frame
  omega

/-- A frame mapped at two places has two owners besides its handles. -/
theorem two_le_refcount (hp : s.pte i v = some p) (hq : s.pte j w = some q)
    (hf : q.frame = p.frame) (hne : ¬(j = i ∧ w = v)) :
    2 + held.count p.frame ≤ s.frames.refcount p.frame := by
  obtain ⟨vm, hi, hv⟩ := pte_eq_some hp
  obtain ⟨vn, hj, hw⟩ := pte_eq_some hq
  have hcount := h.count p.frame
  suffices 2 ≤ s.refs p.frame by omega
  by_cases hij : j = i
  · subst hij
    cases hi.symm.trans hj
    have hwv : w.number ≠ v.number := fun hn => hne ⟨rfl, by cases w; cases v; cases hn; rfl⟩
    have hwf := h.wellFormed j vm hi
    have hsum := weight_add_weight_le_tally (mapsTo p.frame) (fun n => vm.tryFindUserPte ⟨n⟩)
      (Finset.mem_range.mpr (number_lt_numPages (hwf.isUserAddr hv)))
      (Finset.mem_range.mpr (number_lt_numPages (hwf.isUserAddr hw))) hwv
    change mapsTo p.frame (vm.tryFindUserPte v) + mapsTo p.frame (vm.tryFindUserPte w) ≤
      vm.userRefs p.frame at hsum
    have hone : mapsTo p.frame (some q) = 1 := hf ▸ mapsTo_self q
    rw [hv, hw, mapsTo_self, hone] at hsum
    exact Nat.le_trans (Nat.le_trans hsum (Nat.le_add_right _ _)) (h.refs_le hi p.frame)
  · have hsum := weight_add_weight_le_tally (spaceRefs p.frame) s.spaces
      (Finset.mem_range.mpr (h.lt_numSpaces hi)) (Finset.mem_range.mpr (h.lt_numSpaces hj)) hij
    rw [hi, hj] at hsum
    have hone := h.one_le_refs hi hv
    have hone' := h.one_le_refs hj hw
    rw [hf] at hone'
    change vm.refs p.frame + vn.refs p.frame ≤ s.refs p.frame at hsum
    omega

/-- A frame with one owner is mapped at one place only. -/
theorem eq_of_refcount_le_one (hp : s.pte i v = some p)
    (hq : s.pte j w = some q) (hf : q.frame = p.frame) (hone : s.frames.refcount p.frame ≤ 1) :
    j = i ∧ w = v := by
  by_contra hne
  have htwo := h.two_le_refcount hp hq hf hne
  omega

end

end Accounted

/-- A memory of `n` free frames and no address space. -/
def MemState.boot (n : Nat) : MemState where
  frames := ⟨⟨n, 0, fun _ => false, 0⟩, fun _ => 0, n⟩
  memory _ := 0
  spaces _ := none
  numSpaces := 0

theorem accounted_boot {n : Nat} (hpos : 0 < n) (hn : n * pageSize ≤ usizeMax) :
    Accounted [] (.boot n) where
  valid := by
    refine ⟨hpos, hn, Nat.le_refl n, fun f => ?_, fun f hf => ?_, fun f => Nat.zero_le _, ?_⟩
    · change false = true ↔ 0 < 0
      simp only [Bool.false_eq_true, Nat.lt_irrefl]
    · exact absurd hf (Nat.lt_irrefl 0)
    · have hnone : Bitmap.taken ⟨n, 0, fun _ => false, 0⟩ = ∅ := by
        simp only [Bitmap.taken, Bool.false_eq_true, Finset.filter_false]
      change 0 = (Bitmap.taken ⟨n, 0, fun _ => false, 0⟩).card
      rw [hnone, Finset.card_empty]
  wellFormed _ _ h := by cases h
  bound _ _ := rfl
  count _ := rfl

end Nanvix.Mm
