import Nanvix.Mm.Eager
import Nanvix.Mm.Isolation

/-!
# How a memory with shared frames shows private pages

A memory shows a state of the machine with copying forks when it has the same
pages with the same bytes, whatever frames they are in. Resolving a page changes
frames and marks, but nothing that is shown. A write changes what is shown of one
page only, when the frame of the page has no other owner.

## Implementation notes

Rights are compared in one direction or in both: after a fork that dropped a
right, user code may write fewer pages than are shown to be writable.
-/
namespace Nanvix.Mm
open Config Library Library.Prog

variable {dst : Nat} {m : Nat → UInt8}

/-- What a run with guarded writes relies on: right counters, no writable shared page, user
entries only, and kernel buffers in frames that no user page maps. -/
structure Sound (held kernelFrames : List Nat) (s : MemState) : Prop where
  accounted : Accounted held s
  isolated : Isolated s
  user : Entries (fun p => p.isUser = true) s
  owned : ∀ f ∈ kernelFrames, f ∈ held
  apart : ∀ i v p, s.pte i v = some p → p.frame ∉ kernelFrames

/-- The memory shows the state of private pages. -/
structure Shows (exact : Bool) (kernelFrames : List Nat) (s : MemState) (a : EagerState) : Prop where
  numSpaces : a.numSpaces = s.numSpaces
  live : ∀ i, a.live i = (s.spaces i).isSome
  present : ∀ i v, (a.pages i v).isSome = (s.pte i v).isSome
  granted : ∀ i v, mayWrite (s.pte i v) = true → a.pages i v = some true
  denied : exact = true → ∀ i v, a.pages i v = some true → mayWrite (s.pte i v) = true
  bytes : ∀ i v p, s.pte i v = some p → ∀ o, o < pageSize →
    a.bytes i (v.raw + o) = s.memory (p.frame * pageSize + o)
  kernel : ∀ x, x / pageSize ∈ kernelFrames → a.kernel x = s.memory x

variable {held kernelFrames : List Nat} {exact : Bool} {s s' : MemState} {a : EagerState}
variable {i j n : Nat} {v w : PageAligned} {p q : PageTableEntry}

/-- A memory shows what it looks like with private pages. -/
theorem shows_eager (exact : Bool) (kernelFrames : List Nat) (s : MemState) :
    Shows exact kernelFrames s s.eager where
  numSpaces := rfl
  live _ := rfl
  present _ _ := Option.isSome_map
  granted i v h := by
    cases hp : s.pte i v with
    | none => rw [hp] at h; cases h
    | some p =>
      rw [hp, mayWrite_some] at h
      simp only [MemState.eager, hp, Option.map_some, h]
  denied _ i v h := by
    obtain ⟨p, hp, hw⟩ := Option.map_eq_some_iff.mp h
    rw [hp, mayWrite_some, hw]
  bytes i v p hp o ho := by
    simp only [MemState.eager, alignDown_raw_add v ho, pageOffset_raw_add v ho, hp,
      Option.elim_some]
  kernel _ _ := rfl

section Silent

/-- A change of frames and marks that does not show. -/
structure SameView (kernelFrames : List Nat) (s s' : MemState) : Prop where
  spaces : SameSpaces s s'
  entry : ∀ i v p', s'.pte i v = some p' → ∃ p, s.pte i v = some p ∧
    mayWrite (some p') = mayWrite (some p) ∧
    ∀ o, o < pageSize → s'.memory (p'.frame * pageSize + o) = s.memory (p.frame * pageSize + o)
  present : ∀ i v, (s'.pte i v).isSome = (s.pte i v).isSome
  kernel : ∀ x, x / pageSize ∈ kernelFrames → s'.memory x = s.memory x

theorem SameView.mayWrite_eq (h : SameView kernelFrames s s') (i : Nat) (v : PageAligned) :
    mayWrite (s'.pte i v) = mayWrite (s.pte i v) := by
  have hpresent := h.present i v
  cases hp' : s'.pte i v with
  | none =>
    rw [hp'] at hpresent
    rw [Option.isSome_eq_false_iff.mp hpresent.symm |> Option.isNone_iff_eq_none.mp]
  | some p' =>
    obtain ⟨p, hp, hw, -⟩ := h.entry i v p' hp'
    rw [hp, hw]

theorem Shows.sameView (h : Shows exact kernelFrames s a) (hs : SameView kernelFrames s s') :
    Shows exact kernelFrames s' a where
  numSpaces := h.numSpaces.trans hs.spaces.numSpaces.symm
  live i := (h.live i).trans (hs.spaces.live i).symm
  present i v := (h.present i v).trans (hs.present i v).symm
  granted i v hw := h.granted i v (hs.mayWrite_eq i v ▸ hw)
  denied he i v ha := (hs.mayWrite_eq i v).trans (h.denied he i v ha)
  bytes i v p' hp' o ho := by
    obtain ⟨p, hp, -, hbytes⟩ := hs.entry i v p' hp'
    rw [hbytes o ho, h.bytes i v p hp o ho]
  kernel x hx := (h.kernel x hx).trans (hs.kernel x hx).symm

/-- The bytes of a frame of the kernel stay when those of frames in use do. -/
theorem Sound.kernel_kept (h : Sound held kernelFrames s) (hk : KeepsBytes s s') {x : Nat}
    (hx : x / pageSize ∈ kernelFrames) : s'.memory x = s.memory x := by
  have hpos : 0 < s.frames.refcount (x / pageSize) := by
    have hcount := h.accounted.count (x / pageSize)
    have hheld := List.count_pos_iff.mpr (h.owned _ hx)
    omega
  have hsplit : x / pageSize * pageSize + x % pageSize = x := Nat.div_add_mod' x pageSize
  have hkeep := hk _ hpos (x % pageSize) (Nat.mod_lt _ (by decide))
  rwa [hsplit] at hkeep

theorem Sound.resolved (h : Sound held kernelFrames s) (hr : MM.ResolveStep held i v s s') :
    Sound held kernelFrames s' where
  accounted := hr.accounted
  isolated := h.isolated.resolved hr
  user := h.user.resolved entryStable_isUser hr
  owned := h.owned
  apart j w p' hp' hmem := by
    obtain ⟨q, hq, -, hres⟩ := hr.entry
    by_cases hin : j = i ∧ w = v
    · obtain ⟨rfl, rfl⟩ := hin
      obtain ⟨q', hpte, hnew⟩ := hres.renewed
      rw [hpte, setPte_self, Option.some.injEq] at hp'
      subst hp'
      rcases hnew.frame with hsame | hfresh
      · exact h.apart j w q hq (hsame ▸ hmem)
      · -- A fresh frame had no owner, a frame of the kernel has one.
        have hcount := h.accounted.count q'.frame
        have hheld := List.count_pos_iff.mpr (h.owned _ hmem)
        omega
    · rw [hr.pte_of_ne hin] at hp'
      exact h.apart j w p' hp' hmem

/-- Resolving a page does not show. -/
theorem Sound.sameView_resolved (h : Sound held kernelFrames s)
    (hr : MM.ResolveStep held i v s s') : SameView kernelFrames s s' := by
  obtain ⟨q, hq, hcow, hres⟩ := hr.entry
  obtain ⟨q', hpte, hnew⟩ := hres.renewed
  have hkeep := hres.keepsBytes
  refine ⟨hr.spaces, fun j w p' hp' => ?_, fun j w => ?_, fun x hx => h.kernel_kept hkeep hx⟩
  · by_cases hin : j = i ∧ w = v
    · obtain ⟨rfl, rfl⟩ := hin
      rw [hpte, setPte_self] at hp'
      cases hp'
      refine ⟨q, hq, ?_, hnew.bytes⟩
      rw [mayWrite_some, mayWrite_some, hnew.writable, hcow, Bool.true_or, Bool.or_true]
    · rw [hr.pte_of_ne hin] at hp'
      exact ⟨p', hp', rfl, hkeep _ (h.accounted.refcount_pos hp')⟩
  · by_cases hin : j = i ∧ w = v
    · obtain ⟨rfl, rfl⟩ := hin
      rw [hq, hpte, setPte_self]
      rfl
    · rw [hr.pte_of_ne hin]

end Silent

section Writes
variable {b : Nat → UInt8} {o k x : Nat}

theorem setRange_inside (m : Nat → UInt8) (hk : k < n) : setRange m dst n b (dst + k) = b k := by
  unfold setRange
  rw [if_pos (by omega), Nat.add_sub_cancel_left]

theorem setRange_outside (hx : x < dst ∨ dst + n ≤ x) :
    setRange m dst n b x = m x := if_neg (by omega)

/-- Only the bytes within the range count. -/
theorem setRange_congr {b' : Nat → UInt8}
    (h : ∀ k, k < n → b k = b' k) : setRange m dst n b = setRange m dst n b' := by
  funext x
  unfold setRange
  split_ifs with hx
  · exact h _ (by omega)
  · rfl

/-- A range within a frame does not touch another frame. -/
theorem setRange_frame {f g : Nat} (hfit : o + n ≤ pageSize) (hfg : g ≠ f) (hk : k < pageSize) :
    setRange m (f * pageSize + o) n b (g * pageSize + k) = m (g * pageSize + k) := by
  refine setRange_outside ?_
  unfold pageSize at *
  omega

/-- Replacing the same range of a page and of its frame. -/
theorem setRange_page {m' : Nat → UInt8} {f : Nat} (hk : m (v.raw + k) = m' (f * pageSize + k)) :
    setRange m (v.raw + o) n b (v.raw + k) = setRange m' (f * pageSize + o) n b (f * pageSize + k) := by
  unfold setRange
  rw [Nat.add_sub_add_left, Nat.add_sub_add_left, Nat.add_assoc, Nat.add_assoc]
  simp only [Nat.add_le_add_iff_left, Nat.add_lt_add_iff_left, hk]

theorem Sound.setMemory (h : Sound held kernelFrames s) (m : Nat → UInt8) :
    Sound held kernelFrames { s with memory := m } :=
  ⟨h.accounted.setMemory m, h.isolated, h.user, h.owned, h.apart⟩

/-- Writing to a page whose frame has no other owner shows in this page only. -/
theorem Shows.write (h : Shows exact kernelFrames s a) (hs : Sound held kernelFrames s)
    (hp : s.pte i v = some p) (hone : s.frames.refcount p.frame ≤ 1) (hfit : o + n ≤ pageSize) :
    Shows exact kernelFrames
      { s with memory := setRange s.memory (p.frame * pageSize + o) n b }
      { a with bytes := Function.update a.bytes i (setRange (a.bytes i) (v.raw + o) n b) } where
  __ := h
  bytes j w q hq k hk := by
    have hq' : s.pte j w = some q := hq
    have hold := h.bytes j w q hq' k hk
    by_cases hin : j = i ∧ w = v
    · obtain ⟨rfl, rfl⟩ := hin
      cases hp.symm.trans hq'
      dsimp only
      rw [Function.update_self]
      exact setRange_page hold
    · have hframe : q.frame ≠ p.frame := fun hf =>
        hin (hs.accounted.eq_of_refcount_le_one hp hq' hf hone)
      refine Eq.trans ?_ (hold.trans (setRange_frame hfit hframe hk).symm)
      dsimp only
      rw [Function.update_apply]
      split_ifs with hj
      · subst hj
        have hne : w.number ≠ v.number := fun hn => hin ⟨rfl, by cases w; cases v; cases hn; rfl⟩
        exact setRange_frame hfit hne hk
      · rfl
  kernel x hx := by
    have hne : x / pageSize ≠ p.frame := fun hf => hs.apart i v p hp (hf ▸ hx)
    have hsplit : x / pageSize * pageSize + x % pageSize = x := Nat.div_add_mod' x pageSize
    have hmem := setRange_frame (m := s.memory) (b := b) hfit hne (Nat.mod_lt x (by decide))
    rw [hsplit] at hmem
    exact (h.kernel x hx).trans hmem.symm

/-- Writing to a buffer of the kernel shows in the kernel's memory only. -/
theorem Shows.writeKernel (h : Shows exact kernelFrames s a) (hs : Sound held kernelFrames s) (hbuf : ∀ x, dst ≤ x → x < dst + n → x / pageSize ∈ kernelFrames) :
    Shows exact kernelFrames { s with memory := setRange s.memory dst n b }
      { a with kernel := setRange a.kernel dst n b } where
  __ := h
  bytes j w q hq k hk := by
    refine (h.bytes j w q hq k hk).trans (setRange_outside ?_).symm
    by_contra hin
    have hmem := hbuf (q.frame * pageSize + k) (by omega) (by omega)
    have hdiv : (q.frame * pageSize + k) / pageSize = q.frame := by
      unfold pageSize at hk ⊢
      omega
    rw [hdiv] at hmem
    exact hs.apart j w q hq hmem
  kernel x hx := by
    have hold := h.kernel x hx
    simp only [setRange, hold]

end Writes

end Nanvix.Mm
