import Nanvix.Mm.FrameAccounting

/-!
# Mapping a range in batches

`mmap` allocates the pages of a range in batches, each of which maps all of its
pages or none. When a batch fails, the pages of the batches before it are unmapped,
so a call maps the whole range or leaves every entry and every user frame as it was.

## Implementation notes

What the kernel heap answers when room for the frames of a batch is asked for is an
argument, one answer for each batch. The address after a batch that was mapped lies
in the user range or at its end, so it does not overflow.
-/
namespace Nanvix.Mm
open Config Library Library.Prog

namespace MM

def mmapBatchSize : Nat := 16

/-- The room the kernel heap has for the frames of a batch. -/
inductive HeapRoom where
  | batch
  | single
  | exhausted

/-- Unmap the pages of a range, as far as it was mapped. -/
def rollbackMmap (i : Nat) (base failed : PageAligned) : MM Unit :=
  rollbackRange i (failed.number - base.number) base

/-- The number of pages of the next batch. -/
def HeapRoom.count (remaining : Nat) : HeapRoom → Nat
  | batch => min remaining mmapBatchSize
  | single => 1
  | exhausted => 0

def mmapLoop (i : Nat) (access : AccessPermission) (heap : Nat → HeapRoom) (base : PageAligned)
    (current : PageAligned) (remaining round : Nat) : MM Unit :=
  if remaining = 0 then pure ()
  else do
    let batch := (heap round).count remaining
    if batch = 0 then
      rollbackMmap i base current
      throw ⟨.outOfMemory, "kheap: cannot allocate uframes vec for mmap"⟩
    else match ← attempt (allocUpages i current access true batch [] batch) with
      | .error e =>
        rollbackMmap i base current
        throw e
      | .ok _ =>
        mmapLoop i access heap base ⟨current.number + batch⟩ (remaining - batch) (round + 1)
termination_by remaining

def mmap (i : Nat) (v : PageAligned) (npages : Nat) (access : AccessPermission)
    (heap : Nat → HeapRoom) : MM Unit :=
  mmapLoop i access heap v v npages 0

end MM

/-- The owners of a frame by its counter, but for the tables and directories stored in it. -/
def MemState.userCount (f : Nat) (s : MemState) : Nat := s.frames.refcount f - s.tablePages f

variable {held : List Nat} {s₀ s s' : MemState} {i m n : Nat} {v w : PageAligned}
variable {access : AccessPermission}

/-- Two parts of a range after one another. -/
theorem Allocating.append (h : Allocating held i v m access s₀ s)
    (hkept : ∀ g, s₀.frames.refcount g ≤ s.frames.refcount g)
    (h' : Allocating held i w n access s s') (hw : n = 0 ∨ w = ⟨v.number + m⟩) :
    Allocating held i v (m + n) access s₀ s' where
  accounted := h'.accounted
  spaces := h.spaces.trans h'.spaces
  bytes g hg o ho :=
    (h'.bytes g (Nat.lt_of_lt_of_le hg (hkept g)) o ho).trans (h.bytes g hg o ho)
  owners := h.owners.trans h'.owners
  done u hle hlt := by
    by_cases hin : u.number < v.number + m
    · rw [h'.other i u (by rintro ⟨-, hlo, hhi⟩; rcases hw with rfl | rfl <;> grind)]
      exact h.done u hle hin
    · obtain rfl := hw.resolve_left (by omega)
      obtain ⟨hnone, f, hzero, hf⟩ := h'.done u (by grind) (by grind)
      rw [h.other i u fun hc => hin hc.2.2] at hnone
      exact ⟨hnone, f, Nat.le_zero.mp (hzero ▸ hkept f), hf⟩
  other j u hne := by
    rw [h'.other j u, h.other j u]
    · exact fun hc => hne ⟨hc.1, hc.2.1, by omega⟩
    · rintro ⟨rfl, hlo, hhi⟩
      rcases hw with rfl | rfl
      · omega
      · exact hne ⟨rfl, by grind, by grind⟩

/-- With the entries that were there, a frame has the user owners it had. -/
theorem Allocating.userPtes_eq (h : Allocating held i v 0 access s₀ s) (f : Nat) :
    s.userPtes f = s₀.userPtes f := by
  unfold MemState.userPtes tally
  rw [h.spaces.numSpaces]
  refine Finset.sum_congr rfl fun j _ => ?_
  have hlive := h.spaces.live j
  cases hj : s₀.spaces j with
  | none =>
    rw [hj, Option.isSome_none, Option.isSome_eq_false_iff, Option.isNone_iff_eq_none] at hlive
    rw [hlive]
  | some vm =>
    rw [hj] at hlive
    obtain ⟨vm', hj'⟩ := Option.isSome_iff_exists.mp hlive
    have hview : vm'.userRefs f = vm.userRefs f := viewRefs_congr fun u => by
      rw [← Accounted.pte_of_space hj, ← Accounted.pte_of_space hj',
        h.other j u fun hc => by omega]
    rw [hj']
    beta_reduce
    rw [Option.elim_some, Option.elim_some, hview]

theorem Allocating.userCount_eq (h₀ : Accounted held s₀) (h : Allocating held i v 0 access s₀ s)
    (f : Nat) : s.userCount f = s₀.userCount f := by
  have hcount := h.accounted.count f
  have hcount₀ := h₀.count f
  rw [MemState.refs_eq] at hcount hcount₀
  rw [h.userPtes_eq] at hcount
  unfold MemState.userCount
  omega

namespace MM

/-- The batches that are left are mapped after the `m` pages that are done, or nothing is. -/
theorem mmapLoop_wp (heap : Nat → HeapRoom) (hi : (s₀.spaces i).isSome) (round : Nat)
    (h : Allocating held i v m access s₀ s)
    (hkept : ∀ g, s₀.frames.refcount g ≤ s.frames.refcount g) :
    wp (mmapLoop i access heap v ⟨v.number + m⟩ n round)
      (fun _ t => Allocating held i v (m + n) access s₀ t)
      (fun _ t => ∃ w, Allocating held i w 0 access s₀ t) s := by
  induction n using Nat.strongRecOn generalizing m s round with
  | ind n ih =>
    have hundo : ∀ {t : MemState} (e : Error), Allocating held i v m access s₀ t →
        wp (do rollbackMmap i v ⟨v.number + m⟩; throw e : MM Unit)
          (fun _ t => Allocating held i v (m + n) access s₀ t)
          (fun _ t => ∃ w, Allocating held i w 0 access s₀ t) t := by
      intro t e ht
      have hsize : v.number + m - v.number = m := Nat.add_sub_cancel_left _ _
      simp only [rollbackMmap, wp_bind, wp_throw, hsize]
      exact (rollbackRange_wp hi ht).mono (fun _ _ hs => hs) fun _ _ he => he.elim
    rw [mmapLoop]
    dsimp only
    split_ifs with hzero hbatch
    · rw [wp_pure, hzero]
      exact h
    · exact hundo _ h
    · have hle : (heap round).count n ≤ n := by
        cases heap round with
        | batch => exact Nat.min_le_left _ _
        | single => exact Nat.one_le_iff_ne_zero.mpr hzero
        | exhausted => exact Nat.zero_le _
      have hlive : (s.spaces i).isSome := (h.spaces.live i).trans hi
      simp only [wp_bind, wp_attempt]
      refine (allocUpages_kept_wp h.accounted hlive true _ _ []).mono ?_ ?_
      · rintro _ t ⟨hpart, hgrown⟩
        have hnext := ih (n - (heap round).count n) (by omega) (round + 1)
          (h.append hkept hpart (.inr rfl)) fun g => Nat.le_trans (hkept g) (hgrown g)
        rwa [Nat.add_assoc m, Nat.add_sub_of_le hle, ← Nat.add_assoc] at hnext
      · rintro e t ⟨w, hpart⟩
        rw [← wp_bind]
        exact hundo e (h.append hkept hpart (.inl rfl))

end MM

/-- `mmap` maps each page of the range to a frame of its own that had no owner and changes no other
entry, or it fails and every entry and the user owners of every frame are what they were. -/
theorem mmap_atomic (h : Accounted held s) (hi : (s.spaces i).isSome) (v : PageAligned)
    (npages : Nat) (access : AccessPermission) (heap : Nat → MM.HeapRoom) :
    wp (MM.mmap i v npages access heap)
      (fun _ t => (∀ j (w : PageAligned),
          ¬(j = i ∧ v.number ≤ w.number ∧ w.number < v.number + npages) → t.pte j w = s.pte j w) ∧
        ∀ w : PageAligned, v.number ≤ w.number → w.number < v.number + npages →
          s.pte i w = none ∧ ∃ f, s.frames.refcount f = 0 ∧
            t.pte i w = some (Vmem.userEntry f access) ∧
              ∀ j u p, t.pte j u = some p → p.frame = f → j = i ∧ u = w)
      (fun _ t => t.pte = s.pte ∧ ∀ f, t.userCount f = s.userCount f) s := by
  have hstart : Allocating held i v 0 access s s :=
    ⟨h, .refl s, fun _ _ _ _ => rfl, .refl s, fun _ _ _ => by omega, fun _ _ _ => rfl⟩
  refine (MM.mmapLoop_wp (n := npages) heap hi 0 hstart fun _ => Nat.le_refl _).mono ?_ ?_
  · intro _ t ht
    rw [Nat.zero_add] at ht
    refine ⟨ht.other, fun w hlo hhi => ?_⟩
    obtain ⟨hnone, f, hzero, hf⟩ := ht.done w hlo hhi
    have howners := ht.owners f
    rw [hzero] at howners
    exact ⟨hnone, f, hzero, hf, fun j u p hp heq =>
      ht.accounted.eq_of_refcount_le_one hf hp heq howners⟩
  · rintro e t ⟨w, ht⟩
    refine ⟨?_, ht.userCount_eq h⟩
    funext j u
    exact ht.other j u fun hc => by omega

/-- Two batches in a fresh space are mapped. -/
theorem mmap_atomic_two_batches : ∃ s t : MemState, (s.spaces 0).isSome = true ∧
    MM.mmap 0 firstUserPage 20 .RDWR (fun _ => .batch) s = .ok () t ∧
    (∀ w, ¬(firstUserPage.number ≤ w.number ∧ w.number < firstUserPage.number + 20) →
      t.pte 0 w = s.pte 0 w) ∧
    ∀ w : PageAligned, firstUserPage.number ≤ w.number → w.number < firstUserPage.number + 20 →
      s.pte 0 w = none ∧ ∃ f, s.frames.refcount f = 0 ∧
        t.pte 0 w = some (Vmem.userEntry f .RDWR) := by
  have hboot := MM.newVmem_wp (accounted_boot (n := 128) (by decide) (by decide))
  obtain ⟨i, s, hrun, hmap⟩ := Outcome.of_returns (show (MM.newVmem (.boot 128)).returns (fun s =>
    (MM.mmap 0 firstUserPage 20 .RDWR (fun _ => .batch) s).returns fun _ => true) = true
    by decide +kernel)
  obtain ⟨⟨⟩, t, hmap, -⟩ := Outcome.of_returns hmap
  obtain ⟨rfl, hacc, -, -, -, ⟨d, hspaces⟩, -⟩ := hboot.of_ok hrun
  have hzero : (s.spaces 0).isSome = true := by rw [hspaces]; rfl
  obtain ⟨hother, hpages⟩ :=
    (mmap_atomic hacc hzero firstUserPage 20 .RDWR fun _ => .batch).of_ok hmap
  refine ⟨s, t, hzero, hmap, fun w hw => hother 0 w fun hc => hw hc.2, fun w hlo hhi => ?_⟩
  obtain ⟨hnone, f, hfree, hentry, -⟩ := hpages w hlo hhi
  exact ⟨hnone, f, hfree, hentry⟩

end Nanvix.Mm
