import Mathlib.Data.Finset.Card
import Mathlib.Order.Interval.Finset.Nat
import Nanvix.Base
import Nanvix.Library.Outcome

/-!
# The frame allocator

A bitmap says which physical frames are taken, and a table of one-byte counters
says how many owners each taken frame has. `Valid` relates the two: a bit is set
exactly when its counter is positive, and `usage` is the number of set bits.

## Implementation notes

A frame is named by its number, which is an index into the bitmap. The search of
`Bitmap::alloc_range` visits the positions from the hint to the end and then
those below the hint; the steps by which it skips positions that a set bit rules
out do not change the first position it finds, so the search is the first free
position of `candidates`.
-/
namespace Nanvix.Mm
open Library Library.Prog

variable {b b' : Bitmap} {size start : Nat}

structure Bitmap where
  numberOfBits : Nat
  usage : Nat
  bits : Nat → Bool
  nextFree : Nat

namespace Bitmap

/-- No bit of the `size` bits from `start` is set. -/
def rangeFree (b : Bitmap) (size start : Nat) : Bool :=
  (List.range size).all fun offset => !b.bits (start + offset)

/-- The positions the search visits: first from the hint on, then those below it. -/
def candidates (b : Bitmap) (size : Nat) : List Nat :=
  let positions := List.range (b.numberOfBits - size + 1)
  positions.filter (b.nextFree ≤ ·) ++ positions.filter (· < b.nextFree)

def allocRange (b : Bitmap) (size : Nat) : Except Error (Nat × Bitmap) :=
  if size = 0 ∨ b.numberOfBits < size then
    .error ⟨.invalidArgument, "invalid size"⟩
  else if b.numberOfBits - size < b.usage then
    .error ⟨.outOfMemory, "allocation exceeds bitmap capacity"⟩
  else match (b.candidates size).find? (b.rangeFree size) with
    | none => .error ⟨.outOfMemory, "bitmap is full"⟩
    | some start =>
      .ok (start,
        { b with
          bits := fun i => (decide (start ≤ i) && decide (i < start + size)) || b.bits i
          usage := b.usage + size
          nextFree := start + size })

def alloc (b : Bitmap) : Except Error (Nat × Bitmap) := b.allocRange 1

def test (b : Bitmap) (index : Nat) : Except Error Bool :=
  if b.numberOfBits ≤ index then .error ⟨.invalidArgument, "index out of bounds"⟩
  else .ok (b.bits index)

def clear (b : Bitmap) (index : Nat) : Except Error Bitmap :=
  match b.test index with
  | .error e => .error e
  | .ok false => .error ⟨.badAddress, "bit is already cleared"⟩
  | .ok true =>
    .ok { b with
      bits := Function.update b.bits index false
      usage := b.usage - 1
      nextFree := if index < b.nextFree then index else b.nextFree }

/-- The frames whose bit is set. -/
def taken (b : Bitmap) : Finset Nat :=
  (Finset.range b.numberOfBits).filter fun i => b.bits i

theorem mem_taken {i : Nat} : i ∈ b.taken ↔ i < b.numberOfBits ∧ b.bits i = true := by
  simp only [taken, Finset.mem_filter, Finset.mem_range]

/-- What a successful search found, and what it changed. -/
theorem allocRange_ok (h : b.allocRange size = .ok (start, b')) :
    start + size ≤ b.numberOfBits ∧
      (∀ i, start ≤ i → i < start + size → b.bits i = false) ∧
      b' = { b with
        bits := fun i => (decide (start ≤ i) && decide (i < start + size)) || b.bits i
        usage := b.usage + size
        nextFree := start + size } := by
  unfold allocRange at h
  split_ifs at h with h₁ h₂
  split at h
  · cases h
  · next pos hpos =>
      cases h
      have hmem := List.mem_of_find?_eq_some hpos
      have hfree := List.find?_some hpos
      simp only [candidates, List.mem_append, List.mem_filter, List.mem_range] at hmem
      simp only [rangeFree, List.all_eq_true, List.mem_range, Bool.not_eq_true'] at hfree
      refine ⟨by omega, fun i hi hlt => ?_, rfl⟩
      have hoff := hfree (i - start) (by omega)
      rwa [Nat.add_sub_cancel' hi] at hoff

theorem allocRange_numberOfBits
    (h : b.allocRange size = .ok (start, b')) : b'.numberOfBits = b.numberOfBits := by
  obtain ⟨-, -, rfl⟩ := allocRange_ok h
  rfl

theorem clear_numberOfBits {index : Nat} (h : b.clear index = .ok b') :
    b'.numberOfBits = b.numberOfBits := by
  unfold clear at h
  split at h <;> cases h
  rfl

/-- The search for one bit fails for lack of memory only. -/
theorem alloc_error {e : Error} (hpos : 0 < b.numberOfBits)
    (h : b.alloc = .error e) : e.code = .outOfMemory := by
  unfold alloc allocRange at h
  rw [if_neg (by omega)] at h
  split_ifs at h
  · cases h
    rfl
  · split at h <;> cases h
    rfl

end Bitmap

/-- The allocator: the bitmap and the owner counters, one byte each. -/
structure FrameAllocator where
  bitmap : Bitmap
  refcount : Nat → Nat
  refcountLen : Nat

namespace FrameAllocator

def setBitmap (b : Bitmap) : Prog FrameAllocator Error Unit := modify fun a => { a with bitmap := b }

def setRefcount (f : Nat) (n : Nat) : Prog FrameAllocator Error Unit :=
  modify fun a => { a with refcount := Function.update a.refcount f n }

def alloc : Prog FrameAllocator Error Nat := do
  let (frame, bitmap) ← ofExcept (← gets fun a => a.bitmap.alloc)
  setBitmap bitmap
  if (← gets fun a => a.refcount frame) ≠ 0 then abort "debug_assert_eq!(refcount, 0)"
  setRefcount frame 1
  return frame

def allocContiguous (count : Nat) : Prog FrameAllocator Error Nat := do
  let (frame, bitmap) ← ofExcept (← gets fun a => a.bitmap.allocRange count)
  setBitmap bitmap
  forEach (fun i => do
    if (← gets fun a => a.refcount i) ≠ 0 then abort "debug_assert_eq!(refcount, 0)"
    setRefcount i 1) (List.range' frame count)
  return frame

def free (frame : Nat) : Prog FrameAllocator Error Unit := do
  let a ← gets id
  if a.refcountLen ≤ frame then throw ⟨.badAddress, "frame number out of bounds"⟩
  else if a.refcount frame = 0 then throw ⟨.badAddress, "frame is already free"⟩
  else do
    setRefcount frame (a.refcount frame - 1)
    if a.refcount frame - 1 = 0 then do
      let bitmap ← ofExcept (a.bitmap.clear frame)
      setBitmap bitmap
    else pure ()

def share (frame : Nat) : Prog FrameAllocator Error Unit := do
  let a ← gets id
  if a.refcountLen ≤ frame then throw ⟨.badAddress, "frame number out of bounds"⟩
  else if a.refcount frame = 0 then throw ⟨.badAddress, "cannot share an unallocated frame"⟩
  else if a.refcount frame = 255 then throw ⟨.outOfMemory, "frame reference count overflow"⟩
  else setRefcount frame (a.refcount frame + 1)

/-- `refcount` of the source: the number of owners of a frame that has one. -/
def owners (frame : Nat) : Prog FrameAllocator Error Nat := do
  let a ← gets id
  if a.refcountLen ≤ frame then throw ⟨.badAddress, "frame number out of bounds"⟩
  else if a.refcount frame = 0 then throw ⟨.badAddress, "frame is not allocated"⟩
  else return a.refcount frame

/-- The number of frames of the machine. -/
def capacity (a : FrameAllocator) : Nat := a.bitmap.numberOfBits

def freeCount (a : FrameAllocator) : Nat := a.bitmap.numberOfBits - a.bitmap.usage

/-- The bitmap and the counters tell the same story. -/
structure Valid (a : FrameAllocator) : Prop where
  pos : 0 < a.bitmap.numberOfBits
  addressable : a.bitmap.numberOfBits * Config.pageSize ≤ Config.usizeMax
  covered : a.bitmap.numberOfBits ≤ a.refcountLen
  bit_iff : ∀ f, a.bitmap.bits f = true ↔ 0 < a.refcount f
  bound : ∀ f, 0 < a.refcount f → f < a.bitmap.numberOfBits
  byte : ∀ f, a.refcount f ≤ 255
  usage : a.bitmap.usage = a.bitmap.taken.card

variable {a : FrameAllocator} {f : Nat}

/-- A valid allocator over the same frames. -/
structure Evolves (a a' : FrameAllocator) : Prop where
  valid : a'.Valid
  capacity : a'.capacity = a.capacity

/-- A frame with an owner is within the tables. -/
theorem Valid.lt_len (h : a.Valid) (hf : 0 < a.refcount f) : f < a.refcountLen :=
  Nat.lt_of_lt_of_le (h.bound f hf) h.covered

/-- The counters after the frames of a range got their first owner. -/
def tookRange (refcount : Nat → Nat) (start size : Nat) : Nat → Nat := fun g =>
  if start ≤ g ∧ g < start + size then 1 else refcount g

theorem tookRange_zero (refcount : Nat → Nat) (start : Nat) :
    tookRange refcount start 0 = refcount := by
  funext g
  exact if_neg (by omega)

theorem tookRange_succ (refcount : Nat → Nat) (start k : Nat) :
    Function.update (tookRange refcount start k) (start + k) 1 =
      tookRange refcount start (k + 1) := by
  funext g
  simp only [tookRange, Function.update_apply]
  split_ifs <;> first | rfl | omega

section
variable (h : a.Valid)
include h

/-- A search finds frames that nobody owns. -/
theorem Valid.refcount_eq_zero {g : Nat}
    (hb : a.bitmap.allocRange size = .ok (start, b)) (hlo : start ≤ g) (hhi : g < start + size) :
    a.refcount g = 0 := by
  obtain ⟨-, hfree, -⟩ := Bitmap.allocRange_ok hb
  by_contra hne
  have hbit := hfree g hlo hhi
  rw [(h.bit_iff g).mpr (Nat.pos_of_ne_zero hne)] at hbit
  cases hbit

/-- Giving the free frames of a range their first owner. -/
theorem Valid.occupy (hle : start + size ≤ a.bitmap.numberOfBits)
    (hfree : ∀ i, start ≤ i → i < start + size → a.bitmap.bits i = false) (next : Nat) :
    Valid { a with
      bitmap := { a.bitmap with
        bits := fun i => (decide (start ≤ i) && decide (i < start + size)) || a.bitmap.bits i
        usage := a.bitmap.usage + size
        nextFree := next }
      refcount := tookRange a.refcount start size } := by
  refine ⟨h.pos, h.addressable, h.covered, fun g => ?_, fun g hg => ?_, fun g => ?_, ?_⟩
  · by_cases hg : start ≤ g ∧ g < start + size
    · simp [tookRange, hg]
    · simp only [Bool.or_eq_true, Bool.and_eq_true, decide_eq_true_eq, hg, false_or, tookRange,
        if_false]
      exact h.bit_iff g
  · change g < a.bitmap.numberOfBits
    by_cases hgr : start ≤ g ∧ g < start + size
    · omega
    · exact h.bound g (by simpa only [tookRange, hgr, if_false] using hg)
  · change tookRange a.refcount start size g ≤ 255
    unfold tookRange
    split_ifs
    · omega
    · exact h.byte g
  · have hdisjoint : Disjoint a.bitmap.taken (Finset.Ico start (start + size)) := by
      refine Finset.disjoint_left.mpr fun g hg hgr => ?_
      rw [Finset.mem_Ico] at hgr
      rw [Bitmap.mem_taken, hfree g hgr.1 hgr.2] at hg
      cases hg.2
    have htaken : Bitmap.taken { a.bitmap with
        bits := fun i => (decide (start ≤ i) && decide (i < start + size)) || a.bitmap.bits i
        usage := a.bitmap.usage + size
        nextFree := next } = a.bitmap.taken ∪ Finset.Ico start (start + size) := by
      ext g
      simp only [Bitmap.mem_taken, Finset.mem_union, Finset.mem_Ico, Bool.or_eq_true,
        Bool.and_eq_true, decide_eq_true_eq]
      constructor
      · rintro ⟨hg, hgr | hgb⟩
        · exact Or.inr hgr
        · exact Or.inl ⟨hg, hgb⟩
      · rintro (⟨hg, hgb⟩ | hgr)
        · exact ⟨hg, Or.inr hgb⟩
        · exact ⟨by omega, Or.inl hgr⟩
    change a.bitmap.usage + size = _
    rw [htaken, Finset.card_union_of_disjoint hdisjoint, Nat.card_Ico, h.usage]
    omega

theorem Valid.takeRange (hb : a.bitmap.allocRange size = .ok (start, b)) :
    Valid { a with bitmap := b, refcount := tookRange a.refcount start size } := by
  obtain ⟨hle, hfree, rfl⟩ := Bitmap.allocRange_ok hb
  exact h.occupy hle hfree _

/-- Giving a free frame its first owner. -/
theorem Valid.take (hb : a.bitmap.alloc = .ok (f, b)) :
    Valid { a with bitmap := b, refcount := Function.update a.refcount f 1 } := by
  rw [← tookRange_zero a.refcount f]
  exact tookRange_succ a.refcount f 0 ▸ h.takeRange hb

/-- Changing the counter of a frame that keeps an owner. -/
theorem Valid.recount (hf : 0 < a.refcount f) {n : Nat} (hn : 0 < n) (hb : n ≤ 255) :
    Valid { a with refcount := Function.update a.refcount f n } := by
  refine ⟨h.pos, h.addressable, h.covered, fun g => ?_, fun g hg => ?_, fun g => ?_, h.usage⟩
  · by_cases hg : g = f
    · subst hg
      simp only [Function.update_self, hn, iff_true]
      exact (h.bit_iff g).mpr hf
    · simpa only [Function.update_of_ne hg] using h.bit_iff g
  · by_cases hgf : g = f
    · exact hgf ▸ h.bound f hf
    · exact h.bound g (by simpa only [Function.update_of_ne hgf] using hg)
  · by_cases hg : g = f
    · subst hg
      simpa only [Function.update_self] using hb
    · simpa only [Function.update_of_ne hg] using h.byte g

/-- Taking the last owner away from a frame. -/
theorem Valid.release (hf : a.refcount f = 1) (hb : a.bitmap.clear f = .ok b) :
    Valid { a with bitmap := b, refcount := Function.update a.refcount f 0 } := by
  have hlt : f < a.bitmap.numberOfBits := h.bound f (by omega)
  have hbit : a.bitmap.bits f = true := (h.bit_iff f).mpr (by omega)
  have hclear : b = { a.bitmap with
      bits := Function.update a.bitmap.bits f false
      usage := a.bitmap.usage - 1
      nextFree := if f < a.bitmap.nextFree then f else a.bitmap.nextFree } := by
    simp only [Bitmap.clear, Bitmap.test, if_neg (Nat.not_le.mpr hlt), hbit,
      Except.ok.injEq] at hb
    exact hb.symm
  have htaken : b.taken = a.bitmap.taken.erase f := by
    ext i
    rw [Finset.mem_erase, Bitmap.mem_taken, Bitmap.mem_taken, hclear]
    by_cases hi : i = f
    · subst hi
      simp
    · simp [hi]
  have hnum : b.numberOfBits = a.bitmap.numberOfBits := by rw [hclear]
  refine ⟨hnum ▸ h.pos, hnum ▸ h.addressable, hnum ▸ h.covered, fun g => ?_, fun g hg => ?_, fun g => ?_, ?_⟩
  · by_cases hg : g = f
    · subst hg
      simp [hclear]
    · simpa only [hclear, Function.update_of_ne hg] using h.bit_iff g
  · by_cases hgf : g = f
    · subst hgf
      simp at hg
    · rw [hnum]
      exact h.bound g (by simpa only [Function.update_of_ne hgf] using hg)
  · by_cases hg : g = f
    · subst hg
      simp
    · simpa only [Function.update_of_ne hg] using h.byte g
  · have hmem : f ∈ a.bitmap.taken := Bitmap.mem_taken.mpr ⟨hlt, hbit⟩
    change b.usage = b.taken.card
    rw [htaken, Finset.card_erase_of_mem hmem, ← h.usage, hclear]

/-- Clearing the bit of a frame that has an owner succeeds. -/
theorem Valid.clear_ok (hf : 0 < a.refcount f) : ∃ b, a.bitmap.clear f = .ok b := by
  have hlt : f < a.bitmap.numberOfBits := h.bound f hf
  have hbit : a.bitmap.bits f = true := (h.bit_iff f).mpr hf
  simp only [Bitmap.clear, Bitmap.test, if_neg (Nat.not_le.mpr hlt), hbit]
  exact ⟨_, rfl⟩

/-- The search for one bit fails only when every frame is taken. -/
theorem Valid.freeCount_of_alloc_error {e : Error}
    (hb : a.bitmap.alloc = .error e) : a.freeCount = 0 := by
  have hpos := h.pos
  unfold Bitmap.alloc Bitmap.allocRange at hb
  rw [if_neg (by omega)] at hb
  unfold freeCount
  split_ifs at hb with husage
  · omega
  · split at hb
    · next hnone =>
        -- No candidate is free, so the taken frames are all frames.
        have hall : a.bitmap.taken = Finset.range a.bitmap.numberOfBits := by
          refine Finset.filter_true_of_mem fun g hg => ?_
          have hlt := Finset.mem_range.mp hg
          have hmem : g ∈ a.bitmap.candidates 1 := by
            simp only [Bitmap.candidates, List.mem_append, List.mem_filter, List.mem_range,
              decide_eq_true_eq]
            omega
          simpa [Bitmap.rangeFree] using List.find?_eq_none.mp hnone g hmem
        rw [h.usage, hall, Finset.card_range, Nat.sub_self]
    · cases hb

/-- An allocation yields a frame that nobody owned, or fails for lack of memory. -/
theorem alloc_wp : wp alloc (fun f a' => a.Evolves a' ∧ a.refcount f = 0 ∧
        a'.refcount = Function.update a.refcount f 1)
      (fun e a' => a' = a ∧ e.code = .outOfMemory ∧ a.freeCount = 0) a := by
  simp only [alloc, wp_bind, wp_gets]
  cases hb : a.bitmap.alloc with
  | error e =>
    rw [wp_ofExcept_error]
    exact ⟨rfl, Bitmap.alloc_error h.pos hb, h.freeCount_of_alloc_error hb⟩
  | ok r =>
    obtain ⟨f, b⟩ := r
    have hzero := h.refcount_eq_zero hb (Nat.le_refl f) (Nat.lt_succ_self f)
    simp only [wp_ofExcept_ok, setBitmap, setRefcount, wp_modify, wp_ite, hzero, ne_eq,
      not_true_eq_false, if_false, wp_bind, wp_pure]
    exact ⟨⟨h.take hb, Bitmap.allocRange_numberOfBits hb⟩, trivial, trivial⟩

/-- A contiguous allocation yields frames that nobody owned. -/
theorem allocContiguous_wp (count : Nat) : wp (allocContiguous count)
      (fun f a' => a.Evolves a' ∧ (∀ g, f ≤ g → g < f + count → a.refcount g = 0) ∧
        a'.refcount = tookRange a.refcount f count)
      (fun _ a' => a' = a ∧ ∃ e, a.bitmap.allocRange count = .error e) a := by
  simp only [allocContiguous, wp_bind, wp_gets]
  cases hb : a.bitmap.allocRange count with
  | error e =>
    rw [wp_ofExcept_error]
    exact ⟨rfl, e, rfl⟩
  | ok r =>
    obtain ⟨f, b⟩ := r
    have hzero : ∀ g, f ≤ g → g < f + count → a.refcount g = 0 :=
      fun g => h.refcount_eq_zero hb
    simp only [wp_ofExcept_ok, setBitmap, wp_modify, wp_pure]
    refine (wp_forEach_range' (fun k a' =>
      a' = { a with bitmap := b, refcount := tookRange a.refcount f k }) f count ?_ ?_).imp ?_
    · rintro k _ hk rfl
      have hfree : tookRange a.refcount f k (f + k) = 0 := by
        rw [tookRange, if_neg (by omega)]
        exact hzero _ (Nat.le_add_right _ _) (by omega)
      simp only [wp_bind, wp_gets, wp_ite, hfree, ne_eq, not_true_eq_false, if_false,
        setRefcount, wp_modify, tookRange_succ]
    · rw [tookRange_zero]
    · rintro _ _ rfl
      exact ⟨⟨h.takeRange hb, Bitmap.allocRange_numberOfBits hb⟩, hzero, rfl⟩

/-- Releasing one owner of a frame that has one. -/
theorem free_wp (hf : 0 < a.refcount f) : wp (free f)
      (fun _ a' => a.Evolves a' ∧ a'.refcount = Function.update a.refcount f (a.refcount f - 1))
      (fun _ _ => False) a := by
  simp only [free, wp_bind, wp_gets, id_eq, wp_ite, if_neg (Nat.not_le.mpr (h.lt_len hf)),
    if_neg (Nat.pos_iff_ne_zero.mp hf), setRefcount, wp_modify]
  split_ifs with hlast
  · obtain ⟨b, hb⟩ := h.clear_ok hf
    simp only [hb, wp_ofExcept_ok, setBitmap, wp_modify, hlast]
    exact ⟨⟨h.release (by omega) hb, Bitmap.clear_numberOfBits hb⟩, trivial⟩
  · rw [wp_pure]
    exact ⟨⟨h.recount hf (by omega) (Nat.le_trans (Nat.sub_le _ _) (h.byte f)), rfl⟩, rfl⟩

/-- Adding an owner fails only when the counter is at its maximum. -/
theorem share_wp (hf : 0 < a.refcount f) : wp (share f)
      (fun _ a' => a.Evolves a' ∧ a'.refcount = Function.update a.refcount f (a.refcount f + 1) ∧
        a'.bitmap = a.bitmap ∧ a.refcount f ≠ 255)
      (fun e a' => a' = a ∧ e.code = .outOfMemory ∧ a.refcount f = 255) a := by
  simp only [share, wp_bind, wp_gets, id_eq, wp_ite, if_neg (Nat.not_le.mpr (h.lt_len hf)),
    if_neg (Nat.pos_iff_ne_zero.mp hf), setRefcount, wp_modify, wp_throw]
  split_ifs with hmax
  · exact ⟨trivial, trivial, hmax⟩
  · have hbyte := h.byte f
    exact ⟨⟨h.recount hf (by omega) (by omega), rfl⟩, trivial, trivial, hmax⟩

/-- Reading the counter of a frame that has an owner. -/
theorem owners_wp (hf : 0 < a.refcount f) :
    wp (owners f) (fun n a' => a' = a ∧ n = a.refcount f) (fun _ _ => False) a := by
  simp only [owners, wp_bind, wp_gets, id_eq, wp_ite, if_neg (Nat.not_le.mpr (h.lt_len hf)),
    if_neg (Nat.pos_iff_ne_zero.mp hf), wp_pure, and_self]

/-- The free frames are those without an owner. -/
theorem Valid.freeCount_eq :
    a.freeCount = ((Finset.range a.bitmap.numberOfBits).filter fun g => a.refcount g = 0).card := by
  have hsplit := Finset.card_filter_add_card_filter_not (s := Finset.range a.bitmap.numberOfBits)
    (fun g => a.refcount g = 0)
  have htaken : (Finset.range a.bitmap.numberOfBits).filter (fun g => ¬a.refcount g = 0) =
      a.bitmap.taken := by
    ext i
    simp only [Finset.mem_filter, Finset.mem_range, Bitmap.mem_taken, h.bit_iff]
    omega
  rw [htaken, Finset.card_range, ← h.usage] at hsplit
  unfold freeCount
  omega

end

end FrameAllocator
end Nanvix.Mm
