import Mathlib.Tactic.Common

/-!
# Cutting, padding and overwriting a sequence

A sequence is resized by discarding its tail or by padding it with a filler, and
it is patched by writing another sequence over it from a given position on. A
position behind the end is reached by padding.
-/
namespace Nanvix.Library

variable {α : Type} (z : α)

/-- The sequence cut or padded to a length. -/
def resize (xs : List α) (n : Nat) : List α := (xs ++ List.replicate (n - xs.length) z).take n

/-- The sequence with another one written over it from position `p` on. -/
def patch (xs : List α) (p : Nat) (ys : List α) : List α :=
  resize z xs p ++ ys ++ xs.drop (p + ys.length)

variable {xs : List α} {n p : Nat} (ys : List α)

theorem resize_of_length_le (h : xs.length ≤ n) :
    resize z xs n = xs ++ List.replicate (n - xs.length) z := by
  unfold resize
  apply List.take_of_length_le
  rw [List.length_append, List.length_replicate]
  omega

theorem resize_of_le_length (h : n ≤ xs.length) : resize z xs n = xs.take n := by
  unfold resize
  rw [Nat.sub_eq_zero_of_le h, List.replicate_zero, List.append_nil]

@[simp] theorem length_resize : (resize z xs n).length = n := by
  unfold resize
  rw [List.length_take, List.length_append, List.length_replicate]
  omega

@[simp] theorem resize_length : resize z xs xs.length = xs := by
  rw [resize_of_le_length z (Nat.le_refl _), List.take_length]

/-- Inside the sequence nothing is padded. -/
theorem patch_of_le_length (h : p ≤ xs.length) :
    patch z xs p ys = xs.take p ++ ys ++ xs.drop (p + ys.length) := by
  unfold patch
  rw [resize_of_le_length z h]

/-- Padding first and writing behind the padding afterwards. -/
theorem patch_resize (h : xs.length ≤ p) : patch z (resize z xs p) p ys = patch z xs p ys := by
  have htail : xs.drop (p + ys.length) = [] := List.drop_eq_nil_of_le (by omega)
  have hpadded : (resize z xs p).drop (p + ys.length) = [] := by
    apply List.drop_eq_nil_of_le
    rw [length_resize]
    omega
  have hlength : resize z (resize z xs p) p = resize z xs p := by
    have hself : (resize z xs p).length = p := length_resize z
    calc resize z (resize z xs p) p
        = resize z (resize z xs p) (resize z xs p).length := by rw [hself]
      _ = resize z xs p := resize_length z
  unfold patch
  rw [htail, hpadded, hlength]

/-- Writing at the end appends. -/
theorem patch_length : patch z xs xs.length ys = xs ++ ys := by
  rw [patch_of_le_length z ys (Nat.le_refl _), List.take_length,
    List.drop_eq_nil_of_le (Nat.le_add_right _ _), List.append_nil]

/-- Writing nothing inside the sequence. -/
theorem patch_nil (h : p ≤ xs.length) : patch z xs p [] = xs := by
  rw [patch_of_le_length z [] h, List.append_nil, List.length_nil, Nat.add_zero,
    List.take_append_drop]

theorem length_patch : (patch z xs p ys).length = max xs.length (p + ys.length) := by
  unfold patch
  rw [List.length_append, List.length_append, length_resize, List.length_drop]
  omega

end Nanvix.Library
