import Mathlib.Data.List.Perm.Basic

/-!
# Tables with free slots

A table is a list of slots, each of which is free or holds an entry. Up to their
order, the entries change by one member when a slot is filled or cleared.
-/
namespace Nanvix.Library

variable {α : Type}

/-- The entries of a table, in the order of their slots. -/
def entries (slots : List (Option α)) : List α := slots.filterMap id

/-- Filling a free slot adds an entry. -/
theorem perm_entries_fill {slots : List (Option α)} {i : Nat} (a : α)
    (h : slots[i]? = some none) : (entries (slots.set i (some a))).Perm (a :: entries slots) := by
  induction slots generalizing i with
  | nil => cases h
  | cons slot slots ih =>
    cases i with
    | zero =>
      cases h
      exact .refl _
    | succ i =>
      have hrest := ih h
      cases slot with
      | none => exact hrest
      | some b => exact (hrest.cons b).trans (.swap _ _ _)

/-- Clearing a slot takes its entry away. -/
theorem perm_entries_clear {slots : List (Option α)} {i : Nat} {a : α}
    (h : slots[i]? = some (some a)) : (a :: entries (slots.set i none)).Perm (entries slots) := by
  induction slots generalizing i with
  | nil => cases h
  | cons slot slots ih =>
    cases i with
    | zero =>
      cases h
      exact .refl _
    | succ i =>
      have hrest := ih h
      cases slot with
      | none => exact hrest
      | some b => exact (List.Perm.swap _ _ _).trans (hrest.cons b)

end Nanvix.Library
