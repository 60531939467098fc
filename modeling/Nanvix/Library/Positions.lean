import Mathlib.Data.List.Perm.Basic

/-!
# Lists whose members are named by position

A list with a member at a position is, up to order, that member and the others;
replacing the member or removing it leaves the others.
-/
namespace Nanvix.Library

variable {α : Type*} {l : List α} {k : Nat} {x : α}

theorem perm_cons_eraseIdx (h : l[k]? = some x) : l.Perm (x :: l.eraseIdx k) := by
  obtain ⟨hk, rfl⟩ := List.getElem?_eq_some_iff.mp h
  exact (List.getElem_cons_eraseIdx_perm hk).symm

theorem set_perm_cons (h : l[k]? = some x) (y : α) : (l.set k y).Perm (y :: l.eraseIdx k) := by
  obtain ⟨hk, -⟩ := List.getElem?_eq_some_iff.mp h
  exact List.set_perm_cons_eraseIdx hk y

end Nanvix.Library
