import Mathlib.Algebra.BigOperators.Group.Finset.Basic
import Mathlib.Algebra.Order.BigOperators.Group.Finset

/-!
# Counting over a family that is updated at one place

The weight of a family of values is the sum of the weights of its members. An
update at one key changes it by the weights of the old and the new member there,
which is how owner counts follow the tables they are read from.
-/
namespace Nanvix.Library

variable {κ β : Type*}

/-- The sum of the weights of the members of a family. -/
def tally (keys : Finset κ) (weight : β → Nat) (family : κ → β) : Nat :=
  ∑ k ∈ keys, weight (family k)

variable {keys : Finset κ} (weight : β → Nat) (family : κ → β) {k : κ}

/-- Each member weighs at most the tally. -/
theorem weight_le_tally (hk : k ∈ keys) : weight (family k) ≤ tally keys weight family :=
  Finset.single_le_sum (f := fun j => weight (family j)) (fun _ _ => Nat.zero_le _) hk

/-- A family of weightless members tallies to zero. -/
theorem tally_eq_zero {weight : β → Nat} {family : κ → β}
    (h : ∀ j ∈ keys, weight (family j) = 0) : tally keys weight family = 0 :=
  Finset.sum_eq_zero h

/-- Two weights of the members that are present tally apart. -/
theorem tally_elim_add (u v : β → Nat) (family : κ → Option β) :
    tally keys (fun o => o.elim 0 fun b => u b + v b) family =
      tally keys (fun o => o.elim 0 u) family + tally keys (fun o => o.elim 0 v) family := by
  unfold tally
  rw [← Finset.sum_add_distrib]
  refine Finset.sum_congr rfl fun k _ => ?_
  cases family k with
  | none | some b => rfl

variable [DecidableEq κ]

/-- An update exchanges the old weight for the new one. -/
theorem tally_update (hk : k ∈ keys) (b : β) :
    tally keys weight (Function.update family k b) + weight (family k) =
      tally keys weight family + weight b := by
  have hrest : ∑ j ∈ keys.erase k, weight (Function.update family k b j) =
      ∑ j ∈ keys.erase k, weight (family j) := by
    refine Finset.sum_congr rfl fun j hj => ?_
    rw [Function.update_of_ne (Finset.ne_of_mem_erase hj)]
  unfold tally
  rw [← Finset.add_sum_erase keys _ hk, ← Finset.add_sum_erase keys _ hk, hrest,
    Function.update_self]
  omega

/-- A family with one member more than another of weight zero there. -/
theorem tally_update_zero (hk : k ∈ keys) (b : β) (hz : weight (family k) = 0) :
    tally keys weight (Function.update family k b) = tally keys weight family + weight b := by
  have h := tally_update weight family hk b
  omega

/-- An update that keeps the weight keeps the tally. -/
theorem tally_update_eq (hk : k ∈ keys) {b : β} (hw : weight b = weight (family k)) :
    tally keys weight (Function.update family k b) = tally keys weight family := by
  have h := tally_update weight family hk b
  omega

/-- Two members at different keys weigh at most the tally together. -/
theorem weight_add_weight_le_tally {j : κ} (hk : k ∈ keys) (hj : j ∈ keys) (hne : j ≠ k) :
    weight (family k) + weight (family j) ≤ tally keys weight family := by
  unfold tally
  rw [← Finset.add_sum_erase keys _ hk]
  exact Nat.add_le_add_left
    (Finset.single_le_sum (f := fun i => weight (family i)) (fun _ _ => Nat.zero_le _)
      (Finset.mem_erase.mpr ⟨hne, hj⟩)) _

/-- A family over the numbers below `n` gets one more member. -/
theorem tally_extend (family : Nat → β) (n : Nat) (b : β) :
    tally (Finset.range (n + 1)) weight (Function.update family n b) =
      tally (Finset.range n) weight family + weight b := by
  unfold tally
  rw [Finset.sum_range_succ, Function.update_self]
  congr 1
  refine Finset.sum_congr rfl fun j hj => ?_
  rw [Function.update_of_ne (Nat.ne_of_lt (Finset.mem_range.mp hj))]

end Nanvix.Library
