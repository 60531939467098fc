import Mathlib.Data.Finset.Card
import Mathlib.Data.Finset.SDiff
import Mathlib.Logic.Relation

/-!
# Depth-first search

A search that looks for a node with `P` keeps the set of nodes it has seen and
the set of nodes it has open: those it has entered and not left. A node that is
seen and no longer open is finished. `Explored` says that no finished node has
`P`, and that every successor of a finished node is seen or open. It holds of an
empty set of seen nodes, and entering and leaving a node keep it.

A search may skip open nodes as well as seen ones: once only the root is open,
what is seen is closed under the edges, so nothing that can be reached has `P`.
-/
namespace Nanvix.Library

variable {α : Type*} {edge : α → α → Prop} {P : α → Prop}
variable {seen opened : Finset α} {x : α}

/-- Finished nodes do not have `P`, and their successors are seen or open. -/
structure Explored (edge : α → α → Prop) (P : α → Prop) (seen opened : Finset α) : Prop where
  missed : ∀ x ∈ seen, x ∉ opened → ¬P x
  next : ∀ x ∈ seen, x ∉ opened → ∀ y, edge x y → y ∈ seen ∨ y ∈ opened

namespace Explored

theorem empty : Explored edge P ∅ opened :=
  ⟨fun _ hx => absurd hx (Finset.notMem_empty _), fun _ hx => absurd hx (Finset.notMem_empty _)⟩

variable [DecidableEq α]

/-- A node that is entered is seen and open. -/
theorem enter (h : Explored edge P seen opened) :
    Explored edge P (insert x seen) (insert x opened) := by
  have hold : ∀ y ∈ insert x seen, y ∉ insert x opened → y ∈ seen ∧ y ∉ opened := by
    intro y hy hclosed
    rw [Finset.mem_insert, not_or] at hclosed
    exact ⟨Finset.mem_of_mem_insert_of_ne hy hclosed.1, hclosed.2⟩
  constructor
  · intro y hy hclosed
    exact h.missed y (hold y hy hclosed).1 (hold y hy hclosed).2
  · intro y hy hclosed z hz
    obtain ⟨hseen, hout⟩ := hold y hy hclosed
    exact (h.next y hseen hout z hz).imp Finset.mem_insert_of_mem Finset.mem_insert_of_mem

/-- A node is left once it is known not to have `P` and its successors were taken care of. -/
theorem leave (h : Explored edge P seen (insert x opened)) (hseen : x ∈ seen) (hmiss : ¬P x)
    (hnext : ∀ y, edge x y → y ∈ seen ∨ y ∈ insert x opened) : Explored edge P seen opened := by
  have hdrop : ∀ y, y ∈ seen ∨ y ∈ insert x opened → y ∈ seen ∨ y ∈ opened := by
    rintro y (hy | hy)
    · exact Or.inl hy
    · rcases Finset.mem_insert.mp hy with rfl | hy
      · exact Or.inl hseen
      · exact Or.inr hy
  constructor
  · intro y hy hout
    by_cases hyx : y = x
    · rw [hyx]
      exact hmiss
    · exact h.missed y hy (by rw [Finset.mem_insert, not_or]; exact ⟨hyx, hout⟩)
  · intro y hy hout z hz
    apply hdrop
    by_cases hyx : y = x
    · exact hnext z (hyx ▸ hz)
    · exact h.next y hy (by rw [Finset.mem_insert, not_or]; exact ⟨hyx, hout⟩) z hz

/-- When only the root is open, the search has missed nothing. -/
theorem not_reached (h : Explored edge P seen {x}) (hmiss : ¬P x)
    (hnext : ∀ y, edge x y → y ∈ seen ∨ y ∈ ({x} : Finset α)) {y : α}
    (hreach : Relation.ReflTransGen edge x y) : ¬P y := by
  have hclosed : y ∈ seen ∨ y = x := by
    induction hreach with
    | refl => exact Or.inr rfl
    | tail _ hyz ih =>
      rename_i b c _
      by_cases hbx : b = x
      · exact (hnext c (hbx ▸ hyz)).imp_right Finset.mem_singleton.mp
      · have hb : b ∈ seen := ih.resolve_right hbx
        have hout : b ∉ ({x} : Finset α) := fun hb => hbx (Finset.mem_singleton.mp hb)
        exact (h.next b hb hout c hyz).imp_right Finset.mem_singleton.mp
  by_cases hyx : y = x
  · rw [hyx]
    exact hmiss
  · exact h.missed y (hclosed.resolve_right hyx) fun hy => hyx (Finset.mem_singleton.mp hy)

end Explored

/-- Fewer nodes are unseen once an unseen one is entered. -/
theorem card_unseen_insert [DecidableEq α] {nodes : Finset α} (hx : x ∈ nodes) (hnew : x ∉ seen) :
    (nodes \ insert x seen).card < (nodes \ seen).card := by
  apply Finset.card_lt_card
  rw [Finset.ssubset_iff_of_subset (Finset.sdiff_subset_sdiff le_rfl (Finset.subset_insert _ _))]
  refine ⟨x, Finset.mem_sdiff.mpr ⟨hx, hnew⟩, fun hmem => ?_⟩
  exact (Finset.mem_sdiff.mp hmem).2 (Finset.mem_insert_self _ _)

end Nanvix.Library
