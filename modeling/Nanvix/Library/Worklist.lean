import Mathlib.Data.List.Nodup
import Mathlib.Data.List.Perm.Basic

/-!
# Work lists

A loop that walks a container in chunks and restarts the walk after each chunk
visits, every time, a list of the items that are left. `Worklist key P l` says
that `l` lists the items with `P`, no two of them under one key. Only the set of
items matters for the length of such a list, so the order of each walk is free.
-/
namespace Nanvix.Library

variable {α κ : Type*} {key : α → κ} {P P' : α → Prop} {a : α} {l l' : List α}

/-- A list of all items that satisfy a predicate, with distinct keys. -/
structure Worklist (key : α → κ) (P : α → Prop) (l : List α) : Prop where
  nodup : (l.map key).Nodup
  mem : ∀ a, a ∈ l ↔ P a

/-- Visiting the first item leaves the items under other keys. -/
theorem Worklist.tail (h : Worklist key P (a :: l)) (hP : ∀ b, P' b ↔ P b ∧ key b ≠ key a) :
    Worklist key P' l := by
  have hnd := List.nodup_cons.mp h.nodup
  refine ⟨hnd.2, fun b => ?_⟩
  rw [hP, ← h.mem, List.mem_cons]
  constructor
  · intro hb
    exact ⟨Or.inr hb, fun hkey => hnd.1 (hkey ▸ List.mem_map_of_mem hb)⟩
  · rintro ⟨rfl | hb, hkey⟩
    · exact absurd rfl hkey
    · exact hb

/-- Two lists of the same items are as long. -/
theorem Worklist.length_eq (h : Worklist key P l) (h' : Worklist key P l') :
    l.length = l'.length := by
  have hl : l.Nodup := List.Nodup.of_map key h.nodup
  have hl' : l'.Nodup := List.Nodup.of_map key h'.nodup
  refine List.Perm.length_eq ((List.perm_ext_iff_of_nodup hl hl').mpr fun b => ?_)
  rw [h.mem, h'.mem]

/-- An empty list leaves nothing to visit. -/
theorem Worklist.nil (h : Worklist key P []) (a : α) : ¬P a := by
  rw [← h.mem]
  exact List.not_mem_nil

end Nanvix.Library
