import Mathlib.Data.List.Nodup
import Mathlib.Data.List.Perm.Subperm

/-!
# Putting a list in order by repeated passes

Each element of a list becomes ready once enough others have their place. A pass
goes over the list and places what is ready; passes are repeated until all have
a place or a pass changes nothing. If something is ready as long as anything is
left, every element gets its place, after those it waited for.
-/
namespace Nanvix.Library

variable {κ : Type}
variable {placed all : List κ}

/-- Every element was ready with what stands before it. -/
def InTurn (ready : κ → List κ → Bool) (placed : List κ) : Prop :=
  ∀ l₁ k l₂, placed = l₁ ++ k :: l₂ → ready k l₁ = true

section InTurn
variable {ready : κ → List κ → Bool}

theorem inTurn_nil : InTurn ready [] := by
  intro l₁ k l₂ h
  exact absurd h.symm (List.append_ne_nil_of_right_ne_nil _ (List.cons_ne_nil _ _))

theorem InTurn.concat {k : κ} (h : InTurn ready placed)
    (hk : ready k placed = true) : InTurn ready (placed ++ [k]) := by
  intro l₁ k' l₂ heq
  rcases List.eq_nil_or_concat l₂ with rfl | ⟨l, x, rfl⟩
  · obtain ⟨rfl, hx⟩ := List.append_inj' heq rfl
    rw [← List.head_eq_of_cons_eq hx]
    exact hk
  · have hsplit : placed ++ [k] = (l₁ ++ k' :: l) ++ [x] := by
      rw [heq, List.append_assoc, List.cons_append, List.concat_eq_append]
    exact h l₁ k' l (List.append_inj' hsplit rfl).1

end InTurn

variable [DecidableEq κ] (ready : κ → List κ → Bool)

/-- One pass: the elements that are ready are placed behind the others. -/
def pass : List κ → List κ → List κ
  | [], placed => placed
  | k :: rest, placed =>
    if k ∈ placed then pass rest placed
    else if ready k placed then pass rest (placed ++ [k])
    else pass rest placed

/-- Passes until every element has a place or a pass changes nothing. -/
def passes (all : List κ) : Nat → List κ → Option (List κ)
  | 0, _ => none
  | rounds + 1, placed =>
    let next := pass ready all placed
    if next.length = all.length then some next
    else if next.length = placed.length then some (next ++ all.filter (· ∉ next))
    else passes all rounds next

variable {ready}

/-- What stands after a pass: distinct elements in turn, the old ones first. -/
structure Advanced (ready : κ → List κ → Bool) (all placed next : List κ) : Prop where
  grown : placed <+: next
  nodup : next.Nodup
  inTurn : InTurn ready next
  subset : ∀ k ∈ next, k ∈ placed ∨ k ∈ all

theorem pass_advanced (hnodup : placed.Nodup) (hturn : InTurn ready placed) :
    Advanced ready all placed (pass ready all placed) := by
  induction all generalizing placed with
  | nil => exact ⟨List.prefix_refl _, hnodup, hturn, fun k hk => Or.inl hk⟩
  | cons k rest ih =>
    have hskip : Advanced ready (k :: rest) placed (pass ready rest placed) := by
      obtain ⟨hgrown, hnd, ht, hsub⟩ := ih hnodup hturn
      exact ⟨hgrown, hnd, ht, fun k' hk' => (hsub k' hk').imp_right (List.mem_cons_of_mem _)⟩
    unfold pass
    split_ifs with hmem hready
    · exact hskip
    · have hnd' : (placed ++ [k]).Nodup := by
        rw [List.nodup_append_comm]
        exact List.nodup_cons.mpr ⟨hmem, hnodup⟩
      obtain ⟨hgrown, hnd, ht, hsub⟩ := ih hnd' (hturn.concat hready)
      refine ⟨(List.prefix_append _ _).trans hgrown, hnd, ht, ?_⟩
      intro k' hk'
      rcases hsub k' hk' with hk' | hk'
      · rcases List.mem_append.mp hk' with hk' | hk'
        · exact Or.inl hk'
        · rw [List.mem_singleton] at hk'
          exact Or.inr (hk' ▸ List.mem_cons_self)
      · exact Or.inr (List.mem_cons_of_mem _ hk')
    · exact hskip

/-- What is ready at the beginning of a pass has its place at the end. -/
theorem mem_pass {k : κ} (hmono : ∀ k l l', ready k l = true → l ⊆ l' → ready k l' = true)
    (hnodup : placed.Nodup) (hturn : InTurn ready placed) (hk : k ∈ all)
    (hready : ready k placed = true) : k ∈ pass ready all placed := by
  induction all generalizing placed with
  | nil => cases hk
  | cons k' rest ih =>
    have hadv (l : List κ) (hl : l.Nodup) (ht : InTurn ready l) : l <+: pass ready rest l :=
      (pass_advanced hl ht).grown
    unfold pass
    split_ifs with hmem hready'
    · rcases List.mem_cons.mp hk with rfl | hk
      · exact (hadv _ hnodup hturn).subset hmem
      · exact ih hnodup hturn hk hready
    · have hnd' : (placed ++ [k']).Nodup := by
        rw [List.nodup_append_comm]
        exact List.nodup_cons.mpr ⟨hmem, hnodup⟩
      have ht' := hturn.concat hready'
      rcases List.mem_cons.mp hk with rfl | hk
      · exact (hadv _ hnd' ht').subset (List.mem_append_right _ List.mem_cons_self)
      · exact ih hnd' ht' hk (hmono _ _ _ hready (List.subset_append_left _ _))
    · rcases List.mem_cons.mp hk with rfl | hk
      · exact absurd hready hready'
      · exact ih hnodup hturn hk hready

/-- If something is ready as long as anything is left, the passes place everything in turn. -/
theorem passes_perm {rounds : Nat} (hmono : ∀ k l l', ready k l = true → l ⊆ l' → ready k l' = true)
    (hprogress : ∀ l, (∃ k ∈ all, k ∉ l) → ∃ k ∈ all, k ∉ l ∧ ready k l = true)
    (hall : all.Nodup) (hnodup : placed.Nodup) (hsub : placed ⊆ all)
    (hturn : InTurn ready placed) (hrounds : all.length < rounds + placed.length) :
    ∃ l, passes ready all rounds placed = some l ∧ l.Perm all ∧ InTurn ready l := by
  induction rounds generalizing placed with
  | zero =>
    have hle : placed.length ≤ all.length := (hnodup.subperm hsub).length_le
    omega
  | succ rounds ih =>
    have hadv : Advanced ready all placed (pass ready all placed) := pass_advanced hnodup hturn
    have hsub' : pass ready all placed ⊆ all :=
      fun k hk => (hadv.subset k hk).elim (fun h => hsub h) id
    have hsubperm := hadv.nodup.subperm hsub'
    unfold passes
    simp only
    split_ifs with hdone hstuck
    · exact ⟨_, rfl, hsubperm.perm_of_length_le (Nat.le_of_eq hdone.symm), hadv.inTurn⟩
    · -- A pass that changed nothing has nothing left that is ready.
      exfalso
      have hsame : pass ready all placed = placed :=
        (hadv.grown.eq_of_length hstuck.symm).symm
      have hleft : ∃ k ∈ all, k ∉ placed := by
        by_contra hnone
        simp only [not_exists, not_and, not_not] at hnone
        apply hdone
        rw [hsame]
        exact Nat.le_antisymm ((hnodup.subperm hsub).length_le)
          ((hall.subperm hnone).length_le)
      obtain ⟨k, hk, hnot, hready⟩ := hprogress placed hleft
      exact hnot (hsame ▸ mem_pass hmono hnodup hturn hk hready)
    · have hlt : placed.length < (pass ready all placed).length :=
        Nat.lt_of_le_of_ne hadv.grown.length_le (Ne.symm hstuck)
      exact ih hadv.nodup hsub' hadv.inTurn (by omega)

end Nanvix.Library
