import Mathlib.Data.List.Basic
import Mathlib.Order.Lattice

/-!
# The first greatest candidate of a list

A scan that keeps the best candidate seen so far, and replaces it by a strictly
better one only, ends with the first of the greatest candidates. Which elements
are candidates, and at which value, is a relation.
-/
namespace Nanvix.Library

variable {α β : Type*} [LinearOrder β] {cand : α → β → Prop} {l : List α} {x y : α} {a b : β}

/-- `x` is a candidate at `a`, nothing before it is as great and nothing after it is greater. -/
def FirstMax (cand : α → β → Prop) (l : List α) (x : α) (a : β) : Prop :=
  ∃ l₁ l₂, l = l₁ ++ x :: l₂ ∧ cand x a ∧ (∀ y ∈ l₁, ∀ b, cand y b → b < a) ∧
    ∀ y ∈ l₂, ∀ b, cand y b → b ≤ a

namespace FirstMax

theorem candidate (h : FirstMax cand l x a) : cand x a := by
  obtain ⟨_, _, _, hx, -⟩ := h
  exact hx

/-- Every candidate is at most the greatest one. -/
theorem le (h : FirstMax cand l x a) (hfun : ∀ x a b, cand x a → cand x b → a = b) (hy : y ∈ l)
    (hb : cand y b) : b ≤ a := by
  obtain ⟨l₁, l₂, rfl, hx, hbefore, hafter⟩ := h
  rcases List.mem_append.mp hy with hy | hy
  · exact (hbefore y hy b hb).le
  · rcases List.mem_cons.mp hy with rfl | hy
    · exact (hfun y b a hb hx).le
    · exact hafter y hy b hb

/-- An element that is greater than all before it is the new one. -/
theorem snoc_new (hold : ∀ y ∈ l, ∀ b, cand y b → b < a) (hx : cand x a) :
    FirstMax cand (l ++ [x]) x a :=
  ⟨l, [], rfl, hx, hold, List.forall_mem_nil _⟩

/-- An element that is not greater changes nothing. -/
theorem snoc_old (h : FirstMax cand l x a) (hy : ∀ b, cand y b → b ≤ a) :
    FirstMax cand (l ++ [y]) x a := by
  obtain ⟨l₁, l₂, rfl, hx, hbefore, hafter⟩ := h
  refine ⟨l₁, l₂ ++ [y], by rw [List.append_assoc, List.cons_append], hx, hbefore, ?_⟩
  intro z hz b hb
  rcases List.mem_append.mp hz with hz | hz
  · exact hafter z hz b hb
  · rw [List.mem_singleton.mp hz] at hb
    exact hy b hb

end FirstMax
end Nanvix.Library
