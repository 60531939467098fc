import Mathlib.Algebra.BigOperators.Group.List.Basic
import Mathlib.Algebra.Order.Group.Multiset
import Mathlib.Data.Multiset.ZeroCons
import Mathlib.Data.Multiset.MapFold
import Mathlib.Data.Multiset.UnionInter
import Mathlib.Logic.Relation

/-!
# Collections whose members change in place

A collection evolves along a step relation when each member takes some number of
steps and none is lost or added. What a step keeps of a member is then kept of the
whole collection, with its multiplicities.
-/
namespace Nanvix.Library
open Relation

variable {α β ι : Type*} {R R' : α → α → Prop} {s t u s' t' : Multiset α} {a b : α}

/-- Every member of `s` reaches its counterpart in `t` by steps of `R`. -/
def Evolves (R : α → α → Prop) (s t : Multiset α) : Prop := Multiset.Rel (ReflTransGen R) s t

namespace Evolves

protected theorem refl (s : Multiset α) : Evolves R s s :=
  Multiset.rel_refl_of_refl_on fun _ _ => .refl

protected theorem trans (h : Evolves R s t) (h' : Evolves R t u) : Evolves R s u :=
  Multiset.Rel.trans _ h h'

theorem add (h : Evolves R s t) (h' : Evolves R s' t') : Evolves R (s + s') (t + t') :=
  Multiset.Rel.add h h'

/-- A part of a collection evolves beside the rest of it. -/
theorem beside {r r' : Multiset α} (h : Evolves R s t) (rest : Multiset α) (hr : r = s + rest)
    (hr' : r' = t + rest) : Evolves R r r' := by
  rw [hr, hr']
  exact h.add (.refl rest)

theorem of_eq (h : s = t) : Evolves R s t := h ▸ Evolves.refl s

theorem single (h : R a b) : Evolves R {a} {b} :=
  Multiset.rel_cons_left.mpr ⟨b, 0, .single h, Multiset.rel_zero_left.mpr rfl, rfl⟩

/-- The members of a list each take a step. -/
theorem map {f g : ι → α} {l : List ι} (h : ∀ x ∈ l, R (f x) (g x)) :
    Evolves R (l.map f : Multiset α) (l.map g : Multiset α) := by
  induction l with
  | nil => exact Evolves.refl _
  | cons x l ih =>
    exact Multiset.Rel.cons (.single (h x List.mem_cons_self))
      (ih fun y hy => h y (List.mem_cons_of_mem _ hy))

/-- Collections that each evolve, taken together. -/
theorem sum {f g : ι → Multiset α} {l : List ι} (h : ∀ x ∈ l, Evolves R (f x) (g x)) :
    Evolves R (l.map f).sum (l.map g).sum := by
  induction l with
  | nil => exact Evolves.refl _
  | cons x l ih =>
    rw [List.map_cons, List.map_cons, List.sum_cons, List.sum_cons]
    exact (h x List.mem_cons_self).add (ih fun y hy => h y (List.mem_cons_of_mem _ hy))

theorem exists_of_mem (h : Evolves R s t) (ha : a ∈ s) : ∃ b ∈ t, ReflTransGen R a b :=
  Multiset.exists_mem_of_rel_of_mem h ha

theorem exists_of_mem_right (h : Evolves R s t) (hb : b ∈ t) : ∃ a ∈ s, ReflTransGen R a b :=
  Multiset.exists_mem_of_rel_of_mem (Multiset.rel_flip.mpr h) hb

/-- What a step keeps of a member. -/
theorem eq_of_steps {f : α → β} (hf : ∀ a b, R a b → f a = f b) (h : ReflTransGen R a b) :
    f a = f b := by
  induction h with
  | refl => rfl
  | tail _ hstep ih => exact ih.trans (hf _ _ hstep)

/-- What a step keeps of a member is kept of the collection. -/
theorem map_eq {f : α → β} (hf : ∀ a b, R a b → f a = f b) (h : Evolves R s t) :
    s.map f = t.map f :=
  Multiset.rel_eq.mp (Multiset.rel_map.mpr (Multiset.Rel.mono h fun _ _ _ _ => eq_of_steps hf))

/-- One member takes a step. -/
def Replaces (R : α → α → Prop) (s t : Multiset α) : Prop :=
  ∃ a b rest, R a b ∧ s = a ::ₘ rest ∧ t = b ::ₘ rest

theorem replaces_cons (c : α) (h : ReflTransGen (Replaces R) s t) :
    ReflTransGen (Replaces R) (c ::ₘ s) (c ::ₘ t) := by
  induction h with
  | refl => exact .refl
  | tail _ hstep ih =>
    obtain ⟨a, b, rest, hab, rfl, rfl⟩ := hstep
    exact ih.tail ⟨a, b, c ::ₘ rest, hab, Multiset.cons_swap _ _ _, Multiset.cons_swap _ _ _⟩

theorem replaces_head (h : ReflTransGen R a b) (rest : Multiset α) :
    ReflTransGen (Replaces R) (a ::ₘ rest) (b ::ₘ rest) := by
  induction h with
  | refl => exact .refl
  | tail _ hstep ih => exact ih.tail ⟨_, _, rest, hstep, rfl, rfl⟩

/-- The members can take their steps one after the other. -/
theorem replaces (h : Evolves R s t) : ReflTransGen (Replaces R) s t := by
  induction h with
  | zero => exact .refl
  | cons hab _ ih => exact (replaces_head hab _).trans (replaces_cons _ ih)

/-- A member that no step can change stays. -/
theorem mem_of_stuck (h : Evolves R s t) (ha : a ∈ s) (hstuck : ∀ b, ¬ R a b) : a ∈ t := by
  obtain ⟨b, hb, hab⟩ := h.exists_of_mem ha
  rcases ReflTransGen.cases_head hab with rfl | ⟨c, hac, -⟩
  · exact hb
  · exact absurd hac (hstuck c)

end Evolves
end Nanvix.Library
