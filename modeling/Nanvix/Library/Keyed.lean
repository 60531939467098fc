import Mathlib.Logic.Function.Basic

/-!
# Machines made of components, one for each key

An input is for the component of its key and leaves the others as they are. What
one component answers to a sequence of inputs depends only on the inputs with its
key, in whatever way they are mixed with the inputs for the others.
-/
namespace Nanvix.Library.Keyed

variable {κ σ ι ο α : Type} [DecidableEq κ] (act : κ → σ → ι → ο × σ)

/-- The members of a list that have a key. -/
def ofKey (k : κ) : List (κ × α) → List α
  | [] => []
  | e :: rest => if e.1 = k then e.2 :: ofKey k rest else ofKey k rest

/-- An input for one component. -/
def step (s : κ → σ) (e : κ × ι) : ο × (κ → σ) :=
  ((act e.1 (s e.1) e.2).1, Function.update s e.1 (act e.1 (s e.1) e.2).2)

/-- The answers to a list of inputs, with their keys, and the state it leaves. -/
def run : (κ → σ) → List (κ × ι) → List (κ × ο) × (κ → σ)
  | s, [] => ([], s)
  | s, e :: rest =>
    let next := step act s e
    ((e.1, next.1) :: (run next.2 rest).1, (run next.2 rest).2)

/-- The answers of one component, and the state it is left in. -/
def runOne (k : κ) : σ → List ι → List ο × σ
  | x, [] => ([], x)
  | x, i :: rest =>
    let next := act k x i
    (next.1 :: (runOne k next.2 rest).1, (runOne k next.2 rest).2)

/-- A component sees its own inputs, and only those. -/
theorem run_ofKey (s : κ → σ) (inputs : List (κ × ι)) (k : κ) :
    runOne act k (s k) (ofKey k inputs) =
      (ofKey k (run act s inputs).1, (run act s inputs).2 k) := by
  induction inputs generalizing s with
  | nil => rfl
  | cons e rest ih =>
    have ih := ih (step act s e).2
    by_cases hk : e.1 = k
    · subst hk
      have hself : (step act s e).2 e.1 = (act e.1 (s e.1) e.2).2 := Function.update_self ..
      rw [hself] at ih
      simp only [ofKey, run, runOne, if_true, ih]
      rfl
    · have hother : (step act s e).2 k = s k := Function.update_of_ne (Ne.symm hk) ..
      rw [hother] at ih
      simp only [ofKey, run, if_neg hk, ih]

/-- The other components do not notice the inputs of one. -/
theorem run_of_ofKey_eq {s : κ → σ} {inputs inputs' : List (κ × ι)} {k : κ}
    (h : ofKey k inputs = ofKey k inputs') :
    ofKey k (run act s inputs).1 = ofKey k (run act s inputs').1 ∧
      (run act s inputs).2 k = (run act s inputs').2 k := by
  have hrun := run_ofKey act s inputs k
  rw [h, run_ofKey act s inputs' k] at hrun
  exact ⟨(Prod.mk.inj hrun).1.symm, (Prod.mk.inj hrun).2.symm⟩

/-- Leaving out the inputs with one key keeps the inputs with another. -/
theorem ofKey_filter_ne {k k' : κ} (h : k' ≠ k) (l : List (κ × α)) :
    ofKey k' (l.filter (·.1 ≠ k)) = ofKey k' l := by
  induction l with
  | nil => rfl
  | cons e rest ih =>
    by_cases hk : e.1 = k
    · simp only [ofKey, List.filter_cons, hk, ne_eq, not_true, decide_false,
        Bool.false_eq_true, if_false, if_neg (Ne.symm h), ih]
    · simp only [List.filter_cons, ne_eq, hk, not_false_eq_true, decide_true, if_true, ofKey, ih]

end Nanvix.Library.Keyed
