import Mathlib.Logic.Basic

/-!
# Stateful programs that may fail or abort

A program over a state `σ` ends in one of three ways: it returns a value, it
reports an error, or it aborts. The first two keep the state reached so far, as
a routine that returns an error after changing part of its data does. An abort
ends the run and leaves no state behind.

## Implementation notes

`wp` is a total-correctness reading: an abort satisfies no postcondition. It is
irreducible, so that a proof works with its rules and not with the run itself.
-/
namespace Nanvix.Library

/-- How a run ends. -/
inductive Outcome (σ ε α : Type) where
  | ok (value : α) (state : σ)
  | err (error : ε) (state : σ)
  | abort (message : String)

/-- A program reads a state and ends with an outcome. -/
def Prog (σ ε α : Type) : Type := σ → Outcome σ ε α

namespace Prog
variable {σ τ ε α β : Type}

/-- Running the second program on what the first one leaves, when it returns. -/
protected def bind (x : Prog σ ε α) (f : α → Prog σ ε β) : Prog σ ε β := fun s =>
  match x s with
  | .ok a s' => f a s'
  | .err e s' => .err e s'
  | .abort m => .abort m

instance : Monad (Prog σ ε) where
  pure a := fun s => .ok a s
  bind := Prog.bind

/-- Report an error, keeping the state. -/
def throw (e : ε) : Prog σ ε α := fun s => .err e s

/-- End the run. -/
def abort (message : String) : Prog σ ε α := fun _ => .abort message

/-- Read the state through a function. -/
def gets (f : σ → α) : Prog σ ε α := fun s => .ok (f s) s

/-- Change the state. -/
def modify (f : σ → σ) : Prog σ ε Unit := fun s => .ok () (f s)

/-- Run a program and hand its result or its error to the caller. -/
def attempt (x : Prog σ ε α) : Prog σ ε (Except ε α) := fun s =>
  match x s with
  | .ok a s' => .ok (.ok a) s'
  | .err e s' => .ok (.error e) s'
  | .abort m => .abort m

/-- A pure result as a program that leaves the state alone. -/
def ofExcept (x : Except ε α) : Prog σ ε α := fun s =>
  match x with
  | .ok a => .ok a s
  | .error e => .err e s

/-- Run a program on one component of the state, if the component is there. -/
def focus (view : σ → Option τ) (put : τ → σ → σ) (x : Prog τ ε α) : Prog σ ε α := fun s =>
  match view s with
  | none => .abort "no such component"
  | some t =>
    match x t with
    | .ok a t' => .ok a (put t' s)
    | .err e t' => .err e (put t' s)
    | .abort m => .abort m

/-- Run a program on every element of a list, in order, stopping at the first error. -/
def forEach (f : β → Prog σ ε Unit) : List β → Prog σ ε Unit
  | [] => pure ()
  | b :: bs => do f b; forEach f bs

section Bind
variable {x : Prog σ ε α} {f : α → Prog σ ε β} {s t : σ} {e : ε}

/-- A first step that is known to return. -/
theorem bind_ok {r : α} (h : x s = .ok r t) : (x >>= f) s = f r t := by
  change Prog.bind x f s = f r t
  unfold Prog.bind
  rw [h]

theorem bind_err (h : x s = .err e t) : (x >>= f) s = .err e t := by
  change Prog.bind x f s = .err e t
  unfold Prog.bind
  rw [h]

theorem bind_abort {m : String} (h : x s = .abort m) : (x >>= f) s = .abort m := by
  change Prog.bind x f s = .abort m
  unfold Prog.bind
  rw [h]

theorem bind_eq_ok {b : β} (h : (x >>= f) s = .ok b t) :
    ∃ a s', x s = .ok a s' ∧ f a s' = .ok b t := by
  cases hx : x s with
  | ok a s' => exact ⟨a, s', rfl, (bind_ok hx).symm.trans h⟩
  | err e s' => cases (bind_err hx).symm.trans h
  | abort m => cases (bind_abort hx).symm.trans h

/-- A sequence fails in its first step or after it. -/
theorem bind_eq_err (h : (x >>= f) s = .err e t) :
    x s = .err e t ∨ ∃ a s', x s = .ok a s' ∧ f a s' = .err e t := by
  cases hx : x s with
  | ok a s' => exact Or.inr ⟨a, s', rfl, (bind_ok hx).symm.trans h⟩
  | err e' s' =>
    cases (bind_err hx).symm.trans h
    exact Or.inl rfl
  | abort m => cases (bind_abort hx).symm.trans h

variable {g : Except ε α → Prog σ ε β}

theorem attempt_bind_ok {r : α} (h : x s = .ok r t) : (attempt x >>= g) s = g (.ok r) t :=
  bind_ok (by rw [attempt, h])

theorem attempt_bind_err (h : x s = .err e t) : (attempt x >>= g) s = g (.error e) t :=
  bind_ok (by rw [attempt, h])

theorem attempt_bind_abort {m : String} (h : x s = .abort m) : (attempt x >>= g) s = .abort m :=
  bind_abort (by rw [attempt, h])

theorem attempt_bind_eq_err (h : (attempt x >>= g) s = .err e t) :
    ∃ r s', g r s' = .err e t ∧
      match r with
      | .ok a => x s = .ok a s'
      | .error e' => x s = .err e' s' := by
  cases hx : x s with
  | ok a s' => exact ⟨.ok a, s', (attempt_bind_ok hx).symm.trans h, rfl⟩
  | err e' s' => exact ⟨.error e', s', (attempt_bind_err hx).symm.trans h, rfl⟩
  | abort m => cases (attempt_bind_abort hx).symm.trans h

end Bind

/-- The run from `s` returns into `Q` or fails into `E`, and does not abort. -/
def wp (x : Prog σ ε α) (Q : α → σ → Prop) (E : ε → σ → Prop) (s : σ) : Prop :=
  match x s with
  | .ok a s' => Q a s'
  | .err e s' => E e s'
  | .abort _ => False

variable {x : Prog σ ε α} {f : α → Prog σ ε β} {s : σ}
variable {Q Q' : α → σ → Prop} {E E' : ε → σ → Prop}

@[simp] theorem wp_pure (a : α) : wp (pure a : Prog σ ε α) Q E s ↔ Q a s := Iff.rfl

@[simp] theorem wp_bind {Q : β → σ → Prop} :
    wp (x >>= f) Q E s ↔ wp x (fun a s' => wp (f a) Q E s') E s := by
  change wp (Prog.bind x f) Q E s ↔ _
  unfold wp Prog.bind
  cases x s <;> rfl

@[simp] theorem wp_throw (e : ε) : wp (throw e : Prog σ ε α) Q E s ↔ E e s := Iff.rfl

@[simp] theorem wp_gets (g : σ → α) : wp (gets g : Prog σ ε α) Q E s ↔ Q (g s) s := Iff.rfl

@[simp] theorem wp_modify (g : σ → σ) {Q : Unit → σ → Prop} :
    wp (modify g : Prog σ ε Unit) Q E s ↔ Q () (g s) := Iff.rfl

@[simp] theorem wp_attempt {Q : Except ε α → σ → Prop} :
    wp (attempt x) Q E s ↔
      wp x (fun a s' => Q (.ok a) s') (fun e s' => Q (.error e) s') s := by
  unfold wp attempt
  cases x s <;> rfl

@[simp] theorem wp_ofExcept_ok (a : α) :
    wp (ofExcept (.ok a) : Prog σ ε α) Q E s ↔ Q a s := Iff.rfl

@[simp] theorem wp_ofExcept_error (e : ε) :
    wp (ofExcept (.error e) : Prog σ ε α) Q E s ↔ E e s := Iff.rfl

@[simp] theorem wp_ite {c : Prop} [Decidable c] {y : Prog σ ε α} :
    wp (if c then x else y) Q E s ↔ if c then wp x Q E s else wp y Q E s := by
  split <;> rfl

/-- Focusing runs the program on the component that is there. -/
theorem wp_focus (view : σ → Option τ) (put : τ → σ → σ) {y : Prog τ ε α} {t : τ}
    (ht : view s = some t) :
    wp (focus view put y) Q E s ↔
      wp y (fun a t' => Q a (put t' s)) (fun e t' => E e (put t' s)) t := by
  unfold wp focus
  cases hy : y t <;> simp only [ht, hy]

/-- A run that is known to return. -/
theorem wp_of_ok {r : α} {t : σ} (h : x s = .ok r t) : wp x Q E s ↔ Q r t := by
  unfold wp
  rw [h]

/-- A run that is known to fail. -/
theorem wp_of_err {e : ε} {t : σ} (h : x s = .err e t) : wp x Q E s ↔ E e t := by
  unfold wp
  rw [h]

/-- Consequence: a run may be described by anything its postconditions imply. -/
theorem wp.mono (h : wp x Q E s) (hQ : ∀ a s', Q a s' → Q' a s')
    (hE : ∀ e s', E e s' → E' e s') : wp x Q' E' s := by
  unfold wp at h ⊢
  cases hx : x s with
  | ok a s' => rw [hx] at h; exact hQ a s' h
  | err e s' => rw [hx] at h; exact hE e s' h
  | abort m => rw [hx] at h; exact h

/-- A run that fails leaves the state as it was. -/
theorem wp.stays (h : wp x Q (fun _ s' => s' = s) s) (hE : ∀ e, E' e s)
    (hQ : ∀ a s', Q a s' → Q' a s') : wp x Q' E' s := by
  refine h.mono hQ ?_
  rintro e _ rfl
  exact hE e

theorem wp.imp (h : wp x Q E s) (hQ : ∀ a s', Q a s' → Q' a s') : wp x Q' E s :=
  h.mono hQ fun _ _ he => he

/-- A run that is known to return may be described without its errors. -/
theorem wp.total (h : wp x Q (fun _ _ => False) s) (hQ : ∀ a s', Q a s' → Q' a s') : wp x Q' E s :=
  h.mono hQ fun _ _ he => he.elim

/-- Two descriptions of one run hold together. -/
theorem wp.and (h : wp x Q E s) (h' : wp x Q' E' s) :
    wp x (fun a s' => Q a s' ∧ Q' a s') (fun e s' => E e s' ∧ E' e s') s := by
  unfold wp at h h' ⊢
  cases hx : x s with
  | ok a s' | err e s' => rw [hx] at h h'; exact ⟨h, h'⟩
  | abort m => rw [hx] at h; exact h

/-- What a description says of a run that returned. -/
theorem wp.of_ok (h : wp x Q E s) {a : α} {s' : σ} (hx : x s = .ok a s') : Q a s' := by
  unfold wp at h
  rwa [hx] at h

/-- What a description says of a run that failed. -/
theorem wp.of_err (h : wp x Q E s) {e : ε} {s' : σ} (hx : x s = .err e s') : E e s' := by
  unfold wp at h
  rwa [hx] at h

/-- A described run does not abort. -/
theorem wp.not_abort (h : wp x Q E s) (m : String) : x s ≠ .abort m := by
  intro hx
  unfold wp at h
  rwa [hx] at h

/-- A run that neither aborts nor fails returns. -/
theorem wp.exists_ok (h : wp x Q (fun _ _ => False) s) : ∃ a s', x s = .ok a s' ∧ Q a s' := by
  cases hx : x s with
  | ok a s' => exact ⟨a, s', rfl, h.of_ok hx⟩
  | err e s' => exact (h.of_err hx).elim
  | abort m => exact absurd hx (h.not_abort m)

/-- A run that neither returns nor aborts fails. -/
theorem wp.exists_err (h : wp x (fun _ _ => False) E s) : ∃ e s', x s = .err e s' ∧ E e s' := by
  cases hx : x s with
  | ok a s' => exact (h.of_ok hx).elim
  | err e s' => exact ⟨e, s', rfl, h.of_err hx⟩
  | abort m => exact absurd hx (h.not_abort m)

/-- The loop rule: an invariant indexed by the elements still to come. -/
theorem wp_forEach {g : β → Prog σ ε Unit} (I : List β → σ → Prop)
    (step : ∀ b bs s, I (b :: bs) s → wp (g b) (fun _ s' => I bs s') E s)
    (bs : List β) (h : I bs s) : wp (forEach g bs) (fun _ s' => I [] s') E s := by
  induction bs generalizing s with
  | nil => exact h
  | cons b bs ih =>
    change wp (g b >>= fun _ => forEach g bs) _ _ s
    rw [wp_bind]
    exact (step b bs s h).imp fun _ s' hs => ih hs

/-- The loop rule over consecutive numbers. -/
theorem wp_forEach_range' {g : Nat → Prog σ ε Unit} (I : Nat → σ → Prop) (start count : Nat)
    (step : ∀ k s, k < count → I k s → wp (g (start + k)) (fun _ s' => I (k + 1) s') E s)
    (h : I 0 s) : wp (forEach g (List.range' start count)) (fun _ s' => I count s') E s := by
  induction count generalizing start I s with
  | zero => exact h
  | succ count ih =>
    change wp (g start >>= fun _ => forEach g (List.range' (start + 1) count)) _ _ s
    rw [wp_bind]
    refine (step 0 s (Nat.succ_pos count) h).imp fun _ s' hs => ?_
    refine ih (fun k => I (k + 1)) (start + 1) (fun k t hk ht => ?_) hs
    rw [Nat.add_right_comm]
    exact step (k + 1) t (Nat.succ_lt_succ hk) ht

attribute [irreducible] wp

end Prog
end Nanvix.Library
