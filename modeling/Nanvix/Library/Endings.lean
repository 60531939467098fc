import Nanvix.Library.Machine

/-!
# What a run ends in, aborts included

`ends` describes a run by three postconditions: one for a return, one for an
error and one for the message of an abort. With the last one always true it is a
partial-correctness reading, which suits what holds in every state a run reaches
when some calls abort; with the others always true it speaks of the aborts alone.
-/
namespace Nanvix.Library

variable {σ τ ε κ ρ α β : Type}
variable {g : β → Prog σ ε Unit}

namespace Prog

/-- The run from `s` returns into `Q`, fails into `E` or aborts with a message in `A`. -/
def ends (x : Prog σ ε α) (Q : α → σ → Prop) (E : ε → σ → Prop) (A : String → Prop) (s : σ) :
    Prop :=
  match x s with
  | .ok a s' => Q a s'
  | .err e s' => E e s'
  | .abort m => A m

variable {x : Prog σ ε α} {f : α → Prog σ ε β} {s : σ}
variable {Q Q' : α → σ → Prop} {E E' : ε → σ → Prop} {A A' : String → Prop}

@[simp] theorem ends_pure (a : α) : ends (pure a : Prog σ ε α) Q E A s ↔ Q a s := Iff.rfl

@[simp] theorem ends_bind {Q : β → σ → Prop} :
    ends (x >>= f) Q E A s ↔ ends x (fun a s' => ends (f a) Q E A s') E A s := by
  change ends (Prog.bind x f) Q E A s ↔ _
  unfold ends Prog.bind
  cases x s <;> rfl

@[simp] theorem ends_throw (e : ε) : ends (throw e : Prog σ ε α) Q E A s ↔ E e s := Iff.rfl

@[simp] theorem ends_abort (m : String) : ends (abort m : Prog σ ε α) Q E A s ↔ A m := Iff.rfl

@[simp] theorem ends_gets (g : σ → α) : ends (gets g : Prog σ ε α) Q E A s ↔ Q (g s) s := Iff.rfl

@[simp] theorem ends_modify (g : σ → σ) {Q : Unit → σ → Prop} :
    ends (modify g : Prog σ ε Unit) Q E A s ↔ Q () (g s) := Iff.rfl

@[simp] theorem ends_attempt {Q : Except ε α → σ → Prop} :
    ends (attempt x) Q E A s ↔
      ends x (fun a s' => Q (.ok a) s') (fun e s' => Q (.error e) s') A s := by
  unfold ends attempt
  cases x s <;> rfl

@[simp] theorem ends_ofExcept_ok (a : α) :
    ends (ofExcept (.ok a) : Prog σ ε α) Q E A s ↔ Q a s := Iff.rfl

@[simp] theorem ends_ofExcept_error (e : ε) :
    ends (ofExcept (.error e) : Prog σ ε α) Q E A s ↔ E e s := Iff.rfl

variable {c : Prop} {y : Prog σ ε α}

@[simp] theorem ends_ite [Decidable c] :
    ends (if c then x else y) Q E A s ↔ if c then ends x Q E A s else ends y Q E A s := by
  split <;> rfl

/-- Focusing runs the program on the component that is there. -/
theorem ends_focus (view : σ → Option τ) (put : τ → σ → σ) {y : Prog τ ε α} {t : τ}
    (ht : view s = some t) :
    ends (focus view put y) Q E A s ↔
      ends y (fun a t' => Q a (put t' s)) (fun e t' => E e (put t' s)) A t := by
  unfold ends focus
  cases hy : y t <;> simp only [ht, hy]

theorem ends.mono (h : ends x Q E A s) (hQ : ∀ a s', Q a s' → Q' a s')
    (hE : ∀ e s', E e s' → E' e s') (hA : ∀ m, A m → A' m) : ends x Q' E' A' s := by
  unfold ends at h ⊢
  cases hx : x s with
  | ok a s' => rw [hx] at h; exact hQ a s' h
  | err e s' => rw [hx] at h; exact hE e s' h
  | abort m => rw [hx] at h; exact hA m h

theorem ends.weaken (h : ends x Q E A s) (hQ : ∀ a s', Q a s' → Q' a s')
    (hE : ∀ e s', E e s' → E' e s') : ends x Q' E' A s :=
  h.mono hQ hE fun _ ha => ha

/-- A run that fails leaves the state as it was. -/
theorem ends.stays (h : ends x Q (fun _ s' => s' = s) A s) (hE : ∀ e, E' e s)
    (hQ : ∀ a s', Q a s' → Q' a s') : ends x Q' E' A s := by
  refine h.weaken hQ ?_
  rintro e _ rfl
  exact hE e

theorem ends.imp (h : ends x Q E A s) (hQ : ∀ a s', Q a s' → Q' a s') : ends x Q' E A s :=
  h.weaken hQ fun _ _ he => he

theorem ends.total (h : ends x Q (fun _ _ => False) A s) (hQ : ∀ a s', Q a s' → Q' a s') :
    ends x Q' E A s :=
  h.weaken hQ fun _ _ he => he.elim

/-- Two descriptions of one run hold together. -/
theorem ends.and (h : ends x Q E A s) (h' : ends x Q' E' A' s) :
    ends x (fun a s' => Q a s' ∧ Q' a s') (fun e s' => E e s' ∧ E' e s') (fun m => A m ∧ A' m) s := by
  unfold ends at h h' ⊢
  cases hx : x s with
  | ok a s' | err e s' | abort m => rw [hx] at h h'; exact ⟨h, h'⟩

theorem ends.of_ok (h : ends x Q E A s) {a : α} {s' : σ} (hx : x s = .ok a s') : Q a s' := by
  unfold ends at h
  rwa [hx] at h

theorem ends.of_err (h : ends x Q E A s) {e : ε} {s' : σ} (hx : x s = .err e s') : E e s' := by
  unfold ends at h
  rwa [hx] at h

theorem ends.of_abort (h : ends x Q E A s) {m : String} (hx : x s = .abort m) : A m := by
  unfold ends at h
  rwa [hx] at h

/-- A run that neither fails nor aborts returns. -/
theorem ends.exists_ok (h : ends x Q (fun _ _ => False) (fun _ => False) s) :
    ∃ a s', x s = .ok a s' ∧ Q a s' := by
  cases hx : x s with
  | ok a s' => exact ⟨a, s', rfl, h.of_ok hx⟩
  | err e s' => exact (h.of_err hx).elim
  | abort m => exact (h.of_abort hx).elim

theorem ends_true (x : Prog σ ε α) (s : σ) :
    ends x (fun _ _ => True) (fun _ _ => True) (fun _ => True) s := by
  unfold ends
  cases x s <;> trivial

/-- A run that a total description covers is covered whatever is asked of aborts. -/
theorem wp.ends (h : wp x Q E s) : Prog.ends x Q E A s := by
  unfold Prog.ends
  cases hx : x s with
  | ok a s' => exact h.of_ok hx
  | err e s' => exact h.of_err hx
  | abort m => exact absurd hx (h.not_abort m)

/-- A total description and one that leaves the aborts open. -/
theorem wp.and_ends (h : wp x Q E s) (h' : Prog.ends x Q' E' A s) :
    wp x (fun a s' => Q a s' ∧ Q' a s') (fun e s' => E e s' ∧ E' e s') s := by
  unfold wp Prog.ends at *
  cases hx : x s <;> rw [hx] at h h'
  · exact ⟨h, h'⟩
  · exact ⟨h, h'⟩
  · exact h

/-- The loop rule: an invariant indexed by the elements still to come. -/
theorem ends_forEach (I : List β → σ → Prop)
    (step : ∀ b bs s, I (b :: bs) s → ends (g b) (fun _ s' => I bs s') E A s)
    (bs : List β) (h : I bs s) : ends (forEach g bs) (fun _ s' => I [] s') E A s := by
  induction bs generalizing s with
  | nil => exact h
  | cons b bs ih =>
    change ends (g b >>= fun _ => forEach g bs) _ _ _ s
    rw [ends_bind]
    exact (step b bs s h).imp fun _ s' hs => ih hs

/-- A described call leaves a described state. -/
theorem ends.final {I : σ → Prop} {s' : σ} (h : ends x (fun _ t => I t) (fun _ t => I t) A s)
    (hs : (x s).final = some s') : I s' := by
  cases hx : x s with
  | ok a t =>
    rw [hx] at hs
    cases hs
    exact h.of_ok hx
  | err e t =>
    rw [hx] at hs
    cases hs
    exact h.of_err hx
  | abort m =>
    rw [hx] at hs
    cases hs

attribute [irreducible] ends

/-- A program that keeps an invariant, whether it returns or fails, and aborts only as `A` allows. -/
def KeepsIn (A : String → Prop) (I : σ → Prop) (x : Prog σ ε α) : Prop :=
  ∀ s, I s → ends x (fun _ t => I t) (fun _ t => I t) A s

/-- A program that keeps an invariant, whether it returns or fails. -/
abbrev Keeps (I : σ → Prop) (x : Prog σ ε α) : Prop := KeepsIn (fun _ => True) I x

section Keeps
variable {I : σ → Prop}

theorem keeps_pure (a : α) : KeepsIn A I (pure a : Prog σ ε α) := fun _ h => (ends_pure a).mpr h

theorem keeps_throw (e : ε) : KeepsIn A I (throw e : Prog σ ε α) := fun _ h => (ends_throw e).mpr h

theorem keeps_abort (m : String) : Keeps I (abort m : Prog σ ε α) :=
  fun _ _ => (ends_abort m).mpr trivial

theorem keeps_gets (g : σ → α) : KeepsIn A I (gets g : Prog σ ε α) := fun _ h => (ends_gets g).mpr h

theorem keeps_modify {g : σ → σ} (h : ∀ s, I s → I (g s)) :
    KeepsIn A I (modify g : Prog σ ε Unit) :=
  fun s hs => (ends_modify g).mpr (h s hs)

theorem keeps_ofExcept (e : Except ε α) : KeepsIn A I (ofExcept e : Prog σ ε α) := by
  intro s h
  cases e with
  | ok a => exact (ends_ofExcept_ok a).mpr h
  | error e => exact (ends_ofExcept_error e).mpr h

namespace KeepsIn

theorem bind (hx : KeepsIn A I x) (hf : ∀ a, KeepsIn A I (f a)) : KeepsIn A I (x >>= f) :=
  fun s hs => ends_bind.mpr ((hx s hs).imp fun a t ht => hf a t ht)

theorem ret {r : α → β} (hx : KeepsIn A I x) : KeepsIn A I (x >>= fun a => pure (r a)) :=
  hx.bind fun a => keeps_pure (r a)

theorem gets {g : σ → α} (hf : ∀ a, KeepsIn A I (f a)) : KeepsIn A I (Prog.gets g >>= f) :=
  (keeps_gets g).bind hf

theorem attempt (hx : KeepsIn A I x) : KeepsIn A I (Prog.attempt x) :=
  fun s hs => ends_attempt.mpr (hx s hs)

theorem ite [Decidable c] (hx : KeepsIn A I x) (hy : KeepsIn A I y) :
    KeepsIn A I (if c then x else y) := by
  split
  · exact hx
  · exact hy

theorem and {J : σ → Prop} (hI : KeepsIn A I x) (hJ : KeepsIn A J x) :
    KeepsIn A (fun s => I s ∧ J s) x :=
  fun s hs => ((hI s hs.1).and (hJ s hs.2)).mono (fun _ _ h => h) (fun _ _ h => h) fun _ h => h.1

theorem forEach {bs : List β} (h : ∀ b ∈ bs, KeepsIn A I (g b)) :
    KeepsIn A I (Prog.forEach g bs) := by
  induction bs with
  | nil => exact keeps_pure ()
  | cons b bs ih =>
    exact bind (h b List.mem_cons_self)
      fun _ => ih fun b' hb' => h b' (List.mem_cons_of_mem _ hb')

end KeepsIn

end Keeps

/-- A program that keeps an invariant and never fails. -/
def Steady (A : String → Prop) (I : σ → Prop) (x : Prog σ ε α) : Prop :=
  ∀ s, I s → ends x (fun _ t => I t) (fun _ _ => False) A s

section Steady
variable {I : σ → Prop}

theorem steady_pure (a : α) : Steady A I (pure a : Prog σ ε α) := fun _ h => (ends_pure a).mpr h

theorem steady_modify {g : σ → σ} (h : ∀ s, I s → I (g s)) :
    Steady A I (modify g : Prog σ ε Unit) :=
  fun s hs => (ends_modify g).mpr (h s hs)

theorem KeepsIn.steady_attempt (hx : KeepsIn A I x) : Steady A I (Prog.attempt x) :=
  fun s hs => ends_attempt.mpr (hx s hs)

namespace Steady

theorem bind (hx : Steady A I x) (hf : ∀ a, Steady A I (f a)) : Steady A I (x >>= f) :=
  fun s hs => ends_bind.mpr ((hx s hs).imp fun a t ht => hf a t ht)

theorem forEach {bs : List β} (h : ∀ b ∈ bs, Steady A I (g b)) :
    Steady A I (Prog.forEach g bs) := by
  induction bs with
  | nil => exact steady_pure ()
  | cons b bs ih =>
    exact bind (h b List.mem_cons_self)
      fun _ => ih fun b' hb' => h b' (List.mem_cons_of_mem _ hb')

end Steady

end Steady

end Prog

/-- The invariant rule for a machine some of whose calls may abort. -/
theorem Machine.Reach.invariant_of_ends {M : Machine σ ε κ ρ} {guard : κ → σ → Prop} {s₀ s : σ}
    {I : σ → Prop} (h₀ : I s₀) (step : ∀ c s, I s → M.enabled c s = true → guard c s →
      Prog.ends (M.exec c) (fun _ t => I t) (fun _ t => I t) (fun _ => True) s)
    (h : M.Reach guard s₀ s) : I s := by
  induction h with
  | start => exact h₀
  | step c _ henabled hmeets hcall ih => exact (step c _ ih henabled hmeets).final hcall

end Nanvix.Library
