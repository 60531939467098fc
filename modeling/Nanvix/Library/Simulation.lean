import Mathlib.Data.Option.Basic
import Nanvix.Library.Endings

/-!
# Simulation of programs and of machines

One program follows another when, from related states, both return the same
value or both fail, and the states they leave are related again. A machine whose
calls follow those of another one shows the same traces: each call returns what
it returns there.

## Implementation notes

Some errors of the first program may be excused, such as running out of a
resource that the second program does not need. Nothing is asked of an aborted
run either, since it has no next state.
-/
namespace Nanvix.Library

namespace Prog
variable {σ τ ε δ α β : Type}

/-- From `s` and `a` the first program does what the second one does. -/
def follows (excused : ε → Prop) (x : Prog σ ε α) (y : Prog τ δ α) (Q : α → σ → τ → Prop)
    (E : σ → τ → Prop) (s : σ) (a : τ) : Prop :=
  match x s with
  | .ok r s' => ∃ a', y a = .ok r a' ∧ Q r s' a'
  | .err e s' => excused e ∨ ∃ d a', y a = .err d a' ∧ E s' a'
  | .abort _ => True

variable {excused : ε → Prop} {x : Prog σ ε α} {y : Prog τ δ α} {f : α → Prog σ ε β}
variable {g : α → Prog τ δ β} {Q : α → σ → τ → Prop} {E : σ → τ → Prop} {s : σ} {a : τ}

theorem follows_pure {r : α} (h : Q r s a) :
    follows excused (pure r : Prog σ ε α) (pure r : Prog τ δ α) Q E s a := ⟨a, rfl, h⟩

variable {e : ε} {d : δ}

theorem follows_throw (h : E s a) :
    follows excused (throw e : Prog σ ε α) (throw d : Prog τ δ α) Q E s a :=
  Or.inr ⟨d, a, rfl, h⟩

theorem follows_abort {m : String} : follows excused (abort m : Prog σ ε α) y Q E s a := trivial

/-- What the first program has to do, step by step, to follow the second one. -/
theorem follows_iff : follows excused x y Q E s a ↔ ends x (fun r t => ∃ b, y a = .ok r b ∧ Q r t b)
    (fun e t => excused e ∨ ∃ d b, y a = .err d b ∧ E t b) (fun _ => True) s := by
  unfold follows ends
  exact Iff.rfl

theorem follows.mono {Q' : α → σ → τ → Prop} {E' : σ → τ → Prop}
    (h : follows excused x y Q E s a) (hQ : ∀ r t b, Q r t b → Q' r t b)
    (hE : ∀ t b, E t b → E' t b) : follows excused x y Q' E' s a := by
  refine follows_iff.mpr ((follows_iff.mp h).weaken ?_ ?_)
  · rintro r t ⟨b, hy, hb⟩
    exact ⟨b, hy, hQ r t b hb⟩
  · rintro e t (he | ⟨d, b, hy, hb⟩)
    · exact Or.inl he
    · exact Or.inr ⟨d, b, hy, hE t b hb⟩

theorem follows_bind {Q : β → σ → τ → Prop}
    (h : follows excused x y (fun r t b => follows excused (f r) (g r) Q E t b) E s a) :
    follows excused (x >>= f) (y >>= g) Q E s a := by
  refine follows_iff.mpr (ends_bind.mpr ((follows_iff.mp h).weaken ?_ ?_))
  · rintro r t ⟨b, hy, hb⟩
    rw [bind_ok hy]
    exact follows_iff.mp hb
  · rintro e t (he | ⟨d, b, hy, hb⟩)
    · exact Or.inl he
    · exact Or.inr ⟨d, b, bind_err hy, hb⟩

/-- A step of the first program to which no step of the second one corresponds. -/
theorem follows_of_wp {z : Prog τ δ β} {Q : β → σ → τ → Prop}
    (h : wp x (fun r t => follows excused (f r) z Q E t a) (fun e _ => excused e) s) :
    follows excused (x >>= f) z Q E s a :=
  follows_iff.mpr (ends_bind.mpr
    (h.ends.weaken (fun _ _ h => follows_iff.mp h) fun _ _ he => Or.inl he))

/-- Both programs start with the same check. -/
theorem follows_check {c : Prop} [Decidable c] (hE : E s a) (h : ¬c → follows excused x y Q E s a) :
    follows excused (if c then throw e else x) (if c then throw d else y) Q E s a := by
  by_cases hc : c
  · rw [if_pos hc, if_pos hc]
    exact follows_throw hE
  · rw [if_neg hc, if_neg hc]
    exact h hc

/-- The same when the first program goes on after the checked part. -/
theorem follows_check_bind {c : Prop} [Decidable c] {z : Prog τ δ β}
    {Q : β → σ → τ → Prop} (hE : E s a) (h : ¬c → follows excused (x >>= f) z Q E s a) :
    follows excused ((if c then throw e else x) >>= f) (if c then throw d else z) Q E s a := by
  by_cases hc : c
  · rw [if_pos hc, if_pos hc]
    exact Or.inr ⟨d, a, rfl, hE⟩
  · rw [if_neg hc, if_neg hc]
    exact h hc

/-- A program that never fails follows a program that is known to return. -/
theorem follows_ok {r : α} {b : τ} (hy : y a = .ok r b)
    (h : wp x (fun r' t => r' = r ∧ Q r t b) (fun e _ => excused e) s) :
    follows excused x y Q E s a := by
  refine follows_iff.mpr (h.ends.weaken ?_ fun _ _ he => Or.inl he)
  rintro _ t ⟨rfl, hQ⟩
  exact ⟨b, hy, hQ⟩

/-- A program that fails follows a program that is known to fail. -/
theorem follows_err {b : τ} (hy : y a = .err d b)
    (h : wp x (fun _ _ => False) (fun e t => excused e ∨ E t b) s) :
    follows excused x y Q E s a :=
  follows_iff.mpr (h.ends.weaken (fun _ _ h => h.elim)
    fun _ _ he => he.imp_right fun hE => ⟨d, b, hy, hE⟩)

/-- Both runs return one value or both fail, and they end in related states. -/
def mirrors (x : Prog σ ε α) (y : Prog τ δ α) (R : σ → τ → Prop) (s : σ) (a : τ) : Prop :=
  match x s, y a with
  | .ok r s', .ok r' a' => r = r' ∧ R s' a'
  | .err _ s', .err _ a' => R s' a'
  | _, _ => False

variable {R : σ → τ → Prop}

/-- What the first run has to do, step by step, to mirror the second one. -/
theorem mirrors_iff : mirrors x y R s a ↔ wp x (fun r t => ∃ b, y a = .ok r b ∧ R t b)
    (fun _ t => ∃ d b, y a = .err d b ∧ R t b) s := by
  unfold mirrors wp
  cases x s <;> cases y a <;> simp [eq_comm, and_assoc]

theorem mirrors_ok {r : α} {b : τ} (hy : y a = .ok r b)
    (h : wp x (fun r' t => r' = r ∧ R t b) (fun _ _ => False) s) : mirrors x y R s a := by
  refine mirrors_iff.mpr (h.mono ?_ fun _ _ h => h.elim)
  rintro _ t ⟨rfl, hR⟩
  exact ⟨b, hy, hR⟩

/-- Both results are wrapped in the same way. -/
theorem mirrors_map {β : Type} (f : α → β) (h : mirrors x y R s a) :
    mirrors (x >>= fun r => pure (f r)) (y >>= fun r => pure (f r)) R s a := by
  refine mirrors_iff.mpr (wp_bind.mpr ((mirrors_iff.mp h).mono ?_ ?_))
  · rintro r t ⟨b, hy, hR⟩
    exact (wp_pure _).mpr ⟨b, bind_ok hy, hR⟩
  · rintro _ t ⟨d, b, hy, hR⟩
    exact ⟨d, b, bind_err hy, hR⟩

end Prog

namespace Machine
variable {σ τ ε δ κ ρ : Type} {M : Machine σ ε κ ρ} {N : Machine τ δ κ ρ}
variable {guard : κ → σ → Prop} {s t : σ} {a : τ} {calls : List (κ × Option ρ)}

/-- A run with what each call returned, nothing for a call that failed. -/
inductive Trace (M : Machine σ ε κ ρ) (guard : κ → σ → Prop) :
    σ → List (κ × Option ρ) → σ → Prop
  | nil (s : σ) : Trace M guard s [] s
  | ok {s t u : σ} {c : κ} {r : ρ} {calls : List (κ × Option ρ)} (enabled : M.enabled c s = true)
      (meets : guard c s) (call : M.exec c s = .ok r t) (rest : Trace M guard t calls u) :
      Trace M guard s ((c, some r) :: calls) u
  | err {s t u : σ} {c : κ} {e : ε} {calls : List (κ × Option ρ)} (enabled : M.enabled c s = true)
      (meets : guard c s) (call : M.exec c s = .err e t) (rest : Trace M guard t calls u) :
      Trace M guard s ((c, none) :: calls) u

/-- The simulation rule: a machine shows only the traces of a machine it follows. -/
theorem Trace.simulated (excused : ε → Prop) (R : σ → τ → Prop)
    (hexcused : ∀ c s, guard c s → ∀ e t, M.exec c s = .err e t → ¬excused e)
    (step : ∀ c s a, R s a → M.enabled c s = true → guard c s → N.enabled c a = true ∧
      Prog.follows excused (M.exec c) (N.exec c) (fun _ => R) R s a)
    (h : M.Trace guard s calls t) (hR : R s a) :
    ∃ b, N.Trace (fun _ _ => True) a calls b ∧ R t b := by
  induction h generalizing a with
  | nil s => exact ⟨a, .nil a, hR⟩
  | ok henabled hmeets hcall _ ih =>
    obtain ⟨hN, hfollows⟩ := step _ _ a hR henabled hmeets
    unfold Prog.follows at hfollows
    rw [hcall] at hfollows
    obtain ⟨b, hb, hRb⟩ := hfollows
    obtain ⟨u, hu, hRu⟩ := ih hRb
    exact ⟨u, .ok hN trivial hb hu, hRu⟩
  | err henabled hmeets hcall _ ih =>
    obtain ⟨hN, hfollows⟩ := step _ _ a hR henabled hmeets
    unfold Prog.follows at hfollows
    rw [hcall] at hfollows
    obtain ⟨d, b, hb, hRb⟩ := hfollows.resolve_left (hexcused _ _ hmeets _ _ hcall)
    obtain ⟨u, hu, hRu⟩ := ih hRb
    exact ⟨u, .err hN trivial hb hu, hRu⟩

variable (M) in
/-- Every call of a list meets the guard in the state in which it is made. -/
def Along (guard : κ → σ → Prop) : List κ → σ → Prop
  | [], _ => True
  | c :: cs, s => M.enabled c s = true ∧ guard c s ∧
      ∀ t, (M.exec c s).final = some t → Along guard cs t

/-- The simulation rule for calls that never abort: the whole list of calls is run, and it shows
the trace that the other machine shows. -/
theorem Along.mirrored (R : σ → τ → Prop)
    (step : ∀ c s a, R s a → M.enabled c s = true → guard c s → N.enabled c a = true ∧
      Prog.mirrors (M.exec c) (N.exec c) R s a)
    {cs : List κ} (h : M.Along guard cs s) (hR : R s a) :
    ∃ calls t b, calls.map Prod.fst = cs ∧ M.Trace guard s calls t ∧
      N.Trace (fun _ _ => True) a calls b ∧ R t b := by
  induction cs generalizing s a with
  | nil => exact ⟨[], s, a, rfl, .nil s, .nil a, hR⟩
  | cons c cs ih =>
    obtain ⟨henabled, hmeets, hrest⟩ := h
    obtain ⟨hN, hstep⟩ := step c s a hR henabled hmeets
    rw [Prog.mirrors_iff] at hstep
    cases hx : M.exec c s with
    | ok r s' =>
      obtain ⟨a', hy, hR'⟩ := hstep.of_ok hx
      obtain ⟨calls, t, b, hcalls, hM, hN', ht⟩ := ih (hrest s' (by rw [hx]; rfl)) hR'
      exact ⟨(c, some r) :: calls, t, b, by rw [List.map_cons, hcalls],
        .ok henabled hmeets hx hM, .ok hN trivial hy hN', ht⟩
    | err e s' =>
      obtain ⟨d, a', hy, hR'⟩ := hstep.of_err hx
      obtain ⟨calls, t, b, hcalls, hM, hN', ht⟩ := ih (hrest s' (by rw [hx]; rfl)) hR'
      exact ⟨(c, none) :: calls, t, b, by rw [List.map_cons, hcalls],
        .err henabled hmeets hx hM, .err hN trivial hy hN', ht⟩
    | abort m => exact (hstep.not_abort m hx).elim

variable (M) in
/-- The trace of a list of calls that all pass a check, and the state after them. -/
def replay (check : κ → σ → Bool) : List κ → σ → Option (List (κ × Option ρ) × σ)
  | [], s => some ([], s)
  | c :: cs, s =>
    if M.enabled c s && check c s then
      match M.exec c s with
      | .ok r t => (replay check cs t).map fun p => ((c, some r) :: p.1, p.2)
      | .err _ t => (replay check cs t).map fun p => ((c, none) :: p.1, p.2)
      | .abort _ => none
    else none

variable {check : κ → σ → Bool} {cs : List κ}

/-- What is replayed is a trace under any guard the check decides. -/
theorem Trace.of_replay (hcheck : ∀ c s, check c s = true → guard c s)
    (h : M.replay check cs s = some (calls, t)) : M.Trace guard s calls t := by
  induction cs generalizing s calls with
  | nil =>
    cases h
    exact .nil _
  | cons c cs ih =>
    unfold replay at h
    split_ifs at h with henabled
    obtain ⟨hc, hpass⟩ := Bool.and_eq_true_iff.mp henabled
    cases hcall : M.exec c s with
    | ok r u =>
      rw [hcall] at h
      obtain ⟨p, hp, hcalls⟩ := Option.map_eq_some_iff.mp h
      cases hcalls
      exact .ok hc (hcheck c s hpass) hcall (ih hp)
    | err e u =>
      rw [hcall] at h
      obtain ⟨p, hp, hcalls⟩ := Option.map_eq_some_iff.mp h
      cases hcalls
      exact .err hc (hcheck c s hpass) hcall (ih hp)
    | abort m =>
      rw [hcall] at h
      cases h

/-- What is replayed meets the guard all along. -/
theorem Along.of_replay (hcheck : ∀ c s, check c s = true → guard c s)
    (h : (M.replay check cs s).isSome = true) : M.Along guard cs s := by
  induction cs generalizing s with
  | nil => exact trivial
  | cons c cs ih =>
    unfold replay at h
    split_ifs at h with henabled
    · obtain ⟨hc, hpass⟩ := Bool.and_eq_true_iff.mp henabled
      refine ⟨hc, hcheck c s hpass, ?_⟩
      intro t ht
      apply ih
      cases hcall : M.exec c s with
      | ok r u | err e u =>
        rw [hcall] at h ht
        cases ht
        simpa only [Option.isSome_map] using h
      | abort m =>
        rw [hcall] at ht
        cases ht
    · cases h

/-- A machine has one trace for a list of calls. -/
theorem Trace.replay (h : M.Trace guard s calls t) :
    M.replay (fun _ _ => true) (calls.map Prod.fst) s = some (calls, t) := by
  induction h with
  | nil s => rfl
  | ok henabled _ hcall _ ih | err henabled _ hcall _ ih =>
    rw [List.map_cons, Machine.replay, henabled, Bool.and_true, if_pos rfl, hcall]
    dsimp only
    rw [ih]
    rfl

theorem replay_calls (h : M.replay check cs s = some (calls, t)) : calls.map Prod.fst = cs := by
  induction cs generalizing s calls with
  | nil =>
    cases h
    rfl
  | cons c cs ih =>
    unfold Machine.replay at h
    split_ifs at h
    cases hcall : M.exec c s with
    | ok r u | err e u =>
      rw [hcall] at h
      obtain ⟨p, hp, hcalls⟩ := Option.map_eq_some_iff.mp h
      cases hcalls
      rw [List.map_cons, ih hp]
    | abort m =>
      rw [hcall] at h
      cases h

end Machine
end Nanvix.Library
