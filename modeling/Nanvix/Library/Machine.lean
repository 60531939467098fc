import Mathlib.Tactic.SplitIfs
import Nanvix.Library.Outcome

/-!
# Runs of a machine

A machine offers commands to its users. A command is a program, and it may be
called in the states where it is enabled. A run is a sequence of calls, each of
which may return or fail; what holds at the start and is kept by every call holds
in every state a run reaches. A guard restricts the calls of a run further.
-/
namespace Nanvix.Library

variable {σ ε κ ρ : Type}

/-- The state a call leaves, when it does not abort. -/
def Outcome.final : Outcome σ ε ρ → Option σ
  | .ok _ s => some s
  | .err _ s => some s
  | .abort _ => none

/-- The call returned into a state that passes a test. -/
def Outcome.returns (test : σ → Bool) : Outcome σ ε ρ → Bool
  | .ok _ s => test s
  | .err _ _ => false
  | .abort _ => false

variable {test : σ → Bool} {o : Outcome σ ε ρ}

theorem Outcome.of_returns (h : o.returns test = true) : ∃ a s, o = .ok a s ∧ test s = true := by
  cases o with
  | ok a s => exact ⟨a, s, rfl, h⟩
  | err e s | abort m => cases h

/-- The call failed into a state that passes a test. -/
def Outcome.fails (test : σ → Bool) : Outcome σ ε ρ → Bool
  | .ok _ _ => false
  | .err _ s => test s
  | .abort _ => false

theorem Outcome.of_fails (h : o.fails test = true) : ∃ e s, o = .err e s ∧ test s = true := by
  cases o with
  | ok a s => cases h
  | err e s => exact ⟨e, s, rfl, h⟩
  | abort m => cases h

variable {I : σ → Prop}

/-- A described call leaves a described state. -/
theorem Prog.wp.final {x : Prog σ ε ρ} {s s' : σ}
    (h : Prog.wp x (fun _ t => I t) (fun _ t => I t) s) (hs : (x s).final = some s') : I s' := by
  cases hx : x s with
  | ok a t =>
    rw [hx] at hs
    cases hs
    exact h.of_ok hx
  | err e t =>
    rw [hx] at hs
    cases hs
    exact h.of_err hx
  | abort m => exact absurd hx (h.not_abort m)

structure Machine (σ ε κ ρ : Type) where
  enabled : κ → σ → Bool
  exec : κ → Prog σ ε ρ

namespace Machine
variable (M : Machine σ ε κ ρ) {guard : κ → σ → Prop} {s₀ s s' : σ}

/-- The states that runs from `s₀` reach when each call meets the guard. -/
inductive Reach (guard : κ → σ → Prop) (s₀ : σ) : σ → Prop
  | start : Reach guard s₀ s₀
  | step {s s' : σ} (c : κ) (before : Reach guard s₀ s) (enabled : M.enabled c s = true)
      (meets : guard c s) (call : (M.exec c s).final = some s') : Reach guard s₀ s'

/-- The state after a list of calls. -/
def run : List κ → σ → Option σ
  | [], s => some s
  | c :: cs, s => if M.enabled c s then (M.exec c s).final.bind (run cs) else none

variable {M}

/-- The invariant rule: what every call keeps holds in every state reached. -/
theorem Reach.invariant (h₀ : I s₀) (step : ∀ c s, I s → M.enabled c s = true → guard c s →
      Prog.wp (M.exec c) (fun _ t => I t) (fun _ t => I t) s) (h : M.Reach guard s₀ s) : I s := by
  induction h with
  | start => exact h₀
  | step c _ henabled hmeets hcall ih => exact (step c _ ih henabled hmeets).final hcall

/-- A list of calls that meet the guard everywhere is a run. -/
theorem Reach.of_run {cs : List κ} (h : M.Reach guard s₀ s) (hmeets : ∀ c ∈ cs, ∀ t, guard c t)
    (hrun : M.run cs s = some s') : M.Reach guard s₀ s' := by
  induction cs generalizing s with
  | nil =>
    cases hrun
    exact h
  | cons c cs ih =>
    unfold run at hrun
    split_ifs at hrun with henabled
    obtain ⟨t, ht, hrest⟩ := Option.bind_eq_some_iff.mp hrun
    exact ih (h.step c henabled (hmeets c List.mem_cons_self s) ht)
      (fun d hd => hmeets d (List.mem_cons_of_mem c hd)) hrest

variable (M) in
/-- A run reaches the state that it ends in. -/
theorem exists_reach (s₀ : σ) (cs : List κ) (P : σ → Prop) (hrun : ∃ s ∈ M.run cs s₀, P s) :
    ∃ s, M.Reach (fun _ _ => True) s₀ s ∧ P s := by
  obtain ⟨s, hs, hP⟩ := hrun
  exact ⟨s, Reach.start.of_run (fun _ _ _ => trivial) hs, hP⟩

variable (M) in
/-- The machine that refuses a call that fails a check. -/
def restrict (check : κ → σ → Bool) : Machine σ ε κ ρ :=
  { M with enabled := fun c s => M.enabled c s && check c s }

/-- What the restricted machine reaches is reached under any guard the check decides. -/
theorem Reach.of_restrict {check : κ → σ → Bool} (hcheck : ∀ c s, check c s = true → guard c s)
    (h : (M.restrict check).Reach (fun _ _ => True) s₀ s) : M.Reach guard s₀ s := by
  induction h with
  | start => exact .start
  | step c _ henabled _ hcall ih =>
    obtain ⟨hc, hpass⟩ := Bool.and_eq_true_iff.mp henabled
    exact ih.step c hc (hcheck c _ hpass) hcall

variable (M) in
/-- A run of calls that pass a check reaches the state that it ends in. -/
theorem exists_reach_restrict (check : κ → σ → Bool) (s₀ : σ) (cs : List κ) (P : σ → Prop)
    (hrun : ∃ s ∈ (M.restrict check).run cs s₀, P s) :
    ∃ s, M.Reach (fun c s => check c s = true) s₀ s ∧ P s := by
  obtain ⟨s, hs, hP⟩ := (M.restrict check).exists_reach s₀ cs P hrun
  exact ⟨s, hs.of_restrict fun _ _ hpass => hpass, hP⟩

variable (M) in
/-- The machine whose calls are chosen with the state at hand. -/
def choose {κ' : Type} (pick : σ → κ' → κ) : Machine σ ε κ' ρ where
  enabled c s := M.enabled (pick s c) s
  exec c s := M.exec (pick s c) s

/-- What is reached with calls that are chosen to meet the guard is reached under it. -/
theorem Reach.of_choose {κ' : Type} {pick : σ → κ' → κ} (hpick : ∀ c s, guard (pick s c) s)
    (h : (M.choose pick).Reach (fun _ _ => True) s₀ s) : M.Reach guard s₀ s := by
  induction h with
  | start => exact .start
  | step c _ henabled _ hcall ih => exact ih.step _ henabled (hpick c _) hcall

/-- The machine of a step function that says which commands may be called. -/
def ofStep (step : κ → σ → Option σ) : Machine σ Unit κ Unit where
  enabled c s := (step c s).isSome
  exec c s :=
    match step c s with
    | some s' => .ok () s'
    | none => .abort "not enabled"

theorem Reach.invariant_ofStep {step : κ → σ → Option σ} (h₀ : I s₀)
    (hstep : ∀ c s s', I s → guard c s → step c s = some s' → I s')
    (h : (ofStep step).Reach guard s₀ s) : I s := by
  apply h.invariant h₀
  intro c s hs henabled hmeets
  obtain ⟨s', hs'⟩ := Option.isSome_iff_exists.mp henabled
  have hrun : (ofStep step).exec c s = .ok () s' := by simp only [ofStep, hs']
  rw [Prog.wp_of_ok hrun]
  exact hstep c s s' hs hmeets hs'

end Machine
end Nanvix.Library
