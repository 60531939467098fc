import Mathlib.Order.WellFounded

/-!
# What fair runs lead to

An infinite run is a sequence of states with the command taken at each of them.
If a state can be given a rank, if no command raises it, and if at every rank
some kind of command lowers it or reaches the goal, then a run in which each kind
of command is taken again and again reaches the goal. For a message in a channel
the rank is what has to be taken from the channel before it (`Position`).
-/
namespace Nanvix.Library

variable {σ κ ω : Type} {r : ω → ω → Prop}

/-- The rank rule. `Ranked w s` says that `s` is on its way to the goal at rank `w`, and `helps w`
is the kind of command that brings a state of rank `w` closer. -/
theorem exists_of_rank (hwf : WellFounded r) {run : Nat → σ} (command : Nat → κ)
    {goal : σ → Prop} {Ranked : ω → σ → Prop} (helps : ω → κ → Prop)
    (step : ∀ w n, Ranked w (run n) → goal (run (n + 1)) ∨
      (∃ w', r w' w ∧ Ranked w' (run (n + 1))) ∨
      Ranked w (run (n + 1)) ∧ ¬ helps w (command n))
    (fair : ∀ w n, ∃ m, n ≤ m ∧ helps w (command m)) {w : ω} {n : Nat} (h : Ranked w (run n)) :
    ∃ m, n ≤ m ∧ goal (run m) := by
  induction w using hwf.induction generalizing n with
  | _ w ih =>
    obtain ⟨m, hnm, hhelp⟩ := fair w n
    -- The rank stays what it is at most until the helpful command at `m` is taken.
    obtain ⟨d, rfl⟩ := Nat.exists_eq_add_of_le hnm
    induction d generalizing n with
    | zero =>
      rcases step w n h with hgoal | ⟨w', hw', h'⟩ | ⟨_, hnot⟩
      · exact ⟨n + 1, Nat.le_succ n, hgoal⟩
      · obtain ⟨k, hk, hgoal⟩ := ih w' hw' h'
        exact ⟨k, Nat.le_of_succ_le hk, hgoal⟩
      · exact absurd hhelp hnot
    | succ d ihd =>
      rcases step w n h with hgoal | ⟨w', hw', h'⟩ | ⟨h', _⟩
      · exact ⟨n + 1, Nat.le_succ n, hgoal⟩
      · obtain ⟨k, hk, hgoal⟩ := ih w' hw' h'
        exact ⟨k, Nat.le_of_succ_le hk, hgoal⟩
      · have hhelp' : helps w (command (n + 1 + d)) := by
          rwa [Nat.add_right_comm, Nat.add_assoc]
        obtain ⟨k, hk, hgoal⟩ := ihd h' (Nat.le_add_right _ _) hhelp'
        exact ⟨k, Nat.le_of_succ_le hk, hgoal⟩

section Positions
variable {α γ : Type} {pieces : α → List γ} {key : α → Nat} {i count : Nat}
variable {l l' : List α} {ch ch' : List γ}

/-- A channel carries messages in pieces. The one with key `i` is complete once `count` more pieces
have been taken from the channel. -/
def Position (pieces : α → List γ) (key : α → Nat) (i count : Nat) (l : List α) (ch : List γ) :
    Prop :=
  ∃ l₁ x l₂, l = l₁ ++ x :: l₂ ∧ key x = i ∧ count + (l₂.flatMap pieces).length = ch.length

theorem position_nil : ¬ Position pieces key i count [] ch := by
  rintro ⟨l₁, x, l₂, hl, _⟩
  exact List.append_ne_nil_of_right_ne_nil l₁ (List.cons_ne_nil x l₂) hl.symm

theorem position_last {x : α} (l : List α) (ch : List γ) (hx : key x = i) :
    Position pieces key i ch.length (l ++ [x]) ch :=
  ⟨l, x, [], rfl, hx, rfl⟩

/-- What stands behind a message is no more than what stands behind the first. -/
theorem length_behind_le (l₁ : List α) (x : α) (l₂ : List α) :
    (l₂.flatMap pieces).length ≤ ((l₁ ++ x :: l₂).tail.flatMap pieces).length := by
  cases l₁ with
  | nil => exact Nat.le_refl _
  | cons z l₁ =>
    simp only [List.cons_append, List.tail_cons, List.flatMap_append, List.flatMap_cons,
      List.length_append]
    omega

theorem Position.append (h : Position pieces key i count l ch) (l' : List α) :
    Position pieces key i count (l ++ l') (ch ++ l'.flatMap pieces) := by
  obtain ⟨l₁, x, l₂, hl, hx, hcount⟩ := h
  refine ⟨l₁, x, l₂ ++ l', by rw [hl, List.append_assoc, List.cons_append], hx, ?_⟩
  rw [List.flatMap_append, List.length_append, List.length_append]
  omega

/-- A piece is taken, and the messages behind the first are still in the channel. -/
theorem Position.advance {y : γ} (h : Position pieces key i count l (y :: ch))
    (hrest : (l.tail.flatMap pieces).length ≤ ch.length) :
    ∃ m, m < count ∧ Position pieces key i m l ch := by
  obtain ⟨l₁, x, l₂, rfl, hx, hcount⟩ := h
  have hle : (l₂.flatMap pieces).length ≤ ch.length := (length_behind_le l₁ x l₂).trans hrest
  rw [List.length_cons] at hcount
  exact ⟨ch.length - (l₂.flatMap pieces).length, by omega, l₁, x, l₂, rfl, hx, by omega⟩

theorem Position.tail {y : α} (h : Position pieces key i count (y :: l) ch) (hy : key y ≠ i) :
    Position pieces key i count l ch := by
  obtain ⟨l₁, x, l₂, hl, hx, hcount⟩ := h
  cases l₁ with
  | nil =>
    rw [List.nil_append] at hl
    cases hl
    exact absurd hx hy
  | cons z l₁ =>
    cases hl
    exact ⟨l₁, x, l₂, rfl, hx, hcount⟩

theorem exists_position {x : α} (h : x ∈ l) (hx : key x = i)
    (hrest : (l.tail.flatMap pieces).length ≤ ch.length) :
    ∃ count, Position pieces key i count l ch := by
  obtain ⟨l₁, l₂, rfl⟩ := List.append_of_mem h
  have hle : (l₂.flatMap pieces).length ≤ ch.length := (length_behind_le l₁ x l₂).trans hrest
  exact ⟨_, l₁, x, l₂, rfl, hx, Nat.sub_add_cancel hle⟩

end Positions
end Nanvix.Library
