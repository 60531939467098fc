import Nanvix.Library.Endings
import Nanvix.Library.Simulation

/-!
# Copying a range piece by piece

The loop of a copy between two ranges of addresses: the size of the next piece
depends on the two addresses and on what is left to copy.

## Implementation notes

The loop runs with fuel. Pieces that are not empty use up at least one byte each,
so the number of bytes is enough.
-/
namespace Nanvix.Library.Prog

variable {σ τ ε δ : Type}

def copyLoop (piece : Nat → Nat → Nat → Nat) (body : Nat → Nat → Nat → Prog σ ε Unit) :
    Nat → Nat → Nat → Nat → Prog σ ε Unit
  | 0, _, _, size => if size = 0 then pure () else abort "the copy does not terminate"
  | fuel + 1, dst, src, size =>
    if size = 0 then pure ()
    else do
      let n := piece dst src size
      body dst src n
      copyLoop piece body fuel (dst + n) (src + n) (size - n)

variable {excused : ε → Prop} {piece : Nat → Nat → Nat → Nat}
variable {body : Nat → Nat → Nat → Prog σ ε Unit} {body' : Nat → Nat → Nat → Prog τ δ Unit}
variable {R : σ → τ → Prop}

/-- A copy follows another one that cuts the range into the same pieces. -/
theorem copyLoop_follows {dst src size : Nat} (hbody : ∀ k s a, k < size → R s a →
      follows excused (body (dst + k) (src + k) (piece (dst + k) (src + k) (size - k)))
        (body' (dst + k) (src + k) (piece (dst + k) (src + k) (size - k))) (fun _ => R) R s a)
    (fuel k : Nat) {s : σ} {a : τ} (hR : R s a) :
    follows excused (copyLoop piece body fuel (dst + k) (src + k) (size - k))
      (copyLoop piece body' fuel (dst + k) (src + k) (size - k)) (fun _ => R) R s a := by
  induction fuel generalizing k s a with
  | zero =>
    unfold copyLoop
    split_ifs
    · exact follows_pure hR
    · exact follows_abort
  | succ fuel ih =>
    unfold copyLoop
    split_ifs with hdone
    · exact follows_pure hR
    · refine follows_bind ((hbody k s a (by omega) hR).mono (fun _ t b hRt => ?_) fun _ _ hE => hE)
      have hnext := ih (k + piece (dst + k) (src + k) (size - k)) hRt
      rwa [Nat.sub_add_eq, ← Nat.add_assoc, ← Nat.add_assoc] at hnext

/-- The places at which a copy starts a piece. -/
inductive Cut (piece : Nat → Nat → Nat → Nat) (dst src size : Nat) : Nat → Prop
  | start : Cut piece dst src size 0
  | next {k : Nat} (cut : Cut piece dst src size k) (more : k < size) :
      Cut piece dst src size (k + piece (dst + k) (src + k) (size - k))

/-- Every byte before a cut belongs to a piece that starts before the cut. -/
theorem Cut.exists_piece {dst src size a k : Nat} (h : Cut piece dst src size a) (hk : k < a) :
    ∃ b, Cut piece dst src size b ∧ b < a ∧ b < size ∧ b ≤ k ∧
      k < b + piece (dst + b) (src + b) (size - b) := by
  induction h with
  | start => exact absurd hk (Nat.not_lt_zero k)
  | @next c cut more ih =>
    by_cases hkc : k < c
    · obtain ⟨b, hb, hbc, hrest⟩ := ih hkc
      exact ⟨b, hb, by omega, hrest⟩
    · exact ⟨c, cut, by omega, more, by omega, hk⟩

/-- A piece ends before the next cut. -/
theorem Cut.end_le {dst src size a b : Nat} (ha : Cut piece dst src size a)
    (hb : Cut piece dst src size b) (hlt : a < b)
    (hpos : ∀ dst src size, 0 < size → 0 < piece dst src size) :
    a + piece (dst + a) (src + a) (size - a) ≤ b := by
  induction b using Nat.strongRecOn generalizing a with
  | _ b ih =>
    cases hb with
    | start => exact absurd hlt (Nat.not_lt_zero a)
    | @next c cut more =>
      have hmore := hpos (dst + c) (src + c) (size - c) (by omega)
      rcases Nat.lt_trichotomy a c with hac | rfl | hca
      · have hpiece := ih c (by omega) ha cut hac
        omega
      · exact Nat.le_refl _
      · have hpiece := ih a hlt cut ha hca
        omega

/-- A copy of pieces that are not empty reaches its end when every piece returns. What holds
may depend on how much is copied. -/
theorem copyLoop_wp {I : Nat → σ → Prop} {E : ε → σ → Prop} (dst src size : Nat)
    (hpiece : ∀ dst src size, 0 < size → 0 < piece dst src size ∧ piece dst src size ≤ size)
    (hbody : ∀ k s, Cut piece dst src size k → k < size → I k s →
      wp (body (dst + k) (src + k) (piece (dst + k) (src + k) (size - k)))
        (fun _ t => I (k + piece (dst + k) (src + k) (size - k)) t) E s)
    (fuel k : Nat) (hcut : Cut piece dst src size k) (hk : k ≤ size) (hfuel : size - k ≤ fuel)
    {s : σ} (hI : I k s) :
    wp (copyLoop piece body fuel (dst + k) (src + k) (size - k)) (fun _ t => I size t) E s := by
  induction fuel generalizing k s with
  | zero =>
    obtain rfl : k = size := by omega
    rw [copyLoop, if_pos (Nat.sub_self k), wp_pure]
    exact hI
  | succ fuel ih =>
    unfold copyLoop
    split_ifs with hdone
    · obtain rfl : k = size := by omega
      rw [wp_pure]
      exact hI
    · rw [wp_bind]
      have hmore : k < size := by omega
      obtain ⟨hpos, hle⟩ := hpiece (dst + k) (src + k) (size - k) (by omega)
      refine (hbody k s hcut hmore hI).imp fun _ t ht => ?_
      have hnext := ih (k + piece (dst + k) (src + k) (size - k)) (hcut.next hmore) (by omega)
        (by omega) ht
      rwa [Nat.sub_add_eq, ← Nat.add_assoc, ← Nat.add_assoc] at hnext

/-- A copy keeps what every piece keeps. -/
theorem copyLoop_keeps {I : σ → Prop} (hbody : ∀ dst src n, Keeps I (body dst src n))
    (fuel dst src size : Nat) : Keeps I (copyLoop piece body fuel dst src size) := by
  induction fuel generalizing dst src size with
  | zero => exact KeepsIn.ite (keeps_pure ()) (keeps_abort _)
  | succ fuel ih =>
    exact KeepsIn.ite (keeps_pure ()) ((hbody _ _ _).bind fun _ => ih _ _ _)

end Nanvix.Library.Prog
