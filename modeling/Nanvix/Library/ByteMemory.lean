import Mathlib.Algebra.Group.Int.Defs
import Mathlib.Algebra.Group.Nat.Defs
import Mathlib.Tactic.SplitIfs

/-!
# Words in a memory of bytes

A memory gives a byte for each address. A word of 32 bits takes four bytes, the
lowest first. A load sees the last store to the same place, and no store to a
place apart. `AgreeOn` says that two memories hold the same bytes at some
addresses, which is all that a load from there depends on.
-/
namespace Nanvix.Library

abbrev Memory := Nat → UInt8

namespace Memory
variable {m m' m'' : Memory} {a b v n : Nat} {S T : Nat → Prop}

/-- The word at an address. -/
def loadWord (m : Memory) (a : Nat) : Nat :=
  (m a).toNat + (m (a + 1)).toNat * 2 ^ 8 + (m (a + 2)).toNat * 2 ^ 16 +
    (m (a + 3)).toNat * 2 ^ 24

/-- Store a word at an address. -/
def storeWord (m : Memory) (a v : Nat) : Memory := fun x =>
  if a ≤ x ∧ x < a + 4 then UInt8.ofNat (v / 2 ^ (8 * (x - a))) else m x

/-- Store a byte at an address. -/
def storeByte (m : Memory) (a : Nat) (byte : UInt8) : Memory := fun x =>
  if x = a then byte else m x

/-- Copy bytes from one place to another. -/
def copy (m : Memory) (src dst n : Nat) : Memory := fun x =>
  if dst ≤ x ∧ x < dst + n then m (src + (x - dst)) else m x

/-- Two memories hold the same bytes at these addresses. -/
def AgreeOn (S : Nat → Prop) (m m' : Memory) : Prop := ∀ x, S x → m x = m' x

theorem AgreeOn.refl (S : Nat → Prop) (m : Memory) : AgreeOn S m m := fun _ _ => rfl

theorem AgreeOn.trans (h : AgreeOn S m m') (h' : AgreeOn S m' m'') : AgreeOn S m m'' :=
  fun x hx => (h x hx).trans (h' x hx)

theorem AgreeOn.mono (h : AgreeOn S m m') (hST : ∀ x, T x → S x) : AgreeOn T m m' :=
  fun x hx => h x (hST x hx)

/-- A load depends on four bytes. -/
theorem loadWord_congr (h : AgreeOn (fun x => a ≤ x ∧ x < a + 4) m m') :
    m.loadWord a = m'.loadWord a := by
  unfold loadWord
  rw [h a (by omega), h (a + 1) (by omega), h (a + 2) (by omega), h (a + 3) (by omega)]

theorem storeWord_of_apart (h : ∀ x, S x → x < a ∨ a + 4 ≤ x) : AgreeOn S (m.storeWord a v) m := by
  intro x hx
  unfold storeWord
  rw [if_neg (by have := h x hx; omega)]

theorem storeByte_of_apart (h : ¬S a) (byte : UInt8) : AgreeOn S (m.storeByte a byte) m := by
  intro x hx
  unfold storeByte
  rw [if_neg (fun hxa : x = a => h (hxa ▸ hx))]

theorem copy_of_apart (h : ∀ x, S x → x < b ∨ b + n ≤ x) : AgreeOn S (m.copy a b n) m := by
  intro x hx
  unfold copy
  rw [if_neg (by have := h x hx; omega)]

theorem copy_apply {i : Nat} (hi : i < n) : m.copy a b n (b + i) = m (a + i) := by
  unfold copy
  rw [if_pos (by omega), Nat.add_sub_cancel_left]

/-- What was stored is loaded. -/
theorem loadWord_storeWord (hv : v < 2 ^ 32) : (m.storeWord a v).loadWord a = v := by
  have hbyte : ∀ i, i < 4 → m.storeWord a v (a + i) = UInt8.ofNat (v / 2 ^ (8 * i)) := by
    intro i hi
    unfold storeWord
    rw [if_pos (by omega), Nat.add_sub_cancel_left]
  have h0 := hbyte 0 (by omega)
  rw [Nat.add_zero] at h0
  unfold loadWord
  rw [h0, hbyte 1 (by omega), hbyte 2 (by omega), hbyte 3 (by omega)]
  simp only [UInt8.toNat_ofNat']
  omega

/-- Storing elsewhere does not change a word. -/
theorem loadWord_storeWord_of_apart (h : a + 4 ≤ b ∨ b + 4 ≤ a) :
    (m.storeWord b v).loadWord a = m.loadWord a :=
  loadWord_congr (storeWord_of_apart fun x hx => by omega)

end Memory
end Nanvix.Library
