import Mathlib.Data.List.Nodup
import Mathlib.Data.List.Perm.Basic
import Mathlib.Tactic.SplitIfs

/-!
# Queues and ordered maps

Queues are lists, first member first. A queue that may not be empty has its first
member as a field. Members leave a queue by a test or because their key is least;
either way the others keep their order. Maps are lists of keys and values in the
order of the keys.
-/
namespace Nanvix.Library

variable {α β : Type}
variable {p : α → Bool} {l : List (Nat × β)} {rest : List α} {k : Nat} {v : β} {e : Nat × β}

/-- A queue with at least one member. -/
structure NonEmptyDeque (α : Type) where
  head : α
  tail : List α
  deriving DecidableEq

namespace NonEmptyDeque

def toList (d : NonEmptyDeque α) : List α := d.head :: d.tail

def new (first : α) : NonEmptyDeque α := ⟨first, []⟩

def pushBack (d : NonEmptyDeque α) (x : α) : NonEmptyDeque α := ⟨d.head, d.tail ++ [x]⟩

def append (d : NonEmptyDeque α) (l : List α) : NonEmptyDeque α := ⟨d.head, d.tail ++ l⟩

def map (f : α → β) (d : NonEmptyDeque α) : NonEmptyDeque β := ⟨f d.head, d.tail.map f⟩

/-- A queue to which a member is added, whether or not it had one. -/
def ofPush : List α → α → NonEmptyDeque α
  | [], x => new x
  | y :: ys, x => ⟨y, ys ++ [x]⟩

@[simp] theorem toList_pushBack (d : NonEmptyDeque α) (x : α) :
    (d.pushBack x).toList = d.toList ++ [x] := rfl

@[simp] theorem toList_append (d : NonEmptyDeque α) (l : List α) :
    (d.append l).toList = d.toList ++ l := rfl

@[simp] theorem toList_map (f : α → β) (d : NonEmptyDeque α) :
    (d.map f).toList = d.toList.map f := rfl

@[simp] theorem toList_ofPush (l : List α) (x : α) : (ofPush l x).toList = l ++ [x] := by
  cases l <;> rfl

theorem head_mem (d : NonEmptyDeque α) : d.head ∈ d.toList := List.mem_cons_self

end NonEmptyDeque

/-- The first member that passes a test, and the others. -/
def removeIf (p : α → Bool) : List α → Option (α × List α)
  | [] => none
  | x :: xs => if p x then some (x, xs) else (removeIf p xs).map fun r => (r.1, x :: r.2)

/-- The member taken out is the first that passes the test. -/
theorem removeIf_split {l : List α} {x : α} (h : removeIf p l = some (x, rest)) :
    ∃ l₁ l₂, l = l₁ ++ x :: l₂ ∧ rest = l₁ ++ l₂ ∧ p x = true ∧ ∀ y ∈ l₁, p y = false := by
  induction l generalizing x rest with
  | nil => cases h
  | cons y ys ih =>
    unfold removeIf at h
    split at h
    next hy =>
      cases h
      exact ⟨[], ys, rfl, rfl, hy, List.forall_mem_nil _⟩
    next hy =>
      obtain ⟨⟨z, zs⟩, hz, heq⟩ := Option.map_eq_some_iff.mp h
      cases heq
      obtain ⟨l₁, l₂, rfl, rfl, hpass, hfail⟩ := ih hz
      refine ⟨y :: l₁, l₂, rfl, rfl, hpass, fun z hz => ?_⟩
      rcases List.mem_cons.mp hz with rfl | hz
      · exact Bool.not_eq_true _ ▸ hy
      · exact hfail z hz

theorem removeIf_eq_some {l : List α} {x : α}
    (h : removeIf p l = some (x, rest)) : p x = true ∧ l.Perm (x :: rest) := by
  obtain ⟨l₁, l₂, rfl, rfl, hpass, -⟩ := removeIf_split h
  exact ⟨hpass, List.perm_middle⟩

theorem removeIf_sublist {l : List α} {x : α}
    (h : removeIf p l = some (x, rest)) : rest.Sublist l := by
  obtain ⟨l₁, l₂, rfl, rfl, -, -⟩ := removeIf_split h
  exact (List.Sublist.refl l₁).append (List.sublist_cons_self x l₂)

theorem removeIf_eq_none {l : List α} (h : removeIf p l = none) : ∀ x ∈ l, p x = false := by
  induction l with
  | nil => exact List.forall_mem_nil _
  | cons y ys ih =>
    unfold removeIf at h
    split at h
    next => cases h
    next hy =>
      exact List.forall_mem_cons.mpr ⟨Bool.not_eq_true _ ▸ hy, ih (Option.map_eq_none_iff.mp h)⟩

/-- The first member with the least key, and the others. -/
def removeMin (key : α → Nat) : α → List α → α × List α
  | x, [] => (x, [])
  | x, y :: ys =>
    match removeMin key y ys with
    | (m, rest) => if key m < key x then (m, x :: rest) else (x, y :: ys)

theorem perm_removeMin (key : α → Nat) (x : α) (xs : List α) :
    (x :: xs).Perm ((removeMin key x xs).1 :: (removeMin key x xs).2) := by
  induction xs generalizing x with
  | nil => exact .refl _
  | cons y ys ih =>
    unfold removeMin
    dsimp only
    split
    · exact ((ih y).cons x).trans (.swap _ _ _)
    · exact .refl _

/-- The list with its first member that passes a test changed. -/
def updateFirst (p : α → Bool) (f : α → α) : List α → List α
  | [] => []
  | x :: xs => if p x then f x :: xs else x :: updateFirst p f xs

/-- The place of the member that is changed. -/
theorem updateFirst_split {l : List α} (h : l.any p = true) (f : α → α) :
    ∃ x l₁ l₂, p x = true ∧ l = l₁ ++ x :: l₂ ∧ updateFirst p f l = l₁ ++ f x :: l₂ := by
  induction l with
  | nil => cases h
  | cons y ys ih =>
    unfold updateFirst
    by_cases hy : p y = true
    · exact ⟨y, [], ys, hy, rfl, by rw [if_pos hy]; rfl⟩
    · rw [List.any_cons, Bool.or_eq_true_iff] at h
      obtain ⟨x, l₁, l₂, hx, hl, hu⟩ := ih (h.resolve_left hy)
      exact ⟨x, y :: l₁, l₂, hx, by rw [hl]; rfl, by rw [if_neg hy, hu]; rfl⟩

section OrderedMap

theorem ne_of_notMem_keys {κ : Type} {l : List (κ × β)} {k : κ} (h : k ∉ l.map Prod.fst) :
    ∀ e ∈ l, e.1 ≠ k :=
  fun e he heq => h (List.mem_map.mpr ⟨e, he, heq⟩)

/-- The map with a value for a key, in the place of an older one. -/
def mapInsert (k : Nat) (v : β) : List (Nat × β) → List (Nat × β)
  | [] => [(k, v)]
  | (k', v') :: l =>
    if k < k' then (k, v) :: (k', v') :: l
    else if k = k' then (k, v) :: l
    else (k', v') :: mapInsert k v l

/-- The map without a key. -/
def mapErase (k : Nat) (l : List (Nat × β)) : List (Nat × β) := l.filter fun e => e.1 != k

theorem perm_mapInsert (h : ∀ e ∈ l, e.1 ≠ k) : (mapInsert k v l).Perm ((k, v) :: l) := by
  induction l with
  | nil => exact .refl _
  | cons e l ih =>
    obtain ⟨k', v'⟩ := e
    unfold mapInsert
    split_ifs with hlt heq
    · exact .refl _
    · exact absurd heq.symm (h _ List.mem_cons_self)
    · exact ((ih fun e he => h e (List.mem_cons_of_mem _ he)).cons _).trans (.swap _ _ _)

theorem mem_mapInsert (h : e ∈ mapInsert k v l) : e = (k, v) ∨ e ∈ l := by
  induction l with
  | nil => exact Or.inl (List.mem_singleton.mp h)
  | cons e' l ih =>
    obtain ⟨k', v'⟩ := e'
    unfold mapInsert at h
    split_ifs at h with hlt heq
    · exact List.mem_cons.mp h
    · exact (List.mem_cons.mp h).imp_right (List.mem_cons_of_mem _)
    · rcases List.mem_cons.mp h with h | h
      · exact Or.inr (h ▸ List.mem_cons_self)
      · exact (ih h).imp_right (List.mem_cons_of_mem _)

/-- Keys in order stay in order. -/
theorem pairwise_mapInsert (h : (l.map Prod.fst).Pairwise (· < ·)) :
    ((mapInsert k v l).map Prod.fst).Pairwise (· < ·) := by
  induction l with
  | nil => exact List.pairwise_singleton _ _
  | cons e l ih =>
    obtain ⟨k', v'⟩ := e
    rw [List.map_cons, List.pairwise_cons] at h
    unfold mapInsert
    split_ifs with hlt heq
    · rw [List.map_cons, List.map_cons, List.pairwise_cons, List.pairwise_cons]
      exact ⟨List.forall_mem_cons.mpr ⟨hlt, fun k₁ hk₁ => Nat.lt_trans hlt (h.1 k₁ hk₁)⟩, h⟩
    · rw [List.map_cons, List.pairwise_cons]
      exact ⟨heq ▸ h.1, h.2⟩
    · rw [List.map_cons, List.pairwise_cons]
      refine ⟨?_, ih h.2⟩
      intro k₁ hk₁
      obtain ⟨e, he, rfl⟩ := List.mem_map.mp hk₁
      rcases mem_mapInsert he with rfl | he
      · have hne : k ≠ k' := heq
        change k' < k
        omega
      · exact h.1 e.1 (List.mem_map_of_mem he)

/-- A selection that leaves a new key out does not see it. -/
theorem filter_mapInsert {p : Nat × β → Bool}
    (h : ∀ e ∈ l, e.1 ≠ k) (hp : p (k, v) = false) : (mapInsert k v l).filter p = l.filter p := by
  induction l with
  | nil => simp [mapInsert, hp]
  | cons e l ih =>
    obtain ⟨k', v'⟩ := e
    have hrest := ih fun e he => h e (List.mem_cons_of_mem _ he)
    unfold mapInsert
    split_ifs with hlt heq
    · rw [List.filter_cons_of_neg (by rw [hp]; exact Bool.false_ne_true)]
    · exact absurd heq.symm (h _ List.mem_cons_self)
    · rw [List.filter_cons, List.filter_cons, hrest]

theorem filter_ne_mapInsert (h : k ∉ l.map Prod.fst) : (mapInsert k v l).filter (·.1 ≠ k) = l := by
  have hne := ne_of_notMem_keys h
  rw [filter_mapInsert hne (by simp)]
  exact List.filter_eq_self.mpr fun e he => decide_eq_true (hne e he)

/-- A map over the values does not move the keys. -/
theorem map_mapInsert {γ : Type} (f : Nat × β → γ) :
    (mapInsert k v l).map (fun e => (e.1, f e)) =
      mapInsert k (f (k, v)) (l.map fun e => (e.1, f e)) := by
  induction l with
  | nil => rfl
  | cons e l ih =>
    obtain ⟨k', v'⟩ := e
    simp only [List.map_cons, mapInsert]
    split_ifs with hlt heq
    · rfl
    · rfl
    · rw [List.map_cons, ih]

section Lookup
variable {κ : Type} [BEq κ] [LawfulBEq κ] {l : List (κ × β)} {k : κ}

theorem mem_of_lookup (h : l.lookup k = some v) : (k, v) ∈ l := by
  obtain ⟨l₁, l₂, hsplit, -⟩ := List.lookup_eq_some_iff.mp h
  rw [hsplit]
  exact List.mem_append_right _ List.mem_cons_self

theorem ne_of_lookup_eq_none (h : l.lookup k = none) : ∀ e ∈ l, e.1 ≠ k :=
  fun e he heq => bne_iff_ne.mp (List.lookup_eq_none_iff.mp h e he) heq.symm

theorem exists_lookup_of_mem (h : (k, v) ∈ l) : ∃ v', l.lookup k = some v' ∧ (k, v') ∈ l := by
  cases hlook : l.lookup k with
  | none => exact absurd rfl (ne_of_lookup_eq_none hlook _ h)
  | some v' => exact ⟨v', rfl, mem_of_lookup hlook⟩

omit [BEq κ] [LawfulBEq κ] in
/-- With distinct keys, a key has one value. -/
theorem eq_of_mem {v' : β} (hnodup : (l.map Prod.fst).Nodup) (h : (k, v) ∈ l) (h' : (k, v') ∈ l) :
    v = v' :=
  (Prod.mk.inj (List.inj_on_of_nodup_map hnodup h h' rfl)).2

/-- With distinct keys a member is what its key finds. -/
theorem lookup_of_mem (hnodup : (l.map Prod.fst).Nodup) (h : (k, v) ∈ l) : l.lookup k = some v := by
  obtain ⟨v', hlook, h'⟩ := exists_lookup_of_mem h
  rw [hlook, eq_of_mem hnodup h' h]

end Lookup

theorem mapErase_of_ne (h : ∀ e ∈ l, e.1 ≠ k) : mapErase k l = l := by
  unfold mapErase
  apply List.filter_eq_self.mpr
  intro e he
  exact bne_iff_ne.mpr (h e he)

theorem mapErase_cons_self (k : Nat) (v : β) (l : List (Nat × β)) :
    mapErase k ((k, v) :: l) = mapErase k l := by
  simp [mapErase]

theorem ne_of_mem_mapErase (h : e ∈ mapErase k l) : e.1 ≠ k :=
  bne_iff_ne.mp (List.mem_filter.mp h).2

theorem mem_mapErase_of_ne (h : e ∈ l) (hne : e.1 ≠ k) : e ∈ mapErase k l :=
  List.mem_filter.mpr ⟨h, bne_iff_ne.mpr hne⟩

/-- With distinct keys, taking out a key takes out one member. -/
theorem perm_mapErase (hnodup : (l.map Prod.fst).Nodup)
    (h : (k, v) ∈ l) : l.Perm ((k, v) :: mapErase k l) := by
  induction l with
  | nil => cases h
  | cons e l ih =>
    rw [List.map_cons, List.nodup_cons] at hnodup
    rcases List.mem_cons.mp h with rfl | h
    · rw [mapErase_cons_self, mapErase_of_ne (ne_of_notMem_keys hnodup.1)]
    · have hne : (e.1 != k) = true := by
        apply bne_iff_ne.mpr
        intro heq
        apply hnodup.1
        rw [heq]
        exact List.mem_map_of_mem h
      have hkeep : mapErase k (e :: l) = e :: mapErase k l := by
        simp [mapErase, hne]
      rw [hkeep]
      exact ((ih hnodup.2 h).cons e).trans (.swap _ _ _)

end OrderedMap

end Nanvix.Library
