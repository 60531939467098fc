import Mathlib.Algebra.Group.Nat.Defs
import Mathlib.Data.List.MinMax
import Mathlib.Data.List.Sort
import Nanvix.Library.Containers

/-!
# The cache of recently used values

The cache stamps an entry with a counter at every use and evicts the entry with
the least stamp. It is compared with a cache that keeps its keys in the order of
their use, the latest first, and for each key the value last put or written.

## Implementation notes

A `BTreeMap` is a list in the order of its keys. The changes that are made through
`get_mut` put an entry in the place of an older one. The guard that `get` returns
is a function `write` from the value it finds to the value it leaves.
-/
namespace Nanvix

variable {K V : Type} [LinearOrder K]

structure CacheEntry (V : Type) where
  value : V
  lastUsed : Nat

structure Cache (K V : Type) where
  entries : List (K × CacheEntry V)
  counter : Nat
  capacity : Nat

/-- The operations of a cache. -/
inductive CacheOp (K V : Type) where
  | get (key : K) (write : V → V)
  | put (key : K) (value : V)
  | remove (key : K)
  | clear

/-- The operations that count as an access. -/
def CacheOp.isAccess : CacheOp K V → Bool
  | .get _ _ | .put _ _ => true
  | .remove _ | .clear => false

namespace Cache

def new (capacity : Nat) : Cache K V := ⟨[], 0, capacity⟩

def remove (key : K) (c : Cache K V) : Cache K V :=
  { c with entries := c.entries.filter (·.1 ≠ key) }

def clear (c : Cache K V) : Cache K V := { c with entries := [], counter := 0 }

/-- The entry of a key gets a value and the next stamp. -/
def stamp (key : K) (value : V) (c : Cache K V) : Cache K V :=
  let counter := (c.counter + 1) % 2 ^ 64
  { c with
    counter := counter
    entries := (c.remove key).entries.orderedInsert (fun a b => a.1 ≤ b.1)
      (key, ⟨value, counter⟩) }

def get (key : K) (write : V → V) (c : Cache K V) : Option V × Cache K V :=
  match c.entries.lookup key with
  | some entry => (some entry.value, c.stamp key (write entry.value))
  | none => (none, c)

def evict (c : Cache K V) : Cache K V :=
  match c.entries.argmin (·.2.lastUsed) with
  | some victim => c.remove victim.1
  | none => c

def put (key : K) (value : V) (c : Cache K V) : Cache K V :=
  if c.capacity = 0 then c
  else match c.entries.lookup key with
    | some _ => c.stamp key value
    | none => (if c.capacity ≤ c.entries.length then c.evict else c).stamp key value

/-- What an operation answers, and the cache after it. -/
def exec : CacheOp K V → Cache K V → Option V × Cache K V
  | .get key write, c => c.get key write
  | .put key value, c => (none, c.put key value)
  | .remove key, c => (none, c.remove key)
  | .clear, c => (none, c.clear)

end Cache

/-- The reference: the keys that are held, the latest used first, and for every key the value that
was last put or written. -/
structure Lru (K V : Type) where
  capacity : Nat
  keys : List K := []
  last : K → Option V := fun _ => none

namespace Lru

/-- The key is the latest. -/
def use (key : K) (value : Option V) (s : Lru K V) : Lru K V :=
  { s with keys := key :: s.keys.filter (· ≠ key), last := Function.update s.last key value }

def exec : CacheOp K V → Lru K V → Option V × Lru K V
  | .get key write, s =>
    if key ∈ s.keys then (s.last key, s.use key ((s.last key).map write)) else (none, s)
  | .put key value, s =>
    if s.capacity = 0 then (none, s)
    else if key ∈ s.keys ∨ s.keys.length < s.capacity then (none, s.use key (some value))
    else (none, use key (some value) { s with keys := s.keys.dropLast })
  | .remove key, s => (none, { s with keys := s.keys.filter (· ≠ key) })
  | .clear, s => (none, { s with keys := [] })

end Lru

/-- The answers to a sequence of operations, and the state after it. -/
def runOps {σ : Type} (exec : CacheOp K V → σ → Option V × σ) :
    List (CacheOp K V) → σ → List (Option V) × σ
  | [], s => ([], s)
  | op :: ops, s =>
    let r := runOps exec ops (exec op s).2
    ((exec op s).1 :: r.1, r.2)

/-- The entries of the cache in the order of their stamps are those of the reference. -/
structure Tracks (c : Cache K V) (s : Lru K V) (es : List (K × CacheEntry V)) : Prop where
  perm : es.Perm c.entries
  recent : es.Pairwise fun a b => b.2.lastUsed < a.2.lastUsed
  used : ∀ e ∈ es, e.2.lastUsed ≤ c.counter
  nodup : s.keys.Nodup
  keys : es.map Prod.fst = s.keys
  last : ∀ e ∈ es, s.last e.1 = some e.2.value
  capacity : c.capacity = s.capacity

namespace Tracks
variable {c : Cache K V} {s : Lru K V} {es : List (K × CacheEntry V)}

section
variable (h : Tracks c s es)
include h

omit [LinearOrder K] in
theorem length_eq : c.entries.length = s.keys.length := by
  rw [← h.perm.length_eq, ← h.keys, List.length_map]

/-- What is found is held, with the value that was last put or written. -/
theorem of_lookup_some {key : K} {entry : CacheEntry V}
    (hlook : c.entries.lookup key = some entry) :
    key ∈ s.keys ∧ s.last key = some entry.value := by
  have hmem := h.perm.mem_iff.mpr (Library.mem_of_lookup hlook)
  exact ⟨h.keys ▸ List.mem_map_of_mem hmem, h.last _ hmem⟩

theorem of_lookup_none {key : K} (hlook : c.entries.lookup key = none) : key ∉ s.keys := by
  rw [← h.keys]
  intro hkey
  obtain ⟨e, he, rfl⟩ := List.mem_map.mp hkey
  exact Library.ne_of_lookup_eq_none hlook e (h.perm.mem_iff.mp he) rfl

theorem remove (key : K) :
    Tracks (c.remove key) { s with keys := s.keys.filter (· ≠ key) } (es.filter (·.1 ≠ key)) where
  perm := h.perm.filter _
  recent := h.recent.filter _
  used e he := h.used e (List.mem_of_mem_filter he)
  nodup := h.nodup.filter _
  keys := by
    rw [← h.keys, List.filter_map]
    rfl
  last e he := h.last e (List.mem_of_mem_filter he)
  capacity := h.capacity

/-- The key that is used last gets the greatest stamp. -/
theorem stamp (hlt : c.counter + 1 < 2 ^ 64) (key : K) (value : V) :
    Tracks (c.stamp key value) (s.use key (some value))
      ((key, ⟨value, c.counter + 1⟩) :: es.filter (·.1 ≠ key)) := by
  have hrest := h.remove key
  have hcounter : (c.counter + 1) % 2 ^ 64 = c.counter + 1 := Nat.mod_eq_of_lt hlt
  constructor
  case perm =>
    rw [Cache.stamp, hcounter]
    exact (hrest.perm.cons _).trans (List.perm_orderedInsert ..).symm
  case recent =>
    exact List.pairwise_cons.mpr ⟨fun e he => Nat.lt_succ_of_le (hrest.used e he), hrest.recent⟩
  case used =>
    rw [Cache.stamp, hcounter]
    exact List.forall_mem_cons.mpr ⟨Nat.le_refl _, fun e he => Nat.le_succ_of_le (hrest.used e he)⟩
  case nodup =>
    refine List.nodup_cons.mpr ⟨fun hmem => ?_, hrest.nodup⟩
    simpa using List.of_mem_filter hmem
  case keys => exact congrArg (key :: ·) hrest.keys
  case last =>
    refine List.forall_mem_cons.mpr ⟨Function.update_self .., fun e he => ?_⟩
    have hne : e.1 ≠ key := by simpa using List.of_mem_filter he
    exact (Function.update_of_ne hne ..).trans (hrest.last e he)
  case capacity => exact h.capacity

/-- The entry with the least stamp is that of the key used longest ago. -/
theorem evict : ∃ es', Tracks c.evict { s with keys := s.keys.dropLast } es' := by
  unfold Cache.evict
  cases hmin : c.entries.argmin (·.2.lastUsed) with
  | none =>
    rw [List.argmin_eq_none] at hmin
    have hkeys : s.keys = [] := List.length_eq_zero_iff.mp (by rw [← h.length_eq, hmin]; rfl)
    refine ⟨es, ?_⟩
    rw [show s.keys.dropLast = s.keys by rw [hkeys]; rfl]
    exact h
  | some victim =>
    have hmem := h.perm.mem_iff.mpr (List.argmin_mem hmin)
    obtain ⟨front, x, hes⟩ : ∃ front x, es = front ++ [x] :=
      (List.eq_nil_or_concat' es).resolve_left (List.ne_nil_of_mem hmem)
    have hlast : victim = x := by
      rw [hes] at hmem
      rcases List.mem_append.mp hmem with hfront | hx
      · have hx : x ∈ es := hes ▸ List.mem_append_right front List.mem_cons_self
        have hle := List.le_of_mem_argmin (h.perm.mem_iff.mp hx) hmin
        have hlt := (List.pairwise_append.mp (hes ▸ h.recent)).2.2 _ hfront x List.mem_cons_self
        exact absurd hle (Nat.not_le.mpr hlt)
      · exact List.mem_singleton.mp hx
    have hkeys : s.keys = front.map Prod.fst ++ [victim.1] := by
      rw [← h.keys, hes, List.map_append, hlast]
      rfl
    have hdrop : s.keys.filter (· ≠ victim.1) = s.keys.dropLast := by
      have hnodup := h.nodup
      rw [hkeys, List.nodup_append] at hnodup
      rw [hkeys, List.dropLast_concat, List.filter_append, List.filter_eq_self.mpr fun k hk =>
        decide_eq_true (hnodup.2.2 k hk _ List.mem_cons_self)]
      simp
    exact ⟨_, hdrop ▸ h.remove victim.1⟩

/-- An operation is answered as the reference answers it. -/
theorem exec (op : CacheOp K V) (hlt : c.counter + (if op.isAccess then 1 else 0) < 2 ^ 64) :
    (c.exec op).1 = (s.exec op).1 ∧
      (c.exec op).2.counter ≤ c.counter + (if op.isAccess then 1 else 0) ∧
        ∃ es', Tracks (c.exec op).2 (s.exec op).2 es' := by
  cases op with
  | get key write =>
    simp only [Cache.exec, Cache.get, Lru.exec]
    cases hlook : c.entries.lookup key with
    | some entry =>
      obtain ⟨hheld, hlast⟩ := h.of_lookup_some hlook
      rw [if_pos hheld, hlast]
      exact ⟨rfl, Nat.mod_le _ _, _, h.stamp hlt key _⟩
    | none =>
      rw [if_neg (h.of_lookup_none hlook)]
      exact ⟨rfl, Nat.le_add_right _ _, es, h⟩
  | put key value =>
    simp only [Cache.exec, Cache.put, Lru.exec, h.capacity, h.length_eq]
    by_cases hzero : s.capacity = 0
    · rw [if_pos hzero, if_pos hzero]
      exact ⟨rfl, Nat.le_add_right _ _, es, h⟩
    rw [if_neg hzero, if_neg hzero]
    cases hlook : c.entries.lookup key with
    | some entry =>
      rw [if_pos (Or.inl (h.of_lookup_some hlook).1)]
      exact ⟨rfl, Nat.mod_le _ _, _, h.stamp hlt key value⟩
    | none =>
      have hnew := h.of_lookup_none hlook
      by_cases hfull : s.capacity ≤ s.keys.length
      · obtain ⟨es', hevict⟩ := h.evict
        have hcounter : c.evict.counter = c.counter := by
          unfold Cache.evict
          split <;> rfl
        rw [if_pos hfull, if_neg (not_or_intro hnew (Nat.not_lt.mpr hfull))]
        refine ⟨rfl, ?_, _, hevict.stamp (hcounter ▸ hlt) key value⟩
        exact hcounter ▸ Nat.mod_le _ _
      · rw [if_neg hfull, if_pos (Or.inr (Nat.not_le.mp hfull))]
        exact ⟨rfl, Nat.mod_le _ _, _, h.stamp hlt key value⟩
  | remove key => exact ⟨rfl, Nat.le_refl _, _, h.remove key⟩
  | clear =>
    exact ⟨rfl, Nat.zero_le _, [], .nil, .nil, by simp, .nil, rfl, by simp, h.capacity⟩

end

/-- The same for a sequence of operations with room for a stamp at each access. -/
theorem run (ops : List (CacheOp K V)) (h : Tracks c s es)
    (hlt : c.counter + ops.countP CacheOp.isAccess < 2 ^ 64) :
    (runOps Cache.exec ops c).1 = (runOps Lru.exec ops s).1 ∧
      ∃ es', Tracks (runOps Cache.exec ops c).2 (runOps Lru.exec ops s).2 es' := by
  induction ops generalizing c s es with
  | nil => exact ⟨rfl, es, h⟩
  | cons op ops ih =>
    rw [List.countP_cons] at hlt
    obtain ⟨hanswer, hcounter, es₁, h₁⟩ := h.exec op (by omega)
    obtain ⟨hanswers, es₂, h₂⟩ := ih h₁ (by omega)
    exact ⟨congrArg₂ List.cons hanswer hanswers, es₂, h₂⟩

end Tracks

/-- Every sequence of operations with fewer than `2 ^ 64` accesses is answered as the reference
answers it, and leaves the same keys. -/
theorem cache_refines_lru (capacity : Nat) (ops : List (CacheOp K V))
    (hfew : ops.countP CacheOp.isAccess < 2 ^ 64) :
    (runOps Cache.exec ops (.new capacity)).1 = (runOps Lru.exec ops { capacity }).1 ∧
      ∀ key, key ∈ (runOps Cache.exec ops (.new capacity)).2.entries.map Prod.fst ↔
        key ∈ (runOps Lru.exec ops { capacity }).2.keys := by
  have hnew : Tracks (.new capacity : Cache K V) { capacity } [] :=
    ⟨.nil, .nil, by simp, .nil, rfl, by simp, rfl⟩
  obtain ⟨hanswers, es, h⟩ := hnew.run ops (by simpa [Cache.new] using hfew)
  exact ⟨hanswers, fun key => by rw [← h.keys]; exact (h.perm.map _).mem_iff.symm⟩

/-- The key used longest ago makes room for a third one, and a write through a guard is found. -/
theorem cache_refines_lru_of_two : (runOps Cache.exec [.put 1 10, .put 2 20, .get 1 (· + 1),
    .put 3 30, .get 2 id, .get 1 id] (.new 2)).1 =
      [none, none, some 10, none, none, some 11] := by
  rw [(cache_refines_lru 2 _ (by decide)).1]
  rfl

end Nanvix
