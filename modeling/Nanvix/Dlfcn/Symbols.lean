import Nanvix.Dlfcn.Registry
import Nanvix.Library.DepthFirst
import Nanvix.Sys.Time

/-!
# Dynamic libraries: looking up symbols

A name is looked up in a library, then in the libraries it is bound to, depth
first, and last in the table of global symbols. The search holds the lock of
every library it is inside of. It passes over a library that is locked, and over
one it has been to before.

The search finds a definition whenever the library, or one it reaches through
what is bound, has one: a library that is passed over because of its lock is one
the search is still inside of, and a library it has left has been searched with
everything below it.

## Implementation notes

A library is known by its handle, as in the registry. The graph holds every
library that is referred to, so a bound handle always stands for a library. The
locks are the state; the set of visited libraries lives as long as one lookup.
A lookup that would wait for a lock aborts, and so does one that runs out of
the depth that bounds its recursion. An address is a word of 32 bits; `Build`
says whether an addition that overflows panics or wraps around.
-/
namespace Nanvix.Dlfcn

open Nanvix.Library Nanvix.Library.Prog
open Nanvix.Sys (Build)

variable {r : Option (Nat × Nat)}

section Tables

/-- An entry of the table of symbols, with its name as the table of names gives it. -/
structure Symbol where
  name : Except Error String
  value : Nat
  isUndefined : Bool
  isWeak : Bool

/-- The entry is found under a name. The empty name stands for no name. -/
def Symbol.isNamed (sym : Symbol) (symbolName : String) : Bool :=
  match sym.name with
  | .ok name => !name.isEmpty && name == symbolName
  | .error _ => false

/-- A library in memory: where it is loaded, the segments it occupies and its symbols. -/
structure LoadedLibrary extends DynamicLibrary where
  loadAddress : Nat
  /-- The first address of each segment and its size. -/
  segments : List (Nat × Nat)
  dynsym : List Symbol

/-- `DynamicLibrary::find`. -/
def LoadedLibrary.find (lib : LoadedLibrary) (symbolName : String) : Option Symbol :=
  lib.dynsym.find? (·.isNamed symbolName)

/-- The definition that a library's own table gives: its load address and the symbol's value. -/
def LoadedLibrary.definition (lib : LoadedLibrary) (symbolName : String) : Option (Nat × Nat) :=
  match lib.find symbolName with
  | some symbol => if symbol.isUndefined then none else some (lib.loadAddress, symbol.value)
  | none => none

/-- At most one entry per name. -/
def LoadedLibrary.UniqueNames (lib : LoadedLibrary) : Prop :=
  ∀ symbolName, (lib.dynsym.filter (·.isNamed symbolName)).length ≤ 1

/-- The libraries that are referred to. What is bound is among them. -/
structure LoadGraph where
  libraries : List (DlHandle × LoadedLibrary)
  bound_mem : ∀ e ∈ libraries, ∀ d ∈ e.2.dependencyHandles, (libraries.lookup d).isSome

/-- The library at a handle. -/
def LoadGraph.library (G : LoadGraph) (h : DlHandle) : Option LoadedLibrary :=
  G.libraries.lookup h

/-- The handles of the libraries. -/
def LoadGraph.handles (G : LoadGraph) : Finset DlHandle := (G.libraries.map Prod.fst).toFinset

/-- One library is bound to another. -/
def LoadGraph.Bound (G : LoadGraph) (h d : DlHandle) : Prop :=
  ∃ lib, G.library h = some lib ∧ d ∈ lib.dependencyHandles

/-- The table of global symbols. -/
abbrev GlobalSymbols := String → Option Nat

end Tables

section Lookup

/-- What a lookup keeps: the locks that are held and the libraries it has been to. -/
structure LookupState where
  locked : Finset DlHandle
  visited : Finset DlHandle := ∅

/-- Take the lock of a library. -/
def lock (h : DlHandle) : Prog LookupState Error Unit := do
  if h ∈ (← gets LookupState.locked) then abort "waits for a lock"
  else modify fun s => { s with locked := insert h s.locked }

/-- Drop the lock of a library. -/
def unlock (h : DlHandle) : Prog LookupState Error Unit :=
  modify fun s => { s with locked := s.locked.erase h }

/-- The loop of `lookup_in_load_group` over the bound libraries. The lock of a library is
dropped when its search ends, also when something was found. -/
def searchDependencies (search : DlHandle → Prog LookupState Error (Option (Nat × Nat))) :
    List DlHandle → Prog LookupState Error (Option (Nat × Nat))
  | [] => pure none
  | d :: ds => do
      let s ← gets id
      if d ∈ s.locked then searchDependencies search ds
      else if d ∈ s.visited then searchDependencies search ds
      else do
        modify fun s => { s with visited := insert d s.visited }
        lock d
        let result ← search d
        unlock d
        match result with
        | some found => pure (some found)
        | none => searchDependencies search ds

/-- `DynamicLibrary::lookup_in_load_group`, to a bounded depth. -/
def lookupInLoadGroup (G : LoadGraph) (symbolName : String) :
    Nat → DlHandle → Prog LookupState Error (Option (Nat × Nat))
  | 0, _ => abort "the depth is used up"
  | depth + 1, h =>
    match G.library h with
    | none => abort "no such library"
    | some lib =>
      match lib.definition symbolName with
      | some found => pure (some found)
      | none => searchDependencies (lookupInLoadGroup G symbolName depth) lib.dependencyHandles

/-- Run a search that starts with no library visited. -/
def withVisited {α : Type} (x : Prog LookupState Error α) : Prog (Finset DlHandle) Error α :=
  fun locked =>
    match x ⟨locked, ∅⟩ with
    | .ok a s => .ok a s.locked
    | .err e s => .err e s.locked
    | .abort m => .abort m

/-- `DynamicLibrary::lookup`: the library and what it is bound to, then the global symbols. Those
have absolute addresses. -/
def lookup (G : LoadGraph) (globals : GlobalSymbols) (depth : Nat) (h : DlHandle)
    (symbolName : String) : Prog (Finset DlHandle) Error (Option (Nat × Nat)) := do
  match ← withVisited (lookupInLoadGroup G symbolName depth h) with
  | some result => pure (some result)
  | none =>
    match globals symbolName with
    | some addr => pure (some (0, addr))
    | none => pure none

/-- Run a program that holds the lock of a library. -/
def withLock {α : Type} (h : DlHandle) (x : Prog (Finset DlHandle) Error α) :
    Prog (Finset DlHandle) Error α := do
  if h ∈ (← gets id) then abort "waits for a lock"
  else do
    modify (insert h)
    let result ← attempt x
    modify (·.erase h)
    ofExcept result

/-- `DlHandle::GLOBAL`, the handle of the global symbols. -/
def globalHandle : DlHandle := 2 ^ 31 - 1

/-- The addition operator of `usize`. -/
def addUsize {σ : Type} (build : Build) (a b : Nat) : Prog σ Error Nat :=
  if build = .dev ∧ 2 ^ 32 ≤ a + b then abort "attempt to add with overflow"
  else pure ((a + b) % 2 ^ 32)

/-- `dlsym`, with the handles of the registry. -/
def dlsym (build : Build) (G : LoadGraph) (globals : GlobalSymbols) (registry : List DlHandle)
    (depth : Nat) (handle : DlHandle) (symbol : String) : Prog (Finset DlHandle) Error Nat := do
  if handle = globalHandle then
    match globals symbol with
    | some addr => pure addr
    | none => throw ⟨.noSuchEntry, "symbol not found in global scope"⟩
  else if handle ∈ registry then
    withLock handle do
      match ← lookup G globals depth handle symbol with
      | some (base, offset) => addUsize build base offset
      | none => throw ⟨.noSuchEntry, "symbol not found"⟩
  else throw ⟨.badFile, "dynamic library file not open"⟩

end Lookup

section Search

variable {G : LoadGraph} {symbolName : String} {h d : DlHandle} {lib : LoadedLibrary}

/-- The library at a handle has a definition. -/
def LoadGraph.HasDefinition (G : LoadGraph) (symbolName : String) (h : DlHandle) : Prop :=
  ∃ lib, G.library h = some lib ∧ (lib.definition symbolName).isSome

theorem LoadGraph.mem_of_library (hlib : G.library h = some lib) : (h, lib) ∈ G.libraries := by
  unfold LoadGraph.library at hlib
  exact Library.mem_of_lookup hlib

theorem LoadGraph.mem_handles (hlib : G.library h = some lib) : h ∈ G.handles :=
  List.mem_toFinset.mpr (List.mem_map.mpr ⟨_, mem_of_library hlib, rfl⟩)

theorem LoadGraph.exists_library_of_bound (hlib : G.library h = some lib)
    (hd : d ∈ lib.dependencyHandles) : ∃ lib', G.library d = some lib' :=
  Option.isSome_iff_exists.mp (G.bound_mem _ (mem_of_library hlib) d hd)

/-- What a search of some of the libraries below a library answers. The locks are as before. A
definition comes from a library that is reached. Otherwise each of them was searched, or is one
the search is inside of. -/
structure Searched (G : LoadGraph) (symbolName : String) (h : DlHandle) (ds : List DlHandle)
    (s : LookupState) (r : Option (Nat × Nat)) (s' : LookupState) : Prop where
  locked : s'.locked = s.locked
  visited : s.visited ⊆ s'.visited
  found : ∀ p, r = some p → ∃ d lib, Relation.ReflTransGen G.Bound h d ∧
    G.library d = some lib ∧ lib.definition symbolName = some p
  explored : r = none → Explored G.Bound (G.HasDefinition symbolName) s'.visited s'.locked
  missed : r = none → ∀ d ∈ ds, d ∈ s'.visited ∨ d ∈ s'.locked

/-- A library that is passed over was searched already, or is being searched. -/
theorem Searched.skip {ds : List DlHandle} {s s' : LookupState}
    (hpost : Searched G symbolName h ds s r s') (hd : d ∈ s.visited ∨ d ∈ s.locked) :
    Searched G symbolName h (d :: ds) s r s' := by
  refine ⟨hpost.locked, hpost.visited, hpost.found, hpost.explored, fun hr => ?_⟩
  refine List.forall_mem_cons.mpr ⟨?_, hpost.missed hr⟩
  rw [hpost.locked]
  exact hd.imp_left fun hv => hpost.visited hv

/-- What a search is asked to do at a library with so many libraries still to visit. -/
def SearchesBelow (G : LoadGraph) (symbolName : String)
    (search : DlHandle → Prog LookupState Error (Option (Nat × Nat))) (n : Nat) : Prop :=
  ∀ d lib s, G.library d = some lib →
    Explored G.Bound (G.HasDefinition symbolName) s.visited s.locked →
    (G.handles \ s.visited).card < n →
    wp (search d)
      (fun r s' => Searched G symbolName d lib.dependencyHandles s r s' ∧
        (r = none → ¬G.HasDefinition symbolName d))
      (fun _ _ => False) s

/-- The loop over some of the libraries that a library is bound to. -/
theorem searchDependencies_wp {search : DlHandle → Prog LookupState Error (Option (Nat × Nat))}
    {n : Nat} (hsearch : SearchesBelow G symbolName search n) {ds : List DlHandle}
    (hbound : ∀ d ∈ ds, G.Bound h d) {s : LookupState}
    (hs : Explored G.Bound (G.HasDefinition symbolName) s.visited s.locked)
    (hn : (G.handles \ s.visited).card ≤ n) :
    wp (searchDependencies search ds) (fun r s' => Searched G symbolName h ds s r s')
      (fun _ _ => False) s := by
  induction ds generalizing s with
  | nil =>
    rw [searchDependencies, wp_pure]
    exact ⟨rfl, Finset.Subset.refl _, fun _ hp => absurd hp (Option.some_ne_none _).symm,
      fun _ => hs, fun _ _ hd => absurd hd List.not_mem_nil⟩
  | cons d ds ih =>
    obtain ⟨hd, hrest⟩ := List.forall_mem_cons.mp hbound
    have hskip : d ∈ s.visited ∨ d ∈ s.locked → wp (searchDependencies search ds)
        (fun r s' => Searched G symbolName h (d :: ds) s r s') (fun _ _ => False) s :=
      fun hseen => (ih hrest hs hn).mono (fun _ _ hpost => hpost.skip hseen) fun _ _ he => he
    rw [searchDependencies, wp_bind, wp_gets, id]
    by_cases hlocked : d ∈ s.locked
    · rw [if_pos hlocked]
      exact hskip (Or.inr hlocked)
    by_cases hvisited : d ∈ s.visited
    · rw [if_neg hlocked, if_pos hvisited]
      exact hskip (Or.inl hvisited)
    rw [if_neg hlocked, if_neg hvisited, wp_bind, wp_modify, wp_bind, lock, wp_bind, wp_gets,
      if_neg hlocked, wp_modify, wp_bind]
    obtain ⟨lib, hlib, hmem⟩ := hd
    obtain ⟨lib', hlib'⟩ := LoadGraph.exists_library_of_bound hlib hmem
    have hlt := card_unseen_insert (LoadGraph.mem_handles hlib') hvisited
    -- The library is entered: it is visited and locked while it is searched.
    refine (hsearch d lib' _ hlib' hs.enter (lt_of_lt_of_le hlt hn)).imp ?_
    rintro r s₁ ⟨hpost, hown⟩
    have hheld : s₁.locked = insert d s.locked := hpost.locked
    have hlocks : s₁.locked.erase d = s.locked := by rw [hheld, Finset.erase_insert hlocked]
    have hgrow : s.visited ⊆ s₁.visited := (Finset.subset_insert _ _).trans hpost.visited
    rw [wp_bind, unlock, wp_modify]
    cases r with
    | some p =>
      rw [wp_pure]
      refine ⟨hlocks, hgrow, ?_, fun hr => absurd hr (Option.some_ne_none _),
        fun hr => absurd hr (Option.some_ne_none _)⟩
      intro q hq
      obtain ⟨x, libx, hreach, hx⟩ := hpost.found q hq
      exact ⟨x, libx, hreach.head ⟨lib, hlib, hmem⟩, hx⟩
    | none =>
      have hin : d ∈ s₁.visited := hpost.visited (Finset.mem_insert_self _ _)
      have hbelow : ∀ y, G.Bound d y → y ∈ s₁.visited ∨ y ∈ insert d s.locked := by
        rintro y ⟨lib₂, hlib₂, hy⟩
        cases hlib'.symm.trans hlib₂
        rw [← hheld]
        exact hpost.missed rfl y hy
      have hleft : Explored G.Bound (G.HasDefinition symbolName) s₁.visited s.locked := by
        have hexp := hpost.explored rfl
        rw [hheld] at hexp
        exact hexp.leave hin (hown rfl) hbelow
      have hcard : (G.handles \ s₁.visited).card ≤ n :=
        (Finset.card_le_card (Finset.sdiff_subset_sdiff le_rfl hgrow)).trans hn
      rw [← hlocks] at hleft
      refine (ih (s := ⟨s₁.locked.erase d, s₁.visited⟩) hrest hleft hcard).mono
        (fun _ s₂ hpost₂ => ?_) fun _ _ he => he
      have hall := hpost₂.skip (Or.inl hin)
      exact ⟨hall.locked.trans hlocks, hgrow.trans hall.visited, hall.found, hall.explored,
        hall.missed⟩

/-- A search with enough depth for the libraries it has not been to returns. -/
theorem lookupInLoadGroup_searches (G : LoadGraph) (symbolName : String) (depth : Nat) :
    SearchesBelow G symbolName (lookupInLoadGroup G symbolName depth) depth := by
  induction depth with
  | zero => exact fun _ _ _ _ _ hn => absurd hn (Nat.not_lt_zero _)
  | succ depth ih =>
    intro h lib s hlib hs hn
    cases hdef : lib.definition symbolName with
    | some found =>
      simp only [lookupInLoadGroup, hlib, hdef, wp_pure]
      refine ⟨⟨rfl, Finset.Subset.refl _, ?_, fun hr => absurd hr (Option.some_ne_none _),
        fun hr => absurd hr (Option.some_ne_none _)⟩,
        fun hr => absurd hr (Option.some_ne_none _)⟩
      exact fun p hp => ⟨h, lib, Relation.ReflTransGen.refl, hlib, hdef.trans hp⟩
    | none =>
      simp only [lookupInLoadGroup, hlib, hdef]
      have hbound : ∀ d ∈ lib.dependencyHandles, G.Bound h d := fun d hd => ⟨lib, hlib, hd⟩
      refine (searchDependencies_wp ih hbound hs (Nat.le_of_lt_succ hn)).mono ?_
        fun _ _ he => he
      refine fun r s' hpost => ⟨hpost, fun _ => ?_⟩
      rintro ⟨lib', hlib', hsome⟩
      cases hlib.symm.trans hlib'
      rw [hdef] at hsome
      exact Bool.false_ne_true hsome

end Search

section Answers

variable {G : LoadGraph} {globals : GlobalSymbols} {symbolName : String} {h : DlHandle}

/-- A library has an entry that defines a name, at a load address and a value. -/
def LoadGraph.DefinesAt (G : LoadGraph) (h : DlHandle) (symbolName : String) (p : Nat × Nat) :
    Prop :=
  ∃ lib sym, G.library h = some lib ∧ sym ∈ lib.dynsym ∧ sym.isNamed symbolName ∧
    sym.isUndefined = false ∧ p = (lib.loadAddress, sym.value)

/-- The library, or one it reaches through what is bound, defines a name. -/
def LoadGraph.GroupDefinesAt (G : LoadGraph) (h : DlHandle) (symbolName : String) (p : Nat × Nat) :
    Prop :=
  ∃ d, Relation.ReflTransGen G.Bound h d ∧ G.DefinesAt d symbolName p

/-- What a lookup should answer: the library's own definition if there is one, else one from the
libraries it reaches, else the global one. An answer is a base and an offset from it. -/
structure CorrectAnswer (G : LoadGraph) (globals : GlobalSymbols) (h : DlHandle)
    (symbolName : String) (answer : Option (Nat × Nat)) : Prop where
  isSome_iff : answer.isSome ↔
    (∃ p, G.GroupDefinesAt h symbolName p) ∨ (globals symbolName).isSome
  own : ∀ p, G.DefinesAt h symbolName p → answer = some p
  group : (∃ p, G.GroupDefinesAt h symbolName p) →
    ∃ p, G.GroupDefinesAt h symbolName p ∧ answer = some p
  global : (¬∃ p, G.GroupDefinesAt h symbolName p) → answer = (globals symbolName).map (Prod.mk 0)

variable {lib : LoadedLibrary} {p : Nat × Nat} {depth : Nat}

/-- A definition is an entry of the table that is defined. -/
theorem LoadedLibrary.exists_of_definition (hdef : lib.definition symbolName = some p) :
    ∃ sym ∈ lib.dynsym, sym.isNamed symbolName ∧ sym.isUndefined = false ∧
      p = (lib.loadAddress, sym.value) := by
  unfold LoadedLibrary.definition LoadedLibrary.find at hdef
  cases hfind : lib.dynsym.find? (·.isNamed symbolName) with
  | none =>
    rw [hfind] at hdef
    cases hdef
  | some sym =>
    rw [hfind] at hdef
    cases hundef : sym.isUndefined with
    | true =>
      simp only [hundef, if_true] at hdef
      cases hdef
    | false =>
      simp only [hundef, Bool.false_eq_true, if_false, Option.some_inj] at hdef
      have hname := List.find?_some (p := fun x : Symbol => x.isNamed symbolName) hfind
      exact ⟨sym, List.mem_of_find?_eq_some hfind, hname, hundef, hdef.symm⟩

/-- With one entry per name, a defined entry is the definition. -/
theorem LoadedLibrary.definition_of_mem (hunique : lib.UniqueNames) {sym : Symbol}
    (hmem : sym ∈ lib.dynsym) (hname : sym.isNamed symbolName) (hundef : sym.isUndefined = false) :
    lib.definition symbolName = some (lib.loadAddress, sym.value) := by
  have hfind : lib.find symbolName = some sym := by
    have hin : sym ∈ lib.dynsym.filter (·.isNamed symbolName) :=
      List.mem_filter.mpr ⟨hmem, hname⟩
    obtain ⟨l₁, l₂, hsplit⟩ := List.append_of_mem hin
    have hone := hunique symbolName
    rw [hsplit, List.length_append, List.length_cons] at hone
    have hfirst : l₁ = [] := List.eq_nil_of_length_eq_zero (by omega)
    rw [LoadedLibrary.find, ← List.head?_filter, hsplit, hfirst]
    rfl
  unfold LoadedLibrary.definition
  simp only [hfind, hundef, Bool.false_eq_true, if_false]

/-- Without a definition in the table no entry defines the name. -/
theorem LoadGraph.definesAt_iff (hunique : ∀ e ∈ G.libraries, e.2.UniqueNames) :
    G.DefinesAt h symbolName p ↔
      ∃ lib, G.library h = some lib ∧ lib.definition symbolName = some p := by
  constructor
  · rintro ⟨lib, sym, hlib, hmem, hname, hundef, rfl⟩
    exact ⟨lib, hlib, LoadedLibrary.definition_of_mem (hunique _ (mem_of_library hlib)) hmem
      hname hundef⟩
  · rintro ⟨lib, hlib, hdef⟩
    obtain ⟨sym, hmem, hname, hundef, hp⟩ := LoadedLibrary.exists_of_definition hdef
    exact ⟨lib, sym, hlib, hmem, hname, hundef, hp⟩

/-- What the search from a library answers when the lock of that library is the only one held. -/
structure GroupAnswer (G : LoadGraph) (symbolName : String) (h : DlHandle) (lib : LoadedLibrary)
    (r : Option (Nat × Nat)) : Prop where
  own : ∀ p, lib.definition symbolName = some p → r = some p
  found : ∀ p, r = some p → ∃ d lib', Relation.ReflTransGen G.Bound h d ∧
    G.library d = some lib' ∧ lib'.definition symbolName = some p
  missed : r = none → ∀ d, Relation.ReflTransGen G.Bound h d → ¬G.HasDefinition symbolName d

/-- The search from a library returns and leaves the locks as they were. -/
theorem lookupInLoadGroup_run (symbolName : String) (hlib : G.library h = some lib)
    (hdepth : G.handles.card < depth) :
    ∃ r, withVisited (lookupInLoadGroup G symbolName depth h) {h} = .ok r {h} ∧
      GroupAnswer G symbolName h lib r := by
  have hcard : (G.handles \ ∅).card < depth := by rwa [Finset.sdiff_empty]
  obtain ⟨r, s', hrun, hpost, hown⟩ :=
    (lookupInLoadGroup_searches G symbolName depth h lib ⟨{h}, ∅⟩ hlib Explored.empty
      hcard).exists_ok
  have hlocked : s'.locked = {h} := hpost.locked
  refine ⟨r, ?_, ?_, hpost.found, ?_⟩
  · unfold withVisited
    simp only [hrun, hlocked]
  · intro p hp
    cases depth with
    | zero => exact absurd hdepth (Nat.not_lt_zero _)
    | succ depth =>
      rw [lookupInLoadGroup, hlib] at hrun
      simp only [hp] at hrun
      cases hrun
      rfl
  · intro hr d hreach
    have hexp := hpost.explored hr
    rw [hlocked] at hexp
    refine hexp.not_reached (hown hr) ?_ hreach
    rintro y ⟨lib', hlib', hy⟩
    cases hlib.symm.trans hlib'
    rw [← hlocked]
    exact hpost.missed hr y hy

/-- The global table is asked when the search found nothing. -/
theorem lookup_run (globals : GlobalSymbols)
    (hrun : withVisited (lookupInLoadGroup G symbolName depth h) {h} = .ok r {h}) :
    lookup G globals depth h symbolName {h} =
      .ok (r.or ((globals symbolName).map (Prod.mk 0))) {h} := by
  unfold lookup
  rw [bind_ok hrun]
  cases r with
  | some p => rfl
  | none => cases globals symbolName <;> rfl

/-- The search finds something just when the library or one it reaches defines the name. -/
theorem GroupAnswer.isSome_iff (hr : GroupAnswer G symbolName h lib r)
    (hunique : ∀ e ∈ G.libraries, e.2.UniqueNames) :
    r.isSome ↔ ∃ p, G.GroupDefinesAt h symbolName p := by
  constructor
  · intro hsome
    obtain ⟨p, hp⟩ := Option.isSome_iff_exists.mp hsome
    obtain ⟨d, lib', hreach, hlib', hdef⟩ := hr.found p hp
    exact ⟨p, d, hreach, (LoadGraph.definesAt_iff hunique).mpr ⟨lib', hlib', hdef⟩⟩
  · rintro ⟨p, d, hreach, hdefines⟩
    obtain ⟨lib', hlib', hdef⟩ := (LoadGraph.definesAt_iff hunique).mp hdefines
    by_contra hnone
    rw [Bool.not_eq_true, Option.isSome_eq_false_iff, Option.isNone_iff_eq_none] at hnone
    exact hr.missed hnone d hreach ⟨lib', hlib', Option.isSome_iff_exists.mpr ⟨p, hdef⟩⟩

/-- A lookup in a finite graph of libraries returns, whatever their shape. It finds the name just
when the library, one it reaches, or the global table defines it, in this order. -/
theorem lookup_correct (G : LoadGraph) (globals : GlobalSymbols)
    (hunique : ∀ e ∈ G.libraries, e.2.UniqueNames) (hlib : G.library h = some lib)
    (hdepth : G.handles.card < depth) (symbolName : String) :
    ∃ r, lookup G globals depth h symbolName {h} = .ok r {h} ∧
      CorrectAnswer G globals h symbolName r := by
  obtain ⟨r, hrun, hgroup⟩ := lookupInLoadGroup_run symbolName hlib hdepth
  have hiff := hgroup.isSome_iff hunique
  refine ⟨_, lookup_run globals hrun, ?_⟩
  cases r with
  | some p =>
    have hdefined := hiff.mp rfl
    refine ⟨iff_of_true rfl (Or.inl hdefined), fun q hown => ?_, fun _ => ?_,
      fun hnone => absurd hdefined hnone⟩
    · obtain ⟨lib', hlib', hdef⟩ := (LoadGraph.definesAt_iff hunique).mp hown
      cases hlib.symm.trans hlib'
      exact hgroup.own q hdef
    · obtain ⟨d, lib', hreach, hlib', hdef⟩ := hgroup.found p rfl
      exact ⟨p, ⟨d, hreach, (LoadGraph.definesAt_iff hunique).mpr ⟨lib', hlib', hdef⟩⟩, rfl⟩
  | none =>
    have hundefined : ¬∃ p, G.GroupDefinesAt h symbolName p := fun hdefined =>
      Bool.false_ne_true (hiff.mpr hdefined)
    refine ⟨?_, fun p hown => ?_, fun hdefined => absurd hdefined hundefined, fun _ => rfl⟩
    · rw [Option.none_or, Option.isSome_map]
      exact ⟨Or.inr, fun hsome => hsome.resolve_left hundefined⟩
    · exact absurd ⟨p, h, Relation.ReflTransGen.refl, hown⟩ hundefined

/-- Two libraries bound to each other, one of them also to itself and to a third. -/
def cyclicGraph : LoadGraph where
  libraries :=
    [(3, ⟨⟨"liba", ["libb"], fun _ => some 4⟩, 4096, [], [⟨.ok "f", 0, true, false⟩]⟩),
      (4, ⟨⟨"libb", ["liba", "libb", "libc"],
        fun name => if name = "liba" then some 3 else if name = "libb" then some 4 else some 5⟩,
        8192, [], []⟩),
      (5, ⟨⟨"libc", [], fun _ => none⟩, 12288, [], [⟨.ok "f", 16, false, false⟩]⟩)]
  bound_mem := by decide

theorem lookup_correct_cyclic :
    ∃ r, lookup cyclicGraph (fun _ => none) 4 3 "f" {3} = .ok r {3} ∧
      CorrectAnswer cyclicGraph (fun _ => none) 3 "f" r := by
  refine lookup_correct cyclicGraph _ (fun e he symbolName => ?_) rfl (by decide) "f"
  have hshort : ∀ e ∈ cyclicGraph.libraries, e.2.dynsym.length ≤ 1 := by decide
  exact (List.length_filter_le _ _).trans (hshort e he)

/-- A program that holds a free lock ends as it does, and the lock is dropped. -/
theorem withLock_run {α : Type} {x : Prog (Finset DlHandle) Error α} {locked : Finset DlHandle}
    (hfree : h ∉ locked) :
    withLock h x locked =
      match x (insert h locked) with
      | .ok a s => .ok a (s.erase h)
      | .err e s => .err e (s.erase h)
      | .abort m => .abort m := by
  unfold withLock
  rw [bind_ok (rfl : gets id locked = .ok locked locked), id, if_neg hfree]
  cases hx : x (insert h locked) with
  | ok a s => exact attempt_bind_ok hx
  | err e s => exact attempt_bind_err hx
  | abort m => exact attempt_bind_abort hx

/-- With no lock held, `dlsym` gives the address that the lookup finds and holds no lock after. It
panics just when that address needs more than 32 bits in a build that checks for overflow. -/
theorem dlsym_run (build : Build) (G : LoadGraph) (globals : GlobalSymbols)
    {registry : List DlHandle} (hlib : G.library h = some lib) (hregistered : h ∈ registry)
    (hglobal : h ≠ globalHandle) (hdepth : G.handles.card < depth) (symbolName : String) :
    ∃ r, lookup G globals depth h symbolName {h} = .ok r {h} ∧
      dlsym build G globals registry depth h symbolName ∅ =
        match r with
        | some p =>
          if build = .dev ∧ 2 ^ 32 ≤ p.1 + p.2 then .abort "attempt to add with overflow"
          else .ok ((p.1 + p.2) % 2 ^ 32) ∅
        | none => .err ⟨.noSuchEntry, "symbol not found"⟩ ∅ := by
  obtain ⟨r, hrun, -⟩ := lookupInLoadGroup_run symbolName hlib hdepth
  refine ⟨_, lookup_run globals hrun, ?_⟩
  have hlookup := lookup_run globals hrun
  unfold dlsym
  rw [if_neg hglobal, if_pos hregistered, withLock_run (Finset.notMem_empty h),
    show insert h (∅ : Finset DlHandle) = {h} from rfl, bind_ok hlookup]
  cases r.or ((globals symbolName).map (Prod.mk 0)) with
  | some p =>
    by_cases hover : build = .dev ∧ 2 ^ 32 ≤ p.1 + p.2
    · simp only [addUsize, if_pos hover]
      rfl
    · simp only [addUsize, if_neg hover]
      exact congrArg (Outcome.ok _) (Finset.erase_singleton h)
  | none => exact congrArg (Outcome.err _) (Finset.erase_singleton h)

theorem dlsym_run_cyclic : dlsym .dev cyclicGraph (fun _ => none) [3] 4 3 "f" ∅ = .ok 12304 ∅ := by
  have hdepth : cyclicGraph.handles.card < 4 := by decide
  obtain ⟨r, hlookup, hrun⟩ := dlsym_run (h := 3) .dev cyclicGraph (fun _ => none) rfl
    (List.mem_singleton_self 3) (by decide) hdepth "f"
  have hfound : lookup cyclicGraph (fun _ => none) 4 3 "f" {3} = .ok (some (12288, 16)) {3} := rfl
  cases hfound.symm.trans hlookup
  exact hrun

end Answers
end Nanvix.Dlfcn
