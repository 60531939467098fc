import Mathlib.Data.List.Dedup
import Mathlib.Data.List.Find
import Nanvix.Dlfcn.Registry
import Nanvix.Library.Endings

/-!
# Binding and loading the dependencies of a library

A scan of the registry reads handles and paths only. The requested library is
locked during the whole load, so a scan on behalf of one of its dependencies has
to find what it looks for before it comes to the requested library. What is left
of the recursion is one level: a dependency all of whose names were found has
nothing to load.
-/
namespace Nanvix.Dlfcn

open Nanvix.Library Nanvix.Library.Prog Registry State

variable {e : DlHandle × DynamicLibrary}

/-- What a scan of the registry reads: each handle with the path of its library. -/
def Registry.index (reg : Registry) : List (DlHandle × String) := reg.map fun e => (e.1, e.2.name)

/-- The first library that answers to a name. -/
def lookUp (w : World) (name : String) (known : List (DlHandle × String)) :
    Option (DlHandle × String) :=
  known.find? fun e => answersTo w name e.2

/-- The first one below a handle. -/
def lookBelow (w : World) (r : DlHandle) (name : String) (known : List (DlHandle × String)) :
    Option (DlHandle × String) :=
  lookUp w name (known.filter (·.1 < r))

section Update
variable {reg : Registry} {h h' : DlHandle} {lib : DynamicLibrary}
variable {f g : DynamicLibrary → DynamicLibrary}

@[simp] theorem Registry.map_fst_index : reg.index.map Prod.fst = reg.map Prod.fst := by
  rw [index, List.map_map]
  rfl

theorem Registry.mem_index {n : String} (hmem : (h, n) ∈ reg.index) :
    ∃ lib, (h, lib) ∈ reg ∧ lib.name = n := by
  obtain ⟨⟨h₁, lib⟩, he, heq⟩ := List.mem_map.mp hmem
  cases heq
  exact ⟨lib, he, rfl⟩

theorem Registry.mem_index_of_mem (hmem : (h, lib) ∈ reg) : (h, lib.name) ∈ reg.index :=
  List.mem_map.mpr ⟨(h, lib), hmem, rfl⟩

theorem Registry.index_mapInsert : index (mapInsert h lib reg) = mapInsert h lib.name reg.index :=
  map_mapInsert fun e : DlHandle × DynamicLibrary => e.2.name

@[simp] theorem Registry.map_fst_update : (reg.update h f).map Prod.fst = reg.map Prod.fst := by
  rw [update, List.map_map]
  rfl

theorem Registry.index_update (hf : ∀ lib, (f lib).name = lib.name) :
    (reg.update h f).index = reg.index := by
  rw [index, update, List.map_map, index]
  apply List.map_congr_left
  intro e he
  rw [Function.comp_apply]
  split_ifs with heq
  · rw [hf]
  · rfl

theorem Registry.mem_update_self (hmem : (h, lib) ∈ reg) : (h, f lib) ∈ reg.update h f :=
  List.mem_map.mpr ⟨(h, lib), hmem, by rw [if_pos rfl]⟩

theorem Registry.mem_update_of_ne (hne : e.1 ≠ h) (hmem : e ∈ reg) : e ∈ reg.update h f :=
  List.mem_map.mpr ⟨e, hmem, by rw [if_neg hne]⟩

/-- What stands in an updated registry stood there, or is what the update made of it. -/
theorem Registry.of_mem_update (hmem : e ∈ reg.update h f) :
    ∃ lib, (e.1, lib) ∈ reg ∧ e.2 = if e.1 = h then f lib else lib := by
  obtain ⟨⟨k, lib⟩, he, rfl⟩ := List.mem_map.mp hmem
  exact ⟨lib, he, rfl⟩

theorem Registry.update_congr (heq : ∀ lib, (h, lib) ∈ reg → f lib = g lib) :
    reg.update h f = reg.update h g := by
  apply List.map_congr_left
  intro e he
  split_ifs with hh
  · subst hh
    rw [heq e.2 he]
  · rfl

theorem Registry.update_update : (reg.update h g).update h f = reg.update h (f ∘ g) := by
  rw [update, update, update, List.map_map]
  apply List.map_congr_left
  intro e he
  rw [Function.comp_apply]
  by_cases hh : e.1 = h
  · simp only [if_pos hh]
    rfl
  · simp only [if_neg hh]

/-- An update at a handle that is not there changes nothing. -/
theorem Registry.update_of_notMem (hnot : h ∉ reg.map Prod.fst) : reg.update h f = reg := by
  rw [update]
  conv_rhs => rw [← List.map_id reg]
  apply List.map_congr_left
  intro e he
  rw [if_neg (ne_of_notMem_keys hnot e he), id]

theorem Registry.update_mapInsert_of_ne (hne : h' ≠ h) :
    update h f (mapInsert h' lib reg) = mapInsert h' lib (reg.update h f) := by
  rw [update, map_mapInsert fun e : DlHandle × DynamicLibrary => if e.1 = h then f e.2 else e.2,
    if_neg hne]
  rfl

theorem Registry.update_mapInsert_self (hnot : h ∉ reg.map Prod.fst) :
    update h f (mapInsert h lib reg) = mapInsert h (f lib) reg := by
  conv_rhs => rw [← update_of_notMem (f := f) hnot]
  rw [update, map_mapInsert fun e : DlHandle × DynamicLibrary => if e.1 = h then f e.2 else e.2,
    if_pos rfl]
  rfl

end Update

variable {h : DlHandle}

section Scan
variable {w : World} {locked : List DlHandle} {self r : DlHandle} {p : String → Bool}
variable {s : State}

/-- A scan stops at the first library that is locked or answers; it waits for a locked one. -/
theorem findLoaded_ends (reg : Registry) :
    ends (findLoaded locked self p reg)
      (fun found t => t = s ∧
        found = ((reg.index.filter (·.1 ≠ self)).find?
          fun e => decide (e.1 ∈ locked) || p e.2).map Prod.fst ∧
        ∀ e, (reg.index.filter (·.1 ≠ self)).find?
          (fun e => decide (e.1 ∈ locked) || p e.2) = some e → e.1 ∉ locked)
      (fun _ _ => False)
      (fun _ => ∃ e, (reg.index.filter (·.1 ≠ self)).find?
        (fun e => decide (e.1 ∈ locked) || p e.2) = some e ∧ e.1 ∈ locked) s := by
  induction reg with
  | nil =>
    unfold findLoaded
    rw [ends_pure]
    exact ⟨rfl, rfl, fun e he => by cases he⟩
  | cons e reg ih =>
    obtain ⟨h, lib⟩ := e
    have hindex : index ((h, lib) :: reg) =
        (h, lib.name) :: index reg := rfl
    unfold findLoaded
    rw [hindex, List.filter_cons]
    by_cases hself : h = self
    · rw [if_pos hself, if_neg (by simpa using hself)]
      exact ih
    · have hkept : decide ((h, lib.name).1 ≠ self) = true := decide_eq_true hself
      rw [if_neg hself, if_pos hkept, List.find?_cons]
      by_cases hlocked : h ∈ locked
      · rw [if_pos hlocked, ends_abort]
        simp only [hlocked, decide_true, Bool.true_or]
        exact ⟨_, rfl, hlocked⟩
      · rw [if_neg hlocked]
        by_cases hp : p lib.name = true
        · rw [if_pos hp, ends_pure]
          simp only [hlocked, decide_false, Bool.false_or, hp]
          refine ⟨trivial, rfl, ?_⟩
          rintro e he
          cases he
          exact hlocked
        · rw [if_neg hp]
          simp only [hlocked, decide_false, Bool.false_or, Bool.eq_false_iff.mpr hp]
          exact ih

/-- The requested library is passed over, so nothing it scans is locked. -/
theorem findLoaded_root_ends (reg : Registry) :
    ends (findLoaded [r] r p reg)
      (fun found t => t = s ∧
        found = ((reg.index.filter (·.1 ≠ r)).find? fun e => p e.2).map Prod.fst)
      (fun _ _ => False) (fun _ => False) s := by
  have hfree : ∀ e ∈ reg.index.filter (·.1 ≠ r), e.1 ∉ [r] := by
    intro e he
    have hne := (List.mem_filter.mp he).2
    simpa using hne
  have hsame : (reg.index.filter (·.1 ≠ r)).find? (fun e => decide (e.1 ∈ [r]) || p e.2) =
      (reg.index.filter (·.1 ≠ r)).find? fun e => p e.2 := by
    apply List.find?_congr
    intro e he
    rw [decide_eq_false (hfree e he), Bool.false_or]
  apply (findLoaded_ends reg).mono
  · rintro found t ⟨ht, hfound, -⟩
    exact ⟨ht, by rw [hfound, hsame]⟩
  · exact fun _ _ h => h
  · rintro m ⟨e, he, hlocked⟩
    exact hfree e (List.mem_of_find?_eq_some he) hlocked

variable {known : List (DlHandle × String)}

/-- In the order of the handles, a scan that stops at `r` sees what is below `r`. -/
theorem find?_stop {n : String}
    (hsorted : (known.map Prod.fst).Pairwise (· < ·)) (hr : (r, n) ∈ known) :
    (known.find? fun e => decide (e.1 = r) || p e.2) =
      ((known.filter (·.1 < r)).find? fun e => p e.2).or (some (r, n)) := by
  induction known with
  | nil => cases hr
  | cons e known ih =>
    rw [List.map_cons, List.pairwise_cons] at hsorted
    rw [List.find?_cons, List.filter_cons]
    rcases List.mem_cons.mp hr with rfl | hmem
    · -- What comes behind `r` is above it.
      have hnone : known.filter (·.1 < r) = [] := by
        apply List.filter_eq_nil_iff.mpr
        intro e he
        rw [decide_eq_true_eq]
        exact Nat.lt_asymm (hsorted.1 e.1 (List.mem_map_of_mem he))
      rw [if_neg (by simp), hnone]
      simp
    · have hlt : e.1 < r := hsorted.1 r (List.mem_map.mpr ⟨(r, n), hmem, rfl⟩)
      rw [if_pos (by simpa using hlt), List.find?_cons, decide_eq_false (Nat.ne_of_lt hlt),
        Bool.false_or]
      cases p e.2 with
      | true => rfl
      | false => exact ih hsorted.2 hmem

/-- On behalf of a dependency a scan finds what is below the requested library, or waits. -/
theorem findLoaded_below_ends {reg : Registry}
    {n name : String} (hknown : reg.index.filter (·.1 ≠ h) = known)
    (hsorted : (known.map Prod.fst).Pairwise (· < ·)) (hr : (r, n) ∈ known) :
    ends (findLoaded [h, r] h (answersTo w name) reg)
      (fun found t => t = s ∧ (lookBelow w r name known).isSome ∧
        found = (lookBelow w r name known).map Prod.fst)
      (fun _ _ => False) (fun _ => ¬ (lookBelow w r name known).isSome) s := by
  have hother : ∀ e ∈ known, e.1 ≠ h := by
    intro e he
    have := (List.mem_filter.mp (hknown.symm ▸ he)).2
    simpa using this
  have hscan : (reg.index.filter (·.1 ≠ h)).find?
      (fun e => decide (e.1 ∈ [h, r]) || answersTo w name e.2) =
        (lookBelow w r name known).or (some (r, n)) := by
    rw [hknown, lookBelow, lookUp, ← find?_stop hsorted hr]
    apply List.find?_congr
    intro e he
    simp [hother e he]
  have hbelow : ∀ e, lookBelow w r name known = some e → e.1 < r := by
    intro e he
    have := (List.mem_filter.mp (List.mem_of_find?_eq_some he)).2
    simpa using this
  apply (findLoaded_ends reg).mono
  · rintro found t ⟨ht, hfound, hfree⟩
    rw [hscan] at hfound hfree
    cases hlook : lookBelow w r name known with
    | none =>
      rw [hlook] at hfree
      exact absurd (List.mem_cons_of_mem _ List.mem_cons_self) (hfree _ rfl)
    | some e =>
      rw [hlook] at hfound
      exact ⟨ht, rfl, hfound⟩
  · exact fun _ _ h => h
  · rintro m ⟨e, he, hlocked⟩ hsome
    rw [hscan] at he
    obtain ⟨e', he'⟩ := Option.isSome_iff_exists.mp hsome
    rw [he', Option.some_or] at he
    obtain rfl := Option.some.inj he
    have hin : e' ∈ known := (List.mem_filter.mp (List.mem_of_find?_eq_some he')).1
    rw [List.mem_cons, List.mem_singleton] at hlocked
    rcases hlocked with hl | hl
    · exact absurd hl (hother e' hin)
    · exact absurd hl (Nat.ne_of_lt (hbelow _ he'))

end Scan

section Binding
variable {w : World} {locked : List DlHandle} {self : DlHandle} {lib : DynamicLibrary}
variable {s : State} {n : String} {names : List String} {look : String → Option DlHandle}

@[simp] theorem DynamicLibrary.bind_bound_self (h : DlHandle) : (lib.bind n h).bound n = some h :=
  Function.update_self _ _ _

theorem DynamicLibrary.bind_bound_of_ne {x : String} (hne : x ≠ n) :
    (lib.bind n h).bound x = lib.bound x :=
  Function.update_of_ne hne _ _

/-- Bind names of a library to what they lead to. -/
def State.bindAll (self : DlHandle) (names : List String) (look : String → Option DlHandle)
    (s : State) : State :=
  { s with
    registry := s.registry.update self fun lib =>
      { lib with bound := fun n => if n ∈ names then look n else lib.bound n } }

theorem State.bindAll_nil : s.bindAll self [] look = s := by
  have hsame : s.registry.update self (fun lib =>
      { lib with bound := fun n => if n ∈ [] then look n else lib.bound n }) = s.registry := by
    rw [update]
    conv_rhs => rw [← List.map_id s.registry]
    apply List.map_congr_left
    intro e he
    simp
  rw [bindAll, hsame]

/-- A name that leads nowhere stays unbound. -/
theorem State.bindAll_cons_none (hlook : look n = none)
    (hunbound : ∀ lib, (self, lib) ∈ s.registry → lib.bound n = none) :
    s.bindAll self (n :: names) look = s.bindAll self names look := by
  unfold bindAll
  refine congrArg (fun reg : Registry => { s with registry := reg }) ?_
  apply update_congr
  intro lib hlib
  have hsame : (fun x => if x ∈ n :: names then look x else lib.bound x) =
      fun x => if x ∈ names then look x else lib.bound x := by
    funext x
    by_cases hx : x = n
    · subst hx
      rw [if_pos List.mem_cons_self, hlook, hunbound lib hlib, ite_self]
    · simp only [List.mem_cons, hx, false_or]
  rw [hsame]

/-- Binding one name and then the others. -/
theorem State.bindAll_cons_some (hlook : look n = some h) (hnot : n ∉ names) :
    bindAll self names look { s with registry := s.registry.update self (·.bind n h) } =
      s.bindAll self (n :: names) look := by
  unfold bindAll
  refine congrArg (fun reg : Registry => { s with registry := reg }) ?_
  rw [update_update]
  apply update_congr
  intro lib hlib
  rw [Function.comp_apply]
  refine congrArg (fun b : String → Option DlHandle => { lib with bound := b }) ?_
  funext x
  by_cases hx : x = n
  · subst hx
    rw [if_neg hnot, if_pos List.mem_cons_self, DynamicLibrary.bind_bound_self, hlook]
  · simp only [List.mem_cons, hx, false_or, DynamicLibrary.bind_bound_of_ne hx]

theorem bindDependency_wp (hnodup : s.handles.Nodup)
    (hself : (self, lib) ∈ s.registry) (hneeded : n ∈ lib.needed) (hunbound : lib.bound n = none) :
    wp (bindDependency self n h)
      (fun _ t => t = { s with registry := s.registry.update self (·.bind n h) })
      (fun _ _ => False) s := by
  unfold bindDependency
  simp only [wp_bind, wp_gets, lookup_of_mem hnodup hself, if_pos hneeded, hunbound, wp_modify]

/-- Binding loaded names, when it is known how the scan for each name ends: it finds what `look`
says if `P` holds of the name, and waits if not. -/
theorem bindLoaded_ends (look : String → Option DlHandle) (P : String → Prop) (hnodup : s.handles.Nodup)
    (hself : (self, lib) ∈ s.registry) (hneeded : ∀ n ∈ names, n ∈ lib.needed)
    (hunbound : ∀ n ∈ names, lib.bound n = none) (hnames : names.Nodup)
    (hfind : ∀ n ∈ names, ∀ t : State, t.registry.index = s.registry.index →
      ends (findLoaded locked self (answersTo w n) t.registry)
        (fun found t' => t' = t ∧ P n ∧ found = look n) (fun _ _ => False) (fun _ => ¬ P n) t) :
    ends (bindLoaded w locked self names)
      (fun missing t => (∀ n ∈ names, P n) ∧ missing = names.filter (fun n => (look n).isNone) ∧
        t = s.bindAll self names look)
      (fun _ _ => False) (fun _ => ¬ ∀ n ∈ names, P n) s := by
  induction names generalizing s lib with
  | nil =>
    unfold bindLoaded
    rw [ends_pure]
    exact ⟨List.forall_mem_nil _, rfl, bindAll_nil.symm⟩
  | cons n names ih =>
    rw [List.nodup_cons] at hnames
    rw [List.forall_mem_cons] at hneeded hunbound hfind
    simp only [List.forall_mem_cons]
    unfold bindLoaded
    rw [ends_bind, ends_gets, ends_bind]
    apply (hfind.1 s rfl).mono
    · rintro found t ⟨rfl, hP, rfl⟩
      have hunique : ∀ lib', (self, lib') ∈ t.registry → lib'.bound n = none :=
        fun lib' hlib' => eq_of_mem hnodup hself hlib' ▸ hunbound.1
      cases hlook : look n with
      | none =>
        simp only
        rw [ends_bind]
        apply (ih hnodup hself hneeded.2 hunbound.2 hnames.2 hfind.2).mono
        · rintro missing t' ⟨hall, rfl, rfl⟩
          rw [ends_pure]
          refine ⟨⟨hP, hall⟩, ?_, (bindAll_cons_none hlook hunique).symm⟩
          rw [List.filter_cons, hlook]
          rfl
        · exact fun _ _ h => h
        · exact fun m hm hall => hm hall.2
      | some h =>
        simp only
        rw [ends_bind, ends_attempt]
        apply (bindDependency_wp hnodup hself hneeded.1 hunbound.1).ends.mono
          (A := fun _ => False)
        · intro _ u hu
          have hreg : u.registry = t.registry.update self (·.bind n h) := by rw [hu]
          have hindex : u.registry.index = t.registry.index := by
            rw [hreg]
            exact index_update fun lib => rfl
          have hnodup' : u.handles.Nodup := by
            rw [handles, hreg, map_fst_update]
            exact hnodup
          have hbound : (self, lib.bind n h) ∈ u.registry := by
            rw [hreg]
            exact mem_update_self hself
          have hstill : ∀ x ∈ names, (lib.bind n h).bound x = none := by
            intro x hx
            have hne : x ≠ n := fun heq => hnames.1 (heq ▸ hx)
            rw [DynamicLibrary.bind_bound_of_ne hne]
            exact hunbound.2 x hx
          apply (ih hnodup' hbound hneeded.2 hstill hnames.2
            fun x hx t' ht' => hfind.2 x hx t' (ht'.trans hindex)).mono
          · rintro missing t' ⟨hall, rfl, rfl⟩
            refine ⟨⟨hP, hall⟩, ?_, hu ▸ bindAll_cons_some hlook hnames.1⟩
            rw [List.filter_cons, hlook]
            rfl
          · exact fun _ _ h => h
          · exact fun m hm hall => hm hall.2
        · exact fun _ _ h => h.elim
        · exact fun _ h => h.elim
    · exact fun _ _ h => h
    · exact fun m hm hall => hm hall.1

end Binding

section Dependency
variable {w : World} {r : DlHandle} {root : DynamicLibrary} {s : State} {m : String}

theorem dependencyNames_nodup (libraries : List String) : (dependencyNames libraries).Nodup :=
  (List.perm_insertionSort _ _).nodup_iff.mpr (List.nodup_dedup _)

/-- A dependency as it is loaded: its names are bound to what is below the requested library. -/
def boundBelow (w : World) (r : DlHandle) (path : String) (libraries : List String)
    (known : List (DlHandle × String)) : DynamicLibrary where
  name := path
  needed := dependencyNames libraries
  bound name :=
    if name ∈ dependencyNames libraries then (lookBelow w r name known).map Prod.fst else none

/-- The state with a library that was opened for a name of the requested one. -/
def State.withDependency (r : DlHandle) (m : String) (h : DlHandle) (lib : DynamicLibrary)
    (s : State) : State :=
  { s with registry := mapInsert h lib (s.registry.update r (·.bind m h)) }

section WithDependency
variable {h : DlHandle} {lib : DynamicLibrary}

theorem State.index_withDependency :
    (s.withDependency r m h lib).registry.index = mapInsert h lib.name s.registry.index := by
  rw [withDependency, index_mapInsert]
  refine congrArg (mapInsert h lib.name) ?_
  exact index_update fun lib => rfl

theorem State.sorted_withDependency (hsorted : s.handles.Pairwise (· < ·)) :
    (s.withDependency r m h lib).handles.Pairwise (· < ·) := by
  rw [handles, withDependency]
  apply pairwise_mapInsert
  rw [map_fst_update]
  exact hsorted

section
variable (hfresh : h ∉ s.handles)
include hfresh

theorem State.perm_withDependency : (s.withDependency r m h lib).registry.Perm
      ((h, lib) :: s.registry.update r (·.bind m h)) := by
  apply perm_mapInsert (ne_of_notMem_keys _)
  rw [map_fst_update]
  exact hfresh

theorem State.mem_withDependency_self : (h, lib) ∈ (s.withDependency r m h lib).registry :=
  (perm_withDependency hfresh).mem_iff.mpr List.mem_cons_self

theorem State.mem_withDependency_root (hroot : (r, root) ∈ s.registry) :
    (r, root.bind m h) ∈ (s.withDependency r m h lib).registry :=
  (perm_withDependency hfresh).mem_iff.mpr
    (List.mem_cons_of_mem _ (mem_update_self hroot))

theorem State.mem_withDependency_of_ne
    (he : e ∈ s.registry) (hne : e.1 ≠ r) : e ∈ (s.withDependency r m h lib).registry :=
  (perm_withDependency hfresh).mem_iff.mpr
    (List.mem_cons_of_mem _ (mem_update_of_ne hne he))

end

end WithDependency

theorem freshHandle_ne (w : World) {s : State}
    (he : e ∈ s.registry) : e.1 ≠ w.freshHandle s.handles :=
  ne_of_notMem_keys (w.freshHandle_notMem s.handles) e he

/-- Opening a missing library and binding it: the descriptor is fresh, and the name was free. -/
theorem addDependency_ends (hnodup : s.handles.Nodup) (hroot : (r, root) ∈ s.registry)
    (hneeded : m ∈ root.needed) (hunbound : root.bound m = none) :
    ends (addDependency w r m)
      (fun h t => ∃ libraries, w.image (resolveLibraryPath w m) = .ok libraries ∧
        h = w.freshHandle s.handles ∧
        t = s.withDependency r m h
          ⟨resolveLibraryPath w m, dependencyNames libraries, fun _ => none⟩)
      (fun _ t => t = s ∧ ∃ e, w.image (resolveLibraryPath w m) = .error e)
      (fun _ => False) s := by
  unfold addDependency openLibrary
  rw [ends_bind, ends_bind]
  cases himage : w.image (resolveLibraryPath w m) with
  | error e =>
    rw [ends_ofExcept_error]
    exact ⟨rfl, e, rfl⟩
  | ok libraries =>
    rw [ends_ofExcept_ok, ends_bind, ends_gets, ends_pure, ends_bind, ends_gets]
    rw [if_neg (w.freshHandle_notMem s.handles)]
    have hne : r ≠ w.freshHandle s.handles := freshHandle_ne w hroot
    have hperm := perm_mapInsert (v := (⟨resolveLibraryPath w m, dependencyNames libraries,
      fun _ => none⟩ : DynamicLibrary)) fun e he => freshHandle_ne w (s := s) he
    unfold register
    rw [ends_bind, ends_modify, ends_bind]
    apply (bindDependency_wp ?_ ?_ hneeded hunbound).ends.mono
    · intro _ t ht
      rw [ends_pure]
      refine ⟨libraries, rfl, rfl, ?_⟩
      rw [ht, withDependency]
      refine congrArg (fun reg : Registry => { s with registry := reg }) ?_
      exact update_mapInsert_of_ne hne.symm
    · exact fun _ _ h => h.elim
    · exact fun _ h => h
    · apply (hperm.map Prod.fst).nodup_iff.mpr
      rw [List.map_cons, List.nodup_cons]
      exact ⟨w.freshHandle_notMem s.handles, hnodup⟩
    · exact hperm.mem_iff.mpr (List.mem_cons_of_mem _ hroot)

/-- Loading a dependency of the requested library ends if each of its names is found below the
requested library, and waits for its own lock if not. -/
theorem loadDependency_ends (depth : Nat) (hsorted : s.handles.Pairwise (· < ·))
    (hroot : (r, root) ∈ s.registry) (hneeded : m ∈ root.needed) (hunbound : root.bound m = none) :
    ends (do
        let h ← addDependency w r m
        loadAllDependencies w (depth + 1) (h :: [r]) h)
      (fun _ t => ∃ libraries, w.image (resolveLibraryPath w m) = .ok libraries ∧
        (∀ n ∈ dependencyNames libraries, (lookBelow w r n s.registry.index).isSome) ∧
        t = s.withDependency r m (w.freshHandle s.handles)
          (boundBelow w r (resolveLibraryPath w m) libraries s.registry.index))
      (fun _ t => t = s ∧ ∃ e, w.image (resolveLibraryPath w m) = .error e)
      (fun _ => ∃ libraries, w.image (resolveLibraryPath w m) = .ok libraries ∧
        ¬ ∀ n ∈ dependencyNames libraries, (lookBelow w r n s.registry.index).isSome) s := by
  have hnodup : s.handles.Nodup := hsorted.imp Nat.ne_of_lt
  rw [ends_bind]
  apply (addDependency_ends hnodup hroot hneeded hunbound).mono
  · rintro h t ⟨libraries, himage, rfl, ht⟩
    have hfresh := w.freshHandle_notMem s.handles
    have hindex : t.registry.index.filter (·.1 ≠ w.freshHandle s.handles) = s.registry.index := by
      rw [ht, index_withDependency]
      exact filter_ne_mapInsert (map_fst_index ▸ hfresh)
    have hsorted' : t.handles.Pairwise (· < ·) := ht ▸ sorted_withDependency hsorted
    have hself : (w.freshHandle s.handles, (⟨resolveLibraryPath w m, dependencyNames libraries,
        fun _ => none⟩ : DynamicLibrary)) ∈ t.registry :=
      ht ▸ mem_withDependency_self hfresh
    have hsortedIndex : (s.registry.index.map Prod.fst).Pairwise (· < ·) := by
      rw [map_fst_index]
      exact hsorted
    have hnodup' : t.handles.Nodup := hsorted'.imp Nat.ne_of_lt
    unfold loadAllDependencies
    rw [ends_bind, ends_gets, lookup_of_mem hnodup' hself, ends_bind]
    apply (bindLoaded_ends (fun n => (lookBelow w r n s.registry.index).map Prod.fst)
      (fun n => (lookBelow w r n s.registry.index).isSome) hnodup' hself (fun n hn => hn)
      (fun n hn => rfl) (dependencyNames_nodup libraries) ?_).mono
    · rintro missing u ⟨hall, rfl, rfl⟩
      -- Nothing is missing, so nothing is loaded on a deeper level.
      have hnone : (dependencyNames libraries).filter
          (fun n => ((lookBelow w r n s.registry.index).map Prod.fst).isNone) = [] := by
        apply List.filter_eq_nil_iff.mpr
        intro n hn
        obtain ⟨e, he⟩ := Option.isSome_iff_exists.mp (hall n hn)
        rw [he]
        exact Bool.false_ne_true
      change ends (forEach _ (List.reverse (List.filter _ _))) _ _ _ _
      rw [hnone, List.reverse_nil]
      unfold forEach
      rw [ends_pure]
      refine ⟨libraries, himage, hall, ?_⟩
      rw [ht, bindAll, withDependency, withDependency]
      refine congrArg (fun reg : Registry => { s with registry := reg }) ?_
      apply update_mapInsert_self
      rw [map_fst_update]
      exact hfresh
    · exact fun _ _ h => h.elim
    · exact fun _ h => ⟨libraries, himage, h⟩
    · intro n hn u hu
      exact findLoaded_below_ends (by rw [hu, hindex]) hsortedIndex
        (mem_index_of_mem hroot)
  · exact fun _ _ h => h
  · exact fun _ h => h.elim

end Dependency

end Nanvix.Dlfcn
