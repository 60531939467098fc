import Mathlib.Logic.Relation
import Nanvix.Dlfcn.Relocation

/-!
# How a call of `dlopen` ends

A call that loads a library returns a batch in the order of its relocations,
fails because a file is missing or a relocation cannot be processed, or waits
for its own lock. What makes a call right is stated here: it returns, and on
success everything the requested library needs is loaded once per path, is bound
and had its relocations processed once, dependencies first; on failure the
registry is as it was.
-/
namespace Nanvix.Dlfcn

open Nanvix.Library Nanvix.Library.Prog Relation

/-- The library at one path needs the library at another. -/
def Needs (w : World) (p q : String) : Prop :=
  ∃ libraries, w.image p = .ok libraries ∧ ∃ n ∈ libraries, q = resolveLibraryPath w n

/-- A loaded library is bound, and its relocations were processed once and in order. -/
structure Ready (w : World) (s : State) (e : DlHandle × DynamicLibrary) : Prop where
  bound : ∃ libraries, w.image e.2.name = .ok libraries ∧ ∀ n ∈ libraries,
    ∃ d ∈ s.registry, e.2.bound n = some d.1 ∧ d.2.name = resolveLibraryPath w n
  once : s.relocated.count e.1 = 1
  inOrder : (¬ ∃ p, ReflTransGen (Needs w) e.2.name p ∧ TransGen (Needs w) p p) →
    ∀ d ∈ e.2.dependencyHandles, s.relocated.idxOf d < s.relocated.idxOf e.1

/-- A registry of loaded libraries. -/
structure Consistent (w : World) (s : State) : Prop where
  sorted : s.handles.Pairwise (· < ·)
  ready : ∀ e ∈ s.registry, Ready w s e
  unique : ∀ e ∈ s.registry, ∀ e' ∈ s.registry, e'.2.name = e.2.name → e' = e
  relocated : ∀ h ∈ s.relocated, h ∈ s.handles

/-- What a call of `dlopen` for a path has to do. -/
def Correct (w : World) (s : State) (path : String) : Outcome State Error DlHandle → Prop
  | .ok h t => (∃ lib, (h, lib) ∈ t.registry ∧ lib.name = path) ∧
      ∀ p, ReflTransGen (Needs w) path p → ∃ e ∈ t.registry, e.2.name = p ∧
        (∀ e' ∈ t.registry, e'.2.name = p → e' = e) ∧ Ready w t e
  | .err _ t => t.registry = s.registry
  | .abort _ => False

/-- The names to load for a library, in the order in which they are loaded. -/
def toLoad (w : World) (s : State) (libraries : List String) : List String :=
  (missingNames w s.registry.index (dependencyNames libraries)).reverse

/-- What the dependencies of the requested library need is found before the scan comes to it. -/
def sheltered (w : World) (s : State) (path : String) (libraries : List String) : Bool :=
  visits w (w.freshHandle s.handles) (fun _ _ => true) (toLoad w s libraries)
    (mapInsert (w.freshHandle s.handles) path s.registry.index)

/-- A file is missing, or a relocation cannot be processed. -/
def fails (w : World) (s : State) (path : String) (libraries : List String) : Bool :=
  ((toLoad w s libraries).any fun m => !(w.image (resolveLibraryPath w m)).isOk) ||
    (path :: (toLoad w s libraries).map (resolveLibraryPath w)).any fun p => !(w.relocate p).isOk

/-- No two of the libraries to load have one path, and each name that is found among the loaded
libraries is found by its path. -/
def unambiguous (w : World) (s : State) (path : String) (libraries : List String) : Bool :=
  decide (path :: (toLoad w s libraries).map (resolveLibraryPath w)).Nodup &&
    (libraries.all fun n =>
      (lookUp w n s.registry.index).all fun e => e.2 = resolveLibraryPath w n) &&
    visits w (w.freshHandle s.handles) (fun n name => name = resolveLibraryPath w n)
      (toLoad w s libraries) (mapInsert (w.freshHandle s.handles) path s.registry.index)

/-- The library is loaded, or it can be loaded without waiting and without mistaking a library. -/
def Loadable (w : World) (s : State) (path : String) : Prop :=
  (∃ e ∈ s.registry, e.2.name = path) ∨
    ∀ libraries, w.image path = .ok libraries → sheltered w s path libraries = true ∧
      (fails w s path libraries = true ∨ unambiguous w s path libraries = true)

variable {libraries : List String} {n : String}

theorem mem_dependencyNames : n ∈ dependencyNames libraries ↔ n ∈ libraries := by
  rw [dependencyNames, List.mem_insertionSort, List.mem_dedup]

/-- What is left by a call that loaded a library. -/
structure Opened (w : World) (s : State) (path : String) (libraries : List String)
    (news : List (String × DlHandle)) (ordered : List DlHandle) (t : State) : Prop where
  image : w.image path = .ok libraries
  batch : Batch w s (w.freshHandle s.handles) path libraries news t
  names : toLoad w s libraries = (news.map Prod.fst).reverse
  visits : ∀ ok, visits w (w.freshHandle s.handles) ok (toLoad w s libraries)
    (mapInsert (w.freshHandle s.handles) path s.registry.index) = true ↔
      ∀ x ∈ news, Agrees ok t.registry x.2
  perm : ordered.Perm (newHandles s t)
  inTurn : InTurn (settled s.handles t.registry) ordered
  relocated : t.relocated = s.relocated ++ ordered
  links : ∀ h ∈ newHandles s t, ∀ lib, (h, lib) ∈ t.registry → w.relocate lib.name = .ok ()

section Load
variable {w : World} {s : State} {path : String} {global : Bool}

theorem fails_of_image {m : String} {e : Error}
    (hm : m ∈ toLoad w s libraries) (he : w.image (resolveLibraryPath w m) = .error e) :
    fails w s path libraries = true := by
  rw [fails, Bool.or_eq_true]
  left
  rw [List.any_eq_true]
  exact ⟨m, hm, by rw [he]; rfl⟩

variable {r : DlHandle} {news : List (String × DlHandle)}

/-- The paths of the batch are those of the requested library and of the names to load. -/
theorem Batch.name_mem {s₀ : State} (hb : Batch w s₀ r path libraries news s) {h : DlHandle}
    {lib : DynamicLibrary} (hh : h ∈ newHandles s₀ s) (hlib : (h, lib) ∈ s.registry) :
    lib.name ∈ path :: (news.map Prod.fst).reverse.map (resolveLibraryPath w) := by
  rcases hb.mem_newHandles.mp hh with rfl | hmem
  · rw [eq_of_mem hb.nodup hlib hb.root]
    exact List.mem_cons_self
  · obtain ⟨x, hx, rfl⟩ := List.mem_map.mp hmem
    obtain ⟨own, -, hown, hname, -⟩ := hb.chained.of_mem hx
    rw [eq_of_mem hb.nodup hlib hown, hname]
    exact List.mem_cons_of_mem _
      (List.mem_map_of_mem (List.mem_reverse.mpr (List.mem_map_of_mem hx)))

theorem finishOpen_wp (h : DlHandle) :
    wp (finishOpen global h)
      (fun h' t => h' = h ∧ t.registry = s.registry ∧ t.relocated = s.relocated ∧
        ∀ d, d ∈ t.pinned ↔ d ∈ s.pinned ∨ global = true ∧ d = h)
      (fun _ _ => False) s := by
  unfold finishOpen registerLibraryInGlobalScope
  cases global with
  | false =>
    rw [if_neg Bool.false_ne_true, wp_pure]
    exact ⟨rfl, rfl, rfl, fun d => by simp⟩
  | true =>
    rw [if_pos rfl, wp_bind, wp_modify, wp_pure]
    refine ⟨rfl, rfl, rfl, ?_⟩
    intro d
    by_cases hp : h ∈ s.pinned
    · simp only [if_pos hp, true_and]
      exact ⟨Or.inl, fun hd => hd.elim id fun heq => heq ▸ hp⟩
    · simp [if_neg hp]

/-- Loading a library that is not there: how each ending comes about. -/
theorem loadLibrary_ends (depth : Nat) (hsorted : s.handles.Pairwise (· < ·)) :
    ends (loadLibrary w (depth + 2) path global)
      (fun h t => h = w.freshHandle s.handles ∧
        (∃ libraries news ordered, Opened w s path libraries news ordered t) ∧
        ∀ d, d ∈ t.pinned ↔ d ∈ s.pinned ∨ global = true ∧ d = h)
      (fun _ t => t.registry = s.registry ∧ ((∃ e, w.image path = .error e) ∨
        ∃ libraries, w.image path = .ok libraries ∧ sheltered w s path libraries = true ∧
          fails w s path libraries = true))
      (fun _ => ∃ libraries, w.image path = .ok libraries ∧
        sheltered w s path libraries = false) s := by
  unfold loadLibrary openLibrary
  rw [ends_bind, ends_gets, ends_bind, ends_bind]
  cases himage : w.image path with
  | error e =>
    rw [ends_ofExcept_error]
    exact ⟨rfl, Or.inl ⟨e, rfl⟩⟩
  | ok libraries =>
    rw [ends_ofExcept_ok, ends_bind, ends_gets, ends_pure]
    unfold register
    rw [ends_bind, ends_modify, ends_bind, ends_attempt, ends_bind]
    apply (loadAllDependencies_ends depth hsorted (w.freshHandle_notMem s.handles) rfl).mono
    · rintro _ u ⟨hpin, hrel, news, hb, hsplit, hvisits⟩
      rw [List.append_nil] at hsplit
      apply (resolveAllSymbols_ends hb).mono
      · rintro _ t ⟨ordered, hperm, hturn, rfl, hlinks⟩
        apply (finishOpen_wp _).ends.mono (A := fun _ => False)
        · rintro h ⟨reg, pinned, relocated⟩ ⟨rfl, hreg, hrel', hpin'⟩
          obtain rfl : reg = u.registry := hreg
          refine ⟨rfl, ⟨libraries, news, ordered, ?_⟩, by rw [← hpin]; exact hpin'⟩
          constructor
          case image => exact himage
          case batch => exact { hb with }
          case names => exact hsplit
          case visits => exact fun ok => (hvisits ok).trans ⟨fun h => h.1, fun h => ⟨h, rfl⟩⟩
          case perm => exact hperm
          case inTurn => exact hturn
          case relocated => rw [hrel', hrel]
          case links => exact hlinks
        · exact fun _ _ h => h.elim
        · exact fun _ h => h.elim
      · rintro e t ⟨hreg, -, h, hh, lib, e', hlib, hbad⟩
        rw [ends_bind, ends_modify, ends_throw]
        refine ⟨?_, Or.inr ⟨libraries, rfl, ?_, ?_⟩⟩
        · rw [State.rollBack, hreg]
          exact hb.kept
        · rw [sheltered, toLoad, hvisits]
          exact ⟨fun x hx => hb.agrees_true hx, rfl⟩
        · rw [fails, Bool.or_eq_true]
          right
          rw [List.any_eq_true]
          refine ⟨lib.name, ?_, by rw [hbad]; rfl⟩
          have hname := hb.name_mem hh hlib
          rw [← hsplit] at hname
          exact hname
      · exact fun _ h => h.elim
    · rintro e t ⟨hshelter, hkept, -, -, m, hm, e', he'⟩
      rw [ends_bind, ends_modify, ends_throw]
      exact ⟨hkept, Or.inr ⟨libraries, rfl, hshelter, fails_of_image hm he'⟩⟩
    · exact fun _ h => ⟨libraries, rfl, h⟩

end Load

section Opened
variable {w : World} {s t : State} {path : String} {libraries : List String}
variable {news : List (String × DlHandle)} {ordered : List DlHandle}

theorem mem_toLoad {m : String} : m ∈ toLoad w s libraries ↔
    m ∈ libraries ∧ lookUp w m s.registry.index = none := by
  rw [toLoad, List.mem_reverse, missingNames, List.mem_filter, mem_dependencyNames,
    Option.isNone_iff_eq_none, Option.map_eq_none_iff]

theorem toLoad_nodup : (toLoad w s libraries).Nodup :=
  List.nodup_reverse.mpr ((dependencyNames_nodup libraries).filter _)

section
variable (ho : Opened w s path libraries news ordered t)
include ho

/-- The libraries of the batch were opened for the names to load. -/
theorem Opened.mem_names {m : String} : m ∈ toLoad w s libraries ↔ ∃ h, (m, h) ∈ news := by
  rw [ho.names, List.mem_reverse]
  constructor
  · intro hm
    obtain ⟨⟨m', h⟩, hx, rfl⟩ := List.mem_map.mp hm
    exact ⟨h, hx⟩
  · rintro ⟨h, hx⟩
    exact List.mem_map.mpr ⟨(m, h), hx, rfl⟩

theorem Opened.mem_toLoad {x : String × DlHandle} (hx : x ∈ news) : x.1 ∈ toLoad w s libraries :=
  ho.mem_names.mpr ⟨x.2, hx⟩

/-- A call that succeeds had no reason to fail. -/
theorem Opened.not_fails : fails w s path libraries = false := by
  rw [fails, Bool.or_eq_false_iff, List.any_eq_false, List.any_eq_false]
  have hlinks {h : DlHandle} {lib : DynamicLibrary} (hh : h ∈ newHandles s t)
      (hlib : (h, lib) ∈ t.registry) : ¬ (!(w.relocate lib.name).isOk) = true := by
    rw [ho.links h hh lib hlib]
    exact Bool.false_ne_true
  constructor
  · intro m hm
    obtain ⟨h, hx⟩ := ho.mem_names.mp hm
    obtain ⟨lib, images, -, -, himage, -⟩ := ho.batch.chained.of_mem hx
    rw [himage]
    exact Bool.false_ne_true
  · intro p hp
    rcases List.mem_cons.mp hp with rfl | hp
    · exact hlinks (ho.batch.mem_newHandles.mpr (Or.inl rfl)) ho.batch.root
    · obtain ⟨m, hm, rfl⟩ := List.mem_map.mp hp
      obtain ⟨h, hx⟩ := ho.mem_names.mp hm
      obtain ⟨lib, images, hlib, hname, -⟩ := ho.batch.chained.of_mem hx
      rw [← hname]
      exact hlinks (ho.batch.mem_newHandles.mpr (Or.inr (List.mem_map_of_mem hx))) hlib

theorem Opened.sheltered : sheltered w s path libraries = true :=
  (ho.visits _).mpr fun _ hx => ho.batch.agrees_true hx

/-- A name that is loaded already was not opened. -/
theorem Opened.lookup_eq_none {e : DlHandle × String} (he : lookUp w n s.registry.index = some e) :
    news.lookup n = none := by
  rw [List.lookup_eq_none_iff]
  intro x hx
  apply bne_iff_ne.mpr
  rintro rfl
  have hnone := (Dlfcn.mem_toLoad.mp (ho.mem_toLoad hx)).2
  cases he.symm.trans hnone

/-- If everything the requested library needs is there once and ready, no library was mistaken. -/
theorem Opened.unambiguous_of_ready
    (hready : ∀ p, ReflTransGen (Needs w) path p → ∃ e ∈ t.registry, e.2.name = p ∧
      (∀ e' ∈ t.registry, e'.2.name = p → e' = e) ∧ Ready w t e) :
    unambiguous w s path libraries = true := by
  have hb := ho.batch
  obtain ⟨root, hrootMem, hrootName, hrootOnly, hrootReady⟩ := hready path .refl
  have hroot := hrootOnly _ hb.root rfl
  have hnews {x : String × DlHandle} (hx : x ∈ news) :
      ∃ lib images, (x.2, lib) ∈ t.registry ∧ lib.name = resolveLibraryPath w x.1 ∧
        w.image (resolveLibraryPath w x.1) = .ok images ∧ lib.needed = dependencyNames images ∧
        (∀ e ∈ t.registry, e.2.name = resolveLibraryPath w x.1 → e = (x.2, lib)) ∧
        Ready w t (x.2, lib) := by
    obtain ⟨lib, images, hlib, hname, himage, hneeded, -⟩ := hb.chained.of_mem hx
    have hneeds : Needs w path (resolveLibraryPath w x.1) :=
      ⟨libraries, ho.image, x.1, (Dlfcn.mem_toLoad.mp (ho.mem_toLoad hx)).1, rfl⟩
    obtain ⟨e, -, -, honly, he⟩ := hready _ (.single hneeds)
    obtain rfl := honly _ hlib hname
    exact ⟨lib, images, hlib, hname, himage, hneeded, honly, he⟩
  rw [unambiguous, Bool.and_eq_true, Bool.and_eq_true, decide_eq_true_eq]
  refine ⟨⟨List.nodup_cons.mpr ⟨?_, ?_⟩, ?_⟩, ?_⟩
  · intro hmem
    obtain ⟨m, hm, hpath⟩ := List.mem_map.mp hmem
    obtain ⟨h, hx⟩ := ho.mem_names.mp hm
    obtain ⟨lib, -, hlib, hname, -⟩ := hnews hx
    have heq := (hrootOnly _ hlib (hname.trans hpath)).trans hroot.symm
    exact (hb.apart _ hx).2 (Prod.mk.inj heq).1
  · apply toLoad_nodup.map_on
    intro m hm m' hm' heq
    obtain ⟨h, hx⟩ := ho.mem_names.mp hm
    obtain ⟨h', hx'⟩ := ho.mem_names.mp hm'
    obtain ⟨lib, -, hlib, hname, -, -, honly, -⟩ := hnews hx
    obtain ⟨lib', -, hlib', hname', -⟩ := hnews hx'
    have hsame : h' = h := (Prod.mk.inj (honly _ hlib' (hname'.trans heq.symm))).1
    have hentry := List.inj_on_of_nodup_map hb.distinct hx' hx hsame
    exact (Prod.mk.inj hentry).1.symm
  · rw [List.all_eq_true]
    intro n hn
    cases hlook : lookUp w n s.registry.index with
    | none => rfl
    | some e =>
      obtain ⟨images, himage, hbound⟩ := hrootReady.bound
      rw [hrootName, ho.image] at himage
      cases himage
      obtain ⟨d, hd, hdn, hname⟩ := hbound n hn
      rw [← hroot, requested_bound (mem_dependencyNames.mpr hn), ho.lookup_eq_none hlook,
        hlook] at hdn
      have hde : e.1 = d.1 := Option.some.inj hdn
      obtain ⟨lib, hlib, hlibName⟩ := Registry.mem_index (List.mem_of_find?_eq_some hlook)
      have hsame := eq_of_mem hb.nodup (hde ▸ hb.old_mem hlib) hd
      rw [Option.all_some, decide_eq_true_eq, ← hlibName, hsame, hname]
  · apply (ho.visits _).mpr
    intro x hx lib hlib n hn
    obtain ⟨own, images, hown, hname, himage, hneeded, -, hr⟩ := hnews hx
    obtain rfl := eq_of_mem hb.nodup hown hlib
    obtain ⟨images', himage', hbound⟩ := hr.bound
    simp only [hname, himage, Except.ok.injEq] at himage'
    subst himage'
    rw [hneeded, mem_dependencyNames] at hn
    obtain ⟨d, hd, hdn, hdname⟩ := hbound n hn
    exact ⟨d.1, d.2.name, hdn, Registry.mem_index_of_mem hd, decide_eq_true hdname⟩

end

end Opened

end Nanvix.Dlfcn
