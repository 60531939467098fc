import Mathlib.Data.List.Sort
import Nanvix.Base
import Nanvix.Library.Containers
import Nanvix.Library.Outcome

/-!
# Dynamic libraries: the registry, `dlopen` and `dlclose`

The registry maps handles to loaded libraries. `dlopen` opens a library, then
the libraries it needs, binds each name in a library's list of needed names to a
loaded library, and processes the relocations of what it loaded. `dlclose` takes
a library out once nobody else refers to it, and then what it was bound to.

A library is shared: the registry, every library bound to it and the list of
global libraries hold a reference each, and `dlclose` reads the number of
references. Each library also has a lock. A thread that takes a lock it holds
already waits for itself.

## Implementation notes

Handles are file descriptors, and a library is known by its handle: its file
stays open as long as it is referred to. The registry is a list in the order of
the handles, which is the order in which it is scanned.

Images, free descriptors and the success of relocations are answers of the
world. A program that would wait for its own lock aborts, and so does one that
would panic. The depth of the recursion is bounded by a parameter.
-/
namespace Nanvix.Dlfcn

open Nanvix.Library Nanvix.Library.Prog

abbrev DlHandle := Nat

/-- A library: the path it was opened from, the names it needs, and what they are bound to. -/
structure DynamicLibrary where
  name : String
  needed : List String
  bound : String → Option DlHandle

/-- The libraries that the needed names are bound to, in the order of the names. -/
def DynamicLibrary.dependencyHandles (lib : DynamicLibrary) : List DlHandle :=
  lib.needed.filterMap lib.bound

abbrev Registry := List (DlHandle × DynamicLibrary)

/-- What is outside: the files, the images in them and the descriptors they are opened at. -/
structure World where
  /-- The file can be opened for reading. -/
  isFile : String → Bool
  /-- The names an image needs, or why it cannot be opened. -/
  image : String → Except Error (List String)
  /-- The descriptor of a file opened while these are in use. -/
  freshHandle : List DlHandle → DlHandle
  freshHandle_notMem : ∀ used, freshHandle used ∉ used
  /-- Processing the relocations of a library. -/
  relocate : String → Except Error Unit

/-- The registry and the global libraries, and the libraries whose relocations were processed. -/
structure State where
  registry : Registry := []
  pinned : List DlHandle := []
  relocated : List DlHandle := []

/-- The handles in the registry. -/
def State.handles (s : State) : List DlHandle := s.registry.map Prod.fst

section Paths

def librarySearchPaths : List String := ["lib/"]

/-- A path without one leading `./`. -/
def stripDotSlash : List Char → List Char
  | '.' :: '/' :: rest => rest
  | cs => cs

/-- The path a library is opened from. A bare name is looked up in the search paths. -/
def resolveLibraryPath (w : World) (filename : String) : String :=
  if filename.toList.contains '/' then
    let normalized := (stripDotSlash filename.toList).dropWhile (· == '/')
    if normalized.isEmpty then filename else String.ofList normalized
  else
    match librarySearchPaths.find? fun dir => w.isFile (dir ++ filename) with
    | some dir => dir ++ filename
    | none => filename

/-- A loaded library answers to a needed name by that name or by its path. -/
def answersTo (w : World) (dependency : String) (loadedName : String) : Bool :=
  loadedName = dependency || loadedName = resolveLibraryPath w dependency

end Paths

section Libraries

/-- The keys of the map of dependencies: each needed name once, in order. -/
def dependencyNames (libraries : List String) : List String :=
  libraries.dedup.insertionSort (· ≤ ·)

/-- Change what stands at a handle. -/
def Registry.update (h : DlHandle) (f : DynamicLibrary → DynamicLibrary) (reg : Registry) :
    Registry :=
  reg.map fun e => (e.1, if e.1 = h then f e.2 else e.2)

/-- Bind one name of a library. -/
def DynamicLibrary.bind (lib : DynamicLibrary) (name : String) (h : DlHandle) :
    DynamicLibrary :=
  { lib with bound := Function.update lib.bound name (some h) }

/-- `DynamicLibrary::open`. Nothing is bound yet. -/
def openLibrary (w : World) (path : String) : Prog State Error (DlHandle × DynamicLibrary) := do
  let libraries ← ofExcept (w.image path)
  let used ← gets State.handles
  pure (w.freshHandle used, ⟨path, dependencyNames libraries, fun _ => none⟩)

/-- `DynamicLibrary::bind_dependency` on the library at a handle. -/
def bindDependency (self : DlHandle) (name : String) (h : DlHandle) : Prog State Error Unit := do
  let registry ← gets State.registry
  match registry.lookup self with
  | none => abort "library is not registered"
  | some lib =>
    if name ∈ lib.needed then
      match lib.bound name with
      | none =>
        modify fun s => { s with registry := s.registry.update self (·.bind name h) }
      | some _ => throw ⟨.badFile, "dependency already loaded"⟩
    else throw ⟨.badFile, "dependency not listed"⟩

/-- Put a library into the registry. -/
def register (h : DlHandle) (lib : DynamicLibrary) : Prog State Error Unit :=
  modify fun s => { s with registry := mapInsert h lib s.registry }

end Libraries

section Loading

/-- Look through the registry for a library that answers to a name, passing over the library
itself. Each library is locked before its name is read. -/
def findLoaded (locked : List DlHandle) (self : DlHandle) (isMatch : String → Bool) :
    Registry → Prog State Error (Option DlHandle)
  | [] => pure none
  | (h, lib) :: rest =>
    if h = self then findLoaded locked self isMatch rest
    else if h ∈ locked then abort "waits for its own lock"
    else if isMatch lib.name then pure (some h)
    else findLoaded locked self isMatch rest

/-- Bind the names that are loaded already, and keep the others. -/
def bindLoaded (w : World) (locked : List DlHandle) (self : DlHandle) :
    List String → Prog State Error (List String)
  | [] => pure []
  | dependency :: rest => do
      let registry ← gets State.registry
      let found ← findLoaded locked self (answersTo w dependency) registry
      match found with
      | none => do
          let missing ← bindLoaded w locked self rest
          pure (dependency :: missing)
      | some h => do
          let result ← attempt (bindDependency self dependency h)
          match result with
          | .error _ => abort "cannot fail to bind dependency"
          | .ok _ => bindLoaded w locked self rest

/-- Open a missing library, register it and bind it to the library that needs it. -/
def addDependency (w : World) (self : DlHandle) (dependency : String) :
    Prog State Error DlHandle := do
  let opened ← openLibrary w (resolveLibraryPath w dependency)
  let used ← gets State.handles
  if opened.1 ∈ used then abort "library file already loaded"
  else do
    register opened.1 opened.2
    bindDependency self dependency opened.1
    pure opened.1

/-- `load_all_dependencies_recursive`. The library itself and those on the way to it are locked. -/
def loadAllDependencies (w : World) : Nat → List DlHandle → DlHandle → Prog State Error Unit
  | 0, _, _ => abort "the recursion is too deep"
  | depth + 1, locked, self => do
      let registry ← gets State.registry
      let missing ← bindLoaded w locked self
        ((registry.lookup self).elim [] DynamicLibrary.needed)
      forEach (fun dependency => do
        let h ← addDependency w self dependency
        loadAllDependencies w depth (h :: locked) h) missing.reverse

end Loading

section Relocating

/-- One pass over the new libraries: those whose dependencies are settled are put in order. -/
def orderPass (before : List DlHandle) (registry : Registry) :
    List DlHandle → List DlHandle → Prog State Error (List DlHandle)
  | [], ordered => pure ordered
  | h :: rest, ordered =>
    if h ∈ ordered then orderPass before registry rest ordered
    else
      match registry.lookup h with
      | none => orderPass before registry rest ordered
      | some lib =>
        -- The library stays locked while the handles of its dependencies are read.
        if h ∈ lib.dependencyHandles then abort "waits for its own lock"
        else if lib.dependencyHandles.all fun d => d ∈ before || d ∈ ordered then
          orderPass before registry rest (ordered ++ [h])
        else orderPass before registry rest ordered

/-- Passes until every new library has its place or a pass changes nothing. -/
def orderLibraries (before : List DlHandle) (registry : Registry) (new : List DlHandle) :
    Nat → List DlHandle → Prog State Error (List DlHandle)
  | 0, _ => abort "the passes do not end"
  | rounds + 1, ordered => do
      let next ← orderPass before registry new ordered
      if next.length = new.length then pure next
      else if next.length = ordered.length then
        pure (next ++ new.filter (· ∉ next))
      else orderLibraries before registry new rounds next

/-- `DynamicLibrary::resolve_all` on the library at a handle. -/
def resolveAll (w : World) (h : DlHandle) : Prog State Error Unit := do
  let registry ← gets State.registry
  match registry.lookup h with
  | none => pure ()
  | some lib => do
      ofExcept (w.relocate lib.name)
      modify fun s => { s with relocated := s.relocated ++ [h] }

/-- Process the relocations of the libraries that were not there before. -/
def resolveAllSymbols (w : World) (before : List DlHandle) : Prog State Error Unit := do
  let registry ← gets State.registry
  let new := (registry.map Prod.fst).filter (· ∉ before)
  let ordered ← orderLibraries before registry new (new.length + 1) []
  forEach (resolveAll w) ordered

end Relocating

section Opening

/-- Make a library a global one, once. -/
def registerLibraryInGlobalScope (h : DlHandle) : Prog State Error Unit :=
  modify fun s => { s with pinned := if h ∈ s.pinned then s.pinned else s.pinned ++ [h] }

/-- Take out of the registry what was not there before. -/
def State.rollBack (before : List DlHandle) (s : State) : State :=
  { s with
    registry := s.registry.filter (·.1 ∈ before)
    relocated := s.relocated.filter (· ∈ before) }

/-- Make the library global if the caller asks for it, and return its handle. -/
def finishOpen (global : Bool) (h : DlHandle) : Prog State Error DlHandle :=
  if global then do
    registerLibraryInGlobalScope h
    pure h
  else pure h

/-- Load a library that is not in the registry. -/
def loadLibrary (w : World) (depth : Nat) (path : String) (global : Bool) :
    Prog State Error DlHandle := do
  let before ← gets State.handles
  let opened ← openLibrary w path
  register opened.1 opened.2
  let result ← attempt do
    loadAllDependencies w depth [opened.1] opened.1
    resolveAllSymbols w before
  match result with
  | .ok _ => finishOpen global opened.1
  | .error e => do
      modify (State.rollBack before)
      throw e

/-- `dlopen`. A library that is loaded is not loaded again. -/
def dlopen (w : World) (depth : Nat) (filename : String) (global : Bool) :
    Prog State Error DlHandle := do
  let path := resolveLibraryPath w filename
  let registry ← gets State.registry
  match registry.find? fun e => e.2.name = path with
  | some e => finishOpen global e.1
  | none => loadLibrary w depth path global

end Opening

section Closing

/-- How many references to the library at a handle the loaded libraries hold. -/
def Registry.bindings (reg : Registry) (h : DlHandle) : Nat :=
  (reg.flatMap fun e => e.2.dependencyHandles).count h

/-- The references to a library: one from the registry, one for each name bound to it, one if it is
global, and one for each local variable of the caller that holds it. -/
def State.strongCount (s : State) (locals : List DlHandle) (h : DlHandle) : Nat :=
  1 + s.registry.bindings h + s.pinned.count h + locals.count h

/-- The state without a library. -/
def State.extract (h : DlHandle) (s : State) : State :=
  { s with
    registry := mapErase h s.registry
    relocated := s.relocated.filter (· ≠ h) }

/-- Close what the closed libraries were bound to. The last library of the list is taken first; it
is held by the caller and by the registry, and by nobody else. -/
def closeDependencies : Nat → List DlHandle → Prog State Error Unit
  | 0, _ => abort "the list does not end"
  | rounds + 1, libraries =>
    match libraries.getLast? with
    | none => pure ()
    | some h => do
        let s ← gets id
        match s.registry.lookup h with
        | none => abort "expected to remove exactly one dynamic library file"
        | some lib =>
          if s.strongCount libraries h = 2 then do
            modify (State.extract h)
            closeDependencies rounds (libraries.dropLast ++ lib.dependencyHandles)
          else abort "expected to remove exactly one dynamic library file"

/-- `dlclose`. -/
def dlclose (h : DlHandle) : Prog State Error Unit := do
  let s ← gets id
  match s.registry.lookup h with
  | none => throw ⟨.badFile, "dynamic library file not open"⟩
  | some lib =>
    if s.strongCount [] h = 1 then do
      modify (State.extract h)
      closeDependencies (s.registry.length + 1) lib.dependencyHandles
    else pure ()

/-- The library that `dlsym` looks a symbol up in. -/
def dlsymLibrary (h : DlHandle) : Prog State Error DynamicLibrary := do
  let registry ← gets State.registry
  match registry.lookup h with
  | none => throw ⟨.badFile, "dynamic library file not open"⟩
  | some lib => pure lib

end Closing

end Nanvix.Dlfcn
