import Mathlib.Algebra.Group.Int.Defs
import Mathlib.Algebra.Group.Nat.Defs
import Nanvix.Library.Outcome
import Nanvix.Library.PathWalk

/-!
# The host file system behind hostfsd

The part of the host that hostfsd works with: a tree of directories, files and
symbolic links, and the system calls that the daemon makes on it. A path is the
list of names from the top of the tree, with every link followed; a path text is
what a request or a link carries.

`accesses` records the place of every object a call creates, opens, reads,
writes, lists, removes, renames or reports on. No call reads it.

## Implementation notes

File names are text. Hard links, permissions and mode bits are left out: the
daemon may search every directory, and an object has one name. An object keeps
its identity and its contents when it is renamed or removed while it is open.
-/
namespace Nanvix.HostFs

open Nanvix.Library (Prog Component PathText Placed Walk WalkError)
open Nanvix.Library.PathWalk

/-- A name between two slashes. -/
abbrev Name := List Char

/-- The place of an object: the names on the way down from the top. -/
abbrev Path := List Name

abbrev Bytes := List UInt8

/-- The kinds of `io::Error` the daemon tells apart. -/
inductive IoError where
  | notFound
  | permissionDenied
  | alreadyExists
  | invalidInput
  | notADirectory
  | isADirectory
  | directoryNotEmpty
  | loop
  | other
deriving DecidableEq

/-- The pieces of a text between its slashes. -/
def splitSlash : List Char → List (List Char)
  | [] => [[]]
  | c :: text =>
    if c = '/' then [] :: splitSlash text
    else
      match splitSlash text with
      | [] => [[c]]
      | piece :: pieces => (c :: piece) :: pieces

/-- An empty piece, as a doubled or trailing slash leaves it, asks for a directory and stays
there, as `.` does. -/
def component : List Char → Component Name
  | [] => .current
  | ['.'] => .current
  | ['.', '.'] => .parent
  | piece => .normal piece

/-- The components that a walk goes through. -/
def components (text : List Char) : List (Component Name) := (splitSlash text).map component

def pathText (text : List Char) : PathText Name := ⟨text.head? = some '/', components text⟩

/-- What an entry of the tree is; a link keeps its target text verbatim. -/
inductive Kind where
  | directory
  | file
  | link (target : List Char)
deriving DecidableEq

/-- A link leads to what its text names. -/
def Kind.placed : Kind → Placed Name
  | .directory => .directory
  | .file => .file
  | .link target => .link (pathText target)

/-- An object and its identity. -/
structure Node where
  id : Nat
  kind : Kind

/-- A tree of objects and their bytes. `accesses` lists the places used; no call reads it. -/
structure Host where
  entries : List (Path × Node)
  contents : Nat → Bytes
  nextId : Nat
  accesses : List Path

/-- An open file: the object, the access granted and the position. -/
structure File where
  object : Nat
  readable : Bool
  writable : Bool
  append : Bool
  position : Nat

/-- What `metadata` reports. -/
structure Metadata where
  kind : Kind
  size : Nat

/-- The limit the operating system sets on links followed in one walk. -/
def maxSymlinks : Nat := 40

namespace Host

/-- What a walk finds at a place. -/
def look (h : Host) (p : Path) : Option (Placed Name) :=
  (h.entries.lookup p).map fun node => node.kind.placed

/-- The top of the tree has no entry of its own and counts as object 0. -/
def nodeAt (h : Host) (p : Path) : Node := (h.entries.lookup p).getD ⟨0, .directory⟩

/-- The place of an object, if it still has one. -/
def placeOf (h : Host) (object : Nat) : Option Path :=
  (h.entries.find? fun e => e.2.id == object).map fun e => e.1

/-- Directories count as empty. -/
def size (h : Host) (node : Node) : Nat :=
  match node.kind with
  | .directory => 0
  | .file => (h.contents node.id).length
  | .link target => target.length

def metadataAt (h : Host) (p : Path) : Metadata := ⟨(h.nodeAt p).kind, h.size (h.nodeAt p)⟩

/-- The names in a directory. -/
def children (h : Host) (p : Path) : List Name :=
  h.entries.filterMap fun e => if e.1.dropLast = p then e.1.getLast? else none

/-- The walk of a call that follows every link. -/
def walkTo (h : Host) (p : Path) : Walk Name := walkNames h.look maxSymlinks p

/-- The walk of a call that leaves a link at the end of the path alone. -/
def walkToLink (h : Host) (p : Path) : Walk Name := walkParent h.look maxSymlinks p

/-- The place is used. -/
def touch (p : Path) (h : Host) : Host := { h with accesses := p :: h.accesses }

/-- A new object is empty. -/
def insert (p : Path) (kind : Kind) (h : Host) : Host :=
  { h with
    entries := (p, ⟨h.nextId, kind⟩) :: h.entries
    contents := fun object => if object = h.nextId then [] else h.contents object
    nextId := h.nextId + 1 }

/-- The object stays, for those who have it open. -/
def remove (p : Path) (h : Host) : Host :=
  { h with entries := h.entries.filter fun e => e.1 ≠ p }

/-- Give everything at or below `old` its place at or below `new`. -/
def move (old new : Path) (h : Host) : Host :=
  { h with
    entries := h.entries.map fun e =>
      if old <+: e.1 then (new ++ e.1.drop old.length, e.2) else e }

def setContents (object : Nat) (data : Bytes) (h : Host) : Host :=
  { h with contents := fun other => if other = object then data else h.contents other }

end Host

/-- Bytes written at a position; a gap before it reads as zeros. -/
def overwrite (data : Bytes) (position : Nat) (new : Bytes) : Bytes :=
  data.take position ++ List.replicate (position - data.length) 0 ++ new ++
    data.drop (position + new.length)

namespace Sys

/-- The error of a walk as the host reports it. -/
def walkError : WalkError → IoError
  | .notFound => .notFound
  | .notDirectory => .notADirectory
  | .loop => .loop

/-- Where a walk ends, when an object has to be there. -/
def existing (walk : Host → Path → Walk Name) (p : Path) : Prog Host IoError Path := do
  match ← Prog.gets fun h => walk h p with
  | .found q => pure q
  | .missing _ => Prog.throw .notFound
  | .failed e => Prog.throw (walkError e)

/-- Where a walk ends, when nothing may be there yet. -/
def vacant (walk : Host → Path → Walk Name) (p : Path) : Prog Host IoError Path := do
  match ← Prog.gets fun h => walk h p with
  | .found _ => Prog.throw .alreadyExists
  | .missing q => pure q
  | .failed e => Prog.throw (walkError e)

def touch (p : Path) : Prog Host IoError Unit := Prog.modify (Host.touch p)

/-- `realpath`: the place a path text leads to. -/
def canonicalize (h : Host) (cs : List (Component Name)) : Option Path :=
  match walk h.look maxSymlinks [] cs with
  | .found p => some p
  | .missing _ => none
  | .failed _ => none

/-- `stat`. -/
def metadata (p : Path) : Prog Host IoError Metadata := do
  let q ← existing Host.walkTo p
  touch q
  Prog.gets fun h => h.metadataAt q

/-- `lstat`. -/
def symlinkMetadata (p : Path) : Prog Host IoError Metadata := do
  let q ← existing Host.walkToLink p
  touch q
  Prog.gets fun h => h.metadataAt q

/-- `chmod`; the tree carries no mode bits. -/
def setPermissions (p : Path) : Prog Host IoError Unit := do
  let q ← existing Host.walkTo p
  touch q

/-- `mkdir`: nothing may be there yet. -/
def createDir (p : Path) : Prog Host IoError Unit := do
  let q ← vacant Host.walkToLink p
  touch q
  Prog.modify (Host.insert q .directory)

/-- `rmdir`: the top stays, and so does what is not empty. -/
def removeDir (p : Path) : Prog Host IoError Unit := do
  let q ← existing Host.walkToLink p
  if q = [] then Prog.throw .other
  else
    match (← Prog.gets fun h => h.nodeAt q).kind with
    | .directory =>
      if (← Prog.gets fun h => h.children q).isEmpty then
        touch q
        Prog.modify (Host.remove q)
      else Prog.throw .directoryNotEmpty
    | .file => Prog.throw .notADirectory
    | .link _ => Prog.throw .notADirectory

/-- `unlink`, which leaves directories alone. -/
def removeFile (p : Path) : Prog Host IoError Unit := do
  let q ← existing Host.walkToLink p
  match (← Prog.gets fun h => h.nodeAt q).kind with
  | .directory => Prog.throw .isADirectory
  | .file => do touch q; Prog.modify (Host.remove q)
  | .link _ => do touch q; Prog.modify (Host.remove q)

/-- `symlink`: the target is not looked at. -/
def createSymlink (target : List Char) (p : Path) : Prog Host IoError Unit := do
  let q ← vacant Host.walkToLink p
  touch q
  Prog.modify (Host.insert q (.link target))

/-- `readlink`. -/
def readLink (p : Path) : Prog Host IoError (List Char) := do
  let q ← existing Host.walkToLink p
  match (← Prog.gets fun h => h.nodeAt q).kind with
  | .directory => Prog.throw .invalidInput
  | .file => Prog.throw .invalidInput
  | .link target => do touch q; pure target

/-- What `rename` may find at the new name of an object. -/
def replaceable (old new : Kind) (newEmpty : Bool) : Except IoError Unit :=
  match old, new with
  | .directory, .directory => if newEmpty then .ok () else .error .directoryNotEmpty
  | .directory, _ => .error .notADirectory
  | _, .directory => .error .isADirectory
  | _, _ => .ok ()

/-- Neither name of a `rename` is followed if it is a link. -/
def rename (old new : Path) : Prog Host IoError Unit := do
  let p ← existing Host.walkToLink old
  if p = [] then Prog.throw .other
  else
    match ← Prog.gets fun h => h.walkToLink new with
    | .failed e => Prog.throw (walkError e)
    | .missing q =>
      if p <+: q then Prog.throw .invalidInput
      else do
        touch p
        touch q
        Prog.modify (Host.move p q)
    | .found q =>
      if p = q then do touch p; touch q
      else if p <+: q then Prog.throw .invalidInput
      else if q <+: p then Prog.throw .directoryNotEmpty
      else do
        let replaced ← Prog.gets fun h =>
          replaceable (h.nodeAt p).kind (h.nodeAt q).kind (h.children q).isEmpty
        Prog.ofExcept replaced
        touch p
        touch q
        Prog.modify (Host.remove q)
        Prog.modify (Host.move p q)

/-- `OpenOptions`. -/
structure OpenOptions where
  read : Bool
  write : Bool
  append : Bool
  truncate : Bool
  create : Bool

/-- The checks that `OpenOptions::open` makes before it calls the host. -/
def OpenOptions.valid (o : OpenOptions) : Bool :=
  (o.read || o.write || o.append) &&
    (if o.append then !o.truncate else o.write || !(o.truncate || o.create))

/-- `open`, after the checks of the options. -/
def openFile (o : OpenOptions) (p : Path) : Prog Host IoError File := do
  if o.valid then
    match ← Prog.gets fun h => h.walkTo p with
    | .failed e => Prog.throw (walkError e)
    | .missing q =>
      if o.create then do
        touch q
        Prog.modify (Host.insert q .file)
        let node ← Prog.gets fun h => h.nodeAt q
        pure ⟨node.id, o.read, o.write || o.append, o.append, 0⟩
      else Prog.throw .notFound
    | .found q => do
        let node ← Prog.gets fun h => h.nodeAt q
        if node.kind = .directory ∧ (o.write ∨ o.append ∨ o.create) then
          Prog.throw .isADirectory
        else do
          touch q
          if o.truncate then Prog.modify (Host.setContents node.id [])
          pure ⟨node.id, o.read, o.write || o.append, o.append, 0⟩
  else Prog.throw .invalidInput

/-- A directory listing with what `lstat` says about each entry. -/
def readDir (p : Path) : Prog Host IoError (List (Name × Metadata)) := do
  let q ← existing Host.walkTo p
  match (← Prog.gets fun h => h.nodeAt q).kind with
  | .directory => do
      touch q
      let names ← Prog.gets fun h => h.children q
      Prog.forEach (fun name => touch (q ++ [name])) names
      Prog.gets fun h => names.map fun name => (name, h.metadataAt (q ++ [name]))
  | .file => Prog.throw .notADirectory
  | .link _ => Prog.throw .notADirectory

/-- An access through an open file is an access to its object, wherever that stands now. -/
def touchFile (f : File) : Prog Host IoError Unit := do
  match ← Prog.gets fun h => h.placeOf f.object with
  | some p => touch p
  | none => pure ()

/-- A read past the end gives no bytes. -/
def readFile (f : File) (position count : Nat) : Prog Host IoError Bytes := do
  if f.readable then
    touchFile f
    Prog.gets fun h => ((h.contents f.object).drop position).take count
  else Prog.throw .other

/-- Returns the position behind the bytes written. -/
def writeFile (f : File) (position : Nat) (data : Bytes) : Prog Host IoError Nat := do
  if f.writable then
    touchFile f
    let old ← Prog.gets fun h => h.contents f.object
    let start := if f.append then old.length else position
    Prog.modify (Host.setContents f.object (overwrite old start data))
    pure (start + data.length)
  else Prog.throw .other

def fileLength (f : File) : Prog Host IoError Nat := do
  touchFile f
  Prog.gets fun h => (h.contents f.object).length

/-- `ftruncate`: a longer file is filled with zeros. -/
def setLen (f : File) (length : Nat) : Prog Host IoError Unit := do
  if f.writable then
    touchFile f
    let old ← Prog.gets fun h => h.contents f.object
    Prog.modify (Host.setContents f.object
      (old.take length ++ List.replicate (length - old.length) 0))
  else Prog.throw .invalidInput

end Sys
end Nanvix.HostFs
