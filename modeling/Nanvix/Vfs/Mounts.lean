import Mathlib.Algebra.GroupWithZero.Nat
import Nanvix.HostFs.Host
import Nanvix.Library.Containers
import Nanvix.Library.Machine
import Nanvix.Vfs.Descriptor

/-!
# Mounts and open files

The virtual file system keeps a table of mounts, each over a FAT image in memory.
An image that the platform provides stays; the memory of a volume that a guest
creates is released when the volume is unmounted. Three kinds of handles lead to
an image: a file of the FAT library borrows the file system in the mount table, a
direct reader points into the image, and a directory only keeps its path. Files
are counted by the path of their mount, and a mount with open files is not
removed.

## Implementation notes

What the FAT library finds on an image is up to the image, so each command that
asks it carries the answers it gets. The mount table is a vector whose elements
are the mounts themselves: a file's borrow is a position in the vector's buffer,
elements move when others are inserted or removed before them, and a full buffer
is replaced. The contents of files are left out. The flags of an open are decoded.
-/
namespace Nanvix.Vfs

open Nanvix.Library Nanvix.Library.Prog
open Nanvix.HostFs (splitSlash)

/-- A piece of memory with a FAT image: one the platform provides or one that was allocated. -/
inductive Memory where
  | image (id : Nat)
  | volume (id : Nat)
  deriving DecidableEq

structure Mount where
  path : List Char
  memory : Memory
  readonly : Bool
  deriving DecidableEq

/-- `str::len`. -/
def byteLength (path : List Char) : Nat := (path.map fun c => c.utf8Size).sum

/-- `Mount::matches`: what is left of a path below the mount. -/
def Mount.matches (mount : Mount) (path : List Char) : Option (List Char) :=
  if mount.path = ['/'] then some (if path.head? = some '/' then path.tail else path)
  else if path = mount.path then some []
  else if mount.path.isPrefixOf path then
    match path.drop mount.path.length with
    | '/' :: stripped => some stripped
    | _ => none
  else none

/-- The mount table, with the identity and the capacity of the vector's buffer. -/
structure Table where
  mounts : List Mount
  cwd : List Char
  buffer : Nat
  capacity : Nat
  deriving DecidableEq

namespace Table

/-- `Vfs::new`: the vector has no buffer yet. -/
def new : Table := ⟨[], ['/'], 0, 0⟩

/-- Where a mount goes: the table is sorted by the length of the paths, longest first. -/
def position (table : Table) (path : List Char) : Nat :=
  table.mounts.findIdx fun m => byteLength m.path < byteLength path

/-- `Vfs::add_mount`. A full buffer is replaced by one of at least twice the capacity. -/
def addMount (table : Table) (mount : Mount) : Except Fat32Error Table :=
  if table.mounts.any fun m => m.path = mount.path then .error .alreadyExists
  else
    let full := table.mounts.length = table.capacity
    .ok { table with
      mounts := table.mounts.insertIdx (table.position mount.path) mount
      buffer := if full then table.buffer + 1 else table.buffer
      capacity := if full then max (2 * table.capacity) 4 else table.capacity }

/-- `Vfs::remove_mount`. -/
def removeMount (table : Table) (path : List Char) : Except Fat32Error Table :=
  let pos := table.mounts.findIdx fun m => m.path = path
  if pos < table.mounts.length then .ok { table with mounts := table.mounts.eraseIdx pos }
  else .error .notFound

/-- The components of a path, with `..` resolved. -/
def collect : List (List Char) → List (List Char) → Except Fat32Error (List (List Char))
  | components, [] => .ok components
  | components, piece :: pieces =>
    if piece = [] ∨ piece = ['.'] then collect components pieces
    else if piece = ['.', '.'] then
      if components.isEmpty then .error .invalidPath else collect components.dropLast pieces
    else collect (components ++ [piece]) pieces

/-- `Vfs::normalize_path`. -/
def normalizePath (table : Table) (path : List Char) : Except Fat32Error (List Char) :=
  if path = [] then .error .invalidPath
  else
    let absPath :=
      if path.head? = some '/' then path
      else if table.cwd = ['/'] then '/' :: path
      else table.cwd ++ '/' :: path
    (collect [] (splitSlash absPath)).map fun components =>
      if components.isEmpty then ['/'] else components.flatMap fun c => '/' :: c

/-- The first mount that a normalized path matches, with what is left of the path. -/
def search (path : List Char) : List Mount → Nat → Option (Nat × List Char)
  | [], _ => none
  | mount :: mounts, i =>
    match mount.matches path with
    | some relative => some (i, relative)
    | none => search path mounts (i + 1)

/-- `Vfs::resolve`. -/
def resolve (table : Table) (path : List Char) : Except Fat32Error (Nat × List Char) := do
  let normalized ← table.normalizePath path
  match search normalized table.mounts 0 with
  | some found => .ok found
  | none => .error .notFound

end Table

structure GuestMountInfo where
  path : List Char
  memory : Nat
  deriving DecidableEq

structure OpenFileCount where
  mountPath : List Char
  count : Nat
  deriving DecidableEq

/-- The ways to an image. A file knows its mount's path and borrows the file system that stands
at a slot of a buffer. -/
inductive Handle where
  | fat32 (mountPath : List Char) (buffer slot : Nat)
  | directRead (memory : Memory)
  | directory (path : List Char)
  deriving DecidableEq

/-- The global state. `held` are the handles that users of the library keep outside the descriptor
table, `released` the allocations that were freed. -/
structure State where
  vfs : Option Table
  guestMounts : List GuestMountInfo
  openFileCounts : List OpenFileCount
  fdTable : List (Option Handle)
  held : List Handle
  next : Nat
  released : List Nat
  deriving DecidableEq

def vfsFdBase : Int := 1024
def vfsMaxOpenFiles : Nat := 64
def minFatSize : Nat := 64 * 1024
def maxFatSize : Nat := 128 * 1024 * 1024

/-- Before `init`. -/
def State.start : State := ⟨none, [], [], List.replicate vfsMaxOpenFiles none, [], 0, []⟩

/-- What the FAT library answers about a path of an image: what it is, whether its data lie in one
piece and are not empty, and whether it can be opened as asked. -/
structure Answers where
  isDir : Except Fat32Error Bool
  contiguous : Bool
  opened : Except Fat32Error Unit

/-- The flags of an open. -/
structure OpenFlags where
  directory : Bool
  accessMode : Nat
  create : Bool
  truncate : Bool
  exclusive : Bool

def oRdonly : Nat := 0
def oWronly : Nat := 1
def oRdwr : Nat := 2

/-- The options of `OpenOptions`. -/
structure OpenOptions where
  read : Bool
  write : Bool
  create : Bool
  createNew : Bool
  truncate : Bool

abbrev Step (α : Type) : Type := Prog State Fat32Error α

/-- `with_vfs`. -/
def withVfs {α : Type} (f : Table → Except Fat32Error α) : Step α := do
  match ← gets State.vfs with
  | none => throw .notInitialized
  | some table => ofExcept (f table)

/-- A change of the mount table. -/
def withVfsMut (f : Table → Except Fat32Error Table) : Step Unit := do
  let table ← withVfs f
  modify fun s => { s with vfs := some table }

def init : Step Unit := do
  if (← gets State.vfs).isSome then throw .notSupported
  else modify fun s => { s with vfs := some Table.new }

/-- `mount_image`; the FAT library accepts the image or not. -/
def mountImage (path : List Char) (image : Nat) (readonly : Bool)
    (accepted : Except Fat32Error Unit) : Step Unit :=
  if path.head? = some '/' then do
    ofExcept accepted
    withVfsMut fun table => table.addMount ⟨path, .image image, readonly⟩
  else throw .invalidPath

/-- `Box::from_raw` on an allocation. -/
def release (memory : Nat) : Step Unit :=
  modify fun s => { s with released := memory :: s.released }

/-- `create_mount`; the guard releases the allocation on every way out with an error. -/
def createMount (path : List Char) (size : Nat) (formatted : Except Fat32Error Unit) : Step Unit :=
  if path.head? ≠ some '/' then throw .invalidPath
  else if size < minFatSize then throw .invalidArgument
  else if maxFatSize < size then throw .invalidArgument
  else do
    withVfs fun _ => .ok ()
    let memory ← gets State.next
    modify fun s => { s with next := s.next + 1 }
    match ← attempt do
        ofExcept formatted
        withVfsMut fun table => table.addMount ⟨path, .volume memory, false⟩ with
    | .error e =>
      release memory
      throw e
    | .ok () => modify fun s => { s with guestMounts := s.guestMounts ++ [⟨path, memory⟩] }

/-- `increment_open_count`. -/
def increment (mountPath : List Char) (counts : List OpenFileCount) : List OpenFileCount :=
  if counts.any fun e => e.mountPath = mountPath then
    updateFirst (fun e => e.mountPath = mountPath) (fun e => { e with count := e.count + 1 }) counts
  else counts ++ [⟨mountPath, 1⟩]

/-- `decrement_open_count`. -/
def decrement (mountPath : List Char) (counts : List OpenFileCount) : List OpenFileCount :=
  updateFirst (fun e => e.mountPath = mountPath) (fun e => { e with count := e.count - 1 }) counts

/-- `has_open_files`. -/
def hasOpenFiles (mountPath : List Char) (counts : List OpenFileCount) : Bool :=
  counts.any fun e => e.mountPath = mountPath && 0 < e.count

def unmount (path : List Char) : Step Unit := do
  let guests ← gets State.guestMounts
  if guests.any fun g => g.path = path then
    if hasOpenFiles path (← gets State.openFileCounts) then throw .fileLocked
    else
      match removeIf (fun g => g.path = path) (← gets State.guestMounts) with
      | none => throw .notFound
      | some (info, rest) =>
        modify fun s => { s with guestMounts := rest }
        -- The lock of an uninitialized table fails before the tracking entry is put back.
        withVfs fun _ => .ok ()
        match ← attempt (withVfsMut fun table => table.removeMount path) with
        | .error e =>
          modify fun s => { s with guestMounts := s.guestMounts ++ [info] }
          throw e
        | .ok () => release info.memory
  else
    let exists_ ← withVfs fun table => .ok (table.mounts.any fun m => m.path = path)
    throw (if exists_ then .permissionDenied else .notFound)

/-- `stat`: whether a path is a directory. -/
def stat (path : List Char) (answers : Answers) : Step Bool := do
  let (_, relative) ← withVfs fun table => table.resolve path
  if relative = [] then return true else ofExcept answers.isDir

/-- `open_with_options`. -/
def openWithOptions (path : List Char) (options : OpenOptions) (answers : Answers) :
    Step Handle := do
  let (index, relative) ← withVfs fun table => table.resolve path
  if relative = [] then throw .notFound
  else
    let (mount, buffer) ← withVfs fun table =>
      match table.mounts[index]? with
      | some mount => .ok (mount, table.buffer)
      | none => .error .notFound
    let mutating := options.write || options.create || options.createNew || options.truncate
    if mutating && mount.readonly then throw .readOnly
    else
      ofExcept answers.opened
      modify fun s => { s with openFileCounts := increment mount.path s.openFileCounts }
      return .fat32 mount.path buffer index

/-- `OpenOptions::open`. -/
def openFile (path : List Char) (options : OpenOptions) (answers : Answers) : Step Handle :=
  if options.truncate ∧ ¬options.write then throw .invalidArgument
  else if options.createNew ∧ (options.create ∨ options.truncate) then throw .invalidArgument
  else
    let read := if ¬options.read ∧ ¬options.write then true else options.read
    openWithOptions path { options with read := read } answers

/-- `file_raw_region`: a pointer to the data of a file that lies in one piece. -/
def fileRawRegion (path : List Char) (answers : Answers) : Step (Option Memory) := do
  match ← attempt (withVfs fun table => do
      let (index, _) ← table.resolve path
      match table.mounts[index]? with
      | some mount => if answers.contiguous then .ok mount.memory else .error .notFound
      | none => .error .notFound) with
  | .ok memory => return some memory
  | .error _ => return none

/-- `normalize`. -/
def normalize (path : List Char) : Step (List Char) := withVfs fun table => table.normalizePath path

/-- The options of a descriptor's open. -/
def OpenFlags.options (flags : OpenFlags) : OpenOptions where
  read := flags.accessMode ≠ oWronly
  write := flags.accessMode = oWronly ∨ flags.accessMode = oRdwr
  create := flags.create && !flags.exclusive
  createNew := flags.create && flags.exclusive
  truncate := flags.truncate

/-- `fat32_backend::open`. -/
def fat32Open (path : List Char) (flags : OpenFlags) (answers : Answers) : Step Handle :=
  if flags.directory then do
    if ← stat path answers then return .directory (← normalize path) else throw .notADirectory
  else do
    match ← attempt (stat path answers) with
    | .ok true => return .directory (← normalize path)
    | _ =>
      if flags.accessMode = oRdonly ∧ ¬flags.create ∧ ¬flags.truncate ∧ ¬flags.exclusive then
        match ← fileRawRegion path answers with
        | some memory => return .directRead memory
        | none => openFile path flags.options answers
      else openFile path flags.options answers

/-- Dropping a handle: only a file is counted. -/
def Handle.drop : Handle → Step Unit
  | .fat32 mountPath _ _ =>
    modify fun s => { s with openFileCounts := decrement mountPath s.openFileCounts }
  | .directRead _ => pure ()
  | .directory _ => pure ()

/-- `VfsFdTable::alloc`. -/
def alloc (handle : Handle) : Step Int := do
  let table ← gets State.fdTable
  let i := table.findIdx fun slot => slot = none
  if i < table.length then
    modify fun s => { s with fdTable := s.fdTable.set i (some handle) }
    return vfsFdBase + i
  else
    handle.drop
    throw .tooManyOpenFiles

/-- The slot of a descriptor. -/
def slotOf (fd : Int) : Step (Nat × Handle) := do
  let i := fd - vfsFdBase
  if 0 ≤ i ∧ i < vfsMaxOpenFiles then
    match (← gets State.fdTable)[i.toNat]? with
    | some (some handle) => return (i.toNat, handle)
    | _ => throw .invalidFd
  else throw .invalidFd

/-- `vfs_open`; the check of a directory is made here and in the backend. -/
def vfsOpen (path : List Char) (flags : OpenFlags) (answers : Answers) : Step Int := do
  let handle ← fat32Open path flags answers
  alloc handle

/-- `vfs_close`. -/
def vfsClose (fd : Int) : Step Unit := do
  let (i, handle) ← slotOf fd
  modify fun s => { s with fdTable := s.fdTable.set i none }
  handle.drop

/-- Reading or writing through a descriptor changes no table. -/
def vfsAccess (write : Bool) (fd : Int) : Step Unit := do
  let (_, handle) ← slotOf fd
  match handle with
  | .fat32 _ _ _ => return ()
  | .directRead _ => if write then throw .readOnly else return ()
  | .directory _ => throw (if write then .notSupported else .notAFile)

/-- The commands of the users. -/
inductive Command where
  | init
  | mountImage (path : List Char) (image : Nat) (readonly : Bool)
      (accepted : Except Fat32Error Unit)
  | createMount (path : List Char) (size : Nat) (formatted : Except Fat32Error Unit)
  | unmount (path : List Char)
  | open (path : List Char) (flags : OpenFlags) (answers : Answers)
  | read (fd : Int)
  | write (fd : Int)
  | close (fd : Int)
  | openFile (path : List Char) (options : OpenOptions) (answers : Answers)
  | rawRegion (path : List Char) (answers : Answers)
  | drop (index : Nat)

/-- A handle kept by a user of the library. -/
def hold (handle : Handle) : Step Unit := modify fun s => { s with held := handle :: s.held }

/-- The virtual file system as a machine. -/
def mountMachine : Machine State Fat32Error Command Unit where
  enabled _ _ := true
  exec
    | .init => init
    | .mountImage path image readonly accepted => mountImage path image readonly accepted
    | .createMount path size formatted => createMount path size formatted
    | .unmount path => unmount path
    | .open path flags answers => do
        let _ ← vfsOpen path flags answers
    | .read fd => vfsAccess false fd
    | .write fd => vfsAccess true fd
    | .close fd => vfsClose fd
    | .openFile path options answers => do hold (← openFile path options answers)
    | .rawRegion path answers => do
        match ← fileRawRegion path answers with
        | some memory => hold (.directRead memory)
        | none => return ()
    | .drop index => do
        match (← gets State.held)[index]? with
        | none => return ()
        | some handle =>
          modify fun s => { s with held := s.held.eraseIdx index }
          handle.drop

end Nanvix.Vfs
