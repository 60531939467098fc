import Mathlib.Algebra.GroupWithZero.Nat
import Nanvix.HostFs.Host
import Nanvix.Library.Machine

/-!
# hostfsd

The daemon that serves file-system requests of a guest from a directory of the
host: the sandbox that turns a guest's path text into a host path, the table of
descriptors, and one handler for each request. A handler makes its system calls
through `host`, which reports their errors to the guest as codes.

## Implementation notes

The inline and the multi-part forms of a request differ in how the path text
arrives and, for a new directory, in whether a mode is set; a request here has
the text itself. A descriptor keeps the path it was opened with, and status and
listing by descriptor go through that path again, as in the source.
-/
namespace Nanvix.HostFs

open Nanvix.Library (Prog Component Machine)
open Sys

/-- The `HOSTFS_ERR_*` codes, and the bare failure that `read` and `write` report. -/
inductive HostFsError where
  | notFound
  | io
  | permission
  | exists
  | notDir
  | isDir
  | invalid
  | loop
  | notEmpty
  | failed
deriving DecidableEq

/-- `io_error_to_code`; other errors become an input/output error. -/
def ioErrorToCode : IoError → HostFsError
  | .loop => .loop
  | .notFound => .notFound
  | .permissionDenied => .permission
  | .alreadyExists => .exists
  | .invalidInput => .invalid
  | .notADirectory => .notDir
  | .isADirectory => .isDir
  | .directoryNotEmpty => .notEmpty
  | .other => .io

section Sandbox

/-- The canonical directory that confines the daemon. -/
structure Sandbox where
  root : Path

namespace Sandbox

/-- The root has to be a directory, and is made canonical once. -/
def new (h : Host) (root : List (Component Name)) : Option Sandbox := do
  let p ← canonicalize h root
  if (h.nodeAt p).kind = .directory then some ⟨p⟩ else none

/-- A path text joined to the root; the leading slashes go first. -/
def candidate (s : Sandbox) (relativePath : List Char) : List (Component Name) :=
  s.root.map .normal ++ components (relativePath.dropWhile fun c => c = '/')

/-- `Path::components` leaves out `.` and trailing slashes. -/
def normalized (cs : List (Component Name)) : List (Component Name) :=
  cs.filter fun c => c ≠ .current

/-- `Path::file_name`. -/
def fileName (cs : List (Component Name)) : Option Name :=
  match (normalized cs).getLast? with
  | some (.normal name) => some name
  | _ => none

/-- The parent of a path made canonical, with the last name appended as it is. -/
def parentResolved (h : Host) (cs : List (Component Name)) : Option Path := do
  let parent ← canonicalize h (normalized cs).dropLast
  let name ← fileName cs
  some (parent ++ [name])

/-- Every link is followed; a path that does not exist yet is found through its parent. -/
def resolve (s : Sandbox) (h : Host) (relativePath : List Char) : Option Path := do
  let resolved ← (canonicalize h (s.candidate relativePath)).or
    (parentResolved h (s.candidate relativePath))
  if s.root <+: resolved then some resolved else none

/-- A link at the end of the path is left alone. -/
def resolveNofollow (s : Sandbox) (h : Host) (relativePath : List Char) : Option Path :=
  if (relativePath.dropWhile fun c => c = '/').isEmpty then some s.root
  else do
    let name ← fileName (s.candidate relativePath)
    let parent ← canonicalize h (normalized (s.candidate relativePath)).dropLast
    if s.root <+: parent then some (parent ++ [name]) else none

end Sandbox
end Sandbox

section FdTable

def maxOpenFds : Nat := 256

/-- A name of a listing, as it was when the listing was made. -/
structure DirCacheEntry where
  name : Name
  isDir : Bool
  size : Nat

/-- What a descriptor stands for; a directory keeps its listing. -/
structure FdEntry where
  file : File
  isDir : Bool
  path : Path
  dirCache : Option (List DirCacheEntry)

/-- Descriptors count up from 1 and wrap at the end of `i32`. -/
structure FdTable where
  entries : List (Int × FdEntry)
  nextFd : Int

namespace FdTable

def new : FdTable := ⟨[], 1⟩

/-- The successor of a descriptor as a positive `i32`. -/
def succ (fd : Int) : Int := if fd + 1 < 2 ^ 31 ∧ 0 < fd + 1 then fd + 1 else 1

/-- The first free descriptor from `fd` on, within a number of attempts. -/
def probe (t : FdTable) : Nat → Int → Option Int
  | 0, _ => none
  | attempts + 1, fd =>
    if (t.entries.lookup fd).isSome then probe t attempts (succ fd) else some fd

def get (t : FdTable) (fd : Int) : Option FdEntry := t.entries.lookup fd

def put (t : FdTable) (fd : Int) (e : FdEntry) : FdTable :=
  { t with entries := (fd, e) :: t.entries.filter fun x => x.1 ≠ fd }

/-- The first free descriptor from the counter on, unless the table is full. -/
def alloc (t : FdTable) (file : File) (isDir : Bool) (path : Path) : Option (Int × FdTable) :=
  if maxOpenFds ≤ t.entries.length then none
  else (t.probe maxOpenFds t.nextFd).map fun fd =>
    (fd, { t.put fd ⟨file, isDir, path, none⟩ with nextFd := succ fd })

def close (t : FdTable) (fd : Int) : FdTable :=
  { t with entries := t.entries.filter fun x => x.1 ≠ fd }

/-- Listings are made anew after a change to the tree. -/
def invalidateDirCaches (t : FdTable) : FdTable :=
  { t with entries := t.entries.map fun x => (x.1, { x.2 with dirCache := none }) }

end FdTable
end FdTable

/-- The daemon and the host it works on. -/
structure HostFsHandler where
  host : Host
  sandbox : Sandbox
  fdTable : FdTable

/-- What a handler answers when it succeeds. -/
inductive Reply where
  | done
  | opened (fd : Int) (isDir : Bool)
  | data (bytes : Bytes)
  | written (count : Nat)
  | status (metadata : Metadata)
  | entry (name : Name) (isDir : Bool) (size : Nat)
  | noEntry
  | target (text : List Char)
  | offset (position : Nat)

namespace HostFsHandler

/-- Programs of the daemon, which fail with a code for the guest. -/
abbrev Handle (α : Type) : Type := Prog HostFsHandler HostFsError α

/-- Make a system call and report its error as `report` says. -/
def callReporting {α : Type} (report : IoError → HostFsError) (x : Prog Host IoError α) :
    Handle α := fun d =>
  match x d.host with
  | .ok a h => .ok a { d with host := h }
  | .err e h => .err (report e) { d with host := h }
  | .abort m => .abort m

def call {α : Type} (x : Prog Host IoError α) : Handle α := callReporting ioErrorToCode x

/-- The host path of a request, as one of the two resolution modes finds it. -/
def hostPath (mode : Sandbox → Host → List Char → Option Path) (path : List Char) :
    Handle Path := do
  match ← Prog.gets fun d => mode d.sandbox d.host path with
  | some p => pure p
  | none => Prog.throw .permission

/-- The entry of a descriptor; requests differ in the error for a missing one. -/
def entryOf (fd : Int) (missing : HostFsError) : Handle FdEntry := do
  match ← Prog.gets fun d => d.fdTable.get fd with
  | some e => pure e
  | none => Prog.throw missing

def putEntry (fd : Int) (e : FdEntry) : Handle Unit :=
  Prog.modify fun d => { d with fdTable := d.fdTable.put fd e }

def invalidateDirCaches : Handle Unit :=
  Prog.modify fun d => { d with fdTable := d.fdTable.invalidateDirCaches }

/-- `Path::is_dir`. -/
def isDir (p : Path) : Handle Bool := do
  match ← Prog.attempt (call (metadata p)) with
  | .ok m => pure (decide (m.kind = .directory))
  | .error _ => pure false

/-- `Path::exists`. -/
def pathExists (p : Path) : Handle Bool := do
  match ← Prog.attempt (call (metadata p)) with
  | .ok _ => pure true
  | .error _ => pure false

/-- Reading is 0, writing 1 and both 2. -/
def accessMode (flags : Nat) : Nat := flags &&& 3

/-- `O_CREAT`, `O_TRUNC`, `O_APPEND` and `O_DIRECTORY`. -/
def oCreat : Nat := 0x0200

def oTrunc : Nat := 0x0400

def oAppend : Nat := 0x0008

def oDirectory : Nat := 0x200000

/-- The access mode asks for writing. -/
def writes (flags : Nat) : Bool := accessMode flags = 1 ∨ accessMode flags = 2

/-- Appending needs an access mode that writes. -/
def openOptions (flags : Nat) : OpenOptions where
  read := accessMode flags = 0 ∨ accessMode flags = 2
  write := writes flags
  append := flags &&& oAppend ≠ 0 ∧ writes flags
  truncate := flags &&& oTrunc ≠ 0
  create := flags &&& oCreat ≠ 0

/-- A directory is opened for reading only. -/
def openDirHandle (p : Path) : Prog Host IoError File :=
  openFile ⟨true, false, false, false, false⟩ p

/-- Whether the path is opened as a directory. -/
def opensDirectory (p : Path) (flags : Nat) : Handle Bool := do
  let directory ← isDir p
  if flags &&& oDirectory ≠ 0 then
    if directory then pure true
    else if ← pathExists p then Prog.throw .notDir
    else Prog.throw .notFound
  else if directory ∧ writes flags then Prog.throw .isDir
  else pure directory

/-- Without a free descriptor the answer is an input/output error. -/
def handleOpen (path : List Char) (flags : Nat) : Handle Reply := do
  let p ← hostPath Sandbox.resolve path
  let directory ← opensDirectory p flags
  let file ← call (if directory then openDirHandle p else openFile (openOptions flags) p)
  match ← Prog.gets fun d => d.fdTable.alloc file directory p with
  | some (fd, table) => do
      Prog.modify fun d => { d with fdTable := table }
      pure (.opened fd directory)
  | none => Prog.throw .io

/-- The file is closed with its entry. -/
def handleClose (fd : Int) : Handle Reply := do
  let _ ← entryOf fd .io
  Prog.modify fun d => { d with fdTable := d.fdTable.close fd }
  pure .done

/-- The bytes that fit one response. -/
def maxInlineReadData : Nat := 38

/-- The bytes that fit one request. -/
def maxInlineWriteData : Nat := 24

/-- Where a transfer starts; a negative offset stands for the position of the file. -/
def startOf (e : FdEntry) (offset : Int) : Nat :=
  if 0 ≤ offset then offset.toNat else e.file.position

/-- A positional transfer leaves the position of the file alone. -/
def advance (fd : Int) (e : FdEntry) (offset : Int) (position : Nat) : Handle Unit :=
  if 0 ≤ offset then pure ()
  else putEntry fd { e with file := { e.file with position := position } }

/-- All errors look the same to the guest. -/
def handleRead (fd offset : Int) (count : Nat) : Handle Reply := do
  let e ← entryOf fd .failed
  if e.isDir then Prog.throw .failed
  else
    let bytes ← callReporting (fun _ => .failed)
      (readFile e.file (startOf e offset) (min count maxInlineReadData))
    advance fd e offset (startOf e offset + bytes.length)
    pure (.data bytes)

/-- Bytes behind the first 24 are not written. -/
def handleWrite (fd offset : Int) (data : Bytes) : Handle Reply := do
  let e ← entryOf fd .failed
  if e.isDir then Prog.throw .failed
  else
    let position ← callReporting (fun _ => .failed)
      (writeFile e.file (startOf e offset) (data.take maxInlineWriteData))
    advance fd e offset position
    pure (.written (data.take maxInlineWriteData).length)

/-- Status by descriptor goes through the path the descriptor was opened with. -/
def handleStat (fd : Int) : Handle Reply := do
  let e ← entryOf fd .io
  let m ← call (metadata e.path)
  pure (.status m)

/-- A directory that cannot be listed looks empty. -/
def buildDirCache (path : Path) : Handle (List DirCacheEntry) := do
  match ← Prog.attempt (call (readDir path)) with
  | .ok listing =>
    pure (listing.map fun x => ⟨x.1, decide (x.2.kind = .directory), x.2.size⟩)
  | .error _ => pure []

/-- The listing of a descriptor, built at its first use and kept. -/
def dirCache (fd : Int) (e : FdEntry) : Handle (List DirCacheEntry) := do
  match e.dirCache with
  | some listing => pure listing
  | none => do
      let listing ← buildDirCache e.path
      putEntry fd { e with dirCache := some listing }
      pure listing

/-- An unknown descriptor reads as the end of a directory. -/
def handleReaddir (fd : Int) (offset : Nat) : Handle Reply := do
  match ← Prog.gets fun d => d.fdTable.get fd with
  | none => pure .noEntry
  | some e => do
      match (← dirCache fd e)[offset]? with
      | some x => pure (.entry x.name x.isDir x.size)
      | none => pure .noEntry

/-- The multi-part form carries a mode and sets it; failing to do so is not reported. -/
def handleMkdir (path : List Char) (mode : Option Nat) : Handle Reply := do
  let p ← hostPath Sandbox.resolve path
  call (createDir p)
  if mode.isSome then
    let _ ← Prog.attempt (call (setPermissions p))
  invalidateDirCaches
  pure .done

/-- The path is followed to its end, a link at the end too. -/
def handleRmdir (path : List Char) : Handle Reply := do
  let p ← hostPath Sandbox.resolve path
  call (removeDir p)
  invalidateDirCaches
  pure .done

/-- A link is removed, not what it points to. -/
def handleUnlink (path : List Char) : Handle Reply := do
  let p ← hostPath Sandbox.resolveNofollow path
  call (removeFile p)
  invalidateDirCaches
  pure .done

/-- Both paths are followed to their end. -/
def handleRename (old new : List Char) : Handle Reply := do
  let p ← hostPath Sandbox.resolve old
  let q ← hostPath Sandbox.resolve new
  call (rename p q)
  invalidateDirCaches
  pure .done

/-- The target is stored verbatim and need not exist. -/
def handleSymlink (target linkpath : List Char) : Handle Reply := do
  if target.isEmpty ∨ '\x00' ∈ target then Prog.throw .invalid
  else
    let p ← hostPath Sandbox.resolveNofollow linkpath
    call (createSymlink target p)
    invalidateDirCaches
    pure .done

def pathMax : Nat := 1024

/-- Only a link has a target, and a long one is refused. -/
def doReadlink (path : List Char) : Handle Reply := do
  let p ← hostPath Sandbox.resolveNofollow path
  let m ← call (symlinkMetadata p)
  match m.kind with
  | .directory => Prog.throw .invalid
  | .file => Prog.throw .invalid
  | .link _ => do
      let target ← call (readLink p)
      if pathMax < (target.map Char.utf8Size).sum then Prog.throw .invalid
      else pure (.target target)

/-- The status of a link itself. -/
def doLstat (path : List Char) : Handle Reply := do
  let p ← hostPath Sandbox.resolveNofollow path
  let m ← call (symlinkMetadata p)
  pure (.status m)

/-- The status of what a path leads to. -/
def doPathstat (path : List Char) : Handle Reply := do
  let p ← hostPath Sandbox.resolve path
  let m ← call (metadata p)
  pure (.status m)

/-- `SEEK_SET`, `SEEK_CUR` and `SEEK_END`; any other value is refused. -/
inductive Whence where
  | set
  | cur
  | last
  | unknown

/-- The position a seek asks for. -/
def seekTarget (e : FdEntry) (offset : Int) : Whence → Handle Int
  | .set => if offset < 0 then Prog.throw .invalid else pure offset
  | .cur => pure (e.file.position + offset)
  | .last => do
      let length ← call (fileLength e.file)
      pure (length + offset)
  | .unknown => Prog.throw .invalid

/-- A position before the start of the file is refused. -/
def handleLseek (fd offset : Int) (whence : Whence) : Handle Reply := do
  let e ← entryOf fd .io
  let position ← seekTarget e offset whence
  if position < 0 then Prog.throw .io
  else
    putEntry fd { e with file := { e.file with position := position.toNat } }
    pure (.offset position.toNat)

/-- The length is checked before the descriptor. -/
def handleTruncate (fd length : Int) : Handle Reply := do
  if length < 0 then Prog.throw .invalid
  else
    let e ← entryOf fd .io
    if e.isDir then Prog.throw .isDir
    else
      call (setLen e.file length.toNat)
      pure .done

/-- Nothing is flushed; the descriptor is only looked up. -/
def handleFlush (fd : Int) : Handle Reply := do
  let _ ← entryOf fd .io
  pure .done

end HostFsHandler

/-- The requests of a guest. -/
inductive Request where
  | open (path : List Char) (flags : Nat)
  | close (fd : Int)
  | read (fd offset : Int) (count : Nat)
  | write (fd offset : Int) (data : Bytes)
  | stat (fd : Int)
  | readdir (fd : Int) (offset : Nat)
  | mkdir (path : List Char) (mode : Option Nat)
  | rmdir (path : List Char)
  | unlink (path : List Char)
  | rename (old new : List Char)
  | symlink (target linkpath : List Char)
  | readlink (path : List Char)
  | lstat (path : List Char)
  | pathstat (path : List Char)
  | lseek (fd offset : Int) (whence : HostFsHandler.Whence)
  | truncate (fd length : Int)
  | flush (fd : Int)

/-- One request of the guest, from its message to its answer. -/
def handleRequest : Request → HostFsHandler.Handle Reply
  | .open path flags => HostFsHandler.handleOpen path flags
  | .close fd => HostFsHandler.handleClose fd
  | .read fd offset count => HostFsHandler.handleRead fd offset count
  | .write fd offset data => HostFsHandler.handleWrite fd offset data
  | .stat fd => HostFsHandler.handleStat fd
  | .readdir fd offset => HostFsHandler.handleReaddir fd offset
  | .mkdir path mode => HostFsHandler.handleMkdir path mode
  | .rmdir path => HostFsHandler.handleRmdir path
  | .unlink path => HostFsHandler.handleUnlink path
  | .rename old new => HostFsHandler.handleRename old new
  | .symlink target linkpath => HostFsHandler.handleSymlink target linkpath
  | .readlink path => HostFsHandler.doReadlink path
  | .lstat path => HostFsHandler.doLstat path
  | .pathstat path => HostFsHandler.doPathstat path
  | .lseek fd offset whence => HostFsHandler.handleLseek fd offset whence
  | .truncate fd length => HostFsHandler.handleTruncate fd length
  | .flush fd => HostFsHandler.handleFlush fd

/-- The daemon as it serves any request at any time. -/
def hostFsMachine : Machine HostFsHandler HostFsError Request Reply where
  enabled _ _ := true
  exec := handleRequest

end Nanvix.HostFs
