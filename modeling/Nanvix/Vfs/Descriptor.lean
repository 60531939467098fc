import Nanvix.Library.Machine
import Nanvix.Library.Patch
import Nanvix.Sys.Time

/-!
# Open files of the virtual file system

An entry of the descriptor table pairs the handle of a backend with the POSIX
position of the descriptor, which may lie behind the end of the file. The FAT
library clamps its own cursor at the end of the file, so every call places the
cursor anew, and a gap before the position is filled with zeros first.

## Implementation notes

The file of the FAT library is a byte array with a cursor that is never behind
the end, and sizes have 32 bits. A write stores as many bytes as the volume has
room for; a full volume answers with no bytes or with an error. How much room
there is depends on the other files of the volume, so it is a part of the state
that may change between calls. The program runs on a machine with 32-bit words
and 64-bit file offsets; `Build` says whether an addition that overflows panics
or wraps. A buffer that a call fills is returned as the bytes read. The
functions work on the entry that the table holds for the descriptor.
-/
namespace Nanvix.Vfs

open Nanvix.Library Nanvix.Library.Prog
open Nanvix.Sys (Build)

/-- The errors of `Fat32Error` that the modelled calls return. -/
inductive Fat32Error where
  | notFound
  | notAFile
  | notADirectory
  | invalidFd
  | invalidPath
  | notInitialized
  | invalidSeek
  | readOnly
  | alreadyExists
  | noSpace
  | tooManyOpenFiles
  | notSupported
  | invalidArgument
  | ioError
  | fileLocked
  | permissionDenied
  deriving DecidableEq, Repr

/-- A signed 64-bit file offset. -/
structure OffT where
  val : Int
  lower : -2 ^ 63 ≤ val
  upper : val < 2 ^ 63

/-- The conversion of an `off_t` to `u64`. -/
def asU64 (x : Int) : Nat := (x % 2 ^ 64).toNat

/-- The conversion of a `u64` to `usize`. -/
def asUsize (n : Nat) : Nat := n % 2 ^ 32

theorem asU64_of_nonneg {x : Int} (h : 0 ≤ x) (hx : x < 2 ^ 63) : asU64 x = x.toNat := by
  unfold asU64
  rw [Int.emod_eq_of_lt h (by omega)]

theorem asUsize_of_lt {n : Nat} (h : n < 2 ^ 32) : asUsize n = n := Nat.mod_eq_of_lt h

/-- The values of an `off_t`. -/
def fitsOff (x : Int) : Bool := (-x).toNat ≤ 2 ^ 63 && x.toNat < 2 ^ 63

theorem fitsOff_iff {x : Int} : fitsOff x = true ↔ -2 ^ 63 ≤ x ∧ x < 2 ^ 63 := by
  unfold fitsOff
  rw [Bool.and_eq_true_iff, decide_eq_true_iff, decide_eq_true_iff]
  omega

/-- The sum of two `off_t`. -/
def addOff {σ : Type} (build : Build) (a b : Int) : Prog σ Fat32Error Int :=
  if fitsOff (a + b) then pure (a + b)
  else match build with
    | .dev => abort "attempt to add with overflow"
    | .release => pure ((a + b + 2 ^ 63) % 2 ^ 64 - 2 ^ 63)

def seekSet : Int := 0
def seekCur : Int := 1
def seekEnd : Int := 2

/-- The volume as a file sees it: how long the file may become, and whether a write that cannot
store anything is an error or stores no bytes. -/
structure Volume where
  room : Nat
  refuses : Bool
  room_lt : room < 2 ^ 32
  deriving DecidableEq

/-- A file of the FAT library. -/
structure FatFile where
  contents : List UInt8
  cursor : Nat
  cursor_le : cursor ≤ contents.length
  length_lt : contents.length < 2 ^ 32
  deriving DecidableEq

/-- The position of a seek, relative to the start, to the cursor or to the end. -/
inductive SeekFrom where
  | start (offset : Nat)
  | current (offset : Int)
  | finish (offset : Int)

namespace FatFile

/-- The position a seek asks for, if 32 bits hold it. -/
def target (file : FatFile) : SeekFrom → Option Nat
  | .start offset => if offset < 2 ^ 32 then some offset else none
  | .current offset =>
    let sum := (file.cursor : Int) + offset
    if 0 ≤ sum ∧ sum.toNat < 2 ^ 32 then some sum.toNat else none
  | .finish offset =>
    let sum := (file.contents.length : Int) + offset
    if 0 ≤ sum ∧ sum.toNat < 2 ^ 32 then some sum.toNat else none

/-- The cursor moved to a position, or to the end if the position is behind it. -/
def place (file : FatFile) (position : Nat) : FatFile :=
  { file with
    cursor := min position file.contents.length
    cursor_le := Nat.min_le_right _ _ }

def seek (file : FatFile) (position : SeekFrom) : Except Fat32Error (Nat × FatFile) :=
  match file.target position with
  | some position => .ok ((file.place position).cursor, file.place position)
  | none => .error .invalidPath

/-- `FatFile::len`: the end is found by a seek and the cursor put back. -/
def len (file : FatFile) : Except Fat32Error (Nat × FatFile) := do
  let (current, file) ← file.seek (.current 0)
  let (size, file) ← file.seek (.finish 0)
  let (_, file) ← file.seek (.start current)
  return (size, file)

section Seeks
variable {file : FatFile}

theorem place_cursor : file.place file.cursor = file := by
  unfold place
  rw [mk.injEq]
  exact ⟨rfl, Nat.min_eq_left file.cursor_le⟩

theorem target_current : file.target (.current 0) = some file.cursor := by
  have h := file.cursor_le
  have hlt := file.length_lt
  simp only [target]
  rw [if_pos (by omega)]
  simp

theorem target_finish : file.target (.finish 0) = some file.contents.length := by
  have hlt := file.length_lt
  simp only [target]
  rw [if_pos (by omega)]
  simp

theorem seek_current : file.seek (.current 0) = .ok (file.cursor, file) := by
  simp only [seek, target_current, place_cursor]

theorem seek_finish :
    file.seek (.finish 0) = .ok (file.contents.length, file.place file.contents.length) := by
  simp only [seek, target_finish, place, Nat.min_self]

theorem seek_start {n : Nat} (h : n < 2 ^ 32) :
    file.seek (.start n) = .ok (min n file.contents.length, file.place n) := by
  simp only [seek, target, if_pos h, place]

theorem len_eq : file.len = .ok (file.contents.length, file) := by
  have hcursor := file.cursor_le
  have hlt := file.length_lt
  have hback : (file.place file.contents.length).place file.cursor = file := by
    change file.place file.cursor = file
    exact place_cursor
  simp only [len, seek_current, seek_finish, bind, Except.bind, pure, Except.pure,
    seek_start (Nat.lt_of_le_of_lt hcursor hlt), hback]

end Seeks

def read (file : FatFile) (length : Nat) : List UInt8 × FatFile :=
  let bytes := (file.contents.drop file.cursor).take length
  (bytes, file.place (file.cursor + bytes.length))

/-- How many of `length` bytes a write at the cursor stores. -/
def storable (file : FatFile) (volume : Volume) (length : Nat) : Nat :=
  min length (max file.contents.length volume.room - file.cursor)

/-- The file after a write at the cursor. -/
def stored (file : FatFile) (volume : Volume) (buf : List UInt8) : FatFile :=
  let n := file.storable volume buf.length
  { contents := patch 0 file.contents file.cursor (buf.take n)
    cursor := file.cursor + n
    cursor_le := by
      have hn : n ≤ buf.length := Nat.min_le_left _ _
      rw [length_patch, List.length_take]
      omega
    length_lt := by
      have hcursor := file.cursor_le
      have hlength := file.length_lt
      have hroom := volume.room_lt
      have hn : n ≤ max file.contents.length volume.room - file.cursor := Nat.min_le_right _ _
      rw [length_patch, List.length_take]
      omega }

def write (file : FatFile) (volume : Volume) (buf : List UInt8) :
    Except Fat32Error (Nat × FatFile) :=
  let n := file.storable volume buf.length
  if n = 0 ∧ buf ≠ [] ∧ volume.refuses then .error .noSpace
  else .ok (n, file.stored volume buf)

/-- `FatFile::truncate`: the file ends at the cursor. -/
def truncate (file : FatFile) : FatFile where
  contents := file.contents.take file.cursor
  cursor := file.cursor
  cursor_le := by
    rw [List.length_take]
    exact Nat.le_min.mpr ⟨Nat.le_refl _, file.cursor_le⟩
  length_lt := by
    rw [List.length_take]
    exact Nat.lt_of_le_of_lt (Nat.min_le_right _ _) file.length_lt

end FatFile

/-- `File::seek`. -/
def FatFile.seekWhence (file : FatFile) (whence offset : Int) :
    Except Fat32Error (Nat × FatFile) :=
  if whence = seekSet then
    if offset < 0 then .error .invalidArgument else file.seek (.start (asU64 offset))
  else if whence = seekCur then file.seek (.current offset)
  else if whence = seekEnd then file.seek (.finish offset)
  else .error .invalidArgument

/-- A reader of file data that lies in one piece in the image. -/
structure DirectReadHandle where
  data : List UInt8
  position : Nat
  deriving DecidableEq

namespace DirectReadHandle

def read (handle : DirectReadHandle) (length : Nat) : List UInt8 × DirectReadHandle :=
  let bytes := (handle.data.drop handle.position).take length
  (bytes, { handle with position := handle.position + bytes.length })

/-- `DirectReadHandle::seek`, which refuses positions behind the end. The callers below pass the
offset 0 unless the position is absolute, so the sums stay in range. -/
def seek (handle : DirectReadHandle) (offset whence : Int) :
    Except Fat32Error (Int × DirectReadHandle) := do
  let newPos ←
    if whence = seekSet then .ok offset
    else if whence = seekCur then .ok (handle.position + offset)
    else if whence = seekEnd then .ok (handle.data.length + offset)
    else .error .invalidArgument
  if newPos < 0 ∨ handle.data.length < newPos then .error .invalidSeek
  else .ok (newPos, { handle with position := newPos.toNat })

end DirectReadHandle

/-- The handles of an entry. -/
inductive VfsFileHandle where
  | fat32 (file : FatFile)
  | directRead (handle : DirectReadHandle)
  | directory
  | hostFs (isDir : Bool)
  deriving DecidableEq

namespace VfsFileHandle

def read (length : Nat) : VfsFileHandle → Except Fat32Error (List UInt8 × VfsFileHandle)
  | .fat32 file => .ok ((file.read length).1, .fat32 (file.read length).2)
  | .directRead handle => .ok ((handle.read length).1, .directRead (handle.read length).2)
  | .directory => .error .notSupported
  | .hostFs _ => .error .notSupported

def write (volume : Volume) (buf : List UInt8) :
    VfsFileHandle → Except Fat32Error (Nat × VfsFileHandle)
  | .fat32 file => (file.write volume buf).map fun (n, file) => (n, .fat32 file)
  | .directRead _ => .error .readOnly
  | .directory => .error .notSupported
  | .hostFs _ => .error .notSupported

def seek (offset whence : Int) : VfsFileHandle → Except Fat32Error (Int × VfsFileHandle)
  | .fat32 file => (file.seekWhence whence offset).map fun (n, file) => ((n : Int), .fat32 file)
  | .directRead handle =>
    (handle.seek offset whence).map fun (n, handle) => (n, .directRead handle)
  | .directory => .error .notSupported
  | .hostFs _ => .error .notSupported

def size : VfsFileHandle → Except Fat32Error (Nat × VfsFileHandle)
  | .fat32 file => file.len.map fun (n, file) => (n, .fat32 file)
  | .directRead handle => .ok (handle.data.length, .directRead handle)
  | .directory => .ok (0, .directory)
  | .hostFs isDir => .ok (0, .hostFs isDir)

/-- `File::truncate`, which only the FAT handle offers. -/
def truncate : VfsFileHandle → Except Fat32Error (Unit × VfsFileHandle)
  | .fat32 file => .ok ((), .fat32 file.truncate)
  | handle => .ok ((), handle)

def isDir : VfsFileHandle → Bool
  | .directory => true
  | .hostFs isDir => isDir
  | _ => false

end VfsFileHandle

/-- An entry of the descriptor table, with the volume as it is at the time of a call. -/
structure Slot where
  handle : VfsFileHandle
  virtualPos : Int
  volume : Volume
  deriving DecidableEq

/-- A program that works on an entry. -/
abbrev Call (α : Type) : Type := Prog Slot Fat32Error α

/-- An operation of the handle as a step of a call. -/
def onHandle {α : Type} (f : Volume → VfsFileHandle → Except Fat32Error (α × VfsFileHandle)) :
    Call α := fun s =>
  match f s.volume s.handle with
  | .ok (r, handle) => .ok r { s with handle := handle }
  | .error e => .err e s

def handleSize : Call Nat := onHandle fun _ => VfsFileHandle.size
def handleSeek (offset whence : Int) : Call Int :=
  onHandle fun _ => VfsFileHandle.seek offset whence
def handleRead (length : Nat) : Call (List UInt8) := onHandle fun _ => VfsFileHandle.read length
def handleWrite (buf : List UInt8) : Call Nat := onHandle fun v => VfsFileHandle.write v buf
def handleTruncate : Call Unit := onHandle fun _ => VfsFileHandle.truncate

/-- The entry's position moved on by a number of bytes. -/
def advance (build : Build) (n : Nat) : Call Unit := do
  let pos ← addOff build (← gets Slot.virtualPos) n
  modify fun s => { s with virtualPos := pos }

/-- The zeros that one round of a filling loop writes at most. -/
def zeroChunk : Nat := 512

/-- The loop that writes `remaining` zeros at the cursor. Before it gives up on a full volume it
does what its caller asks for. Each round stores a byte at least, so `fuel := remaining` is
enough. -/
def fillZeros (beforeNoSpace : Call Unit) : (fuel remaining : Nat) → Call Unit
  | 0, _ => pure ()
  | fuel + 1, remaining => do
      if remaining = 0 then return ()
      let chunk := min remaining zeroChunk
      let written ← handleWrite (List.replicate chunk 0)
      if written = 0 then
        beforeNoSpace
        throw .noSpace
      fillZeros beforeNoSpace fuel (remaining - written)

/-- Zeros appended to a file of the given size until it has the target size. -/
def extend (beforeNoSpace : Call Unit) (size target : Nat) : Call Unit := do
  let _ ← handleSeek 0 seekEnd
  let remaining := asUsize (target - size)
  fillZeros beforeNoSpace remaining remaining

/-- The gap between the end of a file and a position behind it, filled. -/
def fillGap (beforeNoSpace : Call Unit) (size position : Nat) : Call Unit :=
  if size < position then extend beforeNoSpace size position else pure ()

/-- A call whose failure nobody looks at. -/
def ignoring {α : Type} (x : Call α) : Call Unit := do
  let _ ← attempt x
  return ()

def vfsRead (build : Build) (length : Nat) : Call (List UInt8) := do
  if (← gets fun s => s.handle.isDir) then throw .notAFile
  let size ← handleSize
  let pos ← gets Slot.virtualPos
  if size ≤ asU64 pos then return []
  let _ ← handleSeek pos seekSet
  let bytes ← handleRead length
  advance build bytes.length
  return bytes

def vfsWrite (build : Build) (buf : List UInt8) : Call Nat := do
  let size ← handleSize
  let pos ← gets Slot.virtualPos
  fillGap (pure ()) size (asU64 pos)
  let _ ← handleSeek pos seekSet
  let n ← handleWrite buf
  advance build n
  return n

/-- The position a seek asks for. -/
def newPos (build : Build) (pos : Int) (size : Nat) (offset whence : Int) : Call Int :=
  if whence = seekSet then pure offset
  else if whence = seekCur then addOff build pos offset
  else if whence = seekEnd then addOff build size offset
  else throw .invalidArgument

def vfsLseek (build : Build) (offset whence : Int) : Call Int := do
  let size ← handleSize
  let pos ← gets Slot.virtualPos
  let newPos ← newPos build pos size offset whence
  if newPos < 0 then throw .invalidSeek
  else
    modify fun s => { s with virtualPos := newPos }
    -- The handle follows only inside the file.
    if newPos ≤ size then
      ignoring (handleSeek newPos seekSet)
      return newPos
    else return newPos

def vfsFtruncate (length : Int) : Call Unit := do
  match ← gets Slot.handle with
  | .fat32 _ =>
    let currentSize ← handleSize
    let target := asU64 length
    let saved ← handleSeek 0 seekCur
    if target ≤ currentSize then
      let result ← attempt do
        let _ ← handleSeek length seekSet
        handleTruncate
      ignoring (handleSeek saved seekSet)
      ofExcept result
    else
      extend (ignoring (handleSeek saved seekSet)) currentSize target
      ignoring (handleSeek saved seekSet)
  | .directRead _ => throw .readOnly
  | .directory => throw .notSupported
  | .hostFs _ => throw .notSupported

def vfsFallocate (build : Build) (offset len : Int) : Call Unit := do
  match ← gets Slot.handle with
  | .fat32 _ =>
    let targetSize := asU64 (← addOff build offset len)
    let currentSize ← handleSize
    if targetSize ≤ currentSize then return ()
    let saved ← handleSeek 0 seekCur
    extend (ignoring (handleSeek saved seekSet)) currentSize targetSize
    ignoring (handleSeek saved seekSet)
  | .directRead _ => throw .readOnly
  | .directory => throw .notSupported
  | .hostFs _ => throw .notSupported

def vfsPread (length : Nat) (offset : Int) : Call (List UInt8) := do
  let size ← handleSize
  if size ≤ asU64 offset then return []
  let saved ← handleSeek 0 seekCur
  let _ ← handleSeek offset seekSet
  let result ← attempt (handleRead length)
  ignoring (handleSeek saved seekSet)
  ofExcept result

def vfsPwrite (buf : List UInt8) (offset : Int) : Call Nat := do
  let saved ← handleSeek 0 seekCur
  let size ← handleSize
  fillGap (ignoring (handleSeek saved seekSet)) size (asU64 offset)
  let _ ← handleSeek offset seekSet
  let result ← attempt (handleWrite buf)
  ignoring (handleSeek saved seekSet)
  ofExcept result

/-- The calls of one user of the descriptor. Between calls other files may take up or release
room on the volume. -/
inductive Request where
  | read (length : Nat)
  | write (buf : List UInt8)
  | lseek (offset : OffT) (whence : Int)
  | pread (length : Nat) (offset : OffT)
  | pwrite (buf : List UInt8) (offset : OffT)
  | ftruncate (length : OffT)
  | fallocate (offset len : OffT)
  | others (volume : Volume)

/-- What a call returns. -/
inductive Reply where
  | bytes (bytes : List UInt8)
  | count (n : Nat)
  | position (offset : Int)
  | done
  deriving DecidableEq

/-- The descriptor as a machine. -/
def vfsMachine (build : Build) : Machine Slot Fat32Error Request Reply where
  enabled _ _ := true
  exec
    | .read length => do return .bytes (← vfsRead build length)
    | .write buf => do return .count (← vfsWrite build buf)
    | .lseek offset whence => do return .position (← vfsLseek build offset.val whence)
    | .pread length offset => do return .bytes (← vfsPread length offset.val)
    | .pwrite buf offset => do return .count (← vfsPwrite buf offset.val)
    | .ftruncate length => do vfsFtruncate length.val; return .done
    | .fallocate offset len => do vfsFallocate build offset.val len.val; return .done
    | .others volume => do
        modify fun s => { s with volume := volume }
        return .done

end Nanvix.Vfs
