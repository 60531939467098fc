import Nanvix.Library.Simulation
import Nanvix.Vfs.Descriptor

/-!
# A descriptor as a POSIX file

A POSIX file is a byte sequence with an offset. The calls on an entry of the
descriptor table show the traces of that model as long as three things are
avoided: a negative argument, a sum of offsets that 64 bits do not hold, and a
growth of the file that the volume cuts short. The entry's own cursor plays no
part, because every call places it first.

## Implementation notes

The model shares with the code what a full volume does: how many bytes a write
can store, and whether storing none of them is an error.
-/
namespace Nanvix.Vfs

open Nanvix.Library Nanvix.Library.Prog FatFile
open Nanvix.Sys (Build)

/-- A byte sequence with an offset, on a volume. -/
structure PosixFile where
  contents : List UInt8
  offset : Nat
  volume : Volume
  deriving DecidableEq

namespace PosixFile

/-- A call of the model; how it fails does not matter. -/
abbrev Call (α : Type) : Type := Prog PosixFile Unit α

/-- How many of `length` bytes can be stored from position `p` on. -/
def storable (file : PosixFile) (p length : Nat) : Nat :=
  min length (max file.contents.length file.volume.room - p)

/-- The bytes from position `p` on. -/
def fetch (p length : Nat) : Call (List UInt8) :=
  gets fun file => (file.contents.drop p).take length

/-- As many bytes as possible stored from position `p` on. A write of no bytes changes nothing. -/
def store (p : Nat) (buf : List UInt8) : Call Nat := fun file =>
  let n := file.storable p buf.length
  if n = 0 then
    if buf ≠ [] ∧ file.volume.refuses then .err () file else .ok 0 file
  else .ok n { file with contents := patch 0 file.contents p (buf.take n) }

/-- The file made at least `n` bytes long. -/
def grow (n : Nat) : Call Unit := fun file =>
  if n ≤ file.contents.length then .ok () file
  else if n ≤ file.volume.room then .ok () { file with contents := resize 0 file.contents n }
  else .err () file

/-- The position from which a seek is measured. -/
def base (file : PosixFile) (whence : Int) : Option Nat :=
  if whence = seekSet then some 0
  else if whence = seekCur then some file.offset
  else if whence = seekEnd then some file.contents.length
  else none

/-- The offset moved. -/
def lseek (offset whence : Int) : Call Int := fun file =>
  match file.base whence with
  | none => .err () file
  | some base =>
    let position := base + offset
    if position < 0 ∨ 2 ^ 63 ≤ position then .err () file
    else .ok position { file with offset := position.toNat }

/-- The bytes at the offset, which moves behind them. -/
def read (length : Nat) : Call (List UInt8) := do
  let bytes ← fetch (← gets offset) length
  modify fun file => { file with offset := file.offset + bytes.length }
  return bytes

/-- Bytes stored at the offset, which moves behind them. -/
def write (buf : List UInt8) : Call Nat := do
  let n ← store (← gets offset) buf
  modify fun file => { file with offset := file.offset + n }
  return n

/-- A negative argument is refused. -/
def natural (x : Int) : Call Nat := if x < 0 then throw () else pure x.toNat

def pread (length : Nat) (offset : Int) : Call (List UInt8) := do
  fetch (← natural offset) length

def pwrite (buf : List UInt8) (offset : Int) : Call Nat := do
  store (← natural offset) buf

/-- The file cut or padded to a length. -/
def ftruncate (length : Int) : Call Unit := do
  let n ← natural length
  modify fun file => { file with contents := file.contents.take n }
  grow n

def fallocate (offset len : Int) : Call Unit := do
  grow ((← natural offset) + (← natural len))

end PosixFile

/-- The POSIX file as a machine. -/
def posixMachine : Machine PosixFile Unit Request Reply where
  enabled _ _ := true
  exec
    | .read length => do return .bytes (← PosixFile.read length)
    | .write buf => do return .count (← PosixFile.write buf)
    | .lseek offset whence => do return .position (← PosixFile.lseek offset.val whence)
    | .pread length offset => do return .bytes (← PosixFile.pread length offset.val)
    | .pwrite buf offset => do return .count (← PosixFile.pwrite buf offset.val)
    | .ftruncate length => do PosixFile.ftruncate length.val; return .done
    | .fallocate offset len => do PosixFile.fallocate offset.val len.val; return .done
    | .others volume => do
        modify fun file => { file with volume := volume }
        return .done

variable {α : Type} {s : Slot} {handle : VfsFileHandle} {Q : Int → Slot → Prop} {length : Nat}
variable {buf : List UInt8}

section Steps
variable {file : FatFile} {p : Int} {v : Volume} {E : Fat32Error → Slot → Prop}

/-- A step of the handle that is known to succeed. -/
theorem wp_onHandle {f : Volume → VfsFileHandle → Except Fat32Error (α × VfsFileHandle)}
    {Q : α → Slot → Prop} {r : α} (h : f s.volume s.handle = .ok (r, handle)) :
    wp (onHandle f) Q E s ↔ Q r { s with handle := handle } := by
  apply wp_of_ok
  unfold onHandle
  rw [h]

@[simp] theorem wp_handleSize {Q : Nat → Slot → Prop} :
    wp handleSize Q E ⟨.fat32 file, p, v⟩ ↔ Q file.contents.length ⟨.fat32 file, p, v⟩ := by
  apply wp_onHandle
  simp only [VfsFileHandle.size, len_eq, Except.map]

@[simp] theorem wp_handleSeek_cur :
    wp (handleSeek 0 seekCur) Q E ⟨.fat32 file, p, v⟩ ↔
      Q file.cursor ⟨.fat32 file, p, v⟩ := by
  apply wp_onHandle
  have hne : seekCur ≠ seekSet := by decide
  simp only [VfsFileHandle.seek, seekWhence, if_neg hne, if_true, seek_current,
    Except.map]

@[simp] theorem wp_handleSeek_end :
    wp (handleSeek 0 seekEnd) Q E ⟨.fat32 file, p, v⟩ ↔
      Q file.contents.length ⟨.fat32 (file.place file.contents.length), p, v⟩ := by
  apply wp_onHandle
  have hset : seekEnd ≠ seekSet := by decide
  have hcur : seekEnd ≠ seekCur := by decide
  simp only [VfsFileHandle.seek, seekWhence, if_neg hset, if_neg hcur, if_true,
    seek_finish, Except.map]

theorem wp_handleSeek_set {o : Nat} (h : o < 2 ^ 32) :
    wp (handleSeek o seekSet) Q E ⟨.fat32 file, p, v⟩ ↔
      Q (min o file.contents.length : Nat) ⟨.fat32 (file.place o), p, v⟩ := by
  apply wp_onHandle
  have hnonneg : ¬(o : Int) < 0 := by omega
  have hvalue : asU64 o = o := asU64_of_nonneg (by omega) (by omega)
  simp only [VfsFileHandle.seek, seekWhence, if_true, if_neg hnonneg, hvalue,
    seek_start h, Except.map]

@[simp] theorem wp_handleRead {Q : List UInt8 → Slot → Prop} :
    wp (handleRead length) Q E ⟨.fat32 file, p, v⟩ ↔
      Q ((file.contents.drop file.cursor).take length) ⟨.fat32 (file.read length).2, p, v⟩ :=
  wp_onHandle rfl

@[simp] theorem wp_handleTruncate {Q : Unit → Slot → Prop} :
    wp handleTruncate Q E ⟨.fat32 file, p, v⟩ ↔ Q () ⟨.fat32 file.truncate, p, v⟩ :=
  wp_onHandle rfl

/-- A write that the volume accepts. -/
theorem wp_handleWrite_ok {Q : Nat → Slot → Prop}
    (h : ¬(file.storable v buf.length = 0 ∧ buf ≠ [] ∧ v.refuses = true)) :
    wp (handleWrite buf) Q E ⟨.fat32 file, p, v⟩ ↔
      Q (file.storable v buf.length) ⟨.fat32 (file.stored v buf), p, v⟩ := by
  apply wp_onHandle
  simp only [VfsFileHandle.write, write, if_neg h, Except.map]

/-- A write that the full volume refuses. -/
theorem wp_handleWrite_err {Q : Nat → Slot → Prop}
    (h : file.storable v buf.length = 0 ∧ buf ≠ [] ∧ v.refuses = true) :
    wp (handleWrite buf) Q E ⟨.fat32 file, p, v⟩ ↔ E .noSpace ⟨.fat32 file, p, v⟩ := by
  apply wp_of_err
  simp only [handleWrite, onHandle, VfsFileHandle.write, write, if_pos h, Except.map]

end Steps

/-- The entry holds a FAT file with these contents. -/
def Shows (xs : List UInt8) (p : Int) (v : Volume) (s : Slot) : Prop :=
  ∃ file : FatFile, s = ⟨.fat32 file, p, v⟩ ∧ file.contents = xs

/-- A write at `pos` stores its first byte, unless it stays within the file. -/
def Fits (xs : List UInt8) (v : Volume) (pos : Nat) (buf : List UInt8) : Prop :=
  pos ≤ xs.length ∨ (buf ≠ [] ∧ pos < v.room)

section Filling
variable {file : FatFile} {xs : List UInt8} {p : Int} {v : Volume}
variable {E : Fat32Error → Slot → Prop} {beforeNoSpace : Call Unit} {pos : Nat}

/-- A loop with room for all its zeros appends them. -/
theorem wp_fillZeros {fuel k : Nat} (hfuel : k ≤ fuel)
    (hcursor : file.cursor = file.contents.length) (hroom : file.contents.length + k ≤ v.room) :
    wp (fillZeros beforeNoSpace fuel k)
      (fun _ t => Shows (file.contents ++ List.replicate k 0) p v t) E ⟨.fat32 file, p, v⟩ := by
  induction fuel generalizing file k with
  | zero =>
    obtain rfl : k = 0 := by omega
    apply (wp_pure ()).mpr
    exact ⟨file, rfl, (List.append_nil _).symm⟩
  | succ fuel ih =>
    unfold fillZeros
    by_cases hk : k = 0
    · subst hk
      simp only [if_true, wp_pure]
      exact ⟨file, rfl, (List.append_nil _).symm⟩
    · -- One round stores a chunk of zeros, and the rest of the loop the others.
      generalize hc : min k zeroChunk = c
      have hpos : ¬c = 0 := by
        have : 0 < zeroChunk := by decide
        omega
      have hstorable : file.storable v (List.replicate c (0 : UInt8)).length = c := by
        rw [List.length_replicate]
        unfold storable
        omega
      have hcontents : (file.stored v (List.replicate c 0)).contents =
          file.contents ++ List.replicate c 0 := by
        change patch 0 file.contents file.cursor (List.take _ _) = _
        rw [hstorable, hcursor, patch_length, List.take_of_length_le]
        rw [List.length_replicate]
      have hend : (file.stored v (List.replicate c 0)).cursor =
          (file.stored v (List.replicate c 0)).contents.length := by
        rw [hcontents, List.length_append, List.length_replicate, ← hcursor]
        change file.cursor + file.storable v _ = _
        rw [hstorable]
      simp only [if_neg hk, wp_bind]
      rw [wp_handleWrite_ok (fun h => hpos (hstorable ▸ h.1)), hstorable]
      simp only [if_neg hpos]
      apply (ih (k := k - c) (by omega) hend _).mono
      · rintro _ t ⟨after, rfl, hafter⟩
        refine ⟨after, rfl, ?_⟩
        rw [hafter, hcontents, List.append_assoc, List.replicate_append_replicate]
        congr 2
        omega
      · exact fun _ _ h => h
      · rw [hcontents, List.length_append, List.length_replicate]
        omega

/-- A file is extended to a size that the volume has room for. -/
theorem wp_extend (hlt : file.contents.length < pos) (hroom : pos ≤ v.room) :
    wp (extend beforeNoSpace file.contents.length pos)
      (fun _ t => Shows (resize 0 file.contents pos) p v t) E ⟨.fat32 file, p, v⟩ := by
  have hword : asUsize (pos - file.contents.length) = pos - file.contents.length := by
    have := v.room_lt
    exact asUsize_of_lt (by omega)
  have hcursor : (file.place file.contents.length).cursor =
      (file.place file.contents.length).contents.length := Nat.min_self _
  unfold extend
  simp only [wp_bind, wp_handleSeek_end, hword]
  rw [resize_of_length_le 0 hlt.le]
  apply wp_fillZeros le_rfl hcursor
  change file.contents.length + _ ≤ _
  omega

theorem wp_fillGap (hroom : pos ≤ file.contents.length ∨ pos ≤ v.room) :
    wp (fillGap beforeNoSpace file.contents.length pos)
      (fun _ t => Shows (resize 0 file.contents (max file.contents.length pos)) p v t) E
      ⟨.fat32 file, p, v⟩ := by
  unfold fillGap
  by_cases hlt : file.contents.length < pos
  · rw [if_pos hlt, max_eq_right hlt.le]
    exact wp_extend hlt (hroom.resolve_left (by omega))
  · rw [if_neg hlt, max_eq_left (by omega), resize_length]
    exact (wp_pure ()).mpr ⟨file, rfl, rfl⟩

/-- What is read at a position within the file. -/
theorem read_place (h : pos ≤ file.contents.length) :
    ((file.place pos).contents.drop (file.place pos).cursor).take length =
      (file.contents.drop pos).take length := by
  have hcursor : (file.place pos).cursor = pos := Nat.min_eq_left h
  rw [hcursor]
  rfl

/-- The cursor put back. -/
theorem wp_restore {n : Nat} {Q : Unit → Slot → Prop} (hn : n < 2 ^ 32)
    (h : ∀ t, Shows file.contents p v t → Q () t) :
    wp (ignoring (handleSeek n seekSet)) Q E ⟨.fat32 file, p, v⟩ := by
  unfold ignoring
  rw [wp_bind, wp_attempt, wp_handleSeek_set hn, wp_pure]
  exact h _ ⟨_, rfl, rfl⟩

/-- What can be stored at a position after the gap before it is filled. -/
theorem storable_place (a : PosixFile) (hfits : Fits a.contents a.volume pos buf)
    (hfile : file.contents = resize 0 a.contents (max a.contents.length pos)) :
    (file.place pos).storable a.volume buf.length = a.storable pos buf.length := by
  have hlength : file.contents.length = max a.contents.length pos := by
    rw [hfile, length_resize]
  change min _ (max file.contents.length _ - min pos file.contents.length) = min _ _
  rw [hlength]
  obtain h | ⟨-, h⟩ := hfits
  · rw [max_eq_left h, min_eq_left h]
  · rw [min_eq_left (le_max_right _ _)]
    omega

/-- The contents after a write at a position, the gap before it being filled. -/
theorem contents_stored_place (a : PosixFile) (hfits : Fits a.contents a.volume pos buf)
    (hfile : file.contents = resize 0 a.contents (max a.contents.length pos)) :
    ((file.place pos).stored a.volume buf).contents =
      patch 0 a.contents pos (buf.take (a.storable pos buf.length)) := by
  have hcursor : (file.place pos).cursor = pos := by
    change min pos file.contents.length = pos
    rw [hfile, length_resize]
    exact min_eq_left (le_max_right _ _)
  change patch 0 file.contents (file.place pos).cursor (List.take _ _) = _
  rw [storable_place a hfits hfile, hcursor, hfile]
  obtain h | h := le_total pos a.contents.length
  · rw [max_eq_left h, resize_length]
  · rw [max_eq_right h, patch_resize 0 _ h]

end Filling

variable {a : PosixFile} {file : FatFile} {p : Int} {pos : Nat} {E : Fat32Error → Slot → Prop}

/-- A write behind the filled gap does what the model's write does. -/
theorem wp_handleWrite_place {Q : Nat → Slot → Prop} (hfits : Fits a.contents a.volume pos buf)
    (hfile : file.contents = resize 0 a.contents (max a.contents.length pos)) (hok : ∀ t : FatFile,
      PosixFile.store pos buf a =
        .ok (a.storable pos buf.length) { a with contents := t.contents } →
      Q (a.storable pos buf.length) ⟨.fat32 t, p, a.volume⟩)
    (herr : ∀ t : FatFile, PosixFile.store pos buf a = .err () a → t.contents = a.contents →
      E .noSpace ⟨.fat32 t, p, a.volume⟩) :
    wp (handleWrite buf) Q E ⟨.fat32 (file.place pos), p, a.volume⟩ := by
  have hstorable := storable_place a hfits hfile
  -- Where nothing is stored the position is not behind the end, and there was no gap.
  have hinside : a.storable pos buf.length = 0 → pos ≤ a.contents.length := by
    intro hzero
    obtain h | ⟨hne, hlt⟩ := hfits
    · exact h
    · have hlength := List.length_pos_iff.mpr hne
      unfold PosixFile.storable at hzero
      omega
  by_cases hrefused : a.storable pos buf.length = 0 ∧ buf ≠ [] ∧ a.volume.refuses = true
  · rw [wp_handleWrite_err (hstorable ▸ hrefused)]
    refine herr _ (by simp only [PosixFile.store, if_pos hrefused.1, if_pos hrefused.2]) ?_
    change file.contents = _
    rw [hfile, max_eq_left (hinside hrefused.1), resize_length]
  · rw [wp_handleWrite_ok (hstorable ▸ hrefused), hstorable]
    refine hok _ ?_
    rw [contents_stored_place a hfits hfile]
    simp only [PosixFile.store]
    by_cases hzero : a.storable pos buf.length = 0
    · rw [if_pos hzero, if_neg fun hrefuses => hrefused ⟨hzero, hrefuses⟩, hzero, List.take_zero,
        patch_nil 0 (hinside hzero)]
    · rw [if_neg hzero]

/-- The entry and the file of the model: the same contents, offset and volume. -/
def Abstracts (s : Slot) (a : PosixFile) : Prop :=
  Shows a.contents a.offset a.volume s ∧ a.offset < 2 ^ 63

theorem Abstracts.exists_eq (h : Abstracts s a) :
    ∃ (file : FatFile) (pos : Nat) (v : Volume),
      s = ⟨.fat32 file, pos, v⟩ ∧ a = ⟨file.contents, pos, v⟩ ∧ pos < 2 ^ 63 := by
  obtain ⟨xs, pos, v⟩ := a
  obtain ⟨⟨file, rfl, rfl⟩, hlt⟩ := h
  exact ⟨file, pos, v, rfl, rfl, hlt⟩

/-- The condition under which a call on a file with these contents does what the model does: no
argument is negative, no sum of offsets overflows, and a growth is not cut short. -/
def Condition (xs : List UInt8) (pos : Int) (v : Volume) : Request → Prop
  | .read _ => True
  | .write buf => Fits xs v pos.toNat buf
  | .lseek offset whence => (whence = seekCur → pos + offset.val < 2 ^ 63) ∧
      (whence = seekEnd → xs.length + offset.val < 2 ^ 63)
  | .pread _ offset => 0 ≤ offset.val
  | .pwrite buf offset => 0 ≤ offset.val ∧ Fits xs v offset.val.toNat buf
  | .ftruncate length => 0 ≤ length.val ∧
      (length.val.toNat ≤ xs.length ∨ length.val.toNat ≤ v.room)
  | .fallocate offset len => 0 ≤ offset.val ∧ 0 ≤ len.val ∧
      (offset.val.toNat + len.val.toNat ≤ xs.length ∨
        offset.val.toNat + len.val.toNat ≤ v.room)
  | .others _ => True

instance (xs : List UInt8) (v : Volume) (pos : Nat) (buf : List UInt8) :
    Decidable (Fits xs v pos buf) :=
  inferInstanceAs (Decidable (_ ∨ _))

instance (xs : List UInt8) (pos : Int) (v : Volume) : DecidablePred (Condition xs pos v)
  | .read _ => inferInstanceAs (Decidable True)
  | .write _ => inferInstanceAs (Decidable (Fits _ _ _ _))
  | .lseek _ _ => inferInstanceAs (Decidable (_ ∧ _))
  | .pread _ _ => inferInstanceAs (Decidable (_ ≤ _))
  | .pwrite _ _ => inferInstanceAs (Decidable (_ ∧ _))
  | .ftruncate _ => inferInstanceAs (Decidable (_ ∧ _))
  | .fallocate _ _ => inferInstanceAs (Decidable (_ ∧ _))
  | .others _ => inferInstanceAs (Decidable True)

/-- The condition for an entry that holds a FAT file. -/
def Meets (c : Request) (s : Slot) : Prop :=
  match s.handle with
  | .fat32 file => Condition file.contents s.virtualPos s.volume c
  | _ => False

instance (c : Request) (s : Slot) : Decidable (Meets c s) :=
  match s with
  | ⟨.fat32 file, pos, v⟩ => inferInstanceAs (Decidable (Condition file.contents pos v c))
  | ⟨.directRead _, _, _⟩ => inferInstanceAs (Decidable False)
  | ⟨.directory, _, _⟩ => inferInstanceAs (Decidable False)
  | ⟨.hostFs _, _, _⟩ => inferInstanceAs (Decidable False)

section Calls
variable {build : Build} {s : Slot} {a : PosixFile}

theorem wp_addOff {x y : Int} (hlower : -2 ^ 63 ≤ x + y) (hupper : x + y < 2 ^ 63) :
    wp (addOff build x y) Q E s ↔ Q (x + y) s := by
  unfold addOff
  rw [if_pos (fitsOff_iff.mpr ⟨hlower, hupper⟩)]
  exact wp_pure _

/-- The position moves on with what was transferred. -/
theorem wp_advance {p n : Nat} {v : Volume} {Q : Unit → Slot → Prop} (h : p + n < 2 ^ 63) :
    wp (advance build n) Q E ⟨handle, p, v⟩ ↔ Q () ⟨handle, (p + n : Nat), v⟩ := by
  unfold advance
  simp only [wp_bind, wp_gets, wp_modify]
  rw [wp_addOff (by omega) (by omega)]
  rfl

theorem mirrors_read (h : Abstracts s a) :
    mirrors (vfsRead build length) (PosixFile.read length) Abstracts s a := by
  obtain ⟨file, pos, v, rfl, rfl, hlt⟩ := h.exists_eq
  have hvalue : asU64 (pos : Int) = pos := asU64_of_nonneg (by omega) (by omega)
  have hmodel : PosixFile.read length ⟨file.contents, pos, v⟩ =
      .ok ((file.contents.drop pos).take length)
        ⟨file.contents, pos + ((file.contents.drop pos).take length).length, v⟩ := rfl
  apply mirrors_ok hmodel
  unfold vfsRead
  simp only [wp_bind, wp_gets, VfsFileHandle.isDir, Bool.false_eq_true, if_false, wp_handleSize,
    hvalue]
  by_cases hend : file.contents.length ≤ pos
  · rw [if_pos hend, List.drop_eq_nil_of_le hend, List.take_nil]
    exact (wp_pure _).mpr ⟨rfl, ⟨file, rfl, rfl⟩, hlt⟩
  · have hlength := file.length_lt
    have hsum : pos + ((file.contents.drop pos).take length).length < 2 ^ 63 := by
      rw [List.length_take, List.length_drop]
      omega
    simp only [if_neg hend, wp_bind]
    rw [wp_handleSeek_set (by omega)]
    simp only [wp_handleRead, read_place (Nat.le_of_not_le hend), wp_advance hsum, wp_pure]
    exact ⟨trivial, ⟨_, rfl, rfl⟩, hsum⟩

/-- Filling the gap before a position and placing the cursor there. -/
theorem wp_reach {v : Volume} {beforeNoSpace : Call Unit} {f : Int → Call α} {Q : α → Slot → Prop}
    (hfits : Fits file.contents v pos buf) (h : ∀ after : FatFile,
      after.contents = resize 0 file.contents (max file.contents.length pos) →
      ∀ r, wp (f r) Q E ⟨.fat32 (after.place pos), p, v⟩) :
    wp (fillGap beforeNoSpace file.contents.length pos >>= fun _ =>
      handleSeek pos seekSet >>= f) Q E ⟨.fat32 file, p, v⟩ := by
  have hpos : pos < 2 ^ 32 := by
    have hlength := file.length_lt
    have hroom := v.room_lt
    obtain h | ⟨-, h⟩ := hfits
    · omega
    · omega
  have hroom : pos ≤ file.contents.length ∨ pos ≤ v.room := hfits.imp_right fun h => h.2.le
  rw [wp_bind]
  apply (wp_fillGap hroom).imp
  rintro _ t ⟨after, rfl, hafter⟩
  rw [wp_bind, wp_handleSeek_set hpos]
  exact h after hafter _

theorem PosixFile.write_eq : PosixFile.write buf a =
    match PosixFile.store a.offset buf a with
    | .ok n b => .ok n { b with offset := b.offset + n }
    | .err e b => .err e b
    | .abort m => .abort m := by
  change Prog.bind (PosixFile.store a.offset buf) _ a = _
  unfold Prog.bind
  cases PosixFile.store a.offset buf a <;> rfl

theorem mirrors_write (h : Abstracts s a) (hmeets : Meets (.write buf) s) :
    mirrors (vfsWrite build buf) (PosixFile.write buf) Abstracts s a := by
  obtain ⟨file, pos, v, rfl, rfl, hlt⟩ := h.exists_eq
  have hfits : Fits file.contents v pos buf := hmeets
  have hvalue : asU64 (pos : Int) = pos := asU64_of_nonneg (by omega) (by omega)
  have hsum : pos + PosixFile.storable ⟨file.contents, pos, v⟩ pos buf.length < 2 ^ 63 := by
    have hlength := file.length_lt
    have hroom := v.room_lt
    unfold PosixFile.storable
    dsimp only
    omega
  rw [mirrors_iff, PosixFile.write_eq]
  unfold vfsWrite
  rw [wp_bind, wp_handleSize, wp_bind, wp_gets, hvalue]
  apply wp_reach hfits
  intro after hafter _
  rw [wp_bind]
  apply wp_handleWrite_place (a := ⟨file.contents, pos, v⟩) hfits hafter
  · intro t hstore
    rw [wp_bind, wp_advance hsum, wp_pure, hstore]
    exact ⟨_, rfl, ⟨t, rfl, rfl⟩, hsum⟩
  · intro t hstore ht
    rw [hstore]
    exact ⟨(), _, rfl, ⟨t, rfl, ht⟩, hlt⟩

/-- An argument that is a natural number passes the check for negative ones. -/
theorem PosixFile.natural_bind {f : Nat → PosixFile.Call α} :
    (PosixFile.natural pos >>= f) a = f pos a := by
  apply bind_ok
  unfold PosixFile.natural
  rw [if_neg (by omega)]
  rfl

variable {offset : OffT}

theorem mirrors_pread (h : Abstracts s a) (hmeets : Meets (.pread length offset) s) :
    mirrors (vfsPread length offset.val) (PosixFile.pread length offset.val) Abstracts s a := by
  obtain ⟨file, q, v, rfl, rfl, hlt⟩ := h.exists_eq
  obtain ⟨pos, hpos⟩ := Int.eq_ofNat_of_zero_le hmeets
  have hupper := offset.upper
  rw [hpos] at hupper ⊢
  have hvalue : asU64 (pos : Int) = pos := asU64_of_nonneg (by omega) hupper
  have hmodel : PosixFile.pread length pos ⟨file.contents, q, v⟩ =
      .ok ((file.contents.drop pos).take length) ⟨file.contents, q, v⟩ := PosixFile.natural_bind
  apply mirrors_ok hmodel
  have hcursor := file.cursor_le
  have hlength := file.length_lt
  unfold vfsPread
  rw [wp_bind, wp_handleSize, hvalue]
  by_cases hend : file.contents.length ≤ pos
  · rw [if_pos hend, List.drop_eq_nil_of_le hend, List.take_nil]
    exact (wp_pure _).mpr ⟨rfl, ⟨file, rfl, rfl⟩, hlt⟩
  · rw [if_neg hend, wp_bind, wp_handleSeek_cur, wp_bind, wp_handleSeek_set (by omega), wp_bind,
      wp_attempt, wp_handleRead, read_place (Nat.le_of_not_le hend), wp_bind]
    apply wp_restore (by omega)
    intro t ht
    exact (wp_ofExcept_ok _).mpr ⟨rfl, ht, hlt⟩

theorem mirrors_pwrite (h : Abstracts s a) (hmeets : Meets (.pwrite buf offset) s) :
    mirrors (vfsPwrite buf offset.val) (PosixFile.pwrite buf offset.val) Abstracts s a := by
  obtain ⟨file, q, v, rfl, rfl, hlt⟩ := h.exists_eq
  obtain ⟨hnonneg, hfits⟩ := hmeets
  replace hfits : Fits file.contents v offset.val.toNat buf := hfits
  have hupper := offset.upper
  obtain ⟨pos, hpos⟩ := Int.eq_ofNat_of_zero_le hnonneg
  rw [hpos] at hupper hfits ⊢
  rw [Int.toNat_natCast] at hfits
  have hvalue : asU64 (pos : Int) = pos := asU64_of_nonneg (by omega) hupper
  have hcursor := file.cursor_le
  have hlength := file.length_lt
  rw [mirrors_iff, PosixFile.pwrite, PosixFile.natural_bind]
  unfold vfsPwrite
  rw [wp_bind, wp_handleSeek_cur, wp_bind, wp_handleSize, hvalue]
  apply wp_reach hfits
  intro after hafter _
  rw [wp_bind, wp_attempt]
  apply wp_handleWrite_place (a := ⟨file.contents, q, v⟩) hfits hafter
  · intro file hstore
    rw [wp_bind, hstore]
    apply wp_restore (by omega)
    intro t ht
    exact (wp_ofExcept_ok _).mpr ⟨_, rfl, ht, hlt⟩
  · intro file hstore hfile
    rw [wp_bind, hstore]
    apply wp_restore (by omega)
    intro t ht
    exact (wp_ofExcept_error _).mpr ⟨(), _, rfl, hfile ▸ ht, hlt⟩

/-- The position a seek computes: the sum, unless the whence value is unknown. -/
theorem wp_newPos {whence : Int}
    (hupper : ∀ base : Nat, a.base whence = some base → (base : Int) + offset.val < 2 ^ 63) :
    wp (newPos build a.offset a.contents.length offset.val whence) Q E s ↔
      match a.base whence with
      | some base => Q (base + offset.val) s
      | none => E .invalidArgument s := by
  have hlower := offset.lower
  unfold PosixFile.base at hupper ⊢
  unfold newPos
  by_cases hset : whence = seekSet
  · simp only [if_pos hset, wp_pure, Int.ofNat_zero, Int.zero_add]
  · by_cases hcur : whence = seekCur
    · have := hupper a.offset (by rw [if_neg hset, if_pos hcur])
      simp only [if_neg hset, if_pos hcur, wp_addOff (by omega) this]
    · by_cases hend : whence = seekEnd
      · have := hupper a.contents.length (by rw [if_neg hset, if_neg hcur, if_pos hend])
        simp only [if_neg hset, if_neg hcur, if_pos hend, wp_addOff (by omega) this]
      · simp only [if_neg hset, if_neg hcur, if_neg hend, wp_throw]

theorem mirrors_lseek {whence : Int} (h : Abstracts s a) (hmeets : Meets (.lseek offset whence) s) :
    mirrors (vfsLseek build offset.val whence) (PosixFile.lseek offset.val whence)
      Abstracts s a := by
  obtain ⟨file, pos, v, rfl, rfl, hlt⟩ := h.exists_eq
  obtain ⟨hcur, hend⟩ := hmeets
  have hlength := file.length_lt
  have hupper : ∀ base : Nat, PosixFile.base ⟨file.contents, pos, v⟩ whence = some base → (base : Int) + offset.val < 2 ^ 63 := by
    intro base hbase
    unfold PosixFile.base at hbase
    split_ifs at hbase with h1 h2 h3
    · cases hbase
      have := offset.upper
      omega
    · cases hbase
      exact hcur h2
    · cases hbase
      exact hend h3
  rw [mirrors_iff]
  unfold vfsLseek PosixFile.lseek
  rw [wp_bind, wp_handleSize, wp_bind, wp_gets, wp_bind, wp_newPos hupper]
  cases hbase : PosixFile.base ⟨file.contents, pos, v⟩ whence with
  | none => exact ⟨(), _, rfl, ⟨file, rfl, rfl⟩, hlt⟩
  | some base =>
    have hfits := hupper base hbase
    dsimp only
    by_cases hneg : (base : Int) + offset.val < 0
    · rw [if_pos hneg, if_pos (Or.inl hneg)]
      exact (wp_throw _).mpr ⟨(), _, rfl, ⟨file, rfl, rfl⟩, hlt⟩
    · obtain ⟨n, hn⟩ := Int.eq_ofNat_of_zero_le (Int.not_lt.mp hneg)
      have hbound : n < 2 ^ 63 := by omega
      have hrange : ¬((n : Int) < 0 ∨ 2 ^ 63 ≤ (n : Int)) := by omega
      rw [hn, if_neg (by omega), if_neg hrange, wp_bind, wp_modify]
      by_cases hinside : (n : Int) ≤ file.contents.length
      · rw [if_pos hinside, wp_bind]
        apply wp_restore (by omega)
        intro t ht
        exact (wp_pure _).mpr ⟨_, rfl, ht, hbound⟩
      · rw [if_neg hinside]
        exact (wp_pure _).mpr ⟨_, rfl, ⟨file, rfl, rfl⟩, hbound⟩

/-- A growth of the model that the volume has room for. -/
theorem PosixFile.grow_eq {n : Nat} (h : n ≤ a.contents.length ∨ n ≤ a.volume.room) :
    PosixFile.grow n a =
      .ok () { a with contents := resize 0 a.contents (max a.contents.length n) } := by
  unfold PosixFile.grow
  by_cases hinside : n ≤ a.contents.length
  · rw [if_pos hinside, max_eq_left hinside, resize_length]
  · rw [if_neg hinside, if_pos (h.resolve_left hinside), max_eq_right (by omega)]

theorem PosixFile.ftruncate_eq {n : Nat} (h : n ≤ a.contents.length ∨ n ≤ a.volume.room) :
    PosixFile.ftruncate n a = .ok () { a with contents := resize 0 a.contents n } := by
  unfold PosixFile.ftruncate
  rw [PosixFile.natural_bind]
  change PosixFile.grow n { a with contents := a.contents.take n } = _
  by_cases hinside : n ≤ a.contents.length
  · have hlength : (a.contents.take n).length = n := List.length_take_of_le hinside
    rw [PosixFile.grow_eq (Or.inl hlength.ge), resize_of_le_length 0 hinside]
    dsimp only
    rw [hlength, max_self]
    nth_rewrite 2 [← hlength]
    rw [resize_length]
  · rw [List.take_of_length_le (by omega), PosixFile.grow_eq h, max_eq_right (by omega)]

theorem mirrors_ftruncate {length : OffT} (h : Abstracts s a)
    (hmeets : Meets (.ftruncate length) s) :
    mirrors (vfsFtruncate length.val) (PosixFile.ftruncate length.val) Abstracts s a := by
  obtain ⟨file, q, v, rfl, rfl, hlt⟩ := h.exists_eq
  obtain ⟨hnonneg, hroom⟩ := hmeets
  have hupper := length.upper
  obtain ⟨n, hn⟩ := Int.eq_ofNat_of_zero_le hnonneg
  rw [hn] at hupper hroom ⊢
  rw [Int.toNat_natCast] at hroom
  have hvalue : asU64 (n : Int) = n := asU64_of_nonneg (by omega) hupper
  have hcursor := file.cursor_le
  have hlength := file.length_lt
  apply mirrors_ok (PosixFile.ftruncate_eq hroom)
  unfold vfsFtruncate
  rw [wp_bind, wp_gets]
  dsimp only
  rw [wp_bind, wp_handleSize, hvalue, wp_bind, wp_handleSeek_cur]
  by_cases hshrink : n ≤ file.contents.length
  · have hcut : (file.place n).truncate.contents = resize 0 file.contents n := by
      change file.contents.take (min n file.contents.length) = _
      rw [min_eq_left hshrink, resize_of_le_length 0 hshrink]
    rw [if_pos hshrink, wp_bind, wp_attempt, wp_bind, wp_handleSeek_set (by omega),
      wp_handleTruncate, wp_bind]
    apply wp_restore (by omega)
    intro t ht
    exact (wp_ofExcept_ok _).mpr ⟨rfl, hcut ▸ ht, hlt⟩
  · rw [if_neg hshrink, wp_bind]
    apply (wp_extend (by omega) (hroom.resolve_left hshrink)).imp
    rintro _ t ⟨after, rfl, hafter⟩
    apply wp_restore (by omega)
    intro t ht
    rw [hafter] at ht
    exact ⟨rfl, ht, hlt⟩

theorem mirrors_fallocate {offset len : OffT} (h : Abstracts s a)
    (hmeets : Meets (.fallocate offset len) s) :
    mirrors (vfsFallocate build offset.val len.val) (PosixFile.fallocate offset.val len.val)
      Abstracts s a := by
  obtain ⟨file, q, v, rfl, rfl, hlt⟩ := h.exists_eq
  obtain ⟨hoffset, hlen, hroom⟩ := hmeets
  replace hroom : _ ∨ _ ≤ v.room := hroom
  obtain ⟨m, hm⟩ := Int.eq_ofNat_of_zero_le hoffset
  obtain ⟨n, hn⟩ := Int.eq_ofNat_of_zero_le hlen
  rw [hm, hn] at hroom ⊢
  rw [Int.toNat_natCast, Int.toNat_natCast] at hroom
  have hcursor := file.cursor_le
  have hlength := file.length_lt
  have hlimit := v.room_lt
  have hvalue : asU64 ((m : Int) + n) = m + n := by
    rw [asU64_of_nonneg (by omega) (by omega)]
    omega
  have hmodel : PosixFile.fallocate m n ⟨file.contents, q, v⟩ = 
      .ok () ⟨resize 0 file.contents (max file.contents.length (m + n)), q, v⟩ := by
    unfold PosixFile.fallocate
    rw [PosixFile.natural_bind, PosixFile.natural_bind, PosixFile.grow_eq hroom]
  apply mirrors_ok hmodel
  unfold vfsFallocate
  rw [wp_bind, wp_gets]
  dsimp only
  rw [wp_bind, wp_addOff (by omega) (by omega), wp_bind, wp_handleSize, hvalue]
  by_cases hinside : m + n ≤ file.contents.length
  · rw [if_pos hinside, max_eq_left hinside, resize_length]
    exact (wp_pure _).mpr ⟨rfl, ⟨file, rfl, rfl⟩, hlt⟩
  · rw [if_neg hinside, max_eq_right (by omega), wp_bind, wp_handleSeek_cur, wp_bind]
    apply (wp_extend (by omega) (hroom.resolve_left hinside)).imp
    rintro _ t ⟨after, rfl, hafter⟩
    apply wp_restore (by omega)
    intro t ht
    rw [hafter] at ht
    exact ⟨rfl, ht, hlt⟩

/-- Every call that meets the condition does what the model does. -/
theorem mirrors_exec (c : Request) (h : Abstracts s a) (hmeets : Meets c s) :
    mirrors ((vfsMachine build).exec c) (posixMachine.exec c) Abstracts s a := by
  cases c with
  | read length => exact mirrors_map _ (mirrors_read h)
  | write buf => exact mirrors_map _ (mirrors_write h hmeets)
  | lseek offset whence => exact mirrors_map _ (mirrors_lseek h hmeets)
  | pread length offset => exact mirrors_map _ (mirrors_pread h hmeets)
  | pwrite buf offset => exact mirrors_map _ (mirrors_pwrite h hmeets)
  | ftruncate length => exact mirrors_map _ (mirrors_ftruncate h hmeets)
  | fallocate offset len => exact mirrors_map _ (mirrors_fallocate h hmeets)
  | others volume =>
    obtain ⟨file, pos, v, rfl, rfl, hlt⟩ := h.exists_eq
    exact ⟨rfl, ⟨file, rfl, rfl⟩, hlt⟩

end Calls

/-- For every list of calls that meet the condition, none of which panics, the calls return what
they return on the POSIX file, and they leave the contents and the offset they leave there. -/
theorem descriptor_refines_posix (build : Build) (s : Slot) (a : PosixFile) (h : Abstracts s a)
    (cs : List Request) (hmeets : (vfsMachine build).Along Meets cs s) :
    ∃ calls t b, calls.map Prod.fst = cs ∧ (vfsMachine build).Trace Meets s calls t ∧
      posixMachine.Trace (fun _ _ => True) a calls b ∧ Abstracts t b := by
  apply hmeets.mirrored Abstracts _ h
  intro c s a hs _ hc
  exact ⟨rfl, mirrors_exec c hs hc⟩

/-- A volume on which the file may become eight bytes long. -/
def smallVolume : Volume := ⟨8, false, by decide⟩

/-- An entry for the empty file, with a position. -/
def emptySlot (pos : Int) : Slot := ⟨.fat32 ⟨[], 0, by decide, by decide⟩, pos, smallVolume⟩

/-- Calls that leave a gap, read across it and cut the file behind the offset. -/
def gapCalls : List Request :=
  [.write [1, 2, 3], .lseek ⟨2, by decide, by decide⟩ seekEnd, .write [9],
    .pread 4 ⟨2, by decide, by decide⟩, .ftruncate ⟨2, by decide, by decide⟩, .read 1]

theorem descriptor_refines_posix_of_gap :
    Abstracts (emptySlot 0) ⟨[], 0, smallVolume⟩ ∧
    ∃ calls t b, calls.map Prod.fst = gapCalls ∧
      (vfsMachine .dev).Trace Meets (emptySlot 0) calls t ∧
      posixMachine.Trace (fun _ _ => True) ⟨[], 0, smallVolume⟩ calls b ∧ Abstracts t b := by
  have habstracts : Abstracts (emptySlot 0) ⟨[], 0, smallVolume⟩ := ⟨⟨_, rfl, rfl⟩, by decide⟩
  have hmeets : (vfsMachine .dev).Along Meets gapCalls (emptySlot 0) := by
    apply Machine.Along.of_replay (fun c s => of_decide_eq_true)
    decide +kernel
  exact ⟨habstracts, descriptor_refines_posix .dev (emptySlot 0) _ habstracts _ hmeets⟩

/-- What a call on the entry returns, nothing if it fails, and the contents it leaves. -/
def Slot.shown : Outcome Slot Fat32Error Reply → Option (Option Reply × List UInt8)
  | .ok r ⟨.fat32 file, _, _⟩ => some (some r, file.contents)
  | .err _ ⟨.fat32 file, _, _⟩ => some (none, file.contents)
  | _ => none

/-- The same for a call of the model. -/
def PosixFile.shown : Outcome PosixFile Unit Reply → Option (Option Reply × List UInt8)
  | .ok r file => some (some r, file.contents)
  | .err _ file => some (none, file.contents)
  | .abort _ => none

/-- Six calls that differ from the model: reading at a negative offset succeeds; a negative length
fills the volume with zeros before the call fails; a length of `2 ^ 32` is accepted and nothing
grows; a write whose gap does not fit fails with the gap half filled; a write of no bytes behind
the end grows the file; and a seek whose sum overflows panics. -/
theorem descriptor_differs_from_posix :
    (Slot.shown ((vfsMachine .dev).exec (.pread 1 ⟨-1, by decide, by decide⟩) (emptySlot 0)) =
        some (some (.bytes []), []) ∧
      PosixFile.shown (posixMachine.exec (.pread 1 ⟨-1, by decide, by decide⟩)
        ⟨[], 0, smallVolume⟩) = some (none, [])) ∧
    (Slot.shown ((vfsMachine .dev).exec (.ftruncate ⟨-1, by decide, by decide⟩) (emptySlot 0)) =
        some (none, List.replicate 8 0) ∧
      PosixFile.shown (posixMachine.exec (.ftruncate ⟨-1, by decide, by decide⟩)
        ⟨[], 0, smallVolume⟩) = some (none, [])) ∧
    (Slot.shown ((vfsMachine .dev).exec (.ftruncate ⟨2 ^ 32, by decide, by decide⟩)
        (emptySlot 0)) = some (some .done, []) ∧
      PosixFile.shown (posixMachine.exec (.ftruncate ⟨2 ^ 32, by decide, by decide⟩)
        ⟨[], 0, smallVolume⟩) = some (none, [])) ∧
    (Slot.shown ((vfsMachine .dev).exec (.write [1]) (emptySlot 9)) =
        some (none, List.replicate 8 0) ∧
      PosixFile.shown (posixMachine.exec (.write [1]) ⟨[], 9, smallVolume⟩) =
        some (some (.count 0), [])) ∧
    (Slot.shown ((vfsMachine .dev).exec (.write []) (emptySlot 2)) =
        some (some (.count 0), [0, 0]) ∧
      PosixFile.shown (posixMachine.exec (.write []) ⟨[], 2, smallVolume⟩) =
        some (some (.count 0), [])) ∧
    (Slot.shown ((vfsMachine .dev).exec (.lseek ⟨1, by decide, by decide⟩ seekCur)
        (emptySlot (2 ^ 63 - 1))) = none ∧
      PosixFile.shown (posixMachine.exec (.lseek ⟨1, by decide, by decide⟩ seekCur)
        ⟨[], 2 ^ 63 - 1, smallVolume⟩) = some (none, [])) := by
  and_intros <;> decide +kernel

end Nanvix.Vfs
