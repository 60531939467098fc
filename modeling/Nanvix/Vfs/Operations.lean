import Mathlib.Data.List.InsertIdx
import Nanvix.Library.Endings
import Nanvix.Vfs.Mounts

/-!
# Path operations of several threads

A path operation takes the lock of the mount table once for each path it
resolves, once to check that the mount may be written, and once to act. In
between it keeps the position of its mount in the table, and other threads may
mount and unmount. It acts on the mount it selected as long as what is mounted or
unmounted meanwhile stands behind that position, which `undisturbed` asks for.

## Implementation notes

Of the FAT library only the refusal to change a read-only image is modelled:
`effects` records the mount it is asked on. `selected` is the mount that stood at
the position when a path was resolved; no step reads it.
-/
namespace Nanvix.Vfs

open Nanvix.Library Nanvix.Library.Prog

inductive PathOp where
  | open (path : List Char) (options : OpenOptions)
  | readDir (path : List Char)
  | mkdir (path : List Char)
  | rmdir (path : List Char)
  | unlink (path : List Char)
  | rename (old new : List Char)

/-- What an operation does when it gets the lock again. -/
inductive Stage where
  | resolveNew (new : List Char)
  | checkWritable
  | act

namespace PathOp

/-- The path that is resolved first. -/
def path : PathOp → List Char
  | .open path _ => path
  | .readDir path => path
  | .mkdir path => path
  | .rmdir path => path
  | .unlink path => path
  | .rename old _ => old

/-- The operation is refused on a read-only mount, by the check and by the FAT library. -/
def mutates : PathOp → Bool
  | .open _ options => options.write || options.create || options.createNew || options.truncate
  | .readDir _ => false
  | _ => true

/-- The root of a mount can be listed; a rename looks at it after both paths are resolved. -/
def refusesRoot : PathOp → Bool
  | .readDir _ => false
  | .rename _ _ => false
  | _ => true

/-- What follows the first resolution. -/
def next : PathOp → Stage
  | .rename _ new => .resolveNew new
  | op => if op.mutates then .checkWritable else .act

end PathOp

/-- An operation between two of its steps. -/
structure Pending where
  op : PathOp
  stage : Stage
  index : Nat
  relative : List Char
  selected : List (Option Mount)

/-- A use of a file system by an operation that resolved its paths to `selected`. -/
structure Effect where
  selected : List (Option Mount)
  mount : Mount
  mutates : Bool

/-- `Vfs::get_mount`. -/
def State.getMount (s : State) (index : Nat) : Option Mount :=
  s.vfs.bind fun table => table.mounts[index]?

structure Threads where
  vfs : State
  pending : List (Nat × Pending)
  effects : List Effect

namespace Threads

/-- Nothing is mounted and no operation is under way. -/
def start : Threads := ⟨State.start, [], []⟩

abbrev Step (α : Type) : Type := Prog Threads Fat32Error α

/-- A step on the state that the threads share. -/
def shared {α : Type} (x : Vfs.Step α) : Step α :=
  focus (fun s => some s.vfs) (fun vfs s => { s with vfs := vfs }) x

/-- `resolve_path`, with the mount at the position it returns. -/
def resolvePath (path : List Char) : Step (Nat × List Char × Option Mount) := shared do
  let (index, relative) ← withVfs fun table => table.resolve path
  return (index, relative, ← gets fun s => s.getMount index)

/-- The mount at a position, which may be gone. -/
def mountAt (index : Nat) : Step Mount := do
  match ← gets fun s => s.vfs.getMount index with
  | some mount => pure mount
  | none => throw .notFound

def store (thread : Nat) (p : Pending) : Step Unit :=
  modify fun s => { s with pending := mapInsert thread p s.pending }

/-- The first step of an operation. -/
def begin (thread : Nat) (op : PathOp) : Step Unit := do
  let (index, relative, mount) ← resolvePath op.path
  if relative = [] ∧ op.refusesRoot then throw .notFound
  else store thread ⟨op, op.next, index, relative, [mount]⟩

/-- Each further step. -/
def proceed (thread : Nat) (p : Pending) : Step Unit :=
  match p.stage with
  | .resolveNew new => do
      let (index, relative, mount) ← resolvePath new
      if p.relative = [] ∨ relative = [] then throw .notFound
      else if p.index ≠ index then throw .invalidPath
      else store thread { p with stage := .checkWritable, selected := mount :: p.selected }
  | .checkWritable => do
      if (← mountAt p.index).readonly then throw .readOnly
      else store thread { p with stage := .act }
  | .act => do
      let mount ← mountAt p.index
      -- The FAT library looks at the image that stands there now.
      if p.op.mutates ∧ mount.readonly then throw .readOnly
      else modify fun s => { s with effects := ⟨p.selected, mount, p.op.mutates⟩ :: s.effects }

end Threads

/-- A thread begins an operation or goes on with the one it has begun; any other command of the
library is one step. -/
inductive ThreadCmd where
  | begin (thread : Nat) (op : PathOp)
  | proceed (thread : Nat)
  | other (c : Command)

def threadMachine : Machine Threads Fat32Error ThreadCmd Unit where
  enabled
    | .begin thread _, s => (s.pending.lookup thread).isNone
    | .proceed thread, s => (s.pending.lookup thread).isSome
    | .other _, _ => true
  exec
    | .begin thread op => Threads.begin thread op
    | .proceed thread => do
        match ← gets fun s => s.pending.lookup thread with
        | none => return ()
        | some p =>
          modify fun s => { s with pending := mapErase thread s.pending }
          Threads.proceed thread p
    | .other c => Threads.shared (mountMachine.exec c)

/-- The position from which on a command moves the mounts of the table, and how many there are
then. A command that is refused moves none. -/
def Command.shift (s : State) (table : Table) : Command → Option (Nat × Nat)
  | .mountImage path _ _ (.ok ()) =>
    if path.head? = some '/' ∧ ¬table.mounts.any fun m => m.path = path then
      some (table.position path, table.mounts.length + 1)
    else none
  | .createMount path size (.ok ()) =>
    if path.head? = some '/' ∧ minFatSize ≤ size ∧ size ≤ maxFatSize ∧
        ¬table.mounts.any fun m => m.path = path then
      some (table.position path, table.mounts.length + 1)
    else none
  | .unmount path =>
    if s.guestMounts.any (fun g => g.path = path) ∧ hasOpenFiles path s.openFileCounts = false then
      some (table.mounts.findIdx fun m => m.path = path, table.mounts.length - 1)
    else none
  | _ => none

/-- Every operation under way stands before the mounts that a command moves, or behind the end. -/
def undisturbed : ThreadCmd → Threads → Bool
  | .other c, s =>
    s.vfs.vfs.all fun table => (c.shift s.vfs table).all fun p =>
      s.pending.all fun x => x.2.index < p.1 || p.2 ≤ x.2.index
  | _, _ => true

/-- The file system is that of the mounts selected, and it may be written if it is. -/
structure Effect.Agrees (e : Effect) : Prop where
  nonempty : e.selected ≠ []
  selected : ∀ m ∈ e.selected, m = some e.mount
  writable : e.mutates = true → e.mount.readonly = false

/-- If a mount stands at the position of the operation, it is what the operation has selected. -/
def Pending.Fits (s : State) (p : Pending) : Prop :=
  ∀ mount, s.getMount p.index = some mount → p.selected ≠ [] ∧ ∀ m ∈ p.selected, m = some mount

section Shifts
variable {s t : State} {v : Option Table} {table table' : Table} {c : Command}

/-- What stands at a position after a command stood there before, or the command moved it. -/
def Command.Shifts (c : Command) (s t : State) : Prop :=
  ∀ i m, t.getMount i = some m → s.getMount i = some m ∨
    ∃ table, s.vfs = some table ∧ ∃ p, c.shift s table = some p ∧ p.1 ≤ i ∧ i < p.2

theorem Command.Shifts.of_eq (c : Command) (h : t.vfs = s.vfs) : c.Shifts s t := by
  intro i m hm
  rw [State.getMount, h] at hm
  exact Or.inl hm

theorem Command.Shifts.of_add {mount : Mount} (hs : s.vfs = some table) (ht : t.vfs = some table')
    (hadd : table.addMount mount = .ok table')
    (hc : (table.mounts.any fun m => m.path = mount.path) = false →
      c.shift s table = some (table.position mount.path, table.mounts.length + 1)) :
    c.Shifts s t := by
  unfold Table.addMount at hadd
  split at hadd
  case isTrue => cases hadd
  case isFalse hnew =>
    cases hadd
    intro i m hm
    simp only [State.getMount, hs, ht, Option.bind_some] at hm ⊢
    have hpos : table.position mount.path ≤ table.mounts.length := List.findIdx_le_length
    rcases Nat.lt_or_ge i (table.position mount.path) with hlt | hge
    · rw [List.getElem?_insertIdx_of_lt hlt] at hm
      exact Or.inl hm
    · have hi := (List.getElem?_eq_some_iff.mp hm).1
      rw [List.length_insertIdx_of_le_length hpos] at hi
      exact Or.inr ⟨table, rfl, _, hc (Bool.eq_false_iff.mpr hnew), hge, hi⟩

theorem Command.Shifts.of_remove {path : List Char} (hs : s.vfs = some table)
    (ht : t.vfs = some table') (hremove : table.removeMount path = .ok table')
    (hc : c.shift s table =
      some (table.mounts.findIdx fun m => m.path = path, table.mounts.length - 1)) :
    c.Shifts s t := by
  unfold Table.removeMount at hremove
  dsimp only at hremove
  split at hremove
  case isFalse => cases hremove
  case isTrue hlt =>
    cases hremove
    intro i m hm
    simp only [State.getMount, hs, ht, Option.bind_some] at hm ⊢
    rcases Nat.lt_or_ge i (table.mounts.findIdx fun m => m.path = path) with hi | hge
    · rw [List.getElem?_eraseIdx_of_lt hi] at hm
      exact Or.inl hm
    · have hi := (List.getElem?_eq_some_iff.mp hm).1
      rw [List.length_eraseIdx_of_lt hlt] at hi
      exact Or.inr ⟨table, rfl, _, hc, hge, hi⟩

/-- The step leaves the mount table alone. -/
abbrev KeepsTable {α : Type} (v : Option Table) (x : Vfs.Step α) : Prop :=
  Keeps (fun s : State => s.vfs = v) x

theorem keepsTable_withVfs {α : Type} (f : Table → Except Fat32Error α) :
    KeepsTable v (withVfs f) := by
  refine KeepsIn.gets fun table => ?_
  cases table with
  | none => exact keeps_throw _
  | some table => exact keeps_ofExcept _

theorem keepsTable_openFile (path : List Char) (options : OpenOptions) (answers : Answers) :
    KeepsTable v (openFile path options answers) := by
  refine .ite (keeps_throw _) (.ite (keeps_throw _) ?_)
  refine (keepsTable_withVfs _).bind fun found => .ite (keeps_throw _) ?_
  refine (keepsTable_withVfs _).bind fun at_ => .ite (keeps_throw _) ?_
  exact (keeps_ofExcept _).bind fun _ => (keeps_modify (by exact fun _ h => h)).ret

theorem keepsTable_fileRawRegion (path : List Char) (answers : Answers) :
    KeepsTable v (fileRawRegion path answers) := by
  refine (keepsTable_withVfs _).attempt.bind fun r => ?_
  cases r with
  | ok memory | error e => exact keeps_pure _

theorem keepsTable_drop (handle : Handle) : KeepsTable v handle.drop := by
  cases handle with
  | fat32 => exact keeps_modify (by exact fun _ h => h)
  | directRead | directory => exact keeps_pure _

theorem keepsTable_stat (path : List Char) (answers : Answers) :
    KeepsTable v (stat path answers) :=
  (keepsTable_withVfs _).bind fun _ => .ite (keeps_pure _) (keeps_ofExcept _)

theorem keepsTable_vfsOpen (path : List Char) (flags : OpenFlags) (answers : Answers) :
    KeepsTable v (vfsOpen path flags answers) := by
  have hdir : KeepsTable v (do return Handle.directory (← normalize path)) :=
    (keepsTable_withVfs _).ret
  refine KeepsIn.bind ?_ fun handle => ?_
  · refine .ite ((keepsTable_stat _ _).bind fun isDir => ?_)
      ((keepsTable_stat _ _).attempt.bind fun r => ?_)
    · exact .ite hdir (keeps_throw _)
    · have hopen : KeepsTable v (openFile path flags.options answers) := keepsTable_openFile _ _ _
      split
      · exact hdir
      · refine .ite ((keepsTable_fileRawRegion _ _).bind fun memory => ?_) hopen
        cases memory with
        | none => exact hopen
        | some memory => exact keeps_pure _
  · refine KeepsIn.gets fun slots => .ite ?_ ((keepsTable_drop handle).bind fun _ => keeps_throw _)
    exact (keeps_modify (by exact fun _ h => h)).ret

theorem keepsTable_slotOf (fd : Int) : KeepsTable v (slotOf fd) := by
  refine .ite (KeepsIn.gets fun slots => ?_) (keeps_throw _)
  split
  · exact keeps_pure _
  · exact keeps_throw _

theorem keepsTable_vfsAccess (write : Bool) (fd : Int) : KeepsTable v (vfsAccess write fd) := by
  refine (keepsTable_slotOf fd).bind fun found => ?_
  obtain ⟨_, handle⟩ := found
  cases handle with
  | fat32 => exact keeps_pure _
  | directRead => exact .ite (keeps_throw _) (keeps_pure _)
  | directory => exact keeps_throw _

/-- A change of the table leaves everything else. -/
theorem ends_withVfsMut {f : Table → Except Fat32Error Table} {Q : Unit → State → Prop}
    {E : Fat32Error → State → Prop} (herr : ∀ e, E e s)
    (hok : ∀ table table', s.vfs = some table → f table = .ok table' →
      Q () { s with vfs := some table' }) :
    ends (withVfsMut f) Q E (fun _ => True) s := by
  simp only [withVfsMut, withVfs, ends_bind, ends_gets]
  cases hs : s.vfs with
  | none => exact (ends_throw _).mpr (herr _)
  | some table =>
    dsimp only
    cases hf : f table with
    | error e => exact (ends_ofExcept_error e).mpr (herr e)
    | ok table' => exact (ends_ofExcept_ok _).mpr ((ends_modify _).mpr (hok table table' hs hf))

/-- The command moves mounts as its shift says, whether it is refused or not. -/
abbrev EndsShifted (c : Command) (x : Vfs.Step Unit) (s : State) : Prop :=
  ends x (fun _ t => c.Shifts s t) (fun _ t => c.Shifts s t) (fun _ => True) s

theorem mountImage_shifts (path : List Char) (image : Nat) (readonly : Bool)
    (accepted : Except Fat32Error Unit) (s : State) :
    EndsShifted (.mountImage path image readonly accepted)
      (mountImage path image readonly accepted) s := by
  simp only [EndsShifted, mountImage, ends_ite, ends_throw, ends_bind]
  split
  · rename_i hpath
    cases accepted with
    | error e => exact (ends_ofExcept_error e).mpr (.of_eq _ rfl)
    | ok =>
      refine (ends_ofExcept_ok _).mpr (ends_withVfsMut (fun _ => .of_eq _ rfl) ?_)
      intro table table' hs hadd
      refine .of_add hs rfl hadd fun hnew => ?_
      simp [Command.shift, hpath, hnew]
  · exact .of_eq _ rfl

theorem createMount_shifts (path : List Char) (size : Nat) (formatted : Except Fat32Error Unit)
    (s : State) :
    EndsShifted (.createMount path size formatted) (createMount path size formatted) s := by
  simp only [EndsShifted, createMount, ends_ite, ends_throw, ends_bind]
  split_ifs with hpath hmin hmax
  · exact .of_eq _ rfl
  · exact .of_eq _ rfl
  · exact .of_eq _ rfl
  refine (keepsTable_withVfs (fun _ => .ok ()) s rfl).weaken (fun _ u hu => ?_) fun _ _ => .of_eq _
  simp only [ends_gets, ends_modify, ends_attempt, ends_bind]
  cases formatted with
  | error e =>
    simp only [ends_ofExcept_error, release, ends_modify]
    exact (ends_throw e).mpr (.of_eq _ hu)
  | ok =>
    refine (ends_ofExcept_ok _).mpr (ends_withVfsMut (fun e => ?_) ?_)
    · simp only [release, ends_modify]
      exact (ends_throw e).mpr (.of_eq _ hu)
    · intro table table' hs hadd
      refine Command.Shifts.of_add (hu.symm.trans hs) rfl hadd fun hnew => ?_
      rw [not_not] at hpath
      simp [Command.shift, hpath, hnew, Nat.le_of_not_lt hmin, Nat.le_of_not_lt hmax]

theorem unmount_shifts (path : List Char) (s : State) :
    EndsShifted (.unmount path) (unmount path) s := by
  simp only [EndsShifted, unmount, ends_gets, ends_ite, ends_throw, ends_bind]
  split_ifs with hguest hopen
  · exact .of_eq _ rfl
  · cases removeIf (fun g => g.path = path) s.guestMounts with
    | none => exact (ends_throw _).mpr (.of_eq _ rfl)
    | some found =>
      simp only [ends_modify, ends_bind, ends_attempt]
      refine (keepsTable_withVfs (fun _ => .ok ()) { s with guestMounts := found.2 } rfl).weaken
        (fun _ u hu => ends_withVfsMut (fun e => ?_) ?_) fun _ _ hu => .of_eq _ hu
      · exact (ends_throw e).mpr (.of_eq _ hu)
      · intro table table' hs hremove
        refine (ends_modify _).mpr (.of_remove (hu.symm.trans hs) rfl hremove ?_)
        exact if_pos ⟨hguest, Bool.eq_false_iff.mpr hopen⟩
  · exact (keepsTable_withVfs _ s rfl).weaken (fun _ _ => .of_eq _) fun _ _ => .of_eq _

/-- What a command does to the mount table. -/
theorem exec_shifts (c : Command) (s : State) : EndsShifted c (mountMachine.exec c) s := by
  have hkept : ∀ {x : Vfs.Step Unit}, KeepsTable s.vfs x → EndsShifted c x s :=
    fun hx => (hx s rfl).weaken (fun _ _ => .of_eq c) fun _ _ => .of_eq c
  cases c with
  | init =>
    simp only [EndsShifted, mountMachine, init, ends_bind, ends_gets, ends_ite, ends_throw,
      ends_modify]
    split
    · exact .of_eq _ rfl
    · intro i m hm
      simp [State.getMount, Table.new] at hm
  | mountImage path image readonly accepted => exact mountImage_shifts _ _ _ _ s
  | createMount path size formatted => exact createMount_shifts path size formatted s
  | unmount path => exact unmount_shifts path s
  | «open» path flags answers => exact hkept (keepsTable_vfsOpen path flags answers).ret
  | read fd => exact hkept (keepsTable_vfsAccess false fd)
  | write fd => exact hkept (keepsTable_vfsAccess true fd)
  | close fd =>
    refine hkept ((keepsTable_slotOf fd).bind fun found => ?_)
    exact (keeps_modify (by exact fun _ h => h)).bind fun _ => keepsTable_drop _
  | openFile path options answers =>
    exact hkept ((keepsTable_openFile path options answers).bind fun _ =>
      keeps_modify (by exact fun _ h => h))
  | rawRegion path answers =>
    refine hkept ((keepsTable_fileRawRegion path answers).bind fun memory => ?_)
    cases memory with
    | none => exact keeps_pure _
    | some memory => exact keeps_modify (by exact fun _ h => h)
  | drop index =>
    refine hkept (KeepsIn.gets fun held => ?_)
    cases held[index]? with
    | none => exact keeps_pure _
    | some handle =>
      exact (keeps_modify (by exact fun _ h => h)).bind fun _ => keepsTable_drop handle

end Shifts

structure Threads.Sound (s : Threads) : Prop where
  pending : ∀ x ∈ s.pending, x.2.Fits s.vfs
  effects : ∀ e ∈ s.effects, e.Agrees

namespace Threads
variable {s : Threads} {thread : Nat} {p : Pending}

/-- The step leaves sound threads, whether it fails or not. -/
abbrev KeepsSound (x : Step Unit) (s : Threads) : Prop :=
  ends x (fun _ t => t.Sound) (fun _ t => t.Sound) (fun _ => True) s

section Steps
variable (h : s.Sound)
include h

theorem keeps_store (thread : Nat) (hp : p.Fits s.vfs) : KeepsSound (store thread p) s := by
  refine (ends_modify _).mpr ⟨fun x hx => ?_, h.effects⟩
  rcases mem_mapInsert hx with rfl | hx
  · exact hp
  · exact h.pending x hx

theorem keeps_resolvePath {path : List Char} {f : Nat × List Char × Option Mount → Step Unit}
    (hf : ∀ index relative, KeepsSound (f (index, relative, s.vfs.getMount index)) s) :
    KeepsSound (resolvePath path >>= f) s := by
  rw [KeepsSound, ends_bind, resolvePath, shared, ends_focus (fun s : Threads => some s.vfs) _ rfl]
  simp only [withVfs, ends_bind, ends_gets]
  cases s.vfs.vfs with
  | none => exact (ends_throw _).mpr h
  | some table =>
    dsimp only
    cases table.resolve path with
    | error e => exact (ends_ofExcept_error e).mpr h
    | ok found => exact (ends_ofExcept_ok _).mpr ((ends_pure _).mpr (hf found.1 found.2))

theorem keeps_mountAt {index : Nat} {f : Mount → Step Unit}
    (hf : ∀ mount, s.vfs.getMount index = some mount → KeepsSound (f mount) s) :
    KeepsSound (mountAt index >>= f) s := by
  simp only [KeepsSound, mountAt, ends_bind, ends_gets]
  cases hmount : s.vfs.getMount index with
  | none => exact (ends_throw _).mpr h
  | some mount => exact (ends_pure _).mpr (hf mount hmount)

theorem begin_sound (op : PathOp) : KeepsSound (begin thread op) s := by
  apply keeps_resolvePath h
  intro index relative
  rw [KeepsSound, ends_ite]
  split
  · exact (ends_throw _).mpr h
  · apply keeps_store h
    intro mount hmount
    exact ⟨List.cons_ne_nil _ _, fun m hm => (List.mem_singleton.mp hm).trans hmount⟩

theorem proceed_sound (hp : p.Fits s.vfs) : KeepsSound (proceed thread p) s := by
  unfold proceed
  cases hstage : p.stage with
  | resolveNew new =>
    apply keeps_resolvePath h
    intro index relative
    simp only [KeepsSound, ends_ite, ends_throw]
    split_ifs with hroot hindex
    · exact h
    · exact h
    · rw [not_not] at hindex
      subst hindex
      apply keeps_store h
      intro mount hmount
      refine ⟨List.cons_ne_nil _ _, fun m hm => ?_⟩
      rcases List.mem_cons.mp hm with rfl | hm
      · exact hmount
      · exact (hp mount hmount).2 m hm
  | checkWritable =>
    apply keeps_mountAt h
    intro mount hmount
    rw [KeepsSound, ends_ite]
    split
    · exact (ends_throw _).mpr h
    · exact keeps_store h thread hp
  | act =>
    apply keeps_mountAt h
    intro mount hmount
    simp only [KeepsSound, ends_ite, ends_throw, ends_modify]
    split
    · exact h
    · rename_i hwritable
      refine ⟨h.pending, fun e he => ?_⟩
      rcases List.mem_cons.mp he with rfl | he
      · exact ⟨(hp mount hmount).1, (hp mount hmount).2,
          fun hmutates => Bool.eq_false_iff.mpr fun hreadonly => hwritable ⟨hmutates, hreadonly⟩⟩
      · exact h.effects e he

theorem exec_sound (c : ThreadCmd) (hc : undisturbed c s = true) :
    KeepsSound (threadMachine.exec c) s := by
  cases c with
  | begin thread op => exact begin_sound h op
  | proceed thread =>
    simp only [KeepsSound, threadMachine, ends_bind, ends_gets]
    cases hp : s.pending.lookup thread with
    | none => exact (ends_pure _).mpr h
    | some p =>
      simp only [ends_bind, ends_modify]
      have herased : Sound { s with pending := mapErase thread s.pending } :=
        ⟨fun x hx => h.pending x (List.mem_of_mem_filter hx), h.effects⟩
      exact proceed_sound herased (h.pending (thread, p) (mem_of_lookup hp))
  | other c =>
    change KeepsSound (shared (mountMachine.exec c)) s
    rw [KeepsSound, shared, ends_focus (fun s : Threads => some s.vfs) _ rfl]
    have hafter : ∀ vfs, c.Shifts s.vfs vfs → Sound { s with vfs := vfs } := by
      intro vfs hshifts
      refine ⟨fun x hx mount hmount => h.pending x hx mount ?_, h.effects⟩
      refine (hshifts _ mount hmount).resolve_right ?_
      rintro ⟨table, htable, p, hp, hge, hlt⟩
      simp only [undisturbed, htable, hp, Option.all_some, List.all_eq_true] at hc
      have hx' := hc x hx
      simp only [Bool.or_eq_true, decide_eq_true_eq] at hx'
      omega
    exact (exec_shifts c s.vfs).weaken (fun _ => hafter) fun _ => hafter

end Steps
end Threads

/-- In every run in which what is mounted or unmounted stands behind the operations under way,
each operation uses the file system whose mount it selected, and does not change a read-only one. -/
theorem operation_uses_selected (s : Threads)
    (hreach : threadMachine.Reach (fun c s => undisturbed c s = true) Threads.start s) :
    ∀ e ∈ s.effects, e.Agrees := by
  have hsound : s.Sound := by
    apply hreach.invariant_of_ends (I := Threads.Sound)
    · constructor
      · exact List.forall_mem_nil _
      · exact List.forall_mem_nil _
    · exact fun c s h _ hc => Threads.exec_sound h c hc
  exact hsound.effects

/-- A directory is made on `/v` while a volume with a shorter path is mounted. -/
theorem operation_uses_selected_of_mkdir : ∃ s,
    threadMachine.Reach (fun c s => undisturbed c s = true) Threads.start s ∧
      s.effects.length = 1 ∧ ∀ e ∈ s.effects, e.Agrees := by
  obtain ⟨s, hreach, hlength⟩ := threadMachine.exists_reach_restrict undisturbed Threads.start
    [.other .init, .other (.mountImage "/v".toList 0 false (.ok ())),
      .begin 1 (.mkdir "/v/d".toList), .proceed 1,
      .other (.mountImage "/".toList 1 true (.ok ())), .proceed 1]
    (·.effects.length = 1) (by decide +kernel)
  exact ⟨s, hreach, hlength, operation_uses_selected s hreach⟩

/-- A volume with a longer path is mounted after the check: the directory is made on it. -/
theorem operation_uses_other_mount : ∃ s,
    threadMachine.Reach (fun _ _ => True) Threads.start s ∧
      ∃ e ∈ s.effects, e.mutates = true ∧ some e.mount ∉ e.selected :=
  threadMachine.exists_reach Threads.start
    [.other .init, .other (.mountImage "/v".toList 0 false (.ok ())),
      .begin 1 (.mkdir "/v/d".toList), .proceed 1,
      .other (.mountImage "/vv".toList 1 false (.ok ())), .proceed 1] _ (by decide +kernel)

end Nanvix.Vfs
