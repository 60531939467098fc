import Mathlib.Data.List.Nodup
import Nanvix.HostFs.Daemon
import Nanvix.HostFs.HostSafe

/-!
# hostfsd stays below its root

`Confined` is what every request keeps: the host is safe for the root and the
descriptors open now, and each descriptor was opened by a path below the root.
The paths the sandbox resolves have a plain way to their last name, so a call that
does not follow that name acts where the sandbox looked. A call that follows it
acts there only if the name is no symbolic link, and a call by descriptor only if
no link stands on the descriptor's path by now; `admissible` asks for that.

Without it a guest leaves the root in three ways: it creates a file through a link
to a free name outside, it opens a file outside through a link and a trailing
slash, and it lists a directory outside by a descriptor whose path it has replaced
by a link.
-/
namespace Nanvix.HostFs

open Nanvix.Library (Prog Component Placed Walk Machine)
open Nanvix.Library.Prog
open Nanvix.Library.PathWalk Sys HostFsHandler

variable {root p : Path} {d : HostFsHandler} {path : List Char}

variable {h : Host} {s : Sandbox}

section Resolution

theorem plain_of_canonicalize {cs : List (Component Name)}
    (hp : canonicalize h cs = some p) : Plain h.look p := by
  unfold canonicalize at hp
  split at hp
  · rename_i q hw
    rw [← Option.some.inj hp]
    exact plain_of_walk Plain.nil hw
  · cases hp
  · cases hp

/-- A path below the root that is reached by a plain way, its last name apart. -/
def Settled (root : Path) (h : Host) (p : Path) : Prop :=
  root <+: p ∧ Plain h.look p.dropLast

/-- A resolved path is below the root, with no link above its end. -/
theorem settled_of_resolve (hp : s.resolve h path = some p) : Settled s.root h p := by
  obtain ⟨q, hq, hroot⟩ := Option.bind_eq_some_iff.mp hp
  split at hroot
  · rename_i hbelow
    cases hroot
    refine ⟨hbelow, ?_⟩
    rcases Option.or_eq_some_iff.mp hq with hcanon | ⟨_, hq⟩
    · exact (plain_of_canonicalize hcanon).ancestor (List.dropLast_prefix p)
    · obtain ⟨parent, hparent, hrest⟩ := Option.bind_eq_some_iff.mp hq
      obtain ⟨name, _, hjoin⟩ := Option.bind_eq_some_iff.mp hrest
      cases hjoin
      rw [List.dropLast_concat]
      exact plain_of_canonicalize hparent
  · cases hroot

/-- So is a path whose last link is not followed. -/
theorem settled_of_resolveNofollow (hroot : Plain h.look s.root.dropLast)
    (hp : s.resolveNofollow h path = some p) : Settled s.root h p := by
  unfold Sandbox.resolveNofollow at hp
  split at hp
  · cases hp
    exact ⟨List.prefix_rfl, hroot⟩
  · obtain ⟨name, _, hrest⟩ := Option.bind_eq_some_iff.mp hp
    obtain ⟨parent, hparent, hjoin⟩ := Option.bind_eq_some_iff.mp hrest
    split at hjoin
    · rename_i hbelow
      cases hjoin
      constructor
      · exact hbelow.trans (List.prefix_append parent [name])
      · rw [List.dropLast_concat]
        exact plain_of_canonicalize hparent
    · cases hjoin

theorem Settled.landsLink (hp : Settled root h p) : h.LandsLink p :=
  Host.landsLink_of_plain hp.2

theorem Settled.lands (hp : Settled root h p) (hlink : isLink h.look p = false) : h.Lands p :=
  Host.lands_of_unlinked (unlinked_of_plain hp.2 hlink)

end Resolution

/-- Some descriptor holds the object open. -/
def HostFsHandler.opened (d : HostFsHandler) (object : Nat) : Prop :=
  ∃ x ∈ d.fdTable.entries, x.2.file.object = object

/-- What is true of a daemon whose sandbox is at `root`. -/
structure Confined (root : Path) (d : HostFsHandler) : Prop where
  sandbox : d.sandbox.root = root
  safe : d.host.Safe root d.opened
  paths : ∀ x ∈ d.fdTable.entries, root <+: x.2.path

/-- The request leaves a confined daemon, whether it is served or refused. -/
def KeepsConfined {α : Type} (root : Path) (x : Handle α) (d : HostFsHandler) :
    Prop :=
  ends x (fun _ d' => Confined root d') (fun _ d' => Confined root d') (fun _ => True) d

variable {fd : Int} {e : FdEntry}

namespace Confined

variable (hc : Confined root d)
include hc

theorem withHost (hs : h.Safe root d.opened) : Confined root { d with host := h } :=
  ⟨hc.sandbox, hs, hc.paths⟩

/-- A descriptor table whose members may all be held keeps the daemon confined. -/
theorem withTable {t : FdTable}
    (ht : ∀ x ∈ t.entries, d.host.Held root x.2.file.object ∧ root <+: x.2.path) :
    Confined root { d with fdTable := t } where
  sandbox := hc.sandbox
  safe :=
    { hc.safe with
      held := by
        rintro object ⟨x, hx, rfl⟩
        exact (ht x hx).1 }
  paths := fun x hx => (ht x hx).2

theorem entry {x : Int × FdEntry} (hx : x ∈ d.fdTable.entries) :
    d.host.Held root x.2.file.object ∧ root <+: x.2.path :=
  ⟨hc.safe.held _ ⟨x, hx, rfl⟩, hc.paths x hx⟩

/-- An entry may be replaced by one with the same object and path. -/
theorem put (he : d.host.Held root e.file.object ∧ root <+: e.path) :
    Confined root { d with fdTable := d.fdTable.put fd e } := by
  apply hc.withTable
  exact List.forall_mem_cons.mpr ⟨he, fun _ hx => hc.entry (List.mem_of_mem_filter hx)⟩

theorem invalidate : Confined root { d with fdTable := d.fdTable.invalidateDirCaches } := by
  apply hc.withTable
  intro x hx
  obtain ⟨y, hy, rfl⟩ := List.mem_map.mp hx
  have hentry := hc.entry hy
  exact hentry

theorem close (fd : Int) : Confined root { d with fdTable := d.fdTable.close fd } := by
  apply hc.withTable
  intro x hx
  exact hc.entry (List.mem_of_mem_filter hx)

theorem alloc {file : File} {directory : Bool} {t : FdTable}
    (hfile : d.host.Held root file.object) (hp : root <+: p)
    (ht : d.fdTable.alloc file directory p = some (fd, t)) :
    Confined root { d with fdTable := t } := by
  unfold FdTable.alloc at ht
  split at ht
  · cases ht
  · obtain ⟨fd', _, heq⟩ := Option.map_eq_some_iff.mp ht
    cases heq
    apply hc.withTable
    exact List.forall_mem_cons.mpr ⟨⟨hfile, hp⟩, fun _ hx => hc.entry (List.mem_of_mem_filter hx)⟩

end Confined

namespace HostFsHandler

section Rules
variable {α β : Type} {A : String → Prop} {E : HostFsError → HostFsHandler → Prop}

variable {report : IoError → HostFsError} {x : Prog Host IoError α} {Q : α → HostFsHandler → Prop}

@[simp] theorem ends_callReporting :
    ends (callReporting report x) Q E A d ↔
      ends x (fun a h => Q a { d with host := h }) (fun e h => E (report e) { d with host := h }) A
        d.host := by
  unfold ends callReporting
  cases x d.host <;> rfl

@[simp] theorem ends_call :
    ends (call x) Q E A d ↔
      ends x (fun a h => Q a { d with host := h })
        (fun e h => E (ioErrorToCode e) { d with host := h }) A d.host := ends_callReporting

/-- A handler that resolves a path goes on with it or refuses. -/
theorem ends_hostPath {mode : Sandbox → Host → List Char → Option Path} {f : Path → Handle β}
    {Q : β → HostFsHandler → Prop} (hE : E .permission d)
    (hf : ∀ p, mode d.sandbox d.host path = some p → ends (f p) Q E A d) :
    ends (hostPath mode path >>= f) Q E A d := by
  simp only [hostPath, ends_bind, ends_gets]
  cases hmode : mode d.sandbox d.host path with
  | none => exact (ends_throw _).mpr hE
  | some p => exact (ends_pure _).mpr (hf p hmode)

/-- A handler that needs a descriptor goes on with its entry or refuses. -/
theorem ends_entryOf {missing : HostFsError} {f : FdEntry → Handle β}
    {Q : β → HostFsHandler → Prop} (hE : E missing d)
    (hf : ∀ e, d.fdTable.get fd = some e → ends (f e) Q E A d) :
    ends (entryOf fd missing >>= f) Q E A d := by
  simp only [entryOf, ends_bind, ends_gets]
  cases hget : d.fdTable.get fd with
  | none => exact (ends_throw _).mpr hE
  | some e => exact (ends_pure _).mpr (hf e hget)

/-- A system call that keeps the host safe keeps the daemon confined. -/
theorem confined_call {f : α → Handle β} (hc : Confined root d)
    (hx : KeepsSafe root d.opened x d.host)
    (hf : ∀ a h, h.Safe root d.opened → KeepsConfined root (f a) { d with host := h }) :
    KeepsConfined root (callReporting report x >>= f) d := by
  simp only [KeepsConfined, ends_bind, ends_callReporting]
  exact ends.weaken hx (fun a h hs => hf a h hs) fun e h hs => hc.withHost hs

end Rules

/-- The end of a handler that changed the tree. -/
theorem invalidate_keeps (hc : Confined root d) :
    KeepsConfined root (do invalidateDirCaches; pure Reply.done) d := by
  simp only [KeepsConfined, invalidateDirCaches, ends_bind, ends_modify, ends_pure]
  exact hc.invalidate

section Handlers
variable (hc : Confined root d)
include hc

section Paths
variable {α : Type} {f : Path → Handle α}

/-- A handler that resolves a path goes on with a settled one. -/
theorem resolve_keeps (hf : ∀ p, d.sandbox.resolve d.host path = some p → Settled root d.host p →
    KeepsConfined root (f p) d) : KeepsConfined root (hostPath Sandbox.resolve path >>= f) d :=
  ends_hostPath hc fun p hp => hf p hp (hc.sandbox ▸ settled_of_resolve hp)

theorem resolveNofollow_keeps (hf : ∀ p, Settled root d.host p → KeepsConfined root (f p) d) :
    KeepsConfined root (hostPath Sandbox.resolveNofollow path >>= f) d := by
  refine ends_hostPath hc fun p hp => hf p ?_
  have hplain := hc.safe.ancestors
  rw [← hc.sandbox] at hplain ⊢
  exact settled_of_resolveNofollow hplain hp

end Paths

theorem metadata_keeps (hp : root <+: p) (hl : d.host.Lands p) :
    ends (Prog.attempt (call (metadata p)))
      (fun _ d' => Confined root d' ∧ d'.host.Lands p) (fun _ _ => False) (fun _ => True) d := by
  rw [ends_attempt, ends_call]
  refine (metadata_safe hc.safe hp hl).stays (fun _ => ⟨hc, hl⟩) ?_
  rintro _ h ⟨rfl, hs⟩
  exact ⟨hc.withHost hs, hl⟩

theorem isDir_keeps (hp : root <+: p) (hl : d.host.Lands p) :
    ends (isDir p) (fun _ d' => Confined root d' ∧ d'.host.Lands p) (fun _ _ => False)
      (fun _ => True) d := by
  simp only [isDir, ends_bind]
  apply (metadata_keeps hc hp hl).imp
  intro r d' hd'
  cases r with
  | ok m | error e => exact (ends_pure _).mpr hd'

theorem pathExists_keeps (hp : root <+: p) (hl : d.host.Lands p) :
    ends (pathExists p) (fun _ d' => Confined root d') (fun _ _ => False) (fun _ => True) d := by
  simp only [pathExists, ends_bind]
  apply (metadata_keeps hc hp hl).imp
  intro r d' hd'
  cases r with
  | ok m | error e => exact (ends_pure _).mpr hd'.1

theorem opensDirectory_keeps (flags : Nat) (hp : root <+: p) (hl : d.host.Lands p) :
    ends (opensDirectory p flags) (fun _ d' => Confined root d' ∧ d'.host.Lands p)
      (fun _ d' => Confined root d') (fun _ => True) d := by
  simp only [opensDirectory, ends_bind]
  apply (isDir_keeps hc hp hl).total
  intro directory d' hd'
  simp only [ends_ite, ends_bind, ends_pure, ends_throw]
  split_ifs
  · exact hd'
  · apply (pathExists_keeps hd'.1 hp hd'.2).total
    intro found d'' hd''
    split_ifs
    · exact hd''
    · exact hd''
  · exact hd'.1
  · exact hd'

/-- An open keeps confinement unless it resolves to a link. -/
theorem handleOpen_keeps (flags : Nat)
    (hlink : ∀ p, d.sandbox.resolve d.host path = some p → isLink d.host.look p = false) :
    KeepsConfined root (handleOpen path flags) d := by
  apply resolve_keeps hc
  intro p hp hset
  rw [KeepsConfined, ends_bind]
  apply (opensDirectory_keeps hc flags hset.1 (hset.lands (hlink p hp))).imp
  intro directory d' hd'
  obtain ⟨hc', hl'⟩ := hd'
  have hfile : ends (if directory then openDirHandle p else openFile (openOptions flags) p)
      (fun f h => h.Safe root d'.opened ∧ h.Held root f.object)
      (fun _ h => h.Safe root d'.opened) (fun _ => True) d'.host := by
    split
    · exact openFile_safe hc'.safe hset.1 _ hl'
    · exact openFile_safe hc'.safe hset.1 _ hl'
  rw [ends_bind, ends_call]
  refine hfile.weaken ?_ fun _ _ hs => hc'.withHost hs
  intro file h hopened
  have hc'' := hc'.withHost hopened.1
  rw [ends_bind, ends_gets]
  split
  · rename_i fd t halloc
    simp only [ends_bind, ends_modify, ends_pure]
    exact hc''.alloc hopened.2 hset.1 halloc
  · exact (ends_throw _).mpr hc''

theorem handleClose_keeps (fd : Int) : KeepsConfined root (handleClose fd) d := by
  apply ends_entryOf hc
  intro e _
  simp only [ends_bind, ends_modify, ends_pure]
  exact hc.close fd

theorem opened_of_get (he : d.fdTable.get fd = some e) :
    d.opened e.file.object ∧ d.host.Held root e.file.object ∧ root <+: e.path :=
  ⟨⟨(fd, e), Library.mem_of_lookup he, rfl⟩, hc.entry (Library.mem_of_lookup he)⟩

/-- Moving the position of an open file keeps the daemon confined. -/
theorem advance_keeps (he : d.fdTable.get fd = some e) (offset : Int)
    (position : Nat) (reply : Reply) :
    KeepsConfined root (do advance fd e offset position; pure reply) d := by
  simp only [KeepsConfined, advance, ends_bind, ends_ite, ends_pure, putEntry, ends_modify]
  split
  · exact hc
  · exact hc.put (opened_of_get hc he).2

theorem handleRead_keeps (fd offset : Int) (count : Nat) :
    KeepsConfined root (handleRead fd offset count) d := by
  apply ends_entryOf hc
  intro e he
  have hopen := opened_of_get hc he
  split
  · exact (ends_throw _).mpr hc
  · apply confined_call hc (readFile_safe hc.safe hopen.1 _ _)
    intro bytes h hs
    exact advance_keeps (hc.withHost hs) he _ _ _

theorem handleWrite_keeps (fd offset : Int) (data : Bytes) :
    KeepsConfined root (handleWrite fd offset data) d := by
  apply ends_entryOf hc
  intro e he
  have hopen := opened_of_get hc he
  split
  · exact (ends_throw _).mpr hc
  · apply confined_call hc (writeFile_safe hc.safe hopen.1 _ _)
    intro position h hs
    exact advance_keeps (hc.withHost hs) he _ _ _

theorem handleStat_keeps (fd : Int)
    (hplain : ∀ e, d.fdTable.get fd = some e → Unlinked d.host.look e.path) :
    KeepsConfined root (handleStat fd) d := by
  apply ends_entryOf hc
  intro e he
  have hbelow := (opened_of_get hc he).2.2
  simp only [ends_bind, ends_call, ends_pure]
  exact (metadata_safe hc.safe hbelow (Host.lands_of_unlinked (hplain e he))).stays (fun _ => hc)
    fun _ _ hm => hc.withHost hm.2

theorem buildDirCache_keeps {path : Path} (hp : root <+: path) (hl : d.host.Lands path) :
    ends (buildDirCache path) (fun _ d' => Confined root d' ∧ d'.fdTable = d.fdTable)
      (fun _ _ => False) (fun _ => True) d := by
  simp only [buildDirCache, ends_bind, ends_attempt, ends_call]
  apply (readDir_safe hc.safe hp hl).weaken
  · exact fun _ _ hs => (ends_pure _).mpr ⟨hc.withHost hs, rfl⟩
  · exact fun _ _ hs => (ends_pure _).mpr ⟨hc.withHost hs, rfl⟩

theorem dirCache_keeps (he : d.fdTable.get fd = some e) (hplain : Unlinked d.host.look e.path) :
    ends (dirCache fd e) (fun _ d' => Confined root d') (fun _ _ => False) (fun _ => True) d := by
  have hbelow := (opened_of_get hc he).2.2
  unfold dirCache
  cases e.dirCache with
  | some listing => exact (ends_pure _).mpr hc
  | none =>
    simp only [ends_bind, putEntry, ends_modify, ends_pure]
    apply (buildDirCache_keeps hc hbelow (Host.lands_of_unlinked hplain)).imp
    intro listing d' hd'
    obtain ⟨hc', htable⟩ := hd'
    rw [← htable] at he
    exact hc'.put (opened_of_get hc' he).2

theorem handleReaddir_keeps (fd : Int) (offset : Nat)
    (hplain : ∀ e, d.fdTable.get fd = some e → Unlinked d.host.look e.path) :
    KeepsConfined root (handleReaddir fd offset) d := by
  simp only [KeepsConfined, handleReaddir, ends_bind, ends_gets]
  cases he : d.fdTable.get fd with
  | none => exact (ends_pure _).mpr hc
  | some e =>
    simp only [ends_bind]
    apply (dirCache_keeps hc he (hplain e he)).total
    intro listing d' hd'
    cases listing[offset]? with
    | some x | none => exact (ends_pure _).mpr hd'

theorem handleMkdir_keeps (mode : Option Nat) : KeepsConfined root (handleMkdir path mode) d := by
  apply resolve_keeps hc
  intro p _ hset
  simp only [KeepsConfined, ends_bind, ends_call]
  refine (createDir_safe hc.safe hset.1 hset.2).weaken ?_ fun _ _ hs => hc.withHost hs
  intro _ h hmade
  have hc' := hc.withHost hmade.1
  cases mode with
  | none => exact invalidate_keeps hc'
  | some m =>
    simp only [Option.isSome_some, if_true, ends_bind, ends_attempt, ends_call, ends_pure,
      invalidateDirCaches, ends_modify]
    apply ends.weaken (setPermissions_safe hc'.safe hset.1 hmade.2)
    · exact fun _ _ hs => (hc'.withHost hs).invalidate
    · exact fun _ _ hs => (hc'.withHost hs).invalidate

theorem handleRmdir_keeps : KeepsConfined root (handleRmdir path) d := by
  apply resolve_keeps hc
  intro p _ hset
  apply confined_call hc (removeDir_safe hc.safe hset.1 hset.landsLink)
  exact fun _ _ hs => invalidate_keeps (hc.withHost hs)

theorem handleUnlink_keeps : KeepsConfined root (handleUnlink path) d := by
  apply resolveNofollow_keeps hc
  intro p hset
  apply confined_call hc (removeFile_safe hc.safe hset.1 hset.landsLink)
  exact fun _ _ hs => invalidate_keeps (hc.withHost hs)

theorem handleRename_keeps (old new : List Char) : KeepsConfined root (handleRename old new) d := by
  apply resolve_keeps hc
  intro p _ hold
  apply resolve_keeps hc
  intro q _ hnew
  apply confined_call hc
    (rename_safe hc.safe hold.1 hnew.1 hold.landsLink hnew.landsLink)
  exact fun _ _ hs => invalidate_keeps (hc.withHost hs)

theorem handleSymlink_keeps (target : List Char) :
    KeepsConfined root (handleSymlink target path) d := by
  unfold KeepsConfined handleSymlink
  split
  · exact (ends_throw _).mpr hc
  · apply resolveNofollow_keeps hc
    intro p hset
    apply confined_call hc (createSymlink_safe hc.safe hset.1 target hset.landsLink)
    exact fun _ _ hs => invalidate_keeps (hc.withHost hs)

theorem symlinkMetadata_keeps {α : Type} {f : Metadata → Handle α} (hset : Settled root d.host p)
    (hf : ∀ m, KeepsConfined root (f m) { d with host := d.host.touch p }) :
    KeepsConfined root (call (symlinkMetadata p) >>= f) d := by
  simp only [KeepsConfined, ends_bind, ends_call]
  refine (symlinkMetadata_safe hc.safe hset.1 hset.landsLink).stays (fun _ => hc) ?_
  rintro m h ⟨rfl, -⟩
  exact hf m

theorem doReadlink_keeps : KeepsConfined root (doReadlink path) d := by
  apply resolveNofollow_keeps hc
  intro p hset
  have hc' := hc.withHost (hc.safe.touch hset.1)
  apply symlinkMetadata_keeps hc hset
  intro m
  cases m.kind with
  | directory | file => exact (ends_throw _).mpr hc'
  | link text =>
    apply confined_call hc' (readLink_safe hc'.safe hset.1 hset.landsLink)
    intro target h hs
    simp only [KeepsConfined, ends_ite, ends_throw, ends_pure, ite_self]
    exact hc'.withHost hs

theorem doLstat_keeps : KeepsConfined root (doLstat path) d := by
  apply resolveNofollow_keeps hc
  intro p hset
  apply symlinkMetadata_keeps hc hset
  intro m
  exact (ends_pure _).mpr (hc.withHost (hc.safe.touch hset.1))

theorem doPathstat_keeps
    (hlink : ∀ p, d.sandbox.resolve d.host path = some p → isLink d.host.look p = false) :
    KeepsConfined root (doPathstat path) d := by
  apply resolve_keeps hc
  intro p hp hset
  simp only [KeepsConfined, ends_bind, ends_call, ends_pure]
  exact (metadata_safe hc.safe hset.1 (hset.lands (hlink p hp))).stays (fun _ => hc)
    fun _ _ hm => hc.withHost hm.2

theorem handleLseek_keeps (fd offset : Int) (whence : Whence) :
    KeepsConfined root (handleLseek fd offset whence) d := by
  apply ends_entryOf hc
  intro e he
  have hopen := opened_of_get hc he
  have hmove : ∀ h, h.Safe root d.opened → ∀ position : Int, KeepsConfined root
      (if position < 0 then Prog.throw .io
        else do
          putEntry fd { e with file := { e.file with position := position.toNat } }
          pure (Reply.offset position.toNat)) { d with host := h } := by
    intro h hs position
    simp only [KeepsConfined, ends_ite, ends_throw, ends_bind, putEntry, ends_modify, ends_pure]
    split
    · exact hc.withHost hs
    · exact (hc.withHost hs).put (opened_of_get (hc.withHost hs) he).2
  cases whence with
  | set =>
    simp only [seekTarget]
    rw [ends_bind, ends_ite]
    split
    · exact (ends_throw _).mpr hc
    · exact (ends_pure _).mpr (hmove _ hc.safe _)
  | cur => exact (ends_bind).mpr ((ends_pure _).mpr (hmove _ hc.safe _))
  | last =>
    simp only [seekTarget, ends_bind, ends_call, ends_pure]
    apply ends.weaken (fileLength_safe hc.safe hopen.1)
    · exact fun length h hs => hmove h hs _
    · exact fun _ _ hs => hc.withHost hs
  | unknown => exact (ends_bind).mpr ((ends_throw _).mpr hc)

theorem handleTruncate_keeps (fd length : Int) :
    KeepsConfined root (handleTruncate fd length) d := by
  unfold KeepsConfined handleTruncate
  split
  · exact (ends_throw _).mpr hc
  · apply ends_entryOf hc
    intro e he
    have hopen := opened_of_get hc he
    split
    · exact (ends_throw _).mpr hc
    · apply confined_call hc (setLen_safe hc.safe hopen.1 _)
      exact fun _ _ hs => (ends_pure _).mpr (hc.withHost hs)

theorem handleFlush_keeps (fd : Int) : KeepsConfined root (handleFlush fd) d := by
  apply ends_entryOf hc
  exact fun _ _ => (ends_pure _).mpr hc

end Handlers
end HostFsHandler

/-- A call that follows the last name of its path meets no link there, and a call by
descriptor meets no link on the descriptor's path. -/
def admissible : Request → HostFsHandler → Bool
  | .open path _, d => (d.sandbox.resolve d.host path).all fun p => !isLink d.host.look p
  | .pathstat path, d => (d.sandbox.resolve d.host path).all fun p => !isLink d.host.look p
  | .stat fd, d => (d.fdTable.get fd).all fun e => e.path.inits.all fun q => !isLink d.host.look q
  | .readdir fd _, d =>
    (d.fdTable.get fd).all fun e => e.path.inits.all fun q => !isLink d.host.look q
  | _, _ => true

theorem unlinked_of_inits {q : Path}
    (hq : (q.inits.all fun r => !isLink h.look r) = true) : Unlinked h.look q := by
  intro r hr
  have hr := List.all_eq_true.mp hq r ((List.mem_inits r q).mpr hr)
  exact Bool.not_eq_true' _ ▸ hr

/-- Every admissible request keeps the daemon confined. -/
theorem handleRequest_keeps {c : Request} (hc : Confined root d)
    (hadm : admissible c d = true) : KeepsConfined root (handleRequest c) d := by
  have hpath : ∀ path, ((d.sandbox.resolve d.host path).all fun p => !isLink d.host.look p) = true →
      ∀ p, d.sandbox.resolve d.host path = some p → isLink d.host.look p = false := by
    intro path hall p hp
    rw [hp] at hall
    exact Bool.not_eq_true' _ ▸ hall
  have hfd : ∀ fd, ((d.fdTable.get fd).all fun e =>
      e.path.inits.all fun q => !isLink d.host.look q) = true →
      ∀ e, d.fdTable.get fd = some e → Unlinked d.host.look e.path := by
    intro fd hall e he
    rw [he] at hall
    exact unlinked_of_inits hall
  cases c with
  | «open» path flags => exact handleOpen_keeps hc flags (hpath path hadm)
  | close fd => exact handleClose_keeps hc fd
  | read fd offset count => exact handleRead_keeps hc fd offset count
  | write fd offset data => exact handleWrite_keeps hc fd offset data
  | stat fd => exact handleStat_keeps hc fd (hfd fd hadm)
  | readdir fd offset => exact handleReaddir_keeps hc fd offset (hfd fd hadm)
  | mkdir path mode => exact handleMkdir_keeps hc mode
  | rmdir path => exact handleRmdir_keeps hc
  | unlink path => exact handleUnlink_keeps hc
  | rename old new => exact handleRename_keeps hc old new
  | symlink target linkpath => exact handleSymlink_keeps hc target
  | readlink path => exact doReadlink_keeps hc
  | lstat path => exact doLstat_keeps hc
  | pathstat path => exact doPathstat_keeps hc (hpath path hadm)
  | lseek fd offset whence => exact handleLseek_keeps hc fd offset whence
  | truncate fd length => exact handleTruncate_keeps hc fd length
  | flush fd => exact handleFlush_keeps hc fd

/-- A host tree in which each object has one name, before the daemon has done anything. -/
structure Host.Fresh (h : Host) : Prop where
  nextId_pos : 0 < h.nextId
  ids : ∀ e ∈ h.entries, 0 < e.2.id ∧ e.2.id < h.nextId
  nodup : (h.entries.map fun e => e.2.id).Nodup
  accesses : h.accesses = []

/-- A daemon that has just started is confined. -/
theorem confined_boot {text : List (Component Name)} (hh : h.Fresh)
    (hs : Sandbox.new h text = some s) : Confined s.root ⟨h, s, FdTable.new⟩ where
  sandbox := rfl
  safe :=
    { ancestors := by
        obtain ⟨q, hq, hdir⟩ := Option.bind_eq_some_iff.mp hs
        split at hdir
        · cases hdir
          exact (plain_of_canonicalize hq).ancestor (List.dropLast_prefix _)
        · cases hdir
      positive := ⟨hh.nextId_pos, fun e he => (hh.ids e he).1⟩
      bounded := fun e he => (hh.ids e he).2
      apart := by
        intro e he hroot e' he' hid
        rw [List.inj_on_of_nodup_map hh.nodup he' he hid]
        exact hroot
      held := fun _ ho => nomatch ho.choose_spec.1
      accesses := by
        rw [hh.accesses]
        exact fun _ hp => nomatch hp }
  paths := fun _ hx => nomatch hx

/-- In every run of admissible requests, whatever the daemon does to the host it does at or
below its root. -/
theorem accesses_below_root {h : Host} (text : List (Component Name)) {s : Sandbox}
    (hh : h.Fresh) (hs : Sandbox.new h text = some s)
    (hreach : hostFsMachine.Reach (fun c d => admissible c d = true) ⟨h, s, FdTable.new⟩ d) :
    ∀ p ∈ d.host.accesses, s.root <+: p := by
  have hc : Confined s.root d := by
    apply hreach.invariant_of_ends (confined_boot hh hs)
    intro c d' hc _ hadm
    exact handleRequest_keeps hc hadm
  exact hc.safe.accesses

section Escapes

/-- A host with a directory to serve, and a file and a directory next to it. -/
def sampleHost : Host where
  entries := [([['r']], ⟨1, .directory⟩), ([['o']], ⟨2, .file⟩), ([['e']], ⟨3, .directory⟩)]
  contents _ := []
  nextId := 4
  accesses := []

def sampleDaemon : HostFsHandler := ⟨sampleHost, ⟨[['r']]⟩, FdTable.new⟩

theorem sampleHost_fresh : sampleHost.Fresh := by
  constructor
  · decide
  · decide
  · decide
  · rfl

/-- Some access lies outside the directory served. -/
def escaped (d : HostFsHandler) : Bool := d.host.accesses.any fun p => ¬ [['r']] <+: p

theorem escape_of_run {cs : List Request}
    (h : (hostFsMachine.run cs sampleDaemon).any escaped = true) :
    ∃ d, hostFsMachine.run cs sampleDaemon = some d ∧ ∃ p ∈ d.host.accesses, ¬ [['r']] <+: p := by
  obtain ⟨d, hd, hescaped⟩ := (Option.any_eq_true _ _).mp h
  obtain ⟨p, hp, hnot⟩ := List.any_eq_true.mp hescaped
  exact ⟨d, hd, p, hp, of_decide_eq_true hnot⟩

/-- A file is made and read, and the daemon stays in its directory. -/
theorem accesses_below_root_of_create : ∃ d,
    hostFsMachine.Reach (fun c d => admissible c d = true) sampleDaemon d ∧
      d.host.accesses.length = 2 ∧ ∀ p ∈ d.host.accesses, [['r']] <+: p := by
  obtain ⟨d, hreach, hlength⟩ := hostFsMachine.exists_reach_restrict admissible
    sampleDaemon [.open ['f'] 0x0202, .read 1 0 8] (·.host.accesses.length = 2) (by decide +kernel)
  exact ⟨d, hreach, hlength,
    accesses_below_root [.normal ['r']] sampleHost_fresh (by rfl) hreach⟩

/-- The three ways out: a link to a free name and `O_CREAT`; a link to a file and a trailing
slash; a directory opened, renamed away, replaced by a link and listed. -/
theorem sandbox_escapes :
    (∃ d, hostFsMachine.run [.symlink ['/', 'x'] ['l'], .open ['l'] 0x0201] sampleDaemon = some d ∧
      ∃ p ∈ d.host.accesses, ¬ [['r']] <+: p) ∧
    (∃ d, hostFsMachine.run [.symlink ['/', 'o'] ['l'], .open ['l', '/'] 0] sampleDaemon = some d ∧
      ∃ p ∈ d.host.accesses, ¬ [['r']] <+: p) ∧
    (∃ d, hostFsMachine.run [.mkdir ['d'] none, .open ['d'] 0x200000, .rename ['d'] ['k'],
        .symlink ['/', 'e'] ['d'], .readdir 1 0] sampleDaemon = some d ∧
      ∃ p ∈ d.host.accesses, ¬ [['r']] <+: p) := by
  refine ⟨?_, ?_, ?_⟩
  · exact escape_of_run (by decide +kernel)
  · exact escape_of_run (by decide +kernel)
  · exact escape_of_run (by decide +kernel)

end Escapes

end Nanvix.HostFs
