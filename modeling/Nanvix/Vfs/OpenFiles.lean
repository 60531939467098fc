import Mathlib.Data.List.Nodup
import Nanvix.Library.Slots
import Nanvix.Vfs.Mounts

/-!
# Open files and their counters

Every handle leads to the memory of a mount or to none. A file is counted for the
path of its mount from its open to its drop, a direct reader and a directory are
not. The invariant of the tables ties the counters to the files that are around,
a file's borrow to its own mount, and the tracked volumes to the mount table.
Opening, storing, closing and dropping handles keep it.

## Implementation notes

The invariant is stated for a list of handles that need not be the stored ones:
an open produces a handle before it is stored, and a close takes it out before it
is dropped.
-/
namespace Nanvix.Vfs

open Nanvix.Library Nanvix.Library.Prog Handle

variable {buffer slot : Nat} {handle : Handle}

/-- Every handle that somebody can use. -/
def State.handles (s : State) : List Handle := entries s.fdTable ++ s.held

/-- Reading or writing through the handle touches the memory. A borrow from a buffer that was given
up may touch anything. -/
def State.reaches (s : State) (memory : Memory) : Handle → Bool
  | .fat32 _ buffer slot =>
    match s.vfs with
    | some table =>
      if table.buffer = buffer then (table.mounts[slot]?).any fun m => m.memory = memory
      else true
    | none => true
  | .directRead target => target = memory
  | .directory _ => false

/-- A file of the mount with this path. -/
def Handle.isFileOf (path : List Char) : Handle → Bool
  | .fat32 mountPath _ _ => mountPath = path
  | .directRead _ => false
  | .directory _ => false

/-- The counters agree with the files that are open. -/
structure Counted (counts : List OpenFileCount) (handles : List Handle) : Prop where
  nodup : (counts.map OpenFileCount.mountPath).Nodup
  exact : ∀ e ∈ counts, e.count = handles.countP (isFileOf e.mountPath)
  covers : ∀ path, 0 < handles.countP (isFileOf path) →
    ∃ e ∈ counts, e.mountPath = path

section Counters
variable {counts : List OpenFileCount} {handles handles' : List Handle} {path : List Char}

theorem Counted.perm (h : Counted counts handles) (hperm : handles.Perm handles') :
    Counted counts handles' where
  nodup := h.nodup
  exact e he := by rw [← hperm.countP_eq]; exact h.exact e he
  covers path hpos := h.covers path (by rwa [hperm.countP_eq])

/-- A mount without a positive counter has no open files. -/
theorem Counted.no_files (h : Counted counts handles) (hopen : hasOpenFiles path counts = false) :
    ∀ handle ∈ handles, handle.isFileOf path = false := by
  intro handle hmem
  by_contra hfile
  have hfile : handle.isFileOf path = true := Bool.not_eq_false _ ▸ hfile
  have hpos : 0 < handles.countP (isFileOf path) :=
    List.countP_pos_iff.mpr ⟨handle, hmem, hfile⟩
  obtain ⟨e, he, rfl⟩ := h.covers path hpos
  have hcount : hasOpenFiles e.mountPath counts = true := by
    apply List.any_eq_true.mpr
    refine ⟨e, he, ?_⟩
    rw [← h.exact e he] at hpos
    simp [hpos]
  cases hopen.symm.trans hcount

/-- Changing the counter of a path: the other entries are about other paths. -/
theorem updateFirst_counts (h : Counted counts handles) (g : Nat → Nat)
    (hpath : counts.any (fun e => e.mountPath = path) = true) :
    ((updateFirst (fun e => e.mountPath = path) (fun e => { e with count := g e.count })
        counts).map OpenFileCount.mountPath = counts.map OpenFileCount.mountPath) ∧
    ∀ e' ∈ updateFirst (fun e => e.mountPath = path) (fun e => { e with count := g e.count })
        counts,
      (e' ∈ counts ∧ e'.mountPath ≠ path) ∨
        ∃ e ∈ counts, e.mountPath = path ∧ e' = { e with count := g e.count } := by
  obtain ⟨x, l₁, l₂, hx, rfl, hupdate⟩ := updateFirst_split hpath
    (fun e : OpenFileCount => { e with count := g e.count })
  have hx : x.mountPath = path := of_decide_eq_true hx
  have hnodup := h.nodup
  rw [List.map_append, List.map_cons, List.nodup_middle, List.nodup_cons] at hnodup
  rw [hupdate]
  constructor
  · rw [List.map_append, List.map_cons, List.map_append, List.map_cons]
  · intro e' he'
    rcases List.mem_append.mp he' with hmem | hmem
    · apply Or.inl
      refine ⟨List.mem_append_left _ hmem, ?_⟩
      intro heq
      apply hnodup.1
      rw [hx, ← heq]
      exact List.mem_append_left _ (List.mem_map_of_mem hmem)
    · rcases List.mem_cons.mp hmem with rfl | hmem
      · exact Or.inr ⟨x, List.mem_append_right _ List.mem_cons_self, hx, rfl⟩
      · apply Or.inl
        refine ⟨List.mem_append_right _ (List.mem_cons_of_mem _ hmem), ?_⟩
        intro heq
        apply hnodup.1
        rw [hx, ← heq]
        exact List.mem_append_right _ (List.mem_map_of_mem hmem)

theorem countP_cons_file (q : List Char) :
    (fat32 path buffer slot :: handles).countP (isFileOf q) =
      handles.countP (isFileOf q) + if path = q then 1 else 0 := by
  rw [List.countP_cons]
  simp only [isFileOf, decide_eq_true_iff]

/-- Opening a file of a mount. -/
theorem Counted.increment (h : Counted counts handles) :
    Counted (increment path counts) (.fat32 path buffer slot :: handles) := by
  unfold Vfs.increment
  by_cases hpath : counts.any (fun e => e.mountPath = path) = true
  · rw [if_pos hpath]
    obtain ⟨hmap, hmem⟩ := updateFirst_counts h (· + 1) hpath
    constructor
    · rw [hmap]
      exact h.nodup
    · intro e' he'
      rw [countP_cons_file]
      obtain ⟨he, hne⟩ | ⟨e, he, rfl, rfl⟩ := hmem e' he'
      · rw [if_neg (Ne.symm hne), Nat.add_zero]
        exact h.exact e' he
      · rw [if_pos rfl, ← h.exact e he]
    · intro q hpos
      have hq : q ∈ counts.map OpenFileCount.mountPath := by
        by_cases hq : path = q
        · obtain ⟨e, he, heq⟩ := List.any_eq_true.mp hpath
          rw [← hq, ← of_decide_eq_true heq]
          exact List.mem_map_of_mem he
        · rw [countP_cons_file, if_neg hq, Nat.add_zero] at hpos
          obtain ⟨e, he, rfl⟩ := h.covers q hpos
          exact List.mem_map_of_mem he
      rw [← hmap] at hq
      exact List.mem_map.mp hq
  · rw [if_neg hpath]
    have hnew : ∀ e ∈ counts, e.mountPath ≠ path := by
      intro e he heq
      exact hpath (List.any_eq_true.mpr ⟨e, he, decide_eq_true heq⟩)
    have hzero : handles.countP (isFileOf path) = 0 := by
      by_contra hpos
      obtain ⟨e, he, heq⟩ := h.covers path (Nat.pos_of_ne_zero hpos)
      exact hnew e he heq
    constructor
    · rw [List.map_append, List.map_singleton, List.nodup_append_comm, List.singleton_append,
        List.nodup_cons]
      refine ⟨?_, h.nodup⟩
      intro hmem
      obtain ⟨e, he, heq⟩ := List.mem_map.mp hmem
      exact hnew e he heq
    · intro e he
      rw [countP_cons_file]
      rcases List.mem_append.mp he with he | he
      · rw [if_neg (hnew e he).symm, Nat.add_zero]
        exact h.exact e he
      · rw [List.mem_singleton.mp he, if_pos rfl, hzero]
    · intro q hpos
      by_cases hq : path = q
      · exact ⟨⟨path, 1⟩, List.mem_append_right _ List.mem_cons_self, hq⟩
      · rw [countP_cons_file, if_neg hq, Nat.add_zero] at hpos
        obtain ⟨e, he, heq⟩ := h.covers q hpos
        exact ⟨e, List.mem_append_left _ he, heq⟩

/-- Dropping a file of a mount. -/
theorem Counted.decrement (h : Counted counts (.fat32 path buffer slot :: handles)) :
    Counted (decrement path counts) handles := by
  have hpath : counts.any (fun e => e.mountPath = path) = true := by
    obtain ⟨e, he, heq⟩ := h.covers path (by rw [countP_cons_file, if_pos rfl]; omega)
    exact List.any_eq_true.mpr ⟨e, he, decide_eq_true heq⟩
  unfold Vfs.decrement
  obtain ⟨hmap, hmem⟩ := updateFirst_counts h (· - 1) hpath
  constructor
  · rw [hmap]
    exact h.nodup
  · intro e' he'
    obtain ⟨he, hne⟩ | ⟨e, he, rfl, rfl⟩ := hmem e' he'
    · have hcount := h.exact e' he
      rwa [countP_cons_file, if_neg (Ne.symm hne), Nat.add_zero] at hcount
    · have hcount := h.exact e he
      rw [countP_cons_file, if_pos rfl] at hcount
      exact Nat.sub_eq_of_eq_add hcount
  · intro q hpos
    obtain ⟨e, he, rfl⟩ := h.covers q (by rw [countP_cons_file]; omega)
    have hq := List.mem_map_of_mem he (f := OpenFileCount.mountPath)
    rw [← hmap] at hq
    exact List.mem_map.mp hq

/-- The counters do not see the other handles. -/
theorem counted_cons_iff (hfile : ∀ q, handle.isFileOf q = false) :
    Counted counts (handle :: handles) ↔ Counted counts handles := by
  have hcount : ∀ q, (handle :: handles).countP (isFileOf q) =
      handles.countP (isFileOf q) := by
    intro q
    rw [List.countP_cons, hfile, if_neg Bool.false_ne_true, Nat.add_zero]
  constructor
  · intro h
    exact ⟨h.nodup, fun e he => hcount _ ▸ h.exact e he,
      fun q hpos => h.covers q (by rwa [hcount])⟩
  · intro h
    exact ⟨h.nodup, fun e he => (hcount _).symm ▸ h.exact e he,
      fun q hpos => h.covers q (by rwa [hcount] at hpos)⟩

end Counters

/-- The mount table: paths and allocations stand for one mount each. -/
structure TableSound (next : Nat) (released : List Nat) (table : Table) : Prop where
  paths : (table.mounts.map Mount.path).Nodup
  volumes : ∀ m ∈ table.mounts, ∀ m' ∈ table.mounts, ∀ b, m.memory = .volume b →
    m'.memory = .volume b → m.path = m'.path
  fresh : ∀ m ∈ table.mounts, ∀ b, m.memory = .volume b → b < next ∧ b ∉ released

/-- A file's borrow leads to its own mount, and a direct reader to memory that is there. -/
def Valid (released : List Nat) (table : Option Table) (next : Nat) : Handle → Prop
  | .fat32 path buffer slot => ∃ t, table = some t ∧ t.buffer = buffer ∧
      ∃ m, t.mounts[slot]? = some m ∧ m.path = path
  | .directRead memory => ∀ b, memory = .volume b → b < next ∧ b ∉ released
  | .directory _ => True

/-- What only depends on the table for a file. -/
theorem Valid.of_table {released : List Nat} {table table' : Option Table} {next : Nat}
    (h : Valid released table next handle) (hfile : ∀ path buffer slot,
      handle = .fat32 path buffer slot → Valid released table' next handle) :
    Valid released table' next handle := by
  cases handle with
  | fat32 path buffer slot => exact hfile path buffer slot rfl
  | directRead memory => exact h
  | directory path => trivial

/-- The invariant of the tables, with the handles that are around. -/
structure Sound (s : State) (handles : List Handle) : Prop where
  table : ∀ t, s.vfs = some t → TableSound s.next s.released t
  guests : ∀ g ∈ s.guestMounts, ∃ t, s.vfs = some t ∧ ∃ m ∈ t.mounts,
    m.path = g.path ∧ m.memory = .volume g.memory
  guestPaths : (s.guestMounts.map GuestMountInfo.path).Nodup
  valid : ∀ h ∈ handles, Valid s.released s.vfs s.next h
  counted : Counted s.openFileCounts handles
  past : ∀ b ∈ s.released, b < s.next

section Queries
variable {α : Type} {s : State} {Q : α → State → Prop} {E : Fat32Error → State → Prop}

/-- Asking the mount table changes nothing. -/
theorem wp_withVfs {f : Table → Except Fat32Error α} (hnone : s.vfs = none → E .notInitialized s)
    (hok : ∀ t a, s.vfs = some t → f t = .ok a → Q a s)
    (herr : ∀ t e, s.vfs = some t → f t = .error e → E e s) : wp (withVfs f) Q E s := by
  unfold withVfs
  rw [wp_bind, wp_gets]
  cases hvfs : s.vfs with
  | none => exact (wp_throw _).mpr (hnone hvfs)
  | some t =>
    dsimp only
    cases hf : f t with
    | ok a => exact (wp_ofExcept_ok a).mpr (hok t a hvfs hf)
    | error e => exact (wp_ofExcept_error e).mpr (herr t e hvfs hf)

theorem wp_withVfsMut {f : Table → Except Fat32Error Table} {Q : Unit → State → Prop}
    (hnone : s.vfs = none → E .notInitialized s)
    (hok : ∀ t t', s.vfs = some t → f t = .ok t' → Q () { s with vfs := some t' })
    (herr : ∀ t e, s.vfs = some t → f t = .error e → E e s) : wp (withVfsMut f) Q E s := by
  unfold withVfsMut
  rw [wp_bind]
  exact wp_withVfs hnone (fun t t' ht hf => (wp_modify _).mpr (hok t t' ht hf)) herr

/-- A query that is answered or refused without an effect. -/
def Query (x : Step α) : Prop := ∀ s, wp x (fun _ t => t = s) (fun _ t => t = s) s

theorem query_withVfs (f : Table → Except Fat32Error α) : Query (withVfs f) :=
  fun _ => wp_withVfs (fun _ => rfl) (fun _ _ _ _ => rfl) (fun _ _ _ _ => rfl)

theorem query_ofExcept (x : Except Fat32Error α) : Query (ofExcept x : Step α) := by
  intro s
  cases x with
  | ok a => exact (wp_ofExcept_ok a).mpr rfl
  | error e => exact (wp_ofExcept_error e).mpr rfl

theorem query_pure (a : α) : Query (pure a : Step α) := fun _ => (wp_pure a).mpr rfl

/-- A query may be followed by anything that starts from the same state. -/
theorem Query.wp_bind {β : Type} {x : Step β} {f : β → Step α} (hx : Query x) (hE : ∀ e, E e s)
    (hf : ∀ b, wp (f b) Q E s) : wp (x >>= f) Q E s := by
  rw [Prog.wp_bind]
  refine (hx s).stays hE ?_
  rintro b t rfl
  exact hf b

theorem Query.bind {β : Type} {x : Step β} {f : β → Step α} (hx : Query x)
    (hf : ∀ b, Query (f b)) : Query (x >>= f) :=
  fun s => hx.wp_bind (fun _ => rfl) fun b => hf b s

theorem Query.ite {c : Prop} [Decidable c] {x y : Step α} (hx : Query x) (hy : Query y) :
    Query (if c then x else y) := by
  split
  · exact hx
  · exact hy

theorem Query.attempt {x : Step α} (hx : Query x) : Query (attempt x) :=
  fun s => wp_attempt.mpr (hx s)

theorem query_stat (path : List Char) (answers : Answers) : Query (stat path answers) :=
  (query_withVfs _).bind fun _ => (query_pure _).ite (query_ofExcept _)

theorem query_normalize (path : List Char) : Query (normalize path) := query_withVfs _

/-- The descriptor's slot holds the handle that is found. -/
theorem wp_slotOf {fd : Int} {Q : Nat × Handle → State → Prop}
    (hok : ∀ i handle, s.fdTable[i]? = some (some handle) → Q (i, handle) s)
    (herr : E .invalidFd s) : wp (slotOf fd) Q E s := by
  unfold slotOf
  apply wp_ite.mpr
  split
  · rw [wp_bind, wp_gets]
    cases hslot : s.fdTable[(fd - vfsFdBase).toNat]? with
    | none => exact (wp_throw _).mpr herr
    | some slot =>
      cases slot with
      | none => exact (wp_throw _).mpr herr
      | some handle => exact (wp_pure _).mpr (hok _ handle hslot)
  · exact (wp_throw _).mpr herr

end Queries

section Opening
variable {s : State} {handles : List Handle} {path : List Char} {answers : Answers}

theorem Sound.perm {handles' : List Handle} (h : Sound s handles)
    (hperm : handles.Perm handles') : Sound s handles' where
  __ := h
  valid x hx := h.valid x (hperm.mem_iff.mpr hx)
  counted := h.counted.perm hperm

theorem Sound.cons (h : Sound s handles)
    (hfile : ∀ q, handle.isFileOf q = false) (hvalid : Valid s.released s.vfs s.next handle) :
    Sound s (handle :: handles) where
  __ := h
  valid := List.forall_mem_cons.mpr ⟨hvalid, h.valid⟩
  counted := (counted_cons_iff hfile).mpr h.counted

/-- An opened file is counted for the mount its borrow leads to. -/
theorem openWithOptions_sound (options : OpenOptions) (h : Sound s handles) :
    wp (openWithOptions path options answers)
      (fun handle t => Sound t (handle :: handles) ∧ t.handles = s.handles)
      (fun _ t => t = s) s := by
  unfold openWithOptions
  apply Query.wp_bind (query_withVfs _)
  · exact fun _ => rfl
  rintro ⟨index, relative⟩
  dsimp only
  apply wp_ite.mpr
  split
  · exact (wp_throw _).mpr rfl
  · rw [wp_bind]
    apply wp_withVfs
    · exact fun _ => rfl
    on_goal 2 => exact fun _ _ _ _ => rfl
    rintro t ⟨mount, buffer⟩ hvfs hmount
    cases hget : t.mounts[index]? with
    | none =>
      rw [hget] at hmount
      cases hmount
    | some m =>
      rw [hget] at hmount
      cases hmount
      dsimp only
      apply wp_ite.mpr
      split
      · exact (wp_throw _).mpr rfl
      · apply Query.wp_bind (query_ofExcept _)
        · exact fun _ => rfl
        intro _
        rw [wp_bind, wp_modify, wp_pure]
        refine ⟨?_, rfl⟩
        exact { h with
          valid := List.forall_mem_cons.mpr ⟨⟨t, hvfs, rfl, mount, hget, rfl⟩, h.valid⟩
          counted := h.counted.increment }

theorem openFile_sound (options : OpenOptions) (h : Sound s handles) :
    wp (openFile path options answers)
      (fun handle t => Sound t (handle :: handles) ∧ t.handles = s.handles)
      (fun _ t => t = s) s := by
  simp only [openFile, wp_ite, wp_throw]
  split_ifs
  · exact openWithOptions_sound _ h
  · exact openWithOptions_sound _ h

/-- A raw region lies in the memory of a mount. -/
theorem wp_fileRawRegion {Q : Option Memory → State → Prop} {E : Fat32Error → State → Prop}
    (hnone : Q none s) (hsome : ∀ t m, s.vfs = some t → m ∈ t.mounts → Q (some m.memory) s) :
    wp (fileRawRegion path answers) Q E s := by
  unfold fileRawRegion
  rw [wp_bind, wp_attempt]
  apply wp_withVfs
  · exact fun _ => (wp_pure _).mpr hnone
  · intro t memory hvfs hf
    simp only [bind, Except.bind] at hf
    cases hresolve : t.resolve path with
    | error e =>
      rw [hresolve] at hf
      cases hf
    | ok found =>
      rw [hresolve] at hf
      cases hget : t.mounts[found.1]? with
      | none =>
        simp only [hget] at hf
        cases hf
      | some m =>
        simp only [hget] at hf
        split at hf
        · cases hf
          exact (wp_pure _).mpr (hsome t m hvfs (List.mem_of_getElem? hget))
        · cases hf
  · exact fun _ _ _ _ => (wp_pure _).mpr hnone

/-- The memory of a mount has not been released. -/
theorem Sound.valid_memory (h : Sound s handles) {t : Table} {m : Mount} (hvfs : s.vfs = some t)
    (hm : m ∈ t.mounts) : Valid s.released s.vfs s.next (.directRead m.memory) :=
  fun b hb => (h.table t hvfs).fresh m hm b hb

/-- What is not a directory is opened as a region of memory or as a file. -/
theorem openRegular_sound (flags : OpenFlags) (h : Sound s handles) :
    wp (if flags.accessMode = oRdonly ∧ ¬flags.create ∧ ¬flags.truncate ∧ ¬flags.exclusive then do
        match ← fileRawRegion path answers with
        | some memory => return .directRead memory
        | none => openFile path flags.options answers
      else openFile path flags.options answers)
      (fun handle t => Sound t (handle :: handles) ∧ t.handles = s.handles)
      (fun _ t => t = s) s := by
  apply wp_ite.mpr
  split
  · rw [wp_bind]
    apply wp_fileRawRegion
    · exact openFile_sound _ h
    · intro t m hvfs hm
      exact (wp_pure _).mpr ⟨h.cons (fun _ => rfl) (h.valid_memory hvfs hm), rfl⟩
  · exact openFile_sound _ h

theorem fat32Open_sound (flags : OpenFlags) (h : Sound s handles) :
    wp (fat32Open path flags answers)
      (fun handle t => Sound t (handle :: handles) ∧ t.handles = s.handles)
      (fun _ t => t = s) s := by
  have hdirectory : wp (normalize path >>= fun p => pure (directory p))
      (fun handle t => Sound t (handle :: handles) ∧ t.handles = s.handles)
      (fun _ t => t = s) s := by
    apply Query.wp_bind (query_normalize path)
    · exact fun _ => rfl
    · exact fun p => (wp_pure _).mpr ⟨h.cons (fun _ => rfl) trivial, rfl⟩
  unfold fat32Open
  apply wp_ite.mpr
  split
  · apply Query.wp_bind (query_stat path answers)
    · exact fun _ => rfl
    intro isDir
    cases isDir with
    | true => exact hdirectory
    | false => exact (wp_throw _).mpr rfl
  · apply Query.wp_bind (query_stat path answers).attempt
    · exact fun _ => rfl
    intro result
    cases result with
    | error e => exact openRegular_sound flags h
    | ok isDir =>
      cases isDir with
      | true => exact hdirectory
      | false => exact openRegular_sound flags h

/-- Dropping a handle that is not stored any more. -/
theorem drop_sound (h : Sound s (handle :: s.handles)) :
    wp handle.drop (fun _ t => Sound t t.handles) (fun _ _ => False) s := by
  have hvalid := (List.forall_mem_cons.mp h.valid).2
  cases handle with
  | fat32 mountPath buffer slot =>
    apply (wp_modify _).mpr
    exact { h with valid := hvalid, counted := h.counted.decrement }
  | directRead memory | directory path =>
    apply (wp_pure _).mpr
    exact { h with valid := hvalid, counted := (counted_cons_iff fun _ => rfl).mp h.counted }

/-- Storing a handle, or dropping it when the table is full. -/
theorem alloc_sound (h : Sound s (handle :: s.handles)) :
    wp (alloc handle) (fun _ t => Sound t t.handles) (fun _ t => Sound t t.handles) s := by
  unfold alloc
  rw [wp_bind, wp_gets]
  apply wp_ite.mpr
  split
  · next hlt =>
      have hfree : s.fdTable[s.fdTable.findIdx fun slot => slot = none]? = some none := by
        rw [List.getElem?_eq_getElem hlt]
        have hnone := List.findIdx_getElem (w := hlt)
        exact congrArg some (of_decide_eq_true hnone)
      rw [wp_bind, wp_modify, wp_pure]
      exact { h.perm ((perm_entries_fill handle hfree).append_right s.held).symm with }
  · rw [wp_bind]
    exact (drop_sound h).total fun _ t ht => (wp_throw _).mpr ht

theorem vfsOpen_sound (flags : OpenFlags) (h : Sound s s.handles) :
    wp (vfsOpen path flags answers) (fun _ t => Sound t t.handles)
      (fun _ t => Sound t t.handles) s := by
  unfold vfsOpen
  rw [wp_bind]
  refine (fat32Open_sound flags h).stays (fun _ => h) ?_
  rintro handle t ⟨ht, hhandles⟩
  rw [← hhandles] at ht
  exact alloc_sound ht

theorem vfsClose_sound (fd : Int) (h : Sound s s.handles) :
    wp (vfsClose fd) (fun _ t => Sound t t.handles) (fun _ t => Sound t t.handles) s := by
  unfold vfsClose
  rw [wp_bind]
  apply wp_slotOf
  · intro i handle hslot
    rw [wp_bind, wp_modify]
    have hdrop := drop_sound (s := { s with fdTable := s.fdTable.set i none })
      { h.perm ((perm_entries_clear hslot).append_right s.held).symm with }
    exact hdrop.total fun _ t ht => ht
  · exact h

theorem vfsAccess_sound (write : Bool) (fd : Int) (h : Sound s s.handles) :
    wp (vfsAccess write fd) (fun _ t => Sound t t.handles) (fun _ t => Sound t t.handles) s := by
  unfold vfsAccess
  rw [wp_bind]
  apply wp_slotOf
  · intro i handle _
    cases handle with
    | fat32 mountPath buffer slot => exact (wp_pure _).mpr h
    | directRead memory =>
      apply wp_ite.mpr
      split
      · exact (wp_throw _).mpr h
      · exact (wp_pure _).mpr h
    | directory path => exact (wp_throw _).mpr h
  · exact h

/-- A handle that a user of the library keeps. -/
theorem hold_sound (h : Sound s (handle :: s.handles)) :
    wp (hold handle) (fun _ t => Sound t t.handles) (fun _ _ => False) s := by
  apply (wp_modify _).mpr
  have hperm : (handle :: s.handles).Perm (entries s.fdTable ++ handle :: s.held) :=
    List.perm_middle.symm
  exact { h.perm hperm with }

end Opening

end Nanvix.Vfs
