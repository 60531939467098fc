import Mathlib.Data.List.InsertIdx
import Nanvix.Vfs.OpenFiles

/-!
# No handle outlives the memory of its mount

A file is counted as long as it is open, so a mount is removed only when no file
of it is left. Two kinds of access escape the count. A direct reader is never
counted, and a file whose mount moved within the table leads to whatever mount
stands in its old slot. As long as no direct reader of the memory is around when
a volume is unmounted, and mounts with open files keep their slots, the memory
that an unmount releases is out of everyone's reach.
-/
namespace Nanvix.Vfs

open Nanvix.Library Nanvix.Library.Prog

/-- A mount at this path goes behind the mounts of the open files, and the buffer has room. -/
def mountsAside (path : List Char) (s : State) : Bool :=
  s.vfs.all fun table => s.handles.all fun handle =>
    match handle with
    | .fat32 _ _ slot => slot < table.position path && table.mounts.length ≠ table.capacity
    | .directRead _ => true
    | .directory _ => true

/-- If a volume is mounted at this path, nobody reads its memory directly, and the mounts of the
files that are open elsewhere stand before it. -/
def unmountsAside (path : List Char) (s : State) : Bool :=
  s.guestMounts.all fun g => g.path ≠ path || s.handles.all fun handle =>
    match handle with
    | .fat32 mountPath _ slot => mountPath = path || s.vfs.all fun table =>
      slot < table.mounts.findIdx fun m => m.path = path
    | .directRead memory => memory ≠ .volume g.memory
    | .directory _ => true

/-- The condition on the commands of a run. -/
def Orderly : Command → State → Bool
  | .mountImage path _ _ _, s => mountsAside path s
  | .createMount path _ _, s => mountsAside path s
  | .unmount path, s => unmountsAside path s
  | _, _ => true

section Mounting
variable {s : State} {handles : List Handle} {path : List Char} {t t' : Table} {mount : Mount}
variable {next : Nat} {released : List Nat}

/-- What adding a mount does to the table. -/
theorem addMount_ok (h : t.addMount mount = .ok t') :
    (∀ m ∈ t.mounts, m.path ≠ mount.path) ∧
    t'.mounts = t.mounts.insertIdx (t.position mount.path) mount ∧
    (t.mounts.length ≠ t.capacity → t'.buffer = t.buffer) := by
  unfold Table.addMount at h
  split at h
  · cases h
  · next hnew =>
      cases h
      refine ⟨?_, rfl, fun hroom => if_neg hroom⟩
      intro m hm heq
      exact hnew (List.any_eq_true.mpr ⟨m, hm, decide_eq_true heq⟩)

theorem addMount_mem (h : t.addMount mount = .ok t') {m : Mount} :
    m ∈ t'.mounts ↔ m = mount ∨ m ∈ t.mounts := by
  rw [(addMount_ok h).2.1]
  exact List.mem_insertIdx List.findIdx_le_length

theorem TableSound.add (h : TableSound next released t) (hadd : t.addMount mount = .ok t')
    (hfresh : ∀ b, mount.memory = .volume b →
      (∀ m ∈ t.mounts, m.memory ≠ .volume b) ∧ b < next ∧ b ∉ released) :
    TableSound next released t' := by
  obtain ⟨hnew, hmounts, -⟩ := addMount_ok hadd
  constructor
  · have hperm : t'.mounts.Perm (mount :: t.mounts) := by
      rw [hmounts]
      exact List.perm_insertIdx mount t.mounts List.findIdx_le_length
    rw [(hperm.map Mount.path).nodup_iff, List.map_cons, List.nodup_cons]
    refine ⟨?_, h.paths⟩
    intro hmem
    obtain ⟨m, hm, heq⟩ := List.mem_map.mp hmem
    exact hnew m hm heq
  · intro m hm m' hm' b hb hb'
    obtain rfl | hm := (addMount_mem hadd).mp hm
    · obtain rfl | hm' := (addMount_mem hadd).mp hm'
      · rfl
      · exact absurd hb' ((hfresh b hb).1 m' hm')
    · obtain rfl | hm' := (addMount_mem hadd).mp hm'
      · exact absurd hb ((hfresh b hb').1 m hm)
      · exact h.volumes m hm m' hm' b hb hb'
  · intro m hm b hb
    obtain rfl | hm := (addMount_mem hadd).mp hm
    · exact (hfresh b hb).2
    · exact h.fresh m hm b hb

/-- The mount of a tracked volume. -/
theorem Sound.guest (h : Sound s handles) (hvfs : s.vfs = some t) {g : GuestMountInfo}
    (hg : g ∈ s.guestMounts) : ∃ m ∈ t.mounts, m.path = g.path ∧ m.memory = .volume g.memory := by
  obtain ⟨u, hu, hm⟩ := h.guests g hg
  rw [hvfs, Option.some.injEq] at hu
  exact hu ▸ hm

theorem Sound.file {mountPath : List Char} {buffer slot : Nat} (h : Sound s handles)
    (hvfs : s.vfs = some t) (hmem : Handle.fat32 mountPath buffer slot ∈ handles) :
    t.buffer = buffer ∧ ∃ m, t.mounts[slot]? = some m ∧ m.path = mountPath := by
  obtain ⟨u, hu, hrest⟩ := h.valid _ hmem
  rw [hvfs, Option.some.injEq] at hu
  exact hu ▸ hrest

/-- Where a mount goes, the borrows of the open files stay valid. -/
theorem Sound.valid_add {handle : Handle} (h : Sound s s.handles) (hvfs : s.vfs = some t)
    (hadd : t.addMount mount = .ok t') (haside : mountsAside mount.path s = true)
    (hmem : handle ∈ s.handles) : Valid s.released (some t') s.next handle := by
  obtain ⟨-, hmounts, hbuffer⟩ := addMount_ok hadd
  refine (h.valid handle hmem).of_table fun mountPath buffer slot heq => ?_
  subst heq
  obtain ⟨hbuf, m, hm, hpath⟩ := h.file hvfs hmem
  unfold mountsAside at haside
  rw [hvfs] at haside
  obtain ⟨hlt, hroom⟩ := Bool.and_eq_true_iff.mp (List.all_eq_true.mp haside _ hmem)
  have hlt : slot < t.position mount.path := of_decide_eq_true hlt
  refine ⟨t', rfl, ?_, m, ?_, hpath⟩
  · rw [hbuffer (of_decide_eq_true hroom), hbuf]
  · rw [hmounts, List.getElem?_insertIdx_of_lt hlt, hm]

/-- A mount is added to the table, with a fresh allocation or an image of the platform. -/
theorem Sound.addMount (h : Sound s s.handles) (hvfs : s.vfs = some t)
    (hadd : t.addMount mount = .ok t') (haside : mountsAside mount.path s = true)
    (hfresh : ∀ b, mount.memory = .volume b →
      (∀ m ∈ t.mounts, m.memory ≠ .volume b) ∧ b < s.next ∧ b ∉ s.released) :
    Sound { s with vfs := some t' } s.handles where
  __ := h
  table u hu := by
    cases hu
    exact (h.table t hvfs).add hadd hfresh
  guests g hg := by
    obtain ⟨m, hm, hpath⟩ := h.guest hvfs hg
    exact ⟨t', rfl, m, (addMount_mem hadd).mpr (Or.inr hm), hpath⟩
  valid _ hmem := h.valid_add hvfs hadd haside hmem

theorem mountImage_sound {image : Nat} {readonly : Bool} {accepted : Except Fat32Error Unit}
    (h : Sound s s.handles) (haside : mountsAside path s = true) :
    wp (mountImage path image readonly accepted) (fun _ t => Sound t t.handles)
      (fun _ t => t = s) s := by
  unfold mountImage
  apply wp_ite.mpr
  split
  · apply Query.wp_bind (query_ofExcept _)
    · exact fun _ => rfl
    intro _
    apply wp_withVfsMut
    · exact fun _ => rfl
    · intro t t' hvfs hadd
      exact h.addMount hvfs hadd haside fun b hb => by cases hb
    · exact fun _ _ _ _ => rfl
  · exact (wp_throw _).mpr rfl

/-- An allocation that a mount or a reader uses. -/
def Used (s : State) (handles : List Handle) (b : Nat) : Prop :=
  (∃ t, s.vfs = some t ∧ ∃ m ∈ t.mounts, m.memory = .volume b) ∨
    Handle.directRead (.volume b) ∈ handles

/-- Other allocations are made or released. -/
theorem Sound.realloc {next' : Nat} {released' : List Nat} (h : Sound s handles)
    (hkept : ∀ b, Used s handles b → b < s.next ∧ b ∉ s.released → b < next' ∧ b ∉ released')
    (hpast : ∀ b ∈ released', b < next') :
    Sound { s with next := next', released := released' } handles where
  __ := h
  table t ht := { h.table t ht with
    fresh := fun m hm b hb => hkept b (.inl ⟨t, ht, m, hm, hb⟩) ((h.table t ht).fresh m hm b hb) }
  valid handle hmem := by
    have hvalid := h.valid handle hmem
    cases handle with
    | fat32 mountPath buffer slot => exact hvalid
    | directRead memory => exact fun b hb => hkept b (.inr (hb ▸ hmem)) (hvalid b hb)
    | directory path => trivial
  past := hpast

/-- Releasing an allocation that nobody uses. -/
theorem Sound.release {b : Nat} (h : Sound s handles) (hb : b < s.next)
    (hunused : ¬Used s handles b) : Sound { s with released := b :: s.released } handles := by
  refine h.realloc (fun c hc hlt => ⟨hlt.1, fun hmem => ?_⟩) (List.forall_mem_cons.mpr ⟨hb, h.past⟩)
  rcases List.mem_cons.mp hmem with rfl | hmem
  · exact hunused hc
  · exact hlt.2 hmem

theorem createMount_sound {size : Nat} {formatted : Except Fat32Error Unit}
    (h : Sound s s.handles) (haside : mountsAside path s = true) :
    wp (createMount path size formatted) (fun _ t => Sound t t.handles)
      (fun _ t => Sound t t.handles) s := by
  -- The allocation is fresh, whether it is kept or released.
  have hunused : ¬Used s s.handles s.next := by
    rintro (⟨t, ht, m, hm, heq⟩ | hmem)
    · exact absurd ((h.table t ht).fresh m hm s.next heq).1 (Nat.lt_irrefl _)
    · exact absurd (h.valid _ hmem s.next rfl).1 (Nat.lt_irrefl _)
  have hgrown : Sound { s with next := s.next + 1 } s.handles :=
    h.realloc (fun _ _ hlt => ⟨Nat.lt_succ_of_lt hlt.1, hlt.2⟩)
      fun b hb => Nat.lt_succ_of_lt (h.past b hb)
  have hfailed : Sound { s with next := s.next + 1, released := s.next :: s.released } s.handles :=
    hgrown.release (Nat.lt_succ_self _) hunused
  simp only [createMount, wp_ite, wp_throw]
  split_ifs
  · exact h
  · exact h
  · exact h
  apply Query.wp_bind (query_withVfs _)
  · exact fun _ => h
  intro _
  rw [wp_bind, wp_gets, wp_bind, wp_modify, wp_bind, wp_attempt]
  apply Query.wp_bind (query_ofExcept _)
  · intro e
    exact (wp_bind.mpr ((wp_modify _).mpr ((wp_throw _).mpr hfailed)))
  intro _
  apply wp_withVfsMut
  · intro _
    exact (wp_bind.mpr ((wp_modify _).mpr ((wp_throw _).mpr hfailed)))
  · intro t t' hvfs hadd
    have hfresh : s.next ∉ s.released := fun hmem => absurd (h.past _ hmem) (Nat.lt_irrefl _)
    have hadded := hgrown.addMount hvfs hadd haside fun b hb => by
      cases hb
      exact ⟨fun m hm hb => hunused (.inl ⟨t, hvfs, m, hm, hb⟩), Nat.lt_succ_self _, hfresh⟩
    apply (wp_modify _).mpr
    refine { hadded with guests := fun g hg => ?_, guestPaths := ?_ }
    · rcases List.mem_append.mp hg with hg | hg
      · exact hadded.guests g hg
      · rw [List.mem_singleton.mp hg]
        exact ⟨t', rfl, _, (addMount_mem hadd).mpr (Or.inl rfl), rfl, rfl⟩
    · rw [List.map_append, List.map_singleton, List.nodup_append_comm, List.singleton_append,
        List.nodup_cons]
      refine ⟨?_, h.guestPaths⟩
      intro hmem
      obtain ⟨g, hg, hpath⟩ := List.mem_map.mp hmem
      obtain ⟨m, hm, hmpath, -⟩ := h.guest hvfs hg
      exact (addMount_ok hadd).1 m hm (hmpath.trans hpath)
  · intro _ e _ _
    exact (wp_bind.mpr ((wp_modify _).mpr ((wp_throw _).mpr hfailed)))

/-- What removing a mount does to the table. -/
theorem removeMount_ok (h : t.removeMount path = .ok t') :
    t'.buffer = t.buffer ∧ ∃ m, m.path = path ∧ (m :: t'.mounts).Perm t.mounts ∧
      ∀ slot, slot < (t.mounts.findIdx fun m => m.path = path) →
        t'.mounts[slot]? = t.mounts[slot]? := by
  unfold Table.removeMount at h
  dsimp only at h
  split at h
  · next hlt =>
      cases h
      refine ⟨rfl, t.mounts[t.mounts.findIdx fun m => m.path = path], ?_, ?_, ?_⟩
      · exact of_decide_eq_true (List.findIdx_getElem (w := hlt))
      · exact List.getElem_cons_eraseIdx_perm hlt
      · exact fun slot hslot => List.getElem?_eraseIdx_of_lt hslot
  · cases h

/-- A mount that is in the table can be removed. -/
theorem removeMount_of_mem {m : Mount} (hm : m ∈ t.mounts) (hpath : m.path = path) :
    ∃ t', t.removeMount path = .ok t' := by
  unfold Table.removeMount
  rw [if_pos (List.findIdx_lt_length.mpr ⟨m, hm, decide_eq_true hpath⟩)]
  exact ⟨_, rfl⟩

/-- Out of reach: no handle that is around touches the allocation. -/
def OutOfReach (s : State) (b : Nat) : Prop :=
  ∀ handle ∈ s.handles, s.reaches (.volume b) handle = false

/-- Borrows lead to their own mounts, so memory that is no mount's and no reader's is out of
reach. -/
theorem Sound.outOfReach {b : Nat} (h : Sound s s.handles)
    (hfiles : ∀ t, s.vfs = some t → ∀ m ∈ t.mounts, m.memory = .volume b →
      ∀ handle ∈ s.handles, handle.isFileOf m.path = false)
    (hreaders : Handle.directRead (.volume b) ∉ s.handles) : OutOfReach s b := by
  intro handle hmem
  have hvalid := h.valid handle hmem
  cases handle with
  | fat32 mountPath buffer slot =>
    obtain ⟨t, hvfs, hbuffer, m, hm, hpath⟩ := hvalid
    unfold State.reaches
    simp only [hvfs, if_pos hbuffer, hm, Option.any_some, decide_eq_false_iff_not]
    intro hmemory
    have hfile := hfiles t hvfs m (List.mem_of_getElem? hm) hmemory _ hmem
    unfold Handle.isFileOf at hfile
    exact of_decide_eq_false hfile hpath.symm
  | directRead memory =>
    apply decide_eq_false
    rintro rfl
    exact hreaders hmem
  | directory path => rfl

/-- Memory that was released is out of reach. -/
theorem Sound.released_outOfReach {b : Nat} (h : Sound s s.handles) (hb : b ∈ s.released) :
    OutOfReach s b := by
  apply h.outOfReach
  · intro t ht m hm hmemory
    exact absurd hb ((h.table t ht).fresh m hm b hmemory).2
  · intro hmem
    exact (h.valid _ hmem b rfl).2 hb

/-- What the condition on an unmount says about the handles. -/
theorem unmountsAside_handles {info : GuestMountInfo} (haside : unmountsAside info.path s = true)
    (hinfo : info ∈ s.guestMounts) (hvfs : s.vfs = some t) :
    Handle.directRead (.volume info.memory) ∉ s.handles ∧
    ∀ mountPath buffer slot, Handle.fat32 mountPath buffer slot ∈ s.handles →
      mountPath = info.path ∨ slot < t.mounts.findIdx fun m => m.path = info.path := by
  have hhandles := List.all_eq_true.mp haside info hinfo
  simp only [ne_eq, not_true_eq_false, decide_false, Bool.false_or] at hhandles
  have hall := List.all_eq_true.mp hhandles
  constructor
  · intro hmem
    have hread := hall _ hmem
    simp at hread
  · intro mountPath buffer slot hmem
    have hfile := hall _ hmem
    rw [hvfs] at hfile
    simpa using hfile

/-- The tables after a volume has been removed and its memory released. -/
theorem Sound.remove {info : GuestMountInfo} {rest : List GuestMountInfo}
    (h : Sound s s.handles) (hvfs : s.vfs = some t) (hremoved : t.removeMount info.path = .ok t')
    (hperm : s.guestMounts.Perm (info :: rest))
    (hfiles : ∀ handle ∈ s.handles, handle.isFileOf info.path = false)
    (haside : unmountsAside info.path s = true) :
    Sound { s with
      vfs := some t', guestMounts := rest, released := info.memory :: s.released } s.handles := by
  have hinfo : info ∈ s.guestMounts := hperm.mem_iff.mpr List.mem_cons_self
  obtain ⟨hreaders, hslots⟩ := unmountsAside_handles haside hinfo hvfs
  obtain ⟨hbuffer, m, hmpath, hmounts, hkept⟩ := removeMount_ok hremoved
  obtain ⟨m', hm', hm'path, hm'memory⟩ := h.guest hvfs hinfo
  have hold := h.table t hvfs
  -- The paths of the mounts that stay differ from the one that goes.
  have hnodup := hold.paths
  rw [← (hmounts.map Mount.path).nodup_iff, List.map_cons, List.nodup_cons] at hnodup
  have hmem : ∀ x ∈ t'.mounts, x ∈ t.mounts ∧ x.path ≠ info.path := by
    intro x hx
    refine ⟨hmounts.mem_iff.mp (List.mem_cons_of_mem _ hx), ?_⟩
    intro heq
    apply hnodup.1
    rw [hmpath, ← heq]
    exact List.mem_map_of_mem hx
  have hunused : ∀ x ∈ t'.mounts, x.memory ≠ .volume info.memory := by
    intro x hx heq
    obtain ⟨hx, hne⟩ := hmem x hx
    exact hne ((hold.volumes x hx m' hm' _ heq hm'memory).trans hm'path)
  have hgpaths := h.guestPaths
  rw [(hperm.map GuestMountInfo.path).nodup_iff, List.map_cons, List.nodup_cons] at hgpaths
  have hremain : Sound { s with vfs := some t', guestMounts := rest } s.handles := by
    refine { h with
      table := fun v hv => ?_, guests := fun g hg => ?_, guestPaths := hgpaths.2
      valid := fun handle hhandle => (h.valid handle hhandle).of_table fun path buffer slot heq => ?_ }
    · cases hv
      refine ⟨hnodup.2, ?_, ?_⟩
      · exact fun x hx y hy => hold.volumes x (hmem x hx).1 y (hmem y hy).1
      · exact fun x hx => hold.fresh x (hmem x hx).1
    · have hne : g.path ≠ info.path := by
        intro heq
        apply hgpaths.1
        rw [← heq]
        exact List.mem_map_of_mem hg
      obtain ⟨x, hx, hxpath, hxmemory⟩ :=
        h.guest hvfs (hperm.mem_iff.mpr (List.mem_cons_of_mem _ hg))
      refine ⟨t', rfl, x, ?_, hxpath, hxmemory⟩
      rcases List.mem_cons.mp (hmounts.mem_iff.mpr hx) with rfl | hx
      · exact absurd (hxpath.symm.trans hmpath) hne
      · exact hx
    · subst heq
      obtain ⟨hbuf, x, hx, hxpath⟩ := h.file hvfs hhandle
      have hne : path ≠ info.path := of_decide_eq_false (hfiles _ hhandle)
      have hlt := (hslots _ _ _ hhandle).resolve_left hne
      exact ⟨t', rfl, hbuffer.trans hbuf, x, (hkept slot hlt).trans hx, hxpath⟩
  apply hremain.release
  · exact (hold.fresh m' hm' _ hm'memory).1
  · rintro (⟨v, hv, x, hx, heq⟩ | hread)
    · cases hv
      exact hunused x hx heq
    · exact hreaders hread

/-- An unmount that succeeds releases memory that was out of reach; one that fails has no effect. -/
theorem unmount_spec (h : Sound s s.handles) (haside : unmountsAside path s = true) :
    wp (unmount path)
      (fun _ t => Sound t t.handles ∧ ∃ info ∈ s.guestMounts, info.path = path ∧
        t.released = info.memory :: s.released ∧ OutOfReach s info.memory)
      (fun _ t => t = s) s := by
  unfold unmount
  rw [wp_bind, wp_gets]
  apply wp_ite.mpr
  split
  on_goal 2 =>
    apply Query.wp_bind (query_withVfs _)
    · exact fun _ => rfl
    · exact fun _ => (wp_throw _).mpr rfl
  next hguest =>
  rw [wp_bind, wp_gets]
  apply wp_ite.mpr
  split
  · exact (wp_throw _).mpr rfl
  next hopen =>
  have hopen : hasOpenFiles path s.openFileCounts = false := Bool.not_eq_true _ ▸ hopen
  have hfiles := h.counted.no_files hopen
  rw [wp_bind, wp_gets]
  cases hremove : removeIf (fun g => decide (g.path = path)) s.guestMounts with
  | none =>
    obtain ⟨g, hg, hpath⟩ := List.any_eq_true.mp hguest
    rw [removeIf_eq_none hremove g hg] at hpath
    cases hpath
  | some removed =>
    obtain ⟨info, rest⟩ := removed
    obtain ⟨hpath, hperm⟩ := removeIf_eq_some hremove
    obtain rfl : info.path = path := of_decide_eq_true hpath
    have hinfo : info ∈ s.guestMounts := hperm.mem_iff.mpr List.mem_cons_self
    obtain ⟨t, hvfs, m, hm, hmpath, hmemory⟩ := h.guests info hinfo
    have hsame : ∀ {u}, s.vfs = some u → u = t := fun hu => Option.some.inj (hu.symm.trans hvfs)
    have hsome : s.vfs ≠ none := fun hnone => Option.some_ne_none t (hvfs.symm.trans hnone)
    obtain ⟨hreaders, -⟩ := unmountsAside_handles haside hinfo hvfs
    -- The mount of a tracked volume is in the table, so its removal does not fail.
    obtain ⟨t', hremoved⟩ := removeMount_of_mem hm hmpath
    have hout : OutOfReach s info.memory := by
      apply h.outOfReach _ hreaders
      intro u hu x hx hxmemory
      obtain rfl := hsame hu
      rw [(h.table u hu).volumes x hx m hm _ hxmemory hmemory, hmpath]
      exact hfiles
    dsimp only
    rw [wp_bind, wp_modify, wp_bind]
    apply wp_withVfs
    · exact fun hnone => absurd hnone hsome
    on_goal 2 =>
      intro _ _ _ hcontra
      cases hcontra
    intro u _ hu _
    rw [wp_bind, wp_attempt]
    apply wp_withVfsMut
    · exact fun hnone => absurd hnone hsome
    · intro v v' hv hv'
      obtain rfl := hsame hv
      apply (wp_modify _).mpr
      exact ⟨h.remove hvfs hv' hperm hfiles haside, info, hinfo, rfl, rfl, hout⟩
    · intro v e hv hv'
      obtain rfl := hsame hv
      cases hremoved.symm.trans hv'

end Mounting

/-- Before `init` nothing is mounted and nothing is open. -/
theorem sound_start : Sound State.start State.start.handles := by
  constructor
  · intro t ht
    cases ht
  · exact List.forall_mem_nil _
  · exact List.nodup_nil
  · exact List.forall_mem_nil _
  · exact ⟨List.nodup_nil, List.forall_mem_nil _,
      fun path hpos => absurd hpos (Nat.lt_irrefl 0)⟩
  · exact List.forall_mem_nil _

theorem Sound.init {s : State} (h : Sound s s.handles) (hnone : s.vfs = none) :
    Sound { s with vfs := some Table.new } s.handles := by
  have hno : ∀ t, s.vfs ≠ some t := fun t ht => Option.some_ne_none t (ht.symm.trans hnone)
  refine { h with table := fun t ht => ?_, guests := fun g hg => ?_, valid := fun handle hmem => ?_ }
  · cases ht
    exact ⟨List.nodup_nil, List.forall_mem_nil _,
      List.forall_mem_nil _⟩
  · obtain ⟨t, ht, -⟩ := h.guests g hg
    exact absurd ht (hno t)
  · refine (h.valid handle hmem).of_table fun path buffer slot heq => ?_
    subst heq
    obtain ⟨t, ht, -⟩ := h.valid _ hmem
    exact absurd ht (hno t)

/-- A user of the library drops a handle. -/
theorem drop_held_sound {s : State} {index : Nat} {handle : Handle} (h : Sound s s.handles)
    (hheld : s.held[index]? = some handle) :
    wp handle.drop (fun _ t => Sound t t.handles) (fun _ t => Sound t t.handles)
      { s with held := s.held.eraseIdx index } := by
  obtain ⟨hlt, heq⟩ := List.getElem?_eq_some_iff.mp hheld
  have hperm : s.handles.Perm (handle :: (entries s.fdTable ++ s.held.eraseIdx index)) := by
    have htaken : (handle :: s.held.eraseIdx index).Perm s.held := by
      rw [← heq]
      exact List.getElem_cons_eraseIdx_perm hlt
    exact (htaken.symm.append_left (entries s.fdTable)).trans List.perm_middle
  have hdrop := drop_sound (s := { s with held := s.held.eraseIdx index }) { h.perm hperm with }
  exact hdrop.total fun _ _ ht => ht

/-- Every command that meets the condition keeps the invariant. -/
theorem exec_sound {s : State} (c : Command) (h : Sound s s.handles)
    (horderly : Orderly c s = true) :
    wp (mountMachine.exec c) (fun _ t => Sound t t.handles) (fun _ t => Sound t t.handles) s := by
  cases c with
  | init =>
    apply wp_bind.mpr
    rw [wp_gets]
    apply wp_ite.mpr
    split
    · exact (wp_throw _).mpr h
    · next hnone => exact (wp_modify _).mpr (h.init (Option.not_isSome_iff_eq_none.mp hnone))
  | mountImage path image readonly accepted =>
    exact (mountImage_sound h horderly).stays (fun _ => h) fun _ _ ht => ht
  | createMount path size formatted => exact createMount_sound h horderly
  | unmount path =>
    exact (unmount_spec h horderly).stays (fun _ => h) fun _ _ ht => ht.1
  | «open» path flags answers =>
    apply wp_bind.mpr
    apply (vfsOpen_sound flags h).imp
    exact fun _ _ ht => (wp_pure _).mpr ht
  | read fd => exact vfsAccess_sound false fd h
  | write fd => exact vfsAccess_sound true fd h
  | close fd => exact vfsClose_sound fd h
  | openFile path options answers =>
    apply wp_bind.mpr
    refine (openFile_sound options h).stays (fun _ => h) ?_
    rintro handle t ⟨ht, hhandles⟩
    rw [← hhandles] at ht
    exact (hold_sound ht).total fun _ _ hs => hs
  | rawRegion path answers =>
    apply wp_bind.mpr
    apply wp_fileRawRegion
    · exact (wp_pure _).mpr h
    · intro t m hvfs hm
      exact (hold_sound (h.cons (fun _ => rfl) (h.valid_memory hvfs hm))).total fun _ _ hs => hs
  | drop index =>
    apply wp_bind.mpr
    rw [wp_gets]
    cases hheld : s.held[index]? with
    | none => exact (wp_pure _).mpr h
    | some handle =>
      dsimp only
      rw [wp_bind, wp_modify]
      exact drop_held_sound h hheld

/-- In every run whose commands meet the condition, released memory is out of reach, and an unmount
that meets it either releases memory that was out of reach or fails without an effect. -/
theorem unmount_releases_unused (s : State)
    (hreach : mountMachine.Reach (fun c s => Orderly c s = true) State.start s) :
    (∀ b ∈ s.released, OutOfReach s b) ∧
    ∀ path, Orderly (.unmount path) s = true →
      wp (mountMachine.exec (.unmount path))
        (fun _ t => ∃ info ∈ s.guestMounts, info.path = path ∧
          t.released = info.memory :: s.released ∧ OutOfReach s info.memory ∧
          OutOfReach t info.memory)
        (fun _ t => t = s) s := by
  have hsound : Sound s s.handles := by
    apply Machine.Reach.invariant (I := fun s => Sound s s.handles) sound_start _ hreach
    exact fun c s h _ horderly => exec_sound c h horderly
  constructor
  · exact fun b hb => hsound.released_outOfReach hb
  · intro path horderly
    apply (unmount_spec hsound horderly).imp
    rintro _ t ⟨ht, info, hinfo, hpath, hreleased, hout⟩
    refine ⟨info, hinfo, hpath, hreleased, hout, ?_⟩
    apply ht.released_outOfReach
    rw [hreleased]
    exact List.mem_cons_self

/-- The FAT library finds a file whose data lie in one piece. -/
def fileAnswers : Answers := ⟨.ok false, true, .ok ()⟩

/-- The FAT library finds nothing, and creates the file that is asked for. -/
def newAnswers : Answers := ⟨.error .notFound, false, .ok ()⟩

/-- Reading and writing, creating the file. -/
def createFlags : OpenFlags := ⟨false, oRdwr, true, false, false⟩

def readFlags : OpenFlags := ⟨false, oRdonly, false, false, false⟩

/-- A volume with a file that was written and closed. -/
def fileCommands : List Command :=
  [.init, .createMount "/v".toList minFatSize (.ok ()),
    .open "/v/f".toList createFlags newAnswers, .write vfsFdBase, .close vfsFdBase]

theorem unmount_releases_unused_of_closed :
    ∃ s, mountMachine.Reach (fun c s => Orderly c s = true) State.start s ∧
      Orderly (.unmount "/v".toList) s = true ∧
      wp (mountMachine.exec (.unmount "/v".toList))
        (fun _ t => ∃ info ∈ s.guestMounts, info.path = "/v".toList ∧
          t.released = info.memory :: s.released ∧ OutOfReach s info.memory ∧
          OutOfReach t info.memory)
        (fun _ t => t = s) s := by
  obtain ⟨s, hreach, horderly⟩ := mountMachine.exists_reach_restrict Orderly State.start
    fileCommands (Orderly (.unmount "/v".toList) · = true) (by decide +kernel)
  exact ⟨s, hreach, horderly, (unmount_releases_unused s hreach).2 _ horderly⟩

/-- An unmount of `path` succeeds although a handle leads to the memory it releases. -/
def unmountsUnderUse (path : List Char) (s : State) : Bool :=
  match mountMachine.exec (.unmount path) s with
  | .ok _ t => t.released.any fun b => s.handles.any (s.reaches (.volume b))
  | _ => false

/-- Two runs that end in the release of memory in use: a direct reader of a file is open, or a file
of another volume is open whose mount the new volume has moved out of its slot. -/
theorem unmount_releases_used :
    (∃ s, mountMachine.Reach (fun _ _ => True) State.start s ∧
      unmountsUnderUse "/v".toList s = true) ∧
    (∃ s, mountMachine.Reach (fun _ _ => True) State.start s ∧
      unmountsUnderUse "/vv".toList s = true) := by
  constructor
  · exact mountMachine.exists_reach State.start
      (fileCommands ++ [.open "/v/f".toList readFlags fileAnswers]) _ (by decide +kernel)
  · exact mountMachine.exists_reach State.start
      [.init, .createMount "/v".toList minFatSize (.ok ()),
        .open "/v/f".toList createFlags newAnswers,
        .createMount "/vv".toList minFatSize (.ok ())] _ (by decide +kernel)

end Nanvix.Vfs
