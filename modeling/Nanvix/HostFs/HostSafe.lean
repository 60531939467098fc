import Nanvix.HostFs.Host
import Nanvix.Library.Containers
import Nanvix.Library.Endings

/-!
# System calls that stay below a directory

`Host.Safe root opened` says that the way to `root` has no links, that everything
done so far was done below `root`, and that each object `opened` speaks of has no
name elsewhere. A call keeps this when the path it is given lies below `root` and
its walk cannot end anywhere else; `Lands` and `LandsLink` are that condition for
the two kinds of walks.
-/
namespace Nanvix.HostFs

open Nanvix.Library (Prog Component Placed Walk)
open Nanvix.Library.Prog
open Nanvix.Library.PathWalk

variable {root p q : Path} {opened : Nat → Prop} {h : Host}
variable {kind : Kind} {old new : Path}

namespace Host

/-- Every name of the object lies below `root`. -/
def Within (root : Path) (h : Host) (object : Nat) : Prop :=
  ∀ e ∈ h.entries, e.2.id = object → root <+: e.1

/-- The object exists or existed, and has no name elsewhere. -/
def Held (root : Path) (h : Host) (object : Nat) : Prop :=
  object < h.nextId ∧ h.Within root object

/-- All places used lie below the root, and what is open has no name elsewhere. -/
structure Safe (root : Path) (opened : Nat → Prop) (h : Host) : Prop where
  ancestors : Plain h.look root.dropLast
  positive : 0 < h.nextId ∧ ∀ e ∈ h.entries, 0 < e.2.id
  bounded : ∀ e ∈ h.entries, e.2.id < h.nextId
  apart : ∀ e ∈ h.entries, root <+: e.1 → h.Within root e.2.id
  held : ∀ object, opened object → h.Held root object
  accesses : ∀ p ∈ h.accesses, root <+: p

/-- A walk that follows links ends at `p` or nowhere. -/
def Lands (h : Host) (p : Path) : Prop := ∀ q, (h.walkTo p).EndsAt q → q = p

/-- A walk that leaves the last link alone ends at `p` or nowhere. -/
def LandsLink (h : Host) (p : Path) : Prop := ∀ q, (h.walkToLink p).EndsAt q → q = p

theorem lands_of_unlinked (hp : Unlinked h.look p) : h.Lands p :=
  fun _ hq => endsAt_walkNames hp hq

theorem landsLink_of_plain (hp : Plain h.look p.dropLast) : h.LandsLink p :=
  fun _ hq => endsAt_walkParent hp hq

section Changes

/-- A list of entries changed only in what stands at other places looks the same here. -/
theorem lookup_filterMap {g : Path × Node → Option (Path × Node)} {l : List (Path × Node)}
    (hg : ∀ e ∈ l, g e = some e ∨ e.1 ≠ p ∧ ∀ e', g e = some e' → e'.1 ≠ p) :
    (l.filterMap g).lookup p = l.lookup p := by
  induction l with
  | nil => rfl
  | cons e l ih =>
    obtain ⟨hfirst, hrest⟩ := List.forall_mem_cons.mp hg
    have ih := ih hrest
    rcases hfirst with hsame | ⟨hne, hother⟩
    · rw [List.filterMap_cons_some hsame, List.lookup_cons, List.lookup_cons, ih]
    · have hskip : (e :: l).lookup p = l.lookup p := by
        rw [List.lookup_cons, beq_eq_false_iff_ne.mpr (Ne.symm hne)]
      rw [hskip]
      cases hge : g e with
      | none => rw [List.filterMap_cons_none hge, ih]
      | some e' =>
        rw [List.filterMap_cons_some hge, List.lookup_cons,
          beq_eq_false_iff_ne.mpr (Ne.symm (hother e' hge)), ih]

theorem lookup_insert (hne : q ≠ p) : (h.insert p kind).entries.lookup q = h.entries.lookup q := by
  change ((p, _) :: h.entries).lookup q = _
  rw [List.lookup_cons, beq_eq_false_iff_ne.mpr hne]

theorem lookup_remove (hne : q ≠ p) : (h.remove p).entries.lookup q = h.entries.lookup q := by
  change (h.entries.filter _).lookup q = _
  rw [← List.filterMap_eq_filter]
  apply lookup_filterMap
  intro e _
  by_cases he : e.1 = p
  · right
    constructor
    · exact fun heq => hne (heq.symm.trans he)
    · intro e' hsome
      simp [Option.guard, he] at hsome
  · left
    simp [Option.guard, he]

theorem lookup_move (hold : ¬ old <+: q) (hnew : ¬ new <+: q) :
    (h.move old new).entries.lookup q = h.entries.lookup q := by
  change (h.entries.map _).lookup q = _
  rw [← List.filterMap_eq_map]
  apply lookup_filterMap
  intro e _
  by_cases he : old <+: e.1
  · right
    constructor
    · exact fun heq => hold (heq ▸ he)
    · intro e' hsome
      simp only [Function.comp_apply, if_pos he] at hsome
      cases hsome
      exact fun heq => hnew ⟨_, heq⟩
  · left
    simp [he]

/-- A place on the way to `root` does not lie below it. -/
theorem not_below_of_ancestor (hq : q <+: root.dropLast) (hne : q ≠ []) : ¬ root <+: q := by
  intro hroot
  have hlen := hroot.length_le.trans hq.length_le
  rw [List.length_dropLast] at hlen
  have hpos := List.length_pos_iff.mpr hne
  have hle := hq.length_le
  rw [List.length_dropLast] at hle
  omega

theorem plain_congr {h' : Host} {p : Path} (hp : Plain h.look p)
    (hsame : ∀ q, q <+: p → q ≠ [] → h'.entries.lookup q = h.entries.lookup q) :
    Plain h'.look p := by
  intro q hq hne
  have hlook : h'.look q = h.look q := congrArg _ (hsame q hq hne)
  obtain ⟨hsome, hlink⟩ := hp q hq hne
  constructor
  · rw [hlook]
    exact hsome
  · unfold isLink at hlink ⊢
    rw [hlook]
    exact hlink

end Changes

namespace Safe

theorem touch (hs : h.Safe root opened) (hp : root <+: p) : (h.touch p).Safe root opened :=
  { hs with accesses := List.forall_mem_cons.mpr ⟨hp, hs.accesses⟩ }

theorem setContents (hs : h.Safe root opened) (object : Nat) (data : Bytes) :
    (h.setContents object data).Safe root opened :=
  { hs with }

theorem held_insert {object : Nat} (hp : root <+: p)
    (ho : h.Held root object) : (h.insert p kind).Held root object :=
  ⟨ho.1.trans (Nat.lt_succ_self _), List.forall_mem_cons.mpr ⟨fun _ => hp, ho.2⟩⟩

theorem within_new (hs : h.Safe root opened) (hp : root <+: p) :
    (h.insert p kind).Held root h.nextId :=
  ⟨Nat.lt_succ_self _, List.forall_mem_cons.mpr
    ⟨fun _ => hp, fun e he heq => absurd heq (hs.bounded e he).ne⟩⟩

theorem insert (hs : h.Safe root opened) (hp : root <+: p) (kind : Kind) :
    (h.insert p kind).Safe root opened where
  ancestors := by
    apply plain_congr hs.ancestors
    intro q hq hne
    apply lookup_insert
    intro heq
    exact not_below_of_ancestor hq hne (heq ▸ hp)
  positive := ⟨Nat.succ_pos _, List.forall_mem_cons.mpr hs.positive⟩
  bounded := List.forall_mem_cons.mpr
    ⟨Nat.lt_succ_self _, fun e he => (hs.bounded e he).trans (Nat.lt_succ_self _)⟩
  apart := List.forall_mem_cons.mpr ⟨fun _ => (hs.within_new hp).2,
    fun e he hroot => (held_insert hp ⟨hs.bounded e he, hs.apart e he hroot⟩).2⟩
  held := fun object ho => held_insert hp (hs.held object ho)
  accesses := hs.accesses

/-- Objects lose their names or get new ones, and none changes sides. -/
theorem rearrange {entries : List (Path × Node)} (hs : h.Safe root opened)
    (hlook : ∀ q, ¬ root <+: q → entries.lookup q = h.entries.lookup q)
    (hentries : ∀ e ∈ entries, ∃ e₀ ∈ h.entries, e₀.2 = e.2 ∧ (root <+: e.1 ↔ root <+: e₀.1)) :
    Safe root opened { h with entries := entries } := by
  have hwithin : ∀ {object}, h.Within root object →
      ({ h with entries := entries } : Host).Within root object := by
    intro object hw e he heq
    obtain ⟨e₀, he₀, hnode, hiff⟩ := hentries e he
    rw [← hnode] at heq
    exact hiff.mpr (hw e₀ he₀ heq)
  refine ⟨?_, ⟨hs.positive.1, fun e he => ?_⟩, fun e he => ?_, fun e he hroot => ?_,
    fun object ho => ⟨(hs.held object ho).1, hwithin (hs.held object ho).2⟩, hs.accesses⟩
  · exact plain_congr hs.ancestors fun q hq hne => hlook q (not_below_of_ancestor hq hne)
  · obtain ⟨e₀, he₀, hnode, -⟩ := hentries e he
    rw [← hnode]
    exact hs.positive.2 e₀ he₀
  · obtain ⟨e₀, he₀, hnode, -⟩ := hentries e he
    rw [← hnode]
    exact hs.bounded e₀ he₀
  · obtain ⟨e₀, he₀, hnode, hiff⟩ := hentries e he
    rw [← hnode]
    exact hwithin (hs.apart e₀ he₀ (hiff.mp hroot))

theorem remove (hs : h.Safe root opened) (hp : root <+: p) : (h.remove p).Safe root opened :=
  hs.rearrange (fun _ hq => lookup_remove fun heq => hq (heq ▸ hp))
    fun e he => ⟨e, List.mem_of_mem_filter he, rfl, Iff.rfl⟩

theorem move (hs : h.Safe root opened) (hold : root <+: old) (hnew : root <+: new) :
    (h.move old new).Safe root opened := by
  refine hs.rearrange (fun q hq => ?_) fun e he => ?_
  · exact lookup_move (fun hpre => hq (hold.trans hpre)) fun hpre => hq (hnew.trans hpre)
  · obtain ⟨e₀, he₀, rfl⟩ := List.mem_map.mp he
    refine ⟨e₀, he₀, ?_⟩
    split
    · rename_i hmoved
      exact ⟨rfl, iff_of_true (hnew.trans (List.prefix_append _ _)) (hold.trans hmoved)⟩
    · exact ⟨rfl, Iff.rfl⟩

/-- What stands at a place below `root` may be opened. -/
theorem held_nodeAt (hs : h.Safe root opened) (hp : root <+: p) : h.Held root (h.nodeAt p).id := by
  unfold nodeAt
  cases hlook : h.entries.lookup p with
  | none =>
    constructor
    · exact hs.positive.1
    · intro e he hzero
      exact absurd hzero (hs.positive.2 e he).ne'
  | some node =>
    have hmem := Library.mem_of_lookup hlook
    exact ⟨hs.bounded _ hmem, hs.apart _ hmem hp⟩

end Safe
end Host

namespace Sys
variable {A : String → Prop}

@[simp] theorem ends_touch {Q : Unit → Host → Prop} {E : IoError → Host → Prop} :
    ends (touch p) Q E A h ↔ Q () (h.touch p) := ends_modify _

section Walks
variable {α : Type} {walk : Host → Path → Walk Name} {f : Path → Prog Host IoError α}
variable {Q : α → Host → Prop} {E : IoError → Host → Prop}

/-- A call that needs an object finds the one its walk cannot miss, or fails. -/
theorem ends_existing (hl : ∀ q, (walk h p).EndsAt q → q = p) (hf : ends (f p) Q E A h)
    (hE : ∀ e, E e h) : ends (existing walk p >>= f) Q E A h := by
  simp only [existing, ends_bind, ends_gets]
  cases hw : walk h p with
  | found q =>
    obtain rfl := hl q (.inl hw)
    exact (ends_pure _).mpr hf
  | missing q | failed e => exact (ends_throw _).mpr (hE _)

/-- A call that needs a free name gets the one its walk cannot miss, or fails. -/
theorem ends_vacant (hl : ∀ q, (walk h p).EndsAt q → q = p) (hf : ends (f p) Q E A h)
    (hE : ∀ e, E e h) : ends (vacant walk p >>= f) Q E A h := by
  simp only [vacant, ends_bind, ends_gets]
  cases hw : walk h p with
  | missing q =>
    obtain rfl := hl q (.inr hw)
    exact (ends_pure _).mpr hf
  | found q | failed e => exact (ends_throw _).mpr (hE _)

end Walks

/-- The call leaves a safe host, whether it returns or fails. -/
def KeepsSafe {α : Type} (root : Path) (opened : Nat → Prop) (x : Prog Host IoError α)
    (h : Host) : Prop :=
  ends x (fun _ h' => h'.Safe root opened) (fun _ h' => h'.Safe root opened) (fun _ => True) h

/-- A path is still reached by a plain way after an object was put at its end. -/
theorem lands_insert (hl : Plain h.look p.dropLast) :
    ((h.touch p).insert p .directory).Lands p := by
  apply Host.lands_of_unlinked
  apply unlinked_of_plain
  · apply Host.plain_congr hl
    intro q hq hne
    apply Host.lookup_insert
    rintro rfl
    exact Host.not_below_of_ancestor hq hne List.prefix_rfl
  · simp [isLink, Host.look, Host.insert, Kind.placed, Placed.isLink]

section Calls
variable (hs : h.Safe root opened) (hp : root <+: p)
include hs hp

theorem metadata_safe (hl : h.Lands p) :
    ends (metadata p) (fun _ h' => h' = h.touch p ∧ h'.Safe root opened) (fun _ h' => h' = h)
      (fun _ => True) h := by
  refine ends_existing hl ?_ fun _ => rfl
  simp only [ends_bind, ends_touch, ends_gets]
  exact ⟨trivial, hs.touch hp⟩

theorem symlinkMetadata_safe (hl : h.LandsLink p) :
    ends (symlinkMetadata p) (fun _ h' => h' = h.touch p ∧ h'.Safe root opened)
      (fun _ h' => h' = h) (fun _ => True) h := by
  refine ends_existing hl ?_ fun _ => rfl
  simp only [ends_bind, ends_touch, ends_gets]
  exact ⟨trivial, hs.touch hp⟩

theorem setPermissions_safe (hl : h.Lands p) : KeepsSafe root opened (setPermissions p) h := by
  apply ends_existing hl _ fun _ => hs
  rw [ends_touch]
  exact hs.touch hp

theorem createDir_safe (hl : Plain h.look p.dropLast) :
    ends (createDir p) (fun _ h' => h'.Safe root opened ∧ h'.Lands p)
      (fun _ h' => h'.Safe root opened) (fun _ => True) h := by
  apply ends_vacant (Host.landsLink_of_plain hl) _ fun _ => hs
  simp only [ends_bind, ends_touch, ends_modify]
  exact ⟨(hs.touch hp).insert hp .directory, lands_insert hl⟩

theorem removeDir_safe (hl : h.LandsLink p) : KeepsSafe root opened (removeDir p) h := by
  apply ends_existing hl _ fun _ => hs
  split
  · exact (ends_throw _).mpr hs
  · simp only [ends_bind, ends_gets]
    cases (h.nodeAt p).kind with
    | directory =>
      simp only [ends_bind, ends_gets, ends_ite, ends_touch, ends_modify, ends_throw]
      split
      · exact (hs.touch hp).remove hp
      · exact hs
    | file | link target => exact (ends_throw _).mpr hs

theorem removeFile_safe (hl : h.LandsLink p) : KeepsSafe root opened (removeFile p) h := by
  apply ends_existing hl _ fun _ => hs
  rw [ends_bind, ends_gets]
  cases (h.nodeAt p).kind with
  | directory => exact (ends_throw _).mpr hs
  | file | link target =>
    simp only [ends_bind, ends_touch, ends_modify]
    exact (hs.touch hp).remove hp

theorem createSymlink_safe (target : List Char) (hl : h.LandsLink p) :
    KeepsSafe root opened (createSymlink target p) h := by
  apply ends_vacant hl _ fun _ => hs
  simp only [ends_bind, ends_touch, ends_modify]
  exact (hs.touch hp).insert hp (.link target)

theorem readLink_safe (hl : h.LandsLink p) : KeepsSafe root opened (readLink p) h := by
  apply ends_existing hl _ fun _ => hs
  rw [ends_bind, ends_gets]
  cases (h.nodeAt p).kind with
  | directory | file => exact (ends_throw _).mpr hs
  | link target =>
    simp only [ends_bind, ends_touch, ends_pure]
    exact hs.touch hp

/-- A rename within the root keeps the host safe. -/
theorem rename_safe (hq : root <+: q) (hlp : h.LandsLink p) (hlq : h.LandsLink q) :
    KeepsSafe root opened (rename p q) h := by
  apply ends_existing hlp _ fun _ => hs
  split
  · exact (ends_throw _).mpr hs
  · simp only [ends_bind, ends_gets]
    cases hw : h.walkToLink q with
    | failed e => exact (ends_throw _).mpr hs
    | missing q' =>
      obtain rfl := hlq q' (.inr hw)
      simp only [ends_ite, ends_bind, ends_touch, ends_modify, ends_throw]
      split
      · exact hs
      · exact ((hs.touch hp).touch hq).move hp hq
    | found q' =>
      obtain rfl := hlq q' (.inl hw)
      simp only [ends_ite, ends_bind, ends_gets, ends_touch, ends_modify, ends_throw]
      split_ifs
      · exact (hs.touch hp).touch hq
      · exact hs
      · exact hs
      · cases replaceable (h.nodeAt p).kind (h.nodeAt q').kind (h.children q').isEmpty with
        | ok _ =>
          rw [ends_ofExcept_ok]
          exact (((hs.touch hp).touch hq).remove hq).move hp hq
        | error e =>
          rw [ends_ofExcept_error]
          exact hs

/-- An opened file may be held open. -/
theorem openFile_safe (o : OpenOptions) (hl : h.Lands p) :
    ends (openFile o p) (fun f h' => h'.Safe root opened ∧ h'.Held root f.object)
      (fun _ h' => h'.Safe root opened) (fun _ => True) h := by
  simp only [openFile, ends_ite, ends_bind, ends_gets, ends_throw]
  split
  · cases hw : h.walkTo p with
    | failed e => exact (ends_throw _).mpr hs
    | missing q =>
      obtain rfl := hl q (.inr hw)
      simp only [ends_ite, ends_bind, ends_touch, ends_modify, ends_gets, ends_pure, ends_throw]
      split
      · have hsafe := (hs.touch hp).insert hp .file
        exact ⟨hsafe, hsafe.held_nodeAt hp⟩
      · exact hs
    | found q =>
      obtain rfl := hl q (.inl hw)
      have hheld := hs.held_nodeAt hp
      have htouch := hs.touch hp
      simp only [ends_ite, ends_bind, ends_touch, ends_modify, ends_gets, ends_pure, ends_throw]
      split_ifs
      · exact hs
      · exact ⟨htouch.setContents _ _, hheld⟩
      · exact ⟨htouch, hheld⟩
  · exact hs

theorem readDir_safe (hl : h.Lands p) : KeepsSafe root opened (readDir p) h := by
  apply ends_existing hl _ fun _ => hs
  rw [ends_bind, ends_gets]
  cases (h.nodeAt p).kind with
  | directory =>
    simp only [ends_bind, ends_touch, ends_gets]
    have hloop := ends_forEach (E := fun _ h' => h'.Safe root opened) (A := fun _ => True)
      (fun _ h' => h'.Safe root opened)
      (fun name names h' hsafe => ends_touch.mpr
        (Host.Safe.touch hsafe (hp.trans (List.prefix_append p [name]))))
      ((h.touch p).children p) (hs.touch hp)
    exact hloop
  | file | link target => exact (ends_throw _).mpr hs

end Calls

section Files
variable {f : File} (hs : h.Safe root opened) (hf : opened f.object)
include hs hf

theorem touchFile_safe : KeepsSafe root opened (touchFile f) h := by
  simp only [KeepsSafe, touchFile, ends_bind, ends_gets]
  cases hplace : h.placeOf f.object with
  | none => exact (ends_pure _).mpr hs
  | some p =>
    obtain ⟨e, he, rfl⟩ := Option.map_eq_some_iff.mp hplace
    rw [ends_touch]
    apply hs.touch
    apply (hs.held f.object hf).2 e (List.mem_of_find?_eq_some he)
    have hid := List.find?_some he
    exact eq_of_beq hid

theorem readFile_safe (position count : Nat) :
    KeepsSafe root opened (readFile f position count) h := by
  simp only [KeepsSafe, readFile, ends_ite, ends_bind, ends_gets, ends_throw]
  split
  · exact touchFile_safe hs hf
  · exact hs

theorem fileLength_safe : KeepsSafe root opened (fileLength f) h := by
  simp only [KeepsSafe, fileLength, ends_bind, ends_gets]
  exact touchFile_safe hs hf

theorem writeFile_safe (position : Nat) (data : Bytes) :
    KeepsSafe root opened (writeFile f position data) h := by
  simp only [KeepsSafe, writeFile, ends_ite, ends_bind, ends_gets, ends_modify, ends_pure,
    ends_throw]
  split
  · apply (touchFile_safe hs hf).imp
    intro _ h' hsafe
    exact hsafe.setContents _ _
  · exact hs

theorem setLen_safe (length : Nat) : KeepsSafe root opened (setLen f length) h := by
  simp only [KeepsSafe, setLen, ends_ite, ends_bind, ends_gets, ends_modify, ends_throw]
  split
  · apply (touchFile_safe hs hf).imp
    intro _ h' hsafe
    exact hsafe.setContents _ _
  · exact hs

end Files
end Sys
end Nanvix.HostFs
