import Mathlib.Data.List.Infix

/-!
# Walking a path through a tree with symbolic links

A tree is given by what stands at each place, a place being the list of names on
the way down from the top. A walk starts at a place and takes the components of a
path text one by one. When it meets a symbolic link it goes on with the link's
text in front of what is left, and it may do so only a limited number of times.

A place is plain when it can be reached without passing a link. Every place a
walk finds is plain, and walking the names of a plain place ends at that place.

## Implementation notes

The recursion is on the limit and, for each limit, on the components, so that
walks can be evaluated.
-/
namespace Nanvix.Library

/-- What stands between two separators of a path text. -/
inductive Component (ν : Type) where
  | current
  | parent
  | normal (name : ν)
deriving DecidableEq

/-- A path text: where it starts and its components. -/
structure PathText (ν : Type) where
  absolute : Bool
  components : List (Component ν)

/-- What may stand at a place of a tree. -/
inductive Placed (ν : Type) where
  | directory
  | file
  | link (target : PathText ν)

def Placed.isDirectory {ν : Type} : Placed ν → Bool
  | .directory => true
  | .file => false
  | .link _ => false

def Placed.isLink {ν : Type} : Placed ν → Bool
  | .directory => false
  | .file => false
  | .link _ => true

/-- Why a walk stops before its end. -/
inductive WalkError where
  | notFound
  | notDirectory
  | loop

/-- Where a walk ends: at a place, at a free name in a directory, or nowhere. -/
inductive Walk (ν : Type) where
  | found (place : List ν)
  | missing (place : List ν)
  | failed (error : WalkError)

/-- The walk ends at a place or at a free name, and that is `p`. -/
def Walk.EndsAt {ν : Type} (w : Walk ν) (p : List ν) : Prop := w = .found p ∨ w = .missing p

namespace PathWalk
variable {ν : Type} (look : List ν → Option (Placed ν))

/-- The top of the tree is a directory, whatever `look` says about it. -/
def isDirectory (p : List ν) : Bool := p.isEmpty || (look p).any Placed.isDirectory

def isLink (p : List ν) : Bool := !p.isEmpty && (look p).any Placed.isLink

/-- One stretch of a walk; `follow` goes on behind a link. -/
def walkWith (follow : List ν → List (Component ν) → Walk ν) :
    List ν → List (Component ν) → Walk ν
  | place, [] => .found place
  | place, c :: rest =>
    if isDirectory look place then
      match c with
      | .current => walkWith follow place rest
      | .parent => walkWith follow place.dropLast rest
      | .normal name =>
        match look (place ++ [name]) with
        | none => if rest.isEmpty then .missing (place ++ [name]) else .failed .notFound
        | some (.link target) =>
          follow (if target.absolute then [] else place) (target.components ++ rest)
        | some _ => walkWith follow (place ++ [name]) rest
    else .failed .notDirectory

/-- The walk that may follow at most `limit` links. -/
def walk : Nat → List ν → List (Component ν) → Walk ν
  | 0 => walkWith look fun _ _ => .failed .loop
  | limit + 1 => walkWith look (walk limit)

/-- The walk along the names of a place, every link followed. -/
def walkNames (limit : Nat) (p : List ν) : Walk ν := walk look limit [] (p.map .normal)

/-- The walk along the names of a place that does not follow a link at its end. -/
def walkParent (limit : Nat) (p : List ν) : Walk ν :=
  match p.getLast? with
  | none => .found []
  | some name =>
    match walkNames look limit p.dropLast with
    | .found place =>
      if isDirectory look place then
        if (look (place ++ [name])).isSome then .found (place ++ [name])
        else .missing (place ++ [name])
      else .failed .notDirectory
    | .missing _ => .failed .notFound
    | .failed e => .failed e

/-- No link stands on the way to a place or at the place itself. -/
def Unlinked (p : List ν) : Prop := ∀ q, q <+: p → isLink look q = false

/-- Every place on the way is there, and none of them is a link. -/
def Plain (p : List ν) : Prop :=
  ∀ q, q <+: p → q ≠ [] → (look q).isSome = true ∧ isLink look q = false

variable {look}

theorem Plain.ancestor {p q : List ν} (h : Plain look p) (hq : q <+: p) : Plain look q :=
  fun r hr hne => h r (hr.trans hq) hne

theorem Plain.nil : Plain look [] := by
  intro q hq hne
  exact absurd (List.prefix_nil.mp hq) hne

variable {p : List ν} {name : ν}

theorem isLink_of_look {entry : Placed ν}
    (h : look (p ++ [name]) = some entry) : isLink look (p ++ [name]) = entry.isLink := by
  simp [isLink, h]

theorem Plain.append (h : Plain look p)
    (hsome : (look (p ++ [name])).isSome = true) (hlink : isLink look (p ++ [name]) = false) :
    Plain look (p ++ [name]) := by
  intro q hq hne
  rcases List.prefix_concat_iff.mp hq with rfl | hq
  · exact ⟨hsome, hlink⟩
  · exact h q hq hne

theorem Plain.unlinked (h : Plain look p) : Unlinked look p := by
  intro q hq
  cases q with
  | nil => rfl
  | cons x q => exact (h (x :: q) hq (List.cons_ne_nil x q)).2

/-- A place whose directory is plain is free of links when it is not a link itself. -/
theorem unlinked_of_plain (h : Plain look p.dropLast)
    (hlink : isLink look p = false) : Unlinked look p := by
  intro q hq
  cases hp : p.getLast? with
  | none =>
    rw [List.getLast?_eq_none_iff] at hp
    subst hp
    rw [List.prefix_nil.mp hq]
    exact hlink
  | some name =>
    rw [← List.dropLast_append_getLast? name hp] at hq hlink
    rcases List.prefix_concat_iff.mp hq with rfl | hq
    · exact hlink
    · exact h.unlinked q hq

variable {follow : List ν → List (Component ν) → Walk ν} {limit : Nat}

section Found

theorem plain_of_walkWith
    (hfollow : ∀ place cs p, Plain look place → follow place cs = .found p → Plain look p)
    {cs : List (Component ν)} {place p : List ν} (h : Plain look place)
    (hw : walkWith look follow place cs = .found p) : Plain look p := by
  induction cs generalizing place with
  | nil =>
    cases hw
    exact h
  | cons c rest ih =>
    unfold walkWith at hw
    split at hw
    · cases c with
      | current => exact ih h hw
      | parent => exact ih (h.ancestor (List.dropLast_prefix place)) hw
      | normal name =>
        simp only at hw
        split at hw
        · split at hw <;> cases hw
        · refine hfollow _ _ p ?_ hw
          split
          · exact Plain.nil
          · exact h
        · rename_i entry hnot hlook
          apply ih (h.append _ _) hw
          · rw [hlook]
            rfl
          · rw [isLink_of_look hlook]
            cases entry with
            | directory | file => rfl
            | link target => exact absurd rfl (hnot target)
    · cases hw

/-- What a walk finds is plain. -/
theorem plain_of_walk {cs : List (Component ν)} {place p : List ν}
    (h : Plain look place) (hw : walk look limit place cs = .found p) : Plain look p := by
  induction limit generalizing place cs p with
  | zero =>
    apply plain_of_walkWith _ h hw
    intro _ _ _ _ hfail
    cases hfail
  | succ limit ih =>
    apply plain_of_walkWith _ h hw
    intro _ _ _ hplace hrest
    exact ih hplace hrest

end Found

section Along

theorem endsAt_walkWith {place names q : List ν} (h : Unlinked look (place ++ names))
    (hw : (walkWith look follow place (names.map .normal)).EndsAt q) : q = place ++ names := by
  induction names generalizing place with
  | nil =>
    rcases hw with hw | hw
    · rw [List.append_nil]
      exact (Walk.found.inj hw).symm
    · cases hw
  | cons name names ih =>
    rw [List.map_cons] at hw
    unfold walkWith at hw
    rw [List.append_cons] at h ⊢
    split at hw
    · simp only at hw
      split at hw
      · split at hw
        · rename_i hempty
          rw [List.isEmpty_iff, List.map_eq_nil_iff] at hempty
          subst hempty
          rw [List.append_nil]
          rcases hw with hw | hw
          · cases hw
          · cases hw
            rfl
        · rcases hw with hw | hw <;> cases hw
      · rename_i target hlook
        have hfree := h (place ++ [name]) (List.prefix_append _ _)
        rw [isLink_of_look hlook] at hfree
        cases hfree
      · exact ih h hw
    · rcases hw with hw | hw <;> cases hw

/-- Walking the names of a place free of links ends there or nowhere. -/
theorem endsAt_walkNames {p q : List ν} (h : Unlinked look p)
    (hw : (walkNames look limit p).EndsAt q) : q = p := by
  unfold walkNames at hw
  cases limit <;> exact endsAt_walkWith h hw

/-- Walking to a place whose directory is plain ends there or nowhere. -/
theorem endsAt_walkParent {p q : List ν} (h : Plain look p.dropLast)
    (hw : (walkParent look limit p).EndsAt q) : q = p := by
  unfold walkParent at hw
  cases hp : p.getLast? with
  | none =>
    simp only [hp] at hw
    rw [List.getLast?_eq_none_iff.mp hp]
    rcases hw with hw | hw <;> cases hw
    rfl
  | some name =>
    simp only [hp] at hw
    split at hw
    · rename_i place hplace
      have heq := endsAt_walkNames h.unlinked (.inl hplace)
      subst heq
      rw [List.dropLast_append_getLast? name hp] at hw
      split at hw
      · split at hw <;> rcases hw with hw | hw <;> cases hw <;> rfl
      · rcases hw with hw | hw <;> cases hw
    · rcases hw with hw | hw <;> cases hw
    · rcases hw with hw | hw <;> cases hw

end Along
end PathWalk
end Nanvix.Library
