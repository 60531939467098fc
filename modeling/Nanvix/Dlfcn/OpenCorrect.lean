import Nanvix.Dlfcn.Open

/-!
# When `dlopen` is right

A call is right exactly if the library is loaded already, or no scan on behalf
of a dependency comes to the requested library, which is locked, and, unless the
call fails for another reason, no two missing names have one path and every name
is found by its path.
-/
namespace Nanvix.Dlfcn

open Nanvix.Library Nanvix.Library.Prog Relation

variable {h : DlHandle} {lib : DynamicLibrary}

section Opened
variable {w : World} {s t : State} {path : String} {libraries : List String}
variable {news : List (String × DlHandle)} {ordered : List DlHandle}

/-- What stands before an element that occurs once is at a smaller position. -/
theorem idxOf_lt_of_split {l₁ l₂ : List DlHandle} {d : DlHandle} (hd : d ∈ l₁) (hh : h ∉ l₁) :
    (l₁ ++ h :: l₂).idxOf d < (l₁ ++ h :: l₂).idxOf h := by
  rw [List.idxOf_append_of_mem hd, List.idxOf_append_of_notMem hh, List.idxOf_cons_self,
    Nat.add_zero]
  exact List.idxOf_lt_length_of_mem hd

theorem Ready.mem_relocated {e : DlHandle × DynamicLibrary} (hr : Ready w s e) :
    e.1 ∈ s.relocated :=
  List.count_pos_iff.mp (hr.once ▸ Nat.one_pos)

section
variable (hs : Consistent w s) (ho : Opened w s path libraries news ordered t)
include hs ho

/-- A new library is in place: what it is bound to was relocated before it. -/
theorem Opened.placed (hh : h ∈ newHandles s t) (hlib : (h, lib) ∈ t.registry) :
    t.relocated.count h = 1 ∧
      ∀ d ∈ lib.dependencyHandles, t.relocated.idxOf d < t.relocated.idxOf h := by
  have hnodup : ordered.Nodup := ho.perm.nodup_iff.mpr (ho.batch.nodup.filter _)
  have hnew : h ∉ s.relocated := by
    intro hmem
    have hout := (List.mem_filter.mp hh).2
    exact (of_decide_eq_true hout) (hs.relocated h hmem)
  have hmem : h ∈ ordered := ho.perm.mem_iff.mpr hh
  constructor
  · rw [ho.relocated, List.count_append, List.count_eq_zero_of_not_mem hnew,
      List.count_eq_one_of_mem hnodup hmem]
  · intro d hd
    obtain ⟨l₁, l₂, hsplit⟩ := List.append_of_mem hmem
    have hturn := ho.inTurn l₁ h l₂ hsplit
    rw [ho.relocated, hsplit, ← List.append_assoc]
    apply idxOf_lt_of_split
    · rcases (settled_iff ho.batch.nodup hlib).mp hturn d hd with hold | hbefore
      · obtain ⟨e, he, rfl⟩ := List.mem_map.mp hold
        exact List.mem_append_left _ (hs.ready e he).mem_relocated
      · exact List.mem_append_right _ hbefore
    · rw [hsplit, List.nodup_append] at hnodup
      rw [List.mem_append, not_or]
      exact ⟨hnew, fun hl => hnodup.2.2 h hl h List.mem_cons_self rfl⟩

/-- The old libraries are as ready as before. -/
theorem Opened.ready_old {e : DlHandle × DynamicLibrary} (he : e ∈ s.registry) : Ready w t e := by
  have hr := hs.ready e he
  have hmem := hr.mem_relocated
  constructor
  · obtain ⟨images, himage, hbound⟩ := hr.bound
    refine ⟨images, himage, ?_⟩
    intro n hn
    obtain ⟨d, hd, hrest⟩ := hbound n hn
    exact ⟨d, ho.batch.old_mem hd, hrest⟩
  · have hout : e.1 ∉ ordered := by
      intro hin
      have hnew := (List.mem_filter.mp (ho.perm.mem_iff.mp hin)).2
      exact (of_decide_eq_true hnew) (List.mem_map_of_mem he)
    rw [ho.relocated, List.count_append, hr.once, List.count_eq_zero_of_not_mem hout]
  · intro hacyclic d hd
    have hlt := hr.inOrder hacyclic d hd
    have hdmem : d ∈ s.relocated :=
      List.idxOf_lt_length_iff.mp (Nat.lt_trans hlt (List.idxOf_lt_length_of_mem hmem))
    rw [ho.relocated, List.idxOf_append_of_mem hdmem, List.idxOf_append_of_mem hmem]
    exact hlt

/-- If no library was mistaken, the requested library is ready. -/
theorem Opened.ready_root (hfound : ∀ n ∈ libraries, ∀ e, lookUp w n s.registry.index = some e →
      e.2 = resolveLibraryPath w n) :
    Ready w t (w.freshHandle s.handles, requested w s path libraries news) := by
  have hplaced := ho.placed hs (ho.batch.mem_newHandles.mpr (Or.inl rfl)) ho.batch.root
  refine ⟨⟨libraries, ho.image, ?_⟩, hplaced.1, fun _ => hplaced.2⟩
  intro n hn
  have hbound : (requested w s path libraries news).bound n =
      (news.lookup n).or ((lookUp w n s.registry.index).map Prod.fst) :=
    requested_bound (mem_dependencyNames.mpr hn)
  cases hlook : lookUp w n s.registry.index with
  | some e =>
    rw [ho.lookup_eq_none hlook, hlook] at hbound
    obtain ⟨lib, hlib, hname⟩ := Registry.mem_index (List.mem_of_find?_eq_some hlook)
    exact ⟨(e.1, lib), ho.batch.old_mem hlib, hbound, hname.trans (hfound n hn e hlook)⟩
  | none =>
    -- The name was missing, so a library was opened for it.
    obtain ⟨h, hx⟩ := ho.mem_names.mp (Dlfcn.mem_toLoad.mpr ⟨hn, hlook⟩)
    obtain ⟨h', hnew, hx'⟩ := Library.exists_lookup_of_mem hx
    rw [hnew] at hbound
    obtain ⟨lib, -, hlib, hname, -⟩ := ho.batch.chained.of_mem hx'
    exact ⟨(h', lib), hlib, hbound, hname⟩

/-- If no library was mistaken, the others of the batch are ready. -/
theorem Opened.ready_new
    (hagrees : ∀ x ∈ news, Agrees (fun n name => name = resolveLibraryPath w n) t.registry x.2)
    {x : String × DlHandle} (hx : x ∈ news)
    (hlib : (x.2, lib) ∈ t.registry) : Ready w t (x.2, lib) := by
  have hplaced := ho.placed hs
    (ho.batch.mem_newHandles.mpr (Or.inr (List.mem_map_of_mem hx))) hlib
  obtain ⟨own, images, hown, hname, himage, hneeded, -⟩ := ho.batch.chained.of_mem hx
  obtain rfl := eq_of_mem ho.batch.nodup hown hlib
  refine ⟨⟨images, hname ▸ himage, ?_⟩, hplaced.1, fun _ => hplaced.2⟩
  intro n hn
  obtain ⟨d, name, hd, hindex, hright⟩ :=
    hagrees x hx own hlib n (by rw [hneeded, mem_dependencyNames]; exact hn)
  obtain ⟨dlib, hdlib, rfl⟩ := Registry.mem_index hindex
  exact ⟨(d, dlib), hdlib, hd, of_decide_eq_true hright⟩

/-- If no library was mistaken, the registry is one of loaded libraries again. -/
theorem Opened.consistent (hnot : ∀ e ∈ s.registry, e.2.name ≠ path)
    (hclear : unambiguous w s path libraries = true) : Consistent w t := by
  have hb := ho.batch
  rw [unambiguous, Bool.and_eq_true, Bool.and_eq_true, decide_eq_true_eq, List.nodup_cons] at hclear
  obtain ⟨⟨⟨hpath, hnames⟩, hfound⟩, hvisits⟩ := hclear
  have hagrees := (ho.visits _).mp hvisits
  have hfound' : ∀ n ∈ libraries, ∀ e, lookUp w n s.registry.index = some e →
      e.2 = resolveLibraryPath w n := by
    intro n hn e he
    have hall := List.all_eq_true.mp hfound n hn
    rw [he] at hall
    exact of_decide_eq_true hall
  have holdName : ∀ e ∈ s.registry, ∀ m ∈ toLoad w s libraries,
      e.2.name ≠ resolveLibraryPath w m := by
    intro e he m hm heq
    have hnone := List.find?_eq_none.mp (Dlfcn.mem_toLoad.mp hm).2 _
      (Registry.mem_index_of_mem he)
    apply hnone
    rw [answersTo, Bool.or_eq_true]
    exact Or.inr (decide_eq_true heq)
  constructor
  case sorted => exact hb.sorted
  case ready =>
    intro e he
    rcases hb.mem_cases he with hold | rfl | ⟨x, hx, hhandle, -⟩
    · exact ho.ready_old hs hold
    · exact ho.ready_root hs hfound'
    · obtain ⟨h, lib⟩ := e
      cases hhandle
      exact ho.ready_new hs hagrees hx he
  case unique =>
    intro e he e' he' hsame
    rcases hb.mem_cases he with hold | rfl | ⟨x, hx, hxh, hxn, -⟩
    · rcases hb.mem_cases he' with hold' | rfl | ⟨x', hx', hxh', hxn', -⟩
      · exact hs.unique e hold e' hold' hsame
      · exact absurd hsame.symm (hnot e hold)
      · exact absurd (hsame.symm.trans hxn') (holdName e hold _ (ho.mem_toLoad hx'))
    · rcases hb.mem_cases he' with hold' | rfl | ⟨x', hx', hxh', hxn', -⟩
      · exact absurd hsame (hnot e' hold')
      · rfl
      · exact absurd (List.mem_map.mpr ⟨x'.1, ho.mem_toLoad hx', hxn'.symm.trans hsame⟩) hpath
    · rcases hb.mem_cases he' with hold' | rfl | ⟨x', hx', hxh', hxn', -⟩
      · exact absurd (hsame.trans hxn) (holdName e' hold' _ (ho.mem_toLoad hx))
      · exact absurd (List.mem_map.mpr ⟨x.1, ho.mem_toLoad hx, (hsame.trans hxn).symm⟩) hpath
      · -- Two names with one path are one name, and it was opened once.
        have hname : x'.1 = x.1 := by
          apply List.inj_on_of_nodup_map hnames (ho.mem_toLoad hx') (ho.mem_toLoad hx)
          rw [← hxn', hsame, hxn]
        have hkeys : (news.map Prod.fst).Nodup := by
          rw [← List.nodup_reverse, ← ho.names]
          exact toLoad_nodup
        have hentry := List.inj_on_of_nodup_map hkeys hx' hx hname
        obtain ⟨h, lib⟩ := e
        obtain ⟨h', lib'⟩ := e'
        cases hxh
        cases hxh'
        cases hentry
        rw [eq_of_mem hb.nodup he he']
  case relocated =>
    intro h hh
    rw [ho.relocated, List.mem_append] at hh
    rcases hh with hold | hnew
    · exact hb.mem_handles (Or.inl (hs.relocated h hold))
    · exact (List.mem_filter.mp (ho.perm.mem_iff.mp hnew)).1

end

end Opened

section Correct
variable {w : World} {s t : State} {path : String}

/-- In a registry of loaded libraries everything a library needs is there. -/
theorem Consistent.correct (ht : Consistent w t)
    (hlib : (h, lib) ∈ t.registry) (hname : lib.name = path) :
    Correct w s path (.ok h t) := by
  refine ⟨⟨lib, hlib, hname⟩, ?_⟩
  intro p hp
  have hthere : ∃ e ∈ t.registry, e.2.name = p := by
    induction hp with
    | refl => exact ⟨_, hlib, hname⟩
    | tail _ hneeds ih =>
      obtain ⟨e, he, rfl⟩ := ih
      obtain ⟨libraries, himage, n, hn, rfl⟩ := hneeds
      obtain ⟨images, himage', hbound⟩ := (ht.ready e he).bound
      cases himage.symm.trans himage'
      obtain ⟨d, hd, -, hdname⟩ := hbound n hn
      exact ⟨d, hd, hdname⟩
  obtain ⟨e, he, rfl⟩ := hthere
  exact ⟨e, he, rfl, fun e' he' => ht.unique e he e' he', ht.ready e he⟩

end Correct

/-- From a registry of loaded libraries, a call of `dlopen` is right if and only if the library is
loadable. -/
theorem dlopen_correct_iff (w : World) (s : State) (hs : Consistent w s) (depth : Nat)
    (filename : String) (global : Bool) :
    Correct w s (resolveLibraryPath w filename) (dlopen w (depth + 2) filename global s) ↔
      Loadable w s (resolveLibraryPath w filename) := by
  have hends : ends (dlopen w (depth + 2) filename global)
      (fun h t => Correct w s (resolveLibraryPath w filename) (.ok h t) ↔
        Loadable w s (resolveLibraryPath w filename))
      (fun _ t => t.registry = s.registry ∧ Loadable w s (resolveLibraryPath w filename))
      (fun _ => ¬ Loadable w s (resolveLibraryPath w filename)) s := by
    unfold dlopen
    simp only [ends_bind, ends_gets]
    cases hfind : s.registry.find? fun e => e.2.name = resolveLibraryPath w filename with
    | some e =>
      have hmem := List.mem_of_find?_eq_some hfind
      have hname : e.2.name = resolveLibraryPath w filename := by
        simpa using List.find?_some hfind
      apply (finishOpen_wp e.1).ends.mono (A := fun _ => False)
      · rintro h ⟨reg, pinned, relocated⟩ ⟨rfl, hreg, hrel, -⟩
        obtain rfl : reg = s.registry := hreg
        obtain rfl : relocated = s.relocated := hrel
        have ht : Consistent w { s with pinned := pinned } :=
          { hs with ready := fun e he => { hs.ready e he with } }
        exact iff_of_true (ht.correct hmem hname) (Or.inl ⟨e, hmem, hname⟩)
      · exact fun _ _ h => h.elim
      · exact fun _ h => h.elim
    | none =>
      have hnot : ∀ e ∈ s.registry, e.2.name ≠ resolveLibraryPath w filename :=
        fun e he heq => List.find?_eq_none.mp hfind e he (decide_eq_true heq)
      apply (loadLibrary_ends depth hs.sorted).mono
      · rintro h t ⟨rfl, ⟨libraries, news, ordered, ho⟩, -⟩
        constructor
        · intro hcorrect
          right
          intro images himage
          rw [ho.image] at himage
          cases himage
          exact ⟨ho.sheltered, Or.inr (ho.unambiguous_of_ready hcorrect.2)⟩
        · rintro (⟨e, he, heq⟩ | hload)
          · exact absurd heq (hnot e he)
          · rcases (hload libraries ho.image).2 with hfails | hclear
            · exact absurd hfails (Bool.eq_false_iff.mp ho.not_fails)
            · exact (ho.consistent hs hnot hclear).correct ho.batch.root rfl
      · rintro e t ⟨hreg, hwhy⟩
        refine ⟨hreg, Or.inr ?_⟩
        intro libraries himage
        rcases hwhy with ⟨e', he'⟩ | ⟨images, himage', hshelter, hfails⟩
        · cases himage.symm.trans he'
        · cases himage.symm.trans himage'
          exact ⟨hshelter, Or.inl hfails⟩
      · rintro m ⟨libraries, himage, hopen⟩ (⟨e, he, heq⟩ | hload)
        · exact absurd heq (hnot e he)
        · have hshelter := (hload libraries himage).1
          cases hopen.symm.trans hshelter
  cases hrun : dlopen w (depth + 2) filename global s with
  | ok h t => exact hends.of_ok hrun
  | err e t => exact iff_of_true (hends.of_err hrun).1 (hends.of_err hrun).2
  | abort m => exact iff_of_false id (hends.of_abort hrun)

section Runs

/-- A world with these libraries and the names they need. -/
def libraryWorld (files : List (String × List String)) : World where
  isFile path := files.any fun f => f.1 = path
  image path :=
    match files.lookup path with
    | some libraries => .ok libraries
    | none => .error ⟨.noSuchEntry, "no such file"⟩
  freshHandle used := used.foldr max 2 + 1
  freshHandle_notMem used hmem := by
    have hle : ∀ l : List DlHandle, ∀ h ∈ l, h ≤ l.foldr max 2 := by
      intro l
      induction l with
      | nil => exact List.forall_mem_nil _
      | cons k l ih =>
        exact List.forall_mem_cons.mpr
          ⟨Nat.le_max_left _ _, fun h hh => Nat.le_trans (ih h hh) (Nat.le_max_right _ _)⟩
    exact Nat.not_succ_le_self _ (hle used _ hmem)
  relocate _ := .ok ()

/-- A library, one it needs, and one that this one needs. -/
def chainOfThree : World :=
  libraryWorld [("lib/liba.so", ["libb.so"]), ("lib/libb.so", ["libc.so"]), ("lib/libc.so", [])]

/-- A library that names another one twice. -/
def namedTwice : World :=
  libraryWorld [("lib/liba.so", ["libb.so", "./lib/libb.so"]), ("lib/libb.so", [])]

/-- A library that needs two others. -/
def twoNeeded : World :=
  libraryWorld [("lib/liba.so", ["libb.so", "libc.so"]), ("lib/libb.so", []), ("lib/libc.so", [])]

theorem consistent_empty (w : World) : Consistent w {} where
  sorted := List.Pairwise.nil
  ready _ he := absurd he List.not_mem_nil
  unique _ he := absurd he List.not_mem_nil
  relocated _ hh := absurd hh List.not_mem_nil

theorem Correct.returns {w : World} {s : State} {path : String}
    {outcome : Outcome State Error DlHandle} (h : Correct w s path outcome) :
    outcome.final.isSome = true := by
  cases outcome with
  | ok h t | err e t => rfl
  | abort m => exact h.elim

/-- In a fresh registry a chain of three libraries leaves the call waiting for its own lock, and a
library that is named twice is loaded twice. -/
theorem dlopen_incorrect :
    (Consistent chainOfThree {} ∧
      ¬ Correct chainOfThree {} "lib/liba.so" (dlopen chainOfThree 2 "liba.so" false {})) ∧
    (Consistent namedTwice {} ∧
      ¬ Correct namedTwice {} "lib/liba.so" (dlopen namedTwice 2 "liba.so" false {})) := by
  constructor
  · refine ⟨consistent_empty _, fun h => ?_⟩
    have hwaits : (dlopen chainOfThree 2 "liba.so" false {}).final.isSome = false := by
      decide +kernel
    rw [h.returns] at hwaits
    cases hwaits
  · refine ⟨consistent_empty _, fun h => ?_⟩
    have htwice : (dlopen namedTwice 2 "liba.so" false {}).returns (fun t =>
        t.registry.any fun e => t.registry.any fun e' =>
          e.2.name = "lib/libb.so" ∧ e'.2.name = "lib/libb.so" ∧ e.1 ≠ e'.1) = true := by
      decide +kernel
    obtain ⟨h', t, hrun, htest⟩ := Outcome.of_returns htwice
    rw [hrun] at h
    have hneeds : Needs namedTwice "lib/liba.so" "lib/libb.so" :=
      ⟨["libb.so", "./lib/libb.so"], rfl, "libb.so", List.mem_cons_self, by decide +kernel⟩
    obtain ⟨e, -, -, honly, -⟩ := h.2 _ (.single hneeds)
    obtain ⟨e₁, he₁, htest⟩ := List.any_eq_true.mp htest
    obtain ⟨e₂, he₂, htest⟩ := List.any_eq_true.mp htest
    obtain ⟨hn₁, hn₂, hne⟩ := of_decide_eq_true htest
    exact hne (by rw [honly e₁ he₁ hn₁, honly e₂ he₂ hn₂])

/-- A library with two missing dependencies that need nothing themselves is loaded. -/
theorem dlopen_correct_twoNeeded :
    Consistent twoNeeded {} ∧
      Correct twoNeeded {} (resolveLibraryPath twoNeeded "liba.so")
        (dlopen twoNeeded 2 "liba.so" true {}) := by
  refine ⟨consistent_empty _, ?_⟩
  apply (dlopen_correct_iff twoNeeded {} (consistent_empty _) 0 "liba.so" true).mpr
  right
  intro libraries himage
  have himage' : twoNeeded.image (resolveLibraryPath twoNeeded "liba.so") =
      .ok ["libb.so", "libc.so"] := by
    decide +kernel
  cases himage'.symm.trans himage
  exact ⟨by decide +kernel, Or.inr (by decide +kernel)⟩

end Runs

end Nanvix.Dlfcn
