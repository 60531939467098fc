import Nanvix.Dlfcn.Loading

/-!
# What a load adds to the registry

After the names of the requested library are bound as far as their libraries are
loaded, the others are opened one after another. The batch of new libraries has
the requested one, whose names lead to old libraries or to the batch, and the
others, whose names lead to old libraries or to those opened before them.
-/
namespace Nanvix.Dlfcn

open Nanvix.Library Nanvix.Library.Prog Registry State

variable {x : String × DlHandle} {h : DlHandle} {lib : DynamicLibrary}

/-- The names for which no library is loaded. -/
def missingNames (w : World) (known : List (DlHandle × String)) (names : List String) :
    List String :=
  names.filter fun n => ((lookUp w n known).map Prod.fst).isNone

/-- Each name needed by a library that is opened for one of these names leads to a library below
the requested one that is right for the name, as far as the images can be opened. -/
def visits (w : World) (r : DlHandle) (ok : String → String → Bool) :
    List String → List (DlHandle × String) → Bool
  | [], _ => true
  | m :: rest, known =>
    match w.image (resolveLibraryPath w m) with
    | .error _ => true
    | .ok libraries =>
      ((dependencyNames libraries).all fun n =>
        (lookBelow w r n known).any fun e => ok n e.2) &&
      visits w r ok rest
        (mapInsert (w.freshHandle (known.map Prod.fst)) (resolveLibraryPath w m) known)

/-- The requested library, once the libraries `news` were opened for its names. -/
def requested (w : World) (s₀ : State) (path : String) (libraries : List String)
    (news : List (String × DlHandle)) : DynamicLibrary where
  name := path
  needed := dependencyNames libraries
  bound n :=
    if n ∈ dependencyNames libraries then
      (news.lookup n).or ((lookUp w n s₀.registry.index).map Prod.fst)
    else none

/-- The libraries opened for these names, the last one first: each one's names lead to old
libraries or to those opened before it. -/
def Chained (w : World) (s₀ : State) (reg : Registry) : List (String × DlHandle) → Prop
  | [] => True
  | (m, h) :: older =>
    (∃ lib libraries, (h, lib) ∈ reg ∧ lib.name = resolveLibraryPath w m ∧
      w.image (resolveLibraryPath w m) = .ok libraries ∧
      lib.needed = dependencyNames libraries ∧
      ∀ n ∈ lib.needed, ∃ d, lib.bound n = some d ∧
        (d ∈ s₀.handles ∨ d ∈ older.map Prod.snd)) ∧
    Chained w s₀ reg older

/-- The registry holds the old libraries, the requested one and those opened for its names. -/
structure Batch (w : World) (s₀ : State) (r : DlHandle) (path : String) (libraries : List String)
    (news : List (String × DlHandle)) (s : State) : Prop where
  sorted : s.handles.Pairwise (· < ·)
  kept : s.registry.filter (·.1 ∈ s₀.handles) = s₀.registry
  fresh : r ∉ s₀.handles
  root : (r, requested w s₀ path libraries news) ∈ s.registry
  apart : ∀ x ∈ news, x.2 ∉ s₀.handles ∧ x.2 ≠ r
  distinct : (news.map Prod.snd).Nodup
  only : ∀ e ∈ s.registry, e.1 ∈ s₀.handles ∨ e.1 = r ∨ e.1 ∈ news.map Prod.snd
  chained : Chained w s₀ s.registry news

/-- The names of the library at a handle lead to libraries that are right for them. -/
def Agrees (ok : String → String → Bool) (reg : Registry) (h : DlHandle) : Prop :=
  ∀ lib, (h, lib) ∈ reg → ∀ n ∈ lib.needed,
    ∃ d name, lib.bound n = some d ∧ (d, name) ∈ reg.index ∧ ok n name = true

/-- What is known of everything a library is bound to. -/
theorem DynamicLibrary.of_mem_dependencyHandles {P : DlHandle → Prop} {d : DlHandle}
    (hbound : ∀ n ∈ lib.needed, ∃ d, lib.bound n = some d ∧ P d)
    (hd : d ∈ lib.dependencyHandles) : P d := by
  obtain ⟨n, hn, hnd⟩ := List.mem_filterMap.mp hd
  obtain ⟨d', hd', hP⟩ := hbound n hn
  cases hd'.symm.trans hnd
  exact hP

section Chained
variable {w : World} {s₀ : State} {reg reg' : Registry} {news : List (String × DlHandle)}

theorem Chained.mono (h : Chained w s₀ reg news)
    (hkeep : ∀ x ∈ news, ∀ lib, (x.2, lib) ∈ reg → (x.2, lib) ∈ reg') : Chained w s₀ reg' news := by
  induction news with
  | nil => exact trivial
  | cons x news ih =>
    obtain ⟨⟨lib, libraries, hlib, hrest⟩, holder⟩ := h
    exact ⟨⟨lib, libraries, hkeep x List.mem_cons_self lib hlib, hrest⟩,
      ih holder fun y hy => hkeep y (List.mem_cons_of_mem _ hy)⟩

/-- What is known of one of the new libraries. -/
theorem Chained.of_mem (h : Chained w s₀ reg news) (hx : x ∈ news) :
    ∃ lib libraries, (x.2, lib) ∈ reg ∧ lib.name = resolveLibraryPath w x.1 ∧
      w.image (resolveLibraryPath w x.1) = .ok libraries ∧
      lib.needed = dependencyNames libraries ∧
      ∀ n ∈ lib.needed, ∃ d, lib.bound n = some d ∧
        (d ∈ s₀.handles ∨ d ∈ news.map Prod.snd) := by
  induction news with
  | nil => cases hx
  | cons y news ih =>
    have hearlier := (List.mem_cons.mp hx).elim (fun heq => heq ▸ h.1) (ih h.2)
    obtain ⟨lib, libraries, hlib, hname, himage, hneeded, hbound⟩ := hearlier
    refine ⟨lib, libraries, hlib, hname, himage, hneeded, fun n hn => ?_⟩
    obtain ⟨d, hd, hwhere⟩ := hbound n hn
    exact ⟨d, hd, hwhere.imp_right (List.mem_cons_of_mem _)⟩

/-- As long as some of the new libraries are not placed, one of them waits for placed ones only. -/
theorem Chained.exists_ready (h : Chained w s₀ reg news) {placed : List DlHandle}
    (hleft : ∃ x ∈ news, x.2 ∉ placed) :
    ∃ x ∈ news, x.2 ∉ placed ∧ ∃ lib, (x.2, lib) ∈ reg ∧
      ∀ d ∈ lib.dependencyHandles, d ∈ s₀.handles ∨ d ∈ placed := by
  induction news with
  | nil =>
    obtain ⟨x, hx, -⟩ := hleft
    cases hx
  | cons y news ih =>
    obtain ⟨⟨lib, libraries, hlib, hname, himage, hneeded, hbound⟩, holder⟩ := h
    by_cases hold : ∃ x ∈ news, x.2 ∉ placed
    · obtain ⟨x, hx, hrest⟩ := ih holder hold
      exact ⟨x, List.mem_cons_of_mem _ hx, hrest⟩
    · have hy := ((List.exists_mem_cons_iff _ _ _).mp hleft).resolve_right hold
      simp only [not_exists, not_and, not_not] at hold
      refine ⟨y, List.mem_cons_self, hy, lib, hlib, ?_⟩
      intro d hd
      apply (DynamicLibrary.of_mem_dependencyHandles hbound hd).imp_right
      intro hmem
      obtain ⟨x, hx, rfl⟩ := List.mem_map.mp hmem
      exact hold x hx

end Chained

section Batch
variable {w : World} {s₀ s : State} {r : DlHandle} {path : String} {libraries : List String}
variable {news : List (String × DlHandle)}

theorem Batch.nodup (h : Batch w s₀ r path libraries news s) : s.handles.Nodup :=
  h.sorted.imp Nat.ne_of_lt

theorem Batch.old_mem (h : Batch w s₀ r path libraries news s) {e : DlHandle × DynamicLibrary}
    (he : e ∈ s₀.registry) : e ∈ s.registry := by
  rw [← h.kept] at he
  exact (List.mem_filter.mp he).1

theorem Batch.mem_handles (h : Batch w s₀ r path libraries news s) {d : DlHandle}
    (hd : d ∈ s₀.handles ∨ d ∈ news.map Prod.snd) : d ∈ s.handles := by
  rcases hd with hd | hd
  · obtain ⟨e, he, rfl⟩ := List.mem_map.mp hd
    exact List.mem_map_of_mem (h.old_mem he)
  · obtain ⟨x, hx, rfl⟩ := List.mem_map.mp hd
    obtain ⟨lib, -, hlib, -⟩ := h.chained.of_mem hx
    exact List.mem_map.mpr ⟨(x.2, lib), hlib, rfl⟩

/-- An entry is an old one, the requested library or one opened for a name. -/
theorem Batch.mem_cases (hb : Batch w s₀ r path libraries news s) {e : DlHandle × DynamicLibrary}
    (he : e ∈ s.registry) : e ∈ s₀.registry ∨ e = (r, requested w s₀ path libraries news) ∨
      ∃ x ∈ news, e.1 = x.2 ∧ e.2.name = resolveLibraryPath w x.1 ∧
        ∀ d ∈ e.2.dependencyHandles, d ∈ s₀.handles ∨ d ∈ news.map Prod.snd := by
  obtain ⟨h, lib⟩ := e
  rcases hb.only _ he with hold | rfl | hnew
  · left
    rw [← hb.kept]
    exact List.mem_filter.mpr ⟨he, decide_eq_true hold⟩
  · exact Or.inr (Or.inl (by rw [eq_of_mem hb.nodup he hb.root]))
  · obtain ⟨x, hx, rfl⟩ := List.mem_map.mp hnew
    obtain ⟨own, -, hown, hname, -, -, hbound⟩ := hb.chained.of_mem hx
    obtain rfl := eq_of_mem hb.nodup hown he
    exact Or.inr (Or.inr ⟨x, hx, rfl, hname,
      fun d hd => DynamicLibrary.of_mem_dependencyHandles hbound hd⟩)

theorem requested_bound {n : String} (hn : n ∈ dependencyNames libraries) :
    (requested w s₀ path libraries news).bound n =
      (news.lookup n).or ((lookUp w n s₀.registry.index).map Prod.fst) :=
  if_pos hn

/-- Opening a library for a name binds the name. -/
theorem requested_bind {m : String} (hm : m ∈ dependencyNames libraries) :
    (requested w s₀ path libraries news).bind m h =
      requested w s₀ path libraries ((m, h) :: news) := by
  unfold DynamicLibrary.bind requested
  refine congrArg (fun b : String → Option DlHandle =>
    (⟨path, dependencyNames libraries, b⟩ : DynamicLibrary)) ?_
  funext x
  by_cases hx : x = m
  · subst hx
    simp [hm]
  · have hfalse : (x == m) = false := beq_eq_false_iff_ne.mpr hx
    simp [hx, List.lookup_cons, hfalse]

theorem boundBelow_bound {known : List (DlHandle × String)} {n : String}
    (hn : n ∈ dependencyNames libraries) :
    (boundBelow w r path libraries known).bound n = (lookBelow w r n known).map Prod.fst :=
  if_pos hn

/-- One more library joins the batch. -/
theorem Batch.cons (hb : Batch w s₀ r path libraries news s) {m : String} {images : List String}
    (hm : m ∈ dependencyNames libraries) (himage : w.image (resolveLibraryPath w m) = .ok images)
    (hfound : ∀ n ∈ dependencyNames images, (lookBelow w r n s.registry.index).isSome) :
    Batch w s₀ r path libraries ((m, w.freshHandle s.handles) :: news)
      (s.withDependency r m (w.freshHandle s.handles)
        (boundBelow w r (resolveLibraryPath w m) images s.registry.index)) := by
  have hfresh := w.freshHandle_notMem s.handles
  have hold : ∀ h ∈ s₀.handles, h ∈ s.handles := fun h hh => hb.mem_handles (Or.inl hh)
  have hnew : ∀ h ∈ news.map Prod.snd, h ∈ s.handles := fun h hh => hb.mem_handles (Or.inr hh)
  constructor
  case sorted => exact sorted_withDependency hb.sorted
  case kept =>
    have hout : w.freshHandle s.handles ∉ s₀.handles := fun h => hfresh (hold _ h)
    rw [withDependency, filter_mapInsert _ (decide_eq_false hout)]
    · conv_rhs => rw [← hb.kept]
      rw [update, List.filter_map]
      conv_rhs => rw [← List.map_id (s.registry.filter (·.1 ∈ s₀.handles))]
      apply List.map_congr_left
      intro e he
      have hin : e.1 ∈ s₀.handles := of_decide_eq_true (List.mem_filter.mp he).2
      have hne : e.1 ≠ r := fun heq => hb.fresh (heq ▸ hin)
      rw [if_neg hne, id]
    · intro e he heq
      obtain ⟨lib, hlib, -⟩ := of_mem_update he
      exact freshHandle_ne w hlib heq
  case fresh => exact hb.fresh
  case root =>
    rw [← requested_bind hm]
    exact mem_withDependency_root hfresh hb.root
  case apart =>
    exact List.forall_mem_cons.mpr
      ⟨⟨fun h => hfresh (hold _ h), (freshHandle_ne w hb.root).symm⟩, hb.apart⟩
  case distinct =>
    rw [List.map_cons, List.nodup_cons]
    exact ⟨fun h => hfresh (hnew _ h), hb.distinct⟩
  case only =>
    intro e he
    rcases List.mem_cons.mp ((perm_withDependency hfresh).mem_iff.mp he) with rfl | he
    · exact Or.inr (Or.inr List.mem_cons_self)
    · obtain ⟨lib, hlib, -⟩ := of_mem_update he
      exact (hb.only _ hlib).imp_right (Or.imp_right (List.mem_cons_of_mem _))
  case chained =>
    constructor
    · refine ⟨_, images, mem_withDependency_self hfresh, rfl, himage, rfl, ?_⟩
      intro n hn
      obtain ⟨e, he⟩ := Option.isSome_iff_exists.mp (hfound n hn)
      have hmem := List.mem_filter.mp (List.mem_of_find?_eq_some he)
      have hlt : e.1 < r := of_decide_eq_true hmem.2
      obtain ⟨lib, hlib, -⟩ := mem_index hmem.1
      refine ⟨e.1, ?_, ?_⟩
      · rw [boundBelow_bound hn, he]
        rfl
      · rcases hb.only _ hlib with h | h | h
        · exact Or.inl h
        · exact absurd h (Nat.ne_of_lt hlt)
        · exact Or.inr h
    · apply hb.chained.mono
      intro x hx lib hlib
      exact mem_withDependency_of_ne hfresh hlib (hb.apart x hx).2

section Agrees
variable {m : String} {images : List String} {ok : String → String → Bool}

theorem mem_index_withDependency {e : DlHandle × String} (hfresh : h ∉ s.handles) :
    e ∈ (s.withDependency r m h lib).registry.index ↔ e = (h, lib.name) ∨ e ∈ s.registry.index := by
  rw [index_withDependency]
  have hnew : h ∉ s.registry.index.map Prod.fst := map_fst_index ▸ hfresh
  exact (perm_mapInsert (ne_of_notMem_keys hnew)).mem_iff.trans List.mem_cons

section
variable (hb : Batch w s₀ r path libraries news s)
include hb

/-- A library that joins the batch does not change where the names of the others lead. -/
theorem Batch.agrees_older (hx : x ∈ news) :
    Agrees ok (s.withDependency r m (w.freshHandle s.handles) lib).registry x.2 ↔
      Agrees ok s.registry x.2 := by
  have hfresh := w.freshHandle_notMem s.handles
  obtain ⟨own, -, hown, -, -, -, hbound⟩ := hb.chained.of_mem hx
  have hne : x.2 ≠ r := (hb.apart x hx).2
  constructor
  · intro h own' hown' n hn
    obtain ⟨d, name, hd, hname, hok⟩ :=
      h own' (mem_withDependency_of_ne hfresh hown' hne) n hn
    refine ⟨d, name, hd, ?_, hok⟩
    rcases (mem_index_withDependency hfresh).mp hname with heq | hmem
    · obtain rfl := eq_of_mem hb.nodup hown hown'
      obtain ⟨d', hd', hwhere⟩ := hbound n hn
      cases hd'.symm.trans hd
      obtain ⟨rfl, -⟩ := Prod.mk.inj heq
      exact absurd (hb.mem_handles hwhere) hfresh
    · exact hmem
  · intro h own' hown' n hn
    have hstill : (x.2, own') ∈ s.registry := by
      rcases List.mem_cons.mp ((perm_withDependency hfresh).mem_iff.mp hown') with heq | hmem
      · exact absurd (Prod.mk.inj heq).1 (freshHandle_ne w hown)
      · obtain ⟨lib', hlib', heq⟩ := of_mem_update hmem
        rw [if_neg hne] at heq
        cases heq
        exact hlib'
    obtain ⟨d, name, hd, hname, hok⟩ := h own' hstill n hn
    exact ⟨d, name, hd, (mem_index_withDependency hfresh).mpr (Or.inr hname), hok⟩

/-- The names of the new library lead where the scan found them. -/
theorem Batch.agrees_new : Agrees ok (s.withDependency r m (w.freshHandle s.handles)
        (boundBelow w r (resolveLibraryPath w m) images s.registry.index)).registry
        (w.freshHandle s.handles) ↔
      ((dependencyNames images).all fun n =>
        (lookBelow w r n s.registry.index).any fun e => ok n e.2) = true := by
  have hfresh := w.freshHandle_notMem s.handles
  have hself (lib : DynamicLibrary) : (w.freshHandle s.handles, lib) ∈
      (s.withDependency r m (w.freshHandle s.handles) lib).registry :=
    mem_withDependency_self hfresh
  have hnodup (lib : DynamicLibrary) :
      (s.withDependency r m (w.freshHandle s.handles) lib).handles.Nodup :=
    (sorted_withDependency hb.sorted).imp Nat.ne_of_lt
  rw [List.all_eq_true]
  constructor
  · intro h n hn
    obtain ⟨d, name, hd, hname, hok⟩ := h _ (hself _) n hn
    rw [boundBelow_bound hn] at hd
    obtain ⟨e, he, rfl⟩ := Option.map_eq_some_iff.mp hd
    have hmem := (List.mem_filter.mp (List.mem_of_find?_eq_some he)).1
    have hsame : e.2 = name :=
      eq_of_mem (map_fst_index ▸ hnodup _) ((mem_index_withDependency hfresh).mpr (Or.inr hmem))
        hname
    rw [he, Option.any_some, hsame]
    exact hok
  · intro h lib hlib n hn
    obtain rfl := eq_of_mem (hnodup _) hlib (hself _)
    obtain ⟨e, he, hok⟩ := (Option.any_eq_true _ _).mp (h n hn)
    have hmem := (List.mem_filter.mp (List.mem_of_find?_eq_some he)).1
    refine ⟨e.1, e.2, ?_, (mem_index_withDependency hfresh).mpr (Or.inr hmem), hok⟩
    rw [boundBelow_bound hn, he]
    rfl

/-- Every name of the batch leads somewhere. -/
theorem Batch.agrees_true (hx : x ∈ news) : Agrees (fun _ _ => true) s.registry x.2 := by
  intro lib hlib n hn
  obtain ⟨own, -, hown, -, -, -, hbound⟩ := hb.chained.of_mem hx
  obtain rfl := eq_of_mem hb.nodup hown hlib
  obtain ⟨d, hd, hwhere⟩ := hbound n hn
  obtain ⟨e, he, rfl⟩ := List.mem_map.mp (hb.mem_handles hwhere)
  exact ⟨e.1, e.2.name, hd, mem_index_of_mem he, rfl⟩

end

end Agrees

end Batch

section Load
variable {w : World} {s₀ s : State} {r : DlHandle} {path : String} {libraries : List String}
variable {todo : List String}

/-- The state of the loop over the missing names: some of them are loaded, and what is asked of the
whole loop is asked of the loaded ones and of the rest. -/
def LoadingTo (w : World) (s₀ : State) (r : DlHandle) (path : String) (libraries : List String)
    (todo : List String) (known : List (DlHandle × String)) (rest : List String) (s : State) :
    Prop :=
  s.pinned = s₀.pinned ∧ s.relocated = s₀.relocated ∧
  ∃ news, Batch w s₀ r path libraries news s ∧ todo = (news.map Prod.fst).reverse ++ rest ∧
    ∀ ok, visits w r ok todo known = true ↔
      (∀ x ∈ news, Agrees ok s.registry x.2) ∧ visits w r ok rest s.registry.index = true

/-- The loop over the missing names. -/
theorem loadMissing_ends (depth : Nat) (hb : Batch w s₀ r path libraries [] s)
    (hpinned : s.pinned = s₀.pinned) (hrelocated : s.relocated = s₀.relocated) (htodo : todo.Nodup)
    (hmissing : ∀ m ∈ todo, m ∈ dependencyNames libraries ∧
      lookUp w m s₀.registry.index = none) :
    ends (forEach (fun m => do
        let h ← addDependency w r m
        loadAllDependencies w (depth + 1) (h :: [r]) h) todo)
      (fun _ t => LoadingTo w s₀ r path libraries todo s.registry.index [] t)
      (fun _ t => visits w r (fun _ _ => true) todo s.registry.index = true ∧
        t.registry.filter (·.1 ∈ s₀.handles) = s₀.registry ∧ t.pinned = s₀.pinned ∧
        t.relocated = s₀.relocated ∧ ∃ m ∈ todo, ∃ e, w.image (resolveLibraryPath w m) = .error e)
      (fun _ => visits w r (fun _ _ => true) todo s.registry.index = false) s := by
  apply ends_forEach (LoadingTo w s₀ r path libraries todo s.registry.index)
  · rintro m rest t ⟨hpin, hrel, news, hnews, hsplit, hvisits⟩
    have hmem : m ∈ todo := by
      rw [hsplit]
      exact List.mem_append_right _ List.mem_cons_self
    obtain ⟨hneeded, hlook⟩ := hmissing m hmem
    have hnot : m ∉ news.map Prod.fst := by
      rw [hsplit, List.nodup_append] at htodo
      intro h
      exact htodo.2.2 m (List.mem_reverse.mpr h) m List.mem_cons_self rfl
    have hunbound : (requested w s₀ path libraries news).bound m = none := by
      have hnone : news.lookup m = none := by
        rw [List.lookup_eq_none_iff]
        intro x hx
        exact bne_iff_ne.mpr fun heq => hnot (List.mem_map.mpr ⟨x, hx, heq.symm⟩)
      rw [requested_bound hneeded, hnone, hlook]
      rfl
    have htrue : ∀ x ∈ news, Agrees (fun _ _ => true) t.registry x.2 :=
      fun x hx => hnews.agrees_true hx
    have hindexHandles : t.registry.index.map Prod.fst = t.handles := map_fst_index
    apply (loadDependency_ends depth hnews.sorted hnews.root hneeded hunbound).mono
    · rintro _ u ⟨images, himage, hfound, rfl⟩
      refine ⟨hpin, hrel, (m, w.freshHandle t.handles) :: news,
        hnews.cons hneeded himage hfound, ?_, ?_⟩
      · rw [hsplit, List.map_cons, List.reverse_cons, List.append_assoc]
        rfl
      · intro ok
        rw [hvisits ok, visits, himage]
        simp only [Bool.and_eq_true, List.forall_mem_cons]
        rw [hnews.agrees_new, index_withDependency, hindexHandles]
        constructor
        · rintro ⟨holder, hnew, hrest⟩
          exact ⟨⟨hnew, fun x hx => (hnews.agrees_older hx).mpr (holder x hx)⟩, hrest⟩
        · rintro ⟨⟨hnew, holder⟩, hrest⟩
          exact ⟨fun x hx => (hnews.agrees_older hx).mp (holder x hx), hnew, hrest⟩
    · rintro e u ⟨rfl, e', himage⟩
      refine ⟨?_, hnews.kept, hpin, hrel, m, hmem, e', himage⟩
      rw [hvisits]
      exact ⟨htrue, by rw [visits, himage]⟩
    · rintro msg ⟨images, himage, hnotfound⟩
      apply Bool.eq_false_iff.mpr
      intro h
      have hrest := ((hvisits _).mp h).2
      rw [visits, himage] at hrest
      simp only [Bool.and_eq_true, List.all_eq_true] at hrest
      apply hnotfound
      intro n hn
      obtain ⟨e, he, -⟩ := (Option.any_eq_true _ _).mp (hrest.1 n hn)
      exact Option.isSome_iff_exists.mpr ⟨e, he⟩
  · refine ⟨hpinned, hrelocated, [], hb, rfl, ?_⟩
    intro ok
    exact ⟨fun h => ⟨List.forall_mem_nil _, h⟩, fun h => h.2⟩

/-- The registry with the requested library, before anything else is loaded. -/
theorem batch_nil (hsorted : s₀.handles.Pairwise (· < ·)) (hfresh : r ∉ s₀.handles) :
    Batch w s₀ r path libraries []
      { s₀ with
        registry := mapInsert r (requested w s₀ path libraries []) s₀.registry } := by
  have hne := ne_of_notMem_keys hfresh
  constructor
  case sorted => exact pairwise_mapInsert hsorted
  case kept =>
    rw [filter_mapInsert hne (decide_eq_false hfresh)]
    apply List.filter_eq_self.mpr
    intro e he
    exact decide_eq_true (List.mem_map_of_mem he)
  case fresh => exact hfresh
  case root => exact (perm_mapInsert hne).mem_iff.mpr List.mem_cons_self
  case apart => exact List.forall_mem_nil _
  case distinct => exact List.nodup_nil
  case only =>
    intro e he
    rcases mem_mapInsert he with rfl | he
    · exact Or.inr (Or.inl rfl)
    · exact Or.inl (List.mem_map_of_mem he)
  case chained => exact trivial

/-- Loading everything the requested library needs: two levels of the recursion are enough. -/
theorem loadAllDependencies_ends (depth : Nat) (hsorted : s₀.handles.Pairwise (· < ·))
    (hfresh : r ∉ s₀.handles)
    (htodo : todo = (missingNames w s₀.registry.index (dependencyNames libraries)).reverse) :
    ends (loadAllDependencies w (depth + 2) [r] r)
      (fun _ t => LoadingTo w s₀ r path libraries todo (mapInsert r path s₀.registry.index) [] t)
      (fun _ t => visits w r (fun _ _ => true) todo (mapInsert r path s₀.registry.index) = true ∧
        t.registry.filter (·.1 ∈ s₀.handles) = s₀.registry ∧ t.pinned = s₀.pinned ∧
        t.relocated = s₀.relocated ∧ ∃ m ∈ todo, ∃ e, w.image (resolveLibraryPath w m) = .error e)
      (fun _ => visits w r (fun _ _ => true) todo (mapInsert r path s₀.registry.index) = false)
      { s₀ with
        registry := mapInsert r ⟨path, dependencyNames libraries, fun _ => none⟩
          s₀.registry } := by
  obtain ⟨s₁, hs₁⟩ : ∃ s₁ : State, s₁ = { s₀ with
    registry := mapInsert r ⟨path, dependencyNames libraries, fun _ => none⟩ s₀.registry } :=
    ⟨_, rfl⟩
  have hnodup : s₁.handles.Nodup := by
    rw [hs₁]
    exact (pairwise_mapInsert hsorted).imp Nat.ne_of_lt
  have hself : (r, (⟨path, dependencyNames libraries, fun _ => none⟩ : DynamicLibrary)) ∈
      s₁.registry := by
    rw [hs₁]
    exact (perm_mapInsert (ne_of_notMem_keys hfresh)).mem_iff.mpr List.mem_cons_self
  have hothers : s₁.registry.index.filter (·.1 ≠ r) = s₀.registry.index := by
    rw [hs₁, index_mapInsert]
    exact filter_ne_mapInsert (map_fst_index ▸ hfresh)
  rw [← hs₁]
  unfold loadAllDependencies
  rw [ends_bind, ends_gets, lookup_of_mem hnodup hself, ends_bind]
  apply (bindLoaded_ends (fun n => (lookUp w n s₀.registry.index).map Prod.fst) (fun _ => True)
    hnodup hself (fun n hn => hn) (fun n hn => rfl) (dependencyNames_nodup libraries) ?_).mono
  · rintro missing t ⟨-, rfl, ht⟩
    have hstate : t = { s₀ with
        registry := mapInsert r (requested w s₀ path libraries []) s₀.registry } := by
      rw [ht, hs₁, bindAll]
      refine congrArg (fun reg : Registry => { s₀ with registry := reg }) ?_
      exact update_mapInsert_self hfresh
    have hindex : t.registry.index = mapInsert r path s₀.registry.index := by
      rw [hstate, index_mapInsert]
      rfl
    have hb : Batch w s₀ r path libraries [] t := hstate ▸ batch_nil hsorted hfresh
    rw [← hindex]
    rw [htodo]
    apply loadMissing_ends depth hb (by rw [hstate]) (by rw [hstate])
    · exact List.nodup_reverse.mpr ((dependencyNames_nodup libraries).filter _)
    · intro m hm
      obtain ⟨hmem, hnone⟩ := List.mem_filter.mp (List.mem_reverse.mp hm)
      exact ⟨hmem, Option.map_eq_none_iff.mp (Option.isNone_iff_eq_none.mp hnone)⟩
  · exact fun _ _ h => h.elim
  · exact fun _ h => absurd (fun n hn => trivial) h
  · intro n hn t ht
    apply (findLoaded_root_ends t.registry).mono
    · rintro found u ⟨hu, hfound⟩
      refine ⟨hu, trivial, ?_⟩
      rw [hfound, ht, hothers, lookUp]
    · exact fun _ _ h => h
    · exact fun _ h => h.elim

end Load

end Nanvix.Dlfcn
