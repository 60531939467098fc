import Nanvix.Dlfcn.Batch
import Nanvix.Library.Passes

/-!
# The order of relocations

The new libraries are put in order by passes over the batch. A library of the
batch waits for older ones of it only, so every pass places one, and the
requested library comes last. The relocations are processed in that order.
-/
namespace Nanvix.Dlfcn

open Nanvix.Library Nanvix.Library.Prog

/-- The dependencies of the library at a handle were there before or have their place. -/
def settled (before : List DlHandle) (reg : Registry) (h : DlHandle) (placed : List DlHandle) :
    Bool :=
  ((reg.lookup h).elim [] DynamicLibrary.dependencyHandles).all fun d => d ∈ before || d ∈ placed

section Order
variable {before new placed : List DlHandle} {reg : Registry}

theorem settled_mono {h : DlHandle} {placed' : List DlHandle}
    (hs : settled before reg h placed = true) (hsub : placed ⊆ placed') :
    settled before reg h placed' = true := by
  simp only [settled, List.all_eq_true, Bool.or_eq_true, decide_eq_true_eq] at hs ⊢
  exact fun d hd => (hs d hd).imp_right fun h => hsub h

theorem settled_iff {h : DlHandle} {lib : DynamicLibrary} (hnodup : (reg.map Prod.fst).Nodup)
    (hlib : (h, lib) ∈ reg) : settled before reg h placed = true ↔
      ∀ d ∈ lib.dependencyHandles, d ∈ before ∨ d ∈ placed := by
  simp only [settled, lookup_of_mem hnodup hlib, Option.elim_some, List.all_eq_true,
    Bool.or_eq_true, decide_eq_true_eq]

/-- No library of the list is bound to itself. -/
def Loopless (reg : Registry) (new : List DlHandle) : Prop :=
  ∀ h ∈ new, ∃ lib, reg.lookup h = some lib ∧ h ∉ lib.dependencyHandles

theorem orderPass_eq (hnew : Loopless reg new) :
    orderPass before reg new placed = pure (pass (settled before reg) new placed) := by
  induction new generalizing placed with
  | nil => rfl
  | cons h rest ih =>
    obtain ⟨⟨lib, hlib, hloop⟩, hrest⟩ := List.forall_mem_cons.mp hnew
    have hsettled : settled before reg h placed =
        lib.dependencyHandles.all fun d => d ∈ before || d ∈ placed := by
      rw [settled, hlib]
      rfl
    unfold orderPass Library.pass
    rw [hlib, hsettled]
    simp only [if_neg hloop]
    split_ifs
    · exact ih hrest
    · exact ih hrest
    · exact ih hrest

theorem orderLibraries_eq (hnew : Loopless reg new) {rounds : Nat} {l : List DlHandle}
    (h : passes (settled before reg) new rounds placed = some l) :
    orderLibraries before reg new rounds placed = pure l := by
  induction rounds generalizing placed with
  | zero => cases h
  | succ rounds ih =>
    unfold passes at h
    unfold orderLibraries
    rw [orderPass_eq hnew]
    change (if _ then _ else if _ then _ else _ : Prog State Error (List DlHandle)) = _
    simp only at h
    split_ifs at h ⊢
    · cases h
      rfl
    · cases h
      rfl
    · exact ih h

end Order

section Resolve
variable {w : World} {s₀ s : State} {r : DlHandle} {path : String} {libraries : List String}
variable {news : List (String × DlHandle)}

/-- The handles of the batch. -/
def newHandles (s₀ s : State) : List DlHandle := s.handles.filter (· ∉ s₀.handles)

theorem Batch.mem_newHandles (hb : Batch w s₀ r path libraries news s) {h : DlHandle} :
    h ∈ newHandles s₀ s ↔ h = r ∨ h ∈ news.map Prod.snd := by
  rw [newHandles, List.mem_filter, decide_eq_true_eq]
  constructor
  · rintro ⟨hmem, hnot⟩
    obtain ⟨e, he, rfl⟩ := List.mem_map.mp hmem
    exact (hb.only e he).resolve_left hnot
  · rintro (rfl | hmem)
    · exact ⟨List.mem_map.mpr ⟨_, hb.root, rfl⟩, hb.fresh⟩
    · refine ⟨hb.mem_handles (Or.inr hmem), ?_⟩
      obtain ⟨x, hx, rfl⟩ := List.mem_map.mp hmem
      exact (hb.apart x hx).1

/-- The requested library is bound to old libraries and to others of the batch. -/
theorem requested_dependencies {d : DlHandle}
    (hd : d ∈ (requested w s₀ path libraries news).dependencyHandles) :
    d ∈ s₀.handles ∨ d ∈ news.map Prod.snd := by
  obtain ⟨n, hn, hbound⟩ := List.mem_filterMap.mp hd
  rw [requested_bound hn, Option.or_eq_some_iff] at hbound
  rcases hbound with hnews | ⟨-, hold⟩
  · right
    exact List.mem_map_of_mem (Library.mem_of_lookup hnews)
  · left
    obtain ⟨e, he, rfl⟩ := Option.map_eq_some_iff.mp hold
    obtain ⟨lib, hlib, -⟩ := Registry.mem_index (List.mem_of_find?_eq_some he)
    exact List.mem_map.mpr ⟨(e.1, lib), hlib, rfl⟩

/-- A library of the batch is not bound to itself: it knows older ones only. -/
theorem Chained.loopless {reg : Registry} (hc : Chained w s₀ reg news)
    (hreg : (reg.map Prod.fst).Nodup) (hdistinct : (news.map Prod.snd).Nodup)
    (hapart : ∀ x ∈ news, x.2 ∉ s₀.handles) {x : String × DlHandle} (hx : x ∈ news)
    {lib : DynamicLibrary} (hlib : (x.2, lib) ∈ reg) : x.2 ∉ lib.dependencyHandles := by
  induction news with
  | nil => cases hx
  | cons y news ih =>
    obtain ⟨⟨own, -, hown, -, -, -, hbound⟩, holder⟩ := hc
    rw [List.map_cons, List.nodup_cons] at hdistinct
    rw [List.forall_mem_cons] at hapart
    rcases List.mem_cons.mp hx with rfl | hx
    · intro hself
      obtain rfl := eq_of_mem hreg hlib hown
      exact (DynamicLibrary.of_mem_dependencyHandles hbound hself).elim hapart.1 hdistinct.1
    · exact ih holder hdistinct.2 hapart.2 hx

theorem Batch.loopless (hb : Batch w s₀ r path libraries news s) :
    Loopless s.registry (newHandles s₀ s) := by
  intro h hh
  rcases hb.mem_newHandles.mp hh with rfl | hmem
  · refine ⟨_, lookup_of_mem hb.nodup hb.root, ?_⟩
    intro hself
    rcases requested_dependencies hself with hold | hnew
    · exact hb.fresh hold
    · obtain ⟨x, hx, heq⟩ := List.mem_map.mp hnew
      exact (hb.apart x hx).2 heq
  · obtain ⟨x, hx, rfl⟩ := List.mem_map.mp hmem
    obtain ⟨lib, -, hlib, -⟩ := hb.chained.of_mem hx
    exact ⟨lib, lookup_of_mem hb.nodup hlib,
      hb.chained.loopless hb.nodup hb.distinct (fun y hy => (hb.apart y hy).1) hx hlib⟩

/-- As long as the batch is not in order, one of it can be placed. -/
theorem Batch.progress (hb : Batch w s₀ r path libraries news s) (placed : List DlHandle)
    (hleft : ∃ h ∈ newHandles s₀ s, h ∉ placed) :
    ∃ h ∈ newHandles s₀ s, h ∉ placed ∧ settled s₀.handles s.registry h placed = true := by
  by_cases hnews : ∃ x ∈ news, x.2 ∉ placed
  · obtain ⟨x, hx, hnot, lib, hlib, hdeps⟩ := hb.chained.exists_ready hnews
    exact ⟨x.2, hb.mem_newHandles.mpr (Or.inr (List.mem_map_of_mem hx)), hnot,
      (settled_iff hb.nodup hlib).mpr hdeps⟩
  · -- All the others have their place, so the requested library is left.
    simp only [not_exists, not_and, not_not] at hnews
    have hplaced : ∀ d ∈ news.map Prod.snd, d ∈ placed := by
      intro d hd
      obtain ⟨x, hx, rfl⟩ := List.mem_map.mp hd
      exact hnews x hx
    obtain ⟨h, hh, hnot⟩ := hleft
    rcases hb.mem_newHandles.mp hh with rfl | hmem
    · refine ⟨h, hh, hnot, (settled_iff hb.nodup hb.root).mpr ?_⟩
      intro d hd
      exact (requested_dependencies hd).imp_right (hplaced d)
    · exact absurd (hplaced h hmem) hnot

/-- Processing the relocations of a list of libraries. -/
theorem resolveEach_ends (hs : s.handles.Nodup) {l : List DlHandle} (hl : ∀ h ∈ l, h ∈ s.handles) :
    ends (forEach (resolveAll w) l)
      (fun _ t => t = { s with relocated := s.relocated ++ l } ∧
        ∀ h ∈ l, ∀ lib, (h, lib) ∈ s.registry → w.relocate lib.name = .ok ())
      (fun _ t => t.registry = s.registry ∧ t.pinned = s.pinned ∧
        ∃ h ∈ l, ∃ lib e, (h, lib) ∈ s.registry ∧ w.relocate lib.name = .error e)
      (fun _ => False) s := by
  induction l generalizing s with
  | nil =>
    unfold forEach
    rw [ends_pure]
    exact ⟨by rw [List.append_nil], List.forall_mem_nil _⟩
  | cons h l ih =>
    obtain ⟨⟨k, lib⟩, hlib, rfl⟩ := List.mem_map.mp (hl h List.mem_cons_self)
    unfold forEach resolveAll
    rw [ends_bind, ends_bind, ends_gets, lookup_of_mem hs hlib]
    simp only
    rw [ends_bind]
    cases hrel : w.relocate lib.name with
    | error e =>
      rw [ends_ofExcept_error]
      exact ⟨rfl, rfl, k, List.mem_cons_self, lib, e, hlib, hrel⟩
    | ok u =>
      rw [ends_ofExcept_ok, ends_modify]
      apply (ih (s := { s with relocated := s.relocated ++ [k] }) hs
        fun h hh => hl h (List.mem_cons_of_mem _ hh)).mono
      · rintro _ t ⟨rfl, hall⟩
        refine ⟨by rw [List.append_assoc]; rfl, ?_⟩
        exact List.forall_mem_cons.mpr
          ⟨fun lib' hlib' => by rw [eq_of_mem hs hlib' hlib, hrel], hall⟩
      · rintro e t ⟨hreg, hpin, h', hh', hbad⟩
        exact ⟨hreg, hpin, h', List.mem_cons_of_mem _ hh', hbad⟩
      · exact fun _ hf => hf

/-- The relocations of the batch are processed in an order in which every library comes behind the
new ones it is bound to. -/
theorem resolveAllSymbols_ends (hb : Batch w s₀ r path libraries news s) :
    ends (resolveAllSymbols w s₀.handles)
      (fun _ t => ∃ ordered, ordered.Perm (newHandles s₀ s) ∧
        InTurn (settled s₀.handles s.registry) ordered ∧
        t = { s with relocated := s.relocated ++ ordered } ∧
        ∀ h ∈ newHandles s₀ s, ∀ lib, (h, lib) ∈ s.registry → w.relocate lib.name = .ok ())
      (fun _ t => t.registry = s.registry ∧ t.pinned = s.pinned ∧
        ∃ h ∈ newHandles s₀ s, ∃ lib e, (h, lib) ∈ s.registry ∧ w.relocate lib.name = .error e)
      (fun _ => False) s := by
  have hnodup : (newHandles s₀ s).Nodup := hb.nodup.filter _
  obtain ⟨ordered, hpasses, hperm, hturn⟩ : ∃ ordered,
      passes (settled s₀.handles s.registry) (newHandles s₀ s) ((newHandles s₀ s).length + 1) [] =
        some ordered ∧ ordered.Perm (newHandles s₀ s) ∧
      InTurn (settled s₀.handles s.registry) ordered := by
    apply passes_perm _ hb.progress hnodup List.nodup_nil (List.nil_subset _) inTurn_nil
    · exact Nat.lt_succ_self _
    · exact fun h l l' hs hsub => settled_mono hs hsub
  unfold resolveAllSymbols
  rw [ends_bind, ends_gets]
  change ends (orderLibraries s₀.handles s.registry (newHandles s₀ s)
    ((newHandles s₀ s).length + 1) [] >>= _) _ _ _ s
  rw [orderLibraries_eq hb.loopless hpasses, ends_bind, ends_pure]
  have hin : ∀ h ∈ ordered, h ∈ s.handles :=
    fun h hh => (List.mem_filter.mp (hperm.mem_iff.mp hh)).1
  apply (resolveEach_ends hb.nodup hin).mono
  · rintro _ t ⟨ht, hall⟩
    exact ⟨ordered, hperm, hturn, ht, fun h hh => hall h (hperm.mem_iff.mpr hh)⟩
  · rintro e t ⟨hreg, hpin, h, hh, hbad⟩
    exact ⟨hreg, hpin, h, hperm.mem_iff.mp hh, hbad⟩
  · exact fun _ h => h

end Resolve

end Nanvix.Dlfcn
