import Nanvix.Dlfcn.OpenCorrect

/-!
# What `dlclose` unloads

A session is a sequence of successful calls of `dlopen` and of calls of
`dlclose`. Beside the registry it records how often each library was opened and
closed since it was loaded, and which ones were opened globally. A library is
wanted if it was opened more often than closed, was opened globally, or is bound
to a loaded library. `dlclose` counts references and no openings, so it unloads
exactly what is no longer wanted only if the library that goes is on its last
opening and what it is bound to, directly or not, is used by it alone.

## Implementation notes

Closing takes libraries from a list of work. Between two rounds the libraries of
the list are loaded and not wanted, nothing is bound to them, and whatever they
lead to has one user.
-/
namespace Nanvix.Dlfcn

open Nanvix.Library Nanvix.Library.Prog Relation Dlfcn

/-- The libraries, with a record of the calls. -/
structure Session where
  libs : State := {}
  opened : List DlHandle := []
  closed : List DlHandle := []
  globals : List DlHandle := []

inductive Call where
  | dlopen (w : World) (depth : Nat) (filename : String) (global : Bool)
  | dlclose (h : DlHandle)

namespace Session

/-- The record after a call of `dlopen`. Handles of new libraries start anew. -/
def recordOpen (before : State) (h : DlHandle) (global : Bool) (σ : Session) : Session :=
  { σ with
    opened := σ.opened.filter (· ∉ newHandles before σ.libs) ++ [h]
    closed := σ.closed.filter (· ∉ newHandles before σ.libs)
    globals := σ.globals.filter (· ∉ newHandles before σ.libs) ++ if global then [h] else [] }

def recordClose (h : DlHandle) (σ : Session) : Session := { σ with closed := σ.closed ++ [h] }

/-- Run a call on the libraries of the session. -/
def onLibs {α : Type} (x : Prog State Error α) : Prog Session Error α :=
  focus (fun σ => some σ.libs) (fun t σ => { σ with libs := t }) x

def exec : Call → Prog Session Error Unit
  | .dlopen w depth filename global => do
      let before ← gets Session.libs
      let h ← onLibs (dlopen w (depth + 2) filename global)
      modify (recordOpen before h global)
  | .dlclose h => do
      onLibs (dlclose h)
      modify (recordClose h)

/-- Calls of `dlopen` succeed, and `dlclose` gets a handle that `dlopen` returned. -/
def machine : Machine Session Error Call Unit where
  enabled
    | .dlopen w depth filename global, σ =>
      (dlopen w (depth + 2) filename global σ.libs).returns fun _ => true
    | .dlclose h, σ => h ∈ σ.opened
  exec := exec

/-- The library was opened more often than closed. -/
def IsOpen (σ : Session) (h : DlHandle) : Prop := σ.closed.count h < σ.opened.count h

/-- A reason to keep a library. -/
def Wanted (σ : Session) (h : DlHandle) : Prop :=
  σ.IsOpen h ∨ h ∈ σ.globals ∨ ∃ e ∈ σ.libs.registry, h ∈ e.2.dependencyHandles

/-- What is wanted is loaded, and its handle is valid; what is loaded is wanted. -/
structure Exact (σ : Session) : Prop where
  stays : ∀ h, σ.Wanted h → ∃ lib, dlsymLibrary h σ.libs = .ok lib σ.libs
  gone : ∀ h ∈ σ.libs.handles, σ.Wanted h

/-- The library at a handle is bound to another. -/
def Binds (reg : Registry) (h d : DlHandle) : Prop :=
  ∃ lib, (h, lib) ∈ reg ∧ d ∈ lib.dependencyHandles

/-- Nobody but a library that is bound to it wants the library, and one name is. -/
def UsedOnce (σ : Session) (d : DlHandle) : Prop :=
  σ.libs.registry.bindings d = 1 ∧ ¬ σ.IsOpen d ∧ d ∉ σ.globals

/-- If the call takes the library out, it was its last opening, and everything it leads to is used
once. -/
def ClosesLast : Call → Session → Prop
  | .dlopen _ _ _ _, _ => True
  | .dlclose h, σ => σ.libs.strongCount [] h = 1 →
      σ.opened.count h ≤ σ.closed.count h + 1 ∧
        ∀ d, TransGen (Binds σ.libs.registry) h d → σ.UsedOnce d

end Session

section Bindings
variable {reg : Registry} {h d : DlHandle} {lib : DynamicLibrary}

theorem Registry.bindings_pos : 0 < reg.bindings d ↔ ∃ e ∈ reg, d ∈ e.2.dependencyHandles := by
  rw [bindings, List.count_pos_iff, List.mem_flatMap]

/-- Taking a library out takes out what it is bound to. -/
theorem Registry.bindings_mapErase (hnodup : (reg.map Prod.fst).Nodup) (hlib : (h, lib) ∈ reg) :
    reg.bindings d = lib.dependencyHandles.count d + Registry.bindings (mapErase h reg) d := by
  have hperm := (perm_mapErase hnodup hlib).flatMap_right fun e => e.2.dependencyHandles
  rw [bindings, hperm.count_eq, List.flatMap_cons, List.count_append]
  rfl

end Bindings

namespace Session

/-- The state of a session while the libraries of a list are to be closed. -/
structure Closing (σ : Session) (work : List DlHandle) : Prop where
  sorted : σ.libs.handles.Pairwise (· < ·)
  bound : ∀ e ∈ σ.libs.registry, ∀ d ∈ e.2.dependencyHandles, d ∈ σ.libs.handles
  loaded : ∀ h, σ.IsOpen h ∨ h ∈ σ.globals → h ∈ σ.libs.handles
  pinned : ∀ h, h ∈ σ.libs.pinned ↔ h ∈ σ.globals
  wanted : ∀ h ∈ σ.libs.handles, σ.Wanted h ∨ h ∈ work
  nodup : work.Nodup
  idle : ∀ h ∈ work, h ∈ σ.libs.handles ∧ σ.libs.registry.bindings h = 0 ∧
    ¬ σ.IsOpen h ∧ h ∉ σ.globals
  usedOnce : ∀ h ∈ work, ∀ d, TransGen (Binds σ.libs.registry) h d → σ.UsedOnce d

variable {σ : Session} {work : List DlHandle} {h : DlHandle} {lib : DynamicLibrary}

theorem Closing.handles_nodup (hc : σ.Closing work) : σ.libs.handles.Nodup :=
  hc.sorted.imp Nat.ne_of_lt

/-- When nothing is left to close, the session is as it should be. -/
theorem Closing.exact (hc : σ.Closing []) : σ.Exact := by
  constructor
  · intro h hw
    have hmem : h ∈ σ.libs.handles := by
      rcases hw with hopen | hglobal | ⟨e, he, hd⟩
      · exact hc.loaded h (Or.inl hopen)
      · exact hc.loaded h (Or.inr hglobal)
      · exact hc.bound e he h hd
    obtain ⟨⟨k, lib⟩, hlib, rfl⟩ := List.mem_map.mp hmem
    refine ⟨lib, ?_⟩
    unfold dlsymLibrary
    rw [bind_ok (rfl : gets State.registry σ.libs = _), lookup_of_mem hc.handles_nodup hlib]
    rfl
  · intro h hh
    exact (hc.wanted h hh).resolve_right List.not_mem_nil

variable {s : State}

theorem mem_extract {e : DlHandle × DynamicLibrary} :
    e ∈ (s.extract h).registry ↔ e ∈ s.registry ∧ e.1 ≠ h := by
  rw [State.extract, mapErase, List.mem_filter, bne_iff_ne]

variable {d : DlHandle}

theorem mem_handles_extract : d ∈ (s.extract h).handles ↔ d ∈ s.handles ∧ d ≠ h := by
  rw [State.handles, State.handles, List.mem_map, List.mem_map]
  constructor
  · rintro ⟨e, he, rfl⟩
    obtain ⟨hmem, hne⟩ := mem_extract.mp he
    exact ⟨⟨e, hmem, rfl⟩, hne⟩
  · rintro ⟨⟨e, he, rfl⟩, hne⟩
    exact ⟨e, mem_extract.mpr ⟨he, hne⟩, rfl⟩

/-- One round: a library that nobody wants goes, and what it was bound to is next. -/
theorem Closing.extract (hc : σ.Closing (work ++ [h])) (hlib : (h, lib) ∈ σ.libs.registry) :
    Closing { σ with libs := σ.libs.extract h } (work ++ lib.dependencyHandles) := by
  have hmemWork : h ∈ work ++ [h] := List.mem_append_right _ List.mem_cons_self
  obtain ⟨-, hzero, hnotOpen, hnotGlobal⟩ := hc.idle h hmemWork
  have hbindings (d : DlHandle) : σ.libs.registry.bindings d =
      lib.dependencyHandles.count d + (σ.libs.extract h).registry.bindings d :=
    Registry.bindings_mapErase hc.handles_nodup hlib
  have hnobody {e : DlHandle × DynamicLibrary} (he : e ∈ σ.libs.registry) {d : DlHandle}
      (hd : d ∈ e.2.dependencyHandles) : d ≠ h := by
    rintro rfl
    have hpos := Registry.bindings_pos.mpr ⟨e, he, hd⟩
    rw [hzero] at hpos
    exact Nat.lt_irrefl 0 hpos
  have hdirect {d : DlHandle} (hd : d ∈ lib.dependencyHandles) : σ.UsedOnce d :=
    hc.usedOnce h hmemWork d (.single ⟨lib, hlib, hd⟩)
  have hless {x y : DlHandle} (hxy : Binds (σ.libs.extract h).registry x y) :
      Binds σ.libs.registry x y := by
    obtain ⟨own, hown, hd⟩ := hxy
    exact ⟨own, (mem_extract.mp hown).1, hd⟩
  obtain ⟨hnodup, -, hapart⟩ := List.nodup_append.mp hc.nodup
  constructor
  case sorted =>
    exact hc.sorted.sublist (List.filter_sublist.map Prod.fst)
  case bound =>
    intro e he d hd
    obtain ⟨hmem, -⟩ := mem_extract.mp he
    exact mem_handles_extract.mpr ⟨hc.bound e hmem d hd, hnobody hmem hd⟩
  case loaded =>
    intro d hd
    refine mem_handles_extract.mpr ⟨hc.loaded d hd, ?_⟩
    rintro rfl
    exact hd.elim hnotOpen hnotGlobal
  case pinned => exact hc.pinned
  case wanted =>
    intro d hd
    obtain ⟨hmem, hne⟩ := mem_handles_extract.mp hd
    rcases hc.wanted d hmem with (hopen | hglobal | ⟨e, he, hbound⟩) | hwork
    · exact Or.inl (Or.inl hopen)
    · exact Or.inl (Or.inr (Or.inl hglobal))
    · by_cases heq : e.1 = h
      · -- It was bound to the library that went.
        obtain ⟨k, own⟩ := e
        cases heq
        rw [eq_of_mem hc.handles_nodup he hlib] at hbound
        exact Or.inr (List.mem_append_right _ hbound)
      · exact Or.inl (Or.inr (Or.inr ⟨e, mem_extract.mpr ⟨he, heq⟩, hbound⟩))
    · rcases List.mem_append.mp hwork with hwork | hwork
      · exact Or.inr (List.mem_append_left _ hwork)
      · exact absurd (List.mem_singleton.mp hwork) hne
  case nodup =>
    rw [List.nodup_append]
    refine ⟨hnodup, ?_, ?_⟩
    · rw [List.nodup_iff_count_le_one]
      intro d
      by_cases hd : d ∈ lib.dependencyHandles
      · have hone := (hdirect hd).1
        rw [hbindings] at hone
        omega
      · rw [List.count_eq_zero_of_not_mem hd]
        exact Nat.zero_le _
    · rintro d hd d' hd' rfl
      have hone := (hdirect hd').1
      rw [(hc.idle d (List.mem_append_left _ hd)).2.1] at hone
      cases hone
  case idle =>
    intro d hd
    rcases List.mem_append.mp hd with hd | hd
    · obtain ⟨hmem, hz, hrest⟩ := hc.idle d (List.mem_append_left _ hd)
      have hne : d ≠ h := fun heq => hapart d hd h List.mem_cons_self heq
      refine ⟨mem_handles_extract.mpr ⟨hmem, hne⟩, ?_, hrest⟩
      rw [hbindings] at hz
      exact Nat.eq_zero_of_add_eq_zero_left hz
    · obtain ⟨hone, hrest⟩ := hdirect hd
      refine ⟨mem_handles_extract.mpr ⟨hc.bound _ hlib d hd, hnobody hlib hd⟩, ?_, hrest⟩
      have hpos := List.count_pos_iff.mpr hd
      rw [hbindings] at hone
      change (σ.libs.extract h).registry.bindings d = 0
      omega
  case usedOnce =>
    intro x hx d hxd
    have hold : σ.UsedOnce d := by
      have hpath := TransGen.mono (fun _ _ => hless) _ _ hxd
      rcases List.mem_append.mp hx with hx | hx
      · exact hc.usedOnce x (List.mem_append_left _ hx) d hpath
      · exact hc.usedOnce h hmemWork d (.head ⟨lib, hlib, hx⟩ hpath)
    -- Its one user is still there, so it is not the library that went.
    obtain ⟨y, -, own, hown, hd⟩ := TransGen.tail'_iff.mp hxd
    have hpos : 0 < (σ.libs.extract h).registry.bindings d :=
      Registry.bindings_pos.mpr ⟨(y, own), hown, hd⟩
    obtain ⟨hone, hrest⟩ := hold
    refine ⟨?_, hrest⟩
    rw [hbindings] at hone
    change (σ.libs.extract h).registry.bindings d = 1
    omega

theorem length_extract (hnodup : s.handles.Nodup) (hlib : (h, lib) ∈ s.registry) :
    (s.extract h).registry.length + 1 = s.registry.length :=
  (perm_mapErase hnodup hlib).length_eq.symm

/-- The rounds end, and every library of the list is found as it is expected. -/
theorem closeDependencies_wp {rounds : Nat} (hc : σ.Closing work)
    (hrounds : σ.libs.registry.length < rounds) :
    wp (closeDependencies rounds work) (fun _ t => Closing { σ with libs := t } [])
      (fun _ _ => False) σ.libs := by
  induction rounds generalizing σ work with
  | zero => exact absurd hrounds (Nat.not_lt_zero _)
  | succ rounds ih =>
    unfold closeDependencies
    rcases List.eq_nil_or_concat' work with rfl | ⟨front, h, rfl⟩
    · exact (wp_pure ()).mpr hc
    · obtain ⟨hmem, hzero, -, hnotGlobal⟩ :=
        hc.idle h (List.mem_append_right _ List.mem_cons_self)
      obtain ⟨⟨k, lib⟩, hlib, rfl⟩ := List.mem_map.mp hmem
      have hpinned : σ.libs.pinned.count k = 0 :=
        List.count_eq_zero_of_not_mem fun hp => hnotGlobal ((hc.pinned k).mp hp)
      have hcount : σ.libs.strongCount (front ++ [k]) k = 2 := by
        have hone : (front ++ [k]).count k = 1 :=
          List.count_eq_one_of_mem hc.nodup (List.mem_append_right _ List.mem_cons_self)
        rw [State.strongCount, hpinned, hone]
        change 1 + σ.libs.registry.bindings k + 0 + 1 = 2
        rw [hzero]
      have hlength := length_extract hc.handles_nodup hlib
      rw [List.getLast?_concat, List.dropLast_concat]
      simp only [wp_bind, wp_gets, id, lookup_of_mem hc.handles_nodup hlib, if_pos hcount,
        wp_modify]
      exact ih (hc.extract hlib) (by change (σ.libs.extract k).registry.length < rounds; omega)

/-- Closing lowers the count of one library. -/
theorem IsOpen.of_recordClose (hopen : (σ.recordClose h).IsOpen d) : σ.IsOpen d := by
  simp only [IsOpen, Session.recordClose, List.count_append] at hopen ⊢
  exact Nat.lt_of_le_of_lt (Nat.le_add_right _ _) hopen

theorem IsOpen.recordClose (hopen : σ.IsOpen d) (hne : d ≠ h) : (σ.recordClose h).IsOpen d := by
  simp only [IsOpen, Session.recordClose, List.count_append, List.count_singleton]
  rwa [if_neg (by simpa using hne.symm), Nat.add_zero]

/-- The session after a call of `dlclose` was recorded, and before any library goes. -/
theorem Closing.recordClose (hc : σ.Closing []) (hnodup : work.Nodup)
    (hwanted : ¬ (σ.recordClose h).Wanted h → h ∈ work)
    (hidle : ∀ k ∈ work, k ∈ σ.libs.handles ∧ σ.libs.registry.bindings k = 0 ∧
      ¬ (σ.recordClose h).IsOpen k ∧ k ∉ σ.globals)
    (hused : ∀ k ∈ work, ∀ d, TransGen (Binds σ.libs.registry) k d → σ.UsedOnce d) :
    (σ.recordClose h).Closing work := by
  constructor
  case sorted => exact hc.sorted
  case bound => exact hc.bound
  case loaded => exact fun d hd => hc.loaded d (hd.imp_left IsOpen.of_recordClose)
  case pinned => exact hc.pinned
  case wanted =>
    intro d hd
    by_cases hdh : d = h
    · subst hdh
      by_cases hw : (σ.recordClose d).Wanted d
      · exact Or.inl hw
      · exact Or.inr (hwanted hw)
    · have hold := (hc.wanted d hd).resolve_right List.not_mem_nil
      exact Or.inl (hold.imp_left fun hopen => hopen.recordClose hdh)
  case nodup => exact hnodup
  case idle => exact hidle
  case usedOnce =>
    intro k hk d hkd
    obtain ⟨hone, hnot, hglobal⟩ := hused k hk d hkd
    exact ⟨hone, fun hopen => hnot hopen.of_recordClose, hglobal⟩

/-- A call of `dlclose` that is the last use neither panics nor leaves anything wrong. -/
theorem dlclose_wp (hc : σ.Closing []) (hlast : ClosesLast (.dlclose h) σ) :
    wp (dlclose h)
      (fun _ t => Closing (recordClose h { σ with libs := t }) [])
      (fun _ t => t = σ.libs) σ.libs := by
  unfold dlclose
  simp only [wp_bind, wp_gets, id]
  cases hlook : σ.libs.registry.lookup h with
  | none => exact (wp_throw _).mpr rfl
  | some lib =>
    have hlib := mem_of_lookup hlook
    have hmem : h ∈ σ.libs.handles := List.mem_map_of_mem hlib
    simp only
    by_cases hcount : σ.libs.strongCount [] h = 1
    · rw [if_pos hcount, wp_bind, wp_modify]
      obtain ⟨hlastOpen, hused⟩ := hlast hcount
      rw [State.strongCount, List.count_nil] at hcount
      have hzero : σ.libs.registry.bindings h = 0 := by omega
      have hnotPinned : h ∉ σ.libs.pinned := List.count_eq_zero.mp (by omega)
      have hclosed : ¬ (σ.recordClose h).IsOpen h := by
        intro hopen
        have hlt : (σ.closed ++ [h]).count h < σ.opened.count h := hopen
        rw [List.count_append, List.count_singleton_self] at hlt
        omega
      have hstart : (σ.recordClose h).Closing ([] ++ [h]) := by
        apply hc.recordClose (List.nodup_singleton h) (fun _ => List.mem_cons_self)
        · intro k hk
          obtain rfl := List.mem_singleton.mp hk
          exact ⟨hmem, hzero, hclosed, fun hg => hnotPinned ((hc.pinned k).mpr hg)⟩
        · intro k hk
          obtain rfl := List.mem_singleton.mp hk
          exact hused
      have hnext := hstart.extract hlib
      have hlength := length_extract hc.handles_nodup hlib
      have hrounds : (σ.libs.extract h).registry.length < σ.libs.registry.length + 1 := by omega
      exact (closeDependencies_wp hnext hrounds).mono (fun _ t ht => ht) fun _ _ hf => hf.elim
    · rw [if_neg hcount, wp_pure]
      apply hc.recordClose List.nodup_nil _ (List.forall_mem_nil _)
        (List.forall_mem_nil _)
      -- Somebody else refers to the library, so it is still wanted.
      intro hnot
      exfalso
      apply hnot
      rw [State.strongCount, List.count_nil] at hcount
      by_cases hpos : 0 < σ.libs.registry.bindings h
      · exact Or.inr (Or.inr (Registry.bindings_pos.mp hpos))
      · have hpin : 0 < σ.libs.pinned.count h := by omega
        exact Or.inr (Or.inl ((hc.pinned h).mp (List.count_pos_iff.mp hpin)))

theorem notMem_newHandles {s t : State} (hd : d ∈ s.handles) :
    d ∉ newHandles s t := fun hnew => of_decide_eq_true (List.mem_filter.mp hnew).2 hd

theorem count_filter_notMem {l new : List DlHandle} (hd : d ∉ new) :
    (l.filter (· ∉ new)).count d = l.count d :=
  List.count_filter (decide_eq_true hd)

variable {global : Bool}

/-- Opening a library raises its count and no other. -/
theorem isOpen_recordOpen (hd : d ∉ newHandles s σ.libs) : (recordOpen s h global σ).IsOpen d ↔
      σ.closed.count d < σ.opened.count d + [h].count d := by
  simp only [IsOpen, Session.recordOpen, List.count_append, count_filter_notMem hd]

/-- A new library that was opened is open. -/
theorem isOpen_recordOpen_new (hnew : h ∈ newHandles s σ.libs) :
    (recordOpen s h global σ).IsOpen h := by
  have hzero : (σ.closed.filter (· ∉ newHandles s σ.libs)).count h = 0 :=
    List.count_eq_zero_of_not_mem fun hin => of_decide_eq_true (List.mem_filter.mp hin).2 hnew
  simp only [IsOpen, Session.recordOpen, hzero, List.count_append, List.count_singleton_self]
  exact Nat.succ_pos _

/-- A call of `dlopen` that adds libraries keeps the session right if each of them is the one that
was asked for or is bound to a loaded one. -/
theorem Closing.recordOpen (hc : σ.Closing []) {t : State}
    (hsorted : t.handles.Pairwise (· < ·)) (hold : ∀ e ∈ σ.libs.registry, e ∈ t.registry)
    (hbound : ∀ e ∈ t.registry, ∀ d ∈ e.2.dependencyHandles, d ∈ t.handles) (hmem : h ∈ t.handles)
    (hnew : ∀ d ∈ newHandles σ.libs t, d = h ∨ ∃ e ∈ t.registry, d ∈ e.2.dependencyHandles)
    (hpinned : ∀ d, d ∈ t.pinned ↔ d ∈ σ.libs.pinned ∨ global = true ∧ d = h) :
    Closing (recordOpen σ.libs h global { σ with libs := t }) [] := by
  have hhandles {d : DlHandle} (hd : d ∈ σ.libs.handles) : d ∈ t.handles := by
    obtain ⟨e, he, rfl⟩ := List.mem_map.mp hd
    exact List.mem_map_of_mem (hold e he)
  have hglobals {d : DlHandle} :
      d ∈ (Session.recordOpen σ.libs h global { σ with libs := t }).globals ↔
        d ∈ σ.globals ∨ global = true ∧ d = h := by
    have hkept : σ.globals.filter (· ∉ newHandles σ.libs t) = σ.globals :=
      List.filter_eq_self.mpr fun d hd =>
        decide_eq_true (notMem_newHandles (hc.loaded d (Or.inr hd)))
    simp only [Session.recordOpen, hkept, List.mem_append]
    cases global <;> simp
  constructor
  case sorted => exact hsorted
  case bound => exact hbound
  case loaded =>
    rintro d (hopen | hglobal)
    · by_cases hd : d ∈ newHandles σ.libs t
      · exact (List.mem_filter.mp hd).1
      · by_cases hdh : d = h
        · exact hdh ▸ hmem
        · rw [isOpen_recordOpen hd, List.count_singleton, if_neg (by simpa using Ne.symm hdh),
            Nat.add_zero] at hopen
          exact hhandles (hc.loaded d (Or.inl hopen))
    · rcases hglobals.mp hglobal with hd | ⟨-, rfl⟩
      · exact hhandles (hc.loaded d (Or.inr hd))
      · exact hmem
  case pinned =>
    intro d
    rw [hglobals, ← hc.pinned d]
    exact hpinned d
  case wanted =>
    intro d hd
    left
    by_cases hdnew : d ∈ newHandles σ.libs t
    · rcases hnew d hdnew with rfl | hbind
      · exact Or.inl (isOpen_recordOpen_new hdnew)
      · exact Or.inr (Or.inr hbind)
    · have hdold : d ∈ σ.libs.handles := by
        by_contra hnot
        exact hdnew (List.mem_filter.mpr ⟨hd, decide_eq_true hnot⟩)
      rcases (hc.wanted d hdold).resolve_right List.not_mem_nil with hopen | hglobal | ⟨e, he, hb⟩
      · exact Or.inl ((isOpen_recordOpen hdnew).mpr (Nat.lt_add_right _ hopen))
      · exact Or.inr (Or.inl (hglobals.mpr (Or.inl hglobal)))
      · exact Or.inr (Or.inr ⟨e, hold e he, hb⟩)
  case nodup => exact List.nodup_nil
  case idle => exact List.forall_mem_nil _
  case usedOnce => exact List.forall_mem_nil _

/-- A library of a batch that was opened for a name is bound to the requested one. -/
theorem Opened.mem_requested {w : World} {s t : State} {path : String} {libraries : List String}
    {news : List (String × DlHandle)} {ordered : List DlHandle}
    (ho : Opened w s path libraries news ordered t) {x : String × DlHandle} (hx : x ∈ news) :
    x.2 ∈ (requested w s path libraries news).dependencyHandles := by
  have hkeys : (news.map Prod.fst).Nodup := by
    rw [← List.nodup_reverse, ← ho.names]
    exact toLoad_nodup
  have hneeded : x.1 ∈ dependencyNames libraries :=
    mem_dependencyNames.mpr (mem_toLoad.mp (ho.mem_toLoad hx)).1
  refine List.mem_filterMap.mpr ⟨x.1, hneeded, ?_⟩
  rw [requested_bound hneeded]
  obtain ⟨d, hlook, hmem⟩ := Library.exists_lookup_of_mem hx
  have hsame := List.inj_on_of_nodup_map hkeys hmem hx rfl
  rw [hlook, Option.some_or, ← hsame]

/-- A call of `dlopen` that succeeds keeps the session right. -/
theorem dlopen_ends (hc : σ.Closing []) (w : World) (depth : Nat) (filename : String)
    (global : Bool) :
    ends (dlopen w (depth + 2) filename global)
      (fun h t => Closing (recordOpen σ.libs h global { σ with libs := t }) [])
      (fun _ _ => True) (fun _ => True) σ.libs := by
  unfold dlopen
  simp only [ends_bind, ends_gets]
  cases hfind : σ.libs.registry.find? fun e => e.2.name = resolveLibraryPath w filename with
  | some e =>
    have hmem : e.1 ∈ σ.libs.handles := List.mem_map_of_mem (List.mem_of_find?_eq_some hfind)
    apply (finishOpen_wp e.1).ends.mono (A := fun _ => False)
    · rintro h ⟨reg, pinned, relocated⟩ ⟨rfl, hreg, -, hpinned⟩
      obtain rfl : reg = σ.libs.registry := hreg
      apply hc.recordOpen (t := ⟨σ.libs.registry, pinned, relocated⟩) hc.sorted (fun e he => he)
        hc.bound hmem _ hpinned
      intro d hd
      exact absurd hd (notMem_newHandles (List.mem_filter.mp hd).1)
    · exact fun _ _ _ => trivial
    · exact fun _ _ => trivial
  | none =>
    apply (loadLibrary_ends depth hc.sorted).mono
    · rintro h t ⟨rfl, ⟨libraries, news, ordered, ho⟩, hpinned⟩
      have hb := ho.batch
      have hroot : w.freshHandle σ.libs.handles ∈ t.handles :=
        List.mem_map.mpr ⟨_, hb.root, rfl⟩
      apply hc.recordOpen hb.sorted (fun e he => hb.old_mem he) _ hroot _ hpinned
      · intro e he d hd
        apply hb.mem_handles
        rcases hb.mem_cases he with hold | rfl | ⟨x, -, -, -, hbound⟩
        · exact Or.inl (hc.bound e hold d hd)
        · exact requested_dependencies hd
        · exact hbound d hd
      · intro d hd
        rcases hb.mem_newHandles.mp hd with rfl | hnew
        · exact Or.inl rfl
        · obtain ⟨x, hx, rfl⟩ := List.mem_map.mp hnew
          exact Or.inr ⟨_, hb.root, Opened.mem_requested ho hx⟩
    · exact fun _ _ _ => trivial
    · exact fun _ _ => trivial

theorem closing_start : Closing {} [] where
  sorted := List.Pairwise.nil
  bound _ he := absurd he List.not_mem_nil
  loaded _ hh := hh.elim (fun hopen => absurd hopen (Nat.lt_irrefl 0)) fun hg =>
    absurd hg List.not_mem_nil
  pinned _ := Iff.rfl
  wanted _ hh := absurd hh List.not_mem_nil
  nodup := List.nodup_nil
  idle _ hk := absurd hk List.not_mem_nil
  usedOnce _ hk := absurd hk List.not_mem_nil

/-- A call on the libraries of a session, seen from the session. -/
theorem wp_onLibs {α : Type} {x : Prog State Error α} {Q : α → Session → Prop}
    {E : Error → Session → Prop} :
    wp (onLibs x) Q E σ ↔
      wp x (fun a t => Q a { σ with libs := t }) (fun e t => E e { σ with libs := t }) σ.libs :=
  wp_focus _ _ rfl

/-- Every step of a session whose closes are last uses keeps it right. -/
theorem exec_wp (c : Call) (hc : σ.Closing []) (henabled : machine.enabled c σ = true)
    (hlast : ClosesLast c σ) :
    wp (machine.exec c) (fun _ σ' => σ'.Closing []) (fun _ σ' => σ'.Closing []) σ := by
  cases c with
  | dlopen w depth filename global =>
    obtain ⟨h, t, hrun, -⟩ := Outcome.of_returns henabled
    change wp (gets Session.libs >>= fun before =>
      onLibs (dlopen w (depth + 2) filename global) >>= fun h =>
        modify (Session.recordOpen before h global)) _ _ σ
    rw [wp_bind, wp_gets, wp_bind, wp_onLibs, wp_of_ok hrun, wp_modify]
    exact (dlopen_ends hc w depth filename global).of_ok hrun
  | dlclose h =>
    change wp (onLibs (dlclose h) >>= fun _ => modify (Session.recordClose h)) _ _ σ
    rw [wp_bind, wp_onLibs]
    apply (dlclose_wp hc hlast).mono
    · intro _ t ht
      rw [wp_modify]
      exact ht
    · rintro _ t rfl
      exact hc

/-- In every session whose closes are last uses, exactly the wanted libraries are loaded in every
state reached, and a close that is a last use does not panic. -/
theorem session_exact (σ : Session) (hreach : machine.Reach ClosesLast {} σ) :
    σ.Exact ∧ ∀ h, ClosesLast (.dlclose h) σ → ∀ m, dlclose h σ.libs ≠ .abort m := by
  have hc : σ.Closing [] :=
    hreach.invariant (I := fun σ => σ.Closing []) closing_start fun c σ hσ => exec_wp c hσ
  exact ⟨hc.exact, fun h hlast m => (dlclose_wp hc hlast).not_abort m⟩

section Runs

/-- Two libraries that need the same third one. -/
def sharedNeed : World :=
  libraryWorld [("lib/liba.so", ["libc.so"]), ("lib/libb.so", ["libc.so"]), ("lib/libc.so", [])]

/-- A library that is opened twice goes with the first close, and closing one of two libraries that
share a dependency panics. -/
theorem session_inexact :
    (∃ σ, machine.Reach (fun _ _ => True) {} σ ∧ ¬ σ.Exact) ∧
    ∃ σ h, machine.Reach (fun _ _ => True) {} σ ∧ machine.enabled (.dlclose h) σ = true ∧
      ∃ m, dlclose h σ.libs = .abort m := by
  constructor
  · obtain ⟨σ, hreach, hopen, hnot⟩ := machine.exists_reach {}
      [.dlopen sharedNeed 0 "liba.so" false, .dlopen sharedNeed 0 "liba.so" false, .dlclose 3]
      (fun σ => σ.closed.count 3 < σ.opened.count 3 ∧ 3 ∉ σ.libs.handles) (by decide +kernel)
    refine ⟨σ, hreach, ?_⟩
    intro hexact
    obtain ⟨lib, hlib⟩ := hexact.stays 3 (Or.inl hopen)
    unfold dlsymLibrary at hlib
    rw [bind_ok (rfl : gets State.registry σ.libs = _)] at hlib
    cases hlook : σ.libs.registry.lookup 3 with
    | some lib => exact hnot (List.mem_map.mpr ⟨_, mem_of_lookup hlook, rfl⟩)
    | none =>
      rw [hlook] at hlib
      cases hlib
  · obtain ⟨σ, hreach, hopened, hpanic⟩ := machine.exists_reach {}
      [.dlopen sharedNeed 0 "liba.so" false, .dlopen sharedNeed 0 "libb.so" false]
      (fun σ => 3 ∈ σ.opened ∧ (dlclose 3 σ.libs).final.isNone) (by decide +kernel)
    refine ⟨σ, 3, hreach, decide_eq_true hopened, ?_⟩
    cases hrun : dlclose 3 σ.libs with
    | ok a t | err e t =>
      rw [hrun] at hpanic
      cases hpanic
    | abort m => exact ⟨m, rfl⟩

/-- A check that implies `ClosesLast`: all that is bound at all is used once. -/
def closesLast : Call → Session → Bool
  | .dlopen _ _ _ _, _ => true
  | .dlclose h, σ => σ.opened.count h ≤ σ.closed.count h + 1 &&
      σ.libs.registry.all fun e => e.2.dependencyHandles.all fun d =>
        σ.libs.registry.bindings d = 1 && σ.opened.count d ≤ σ.closed.count d && d ∉ σ.globals

theorem closesLast_sound (c : Call) (σ : Session) (h : closesLast c σ = true) : ClosesLast c σ := by
  cases c with
  | dlopen w depth filename global => exact trivial
  | dlclose h' =>
    intro _
    obtain ⟨hcount, hall⟩ := Bool.and_eq_true_iff.mp h
    refine ⟨of_decide_eq_true hcount, ?_⟩
    intro d hd
    obtain ⟨y, -, lib, hlib, hbound⟩ := TransGen.tail'_iff.mp hd
    have hd := List.all_eq_true.mp (List.all_eq_true.mp hall _ hlib) d hbound
    rw [Bool.and_eq_true, Bool.and_eq_true] at hd
    exact ⟨of_decide_eq_true hd.1.1, Nat.not_lt.mpr (of_decide_eq_true hd.1.2),
      of_decide_eq_true hd.2⟩

/-- A library with two dependencies of its own is opened and closed, and nothing is left. -/
theorem session_exact_twoNeeded :
    ∃ σ, machine.Reach ClosesLast {} σ ∧ (σ.closed = [3] ∧ σ.libs.handles = []) ∧
      (σ.Exact ∧ ∀ h, ClosesLast (.dlclose h) σ → ∀ m, dlclose h σ.libs ≠ .abort m) := by
  obtain ⟨σ, hσ, hend⟩ := (machine.restrict closesLast).exists_reach
    {} [.dlopen twoNeeded 0 "liba.so" false, .dlclose 3]
    (fun σ => σ.closed = [3] ∧ σ.libs.handles = []) (by decide +kernel)
  have hreach : machine.Reach ClosesLast {} σ := hσ.of_restrict closesLast_sound
  exact ⟨σ, hreach, hend, session_exact σ hreach⟩

end Runs

end Session

end Nanvix.Dlfcn
