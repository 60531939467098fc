import Nanvix.Mm.Accounting

/-!
# Specifications of the memory routines: handles and entries

Each routine is described by what it does to the entries of every page, to the
owner counts and to the bytes of owned frames, and by the handles it takes and
leaves. Later modules use these descriptions and never unfold a routine. Here
are the routines on one frame and those that rewrite one entry.
-/
namespace Nanvix.Mm
open Config Function Library Library.Prog

variable {g : Nat → PageAligned → Option PageTableEntry} {x : Option PageTableEntry}
variable {s' s'' : MemState} {α : Type} {Q : α → MemState → Prop} {E : Error → MemState → Prop}

/-- The entries after one of them is set. -/
def setPte (g : Nat → PageAligned → Option PageTableEntry) (i : Nat) (v : PageAligned)
    (x : Option PageTableEntry) : Nat → PageAligned → Option PageTableEntry := fun j w =>
  if j = i ∧ w = v then x else g j w

@[simp] theorem setPte_self (g : Nat → PageAligned → Option PageTableEntry) (i : Nat)
    (v : PageAligned) (x : Option PageTableEntry) : setPte g i v x i v = x := by
  simp only [setPte, and_self, if_true]

theorem setPte_of_ne {i j : Nat} {v w : PageAligned} (h : ¬(j = i ∧ w = v)) :
    setPte g i v x j w = g j w := by
  simp only [setPte, h, if_false]

theorem setPte_space (g : Nat → PageAligned → Option PageTableEntry) (i : Nat)
    (v : PageAligned) (x : Option PageTableEntry) :
    setPte g i v x i = update (g i) v x := by
  funext w
  simp only [setPte, update_apply, true_and]

theorem setPte_other {i j : Nat} (h : j ≠ i)
    (v : PageAligned) (x : Option PageTableEntry) : setPte g i v x j = g j := by
  funext w
  exact setPte_of_ne fun hc => h hc.1

theorem setPte_eq_self {i : Nat} {v : PageAligned} (h : g i v = x) : setPte g i v x = g := by
  funext j w
  by_cases hj : j = i ∧ w = v
  · rw [hj.1, hj.2, setPte_self, h]
  · exact setPte_of_ne hj

theorem setPte_idem (g : Nat → PageAligned → Option PageTableEntry) (i : Nat)
    (v : PageAligned) (x y : Option PageTableEntry) :
    setPte (setPte g i v x) i v y = setPte g i v y := by
  funext j w
  simp only [setPte]
  split_ifs <;> rfl

theorem setPte_comm (g : Nat → PageAligned → Option PageTableEntry) {i j : Nat} (h : i ≠ j)
    (v w : PageAligned) (x y : Option PageTableEntry) :
    setPte (setPte g i v x) j w y = setPte (setPte g j w y) i v x := by
  funext k u
  by_cases hj : k = j ∧ u = w
  · have hi : ¬(k = i ∧ u = v) := fun hc => h (hc.1.symm.trans hj.1)
    simp only [setPte, if_pos hj, if_neg hi]
  · simp only [setPte, if_neg hj]

/-- The spaces that are alive, their number and the number of frames stay the same. -/
structure SameSpaces (s s' : MemState) : Prop where
  live : ∀ i, (s'.spaces i).isSome = (s.spaces i).isSome
  numSpaces : s'.numSpaces = s.numSpaces
  capacity : s'.frames.capacity = s.frames.capacity

theorem SameSpaces.refl (s : MemState) : SameSpaces s s := ⟨fun _ => rfl, rfl, rfl⟩

variable {s : MemState}

theorem SameSpaces.exists_space (h : SameSpaces s s') {i : Nat}
    (hi : (s.spaces i).isSome) : ∃ vm, s'.spaces i = some vm :=
  Option.isSome_iff_exists.mp ((h.live i).trans hi)

theorem SameSpaces.trans (h : SameSpaces s s') (h' : SameSpaces s' s'') : SameSpaces s s'' :=
  ⟨fun i => (h'.live i).trans (h.live i), h'.numSpaces.trans h.numSpaces,
    h'.capacity.trans h.capacity⟩

/-- The allocator changes before or after a step. -/
theorem SameSpaces.before_frames {a : FrameAllocator}
    (h : SameSpaces { s with frames := a } s') (ha : a.capacity = s.frames.capacity) :
    SameSpaces s s' := ⟨h.live, h.numSpaces, h.capacity.trans ha⟩

theorem SameSpaces.after_frames {a : FrameAllocator}
    (h : SameSpaces s s') (ha : a.capacity = s'.frames.capacity) :
    SameSpaces s { s' with frames := a } := ⟨h.live, h.numSpaces, ha.trans h.capacity⟩

/-- A step keeps the bytes of the frames that have an owner before it. -/
def KeepsBytes (s s' : MemState) : Prop :=
  ∀ f, 0 < s.frames.refcount f → ∀ o, o < pageSize →
    s'.memory (f * pageSize + o) = s.memory (f * pageSize + o)

/-- No frame gets a second owner. -/
def NoNewOwners (s s' : MemState) : Prop :=
  ∀ f, s'.frames.refcount f ≤ max (s.frames.refcount f) 1

theorem NoNewOwners.refl (s : MemState) : NoNewOwners s s := fun _ => Nat.le_max_left _ _

theorem NoNewOwners.trans (h : NoNewOwners s s') (h' : NoNewOwners s' s'') : NoNewOwners s s'' := by
  intro f
  have h₁ := h f
  have h₂ := h' f
  omega

/-- A step that leaves owned frames alone: their bytes and their owners stay. -/
structure Quiet (s s' : MemState) : Prop where
  spaces : SameSpaces s s'
  bytes : KeepsBytes s s'
  owners : NoNewOwners s s'
  kept : ∀ f, 0 < s.frames.refcount f → s'.frames.refcount f = s.frames.refcount f

theorem Quiet.refl (s : MemState) : Quiet s s :=
  ⟨.refl s, fun _ _ _ _ => rfl, .refl s, fun _ _ => rfl⟩

theorem Quiet.trans (h : Quiet s s') (h' : Quiet s' s'') : Quiet s s'' where
  spaces := h.spaces.trans h'.spaces
  bytes f hf o ho := by
    have hf' : 0 < s'.frames.refcount f := by rw [h.kept f hf]; exact hf
    rw [h'.bytes f hf' o ho, h.bytes f hf o ho]
  owners := h.owners.trans h'.owners
  kept f hf := by
    have hf' : 0 < s'.frames.refcount f := by rw [h.kept f hf]; exact hf
    rw [h'.kept f hf', h.kept f hf]

theorem Quiet.refcount_le (h : Quiet s s') (f : Nat) :
    s.frames.refcount f ≤ s'.frames.refcount f := by
  rcases Nat.eq_zero_or_pos (s.frames.refcount f) with hf | hf
  · rw [hf]
    exact Nat.zero_le _
  · exact (h.kept f hf).ge

variable {held : List Nat} {s : MemState} {i f : Nat} {vm vm' : Vmem} {v : PageAligned}

/-- Changing a space, its owners aside, leaves owned frames alone. -/
theorem quiet_of_frames_memory (hs : SameSpaces s s') (hf : s'.frames = s.frames)
    (hm : s'.memory = s.memory) : Quiet s s' where
  spaces := hs
  bytes _ _ _ _ := by rw [hm]
  owners _ := by rw [hf]; exact Nat.le_max_left _ _
  kept _ _ := by rw [hf]

theorem pte_setSpace (s : MemState) (i : Nat) (vm' : Vmem) (j : Nat) (w : PageAligned) :
    MemState.pte { s with spaces := update s.spaces i (some vm') } j w =
      if j = i then vm'.tryFindUserPte w else s.pte j w := by
  unfold MemState.pte
  by_cases h : j = i
  · subst h
    simp only [update_self, Option.bind_some, if_true]
  · simp only [update_of_ne h, if_neg h]

/-- A space whose view is updated at a page has the entries updated there. -/
theorem pte_setSpace_update (hi : s.spaces i = some vm)
    (h : vm'.tryFindUserPte = update vm.tryFindUserPte v x) :
    MemState.pte { s with spaces := update s.spaces i (some vm') } = setPte s.pte i v x := by
  funext j w
  rw [pte_setSpace]
  by_cases hj : j = i
  · subst hj
    by_cases hw : w = v
    · subst hw
      rw [if_pos rfl, h, update_self, setPte_self]
    · rw [if_pos rfl, h, update_of_ne hw, setPte_of_ne (fun hc => hw hc.2),
        Accounted.pte_of_space hi]
  · rw [if_neg hj, setPte_of_ne (fun hc => hj hc.1)]

theorem pte_setSpace_same (hi : s.spaces i = some vm) (h : vm'.tryFindUserPte = vm.tryFindUserPte) :
    MemState.pte { s with spaces := update s.spaces i (some vm') } = s.pte := by
  funext j w
  rw [pte_setSpace]
  split_ifs with hj
  · subst hj
    rw [h, Accounted.pte_of_space hi]
  · rfl

theorem sameSpaces_setSpace (hi : s.spaces i = some vm) (vm' : Vmem) :
    SameSpaces s { s with spaces := update s.spaces i (some vm') } where
  live j := by
    by_cases hj : j = i
    · subst hj
      simp only [update_self, Option.isSome_some, hi]
    · simp only [update_of_ne hj]
  numSpaces := rfl
  capacity := rfl

namespace MM

theorem wp_onSpace {x : Prog Vmem Error α} (hi : s.spaces i = some vm) :
    wp (onSpace i x) Q E s ↔ wp x
      (fun a vm' => Q a { s with spaces := update s.spaces i (some vm') })
      (fun e vm' => E e { s with spaces := update s.spaces i (some vm') }) vm :=
  wp_focus (fun s : MemState => s.spaces i) _ hi

theorem onSpace_wp {x : Prog Vmem Error α} (hi : s.spaces i = some vm) (h : wp x
      (fun a vm' => Q a { s with spaces := update s.spaces i (some vm') })
      (fun e vm' => E e { s with spaces := update s.spaces i (some vm') }) vm) :
    wp (onSpace i x) Q E s :=
  (wp_onSpace hi).mpr h

theorem onFrames_wp {x : Prog FrameAllocator Error α}
    (h : wp x (fun a fa => Q a { s with frames := fa }) (fun e fa => E e { s with frames := fa })
      s.frames) : wp (onFrames x) Q E s :=
  (wp_focus (fun s : MemState => some s.frames) _ rfl).mpr h

/-- Reading a space changes nothing. -/
theorem onSpace_gets_run {g : Vmem → α} (hi : s.spaces i = some vm) :
    onSpace i (gets g) s = .ok (g vm) s := by
  simp only [onSpace, focus, hi, gets]
  rw [← hi, update_eq_self]

theorem onSpace_gets_wp {g : Vmem → α} (hi : s.spaces i = some vm) (h : Q (g vm) s) :
    wp (onSpace i (gets g)) Q E s :=
  (wp_of_ok (onSpace_gets_run hi)).mpr h

/-- Dropping a live handle takes one owner from its frame. -/
theorem dropFrame_wp (h : Accounted (f :: held) s) :
    wp (dropFrame f)
      (fun _ s' => Accounted held s' ∧ ∃ a, s' = { s with frames := a } ∧
        a.capacity = s.frames.capacity ∧
        a.refcount = update s.frames.refcount f (s.frames.refcount f - 1))
      (fun _ _ => False) s := by
  have hpos := h.refcount_pos_of_held
  simp only [dropFrame, wp_bind, wp_attempt, wp_pure]
  apply onFrames_wp
  refine (FrameAllocator.free_wp h.valid hpos).total ?_
  rintro _ a ⟨ha, hcount⟩
  refine ⟨h.setFrames ha.valid fun g => ?_, a, rfl, ha.capacity, hcount⟩
  rw [hcount]
  by_cases hg : g = f
  · subst hg
    rw [update_self, List.count_cons_self]
    omega
  · rw [update_of_ne hg, List.count_cons_of_ne (Ne.symm hg)]

/-- Allocating a frame makes a handle of a frame that had no owner. -/
theorem allocFrame_wp (h : Accounted held s) :
    wp (onFrames FrameAllocator.alloc)
      (fun f s' => Accounted (f :: held) s' ∧ s.frames.refcount f = 0 ∧
        ∃ a, s' = { s with frames := a } ∧ a.capacity = s.frames.capacity ∧
          a.refcount = update s.frames.refcount f 1)
      (fun e s' => s' = s ∧ e.code = .outOfMemory ∧ s.frames.freeCount = 0) s := by
  apply onFrames_wp
  refine (FrameAllocator.alloc_wp h.valid).mono ?_ ?_
  · rintro f a ⟨ha, hzero, hcount⟩
    refine ⟨h.setFrames ha.valid fun g => ?_, hzero, a, rfl, ha.capacity, hcount⟩
    rw [hcount]
    by_cases hg : g = f
    · subst hg
      rw [update_self, List.count_cons_self, hzero]
      omega
    · rw [update_of_ne hg, List.count_cons_of_ne (Ne.symm hg)]
  · rintro e a ⟨rfl, he⟩
    exact ⟨rfl, he⟩

/-- Sharing an owned frame makes another handle of it. -/
theorem shareFrame_wp (h : Accounted held s) (hf : 0 < s.frames.refcount f) :
    wp (onFrames (FrameAllocator.share f))
      (fun _ s' => Accounted (f :: held) s' ∧ ∃ a, s' = { s with frames := a } ∧
        a.capacity = s.frames.capacity ∧
        a.refcount = update s.frames.refcount f (s.frames.refcount f + 1) ∧
        a.bitmap = s.frames.bitmap ∧ s.frames.refcount f ≠ 255)
      (fun e s' => s' = s ∧ e.code = .outOfMemory ∧ s.frames.refcount f = 255) s := by
  apply onFrames_wp
  refine (FrameAllocator.share_wp h.valid hf).mono ?_ ?_
  · rintro _ a ⟨ha, hcount, hmore⟩
    refine ⟨h.setFrames ha.valid fun g => ?_, a, rfl, ha.capacity, hcount, hmore⟩
    rw [hcount, update_succ_eq, count_cons_eq]
    omega
  · rintro e a ⟨rfl, he⟩
    exact ⟨rfl, he⟩

/-- A routine that rewrites an entry and keeps its frame changes nothing else. -/
theorem rewrite_wp {r : PageTableEntry → Except Error (Unit × PageTableEntry)}
    (h : Accounted held s) (hi : s.spaces i = some vm)
    (hr : ∀ p q, r p = .ok ((), q) → q.frame = p.frame ∧ q.isPresent = p.isPresent) :
    wp (onSpace i (Vmem.withUserPage v (·.rewrite v r)))
      (fun _ s' => Accounted held s' ∧ SameSpaces s s' ∧ s'.frames = s.frames ∧
        s'.memory = s.memory ∧ ∃ p q, s.pte i v = some p ∧ r p = .ok ((), q) ∧
          s'.pte = setPte s.pte i v (some q))
      (fun e s' => Accounted held s' ∧ SameSpaces s s' ∧ s'.frames = s.frames ∧
        s'.memory = s.memory ∧ s'.pte = s.pte ∧ ∀ p, s.pte i v = some p → r p = .error e) s := by
  have hwf := h.wellFormed i vm hi
  have hpres : ∀ p a q, p.isPresent = true → r p = .ok (a, q) → q.isPresent = true :=
    fun p _ q hp hq => (hr p q hq).2.trans hp
  apply onSpace_wp hi
  refine (Vmem.withUserPage_wp hwf hpres).mono ?_ ?_
  · rintro _ vm' ⟨hwf', hdir, p, q, hp, hq, hview⟩
    refine ⟨h.setSpace hi hwf' fun f => ?_, sameSpaces_setSpace hi vm', rfl, rfl, p, q, ?_, hq,
      pte_setSpace_update hi hview⟩
    · have husr := Vmem.userRefs_update (f := f) (number_lt_numPages (hwf.isUserAddr hp)) hview
      have hmap : mapsTo f (some q) = mapsTo f (some p) := by
        simp only [mapsTo_some, (hr p q hq).1]
      rw [hp, hmap] at husr
      have hker := Vmem.kernelRefs_congr (f := f) hdir
      unfold Vmem.refs
      omega
    · rwa [Accounted.pte_of_space hi]
  · rintro e vm' ⟨hwf', hdir, hview, herr⟩
    refine ⟨h.setSpace hi hwf' fun f => ?_, sameSpaces_setSpace hi vm', rfl, rfl,
      pte_setSpace_same hi hview, ?_⟩
    · rw [Vmem.refs, Vmem.userRefs_congr hview, Vmem.kernelRefs_congr hdir, Vmem.refs]
    · rwa [Accounted.pte_of_space hi]

end MM
end Nanvix.Mm
