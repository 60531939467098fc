import Nanvix.Mm.MapSpec

/-!
# Specifications of the memory routines: copy on write

Resolving a copy-on-write page either clears the mark, when the page is the only
owner of its frame, or gives the page a fresh frame with the same bytes. The
sharing of a parent's page with a child adds an owner to its frame and, for a
writable page, marks both entries.
-/
namespace Nanvix.Mm
open Config Function Library Library.Prog PageTableEntry

variable {held : List Nat} {s : MemState} {i f : Nat} {vm vm' : Vmem} {v : PageAligned}
variable {p : PageTableEntry} {n : Nat} {s' : MemState}

namespace MM

/-- The state after a page was unmapped and its frame released. -/
structure Released (held : List Nat) (i : Nat) (v : PageAligned) (p : PageTableEntry)
    (s s' : MemState) : Prop where
  accounted : Accounted held s'
  spaces : SameSpaces s s'
  memory : s'.memory = s.memory
  owners : ∀ g, s'.frames.refcount g ≤ s.frames.refcount g
  dropped : s'.frames.refcount p.frame < s.frames.refcount p.frame
  pte : s'.pte = setPte s.pte i v none

section
variable (h : Accounted held s)
include h

theorem tryUnmapUpage_wp (hi : s.spaces i = some vm) : wp (tryUnmapUpage i v)
      (fun r s' => (r = false ∧ s.pte i v = none ∧ s' = s) ∨
        (r = true ∧ ∃ p, s.pte i v = some p ∧ Released held i v p s s'))
      (fun _ s' => isUserAddr v.raw = false ∧ s' = s) s := by
  simp only [tryUnmapUpage, wp_bind]
  refine (unmap_wp h hi).imp ?_
  rintro r s₁ (⟨rfl, hnone, rfl⟩ | ⟨p, hp, rfl, hun⟩)
  · rw [wp_pure]
    exact Or.inl ⟨rfl, hnone, rfl⟩
  · simp only [wp_bind, wp_pure]
    refine (dropFrame_wp hun.accounted).total ?_
    rintro _ s₂ ⟨hacc, a, rfl, hcap, hcount⟩
    have hpos := hun.accounted.refcount_pos_of_held
    refine Or.inr ⟨trivial, p, hp, hacc, hun.spaces.after_frames hcap, hun.memory,
      fun g => ?_, ?_, hun.pte⟩
    · have hle := hun.owners g
      change a.refcount g ≤ _
      rw [hcount, update_apply]
      split_ifs with hg
      · subst hg
        omega
      · exact hle
    · have hle := hun.owners p.frame
      change a.refcount p.frame < _
      rw [hcount, update_self]
      omega

/-- A permission change rewrites the entry of a present page. -/
theorem uctrl_wp {access : AccessPermission} (hi : s.spaces i = some vm) : wp (uctrl i v access)
      (fun _ s' => Accounted held s' ∧ SameSpaces s s' ∧ s'.frames = s.frames ∧
        s'.memory = s.memory ∧ ∃ p, s.pte i v = some p ∧
          s'.pte = setPte s.pte i v (some (p.withAccess false access)))
      (fun _ s' => Accounted held s' ∧ SameSpaces s s' ∧ s'.frames = s.frames ∧
        s'.memory = s.memory ∧ s'.pte = s.pte) s := by
  have hrewrite := rewrite_wp (v := v) (r := ctrl false access) h hi
    (fun p q hq => by cases hq; exact ⟨rfl, rfl⟩)
  have hstay : update s.spaces i (some vm) = s.spaces := by
    rw [← hi, update_eq_self]
  apply onSpace_wp hi
  simp only [Vmem.uctrl, wp_ite, wp_throw, wp_bind, wp_gets, hstay]
  split_ifs
  · exact ⟨h, .refl s, trivial, trivial, trivial⟩
  · exact ⟨h, .refl s, trivial, trivial, trivial⟩
  · refine ((wp_onSpace hi).mp hrewrite).mono ?_ ?_
    · rintro _ _ ⟨hacc, hsp, -, -, p, q, hp, hq, hpte⟩
      cases hq
      exact ⟨hacc, hsp, trivial, trivial, p, hp, hpte⟩
    · rintro _ _ ⟨hacc, hsp, -, -, hpte, -⟩
      exact ⟨hacc, hsp, trivial, trivial, hpte⟩

theorem markCow_wp (hp : s.pte i v = some p) (hw : p.isWritable = true) :
    wp (onSpace i (Vmem.markUserPageCow v))
      (fun _ s' => Accounted held s' ∧ SameSpaces s s' ∧ s'.frames = s.frames ∧
        s'.memory = s.memory ∧ s'.pte = setPte s.pte i v (some p.marked))
      (fun _ _ => False) s := by
  obtain ⟨vm, hi, -⟩ := Accounted.pte_eq_some hp
  refine (rewrite_wp (v := v) (r := markCow) h hi ?_).mono ?_ ?_
  · intro p q hq
    obtain ⟨-, rfl⟩ := markCow_eq_ok hq
    exact ⟨rfl, rfl⟩
  · rintro _ s' ⟨hacc, hsp, hf, hm, p', q, hp', hq, hpte⟩
    obtain ⟨-, rfl⟩ := markCow_eq_ok hq
    rw [hp, Option.some.injEq] at hp'
    exact ⟨hacc, hsp, hf, hm, hp' ▸ hpte⟩
  · rintro e s' ⟨-, -, -, -, -, herr⟩
    have hpe := herr p hp
    simp only [markCow, hw, Bool.not_true, Bool.false_eq_true, if_false] at hpe
    cases hpe

/-- Clearing the mark of a marked page. -/
theorem unmarkCow_wp (hp : s.pte i v = some p) (hc : p.isCow = true) :
    wp (onSpace i (Vmem.unmarkUserPageCow v))
      (fun _ s' => Accounted held s' ∧ SameSpaces s s' ∧ s'.frames = s.frames ∧
        s'.memory = s.memory ∧ s'.pte = setPte s.pte i v (some p.unmarked))
      (fun _ _ => False) s := by
  obtain ⟨vm, hi, -⟩ := Accounted.pte_eq_some hp
  refine (rewrite_wp (v := v) (r := unmarkCow) h hi ?_).mono ?_ ?_
  · intro p q hq
    obtain ⟨-, rfl⟩ := unmarkCow_eq_ok hq
    exact ⟨rfl, rfl⟩
  · rintro _ s' ⟨hacc, hsp, hf, hm, p', q, hp', hq, hpte⟩
    obtain ⟨-, rfl⟩ := unmarkCow_eq_ok hq
    rw [hp, Option.some.injEq] at hp'
    exact ⟨hacc, hsp, hf, hm, hp' ▸ hpte⟩
  · rintro e s' ⟨-, -, -, -, -, herr⟩
    have hpe := herr p hp
    simp only [unmarkCow, hc, Bool.not_true, Bool.false_eq_true, if_false] at hpe
    cases hpe

/-- Allocating a user frame, which must leave the kernel's reserve. -/
theorem allocUserFrame_wp : wp allocUserFrame
      (fun f s' => (Accounted (f :: held) s' ∧ s.frames.refcount f = 0 ∧
        ∃ a, s' = { s with frames := a } ∧ a.capacity = s.frames.capacity ∧
          a.refcount = update s.frames.refcount f 1) ∧
        kernelWatermark < s.frames.freeCount)
      (fun e s' => s' = s ∧ e.code = .outOfMemory ∧ s.frames.freeCount ≤ kernelWatermark) s := by
  have hsmall : ¬usizeMax < kernelWatermark + 1 := by decide
  simp only [allocUserFrame, checkUserWatermark, wp_bind, wp_ite, wp_gets, wp_throw, wp_pure,
    if_neg hsmall]
  split_ifs with hlow
  · exact ⟨trivial, trivial, Nat.lt_succ_iff.mp hlow⟩
  · have hroom : kernelWatermark < s.frames.freeCount := by omega
    exact (allocFrame_wp h).mono (fun _ _ hf => ⟨hf, hroom⟩)
      (fun _ _ he => ⟨he.1, he.2.1, he.2.2 ▸ Nat.zero_le _⟩)

end

theorem memcpyFrame_wp {g : Nat} (hne : n ≠ g) (hn : n * pageSize + pageSize ≤ usizeMax)
    (hg : g * pageSize + pageSize ≤ usizeMax) :
    wp (memcpy (n * pageSize) (g * pageSize) pageSize)
      (fun _ s' => s' = { s with
        memory := copyBytes s.memory (n * pageSize) (g * pageSize) pageSize })
      (fun _ _ => False) s := by
  have hsize : pageSize ≠ 0 := by decide
  have hover : ¬((n * pageSize ≤ g * pageSize ∧ g * pageSize < n * pageSize + pageSize) ∨
      (g * pageSize ≤ n * pageSize ∧ n * pageSize < g * pageSize + pageSize)) := by
    unfold pageSize
    omega
  simp only [memcpy, wp_modify, if_neg hsize, if_neg (Nat.not_lt.mpr hn),
    if_neg (Nat.not_lt.mpr hg), if_neg hover]

/-- The bytes of the frame copied to. -/
theorem copyBytes_dst {m : Nat → UInt8} {g o : Nat} (ho : o < pageSize) :
    copyBytes m (n * pageSize) (g * pageSize) pageSize (n * pageSize + o) =
      m (g * pageSize + o) := by
  unfold copyBytes
  rw [if_pos (by omega), Nat.add_sub_cancel_left]

/-- Copying to a frame leaves the bytes of every other frame. -/
theorem copyBytes_of_ne {m : Nat → UInt8} {g k o : Nat} (hk : k ≠ n) (ho : o < pageSize) :
    copyBytes m (n * pageSize) (g * pageSize) pageSize (k * pageSize + o) = m (k * pageSize + o) := by
  unfold pageSize at ho ⊢
  exact if_neg (by omega)

/-- Exchanging the frame of a marked read-only page. The new frame's handle goes into the
entry, that of the old frame comes out. -/
theorem replaceCow_wp (h : Accounted (n :: held) s)
    (hp : s.pte i v = some p) (hc : p.isCow = true) :
    wp (onSpace i (Vmem.replaceUserPageCowFrame v n))
      (fun g s' => g = p.frame ∧ p.isWritable = false ∧ Accounted (p.frame :: held) s' ∧
        SameSpaces s s' ∧ s'.frames = s.frames ∧ s'.memory = s.memory ∧
        s'.pte = setPte s.pte i v (some (p.replaced n)))
      (fun _ s' => p.isWritable = true ∧ Accounted (n :: held) s' ∧ SameSpaces s s' ∧
        s'.frames = s.frames ∧ s'.memory = s.memory ∧ s'.pte = s.pte) s := by
  obtain ⟨vm, hi, hv⟩ := Accounted.pte_eq_some hp
  have hwf := h.wellFormed i vm hi
  apply onSpace_wp hi
  refine (Vmem.withUserPage_wp (r := replaceCowFrame n) hwf ?_).mono ?_ ?_
  · intro p a q hpres hq
    obtain ⟨-, -, -, rfl⟩ := replaceCowFrame_eq_ok hq
    exact hpres
  · rintro g vm' ⟨hwf', hdir, p', q, hp', hq, hview⟩
    obtain ⟨-, hro, rfl, rfl⟩ := replaceCowFrame_eq_ok hq
    cases hv.symm.trans hp'
    refine ⟨rfl, hro, h.setSpace hi hwf' fun f => ?_, sameSpaces_setSpace hi vm', rfl, rfl,
      pte_setSpace_update hi hview⟩
    have husr := Vmem.userRefs_update (f := f) (number_lt_numPages (hwf.isUserAddr hv)) hview
    have hker := Vmem.kernelRefs_congr (f := f) hdir
    rw [hv, mapsTo_some, mapsTo_some, replaced_frame] at husr
    rw [count_cons_eq, count_cons_eq]
    unfold Vmem.refs
    omega
  · rintro e vm' ⟨hwf', hdir, hview, herr⟩
    refine ⟨?_, h.setSpace hi hwf' fun f => ?_, sameSpaces_setSpace hi vm', rfl, rfl,
      pte_setSpace_same hi hview⟩
    · have hpe := herr p hv
      by_contra hw
      simp only [replaceCowFrame, hc, hw, Bool.not_true, Bool.false_eq_true,
        if_false] at hpe
      cases hpe
    · rw [Vmem.refs, Vmem.userRefs_congr hview, Vmem.kernelRefs_congr hdir, Vmem.refs]

/-- The two ways of resolving a copy-on-write page: the only owner keeps its frame,
another one gets a fresh frame with the same bytes. -/
inductive Resolved (i : Nat) (v : PageAligned) (p : PageTableEntry) (s s' : MemState) : Prop
  | sole (one : s.frames.refcount p.frame = 1) (frames : s'.frames = s.frames)
      (memory : s'.memory = s.memory) (pte : s'.pte = setPte s.pte i v (some p.unmarked))
  | copied (n : Nat) (readOnly : p.isWritable = false) (shared : s.frames.refcount p.frame ≠ 1)
      (fresh : s.frames.refcount n = 0)
      (owners : s'.frames.refcount = update (update s.frames.refcount n 1)
        p.frame (s.frames.refcount p.frame - 1))
      (bytes : ∀ o, o < pageSize →
        s'.memory (n * pageSize + o) = s.memory (p.frame * pageSize + o))
      (kept : KeepsBytes s s') (pte : s'.pte = setPte s.pte i v (some (p.replaced n)))

/-- Copying the bytes of a shared page to a fresh frame and exchanging the frames. -/
theorem copyReplace_wp (h : Accounted (n :: held) s)
    (hp : s.pte i v = some p) (hc : p.isCow = true) (hne : n ≠ p.frame) :
    wp (do memcpy (n * pageSize) (p.frame * pageSize) pageSize
           onSpace i (Vmem.replaceUserPageCowFrame v n))
      (fun g s' => g = p.frame ∧ p.isWritable = false ∧ Accounted (p.frame :: held) s' ∧
        SameSpaces s s' ∧ s'.frames = s.frames ∧
        s'.memory = copyBytes s.memory (n * pageSize) (p.frame * pageSize) pageSize ∧
        s'.pte = setPte s.pte i v (some (p.replaced n)))
      (fun _ s' => p.isWritable = true ∧ Accounted (n :: held) s' ∧ SameSpaces s s' ∧
        s'.frames = s.frames ∧
        s'.memory = copyBytes s.memory (n * pageSize) (p.frame * pageSize) pageSize ∧
        s'.pte = s.pte) s := by
  rw [wp_bind]
  refine (memcpyFrame_wp hne (frame_end_le h.valid h.refcount_pos_of_held)
    (frame_end_le h.valid (h.refcount_pos hp))).total ?_
  rintro _ s₁ rfl
  have hmem := h.setMemory (copyBytes s.memory (n * pageSize) (p.frame * pageSize) pageSize)
  refine (replaceCow_wp hmem hp hc).mono ?_ ?_
  · rintro g s' ⟨hg, hro, hacc, hsp, hrest⟩
    exact ⟨hg, hro, hacc, ⟨hsp.live, hsp.numSpaces, hsp.capacity⟩, hrest⟩
  · rintro e s' ⟨hw, hacc, hsp, hrest⟩
    exact ⟨hw, hacc, ⟨hsp.live, hsp.numSpaces, hsp.capacity⟩, hrest⟩

/-- A page of a space was resolved. -/
structure ResolveStep (held : List Nat) (i : Nat) (v : PageAligned) (s s' : MemState) : Prop where
  accounted : Accounted held s'
  spaces : SameSpaces s s'
  entry : ∃ p, s.pte i v = some p ∧ p.isCow = true ∧ Resolved i v p s s'

/-- The entry of a resolved page: alone on a frame with the bytes of the old one. -/
structure Renewed (p q : PageTableEntry) (s s' : MemState) : Prop where
  writable : q.isWritable = true
  clear : q.isCow = false
  frame : q.frame = p.frame ∨ s.frames.refcount q.frame = 0
  alone : s'.frames.refcount q.frame ≤ 1
  bytes : ∀ o, o < pageSize →
    s'.memory (q.frame * pageSize + o) = s.memory (p.frame * pageSize + o)

theorem Resolved.renewed (h : Resolved i v p s s') :
    ∃ q, s'.pte = setPte s.pte i v (some q) ∧ Renewed p q s s' := by
  cases h with
  | sole one frames memory pte =>
    refine ⟨_, pte, rfl, rfl, Or.inl rfl, ?_, fun o _ => by rw [memory]; rfl⟩
    rw [frames, unmarked_frame, one]
  | copied n readOnly shared fresh owners bytes kept pte =>
    refine ⟨_, pte, rfl, rfl, Or.inr fresh, ?_, bytes⟩
    rw [replaced_frame, owners, update_apply, update_self]
    split_ifs with hp
    · rw [← hp, fresh]
      omega
    · exact Nat.le_refl 1

theorem Resolved.keepsBytes (h : Resolved i v p s s') : KeepsBytes s s' := by
  cases h with
  | sole one frames memory pte => exact fun _ _ _ _ => by rw [memory]
  | copied n readOnly shared fresh owners bytes kept pte => exact kept

/-- A page could not be resolved. -/
structure ResolveFailed (held : List Nat) (s s' : MemState) : Prop where
  accounted : Accounted held s'
  spaces : SameSpaces s s'
  bytes : KeepsBytes s s'
  owners : s'.frames.refcount = s.frames.refcount
  pte : s'.pte = s.pte

theorem ResolveFailed.refl (h : Accounted held s) : ResolveFailed held s s :=
  ⟨h, .refl s, fun _ _ _ _ => rfl, rfl, rfl⟩

/-- A marked page that its owner may already write and another space maps as well. -/
def OpenShared (s : MemState) (i : Nat) (v : PageAligned) : Prop :=
  ∃ p, s.pte i v = some p ∧ p.isCow = true ∧ p.isWritable = true ∧ s.frames.refcount p.frame ≠ 1

/-- A marked page whose frame has another owner, so that resolving it takes a frame. -/
def CowShared (s : MemState) (i : Nat) (v : PageAligned) : Prop :=
  ∃ p, s.pte i v = some p ∧ p.isCow = true ∧ s.frames.refcount p.frame ≠ 1

theorem resolveCowAt_wp (h : Accounted held s) (hi : s.spaces i = some vm) :
    wp (resolveCowAt i v)
      (fun r s' => (r = false ∧ s' = s ∧ ∀ p, s.pte i v = some p → p.isCow = false) ∨
        (r = true ∧ ResolveStep held i v s s' ∧
          (CowShared s i v → kernelWatermark < s.frames.freeCount)))
      (fun e s' => ResolveFailed held s s' ∧ ((e.code = .outOfMemory ∧ CowShared s i v ∧
        s.frames.freeCount ≤ kernelWatermark) ∨ OpenShared s i v)) s := by
  have hpte : s.pte i v = vm.tryFindUserPte v := Accounted.pte_of_space hi
  simp only [resolveCowAt, wp_ite, wp_bind, wp_pure]
  split_ifs with huser
  · refine Or.inl ⟨trivial, trivial, fun p hp => ?_⟩
    rw [h.isUserAddr hp] at huser
    cases huser
  apply onSpace_gets_wp hi
  cases hv : vm.tryFindUserPte v with
  | none =>
    simp only [wp_pure]
    refine Or.inl ⟨trivial, trivial, fun p hp => ?_⟩
    rw [hpte, hv] at hp
    cases hp
  | some p =>
    have hp : s.pte i v = some p := hpte.trans hv
    have hpos := h.refcount_pos hp
    simp only [wp_ite, wp_pure, wp_bind]
    split_ifs with hcow
    · refine Or.inl ⟨trivial, trivial, fun q hq => ?_⟩
      rw [hp, Option.some.injEq] at hq
      exact hq ▸ by simpa using hcow
    have hc : p.isCow = true := by simpa using hcow
    apply onFrames_wp
    refine (FrameAllocator.owners_wp h.valid hpos).total ?_
    rintro _ a ⟨rfl, rfl⟩
    split_ifs with hone
    · refine (unmarkCow_wp h hp hc).total ?_
      rintro _ s' ⟨hacc, hsp, hf, hm, hset⟩
      refine Or.inr ⟨trivial, ⟨hacc, hsp, p, hp, hc, .sole hone hf hm hset⟩, ?_⟩
      rintro ⟨q, hq, -, hne⟩
      rw [hp, Option.some.injEq] at hq
      exact absurd (hq ▸ hone) hne
    · refine (allocUserFrame_wp h).mono ?_ ?_
      · rintro n s₁ ⟨⟨hacc, hzero, a, rfl, hcap, hcount⟩, hroom⟩
        have hne : n ≠ p.frame := fun hn => by rw [← hn, hzero] at hpos; cases hpos
        have hkeep : ∀ s' : MemState, s'.memory =
            copyBytes s.memory (n * pageSize) (p.frame * pageSize) pageSize → KeepsBytes s s' := by
          intro s' hm g hg o ho
          rw [hm, copyBytes_of_ne (fun hgn => by rw [hgn, hzero] at hg; cases hg) ho]
        rw [wp_attempt]
        refine (copyReplace_wp hacc hp hc hne).mono ?_ ?_
        · rintro _ s₂ ⟨rfl, hro, hacc₂, hsp, hf, hm, hset⟩
          simp only [wp_bind, wp_pure]
          refine (dropFrame_wp hacc₂).total ?_
          rintro _ s₃ ⟨hacc₃, b, rfl, hcap₃, hcount₃⟩
          rw [hf, hcount, update_of_ne hne.symm] at hcount₃
          refine Or.inr ⟨trivial, ⟨hacc₃, (hsp.before_frames hcap).after_frames hcap₃, p, hp, hc,
            .copied n hro hone hzero hcount₃ (fun o ho => ?_) (hkeep _ hm) hset⟩, fun _ => hroom⟩
          exact (congrFun hm _).trans (copyBytes_dst ho)
        · rintro e s₂ ⟨hw, hacc₂, hsp, hf, hm, hset⟩
          simp only [wp_bind, wp_throw]
          refine (dropFrame_wp hacc₂).total ?_
          rintro _ s₃ ⟨hacc₃, b, rfl, hcap₃, hcount₃⟩
          rw [hf, hcount, update_self, update_idem, Nat.sub_self, ← hzero,
            update_eq_self] at hcount₃
          exact ⟨⟨hacc₃, (hsp.before_frames hcap).after_frames hcap₃, hkeep _ hm, hcount₃, hset⟩,
            Or.inr ⟨p, hp, hc, hw, hone⟩⟩
      · rintro e s₁ ⟨rfl, hoom, hlow⟩
        exact ⟨.refl h, Or.inl ⟨hoom, ⟨p, hp, hc, hone⟩, hlow⟩⟩

/-- A resolved page is not marked. -/
theorem ResolveStep.not_cow (h : ResolveStep held i v s s')
    (hp : s'.pte i v = some p) : p.isCow = false := by
  obtain ⟨_, -, -, hres⟩ := h.entry
  obtain ⟨q, hpte, hnew⟩ := hres.renewed
  rw [hpte, setPte_self, Option.some.injEq] at hp
  exact hp ▸ hnew.clear

/-- Resolving a page leaves the other pages. -/
theorem ResolveStep.pte_of_ne (h : ResolveStep held i v s s') {j : Nat}
    {w : PageAligned} (hne : ¬(j = i ∧ w = v)) : s'.pte j w = s.pte j w := by
  obtain ⟨_, -, -, hres⟩ := h.entry
  obtain ⟨q, hpte, -⟩ := hres.renewed
  rw [hpte, setPte_of_ne hne]

/-- Pages of a space are resolved one after the other. -/
def ResolveSteps (held : List Nat) (i : Nat) : MemState → MemState → Prop :=
  Relation.ReflTransGen fun s s' => ∃ v, ResolveStep held i v s s'

theorem ResolveSteps.accounted (h : Accounted held s)
    (hs : ResolveSteps held i s s') : Accounted held s' := by
  induction hs with
  | refl => exact h
  | tail _ hstep _ => exact hstep.choose_spec.accounted

theorem ResolveSteps.spaces (hs : ResolveSteps held i s s') : SameSpaces s s' := by
  induction hs with
  | refl => exact .refl s
  | tail _ hstep ih => exact ih.trans hstep.choose_spec.spaces

/-- The pages that a region of bytes touches. -/
def regionPages (addr size : Nat) : List Nat :=
  List.range' (addr / pageSize) ((addr + (size - 1)) / pageSize - addr / pageSize + 1)

/-- Resolving a region resolves its marked pages one by one. -/
theorem resolveCowForRegion_wp {addr size : Nat} (h : Accounted held s) (hi : (s.spaces i).isSome) :
    wp (resolveCowForRegion i addr size)
      (fun _ s' => ResolveSteps held i s s' ∧ (size ≠ 0 → ∀ n ∈ regionPages addr size, ∀ p,
        s'.pte i ⟨n⟩ = some p → p.isCow = false))
      (fun e s' => ∃ s₁, ResolveSteps held i s s₁ ∧ ResolveFailed held s₁ s' ∧
        (e.code = .outOfMemory ∨ (e.code = .badAddress ∧ s' = s ∧ usizeMax < addr + (size - 1)) ∨
          ∃ v, OpenShared s₁ i v)) s := by
  simp only [resolveCowForRegion, wp_ite, wp_pure, wp_throw]
  split_ifs with hzero hover
  · exact ⟨.refl, fun hne => absurd hzero hne⟩
  · exact ⟨s, .refl, .refl h, Or.inr (Or.inl ⟨trivial, trivial, hover⟩)⟩
  · -- What is already visited is not marked.
    refine (wp_forEach (fun bs s₁ => ResolveSteps held i s s₁ ∧
      (∀ n ∈ regionPages addr size, n ∈ bs ∨ ∀ p, s₁.pte i ⟨n⟩ = some p → p.isCow = false))
      ?_ (regionPages addr size) ⟨.refl, fun n hn => Or.inl hn⟩).imp ?_
    · rintro n bs s₁ ⟨hs₁, hdone⟩
      have hacc := hs₁.accounted h
      obtain ⟨vm, hvm⟩ := hs₁.spaces.exists_space hi
      rw [wp_bind]
      refine (resolveCowAt_wp (v := ⟨n⟩) hacc hvm).mono ?_ ?_
      · rintro r s₂ (⟨-, rfl, hclear⟩ | ⟨-, hstep, -⟩)
        · rw [wp_pure]
          refine ⟨hs₁, fun m hm => (hdone m hm).elim (fun hmem => ?_) Or.inr⟩
          rcases List.mem_cons.mp hmem with rfl | hmem
          · exact Or.inr hclear
          · exact Or.inl hmem
        · rw [wp_pure]
          refine ⟨hs₁.tail ⟨_, hstep⟩, fun m hm => ?_⟩
          by_cases hmn : m = n
          · exact Or.inr fun p hp => hstep.not_cow (hmn ▸ hp)
          · refine (hdone m hm).imp (fun hmem => (List.mem_cons.mp hmem).resolve_left hmn) ?_
            intro hclear p hp
            rw [hstep.pte_of_ne fun hc => hmn (PageAligned.mk.inj hc.2)] at hp
            exact hclear p hp
      · rintro e s₂ ⟨hfail, hcause⟩
        exact ⟨s₁, hs₁, hfail, hcause.imp And.left fun hopen => Or.inr ⟨_, hopen⟩⟩
    · rintro _ s₁ ⟨hs₁, hdone⟩
      exact ⟨hs₁, fun _ n hn => (hdone n hn).resolve_left List.not_mem_nil⟩

end MM
end Nanvix.Mm
