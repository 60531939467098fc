import Nanvix.Mm.CowSpec

/-!
# Specifications of the memory routines: allocating pages

`alloc_upages` takes all frames of a range before it maps the first page. When a
page cannot be mapped, the pages before it are unmapped and the frames after it
are released, so a call either maps the whole range or changes no entry.
-/
namespace Nanvix.Mm
open Config Function Library Library.Prog

variable {held fs : List Nat} {s₀ s s' : MemState} {i f m : Nat} {vm : Vmem} {v : PageAligned}
variable {access : AccessPermission}

/-- The allocator's counters are those of the owners, so equal owners mean equal counters. -/
theorem Accounted.refcount_eq {a : FrameAllocator} (h : Accounted held s)
    (h' : Accounted held { s with frames := a }) : a.refcount = s.frames.refcount := by
  funext g
  exact (h'.count g).trans (h.count g).symm

namespace MM

theorem dropFrames_wp (h : Accounted (fs ++ held) s) :
    wp (forEach dropFrame fs)
      (fun _ s' => Accounted held s' ∧ ∃ a, s' = { s with frames := a } ∧
        a.capacity = s.frames.capacity ∧ ∀ g, a.refcount g ≤ s.frames.refcount g)
      (fun _ _ => False) s := by
  refine wp_forEach (fun bs s₁ => Accounted (bs ++ held) s₁ ∧ ∃ a, s₁ = { s with frames := a } ∧
    a.capacity = s.frames.capacity ∧ ∀ g, a.refcount g ≤ s.frames.refcount g) ?_ fs
    ⟨h, s.frames, rfl, rfl, fun _ => Nat.le_refl _⟩
  rintro f bs _ ⟨h₁, a, rfl, hcap', hle⟩
  refine (dropFrame_wp h₁).imp ?_
  rintro _ s₂ ⟨h₂, b, rfl, hcap, hcount⟩
  refine ⟨h₂, b, rfl, hcap.trans hcap', fun g => ?_⟩
  have hg := hle g
  rw [hcount, update_apply]
  split_ifs with hgf
  · subst hgf
    exact Nat.le_trans (Nat.sub_le _ _) hg
  · exact hg

/-- Frames were taken: each had no owner. -/
structure Took (fs : List Nat) (s s' : MemState) : Prop where
  only : ∃ a, s' = { s with frames := a } ∧ a.capacity = s.frames.capacity
  fresh : ∀ f ∈ fs, s.frames.refcount f = 0
  kept : ∀ f, s.frames.refcount f ≤ s'.frames.refcount f
  owners : NoNewOwners s s'

theorem Took.snoc {a : FrameAllocator} (h : Took fs s₀ s) (hzero : s.frames.refcount f = 0)
    (hcap : a.capacity = s.frames.capacity) (hcount : a.refcount = update s.frames.refcount f 1) :
    Took (fs ++ [f]) s₀ { s with frames := a } where
  only := by
    obtain ⟨b, rfl, hb⟩ := h.only
    exact ⟨a, rfl, hcap.trans hb⟩
  fresh g hg := by
    rcases List.mem_append.mp hg with hg | hg
    · exact h.fresh g hg
    · rw [List.mem_singleton.mp hg]
      exact Nat.le_zero.mp (hzero ▸ h.kept f)
  kept g := by
    have hg := h.kept g
    change _ ≤ a.refcount g
    rw [hcount, update_apply]
    split_ifs with hgf
    · subst hgf
      omega
    · exact hg
  owners g := by
    have hg := h.owners g
    change a.refcount g ≤ _
    rw [hcount, update_apply]
    split_ifs <;> omega

theorem allocUserFramesLoop_wp (n : Nat) (h₀ : Accounted held s₀)
    (h : Accounted (fs ++ held) s) (ht : Took fs s₀ s) :
    wp (allocUserFramesLoop n fs)
      (fun fs' s' => Accounted (fs' ++ held) s' ∧ Took fs' s₀ s' ∧
        fs'.length = fs.length + n)
      (fun e s' => Accounted held s' ∧ Took [] s₀ s' ∧ e.code = .outOfMemory) s := by
  induction n generalizing fs s with
  | zero =>
    rw [allocUserFramesLoop, wp_pure]
    exact ⟨h, ht, rfl⟩
  | succ n ih =>
    simp only [allocUserFramesLoop, wp_bind, wp_attempt]
    refine (allocFrame_wp h).mono ?_ ?_
    · rintro f s₁ ⟨h₁, hzero, a, rfl, hcap, hcount⟩
      have hperm : ∀ g, (fs ++ [f] ++ held).count g = (f :: (fs ++ held)).count g := by
        intro g
        simp only [List.count_append, List.count_cons, List.count_nil]
        omega
      refine (ih (h₁.perm hperm) (ht.snoc hzero hcap hcount)).imp ?_
      rintro fs' s' ⟨h', ht', hlen⟩
      refine ⟨h', ht', ?_⟩
      rw [hlen, List.length_append, List.length_singleton]
      omega
    · rintro e s₁ ⟨rfl, hoom, -⟩
      simp only [wp_throw]
      refine (dropFrames_wp h).total ?_
      rintro _ _ ⟨h', a, rfl, hcap, -⟩
      obtain ⟨b, rfl, hb⟩ := ht.only
      have heq : a.refcount = s₀.frames.refcount := h₀.refcount_eq h'
      refine ⟨h', ⟨⟨a, rfl, hcap.trans hb⟩, List.forall_mem_nil _, fun f => ?_, fun f => ?_⟩,
        hoom⟩
      · exact (congrFun heq f).ge
      · exact Nat.le_trans (congrFun heq f).le (Nat.le_max_left _ _)

theorem Took.refl (s : MemState) : Took [] s s :=
  ⟨⟨s.frames, rfl, rfl⟩, List.forall_mem_nil _, fun _ => Nat.le_refl _, .refl s⟩

theorem allocManyUserFrames_wp (h : Accounted held s) (count capacity : Nat) (fs : List Nat) :
    wp (allocManyUserFrames count fs capacity)
      (fun fs' s' => Accounted (fs' ++ held) s' ∧ Took fs' s s' ∧ fs'.length = count)
      (fun _ s' => Accounted held s' ∧ Took [] s s') s := by
  simp only [allocManyUserFrames, checkUserWatermark, wp_ite, wp_throw, wp_pure, wp_bind, wp_gets]
  split_ifs with hne hcap hzero
  · exact ⟨h, .refl s⟩
  · exact ⟨h, .refl s⟩
  · exact ⟨h, .refl s, hzero.symm⟩
  · exact ⟨h, .refl s⟩
  · exact ⟨h, .refl s⟩
  · have hstart : Accounted ([] ++ held) s := h
    refine (allocUserFramesLoop_wp count h hstart (.refl s)).mono ?_ ?_
    · rintro fs' s' ⟨h', ht, hlen⟩
      exact ⟨h', ht, by simpa using hlen⟩
    · rintro e s' ⟨h', ht, -⟩
      exact ⟨h', ht⟩

theorem checkUnmapped_wp (hi : s.spaces i = some vm) (n : Nat) (v : PageAligned) :
    wp (checkUnmapped i n v) (fun _ s' => s' = s) (fun _ s' => s' = s) s := by
  induction n generalizing v with
  | zero =>
    rw [checkUnmapped, wp_pure]
  | succ n ih =>
    simp only [checkUnmapped, wp_bind]
    apply onSpace_gets_wp hi
    cases vm.isUserPageMapped v with
    | error e => rw [wp_ofExcept_error]
    | ok mapped =>
      rw [wp_ofExcept_ok]
      by_cases hm : mapped = true
      · rw [if_pos hm, wp_throw]
      · rw [if_neg hm]
        by_cases hover : usizeMax < v.raw + pageSize
        · rw [if_pos hover, wp_throw]
        · rw [if_neg hover]
          exact ih v.next

end MM

/-- Part of a range is mapped to fresh frames: the `m` pages from `v` on. -/
structure Allocating (held : List Nat) (i : Nat) (v : PageAligned) (m : Nat)
    (access : AccessPermission) (s₀ s : MemState) : Prop where
  accounted : Accounted held s
  spaces : SameSpaces s₀ s
  bytes : KeepsBytes s₀ s
  owners : NoNewOwners s₀ s
  done : ∀ w : PageAligned, v.number ≤ w.number → w.number < v.number + m →
    s₀.pte i w = none ∧ ∃ f, s₀.frames.refcount f = 0 ∧
      s.pte i w = some (Vmem.userEntry f access)
  other : ∀ j (w : PageAligned), ¬(j = i ∧ v.number ≤ w.number ∧ w.number < v.number + m) →
    s.pte j w = s₀.pte j w

/-- Taking frames maps no page. -/
theorem MM.Took.allocating (h : Took fs s₀ s) (hacc : Accounted held s) :
    Allocating held i v 0 access s₀ s := by
  obtain ⟨a, rfl, hcap⟩ := h.only
  exact ⟨hacc, ⟨fun _ => rfl, rfl, hcap⟩, fun _ _ _ _ => rfl, h.owners, fun _ _ _ => by omega,
    fun _ _ _ => rfl⟩

/-- The next page gets a fresh frame. -/
theorem Allocating.step (h : Allocating (f :: held) i v m access s₀ s)
    (hkept : ∀ g, s₀.frames.refcount g ≤ s.frames.refcount g)
    (hfresh : s₀.frames.refcount f = 0) (hnone : s.pte i ⟨v.number + m⟩ = none)
    (hacc : Accounted held s') (hq : Quiet s s')
    (hpte : s'.pte = setPte s.pte i ⟨v.number + m⟩ (some (Vmem.userEntry f access))) :
    Allocating held i v (m + 1) access s₀ s' where
  accounted := hacc
  spaces := h.spaces.trans hq.spaces
  bytes g hg o ho := by
    rw [hq.bytes g (Nat.lt_of_lt_of_le hg (hkept g)) o ho, h.bytes g hg o ho]
  owners := h.owners.trans hq.owners
  done w hle hlt := by
    by_cases hw : w = ⟨v.number + m⟩
    · subst hw
      refine ⟨?_, f, hfresh, by rw [hpte, setPte_self]⟩
      rw [← h.other i _ fun hc => Nat.lt_irrefl _ hc.2.2, hnone]
    · have hne : w.number ≠ v.number + m := fun hn => hw (by cases w; cases hn; rfl)
      rw [hpte, setPte_of_ne fun hc => hw hc.2]
      exact h.done w hle (by omega)
  other j w hne := by
    rw [hpte, setPte_of_ne]
    · exact h.other j w fun hc => hne ⟨hc.1, hc.2.1, by omega⟩
    · rintro ⟨rfl, rfl⟩
      exact hne ⟨rfl, Nat.le_add_right _ _, Nat.lt_succ_self _⟩

variable {p : PageTableEntry}

/-- The first page is unmapped. -/
theorem Allocating.undo (h : Allocating held i v (m + 1) access s₀ s)
    (hrel : MM.Released held i v p s s') :
    Allocating held i v.next m access s₀ s' where
  accounted := hrel.accounted
  spaces := h.spaces.trans hrel.spaces
  bytes g hg o ho := by rw [hrel.memory, h.bytes g hg o ho]
  owners g := Nat.le_trans (hrel.owners g) (h.owners g)
  done w hle hlt := by
    simp only [PageAligned.next] at hle hlt
    have hw : w ≠ v := fun hw => by rw [hw] at hle; omega
    rw [hrel.pte, setPte_of_ne fun hc => hw hc.2]
    exact h.done w (by omega) (by omega)
  other j w hne := by
    simp only [PageAligned.next] at hne
    rw [hrel.pte]
    by_cases hw : j = i ∧ w = v
    · rw [hw.1, hw.2, setPte_self]
      exact (h.done v (Nat.le_refl _) (by omega)).1.symm
    · rw [setPte_of_ne hw]
      refine h.other j w fun hc => hne ⟨hc.1, ?_, by omega⟩
      have hnum : w.number ≠ v.number := fun hn => hw ⟨hc.1, by cases w; cases v; cases hn; rfl⟩
      omega

/-- Filling a page that has a fresh frame. -/
theorem Allocating.fill (h : Allocating held i v m access s₀ s)
    (hfresh : s₀.frames.refcount f = 0) (value : UInt8) :
    Allocating held i v m access s₀
      { s with memory := MM.fillBytes s.memory (f * pageSize) value pageSize } where
  __ := h
  accounted := h.accounted.setMemory _
  spaces := ⟨h.spaces.live, h.spaces.numSpaces, h.spaces.capacity⟩
  bytes g hg o ho := by
    have hne : g ≠ f := fun hgf => by rw [hgf, hfresh] at hg; cases hg
    exact (MM.fillBytes_of_ne hne ho).trans (h.bytes g hg o ho)

namespace MM

/-- The frame of a page that is present is found. -/
theorem findUserFrame_of_some (hp : s.pte i v = some p) : findUserFrame i v s = .ok p.frame s := by
  obtain ⟨vm, hvm, hv⟩ := Accounted.pte_eq_some hp
  obtain ⟨pt, hpt, hread⟩ := Vmem.tryFindUserPte_eq_some hv
  have hfind : vm.findUserFrame v = .ok p.frame := by
    simp only [Vmem.findUserFrame, hpt]
    exact PageTable.lookup_present hread
  rw [findUserFrame, bind_ok (onSpace_gets_run hvm), hfind]
  rfl

theorem findUserFrame_of_none (hi : (s.spaces i).isSome) (hp : s.pte i v = none) :
    ∃ e, findUserFrame i v s = .err e s := by
  obtain ⟨vm, hvm⟩ := Option.isSome_iff_exists.mp hi
  have hv : vm.tryFindUserPte v = none := (Accounted.pte_of_space hvm).symm.trans hp
  have hfind : ∃ e, vm.findUserFrame v = .error e := by
    unfold Vmem.tryFindUserPte at hv
    unfold Vmem.findUserFrame
    split at hv
    · exact ⟨_, if_pos (by rw [PageTable.readPteAt_eq_none.mp hv]; rfl)⟩
    · exact ⟨_, rfl⟩
  obtain ⟨e, he⟩ := hfind
  exact ⟨e, by rw [findUserFrame, bind_ok (onSpace_gets_run hvm), he]; rfl⟩

theorem findUserFrame_wp (hi : (s.spaces i).isSome) :
    wp (findUserFrame i v)
      (fun f s' => s' = s ∧ ∃ p, s.pte i v = some p ∧ f = p.frame)
      (fun _ s' => s' = s ∧ s.pte i v = none) s := by
  cases hp : s.pte i v with
  | none =>
    obtain ⟨e, he⟩ := findUserFrame_of_none hi hp
    exact (wp_of_err he).mpr ⟨rfl, rfl⟩
  | some p => exact (wp_of_ok (findUserFrame_of_some hp)).mpr ⟨rfl, p, rfl, rfl⟩

theorem memsetPage_wp (h : Accounted held s) (hp : s.pte i v = some p) (value : UInt8) :
    wp (memsetPage i v value)
      (fun _ s' => s' = { s with
        memory := fillBytes s.memory (p.frame * pageSize) value pageSize })
      (fun _ _ => False) s := by
  rw [memsetPage, wp_bind, wp_of_ok (findUserFrame_of_some hp)]
  exact memset_wp (frame_end_le h.valid (h.refcount_pos hp))

/-- The frames that are left are mapped to the next pages, or some page fails and the
frames after it are released. -/
theorem mapFramesLoop_wp (clear : Bool) (hi : (s₀.spaces i).isSome)
    (hfresh : ∀ f ∈ fs, s₀.frames.refcount f = 0) (h : Allocating (fs ++ held) i v m access s₀ s)
    (hkept : ∀ g, s₀.frames.refcount g ≤ s.frames.refcount g) :
    wp (mapFramesLoop i access clear fs ⟨v.number + m⟩ m)
      (fun r s' => Allocating held i v r.1 access s₀ s' ∧ (r.2 = none → r.1 = m + fs.length ∧
        ∀ g, s₀.frames.refcount g ≤ s'.frames.refcount g))
      (fun _ _ => False) s := by
  induction fs generalizing m s with
  | nil =>
    rw [mapFramesLoop, wp_pure]
    exact ⟨h, fun _ => ⟨rfl, hkept⟩⟩
  | cons f fs ih =>
    have hf := hfresh f List.mem_cons_self
    obtain ⟨vm, hvm⟩ := h.spaces.exists_space hi
    simp only [mapFramesLoop, wp_bind, wp_attempt]
    refine (map_wp h.accounted hvm).mono ?_ ?_
    · rintro _ s₁ ⟨hacc, hq, -, hnone, hpte⟩
      have hnext := h.step hkept hf hnone hacc hq hpte
      have hkept₁ := fun g => Nat.le_trans (hkept g) (hq.refcount_le g)
      have hrest : ∀ s₂, Allocating (fs ++ held) i v (m + 1) access s₀ s₂ →
          s₂.frames = s₁.frames →
          wp (mapFramesLoop i access clear fs (PageAligned.next ⟨v.number + m⟩) (m + 1))
            (fun r s' => Allocating held i v r.1 access s₀ s' ∧
              (r.2 = none → r.1 = m + (f :: fs).length ∧
                ∀ g, s₀.frames.refcount g ≤ s'.frames.refcount g))
            (fun _ _ => False) s₂ := by
        intro s₂ h₂ hframes
        refine (ih (fun g hg => hfresh g (List.mem_cons_of_mem f hg)) h₂
          (hframes ▸ hkept₁)).imp ?_
        rintro r s' ⟨hr, hlen⟩
        refine ⟨hr, fun hnone => ⟨?_, (hlen hnone).2⟩⟩
        rw [(hlen hnone).1, List.length_cons]
        omega
      cases clear with
      | false =>
        rw [if_neg Bool.false_ne_true, wp_pure]
        exact hrest s₁ hnext rfl
      | true =>
        have hp : s₁.pte i ⟨v.number + m⟩ = some (Vmem.userEntry f access) := by
          rw [hpte, setPte_self]
        rw [if_pos rfl]
        refine (memsetPage_wp hacc hp 0).total ?_
        rintro _ _ rfl
        exact hrest _ (hnext.fill hf 0) rfl
    · rintro e s₁ ⟨hacc, hsp, hb, hrc, hown, hpte, -⟩
      simp only [wp_pure]
      refine (dropFrames_wp hacc).imp ?_
      rintro _ _ ⟨hacc', a, rfl, hcap, hle⟩
      refine ⟨⟨hacc', (h.spaces.trans hsp).after_frames hcap, ?_, ?_, ?_, ?_⟩,
        fun hc => by cases hc⟩
      · intro g hg o ho
        exact (hb g (Nat.lt_of_lt_of_le hg (hkept g)) o ho).trans (h.bytes g hg o ho)
      · intro g
        exact Nat.le_trans (hle g) (h.owners.trans hown g)
      · intro w hlo hhi
        change _ ∧ ∃ f, _ ∧ s₁.pte i w = _
        rw [hpte]
        exact h.done w hlo hhi
      · intro j w hne
        exact (congrFun (congrFun hpte j) w).trans (h.other j w hne)

/-- Taking back the pages that were mapped. -/
theorem rollbackRange_wp (hi : (s₀.spaces i).isSome) (h : Allocating held i v m access s₀ s) :
    wp (rollbackRange i m v)
      (fun _ s' => ∃ w, Allocating held i w 0 access s₀ s') (fun _ _ => False) s := by
  induction m generalizing v s with
  | zero =>
    rw [rollbackRange, wp_pure]
    exact ⟨v, h⟩
  | succ m ih =>
    obtain ⟨vm, hvm⟩ := h.spaces.exists_space hi
    obtain ⟨-, f, -, hp⟩ := h.done v (Nat.le_refl _) (by omega)
    simp only [rollbackRange, wp_bind, wp_attempt]
    refine (tryUnmapUpage_wp h.accounted hvm).mono ?_ ?_
    · rintro r s₁ (⟨-, hnone, -⟩ | ⟨-, p, -, hrel⟩)
      · cases hp.symm.trans hnone
      · exact ih (h.undo hrel)
    · rintro e s₁ ⟨huser, -⟩
      rw [h.accounted.isUserAddr hp] at huser
      cases huser

/-- A call maps the whole range and releases no frame, or it changes no entry. -/
theorem allocUpages_kept_wp (h : Accounted held s) (hi : (s.spaces i).isSome) (clear : Bool)
    (nframes capacity : Nat) (uframes : List Nat) :
    wp (allocUpages i v access clear nframes uframes capacity)
      (fun _ s' => Allocating held i v nframes access s s' ∧
        ∀ g, s.frames.refcount g ≤ s'.frames.refcount g)
      (fun _ s' => ∃ w, Allocating held i w 0 access s s') s := by
  obtain ⟨vm, hvm⟩ := Option.isSome_iff_exists.mp hi
  have hstart : ∀ w, Allocating held i w 0 access s s := fun w =>
    ⟨h, .refl s, fun _ _ _ _ => rfl, .refl s, fun _ _ _ => by omega, fun _ _ _ => rfl⟩
  simp only [allocUpages, wp_ite, wp_throw, wp_bind]
  split_ifs
  · exact ⟨v, hstart v⟩
  · exact ⟨v, hstart v⟩
  · exact ⟨v, hstart v⟩
  · exact ⟨v, hstart v⟩
  · refine (checkUnmapped_wp hvm nframes v).mono ?_ ?_
    · rintro _ s₁ rfl
      refine (allocManyUserFrames_wp h nframes capacity uframes).mono ?_ ?_
      · rintro fs s₂ ⟨hacc, htook, hlen⟩
        refine (mapFramesLoop_wp (m := 0) (v := v) clear hi htook.fresh
          (htook.allocating hacc) htook.kept).total ?_
        rintro ⟨mapped, result⟩ s₃ ⟨hmap, hdone⟩
        cases result with
        | none =>
          rw [wp_pure]
          obtain ⟨hcount, hkept⟩ := hdone rfl
          have hall : mapped = nframes := by rw [← hlen, ← Nat.zero_add fs.length]; exact hcount
          exact ⟨hall ▸ hmap, hkept⟩
        | some e =>
          simp only [wp_bind, wp_throw]
          exact (rollbackRange_wp hi hmap).total fun _ _ hs => hs
      · rintro e s₂ ⟨hacc, htook⟩
        exact ⟨v, htook.allocating hacc⟩
    · rintro _ _ rfl
      exact ⟨v, hstart v⟩

theorem allocUpages_wp (h : Accounted held s) (hi : (s.spaces i).isSome) (clear : Bool)
    (nframes capacity : Nat) (uframes : List Nat) :
    wp (allocUpages i v access clear nframes uframes capacity)
      (fun _ s' => Allocating held i v nframes access s s')
      (fun _ s' => ∃ w, Allocating held i w 0 access s s') s :=
  (allocUpages_kept_wp h hi clear nframes capacity uframes).mono (fun _ _ ha => ha.1) fun _ _ he => he

/-- A new address space owns its directory and has no page. -/
theorem newVmem_wp (h : Accounted held s) :
    wp newVmem
      (fun i s' => i = s.numSpaces ∧ Accounted held s' ∧ NoNewOwners s s' ∧
        s'.memory = s.memory ∧ s'.pte = s.pte ∧
        (∃ d, s'.spaces = update s.spaces i (some (.empty d))) ∧
        s'.numSpaces = s.numSpaces + 1 ∧ s'.frames.capacity = s.frames.capacity)
      (fun e s' => s' = s ∧ e.code = .outOfMemory) s := by
  simp only [newVmem, allocKernelFrame, wp_bind, wp_gets, wp_modify, wp_pure]
  refine (allocFrame_wp h).mono ?_ (fun _ _ he => ⟨he.1, he.2.1⟩)
  rintro d _ ⟨hacc, hzero, a, rfl, hcap, hcount⟩
  have hlast := h.bound s.numSpaces (Nat.le_refl _)
  refine ⟨rfl, ⟨hacc.valid, ?_, ?_, ?_⟩, ?_, rfl, ?_, ⟨d, rfl⟩, rfl, hcap⟩
  · intro j vj hj
    by_cases hji : j = s.numSpaces
    · subst hji
      simp only [update_self, Option.some.injEq] at hj
      exact hj ▸ Vmem.wellFormed_empty d
    · simp only [update_of_ne hji] at hj
      exact h.wellFormed j vj hj
  · intro j hj
    change s.numSpaces + 1 ≤ j at hj
    simp only [update_of_ne (show j ≠ s.numSpaces by omega)]
    exact h.bound j (by omega)
  · intro f
    have hold := hacc.count f
    change a.refcount f = tally (Finset.range (s.numSpaces + 1)) (spaceRefs f)
      (update s.spaces s.numSpaces (some (Vmem.empty d))) + held.count f
    change a.refcount f = s.refs f + (d :: held).count f at hold
    rw [count_cons_eq] at hold
    have hnew : spaceRefs f (some (Vmem.empty d)) = stores f (some d) := Vmem.refs_empty d
    rw [tally_extend, hnew, hold]
    change s.refs f + _ = s.refs f + _ + _
    omega
  · intro g
    change a.refcount g ≤ _
    rw [hcount, update_apply]
    split_ifs <;> omega
  · funext j w
    by_cases hj : j = s.numSpaces
    · subst hj
      simp only [MemState.pte, update_self, Option.bind_some, hlast, Option.bind_none,
        Vmem.tryFindUserPte_empty]
    · simp only [MemState.pte, update_of_ne hj]

end MM
end Nanvix.Mm
