import Nanvix.Mm.Lifecycle

/-!
# Specifications of the memory routines: the end of a process

Dropping an address space gives its page tables and its directory back and leaks
the frames of its user pages. Harvesting a process unmaps the user stacks of its
threads, releases their kernel stacks and drops the space.
-/
namespace Nanvix.Mm
open Config Function Library Library.Prog

variable {held : List Nat} {s s' : MemState} {i : Nat} {vm : Vmem}

/-- What an empty space owns, as a list of handles. -/
def Vmem.tableFrames (vm : Vmem) : List Nat :=
  vm.userPageTables.entries.map fun e => e.2.storage

/-- A list of tables and a directory that agree own the same frames. -/
theorem count_tables {f : Nat} {l : List (Sigma fun _ : PageTableAddress => PageTable)}
    {entries : PageTableAddress → Option Nat}
    (hkeys : l.NodupKeys) (hlt : ∀ e ∈ l, e.1.number < pageTableLength)
    (hmem : ∀ t k, entries t = some k ↔ ∃ pt, ⟨t, pt⟩ ∈ l ∧ pt.storage = k) :
    (l.map fun e => e.2.storage).count f =
      tally (Finset.range pageTableLength) (stores f) fun n => entries ⟨n⟩ := by
  induction l generalizing entries with
  | nil =>
    symm
    refine tally_eq_zero fun n _ => ?_
    cases he : entries ⟨n⟩ with
    | none => rfl
    | some k =>
      obtain ⟨pt, hpt, -⟩ := (hmem _ _).mp he
      cases hpt
  | cons e l ih =>
    obtain ⟨t, pt⟩ := e
    obtain ⟨hnot, hkeys'⟩ := List.nodupKeys_cons.mp hkeys
    have hhead : entries t = some pt.storage := (hmem _ _).mpr ⟨pt, List.mem_cons_self, rfl⟩
    have htail : ∀ u k, update entries t none u = some k ↔
        ∃ pu, ⟨u, pu⟩ ∈ l ∧ PageTable.storage pu = k := by
      intro u k
      rw [update_apply]
      split_ifs with hu
      · subst hu
        constructor
        · intro hc
          cases hc
        · rintro ⟨pu, hpu, -⟩
          exact absurd (List.mem_keys_of_mem hpu) hnot
      · rw [hmem]
        refine exists_congr fun pu => and_congr_left fun _ => ?_
        rw [List.mem_cons, or_iff_right fun heq => hu (congrArg Sigma.fst heq)]
    have hrest := ih hkeys' (fun e he => hlt e (List.mem_cons_of_mem _ he)) htail
    have hfam : (fun n => update entries t none ⟨n⟩) =
        update (fun n => entries ⟨n⟩) t.number none := by
      funext n
      rw [update_apply, update_apply]
      congr 1
      exact propext ⟨fun hn => by rw [← hn], fun hn => by rw [hn]⟩
    have hupd := tally_update (stores f) (fun n => entries ⟨n⟩)
      (Finset.mem_range.mpr (hlt _ List.mem_cons_self)) none
    change _ + stores f (entries t) = _ at hupd
    rw [hfam] at hrest
    rw [hhead, stores_none] at hupd
    rw [List.map_cons, count_cons_eq, hrest]
    change _ + stores f (some pt.storage) = _
    omega

/-- The frames of the user pages of a space. -/
def Vmem.userFrames (vm : Vmem) : List Nat :=
  (List.range numPages).filterMap fun n => (vm.tryFindUserPte ⟨n⟩).map (·.frame)

theorem Vmem.userFrames_eq_nil (h : ∀ v, vm.tryFindUserPte v = none) : vm.userFrames = [] := by
  unfold userFrames
  rw [List.filterMap_eq_nil_iff]
  intro n _
  rw [h, Option.map_none]

theorem Vmem.count_userFrames (vm : Vmem) (f : Nat) : vm.userFrames.count f = vm.userRefs f := by
  unfold userFrames userRefs viewRefs
  generalize numPages = m
  induction m with
  | zero => rfl
  | succ m ih =>
    rw [List.range_succ, List.filterMap_append, List.count_append, ih, tally, tally,
      Finset.sum_range_succ]
    congr 1
    cases hp : vm.tryFindUserPte ⟨m⟩ with
    | none => simp [hp]
    | some p => simp [hp, count_cons_eq]

/-- A space owns its user pages, its tables and its directory. -/
theorem Vmem.WellFormed.refs_eq {f : Nat} (h : vm.WellFormed) :
    vm.refs f = (vm.userFrames ++ vm.tableFrames ++ [vm.pgdir.storage]).count f := by
  have husr := vm.count_userFrames f
  have htab : vm.tableFrames.count f =
      tally (Finset.range pageTableLength) (stores f) fun n => vm.pgdir.entries ⟨n⟩ := by
    refine count_tables vm.userPageTables.nodupKeys ?_ ?_
    · rintro ⟨t, pt⟩ he
      exact number_lt_pageTableLength (h.user t (AList.mem_keys.mpr (List.mem_keys_of_mem he)) 0 (by decide))
    · intro t k
      rw [h.directory, Option.map_eq_some_iff]
      exact exists_congr fun pt => and_congr_left fun _ => AList.mem_lookup_iff
  rw [refs, kernelRefs, List.count_append, List.count_append, husr, htab, count_cons_eq,
    List.count_nil]
  omega

/-- Taking a space away turns what it owns into handles. -/
theorem Accounted.removeSpace {held' : List Nat} (h : Accounted held s)
    (hi : s.spaces i = some vm) (hrefs : ∀ f, held'.count f = vm.refs f + held.count f) :
    Accounted held' { s with spaces := update s.spaces i none } where
  valid := h.valid
  wellFormed j vj hj := by
    by_cases hji : j = i
    · subst hji
      simp only [update_self] at hj
      cases hj
    · exact h.wellFormed j vj (by simpa only [update_of_ne hji] using hj)
  bound j hj := by
    have hji : j ≠ i := Nat.ne_of_gt (Nat.lt_of_lt_of_le (h.lt_numSpaces hi) hj)
    simpa only [update_of_ne hji] using h.bound j hj
  count f := by
    have hsum := tally_update (spaceRefs f) s.spaces
      (Finset.mem_range.mpr (h.lt_numSpaces hi)) none
    rw [hi] at hsum
    have hold := h.count f
    have hnew := hrefs f
    change s.frames.refcount f =
      tally (Finset.range s.numSpaces) _ (update s.spaces i none) + _
    change tally _ _ (update s.spaces i none) + vm.refs f = s.refs f + 0 at hsum
    omega

namespace MM

/-- Dropping a space turns its user pages into handles that nobody holds. -/
theorem dropVmem_wp (h : Accounted held s) (hi : s.spaces i = some vm) :
    wp (dropVmem i)
      (fun _ s' => Accounted (vm.userFrames ++ held) s' ∧
        s'.spaces = update s.spaces i none ∧ s'.numSpaces = s.numSpaces ∧
        s'.frames.capacity = s.frames.capacity ∧
        ∀ g, s'.frames.refcount g ≤ s.frames.refcount g)
      (fun _ _ => False) s := by
  have hout : Accounted (vm.tableFrames ++ (vm.pgdir.storage :: (vm.userFrames ++ held)))
      { s with spaces := update s.spaces i none } :=
    h.removeSpace hi fun f => by
      rw [(h.wellFormed i vm hi).refs_eq]
      simp only [List.count_append, List.count_cons, List.count_nil]
      omega
  simp only [dropVmem, wp_bind]
  apply onSpace_gets_wp hi
  rw [wp_modify]
  refine (dropFrames_wp hout).total ?_
  rintro _ _ ⟨hacc, a, rfl, hcap, hle⟩
  refine (dropFrame_wp hacc).total ?_
  rintro _ _ ⟨hacc', b, rfl, hcap', hcount⟩
  refine ⟨hacc', rfl, rfl, hcap'.trans hcap, fun g => ?_⟩
  have hg := hle g
  change b.refcount g ≤ _
  rw [hcount, update_apply]
  split_ifs with hgd
  · subst hgd
    exact Nat.le_trans (Nat.sub_le _ _) hg
  · exact hg

/-- A range of frames holds each of them once. -/
theorem count_range' (base n f : Nat) :
    (List.range' base n).count f = if base ≤ f ∧ f < base + n then 1 else 0 := by
  split_ifs with hf
  · exact List.count_eq_one_of_mem List.nodup_range' (List.mem_range'_1.mpr hf)
  · exact List.count_eq_zero.mpr fun hmem => hf (List.mem_range'_1.mp hmem)

theorem newKernelStack_wp (h : Accounted held s) :
    wp newKernelStack
      (fun kernelStack s' => Accounted (kernelStack ++ held) s' ∧ SameSpaces s s' ∧
        NoNewOwners s s' ∧ s'.pte = s.pte)
      (fun _ s' => s' = s ∧
        ∃ e, s.frames.bitmap.allocRange (kstackSize / pageSize) = .error e) s := by
  simp only [newKernelStack, wp_bind]
  apply onFrames_wp
  refine (FrameAllocator.allocContiguous_wp h.valid _).mono ?_
    (fun _ _ he => ⟨by rw [he.1], he.2⟩)
  rintro base a ⟨ha, hzero, hcount⟩
  generalize kstackSize / pageSize = n at hzero hcount ⊢
  have hacc : Accounted (List.range' base n ++ held) { s with frames := a } :=
    h.setFrames ha.valid fun f => by
      rw [hcount, FrameAllocator.tookRange, List.count_append, count_range']
      split_ifs with hf
      · rw [hzero f hf.1 hf.2]
        omega
      · omega
  have hframes : ∀ f ∈ List.range' base n, 0 < a.refcount f := by
    intro f hf
    rw [List.mem_range'_1] at hf
    rw [hcount, FrameAllocator.tookRange, if_pos hf]
    exact Nat.zero_lt_one
  rw [wp_attempt]
  refine (wp_forEach (E := fun _ _ => False) (fun bs s' => (∀ f ∈ bs, 0 < a.refcount f) ∧
    ∃ m, s' = { s with frames := a, memory := m }) ?_ _ ⟨hframes, s.memory, rfl⟩).total ?_
  · rintro f bs _ ⟨hbs, m, rfl⟩
    refine (memset_wp ?_).imp ?_
    · exact frame_end_le (s := { s with frames := a }) ha.valid (hbs f List.mem_cons_self)
    · rintro _ _ rfl
      exact ⟨fun g hg => hbs g (List.mem_cons_of_mem f hg), _, rfl⟩
  · rintro _ _ ⟨-, m, rfl⟩
    rw [wp_pure]
    refine ⟨hacc.setMemory m, ⟨fun _ => rfl, rfl, ha.capacity⟩, fun f => ?_, rfl⟩
    change a.refcount f ≤ _
    rw [hcount, FrameAllocator.tookRange]
    split_ifs <;> omega

theorem dropKernelStack_wp {kernelStack : List Nat} (h : Accounted (kernelStack ++ held) s) :
    wp (dropKernelStack kernelStack)
      (fun _ s' => Accounted held s' ∧ SameSpaces s s' ∧
        (∀ g, s'.frames.refcount g ≤ s.frames.refcount g) ∧ s'.pte = s.pte)
      (fun _ _ => False) s := by
  have hrev : Accounted (kernelStack.reverse ++ held) s := h.perm fun f => by
    rw [List.count_append, List.count_append, List.count_reverse]
  refine (dropFrames_wp hrev).imp ?_
  rintro _ _ ⟨hacc, a, rfl, hcap, hle⟩
  exact ⟨hacc, (SameSpaces.refl s).after_frames hcap, hle, rfl⟩

/-- The pages of a user stack. -/
def inStack (base v : PageAligned) : Prop :=
  base.number ≤ v.number ∧ v.number < base.number + userStackSize / pageSize

instance (base v : PageAligned) : Decidable (inStack base v) :=
  inferInstanceAs (Decidable (_ ∧ _))

/-- A step that takes owners away and leaves the pages outside a set alone. -/
structure Shrinks (gone : Nat → PageAligned → Prop) (s s' : MemState) : Prop where
  owners : ∀ g, s'.frames.refcount g ≤ s.frames.refcount g
  kept : ∀ j w, ¬gone j w → s'.pte j w = s.pte j w

theorem Shrinks.refl (gone : Nat → PageAligned → Prop) (s : MemState) : Shrinks gone s s :=
  ⟨fun _ => Nat.le_refl _, fun _ _ _ => rfl⟩

theorem Shrinks.trans {gone gone' : Nat → PageAligned → Prop} {s s' s'' : MemState}
    (h : Shrinks gone s s') (h' : Shrinks gone' s' s'') (hsub : ∀ j w, gone' j w → gone j w) :
    Shrinks gone s s'' :=
  ⟨fun g => (h'.owners g).trans (h.owners g),
    fun j w hw => (h'.kept j w fun hg => hw (hsub j w hg)).trans (h.kept j w hw)⟩

/-- After the unmap no page of the stack is left, and no other page is gone. -/
theorem unmapUserStack_wp {base : PageAligned} (h : Accounted held s) (hi : (s.spaces i).isSome) :
    wp (unmapUserStack i base)
      (fun _ s' => Accounted held s' ∧ SameSpaces s s' ∧
        Shrinks (fun j w => j = i ∧ inStack base w) s s' ∧
        ∀ v p, s'.pte i v = some p → s.pte i v = some p ∧ ¬inStack base v)
      (fun _ _ => False) s := by
  refine (wp_forEach (fun bs s' => (∀ n ∈ bs, inStack base ⟨n⟩) ∧ Accounted held s' ∧
    SameSpaces s s' ∧ Shrinks (fun j w => j = i ∧ inStack base w) s s' ∧
    ∀ v p, s'.pte i v = some p → s.pte i v = some p ∧ (inStack base v → v.number ∈ bs)) ?_ _
    ⟨fun n hn => List.mem_range'_1.mp hn, h, .refl s, .refl _ s,
      fun v p hp => ⟨hp, fun hin => List.mem_range'_1.mpr hin⟩⟩).imp ?_
  · rintro n bs s₁ ⟨hbs, hacc, hsp, hshrink, hleft⟩
    have hbs' := fun m hm => hbs m (List.mem_cons_of_mem n hm)
    obtain ⟨vm, hvm⟩ := hsp.exists_space hi
    simp only [wp_bind, wp_attempt, wp_pure]
    have hrest : ∀ s₂ : MemState, s₂.pte i ⟨n⟩ = none →
        (∀ v : PageAligned, v ≠ ⟨n⟩ → s₂.pte i v = s₁.pte i v) → ∀ v p, s₂.pte i v = some p →
          s.pte i v = some p ∧ (inStack base v → v.number ∈ bs) := by
      intro s₂ hnone hsame v p hp
      have hne : v ≠ ⟨n⟩ := fun hv => by rw [hv, hnone] at hp; cases hp
      rw [hsame v hne] at hp
      obtain ⟨hold, hmem⟩ := hleft v p hp
      refine ⟨hold, fun hin => (List.mem_cons.mp (hmem hin)).resolve_left fun hn => hne ?_⟩
      cases v
      cases hn
      rfl
    refine (tryUnmapUpage_wp (v := ⟨n⟩) hacc hvm).mono ?_ ?_
    · rintro r s₂ (⟨-, hnone, rfl⟩ | ⟨-, p, -, hrel⟩)
      · exact ⟨hbs', hacc, hsp, hshrink, hrest _ hnone fun _ _ => rfl⟩
      · have hone : Shrinks (fun j w => j = i ∧ w = ⟨n⟩) s₁ s₂ :=
          ⟨hrel.owners, fun j w hw => by rw [hrel.pte, setPte_of_ne hw]⟩
        refine ⟨hbs', hrel.accounted, hsp.trans hrel.spaces, hshrink.trans hone ?_,
          hrest _ ?_ fun v hv => hone.kept i v fun hc => hv hc.2⟩
        · rintro j w ⟨rfl, rfl⟩
          exact ⟨rfl, hbs n List.mem_cons_self⟩
        · rw [hrel.pte, setPte_self]
    · rintro e s₂ ⟨huser, rfl⟩
      refine ⟨hbs', hacc, hsp, hshrink, hrest _ ?_ fun _ _ => rfl⟩
      by_contra hne
      obtain ⟨p, hp⟩ := Option.ne_none_iff_exists'.mp hne
      rw [hacc.isUserAddr hp] at huser
      cases huser
  · rintro _ s' ⟨-, hacc, hsp, hshrink, hleft⟩
    refine ⟨hacc, hsp, hshrink, fun v p hp => ⟨(hleft v p hp).1, fun hin => ?_⟩⟩
    exact absurd ((hleft v p hp).2 hin) List.not_mem_nil

/-- A page of a thread's user stack. -/
def inUserStack (t : ThreadStacks) (v : PageAligned) : Prop :=
  ∃ base, t.userStack = some base ∧ inStack base v

/-- Harvesting a thread releases its kernel stack and unmaps its user stack. -/
theorem harvestThread_wp {t : ThreadStacks}
    (h : Accounted (LifeState.stackFrames t ++ held) s) (hi : (s.spaces i).isSome) :
    wp (harvestThread i t)
      (fun _ s' => Accounted held s' ∧ SameSpaces s s' ∧
        Shrinks (fun j w => j = i ∧ inUserStack t w) s s' ∧
        ∀ v p, s'.pte i v = some p → s.pte i v = some p ∧
          ∀ base, t.kernelStack.isSome → t.userStack = some base → ¬inStack base v)
      (fun _ _ => False) s := by
  obtain ⟨kernelStack, userStack⟩ := t
  cases kernelStack with
  | none =>
    rw [harvestThread, wp_pure]
    exact ⟨h, .refl s, .refl _ s, fun v p hp => ⟨hp, fun _ hc => by cases hc⟩⟩
  | some kernelStack =>
    cases userStack with
    | none =>
      refine (dropKernelStack_wp h).imp ?_
      rintro _ s' ⟨hacc, hsp, hle, hpte⟩
      exact ⟨hacc, hsp, ⟨hle, fun j w _ => by rw [hpte]⟩,
        fun v p hp => ⟨hpte ▸ hp, fun _ _ hc => by cases hc⟩⟩
    | some base =>
      simp only [harvestThread, wp_bind]
      refine (unmapUserStack_wp h hi).imp ?_
      rintro _ s₁ ⟨hacc, hsp, hshrink, hleft⟩
      refine (dropKernelStack_wp hacc).imp ?_
      rintro _ s' ⟨hacc', hsp', hle, hpte⟩
      refine ⟨hacc', hsp.trans hsp', ⟨fun g => (hle g).trans (hshrink.owners g), ?_⟩,
        fun v p hp => ?_⟩
      · intro j w hw
        rw [hpte]
        exact hshrink.kept j w fun hc => hw ⟨hc.1, base, rfl, hc.2⟩
      rw [hpte] at hp
      obtain ⟨hold, hout⟩ := hleft v p hp
      exact ⟨hold, fun b _ hb => by cases hb; exact hout⟩

/-- A page that harvesting the threads of the process unmaps. -/
def Harvested (p : ProcessMem) (v : PageAligned) : Prop :=
  ∃ t ∈ p.threads, t.kernelStack.isSome ∧ ∃ base, t.userStack = some base ∧ inStack base v

/-- Harvesting a process takes its space away; it leaks nothing if all its pages lie in the user
stacks of its threads. -/
theorem harvestProcess_wp {p : ProcessMem}
    (h : Accounted (LifeState.processFrames p ++ held) s) (hi : (s.spaces p.space).isSome) :
    wp (harvestProcess p)
      (fun _ s' => ∃ leaked, Accounted (leaked ++ held) s' ∧
        ((∀ v, s.pte p.space v ≠ none → Harvested p v) → leaked = []) ∧
        (∀ j, j ≠ p.space → (s'.spaces j).isSome = (s.spaces j).isSome) ∧
        s'.frames.capacity = s.frames.capacity ∧ Shrinks (fun j _ => j = p.space) s s')
      (fun _ _ => False) s := by
  simp only [harvestProcess, wp_bind]
  refine (wp_forEach (fun ts s' => Accounted (ts.flatMap LifeState.stackFrames ++ held) s' ∧
    SameSpaces s s' ∧ Shrinks (fun j _ => j = p.space) s s' ∧
    ∀ v q, s'.pte p.space v = some q → s.pte p.space v = some q ∧
      ∀ t ∈ p.threads, t.kernelStack.isSome → ∀ base, t.userStack = some base →
        inStack base v → t ∈ ts) ?_ p.threads
    ⟨h, .refl s, .refl _ s, fun v q hq => ⟨hq, fun t ht _ _ _ _ => ht⟩⟩).imp ?_
  · rintro t ts s₁ ⟨hacc, hsp, hshrink, hleft⟩
    rw [List.flatMap_cons, List.append_assoc] at hacc
    refine (harvestThread_wp hacc ((hsp.live _).trans hi)).imp ?_
    rintro _ s₂ ⟨hacc₂, hsp₂, hshrink₂, hleft₂⟩
    refine ⟨hacc₂, hsp.trans hsp₂, hshrink.trans hshrink₂ fun _ _ hc => hc.1, fun v q hq => ?_⟩
    obtain ⟨hq₁, hout⟩ := hleft₂ v q hq
    obtain ⟨hq₀, hin⟩ := hleft v q hq₁
    refine ⟨hq₀, fun u hu hk base hb hv => ?_⟩
    refine (List.mem_cons.mp (hin u hu hk base hb hv)).resolve_left fun hut => ?_
    subst hut
    exact hout base hk hb hv
  · rintro _ s₁ ⟨hacc, hsp, hshrink, hleft⟩
    obtain ⟨vm, hvm⟩ := hsp.exists_space hi
    refine (dropVmem_wp hacc hvm).imp ?_
    rintro _ s₂ ⟨hacc₂, hspaces, -, hcap, hle⟩
    refine ⟨vm.userFrames, hacc₂, fun hpages => ?_, fun j hj => ?_, hcap.trans hsp.capacity,
      hshrink.trans ⟨hle, fun j w hj => ?_⟩ fun _ _ hc => hc⟩
    · refine Vmem.userFrames_eq_nil fun v => ?_
      rw [← Accounted.pte_of_space hvm]
      by_contra hne
      obtain ⟨q, hq⟩ := Option.ne_none_iff_exists'.mp hne
      obtain ⟨hq₀, hin⟩ := hleft v q hq
      obtain ⟨t, ht, hk, base, hb, hv⟩ := hpages v (by rw [hq₀]; exact Option.some_ne_none q)
      exact absurd (hin t ht hk base hb hv) List.not_mem_nil
    · rw [hspaces, update_of_ne hj]
      exact hsp.live j
    · unfold MemState.pte
      rw [hspaces, update_of_ne hj]

end MM
end Nanvix.Mm
