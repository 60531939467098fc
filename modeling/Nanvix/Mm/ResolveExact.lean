import Nanvix.Mm.Isolation

/-!
# When the marked pages of a region can be resolved

Whether a region resolves is known before the first page is touched: a marked page
whose frame has another owner takes a free frame above the reserve of the kernel,
and it must be read-only. A region that resolves leaves every page with its bytes,
and every page of it that was marked with a frame of its own.
-/
namespace Nanvix.Mm
open Config Function Library Library.Prog

variable {held : List Nat} {s s' t : MemState} {i j n free : Nat} {ns : List Nat}
variable {v w : PageAligned} {p q : PageTableEntry}
variable {view view' : PageAligned → Option PageTableEntry} {owners owners' : Nat → Nat}

/-- Whether pages can be resolved one after the other, for the entries of a space, the number
of owners of each frame and the number of free frames. -/
def resolvable (view : PageAligned → Option PageTableEntry) :
    List Nat → (Nat → Nat) → Nat → Bool
  | [], _, _ => true
  | n :: ns, owners, free =>
    match view ⟨n⟩ with
    | none => resolvable view ns owners free
    | some p =>
      if p.isCow = true ∧ owners p.frame ≠ 1 then
        !p.isWritable && decide (kernelWatermark < free) &&
          resolvable view ns (update owners p.frame (owners p.frame - 1)) (free - 1)
      else resolvable view ns owners free

section Resolvable

theorem resolvable_absent (h : view ⟨n⟩ = none) :
    resolvable view (n :: ns) owners free = resolvable view ns owners free := by
  rw [resolvable, h]

theorem resolvable_plain (h : view ⟨n⟩ = some p) (hp : ¬(p.isCow = true ∧ owners p.frame ≠ 1)) :
    resolvable view (n :: ns) owners free = resolvable view ns owners free := by
  rw [resolvable, h]
  exact if_neg hp

theorem resolvable_shared (h : view ⟨n⟩ = some p) (hp : p.isCow = true ∧ owners p.frame ≠ 1) :
    resolvable view (n :: ns) owners free = (!p.isWritable && decide (kernelWatermark < free) &&
      resolvable view ns (update owners p.frame (owners p.frame - 1)) (free - 1)) := by
  rw [resolvable, h]
  exact if_pos hp

/-- Only the pages in question and the owners of their frames matter. -/
theorem resolvable_congr (hview : ∀ n ∈ ns, view ⟨n⟩ = view' ⟨n⟩)
    (howners : ∀ n ∈ ns, ∀ p, view ⟨n⟩ = some p → owners p.frame = owners' p.frame) :
    resolvable view ns owners free = resolvable view' ns owners' free := by
  induction ns generalizing owners owners' free with
  | nil => rfl
  | cons n ns ih =>
    have htail := fun m (hm : m ∈ ns) => hview m (List.mem_cons_of_mem n hm)
    have hown := fun m (hm : m ∈ ns) => howners m (List.mem_cons_of_mem n hm)
    have hhead := hview n (List.mem_cons_self ..)
    cases hn : view ⟨n⟩ with
    | none =>
      rw [resolvable_absent hn, resolvable_absent (hhead ▸ hn)]
      exact ih htail hown
    | some p =>
      have hp := howners n (List.mem_cons_self ..) p hn
      by_cases hshared : p.isCow = true ∧ owners p.frame ≠ 1
      · rw [resolvable_shared hn hshared, resolvable_shared (hhead ▸ hn) (hp ▸ hshared)]
        congr 1
        refine ih htail fun m hm q hq => ?_
        rw [update_apply, update_apply, hp, hown m hm q hq]
      · rw [resolvable_plain hn hshared, resolvable_plain (hhead ▸ hn) (hp ▸ hshared)]
        exact ih htail hown

end Resolvable

/-- The pages of a space were resolved: those that were marked have a frame of their own with
the same bytes, the others are as they were. -/
structure Resolution (held : List Nat) (i : Nat) (ns : List Nat) (s t : MemState) : Prop where
  accounted : Accounted held t
  spaces : SameSpaces s t
  bytes : KeepsBytes s t
  owners : NoNewOwners s t
  inUse : ∀ f, 0 < s.frames.refcount f → 0 < t.frames.refcount f
  kept : ∀ j w, (∀ p, s.pte j w = some p → ¬(j = i ∧ w.number ∈ ns ∧ p.isCow = true)) →
    t.pte j w = s.pte j w
  renewed : ∀ w p, s.pte i w = some p → w.number ∈ ns → p.isCow = true →
    ∃ q, t.pte i w = some q ∧ q.isCow = false ∧ t.frames.refcount q.frame = 1 ∧
      ∀ o, o < pageSize → t.memory (q.frame * pageSize + o) = s.memory (p.frame * pageSize + o)

section Steps

theorem Resolution.idle (h : Accounted held s)
    (hclear : ∀ w p, w.number ∈ ns → s.pte i w = some p → p.isCow = false) :
    Resolution held i ns s s where
  accounted := h
  spaces := .refl s
  bytes _ _ _ _ := rfl
  owners _ := Nat.le_max_left _ _
  inUse _ hf := hf
  kept _ _ _ := rfl
  renewed w p hp hw hcow := by
    rw [hclear w p hw hp] at hcow
    cases hcow

theorem MM.Resolved.inUse (h : MM.Resolved i v p s s') (hpos : 0 < s.frames.refcount p.frame)
    {f : Nat} (hf : 0 < s.frames.refcount f) : 0 < s'.frames.refcount f := by
  cases h with
  | sole one frames memory pte => rwa [frames]
  | copied n readOnly shared fresh owners bytes kept pte =>
    rw [owners, update_apply, update_apply]
    split_ifs <;> omega

theorem MM.ResolveStep.resolution (h : Accounted held s) (hr : MM.ResolveStep held i ⟨n⟩ s s') :
    Resolution held i [n] s s' := by
  obtain ⟨p, hp, hcow, hres⟩ := hr.entry
  have hpos := h.refcount_pos hp
  refine ⟨hr.accounted, hr.spaces, hres.keepsBytes, hres.noNewOwners, fun f hf =>
    hres.inUse hpos hf, fun j w hw => hr.pte_of_ne ?_, fun w q hq hw _ => ?_⟩
  · rintro ⟨rfl, rfl⟩
    exact hw p hp ⟨rfl, List.mem_singleton_self n, hcow⟩
  · obtain rfl : w = ⟨n⟩ := congrArg PageAligned.mk (List.mem_singleton.mp hw)
    cases hp.symm.trans hq
    obtain ⟨q', hpte, hnew⟩ := hres.renewed
    have hq' : s'.pte i ⟨n⟩ = some q' := by rw [hpte, setPte_self]
    exact ⟨q', hq', hnew.clear, hnew.alone.antisymm (hr.accounted.refcount_pos hq'), hnew.bytes⟩

/-- Pages resolved after others. -/
theorem Resolution.cons (h : Accounted held s) (hr : Resolution held i [n] s s')
    (hrs : Resolution held i ns s' t) : Resolution held i (n :: ns) s t where
  accounted := hrs.accounted
  spaces := hr.spaces.trans hrs.spaces
  bytes f hf o ho := (hrs.bytes f (hr.inUse f hf) o ho).trans (hr.bytes f hf o ho)
  owners f := by
    have hone := hr.owners f
    have hrest := hrs.owners f
    omega
  inUse f hf := hrs.inUse f (hr.inUse f hf)
  kept j w hw := by
    have hfirst : s'.pte j w = s.pte j w := hr.kept j w fun p hp hin =>
      hw p hp ⟨hin.1, List.mem_cons.mpr (Or.inl (List.mem_singleton.mp hin.2.1)), hin.2.2⟩
    refine (hrs.kept j w fun p hp hin => ?_).trans hfirst
    exact hw p (hfirst ▸ hp) ⟨hin.1, List.mem_cons_of_mem n hin.2.1, hin.2.2⟩
  renewed w p hp hw hcow := by
    by_cases hn : w.number = n
    · -- The page has its frame already, and the later pages leave it.
      obtain ⟨q, hq, hplain, hone, hbytes⟩ :=
        hr.renewed w p hp (List.mem_singleton.mpr hn) hcow
      have hpos : 0 < s'.frames.refcount q.frame := hone ▸ Nat.one_pos
      have hsame : t.pte i w = s'.pte i w := hrs.kept i w fun q' hq' hin => by
        rw [hq, Option.some.injEq] at hq'
        rw [← hq', hplain] at hin
        cases hin.2.2
      refine ⟨q, hsame.trans hq, hplain, ?_, fun o ho => ?_⟩
      · have hmax := hrs.owners q.frame
        have hmin := hrs.inUse q.frame hpos
        omega
      · exact (hrs.bytes q.frame hpos o ho).trans (hbytes o ho)
    · have hfirst : s'.pte i w = s.pte i w := hr.kept i w fun _ _ hin =>
        hn (List.mem_singleton.mp hin.2.1)
      obtain ⟨q, hq, hplain, hone, hbytes⟩ := hrs.renewed w p (hfirst.trans hp)
        ((List.mem_cons.mp hw).resolve_left hn) hcow
      exact ⟨q, hq, hplain, hone, fun o ho =>
        (hbytes o ho).trans (hr.bytes p.frame (h.refcount_pos hp) o ho)⟩

/-- Copying a page takes one free frame. -/
theorem MM.Resolved.freeCount (h : Accounted held s) (h' : Accounted held s')
    (hcap : s'.frames.capacity = s.frames.capacity) (hp : s.pte i v = some p)
    (hres : MM.Resolved i v p s s') (hshared : s.frames.refcount p.frame ≠ 1) :
    s'.frames.freeCount = s.frames.freeCount - 1 ∧
      ∀ f, 0 < s.frames.refcount f → s'.frames.refcount f =
        update s.frames.refcount p.frame (s.frames.refcount p.frame - 1) f := by
  have hpos := h.refcount_pos hp
  cases hres with
  | sole one frames memory pte => exact absurd one hshared
  | copied m readOnly shared fresh owners bytes kept pte =>
    have hne : m ≠ p.frame := fun hm => by rw [← hm, fresh] at hpos; cases hpos
    have hm : s'.frames.refcount m = 1 := by
      rw [owners, update_of_ne hne, update_self]
    have hlt : m < s.frames.capacity := hcap ▸ h'.valid.bound m (by omega)
    constructor
    · have hfree : (Finset.range s.frames.capacity).filter (fun g => s'.frames.refcount g = 0) =
          ((Finset.range s.frames.capacity).filter
            fun g => s.frames.refcount g = 0).erase m := by
        ext g
        rw [Finset.mem_erase, Finset.mem_filter, Finset.mem_filter, owners]
        by_cases hgp : g = p.frame
        · rw [hgp, update_self]
          omega
        · rw [update_of_ne hgp]
          by_cases hgm : g = m
          · rw [hgm, update_self]
            omega
          · rw [update_of_ne hgm]
            tauto
      have hnow := h'.valid.freeCount_eq
      change _ = ((Finset.range s'.frames.capacity).filter _).card at hnow
      rw [hnow, hcap, hfree, Finset.card_erase_of_mem, h.valid.freeCount_eq]
      · rfl
      · exact Finset.mem_filter.mpr ⟨Finset.mem_range.mpr hlt, fresh⟩
    · intro f hf
      have hfm : f ≠ m := fun hfm => by rw [hfm, fresh] at hf; cases hf
      rw [owners, update_apply, update_apply, update_apply, if_neg hfm]

end Steps

/-- Resolving pages succeeds exactly when the count of free frames and owners allows it. -/
theorem resolvePages_wp (h : Accounted held s) (hi : (s.spaces i).isSome) (hnodup : ns.Nodup) :
    wp (forEach (fun n => do let _ ← MM.resolveCowAt i ⟨n⟩) ns)
      (fun _ t => Resolution held i ns s t ∧
        resolvable (s.pte i) ns s.frames.refcount s.frames.freeCount = true)
      (fun _ _ => resolvable (s.pte i) ns s.frames.refcount s.frames.freeCount = false) s := by
  induction ns generalizing s with
  | nil =>
    rw [forEach, wp_pure]
    exact ⟨.idle h fun w p hw => absurd hw List.not_mem_nil, rfl⟩
  | cons n ns ih =>
    obtain ⟨hnew, hrest⟩ := List.nodup_cons.mp hnodup
    obtain ⟨vm, hvm⟩ := Option.isSome_iff_exists.mp hi
    rw [forEach, wp_bind, wp_bind]
    refine (MM.resolveCowAt_wp (v := ⟨n⟩) h hvm).mono ?_ ?_
    · rintro r s₁ (⟨-, rfl, hclear⟩ | ⟨-, hstep, hroom⟩)
      · have hskip : ∀ owners free, resolvable (s₁.pte i) (n :: ns) owners free =
            resolvable (s₁.pte i) ns owners free := by
          intro owners free
          cases hn : s₁.pte i ⟨n⟩ with
          | none => exact resolvable_absent hn
          | some p => exact resolvable_plain hn fun hp => by rw [hclear p hn] at hp; cases hp.1
        rw [wp_pure, hskip]
        refine (ih h hi hrest).imp fun _ t ht => ⟨.cons h (.idle h ?_) ht.1, ht.2⟩
        intro w p hw hp
        obtain rfl : w = ⟨n⟩ := congrArg PageAligned.mk (List.mem_singleton.mp hw)
        exact hclear p hp
      · have hlater : resolvable (s.pte i) (n :: ns) s.frames.refcount s.frames.freeCount =
            resolvable (s₁.pte i) ns s₁.frames.refcount s₁.frames.freeCount := by
          obtain ⟨p, hp, hcow, hres⟩ := hstep.entry
          have hview : ∀ m ∈ ns, s.pte i ⟨m⟩ = s₁.pte i ⟨m⟩ := fun m hm =>
            (hstep.pte_of_ne fun hin => hnew (PageAligned.mk.inj hin.2 ▸ hm)).symm
          by_cases hone : s.frames.refcount p.frame = 1
          · have hframes : s₁.frames = s.frames := by
              cases hres with
              | sole one frames memory pte => exact frames
              | copied m readOnly shared fresh owners bytes kept pte => exact absurd hone shared
            rw [resolvable_plain hp fun hc => hc.2 hone, hframes]
            exact resolvable_congr hview fun _ _ _ _ => rfl
          · have hro : p.isWritable = false := by
              cases hres with
              | sole one frames memory pte => exact absurd one hone
              | copied m readOnly shared fresh owners bytes kept pte => exact readOnly
            obtain ⟨hfree, howners⟩ :=
              hres.freeCount h hstep.accounted hstep.spaces.capacity hp hone
            rw [resolvable_shared hp ⟨hcow, hone⟩, hro, hfree,
              decide_eq_true (hroom ⟨p, hp, hcow, hone⟩), Bool.not_false, Bool.true_and,
              Bool.true_and]
            exact resolvable_congr hview fun m hm q hq => (howners _ (h.refcount_pos hq)).symm
        rw [wp_pure, hlater]
        exact (ih hstep.accounted ((hstep.spaces.live i).trans hi) hrest).imp fun _ t ht => ⟨.cons h (hstep.resolution h) ht.1, ht.2⟩
    · rintro e s₁ ⟨-, ⟨-, ⟨p, hp, hcow, hne⟩, hlow⟩ | ⟨p, hp, hcow, hw, hne⟩⟩
      · rw [resolvable_shared hp ⟨hcow, hne⟩, decide_eq_false (Nat.not_lt.mpr hlow),
          Bool.and_false, Bool.false_and]
      · rw [resolvable_shared hp ⟨hcow, hne⟩, hw, Bool.not_true, Bool.false_and, Bool.false_and]

/-- Whether the region can be resolved. -/
def MemState.resolvable (s : MemState) (i addr size : Nat) : Bool :=
  Mm.resolvable (s.pte i) (MM.regionPages addr size) s.frames.refcount s.frames.freeCount

theorem resolveCowForRegion_exact {addr size : Nat} (h : Accounted held s)
    (hi : (s.spaces i).isSome) (hsize : size ≠ 0) (hend : ¬usizeMax < addr + (size - 1)) :
    wp (MM.resolveCowForRegion i addr size)
      (fun _ t => Resolution held i (MM.regionPages addr size) s t ∧
        s.resolvable i addr size = true)
      (fun _ _ => s.resolvable i addr size = false) s := by
  rw [MM.resolveCowForRegion, if_neg hsize, if_neg hend]
  exact resolvePages_wp h hi (List.nodup_range' ..)

end Nanvix.Mm
