import Nanvix.Mm.Trim

/-!
# Which pages a link shares

Which pages `link_user_pages` shares before it fails is known before the call. The
walk takes the pages of the parent in the order of its page tables, in chunks, and
marking a page moves its table to the front of the list, which the next chunk then
sees. A page can be shared when the counter of its frame is not at its maximum and
the child has a page table for its region, or a frame is left for one.

## Implementation notes

The pages that are done are a list. It determines the pages and the page tables of
the child, how often each frame was shared, and how many frames were taken.
-/
namespace Nanvix.Mm
open Config Function Library Library.Prog MM Vmem

variable {held : List Nat} {s₀ s s' : MemState} {parent child i : Nat} {vm vp vc : Vmem}
variable {v w : PageAligned} {t : PageTableAddress} {p : PageTableEntry}
variable {es rest done : List LinkEntry} {e : LinkEntry} {keys : List PageTableAddress}
variable {view : PageAligned → Option PageTableEntry} {refcount : Nat → Nat} {free : Nat}

section Plan

/-- The pages of the page tables, in the order in which they are visited. -/
def pageOrder (keys : List PageTableAddress) : List PageAligned :=
  keys.flatMap fun t => (List.range pageTableLength).map t.page

/-- The order of the page tables of the parent after a page was shared. -/
def touched (keys : List PageTableAddress) (e : LinkEntry) : List PageTableAddress :=
  if e.writable then e.page.pgtab :: keys.erase e.page.pgtab else keys

/-- The next chunk of the walk: the first pages that are not done. -/
def nextChunk (view : PageAligned → Option PageTableEntry) (keys : List PageTableAddress)
    (done : List LinkEntry) : List LinkEntry :=
  ((pageOrder keys).filterMap fun w =>
    if ∃ e ∈ done, e.page = w then none
    else (view w).map fun p => ⟨w, p.frame, p.isWritable⟩).take linkChunk

/-- The pages of a walk that does not fail. -/
def walkOrder (view : PageAligned → Option PageTableEntry) :
    Nat → List PageTableAddress → List LinkEntry → List LinkEntry
  | 0, _, _ => []
  | fuel + 1, keys, done =>
    let chunk := nextChunk view keys done
    if chunk.length < linkChunk then chunk
    else chunk ++ walkOrder view fuel (chunk.foldl touched keys) (done ++ chunk)

/-- The regions of the pages. -/
def regions (es : List LinkEntry) : Finset PageTableAddress :=
  (es.map fun e => e.page.pgtab).toFinset

/-- Whether a page can be shared after others, for the counters and the number of free frames
at the start of the walk. -/
def canShare (refcount : Nat → Nat) (free : Nat) (done : List LinkEntry) (e : LinkEntry) : Bool :=
  decide (refcount e.frame + done.countP (·.frame = e.frame) < 255) &&
    (decide (e.page.pgtab ∈ regions done) || decide ((regions done).card < free))

/-- The pages that are done when the first page of the list cannot be shared. -/
def sharedBefore (refcount : Nat → Nat) (free : Nat) :
    List LinkEntry → List LinkEntry → Option (List LinkEntry)
  | _, [] => none
  | done, e :: es =>
    if canShare refcount free done e then sharedBefore refcount free (done ++ [e]) es
    else some done

/-- The pages of the space in the order in which a link visits them. -/
def MemState.linkOrder (s : MemState) (i : Nat) : List LinkEntry :=
  match s.spaces i with
  | some vm => walkOrder (s.pte i) (vm.userMappings.length + 1) vm.userPageTables.keys []
  | none => []

/-- The pages that a link shares before it fails, when other steps spent some of the free frames;
nothing when it does not fail. -/
def MemState.linkStops (s : MemState) (parent spent : Nat) : Option (List LinkEntry) :=
  sharedBefore s.frames.refcount (s.frames.freeCount - spent) [] (s.linkOrder parent)

theorem sharedBefore_append (l₁ l₂ : List LinkEntry) :
    sharedBefore refcount free done (l₁ ++ l₂) =
      (sharedBefore refcount free done l₁).or (sharedBefore refcount free (done ++ l₁) l₂) := by
  induction l₁ generalizing done with
  | nil => rw [List.nil_append, List.append_nil, sharedBefore, Option.none_or]
  | cons e l₁ ih =>
    rw [List.cons_append, sharedBefore, sharedBefore]
    split_ifs
    · rw [ih, List.append_assoc, List.singleton_append]
    · rfl

/-- A page of the walk is a page of the view, with its frame. -/
theorem exists_of_mem_walkOrder {fuel : Nat} (he : e ∈ walkOrder view fuel keys done) :
    ∃ p, view e.page = some p ∧ e.frame = p.frame := by
  induction fuel generalizing keys done with
  | zero => cases he
  | succ fuel ih =>
    have hchunk : ∀ e ∈ nextChunk view keys done, ∃ p, view e.page = some p ∧ e.frame = p.frame := by
      intro e he
      obtain ⟨w, -, hw⟩ := List.mem_filterMap.mp (List.mem_of_mem_take he)
      split_ifs at hw
      obtain ⟨p, hp, rfl⟩ := Option.map_eq_some_iff.mp hw
      exact ⟨p, hp, rfl⟩
    rw [walkOrder] at he
    split_ifs at he
    · exact hchunk e he
    · rcases List.mem_append.mp he with he | he
      · exact hchunk e he
      · exact ih he

/-- Only the counters of the frames in question matter. -/
theorem sharedBefore_congr {refcount' : Nat → Nat}
    (h : ∀ e ∈ es, refcount' e.frame = refcount e.frame) :
    sharedBefore refcount' free done es = sharedBefore refcount free done es := by
  induction es generalizing done with
  | nil => rfl
  | cons e es ih =>
    rw [sharedBefore, sharedBefore, canShare, canShare, h e List.mem_cons_self,
      ih fun e he => h e (List.mem_cons_of_mem _ he)]

theorem mem_regions : t ∈ regions es ↔ ∃ e ∈ es, e.page.pgtab = t := by
  rw [regions, List.mem_toFinset, List.mem_map]

theorem regions_concat (done : List LinkEntry) (e : LinkEntry) :
    regions (done ++ [e]) = insert e.page.pgtab (regions done) := by
  ext t
  simp only [mem_regions, List.mem_append, List.mem_singleton, Finset.mem_insert]
  constructor
  · rintro ⟨e', he' | rfl, ht⟩
    · exact Or.inr ⟨e', he', ht⟩
    · exact Or.inl ht.symm
  · rintro (rfl | ⟨e', he', ht⟩)
    · exact ⟨e, Or.inr rfl, rfl⟩
    · exact ⟨e', Or.inl he', ht⟩

/-- The mappings of a space are the entries of the pages of its tables. -/
theorem Vmem.userMappings_eq (vm : Vmem) : vm.userMappings =
    (pageOrder vm.userPageTables.keys).filterMap fun w => (vm.tryFindUserPte w).map (Prod.mk w) := by
  rw [userMappings, pageOrder, List.filterMap_flatMap, AList.keys, List.keys, List.flatMap_map]
  refine List.flatMap_congr ?_
  rintro ⟨t, pt⟩ ht
  rw [PageTable.iterPresentPtes, List.map_filterMap, List.filterMap_map]
  refine List.filterMap_congr fun n hn => ?_
  have hn := List.mem_range.mp hn
  have hpt : vm.userPageTables.lookup (t.page n).pgtab = some pt := by
    rw [PageTableAddress.page_pgtab hn]
    exact AList.mem_lookup_iff.mpr ht
  rw [comp_apply, tryFindUserPte_of_lookup hpt, PageTable.readPteAt, PageTable.readPte,
    PageTableAddress.page_pteIndex hn]
  split_ifs <;> rfl

end Plan

section Frames
variable {b b' : Bitmap} {n k : Nat}

/-- The bitmap after a number of frames were taken one by one. -/
def Bitmap.takes : Nat → Bitmap → Option Bitmap
  | 0, b => some b
  | n + 1, b => b.alloc.toOption.bind fun r => takes n r.2

theorem Bitmap.takes_succ (halloc : b.alloc = .ok (k, b')) : b.takes (n + 1) = b'.takes n := by
  rw [takes, halloc]
  rfl

theorem Bitmap.takes_concat {b'' : Bitmap} (h : b.takes n = some b')
    (halloc : b'.alloc = .ok (k, b'')) : b.takes (n + 1) = some b'' := by
  induction n generalizing b with
  | zero =>
    cases h
    exact takes_succ halloc
  | succ n ih =>
    obtain ⟨r, hr, hrest⟩ := Option.bind_eq_some_iff.mp h
    rw [takes, hr, Option.bind_some, ih hrest]

/-- Each frame that is taken is a free frame less. -/
theorem Bitmap.takes_usage (h : b.takes n = some b') :
    b'.numberOfBits = b.numberOfBits ∧ b'.usage = b.usage + n := by
  induction n generalizing b with
  | zero =>
    cases h
    exact ⟨rfl, rfl⟩
  | succ n ih =>
    cases halloc : b.alloc with
    | error e =>
      rw [takes, halloc] at h
      cases h
    | ok r =>
      rw [takes_succ halloc] at h
      obtain ⟨hbits, husage⟩ := ih h
      obtain ⟨-, -, hr⟩ := allocRange_ok halloc
      rw [hr] at hbits husage
      exact ⟨hbits, husage.trans (Nat.add_right_comm ..)⟩

/-- A frame can be taken if and only if one is free. -/
theorem FrameAllocator.Valid.alloc_ok_iff {a : FrameAllocator} (h : a.Valid) :
    (∃ k b, a.bitmap.alloc = .ok (k, b)) ↔ 0 < a.freeCount := by
  constructor
  · rintro ⟨k, b, halloc⟩
    have hbound := (Bitmap.allocRange_ok halloc).1
    unfold Bitmap.alloc Bitmap.allocRange at halloc
    rw [if_neg (by omega)] at halloc
    unfold FrameAllocator.freeCount
    split_ifs at halloc
    omega
  · intro hfree
    cases halloc : a.bitmap.alloc with
    | ok r => exact ⟨r.1, r.2, rfl⟩
    | error e =>
      rw [h.freeCount_of_alloc_error halloc] at hfree
      cases hfree

/-- A page table that is not there takes a frame. -/
def TookTable (present : Bool) (b b' : Bitmap) : Prop :=
  if present then b' = b else ∃ k, b.alloc = .ok (k, b')

theorem allocFrame_took (s : MemState) :
    ends (onFrames FrameAllocator.alloc) (fun _ s' => TookTable false s.frames.bitmap s'.frames.bitmap)
      (fun _ _ => ∃ e, s.frames.bitmap.alloc = .error e) (fun _ => True) s := by
  refine (ends_focus (fun s : MemState => some s.frames) _ rfl).mpr ?_
  simp only [FrameAllocator.alloc, ends_bind, ends_gets]
  cases halloc : s.frames.bitmap.alloc with
  | error e =>
    rw [ends_ofExcept_error]
    exact ⟨e, rfl⟩
  | ok r =>
    simp only [ends_ofExcept_ok, FrameAllocator.setBitmap, FrameAllocator.setRefcount,
      ends_modify, ends_ite, ends_bind, ends_abort, ends_pure]
    split_ifs
    exact ⟨r.1, halloc⟩

theorem pageTableAllocator_took (h : Accounted held s) :
    wp pageTableAllocator (fun _ s' => TookTable false s.frames.bitmap s'.frames.bitmap)
      (fun _ _ => ∃ e, s.frames.bitmap.alloc = .error e) s := by
  simp only [pageTableAllocator, allocKernelFrame, wp_bind, wp_attempt]
  refine ((allocFrame_wp h).and_ends (allocFrame_took s)).mono ?_ fun _ _ he => he.2
  rintro k s₁ ⟨⟨hacc, -⟩, htook⟩
  refine (memset_wp (frame_end_le hacc.valid hacc.refcount_pos_of_held)).total ?_
  rintro _ s₂ rfl
  rw [wp_pure]
  exact htook

theorem ensurePageTable_took (h : Accounted held s) (hi : s.spaces i = some vm) :
    wp (ensurePageTable i t)
      (fun _ s' => TookTable (vm.pgdir.isPresent t) s.frames.bitmap s'.frames.bitmap ∧
        ∀ j, j ≠ i → s'.spaces j = s.spaces j)
      (fun _ _ => vm.pgdir.isPresent t = false ∧ ∃ e, s.frames.bitmap.alloc = .error e) s := by
  simp only [ensurePageTable, vmemIsPresent, wp_bind]
  apply onSpace_gets_wp hi
  cases ht : vm.pgdir.isPresent t with
  | true =>
    simp only [Bool.not_true, Bool.false_eq_true, if_false, wp_pure]
    exact ⟨rfl, fun _ _ => trivial⟩
  | false =>
    simp only [Bool.not_false, if_true, wp_bind]
    refine ((pageTableAllocator_wp h).and (pageTableAllocator_took h)).mono ?_
      fun _ _ he => ⟨trivial, he.2⟩
    rintro _ s₁ ⟨⟨k, rfl, -, -, -, hsp⟩, htook⟩
    have hi₁ : s₁.spaces i = some vm := by rw [hsp, hi]
    rw [wp_attempt]
    apply onSpace_wp hi₁
    simp only [PageDirectory.map, ht, Bool.false_eq_true, if_false, wp_bind, wp_gets,
      wp_ofExcept_ok, wp_modify]
    apply onSpace_wp (update_self ..)
    simp only [putPageTable, wp_modify, update_idem]
    refine ⟨htook, fun j hj => ?_⟩
    rw [update_of_ne hj, hsp]

/-- Mapping a page that is not there fails only for lack of a frame for its page table. -/
theorem map_took {f : Nat} {access : AccessPermission} (h : Accounted (f :: held) s)
    (hi : s.spaces i = some vm) (hu : isUserAddr v.raw = true) (hv : s.pte i v = none) :
    ends (map i f v access)
      (fun _ s' => TookTable (vm.pgdir.isPresent v.pgtab) s.frames.bitmap s'.frames.bitmap ∧
        ∀ j, j ≠ i → s'.spaces j = s.spaces j)
      (fun _ _ => vm.pgdir.isPresent v.pgtab = false ∧ ∃ e, s.frames.bitmap.alloc = .error e)
      (fun _ => True) s := by
  have hregion : ∀ n < pageTableLength, isUserAddr (v.pgtab.page n).raw = true :=
    fun n hn => isUserAddr_region hu hn
  simp only [map, mapUserFrame, hu, Bool.not_true, Bool.false_eq_true, if_false, ends_bind,
    ends_attempt]
  refine ((ensurePageTable_wp h hi hregion).and (ensurePageTable_took h hi)).ends.weaken ?_ ?_
  · rintro _ s₁ ⟨⟨hacc, -, hpte, vm₁, hi₁, htab⟩, htook, hother⟩
    apply onSpace_ends hi₁
    refine (mapPage_wp (hacc.wellFormed i vm₁ hi₁) htab f access).ends.weaken ?_ ?_
    · rintro _ vm₂ -
      rw [ends_pure]
      exact ⟨htook, fun j hj => (update_of_ne hj ..).trans (hother j hj)⟩
    · rintro e vm₂ ⟨-, -, -, hbusy⟩
      rw [← Accounted.pte_of_space hi₁, hpte] at hbusy
      exact absurd hv hbusy
  · rintro e s₁ ⟨-, hnone⟩
    simp only [ends_throw]
    exact (ends_true _ _).weaken (fun _ _ _ => hnone) (fun _ _ _ => hnone)

end Frames

section Sharing

/-- Marking a page moves its page table to the front. -/
theorem markCow_order (hi : s.spaces i = some vm) :
    ends (onSpace i (markUserPageCow v))
      (fun _ s' => ∃ vm', s'.spaces = update s.spaces i (some vm') ∧
        vm'.userPageTables.keys = v.pgtab :: vm.userPageTables.keys.erase v.pgtab)
      (fun _ _ => True) (fun _ => True) s := by
  apply onSpace_ends hi
  simp only [markUserPageCow, withUserPage, ends_ite, ends_throw, ends_bind]
  split_ifs
  refine (lookupUserPageTable_wp v.pgtab).ends.weaken ?_ fun _ _ _ => trivial
  rintro pt _ ⟨-, rfl⟩
  cases hpt : pt.markCow v with
  | error e =>
    rw [ends_ofExcept_error]
    trivial
  | ok r =>
    simp only [ends_ofExcept_ok, putPageTable, ends_modify, ends_pure]
    refine ⟨_, rfl, ?_⟩
    rw [AList.keys_insert, AList.keys_insert, List.erase_cons_head]

/-- What sharing a page takes, and why it can fail. -/
theorem linkOneUserPage_took (h : Accounted held s) (hne : parent ≠ child)
    (hvp : s.spaces parent = some vp) (hvc : s.spaces child = some vc)
    (hp : s.pte parent v = some p) (hv : s.pte child v = none) :
    ends (linkOneUserPage parent child ⟨v, p.frame, p.isWritable⟩)
      (fun _ s' => s.frames.refcount p.frame ≠ 255 ∧
        TookTable (vc.pgdir.isPresent v.pgtab) s.frames.bitmap s'.frames.bitmap ∧
        (∀ g, 0 < s.frames.refcount g →
          s'.frames.refcount g = s.frames.refcount g + stores g (some p.frame)) ∧
        (s'.spaces parent).map (·.userPageTables.keys) =
          some (touched vp.userPageTables.keys ⟨v, p.frame, p.isWritable⟩))
      (fun _ _ => s.frames.refcount p.frame = 255 ∨
        vc.pgdir.isPresent v.pgtab = false ∧ ∃ e, s.frames.bitmap.alloc = .error e)
      (fun _ => True) s := by
  have hpos := h.refcount_pos hp
  have huser := h.isUserAddr hp
  simp only [linkOneUserPage, ends_bind]
  refine (shareFrame_wp h hpos).ends.weaken ?_ fun _ _ he => Or.inl he.2.2
  rintro _ s₁ ⟨hacc₁, a, rfl, -, hcount, hbits, hroom⟩
  refine ((map_wp hacc₁ hvc).and_ends (map_took hacc₁ hvc huser hv)).ends.weaken ?_ ?_
  · rintro _ s₂ ⟨⟨hacc₂, hq, -, -, hpte⟩, htook, hother⟩
    rw [hbits] at htook
    have hcounts : ∀ g, 0 < s.frames.refcount g →
        s₂.frames.refcount g = s.frames.refcount g + stores g (some p.frame) := by
      intro g hg
      have hshare : a.refcount g = s.frames.refcount g + stores g (some p.frame) := by
        rw [hcount, update_succ_eq]
      rw [← hshare]
      exact hq.kept g (by change 0 < a.refcount g; omega)
    have hvp₂ : s₂.spaces parent = some vp := (hother parent hne).trans hvp
    rw [ends_ite]
    split_ifs with hw
    · simp only [ends_bind, ends_attempt]
      have hp₂ : s₂.pte parent v = some p := by
        rw [hpte, setPte_other hne]
        exact hp
      refine ((markCow_wp hacc₂ hp₂ hw).and_ends (markCow_order hvp₂)).ends.weaken ?_
        fun _ _ he => he.1.elim
      rintro _ s₃ ⟨⟨hacc₃, -, hf₃, -, hpte₃⟩, vp', hsp₃, hkeys⟩
      have hc₃ : s₃.pte child v = some (userEntry p.frame .RDWR) := by
        rw [hpte₃, setPte_other (Ne.symm hne), hpte, setPte_self, if_pos hw]
      obtain ⟨vc₃, hvc₃, -⟩ := Accounted.pte_eq_some hc₃
      refine ((markCow_wp hacc₃ hc₃ rfl).and_ends (markCow_order hvc₃)).ends.weaken ?_
        fun _ _ he => he.1.elim
      rintro _ s₄ ⟨⟨-, -, hf₄, -⟩, _, hsp₄, -⟩
      have hf : s₄.frames = s₂.frames := hf₄.trans hf₃
      rw [ends_pure, touched, if_pos hw, hsp₄, update_of_ne hne, hsp₃, update_self,
        Option.map_some, hkeys, hf]
      exact ⟨hroom, htook, hcounts, rfl⟩
    · rw [ends_pure, touched, if_neg hw, hvp₂]
      exact ⟨hroom, htook, hcounts, rfl⟩
  · rintro e s₂ ⟨-, habsent, e', he'⟩
    exact Or.inr ⟨habsent, e', hbits ▸ he'⟩

/-- A walk in progress that has done some pages. -/
structure Walked (held : List Nat) (parent child : Nat) (s₀ : MemState) (done : List LinkEntry)
    (keys : List PageTableAddress) (s : MemState) : Prop where
  linking : Linking held parent child s₀ s
  trimmed : Trimmed s
  pages : ∀ w, s.pte child w ≠ none ↔ ∃ e ∈ done, e.page = w
  order : (s.spaces parent).map (·.userPageTables.keys) = some keys
  owners : ∀ f, 0 < s₀.frames.refcount f →
    s.frames.refcount f = s₀.frames.refcount f + done.countP (·.frame = f)
  frames : s₀.frames.bitmap.takes (regions done).card = some s.frames.bitmap

namespace Walked
variable (h : Walked held parent child s₀ done keys s)
include h

/-- The child has page tables for the regions of the pages that are done. -/
theorem isPresent_iff (hvc : s.spaces child = some vc) :
    vc.pgdir.isPresent t = true ↔ t ∈ regions done := by
  have htidy := h.trimmed child vc hvc
  have hpages : ∀ w, (vc.tryFindUserPte w).isSome ↔ ∃ e ∈ done, e.page = w := fun w => by
    rw [← h.pages, Accounted.pte_of_space hvc, Option.isSome_iff_ne_none]
  rw [mem_regions, PageDirectory.isPresent]
  constructor
  · intro ht
    obtain ⟨w, hw, hp⟩ := htidy.trim t ht
    obtain ⟨e, he, rfl⟩ := (hpages w).mp hp
    exact ⟨e, he, hw⟩
  · rintro ⟨e, he, rfl⟩
    obtain ⟨p, hp⟩ := Option.isSome_iff_exists.mp ((hpages e.page).mpr ⟨e, he, rfl⟩)
    obtain ⟨pt, hpt, -⟩ := tryFindUserPte_eq_some hp
    rw [htidy.wellFormed.directory, hpt]
    rfl

/-- The free frames that are left. -/
theorem freeCount_eq : s.frames.freeCount = s₀.frames.freeCount - (regions done).card := by
  obtain ⟨hbits, husage⟩ := Bitmap.takes_usage h.frames
  unfold FrameAllocator.freeCount
  omega

/-- Whether the next page can be shared, in the terms of the state that the walk is in. -/
theorem canShare_iff (hvc : s.spaces child = some vc) (hpos : 0 < s₀.frames.refcount e.frame) :
    canShare s₀.frames.refcount s₀.frames.freeCount done e = true ↔
      s.frames.refcount e.frame ≠ 255 ∧ (vc.pgdir.isPresent e.page.pgtab = true ∨
        ∃ k b, s.frames.bitmap.alloc = .ok (k, b)) := by
  have hvalid := h.linking.accounted.valid
  have hbyte := hvalid.byte e.frame
  rw [canShare, Bool.and_eq_true, Bool.or_eq_true, decide_eq_true_iff, decide_eq_true_iff,
    decide_eq_true_iff, ← h.owners _ hpos, h.isPresent_iff hvc, hvalid.alloc_ok_iff,
    h.freeCount_eq, Nat.sub_pos_iff_lt]
  exact and_congr_left' (by omega)

/-- The walk after one more page. -/
theorem concat (hvc : s.spaces child = some vc) (hlink : Linking held parent child s₀ s')
    (htrim : Trimmed s') {x : PageTableEntry}
    (hpte : s'.pte child = update (s.pte child) e.page (some x))
    (htook : TookTable (vc.pgdir.isPresent e.page.pgtab) s.frames.bitmap s'.frames.bitmap)
    (hcounts : ∀ g, 0 < s.frames.refcount g →
      s'.frames.refcount g = s.frames.refcount g + stores g (some e.frame))
    (hkeys : (s'.spaces parent).map (·.userPageTables.keys) = some (touched keys e)) :
    Walked held parent child s₀ (done ++ [e]) (touched keys e) s' := by
  refine ⟨hlink, htrim, fun w => ?_, hkeys, fun f hf => ?_, ?_⟩
  · rw [hpte, update_apply]
    split_ifs with hw
    · exact iff_of_true (Option.some_ne_none x) ⟨e, by simp, hw.symm⟩
    · rw [h.pages]
      simp [Ne.symm hw]
  · have hown := h.owners f hf
    rw [hcounts f (by omega), hown, List.countP_append, List.countP_singleton]
    by_cases hfe : f = e.frame
    · rw [hfe, stores_self, if_pos (decide_eq_true rfl), Nat.add_assoc]
    · rw [stores_of_ne hfe, decide_eq_false (Ne.symm hfe)]
      rfl
  · have hframes := h.frames
    rw [regions_concat]
    unfold TookTable at htook
    split_ifs at htook with hpresent
    · rw [Finset.insert_eq_of_mem ((h.isPresent_iff hvc).mp hpresent), htook, hframes]
    · obtain ⟨k, halloc⟩ := htook
      rw [Finset.card_insert_of_notMem fun ht => hpresent ((h.isPresent_iff hvc).mpr ht)]
      exact Bitmap.takes_concat hframes halloc

/-- Sharing the next page succeeds if and only if it can be shared. -/
theorem next (hacc : Accounted held s₀) (hne : parent ≠ child) (hchild : (s₀.spaces child).isSome)
    (hp : s₀.pte parent v = some p) (hv : s.pte child v = none)
    (he : e = ⟨v, p.frame, p.isWritable⟩) :
    wp (linkOneUserPage parent child e)
      (fun _ s' => (canShare s₀.frames.refcount s₀.frames.freeCount done e = true ∧
        Walked held parent child s₀ (done ++ [e]) (touched keys e) s') ∧
        s'.pte child = update (s.pte child) e.page (some (childEntry p)))
      (fun _ s' => canShare s₀.frames.refcount s₀.frames.freeCount done e = false ∧
        s'.pte = s.pte) s := by
  subst he
  have hps : s.pte parent v = some p := (h.linking.untouched v hv).trans hp
  obtain ⟨vc, hvc⟩ := h.linking.spaces.exists_space hchild
  obtain ⟨vp, hvp, -⟩ := Accounted.pte_eq_some hps
  have hkeys := h.order
  rw [hvp, Option.map_some, Option.some.injEq] at hkeys
  have hcan := h.canShare_iff (e := ⟨v, p.frame, p.isWritable⟩) hvc (hacc.refcount_pos hp)
  have htook := linkOneUserPage_took h.linking.accounted hne hvp hvc hps hv
  refine (((linkOneUserPage_wp h.linking hne hp hv hchild).and_ends
    (linkOneUserPage_keeps storageOnly_true _ s h.trimmed)).and_ends htook).mono ?_ ?_
  · rintro _ s' ⟨⟨⟨hlink, hpte⟩, htrim⟩, hroom, htable, hcounts, horder⟩
    rw [hkeys] at horder
    refine ⟨⟨hcan.mpr ⟨hroom, ?_⟩, h.concat hvc hlink htrim hpte htable hcounts horder⟩, hpte⟩
    unfold TookTable at htable
    split_ifs at htable with hpresent
    · exact Or.inl hpresent
    · obtain ⟨k, halloc⟩ := htable
      exact Or.inr ⟨k, _, halloc⟩
  · rintro e s' ⟨⟨⟨-, hpte⟩, -⟩, hfull | ⟨habsent, err, herr⟩⟩
    · exact ⟨Bool.not_eq_true _ ▸ fun hs => (hcan.mp hs).1 hfull, hpte⟩
    · refine ⟨Bool.not_eq_true _ ▸ fun hs => ?_, hpte⟩
      rcases (hcan.mp hs).2 with hpresent | ⟨k, b, halloc⟩
      · rw [habsent] at hpresent
        cases hpresent
      · rw [herr] at halloc
        cases halloc

/-- A chunk is shared up to the first page that cannot be. -/
theorem chunk (hacc : Accounted held s₀) (hne : parent ≠ child)
    (hchild : (s₀.spaces child).isSome) (hl : Pending parent child s₀ s (es ++ rest)) :
    wp (forEach (linkOneUserPage parent child) es)
      (fun _ s' => sharedBefore s₀.frames.refcount s₀.frames.freeCount done es = none ∧
        Walked held parent child s₀ (done ++ es) (es.foldl touched keys) s')
      (fun _ s' => ∃ pre,
        sharedBefore s₀.frames.refcount s₀.frames.freeCount done es = some pre ∧
        ∀ w, s'.pte child w ≠ none ↔ ∃ e ∈ pre, e.page = w) s := by
  induction es generalizing s done keys with
  | nil =>
    rw [forEach, wp_pure, List.append_nil]
    exact ⟨rfl, h⟩
  | cons e es ih =>
    obtain ⟨p, hp, hv, he⟩ := (hl.mem e).mp (List.mem_append_left _ List.mem_cons_self)
    change wp (linkOneUserPage parent child e >>= fun _ => forEach _ es) _ _ s
    rw [wp_bind, sharedBefore]
    refine (h.next hacc hne hchild hp hv he).mono ?_ ?_
    · rintro _ s₁ ⟨⟨hcan, hwalk⟩, hpte⟩
      rw [if_pos hcan]
      have hrest := ih hwalk (hl.tail hpte)
      rwa [List.append_assoc, List.singleton_append] at hrest
    · rintro _ s₁ ⟨hcan, hpte⟩
      rw [if_neg (Bool.not_eq_true _ ▸ hcan), hpte]
      exact ⟨done, rfl, h.pages⟩

/-- The snapshot of the parent is the next chunk of the order. -/
theorem snapshot_eq (hvp : s.spaces parent = some vp) (hvc : s.spaces child = some vc) :
    ((vp.userMappings.filter fun m => (vc.tryFindUserPte m.1).isNone).take linkChunk).map
      (fun m => (⟨m.1, m.2.frame, m.2.isWritable⟩ : LinkEntry)) =
    nextChunk (s₀.pte parent) keys done := by
  have hkeys := h.order
  rw [hvp, Option.map_some, Option.some.injEq] at hkeys
  rw [nextChunk, List.map_take, userMappings_eq, hkeys, List.filter_filterMap, List.map_filterMap]
  congr 1
  refine List.filterMap_congr fun w _ => ?_
  by_cases hw : ∃ e ∈ done, e.page = w
  · have hpresent := (h.pages w).mpr hw
    rw [Accounted.pte_of_space hvc, ← Option.isSome_iff_ne_none] at hpresent
    rw [if_pos hw]
    cases vp.tryFindUserPte w <;> simp [Option.isSome_iff_ne_none.mp hpresent]
  · have habsent : s.pte child w = none := not_not.mp fun hc => hw ((h.pages w).mp hc)
    rw [if_neg hw, ← h.linking.untouched w habsent, Accounted.pte_of_space hvp]
    rw [Accounted.pte_of_space hvc] at habsent
    cases vp.tryFindUserPte w <;> simp [habsent]

/-- The walk shares the pages of the order up to the first one that cannot be shared. -/
theorem linkPagesLoop (hacc : Accounted held s₀) (hne : parent ≠ child)
    (hparent : (s₀.spaces parent).isSome) (hchild : (s₀.spaces child).isSome) (fuel : Nat) :
    ends (linkPagesLoop parent child fuel)
      (fun _ s' => sharedBefore s₀.frames.refcount s₀.frames.freeCount done
          (walkOrder (s₀.pte parent) fuel keys done) = none ∧
        ∃ keys', Walked held parent child s₀
          (done ++ walkOrder (s₀.pte parent) fuel keys done) keys' s')
      (fun _ s' => ∃ pre, sharedBefore s₀.frames.refcount s₀.frames.freeCount done
          (walkOrder (s₀.pte parent) fuel keys done) = some pre ∧
        ∀ w, s'.pte child w ≠ none ↔ ∃ e ∈ pre, e.page = w)
      (fun _ => True) s := by
  induction fuel generalizing s done keys with
  | zero =>
    rw [MM.linkPagesLoop, ends_abort]
    trivial
  | succ fuel ih =>
    obtain ⟨vp, hvp⟩ := h.linking.spaces.exists_space hparent
    obtain ⟨vc, hvc⟩ := h.linking.spaces.exists_space hchild
    have hL := pending_snapshot h.linking hvp hvc
    have hsnapshot := h.snapshot_eq hvp hvc
    simp only [MM.linkPagesLoop, linkSnapshot, ends_bind]
    apply onSpace_gets_ends hvc
    apply onSpace_gets_ends hvp
    rw [ends_pure, hsnapshot, walkOrder]
    rw [List.map_take] at hsnapshot
    generalize List.map _ (List.filter _ vp.userMappings) = L at hL hsnapshot
    generalize nextChunk (s₀.pte parent) keys done = es at hsnapshot ⊢
    rw [← List.take_append_drop linkChunk L, hsnapshot] at hL
    have hchunk := h.chunk hacc hne hchild hL
    have hpos := linkChunk_pos
    simp only [ends_ite, ends_pure, ends_bind]
    split_ifs with hzero hshort hshort
    · rw [List.eq_nil_of_length_eq_zero hzero, List.append_nil]
      exact ⟨rfl, keys, h⟩
    · omega
    · exact hchunk.ends.imp fun _ _ hs => ⟨hs.1, _, hs.2⟩
    · rw [sharedBefore_append]
      refine hchunk.ends.weaken ?_ ?_
      · rintro _ s₁ ⟨hall, hwalk⟩
        have hrest := ih hwalk
        rwa [hall, Option.none_or, ← List.append_assoc]
      · rintro _ s₁ ⟨pre, hpre, hpages⟩
        exact ⟨pre, by rw [hpre, Option.some_or], hpages⟩

end Walked

theorem walked_start (h : Accounted held s) (htrim : Trimmed s) (hvp : s.spaces parent = some vp)
    (hempty : ∀ w, s.pte child w = none) :
    Walked held parent child s [] vp.userPageTables.keys s where
  linking := .refl h hempty
  trimmed := htrim
  pages w := by simp [hempty]
  order := by rw [hvp, Option.map_some]
  owners f _ := by rw [List.countP_nil, Nat.add_zero]
  frames := rfl

section Walk
variable (h : Accounted held s) (htrim : Trimmed s) (hne : parent ≠ child)
  (hparent : (s.spaces parent).isSome) (hchild : (s.spaces child).isSome)
  (hempty : ∀ w, s.pte child w = none)
include h htrim hne hparent hchild hempty

/-- The walk of a link: it shares all pages of the parent, and takes a frame for each of their
regions, or it stands where the first page could not be shared. -/
theorem linkPages_stops :
    wp (linkPages parent child)
      (fun _ s' => s.linkStops parent 0 = none ∧
        s.frames.bitmap.takes (regions (s.linkOrder parent)).card = some s'.frames.bitmap)
      (fun _ s' => ∃ pre, s.linkStops parent 0 = some pre ∧
        ∀ w, s'.pte child w ≠ none ↔ ∃ e ∈ pre, e.page = w) s := by
  obtain ⟨vp, hvp⟩ := Option.isSome_iff_exists.mp hparent
  have hwalk : ends (linkPages parent child)
      (fun _ s' => s.linkStops parent 0 = none ∧
        s.frames.bitmap.takes (regions (s.linkOrder parent)).card = some s'.frames.bitmap)
      (fun _ s' => ∃ pre, s.linkStops parent 0 = some pre ∧
        ∀ w, s'.pte child w ≠ none ↔ ∃ e ∈ pre, e.page = w) (fun _ => True) s := by
    rw [linkPages, ends_bind]
    apply onSpace_gets_ends hvp
    unfold MemState.linkStops MemState.linkOrder
    rw [hvp]
    refine ((walked_start h htrim hvp hempty).linkPagesLoop h hne hparent hchild _).imp ?_
    rintro _ s' ⟨hall, keys, hdone⟩
    exact ⟨hall, hdone.frames⟩
  exact ((linkPages_wp h hne hparent hchild hempty).and_ends hwalk).mono (fun _ _ hs => hs.2)
    fun _ _ hs => hs.2

end Walk
end Sharing
end Nanvix.Mm
