import Nanvix.Library.Worklist
import Nanvix.Mm.CowSpec

/-!
# Specifications of the memory routines: sharing an address space

`link_user_pages` walks the mappings of a parent in chunks and shares each page
with an empty child. While it runs, the child has the pages that are done, and
the parent's entry of a page is marked when the page is done and was writable.
When a page fails, every page of the child is taken back.

## Implementation notes

The loops of the source end because each chunk makes the list of pages to visit
shorter. The lists are work lists: a walk that restarts after the page tables
were reordered has a list of the same length.
-/
namespace Nanvix.Mm
open Config Function Library Library.Prog

variable {p : PageTableEntry}

/-- The entry that a page of the parent gets in the child. -/
def childEntry (p : PageTableEntry) : PageTableEntry :=
  if p.isWritable then (Vmem.userEntry p.frame .RDWR).marked else Vmem.userEntry p.frame .RDONLY

/-- The entry that a shared page has in the parent. -/
def parentEntry (p : PageTableEntry) : PageTableEntry := if p.isWritable then p.marked else p

/-- The entry that a shared page has in the parent once it was taken back from the child. -/
def undoneEntry (p : PageTableEntry) : PageTableEntry :=
  if p.isWritable then p.marked.unmarked else p

/-- The entry of the parent after a link was undone: a writable page is writable again, and
its mark is clear. -/
def Restored (x y : Option PageTableEntry) : Prop :=
  y = x ∨ ∃ p, x = some p ∧ p.isWritable = true ∧ y = some p.marked.unmarked

@[simp] theorem childEntry_frame (p : PageTableEntry) : (childEntry p).frame = p.frame := by
  unfold childEntry
  split <;> rfl

@[simp] theorem childEntry_isWritable (p : PageTableEntry) :
    (childEntry p).isWritable = false := by
  unfold childEntry
  split <;> rfl

@[simp] theorem childEntry_isCow (p : PageTableEntry) :
    (childEntry p).isCow = p.isWritable := by
  unfold childEntry
  split_ifs with h
  · exact h.symm
  · exact (Bool.not_eq_true _ ▸ h).symm

@[simp] theorem parentEntry_frame (p : PageTableEntry) : (parentEntry p).frame = p.frame := by
  unfold parentEntry
  split <;> rfl

@[simp] theorem parentEntry_isWritable (p : PageTableEntry) :
    (parentEntry p).isWritable = false := by
  unfold parentEntry
  split_ifs with h
  · rfl
  · simpa using h

variable {held : List Nat} {s₀ s s' : MemState} {parent child : Nat} {v : PageAligned}

/-- A link in progress, or one that is being undone. -/
structure LinkState (held : List Nat) (parent child : Nat) (s₀ s : MemState) : Prop where
  accounted : Accounted held s
  spaces : SameSpaces s₀ s
  bytes : KeepsBytes s₀ s
  owners : ∀ f, s.frames.refcount f ≤ max (s₀.frames.refcount f) 1 + viewRefs f (s.pte child)
  other : ∀ j, j ≠ parent → j ≠ child → s.pte j = s₀.pte j
  view : ∀ w, s.pte child w = none ∨ s.pte child w = (s₀.pte parent w).map childEntry
  linked : ∀ w, s.pte child w ≠ none → s.pte parent w = (s₀.pte parent w).map parentEntry
  unlinked : ∀ w, s.pte child w = none → Restored (s₀.pte parent w) (s.pte parent w)

/-- A link in progress: no page was taken back. -/
structure Linking (held : List Nat) (parent child : Nat) (s₀ s : MemState) : Prop
    extends LinkState held parent child s₀ s where
  kept : ∀ f, s₀.frames.refcount f ≤ s.frames.refcount f
  untouched : ∀ w, s.pte child w = none → s.pte parent w = s₀.pte parent w

theorem Linking.refl (h : Accounted held s) (hempty : ∀ w, s.pte child w = none) :
    Linking held parent child s s where
  accounted := h
  spaces := .refl s
  bytes _ _ _ _ := rfl
  owners _ := Nat.le_add_right_of_le (Nat.le_max_left _ _)
  other _ _ _ := rfl
  view w := Or.inl (hempty w)
  linked w hw := absurd (hempty w) hw
  unlinked _ _ := Or.inl rfl
  kept _ := Nat.le_refl _
  untouched _ _ := rfl

/-- One more page: the child has it, and the parent's entry is that of a shared page. -/
theorem Linking.step (h : Linking held parent child s₀ s)
    (hne : parent ≠ child) (hp : s₀.pte parent v = some p) (hv : s.pte child v = none)
    (hacc : Accounted held s') (hsp : SameSpaces s s') (hb : KeepsBytes s s')
    (hle : ∀ f, s.frames.refcount f ≤ s'.frames.refcount f)
    (hown : ∀ f, s'.frames.refcount f ≤ max (s.frames.refcount f) 1 + stores f (some p.frame))
    (hpte : s'.pte =
      setPte (setPte s.pte child v (some (childEntry p))) parent v (some (parentEntry p))) :
    Linking held parent child s₀ s' := by
  have hchild : s'.pte child = update (s.pte child) v (some (childEntry p)) := by
    rw [hpte, setPte_other (Ne.symm hne), setPte_space]
  have hparent : s'.pte parent = update (s.pte parent) v (some (parentEntry p)) := by
    rw [hpte, setPte_space, setPte_other hne]
  have huser : v.number < numPages := by
    apply number_lt_numPages
    apply h.accounted.isUserAddr (i := parent) (p := p)
    rw [h.untouched v hv, hp]
  have huntouched : ∀ w, s'.pte child w = none → s'.pte parent w = s₀.pte parent w := by
    intro w hw
    rw [hchild, update_apply] at hw
    rw [hparent, update_apply]
    split_ifs at hw ⊢
    exact h.untouched w hw
  refine ⟨⟨hacc, h.spaces.trans hsp, ?_, ?_, ?_, ?_, ?_, fun w hw => Or.inl (huntouched w hw)⟩,
    fun f => Nat.le_trans (h.kept f) (hle f), huntouched⟩
  · intro f hf o ho
    rw [hb f (Nat.lt_of_lt_of_le hf (h.kept f)) o ho, h.bytes f hf o ho]
  · intro f
    have hupd := viewRefs_update (f := f) (s.pte child) (some (childEntry p)) huser
    rw [hv, mapsTo_none, mapsTo_some, childEntry_frame] at hupd
    have hold := h.owners f
    have hnew := hown f
    rw [hchild]
    omega
  · intro j hj hj'
    rw [hpte, setPte_other hj, setPte_other hj', h.other j hj hj']
  · intro w
    rw [hchild, update_apply]
    split_ifs with hw
    · exact Or.inr (by rw [hw, hp, Option.map_some])
    · exact h.view w
  · intro w hw
    rw [hchild, update_apply] at hw
    rw [hparent, update_apply]
    split_ifs at hw ⊢ with hwv
    · rw [hwv, hp, Option.map_some]
    · exact h.linked w hw

/-- A page that could not be shared leaves a link as it was. -/
theorem Linking.stay (h : Linking held parent child s₀ s) (hacc : Accounted held s')
    (hsp : SameSpaces s s') (hb : KeepsBytes s s')
    (hle : ∀ f, s.frames.refcount f ≤ s'.frames.refcount f) (hown : NoNewOwners s s')
    (hpte : s'.pte = s.pte) : Linking held parent child s₀ s' := by
  refine ⟨⟨hacc, h.spaces.trans hsp, ?_, ?_, hpte ▸ h.other, hpte ▸ h.view, hpte ▸ h.linked,
    hpte ▸ h.unlinked⟩, fun f => Nat.le_trans (h.kept f) (hle f), hpte ▸ h.untouched⟩
  · intro f hf o ho
    rw [hb f (Nat.lt_of_lt_of_le hf (h.kept f)) o ho, h.bytes f hf o ho]
  · intro f
    have hold := h.owners f
    have hnew := hown f
    rw [hpte]
    omega

/-- One page less: it is gone from the child, and the parent's entry is as it was. -/
theorem LinkState.undo (h : LinkState held parent child s₀ s)
    (hne : parent ≠ child) (hp : s₀.pte parent v = some p)
    (hv : s.pte child v = some (childEntry p)) (hacc : Accounted held s')
    (hsp : SameSpaces s s') (hm : s'.memory = s.memory)
    (hle : ∀ f, s'.frames.refcount f ≤ s.frames.refcount f)
    (hdrop : s'.frames.refcount p.frame < s.frames.refcount p.frame)
    {x : Option PageTableEntry} (hx : Restored (some p) x)
    (hpte : s'.pte = setPte (setPte s.pte parent v x) child v none) :
    LinkState held parent child s₀ s' := by
  have hchild : s'.pte child = update (s.pte child) v none := by
    rw [hpte, setPte_space, setPte_other (Ne.symm hne)]
  have hparent : s'.pte parent = update (s.pte parent) v x := by
    rw [hpte, setPte_other hne, setPte_space]
  have huser := number_lt_numPages (h.accounted.isUserAddr hv)
  refine ⟨hacc, h.spaces.trans hsp, ?_, ?_, ?_, ?_, ?_, ?_⟩
  · intro f hf o ho
    rw [hm, h.bytes f hf o ho]
  · intro f
    have hupd := viewRefs_update (f := f) (s.pte child) none huser
    rw [hv, mapsTo_none, mapsTo_some, childEntry_frame] at hupd
    have hold := h.owners f
    have hnew := hle f
    rw [hchild]
    by_cases hf : f = p.frame
    · subst hf
      rw [stores_self] at hupd
      omega
    · rw [stores_of_ne hf] at hupd
      omega
  · intro j hj hj'
    rw [hpte, setPte_other hj', setPte_other hj, h.other j hj hj']
  · intro w
    rw [hchild, update_apply]
    split_ifs
    · exact Or.inl rfl
    · exact h.view w
  · intro w hw
    rw [hchild, update_apply] at hw
    rw [hparent, update_apply]
    split_ifs at hw ⊢
    · exact absurd rfl hw
    · exact h.linked w hw
  · intro w hw
    rw [hchild, update_apply] at hw
    rw [hparent, update_apply]
    split_ifs at hw ⊢ with hwv
    · rw [hwv, hp]
      exact hx
    · exact h.unlinked w hw

/-- The state after a link that failed: the child is empty again. -/
structure Unlinked (held : List Nat) (parent : Nat) (s₀ s : MemState) : Prop where
  accounted : Accounted held s
  spaces : SameSpaces s₀ s
  bytes : KeepsBytes s₀ s
  owners : NoNewOwners s₀ s
  other : ∀ j, j ≠ parent → s.pte j = s₀.pte j
  parent : ∀ w, Restored (s₀.pte parent w) (s.pte parent w)

/-- A link whose pages were all taken back. -/
theorem LinkState.unlinked_of_empty (h : LinkState held parent child s₀ s)
    (hempty : ∀ w, s₀.pte child w = none) (hnow : ∀ w, s.pte child w = none) :
    Unlinked held parent s₀ s where
  __ := h
  owners f := by
    have hle := h.owners f
    rwa [viewRefs_eq_zero fun w p hp => by rw [hnow] at hp; cases hp] at hle
  other j hj := by
    by_cases hjc : j = child
    · funext w
      rw [hjc, hnow, hempty]
    · exact h.other j hj hjc
  parent w := h.unlinked w (hnow w)

namespace MM

/-- Sharing one page that the child does not have. -/
theorem linkOneUserPage_wp (h : Linking held parent child s₀ s)
    (hne : parent ≠ child) (hp : s₀.pte parent v = some p) (hv : s.pte child v = none)
    (hchild : (s₀.spaces child).isSome) :
    wp (linkOneUserPage parent child ⟨v, p.frame, p.isWritable⟩)
      (fun _ s' => Linking held parent child s₀ s' ∧
        s'.pte child = update (s.pte child) v (some (childEntry p)))
      (fun e s' => (Linking held parent child s₀ s' ∧ e.code = .outOfMemory) ∧ s'.pte = s.pte)
      s := by
  have hps : s.pte parent v = some p := (h.untouched v hv).trans hp
  have hpos := h.accounted.refcount_pos hps
  have huser := h.accounted.isUserAddr hps
  simp only [linkOneUserPage, wp_bind]
  refine (shareFrame_wp h.accounted hpos).mono ?_ ?_
  · rintro _ s₁ ⟨hacc₁, a, rfl, hcap, hcount, -⟩
    have hshare : ∀ g, a.refcount g = s.frames.refcount g + stores g (some p.frame) := fun g => by
      rw [hcount, update_succ_eq]
    have howned : ∀ g, s.frames.refcount g ≤ a.refcount g := fun g => by rw [hshare]; omega
    obtain ⟨vm, hvm⟩ := h.spaces.exists_space hchild
    refine (map_wp hacc₁ hvm).mono ?_ ?_
    · rintro _ s₂ ⟨hacc₂, hq, -, -, hpte₂⟩
      have hlink : ∀ s₃, Accounted held s₃ → SameSpaces s₂ s₃ → s₃.frames = s₂.frames →
          s₃.memory = s₂.memory → s₃.pte =
            setPte (setPte s.pte child v (some (childEntry p))) parent v (some (parentEntry p)) →
          Linking held parent child s₀ s₃ ∧
            s₃.pte child = update (s.pte child) v (some (childEntry p)) := by
        intro s₃ hacc₃ hsp hf hm hpte₃
        refine ⟨h.step hne hp hv hacc₃ ((hq.spaces.before_frames hcap).trans hsp) ?_ ?_ ?_ hpte₃, ?_⟩
        · intro f hf' o ho
          rw [hm]
          exact hq.bytes f (Nat.lt_of_lt_of_le hf' (howned f)) o ho
        · intro f
          rw [hf]
          exact Nat.le_trans (howned f) (hq.refcount_le f)
        · intro f
          have hown : s₂.frames.refcount f ≤ max (a.refcount f) 1 := hq.owners f
          have hsh := hshare f
          rw [hf]
          omega
        · rw [hpte₃, setPte_other (Ne.symm hne), setPte_space]
      rw [wp_ite]
      split_ifs with hw
      · simp only [wp_bind, wp_attempt]
        have hp₂ : s₂.pte parent v = some p := by
          rw [hpte₂, setPte_other hne]
          exact hps
        refine (markCow_wp hacc₂ hp₂ hw).total ?_
        rintro _ s₃ ⟨hacc₃, hsp₃, hf₃, hm₃, hpte₃⟩
        have hc₃ : s₃.pte child v = some (Vmem.userEntry p.frame .RDWR) := by
          rw [hpte₃, setPte_other (Ne.symm hne), hpte₂, setPte_self, if_pos hw]
        refine (markCow_wp hacc₃ hc₃ rfl).total ?_
        rintro _ s₄ ⟨hacc₄, hsp₄, hf₄, hm₄, hpte₄⟩
        rw [wp_pure]
        refine hlink s₄ hacc₄ (hsp₃.trans hsp₄) (hf₄.trans hf₃) (hm₄.trans hm₃) ?_
        rw [hpte₄, hpte₃, setPte_comm _ hne, hpte₂, setPte_idem, childEntry, if_pos hw,
          parentEntry, if_pos hw]
        rfl
      · rw [wp_pure]
        refine hlink s₂ hacc₂ (.refl s₂) rfl rfl ?_
        rw [parentEntry, if_neg hw, childEntry, if_neg hw, setPte_eq_self, hpte₂, if_neg hw]
        · rfl
        · rw [setPte_other hne, hps]
    · rintro e s₂ ⟨hacc₂, hsp, hb, hrc, hown, hpte₂, hoom⟩
      -- The share was given back, so owned frames have the owners they had.
      have hkept : ∀ f, 0 < a.refcount f → s₂.frames.refcount f = s.frames.refcount f :=
        fun f hf => Nat.add_right_cancel ((hrc f hf).trans (hshare f))
      refine ⟨⟨h.stay hacc₂ (hsp.before_frames hcap) ?_ ?_ ?_ hpte₂, hoom huser hv⟩, hpte₂⟩
      · intro f hf o ho
        exact hb f (Nat.lt_of_lt_of_le hf (howned f)) o ho
      · intro f
        have hk := hkept f
        have hsh := hshare f
        omega
      · intro f
        have hk := hkept f
        have hnew : s₂.frames.refcount f ≤ max (a.refcount f) 1 := hown f
        have hsh := hshare f
        omega
  · rintro e s₁ ⟨rfl, hoom, -⟩
    exact ⟨⟨h, hoom⟩, rfl⟩

/-- Taking one page of the child back. -/
theorem rollbackOnePage_wp {q : PageTableEntry} (h : LinkState held parent child s₀ s)
    (hne : parent ≠ child) (hv : s.pte child v = some q) :
    wp (rollbackOnePage parent child (v, q.isCow))
      (fun _ s' => LinkState held parent child s₀ s' ∧
        s'.pte child = update (s.pte child) v none ∧
        s'.pte parent =
          update (s.pte parent) v ((s₀.pte parent v).map undoneEntry))
      (fun _ _ => False) s := by
  have hsome : s.pte child v ≠ none := by rw [hv]; exact Option.some_ne_none q
  have hview := (h.view v).resolve_left hsome
  have hlinked := h.linked v hsome
  cases hp : s₀.pte parent v with
  | none =>
    rw [hp, hv] at hview
    cases hview
  | some p =>
    rw [hp, Option.map_some] at hview hlinked
    cases hv.symm.trans hview
    -- The unmap that ends both branches, from the state after the parent's entry is back.
    have hunmap : ∀ s₁ x, Accounted held s₁ → SameSpaces s s₁ → s₁.frames = s.frames →
        s₁.memory = s.memory → Restored (some p) x → s₁.pte = setPte s.pte parent v x →
        wp (tryUnmapUpage child v)
          (fun _ s' => LinkState held parent child s₀ s' ∧
            s'.pte child = update (s.pte child) v none ∧
            s'.pte parent = update (s.pte parent) v x)
          (fun _ _ => False) s₁ := by
      intro s₁ x hacc hsp hf hm hx hpte
      have hc : s₁.pte child v = some (childEntry p) := by
        rw [hpte, setPte_other (Ne.symm hne), hv]
      obtain ⟨vm, hvm, -⟩ := Accounted.pte_eq_some hc
      refine (tryUnmapUpage_wp hacc hvm).mono ?_ ?_
      · rintro r s' (⟨-, hnone, -⟩ | ⟨-, q, hq, hrel⟩)
        · cases hc.symm.trans hnone
        · cases hc.symm.trans hq
          refine ⟨h.undo hne hp hv hrel.accounted (hsp.trans hrel.spaces)
            (hrel.memory.trans hm) (hf ▸ hrel.owners) ?_ hx (hpte ▸ hrel.pte), ?_, ?_⟩
          · have hdrop := hrel.dropped
            rwa [hf, childEntry_frame] at hdrop
          · rw [hrel.pte, setPte_space, hpte, setPte_other (Ne.symm hne)]
          · rw [hrel.pte, setPte_other hne, hpte, setPte_space]
      · rintro e s' ⟨huser, -⟩
        rw [hacc.isUserAddr hc] at huser
        cases huser
    simp only [rollbackOnePage, wp_ite, wp_bind, wp_attempt, wp_pure, childEntry_isCow,
      Option.map_some, undoneEntry]
    split_ifs with hw
    · have hcow : (parentEntry p).isCow = true := by rw [parentEntry, if_pos hw]; rfl
      refine (unmarkCow_wp h.accounted hlinked hcow).total ?_
      rintro _ s₁ ⟨hacc, hsp, hf, hm, hpte⟩
      rw [parentEntry, if_pos hw] at hpte
      exact (hunmap s₁ _ hacc hsp hf hm (Or.inr ⟨p, rfl, hw, rfl⟩) hpte).total fun _ _ hs => hs
    · rw [parentEntry, if_neg hw] at hlinked
      exact (hunmap s _ h.accounted (.refl s) rfl rfl (Or.inl rfl)
        (setPte_eq_self hlinked).symm).total fun _ _ hs => hs

/-- The pages of the child, with their marks, in some order. -/
def Visits (child : Nat) (s : MemState) (l : List (PageAligned × Bool)) : Prop :=
  Worklist Prod.fst (fun m => ∃ q, s.pte child m.1 = some q ∧ m.2 = q.isCow) l

/-- A page less in the child is a page less to visit. -/
theorem Visits.tail {b : Bool} {l : List (PageAligned × Bool)} (h : Visits child s ((v, b) :: l))
    (hpte : s'.pte child = update (s.pte child) v none) : Visits child s' l := by
  refine Worklist.tail h fun m => ?_
  rw [hpte, update_apply]
  split_ifs with hw <;> simp [hw]

/-- With nothing to visit the child is empty. -/
theorem Visits.nil (h : Visits child s []) (w : PageAligned) : s.pte child w = none := by
  cases hw : s.pte child w with
  | none => rfl
  | some q => exact absurd ⟨q, hw, rfl⟩ (Worklist.nil h (w, q.isCow))

/-- The walk over the mappings of the child visits its pages. -/
theorem visits_userMappings {vm : Vmem} (hvm : s.spaces child = some vm) :
    Visits child s (vm.userMappings.map fun m => (m.1, m.2.isCow)) := by
  constructor
  · rw [List.map_map]
    exact vm.nodup_userMappings
  · rintro ⟨v, b⟩
    rw [Accounted.pte_of_space hvm]
    constructor
    · intro hmem
      obtain ⟨⟨w, q⟩, hq, heq⟩ := List.mem_map.mp hmem
      cases heq
      exact ⟨q, Vmem.mem_userMappings.mp hq, rfl⟩
    · rintro ⟨q, hq, rfl⟩
      exact List.mem_map.mpr ⟨(v, q), Vmem.mem_userMappings.mpr hq, rfl⟩

theorem linkChunk_pos : 0 < linkChunk := by decide

section Rollback
variable {J : MemState → Prop}

/-- What taking one page back keeps of the states of a rollback. -/
def Undoable (held : List Nat) (parent child : Nat) (s₀ : MemState) (J : MemState → Prop) : Prop :=
  ∀ s s' v, LinkState held parent child s₀ s → s.pte child v ≠ none → J s →
    s'.pte child = update (s.pte child) v none →
    s'.pte parent = update (s.pte parent) v ((s₀.pte parent v).map undoneEntry) → J s'

theorem rollbackLoop_wp (hJ : Undoable held parent child s₀ J) (hne : parent ≠ child)
    (hchild : (s₀.spaces child).isSome) (fuel : Nat)
    (l : List (PageAligned × Bool)) (h : LinkState held parent child s₀ s) (hstart : J s)
    (hl : Visits child s l) (hfuel : l.length < fuel) :
    wp (rollbackLoop parent child fuel)
      (fun _ s' => LinkState held parent child s₀ s' ∧ J s' ∧ ∀ w, s'.pte child w = none)
      (fun _ _ => False) s := by
  induction fuel generalizing s l with
  | zero => exact absurd hfuel (Nat.not_lt_zero _)
  | succ fuel ih =>
    obtain ⟨vm, hvm⟩ := h.spaces.exists_space hchild
    have hL := visits_userMappings hvm
    rw [Worklist.length_eq hl hL] at hfuel
    simp only [rollbackLoop, wp_bind]
    apply onSpace_gets_wp hvm
    simp only [List.map_take]
    generalize vm.userMappings.map (fun m => (m.1, m.2.isCow)) = L at hL hfuel ⊢
    have hpos := linkChunk_pos
    have hchunk : wp (forEach (rollbackOnePage parent child) (L.take linkChunk))
        (fun _ s' => (LinkState held parent child s₀ s' ∧ J s') ∧
          Visits child s' (L.drop linkChunk))
        (fun _ _ => False) s := by
      refine wp_forEach (fun bs s => (LinkState held parent child s₀ s ∧ J s) ∧
        Visits child s (bs ++ L.drop linkChunk)) ?_ (L.take linkChunk) ?_
      · rintro ⟨v, b⟩ bs s₁ ⟨⟨h₁, hj₁⟩, hv₁⟩
        obtain ⟨q, hq, hb⟩ := (hv₁.mem (v, b)).mp (List.mem_append_left _ List.mem_cons_self)
        subst hb
        refine (rollbackOnePage_wp h₁ hne hq).imp ?_
        rintro _ s₂ ⟨h₂, hpte, hparent⟩
        refine ⟨⟨h₂, hJ s₁ s₂ v h₁ ?_ hj₁ hpte hparent⟩, hv₁.tail hpte⟩
        rw [hq]
        exact Option.some_ne_none q
      · rw [List.take_append_drop]
        exact ⟨⟨h, hstart⟩, hL⟩
    simp only [wp_ite, wp_pure, wp_bind, List.length_take]
    split_ifs with hzero hshort
    · have hnil : L = [] := List.eq_nil_of_length_eq_zero (by omega)
      exact ⟨h, hstart, (hnil ▸ hL).nil⟩
    · have hnil : L.drop linkChunk = [] := List.drop_eq_nil_of_le (by omega)
      rw [hnil] at hchunk
      exact hchunk.imp fun _ _ hs => ⟨hs.1.1, hs.1.2, hs.2.nil⟩
    · refine hchunk.imp fun _ _ hs => ?_
      exact ih (L.drop linkChunk) hs.1.1 hs.1.2 hs.2 (by rw [List.length_drop]; omega)

/-- Every page of the child is taken back. -/
theorem rollbackLinkedPages_wp (hJ : Undoable held parent child s₀ J) (hne : parent ≠ child)
    (hchild : (s₀.spaces child).isSome) (h : LinkState held parent child s₀ s) (hstart : J s) :
    wp (rollbackLinkedPages parent child)
      (fun _ s' => LinkState held parent child s₀ s' ∧ J s' ∧ ∀ w, s'.pte child w = none)
      (fun _ _ => False) s := by
  obtain ⟨vm, hvm⟩ := h.spaces.exists_space hchild
  simp only [rollbackLinkedPages, wp_bind]
  apply onSpace_gets_wp hvm
  refine rollbackLoop_wp hJ hne hchild _ _ h hstart (visits_userMappings hvm) ?_
  rw [List.length_map]
  exact Nat.lt_succ_self _

end Rollback

/-- The pages of the parent that the child does not have, in some order. -/
def Pending (parent child : Nat) (s₀ s : MemState) (l : List LinkEntry) : Prop :=
  Worklist LinkEntry.page (fun e => ∃ p, s₀.pte parent e.page = some p ∧
    s.pte child e.page = none ∧ e = ⟨e.page, p.frame, p.isWritable⟩) l

theorem Pending.tail {e : LinkEntry} {x : PageTableEntry} {l : List LinkEntry}
    (h : Pending parent child s₀ s (e :: l))
    (hpte : s'.pte child = update (s.pte child) e.page (some x)) :
    Pending parent child s₀ s' l := by
  refine Worklist.tail h fun e' => ?_
  rw [hpte, update_apply]
  split_ifs with hw <;> simp [hw]

/-- With nothing left, the child has every page of the parent. -/
theorem Pending.nil (h : Pending parent child s₀ s []) {w : PageAligned}
    (hp : s₀.pte parent w = some p) : s.pte child w ≠ none := by
  intro hw
  exact Worklist.nil h ⟨w, p.frame, p.isWritable⟩ ⟨p, hp, hw, rfl⟩

/-- The walk over the mappings of the parent finds the pages that are left. -/
theorem pending_snapshot {vp vc : Vmem} (h : Linking held parent child s₀ s)
    (hvp : s.spaces parent = some vp) (hvc : s.spaces child = some vc) :
    Pending parent child s₀ s
      ((vp.userMappings.filter fun m => (vc.tryFindUserPte m.1).isNone).map fun m =>
        ⟨m.1, m.2.frame, m.2.isWritable⟩) := by
  constructor
  · rw [List.map_map]
    exact vp.nodup_userMappings.sublist (List.filter_sublist.map Prod.fst)
  · intro e
    rw [List.mem_map]
    constructor
    · rintro ⟨⟨w, p⟩, hmem, rfl⟩
      obtain ⟨hp, hc⟩ := List.mem_filter.mp hmem
      have hnone : s.pte child w = none := by
        rw [Accounted.pte_of_space hvc]
        simpa using hc
      refine ⟨p, ?_, hnone, rfl⟩
      rw [← h.untouched w hnone, Accounted.pte_of_space hvp]
      exact Vmem.mem_userMappings.mp hp
    · rintro ⟨p, hp, hnone, he⟩
      refine ⟨(e.page, p), List.mem_filter.mpr ⟨Vmem.mem_userMappings.mpr ?_, ?_⟩, he.symm⟩
      · rw [← Accounted.pte_of_space hvp, h.untouched _ hnone, hp]
      · rw [Accounted.pte_of_space hvc] at hnone
        simp only [hnone, Option.isNone_none]

/-- A chunk of pages: all are shared, or the link stands where a page failed. -/
theorem linkChunk_wp {es rest : List LinkEntry} (hne : parent ≠ child)
    (hchild : (s₀.spaces child).isSome) (h : Linking held parent child s₀ s)
    (hl : Pending parent child s₀ s (es ++ rest)) :
    wp (forEach (linkOneUserPage parent child) es)
      (fun _ s' => Linking held parent child s₀ s' ∧ Pending parent child s₀ s' rest)
      (fun e s' => Linking held parent child s₀ s' ∧ e.code = .outOfMemory) s := by
  refine wp_forEach (fun bs s => Linking held parent child s₀ s ∧
    Pending parent child s₀ s (bs ++ rest)) ?_ es ⟨h, hl⟩
  rintro e bs s₁ ⟨h₁, hl₁⟩
  obtain ⟨p, hp, hv, he⟩ := (hl₁.mem e).mp (List.mem_append_left _ List.mem_cons_self)
  rw [he]
  refine (linkOneUserPage_wp h₁ hne hp hv hchild).mono ?_ fun _ _ he => he.1
  rintro _ s₂ ⟨h₂, hpte⟩
  exact ⟨h₂, hl₁.tail hpte⟩

/-- The walk of `linkLoop`, which stands where a page failed. -/
def linkPagesLoop (parent child : Nat) : Nat → MM Unit
  | 0 => abort "link_user_pages does not terminate"
  | fuel + 1 => do
      let chunk ← linkSnapshot parent child
      if chunk.length = 0 then pure ()
      else do
        forEach (linkOneUserPage parent child) chunk
        if chunk.length < linkChunk then pure () else linkPagesLoop parent child fuel

/-- `link_user_pages` without its rollback. -/
def linkPages (parent child : Nat) : MM Unit := do
  linkPagesLoop parent child ((← onSpace parent (gets fun vm => vm.userMappings.length)) + 1)

/-- A walk, and the rollback when it fails. -/
def orRollback (parent child : Nat) (walk : MM Unit) : MM Unit := do
  match ← attempt walk with
  | .ok _ => pure ()
  | .error e =>
    rollbackLinkedPages parent child
    throw e

/-- Reading a space does not fail. -/
theorem onSpace_gets_ne_err {α : Type} {i : Nat} {g : Vmem → α} {e : Error} :
    onSpace i (gets g) s ≠ .err e s' := by
  intro h
  cases hi : s.spaces i with
  | none => simp only [onSpace, focus, hi, reduceCtorEq] at h
  | some vm => cases (onSpace_gets_run hi).symm.trans h

theorem linkSnapshot_ne_err {e : Error} : linkSnapshot parent child s ≠ .err e s' := by
  intro h
  rcases bind_eq_err h with h | ⟨_, _, -, h⟩
  · exact onSpace_gets_ne_err h
  · rcases bind_eq_err h with h | ⟨_, _, -, h⟩
    · exact onSpace_gets_ne_err h
    · cases h

section OrRollback
variable {α : Type} {x : MM α} {f : α → MM Unit}

/-- A walk that fails after its first step is undone after it. -/
theorem orRollback_bind : orRollback parent child (x >>= f) = (do
    match ← attempt x with
    | .ok a => orRollback parent child (f a)
    | .error e =>
      rollbackLinkedPages parent child
      throw e) := by
  funext s
  cases hx : x s <;> simp only [orRollback, bind, Prog.bind, attempt, hx]

/-- A first step that does not fail is outside the rollback. -/
theorem orRollback_bind_of_ne_err (h : ∀ s e t, x s ≠ .err e t) :
    orRollback parent child (x >>= f) = x >>= fun a => orRollback parent child (f a) := by
  rw [orRollback_bind]
  funext s
  cases hx : x s with
  | ok a t | abort m => simp only [bind, Prog.bind, attempt, hx]
  | err e t => exact absurd hx (h s e t)

end OrRollback

/-- The rollback comes after the whole walk. -/
theorem linkLoop_eq (parent child fuel : Nat) :
    linkLoop parent child fuel = orRollback parent child (linkPagesLoop parent child fuel) := by
  induction fuel with
  | zero => rfl
  | succ fuel ih =>
    rw [linkLoop, linkPagesLoop, orRollback_bind_of_ne_err fun _ _ _ => linkSnapshot_ne_err]
    congr 1
    funext chunk
    by_cases hzero : chunk.length = 0
    · rw [if_pos hzero, if_pos hzero]
      rfl
    rw [if_neg hzero, if_neg hzero, orRollback_bind]
    congr 1
    funext r
    cases r with
    | error e => rfl
    | ok u =>
      by_cases hshort : chunk.length < linkChunk
      · simp only [if_pos hshort]
        rfl
      · simp only [if_neg hshort]
        exact ih

theorem linkUserPages_eq (parent child : Nat) :
    linkUserPages parent child = orRollback parent child (linkPages parent child) := by
  rw [linkPages, orRollback_bind_of_ne_err fun _ _ _ => onSpace_gets_ne_err]
  simp only [linkUserPages, linkLoop_eq]

theorem linkPagesLoop_wp (hne : parent ≠ child) (hparent : (s₀.spaces parent).isSome)
    (hchild : (s₀.spaces child).isSome) (fuel : Nat) (l : List LinkEntry)
    (h : Linking held parent child s₀ s) (hl : Pending parent child s₀ s l)
    (hfuel : l.length < fuel) :
    wp (linkPagesLoop parent child fuel)
      (fun _ s' => Linking held parent child s₀ s' ∧ Pending parent child s₀ s' [])
      (fun e s' => Linking held parent child s₀ s' ∧ e.code = .outOfMemory) s := by
  induction fuel generalizing s l with
  | zero => exact absurd hfuel (Nat.not_lt_zero _)
  | succ fuel ih =>
    obtain ⟨vp, hvp⟩ := h.spaces.exists_space hparent
    obtain ⟨vc, hvc⟩ := h.spaces.exists_space hchild
    have hL := pending_snapshot h hvp hvc
    rw [Worklist.length_eq hl hL] at hfuel
    simp only [linkPagesLoop, linkSnapshot, wp_bind]
    apply onSpace_gets_wp hvc
    apply onSpace_gets_wp hvp
    rw [wp_pure, List.map_take]
    generalize List.map _ (List.filter _ vp.userMappings) = L at hL hfuel ⊢
    have hpos := linkChunk_pos
    have hchunk := linkChunk_wp hne hchild h ((List.take_append_drop linkChunk L).symm ▸ hL)
    simp only [wp_ite, wp_pure, wp_bind, List.length_take]
    split_ifs with hzero hshort
    · have hnil : L = [] := List.eq_nil_of_length_eq_zero (by omega)
      exact ⟨h, hnil ▸ hL⟩
    · have hnil : L.drop linkChunk = [] := List.drop_eq_nil_of_le (by omega)
      rw [hnil] at hchunk
      exact hchunk
    · refine hchunk.imp fun _ _ hs => ?_
      exact ih (L.drop linkChunk) hs.1 hs.2 (by rw [List.length_drop]; omega)

/-- The walk over all pages of a parent, up to the first one that fails. -/
theorem linkPages_wp (h : Accounted held s) (hne : parent ≠ child)
    (hparent : (s.spaces parent).isSome) (hchild : (s.spaces child).isSome)
    (hempty : ∀ w, s.pte child w = none) :
    wp (linkPages parent child)
      (fun _ s' => Linking held parent child s s' ∧ Pending parent child s s' [])
      (fun e s' => Linking held parent child s s' ∧ e.code = .outOfMemory) s := by
  obtain ⟨vp, hvp⟩ := Option.isSome_iff_exists.mp hparent
  obtain ⟨vc, hvc⟩ := Option.isSome_iff_exists.mp hchild
  have hstart : Linking held parent child s s := .refl h hempty
  simp only [linkPages, wp_bind]
  apply onSpace_gets_wp hvp
  refine linkPagesLoop_wp hne hparent hchild _ _ hstart (pending_snapshot hstart hvp hvc) ?_
  rw [List.length_map]
  exact Nat.lt_succ_of_le (List.length_filter_le _ _)

/-- The entries after the pages of a parent were shared with a child. -/
def linkedPte (g : Nat → PageAligned → Option PageTableEntry) (parent child : Nat) :
    Nat → PageAligned → Option PageTableEntry := fun j w =>
  if j = child then (g parent w).map childEntry
  else if j = parent then (g parent w).map parentEntry
  else g j w

/-- Sharing the pages of a parent with an empty child. -/
theorem linkUserPages_wp (h : Accounted held s) (hne : parent ≠ child)
    (hparent : (s.spaces parent).isSome) (hchild : (s.spaces child).isSome)
    (hempty : ∀ w, s.pte child w = none) :
    wp (linkUserPages parent child)
      (fun _ s' => Linking held parent child s s' ∧ s'.pte = linkedPte s.pte parent child)
      (fun e s' => Unlinked held parent s s' ∧ e.code = .outOfMemory) s := by
  rw [linkUserPages_eq, orRollback, wp_bind, wp_attempt]
  refine (linkPages_wp h hne hparent hchild hempty).mono ?_ ?_
  · rintro _ s' ⟨hl, hdone⟩
    rw [wp_pure]
    refine ⟨hl, ?_⟩
    funext j w
    unfold linkedPte
    have hview : s'.pte child w = (s.pte parent w).map childEntry := by
      cases hp : s.pte parent w with
      | none =>
        have hv := hl.view w
        rwa [hp, Option.map_none, or_self] at hv
      | some p =>
        rw [← hp]
        exact (hl.view w).resolve_left (hdone.nil hp)
    split_ifs with hjc hjp
    · rw [hjc, hview]
    · rw [hjp]
      cases hp : s.pte parent w with
      | none =>
        rw [hl.untouched w (by rw [hview, hp, Option.map_none]), hp, Option.map_none]
      | some p =>
        rw [← hp]
        exact hl.linked w (hdone.nil hp)
    · rw [hl.other j hjp hjc]
  · rintro e s₁ ⟨hl, hoom⟩
    rw [wp_bind]
    refine (rollbackLinkedPages_wp (J := fun _ => True) (fun _ _ _ _ _ _ _ _ => trivial) hne hchild
      hl.toLinkState trivial).total ?_
    rintro _ s₂ ⟨h₂, -, hnow⟩
    rw [wp_throw]
    exact ⟨h₂.unlinked_of_empty hempty hnow, hoom⟩

end MM
end Nanvix.Mm
