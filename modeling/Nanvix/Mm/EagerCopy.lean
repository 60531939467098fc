import Nanvix.Mm.EagerView

/-!
# Copies and user accesses follow those on private pages

Each routine that reads or writes user memory does on a memory with shared frames
what it does on private pages, when the pages it writes to can be made private:
they are writable, marked, or the only owners of their frames.

## Implementation notes

The first pass of a copy to user memory checks nothing but the kernel's range,
so it follows no step of the copy on private pages.
-/
namespace Nanvix.Mm
open Config Library Library.Prog MM

/-- A sound memory that shows the state of private pages. -/
structure Follow (exact : Bool) (held kernelFrames : List Nat) (s : MemState) (a : EagerState) :
    Prop where
  sound : Sound held kernelFrames s
  shows : Shows exact kernelFrames s a

/-- The error that no run on private pages has. -/
def OutOfMemory (e : Error) : Prop := e.code = .outOfMemory

/-- The kernel may write to the pages of the range once it has resolved them. -/
def KernelWritable (i addr size : Nat) (s : MemState) : Prop :=
  ∀ k, k < size → ∀ p, s.pte i (.alignDown (addr + k)) = some p →
    p.isWritable = true ∨ p.isCow = true ∨ s.frames.refcount p.frame ≤ 1

/-- The pages of the range share no frame. -/
def Unshared (i addr size : Nat) (s : MemState) : Prop :=
  ∀ k, k < size → ∀ p, s.pte i (.alignDown (addr + k)) = some p → s.frames.refcount p.frame ≤ 1

variable {held kernelFrames : List Nat} {exact : Bool} {s s' : MemState} {a : EagerState}
variable {i j n addr size dst src : Nat} {v : PageAligned} {p q : PageTableEntry}

section Resolve

theorem Follow.sameView (h : Follow exact held kernelFrames s a)
    (hs : Sound held kernelFrames s') (hview : SameView kernelFrames s s') :
    Follow exact held kernelFrames s' a := ⟨hs, h.shows.sameView hview⟩

theorem Follow.resolved (h : Follow exact held kernelFrames s a)
    (hr : ResolveStep held i v s s') : Follow exact held kernelFrames s' a :=
  h.sameView (h.sound.resolved hr) (h.sound.sameView_resolved hr)

/-- A page that was resolved is writable, and no other page gets more owners. -/
theorem KernelWritable.resolved (h : KernelWritable j addr size s)
    (hr : ResolveStep held i v s s') : KernelWritable j addr size s' := by
  intro k hk p' hp'
  obtain ⟨q, hq, -, hres⟩ := hr.entry
  by_cases hin : j = i ∧ PageAligned.alignDown (addr + k) = v
  · left
    obtain ⟨q', hpte, hnew⟩ := hres.renewed
    rw [hin.1, hin.2, hpte, setPte_self, Option.some.injEq] at hp'
    exact hp' ▸ hnew.writable
  · rw [hr.pte_of_ne hin] at hp'
    refine (h k hk p' hp').imp_right fun hrest => hrest.imp_right fun hle => ?_
    have hmax := hres.noNewOwners p'.frame
    omega

theorem resolveSteps_follow (h : Follow exact held kernelFrames s a)
    (hw : KernelWritable j addr size s) (hs : ResolveSteps held i s s') :
    Follow exact held kernelFrames s' a ∧ KernelWritable j addr size s' := by
  induction hs with
  | refl => exact ⟨h, hw⟩
  | tail _ hstep ih =>
    obtain ⟨v, hr⟩ := hstep
    exact ⟨ih.1.resolved hr, ih.2.resolved hr⟩

theorem mem_regionPages {k : Nat} (hk : k < size) :
    (addr + k) / pageSize ∈ regionPages addr size := by
  refine List.mem_range'_1.mpr ⟨Nat.div_le_div_right (by omega), ?_⟩
  have hle : (addr + k) / pageSize ≤ (addr + (size - 1)) / pageSize :=
    Nat.div_le_div_right (by omega)
  have hlo : addr / pageSize ≤ (addr + k) / pageSize := Nat.div_le_div_right (by omega)
  omega

/-- A marked page of a sound memory is read-only when it is shared. -/
theorem Sound.not_openShared (h : Sound held kernelFrames s) : ¬OpenShared s i v := by
  rintro ⟨p, hp, -, hw, hne⟩
  have hle := isolated_iff.mp h.isolated i v p hp hw
  have hpos := h.accounted.refcount_pos hp
  omega

/-- Resolving a range that the kernel may write to makes its pages private. -/
theorem resolveRegion_follow (h : Follow exact held kernelFrames s a) (hi : (s.spaces i).isSome)
    (hw : KernelWritable i addr size s) :
    wp (resolveCowForRegion i addr size)
      (fun _ s' => Follow exact held kernelFrames s' a ∧ SameSpaces s s' ∧ Unshared i addr size s')
      (fun e s' => OutOfMemory e ∨ (usizeMax < addr + (size - 1) ∧ s' = s)) s := by
  refine (resolveCowForRegion_wp h.sound.accounted hi).mono ?_ ?_
  · rintro _ s' ⟨hs, hclear⟩
    obtain ⟨hf, hw'⟩ := resolveSteps_follow h hw hs
    refine ⟨hf, hs.spaces, fun k hk p hp => ?_⟩
    rcases hw' k hk p hp with hwritable | hcow | hle
    · exact isolated_iff.mp hf.sound.isolated _ _ p hp hwritable
    · rw [hclear (by omega) _ (mem_regionPages hk) p hp] at hcow
      cases hcow
    · exact hle
  · rintro e s' ⟨s₁, hs, -, hcause⟩
    rcases hcause with hoom | ⟨-, hsame, hover⟩ | ⟨v, hopen⟩
    · exact Or.inl hoom
    · exact Or.inr ⟨hover, hsame⟩
    · exact absurd hopen (resolveSteps_follow h hw hs).1.sound.not_openShared

end Resolve

/-- The two ranges of a copy overlap. -/
def Overlap (dst src n : Nat) : Prop := dst ≤ src ∧ src < dst + n ∨ src ≤ dst ∧ dst < src + n

instance : Decidable (Overlap dst src n) := inferInstanceAs (Decidable (_ ∨ _))

theorem memcpy_wp (hn : n ≠ 0) (hdst : dst + n ≤ usizeMax) (hsrc : src + n ≤ usizeMax) :
    wp (memcpy dst src n)
      (fun _ s' => ¬Overlap dst src n ∧
        s' = { s with memory := setRange s.memory dst n fun k => s.memory (src + k) })
      (fun _ s' => Overlap dst src n ∧ s' = s) s := by
  simp only [memcpy, wp_ite, wp_throw, wp_modify, if_neg hn,
    if_neg (Nat.not_lt.mpr hdst), if_neg (Nat.not_lt.mpr hsrc)]
  split_ifs with hover
  · exact ⟨hover, trivial⟩
  · exact ⟨hover, rfl⟩

/-- The kernel's buffer lies in frames of the kernel. -/
def KernelRange (kernelFrames : List Nat) (addr size : Nat) : Prop :=
  ∀ x, addr ≤ x → x < addr + size → x / pageSize ∈ kernelFrames

theorem kernelRange_of_buffer (h : kernelBuffer kernelFrames addr size = true) :
    KernelRange kernelFrames addr size := by
  intro x hlo hhi
  rw [kernelBuffer, Bool.or_eq_true, beq_iff_eq, List.all_eq_true] at h
  have hall := h.resolve_left (by omega) ((addr + (x - addr)) / pageSize) (mem_regionPages (by omega))
  rw [Nat.add_sub_cancel' hlo] at hall
  exact List.contains_iff_mem.mp hall

theorem KernelRange.sub {k : Nat} (h : KernelRange kernelFrames addr size) (hk : k + n ≤ size) :
    KernelRange kernelFrames (addr + k) n :=
  fun x hlo hhi => h x (by omega) (by omega)

namespace Sound

variable (h : Sound held kernelFrames s)
include h

theorem kernel_pos {f : Nat} (hf : f ∈ kernelFrames) : 0 < s.frames.refcount f := by
  have hcount := h.accounted.count f
  have hheld := List.count_pos_iff.mpr (h.owned f hf)
  omega

/-- A buffer of the kernel ends within the memory of the machine. -/
theorem kernel_end_le (hr : KernelRange kernelFrames src n)
    (hn : n ≠ 0) : src + n ≤ usizeMax ∧ src + n ≤ s.frames.capacity * pageSize := by
  have hpos := h.kernel_pos (hr (src + n - 1) (by omega) (by omega))
  have hend := frame_end_le h.accounted.valid hpos
  have hbound : ((src + n - 1) / pageSize + 1) * pageSize ≤ s.frames.capacity * pageSize :=
    Nat.mul_le_mul_right _ (h.accounted.valid.bound _ hpos)
  unfold pageSize at *
  omega

/-- A page ends within the memory of the machine. -/
theorem page_end_le (hp : s.pte i v = some p) {o : Nat}
    (hfit : o + n ≤ pageSize) : p.frame * pageSize + o + n ≤ usizeMax ∧
      p.frame * pageSize + o + n ≤ s.frames.capacity * pageSize := by
  have hpos := h.accounted.refcount_pos hp
  have hend := frame_end_le h.accounted.valid hpos
  have hbound : (p.frame + 1) * pageSize ≤ s.frames.capacity * pageSize :=
    Nat.mul_le_mul_right _ (h.accounted.valid.bound _ hpos)
  unfold pageSize at *
  omega

/-- A buffer of the kernel and a page have no byte in common. -/
theorem kernel_not_overlap (hp : s.pte i v = some p) {o : Nat}
    (hfit : o + n ≤ pageSize) (hr : KernelRange kernelFrames addr n) :
    ¬Overlap (p.frame * pageSize + o) addr n ∧ ¬Overlap addr (p.frame * pageSize + o) n := by
  have hnot : ∀ k, k < n → addr ≤ p.frame * pageSize + o + k →
      p.frame * pageSize + o + k < addr + n → False := by
    intro k hk hlo hhi
    have hmem := hr _ hlo hhi
    have hdiv : (p.frame * pageSize + o + k) / pageSize = p.frame := by
      unfold pageSize at *
      omega
    exact h.apart i v p hp (hdiv ▸ hmem)
  constructor
  · rintro (⟨hlo, hhi⟩ | ⟨hlo, hhi⟩)
    · exact hnot (addr - (p.frame * pageSize + o)) (by omega) (by omega) (by omega)
    · exact hnot 0 (by omega) (by omega) (by omega)
  · rintro (⟨hlo, hhi⟩ | ⟨hlo, hhi⟩)
    · exact hnot 0 (by omega) (by omega) (by omega)
    · exact hnot (addr - (p.frame * pageSize + o)) (by omega) (by omega) (by omega)

end Sound

section Chunks

/-- The memory was written to, and nothing else changed. -/
def OnlyMemory (s t : MemState) : Prop := ∃ m, t = { s with memory := m }

section
variable (h : Follow exact held kernelFrames s a)
include h

theorem Follow.write {b : Nat → UInt8}
    (hp : s.pte i (.alignDown dst) = some p) (hone : s.frames.refcount p.frame ≤ 1)
    (hfit : pageOffset dst + n ≤ pageSize) :
    Follow exact held kernelFrames
      { s with memory := setRange s.memory (p.frame * pageSize + pageOffset dst) n b }
      { a with bytes := Function.update a.bytes i (setRange (a.bytes i) dst n b) } := by
  have hshows := h.shows.write (b := b) h.sound hp hone hfit
  rw [raw_add_pageOffset] at hshows
  exact ⟨h.sound.setMemory _, hshows⟩

/-- The bytes of a range within a page. -/
theorem Follow.bytes_eq
    (hp : s.pte i (.alignDown src) = some p) {k : Nat} (hk : pageOffset src + k < pageSize) :
    s.memory (p.frame * pageSize + pageOffset src + k) = a.bytes i (src + k) := by
  have hbytes := h.shows.bytes i _ p hp _ hk
  rw [← Nat.add_assoc, ← Nat.add_assoc, raw_add_pageOffset] at hbytes
  exact hbytes.symm

/-- The pages of the range are present in both. -/
theorem Follow.hasPage {o : Option PageTableEntry}
    (ho : s.pte i (.alignDown addr) = o) : EM.hasPage i addr a = .ok o.isSome a := by
  have hpresent := h.shows.present i (.alignDown addr)
  rw [ho] at hpresent
  exact congrArg (Outcome.ok · a) hpresent

end

/-- A round copies to the frame of a page that is there, when both ranges lie in the memory of
the machine and do not overlap. -/
theorem copyToUserChunk_ok (hp : s.pte i (.alignDown dst) = some p) (hn : n ≠ 0)
    (hsrc : src + n ≤ usizeMax ∧ src + n ≤ s.frames.capacity * pageSize)
    (hdst : p.frame * pageSize + pageOffset dst + n ≤ usizeMax ∧
      p.frame * pageSize + pageOffset dst + n ≤ s.frames.capacity * pageSize)
    (hover : ¬Overlap (p.frame * pageSize + pageOffset dst) src n) :
    wp (copyToUserChunk false i dst src n)
      (fun _ t => t = { s with
        memory := setRange s.memory (p.frame * pageSize + pageOffset dst) n
          fun k => s.memory (src + k) })
      (fun _ _ => False) s := by
  unfold copyToUserChunk
  simp only [isPhysicalRegion, wp_bind, wp_gets,
    decide_eq_true (show _ ∧ _ ∧ _ from ⟨hn, hsrc⟩), Bool.not_true, Bool.false_eq_true,
    if_false, wp_attempt]
  rw [wp_of_ok (findUserFrame_of_some hp)]
  simp only [wp_bind, decide_eq_true (show _ ∧ _ ∧ _ from ⟨hn, hdst⟩), Bool.not_true,
    Bool.false_eq_true, if_false, wp_attempt]
  refine (memcpy_wp hn hdst.1 hsrc.1).mono (fun _ _ ht => (wp_pure ()).mpr ht.2) ?_
  rintro _ _ ⟨hyes, -⟩
  exact absurd hyes hover

theorem copyToUserChunk_wp (h : Sound held kernelFrames s)
    (hp : s.pte i (.alignDown dst) = some p) (hn : n ≠ 0) (hfit : pageOffset dst + n ≤ pageSize)
    (hr : KernelRange kernelFrames src n) :
    wp (copyToUserChunk false i dst src n)
      (fun _ t => t = { s with
        memory := setRange s.memory (p.frame * pageSize + pageOffset dst) n
          fun k => s.memory (src + k) })
      (fun _ _ => False) s :=
  copyToUserChunk_ok hp hn (h.kernel_end_le hr hn) (h.page_end_le hp hfit)
    (h.kernel_not_overlap hp hfit hr).1

section
variable (h : Follow exact held kernelFrames s a)
include h

theorem copyToUserChunk_follows (hi : (s.spaces i).isSome)
    (hone : ∀ p, s.pte i (.alignDown dst) = some p → s.frames.refcount p.frame ≤ 1)
    (hn : n ≠ 0) (hfit : pageOffset dst + n ≤ pageSize) (hr : KernelRange kernelFrames src n) :
    follows OutOfMemory (copyToUserChunk false i dst src n) (EM.copyToUserChunk i dst src n)
      (fun _ t b => Follow exact held kernelFrames t b ∧ OnlyMemory s t) (fun _ _ => False) s a := by
  cases hp : s.pte i (.alignDown dst) with
  | none =>
    obtain ⟨hsrc, hphys⟩ := h.sound.kernel_end_le hr hn
    unfold copyToUserChunk
    refine follows_of_wp ?_
    rw [isPhysicalRegion, wp_gets, decide_eq_true ⟨hn, hsrc, hphys⟩]
    simp only [Bool.not_true, Bool.false_eq_true, if_false]
    refine follows_of_wp ?_
    obtain ⟨e, he⟩ := findUserFrame_of_none hi hp
    rw [wp_attempt, wp_of_err he]
    exact follows_abort
  | some p =>
    have hrun : EM.copyToUserChunk i dst src n a = .ok () { a with
        bytes := Function.update a.bytes i
          (setRange (a.bytes i) dst n fun k => a.kernel (src + k)) } :=
      bind_ok (h.hasPage hp)
    refine follows_ok hrun ((copyToUserChunk_wp h.sound hp hn hfit hr).total ?_)
    rintro _ _ rfl
    have hbytes : ∀ k, k < n → s.memory (src + k) = a.kernel (src + k) := fun k hk =>
      (h.shows.kernel _ (hr _ (by omega) (by omega))).symm
    rw [setRange_congr hbytes]
    exact ⟨rfl, h.write hp (hone p hp) hfit, _, rfl⟩

theorem copyFromUserChunk_follows
    (hi : (s.spaces i).isSome) (dryRun : Bool) (hn : n ≠ 0) (hfit : pageOffset src + n ≤ pageSize)
    (hr : KernelRange kernelFrames dst n) :
    follows OutOfMemory (copyFromUserChunk dryRun i dst src n)
      (EM.copyFromUserChunk dryRun i dst src n)
      (fun _ t b => Follow exact held kernelFrames t b ∧ OnlyMemory s t)
      (fun t b => Follow exact held kernelFrames t b ∧ OnlyMemory s t) s a := by
  obtain ⟨hdst, -⟩ := h.sound.kernel_end_le hr hn
  cases hp : s.pte i (.alignDown src) with
  | none =>
    obtain ⟨e, he⟩ := findUserFrame_of_none hi hp
    refine follows_err (bind_ok (h.hasPage hp)) ?_
    rw [copyFromUserChunk, wp_bind, wp_of_err he]
    exact Or.inr ⟨h, s.memory, rfl⟩
  | some p =>
    obtain ⟨hsrc, -⟩ := h.sound.page_end_le hp hfit
    have hrun : EM.copyFromUserChunk dryRun i dst src n a = .ok () (if dryRun then a else { a with
        kernel := setRange a.kernel dst n fun k => a.bytes i (src + k) }) := by
      refine (bind_ok (h.hasPage hp)).trans ?_
      cases dryRun <;> rfl
    refine follows_ok hrun ?_
    rw [copyFromUserChunk, wp_bind, wp_of_ok (findUserFrame_of_some hp)]
    cases dryRun with
    | true =>
      rw [if_pos rfl, wp_pure]
      exact ⟨rfl, h, s.memory, rfl⟩
    | false =>
      simp only [Bool.false_eq_true, if_false]
      refine (memcpy_wp hn hdst hsrc).mono ?_ ?_
      · rintro _ s₁ ⟨-, rfl⟩
        have hbytes : ∀ k, k < n → s.memory (p.frame * pageSize + pageOffset src + k) =
            a.bytes i (src + k) := fun k hk => h.bytes_eq hp (by omega)
        rw [setRange_congr hbytes]
        exact ⟨trivial, ⟨h.sound.setMemory _, h.shows.writeKernel h.sound hr⟩, _, rfl⟩
      · rintro e s₁ ⟨hover, -⟩
        exact absurd hover (h.sound.kernel_not_overlap hp hfit hr).2

/-- Two ranges within pages overlap in the frames exactly when they overlap in one space. -/
theorem Follow.overlap_iff
    (hp : s.pte i (.alignDown src) = some p) (hq : s.pte j (.alignDown dst) = some q)
    (hone : s.frames.refcount q.frame ≤ 1) (hsrc : pageOffset src + n ≤ pageSize)
    (hdst : pageOffset dst + n ≤ pageSize) :
    Overlap (q.frame * pageSize + pageOffset dst) (p.frame * pageSize + pageOffset src) n ↔
      i = j ∧ Overlap dst src n := by
  have hsrc' : (PageAligned.alignDown src).number * pageSize + pageOffset src = src :=
    raw_add_pageOffset src
  have hdst' : (PageAligned.alignDown dst).number * pageSize + pageOffset dst = dst :=
    raw_add_pageOffset dst
  have hpage : ∀ {x y : Nat}, Overlap (x * pageSize + pageOffset dst)
      (y * pageSize + pageOffset src) n → x = y := by
    intro x y hover
    unfold Overlap pageSize at *
    omega
  by_cases hf : p.frame = q.frame
  · -- The frame is mapped at one place, so it is the same page of one space.
    obtain ⟨hij, hpages⟩ := h.sound.accounted.eq_of_refcount_le_one hq hp hf hone
    rw [hpages] at hsrc'
    rw [hf]
    unfold Overlap
    omega
  · constructor
    · intro hover
      exact absurd (hpage hover).symm hf
    · rintro ⟨rfl, hover⟩
      have hnum := hpage (by rwa [hsrc', hdst'] : Overlap
        ((PageAligned.alignDown dst).number * pageSize + pageOffset dst)
        ((PageAligned.alignDown src).number * pageSize + pageOffset src) n)
      have hsame : PageAligned.alignDown dst = PageAligned.alignDown src := congrArg PageAligned.mk hnum
      rw [hsame, hp, Option.some.injEq] at hq
      exact absurd (congrArg PageTableEntry.frame hq) hf

theorem copyUserToUserChunk_follows
    (hi : (s.spaces i).isSome) (hj : (s.spaces j).isSome) (dryRun : Bool)
    (hone : ∀ p, s.pte j (.alignDown dst) = some p → s.frames.refcount p.frame ≤ 1)
    (hn : n ≠ 0) (hsrc : pageOffset src + n ≤ pageSize) (hdst : pageOffset dst + n ≤ pageSize) :
    follows OutOfMemory (copyUserToUserChunk dryRun i j dst src n)
      (EM.copyUserToUserChunk dryRun i j dst src n)
      (fun _ t b => Follow exact held kernelFrames t b ∧ OnlyMemory s t)
      (fun t b => Follow exact held kernelFrames t b ∧ OnlyMemory s t) s a := by
  have hstay : Follow exact held kernelFrames s a ∧ OnlyMemory s s := ⟨h, s.memory, rfl⟩
  have hrun : EM.copyUserToUserChunk dryRun i j dst src n a =
      (if (s.pte i (.alignDown src)).isSome && (s.pte j (.alignDown dst)).isSome then
        if dryRun then pure ()
        else if i = j ∧ Overlap dst src n then throw ()
        else EM.writeBytes j dst n fun a k => a.bytes i (src + k)
      else throw () : EM Unit) a :=
    (bind_ok (h.hasPage rfl)).trans (bind_ok (h.hasPage rfl))
  unfold follows
  rw [hrun]
  change follows OutOfMemory (copyUserToUserChunk dryRun i j dst src n) _ _ _ s a
  unfold copyUserToUserChunk
  cases hp : s.pte i (.alignDown src) with
  | none =>
    obtain ⟨e, he⟩ := findUserFrame_of_none hi hp
    refine follows_err rfl ?_
    rw [wp_bind, wp_of_err he]
    exact Or.inr hstay
  | some p =>
    refine follows_of_wp ((wp_of_ok (findUserFrame_of_some hp)).mpr ?_)
    cases hq : s.pte j (.alignDown dst) with
    | none =>
      obtain ⟨e, he⟩ := findUserFrame_of_none hj hq
      refine follows_err rfl ?_
      rw [wp_bind, wp_of_err he]
      exact Or.inr hstay
    | some q =>
      refine follows_of_wp ((wp_of_ok (findUserFrame_of_some hq)).mpr ?_)
      have hover := h.overlap_iff hp hq (hone q hq) hsrc hdst
      obtain ⟨hsend, -⟩ := h.sound.page_end_le hp hsrc
      obtain ⟨hdend, -⟩ := h.sound.page_end_le hq hdst
      cases dryRun with
      | true => exact follows_pure hstay
      | false =>
        simp only [Bool.false_eq_true, if_false, Option.isSome_some, Bool.and_self, if_true]
        split_ifs with hv
        · refine follows_err rfl ((memcpy_wp hn hdend hsend).mono ?_ ?_)
          · rintro _ _ ⟨hnot, -⟩
            exact hnot (hover.mpr hv)
          · rintro _ _ ⟨-, rfl⟩
            exact Or.inr hstay
        · refine follows_ok rfl ((memcpy_wp hn hdend hsend).mono ?_ ?_)
          · rintro _ _ ⟨-, rfl⟩
            have hbytes : ∀ k, k < n → s.memory (p.frame * pageSize + pageOffset src + k) =
                a.bytes i (src + k) := fun k hk => h.bytes_eq hp (by omega)
            rw [setRange_congr hbytes]
            exact ⟨rfl, h.write hq (hone q hq) hdst, _, rfl⟩
          · rintro _ _ ⟨hyes, -⟩
            exact absurd (hover.mp hyes) hv

end

end Chunks

end Nanvix.Mm
