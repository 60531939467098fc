import Nanvix.Mm.BulkPull
import Nanvix.Mm.Isolation

/-!
# Where a bulk pull lands

A target is anchored when its page maps the frame with write access and the frame
has no other owner. A command that does not take the page away, share its frame or
change its access keeps the target anchored, so that the bytes of a transfer land
in the caller's memory if no such command comes between the request and the
answer. The kernel itself does not see to that.
-/
namespace Nanvix.Mm
open Config Library Library.Prog MM

variable {j : Nat} {w : PageAligned} {t : Transfer}

/-- The page maps the frame, with write access and as its only owner. -/
def Anchored (i : Nat) (v : PageAligned) (f : Nat) (m : MemState) : Prop :=
  ∃ p, m.pte i v = some p ∧ p.frame = f ∧ p.isWritable = true ∧ m.frames.refcount f ≤ 1

variable {held : List Nat} {m m' : MemState} {i f : Nat} {v : PageAligned}

namespace Anchored

variable (h : Anchored i v f m)
include h

theorem quiet (hpte : m'.pte i v = m.pte i v) (howners : NoNewOwners m m') : Anchored i v f m' := by
  obtain ⟨p, hp, hf, hw, hone⟩ := h
  exact ⟨p, hpte.trans hp, hf, hw, (howners f).trans (max_le hone (Nat.le_refl 1))⟩

theorem pagesKept {spared : Nat → PageAligned → Prop} (hk : PagesKept spared m m')
    (hspared : spared i v) : Anchored i v f m' := by
  obtain ⟨p, hp, _⟩ := id h
  exact h.quiet (hk.kept i v hspared (by rw [hp]; exact Option.some_ne_none p)) hk.owners

theorem set {x : Option PageTableEntry}
    (hpte : m'.pte = setPte m.pte j w x) (hne : ¬(i = j ∧ v = w)) (howners : NoNewOwners m m') :
    Anchored i v f m' := by
  apply h.quiet _ howners
  rw [hpte, setPte_of_ne hne]

/-- Resolving a page copies it only when it is shared. -/
theorem resolveStep (hr : ResolveStep held j w m m') : Anchored i v f m' := by
  by_cases hin : i = j ∧ v = w
  · obtain ⟨rfl, rfl⟩ := hin
    obtain ⟨q, hq, _, hres⟩ := hr.entry
    obtain ⟨p, hp, hf, hw, hone⟩ := h
    obtain rfl : p = q := Option.some.inj (hp.symm.trans hq)
    cases hres with
    | sole one frames memory pte =>
      refine ⟨p.unmarked, ?_, hf, rfl, ?_⟩
      · rw [pte, setPte_self]
      · rw [frames]
        exact hone
    | copied n readOnly shared fresh owners bytes kept pte =>
      cases readOnly.symm.trans hw
  · obtain ⟨_, _, _, hres⟩ := hr.entry
    exact h.quiet (hr.pte_of_ne hin) hres.noNewOwners

theorem resolveSteps (hs : ResolveSteps held j m m') : Anchored i v f m' := by
  induction hs with
  | refl => exact h
  | tail _ hstep ih => exact ih.resolveStep hstep.choose_spec

theorem allocating {n : Nat} {access : AccessPermission} (ha : Allocating held j w n access m m') : Anchored i v f m' := by
  apply h.quiet _ ha.owners
  apply ha.other
  rintro ⟨rfl, hlo, hhi⟩
  obtain ⟨p, hp, _⟩ := h
  rw [(ha.done v hlo hhi).1] at hp
  cases hp

theorem linked {parent child : Nat} (hacc : Accounted held m)
    (hempty : ∀ w, m.pte child w = none) (hl : Linking held parent child m m')
    (hpte : m'.pte = linkedPte m.pte parent child) (hparent : parent ≠ i) :
    Anchored i v f m' := by
  obtain ⟨p, hp, rfl, hw, hone⟩ := h
  have hchild : i ≠ child := by
    rintro rfl
    rw [hempty] at hp
    cases hp
  refine ⟨p, ?_, rfl, hw, hl.refcount_le_one hacc hp hparent.symm hone⟩
  rw [hpte, linkedPte, if_neg hchild, if_neg hparent.symm]
  exact hp

end Anchored

theorem Anchored.effect {c : MemCmd} (h : Anchored i v f m) (hacc : Accounted held m)
    (hspares : c.Spares i v) (he : Effect held c m m') : Anchored i v f m' := by
  cases he with
  | quiet owners pte => exact h.quiet (by rw [pte]) owners
  | allocated done => exact h.allocating done
  | linked command empty done pte =>
    subst command
    exact h.linked hacc empty done pte hspares
  | unlinked command done =>
    subst command
    apply h.quiet _ done.owners
    rw [done.other i (Ne.symm hspares)]
  | resolved done owners pte =>
    have hdone := h.resolveSteps done
    apply hdone.quiet (by rw [pte])
    intro g
    rw [owners]
    exact Nat.le_max_left _ _
  | @changed j w access q command entry frames pte =>
    subst command
    obtain ⟨p, hp, hf, hw, hone⟩ := h
    by_cases hin : i = j ∧ v = w
    · obtain ⟨rfl, rfl⟩ := hin
      obtain rfl : p = q := Option.some.inj (hp.symm.trans entry)
      refine ⟨p.withAccess false access, ?_, hf, ?_, ?_⟩
      · rw [pte, setPte_self]
      · rw [PageTableEntry.withAccess_isWritable]
        exact hspares rfl rfl
      · rw [frames]
        exact hone
    · refine ⟨p, ?_, hf, hw, ?_⟩
      · rw [pte, setPte_of_ne hin]
        exact hp
      · rw [frames]
        exact hone
  | released command done =>
    subst command
    exact h.set done.pte hspares fun g => (done.owners g).trans (Nat.le_max_left _ _)

section Transfers
variable {s : BulkState}

theorem wp_onLife {α : Type} {x : LM α} {Q : α → BulkState → Prop} {E : Error → BulkState → Prop} :
    wp (BM.onLife x) Q E s ↔
      wp x (fun a l => Q a { s with life := l }) (fun e l => E e { s with life := l }) s.life :=
  wp_focus (fun s : BulkState => some s.life) _ rfl

/-- The transfer stays in the page of its buffer. -/
def Transfer.Fits (t : Transfer) : Prop :=
  t.dataLen = 0 ∨ t.dataAddr % pageSize + t.dataLen ≤ pageSize

/-- The counters are right up to leaked frames, and the targets of all requests are anchored. -/
structure Targeted (n : Nat) (s : BulkState) : Prop where
  kept : ∃ leaked, KeptWith leaked n s.life
  fits : ∀ t ∈ s.inFlight, t.Fits
  anchored : ∀ t ∈ s.inFlight, Anchored t.space t.page t.frame s.life.mem

theorem not_pinned (ht : t ∈ s.inFlight) (h : (!s.pinned i v) = true) :
    ¬(t.space = i ∧ t.page = v) := by
  rintro ⟨rfl, rfl⟩
  rw [Bool.not_eq_true', BulkState.pinned, List.any_eq_false] at h
  have hno := h t ht
  simp only [beq_self_eq_true, Bool.and_self, not_true_eq_false] at hno

theorem not_pinnedSpace (ht : t ∈ s.inFlight) (h : (!s.pinnedSpace i) = true) : t.space ≠ i := by
  rintro rfl
  rw [Bool.not_eq_true', BulkState.pinnedSpace, List.any_eq_false] at h
  have hno := h t ht
  simp only [beq_self_eq_true, not_true_eq_false] at hno

/-- A command that meets the condition spares the targets of all requests. -/
theorem spares_of_keepsTargets {c : LifeCmd} (h : keepsTargets (.life c) s = true)
    (ht : t ∈ s.inFlight) : c.Spares s.life t.space t.page := by
  cases c with
  | mem c =>
    cases c with
    | unmap j w => exact not_pinned ht h
    | uctrl j w access =>
      intro hj hw
      rw [keepsTargets, Bool.or_eq_true] at h
      exact h.resolve_left fun hfree => not_pinned ht hfree ⟨hj, hw⟩
    | linkUserPages parent child => exact (not_pinnedSpace ht h).symm
    | _ => trivial
  | unmap j w => exact not_pinned ht h
  | harvestThread p k =>
    intro proc thread hp hk
    rintro ⟨hspace, base, hbase, hin⟩
    rw [keepsTargets, hp, Option.all_some, hk, Option.all_some, hbase, Option.all_some,
      List.all_eq_true] at h
    have hspared := h t ht
    rw [Bool.or_eq_true, bne_iff_ne, Bool.not_eq_true', decide_eq_false_iff_not] at hspared
    exact hspared.elim (fun hne => hne hspace) fun hout => hout hin
  | harvestZombies =>
    intro z hz
    rw [keepsTargets, hz, Option.all_some] at h
    exact not_pinnedSpace ht h
  | dropVmem j => exact not_pinnedSpace ht h
  | _ => trivial

variable {n : Nat}

theorem life_targeted (c : LifeCmd) (h : Targeted n s)
    (henabled : bulkMachine.enabled (.life c) s = true) (hguard : keepsTargets (.life c) s = true) :
    wp (bulkMachine.exec (.life c)) (fun _ t => Targeted n t) (fun _ t => Targeted n t) s := by
  obtain ⟨leaked, hkept⟩ := h.kept
  change wp (BM.onLife c.exec) _ _ s
  rw [wp_onLife]
  have hpost : ∀ l, Lived leaked n c s.life l → Targeted n { s with life := l } := by
    rintro l ⟨⟨more, hl, _⟩, hpages⟩
    refine ⟨⟨_, hl⟩, h.fits, fun t ht => ?_⟩
    have hspared := spares_of_keepsTargets hguard ht
    rcases hpages with ⟨d, rfl, heffect⟩ | hpages
    · exact (h.anchored t ht).effect hkept.accounted hspared heffect
    · exact (h.anchored t ht).pagesKept hpages hspared
  exact (lifeMachine_lived c hkept henabled).mono (fun _ => hpost) (fun _ => hpost)

/-- The address of a buffer is its offset in the frame of its page. -/
theorem userVaddrToPaddr_wp {vaddr : Nat} (hi : (m.spaces i).isSome) :
    wp (userVaddrToPaddr i vaddr)
      (fun paddr m' => m' = m ∧ ∃ p, m.pte i (.alignDown vaddr) = some p ∧
        paddr = p.frame * pageSize + vaddr % pageSize)
      (fun _ m' => m' = m) m := by
  simp only [userVaddrToPaddr, wp_bind]
  refine (findUserFrame_wp hi).mono ?_ ?_
  · rintro _ m' ⟨rfl, p, hp, rfl⟩
    rw [wp_pure]
    exact ⟨rfl, p, hp, rfl⟩
  · rintro _ m' ⟨rfl, _⟩
    rfl

theorem pull_targeted {process tid buffer len : Nat} (h : Targeted n s)
    (henabled : process < s.life.processes.length)
    (hguard : keepsTargets (.pull process tid buffer len) s = true) :
    wp (BM.pull process tid buffer len) (fun _ t => Targeted n t) (fun _ t => Targeted n t) s := by
  obtain ⟨leaked, hkept⟩ := h.kept
  have hget := List.getElem?_eq_getElem henabled
  rw [keepsTargets, hget, Option.all_some] at hguard
  have hlive : (s.life.mem.spaces s.life.processes[process].space).isSome :=
    hkept.live _ ((all_perm hget).mem_iff.mpr List.mem_cons_self)
  simp only [BM.pull, wp_ite, wp_throw, wp_bind]
  split_ifs with hcross
  · exact h
  · rw [wp_onLife]
    refine getProcess_wp hget ?_
    rw [wp_onLife, wp_onMem]
    refine (userVaddrToPaddr_wp hlive).stays (fun _ => h) ?_
    rintro paddr _ ⟨rfl, p, hp, hpaddr⟩
    split_ifs
    · exact h
    · rw [wp_modify]
      rw [MemState.privateWritable, hp, Option.all_some, Bool.and_eq_true, decide_eq_true_eq]
        at hguard
      have hoffset : buffer % pageSize < pageSize := Nat.mod_lt _ (by decide)
      have hframe : paddr / pageSize = p.frame := by
        rw [hpaddr, Nat.mul_comm, Nat.mul_add_div (by decide), Nat.div_eq_of_lt hoffset,
          Nat.add_zero]
      have hmod : paddr % pageSize = buffer % pageSize := by
        rw [hpaddr, Nat.mul_comm, Nat.mul_add_mod, Nat.mod_mod]
      refine ⟨⟨leaked, hkept⟩, ?_, ?_⟩
      · intro t ht
        rcases List.mem_append.mp ht with ht | ht
        · exact h.fits t ht
        · rw [List.mem_singleton.mp ht]
          simp only [BM.crossesPage, Bool.and_eq_true, decide_eq_true_eq, not_and, not_lt]
            at hcross
          by_cases hlen : len = 0
          · exact .inl hlen
          · right
            change paddr % pageSize + len ≤ pageSize
            have hmin := hcross (Nat.pos_of_ne_zero hlen)
            rw [hmod]
            have hbig : pageSize < usizeMax := by decide
            omega
      · intro t ht
        rcases List.mem_append.mp ht with ht | ht
        · exact h.anchored t ht
        · rw [List.mem_singleton.mp ht]
          refine ⟨p, hp, hframe.symm, hguard.1, ?_⟩
          change s.life.mem.frames.refcount (paddr / pageSize) ≤ 1
          rw [hframe]
          exact hguard.2

theorem deliver_targeted {k : Nat} {data : List UInt8} (h : Targeted n s)
    (henabled : bulkMachine.enabled (.deliver k data) s = true) :
    wp (BM.deliver k data) (fun _ t => Targeted n t) (fun _ t => Targeted n t) s := by
  obtain ⟨leaked, hkept⟩ := h.kept
  simp only [BM.deliver, wp_bind, wp_gets]
  cases ht : s.inFlight[k]? with
  | none =>
    simp only [bulkMachine, BulkCmd.enabled, ht, Option.any_none, Bool.false_eq_true] at henabled
  | some t =>
    simp only [wp_bind, BM.complete]
    rw [wp_onLife, wp_onMem, wp_modify, wp_modify, wp_modify]
    refine ⟨⟨leaked, ⟨⟨hkept.accounted.setMemory _, hkept.live, hkept.apart⟩,
      hkept.capacity⟩⟩, ?_, ?_⟩
    · intro r hr
      exact h.fits r (List.mem_of_mem_eraseIdx hr)
    · intro r hr
      exact h.anchored r (List.mem_of_mem_eraseIdx hr)

theorem bulkMachine_targeted (c : BulkCmd) (h : Targeted n s)
    (henabled : bulkMachine.enabled c s = true) (hguard : keepsTargets c s = true) :
    wp (bulkMachine.exec c) (fun _ t => Targeted n t) (fun _ t => Targeted n t) s := by
  cases c with
  | life c => exact life_targeted c h henabled hguard
  | pull process tid buffer len => exact pull_targeted h (of_decide_eq_true henabled) hguard
  | deliver k data => exact deliver_targeted h henabled
  | interrupt tid =>
    change wp (BM.complete tid) _ _ s
    rw [BM.complete, wp_modify]
    exact ⟨h.kept, h.fits, h.anchored⟩

/-- The bytes of a transfer that fits change the frame of its address only. -/
theorem div_of_writeBytes_ne (ht : t.Fits) {g : Nat → UInt8} {data : List UInt8}
    (hlen : data.length ≤ t.dataLen) {a : Nat} (ha : BM.writeBytes g t.dataAddr data a ≠ g a) :
    a / pageSize = t.frame := by
  unfold BM.writeBytes at ha
  split_ifs at ha with hle
  · have hin : a - t.dataAddr < data.length := by
      by_contra hout
      rw [List.getElem?_eq_none (Nat.le_of_not_lt hout)] at ha
      exact ha rfl
    have hbase := Nat.div_add_mod t.dataAddr pageSize
    have hfit : t.dataAddr % pageSize + t.dataLen ≤ pageSize := by
      rcases ht with hzero | hfit
      · omega
      · exact hfit
    refine Nat.div_eq_of_lt_le ?_ ?_
    · unfold Transfer.frame
      rw [Nat.mul_comm]
      omega
    · unfold Transfer.frame
      rw [Nat.add_mul, Nat.one_mul, Nat.mul_comm]
      omega
  · exact absurd rfl ha

theorem Targeted.landing (h : Targeted n s) (ht : t ∈ s.inFlight) : Landing s.life.mem t := by
  obtain ⟨leaked, hkept⟩ := h.kept
  obtain ⟨p, hp, hf, hw, hone⟩ := h.anchored t ht
  refine ⟨⟨p, hp, hf, hw⟩, ?_, ?_⟩
  · intro j w q hq hqf
    rw [← hf] at hone hqf
    exact (hkept.accounted.eq_of_refcount_le_one hp hq hqf hone).1
  · intro data hlen a ha
    exact div_of_writeBytes_ne (h.fits t ht) hlen ha

/-- In every run that keeps the targets of its requests, the bytes of a request that is answered
land in the caller's own writable page. -/
theorem transfers_land {s₀ : BulkState} (hlife : Settled s₀.life) (hnone : s₀.inFlight = [])
    (hreach : bulkMachine.Reach (fun c s => keepsTargets c s = true) s₀ s) :
    ∀ t ∈ s.inFlight, Landing s.life.mem t := by
  have hstart : Targeted s₀.life.mem.frames.capacity s₀ := by
    refine ⟨⟨[], settledWith_nil.mpr hlife, rfl⟩, ?_, ?_⟩
    · intro t ht
      rw [hnone] at ht
      cases ht
    · intro t ht
      rw [hnone] at ht
      cases ht
  have htargeted := hreach.invariant hstart fun c _ ht => bulkMachine_targeted c ht
  intro t ht
  exact htargeted.landing ht

end Transfers

section Runs

/-- No request, no process and no space. -/
def BulkState.boot (n : Nat) : BulkState := ⟨.boot n, [], []⟩

/-- A process with one page, and a second space. -/
def twoSpaces (access : AccessPermission) : List BulkCmd :=
  [.life (.mem .newVmem), .life (.mem (.allocUpages 0 firstUserPage access true 1 [] 1)),
    .life (.createProcess 0 none), .life (.mem .newVmem), .life (.createProcess 1 none)]

/-- A pull into the page of the first process. -/
def pullFirst : BulkCmd := .pull 0 7 firstUserPage.raw 16

/-- What the first request on the vmbus finds: whether its page is mapped to its frame, whether the
page is writable, and whether the other space maps the frame. -/
def firstTarget (s : BulkState) : Option (Bool × Bool × Bool) :=
  s.inFlight.head?.map fun t =>
    ((s.life.mem.pte t.space t.page).any fun p => p.frame == t.frame,
      (s.life.mem.pte t.space t.page).any fun p => p.isWritable,
      (s.life.mem.pte 1 firstUserPage).any fun p => p.frame == t.frame)

theorem transfers_land_of_uctrl : ∃ s,
    bulkMachine.Reach (fun c s => keepsTargets c s = true) (.boot 128) s ∧
      s.inFlight.length = 1 ∧ ∀ t ∈ s.inFlight, Landing s.life.mem t := by
  obtain ⟨s, hreach, hlength⟩ := bulkMachine.exists_reach_restrict keepsTargets (.boot 128)
    (twoSpaces .RDWR ++ [pullFirst, .life (.mem (.uctrl 0 firstUserPage .RDWR)),
      .life (.mem (.allocUpages 1 firstUserPage .RDWR true 1 [] 1)), .life (.terminate 0)])
    (·.inFlight.length = 1) (by decide +kernel)
  exact ⟨s, hreach, hlength,
    transfers_land (settled_boot (by decide) (by decide)) rfl hreach⟩

/-- A target that is not mapped or not writable is no landing. -/
theorem not_landing_of_firstTarget {s : BulkState} {mapped writable shared : Bool}
    (h : firstTarget s = some (mapped, writable, shared)) (hbad : (mapped && writable) = false) :
    ∃ t ∈ s.inFlight, ¬Landing s.life.mem t := by
  obtain ⟨t, ht, heq⟩ := Option.map_eq_some_iff.mp h
  refine ⟨t, List.mem_of_mem_head? ht, fun hland => ?_⟩
  obtain ⟨p, hp, hf, hw⟩ := hland.mapped
  simp only [hp, Option.any_some, hf, hw, beq_self_eq_true, Prod.mk.injEq] at heq
  rw [← heq.1, ← heq.2.1] at hbad
  cases hbad

/-- A run after which the first request finds this target. -/
theorem exists_firstTarget (cs : List BulkCmd) (target : Bool × Bool × Bool)
    (hbad : (target.1 && target.2.1) = false)
    (hrun : ∃ s ∈ bulkMachine.run cs (.boot 128), firstTarget s = some target) :
    ∃ s, bulkMachine.Reach (fun _ _ => True) (.boot 128) s ∧ firstTarget s = some target ∧
      ∃ t ∈ s.inFlight, ¬Landing s.life.mem t := by
  obtain ⟨s, hs, htarget⟩ := bulkMachine.exists_reach (.boot 128) cs _ hrun
  exact ⟨s, hs, htarget, not_landing_of_firstTarget htarget hbad⟩

/-- The page is unmapped while the request is on the vmbus and its frame goes to another process; the
process forks in between; the page was read-only from the start. -/
theorem transfers_stray : Settled (BulkState.boot 128).life ∧
    (∃ s, bulkMachine.Reach (fun _ _ => True) (.boot 128) s ∧
      firstTarget s = some (false, false, true) ∧ ∃ t ∈ s.inFlight, ¬Landing s.life.mem t) ∧
    (∃ s, bulkMachine.Reach (fun _ _ => True) (.boot 128) s ∧
      firstTarget s = some (true, false, true) ∧ ∃ t ∈ s.inFlight, ¬Landing s.life.mem t) ∧
    ∃ s, bulkMachine.Reach (fun _ _ => True) (.boot 128) s ∧
      firstTarget s = some (true, false, false) ∧ ∃ t ∈ s.inFlight, ¬Landing s.life.mem t := by
  refine ⟨settled_boot (by decide) (by decide), ?_, ?_, ?_⟩
  · exact exists_firstTarget (twoSpaces .RDWR ++ [pullFirst,
      .life (.mem (.unmap 0 firstUserPage)),
      .life (.mem (.allocUpages 1 firstUserPage .RDWR true 1 [] 1))]) _ rfl (by decide +kernel)
  · exact exists_firstTarget (twoSpaces .RDWR ++ [pullFirst,
      .life (.mem (.linkUserPages 0 1))]) _ rfl (by decide +kernel)
  · exact exists_firstTarget (twoSpaces .RDONLY ++ [pullFirst]) _ rfl (by decide +kernel)

end Runs
end Nanvix.Mm
