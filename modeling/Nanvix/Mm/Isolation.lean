import Nanvix.Mm.Commands

/-!
# Copy-on-write isolation

A frame with more than one owner must not be writable through any entry. Every
command keeps this, with one exception: a permission change writes the access
bits it is asked for without looking at the owners of the frame.
-/
namespace Nanvix.Mm
open Config Library Library.Prog

/-- No entry with the write bit maps a frame with more than one owner. -/
def Isolated (s : MemState) : Prop :=
  ∀ i v p, s.pte i v = some p → 1 < s.frames.refcount p.frame → p.isWritable = false

/-- A permission change that asks for the write bit is made on a page whose frame has no
other owner. -/
def WriteUnshared : MemCmd → MemState → Prop
  | .uctrl i v access, s => access.isWritable = true → ∀ p, s.pte i v = some p →
      s.frames.refcount p.frame ≤ 1
  | _, _ => True

variable {held : List Nat} {s s' : MemState} {i m parent child : Nat} {v : PageAligned}
variable {access : AccessPermission}

theorem isolated_iff : Isolated s ↔
    ∀ i v p, s.pte i v = some p → p.isWritable = true → s.frames.refcount p.frame ≤ 1 := by
  refine forall_congr' fun i => forall_congr' fun v => forall_congr' fun p =>
    forall_congr' fun _ => ⟨fun h hw => ?_, fun h hlt => ?_⟩
  · by_contra hlt
    rw [h (Nat.not_le.mp hlt)] at hw
    cases hw
  · by_contra hw
    exact absurd (h (by simpa using hw)) (Nat.not_le.mpr hlt)

variable {p : PageTableEntry}

/-- An entry that was there, of a frame that got no second owner. -/
theorem Isolated.of_old (h : Isolated s) (howners : NoNewOwners s s')
    (hp : s.pte i v = some p) (hw : p.isWritable = true) : s'.frames.refcount p.frame ≤ 1 := by
  have hone := isolated_iff.mp h i v p hp hw
  have hle := howners p.frame
  omega

theorem Isolated.allocating (h : Isolated s) (ha : Allocating held i v m access s s') :
    Isolated s' := by
  refine isolated_iff.mpr fun j w p hp hw => ?_
  by_cases hin : j = i ∧ v.number ≤ w.number ∧ w.number < v.number + m
  · obtain ⟨rfl, hlo, hhi⟩ := hin
    obtain ⟨-, f, hzero, hf⟩ := ha.done w hlo hhi
    cases hf.symm.trans hp
    have hle := ha.owners f
    rw [hzero] at hle
    exact hle
  · rw [ha.other j w hin] at hp
    exact h.of_old ha.owners hp hw

/-- A frame that the parent does not map is not shared with the child either. -/
theorem Linking.refcount_le_one (hl : Linking held parent child s s') (hacc : Accounted held s)
    (hp : s.pte i v = some p) (hi : i ≠ parent)
    (hone : s.frames.refcount p.frame ≤ 1) : s'.frames.refcount p.frame ≤ 1 := by
  have hzero : viewRefs p.frame (s'.pte child) = 0 := by
    refine viewRefs_eq_zero fun u q hq hqf => hi ?_
    rw [(hl.view u).resolve_left (by rw [hq]; exact Option.some_ne_none q)] at hq
    obtain ⟨r, hr, rfl⟩ := Option.map_eq_some_iff.mp hq
    rw [childEntry_frame] at hqf
    exact (hacc.eq_of_refcount_le_one hp hr hqf hone).1.symm
  have hle := hl.owners p.frame
  omega

/-- A shared page is not writable, and a page that stays writable is not shared. -/
theorem Isolated.linked (h : Isolated s) (hacc : Accounted held s)
    (hl : Linking held parent child s s') (hpte : s'.pte = MM.linkedPte s.pte parent child) :
    Isolated s' := by
  refine isolated_iff.mpr fun j w p hp hw => ?_
  have hnot : ∀ {o : Option PageTableEntry} {g : PageTableEntry → PageTableEntry},
      (∀ q, (g q).isWritable = false) → o.map g = some p → False := by
    intro o g hg ho
    obtain ⟨q, -, rfl⟩ := Option.map_eq_some_iff.mp ho
    rw [hg q] at hw
    cases hw
  rw [hpte] at hp
  unfold MM.linkedPte at hp
  split_ifs at hp with hc hpar
  · exact (hnot childEntry_isWritable hp).elim
  · exact (hnot parentEntry_isWritable hp).elim
  · exact hl.refcount_le_one hacc hp hpar (isolated_iff.mp h j w p hp hw)

theorem Isolated.unlinked (h : Isolated s) (hu : Unlinked held parent s s') : Isolated s' := by
  refine isolated_iff.mpr fun j w p hp hw => ?_
  by_cases hj : j = parent
  · subst hj
    rcases hu.parent w with hsame | ⟨q, hq, hqw, hback⟩
    · exact h.of_old hu.owners (hsame ▸ hp) hw
    · cases hback.symm.trans hp
      change s'.frames.refcount q.frame ≤ 1
      exact h.of_old hu.owners hq hqw
  · rw [hu.other j hj] at hp
    exact h.of_old hu.owners hp hw

/-- Resolving a page gives no frame a second owner. -/
theorem MM.Resolved.noNewOwners (h : MM.Resolved i v p s s') : NoNewOwners s s' := by
  intro g
  cases h with
  | sole one frames memory pte =>
    rw [frames]
    exact Nat.le_max_left _ _
  | copied n readOnly shared fresh owners bytes kept pte =>
    rw [owners, Function.update_apply, Function.update_apply]
    split_ifs with hp
    · subst hp
      omega
    · exact Nat.le_max_right _ _
    · exact Nat.le_max_left _ _

/-- The page that was resolved is writable, and its frame has no other owner. -/
theorem Isolated.resolved (h : Isolated s) (hr : MM.ResolveStep held i v s s') : Isolated s' := by
  obtain ⟨q, hq, hcow, hres⟩ := hr.entry
  refine isolated_iff.mpr fun j w p hp hw => ?_
  by_cases hin : j = i ∧ w = v
  · obtain ⟨rfl, rfl⟩ := hin
    obtain ⟨q', hpte, hnew⟩ := hres.renewed
    rw [hpte, setPte_self, Option.some.injEq] at hp
    exact hp ▸ hnew.alone
  · rw [hr.pte_of_ne hin] at hp
    exact h.of_old hres.noNewOwners hp hw

theorem Isolated.resolveSteps (h : Isolated s) (hs : MM.ResolveSteps held i s s') :
    Isolated s' := by
  induction hs with
  | refl => exact h
  | tail _ hstep ih => exact ih.resolved hstep.choose_spec

/-- Unmapping a page takes an owner away. -/
theorem Isolated.released (h : Isolated s) {q : PageTableEntry}
    (hr : MM.Released held i v q s s') : Isolated s' := by
  refine isolated_iff.mpr fun j w p hp hw => ?_
  rw [hr.pte] at hp
  by_cases hin : j = i ∧ w = v
  · rw [hin.1, hin.2, setPte_self] at hp
    cases hp
  · rw [setPte_of_ne hin] at hp
    exact Nat.le_trans (hr.owners _) (isolated_iff.mp h j w p hp hw)

/-- A permission change keeps the isolation when it asks for no write bit or the frame has
no other owner. -/
theorem Isolated.withAccess (h : Isolated s) {q : PageTableEntry} (hframes : s'.frames = s.frames)
    (hpte : s'.pte = setPte s.pte i v (some (q.withAccess false access)))
    (hguard : access.isWritable = true → s.frames.refcount q.frame ≤ 1) : Isolated s' := by
  refine isolated_iff.mpr fun j w p hp hw => ?_
  rw [hpte] at hp
  rw [hframes]
  by_cases hin : j = i ∧ w = v
  · rw [hin.1, hin.2, setPte_self] at hp
    cases hp
    rw [PageTableEntry.withAccess_isWritable] at hw
    exact hguard hw
  · rw [setPte_of_ne hin] at hp
    exact isolated_iff.mp h j w p hp hw

/-- Every command keeps the isolation, a permission change under its guard. -/
theorem Isolated.effect {c : MemCmd} (h : Isolated s) (hacc : Accounted held s)
    (hguard : WriteUnshared c s) (he : Effect held c s s') : Isolated s' := by
  cases he with
  | quiet owners pte =>
    refine isolated_iff.mpr fun j w p hp hw => ?_
    rw [pte] at hp
    exact h.of_old owners hp hw
  | allocated done => exact h.allocating done
  | linked _ _ done pte => exact h.linked hacc done pte
  | unlinked _ done => exact h.unlinked done
  | resolved done owners pte =>
    intro j w p hp
    rw [pte] at hp
    rw [owners]
    exact h.resolveSteps done j w p hp
  | changed command entry frames pte =>
    subst command
    exact h.withAccess frames pte fun hw => hguard hw _ entry
  | released _ done => exact h.released done

/-- From a state in which no frame is shared, every state that a run with guarded permission
changes reaches is isolated. -/
theorem isolated_of_reach {s₀ : MemState} (h₀ : Accounted held s₀)
    (hunshared : ∀ f, s₀.frames.refcount f ≤ 1) (h : memMachine.Reach WriteUnshared s₀ s) :
    Isolated s := by
  have hstart : Isolated s₀ := fun i v p _ hlt =>
    absurd (hunshared p.frame) (Nat.not_le.mpr hlt)
  exact (memMachine_invariant h₀ hstart
    (fun c t t' hacc hiso hguard he => hiso.effect hacc hguard he) h).2

/-- Two spaces, the first with a writable page that the second shares. -/
def forkCommands : List MemCmd :=
  [.newVmem, .newVmem, .allocUpages 0 firstUserPage .RDWR true 1 [] 1, .linkUserPages 0 1]

/-- The frame of the first page of a space has two owners, and the page has the given bits. -/
def sharedPage (i : Nat) (writable cow : Bool) (s : MemState) : Bool :=
  (s.pte i firstUserPage).any fun p =>
    s.frames.refcount p.frame == 2 && p.isWritable == writable && p.isCow == cow

/-- A guarded run shares a frame between two spaces, which is then read-only in both. -/
theorem isolated_of_reach_fork : ∃ s, memMachine.Reach WriteUnshared (.boot 128) s ∧
    (sharedPage 0 false true s && sharedPage 1 false true s) = true ∧ Isolated s := by
  have hmeets : ∀ c ∈ forkCommands, ∀ t, WriteUnshared c t := by
    intro c hc t
    simp only [forkCommands, List.mem_cons, List.not_mem_nil, or_false] at hc
    rcases hc with rfl | rfl | rfl | rfl <;> trivial
  obtain ⟨s, hrun, htest⟩ : ∃ s ∈ memMachine.run forkCommands (.boot 128),
      (sharedPage 0 false true s && sharedPage 1 false true s) = true := by decide +kernel
  have hs := Machine.Reach.start.of_run hmeets hrun
  exact ⟨s, hs, htest, isolated_of_reach (accounted_boot (by decide) (by decide))
    (fun f => Nat.zero_le 1) hs⟩

/-- After the fork the parent asks for write access to its page again. -/
theorem uctrl_breaks_isolation : Accounted [] (.boot 128) ∧
    (∀ f, (MemState.boot 128).frames.refcount f ≤ 1) ∧
    ∃ s, memMachine.Reach (fun _ _ => True) (.boot 128) s ∧ ¬Isolated s := by
  refine ⟨accounted_boot (by decide) (by decide), fun f => Nat.zero_le 1, ?_⟩
  obtain ⟨s, hs, p, hp, htwo, hw⟩ := memMachine.exists_reach (.boot 128)
    (forkCommands ++ [.uctrl 0 firstUserPage .RDWR]) (fun s => ∃ p ∈ s.pte 0 firstUserPage,
      s.frames.refcount p.frame = 2 ∧ p.isWritable = true) (by decide +kernel)
  refine ⟨s, hs, fun hiso => ?_⟩
  rw [hiso 0 firstUserPage p hp (by omega)] at hw
  cases hw

end Nanvix.Mm
