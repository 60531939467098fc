import Nanvix.Mm.Copy
import Nanvix.Mm.ResolveExact

/-!
# Where the bytes of a user page lie

An address space maps a frame at one page at most, in every state that the memory
manager reaches: a frame that a page is given anew has no other owner, and a child
gets the frames of its parent at the pages of its parent. So a byte of physical
memory is the byte of one address of a space, if it is any.
-/
namespace Nanvix.Mm
open Config Library Library.Prog

/-- No space maps a frame at two pages. -/
def FrameOnce (s : MemState) : Prop :=
  ∀ i v w p q, s.pte i v = some p → s.pte i w = some q → p.frame = q.frame → v = w

variable {held : List Nat} {s s' t : MemState} {i j n a b k x : Nat} {v w : PageAligned}
variable {p q : PageTableEntry}

section Runs

/-- A space has the frames that some space had before at the same pages, and frames without
another owner. -/
theorem FrameOnce.of_frames (h : FrameOnce s) (hacc : Accounted held s')
    (hframes : ∀ i, ∃ j, ∀ w p, s'.pte i w = some p →
      (∃ q, s.pte j w = some q ∧ q.frame = p.frame) ∨ s'.frames.refcount p.frame ≤ 1) :
    FrameOnce s' := by
  intro i v w p q hp hq hpq
  obtain ⟨j, hj⟩ := hframes i
  rcases hj v p hp with ⟨p₀, hp₀, hf⟩ | hone
  · rcases hj w q hq with ⟨q₀, hq₀, hg⟩ | hone
    · exact h j v w p₀ q₀ hp₀ hq₀ (by rw [hf, hg, hpq])
    · exact (hacc.eq_of_refcount_le_one hq hp hpq hone).2
  · exact (hacc.eq_of_refcount_le_one hp hq hpq.symm hone).2.symm

theorem FrameOnce.resolved (h : FrameOnce s) (hr : MM.ResolveStep held i v s s') :
    FrameOnce s' := by
  refine h.of_frames hr.accounted fun j => ⟨j, fun w p' hp' => ?_⟩
  obtain ⟨p, -, -, hres⟩ := hr.entry
  by_cases hin : j = i ∧ w = v
  · obtain ⟨q, hpte, hnew⟩ := hres.renewed
    rw [hin.1, hin.2, hpte, setPte_self, Option.some.injEq] at hp'
    exact Or.inr (hp' ▸ hnew.alone)
  · rw [hr.pte_of_ne hin] at hp'
    exact Or.inl ⟨p', hp', rfl⟩

theorem FrameOnce.resolveSteps (h : FrameOnce s) (hs : MM.ResolveSteps held i s s') :
    FrameOnce s' := by
  induction hs with
  | refl => exact h
  | tail _ hstep ih => exact ih.resolved hstep.choose_spec

theorem FrameOnce.effect {c : MemCmd} (h : FrameOnce s) (he : Effect held c s s') :
    FrameOnce s' := by
  cases he with
  | quiet owners pte => exact fun i v w p q => pte ▸ h i v w p q
  | @allocated i m v access done =>
    refine h.of_frames done.accounted fun j => ⟨j, fun w p hp => ?_⟩
    by_cases hin : j = i ∧ v.number ≤ w.number ∧ w.number < v.number + m
    · obtain ⟨rfl, hlo, hhi⟩ := hin
      obtain ⟨-, f, hzero, hf⟩ := done.done w hlo hhi
      rw [hf, Option.some.injEq] at hp
      have hle := done.owners f
      rw [hzero] at hle
      exact Or.inr (hp ▸ hle)
    · exact Or.inl ⟨p, (done.other j w hin).symm.trans hp, rfl⟩
  | @linked parent child command empty done pte =>
    refine h.of_frames done.accounted fun j => ⟨if j = child then parent else j, fun w p hp => ?_⟩
    left
    rw [pte, MM.linkedPte] at hp
    split_ifs at hp ⊢ with hchild hparent
    · obtain ⟨q, hq, rfl⟩ := Option.map_eq_some_iff.mp hp
      exact ⟨q, hq, (childEntry_frame q).symm⟩
    · obtain ⟨q, hq, rfl⟩ := Option.map_eq_some_iff.mp hp
      exact ⟨q, hparent ▸ hq, (parentEntry_frame q).symm⟩
    · exact ⟨p, hp, rfl⟩
  | @unlinked parent child command done =>
    refine h.of_frames done.accounted fun j => ⟨j, fun w p hp => Or.inl ?_⟩
    by_cases hj : j = parent
    · subst hj
      rcases done.parent w with hsame | ⟨q, hq, -, hback⟩
      · exact ⟨p, hsame ▸ hp, rfl⟩
      · rw [hback, Option.some.injEq] at hp
        exact ⟨q, hq, hp ▸ rfl⟩
    · exact ⟨p, done.other j hj ▸ hp, rfl⟩
  | resolved done owners pte =>
    exact fun i v w p q => pte ▸ (h.resolveSteps done) i v w p q
  | @changed i v access p command entry frames pte =>
    intro j w w' q q' hq hq' hf
    have hold : ∀ u r, s'.pte j u = some r → ∃ r₀, s.pte j u = some r₀ ∧ r₀.frame = r.frame := by
      intro u r hr
      rw [pte] at hr
      by_cases hin : j = i ∧ u = v
      · rw [hin.1, hin.2, setPte_self, Option.some.injEq] at hr
        exact ⟨p, by rw [hin.1, hin.2, entry], hr ▸ rfl⟩
      · exact ⟨r, (setPte_of_ne hin).symm.trans hr, rfl⟩
    obtain ⟨q₀, hq₀, hqf⟩ := hold w q hq
    obtain ⟨q₁, hq₁, hqf'⟩ := hold w' q' hq'
    exact h j w w' q₀ q₁ hq₀ hq₁ (by rw [hqf, hqf', hf])
  | @released i v p command done =>
    refine h.of_frames done.accounted fun j => ⟨j, fun w q hq => Or.inl ⟨q, ?_, rfl⟩⟩
    rw [done.pte] at hq
    by_cases hin : j = i ∧ w = v
    · rw [hin.1, hin.2, setPte_self] at hq
      cases hq
    · exact (setPte_of_ne hin).symm.trans hq

/-- The states of every run of the memory manager. -/
theorem frameOnce_of_reach {s₀ : MemState} (h₀ : Accounted held s₀) (hstart : FrameOnce s₀)
    (h : memMachine.Reach (fun _ _ => True) s₀ s) : Accounted held s ∧ FrameOnce s :=
  memMachine_invariant h₀ hstart (fun _ _ _ _ hI _ he => hI.effect he) h

theorem frameOnce_boot (n : Nat) : FrameOnce (.boot n) :=
  fun _ _ _ _ _ hp => (nomatch hp)

/-- A parent and a child map a frame at one page each. -/
theorem frameOnce_of_fork : ∃ s, memMachine.Reach (fun _ _ => True) (.boot 128) s ∧
    sharedPage 1 false true s = true ∧ FrameOnce s := by
  obtain ⟨s, hs, hshared⟩ := memMachine.exists_reach (.boot 128) forkCommands
    (fun s => sharedPage 1 false true s = true) (by decide +kernel)
  exact ⟨s, hs, hshared,
    (frameOnce_of_reach (accounted_boot (by decide) (by decide)) (frameOnce_boot 128) hs).2⟩

end Runs

section Addresses

/-- The physical address of a byte of user memory. -/
def MemState.frameAddr (s : MemState) (i a : Nat) : Option Nat :=
  (s.pte i (.alignDown a)).map fun p => p.frame * pageSize + pageOffset a

theorem MemState.userByte_eq (s : MemState) (i a : Nat) :
    s.userByte i a = (s.frameAddr i a).map s.memory := by
  rw [userByte, frameAddr, Option.map_map]
  rfl

theorem frameAddr_eq_some : s.frameAddr i a = some x ↔
    ∃ p, s.pte i (.alignDown a) = some p ∧ p.frame * pageSize + pageOffset a = x :=
  Option.map_eq_some_iff

theorem frameAddr_of_pte (hp : s.pte i (.alignDown a) = some p) :
    s.frameAddr i a = some (p.frame * pageSize + pageOffset a) := by
  rw [MemState.frameAddr, hp, Option.map_some]

/-- Frame and offset of a physical address. -/
theorem frame_offset_inj {f g o o' : Nat} (ho : o < pageSize) (ho' : o' < pageSize)
    (h : f * pageSize + o = g * pageSize + o') : f = g ∧ o = o' := by
  unfold pageSize at *
  omega

theorem FrameOnce.addr_inj (h : FrameOnce s) (ha : s.frameAddr i a = some x)
    (hb : s.frameAddr i b = some x) : a = b := by
  obtain ⟨p, hp, rfl⟩ := frameAddr_eq_some.mp ha
  obtain ⟨q, hq, heq⟩ := frameAddr_eq_some.mp hb
  obtain ⟨hf, ho⟩ := frame_offset_inj (pageOffset_lt b) (pageOffset_lt a) heq
  have hpage := h i _ _ p q hp hq hf.symm
  rw [← raw_add_pageOffset a, ← raw_add_pageOffset b, hpage, ho]

theorem alignDown_add (hk : pageOffset a + k < pageSize) :
    PageAligned.alignDown (a + k) = .alignDown a ∧ pageOffset (a + k) = pageOffset a + k := by
  have hsum : a + k = (PageAligned.alignDown a).raw + (pageOffset a + k) := by
    rw [← Nat.add_assoc, raw_add_pageOffset]
  rw [hsum]
  exact ⟨alignDown_raw_add _ hk, pageOffset_raw_add _ hk⟩

/-- Bytes of one page lie side by side. -/
theorem frameAddr_add (h : s.frameAddr i a = some x) (hk : pageOffset a + k < pageSize) :
    s.frameAddr i (a + k) = some (x + k) := by
  obtain ⟨p, hp, rfl⟩ := frameAddr_eq_some.mp h
  obtain ⟨hpage, hoffset⟩ := alignDown_add hk
  rw [frameAddr_of_pte (hpage ▸ hp), hoffset, Nat.add_assoc]

/-- In every state reached, a fork that returns shows the child the bytes of its parent and every
other space its own. -/
theorem fork_shows_parent {s₀ : MemState} {parent child : Nat} (h₀ : Accounted held s₀)
    (hreach : memMachine.Reach (fun _ _ => True) s₀ s)
    (henabled : memMachine.enabled (.linkUserPages parent child) s = true)
    (hok : MM.linkUserPages parent child s = .ok () s') (j a : Nat) :
    s'.userByte j a = s.userByte (if j = child then parent else j) a := by
  obtain ⟨hacc, -⟩ := memMachine_invariant h₀ trivial (fun _ _ _ _ _ _ _ => trivial) hreach
  obtain ⟨hne, hparent, hchild, hempty⟩ := linkUserPages_enabled henabled
  obtain ⟨hl, hpte⟩ := (MM.linkUserPages_wp hacc hne hparent hchild hempty).of_ok hok
  have haddr : s'.frameAddr j a = s.frameAddr (if j = child then parent else j) a := by
    simp only [MemState.frameAddr, hpte, MM.linkedPte]
    split_ifs with hj hjp
    · simp only [Option.map_map, Function.comp_def, childEntry_frame]
    · simp only [Option.map_map, Function.comp_def, parentEntry_frame, hjp]
    · rfl
  rw [s'.userByte_eq, s.userByte_eq, haddr]
  refine Option.map_congr fun x hx => ?_
  obtain ⟨p, hp, rfl⟩ := frameAddr_eq_some.mp hx
  exact hl.bytes _ (hacc.refcount_pos hp) _ (pageOffset_lt a)

theorem fork_shows_parent_first : ∃ s s', memMachine.Reach (fun _ _ => True) (.boot 128) s ∧
    MM.linkUserPages 0 1 s = .ok () s' ∧ ∀ a, s'.userByte 1 a = s.userByte 0 a := by
  obtain ⟨s, hs, henabled, hreturns⟩ := memMachine.exists_reach (.boot 128) (forkCommands.take 3)
    (fun s => memMachine.enabled (.linkUserPages 0 1) s = true ∧
      ((MM.linkUserPages 0 1 s).returns fun _ => true) = true) (by decide +kernel)
  obtain ⟨_, s', hok, -⟩ := Outcome.of_returns hreturns
  exact ⟨s, s', hs, hok,
    fork_shows_parent (accounted_boot (by decide) (by decide)) hs henabled hok 1⟩

end Addresses

end Nanvix.Mm
