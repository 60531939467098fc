import Nanvix.Mm.Commands

/-!
# The rights that a fork hands on

A page that a process may write is writable in hardware or marked copy-on-write.
Sharing a parent's pages with a child looks at the hardware bit alone: a writable
page is marked in both, any other page becomes read-only and unmarked in the
child. A page that an earlier fork marked is read-only in hardware, so a child of
a second fork may read it only.

## Implementation notes

The processor grants reading and execution through every present user entry.
That all entries of a space are user entries is an invariant of the machine; it is
derived, like every property of entries that the edits of an entry keep, from one
lemma.
-/
namespace Nanvix.Mm
open Config Library Library.Prog

/-- The entry lets user code use the page. -/
def PageTableEntry.isUser (p : PageTableEntry) : Bool := decide (p.flags.userSupervisor = .user)

/-- User code can read the page. -/
def mayRead (o : Option PageTableEntry) : Bool := o.any (·.isUser)

/-- User code can execute the page. -/
def mayExecute (o : Option PageTableEntry) : Bool := o.any (·.isUser)

/-- User code can write the page, at once or after the copy-on-write fault. -/
def mayWrite (o : Option PageTableEntry) : Bool := o.any fun p => p.isWritable || p.isCow

/-- Two pages grant user code the same. -/
structure SameRights (x y : Option PageTableEntry) : Prop where
  read : mayRead y = mayRead x
  execute : mayExecute y = mayExecute x
  write : mayWrite y = mayWrite x

/-- A fork gives the child every page of the parent with the same frame and rights, and
leaves the parent its own. -/
def ForkKeepsRights (parent child : Nat) (s s' : MemState) : Prop :=
  ∀ v, (s'.pte child v).map (·.frame) = (s.pte parent v).map (·.frame) ∧
    SameRights (s.pte parent v) (s'.pte child v) ∧ SameRights (s.pte parent v) (s'.pte parent v)

/-- No page of the space is marked and read-only in hardware. -/
def NoMarkedPage (i : Nat) (s : MemState) : Prop :=
  ∀ v p, s.pte i v = some p → p.isCow = true → p.isWritable = true

variable {held : List Nat} {s s' : MemState} {i m parent child : Nat} {v : PageAligned}
variable {access : AccessPermission}

section Entries

/-- A property of entries that a fresh entry has and every edit of an entry keeps. -/
structure EntryStable (K : PageTableEntry → Prop) : Prop where
  fresh : ∀ f access, K (Vmem.userEntry f access)
  marked : ∀ p, K p → K p.marked
  unmarked : ∀ p, K p → K p.unmarked
  replaced : ∀ p n, K p → K (p.replaced n)
  withAccess : ∀ p access, K p → K (p.withAccess false access)

/-- All entries of all spaces have the property. -/
def Entries (K : PageTableEntry → Prop) (s : MemState) : Prop :=
  ∀ i v p, s.pte i v = some p → K p

variable {K : PageTableEntry → Prop}

theorem Entries.set (h : Entries K s) {x : Option PageTableEntry} (hx : ∀ p, x = some p → K p)
    (hpte : s'.pte = setPte s.pte i v x) : Entries K s' := by
  intro j w p hp
  rw [hpte] at hp
  by_cases hin : j = i ∧ w = v
  · rw [hin.1, hin.2, setPte_self] at hp
    exact hx p hp
  · rw [setPte_of_ne hin] at hp
    exact h j w p hp

variable (hK : EntryStable K)
include hK

theorem Entries.allocating (h : Entries K s) (ha : Allocating held i v m access s s') :
    Entries K s' := by
  intro j w p hp
  by_cases hin : j = i ∧ v.number ≤ w.number ∧ w.number < v.number + m
  · obtain ⟨rfl, hlo, hhi⟩ := hin
    obtain ⟨-, f, -, hf⟩ := ha.done w hlo hhi
    rw [hf, Option.some.injEq] at hp
    exact hp ▸ hK.fresh f access
  · rw [ha.other j w hin] at hp
    exact h j w p hp

theorem EntryStable.childEntry (p : PageTableEntry) : K (childEntry p) := by
  unfold Mm.childEntry
  split
  · exact hK.marked _ (hK.fresh _ _)
  · exact hK.fresh _ _

theorem EntryStable.parentEntry {p : PageTableEntry} (hp : K p) : K (parentEntry p) := by
  unfold Mm.parentEntry
  split
  · exact hK.marked _ hp
  · exact hp

theorem Entries.linked (h : Entries K s) (hpte : s'.pte = MM.linkedPte s.pte parent child) :
    Entries K s' := by
  intro j w p hp
  rw [hpte] at hp
  unfold MM.linkedPte at hp
  split_ifs at hp
  · obtain ⟨q, -, rfl⟩ := Option.map_eq_some_iff.mp hp
    exact hK.childEntry q
  · obtain ⟨q, hq, rfl⟩ := Option.map_eq_some_iff.mp hp
    exact hK.parentEntry (h _ _ q hq)
  · exact h j w p hp

theorem Entries.unlinked (h : Entries K s) (hu : Unlinked held parent s s') : Entries K s' := by
  intro j w p hp
  by_cases hj : j = parent
  · subst hj
    rcases hu.parent w with hsame | ⟨q, hq, -, hback⟩
    · exact h j w p (hsame ▸ hp)
    · rw [hback, Option.some.injEq] at hp
      exact hp ▸ hK.unmarked _ (hK.marked _ (h j w q hq))
  · rw [hu.other j hj] at hp
    exact h j w p hp

theorem Entries.resolved (h : Entries K s) (hr : MM.ResolveStep held i v s s') : Entries K s' := by
  obtain ⟨q, hq, -, hres⟩ := hr.entry
  cases hres with
  | sole one frames memory pte =>
    refine h.set ?_ pte
    rintro _ ⟨⟩
    exact hK.unmarked q (h i v q hq)
  | copied n readOnly shared fresh owners bytes kept pte =>
    refine h.set ?_ pte
    rintro _ ⟨⟩
    exact hK.replaced q n (h i v q hq)

theorem Entries.resolveSteps (h : Entries K s) (hs : MM.ResolveSteps held i s s') :
    Entries K s' := by
  induction hs with
  | refl => exact h
  | tail _ hstep ih => exact ih.resolved hK hstep.choose_spec

/-- Every command keeps such a property of entries. -/
theorem Entries.effect {c : MemCmd} (h : Entries K s) (he : Effect held c s s') : Entries K s' := by
  cases he with
  | quiet owners pte => exact fun j w p hp => h j w p (pte ▸ hp)
  | allocated done => exact h.allocating hK done
  | linked _ _ done pte => exact h.linked hK pte
  | unlinked _ done => exact h.unlinked hK done
  | resolved done owners pte => exact fun j w p hp => h.resolveSteps hK done j w p (pte ▸ hp)
  | changed command entry frames pte =>
    refine h.set ?_ pte
    rintro _ ⟨⟩
    exact hK.withAccess _ _ (h _ _ _ entry)
  | released _ done => exact h.set (fun _ hc => by cases hc) done.pte

end Entries

/-- All entries of all spaces are user entries, and stay so. -/
theorem entryStable_isUser : EntryStable fun p => p.isUser = true where
  fresh _ _ := rfl
  marked _ h := h
  unmarked _ h := h
  replaced _ _ h := h
  withAccess _ _ _ := rfl

@[simp] theorem mayWrite_some (p : PageTableEntry) :
    mayWrite (some p) = (p.isWritable || p.isCow) := rfl

/-- The parent keeps its rights to a shared page. -/
theorem sameRights_parentEntry (p : PageTableEntry) : SameRights (some p) (some (parentEntry p)) := by
  unfold parentEntry
  split_ifs with hw
  · refine ⟨rfl, rfl, ?_⟩
    rw [mayWrite_some, mayWrite_some, hw, PageTableEntry.marked_isCow, Bool.or_true, Bool.true_or]
  · exact ⟨rfl, rfl, rfl⟩

/-- The child gets the rights of the parent unless the page is marked and read-only. -/
theorem sameRights_childEntry_iff {p : PageTableEntry} (hp : p.isUser = true) :
    SameRights (some p) (some (childEntry p)) ↔ (p.isCow = true → p.isWritable = true) := by
  have huser : (childEntry p).isUser = true := entryStable_isUser.childEntry p
  constructor
  · intro h hc
    have hwrite := h.write
    rw [mayWrite_some, mayWrite_some, childEntry_isWritable, childEntry_isCow, hc, Bool.or_true,
      Bool.false_or] at hwrite
    exact hwrite
  · intro h
    refine ⟨huser.trans hp.symm, huser.trans hp.symm, ?_⟩
    rw [mayWrite_some, mayWrite_some, childEntry_isWritable, childEntry_isCow, Bool.false_or]
    cases hw : p.isWritable with
    | true => rfl
    | false =>
      cases hc : p.isCow with
      | true => exact absurd (h hc) (by rw [hw]; exact Bool.false_ne_true)
      | false => rfl

/-- After any history, a fork that succeeds hands on the rights of the parent exactly when
no page of the parent is marked and read-only before it. -/
theorem link_keeps_rights_iff {s₀ : MemState} (h₀ : Accounted held s₀)
    (huser : Entries (fun p => p.isUser = true) s₀) (h : memMachine.Reach (fun _ _ => True) s₀ s)
    (henabled : memMachine.enabled (.linkUserPages parent child) s = true)
    (hok : MM.linkUserPages parent child s = .ok () s') :
    ForkKeepsRights parent child s s' ↔ NoMarkedPage parent s := by
  obtain ⟨hacc, hentries⟩ := memMachine_invariant h₀ huser
    (fun c t t' _ ht _ he => ht.effect entryStable_isUser he) h
  obtain ⟨hne, hparent, hchild, hempty⟩ := linkUserPages_enabled henabled
  obtain ⟨-, hpte⟩ := (MM.linkUserPages_wp hacc hne hparent hchild hempty).of_ok hok
  have hc : ∀ v, s'.pte child v = (s.pte parent v).map childEntry := fun v => by
    rw [hpte, MM.linkedPte, if_pos rfl]
  have hp : ∀ v, s'.pte parent v = (s.pte parent v).map parentEntry := fun v => by
    rw [hpte, MM.linkedPte, if_neg hne, if_pos rfl]
  constructor
  · intro hkeep v p hpv
    obtain ⟨-, hrights, -⟩ := hkeep v
    rw [hc, hpv, Option.map_some] at hrights
    exact (sameRights_childEntry_iff (hentries _ _ p hpv)).mp hrights
  · intro hmarked v
    rw [hc, hp]
    cases hpv : s.pte parent v with
    | none => exact ⟨rfl, ⟨rfl, rfl, rfl⟩, ⟨rfl, rfl, rfl⟩⟩
    | some p =>
      refine ⟨congrArg some (childEntry_frame p), ?_, sameRights_parentEntry p⟩
      exact (sameRights_childEntry_iff (hentries _ _ p hpv)).mpr (hmarked v p hpv)

/-- Three spaces, the first with a writable page. -/
def pageCommands : List MemCmd :=
  [.newVmem, .newVmem, .newVmem, .allocUpages 0 firstUserPage .RDWR true 1 [] 1]

/-- The mappings of the space show no marked read-only page. -/
def allUnmarked (i : Nat) (s : MemState) : Bool :=
  (s.spaces i).any fun vm => vm.userMappings.all fun m => !m.2.isCow || m.2.isWritable

theorem noMarkedPage_of_allUnmarked (h : allUnmarked i s = true) : NoMarkedPage i s := by
  intro v p hp hc
  obtain ⟨vm, hvm, hv⟩ := Accounted.pte_eq_some hp
  rw [allUnmarked, hvm, Option.any_some, List.all_eq_true] at h
  have hm := h (v, p) (Vmem.mem_userMappings.mpr hv)
  rwa [hc, Bool.not_true, Bool.false_or] at hm

theorem entries_boot {K : PageTableEntry → Prop} (n : Nat) : Entries K (.boot n) :=
  fun _ _ _ hp => by cases hp

/-- The first fork of a fresh page hands its rights on. -/
theorem first_fork_keeps_rights : ∃ s s', memMachine.Reach (fun _ _ => True) (.boot 128) s ∧
    MM.linkUserPages 0 1 s = .ok () s' ∧ mayWrite (s.pte 0 firstUserPage) = true ∧
    ForkKeepsRights 0 1 s s' := by
  obtain ⟨s, hs, henabled, hall, hwrite, hreturns⟩ := memMachine.exists_reach (.boot 128)
    pageCommands (fun s => memMachine.enabled (.linkUserPages 0 1) s = true ∧
      allUnmarked 0 s = true ∧ mayWrite (s.pte 0 firstUserPage) = true ∧
      ((MM.linkUserPages 0 1 s).returns fun _ => true) = true) (by decide +kernel)
  obtain ⟨_, s', hok, -⟩ := Outcome.of_returns hreturns
  refine ⟨s, s', hs, hok, hwrite, ?_⟩
  exact (link_keeps_rights_iff (accounted_boot (by decide) (by decide)) (entries_boot 128) hs
    henabled hok).mpr (noMarkedPage_of_allUnmarked hall)

/-- The second fork of the same page gives a child that may only read it. -/
theorem second_fork_drops_write : ∃ s s', memMachine.Reach (fun _ _ => True) (.boot 128) s ∧
    memMachine.enabled (.linkUserPages 0 2) s = true ∧
    MM.linkUserPages 0 2 s = .ok () s' ∧ ¬ForkKeepsRights 0 2 s s' := by
  obtain ⟨s, hs, henabled, hwrite, hreturns⟩ := memMachine.exists_reach (.boot 128)
    (pageCommands ++ [.linkUserPages 0 1])
    (fun s => memMachine.enabled (.linkUserPages 0 2) s = true ∧
      mayWrite (s.pte 0 firstUserPage) = true ∧ ((MM.linkUserPages 0 2 s).returns fun s' =>
        !mayWrite (s'.pte 2 firstUserPage)) = true) (by decide +kernel)
  obtain ⟨_, s', hok, hchild⟩ := Outcome.of_returns hreturns
  refine ⟨s, s', hs, henabled, hok, fun hkeep => ?_⟩
  obtain ⟨-, hrights, -⟩ := hkeep firstUserPage
  rw [hrights.write, hwrite] at hchild
  cases hchild

end Nanvix.Mm
