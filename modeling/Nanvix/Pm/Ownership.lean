import Nanvix.Pm.LedgerRefine

/-!
# Who owns an event

The owner of an event is recorded twice: in the slot of the event and in the list of the
process. The two records agree in every run in which no process is buried that owns an
interrupt. The answer to a request is fixed by the slot, the capabilities of the caller
and whether interrupts are handled at all: the slot of an interrupt is never given up.
-/
namespace Nanvix.Pm
open Config Library Library.Prog ProcessState

variable {s : Standing} {rest : Multiset Standing} {ev : Event}

/-- No process is buried that owns an interrupt. -/
def Policy.noInterruptBuried : Policy :=
  ⟨fun _ _ => True, fun _ s => ∀ ev ∈ s.1.events, ev.isInterrupt = false⟩

/-- Dropping the ownerships of events that are no interrupts frees their slots. -/
theorem foldl_dropOwner_apply {events : List Event} (h : ∀ ev ∈ events, ev.isInterrupt = false)
    (owner : Event → Option Nat) (ev : Event) :
    events.foldl dropOwner owner ev = if ev ∈ events then none else owner ev := by
  induction events generalizing owner with
  | nil => rfl
  | cons e events ih =>
    have he : e.isInterrupt = false := h e List.mem_cons_self
    have hdrop : dropOwner owner e = Function.update owner e none := by
      rw [dropOwner, he]
      rfl
    rw [List.foldl_cons, hdrop, ih fun e' he' => h e' (List.mem_cons_of_mem _ he')]
    by_cases hmem : ev ∈ events
    · rw [if_pos hmem, if_pos (List.mem_cons_of_mem _ hmem)]
    · rw [if_neg hmem]
      by_cases heq : ev = e
      · rw [heq, Function.update_self, if_pos List.mem_cons_self]
      · rw [Function.update_of_ne heq, if_neg fun hin => (List.mem_cons.mp hin).elim heq hmem]

namespace Ledger
variable {L L' : Ledger}

/-- Some process of this identifier has the event in its list. -/
def Lists (standings : Multiset Standing) (pid : Nat) (ev : Event) : Prop :=
  ∃ s ∈ standings, s.1.pid = pid ∧ ev ∈ s.1.events

theorem lists_cons {pid : Nat} :
    Lists (s ::ₘ rest) pid ev ↔ s.1.pid = pid ∧ ev ∈ s.1.events ∨ Lists rest pid ev := by
  simp only [Lists, Multiset.mem_cons, or_and_right, exists_or, exists_eq_left]

/-- The slot of an event names a process if and only if the process lists the event. -/
structure OwnersAgree (L : Ledger) : Prop where
  distinct : Distinct L
  agree : ∀ ev pid, L.owner ev = some pid ↔ Lists L.standings pid ev

namespace OwnersAgree

variable (h : OwnersAgree L)
include h

theorem not_lists_rest (hs : L.standings = s ::ₘ rest) (ev : Event) : ¬ Lists rest s.1.pid ev := by
  rintro ⟨t, ht, hpid, -⟩
  have hnodup := h.distinct.nodup
  rw [pids_cons hs, Multiset.nodup_cons] at hnodup
  exact hnodup.1 (hpid ▸ Multiset.mem_map_of_mem _ ht)

section
variable (hdistinct : Distinct L')
include hdistinct

/-- A standing that changes and keeps its events. -/
theorem replace {s' : Standing} (hs : L.standings = s ::ₘ rest) (hs' : L'.standings = s' ::ₘ rest)
    (howner : L'.owner = L.owner) (hpid : s'.1.pid = s.1.pid) (hevents : s'.1.events = s.1.events) :
    OwnersAgree L' := by
  refine ⟨hdistinct, fun ev pid => ?_⟩
  rw [howner, h.agree, hs, hs', lists_cons, lists_cons, hpid, hevents]

theorem of_same (hs : L'.standings = L.standings) (howner : L'.owner = L.owner) : OwnersAgree L' :=
  ⟨hdistinct, fun ev pid => by rw [howner, hs, h.agree]⟩

/-- An event that was free has an owner. -/
theorem register {p : ProcessState} (hs : L.standings = (p, none) ::ₘ rest) (hfree : L.owner ev = none)
    (hs' : L'.standings = (p.addEvent ev, none) ::ₘ rest)
    (howner : L'.owner = Function.update L.owner ev (some p.pid)) : OwnersAgree L' := by
  refine ⟨hdistinct, fun ev' pid => ?_⟩
  have hagree := h.agree ev' pid
  rw [hs, lists_cons] at hagree
  rw [howner, hs', lists_cons]
  by_cases heq : ev' = ev
  · subst heq
    have hnone : ¬ Lists rest pid ev' := by
      intro hlists
      have hsome := hagree.mpr (.inr hlists)
      cases hfree.symm.trans hsome
    rw [Function.update_self, Option.some_inj]
    constructor
    · exact fun hpid => .inl ⟨hpid, List.mem_append_right _ List.mem_cons_self⟩
    · rintro (⟨hpid, -⟩ | hlists)
      · exact hpid
      · exact absurd hlists hnone
  · have hmem : ev' ∈ (p.addEvent ev).events ↔ ev' ∈ p.events := by
      rw [addEvent, List.mem_append, List.mem_singleton, or_iff_left heq]
    rw [Function.update_of_ne heq, hagree, hmem]
    rfl

/-- An event that is given back is free. -/
theorem unregister {p : ProcessState} (hs : L.standings = (p, none) ::ₘ rest)
    (howned : L.owner ev = some p.pid) (hs' : L'.standings = (p.removeEvent ev, none) ::ₘ rest)
    (howner : L'.owner = Function.update L.owner ev none) : OwnersAgree L' := by
  refine ⟨hdistinct, fun ev' pid => ?_⟩
  have hagree := h.agree ev' pid
  rw [hs, lists_cons] at hagree
  have hmem : ev' ∈ (p.removeEvent ev).events ↔ ev' ∈ p.events ∧ ev' ≠ ev := by
    rw [removeEvent, List.mem_filter, bne_iff_ne]
  rw [howner, hs', lists_cons, hmem]
  by_cases heq : ev' = ev
  · subst heq
    have hnone : ¬ Lists rest pid ev' := by
      intro hlists
      have hsome := hagree.mpr (.inr hlists)
      cases howned.symm.trans hsome
      exact h.not_lists_rest hs ev' hlists
    rw [Function.update_self]
    constructor
    · intro hsome
      cases hsome
    · rintro (⟨-, -, hne⟩ | hlists)
      · exact absurd rfl hne
      · exact absurd hlists hnone
  · rw [Function.update_of_ne heq, hagree, and_iff_left heq]
    rfl

/-- A dead process without interrupts leaves all its events free. -/
theorem harvest {z : Standing} (hs : L.standings = z ::ₘ rest)
    (hmay : ∀ ev ∈ z.1.events, ev.isInterrupt = false) (hs' : L'.standings = rest)
    (howner : L'.owner = z.1.events.foldl dropOwner L.owner) : OwnersAgree L' := by
  refine ⟨hdistinct, fun ev pid => ?_⟩
  have hagree := h.agree ev pid
  rw [hs, lists_cons] at hagree
  rw [howner, hs', foldl_dropOwner_apply hmay]
  by_cases hmem : ev ∈ z.1.events
  · have hz : L.owner ev = some z.1.pid := by
      rw [h.agree, hs, lists_cons]
      exact .inl ⟨rfl, hmem⟩
    rw [if_pos hmem]
    constructor
    · intro hsome
      cases hsome
    · intro hlists
      have hsome := hagree.mpr (.inr hlists)
      cases hz.symm.trans hsome
      exact absurd hlists (h.not_lists_rest hs ev)
  · rw [if_neg hmem, hagree]
    constructor
    · rintro (⟨-, hin⟩ | hlists)
      · exact absurd hin hmem
      · exact hlists
    · exact .inr

end

end OwnersAgree

/-- Owners agree after a step that buries nobody with an interrupt. -/
theorem Step.ownersAgree (h : OwnersAgree L) (hstep : Step .noInterruptBuried L L') :
    OwnersAgree L' := by
  have hdistinct : Distinct L' := hstep.distinct h.distinct
  cases hstep with
  | bury hs hbury =>
    exact h.replace hdistinct hs rfl rfl (pid_eq_of_book hbury.book_eq).symm
      (events_eq_of_book hbury.book_eq).symm
  | leave _ => exact h.of_same hdistinct rfl rfl
  | create space =>
    refine ⟨hdistinct, fun ev pid => ?_⟩
    change L.owner ev = some pid ↔ Lists (_ ::ₘ L.standings) pid ev
    rw [lists_cons, h.agree]
    constructor
    · exact .inr
    · rintro (⟨-, hin⟩ | hlists)
      · cases hin
      · exact hlists
  | spawn _ => exact h.of_same hdistinct rfl rfl
  | exit status hs =>
    exact h.replace hdistinct hs rfl rfl (pid_setPendingExitStatus _ _)
      (events_eq_of_book (book_setPendingExitStatus _ status))
  | harvest hs hmay => exact h.harvest hdistinct hs hmay rfl rfl
  | edit hs hsame => exact h.replace hdistinct hs rfl rfl (by rw [hsame]) (by rw [hsame])
  | register hs hfree _ => exact h.register hdistinct hs hfree rfl rfl
  | unregister hs howned _ => exact h.unregister hdistinct hs howned rfl rfl
  | post hs _ _ | overflow hs _ _ _ => exact h.replace hdistinct hs rfl rfl rfl rfl
  | skip => exact h.of_same hdistinct rfl rfl
  | fetch hs _ _ _ | lose hs _ _ => exact h.replace hdistinct hs rfl rfl rfl rfl
  | notice _ _ _ | forward _ _ _ => exact h.of_same hdistinct rfl rfl

end Ledger

section Requests
variable {k : Kernel} {p : RunningProcess}

/-- A request is granted and moves the slot of its event, or it fails and changes nothing. -/
def Answered (k : Kernel) (p : RunningProcess) (ev : Event) (req : EventCtrlRequest)
    (slot : Option Nat) : Prop :=
  Grants k p.state ev req ∧ (∃ r k', KM.evctrl ev req k = .ok r k' ∧
      k'.em.owner = Function.update k.em.owner ev slot) ∨
    ¬ Grants k p.state ev req ∧ ∃ e, KM.evctrl ev req k = .err e k

theorem evctrl_cases (hp : k.pm.running = some p) (ev : Event) (req : EventCtrlRequest) :
    Grants k p.state ev req ∧ (∃ r, KM.evctrl ev req k = .ok r (k.granted p ev req)) ∨
      ¬ Grants k p.state ev req ∧ ∃ e, KM.evctrl ev req k = .err e k := by
  have hspec := evctrl_spec hp ev req (A := fun _ => False)
  cases hcall : KM.evctrl ev req k with
  | ok r k' =>
    obtain ⟨hgrants, rfl⟩ := hspec.of_ok hcall
    exact .inl ⟨hgrants, r, rfl⟩
  | err e k' =>
    obtain ⟨hrefused, rfl⟩ := hspec.of_err hcall
    exact .inr ⟨hrefused, e, rfl⟩
  | abort m => exact (hspec.of_abort hcall).elim

theorem answered_register (hp : k.pm.running = some p) (ev : Event) :
    Answered k p ev .register (some p.state.pid) := by
  rcases evctrl_cases hp ev .register with ⟨hgrants, r, hok⟩ | hrefused
  · exact .inl ⟨hgrants, r, _, hok, (k.owner_granted p ev .register).1⟩
  · exact .inr hrefused

theorem answered_unregister (hp : k.pm.running = some p) (ev : Event) :
    Answered k p ev .unregister none := by
  rcases evctrl_cases hp ev .unregister with ⟨hgrants, r, hok⟩ | hrefused
  · exact .inl ⟨hgrants, r, _, hok, (k.owner_granted p ev .unregister).1⟩
  · exact .inr hrefused

end Requests

/-- The two records of the owners agree, and every request of the running process is answered. -/
structure OwnershipExact (k : Kernel) : Prop where
  agree : ∀ ev pid, k.em.owner ev = some pid ↔
    ∃ s ∈ k.pm.standings, s.1.pid = pid ∧ ev ∈ s.1.events
  register : ∀ p, k.pm.running = some p → ∀ ev, Answered k p ev .register (some p.state.pid)
  unregister : ∀ p, k.pm.running = some p → ∀ ev, Answered k p ev .unregister none

/-- A process that is harvested owns no interrupt. -/
def buriesNoInterrupt : KernelCmd → Kernel → Bool
  | .harvestZombies, k => k.pm.zombies.head?.all fun z => z.process.events.all (!·.isInterrupt)
  | _, _ => true

/-- In every run in which no owner of an interrupt is harvested, the records agree. -/
theorem ownership_exact_of_reach {kernelFrames : List Nat} {mem : Mm.MemState} {root : Nat}
    {interruptCapable : Bool} {k : Kernel} (h : (kernelMachine kernelFrames).Reach
      (fun c k => buriesNoInterrupt c k = true) (.boot mem root interruptCapable) k) :
    OwnershipExact k := by
  have hharvest : ∀ k z zs, buriesNoInterrupt .harvestZombies k = true → k.pm.zombies = z :: zs →
      ∀ ev ∈ z.process.events, ev.isInterrupt = false := by
    intro k z zs hbury hz ev hev
    simp only [buriesNoInterrupt, hz, List.head?_cons, Option.all_some, List.all_eq_true] at hbury
    exact Bool.not_eq_true'  _ |>.mp (hbury ev hev)
  have hkept := kept_of_reach (π := .noInterruptBuried) (fun _ _ _ _ _ => trivial) hharvest h
  have hboot : Ledger.OwnersAgree (Kernel.boot mem root interruptCapable).ledger := by
    refine ⟨Ledger.distinct_boot mem root interruptCapable, fun ev pid => ?_⟩
    constructor
    · intro hsome
      cases ev with
      | interrupt n | exception n | scheduling e => cases hsome
    · rintro ⟨s, hs, -, hin⟩
      rw [Multiset.mem_singleton.mp hs] at hin
      cases hin
  have hagree := hkept.2.invariant hboot fun _ _ => Ledger.Step.ownersAgree
  constructor
  · exact hagree.agree
  · exact fun p hp ev => answered_register hp ev
  · exact fun p hp ev => answered_unregister hp ev

/-- A process gives up an exception, which another one takes, and is harvested as the owner of a
second one. -/
theorem ownership_exact_after_register : ∃ k, (kernelMachine []).Reach
    (fun c k => buriesNoInterrupt c k = true) (.boot (.boot 128) 0 false) k ∧
      k.em.owner (.exception 3) = some 2 ∧ k.em.owner (.exception 4) = none ∧
        1 ∉ k.pm.pids ∧ OwnershipExact k := by
  obtain ⟨k, hreach, htaken, hfree, hgone⟩ :=
    (kernelMachine []).exists_reach_restrict buriesNoInterrupt (.boot (.boot 128) 0 false)
    [.memory .newVmem, .createProcess 0 (.ok ()), .createProcess 0 (.ok ()), .giveup,
      .capctl .exceptionControl true, .evctrl (.exception 3) .register,
      .evctrl (.exception 3) .unregister, .evctrl (.exception 4) .register, .exit (.code 0),
      .capctl .exceptionControl true, .evctrl (.exception 3) .register, .giveup, .resume,
      .harvestZombies]
    (fun k => k.em.owner (.exception 3) = some 2 ∧ k.em.owner (.exception 4) = none ∧
      1 ∉ k.pm.pids) (by decide +kernel)
  exact ⟨k, hreach, htaken, hfree, hgone, ownership_exact_of_reach hreach⟩

/-- The slot of an interrupt cannot be given up, and it outlives its owner. -/
theorem interrupt_never_released : (∃ k p, (kernelMachine []).Reach (fun _ _ => True)
      (.boot (.boot 128) 0 true) k ∧ k.pm.running = some p ∧
        k.em.owner (.interrupt 3) = some p.state.pid ∧
          ∃ e, KM.evctrl (.interrupt 3) .unregister k = .err e k) ∧
    ∃ k, (kernelMachine []).Reach (fun _ _ => True) (.boot (.boot 128) 0 true) k ∧
      k.em.owner (.interrupt 3) = some 1 ∧ ∀ s ∈ k.pm.standings, s.1.pid ≠ 1 := by
  constructor
  · obtain ⟨k, hk, p, hp, howner⟩ := (kernelMachine []).exists_reach (.boot (.boot 128) 0 true)
      [.memory .newVmem, .createProcess 0 (.ok ()), .giveup, .capctl .interruptControl true,
        .evctrl (.interrupt 3) .register]
      (fun k => ∃ p ∈ k.pm.running, k.em.owner (.interrupt 3) = some p.state.pid) (by decide +kernel)
    refine ⟨k, p, hk, hp, howner, ?_⟩
    rcases evctrl_cases hp (.interrupt 3) .unregister with ⟨hgrants, -⟩ | ⟨-, hrefused⟩
    · cases hgrants.1
    · exact hrefused
  · exact (kernelMachine []).exists_reach (.boot (.boot 128) 0 true)
      [.memory .newVmem, .createProcess 0 (.ok ()), .giveup, .capctl .interruptControl true,
        .evctrl (.interrupt 3) .register, .exit (.code 0), .resume, .harvestZombies] _
      (by decide +kernel)

end Nanvix.Pm
