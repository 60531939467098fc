import Nanvix.Pm.LedgerRefine

/-!
# Interrupts and their owners

A process can be registered for an interrupt only if the manager handles interrupts, and
a manager that handles interrupts refuses to take note of one. So an interrupt for which
a process is registered is never queued, and no thread that waits for it is woken.
-/
namespace Nanvix.Pm
open Config Library Library.Prog

/-- An interrupt reaches its owner: it is queued, the threads of the owner that wait are woken,
and the owner, and nobody else, finds it. -/
def ReachesOwner (k : Kernel) (n : Fin 32) (pid : Nat) : Prop :=
  ∃ k', KM.wakeupInterrupt n k = .ok () k' ∧
    k'.em.pendingInterrupts n =
      k.em.pendingInterrupts n ++ [.new (k.em.nevents + 1) (.interrupt n)] ∧
    (∀ tid, (pid, tid) ∈ k.em.waitingThreads → tid ∈ k.queue .events → k.pm.Asleep tid →
      k'.pm.Ready tid) ∧
    (∃ em, k'.em.collect pid (.interrupt n) = some (.ofInterrupt pid, em) ∧
      (em.pendingInterrupts n).length = (k.em.pendingInterrupts n).length) ∧
    ∀ q, n ∈ (k'.em.interests q).interrupts ↔ q = pid

/-- Every process that is registered for the interrupt gets it. -/
def InterruptDelivered (k : Kernel) (n : Fin 32) : Prop :=
  ∀ pid, k.em.owner (.interrupt n) = some pid → ReachesOwner k n pid

/-- A manager that handles interrupts takes note of none. -/
theorem wakeupInterrupt_refused {k : Kernel} (h : k.em.interruptCapable = true) (n : Fin 32) :
    ∃ e, KM.wakeupInterrupt n k = .err e k := by
  have hends : ends (KM.wakeupInterrupt n) (fun _ _ => False) (fun _ k' => k' = k)
      (fun _ => False) k := by
    unfold KM.wakeupInterrupt
    rw [ends_bind, ends_gets, ends_ite, if_pos h, ends_throw]
  cases hcall : KM.wakeupInterrupt n k with
  | ok u k' => exact (hends.of_ok hcall).elim
  | err e k' =>
    obtain rfl := hends.of_err hcall
    exact ⟨e, rfl⟩
  | abort m => exact (hends.of_abort hcall).elim

theorem not_delivered {k : Kernel} (h : k.em.interruptCapable = true) {n : Fin 32} {pid : Nat}
    (howner : k.em.owner (.interrupt n) = some pid) : ¬ InterruptDelivered k n := by
  intro hdelivered
  obtain ⟨k', hok, -⟩ := hdelivered pid howner
  obtain ⟨e, herr⟩ := wakeupInterrupt_refused h n
  cases hok.symm.trans herr

namespace Ledger
variable {π : Policy} {L L' : Ledger}

/-- Interrupts have owners only if they are handled. -/
def InterruptsHandled (L : Ledger) : Prop :=
  ∀ n pid, L.owner (.interrupt n) = some pid → L.interruptCapable = true

theorem foldl_dropOwner_interrupt (events : List Event) (owner : Event → Option Nat)
    (n : Fin 32) : events.foldl dropOwner owner (.interrupt n) = owner (.interrupt n) := by
  induction events generalizing owner with
  | nil => rfl
  | cons ev events ih =>
    rw [List.foldl_cons, ih]
    cases ev with
    | interrupt m => rfl
    | exception m =>
      have hne : Event.interrupt n ≠ .exception m := by simp
      exact Function.update_of_ne hne none owner
    | scheduling e =>
      have hne : Event.interrupt n ≠ .scheduling e := by simp
      exact Function.update_of_ne hne none owner

/-- No step gives away an interrupt that the machine cannot handle. -/
theorem Step.interruptsHandled (h : InterruptsHandled L) (hstep : Step π L L') :
    InterruptsHandled L' := by
  cases hstep with
  | harvest _ _ =>
    intro n pid hn
    exact h n pid ((foldl_dropOwner_interrupt _ _ n).symm.trans hn)
  | @register p rest ev _ _ hcapable =>
    intro n pid hn
    by_cases heq : Event.interrupt n = ev
    · exact hcapable (heq ▸ rfl)
    · exact h n pid ((Function.update_of_ne heq _ _).symm.trans hn)
  | @unregister p rest ev _ _ hnot =>
    intro n pid hn
    have hne : Event.interrupt n ≠ ev := by
      rintro rfl
      cases hnot
    exact h n pid ((Function.update_of_ne hne _ _).symm.trans hn)
  | bury _ _ | leave _ | create _ | spawn _ | exit _ _ | edit _ _ | post _ _ _ | overflow _ _ _ _
  | skip | fetch _ _ _ _ | lose _ _ _ | notice _ _ _ | forward _ _ _ => exact h

end Ledger

/-- In every run, an interrupt is delivered to all that are registered only if nobody is. -/
theorem interrupt_delivered_iff {kernelFrames : List Nat} {mem : Mm.MemState} {root : Nat}
    {interruptCapable : Bool} {k : Kernel} (h : (kernelMachine kernelFrames).Reach
      (fun _ _ => True) (.boot mem root interruptCapable) k) (n : Fin 32) :
    InterruptDelivered k n ↔ k.em.owner (.interrupt n) = none := by
  have hkept := kept_of_reach (π := .any) (fun _ _ _ _ _ => trivial) (fun _ _ _ _ _ => trivial) h
  have hhandled := hkept.2.invariant (I := Ledger.InterruptsHandled) (fun _ _ hnone => nomatch hnone)
    fun _ _ => Ledger.Step.interruptsHandled
  constructor
  · intro hdelivered
    cases howner : k.em.owner (.interrupt n) with
    | none => rfl
    | some pid => exact absurd hdelivered (not_delivered (hhandled n pid howner) howner)
  · intro hnone pid howner
    cases hnone.symm.trans howner

/-- A process is registered for an exception, and nobody for an interrupt. -/
theorem interrupt_delivered_unregistered : ∃ k, (kernelMachine []).Reach (fun _ _ => True)
    (.boot (.boot 128) 0 true) k ∧ k.em.owner (.exception 3) = some 1 ∧
      InterruptDelivered k 3 := by
  obtain ⟨k, hk, howner, hnone⟩ := (kernelMachine []).exists_reach (.boot (.boot 128) 0 true)
    [.memory .newVmem, .createProcess 0 (.ok ()), .giveup, .capctl .exceptionControl true,
      .evctrl (.exception 3) .register]
    (fun k => k.em.owner (.exception 3) = some 1 ∧ k.em.owner (.interrupt 3) = none)
    (by decide +kernel)
  exact ⟨k, hk, howner, (interrupt_delivered_iff hk 3).mpr hnone⟩

/-- A registration is accepted, and the interrupt does not arrive. -/
theorem registered_interrupt_lost : ∃ k, (kernelMachine []).Reach (fun _ _ => True)
    (.boot (.boot 128) 0 true) k ∧ k.em.owner (.interrupt 3) = some 1 ∧
      ¬ InterruptDelivered k 3 := by
  obtain ⟨k, hk, howner, hcapable⟩ := (kernelMachine []).exists_reach (.boot (.boot 128) 0 true)
    [.memory .newVmem, .createProcess 0 (.ok ()), .giveup, .capctl .interruptControl true,
      .evctrl (.interrupt 3) .register]
    (fun k => k.em.owner (.interrupt 3) = some 1 ∧ k.em.interruptCapable = true) (by decide +kernel)
  exact ⟨k, hk, howner, not_delivered hcapable howner⟩

end Nanvix.Pm
