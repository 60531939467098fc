import Nanvix.Pm.EventManager

/-!
# The slots of the events

What a request to register or unregister does to the slot of its event when it is
granted, and what becomes of the slots of a process that is buried.
-/
namespace Nanvix.Pm
open Library

/-- The owners after an ownership is dropped: interrupts are not given up. -/
def dropOwner (owner : Event → Option Nat) (ev : Event) : Event → Option Nat :=
  if ev.isInterrupt then owner else Function.update owner ev none

namespace EventManager

theorem owner_setOwner (em : EventManager) (o : Option Nat) (ev : Event) :
    (em.setOwner o ev).owner = Function.update em.owner ev o := by
  funext ev'
  cases ev <;> cases ev' <;> simp [setOwner, owner, Function.update_apply]

theorem interruptCapable_setOwner (em : EventManager) (o : Option Nat) (ev : Event) :
    (em.setOwner o ev).interruptCapable = em.interruptCapable := by
  cases ev <;> rfl

section Requests
variable {noCapability busy notOwner : String} {cap : Bool} {pid : Nat} {slot : Option Nat}

theorem evctrlSlot_register :
    (evctrlSlot noCapability busy notOwner (.ok cap) (some pid) slot .register).toOption =
      if cap = true ∧ slot = none then some (some pid) else none := by
  cases cap with
  | false => rfl
  | true =>
    cases slot with
    | none | some q => rfl

theorem evctrlSlot_unregister :
    (evctrlSlot noCapability busy notOwner (.ok cap) (some pid) slot .unregister).toOption =
      if slot = some pid then some none else none := by
  simp only [evctrlSlot]
  split
  · rfl
  · rfl

theorem doEvctrlInterrupt_register :
    (doEvctrlInterrupt (.ok cap) (some pid) slot .register).toOption =
      if cap = true ∧ slot = none then some (some pid) else none := by
  cases slot with
  | some q =>
    rw [if_neg (fun h => Option.some_ne_none q h.2)]
    rfl
  | none =>
    cases cap with
    | false | true => rfl

theorem doEvctrlInterrupt_unregister :
    (doEvctrlInterrupt (.ok cap) (some pid) slot .unregister).toOption = none := by
  cases slot with
  | some q | none => rfl

/-- The slot of an event after a request. -/
theorem toOption_bind_setOwner (em : EventManager) (ev : Event) (x : Except Error (Option Nat)) :
    (x >>= fun o => pure (em.setOwner o ev) : Except Error EventManager).toOption =
      x.toOption.map fun o => em.setOwner o ev := by
  cases x with
  | ok o | error e => rfl

/-- A free slot is given to a process that has the capability. -/
theorem doEvctrl_register (em : EventManager) (cap : Bool) (pid : Nat) (ev : Event) :
    (em.doEvctrl (.ok cap) (some pid) ev .register).toOption =
      if cap = true ∧ em.owner ev = none then some (em.setOwner (some pid) ev) else none := by
  have hmap : ∀ slot : Option Nat, (if cap = true ∧ slot = none then some (some pid) else none).map
      (fun o => em.setOwner o ev) =
        if cap = true ∧ slot = none then some (em.setOwner (some pid) ev) else none :=
    fun slot => apply_ite _ _ _ _
  cases ev with
  | interrupt n =>
    rw [doEvctrl, toOption_bind_setOwner, doEvctrlInterrupt_register, hmap]
    rfl
  | exception n =>
    rw [doEvctrl, toOption_bind_setOwner, doEvctrlException, evctrlSlot_register, hmap]
    rfl
  | scheduling e =>
    rw [doEvctrl, toOption_bind_setOwner, doEvctrlScheduling, evctrlSlot_register, hmap]
    rfl

/-- A slot is given up by its owner, unless it is that of an interrupt. -/
theorem doEvctrl_unregister (em : EventManager) (cap : Bool) (pid : Nat) (ev : Event) :
    (em.doEvctrl (.ok cap) (some pid) ev .unregister).toOption =
      if ev.isInterrupt = false ∧ em.owner ev = some pid then some (em.setOwner none ev)
      else none := by
  have hmap : ∀ slot : Option Nat, (if slot = some pid then some none else none).map
      (fun o => em.setOwner o ev) =
        if false = false ∧ slot = some pid then some (em.setOwner none ev) else none := by
    intro slot
    rw [apply_ite (Option.map _)]
    simp only [true_and, Option.map_some, Option.map_none]
  cases ev with
  | interrupt n =>
    rw [doEvctrl, toOption_bind_setOwner, doEvctrlInterrupt_unregister]
    rfl
  | exception n =>
    rw [doEvctrl, toOption_bind_setOwner, doEvctrlException, evctrlSlot_unregister, hmap]
    rfl
  | scheduling e =>
    rw [doEvctrl, toOption_bind_setOwner, doEvctrlScheduling, evctrlSlot_unregister, hmap]
    rfl

end Requests

theorem dropOwnership_owner (em : EventManager) (ev : Event) :
    (em.dropOwnership ev).owner = dropOwner em.owner ev ∧
      (em.dropOwnership ev).interruptCapable = em.interruptCapable := by
  cases ev with
  | interrupt n =>
    cases hslot : em.interruptOwnership n with
    | some q =>
      have hdrop : em.dropOwnership (.interrupt n) = em := by
        simp only [dropOwnership, doEvctrl, doEvctrlInterrupt, hslot]
        rfl
      rw [hdrop]
      exact ⟨rfl, rfl⟩
    | none =>
      have hdrop : em.dropOwnership (.interrupt n) = em.setOwner none (.interrupt n) := by
        simp only [dropOwnership, doEvctrl, doEvctrlInterrupt, hslot]
        rfl
      rw [hdrop, owner_setOwner]
      refine ⟨?_, rfl⟩
      have hsame : Function.update em.owner (.interrupt n) none = em.owner := by
        rw [← hslot]
        exact Function.update_eq_self (.interrupt n) em.owner
      rw [hsame]
      rfl
  | exception n =>
    exact ⟨owner_setOwner em none (.exception n), rfl⟩
  | scheduling e =>
    exact ⟨owner_setOwner em none (.scheduling e), rfl⟩

theorem foldl_dropOwnership (events : List Event) (em : EventManager) :
    (events.foldl dropOwnership em).owner = events.foldl dropOwner em.owner ∧
      (events.foldl dropOwnership em).interruptCapable = em.interruptCapable := by
  induction events generalizing em with
  | nil => exact ⟨rfl, rfl⟩
  | cons ev events ih =>
    obtain ⟨howner, hcapable⟩ := dropOwnership_owner em ev
    rw [List.foldl_cons, List.foldl_cons, ← howner, ← hcapable]
    exact ih _

end EventManager
end Nanvix.Pm
