import Nanvix.Pm.LedgerRefine

/-!
# The counter of buffered messages

The counter of buffered messages is kept apart from the mailboxes. It agrees with them
in every run in which no process is buried with letters that nobody has received and no
letter is sent while the counter is full.
-/
namespace Nanvix.Pm
open Config Library Library.Prog

/-- The letters in the mailboxes of some processes. -/
def heldLetters (standings : Multiset Standing) : Nat :=
  (standings.map fun s => s.1.mailbox.length).sum

/-- The letters in the mailboxes of all processes. -/
def ProcessManager.heldMessages (pm : ProcessManager) : Nat := heldLetters pm.standings

/-- Letters are sent while the counter has room, and no letter is buried. -/
def Policy.accounted : Policy :=
  ⟨fun L _ => L.buffered < usizeMax, fun _ s => s.1.mailbox = []⟩

theorem heldLetters_cons (s : Standing) (rest : Multiset Standing) :
    heldLetters (s ::ₘ rest) = s.1.mailbox.length + heldLetters rest := by
  rw [heldLetters, Multiset.map_cons, Multiset.sum_cons]
  rfl

namespace Ledger
variable {L L' : Ledger}

/-- The counter agrees with the mailboxes. -/
def Balanced (L : Ledger) : Prop := L.buffered = heldLetters L.standings

/-- A standing that changes and keeps its mailbox. -/
theorem Balanced.replace (h : Balanced L) {s s' : Standing} {rest : Multiset Standing}
    (hs : L.standings = s ::ₘ rest) (hmail : s'.1.mailbox = s.1.mailbox) :
    L.buffered = heldLetters (s' ::ₘ rest) := by
  rw [h, hs, heldLetters_cons, heldLetters_cons, hmail]

theorem Takes.room {l : Letter} (h : Takes .accounted L l) : L.buffered < usizeMax := by
  rcases h.2 with ⟨-, hroom⟩ | ⟨-, hroom⟩
  · exact hroom.trans (by decide)
  · exact hroom

/-- Every change that is accounted for keeps the balance. -/
theorem Step.balanced (h : Balanced L) (hstep : Step .accounted L L') : Balanced L' := by
  cases hstep with
  | bury hs hbury =>
    apply h.replace hs
    exact ProcessState.mailbox_eq_of_book hbury.book_eq.symm
  | leave _ => exact h
  | create space =>
    change L.buffered = heldLetters (_ ::ₘ L.standings)
    rw [heldLetters_cons, h]
    exact (Nat.zero_add _).symm
  | spawn _ => exact h
  | exit status hs =>
    apply h.replace hs
    exact ProcessState.mailbox_eq_of_book (ProcessState.book_setPendingExitStatus _ status)
  | harvest hs hmay =>
    change L.buffered = heldLetters _
    rw [h, hs, heldLetters_cons, hmay]
    exact Nat.zero_add _
  | edit hs hsame =>
    apply h.replace hs
    rw [hsame]
  | register hs _ _ | unregister hs _ _ => exact h.replace hs rfl
  | post hs _ _ =>
    change L.buffered + 1 = heldLetters (_ ::ₘ _)
    rw [heldLetters_cons, h, hs, heldLetters_cons]
    simp only [ProcessState.postMessage, List.length_append, List.length_singleton]
    omega
  | overflow _ htakes _ hfull =>
    have hroom := htakes.room
    omega
  | skip => exact h
  | fetch hs _ hfetch hcount =>
    have hlength := (Mailbox.perm_of_receive hfetch).length_eq
    change L.buffered - 1 = heldLetters (_ ::ₘ _)
    rw [heldLetters_cons, h, hs, heldLetters_cons, hlength, List.length_cons, Nat.add_right_comm,
      Nat.add_sub_cancel]
  | lose hs hfetch hcount =>
    have hlength := (Mailbox.perm_of_receive hfetch).length_eq
    rw [h, hs, heldLetters_cons, hlength, List.length_cons] at hcount
    omega
  | notice _ _ _ | forward _ _ _ => exact h

end Ledger

/-- A send finds room in the counter, and a process that is harvested has an empty mailbox. -/
def accounted : KernelCmd → Kernel → Bool
  | .send _, k => decide (k.pm.numberBufferedMessages < usizeMax)
  | .harvestZombies, k => k.pm.zombies.head?.all fun z => z.process.mailbox.isEmpty
  | _, _ => true

/-- In every run whose calls are accounted for, the counter is the number of letters held. -/
theorem buffered_eq_held_of_reach {kernelFrames : List Nat} {mem : Mm.MemState} {root : Nat}
    {interruptCapable : Bool} {k : Kernel} (h : (kernelMachine kernelFrames).Reach
      (fun c k => accounted c k = true) (.boot mem root interruptCapable) k) :
    k.pm.numberBufferedMessages = k.pm.heldMessages := by
  have hharvest : ∀ k z zs, accounted .harvestZombies k = true → k.pm.zombies = z :: zs →
      z.process.mailbox = [] := by
    intro k z zs hempty hz
    simp only [accounted, hz, List.head?_cons, Option.all_some] at hempty
    exact List.isEmpty_iff.mp hempty
  have hsend : ∀ m k, accounted (.send m) k = true → k.pm.numberBufferedMessages < usizeMax :=
    fun _ _ hroom => of_decide_eq_true hroom
  have hkept := kept_of_reach (π := .accounted) (fun m k _ hroom _ => hsend m k hroom) hharvest h
  exact hkept.2.invariant (I := Ledger.Balanced) rfl fun _ _ => Ledger.Step.balanced

/-- Of two letters one is received. Its receiver is harvested, and the other one still counts. -/
theorem buffered_after_send : ∃ k, (kernelMachine []).Reach (fun c k => accounted c k = true)
    (.boot (.boot 128) 0 false) k ∧ k.deliveries.length = 1 ∧ 1 ∉ k.pm.pids ∧
      k.pm.numberBufferedMessages = 1 ∧ k.pm.heldMessages = 1 := by
  obtain ⟨k, hreach, hone, hgone, hcount⟩ := (kernelMachine []).exists_reach_restrict accounted
    (.boot (.boot 128) 0 false)
    [.memory .newVmem, .createProcess 0 (.ok ()), .createProcess 0 (.ok ()), .giveup,
      .send ⟨.ipc, 1, 2, 0, .bytes []⟩, .send ⟨.ipc, 1, 1, 0, .bytes []⟩, .recv (.ok ()),
      .exit (.code 0), .giveup, .resume, .harvestZombies]
    (fun k => k.deliveries.length = 1 ∧ 1 ∉ k.pm.pids ∧ k.pm.numberBufferedMessages = 1)
    (by decide +kernel)
  exact ⟨k, hreach, hone, hgone, hcount, (buffered_eq_held_of_reach hreach).symm.trans hcount⟩

/-- A letter that is buried with its process stays in the counter. -/
theorem buffered_after_harvest : ∃ k, (kernelMachine []).Reach (fun _ _ => True)
    (.boot (.boot 128) 0 false) k ∧ k.pm.numberBufferedMessages = 1 ∧ k.pm.heldMessages = 0 :=
  (kernelMachine []).exists_reach (.boot (.boot 128) 0 false)
    [.memory .newVmem, .createProcess 0 (.ok ()), .giveup, .send ⟨.ipc, 1, 1, 0, .bytes []⟩,
      .exit (.code 0), .resume, .harvestZombies] _ (by decide +kernel)

end Nanvix.Pm
