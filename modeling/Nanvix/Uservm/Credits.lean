import Mathlib.Algebra.Group.Nat.Defs
import Nanvix.Library.Machine

/-!
# The credits of a user VM

The memory thread queues a frame for the guest and then adds a credit. The guest's
kernel reads the credits register and makes an input access if it is not zero; in it
the VMM takes a frame from the queue, stores it in guest memory and consumes a
credit. Counter and register change together, under the guest's lock.

## Implementation notes

`enqueued`, `delivered`, `added` and `consumed` are history; nothing reads them.
Whether an interrupt can be injected and whether a frame can be stored are data of
the commands. A frame that cannot be queued changes nothing.
-/
namespace Nanvix.Uservm

open Nanvix.Library

variable {φ : Type}

inductive MemoryThread where
  | ready
  | adding
  | ended
deriving DecidableEq

/-- The vCPU, idle or at one of the points of an input access. -/
inductive Vcpu (φ : Type) where
  | idle
  | accessing
  | taken (frame : φ)
  | failed (frame : φ)

/-- The frame that an access has taken from the queue. -/
def Vcpu.frames : Vcpu φ → List φ
  | .idle => []
  | .accessing => []
  | .taken frame => [frame]
  | .failed frame => [frame]

structure Link (φ : Type) where
  memoryThread : MemoryThread
  vcpu : Vcpu φ
  queue : List φ
  credits : Nat
  register : Nat
  enqueued : List φ
  delivered : List φ
  added : Nat
  consumed : Nat

namespace Link

def start : Link φ := ⟨.ready, .idle, [], 0, 0, [], [], 0, 0⟩

def addCredit (s : Link φ) : Option (Link φ) :=
  if s.credits = 2 ^ 32 - 1 then none
  else some { s with credits := s.credits + 1, register := s.credits + 1, added := s.added + 1 }

def consumeCredit (s : Link φ) : Option (Link φ) :=
  if s.credits = 0 then none
  else some
    { s with credits := s.credits - 1, register := s.credits - 1, consumed := s.consumed + 1 }

end Link

inductive Command (φ : Type) where
  | send (frame : φ)
  | addCredit (notified : Bool)
  | read
  | recv
  | store (stored : Bool)

/-- One step of the memory thread or of the vCPU, unless it has to wait. -/
def step : Command φ → Link φ → Option (Link φ)
  | .send frame, s =>
    if s.memoryThread = .ready then
      some { s with
        memoryThread := .adding
        queue := s.queue ++ [frame]
        enqueued := s.enqueued ++ [frame] }
    else none
  | .addCredit notified, s =>
    if s.memoryThread = .adding then
      match s.addCredit with
      | some t => some { t with memoryThread := if notified then .ready else .ended }
      | none => some { s with memoryThread := .ended }
    else none
  | .read, s =>
    match s.vcpu with
    | .idle => some (if s.register = 0 then s else { s with vcpu := .accessing })
    | _ => none
  | .recv, s =>
    match s.vcpu, s.queue with
    | .accessing, frame :: queue => some { s with vcpu := .taken frame, queue := queue }
    | _, _ => none
  | .store stored, s =>
    match s.vcpu with
    | .taken frame =>
      match if stored then s.consumeCredit else none with
      | some t => some { t with vcpu := .idle, delivered := s.delivered ++ [frame] }
      | none => some { s with vcpu := .failed frame }
    | _ => none

/-- How counter, register, queue and history belong together. -/
structure Link.Sound (s : Link φ) : Prop where
  register_eq : s.register = s.credits
  credits_add : s.credits + s.consumed = s.added
  added_le : s.added + (if s.memoryThread = .adding then 1 else 0) ≤ s.enqueued.length
  consumed_eq : s.consumed = s.delivered.length
  fifo : s.enqueued = s.delivered ++ s.vcpu.frames ++ s.queue
  busy : s.vcpu = .idle ∨ 0 < s.credits

theorem Link.Sound.step {c : Command φ} {s t : Link φ} (h : s.Sound)
    (hstep : Uservm.step c s = some t) : t.Sound := by
  obtain ⟨hreg, hcredits, hadded, hconsumed, hfifo, hbusy⟩ := h
  cases c with
  | send frame =>
    simp only [Uservm.step, Option.ite_none_right_eq_some, Option.some.injEq] at hstep
    obtain ⟨hready, rfl⟩ := hstep
    simp only [hready, reduceCtorEq, if_false] at hadded
    exact ⟨hreg, hcredits, by simpa using hadded, hconsumed, by simp [hfifo], hbusy⟩
  | addCredit notified =>
    simp only [Uservm.step, Option.ite_none_right_eq_some] at hstep
    obtain ⟨hadding, hstep⟩ := hstep
    rw [if_pos hadding] at hadded
    split at hstep <;> cases hstep
    · rename_i t ht
      simp only [Link.addCredit, Option.ite_none_left_eq_some, Option.some.injEq] at ht
      obtain ⟨-, rfl⟩ := ht
      refine ⟨rfl, by dsimp only; omega, ?_, hconsumed, hfifo, .inr (Nat.succ_pos _)⟩
      cases notified <;> exact hadded
    · exact ⟨hreg, hcredits, Nat.le_of_succ_le hadded, hconsumed, hfifo, hbusy⟩
  | read =>
    simp only [Uservm.step] at hstep
    split at hstep <;> cases hstep
    rename_i hidle
    split_ifs with hzero
    · exact ⟨hreg, hcredits, hadded, hconsumed, hfifo, hbusy⟩
    · rw [hidle] at hfifo
      exact ⟨hreg, hcredits, hadded, hconsumed, hfifo, .inr (by dsimp only; omega)⟩
  | recv =>
    simp only [Uservm.step] at hstep
    split at hstep <;> cases hstep
    rename_i hvcpu hqueue
    rw [hvcpu, hqueue] at hfifo
    rw [hvcpu] at hbusy
    exact ⟨hreg, hcredits, hadded, hconsumed, by simpa [Vcpu.frames] using hfifo,
      .inr (hbusy.resolve_left (by simp))⟩
  | store stored =>
    simp only [Uservm.step] at hstep
    split at hstep
    · rename_i frame hvcpu
      rw [hvcpu] at hfifo hbusy
      split at hstep <;> cases hstep
      · rename_i t ht
        simp only [Link.consumeCredit, Option.ite_none_right_eq_some,
          Option.ite_none_left_eq_some, Option.some.injEq] at ht
        obtain ⟨-, hpos, rfl⟩ := ht
        exact ⟨rfl, by dsimp only; omega, hadded, by simp [hconsumed],
          by simpa [Vcpu.frames] using hfifo, .inl rfl⟩
      · exact ⟨hreg, hcredits, hadded, hconsumed, hfifo, .inr (hbusy.resolve_left (by simp))⟩
    · cases hstep

/-- Runs of the memory thread and the vCPU, interleaved. -/
def machine (φ : Type) : Machine (Link φ) Unit (Command φ) Unit := .ofStep step

/-- The register holds the credits added and not consumed, for each of which a frame is queued or
has just been taken; an access finds a frame and its credit, and frames stay in order. -/
theorem credits_cover_frames {s : Link φ} (h : (machine φ).Reach (fun _ _ => True) .start s) :
    s.register + s.consumed = s.added ∧
      s.register ≤ s.queue.length + s.vcpu.frames.length ∧
      (s.vcpu = .accessing → s.queue ≠ []) ∧
      (∀ frame, s.vcpu = .taken frame → s.consumeCredit ≠ none) ∧
      s.enqueued = s.delivered ++ s.vcpu.frames ++ s.queue := by
  obtain ⟨hreg, hcredits, hadded, hconsumed, hfifo, hbusy⟩ : s.Sound :=
    h.invariant_ofStep (by exact ⟨rfl, rfl, Nat.zero_le _, rfl, rfl, .inl rfl⟩)
      fun _ _ _ hs _ => hs.step
  have hcover : s.credits ≤ s.queue.length + s.vcpu.frames.length := by
    have hlength := congrArg List.length hfifo
    simp only [List.length_append] at hlength
    omega
  refine ⟨hreg ▸ hcredits, hreg ▸ hcover, fun haccess => ?_, fun frame htaken => ?_, hfifo⟩
  · rw [haccess] at hbusy hcover
    have hpos := hbusy.resolve_left (by simp)
    exact List.ne_nil_of_length_pos (Nat.lt_of_lt_of_le hpos hcover)
  · rw [htaken] at hbusy
    have hpos := hbusy.resolve_left (by simp)
    simp [Link.consumeCredit, Nat.ne_of_gt hpos]

/-- A second frame is queued while the first one is on its way into guest memory. -/
theorem delivery_covers_frames : ∃ s : Link Nat, s.delivered = [7, 8] ∧ s.enqueued = [7, 8, 9] ∧
    s.register + s.consumed = s.added ∧ s.register ≤ s.queue.length + s.vcpu.frames.length ∧
      s.enqueued = s.delivered ++ s.vcpu.frames ++ s.queue := by
  obtain ⟨s, hreach, hdelivered, henqueued⟩ := (machine Nat).exists_reach .start
    [.send 7, .addCredit true, .read, .recv, .send 8, .store true, .addCredit true, .read, .recv,
      .send 9, .store true] (fun s => s.delivered = [7, 8] ∧ s.enqueued = [7, 8, 9])
    (by decide +kernel)
  have hcover := credits_cover_frames hreach
  exact ⟨s, hdelivered, henqueued, hcover.1, hcover.2.1, hcover.2.2.2.2⟩

/-- Between taking its frame and consuming its credit an access leaves the register ahead of the
queue. -/
theorem register_exceeds_queue : ∃ s : Link Nat, (machine Nat).Reach (fun _ _ => True) .start s ∧
    s.enqueued.length < 2 ^ 32 ∧ s.queue.length < s.register :=
  (machine Nat).exists_reach .start [.send 7, .addCredit true, .read, .recv] _ (by decide +kernel)

end Nanvix.Uservm
