import Mathlib.Data.List.Sort
import Nanvix.Base
import Nanvix.HostFs.Wire

/-!
# System-call requests in parts

A request that does not fit one message is serialised and cut into parts. A part
carries how many parts there are, its own number, and how much of its payload
array is in use. `SystemCallLongMessage` collects parts in any order, sorted by
their numbers, and counts as complete when the part with the largest number names
as many parts as have been collected. The bytes of a request are the used
payloads, joined.

## Implementation notes

Rust's stable sort of the collected parts is the insertion sort of Mathlib. A slice
beyond the end of the payload array panics.
-/
namespace Nanvix.Syscall
open HostFs (Bytes)
open HostFs.Forwarding (partPayloadSize numParts chunk)
open HostFs.Forwarding

/-- `SystemCallMessagePart`. -/
@[ext] structure SystemCallMessagePart where
  totalParts : UInt16
  partNumber : UInt16
  payloadSize : UInt8
  payload : Bytes
  length_payload : payload.length = partPayloadSize
deriving DecidableEq

namespace SystemCallMessagePart

/-- `SystemCallMessagePart::new`. -/
def new (totalParts partNumber : UInt16) (payloadSize : UInt8) (payload : Bytes)
    (h : payload.length = partPayloadSize) : Except Error SystemCallMessagePart :=
  if partPayloadSize < payloadSize.toNat then
    .error ⟨.invalidArgument, "invalid payload size"⟩
  else .ok ⟨totalParts, partNumber, payloadSize, payload, h⟩

/-- `SystemCallMessagePart::build_request`, without the message around the part. -/
def buildRequest (totalParts partNumber : UInt16) (payloadSize : UInt8) (payload : Bytes)
    (h : payload.length = partPayloadSize) : Except Error SystemCallMessagePart :=
  if totalParts ≤ partNumber then
    .error ⟨.invalidArgument, "part number is greater than or equal to total parts"⟩
  else new totalParts partNumber payloadSize payload h

end SystemCallMessagePart

variable {parts : List SystemCallMessagePart}

section Partition

/-- A chunk at the start of a payload array of zeros. -/
def padded (data : Bytes) : Bytes :=
  data.take partPayloadSize ++ List.replicate (partPayloadSize - data.length) 0

theorem length_padded (data : Bytes) : (padded data).length = partPayloadSize := by
  simp only [padded, List.length_append, List.length_take, List.length_replicate]
  omega

/-- `MessagePartitioner::into_parts`: the serialised request in chunks, the last perhaps short. -/
def intoParts (bytes : Bytes) : Except Error (List SystemCallMessagePart) :=
  if 2 ^ 16 ≤ numParts bytes then
    .error ⟨.invalidMessage, "message is too large to be partitioned"⟩
  else (List.range (numParts bytes)).mapM fun i =>
    SystemCallMessagePart.buildRequest (UInt16.ofNat (numParts bytes)) (UInt16.ofNat i)
      (UInt8.ofNat (chunk bytes i).length) (padded (chunk bytes i)) (length_padded _)

/-- A slice of a payload array beyond its end. -/
inductive Panic where
  | sliceEndOutOfRange (index len : Nat)
deriving DecidableEq, Repr

/-- The bytes that `MessagePartitioner::from_parts` hands to the deserializer. -/
def fromParts : List SystemCallMessagePart → Except Panic Bytes
  | [] => .ok []
  | part :: parts =>
    if part.payload.length < part.payloadSize.toNat then
      .error (.sliceEndOutOfRange part.payloadSize.toNat part.payload.length)
    else do return part.payload.take part.payloadSize.toNat ++ (← fromParts parts)

/-- The part of a request's bytes that carries chunk `i`. -/
def partAt (bytes : Bytes) (i : Nat) : SystemCallMessagePart :=
  ⟨UInt16.ofNat (numParts bytes), UInt16.ofNat i, UInt8.ofNat (chunk bytes i).length,
    padded (chunk bytes i), length_padded _⟩

variable {bytes : Bytes}

theorem length_chunk_lt (bytes : Bytes) (i : Nat) : (chunk bytes i).length < UInt8.size := by
  have hlen := length_chunk_le bytes i
  simp only [partPayloadSize] at hlen
  simp only [UInt8.size]
  omega

theorem payloadSize_partAt (bytes : Bytes) (i : Nat) :
    (partAt bytes i).payloadSize.toNat = (chunk bytes i).length :=
  UInt8.toNat_ofNat_of_lt' (length_chunk_lt bytes i)

theorem partNumber_partAt {i : Nat} (h : i < 2 ^ 16) : (partAt bytes i).partNumber.toNat = i :=
  UInt16.toNat_ofNat_of_lt' h

theorem mapM_eq_ok {α β ε : Type} {f : α → Except ε β} {g : α → β} {l : List α}
    (h : ∀ a ∈ l, f a = .ok (g a)) : l.mapM f = .ok (l.map g) := by
  induction l with
  | nil => rfl
  | cons a l ih =>
    rw [List.mapM_cons, h a List.mem_cons_self, ih fun b hb => h b (List.mem_cons_of_mem a hb)]
    rfl

/-- The parts of a message, in order. -/
abbrev partsAt (bytes : Bytes) : List SystemCallMessagePart :=
  (List.range (numParts bytes)).map (partAt bytes)

/-- No check of the sending side fails. -/
theorem intoParts_eq (h : numParts bytes < 2 ^ 16) : intoParts bytes = .ok (partsAt bytes) := by
  rw [intoParts, if_neg (Nat.not_le.mpr h)]
  apply mapM_eq_ok
  intro i hi
  have hnumber : ¬ UInt16.ofNat (numParts bytes) ≤ UInt16.ofNat i := by
    have hi := List.mem_range.mp hi
    rw [UInt16.le_iff_toNat_le, UInt16.toNat_ofNat_of_lt' h,
      UInt16.toNat_ofNat_of_lt' (Nat.lt_trans hi h)]
    omega
  have hsize : ¬ partPayloadSize < (UInt8.ofNat (chunk bytes i).length).toNat := by
    rw [UInt8.toNat_ofNat_of_lt' (length_chunk_lt bytes i)]
    exact Nat.not_lt.mpr (length_chunk_le bytes i)
  simp only [SystemCallMessagePart.buildRequest, if_neg hnumber, SystemCallMessagePart.new,
    if_neg hsize]
  rfl

/-- What is cut into parts has few enough of them. -/
theorem intoParts_eq_ok (h : intoParts bytes = .ok parts) :
    numParts bytes < 2 ^ 16 ∧ parts = partsAt bytes := by
  by_cases hlarge : 2 ^ 16 ≤ numParts bytes
  · rw [intoParts, if_pos hlarge] at h
    cases h
  · have hn := Nat.not_le.mp hlarge
    exact ⟨hn, Except.ok.inj (h.symm.trans (intoParts_eq hn))⟩

theorem totalParts_of_mem (h : numParts bytes < 2 ^ 16) {p : SystemCallMessagePart}
    (hp : p ∈ partsAt bytes) : p.totalParts.toNat = numParts bytes := by
  obtain ⟨i, -, rfl⟩ := List.mem_map.mp hp
  exact UInt16.toNat_ofNat_of_lt' h

/-- The payload bytes in use. -/
def SystemCallMessagePart.used (p : SystemCallMessagePart) : Bytes :=
  p.payload.take p.payloadSize.toNat

/-- The declared size of the payload does not exceed the array. -/
def SystemCallMessagePart.Sized (p : SystemCallMessagePart) : Prop :=
  p.payloadSize.toNat ≤ partPayloadSize

instance (p : SystemCallMessagePart) : Decidable p.Sized :=
  inferInstanceAs (Decidable (_ ≤ _))

/-- Parts of the right sizes are joined without a panic. -/
theorem fromParts_eq (h : ∀ p ∈ parts, p.Sized) :
    fromParts parts = .ok (parts.flatMap SystemCallMessagePart.used) := by
  induction parts with
  | nil => rfl
  | cons p parts ih =>
    have hsize : ¬ p.payload.length < p.payloadSize.toNat := by
      rw [p.length_payload]
      exact Nat.not_lt.mpr (h p List.mem_cons_self)
    rw [fromParts, if_neg hsize, ih fun q hq => h q (List.mem_cons_of_mem p hq)]
    rfl

theorem used_partAt (bytes : Bytes) (i : Nat) : (partAt bytes i).used = chunk bytes i := by
  have htake : (chunk bytes i).take partPayloadSize = chunk bytes i :=
    chunk_take bytes i
  rw [SystemCallMessagePart.used, payloadSize_partAt]
  simp only [partAt, padded, htake, List.take_left]

theorem sized_partAt (bytes : Bytes) (i : Nat) : (partAt bytes i).Sized := by
  rw [SystemCallMessagePart.Sized, payloadSize_partAt]
  exact length_chunk_le bytes i

/-- The parts of a request, joined in order, are the request. -/
theorem fromParts_partAt (bytes : Bytes) : fromParts (partsAt bytes) = .ok bytes := by
  have hsized : ∀ p ∈ partsAt bytes, p.Sized := by
    intro p hp
    obtain ⟨i, -, rfl⟩ := List.mem_map.mp hp
    exact sized_partAt bytes i
  rw [fromParts_eq hsized, List.flatMap_map]
  simp only [used_partAt, flatMap_chunk, take_numParts]

end Partition

/-- The order of the parts of a long message. -/
def ByNumber (a b : SystemCallMessagePart) : Prop := a.partNumber ≤ b.partNumber

instance : DecidableRel ByNumber := fun _ _ => inferInstanceAs (Decidable (_ ≤ _))

instance : Std.Total ByNumber := ⟨fun a b => UInt16.le_total a.partNumber b.partNumber⟩

instance : IsTrans SystemCallMessagePart ByNumber := ⟨fun _ _ _ hab hbc => UInt16.le_trans hab hbc⟩

/-- `SystemCallLongMessage`. -/
structure SystemCallLongMessage where
  capacity : Nat
  parts : List SystemCallMessagePart

namespace SystemCallLongMessage

/-- The number of parts is compared as a `u16`. -/
def isComplete (m : SystemCallLongMessage) : Bool :=
  match m.parts.getLast? with
  | some last => last.totalParts = UInt16.ofNat m.parts.length
  | none => false

def addPart (m : SystemCallLongMessage) (part : SystemCallMessagePart) :
    Except Error SystemCallLongMessage :=
  if m.parts.length = m.capacity then .error ⟨.messageTooLong, "message too long"⟩
  else if m.isComplete then .error ⟨.invalidMessage, "message is already complete"⟩
  else .ok { m with
    parts := (m.parts ++ [part]).insertionSort ByNumber }

variable {m : SystemCallLongMessage}

/-- A message below its capacity that is not complete takes any part. -/
theorem exists_addPart (hroom : m.parts.length ≠ m.capacity) (hopen : m.isComplete = false)
    (part : SystemCallMessagePart) : ∃ m', m.addPart part = .ok m' ∧ m'.capacity = m.capacity ∧
      m'.parts.Perm (part :: m.parts) ∧ m'.parts.Pairwise ByNumber := by
  simp only [addPart, if_neg hroom, hopen, Bool.false_eq_true, if_false]
  refine ⟨_, rfl, rfl, ?_, ?_⟩
  · exact (List.perm_insertionSort _ _).trans (List.perm_append_singleton _ _)
  · exact List.pairwise_insertionSort _ _

/-- When all parts name one total, completeness is a matter of their number. -/
theorem isComplete_of_total {total : Nat} (hlen : m.parts.length < 2 ^ 16)
    (h : ∀ p ∈ m.parts, p.totalParts.toNat = total) (hne : m.parts ≠ []) :
    m.isComplete = decide (m.parts.length = total) := by
  have hlast := List.getLast?_eq_getLast_of_ne_nil hne
  have htotal := h _ (List.getLast_mem hne)
  have hiff : (m.parts.getLast hne).totalParts = UInt16.ofNat m.parts.length ↔
      m.parts.length = total := by
    rw [← UInt16.toNat_inj, htotal, UInt16.toNat_ofNat_of_lt' hlen]
    exact eq_comm
  simp only [isComplete, hlast, hiff]

end SystemCallLongMessage

/-- Sorted parts that are the parts of one request, all of them, are those in order. -/
theorem eq_of_sorted_perm {bytes : Bytes}
    (h : numParts bytes < 2 ^ 16) (hsorted : parts.Pairwise ByNumber)
    (hperm : parts.Perm (partsAt bytes)) :
    parts = partsAt bytes := by
  have hnumber : ∀ i ∈ List.range (numParts bytes), (partAt bytes i).partNumber.toNat = i :=
    fun i hi => partNumber_partAt (Nat.lt_trans (List.mem_range.mp hi) h)
  apply List.Perm.eq_of_pairwise _ hsorted _ hperm
  · intro a b ha hb hab hba
    obtain ⟨i, hi, rfl⟩ := List.mem_map.mp (hperm.mem_iff.mp ha)
    obtain ⟨j, hj, rfl⟩ := List.mem_map.mp hb
    have heq := congrArg UInt16.toNat (UInt16.le_antisymm hab hba)
    rw [hnumber i hi, hnumber j hj] at heq
    rw [heq]
  · apply List.pairwise_map.mpr
    apply List.pairwise_lt_range.imp_of_mem
    intro i j hi hj hij
    rw [ByNumber, UInt16.le_iff_toNat_le, hnumber i hi, hnumber j hj]
    exact Nat.le_of_lt hij

end Nanvix.Syscall
