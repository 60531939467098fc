import Nanvix.Library.Keyed
import Nanvix.Library.Machine
import Nanvix.Syscall.Parts

/-!
# The assemblers of vfsd

vfsd collects the parts of a request by the thread that sent them and the header
they carry. A part that does not fit is answered with an error and takes the
collected parts with it; a part that completes a request sends it to its handler.

## Implementation notes

`BTreeMap` is a function from keys. Identifiers of threads are the signed numbers
that messages carry. The sizes of requests are those of their serialised fields
with paths of `PATH_MAX` or names of `NAME_MAX` bytes. What a handler answers is a
parameter `serve`: it deserialises the bytes of the request, and may panic.
-/
namespace Nanvix.Vfsd
open HostFs (Bytes)
open HostFs.Forwarding (divCeil partPayloadSize numParts)
open Library Syscall Keyed SystemCallLongMessage

/-- The headers of requests in parts. -/
inductive SystemCallMessageHeader where
  | openAtRequestPart
  | renameAtRequestPart
  | unlinkAtRequestPart
  | fileStatAtRequestPart
  | makeDirectoryAtRequestPart
  | changeDirectoryRequestPart
  | fileAccessAtRequestPart
  | symbolicLinkAtRequestPart
  | linkAtRequestPart
  | readLinkAtRequestPart
  | updateFileAccessTimeAtRequestPart
  | fileChownAtRequestPart
  | fileChmodAtRequestPart
  | hostMountRequestPart
  | hostUmountRequestPart
deriving DecidableEq, Repr

section Sizes

def pathMax : Nat := 1024
def nameMax : Nat := 255

/-- `MAX_SIZE` of the request of each header. -/
def maxSize : SystemCallMessageHeader → Nat
  | .openAtRequestPart => pathMax + 4 + 4 + 4 + 4 + pathMax
  | .renameAtRequestPart => 4 + 4 + 4 + 4 + nameMax + nameMax
  | .unlinkAtRequestPart => 4 + 4 + 4 + nameMax
  | .fileStatAtRequestPart => 4 + 4 + 4 + pathMax
  | .makeDirectoryAtRequestPart => 4 + 4 + 4 + pathMax
  | .changeDirectoryRequestPart => 4 + pathMax
  | .fileAccessAtRequestPart => 4 + 4 + 4 + 4 + pathMax
  | .symbolicLinkAtRequestPart => 4 + 4 + 4 + pathMax + pathMax
  | .linkAtRequestPart => 4 + 4 + pathMax + 4 + 4 + pathMax + 4
  | .readLinkAtRequestPart => 4 + 4 + 4 + pathMax
  | .updateFileAccessTimeAtRequestPart => 4 + 4 + 4 + pathMax + 2 * 12
  | .fileChownAtRequestPart => 4 + 4 + 4 + 4 + 4 + pathMax
  | .fileChmodAtRequestPart => 4 + 4 + 4 + 4 + pathMax
  | .hostMountRequestPart => 4 + 4 + 4 + 8 + pathMax + pathMax + 64
  | .hostUmountRequestPart => 4 + pathMax

def maxCapacityForHeader (header : SystemCallMessageHeader) : Nat :=
  divCeil (maxSize header) partPayloadSize

theorem capacity_lt (header : SystemCallMessageHeader) : maxCapacityForHeader header < 2 ^ 16 := by
  cases header <;> decide

end Sizes

structure AssemblerEntry where
  header : SystemCallMessageHeader
  assembler : SystemCallLongMessage

/-- The entry that the first part of a request finds. -/
def AssemblerEntry.new (header : SystemCallMessageHeader) : AssemblerEntry :=
  ⟨header, ⟨maxCapacityForHeader header, []⟩⟩

/-- The thread that sent a part, and its header. -/
abbrev Key := Int × SystemCallMessageHeader

abbrev Assemblers := Key → Option AssemblerEntry

/-- What becomes of a part. -/
inductive Verdict where
  | waiting
  | refused (code : ErrorCode)
  | completed (header : SystemCallMessageHeader) (parts : List SystemCallMessagePart)
deriving DecidableEq

/-- The part of `assemble_and_dispatch` before the request is dispatched. -/
def assemble (source : Int) (header : SystemCallMessageHeader) (part : SystemCallMessagePart)
    (assemblers : Assemblers) : Verdict × Assemblers :=
  let key := (source, header)
  let entry := (assemblers key).getD (.new header)
  match entry.assembler.addPart part with
  | .error _ => (.refused .invalidMessage, Function.update assemblers key none)
  | .ok assembler =>
    if assembler.isComplete then
      (.completed entry.header assembler.parts, Function.update assemblers key none)
    else (.waiting, Function.update assemblers key (some { entry with assembler := assembler }))

/-- The answer to a request that was refused or served. -/
inductive Reply (ρ : Type) where
  | refused (code : ErrorCode)
  | served (answer : ρ)

/-- `assemble_and_dispatch`; without an answer the request is incomplete. -/
def assembleAndDispatch {ρ : Type} (serve : SystemCallMessageHeader → Bytes → Except Panic ρ)
    (source : Int) (header : SystemCallMessageHeader) (part : SystemCallMessagePart)
    (assemblers : Assemblers) : Except Panic (Option (Reply ρ) × Assemblers) :=
  match assemble source header part assemblers with
  | (.waiting, assemblers) => .ok (none, assemblers)
  | (.refused code, assemblers) => .ok (some (.refused code), assemblers)
  | (.completed header parts, assemblers) => do
      let bytes ← fromParts parts
      return (some (.served (← serve header bytes)), assemblers)

section Entries

/-- What one entry makes of a part. -/
def accept (key : Key) (entry : Option AssemblerEntry) (part : SystemCallMessagePart) :
    Verdict × Option AssemblerEntry :=
  match (entry.getD (.new key.2)).assembler.addPart part with
  | .error _ => (.refused .invalidMessage, none)
  | .ok assembler =>
    if assembler.isComplete then
      (.completed (entry.getD (.new key.2)).header assembler.parts, none)
    else (.waiting, some { entry.getD (.new key.2) with assembler := assembler })

/-- A part changes the entry of its thread and header only. -/
theorem assemble_eq_step (key : Key) (part : SystemCallMessagePart) (s : Assemblers) :
    assemble key.1 key.2 part s = step accept s (key, part) := by
  simp only [assemble, step, accept, Prod.mk.eta]
  split
  · rfl
  · split
    · rfl
    · rfl

/-- The verdicts on parts that arrive one after the other, with their keys. -/
def receive (s : Assemblers) (inputs : List (Key × SystemCallMessagePart)) :
    List (Key × Verdict) × Assemblers :=
  run accept s inputs

/-- The entry of a key holds these parts, in whatever order they came. -/
structure Collected (key : Key) (entry : Option AssemblerEntry)
    (parts : List SystemCallMessagePart) : Prop where
  header : (entry.getD (.new key.2)).header = key.2
  capacity : (entry.getD (.new key.2)).assembler.capacity = maxCapacityForHeader key.2
  perm : (entry.getD (.new key.2)).assembler.parts.Perm parts
  bound : parts.length ≤ maxCapacityForHeader key.2

variable {key : Key} {entry : Option AssemblerEntry} {parts : List SystemCallMessagePart}
variable {part : SystemCallMessagePart} {total : Nat}

theorem collected_none (key : Key) : Collected key none [] :=
  ⟨rfl, rfl, .refl _, Nat.zero_le _⟩

section
variable (h : Collected key entry parts)
include h

/-- A full entry refuses the part and forgets what it holds. -/
theorem accept_of_full
    (hfull : parts.length = maxCapacityForHeader key.2) (part : SystemCallMessagePart) :
    accept key entry part = (.refused .invalidMessage, none) := by
  have hlen : (entry.getD (.new key.2)).assembler.parts.length =
      (entry.getD (.new key.2)).assembler.capacity := by
    rw [h.perm.length_eq, h.capacity, hfull]
  simp only [accept, addPart, if_pos hlen]

/-- An entry below its capacity, not complete, takes the part; it then waits, or the parts,
sorted, are the request. -/
theorem accept_of_room (hroom : parts.length < maxCapacityForHeader key.2)
    (hopen : (entry.getD (.new key.2)).assembler.isComplete = false)
    (part : SystemCallMessagePart) :
    ∃ m : SystemCallLongMessage, m.parts.Perm (part :: parts) ∧ m.parts.Pairwise ByNumber ∧
      Collected key (some ⟨key.2, m⟩) (part :: parts) ∧
      accept key entry part = if m.isComplete then (.completed key.2 m.parts, none)
        else (.waiting, some ⟨key.2, m⟩) := by
  have hlen : (entry.getD (.new key.2)).assembler.parts.length ≠
      (entry.getD (.new key.2)).assembler.capacity := by
    rw [h.perm.length_eq, h.capacity]
    exact Nat.ne_of_lt hroom
  obtain ⟨m, hm, hcapacity, hperm, hsorted⟩ := exists_addPart hlen hopen part
  have hcollected : m.parts.Perm (part :: parts) := hperm.trans (h.perm.cons part)
  refine ⟨m, hcollected, hsorted, ⟨rfl, hcapacity.trans h.capacity, hcollected, hroom⟩, ?_⟩
  simp only [accept, hm, h.header]

/-- With one total named by all parts, an entry is complete when it holds that many. -/
theorem isComplete_collected (htotal : ∀ p ∈ parts, p.totalParts.toNat = total) (hne : parts ≠ []) :
    (entry.getD (.new key.2)).assembler.isComplete = decide (parts.length = total) := by
  have hlen : (entry.getD (.new key.2)).assembler.parts.length < 2 ^ 16 := by
    rw [h.perm.length_eq]
    exact Nat.lt_of_le_of_lt h.bound (capacity_lt key.2)
  rw [isComplete_of_total hlen, h.perm.length_eq]
  · exact fun p hp => htotal p (h.perm.mem_iff.mp hp)
  · intro hnil
    exact hne (h.perm.symm.trans (hnil ▸ .refl _)).eq_nil

theorem not_isComplete_collected
    (htotal : ∀ p ∈ parts, p.totalParts.toNat = total) (hlt : parts.length < total) :
    (entry.getD (.new key.2)).assembler.isComplete = false := by
  by_cases hne : parts = []
  · have hnil : (entry.getD (.new key.2)).assembler.parts = [] := (hne ▸ h.perm).eq_nil
    simp only [isComplete, hnil, List.getLast?_nil]
  · rw [isComplete_collected h htotal hne]
    exact decide_eq_false (Nat.ne_of_lt hlt)

/-- One more part of a request that needs several. -/
theorem accept_next (htotal : ∀ p ∈ part :: parts, p.totalParts.toNat = total)
    (hroom : parts.length < maxCapacityForHeader key.2) (hlt : parts.length < total) :
    (parts.length + 1 = total ∧ ∃ sorted : List SystemCallMessagePart,
      sorted.Perm (part :: parts) ∧ sorted.Pairwise ByNumber ∧
        accept key entry part = (.completed key.2 sorted, none)) ∨
      (parts.length + 1 < total ∧ ∃ entry', accept key entry part = (.waiting, entry') ∧
        Collected key entry' (part :: parts)) := by
  have hopen := not_isComplete_collected h (fun p hp => htotal p (List.mem_cons_of_mem part hp)) hlt
  obtain ⟨m, hperm, hsorted, hcollected, haccept⟩ := accept_of_room h hroom hopen part
  have hcomplete := isComplete_collected hcollected htotal (List.cons_ne_nil _ _)
  simp only [Option.getD_some, List.length_cons] at hcomplete
  rw [hcomplete] at haccept
  by_cases hlast : parts.length + 1 = total
  · left
    refine ⟨hlast, m.parts, hperm, hsorted, ?_⟩
    rw [haccept, decide_eq_true hlast, if_pos rfl]
  · right
    refine ⟨by omega, some ⟨key.2, m⟩, ?_, hcollected⟩
    rw [haccept, decide_eq_false hlast, if_neg Bool.false_ne_true]

end

end Entries

variable {inputs : List (Key × SystemCallMessagePart)}

section RoundTrip
variable {key : Key} {bytes : Bytes}

/-- The verdicts on the parts of a request: the last part to arrive completes it. -/
def verdicts (header : SystemCallMessageHeader) (parts : List SystemCallMessagePart) :
    List Verdict :=
  match parts with
  | [] => []
  | _ :: rest => List.replicate rest.length .waiting ++ [.completed header parts]

/-- The parts of a request that are still to come complete it with the last of them. -/
theorem runOne_missing {entry : Option AssemblerEntry}
    {before missing : List SystemCallMessagePart} (hn : numParts bytes < 2 ^ 16)
    (hfits : numParts bytes ≤ maxCapacityForHeader key.2)
    (h : Collected key entry before) (hmissing : missing ≠ [])
    (hperm : (before ++ missing).Perm (partsAt bytes)) :
    runOne accept key entry missing =
      (List.replicate (missing.length - 1) .waiting ++
        [.completed key.2 (partsAt bytes)], none) := by
  induction missing generalizing entry before with
  | nil => exact absurd rfl hmissing
  | cons part rest ih =>
    have hlength : before.length + (rest.length + 1) = numParts bytes := by
      have hlen := hperm.length_eq
      simpa only [List.length_append, List.length_cons, List.length_map, List.length_range]
        using hlen
    have hmiddle : (part :: before ++ rest).Perm (before ++ part :: rest) :=
      List.perm_middle.symm
    have htotal : ∀ p ∈ part :: before, p.totalParts.toNat = numParts bytes := by
      intro p hp
      have hmem := hmiddle.mem_iff.mp (List.mem_append_left rest hp)
      exact totalParts_of_mem hn (hperm.mem_iff.mp hmem)
    rcases accept_next h htotal (by omega) (by omega) with
      ⟨hlast, sorted, hall, hsorted, haccept⟩ | ⟨hmore, entry', haccept, hnext⟩
    · have hnil : rest = [] := List.length_eq_zero_iff.mp (by omega)
      subst hnil
      have heq : sorted = partsAt bytes := by
        apply eq_of_sorted_perm hn hsorted
        exact (hall.trans (by simpa using hmiddle)).trans hperm
      simp only [runOne, haccept, heq, List.length_singleton, Nat.sub_self,
        List.replicate_zero, List.nil_append]
    · have hrest : rest ≠ [] := by
        rintro rfl
        simp only [List.length_nil] at hlength
        omega
      have hpos := List.length_pos_iff.mpr hrest
      have ih := ih hnext hrest (hmiddle.trans hperm)
      simp only [runOne, haccept, ih, List.length_cons, Nat.add_sub_cancel]
      rw [← List.cons_append, ← List.replicate_succ, Nat.sub_add_cancel hpos]

/-- The verdicts on the parts of one request, in whatever order they arrive. -/
theorem runOne_request {arriving : List SystemCallMessagePart} (hn : numParts bytes < 2 ^ 16)
    (hfits : numParts bytes ≤ maxCapacityForHeader key.2) (hperm : arriving.Perm (partsAt bytes)) :
    runOne accept key none arriving =
      (verdicts key.2 (partsAt bytes), none) := by
  by_cases hnil : arriving = []
  · rw [hnil] at hperm ⊢
    rw [← hperm.nil_eq]
    rfl
  · rw [runOne_missing hn hfits (collected_none key) hnil hperm]
    have hlen := hperm.length_eq
    cases hparts : partsAt bytes with
    | nil =>
      rw [hparts] at hperm
      exact absurd hperm.eq_nil hnil
    | cons p rest =>
      rw [hparts, List.length_cons] at hlen
      simp only [verdicts, hlen, Nat.add_sub_cancel]

theorem receive_own {s : Assemblers}
    (hfree : s key = none) (hfits : numParts bytes ≤ maxCapacityForHeader key.2)
    (hn : numParts bytes < 2 ^ 16) (hmine : (ofKey key inputs).Perm
      (partsAt bytes)) :
    ofKey key (receive s inputs).1 =
        verdicts key.2 (partsAt bytes) ∧
      (receive s inputs).2 key = none := by
  have hrun := run_ofKey accept s inputs key
  rw [hfree, runOne_request hn hfits hmine] at hrun
  exact ⟨(Prod.mk.inj hrun).1.symm, (Prod.mk.inj hrun).2.symm⟩

/-- A request of two parts, and the thread and header it is sent with. -/
def sample : Bytes := List.replicate 50 7
def sampleKey : Key := (3, .changeDirectoryRequestPart)

end RoundTrip

section Robustness
variable {ρ : Type} {serve : SystemCallMessageHeader → Bytes → Except Panic ρ}
variable {key : Key} {entry : Option AssemblerEntry} {part : SystemCallMessagePart}
variable {parts : List SystemCallMessagePart} {s : Assemblers}

/-- The collected parts are numbered from zero and agree on how many there are. -/
structure Proper (parts : List SystemCallMessagePart) : Prop where
  numbers : parts.map (·.partNumber.toNat) = List.range parts.length
  total : ∀ p ∈ parts, p.totalParts.toNat = parts.length

/-- A part that a full entry refuses, or that agrees with the parts collected so far. -/
def Agrees (held : SystemCallLongMessage) (part : SystemCallMessagePart) : Prop :=
  held.parts.length = held.capacity ∨ part.partNumber < part.totalParts ∧
    ∀ q ∈ held.parts, q.totalParts = part.totalParts ∧ q.partNumber ≠ part.partNumber

instance (held : SystemCallLongMessage) (part : SystemCallMessagePart) :
    Decidable (Agrees held part) :=
  inferInstanceAs (Decidable (_ ∨ _))

/-- A list of all parts of a request: those collected so far, with one more, in order. -/
structure Completes (held : SystemCallLongMessage) (part : SystemCallMessagePart)
    (sorted : List SystemCallMessagePart) : Prop where
  room : held.parts.length ≠ held.capacity
  perm : sorted.Perm (part :: held.parts)
  ordered : sorted.Pairwise ByNumber
  all : sorted.length = part.totalParts.toNat

/-- A part of the right size that agrees with the collected ones, and whose request, if it
completes one, the handler takes without a panic. -/
structure Admissible (serve : SystemCallMessageHeader → Bytes → Except Panic ρ) (key : Key)
    (part : SystemCallMessagePart) (s : Assemblers) : Prop where
  sized : part.Sized
  agrees : Agrees ((s key).getD (.new key.2)).assembler part
  handled : ∀ sorted bytes, Completes ((s key).getD (.new key.2)).assembler part sorted →
    fromParts sorted = .ok bytes → ∃ answer, serve key.2 bytes = .ok answer

/-- The parts of one message, some still missing. -/
structure Orderly (key : Key) (entry : Option AssemblerEntry)
    (parts : List SystemCallMessagePart) (total : Nat) : Prop where
  collected : Collected key entry parts
  missing : parts.length < total
  sized : ∀ p ∈ parts, p.Sized
  below : ∀ p ∈ parts, p.partNumber < p.totalParts
  total : ∀ p ∈ parts, p.totalParts.toNat = total
  nodup : (parts.map (·.partNumber)).Nodup

theorem orderly_none (key : Key) : ∃ parts total, Orderly key none parts total := by
  have hnone : ∀ (P : SystemCallMessagePart → Prop), ∀ p ∈ [], P p :=
    fun _ _ hp => absurd hp List.not_mem_nil
  exact ⟨[], 1, collected_none key, Nat.one_pos, hnone _, hnone _, hnone _, List.nodup_nil⟩

/-- Distinct numbers below their count, in order, are all the numbers below it. -/
theorem numbers_eq_range (hsorted : parts.Pairwise ByNumber)
    (hnodup : (parts.map (·.partNumber)).Nodup)
    (hbelow : ∀ p ∈ parts, p.partNumber.toNat < parts.length) :
    parts.map (·.partNumber.toNat) = List.range parts.length := by
  have hnumbers : (parts.map (·.partNumber.toNat)).Nodup := by
    have hmap : parts.map (·.partNumber.toNat) = (parts.map (·.partNumber)).map UInt16.toNat := by
      rw [List.map_map]
      rfl
    rw [hmap]
    exact hnodup.map_on fun a _ b _ hab => UInt16.toNat_inj.mp hab
  have hsubset : parts.map (·.partNumber.toNat) ⊆ List.range parts.length := by
    intro n hn
    obtain ⟨p, hp, rfl⟩ := List.mem_map.mp hn
    exact List.mem_range.mpr (hbelow p hp)
  have hlen : (List.range parts.length).length ≤ (parts.map (·.partNumber.toNat)).length := by
    rw [List.length_range, List.length_map]
  have hperm := (List.subperm_of_subset hnumbers hsubset).perm_of_length_le hlen
  have hrange : (List.range parts.length).Pairwise (· ≤ ·) :=
    List.pairwise_lt_range.imp fun hab => Nat.le_of_lt hab
  have hmapped : (parts.map (·.partNumber.toNat)).Pairwise (· ≤ ·) :=
    List.pairwise_map.mpr (hsorted.imp fun hab => UInt16.le_iff_toNat_le.mp hab)
  exact hperm.eq_of_pairwise (fun a b _ _ hab hba => Nat.le_antisymm hab hba) hmapped hrange

/-- A part that agrees with an orderly entry leaves an orderly entry, and what it completes is
proper. -/
theorem accept_agreeing {total : Nat} (h : Orderly key entry parts total) (hsized : part.Sized)
    (hagrees : Agrees (entry.getD (.new key.2)).assembler part) :
    (∃ parts' total', Orderly key (accept key entry part).2 parts' total') ∧
      ∀ header sorted, (accept key entry part).1 = .completed header sorted → header = key.2 ∧
        Completes (entry.getD (.new key.2)).assembler part sorted ∧ Proper sorted ∧
          ∀ p ∈ sorted, p.Sized := by
  by_cases hfull : parts.length = maxCapacityForHeader key.2
  · rw [accept_of_full h.collected hfull part]
    exact ⟨orderly_none key, fun _ _ heq => by cases heq⟩
  · have hroom : parts.length < maxCapacityForHeader key.2 :=
      Nat.lt_of_le_of_ne h.collected.bound hfull
    have hagrees : part.partNumber < part.totalParts ∧
        ∀ q ∈ parts, q.totalParts = part.totalParts ∧ q.partNumber ≠ part.partNumber := by
      rcases hagrees with hlen | ⟨hnumber, hothers⟩
      · rw [h.collected.perm.length_eq, h.collected.capacity] at hlen
        exact absurd hlen hfull
      · exact ⟨hnumber, fun q hq => hothers q (h.collected.perm.mem_iff.mpr hq)⟩
    obtain ⟨hnumber, hothers⟩ := hagrees
    have hlt : parts.length < part.totalParts.toNat := by
      cases parts with
      | nil => exact Nat.lt_of_le_of_lt (Nat.zero_le _) (UInt16.lt_iff_toNat_lt.mp hnumber)
      | cons q rest =>
        rw [← (hothers q List.mem_cons_self).1, h.total q List.mem_cons_self]
        exact h.missing
    have htotal : ∀ p ∈ part :: parts, p.totalParts.toNat = part.totalParts.toNat := by
      rw [List.forall_mem_cons]
      exact ⟨rfl, fun q hq => by rw [(hothers q hq).1]⟩
    have hbelow : ∀ p ∈ part :: parts, p.partNumber < p.totalParts :=
      List.forall_mem_cons.mpr ⟨hnumber, h.below⟩
    have hall : ∀ p ∈ part :: parts, p.Sized := List.forall_mem_cons.mpr ⟨hsized, h.sized⟩
    have hnodup : ((part :: parts).map (·.partNumber)).Nodup := by
      rw [List.map_cons, List.nodup_cons]
      refine ⟨fun hmem => ?_, h.nodup⟩
      obtain ⟨q, hq, heq⟩ := List.mem_map.mp hmem
      exact (hothers q hq).2 heq
    rcases accept_next h.collected htotal hroom hlt with
      ⟨hlast, sorted, hperm, hsorted, haccept⟩ | ⟨hmore, entry', haccept, hcollected⟩
    · rw [haccept]
      refine ⟨orderly_none key, fun header sorted' heq => ?_⟩
      cases heq
      have hlen : sorted.length = part.totalParts.toNat := by
        rw [hperm.length_eq, List.length_cons, hlast]
      have hnumbers : ∀ p ∈ sorted, p.partNumber.toNat < sorted.length := by
        intro p hp
        have hp := hperm.mem_iff.mp hp
        rw [hlen, ← htotal p hp]
        exact UInt16.lt_iff_toNat_lt.mp (hbelow p hp)
      refine ⟨rfl, ⟨?_, hperm.trans (h.collected.perm.symm.cons part), hsorted, hlen⟩, ?_, ?_⟩
      · rw [h.collected.perm.length_eq, h.collected.capacity]
        exact hfull
      · constructor
        · exact numbers_eq_range hsorted ((hperm.map _).nodup_iff.mpr hnodup) hnumbers
        · intro p hp
          rw [hlen, htotal p (hperm.mem_iff.mp hp)]
      · exact fun p hp => hall p (hperm.mem_iff.mp hp)
    · rw [haccept]
      refine ⟨⟨_, _, hcollected, hmore, hall, hbelow, htotal, hnodup⟩, fun _ _ heq => ?_⟩
      cases heq

/-- vfsd as a machine that is given parts; a panic ends it. -/
def vfsdMachine (serve : SystemCallMessageHeader → Bytes → Except Panic ρ) :
    Machine Assemblers Error (Key × SystemCallMessagePart) (Option (Reply ρ)) where
  enabled := fun _ _ => true
  exec := fun c s => match assembleAndDispatch serve c.1.1 c.1.2 c.2 s with
    | .ok (reply, s') => .ok reply s'
    | .error _ => .abort "range end index out of range for slice"

/-- Every entry holds parts of one message. -/
def Steady (s : Assemblers) : Prop := ∀ key, ∃ parts total, Orderly key (s key) parts total

theorem assemble_agreeing (h : Steady s) (hpart : Admissible serve key part s) :
    Steady (assemble key.1 key.2 part s).2 ∧
      ∀ header sorted, (assemble key.1 key.2 part s).1 = .completed header sorted →
        header = key.2 ∧ Completes ((s key).getD (.new key.2)).assembler part sorted ∧
          Proper sorted ∧ ∀ p ∈ sorted, p.Sized := by
  obtain ⟨parts, total, horderly⟩ := h key
  obtain ⟨hnext, hcompleted⟩ := accept_agreeing horderly hpart.sized hpart.agrees
  rw [assemble_eq_step]
  refine ⟨fun other => ?_, hcompleted⟩
  by_cases hother : other = key
  · subst hother
    simpa only [step, Function.update_self] using hnext
  · simpa only [step, Function.update_of_ne hother] using h other

/-- An admissible part is answered, and the entries stay as they should be. -/
theorem assembleAndDispatch_agreeing (h : Steady s) (hpart : Admissible serve key part s) :
    ∃ reply, assembleAndDispatch serve key.1 key.2 part s =
      .ok (reply, (assemble key.1 key.2 part s).2) := by
  obtain ⟨-, hcompleted⟩ := assemble_agreeing h hpart
  unfold assembleAndDispatch
  cases hverdict : assemble key.1 key.2 part s with
  | mk verdict s' =>
    rw [hverdict] at hcompleted
    cases verdict with
    | waiting | refused code => exact ⟨_, rfl⟩
    | completed header sorted =>
      obtain ⟨rfl, hcompletes, -, hsized⟩ := hcompleted header sorted rfl
      have hbytes := fromParts_eq hsized
      obtain ⟨answer, hanswer⟩ := hpart.handled sorted _ hcompletes hbytes
      refine ⟨some (.served answer), ?_⟩
      simp only [hbytes, bind, Except.bind, hanswer, pure, Except.pure]

theorem steady_of_reach (hreach : (vfsdMachine serve).Reach
    (fun c s => Admissible serve c.1 c.2 s) (fun _ => none) s) : Steady s := by
  induction hreach with
  | start => exact fun key => orderly_none key
  | step c _ _ hadmissible hcall ih =>
    obtain ⟨reply, hreply⟩ := assembleAndDispatch_agreeing ih hadmissible
    simp only [vfsdMachine, hreply, Outcome.final, Option.some.injEq] at hcall
    rw [← hcall]
    exact (assemble_agreeing ih hadmissible).1

/-- Parts of a request that is too long for its assembler never complete one, and with more parts
than fit one of them is refused. -/
theorem runOne_overlong {total : Nat} {before arriving : List SystemCallMessagePart}
    (htoo : maxCapacityForHeader key.2 < total) (h : Collected key entry before)
    (htotal : ∀ p ∈ before ++ arriving, p.totalParts.toNat = total) :
    (∀ header sorted, .completed header sorted ∉ (runOne accept key entry arriving).1) ∧
      (maxCapacityForHeader key.2 < before.length + arriving.length →
        .refused .invalidMessage ∈ (runOne accept key entry arriving).1) := by
  induction arriving generalizing entry before with
  | nil =>
    refine ⟨fun _ _ hmem => absurd hmem List.not_mem_nil, fun hmore => ?_⟩
    exact absurd hmore (Nat.not_lt.mpr h.bound)
  | cons part rest ih =>
    by_cases hfull : before.length = maxCapacityForHeader key.2
    · have hrest : ∀ p ∈ [] ++ rest, p.totalParts.toNat = total :=
        fun p hp => htotal p (List.mem_append_right _ (List.mem_cons_of_mem part hp))
      obtain ⟨hnever, -⟩ := ih (collected_none key) hrest
      simp only [runOne, accept_of_full h hfull part, List.mem_cons, not_or]
      exact ⟨fun header sorted => ⟨by simp, hnever header sorted⟩, fun _ => .inl trivial⟩
    · have hroom : before.length < maxCapacityForHeader key.2 :=
        Nat.lt_of_le_of_ne h.bound hfull
      have hrest : ∀ p ∈ part :: before ++ rest, p.totalParts.toNat = total :=
        fun p hp => htotal p (List.perm_middle.mem_iff.mpr hp)
      have hown : ∀ p ∈ part :: before, p.totalParts.toNat = total :=
        fun p hp => hrest p (List.mem_append_left rest hp)
      rcases accept_next h hown hroom (by omega) with ⟨hlast, -⟩ | ⟨-, entry', haccept, hnext⟩
      · omega
      · obtain ⟨hnever, hrefused⟩ := ih hnext hrest
        simp only [runOne, haccept, List.mem_cons, not_or]
        refine ⟨fun header sorted => ⟨by simp, hnever header sorted⟩, fun hmore => .inr ?_⟩
        apply hrefused
        simp only [List.length_cons] at hmore ⊢
        omega

/-- A request with more parts than its assembler takes is refused and never completed. -/
theorem receive_overlong {bytes : Bytes}
    (hfree : s key = none) (htoo : maxCapacityForHeader key.2 < numParts bytes)
    (hn : numParts bytes < 2 ^ 16) (hmine : (ofKey key inputs).Perm (partsAt bytes)) :
    .refused .invalidMessage ∈ ofKey key (receive s inputs).1 ∧
      ∀ header sorted, .completed header sorted ∉ ofKey key (receive s inputs).1 := by
  have hrun := run_ofKey accept s inputs key
  rw [hfree] at hrun
  obtain ⟨hnever, hrefused⟩ := runOne_overlong htoo (collected_none key)
    fun p hp => totalParts_of_mem hn (hmine.mem_iff.mp hp)
  rw [show ofKey key (receive s inputs).1 = _ from (congrArg Prod.fst hrun).symm]
  refine ⟨hrefused ?_, hnever⟩
  rw [hmine.length_eq, List.length_map, List.length_range, List.length_nil]
  omega

/-- In every run whose parts are admissible when they arrive, the next admissible part is answered
without a panic; what it completes is numbered from zero without a gap and agrees on the total;
and a request that starts when nothing is collected for its thread and header is completed with
its own bytes or refused. -/
theorem reassembly_robust (hreach : (vfsdMachine serve).Reach
    (fun c s => Admissible serve c.1 c.2 s) (fun _ => none) s) :
    (∀ key part, Admissible serve key part s →
      (∃ reply s', assembleAndDispatch serve key.1 key.2 part s = .ok (reply, s')) ∧
      ∀ header sorted, (assemble key.1 key.2 part s).1 = .completed header sorted →
        Proper sorted) ∧
    ∀ key bytes parts inputs, s key = none → intoParts bytes = .ok parts →
      (ofKey key inputs).Perm parts →
      (ofKey key (receive s inputs).1 = verdicts key.2 parts ∧
        fromParts parts = .ok bytes) ∨
      (.refused .invalidMessage ∈ ofKey key (receive s inputs).1 ∧
        ∀ header sorted, .completed header sorted ∉ ofKey key (receive s inputs).1) := by
  have hsteady := steady_of_reach hreach
  constructor
  · intro key part hpart
    obtain ⟨reply, hreply⟩ := assembleAndDispatch_agreeing hsteady hpart
    exact ⟨⟨reply, _, hreply⟩, fun header sorted hcompleted =>
      ((assemble_agreeing hsteady hpart).2 header sorted hcompleted).2.2.1⟩
  · intro key bytes parts inputs hfree hsplit hmine
    obtain ⟨hn, rfl⟩ := intoParts_eq_ok hsplit
    rcases Nat.lt_or_ge (maxCapacityForHeader key.2) (numParts bytes) with htoo | hfits
    · exact .inr (receive_overlong hfree htoo hn hmine)
    · exact .inl ⟨(receive_own hfree hfits hn hmine).1, fromParts_partAt bytes⟩

/-- A handler that answers with the bytes it got. -/
def echo (_ : SystemCallMessageHeader) (bytes : Bytes) : Except Panic Bytes := .ok bytes

/-- A request whose second part has arrived is completed properly by its first. -/
theorem reassembly_robust_of_two : Proper [partAt sample 0, partAt sample 1] := by
  have hadmissible : ∀ (part : SystemCallMessagePart) (s : Assemblers), part.Sized →
      Agrees ((s sampleKey).getD (.new sampleKey.2)).assembler part →
        Admissible echo sampleKey part s :=
    fun part s hsized hagrees => ⟨hsized, hagrees, fun _ bytes _ _ => ⟨bytes, rfl⟩⟩
  have hreach : (vfsdMachine echo).Reach (fun c s => Admissible echo c.1 c.2 s) (fun _ => none)
      (assemble sampleKey.1 sampleKey.2 (partAt sample 1) fun _ => none).2 :=
    .step (sampleKey, partAt sample 1) .start rfl
      (hadmissible _ _ (by decide) (by decide)) rfl
  obtain ⟨hnext, -⟩ := reassembly_robust hreach
  exact (hnext sampleKey (partAt sample 0) (hadmissible _ _ (by decide) (by decide))).2
    .changeDirectoryRequestPart _ (by decide)

/-- A part that declares more payload than it has. -/
def oversized : SystemCallMessagePart := ⟨1, 0, 255, List.replicate 44 0, by decide⟩

/-- One of two parts that both have number zero. -/
def repeated : SystemCallMessagePart := ⟨2, 0, 1, List.replicate 44 0, by decide⟩

/-- The request to which a part belongs that was left behind. -/
def abandoned : Bytes := List.replicate 50 9

/-- An oversized part makes vfsd panic, two parts with one number count as a request, and a part
left behind becomes part of the next request of the thread. -/
theorem reassembly_breaks :
    assembleAndDispatch echo 3 .changeDirectoryRequestPart oversized (fun _ => none) =
        .error (.sliceEndOutOfRange 255 44) ∧
      ofKey sampleKey
          (receive (fun _ => none) [(sampleKey, repeated), (sampleKey, repeated)]).1 =
        [.waiting, .completed .changeDirectoryRequestPart [repeated, repeated]] ∧
      ofKey sampleKey (receive (fun _ => none) [(sampleKey, partAt abandoned 1),
          (sampleKey, partAt sample 0), (sampleKey, partAt sample 1)]).1 =
        [.waiting,
          .completed .changeDirectoryRequestPart [partAt sample 0, partAt abandoned 1],
          .waiting] ∧
      fromParts [partAt sample 0, partAt abandoned 1] =
        .ok (List.replicate 44 7 ++ List.replicate 6 9) := by
  refine ⟨rfl, by decide, by decide, rfl⟩

end Robustness
end Nanvix.Vfsd
