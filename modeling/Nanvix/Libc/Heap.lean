import Nanvix.Libc.HeapSpec
import Nanvix.Library.Machine

/-!
# Runs of the C heap

A program allocates blocks, reallocates and frees blocks that are live, and
stores bytes inside of them. The list of live blocks is what the program knows:
the pointers it was given, with the sizes and alignments it asked for. In every
state that a run reaches the live blocks and their headers lie apart from each
other inside the blocks of the underlying allocator, and every call does what it
is for.
-/
namespace Nanvix.Libc

open Library Library.Prog

section Machine

structure HeapState where
  heap : Heap
  live : List Live := []

/-- Nothing is allocated, and the memory holds anything. -/
def HeapState.boot (mem : Memory) : HeapState := { heap := { mem } }

inductive Cmd where
  | alloc (size : Nat) (alignment : Option Nat) (oracle : Oracle)
  | realloc (ptr newSize : Nat) (oracle : Oracle)
  | free (ptr : Nat) (oracle : Oracle)
  | store (addr : Nat) (byte : UInt8)

/-- Run a call on the heap. -/
def onHeap {α : Type} (x : Prog Heap Unit α) : Prog HeapState Unit α :=
  focus (fun s => some s.heap) (fun h s => { s with heap := h }) x

/-- The block that was handed out last. -/
def Heap.lastBlock (h : Heap) (B : Block) : Block := h.blocks.head?.getD B

/-- The live blocks after a reallocation has returned a pointer. -/
def Live.moveTo (h : Heap) (ptr newSize p : Nat) (b : Live) : Live :=
  if b.ptr ≠ ptr then b
  else if p = ptr then { b with size := newSize }
  else ⟨p, newSize, b.alignment, h.lastBlock b.block⟩

/-- A call, with what the program knows after it. -/
def Cmd.exec : Cmd → Prog HeapState Unit (Option Nat)
  | .alloc size alignment oracle => do
      let r ← onHeap (Libc.alloc oracle size alignment)
      match r with
      | none => pure none
      | some p => do
          modify fun s => { s with
            live := ⟨p, size, alignment.getD 1, s.heap.lastBlock ⟨0, 0, 0⟩⟩ :: s.live }
          pure (some p)
  | .realloc ptr newSize oracle => do
      let r ← onHeap (Libc.realloc oracle ptr newSize)
      match r with
      | none => pure none
      | some p => do
          modify fun s => { s with live := s.live.map (Live.moveTo s.heap ptr newSize p) }
          pure (some p)
  | .free ptr oracle => do
      onHeap (Libc.free oracle ptr)
      modify fun s => { s with live := s.live.filter (·.ptr ≠ ptr) }
      pure none
  | .store addr byte => do
      modify fun s => { s with heap := { s.heap with mem := s.heap.mem.storeByte addr byte } }
      pure none

/-- Sizes are not zero, alignments are powers of two up to the maximum, pointers are live, and
stores stay inside of a live block. -/
def Cmd.enabled (s : HeapState) : Cmd → Bool
  | .alloc size alignment _ =>
    0 < size && alignment.all fun a => isPowerOfTwo a && a ≤ maxAlignment
  | .realloc ptr newSize _ => 0 < newSize && s.live.any (·.ptr = ptr)
  | .free ptr _ => s.live.any (·.ptr = ptr)
  | .store addr _ => s.live.any fun b => decide (b.User addr)

/-- The underlying allocator keeps its promise in the call. -/
def Cmd.Lawful (s : HeapState) : Cmd → Prop
  | .alloc _ _ oracle | .realloc _ _ oracle => oracle.Lawful s.heap.blocks
  | .free _ _ | .store _ _ => True

def heapMachine : Machine HeapState Unit Cmd (Option Nat) where
  enabled c s := c.enabled s
  exec := Cmd.exec

end Machine

section Specification

/-- Live blocks and all headers lie apart from each other, inside of underlying blocks, and the
live blocks are aligned. -/
structure WellPlaced (s : HeapState) : Prop where
  nodup : s.live.Nodup
  aligned : ∀ b ∈ s.live, b.alignment ∣ b.ptr
  inside : ∀ b ∈ s.live, b.block ∈ s.heap.blocks ∧
    ∀ x, b.User x ∨ b.Header x → b.block.Holds x
  users : ∀ b ∈ s.live, ∀ c ∈ s.live, b ≠ c → ∀ x, b.User x → ¬c.User x
  headers : ∀ b ∈ s.live, ∀ c ∈ s.live, b ≠ c → ∀ x, b.Header x → ¬c.Header x
  apart : ∀ b ∈ s.live, ∀ c ∈ s.live, ∀ x, b.Header x → ¬c.User x

/-- These blocks are still live, with the same bytes. -/
def Intact (s s' : HeapState) (blocks : List Live) : Prop :=
  ∀ b ∈ blocks, b ∈ s'.live ∧ Memory.AgreeOn b.User s'.heap.mem s.heap.mem

/-- An allocation gives an aligned pointer into a new block, or fails. -/
structure AllocRight (size alignment : Nat) (s : HeapState) (r : Option Nat) (s' : HeapState) :
    Prop where
  intact : Intact s s' s.live
  released : s'.heap.released = s.heap.released
  failed : r = none → s'.live = s.live
  succeeded : ∀ p, r = some p → alignment ∣ p ∧ ∃ B, s'.heap.blocks = B :: s.heap.blocks ∧
    s'.live = ⟨p, size, alignment, B⟩ :: s.live

/-- A reallocation keeps the bytes and the alignment, or fails and changes nothing. The old block
is returned as it was obtained when the bytes are moved. -/
structure ReallocRight (b : Live) (newSize : Nat) (s : HeapState) (r : Option Nat)
    (s' : HeapState) : Prop where
  intact : Intact s s' (s.live.erase b)
  failed : r = none → s'.live = s.live ∧ Intact s s' s.live ∧ s'.heap.released = s.heap.released
  succeeded : ∀ p, r = some p → ∃ B, b.alignment ∣ p ∧
    (∀ i < min b.size newSize, s'.heap.mem (p + i) = s.heap.mem (b.ptr + i)) ∧
    (∀ c, c ∈ s'.live ↔ c = ⟨p, newSize, b.alignment, B⟩ ∨ c ∈ s.live.erase b) ∧
    (p = b.ptr ∧ B = b.block ∧ s'.heap.released = s.heap.released ∨
      p ≠ b.ptr ∧ B ∈ s'.heap.blocks ∧ B ∉ s.heap.blocks ∧
        s'.heap.released = b.block :: s.heap.released)

/-- A free returns the underlying block as it was obtained. -/
structure FreeRight (b : Live) (s s' : HeapState) : Prop where
  intact : Intact s s' (s.live.erase b)
  live : s'.live = s.live.erase b
  released : s'.heap.released = b.block :: s.heap.released

/-- What a call should do. -/
def Cmd.Right (s : HeapState) (r : Option Nat) (s' : HeapState) : Cmd → Prop
  | .alloc size alignment _ => AllocRight size (alignment.getD 1) s r s'
  | .realloc ptr newSize _ => ∃ b ∈ s.live, b.ptr = ptr ∧ ReallocRight b newSize s r s'
  | .free ptr _ => ∃ b ∈ s.live, b.ptr = ptr ∧ FreeRight b s s'
  | .store addr byte => s'.live = s.live ∧ s'.heap.mem = s.heap.mem.storeByte addr byte

end Specification

section Steps

variable {s : HeapState} {b c : Live} {oracle : Oracle}

theorem wp_onHeap {α : Type} {x : Prog Heap Unit α} {Q : α → HeapState → Prop}
    {E : Unit → HeapState → Prop} :
    wp (onHeap x) Q E s ↔
      wp x (fun a h => Q a { s with heap := h }) (fun e h => E e { s with heap := h }) s.heap :=
  wp_focus _ _ rfl

section
variable (hs : Sound s.heap s.live)
include hs

/-- Blocks stay as they are when the memory of their underlying blocks does. -/
theorem Sound.intact {h : Heap} {live : List Live}
    {blocks : List Live} (hsub : ∀ b ∈ blocks, b ∈ s.live ∧ b ∈ live)
    (hmem : ∀ b ∈ blocks, Memory.AgreeOn b.block.Holds h.mem s.heap.mem) :
    Intact s ⟨h, live⟩ blocks := fun b hb =>
  ⟨(hsub b hb).2, (hmem b hb).mono fun _ hx => (hs.placed b (hsub b hb).1).holds_user hx⟩

/-- A call that leaves the underlying blocks and their memory alone. -/
theorem Sound.unmoved {h : Heap} (hblocks : h.blocks = s.heap.blocks)
    (huntouched : Untouched s.heap.blocks s.heap h) :
    Sound h s.live ∧ Intact s ⟨h, s.live⟩ s.live := by
  have hold : ∀ b ∈ s.live, Memory.AgreeOn b.block.Holds h.mem s.heap.mem := fun b hb =>
    huntouched _ (hs.placed b hb).block
  refine ⟨⟨?_, hblocks ▸ hs.apart, fun b hb => ?_, hs.distinct⟩, ?_⟩
  · exact fun B hB => hs.granted B (hblocks ▸ hB)
  · exact (hs.placed b hb).of_agree (hblocks ▸ (hs.placed b hb).block) (hold b hb)
  · exact hs.intact (fun b hb => ⟨hb, hb⟩) hold

theorem alloc_step {size : Nat} {alignment : Option Nat}
    (hlawful : oracle.Lawful s.heap.blocks) (hsize : 0 < size) (halignment : alignment ≠ some 0) :
    wp (Cmd.exec (.alloc size alignment oracle))
      (fun r s' => Sound s'.heap s'.live ∧ AllocRight size (alignment.getD 1) s r s')
      (fun _ _ => False) s := by
  unfold Cmd.exec
  rw [wp_bind, wp_onHeap]
  refine (alloc_wp oracle hlawful hsize halignment).imp ?_
  rintro r h ⟨hreleased, huntouched, hfailed, hplaced⟩
  cases r with
  | none =>
    rw [wp_pure]
    obtain ⟨hsound, hintact⟩ := hs.unmoved (hfailed rfl) huntouched
    exact ⟨hsound, hintact, hreleased, fun _ => rfl,
      fun _ hp => absurd hp.symm (Option.some_ne_none _)⟩
  | some p =>
    have hold : ∀ b ∈ s.live, Memory.AgreeOn b.block.Holds h.mem s.heap.mem := fun b hb =>
      huntouched _ (hs.placed b hb).block
    obtain ⟨B, hblocks, hgranted, hapart, hnew⟩ := hplaced p rfl
    have hlast : h.lastBlock ⟨0, 0, 0⟩ = B := by
      unfold Heap.lastBlock
      rw [hblocks]
      rfl
    rw [wp_bind, wp_modify, wp_pure]
    dsimp only
    rw [hlast]
    refine ⟨⟨?_, ?_, ?_, ?_⟩, ?_, hreleased, fun hnone => absurd hnone (Option.some_ne_none _), ?_⟩
    · rw [hblocks]
      exact List.forall_mem_cons.mpr ⟨hgranted, hs.granted⟩
    · rw [hblocks]
      exact List.pairwise_cons.mpr ⟨hapart, hs.apart⟩
    · refine List.forall_mem_cons.mpr ⟨hnew, fun b hb => ?_⟩
      refine (hs.placed b hb).of_agree ?_ (hold b hb)
      rw [hblocks]
      exact List.mem_cons_of_mem _ (hs.placed b hb).block
    · refine List.nodup_cons.mpr ⟨fun hmem => ?_, hs.distinct⟩
      obtain ⟨b, hb, hbB⟩ := List.mem_map.mp hmem
      have hbp := hs.placed b hb
      exact hbp.ne_of_apart (hapart _ hbp.block) hbB.symm
    · exact hs.intact (fun b hb => ⟨hb, List.mem_cons_of_mem _ hb⟩) hold
    · intro q hq
      obtain rfl := Option.some.inj hq
      exact ⟨hnew.aligned, B, hblocks, rfl⟩

/-- Taking a pointer out takes its block out. -/
theorem Sound.filter_eq_erase (hb : b ∈ s.live) :
    s.live.filter (·.ptr ≠ b.ptr) = s.live.erase b := by
  rw [hs.nodup.erase_eq_filter]
  refine List.filter_congr fun c hc => ?_
  have hiff : c.ptr ≠ b.ptr ↔ c ≠ b := not_congr ⟨hs.eq_of_ptr hc hb, fun hcb => by rw [hcb]⟩
  simp only [hiff, ne_eq, decide_not, Bool.beq_eq_decide_eq, bne]

theorem free_step (oracle : Oracle) (hb : b ∈ s.live) : wp (Cmd.exec (.free b.ptr oracle))
      (fun _ s' => Sound s'.heap s'.live ∧ FreeRight b s s') (fun _ _ => False) s := by
  have hbp := hs.placed b hb
  unfold Cmd.exec
  rw [wp_bind, wp_onHeap]
  refine (free_wp oracle hbp (hs.granted _ hbp.block)).imp ?_
  rintro - h ⟨hblocks, hreleased, huntouched⟩
  rw [wp_bind, wp_modify, wp_pure]
  dsimp only
  rw [hs.filter_eq_erase hb]
  have hmem : ∀ c ∈ s.live.erase b, c ∈ s.live ∧ c.block ∈ h.blocks := by
    intro c hc
    obtain ⟨hne, hc⟩ := hs.nodup.mem_erase_iff.mp hc
    refine ⟨hc, ?_⟩
    rw [hblocks, List.mem_erase_of_ne]
    · exact (hs.placed c hc).block
    · exact fun heq => hne (List.inj_on_of_nodup_map hs.distinct hc hb heq)
  refine ⟨⟨?_, ?_, fun c hc => ?_, ?_⟩, ?_, rfl, hreleased⟩
  · exact fun B hB => hs.granted B (List.mem_of_mem_erase (hblocks ▸ hB))
  · rw [hblocks]
    exact hs.apart.sublist List.erase_sublist
  · exact (hs.placed c (hmem c hc).1).of_agree (hmem c hc).2 (huntouched _ (hmem c hc).2)
  · exact hs.distinct.sublist (List.erase_sublist.map _)
  · exact hs.intact (fun c hc => ⟨(hmem c hc).1, hc⟩) fun c hc => huntouched _ (hmem c hc).2

/-- Changing one live block leaves the others. -/
theorem Sound.mem_map_iff (hb : b ∈ s.live) {f : Live → Live}
    (hf : ∀ x ∈ s.live, x ≠ b → f x = x) : c ∈ s.live.map f ↔ c = f b ∨ c ∈ s.live.erase b := by
  rw [List.mem_map, hs.nodup.mem_erase_iff]
  constructor
  · rintro ⟨x, hx, rfl⟩
    by_cases hxb : x = b
    · exact Or.inl (by rw [hxb])
    · rw [hf x hx hxb]
      exact Or.inr ⟨hxb, hx⟩
  · rintro (rfl | ⟨hne, hc⟩)
    · exact ⟨b, hb, rfl⟩
    · exact ⟨c, hc, hf c hc hne⟩

/-- Live blocks stay in different underlying blocks when one moves into a block of its own. -/
theorem Sound.distinct_map {f : Live → Live}
    (hf : ∀ x ∈ s.live, x ≠ b → f x = x) (hfb : ∀ x ∈ s.live, x ≠ b → x.block ≠ (f b).block) :
    ((s.live.map f).map Live.block).Nodup := by
  rw [List.map_map]
  refine List.Nodup.map_on (fun x hx y hy hxy => ?_) hs.nodup
  rw [Function.comp_apply, Function.comp_apply] at hxy
  by_cases hxb : x = b <;> by_cases hyb : y = b
  · rw [hxb, hyb]
  · rw [hf y hy hyb, hxb] at hxy
    exact absurd hxy.symm (hfb y hy hyb)
  · rw [hf x hx hxb, hyb] at hxy
    exact absurd hxy (hfb x hx hxb)
  · rw [hf x hx hxb, hf y hy hyb] at hxy
    exact List.inj_on_of_nodup_map hs.distinct hx hy hxy

theorem Sound.moveTo_of_ne (hb : b ∈ s.live) (h : Heap)
    (newSize p : Nat) : ∀ x ∈ s.live, x ≠ b → Live.moveTo h b.ptr newSize p x = x := fun _ hx hne =>
  if_pos fun hptr => hne (hs.eq_of_ptr hx hb hptr)

end

theorem moveTo_self (h : Heap) (newSize : Nat) :
    Live.moveTo h b.ptr newSize b.ptr b = { b with size := newSize } := by
  unfold Live.moveTo
  rw [if_neg (not_not.mpr rfl), if_pos rfl]

theorem moveTo_moved {h : Heap} {newSize p : Nat} (hp : p ≠ b.ptr) :
    Live.moveTo h b.ptr newSize p b = ⟨p, newSize, b.alignment, h.lastBlock b.block⟩ := by
  unfold Live.moveTo
  rw [if_neg (not_not.mpr rfl), if_neg hp]

section
variable (hs : Sound s.heap s.live)
include hs

/-- The blocks that the others lie in are apart from the block that is reallocated. -/
theorem Sound.mem_erase (hb : b ∈ s.live) (hc : c ∈ s.live.erase b) :
    c ∈ s.live ∧ b.block.Apart c.block ∧ c.block ≠ b.block := by
  obtain ⟨hne, hc⟩ := hs.nodup.mem_erase_iff.mp hc
  exact ⟨hc, hs.apart_of_ne hb hc hne.symm,
    fun heq => hne (List.inj_on_of_nodup_map hs.distinct hc hb heq)⟩

theorem realloc_step (hlawful : oracle.Lawful s.heap.blocks)
    (hb : b ∈ s.live) {newSize : Nat} (hpos : 0 < newSize) :
    wp (Cmd.exec (.realloc b.ptr newSize oracle))
      (fun r s' => Sound s'.heap s'.live ∧ ReallocRight b newSize s r s') (fun _ _ => False) s := by
  have hbp := hs.placed b hb
  unfold Cmd.exec
  rw [wp_bind, wp_onHeap]
  refine (realloc_wp oracle hlawful hbp (hs.granted _ hbp.block) hpos).imp ?_
  intro r h hrealloc
  cases hrealloc with
  | failed hblocks hreleased huntouched =>
    rw [wp_pure]
    obtain ⟨hsound, hintact⟩ := hs.unmoved hblocks huntouched
    exact ⟨hsound, fun c hc => hintact c (List.mem_of_mem_erase hc),
      fun _ => ⟨rfl, hintact, hreleased⟩, fun _ hp => absurd hp.symm (Option.some_ne_none _)⟩
  | shrunk hblocks hreleased hle hothers hbytes hnew =>
    have hmove := hs.moveTo_of_ne hb h newSize b.ptr
    have hiff : ∀ c, c ∈ s.live.map (Live.moveTo h b.ptr newSize b.ptr) ↔
        c = { b with size := newSize } ∨ c ∈ s.live.erase b := fun c => by
      rw [hs.mem_map_iff hb hmove, moveTo_self]
    have hold : ∀ c ∈ s.live.erase b, Memory.AgreeOn c.block.Holds h.mem s.heap.mem := by
      intro c hc
      obtain ⟨hc, happart, -⟩ := hs.mem_erase hb hc
      exact hothers _ (hs.placed c hc).block happart
    rw [wp_bind, wp_modify, wp_pure]
    refine ⟨⟨?_, ?_, fun c hc => ?_, ?_⟩, ?_, fun hnone => absurd hnone (Option.some_ne_none _), ?_⟩
    · exact fun B hB => hs.granted B (hblocks ▸ hB)
    · exact hblocks ▸ hs.apart
    · rcases (hiff c).mp hc with rfl | hc
      · exact hnew
      · have hcp := hs.placed c (List.mem_of_mem_erase hc)
        exact hcp.of_agree (hblocks ▸ hcp.block) (hold c hc)
    · refine hs.distinct_map hmove fun c hc hne heq => hne ?_
      rw [moveTo_self] at heq
      exact List.inj_on_of_nodup_map hs.distinct hc hb heq
    · exact hs.intact (fun c hc => ⟨List.mem_of_mem_erase hc, (hiff c).mpr (Or.inr hc)⟩) hold
    · intro p hp
      obtain rfl := Option.some.inj hp
      refine ⟨b.block, hbp.aligned, fun i hi => ?_, hiff, Or.inl ⟨rfl, rfl, hreleased⟩⟩
      exact hbytes _ ⟨Nat.le_add_right _ _, by omega⟩
  | @moved _ p B hlt hblocks hreleased hgranted hapart hothers hbytes hnew =>
    have hBne := hbp.ne_of_apart (hapart _ hbp.block)
    have herase : h.blocks = B :: s.heap.blocks.erase b.block := by
      rw [hblocks, List.erase_cons_tail (by rw [beq_iff_eq]; exact hBne)]
    have hpne : p ≠ b.ptr := by
      rintro rfl
      have hin : b.block.Holds b.ptr := hbp.holds_user ⟨Nat.le_refl _, by have := hbp.pos; omega⟩
      exact hapart _ hbp.block b.ptr
        (hnew.holds_user ⟨Nat.le_refl _, Nat.lt_add_of_pos_right hpos⟩) hin
    have hlast : h.lastBlock b.block = B := by
      unfold Heap.lastBlock
      rw [herase]
      rfl
    have hmove := hs.moveTo_of_ne hb h newSize p
    have hself : Live.moveTo h b.ptr newSize p b = ⟨p, newSize, b.alignment, B⟩ := by
      rw [moveTo_moved hpne, hlast]
    have hiff : ∀ c, c ∈ s.live.map (Live.moveTo h b.ptr newSize p) ↔
        c = ⟨p, newSize, b.alignment, B⟩ ∨ c ∈ s.live.erase b := fun c => by
      rw [hs.mem_map_iff hb hmove, hself]
    have hkept : ∀ c ∈ s.live.erase b, c ∈ s.live ∧ c.block ∈ h.blocks := by
      intro c hc
      obtain ⟨hc, -, hne⟩ := hs.mem_erase hb hc
      refine ⟨hc, ?_⟩
      rw [herase]
      exact List.mem_cons_of_mem _ ((List.mem_erase_of_ne hne).mpr (hs.placed c hc).block)
    have hold : ∀ c ∈ s.live.erase b, Memory.AgreeOn c.block.Holds h.mem s.heap.mem :=
      fun c hc => hothers _ (hs.placed c (hkept c hc).1).block (hkept c hc).2
    rw [wp_bind, wp_modify, wp_pure]
    refine ⟨⟨?_, ?_, fun c hc => ?_, ?_⟩, ?_, fun hnone => absurd hnone (Option.some_ne_none _), ?_⟩
    · dsimp only
      rw [herase]
      exact List.forall_mem_cons.mpr ⟨hgranted, fun C hC => hs.granted C (List.mem_of_mem_erase hC)⟩
    · dsimp only
      rw [herase]
      exact List.pairwise_cons.mpr ⟨fun C hC => hapart C (List.mem_of_mem_erase hC),
        hs.apart.sublist List.erase_sublist⟩
    · rcases (hiff c).mp hc with rfl | hc
      · exact hnew
      · exact (hs.placed c (hkept c hc).1).of_agree (hkept c hc).2 (hold c hc)
    · refine hs.distinct_map hmove fun c hc _ heq => ?_
      rw [hself] at heq
      exact (hs.placed c hc).ne_of_apart (hapart _ (hs.placed c hc).block) heq.symm
    · exact hs.intact (fun c hc => ⟨(hkept c hc).1, (hiff c).mpr (Or.inr hc)⟩) hold
    · intro q hq
      obtain rfl := Option.some.inj hq
      refine ⟨B, hnew.aligned, fun i hi => hbytes i (by omega), hiff, Or.inr ⟨hpne, ?_, ?_, hreleased⟩⟩
      · exact hnew.block
      · intro hB
        exact hnew.ne_of_apart (hapart B hB) rfl

theorem store_step {addr : Nat} (byte : UInt8) (hb : b ∈ s.live) (haddr : b.User addr) :
    wp (Cmd.exec (.store addr byte))
      (fun _ s' => Sound s'.heap s'.live ∧ s'.live = s.live ∧
        s'.heap.mem = s.heap.mem.storeByte addr byte) (fun _ _ => False) s := by
  unfold Cmd.exec
  rw [wp_bind, wp_modify, wp_pure]
  refine ⟨⟨hs.granted, hs.apart, fun c hc => ?_, hs.distinct⟩, rfl, rfl⟩
  have hcp := hs.placed c hc
  refine hcp.of_header hcp.block (Memory.storeByte_of_apart (fun hheader => ?_) byte)
  by_cases hcb : c = b
  · subst hcb
    exact hcp.not_user_of_header hheader haddr
  · exact hs.apart_of_ne hc hb hcb addr (hcp.holds_header hheader)
      ((hs.placed b hb).holds_user haddr)

/-- Every call keeps the heap sound and does what it should. -/
theorem exec_step (c : Cmd) (henabled : c.enabled s = true) (hlawful : c.Lawful s) :
    wp c.exec (fun r s' => Sound s'.heap s'.live ∧ c.Right s r s') (fun _ _ => False) s := by
  cases c with
  | alloc size alignment oracle =>
    obtain ⟨hsize, hall⟩ := Bool.and_eq_true_iff.mp henabled
    refine alloc_step hs hlawful (of_decide_eq_true hsize) fun hzero => ?_
    rw [hzero] at hall
    exact absurd hall (by decide)
  | realloc ptr newSize oracle =>
    obtain ⟨hsize, hany⟩ := Bool.and_eq_true_iff.mp henabled
    obtain ⟨b, hb, hptr⟩ := List.any_eq_true.mp hany
    obtain rfl := of_decide_eq_true hptr
    refine (realloc_step hs hlawful hb (of_decide_eq_true hsize)).imp ?_
    exact fun _ _ hpost => ⟨hpost.1, b, hb, rfl, hpost.2⟩
  | free ptr oracle =>
    obtain ⟨b, hb, hptr⟩ := List.any_eq_true.mp henabled
    obtain rfl := of_decide_eq_true hptr
    refine (free_step hs oracle hb).imp ?_
    exact fun _ _ hpost => ⟨hpost.1, b, hb, rfl, hpost.2⟩
  | store addr byte =>
    obtain ⟨b, hb, huser⟩ := List.any_eq_true.mp henabled
    exact store_step hs byte hb (of_decide_eq_true huser)

end

end Steps

section Runs

variable {s : HeapState}

theorem sound_boot (mem : Memory) : Sound (HeapState.boot mem).heap (HeapState.boot mem).live :=
  ⟨List.forall_mem_nil _, List.Pairwise.nil,
    List.forall_mem_nil _, List.nodup_nil⟩

theorem Sound.wellPlaced (hs : Sound s.heap s.live) : WellPlaced s := by
  constructor
  · exact hs.nodup
  · exact fun b hb => (hs.placed b hb).aligned
  · intro b hb
    have hbp := hs.placed b hb
    refine ⟨hbp.block, fun x hx => ?_⟩
    rcases hx with hx | hx
    · exact hbp.holds_user hx
    · exact hbp.holds_header hx
  · intro b hb c hc hne x hx hx'
    exact hs.apart_of_ne hb hc hne x ((hs.placed b hb).holds_user hx)
      ((hs.placed c hc).holds_user hx')
  · intro b hb c hc hne x hx hx'
    exact hs.apart_of_ne hb hc hne x ((hs.placed b hb).holds_header hx)
      ((hs.placed c hc).holds_header hx')
  · intro b hb c hc x hx hx'
    by_cases hbc : b = c
    · subst hbc
      exact (hs.placed b hb).not_user_of_header hx hx'
    · exact hs.apart_of_ne hb hc hbc x ((hs.placed b hb).holds_header hx)
        ((hs.placed c hc).holds_user hx')

/-- In every state that a run reaches, the live blocks are well placed and every call returns and
does what it should. -/
theorem heap_blocks_sound (mem : Memory)
    (hreach : heapMachine.Reach (fun c s => c.Lawful s) (HeapState.boot mem) s) :
    WellPlaced s ∧ ∀ c : Cmd, c.enabled s = true → c.Lawful s →
      ∃ r s', c.exec s = .ok r s' ∧ c.Right s r s' := by
  have hs : Sound s.heap s.live :=
    hreach.invariant (I := fun s => Sound s.heap s.live) (sound_boot mem)
      fun c s hs henabled hlawful => (exec_step hs c henabled hlawful).mono
        (fun _ _ hpost => hpost.1) fun _ _ he => he.elim
  refine ⟨hs.wellPlaced, fun c henabled hlawful => ?_⟩
  obtain ⟨r, s', hrun, -, hright⟩ := (exec_step hs c henabled hlawful).exists_ok
  exact ⟨r, s', hrun, hright⟩

/-- The first aligned address behind all blocks. -/
def top (blocks : List Block) : Nat :=
  blocks.foldr (fun B t => max t ((B.base + B.size + 7) / 8 * 8)) userMmapBase

theorem top_spec (blocks : List Block) : underlyingAlignment ∣ top blocks ∧
    userMmapBase ≤ top blocks ∧ ∀ B ∈ blocks, B.base + B.size ≤ top blocks := by
  induction blocks with
  | nil => exact ⟨by decide, Nat.le_refl _, List.forall_mem_nil _⟩
  | cons B blocks ih =>
    obtain ⟨hdvd, hle, hbehind⟩ := ih
    unfold underlyingAlignment at hdvd ⊢
    have htop : top (B :: blocks) = max (top blocks) ((B.base + B.size + 7) / 8 * 8) := rfl
    rw [htop]
    refine ⟨by omega, by omega, List.forall_mem_cons.mpr ⟨by omega, fun C hC => ?_⟩⟩
    have hC := hbehind C hC
    omega

/-- An allocator that answers with the address behind all blocks. -/
def bump (blocks : List Block) : Oracle where
  answer size := if top blocks + size ≤ userMmapEnd then some (top blocks) else none
  noise := fun _ => 0xAA

theorem bump_lawful (blocks : List Block) : (bump blocks).Lawful blocks := by
  intro size base hbase
  unfold bump at hbase
  dsimp only at hbase
  split_ifs at hbase with hroom
  cases hbase
  obtain ⟨hdvd, hle, hbehind⟩ := top_spec blocks
  refine ⟨hdvd, hle, hroom, fun B hB x hx hx' => ?_⟩
  have hB := hbehind B hB
  unfold Block.Holds at hx hx'
  dsimp only at hx
  omega

/-- A call of the program; the underlying allocator is the one above. -/
inductive Call where
  | alloc (size : Nat) (alignment : Option Nat)
  | realloc (ptr newSize : Nat)
  | free (ptr : Nat)
  | store (addr : Nat) (byte : UInt8)

def Call.cmd (s : HeapState) : Call → Cmd
  | .alloc size alignment => .alloc size alignment (bump s.heap.blocks)
  | .realloc ptr newSize => .realloc ptr newSize (bump s.heap.blocks)
  | .free ptr => .free ptr (bump s.heap.blocks)
  | .store addr byte => .store addr byte

theorem Call.lawful (c : Call) (s : HeapState) : (c.cmd s).Lawful s := by
  cases c with
  | alloc | realloc => exact bump_lawful _
  | free | store => trivial

/-- What a call returns. -/
def Cmd.result (c : Cmd) (s : HeapState) : Option (Option Nat) :=
  match c.exec s with
  | .ok r _ => some r
  | _ => none

/-- Two blocks and a third one. The first is written and grows, the second shrinks and the third
is freed. -/
def twoBlocks : List Call :=
  [.alloc 24 (some 64), .alloc 40 none, .store 0x60000040 7, .realloc 0x60000040 100,
    .realloc 0x60000078 8, .alloc 16 none, .free 0x60000168]

/-- The two blocks are where they should be, the byte has moved with its block, and from there a
block grows into a new place, a block shrinks where it is and a block is freed. -/
theorem heap_blocks_sound_of_two_blocks : ∃ s,
    heapMachine.Reach (fun c s => c.Lawful s) (HeapState.boot fun _ => 0) s ∧
    s.live.map (fun b => (b.ptr, b.size)) = [(0x60000078, 8), (0x600000c0, 100)] ∧
    s.heap.mem 0x600000c0 = 7 ∧ WellPlaced s ∧
    (∃ s', (Cmd.realloc 0x60000078 64 (bump s.heap.blocks)).exec s = .ok (some 0x60000168) s' ∧
      (Cmd.realloc 0x60000078 64 (bump s.heap.blocks)).Right s (some 0x60000168) s') ∧
    (∃ s', (Cmd.realloc 0x600000c0 10 (bump s.heap.blocks)).exec s = .ok (some 0x600000c0) s' ∧
      (Cmd.realloc 0x600000c0 10 (bump s.heap.blocks)).Right s (some 0x600000c0) s') ∧
    ∃ s', (Cmd.free 0x600000c0 (bump s.heap.blocks)).exec s = .ok none s' ∧
      (Cmd.free 0x600000c0 (bump s.heap.blocks)).Right s none s' := by
  obtain ⟨s, hs, hlive, hmem, hgrow, hgrown, hshrink, hshrunk, hfree, hfreed⟩ :=
    (heapMachine.choose Call.cmd).exists_reach (HeapState.boot fun _ => 0) twoBlocks
    (fun s => s.live.map (fun b => (b.ptr, b.size)) = [(0x60000078, 8), (0x600000c0, 100)] ∧
      s.heap.mem 0x600000c0 = 7 ∧
      ((Call.realloc 0x60000078 64).cmd s).enabled s = true ∧
      ((Call.realloc 0x60000078 64).cmd s).result s = some (some 0x60000168) ∧
      ((Call.realloc 0x600000c0 10).cmd s).enabled s = true ∧
      ((Call.realloc 0x600000c0 10).cmd s).result s = some (some 0x600000c0) ∧
      ((Call.free 0x600000c0).cmd s).enabled s = true ∧
      ((Call.free 0x600000c0).cmd s).result s = some none) (by decide +kernel)
  have hreach : heapMachine.Reach (fun c s => c.Lawful s) (HeapState.boot fun _ => 0) s :=
    hs.of_choose fun c s => c.lawful s
  obtain ⟨hplaced, hcalls⟩ := heap_blocks_sound (fun _ => 0) hreach
  have hcall : ∀ (c : Call) (r : Option Nat), (c.cmd s).enabled s = true →
      (c.cmd s).result s = some r → ∃ s', (c.cmd s).exec s = .ok r s' ∧ (c.cmd s).Right s r s' := by
    intro c r henabled hresult
    obtain ⟨r', s', hrun, hright⟩ := hcalls _ henabled (c.lawful s)
    rw [Cmd.result, hrun, Option.some.injEq] at hresult
    exact ⟨s', hresult ▸ hrun, hresult ▸ hright⟩
  exact ⟨s, hreach, hlive, hmem, hplaced, hcall (.realloc 0x60000078 64) _ hgrow hgrown,
    hcall (.realloc 0x600000c0 10) _ hshrink hshrunk, hcall (.free 0x600000c0) _ hfree hfreed⟩

end Runs
end Nanvix.Libc
