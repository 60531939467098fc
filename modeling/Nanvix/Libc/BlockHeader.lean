import Nanvix.Base
import Nanvix.Library.ByteMemory
import Nanvix.Library.Outcome

/-!
# The heap of the C library

`BlockHeader` puts a header of four words before every block it hands out. It
asks the underlying allocator for room for the header, for the padding that the
alignment may need and for the block, and aligns the user pointer upwards behind
the header. `realloc` and `free` find the header by going back from the user
pointer. `free` checks the header before it returns the block to the underlying
allocator.

## Implementation notes

The memory is a memory of bytes, and a header is read from it and written to it
word by word. The underlying allocator is outside: a call carries its answer and
what it leaves in the memory that it has not handed out. Returning a block to it
that it has not handed out aborts, and so does a debug assertion.
-/
namespace Nanvix.Libc

open Library Library.Prog Memory

section Constants

/-- `UNDERLYING_ALIGNMENT`. -/
def underlyingAlignment : Nat := 8

/-- `BLOCK_HEADER_ALIGNMENT`. -/
def blockHeaderAlignment : Nat := 4

/-- `BLOCK_HEADER_SIZE`. -/
def blockHeaderSize : Nat := 16

/-- `MAX_ALIGNMENT`. -/
def maxAlignment : Nat := 4096

/-- `USER_MMAP_BASE_RAW`. -/
def userMmapBase : Nat := 0x60000000

/-- `USER_MMAP_END_RAW`. -/
def userMmapEnd : Nat := 0xd0000000

/-- Largest value of `isize`. -/
def isizeMax : Nat := 2 ^ 31 - 1

end Constants

section Model

/-- A block of the underlying allocator, with the alignment it was asked for. -/
structure Block where
  base : Nat
  size : Nat
  align : Nat
deriving DecidableEq

/-- The address lies in the block. -/
def Block.Holds (B : Block) (x : Nat) : Prop := B.base ≤ x ∧ x < B.base + B.size

instance (B : Block) (x : Nat) : Decidable (B.Holds x) := inferInstanceAs (Decidable (_ ∧ _))

/-- The memory, the blocks that the underlying allocator has handed out, and what was returned to
it, last first. -/
structure Heap where
  mem : Memory
  blocks : List Block := []
  released : List Block := []

/-- What the underlying allocator does in a call: the address it answers to a request for a
number of bytes, and what it leaves in memory that is not handed out. -/
structure Oracle where
  answer : Nat → Option Nat
  noise : Memory

/-- The memory after the underlying allocator has worked on what is not handed out. -/
def Heap.scribble (h : Heap) (noise : Memory) : Memory := fun x =>
  if ∃ B ∈ h.blocks, B.Holds x then h.mem x else noise x

/-- `alloc` of the underlying allocator. -/
def underlyingAlloc (oracle : Oracle) (size align : Nat) : Prog Heap Unit (Option Nat) := do
  modify fun h => { h with mem := h.scribble oracle.noise }
  match oracle.answer size with
  | none => pure none
  | some base =>
    modify fun h => { h with blocks := ⟨base, size, align⟩ :: h.blocks }
    pure (some base)

/-- `dealloc` of the underlying allocator. -/
def underlyingDealloc (oracle : Oracle) (B : Block) : Prog Heap Unit Unit := do
  let h ← gets id
  if B ∈ h.blocks then do
    modify fun h => { h with blocks := h.blocks.erase B, released := B :: h.released }
    modify fun h => { h with mem := h.scribble oracle.noise }
  else abort "the block was not handed out"

/-- The header of a block. -/
structure BlockHeader where
  base : Nat
  allocSize : Nat
  requestedAllocSize : Nat
  alignment : Nat
deriving DecidableEq

/-- The header at an address. -/
def readHeader (m : Memory) (p : Nat) : BlockHeader :=
  ⟨m.loadWord p, m.loadWord (p + 4), m.loadWord (p + 8), m.loadWord (p + 12)⟩

/-- Write a header to an address. -/
def writeHeader (m : Memory) (p : Nat) (header : BlockHeader) : Memory :=
  (((m.storeWord p header.base).storeWord (p + 4) header.allocSize).storeWord (p + 8)
    header.requestedAllocSize).storeWord (p + 12) header.alignment

/-- `BlockHeader::get_mut_ptr`. -/
def getMutPtr (userPtr : Nat) : Nat :=
  (userPtr - blockHeaderSize) / blockHeaderAlignment * blockHeaderAlignment

/-- The user pointer that `BlockHeader::write` computes. -/
def userPtrOf (base alignment : Nat) : Nat :=
  let unaligned := base + blockHeaderSize
  let rem := unaligned % alignment
  if rem = 0 then unaligned else unaligned + (alignment - rem)

/-- `BlockHeader::write`. -/
def BlockHeader.write (header : BlockHeader) : Prog Heap Unit Nat := do
  let userPtr := userPtrOf header.base header.alignment
  modify fun h => { h with mem := writeHeader h.mem (getMutPtr userPtr) header }
  pure userPtr

def isPowerOfTwo (n : Nat) : Bool := n == 2 ^ n.log2

def checkedAdd (a b : Nat) : Option Nat :=
  if a + b ≤ Config.usizeMax then some (a + b) else none

/-- The size that is asked for: the header, the block and the padding, rounded up. -/
def allocSizeOf (size alignment : Nat) : Option Nat := do
  let allocSize ← checkedAdd size blockHeaderSize
  let allocSize ← checkedAdd allocSize (alignment - 1)
  let rounded ← checkedAdd allocSize (underlyingAlignment - 1)
  pure (rounded / underlyingAlignment * underlyingAlignment)

/-- `Layout::from_size_align` with the alignment of the underlying allocator. -/
def layoutFits (size : Nat) : Bool := size + (underlyingAlignment - 1) ≤ isizeMax

/-- `BlockHeader::alloc`. A null pointer is `none`. -/
def alloc (oracle : Oracle) (size : Nat) (alignment : Option Nat) :
    Prog Heap Unit (Option Nat) := do
  if size = 0 then abort "alloc(): zero-size allocation"
  else if alignment = some 0 then abort "alloc(): zero-size alignment"
  else
    let alignment := alignment.getD 1
    if !isPowerOfTwo alignment || maxAlignment < alignment then pure none
    else
      match allocSizeOf size alignment with
      | none => pure none
      | some allocSize =>
        if !layoutFits allocSize then pure none
        else do
          match ← underlyingAlloc oracle allocSize underlyingAlignment with
          | none => pure none
          | some base =>
            let userPtr ← BlockHeader.write ⟨base, allocSize, size, alignment⟩
            pure (some userPtr)

/-- The checks of `BlockHeader::free`. -/
def BlockHeader.isValid (header : BlockHeader) (userPtr : Nat) : Bool :=
  let validAlignment := 0 < header.alignment && isPowerOfTwo header.alignment &&
    header.alignment ≤ maxAlignment
  let validAllocSize := (checkedAdd header.requestedAllocSize blockHeaderSize).any
    fun minSize => minSize ≤ header.allocSize
  let validBase := userMmapBase ≤ header.base && header.base < userMmapEnd
  let validUserPtr := (checkedAdd header.base header.allocSize).any fun blockEnd =>
    header.base ≤ userPtr && userPtr < blockEnd && blockEnd ≤ userMmapEnd
  let validUnderlyingAlignment := header.base % underlyingAlignment == 0 &&
    header.allocSize % underlyingAlignment == 0
  validAlignment && validAllocSize && validBase && validUserPtr && validUnderlyingAlignment

/-- `BlockHeader::free`. -/
def free (oracle : Oracle) (userPtr : Nat) : Prog Heap Unit Unit := do
  if userPtr = 0 then abort "free(): null user pointer"
  else do
    let header ← gets fun h => readHeader h.mem (getMutPtr userPtr)
    if !header.isValid userPtr then throw ()
    else if !layoutFits header.allocSize then throw ()
    else underlyingDealloc oracle ⟨header.base, header.allocSize, underlyingAlignment⟩

/-- `BlockHeader::realloc`. A block that cannot be freed is leaked. -/
def realloc (oracle : Oracle) (userPtr newSize : Nat) : Prog Heap Unit (Option Nat) := do
  if userPtr = 0 then abort "realloc(): null user pointer"
  else if newSize = 0 then abort "realloc(): zero-size reallocation"
  else do
    let headerPtr := getMutPtr userPtr
    let header ← gets fun h => readHeader h.mem headerPtr
    let oldSize := header.requestedAllocSize
    if newSize ≤ oldSize then do
      modify fun h => { h with mem := h.mem.storeWord (headerPtr + 8) newSize }
      pure (some userPtr)
    else do
      match ← alloc oracle newSize (some header.alignment) with
      | none => pure none
      | some newPtr =>
        modify fun h => { h with mem := h.mem.copy userPtr newPtr oldSize }
        let _ ← attempt (free oracle userPtr)
        pure (some newPtr)

end Model

section Arithmetic

variable {base alignment size n p : Nat} {m m' : Memory} {header : BlockHeader}

theorem exists_pow_of_isPowerOfTwo (h : isPowerOfTwo n) : ∃ k, n = 2 ^ k := ⟨_, eq_of_beq h⟩

theorem pos_of_isPowerOfTwo (h : isPowerOfTwo n) : 0 < n := by
  obtain ⟨k, rfl⟩ := exists_pow_of_isPowerOfTwo h
  exact Nat.two_pow_pos k

/-- The user pointer lies behind the header, within the padding. -/
theorem userPtrOf_bounds (base : Nat) (halignment : 0 < alignment) :
    base + blockHeaderSize ≤ userPtrOf base alignment ∧
      userPtrOf base alignment ≤ base + blockHeaderSize + (alignment - 1) := by
  have hmod := Nat.mod_lt (base + blockHeaderSize) halignment
  unfold userPtrOf
  dsimp only
  split_ifs with hrem
  · omega
  · omega

/-- The user pointer is aligned. -/
theorem dvd_userPtrOf (halignment : 0 < alignment) : alignment ∣ userPtrOf base alignment := by
  have hmod := Nat.mod_lt (base + blockHeaderSize) halignment
  unfold userPtrOf
  dsimp only
  split_ifs with hrem
  · exact Nat.dvd_of_mod_eq_zero hrem
  · have hsplit := Nat.div_add_mod (base + blockHeaderSize) alignment
    refine ⟨(base + blockHeaderSize) / alignment + 1, ?_⟩
    rw [Nat.mul_add, Nat.mul_one]
    omega

/-- The user pointer is aligned for the words of the header, also when the block asks for less. -/
theorem word_dvd_userPtrOf (hbase : underlyingAlignment ∣ base) (hpow : isPowerOfTwo alignment) :
    blockHeaderAlignment ∣ userPtrOf base alignment := by
  obtain ⟨k, rfl⟩ := exists_pow_of_isPowerOfTwo hpow
  by_cases hk : 2 ≤ k
  · have hfour : blockHeaderAlignment ∣ 2 ^ k := Nat.pow_dvd_pow 2 hk
    exact Nat.dvd_trans hfour (dvd_userPtrOf (Nat.two_pow_pos k))
  · -- Alignments of one and two divide the address behind the header.
    have height : 2 ^ k ∣ underlyingAlignment := by
      have hk' : k ≤ 3 := by omega
      exact Nat.pow_dvd_pow 2 hk'
    have hrem : (base + blockHeaderSize) % 2 ^ k = 0 := by
      apply Nat.mod_eq_zero_of_dvd
      exact Nat.dvd_add (Nat.dvd_trans height hbase) (Nat.dvd_trans height (by decide))
    unfold userPtrOf
    dsimp only
    rw [if_pos hrem]
    exact Nat.dvd_add (Nat.dvd_trans (by decide) hbase) (by decide)

/-- Going back from the user pointer meets the header. -/
theorem getMutPtr_eq (hword : blockHeaderAlignment ∣ p) : getMutPtr p = p - blockHeaderSize :=
  Nat.div_mul_cancel (Nat.dvd_sub hword (by decide))

theorem checkedAdd_eq_some {a b c : Nat} (h : checkedAdd a b = some c) :
    c = a + b ∧ a + b ≤ Config.usizeMax := by
  unfold checkedAdd at h
  split_ifs at h with hle
  exact ⟨(Option.some.inj h).symm, hle⟩

/-- What is asked for has room for the header, the padding and the block. -/
theorem allocSizeOf_spec (h : allocSizeOf size alignment = some n) :
    size + blockHeaderSize + (alignment - 1) ≤ n ∧ underlyingAlignment ∣ n ∧
      n ≤ Config.usizeMax := by
  unfold allocSizeOf at h
  obtain ⟨a, ha, h⟩ := Option.bind_eq_some_iff.mp h
  obtain ⟨b, hb, h⟩ := Option.bind_eq_some_iff.mp h
  obtain ⟨c, hc, h⟩ := Option.bind_eq_some_iff.mp h
  obtain ⟨rfl, -⟩ := checkedAdd_eq_some ha
  obtain ⟨rfl, -⟩ := checkedAdd_eq_some hb
  obtain ⟨rfl, hmax⟩ := checkedAdd_eq_some hc
  obtain rfl := Option.some.inj h
  refine ⟨?_, Nat.dvd_mul_left _ _, ?_⟩
  · unfold underlyingAlignment
    omega
  · exact Nat.le_trans (Nat.div_mul_le_self _ _) hmax

/-- A header is read from its sixteen bytes. -/
theorem readHeader_congr (h : AgreeOn (fun x => p ≤ x ∧ x < p + blockHeaderSize) m m') :
    readHeader m p = readHeader m' p := by
  have hword : ∀ i, i + 4 ≤ blockHeaderSize → m.loadWord (p + i) = m'.loadWord (p + i) :=
    fun i hi => loadWord_congr (h.mono fun x hx => by omega)
  have h0 := hword 0 (by decide)
  rw [Nat.add_zero] at h0
  unfold readHeader
  rw [h0, hword 4 (by decide), hword 8 (by decide), hword 12 (by decide)]

/-- A header takes its sixteen bytes only. -/
theorem writeHeader_of_apart {S : Nat → Prop} (h : ∀ x, S x → x < p ∨ p + blockHeaderSize ≤ x) :
    AgreeOn S (writeHeader m p header) m := by
  have hapart : ∀ i, i + 4 ≤ blockHeaderSize → ∀ x, S x → x < p + i ∨ p + i + 4 ≤ x := by
    intro i hi x hx
    have := h x hx
    omega
  unfold writeHeader
  refine (storeWord_of_apart (hapart 12 (by decide))).trans ?_
  refine (storeWord_of_apart (hapart 8 (by decide))).trans ?_
  refine (storeWord_of_apart (hapart 4 (by decide))).trans ?_
  exact storeWord_of_apart (hapart 0 (by decide))

/-- The fields of a header are words. -/
structure BlockHeader.Fits (header : BlockHeader) : Prop where
  base : header.base < 2 ^ 32
  allocSize : header.allocSize < 2 ^ 32
  requestedAllocSize : header.requestedAllocSize < 2 ^ 32
  alignment : header.alignment < 2 ^ 32

/-- A header is read as it was written. -/
theorem readHeader_writeHeader (h : header.Fits) :
    readHeader (writeHeader m p header) p = header := by
  unfold readHeader writeHeader
  congr 1
  · rw [loadWord_storeWord_of_apart (by omega),
      loadWord_storeWord_of_apart (by omega),
      loadWord_storeWord_of_apart (by omega), loadWord_storeWord h.base]
  · rw [loadWord_storeWord_of_apart (by omega),
      loadWord_storeWord_of_apart (by omega), loadWord_storeWord h.allocSize]
  · rw [loadWord_storeWord_of_apart (by omega),
      loadWord_storeWord h.requestedAllocSize]
  · rw [loadWord_storeWord h.alignment]

end Arithmetic
end Nanvix.Libc
