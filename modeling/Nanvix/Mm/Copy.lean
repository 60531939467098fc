import Nanvix.Library.CopyLoop
import Nanvix.Mm.Commands

/-!
# Copies between user and kernel memory, and user accesses

The kernel copies to and from user memory through the physical addresses of the
frames, which no page protection stops. User code reads and writes through the
entries of its pages; a write that a read-only entry stops runs the copy-on-write
handler and is tried again.

## Implementation notes

Kernel addresses are physical addresses. The copies check a whole range in a dry
run before they copy, as the default build does. A range of kernel memory that
the kernel copies from or to lies in frames of the kernel.
-/
namespace Nanvix.Mm
open Config Library Library.Prog

def isKernelRegion (start size : Nat) : Bool :=
  if size = 0 then false
  else if usizeMax < start + (size - 1) then false
  else !isUserAddr start && !isUserAddr (start + (size - 1))

/-- How far an address lies behind the start of its page. -/
def pageOffset (addr : Nat) : Nat := addr - (PageAligned.alignDown addr).raw

section Offsets

theorem pageOffset_eq_mod (addr : Nat) : pageOffset addr = addr % pageSize := by
  unfold pageOffset PageAligned.alignDown PageAligned.raw pageSize
  dsimp only
  omega

theorem pageOffset_lt (addr : Nat) : pageOffset addr < pageSize := by
  rw [pageOffset_eq_mod]
  exact Nat.mod_lt _ (by decide)

theorem raw_add_pageOffset (addr : Nat) :
    (PageAligned.alignDown addr).raw + pageOffset addr = addr := by
  rw [pageOffset_eq_mod]
  exact Nat.div_add_mod' addr pageSize

theorem alignDown_raw_add (v : PageAligned) {o : Nat} (ho : o < pageSize) :
    PageAligned.alignDown (v.raw + o) = v := by
  have hdiv : (v.number * pageSize + o) / pageSize = v.number := by
    unfold pageSize at ho ⊢
    omega
  exact congrArg PageAligned.mk hdiv

theorem pageOffset_raw_add (v : PageAligned) {o : Nat} (ho : o < pageSize) :
    pageOffset (v.raw + o) = o := by
  rw [pageOffset, alignDown_raw_add v ho, Nat.add_sub_cancel_left]

end Offsets

/-- The byte that user code finds at an address. -/
def MemState.userByte (s : MemState) (i a : Nat) : Option UInt8 :=
  (s.pte i (.alignDown a)).map fun p => s.memory (p.frame * pageSize + pageOffset a)

namespace MM

def isPhysicalRegion (start size : Nat) : MM Bool := gets fun s =>
  decide (size ≠ 0 ∧ start + size ≤ usizeMax ∧ start + size ≤ s.frames.capacity * pageSize)

section ToUser

/-- One round of `copy_to_user_unaligned_unchecked`. -/
def copyToUserChunk (dryRun : Bool) (i dst src copySize : Nat) : MM Unit := do
  if !(← isPhysicalRegion src copySize) then
    if dryRun then
      throw ⟨.badAddress, "source memory region does not lie within physical memory"⟩
    else abort "source memory region does not lie within physical memory"
  else if dryRun then pure ()
  else match ← attempt (findUserFrame i (.alignDown dst)) with
    | .error _ => abort "failed to find user frame"
    | .ok frame =>
      if !(← isPhysicalRegion (frame * pageSize + pageOffset dst) copySize) then
        abort "destination memory region does not lie within physical memory"
      else match ← attempt (memcpy (frame * pageSize + pageOffset dst) src copySize) with
        | .error _ => abort "failed to perform physical memory copy"
        | .ok _ => pure ()

/-- A round copies to one page at most. -/
def toUserPiece (dst _src size : Nat) : Nat := min (pageSize - pageOffset dst) size

def copyToUserUnalignedUnchecked (i dst src size : Nat) (dryRun : Bool) : MM Unit :=
  if size = 0 then throw ⟨.invalidArgument, "zero-length copy"⟩
  else if !isKernelRegion src size then
    throw ⟨.badAddress, "source memory region does not lie entirely in kernel space"⟩
  else if !isUserRegion dst size then
    throw ⟨.badAddress, "destination memory region does not lie entirely in user space"⟩
  else do
    let _ ← (if dryRun then pure () else resolveCowForRegion i dst size : MM Unit)
    copyLoop toUserPiece (copyToUserChunk dryRun i) size dst src size

def copyToUserUnaligned (i dst src size : Nat) : MM Unit := do
  copyToUserUnalignedUnchecked i dst src size true
  copyToUserUnalignedUnchecked i dst src size false

end ToUser

section FromUser

/-- One round of `copy_from_user_unaligned`. -/
def copyFromUserChunk (dryRun : Bool) (i dst src copySize : Nat) : MM Unit := do
  let frame ← findUserFrame i (.alignDown src)
  if dryRun then pure ()
  else memcpy dst (frame * pageSize + pageOffset src) copySize

/-- A round copies from one page at most. -/
def fromUserPiece (_dst src size : Nat) : Nat := min size (pageSize - pageOffset src)

def copyFromUserUnaligned (i dst src size : Nat) : MM Unit :=
  if size = 0 then throw ⟨.invalidArgument, "zero-length copy"⟩
  else if !isUserRegion src size then
    throw ⟨.badAddress, "source memory region does not lie entirely in user space"⟩
  else if !isKernelRegion dst size then
    throw ⟨.badAddress, "destination region does not lie entirely in kernel space"⟩
  else do
    copyLoop fromUserPiece (copyFromUserChunk true i) size dst src size
    copyLoop fromUserPiece (copyFromUserChunk false i) size dst src size

end FromUser

section UserToUser

/-- One round of `copy_user_to_user`. -/
def copyUserToUserChunk (dryRun : Bool) (i j dst src copySize : Nat) : MM Unit := do
  let srcFrame ← findUserFrame i (.alignDown src)
  let dstFrame ← findUserFrame j (.alignDown dst)
  if dryRun then pure ()
  else memcpy (dstFrame * pageSize + pageOffset dst) (srcFrame * pageSize + pageOffset src) copySize

/-- A round stays in one page on either side. -/
def userToUserPiece (dst src size : Nat) : Nat :=
  min (min size (pageSize - pageOffset src)) (pageSize - pageOffset dst)

def copyUserToUser (i src j dst size : Nat) : MM Unit :=
  if size = 0 then throw ⟨.invalidArgument, "zero-length copy"⟩
  else if !isUserRegion src size then
    throw ⟨.badAddress, "source memory region does not lie entirely in user space"⟩
  else if !isUserRegion dst size then
    throw ⟨.badAddress, "destination memory region does not lie entirely in user space"⟩
  else do
    copyLoop userToUserPiece (copyUserToUserChunk true i j) size dst src size
    copyLoop userToUserPiece (copyUserToUserChunk false i j) size dst src size

/-- `ProcessManager::vmcopy_user_to_user`, for the spaces of two processes that exist. -/
def vmcopyUserToUser (i src j dst size : Nat) : MM Unit := do
  let _ ← (if 0 < size then resolveCowForRegion j dst size else pure () : MM Unit)
  copyUserToUser i src j dst size

end UserToUser

section UserAccess

/-- The entry through which user code accesses an address. -/
def accessPte (i addr : Nat) : MM (Option PageTableEntry) := gets fun s =>
  (s.pte i (.alignDown addr)).filter fun p => decide (p.flags.userSupervisor = .user)

def userRead (i addr : Nat) : MM UInt8 := do
  match ← accessPte i addr with
  | none => throw ⟨.badAddress, "page fault"⟩
  | some p => gets fun s => s.memory (p.frame * pageSize + pageOffset addr)

/-- A write that the entry lets pass; otherwise the fault it raises. -/
def storeByte (i addr : Nat) (b : UInt8) : MM (Option FaultCode) := do
  match ← accessPte i addr with
  | none => return some ⟨false, true, true⟩
  | some p =>
    if p.isWritable then
      modify fun s => { s with
        memory := Function.update s.memory (p.frame * pageSize + pageOffset addr) b }
      return none
    else return some ⟨true, true, true⟩

/-- A write of user code, tried again once the fault handler has resolved its fault. -/
def userWrite (i addr : Nat) (b : UInt8) : MM Unit := do
  match ← storeByte i addr b with
  | none => pure ()
  | some code =>
    if ← tryResolveCowFault i addr code then
      match ← storeByte i addr b with
      | none => pure ()
      | some _ => throw ⟨.badAddress, "page fault"⟩
    else throw ⟨.badAddress, "page fault"⟩

end UserAccess

end MM

inductive CopyCmd where
  | newVmem
  | fork (parent child : Nat)
  | unmap (space : Nat) (vaddr : PageAligned)
  | userRead (space addr : Nat)
  | userWrite (space addr : Nat) (value : UInt8)
  | copyToUser (space dst src size : Nat)
  | copyFromUser (space dst src size : Nat)
  | vmcopy (srcSpace src dstSpace dst size : Nat)
  deriving DecidableEq

/-- A range of addresses that lies in frames of the kernel. -/
def kernelBuffer (kernelFrames : List Nat) (addr size : Nat) : Bool :=
  size == 0 || (MM.regionPages addr size).all fun n => kernelFrames.contains n

namespace CopyCmd

def enabled (kernelFrames : List Nat) : CopyCmd → MemState → Bool
  | newVmem, _ => true
  | fork parent child, s => memMachine.enabled (.linkUserPages parent child) s
  | unmap i _, s => (s.spaces i).isSome
  | userRead i _, s => (s.spaces i).isSome
  | userWrite i _ _, s => (s.spaces i).isSome
  | copyToUser i _ src size, s => (s.spaces i).isSome && kernelBuffer kernelFrames src size
  | copyFromUser i dst _ size, s => (s.spaces i).isSome && kernelBuffer kernelFrames dst size
  | vmcopy i _ j _ _, s => (s.spaces i).isSome && (s.spaces j).isSome

/-- A read returns the bytes read; those of a copy to the kernel are in the kernel's buffer. -/
def exec : CopyCmd → MM (List UInt8)
  | newVmem => do
      let _ ← MM.newVmem
      return []
  | fork parent child => do
      MM.linkUserPages parent child
      return []
  | unmap i v => do
      let _ ← MM.tryUnmapUpage i v
      return []
  | userRead i addr => do return [← MM.userRead i addr]
  | userWrite i addr b => do
      MM.userWrite i addr b
      return []
  | copyToUser i dst src size => do
      MM.copyToUserUnaligned i dst src size
      return []
  | copyFromUser i dst src size => do
      MM.copyFromUserUnaligned i dst src size
      gets fun s => (List.range size).map fun k => s.memory (dst + k)
  | vmcopy i src j dst size => do
      MM.vmcopyUserToUser i src j dst size
      return []

end CopyCmd

/-- The machine of copies and user accesses, with the frames of the kernel's buffers. -/
def copyMachine (kernelFrames : List Nat) : Machine MemState Error CopyCmd (List UInt8) :=
  ⟨CopyCmd.enabled kernelFrames, CopyCmd.exec⟩

end Nanvix.Mm
