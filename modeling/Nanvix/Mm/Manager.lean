import Nanvix.Mm.Vmem

/-!
# The routines of the memory managers

Frame handles, mapping and unmapping of user pages, resolution of copy-on-write
pages and the sharing of a parent's pages with a child.

## Implementation notes

A handle that goes out of scope releases its frame; the model releases it at the
places where the source drops it, which includes every early return. A failed
release is only logged. Turning a frame number into an address and identity
mapping a frame do not fail for the frames of the bitmap, so neither appears.
The two walks over chunks of mappings run with fuel, one more than the number of
mappings to walk over; running out of it aborts.
-/
namespace Nanvix.Mm
open Config Library Library.Prog FrameAllocator

namespace MM

/-- Dropping a `UserFrame` or a `KernelFrame`. -/
def dropFrame (frame : Nat) : MM Unit := do
  let _ ← attempt (onFrames (free frame))

/-- The bytes after copying `size` bytes from `src` to `dst`. -/
def copyBytes (m : Nat → UInt8) (dst src size : Nat) : Nat → UInt8 := fun a =>
  if dst ≤ a ∧ a < dst + size then m (src + (a - dst)) else m a

/-- The bytes after filling `size` bytes from `base`. -/
def fillBytes (m : Nat → UInt8) (base : Nat) (value : UInt8) (size : Nat) : Nat → UInt8 := fun a =>
  if base ≤ a ∧ a < base + size then value else m a

def memcpy (dst src size : Nat) : MM Unit :=
  if size = 0 then pure ()
  else if usizeMax < dst + size then throw ⟨.badAddress, "memcpy(): destination range overflows"⟩
  else if usizeMax < src + size then throw ⟨.badAddress, "memcpy(): source range overflows"⟩
  else if (dst ≤ src ∧ src < dst + size) ∨ (src ≤ dst ∧ dst < src + size) then
    throw ⟨.badAddress, "memcpy(): source and destination ranges overlap"⟩
  else modify fun s => { s with memory := copyBytes s.memory dst src size }

def memset (base : Nat) (value : UInt8) (size : Nat) : MM Unit :=
  if size = 0 then pure ()
  else if usizeMax < base + size then throw ⟨.badAddress, "memset(): target range overflows"⟩
  else modify fun s => { s with memory := fillBytes s.memory base value size }

def checkUserWatermark (count : Nat) : MM Unit := do
  if usizeMax < kernelWatermark + count then
    throw ⟨.invalidArgument, "watermark + count overflow"⟩
  else if (← gets fun s => s.frames.freeCount) < kernelWatermark + count then
    throw ⟨.outOfMemory, "would breach kernel watermark"⟩
  else pure ()

def allocUserFrame : MM Nat := do
  checkUserWatermark 1
  onFrames alloc

/-- The loop of `alloc_many_user_frames`; on failure it releases what it has taken. -/
def allocUserFramesLoop : Nat → List Nat → MM (List Nat)
  | 0, frames => pure frames
  | n + 1, frames => do
      match ← attempt (onFrames alloc) with
      | .ok frame => allocUserFramesLoop n (frames ++ [frame])
      | .error e =>
        forEach dropFrame frames
        throw e

def allocManyUserFrames (count : Nat) (frames : List Nat) (capacity : Nat) : MM (List Nat) :=
  if frames ≠ [] then throw ⟨.invalidArgument, "frames vector is not empty"⟩
  else if capacity < count then
    throw ⟨.invalidArgument, "frames vector has insufficient capacity"⟩
  else if count = 0 then pure []
  else do
    checkUserWatermark count
    allocUserFramesLoop count []

def allocKernelFrame : MM Nat := onFrames alloc

/-- The page-table allocator that `link_user_pages` and `alloc_upages` pass to `map`. -/
def pageTableAllocator : MM PageTable := do
  let kframe ← allocKernelFrame
  match ← attempt (memset (kframe * pageSize) 0 pageSize) with
  | .ok _ => return .new kframe
  | .error e =>
    dropFrame kframe
    throw e

def vmemIsPresent (i : Nat) (t : PageTableAddress) : MM Bool :=
  onSpace i (gets fun vm => vm.pgdir.isPresent t)

def pgdirMap (i : Nat) (t : PageTableAddress) (frame : Nat) : MM Unit :=
  onSpace i do
    let pgdir ← ofExcept (← gets fun vm => vm.pgdir.map t frame)
    modify fun vm => { vm with pgdir := pgdir }

def pgdirUnmap (i : Nat) (t : PageTableAddress) : MM Unit :=
  onSpace i do
    let (_, pgdir) ← ofExcept (← gets fun vm => vm.pgdir.unmap t)
    modify fun vm => { vm with pgdir := pgdir }

/-- The page table that `map` needs is created when the directory has none. -/
def ensurePageTable (i : Nat) (t : PageTableAddress) : MM Unit := do
  if !(← vmemIsPresent i t) then
    let pt ← pageTableAllocator
    match ← attempt (pgdirMap i t pt.storage) with
    | .ok _ => onSpace i (Vmem.putPageTable t pt)
    | .error e =>
      dropFrame pt.storage
      throw e
  else pure ()

/-- The body of `Vmem::map`, up to the point where the frame belongs to the page table. -/
def mapUserFrame (i : Nat) (frame : Nat) (v : PageAligned) (access : AccessPermission) : MM Unit := do
  if !isUserAddr v.raw then throw ⟨.badAddress, "address is not in user space"⟩
  else do
    ensurePageTable i v.pgtab
    onSpace i (Vmem.mapPage frame v access)

/-- `Vmem::map`: on failure the handle of the frame is dropped. -/
def map (i : Nat) (frame : Nat) (v : PageAligned) (access : AccessPermission) : MM Unit := do
  match ← attempt (mapUserFrame i frame v access) with
  | .ok _ => pure ()
  | .error e =>
    dropFrame frame
    throw e

/-- The last part of `Vmem::unmap`, for a table without entries. The removed table
goes out of scope after the directory is updated. -/
def removePageTable (i : Nat) (t : PageTableAddress) (pt : PageTable) : MM Unit := do
  onSpace i (modify fun vm => { vm with userPageTables := vm.userPageTables.erase t })
  let result ← attempt (pgdirUnmap i t)
  dropFrame pt.storage
  ofExcept result

/-- `Vmem::unmap`: it returns the handle of the frame the page had. -/
def unmap (i : Nat) (v : PageAligned) : MM (Option Nat) := do
  if !isUserAddr v.raw then throw ⟨.badAddress, "address is not in user space"⟩
  else match ← onSpace i (gets fun vm => vm.tryFindUserFrame v) with
    | none => return none
    | some frame =>
      if !(← vmemIsPresent i v.pgtab) then throw ⟨.noSuchEntry, "page table not present"⟩
      else do
        let pt ← onSpace i (Vmem.lookupUserPageTable v.pgtab)
        if (← ofExcept (pt.lookup v)) ≠ frame then abort "frame address must match what we expect"
        else do
          let (_, pt') ← ofExcept (pt.unmap v)
          onSpace i (Vmem.putPageTable v.pgtab pt')
          if pt'.nmapped = 0 then
            removePageTable i v.pgtab pt'
            return some frame
          else return some frame

def tryUnmapUpage (i : Nat) (v : PageAligned) : MM Bool := do
  match ← unmap i v with
  | some frame =>
    dropFrame frame
    return true
  | none => return false

def uctrl (i : Nat) (v : PageAligned) (access : AccessPermission) : MM Unit :=
  onSpace i (Vmem.uctrl v access)

def findUserFrame (i : Nat) (v : PageAligned) : MM Nat := do
  ofExcept (← onSpace i (gets fun vm => vm.findUserFrame v))

/-- `Vmem::memset`: fill one page. -/
def memsetPage (i : Nat) (v : PageAligned) (value : UInt8) : MM Unit := do
  let frame ← findUserFrame i v
  memset (frame * pageSize) value pageSize

def resolveCowAt (i : Nat) (v : PageAligned) : MM Bool := do
  if !isUserAddr v.raw then return false
  else match ← onSpace i (gets fun vm => vm.tryFindUserPte v) with
    | none => return false
    | some pte =>
      if !pte.isCow then return false
      else if (← onFrames (owners pte.frame)) = 1 then
        onSpace i (Vmem.unmarkUserPageCow v)
        return true
      else do
        let newFrame ← allocUserFrame
        match ← attempt (do
            memcpy (newFrame * pageSize) (pte.frame * pageSize) pageSize
            onSpace i (Vmem.replaceUserPageCowFrame v newFrame)) with
        | .ok oldFrame =>
          dropFrame oldFrame
          return true
        | .error e =>
          dropFrame newFrame
          throw e

def resolveCowForRegion (i addr size : Nat) : MM Unit :=
  if size = 0 then pure ()
  else if usizeMax < addr + (size - 1) then
    throw ⟨.badAddress, "resolve_cow_for_region: overflow"⟩
  else
    let start := addr / pageSize
    let last := (addr + (size - 1)) / pageSize
    forEach (fun n => do let _ ← resolveCowAt i ⟨n⟩) (List.range' start (last - start + 1))

/-- The bits of a page-fault error code that the handler reads. -/
structure FaultCode where
  present : Bool
  write : Bool
  user : Bool
  deriving DecidableEq, Repr

def tryResolveCowFault (i faultAddr : Nat) (code : FaultCode) : MM Bool :=
  if !code.present || !code.write || !code.user then pure false
  else resolveCowAt i (.alignDown faultAddr)

/-- One entry of a chunk of the parent's mappings: page, frame, hardware write bit. -/
structure LinkEntry where
  page : PageAligned
  frame : Nat
  writable : Bool
  deriving DecidableEq, Repr

def linkOneUserPage (parent child : Nat) (e : LinkEntry) : MM Unit := do
  onFrames (share e.frame)
  map child e.frame e.page (if e.writable then .RDWR else .RDONLY)
  if e.writable then
    match ← attempt (onSpace parent (Vmem.markUserPageCow e.page)) with
    | .error err =>
      let _ ← attempt (tryUnmapUpage child e.page)
      throw err
    | .ok _ =>
      match ← attempt (onSpace child (Vmem.markUserPageCow e.page)) with
      | .error err =>
        let _ ← attempt (onSpace parent (Vmem.unmarkUserPageCow e.page))
        let _ ← attempt (tryUnmapUpage child e.page)
        throw err
      | .ok _ => pure ()
  else pure ()

/-- Undo the link of one page of the child. -/
def rollbackOnePage (parent child : Nat) (page : PageAligned × Bool) : MM Unit := do
  if page.2 then
    let _ ← attempt (onSpace parent (Vmem.unmarkUserPageCow page.1))
    let _ ← attempt (tryUnmapUpage child page.1)
  else
    let _ ← attempt (tryUnmapUpage child page.1)

def rollbackLoop (parent child : Nat) : Nat → MM Unit
  | 0 => abort "rollback_linked_pages does not terminate"
  | fuel + 1 => do
      let pages ← onSpace child (gets fun vm =>
        (vm.userMappings.take linkChunk).map fun m => (m.1, m.2.isCow))
      if pages.length = 0 then pure ()
      else do
        forEach (rollbackOnePage parent child) pages
        if pages.length < linkChunk then pure () else rollbackLoop parent child fuel

def rollbackLinkedPages (parent child : Nat) : MM Unit := do
  rollbackLoop parent child ((← onSpace child (gets fun vm => vm.userMappings.length)) + 1)

/-- The next chunk: mappings of the parent that the child does not have yet. -/
def linkSnapshot (parent child : Nat) : MM (List LinkEntry) := do
  let present ← onSpace child (gets fun vm => vm.tryFindUserPte)
  let mappings ← onSpace parent (gets fun vm => vm.userMappings)
  return ((mappings.filter fun m => (present m.1).isNone).take linkChunk).map fun m =>
    ⟨m.1, m.2.frame, m.2.isWritable⟩

def linkLoop (parent child : Nat) : Nat → MM Unit
  | 0 => abort "link_user_pages does not terminate"
  | fuel + 1 => do
      let chunk ← linkSnapshot parent child
      if chunk.length = 0 then pure ()
      else match ← attempt (forEach (linkOneUserPage parent child) chunk) with
        | .error e =>
          rollbackLinkedPages parent child
          throw e
        | .ok _ => if chunk.length < linkChunk then pure () else linkLoop parent child fuel

def linkUserPages (parent child : Nat) : MM Unit := do
  linkLoop parent child ((← onSpace parent (gets fun vm => vm.userMappings.length)) + 1)

/-- The check of `alloc_upages` that no page of the range is mapped. -/
def checkUnmapped (i : Nat) : Nat → PageAligned → MM Unit
  | 0, _ => pure ()
  | n + 1, v => do
      if ← ofExcept (← onSpace i (gets fun vm => vm.isUserPageMapped v)) then
        throw ⟨.resourceBusy, "page already mapped in range"⟩
      else if usizeMax < v.raw + pageSize then
        throw ⟨.badAddress, "address overflow in range check"⟩
      else checkUnmapped i n v.next

/-- The mapping loop of `alloc_upages`: how many pages it mapped, and the error that
stopped it. The frames it did not reach are released. -/
def mapFramesLoop (i : Nat) (access : AccessPermission) (clear : Bool) :
    List Nat → PageAligned → Nat → MM (Nat × Option Error)
  | [], _, mapped => pure (mapped, none)
  | frame :: frames, v, mapped => do
      match ← attempt (map i frame v access) with
      | .error e =>
        forEach dropFrame frames
        return (mapped, some e)
      | .ok _ =>
        match ← attempt (if clear then memsetPage i v 0 else pure ()) with
        | .error e =>
          forEach dropFrame frames
          return (mapped + 1, some e)
        | .ok _ => mapFramesLoop i access clear frames v.next (mapped + 1)

def rollbackRange (i : Nat) : Nat → PageAligned → MM Unit
  | 0, _ => pure ()
  | n + 1, v => do
      let _ ← attempt (tryUnmapUpage i v)
      rollbackRange i n v.next

def allocUpages (i : Nat) (v : PageAligned) (access : AccessPermission) (clear : Bool)
    (nframes : Nat) (uframes : List Nat) (capacity : Nat) : MM Unit :=
  if uframes ≠ [] then
    throw ⟨.invalidArgument, "caller-supplied uframes vector is not empty"⟩
  else if capacity < nframes then
    throw ⟨.invalidArgument, "caller-supplied uframes vector has insufficient capacity"⟩
  else if usizeMax < nframes * pageSize then throw ⟨.invalidArgument, "range size overflow"⟩
  else if !isUserRegion v.raw (nframes * pageSize) then
    throw ⟨.badAddress, "range is not entirely in user space"⟩
  else do
    checkUnmapped i nframes v
    let frames ← allocManyUserFrames nframes uframes capacity
    match ← mapFramesLoop i access clear frames v 0 with
    | (_, none) => pure ()
    | (mapped, some e) =>
      rollbackRange i mapped v
      throw e

/-- `new_vmem`: the number of a fresh address space. -/
def newVmem : MM Nat := do
  let pgdirFrame ← allocKernelFrame
  let i ← gets fun s => s.numSpaces
  modify fun s => { s with
    spaces := Function.update s.spaces i (some (Vmem.empty pgdirFrame))
    numSpaces := i + 1 }
  return i

end MM
end Nanvix.Mm
