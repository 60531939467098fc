import Mathlib.Data.List.AList
import Nanvix.Library.Outcome
import Nanvix.Mm.Frame
import Nanvix.Mm.PageTable

/-!
# Address spaces and the memory state

An address space is a page directory and the list of its user page tables. The
memory state holds the frame allocator, the bytes of physical memory and every
address space, under the name by which the kernel refers to it.

## Implementation notes

A user page table found by a lookup moves to the front of the list, which is
what inserting an existing key into an association list does. A new table is
pushed for a region without an entry in the directory; that the list then has no
table for it is `WellFormed.lookup_eq_none`, not a matter of its type. The kernel page
tables are shared by all address spaces and map no user page; they are left out.
A reference to an address space is its number, and a dropped space has none.
-/
namespace Nanvix.Mm
open Config Library Library.Prog

/-- A page directory: the frame that stores it, and the frame of the page table
of each region that has one. -/
structure PageDirectory where
  storage : Nat
  entries : PageTableAddress → Option Nat

namespace PageDirectory

def isPresent (d : PageDirectory) (t : PageTableAddress) : Bool := (d.entries t).isSome

def map (d : PageDirectory) (t : PageTableAddress) (frame : Nat) : Except Error PageDirectory :=
  if d.isPresent t then .error ⟨.resourceBusy, "page directory entry is busy"⟩
  else .ok { d with entries := Function.update d.entries t (some frame) }

def unmap (d : PageDirectory) (t : PageTableAddress) : Except Error (Nat × PageDirectory) :=
  match d.entries t with
  | none => .error ⟨.resourceBusy, "page directory entry is not present"⟩
  | some frame => .ok (frame, { d with entries := Function.update d.entries t none })

end PageDirectory

structure Vmem where
  pgdir : PageDirectory
  userPageTables : AList fun _ : PageTableAddress => PageTable

namespace Vmem

/-- The address space of `Vmem::clone`: a clean directory and no user page. -/
def empty (pgdirFrame : Nat) : Vmem := ⟨⟨pgdirFrame, fun _ => none⟩, ∅⟩

def putPageTable (t : PageTableAddress) (pt : PageTable) : Prog Vmem Error Unit :=
  modify fun vm => { vm with userPageTables := vm.userPageTables.insert t pt }

def lookupUserPageTable (t : PageTableAddress) : Prog Vmem Error PageTable := do
  match ← gets fun vm => vm.userPageTables.lookup t with
  | some pt =>
    putPageTable t pt
    return pt
  | none => throw ⟨.noSuchEntry, "page table not found"⟩

def findUserFrame (vm : Vmem) (v : PageAligned) : Except Error Nat :=
  match vm.userPageTables.lookup v.pgtab with
  | some pt => pt.lookup v
  | none => .error ⟨.noSuchEntry, "page not found"⟩

def tryFindUserPte (vm : Vmem) (v : PageAligned) : Option PageTableEntry :=
  match vm.userPageTables.lookup v.pgtab with
  | some pt => pt.readPteAt v
  | none => none

def tryFindUserFrame (vm : Vmem) (v : PageAligned) : Option Nat :=
  (vm.tryFindUserPte v).map (·.frame)

def isUserPageMapped (vm : Vmem) (v : PageAligned) : Except Error Bool :=
  if !isUserAddr v.raw then .error ⟨.badAddress, "address is not in user space"⟩
  else .ok (vm.tryFindUserFrame v).isSome

/-- The user mappings in the order `for_each_user_mapping` visits them. -/
def userMappings (vm : Vmem) : List (PageAligned × PageTableEntry) :=
  vm.userPageTables.entries.flatMap fun e =>
    e.2.iterPresentPtes.map fun ip => (e.1.page ip.1, ip.2)

/-- The common part of the routines that look a user page up and rewrite its entry. -/
def withUserPage {α : Type} (v : PageAligned) (f : PageTable → Except Error (α × PageTable)) :
    Prog Vmem Error α := do
  if !isUserAddr v.raw then throw ⟨.badAddress, "address is not in user space"⟩
  else do
    let pt ← lookupUserPageTable v.pgtab
    let (a, pt') ← ofExcept (f pt)
    putPageTable v.pgtab pt'
    return a

/-- The last part of `Vmem::map`: the entry is written into the table of the page. -/
def mapPage (frame : Nat) (v : PageAligned) (access : AccessPermission) : Prog Vmem Error Unit := do
  let pt ← lookupUserPageTable v.pgtab
  let pt' ← ofExcept (pt.map v frame false false true access)
  putPageTable v.pgtab pt'

def markUserPageCow (v : PageAligned) : Prog Vmem Error Unit :=
  withUserPage v (·.markCow v)

def unmarkUserPageCow (v : PageAligned) : Prog Vmem Error Unit :=
  withUserPage v (·.unmarkCow v)

def replaceUserPageCowFrame (v : PageAligned) (newFrame : Nat) : Prog Vmem Error Nat :=
  withUserPage v (·.replaceCowFrame v newFrame)

def uctrl (v : PageAligned) (access : AccessPermission) : Prog Vmem Error Unit := do
  if !isUserAddr v.raw then throw ⟨.badAddress, "address is not in user space"⟩
  else if !(← gets fun vm => vm.pgdir.isPresent v.pgtab) then
    throw ⟨.noSuchEntry, "page table not present"⟩
  else withUserPage v (·.ctrl false v access)

end Vmem

/-- The memory of the machine. -/
structure MemState where
  frames : FrameAllocator
  memory : Nat → UInt8
  spaces : Nat → Option Vmem
  numSpaces : Nat

/-- A memory-management routine. -/
abbrev MM := Prog MemState Error

namespace MM

def onFrames {α : Type} (x : Prog FrameAllocator Error α) : MM α :=
  focus (fun s => some s.frames) (fun a s => { s with frames := a }) x

def onSpace {α : Type} (i : Nat) (x : Prog Vmem Error α) : MM α :=
  focus (fun s => s.spaces i) (fun vm s => { s with spaces := Function.update s.spaces i vm }) x

end MM
end Nanvix.Mm
