import Nanvix.Mm.Copy
import Nanvix.Mm.ForkRights

/-!
# Forks that copy

What copy-on-write is for: every address space has memory of its own, and a fork
gives the child a copy of every page of the parent, with the same rights. A space
is a set of pages, some of them writable, and the bytes at its addresses; there
are no frames, no marks and no faults to resolve.

## Implementation notes

The copies cut their ranges into the same pieces as those of the kernel, because
an overlap of the two ranges is only noticed within a piece. The bytes of a page
that is not there mean nothing.
-/
namespace Nanvix.Mm
open Config Library Library.Prog

structure EagerState where
  numSpaces : Nat
  live : Nat → Bool
  /-- The pages of a space, with the right of user code to write them. -/
  pages : Nat → PageAligned → Option Bool
  bytes : Nat → Nat → UInt8
  /-- The memory of the kernel. -/
  kernel : Nat → UInt8

namespace EagerState

/-- The child gets a copy of every page of the parent. -/
def fork (a : EagerState) (parent child : Nat) : EagerState :=
  { a with
    pages := Function.update a.pages child (a.pages parent)
    bytes := Function.update a.bytes child (a.bytes parent) }

def dropPage (a : EagerState) (i : Nat) (v : PageAligned) : EagerState :=
  { a with pages := Function.update a.pages i (Function.update (a.pages i) v none) }

variable (a : EagerState) {i j parent child : Nat} {v w : PageAligned}

@[simp] theorem fork_pages_child : (a.fork parent child).pages child = a.pages parent :=
  Function.update_self ..

theorem fork_pages_of_ne (h : j ≠ child) : (a.fork parent child).pages j = a.pages j :=
  Function.update_of_ne h ..

@[simp] theorem fork_bytes_child : (a.fork parent child).bytes child = a.bytes parent :=
  Function.update_self ..

theorem fork_bytes_of_ne (h : j ≠ child) : (a.fork parent child).bytes j = a.bytes j :=
  Function.update_of_ne h ..

@[simp] theorem dropPage_pages_self : (a.dropPage i v).pages i v = none := by
  unfold dropPage
  dsimp only
  rw [Function.update_self, Function.update_self]

theorem dropPage_pages_of_ne (h : ¬(j = i ∧ w = v)) : (a.dropPage i v).pages j w = a.pages j w := by
  unfold dropPage
  dsimp only
  rcases eq_or_ne j i with rfl | hj
  · rw [Function.update_self, Function.update_of_ne fun hw => h ⟨rfl, hw⟩]
  · rw [Function.update_of_ne hj]

theorem dropPage_eq_self (h : a.pages i v = none) : a.dropPage i v = a := by
  unfold dropPage
  rw [← h, Function.update_eq_self, Function.update_eq_self]

end EagerState

/-- The bytes with a range of them replaced. -/
def setRange (m : Nat → UInt8) (dst n : Nat) (b : Nat → UInt8) : Nat → UInt8 := fun a =>
  if dst ≤ a ∧ a < dst + n then b (a - dst) else m a

abbrev EM := Prog EagerState Unit

namespace EM

def hasPage (i addr : Nat) : EM Bool := gets fun a => (a.pages i (.alignDown addr)).isSome

def writeBytes (i dst n : Nat) (b : EagerState → Nat → UInt8) : EM Unit := modify fun a =>
  { a with bytes := Function.update a.bytes i (setRange (a.bytes i) dst n (b a)) }

def fork (parent child : Nat) : EM Unit := modify fun a => a.fork parent child

def newVmem : EM Unit := modify fun a =>
  { a with numSpaces := a.numSpaces + 1, live := Function.update a.live a.numSpaces true }

def unmap (i : Nat) (v : PageAligned) : EM Unit :=
  if !isUserAddr v.raw then throw ()
  else modify fun a => a.dropPage i v

def userRead (i addr : Nat) : EM UInt8 := do
  if ← hasPage i addr then gets fun a => a.bytes i addr else throw ()

def userWrite (i addr : Nat) (b : UInt8) : EM Unit := do
  if (← gets fun a => a.pages i (.alignDown addr)) = some true then
    writeBytes i addr 1 fun _ _ => b
  else throw ()

def copyToUserChunk (i dst src n : Nat) : EM Unit := do
  if ← hasPage i dst then writeBytes i dst n fun a k => a.kernel (src + k)
  else abort "no such page"

def copyToUser (i dst src size : Nat) : EM Unit :=
  if size = 0 then throw ()
  else if !isKernelRegion src size then throw ()
  else if !isUserRegion dst size then throw ()
  else copyLoop MM.toUserPiece (copyToUserChunk i) size dst src size

def copyFromUserChunk (dryRun : Bool) (i dst src n : Nat) : EM Unit := do
  if ← hasPage i src then
    if dryRun then pure ()
    else modify fun a => { a with kernel := setRange a.kernel dst n fun k => a.bytes i (src + k) }
  else throw ()

def copyFromUser (i dst src size : Nat) : EM Unit :=
  if size = 0 then throw ()
  else if !isUserRegion src size then throw ()
  else if !isKernelRegion dst size then throw ()
  else do
    copyLoop MM.fromUserPiece (copyFromUserChunk true i) size dst src size
    copyLoop MM.fromUserPiece (copyFromUserChunk false i) size dst src size

def copyUserToUserChunk (dryRun : Bool) (i j dst src n : Nat) : EM Unit := do
  if (← hasPage i src) && (← hasPage j dst) then
    if dryRun then pure ()
    else if i = j ∧ (dst ≤ src ∧ src < dst + n ∨ src ≤ dst ∧ dst < src + n) then throw ()
    else writeBytes j dst n fun a k => a.bytes i (src + k)
  else throw ()

def copyUserToUser (i src j dst size : Nat) : EM Unit :=
  if size = 0 then throw ()
  else if !isUserRegion src size then throw ()
  else if !isUserRegion dst size then throw ()
  else do
    copyLoop MM.userToUserPiece (copyUserToUserChunk true i j) size dst src size
    copyLoop MM.userToUserPiece (copyUserToUserChunk false i j) size dst src size

end EM

namespace CopyCmd

def eagerEnabled : CopyCmd → EagerState → Bool
  | newVmem, _ => true
  | fork parent child, a => parent != child && a.live parent && a.live child
  | unmap i _, a => a.live i
  | userRead i _, a => a.live i
  | userWrite i _ _, a => a.live i
  | copyToUser i _ _ _, a => a.live i
  | copyFromUser i _ _ _, a => a.live i
  | vmcopy i _ j _ _, a => a.live i && a.live j

def eagerExec : CopyCmd → EM (List UInt8)
  | newVmem => do
      EM.newVmem
      return []
  | fork parent child => do
      EM.fork parent child
      return []
  | unmap i v => do
      EM.unmap i v
      return []
  | userRead i addr => do return [← EM.userRead i addr]
  | userWrite i addr b => do
      EM.userWrite i addr b
      return []
  | copyToUser i dst src size => do
      EM.copyToUser i dst src size
      return []
  | copyFromUser i dst src size => do
      EM.copyFromUser i dst src size
      gets fun a => (List.range size).map fun k => a.kernel (dst + k)
  | vmcopy i src j dst size => do
      EM.copyUserToUser i src j dst size
      return []

end CopyCmd

/-- The machine whose forks copy every page. -/
def eagerMachine : Machine EagerState Unit CopyCmd (List UInt8) :=
  ⟨CopyCmd.eagerEnabled, CopyCmd.eagerExec⟩

/-- What a memory looks like when every space has its pages for itself. -/
def MemState.eager (s : MemState) : EagerState where
  numSpaces := s.numSpaces
  live i := (s.spaces i).isSome
  pages i v := (s.pte i v).map fun p => p.isWritable || p.isCow
  bytes i addr := (s.pte i (.alignDown addr)).elim 0 fun p =>
    s.memory (p.frame * pageSize + pageOffset addr)
  kernel := s.memory

end Nanvix.Mm
