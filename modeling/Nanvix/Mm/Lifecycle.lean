import Nanvix.Library.Machine
import Nanvix.Mm.Commands

/-!
# The memory of processes

What a process owns besides its address space: the kernel stacks of its threads.
A process that ended is a zombie until it is harvested; then the pages of its
threads' user stacks are unmapped, the kernel stacks are released and the address
space is dropped. Dropping an address space releases the frames that store its
page tables and its directory, and nothing else.

## Implementation notes

The commands are the steps of which the creation, the end and the reaping of a
process consist, and the uses of a `UserFrame` handle outside a routine of the
memory manager. A process is named by its position. Of a thread only its stacks
matter here.
-/
namespace Nanvix.Mm
open Config Library Library.Prog

structure ThreadStacks where
  kernelStack : Option (List Nat)
  userStack : Option PageAligned

/-- A process as the owner of memory. -/
structure ProcessMem where
  space : Nat
  threads : List ThreadStacks

structure LifeState where
  mem : MemState
  /-- The frames of the live `UserFrame` handles. -/
  handles : List Nat
  processes : List ProcessMem
  zombies : List ProcessMem

abbrev LM := Prog LifeState Error

namespace MM

/-- `KernelStack::new`: contiguous frames, cleared. -/
def newKernelStack : MM (List Nat) := do
  let base ← onFrames (FrameAllocator.allocContiguous (kstackSize / pageSize))
  let kframes := List.range' base (kstackSize / pageSize)
  match ← attempt (forEach (fun f => memset (f * pageSize) 0 pageSize) kframes) with
  | .ok _ => return kframes
  | .error e =>
    forEach dropFrame kframes
    throw e

/-- Dropping a `KernelStack` drops its pages from the last on. -/
def dropKernelStack (kpages : List Nat) : MM Unit := forEach dropFrame kpages.reverse

def unmapUserStack (i : Nat) (base : PageAligned) : MM Unit :=
  forEach (fun n => do let _ ← attempt (tryUnmapUpage i ⟨n⟩))
    (List.range' base.number (userStackSize / pageSize))

def harvestThread (i : Nat) (t : ThreadStacks) : MM Unit :=
  match t.kernelStack, t.userStack with
  | some kernelStack, some userStack => do
      unmapUserStack i userStack
      dropKernelStack kernelStack
  | some kernelStack, none => dropKernelStack kernelStack
  | none, _ => pure ()

/-- `Drop for Vmem`, and then that of its fields. -/
def dropVmem (i : Nat) : MM Unit := do
  let vm ← onSpace i (gets id)
  modify fun s => { s with spaces := Function.update s.spaces i none }
  forEach dropFrame (vm.userPageTables.entries.map fun e => e.2.storage)
  dropFrame vm.pgdir.storage

/-- The body of `harvest_zombies`, for the zombie it popped. -/
def harvestProcess (p : ProcessMem) : MM Unit := do
  forEach (harvestThread p.space) p.threads
  dropVmem p.space

end MM

inductive LifeCmd where
  | mem (c : MemCmd)
  | allocUserFrame
  | map (handle space : Nat) (vaddr : PageAligned) (access : AccessPermission)
  | unmap (space : Nat) (vaddr : PageAligned)
  | dropFrame (handle : Nat)
  | createProcess (space : Nat) (userStack : Option PageAligned)
  | createThread (process : Nat)
  | harvestThread (process thread : Nat)
  | terminate (process : Nat)
  | harvestZombies
  | dropVmem (space : Nat)

namespace LifeState

/-- Every process that has not been harvested. -/
def all (s : LifeState) : List ProcessMem := s.processes ++ s.zombies

/-- A space that belongs to a process. -/
def owned (s : LifeState) (i : Nat) : Bool := s.all.any fun p => p.space == i

/-- The frames of a thread's kernel stack. -/
def stackFrames (t : ThreadStacks) : List Nat := t.kernelStack.getD []

/-- The frames of all kernel stacks of a process. -/
def processFrames (p : ProcessMem) : List Nat := p.threads.flatMap stackFrames

/-- The frames of all kernel stacks. -/
def kernelStackFrames (s : LifeState) : List Nat := s.all.flatMap processFrames

end LifeState

namespace LM

def onMem {α : Type} (x : MM α) : LM α :=
  focus (fun s => some s.mem) (fun m s => { s with mem := m }) x

/-- Take a live handle out of the list. -/
def takeHandle (k : Nat) : LM Nat := do
  match ← gets fun s => s.handles[k]? with
  | none => abort "no such handle"
  | some f =>
    modify fun s => { s with handles := s.handles.eraseIdx k }
    return f

/-- A process and a way to store it back. -/
def getProcess (p : Nat) : LM ProcessMem := do
  match ← gets fun s => s.processes[p]? with
  | none => abort "no such process"
  | some proc => return proc

end LM

namespace LifeCmd
open LM

def enabled : LifeCmd → LifeState → Bool
  | mem c, s => c.enabled s.mem
  | allocUserFrame, _ => true
  | map k i _ _, s => decide (k < s.handles.length) && (s.mem.spaces i).isSome
  | unmap i _, s => (s.mem.spaces i).isSome
  | dropFrame k, s => decide (k < s.handles.length)
  | createProcess i _, s => (s.mem.spaces i).isSome && !s.owned i
  | createThread p, s => decide (p < s.processes.length)
  | harvestThread p t, s => (s.processes[p]?).any fun proc => decide (t < proc.threads.length)
  | terminate p, s => decide (p < s.processes.length)
  | harvestZombies, _ => true
  | dropVmem i, s => (s.mem.spaces i).isSome && !s.owned i

def exec : LifeCmd → LM Unit
  | mem c => onMem c.exec
  | allocUserFrame => do
      let f ← onMem MM.allocUserFrame
      modify fun s => { s with handles := f :: s.handles }
  | map k i v access => do
      let f ← takeHandle k
      onMem (MM.map i f v access)
  | unmap i v => do
      match ← onMem (MM.unmap i v) with
      | some f => modify fun s => { s with handles := f :: s.handles }
      | none => pure ()
  | dropFrame k => do
      let f ← takeHandle k
      onMem (MM.dropFrame f)
  | createProcess i userStack => do
      let kernelStack ← onMem MM.newKernelStack
      modify fun s => { s with
        processes := s.processes ++ [⟨i, [⟨some kernelStack, userStack⟩]⟩] }
  | createThread p => do
      let proc ← getProcess p
      let kernelStack ← onMem MM.newKernelStack
      modify fun s => { s with
        processes := s.processes.set p { proc with
          threads := proc.threads ++ [⟨some kernelStack, none⟩] } }
  | harvestThread p t => do
      let proc ← getProcess p
      match proc.threads[t]? with
      | none => abort "no such thread"
      | some thread =>
        modify fun s => { s with
          processes := s.processes.set p { proc with threads := proc.threads.eraseIdx t } }
        onMem (MM.harvestThread proc.space thread)
  | terminate p => do
      let proc ← getProcess p
      modify fun s => { s with
        processes := s.processes.eraseIdx p, zombies := s.zombies ++ [proc] }
  | harvestZombies => do
      match ← gets fun s => s.zombies with
      | [] => pure ()
      | z :: zs =>
        modify fun s => { s with zombies := zs }
        onMem (MM.harvestProcess z)
  | dropVmem i => onMem (MM.dropVmem i)

end LifeCmd

def lifeMachine : Machine LifeState Error LifeCmd Unit := ⟨LifeCmd.enabled, LifeCmd.exec⟩

end Nanvix.Mm
