import Nanvix.Mm.FrameAccounting

/-!
# Bulk pulls

A thread that pulls from the kernel has the guest-physical address of its buffer
computed and written to the vmbus with the length, and sleeps. The virtual machine
monitor later writes the bytes there and posts a completion message, which wakes
the thread. In between everything else goes on.

## Implementation notes

A request on the vmbus also names the buffer it was made for, which nothing reads.
The thread that waits is the entry of `PENDING_BULK_PULLS`; the monitor does not
look at it, and an entry that is taken out early takes nothing off the vmbus.
-/
namespace Nanvix.Mm
open Config Library Library.Prog

/-- A request on the vmbus: the `DataChunkHeader` and the buffer it is for. -/
structure Transfer where
  sourceTid : Nat
  dataAddr : Nat
  dataLen : Nat
  space : Nat
  buffer : Nat

namespace Transfer

/-- The page of the buffer. -/
def page (t : Transfer) : PageAligned := .alignDown t.buffer

/-- The frame that the address lies in. -/
def frame (t : Transfer) : Nat := t.dataAddr / pageSize

end Transfer

structure BulkState where
  life : LifeState
  inFlight : List Transfer
  pendingBulkPulls : List Nat

abbrev BM := Prog BulkState Error

def MM.userVaddrToPaddr (i vaddr : Nat) : MM Nat := do
  let frame ← MM.findUserFrame i (.alignDown vaddr)
  return frame * pageSize + vaddr % pageSize

namespace BM

def onLife {α : Type} (x : LM α) : BM α :=
  focus (fun s => some s.life) (fun l s => { s with life := l }) x

/-- A transfer must not leave the page of its buffer. -/
def crossesPage (buffer len : Nat) : Bool :=
  0 < len && pageSize < min (buffer % pageSize + len) usizeMax

/-- `pull` from the kernel, up to the point where the thread sleeps. -/
def pull (process tid buffer len : Nat) : BM Unit := do
  if crossesPage buffer len then
    throw ⟨.invalidArgument, "bulk pull buffer crosses a page boundary"⟩
  else do
    let proc ← onLife (LM.getProcess process)
    let paddr ← onLife (LM.onMem (MM.userVaddrToPaddr proc.space buffer))
    if 2 ^ 32 ≤ paddr then
      throw ⟨.invalidArgument, "guest physical address exceeds u32"⟩
    else
      modify fun s => { s with
        inFlight := s.inFlight ++ [⟨tid, paddr, len, proc.space, buffer⟩]
        pendingBulkPulls := tid :: s.pendingBulkPulls.filter (· ≠ tid) }

/-- The bytes after the monitor wrote to guest memory. -/
def writeBytes (m : Nat → UInt8) (addr : Nat) (data : List UInt8) : Nat → UInt8 := fun a =>
  if addr ≤ a then (data[a - addr]?).getD (m a) else m a

/-- `complete`: the thread that waits is woken, if it still does. -/
def complete (tid : Nat) : BM Unit :=
  modify fun s => { s with pendingBulkPulls := s.pendingBulkPulls.filter (· ≠ tid) }

/-- The monitor answers a request, and the kernel takes the completion message. -/
def deliver (k : Nat) (data : List UInt8) : BM Unit := do
  match ← gets fun s => s.inFlight[k]? with
  | none => abort "no such request"
  | some t =>
    onLife (LM.onMem (modify fun m =>
      { m with memory := writeBytes m.memory t.dataAddr data }))
    modify fun s => { s with inFlight := s.inFlight.eraseIdx k }
    complete t.sourceTid

end BM

inductive BulkCmd where
  | life (c : LifeCmd)
  | pull (process tid buffer len : Nat)
  | deliver (k : Nat) (data : List UInt8)
  /-- The sleep of a pulling thread ends with an error. -/
  | interrupt (tid : Nat)

namespace BulkCmd

/-- The monitor writes no more than it was asked for. -/
def enabled : BulkCmd → BulkState → Bool
  | life c, s => c.enabled s.life
  | pull process _ _ _, s => decide (process < s.life.processes.length)
  | deliver k data, s => (s.inFlight[k]?).any fun t => decide (data.length ≤ t.dataLen)
  | interrupt _, _ => true

def exec : BulkCmd → BM Unit
  | life c => BM.onLife c.exec
  | pull process tid buffer len => BM.pull process tid buffer len
  | deliver k data => BM.deliver k data
  | interrupt tid => BM.complete tid

end BulkCmd

def bulkMachine : Machine BulkState Error BulkCmd Unit := ⟨BulkCmd.enabled, BulkCmd.exec⟩

/-- What must hold when the bytes of a transfer are written. -/
structure Landing (m : MemState) (t : Transfer) : Prop where
  mapped : ∃ p, m.pte t.space t.page = some p ∧ p.frame = t.frame ∧ p.isWritable = true
  unshared : ∀ j w p, m.pte j w = some p → p.frame = t.frame → j = t.space
  inside : ∀ data : List UInt8, data.length ≤ t.dataLen →
    ∀ a, BM.writeBytes m.memory t.dataAddr data a ≠ m.memory a → a / pageSize = t.frame

/-- A request on the vmbus is for this page. -/
def BulkState.pinned (s : BulkState) (i : Nat) (v : PageAligned) : Bool :=
  s.inFlight.any fun t => t.space == i && t.page == v

/-- A request on the vmbus is for a page of this space. -/
def BulkState.pinnedSpace (s : BulkState) (i : Nat) : Bool :=
  s.inFlight.any fun t => t.space == i

/-- A page that is writable and whose frame has no other owner. -/
def MemState.privateWritable (m : MemState) (i : Nat) (v : PageAligned) : Bool :=
  (m.pte i v).all fun p => p.isWritable && decide (m.frames.refcount p.frame ≤ 1)

/-- A pull asks for a page of the process's own, and nothing takes such a page away, shares it or
makes it read-only while the request is on the vmbus. -/
def keepsTargets : BulkCmd → BulkState → Bool
  | .life (.mem (.unmap i v)), s => !s.pinned i v
  | .life (.mem (.uctrl i v access)), s => !s.pinned i v || access.isWritable
  | .life (.mem (.linkUserPages parent _)), s => !s.pinnedSpace parent
  | .life (.unmap i v), s => !s.pinned i v
  | .life (.harvestThread p t), s => (s.life.processes[p]?).all fun proc =>
    (proc.threads[t]?).all fun thread => thread.userStack.all fun base =>
      s.inFlight.all fun r => r.space != proc.space || !decide (MM.inStack base r.page)
  | .life .harvestZombies, s => s.life.zombies.head?.all fun z => !s.pinnedSpace z.space
  | .life (.dropVmem i), s => !s.pinnedSpace i
  | .pull process _ buffer _, s => (s.life.processes[process]?).all fun proc =>
    s.life.mem.privateWritable proc.space (.alignDown buffer)
  | _, _ => true

end Nanvix.Mm
