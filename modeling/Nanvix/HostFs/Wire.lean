import Nanvix.HostFs.Host

/-!
# Messages between vfsd and hostfsd

A request travels as one short message, which carries its operation identifier, or
as a sequence of parts, whose payloads joined together start with it. hostfsd has
one assembler for the parts of requests; vfsd has one for the parts of a long
`readlink` answer.

## Implementation notes

Identifiers are numbers below `2 ^ 32`. What stands behind the identifier in a
request is kept as bytes: only hostfsd's handlers read it.
-/
namespace Nanvix.HostFs.Forwarding

/-- `OperationId::INVALID`. -/
def invalidId : Nat := 2 ^ 32 - 1

/-- The operations that vfsd forwards; a request and its response are tagged with one. -/
inductive OpKind where
  | open
  | close
  | read
  | write
  | seek
  | flush
  | truncate
  | mkdir
  | rmdir
  | unlink
  | rename
  | stat
  | symlink
  | readlink
  | lstat
  | pathStat
  | getdents
deriving DecidableEq

section Bytes

/-- An identifier on the wire. -/
def toLeBytes (id : Nat) : Bytes :=
  [UInt8.ofNat id, UInt8.ofNat (id / 2 ^ 8), UInt8.ofNat (id / 2 ^ 16), UInt8.ofNat (id / 2 ^ 24)]

/-- The identifier at the start of assembled bytes, if there are enough of them. -/
def fromLeBytes : Bytes → Nat
  | b₀ :: b₁ :: b₂ :: b₃ :: _ =>
    b₀.toNat + b₁.toNat * 2 ^ 8 + b₂.toNat * 2 ^ 16 + b₃.toNat * 2 ^ 24
  | _ => invalidId

theorem fromLeBytes_append {id : Nat} (h : id < 2 ^ 32) (rest : Bytes) :
    fromLeBytes (toLeBytes id ++ rest) = id := by
  simp only [toLeBytes, List.cons_append, fromLeBytes, UInt8.toNat_ofNat']
  omega

@[simp] theorem length_toLeBytes (id : Nat) : (toLeBytes id).length = 4 := rfl

def divCeil (a b : Nat) : Nat := (a + b - 1) / b

/-- `SystemCallMessagePart::PAYLOAD_SIZE`, which is also the chunk size of a long response. -/
def partPayloadSize : Nat := 44

def numParts (data : Bytes) : Nat := divCeil data.length partPayloadSize

/-- The bytes of one part. -/
def chunk (data : Bytes) (i : Nat) : Bytes := (data.drop (i * partPayloadSize)).take partPayloadSize

end Bytes

/-- `SystemCallMessagePart`; the payload is the part of the array that is in use. -/
structure Part where
  totalParts : Nat
  partNumber : Nat
  payload : Bytes

/-- One part, which knows how many there are. -/
def partOf (data : Bytes) (i : Nat) : Part := ⟨numParts data, i, chunk data i⟩

/-- Bytes split into parts, in order. -/
def partsOf (data : Bytes) : List Part := (List.range (numParts data)).map (partOf data)

section Chunks
variable {data : Bytes}

theorem length_le_numParts_mul (data : Bytes) : data.length ≤ numParts data * partPayloadSize := by
  unfold numParts divCeil partPayloadSize
  omega

theorem numParts_pos (h : data ≠ []) : 0 < numParts data := by
  have hlen := List.length_pos_iff.mpr h
  unfold numParts divCeil partPayloadSize
  omega

/-- The chunks before `k`, joined, with the chunk at `k` behind them. -/
theorem take_append_chunk (data : Bytes) (k : Nat) :
    data.take (k * partPayloadSize) ++ chunk data k = data.take ((k + 1) * partPayloadSize) := by
  unfold chunk
  rw [Nat.succ_mul, List.take_add]

theorem take_numParts (data : Bytes) : data.take (numParts data * partPayloadSize) = data :=
  List.take_of_length_le (length_le_numParts_mul data)

/-- The first chunks of some data, joined. -/
theorem flatMap_chunk (data : Bytes) (k : Nat) :
    (List.range k).flatMap (chunk data) = data.take (k * partPayloadSize) := by
  induction k with
  | zero => simp
  | succ k ih =>
    rw [List.range_succ, List.flatMap_append, ih, ← take_append_chunk, List.flatMap_singleton]

theorem length_chunk_le (data : Bytes) (k : Nat) : (chunk data k).length ≤ partPayloadSize :=
  List.length_take_le _ _

theorem chunk_take (data : Bytes) (k : Nat) : (chunk data k).take partPayloadSize = chunk data k :=
  List.take_of_length_le (length_chunk_le data k)

@[simp] theorem length_partsOf (data : Bytes) : (partsOf data).length = numParts data := by
  simp [partsOf]

/-- The parts from `k` on start with part `k`. -/
theorem drop_partsOf {k : Nat} (h : k < numParts data) :
    (partsOf data).drop k = partOf data k :: (partsOf data).drop (k + 1) := by
  rw [List.drop_eq_getElem_cons (by simpa using h)]
  simp [partsOf]

end Chunks

/-- A request in one message, or a part of a long one. -/
inductive RequestMsg where
  | short (kind : OpKind) (opId : Nat) (data : Bytes)
  | part (kind : OpKind) (part : Part)

/-- A response in one message, or a part of a long target. -/
inductive ResponseMsg where
  | reply (kind : OpKind) (opId : Nat) (data : Bytes)
  | readlinkPart (part : Part)

section Requests

def maxInlinePathLen : Nat := 36

/-- Operations with paths go out in parts, three of them only when the path is too long for one
message; `body` starts with the two bytes of the path's length. -/
def isLong : OpKind → Bytes → Bool
  | .open, _ => true
  | .mkdir, _ => true
  | .rmdir, _ => true
  | .unlink, _ => true
  | .rename, _ => true
  | .symlink, _ => true
  | .readlink, body => 2 + maxInlinePathLen < body.length
  | .lstat, body => 2 + maxInlinePathLen < body.length
  | .pathStat, body => 2 + maxInlinePathLen < body.length
  | _, _ => false

def maxPathLen : Nat := 2 ^ 16 - 1

/-- What the serializer of a long request allows behind the identifier. -/
def maxBody : OpKind → Nat
  | .open => 6 + maxPathLen
  | .mkdir => 6 + maxPathLen
  | .rename => 4 + 2 * maxPathLen
  | .symlink => 4 + 2 * maxPathLen
  | _ => 2 + maxPathLen

/-- The messages of a request, unless it does not fit the wire format. -/
def requestMsgs (kind : OpKind) (id : Nat) (body : Bytes) : Option (List RequestMsg) :=
  if isLong kind body then
    if maxBody kind < body.length then none
    else some ((partsOf (toLeBytes id ++ body)).map (.part kind))
  else some [.short kind id body]

end Requests

section Assembler

/-- The longest request: identifier, two lengths and two paths. -/
def maxLongBufferSize : Nat := 8 + 2 * maxPathLen

def maxTotalParts : Nat := divCeil maxLongBufferSize partPayloadSize

/-- What becomes of a part. -/
inductive AssemblyStatus where
  | needMore
  | complete
  | error
deriving DecidableEq

/-- The request that hostfsd is putting together. -/
structure HostFsAssembler where
  header : Option OpKind
  totalParts : Nat
  partsReceived : Nat
  nextPartNumber : Nat
  buffer : Bytes

namespace HostFsAssembler

def new : HostFsAssembler := ⟨none, 0, 0, 0, []⟩

/-- `HostFsAssembler::recorded_header`, `open` when there is none. -/
def recordedHeader (a : HostFsAssembler) : OpKind := a.header.getD .open

/-- The assembler once the first part of a request has set it up. -/
def begun (a : HostFsAssembler) (kind : OpKind) (total : Nat) : HostFsAssembler :=
  if a.header.isNone then ⟨some kind, total, 0, 0, []⟩ else a

/-- A part that passed the checks on its number goes to the end of the buffer. -/
def append (a : HostFsAssembler) (payload : Bytes) : AssemblyStatus × HostFsAssembler :=
  let received : HostFsAssembler :=
    { a with
      buffer := a.buffer ++ payload
      partsReceived := a.partsReceived + 1
      nextPartNumber := a.nextPartNumber + 1 }
  (if received.totalParts ≤ received.partsReceived then .complete else .needMore, received)

/-- On an error the buffered bytes and the recorded header stay. A part with number zero that
arrives in the middle of a request is dropped. -/
def addPart (a : HostFsAssembler) (kind : OpKind) (p : Part) :
    AssemblyStatus × HostFsAssembler :=
  if p.totalParts = 0 ∨ maxTotalParts < p.totalParts then (.error, a)
  else if a.header.isSome ∧ p.partNumber = 0 ∧ a.partsReceived < a.totalParts then (.error, a)
  else
    let b := a.begun kind p.totalParts
    if b.header ≠ some kind then (.error, b)
    else if p.totalParts ≠ b.totalParts then (.error, b)
    else if p.partNumber ≠ b.nextPartNumber then (.error, b)
    else if maxLongBufferSize < b.buffer.length + (p.payload.take partPayloadSize).length then
      (.error, b)
    else b.append (p.payload.take partPayloadSize)

end HostFsAssembler
end Assembler

section LongMessage

/-- `SystemCallLongMessage`: the parts received so far, in the order of their numbers. -/
structure LongMessage where
  capacity : Nat
  parts : List Part

namespace LongMessage

/-- The last part tells how many there are. -/
def isComplete (m : LongMessage) : Bool :=
  match m.parts.getLast? with
  | some last => last.totalParts = m.parts.length
  | none => false

/-- Where a stable sort by number puts a new last part. -/
def insertSorted (p : Part) : List Part → List Part
  | [] => [p]
  | q :: parts => if q.partNumber ≤ p.partNumber then q :: insertSorted p parts else p :: q :: parts

/-- A full or complete message takes no more. -/
def addPart (m : LongMessage) (p : Part) : Option LongMessage :=
  if m.parts.length = m.capacity ∨ m.isComplete then none
  else some { m with parts := insertSorted p m.parts }

def body (m : LongMessage) : Bytes := m.parts.flatMap Part.payload

end LongMessage
end LongMessage
end Nanvix.HostFs.Forwarding
