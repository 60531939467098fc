import Mathlib.Algebra.GroupWithZero.Nat
import Nanvix.Base
import Nanvix.HostFs.Wire
import Nanvix.Library.Outcome
import Nanvix.Library.Patch

/-!
# Transfers in chunks

The client side of `read`, `write`, `pread` and `pwrite` splits a buffer into
chunks and exchanges one request and one response for each. `read` and `write`
do not let a chunk cross a page; `pread` and `pwrite` send and receive the bytes
in the messages themselves, which bounds a chunk by the size of a message.

Three of the loops stop at the first chunk that the server does not serve in
full. The loop of `pwrite` does not: it goes on until the whole buffer is
written, and makes no progress as long as the server answers with zero.

## Implementation notes

A server is a function of the exchanges so far and of the request. The state is
the client's buffer with the exchanges made. The loops run with fuel, one unit
for each request; a loop that wants to go on without fuel aborts. The addition
of an offset that does not fit its type aborts as well: the profile is `dev`, and
the wrapped offset that `release` would send instead is not modelled. The calls
are those of a build in which every descriptor is served by one server.
-/
namespace Nanvix.Syscall

open HostFs (Bytes)
open Library Library.Prog

section Messages

/-- What is asked for: how many bytes, where, and the bytes to be written. -/
structure Request where
  size : Nat
  offset : Option Int
  data : Bytes
deriving DecidableEq

/-- What comes back. -/
inductive Reply where
  /-- A kernel call of the exchange fails, or the response cannot be decoded. -/
  | broken (error : Error)
  /-- A response with a status, if it is a known error code. -/
  | failed (code : Option ErrorCode)
  /-- A response of another kind. -/
  | unexpected
  /-- The count of a response, and the bytes that came with it. -/
  | done (count : Int) (bytes : Bytes)

abbrev Exchange := Request × Reply

abbrev Server := List Exchange → Request → Reply

structure Client where
  buffer : Bytes
  log : List Exchange

/-- Send a request and receive the response. -/
def exchange (server : Server) (request : Request) : Prog Client Error Reply := do
  let log ← gets Client.log
  modify fun c => { c with log := c.log ++ [(request, server log request)] }
  pure (server log request)

/-- The count and the bytes of a response that is not an error. -/
def answerOf (failure : String) (mismatch : Error) : Reply → Except Error (Int × Bytes)
  | .broken error => .error error
  | .failed (some code) => .error ⟨code, failure⟩
  | .failed none => .error ⟨.tryAgain, failure⟩
  | .unexpected => .error mismatch
  | .done count bytes => .ok (count, bytes)

/-- A count of 32 bits with a sign, cast to a machine word. -/
def asUsize (count : Int) : Nat := (count % 2 ^ 32).toNat

/-- `PartialWriteRequest::BUFFER_SIZE`. -/
def partialWriteBufferSize : Nat := 33

/-- `PartialReadResponse::BUFFER_SIZE`. -/
def partialReadBufferSize : Nat := 45

/-- Largest value of `off_t`. -/
def offMax : Int := 2 ^ 63 - 1

/-- The offset of a request, `offset + buffer_offset as off_t`, in the profile `dev`. -/
def requestOffset (offset : Int) (pos : Nat) : Prog Client Error Int :=
  if offset + pos ≤ offMax then pure (offset + pos) else abort "attempt to add with overflow"

def pageChunkSize (ptr remaining : Nat) : Nat :=
  min (Config.pageSize - ptr % Config.pageSize) remaining

end Messages

section Loops

/-- One round of a loop: what is added to the total, how far the loop moves on in the buffer, and
whether it goes on. -/
structure Round where
  count : Nat
  advance : Nat
  again : Bool

/-- `while pos < len`, with the total so far. -/
def transferLoop (round : Nat → Prog Client Error Round) (len : Nat) :
    Nat → Nat → Nat → Prog Client Error Nat
  | 0, pos, total => if pos < len then abort "the loop goes on" else pure total
  | fuel + 1, pos, total =>
    if pos < len then do
      let r ← round pos
      if r.again then transferLoop round len fuel (pos + r.advance) (total + r.count)
      else pure (total + r.count)
    else pure total

/-- The body of the loop of `pwrite`. A short or empty write does not end the loop. -/
def pwriteRound (server : Server) (offset : Int) (pos : Nat) : Prog Client Error Round := do
  let buffer ← gets Client.buffer
  let chunkSize := min partialWriteBufferSize (buffer.length - pos)
  let chunk := (buffer.drop pos).take chunkSize
  let place ← requestOffset offset pos
  let reply ← exchange server ⟨chunkSize, some place, chunk⟩
  let (count, _) ← ofExcept (answerOf "pwritev() failed"
    ⟨.invalidMessage, "failed to parse response"⟩ reply)
  pure ⟨asUsize count, asUsize count, true⟩

/-- What `pread` does with a response. The whole chunk is copied, and the loop moves on by a whole
chunk. -/
def preadReceive (pos chunkSize : Nat) (count : Int) (bytes : Bytes) :
    Prog Client Error Round :=
  if count = 0 then pure ⟨0, 0, false⟩
  else do
    modify fun c => { c with buffer := patch 0 c.buffer pos (bytes.take chunkSize) }
    pure ⟨asUsize count, chunkSize, !decide (asUsize count < chunkSize)⟩

/-- The body of the loop of `pread`. -/
def preadRound (server : Server) (offset : Int) (pos : Nat) : Prog Client Error Round := do
  let buffer ← gets Client.buffer
  let chunkSize := min partialReadBufferSize (buffer.length - pos)
  let place ← requestOffset offset pos
  let reply ← exchange server ⟨chunkSize, some place, []⟩
  let (count, bytes) ← ofExcept (answerOf "pread() failed" ⟨.tryAgain, "pread() failed"⟩ reply)
  preadReceive pos chunkSize count bytes

/-- The body of the loop of `write_ipc`. -/
def writeRound (server : Server) (address pos : Nat) : Prog Client Error Round := do
  let buffer ← gets Client.buffer
  let chunkSize := pageChunkSize (address + pos) (buffer.length - pos)
  let chunk := (buffer.drop pos).take chunkSize
  let reply ← exchange server ⟨chunkSize, none, chunk⟩
  let (count, _) ← ofExcept (answerOf "write() failed"
    ⟨.invalidMessage, "failed to parse response"⟩ reply)
  pure ⟨asUsize count, asUsize count, !decide (asUsize count < chunkSize)⟩

/-- `read_chunk`. The bytes are pulled into the buffer before the response is read. -/
def readChunk (server : Server) (pos chunkSize : Nat) : Prog Client Error Nat := do
  let reply ← exchange server ⟨chunkSize, none, []⟩
  match reply with
  | .done _ bytes => modify fun c => { c with buffer := patch 0 c.buffer pos bytes }
  | _ => pure ()
  let (count, bytes) ← ofExcept (answerOf "read() failed" ⟨.invalidMessage, "read() failed"⟩ reply)
  if count < 0 then throw ⟨.invalidMessage, "read response count is negative"⟩
  else if asUsize count ≠ bytes.length then
    throw ⟨.invalidMessage, "read response count does not match bytes pulled"⟩
  else pure (asUsize count)

/-- The body of the loop of `read_ipc`. -/
def readRound (server : Server) (address pos : Nat) : Prog Client Error Round := do
  let buffer ← gets Client.buffer
  let chunkSize := pageChunkSize (address + pos) (buffer.length - pos)
  let count ← readChunk server pos chunkSize
  if count = 0 then pure ⟨0, 0, false⟩
  else pure ⟨count, count, !decide (count < chunkSize)⟩

/-- A call with the address of its buffer, or with its offset in the file. -/
inductive Call where
  | read (address : Nat)
  | write (address : Nat)
  | pread (offset : Int)
  | pwrite (offset : Int)

/-- The body of the loop of a call. -/
def Call.round (server : Server) : Call → Nat → Prog Client Error Round
  | .read address => readRound server address
  | .write address => writeRound server address
  | .pread offset => preadRound server offset
  | .pwrite offset => pwriteRound server offset

/-- `read_ipc`, `write_ipc`, `pread` and `pwrite` on the client's buffer. -/
def Call.run (call : Call) (server : Server) (fuel : Nat) : Prog Client Error Nat := do
  let buffer ← gets Client.buffer
  transferLoop (call.round server) buffer.length fuel 0 0

end Loops

section Logs

/-- The count of a reply. -/
def Reply.count : Reply → Nat
  | .done count _ => count.toNat
  | _ => 0

/-- The bytes of a reply that its count covers. -/
def Reply.supplied : Reply → Bytes
  | .done count bytes => bytes.take count.toNat
  | _ => []

/-- The sum of the counts. -/
def transferred (log : List Exchange) : Nat := (log.map fun e => e.2.count).sum

/-- The bytes that the server supplied, one answer after the other. -/
def supplied (log : List Exchange) : Bytes := log.flatMap fun e => e.2.supplied

/-- Where in the file the byte with a number was requested. -/
def requestedAt : List Exchange → Nat → Option Int
  | [], _ => none
  | e :: log, i =>
    if i < e.2.count then e.1.offset.map (· + i) else requestedAt log (i - e.2.count)

/-- The call reads. -/
def Call.isRead : Call → Bool
  | .read _ | .pread _ => true
  | .write _ | .pwrite _ => false

/-- The offset in the file, for the calls that have one. -/
def Call.offset : Call → Option Int
  | .pread offset | .pwrite offset => some offset
  | .read _ | .write _ => none

/-- The server answers every request with success and a count up to the size of the chunk. It
sends that many bytes to `read`, and a whole array in the response to `pread`. -/
def Call.Served (call : Call) (server : Server) : Prop :=
  ∀ log request, ∃ (count : Int) (bytes : Bytes), server log request = .done count bytes ∧
    0 ≤ count ∧ count ≤ request.size ∧
    match call with
    | .read _ => bytes.length = count.toNat
    | .pread _ => bytes.length = partialReadBufferSize
    | .write _ | .pwrite _ => True

/-- What a call should do: return after no more requests than the buffer has bytes, with the sum
of the counts, the bytes of the server in the buffer, and the bytes requested in order. -/
structure Transfers (call : Call) (server : Server) (buffer : Bytes) (total : Nat)
    (client : Client) : Prop where
  returns : ∀ fuel, buffer.length ≤ fuel → call.run server fuel ⟨buffer, []⟩ = .ok total client
  requests : client.log.length ≤ buffer.length
  counts : total = transferred client.log
  bytes : call.isRead → client.buffer.take total = supplied client.log
  offsets : ∀ offset ∈ call.offset, ∀ i < total, requestedAt client.log i = some (offset + i)

@[simp] theorem transferred_append (log : List Exchange) (e : Exchange) :
    transferred (log ++ [e]) = transferred log + e.2.count := by
  simp only [transferred, List.map_append, List.map_cons, List.map_nil, List.sum_append_nat,
    List.sum_cons, List.sum_nil, Nat.add_zero]

@[simp] theorem supplied_append (log : List Exchange) (e : Exchange) :
    supplied (log ++ [e]) = supplied log ++ e.2.supplied := by
  simp only [supplied, List.flatMap_append, List.flatMap_cons, List.flatMap_nil, List.append_nil]

/-- The bytes of the last exchange come after the others. -/
theorem requestedAt_append (log : List Exchange) (e : Exchange) (i : Nat) :
    requestedAt (log ++ [e]) i =
      if i < transferred log then requestedAt log i
      else requestedAt [e] (i - transferred log) := by
  induction log generalizing i with
  | nil => rfl
  | cons e' log ih =>
    have hsum : transferred (e' :: log) = e'.2.count + transferred log := by
      simp only [transferred, List.map_cons, List.sum_cons]
    rw [List.cons_append, requestedAt, requestedAt, hsum, ih]
    by_cases hi : i < e'.2.count
    · rw [if_pos hi, if_pos hi, if_pos (Nat.lt_add_right _ hi)]
    · rw [if_neg hi, if_neg hi, Nat.sub_sub]
      exact if_congr (by omega) rfl rfl

end Logs

end Nanvix.Syscall
