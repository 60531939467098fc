import Nanvix.HostFs.Wire
import Nanvix.Library.Containers

/-!
# Forwarding operations from vfsd to hostfsd

The two daemons and the channels between them. vfsd takes the request of a client,
gives it an operation identifier, sends it and remembers it as pending; hostfsd
puts requests together, handles them and responds; vfsd takes a response, finds
the pending operation by its identifier and answers the client. Sending any
message may fail, and a request in parts is given up at the first part that does.

## Implementation notes

What a handler of hostfsd answers is a parameter. `serial`, `origin`, `accepted`
and `answers` record which request a message and an answer belong to; neither
daemon reads them. `halted` stands for a panic of vfsd.
-/
namespace Nanvix.HostFs.Forwarding

open Nanvix.Library (mapErase)

/-- The codes that vfsd answers with on its own. -/
inductive LocalError where
  | ioErr
  | resourceBusy
  | invalidArgument
  | tooManyOpenFiles
deriving DecidableEq

/-- What a client waits for, with what is needed to answer it. -/
inductive PendingOpKind where
  | open (path : Bytes)
  | close
  | read (count : Nat)
  | write
  | seek
  | flush
  | truncate
  | mkdir
  | rmdir
  | unlink
  | rename
  | stat
  | symlink
  | readlink (bufsiz : Nat)
  | lstat
  | pathStat
  | getdents (remoteFd guestFd : Int) (nextOffset targetCount : Nat) (entries : List Bytes)

/-- The operation that hostfsd is asked for. -/
def PendingOpKind.op : PendingOpKind → OpKind
  | .open _ => .open
  | .close => .close
  | .read _ => .read
  | .write => .write
  | .seek => .seek
  | .flush => .flush
  | .truncate => .truncate
  | .mkdir => .mkdir
  | .rmdir => .rmdir
  | .unlink => .unlink
  | .rename => .rename
  | .stat => .stat
  | .symlink => .symlink
  | .readlink _ => .readlink
  | .lstat => .lstat
  | .pathStat => .pathStat
  | .getdents _ _ _ _ _ => .getdents

/-- A request under way: whom to answer, and its serial number. -/
structure PendingOp where
  sourceTid : Nat
  sourcePid : Option Nat
  kind : PendingOpKind
  serial : Nat

section PendingQueue

/-- `MAX_PENDING_OPS`. -/
def maxPendingOps : Nat := 64

/-- The pending operations by identifier, and where the next search starts. -/
structure PendingQueue where
  ops : List (Nat × PendingOp)
  nextId : Nat

namespace PendingQueue

def new : PendingQueue := ⟨[], 1⟩

def contains (q : PendingQueue) (id : Nat) : Bool := (q.ops.lookup id).isSome

/-- The search of `OperationIdAllocator::alloc`; as many attempts as there are identifiers to
skip always suffice. -/
def allocFrom (inUse : Nat → Bool) : Nat → Nat → Nat
  | 0, id => id
  | attempts + 1, id =>
    if id = invalidId ∨ inUse id then allocFrom inUse attempts ((id + 1) % 2 ^ 32) else id

/-- The identifier that the next request gets. -/
def nextOpId (q : PendingQueue) : Nat := allocFrom q.contains (q.ops.length + 2) q.nextId

/-- The counter moves on even if the request is given up. -/
def advanced (q : PendingQueue) : PendingQueue := { q with nextId := (q.nextOpId + 1) % 2 ^ 32 }

def hasCapacity (q : PendingQueue) : Bool := q.ops.length < maxPendingOps

def get (q : PendingQueue) (id : Nat) : Option PendingOp := q.ops.lookup id

/-- The entry is forgotten. -/
def remove (q : PendingQueue) (id : Nat) : PendingQueue :=
  { q with ops := mapErase id q.ops }

/-- An entry under the same identifier is replaced, as in a map. -/
def put (q : PendingQueue) (id : Nat) (op : PendingOp) : PendingQueue :=
  { q with ops := (id, op) :: (q.remove id).ops }

/-- A full table refuses the operation. -/
def insert (q : PendingQueue) (id : Nat) (op : PendingOp) : Option PendingQueue :=
  if q.hasCapacity then some (q.put id op) else none

end PendingQueue
end PendingQueue

/-- What a client is told. -/
inductive Answer where
  | failed (error : LocalError)
  | result (data : Bytes)
  | listing (entries : List Bytes)
deriving DecidableEq

/-- An answer with the request it answers and, if it came from hostfsd, the request that hostfsd
was working on. -/
structure Answered where
  serial : Nat
  sourceTid : Nat
  answer : Answer
  origin : Option Nat
deriving DecidableEq

/-- What a handler of hostfsd produces; the target of a link may need several messages. -/
inductive Result where
  | inline (data : Bytes)
  | target (text : Bytes)

/-- Both daemons and the messages between them. No step reads `accepted` and `answers`. -/
structure System (β : Type) where
  queue : PendingQueue
  readlinkAsm : Option (LongMessage × Nat)
  halted : Bool
  requests : List (Nat × RequestMsg)
  assembler : HostFsAssembler
  backend : β
  responses : List (Nat × ResponseMsg)
  accepted : List Nat
  answers : List Answered
  nextSerial : Nat

/-- Nothing is under way. -/
def boot {β : Type} (backend : β) : System β where
  queue := .new
  readlinkAsm := none
  halted := false
  requests := []
  assembler := .new
  backend := backend
  responses := []
  accepted := []
  answers := []
  nextSerial := 0

namespace System
variable {β : Type}

/-- The answer joins those that clients got. -/
def answer (s : System β) (op : PendingOp) (a : Answer) (origin : Option Nat) : System β :=
  { s with answers := s.answers ++ [⟨op.serial, op.sourceTid, a, origin⟩] }

/-- Messages carry the serial number of their request. -/
def send (s : System β) (serial : Nat) (msgs : List RequestMsg) : System β :=
  { s with requests := s.requests ++ msgs.map fun m => (serial, m) }

/-- The entry of an identifier goes. -/
def drop (s : System β) (id : Nat) : System β := { s with queue := s.queue.remove id }

section Forward

/-- The messages that get through and whether all of them do; `fail` is the index of the first one
that does not. -/
def transmit (fail : Option Nat) (msgs : List RequestMsg) : List RequestMsg × Bool :=
  match fail with
  | none => (msgs, true)
  | some i => (msgs.take i, msgs.length ≤ i)

/-- The client is told when the table is full. -/
def reserve (s : System β) (id : Nat) (op : PendingOp) : System β :=
  match s.queue.insert id op with
  | some queue => { s with queue := queue }
  | none => s.answer op (.failed .resourceBusy) none

/-- `close` reserves its entry before it sends, every other operation after. -/
def dispatch (s : System β) (id : Nat) (op : PendingOp) (msgs : List RequestMsg)
    (fail : Option Nat) : System β :=
  let sent := transmit fail msgs
  match op.kind with
  | .close =>
    if sent.2 then (s.reserve id op).send op.serial sent.1
    else (((s.reserve id op).send op.serial sent.1).drop id).answer op (.failed .ioErr) none
  | _ =>
    if sent.2 then (s.send op.serial sent.1).reserve id op
    else (s.send op.serial sent.1).answer op (.failed .ioErr) none

/-- A request is taken from a client. -/
def accept (s : System β) : System β :=
  { s with
    accepted := s.accepted ++ [s.nextSerial]
    nextSerial := s.nextSerial + 1 }

/-- The request of a client on the way to hostfsd. -/
def forward (s : System β) (tid : Nat) (pid : Option Nat) (kind : PendingOpKind) (body : Bytes)
    (fail : Option Nat) : System β :=
  let op : PendingOp := ⟨tid, pid, kind, s.nextSerial⟩
  if s.queue.hasCapacity then
    let id := s.queue.nextOpId
    let t := { s.accept with queue := s.queue.advanced }
    match requestMsgs kind.op id body with
    | some msgs => t.dispatch id op msgs fail
    | none => t.answer op (.failed .invalidArgument) none
  else s.accept.answer op (.failed .resourceBusy) none

end Forward

section Serve

/-- The status of a refused request, as a little-endian `i32`. -/
def errInvalid : Bytes := [0xEA, 0xFF, 0xFF, 0xFF]

def readlinkPathMax : Nat := 1024

/-- The body of a long `readlink` response: identifier, status, length and target. -/
def readlinkBody (id : Nat) (target : Bytes) : Bytes :=
  toLeBytes id ++ ([0, 0, 0, 0] ++ ([UInt8.ofNat target.length,
    UInt8.ofNat (target.length / 2 ^ 8)] ++ target))

/-- A target goes out in parts, unless it is too long. -/
def responseMsgs (id : Nat) : OpKind → Result → List ResponseMsg
  | .readlink, .target text =>
    if readlinkPathMax < text.length then [.reply .readlink id errInvalid]
    else (partsOf (readlinkBody id text)).map .readlinkPart
  | kind, .target text => [.reply kind id text]
  | kind, .inline data => [.reply kind id data]

/-- The handler runs, and its result is sent. -/
def respond (handle : β → OpKind → Bytes → Result × β) (s : System β) (origin : Nat)
    (kind : OpKind) (id : Nat) (body : Bytes) : System β :=
  let r := handle s.backend kind body
  { s with
    backend := r.2
    responses := s.responses ++ (responseMsgs id kind r.1).map fun m => (origin, m) }

/-- A part of a request; the identifier of a request in parts stands at the start of its bytes. -/
def handleLongPart (handle : β → OpKind → Bytes → Result × β) (s : System β) (origin : Nat)
    (kind : OpKind) (p : Part) : System β :=
  match s.assembler.addPart kind p with
  | (.needMore, a) => { s with assembler := a }
  | (.error, a) =>
    { s with
      assembler := .new
      responses := s.responses ++
        [(origin, .reply a.recordedHeader (fromLeBytes a.buffer) errInvalid)] }
  | (.complete, a) =>
    respond handle { s with assembler := .new } origin a.recordedHeader (fromLeBytes a.buffer)
      (a.buffer.drop 4)

/-- hostfsd takes the next message, if there is one. -/
def serve (handle : β → OpKind → Bytes → Result × β) (s : System β) : System β :=
  match s.requests with
  | [] => s
  | (origin, .short kind id body) :: rest =>
    respond handle { s with requests := rest } origin kind id body
  | (origin, .part kind p) :: rest =>
    handleLongPart handle { s with requests := rest } origin kind p

end Serve

section Receive

/-- What happens around vfsd when it takes a response: whether its own descriptor table is full
and whether sending a message fails. -/
structure Conditions where
  fdTableFull : Bool
  sendFails : Bool

/-- Fail an operation without a response. -/
def cancel (s : System β) (id : Nat) : System β :=
  match s.queue.get id with
  | some op => (s.drop id).answer op (.failed .ioErr) none
  | none => s

/-- A byte of a response, zero behind its end. -/
def byteAt (data : Bytes) (i : Nat) : Nat := (data.getD i 0).toNat

/-- The request for the next entry of a directory. -/
def readdirBody (remoteFd : Int) (offset : Nat) : Bytes :=
  toLeBytes (remoteFd % 2 ^ 32).toNat ++ toLeBytes offset

/-- A new descriptor that cannot be entered in vfsd's table is closed again; that request has
identifier 0 and no pending entry. -/
def closeOrphan (c : Conditions) (s : System β) (data : Bytes) : System β :=
  if c.sendFails then s
  else { s.send s.nextSerial [.short .close 0 (data.take 4)] with nextSerial := s.nextSerial + 1 }

/-- The descriptor in the response of `open` is negative for an error. -/
def isError (data : Bytes) : Bool := 128 ≤ byteAt data 3

/-- A response of another kind than the request is an error. -/
def completePendingOp (c : Conditions) (s : System β) (op : PendingOp) (origin : Nat)
    (kind : OpKind) (data : Bytes) : System β :=
  if op.kind.op = kind then
    match op.kind with
    | .open _ =>
      if !isError data && c.fdTableFull then
        (s.closeOrphan c data).answer op (.failed .tooManyOpenFiles) (some origin)
      else s.answer op (.result data) (some origin)
    | .getdents _ _ _ _ _ => s.answer op (.failed .ioErr) (some origin)
    | _ => s.answer op (.result data) (some origin)
  else s.answer op (.failed .ioErr) (some origin)

/-- One entry of a directory; the sweep goes on under the same identifier. -/
def stepGetdents (c : Conditions) (s : System β) (id : Nat) (op : PendingOp) (origin : Nat)
    (remoteFd guestFd : Int) (nextOffset targetCount : Nat) (entries : List Bytes)
    (data : Bytes) : System β :=
  if byteAt data 0 + byteAt data 1 = 0 then
    (s.drop id).answer op (.listing entries) (some origin)
  else if targetCount ≤ entries.length + 1 then
    (s.drop id).answer op (.listing (entries ++ [data])) (some origin)
  else
    let swept : PendingOp :=
      { op with
        kind := .getdents remoteFd guestFd (nextOffset + 1) targetCount (entries ++ [data]) }
    let t := { s with queue := s.queue.put id swept }
    if c.sendFails then t.cancel id
    else t.send op.serial [.short .getdents id (readdirBody remoteFd (nextOffset + 1))]

/-- A response without a pending entry is ignored. -/
def receiveReply (c : Conditions) (s : System β) (origin : Nat) (kind : OpKind) (id : Nat)
    (data : Bytes) : System β :=
  match s.queue.get id with
  | none => s
  | some op =>
    match kind, op.kind with
    | .getdents, .getdents remoteFd guestFd nextOffset targetCount entries =>
      s.stepGetdents c id op origin remoteFd guestFd nextOffset targetCount entries data
    | _, _ => (s.drop id).completePendingOp c op origin kind data

/-- The declared length of a target. -/
def targetLen (body : Bytes) : Nat := byteAt body 8 + byteAt body 9 * 2 ^ 8

/-- The target in a long `readlink` response, cut to the client's buffer. -/
def readlinkAnswer (bufsiz : Nat) (body : Bytes) : Answer :=
  if body.length < 10 + targetLen body then .failed .ioErr
  else .result (((body.drop 10).take (targetLen body)).take bufsiz)

/-- A long response to an operation other than `readlink` is a panic. -/
def completeReadlinkLong (s : System β) (origin id : Nat) (body : Bytes) : System β :=
  match s.queue.get id with
  | none => s
  | some op =>
    match op.kind with
    | .readlink bufsiz => (s.drop id).answer op (readlinkAnswer bufsiz body) (some origin)
    | _ => { s with halted := true }

/-- The part goes to the stream that is being put together. -/
def addReadlinkPart (s : System β) (origin : Nat) (p : Part) : System β :=
  match s.readlinkAsm with
  | none => s
  | some (m, id) =>
    match m.addPart p with
    | none => { s with readlinkAsm := none }.cancel id
    | some m' =>
      if m'.isComplete then
        { s with readlinkAsm := none }.completeReadlinkLong origin id m'.body
      else { s with readlinkAsm := some (m', id) }

/-- A part with number zero starts a stream and ends the one before it. -/
def receiveReadlinkPart (s : System β) (origin : Nat) (p : Part) : System β :=
  if p.partNumber = 0 then
    if p.payload.length < 4 then s
    else
      let t := match s.readlinkAsm with
        | some (_, stale) => { s with readlinkAsm := none }.cancel stale
        | none => s
      { t with readlinkAsm := some (⟨max p.totalParts 1, []⟩, fromLeBytes p.payload) }.addReadlinkPart
        origin p
  else s.addReadlinkPart origin p

/-- vfsd takes the next response, if there is one. -/
def receive (c : Conditions) (s : System β) : System β :=
  match s.responses with
  | [] => s
  | (origin, .reply kind id data) :: rest =>
    { s with responses := rest }.receiveReply c origin kind id data
  | (origin, .readlinkPart p) :: rest => { s with responses := rest }.receiveReadlinkPart origin p

end Receive
end System

/-- What the daemons do next. -/
inductive Command where
  | forward (tid : Nat) (pid : Option Nat) (kind : PendingOpKind) (body : Bytes)
      (fail : Option Nat)
  | serve
  | receive (c : System.Conditions)

def Command.isReceive : Command → Bool
  | .forward _ _ _ _ _ => false
  | .serve => false
  | .receive _ => true

def Command.isServe : Command → Bool
  | .forward _ _ _ _ _ => false
  | .serve => true
  | .receive _ => false

/-- One step of the two daemons; vfsd does nothing after a panic. -/
def step {β : Type} (handle : β → OpKind → Bytes → Result × β) (c : Command) (s : System β) :
    System β :=
  match c with
  | .serve => s.serve handle
  | .forward tid pid kind body fail => if s.halted then s else s.forward tid pid kind body fail
  | .receive conditions => if s.halted then s else s.receive conditions

end Nanvix.HostFs.Forwarding
