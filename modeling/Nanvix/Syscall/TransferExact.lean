import Mathlib.Logic.Function.Iterate
import Nanvix.Library.Endings
import Nanvix.Syscall.Transfer

/-!
# When transfers in chunks are right

The exchanges that a call makes are described without its loop: after each of
them the request that follows is made, unless the buffer is used up or the call
stops at a chunk that was not served in full. The loop makes these exchanges.
It returns just when they come to an end within its fuel and every offset fits
its type.

With a request for each byte of the buffer as fuel, `read`, `write` and `pread`
always come to an end: a request after which they go on has transferred a byte.
A `pwrite` comes to an end just when the server has taken all bytes by then.
-/
namespace Nanvix.Syscall

open HostFs (Bytes)
open Library Library.Prog Call

variable {offset : Int} {e : Exchange}

section Requests

variable {call : Call} {server : Server} {buffer b : Bytes} {log : List Exchange} {pos : Nat}

/-- The request that a call makes at a position of its buffer. -/
def Call.request (buffer : Bytes) (pos : Nat) : Call → Request
  | .read address => ⟨pageChunkSize (address + pos) (buffer.length - pos), none, []⟩
  | .write address =>
    let chunkSize := pageChunkSize (address + pos) (buffer.length - pos)
    ⟨chunkSize, none, (buffer.drop pos).take chunkSize⟩
  | .pread offset =>
    ⟨min partialReadBufferSize (buffer.length - pos), some (offset + pos), []⟩
  | .pwrite offset =>
    let chunkSize := min partialWriteBufferSize (buffer.length - pos)
    ⟨chunkSize, some (offset + pos), (buffer.drop pos).take chunkSize⟩

/-- After an exchange the loop goes on. All calls but `pwrite` stop when a chunk was not served
in full. -/
def Call.goesOn (call : Call) (e : Exchange) : Bool :=
  match call with
  | .pwrite _ => true
  | _ => !decide (e.2.count < e.1.size)

/-- The buffer after an exchange. -/
def Call.received (call : Call) (buffer : Bytes) (pos : Nat) (e : Exchange) : Bytes :=
  match call, e.2 with
  | .read _, .done _ bytes => patch 0 buffer pos bytes
  | .pread _, .done count bytes =>
    if count = 0 then buffer else patch 0 buffer pos (bytes.take e.1.size)
  | _, _ => buffer

/-- What `Call.Served` says of the answer to a request. -/
def Call.Accepts (request : Request) (count : Int) (bytes : Bytes) (call : Call) : Prop :=
  0 ≤ count ∧ count ≤ request.size ∧
    match call with
    | .read _ => bytes.length = count.toNat
    | .pread _ => bytes.length = partialReadBufferSize
    | .write _ | .pwrite _ => True

def Call.ServedAt (call : Call) (server : Server) (log : List Exchange) (request : Request) :
    Prop :=
  ∃ count bytes, server log request = .done count bytes ∧ call.Accepts request count bytes

/-- The offset of a request fits its type. -/
def Request.InRange (request : Request) : Prop := ∀ offset ∈ request.offset, offset ≤ offMax

theorem pageChunkSize_bounds (ptr : Nat) {remaining : Nat} (h : 0 < remaining) :
    0 < pageChunkSize ptr remaining ∧ pageChunkSize ptr remaining ≤ remaining ∧
      pageChunkSize ptr remaining ≤ Config.pageSize := by
  have hpage : ptr % Config.pageSize < Config.pageSize := Nat.mod_lt _ (by decide)
  unfold pageChunkSize
  omega

/-- A chunk is not empty, fits the rest of the buffer, and is small. -/
theorem Call.size_request (call : Call) (hpos : pos < buffer.length) :
    0 < (call.request buffer pos).size ∧ (call.request buffer pos).size ≤ buffer.length - pos ∧
      (call.request buffer pos).size ≤ Config.pageSize := by
  have hrest : 0 < buffer.length - pos := Nat.sub_pos_of_lt hpos
  cases call with
  | read address | write address => exact pageChunkSize_bounds _ hrest
  | pread offset =>
    simp only [request, partialReadBufferSize, Config.pageSize]
    omega
  | pwrite offset =>
    simp only [request, partialWriteBufferSize, Config.pageSize]
    omega

theorem asUsize_of_le {count : Int} {size : Nat} (h0 : 0 ≤ count) (hle : count ≤ size)
    (hsize : size ≤ Config.pageSize) : asUsize count = count.toNat := by
  unfold Config.pageSize at hsize
  unfold asUsize
  rw [Int.emod_eq_of_lt h0 (by omega)]

/-- The exchange that a call makes at a position of its buffer. -/
def Call.next (call : Call) (server : Server) (buffer : Bytes) (log : List Exchange) (pos : Nat) :
    Exchange :=
  (call.request buffer pos, server log (call.request buffer pos))

/-- What one round does when the offset of its request fits. -/
structure RoundRun (call : Call) (server : Server) (buffer : Bytes) (pos : Nat) (client : Client)
    (r : Round) : Prop where
  run : call.round server pos client =
    .ok r ⟨call.received client.buffer pos (call.next server buffer client.log pos),
      client.log ++ [call.next server buffer client.log pos]⟩
  count : r.count = (call.next server buffer client.log pos).2.count
  again : r.again = call.goesOn (call.next server buffer client.log pos)
  advance : r.again → r.advance = r.count

/-- The request of a call that reads depends on the length of the buffer only. -/
theorem Call.request_congr (pos : Nat) (hlen : b.length = buffer.length)
    (hwrite : call.isRead = false → b = buffer) : call.request b pos = call.request buffer pos := by
  cases call with
  | read address | pread offset => simp only [request, hlen]
  | write address | pwrite offset => rw [hwrite rfl]

variable {request : Request}

theorem not_servedAt (call : Call) {count : Int} {bytes : Bytes}
    (hreply : server log request = .done count bytes) (h : ¬call.Accepts request count bytes) :
    ¬call.ServedAt server log request := by
  rintro ⟨count', bytes', hreply', haccepts⟩
  obtain ⟨rfl, rfl⟩ := Reply.done.inj (hreply.symm.trans hreply')
  exact h haccepts

section Rules

variable {E : Error → Client → Prop} {A : String → Prop} {c : Client}

theorem ends_requestOffset {Q : Int → Client → Prop}
    (hQ : offset + pos ≤ offMax → Q (offset + pos) c) (hA : ¬offset + pos ≤ offMax → ∀ m, A m) :
    ends (requestOffset offset pos) Q E A c := by
  rw [requestOffset, ends_ite]
  split
  · exact (ends_pure _).mpr (hQ ‹_›)
  · exact (ends_abort _).mpr (hA ‹_› _)

theorem ends_exchange {Q : Reply → Client → Prop} :
    ends (exchange server request) Q E A ⟨b, log⟩ ↔
      Q (server log request) ⟨b, log ++ [(request, server log request)]⟩ := by
  simp only [exchange, ends_bind, ends_gets, ends_modify, ends_pure]

theorem ends_answer (call : Call) {failure : String} {mismatch : Error}
    {Q : Int × Bytes → Client → Prop}
    (hQ : ∀ count bytes, server log request = .done count bytes → Q (count, bytes) c)
    (hE : ¬call.ServedAt server log request → ∀ e, E e c) :
    ends (ofExcept (answerOf failure mismatch (server log request))) Q E A c := by
  have hother : (∀ count bytes, server log request ≠ .done count bytes) → ∀ e, E e c :=
    fun hne => hE (by rintro ⟨count, bytes, hreply, -⟩; exact hne count bytes hreply)
  cases hreply : server log request with
  | done count bytes => exact (ends_ofExcept_ok _).mpr (hQ count bytes hreply)
  | broken error | unexpected =>
    rw [hreply] at hother
    exact (ends_ofExcept_error _).mpr (hother nofun _)
  | failed code =>
    rw [hreply] at hother
    cases code <;> exact (ends_ofExcept_error _).mpr (hother nofun _)

end Rules

/-- A round returns when the offset of its request fits and a count comes back. -/
theorem round_ends (server : Server) (log : List Exchange) (hlen : b.length = buffer.length)
    (hwrite : call.isRead = false → b = buffer) (hpos : pos < buffer.length) :
    ends (call.round server pos)
      (fun r client => (call.request buffer pos).InRange ∧
        ∃ count bytes, server log (call.request buffer pos) = .done count bytes ∧
        (call.Accepts (call.request buffer pos) count bytes →
          client = ⟨call.received b pos (call.request buffer pos, .done count bytes),
            log ++ [(call.request buffer pos, .done count bytes)]⟩ ∧ r.count = count.toNat ∧
          r.again = call.goesOn (call.request buffer pos, .done count bytes) ∧
          (r.again → r.advance = r.count)))
      (fun _ client => (call.request buffer pos).InRange ∧
        ¬call.ServedAt server log (call.request buffer pos) ∧
        client.log = log ++ [call.next server buffer log pos])
      (fun _ => ¬(call.request buffer pos).InRange) ⟨b, log⟩ := by
  have hsame := request_congr pos hlen hwrite
  obtain ⟨hpositive, -, hsize⟩ := call.size_request hpos
  rw [Call.next]
  rw [← hsame] at hpositive hsize ⊢
  cases call with
  | read address =>
    have hin : ((read address).request b pos).InRange :=
      fun _ ho => absurd ho (Option.not_mem_none _)
    simp only [Call.round, readRound, readChunk, ends_bind, ends_gets, ends_exchange]
    split
    · rename_i count bytes hreply
      rw [hreply]
      simp only [ends_bind, ends_modify, answerOf, ends_ofExcept_ok, ends_ite, ends_throw, ends_pure]
      have hnot := fun h => not_servedAt (.read address) hreply h
      split_ifs with hneg hcount hzero
      · exact ⟨hin, hnot fun h => Int.not_lt.mpr h.1 hneg, by rw [← hreply]; rfl⟩
      · refine ⟨hin, hnot fun h => hcount ?_, by rw [← hreply]; rfl⟩
        exact (asUsize_of_le h.1 h.2.1 hsize).trans h.2.2.symm
      · refine ⟨hin, count, bytes, hreply, fun h => ?_⟩
        have husize := asUsize_of_le h.1 h.2.1 hsize
        rw [hzero] at husize
        refine ⟨rfl, husize, ?_, False.elim⟩
        simp only [goesOn, Reply.count, ← husize, hpositive, decide_true, Bool.not_true]
      · refine ⟨hin, count, bytes, hreply, fun h => ?_⟩
        have husize := asUsize_of_le h.1 h.2.1 hsize
        refine ⟨rfl, husize, ?_, fun _ => trivial⟩
        rw [husize]
        rfl
    · rename_i hother
      rw [ends_bind]
      exact ends_answer (.read address) (fun count bytes hreply => (hother _ _ hreply).elim)
        fun h _ => ⟨hin, h, rfl⟩
  | write address =>
    have hin : ((write address).request b pos).InRange :=
      fun _ ho => absurd ho (Option.not_mem_none _)
    simp only [Call.round, writeRound, ends_bind, ends_gets, ends_exchange]
    refine ends_answer (.write address) (fun count bytes hreply => ?_) fun h _ => ⟨hin, h, rfl⟩
    refine (ends_pure _).mpr ⟨hin, count, bytes, hreply, fun h => ?_⟩
    have husize := asUsize_of_le h.1 h.2.1 hsize
    refine ⟨by rw [← hreply]; rfl, husize, ?_, fun _ => rfl⟩
    rw [husize]
    rfl
  | pread offset =>
    simp only [Call.round, preadRound, ends_bind, ends_gets]
    refine ends_requestOffset (fun hle => ends_exchange.mpr ?_) fun hbig _ hin => hbig (hin _ rfl)
    have hin : ((pread offset).request b pos).InRange := by
      rintro _ ⟨⟩
      exact hle
    refine ends_answer (.pread offset) (fun count bytes hreply => ?_) fun h _ => ⟨hin, h, rfl⟩
    simp only [preadReceive, ends_ite, ends_bind, ends_modify, ends_pure]
    refine ite_prop_iff_and.mpr ⟨fun hzero => ?_, fun hcount => ?_⟩
    · refine ⟨hin, count, bytes, hreply, fun _ => ?_⟩
      subst hzero
      refine ⟨by rw [hreply]; rfl, rfl, ?_, fun hagain => absurd hagain Bool.false_ne_true⟩
      simp only [goesOn, Reply.count, Int.toNat_zero, hpositive, decide_true, Bool.not_true]
    · refine ⟨hin, count, bytes, hreply, fun h => ?_⟩
      have husize := asUsize_of_le h.1 h.2.1 hsize
      refine ⟨?_, husize, ?_, ?_⟩
      · rw [hreply]
        simp only [received, if_neg hcount]
        rfl
      · rw [husize]
        rfl
      · intro hagain
        have hfull : ¬asUsize count < ((pread offset).request b pos).size :=
          of_decide_eq_false ((Bool.not_eq_true' _).mp hagain)
        have hle := h.2.1
        change ((pread offset).request b pos).size = asUsize count
        omega
  | pwrite offset =>
    simp only [Call.round, pwriteRound, ends_bind, ends_gets]
    refine ends_requestOffset (fun hle => ends_exchange.mpr ?_) fun hbig _ hin => hbig (hin _ rfl)
    have hin : ((pwrite offset).request b pos).InRange := by
      rintro _ ⟨⟩
      exact hle
    refine ends_answer (.pwrite offset) (fun count bytes hreply => ?_) fun h _ => ⟨hin, h, rfl⟩
    refine (ends_pure _).mpr ⟨hin, count, bytes, hreply, fun h => ?_⟩
    exact ⟨by rw [← hreply]; rfl, asUsize_of_le h.1 h.2.1 hsize, rfl, fun _ => rfl⟩

/-- A request beyond the range of offsets is not made. -/
theorem round_overflow (server : Server) (log : List Exchange) (hlen : b.length = buffer.length)
    (hwrite : call.isRead = false → b = buffer) (hpos : pos < buffer.length)
    (hrange : ¬(call.request buffer pos).InRange) :
    ∃ message, call.round server pos ⟨b, log⟩ = .abort message := by
  have hends := round_ends server log hlen hwrite hpos
  cases hrun : call.round server pos ⟨b, log⟩ with
  | ok r client => exact absurd (hends.of_ok hrun).1 hrange
  | err error client => exact absurd (hends.of_err hrun).1 hrange
  | abort message => exact ⟨message, rfl⟩

/-- A round of any call, when its request is served and the offset fits. -/
theorem round_run (hserved : call.ServedAt server log (call.request buffer pos))
    (hlen : b.length = buffer.length)
    (hwrite : call.isRead = false → b = buffer) (hpos : pos < buffer.length)
    (hrange : (call.request buffer pos).InRange) :
    ∃ r, RoundRun call server buffer pos ⟨b, log⟩ r := by
  have hends := round_ends server log hlen hwrite hpos
  cases hrun : call.round server pos ⟨b, log⟩ with
  | ok r client =>
    obtain ⟨-, count, bytes, hreply, hround⟩ := hends.of_ok hrun
    obtain ⟨count', bytes', hreply', haccepts⟩ := hserved
    obtain ⟨rfl, rfl⟩ := Reply.done.inj (hreply.symm.trans hreply')
    obtain ⟨rfl, hcount, hagain, hadvance⟩ := hround haccepts
    rw [← hreply] at hrun hagain
    exact ⟨r, hrun, by rw [hcount, Call.next, hreply]; rfl, hagain, hadvance⟩
  | err error client => exact absurd hserved (hends.of_err hrun).2.1
  | abort message => exact absurd hrange (hends.of_abort hrun)

end Requests

section Runs

variable {call : Call} {server : Server} {buffer b : Bytes} {log : List Exchange}

/-- The loop of a call makes another request after these exchanges. -/
def GoesOn (call : Call) (buffer : Bytes) (log : List Exchange) : Prop :=
  transferred log < buffer.length ∧ ∀ e ∈ log.getLast?, call.goesOn e

instance : Decidable (GoesOn call buffer log) := inferInstanceAs (Decidable (_ ∧ _))

/-- One more exchange, if the call makes one. -/
def extend (call : Call) (server : Server) (buffer : Bytes) (log : List Exchange) :
    List Exchange :=
  if GoesOn call buffer log then log ++ [call.next server buffer log (transferred log)] else log

/-- The first exchanges of a call, up to a number. -/
def exchanges (call : Call) (server : Server) (buffer : Bytes) (n : Nat) : List Exchange :=
  (extend call server buffer)^[n] []

/-- What the client keeps from round to round. -/
structure Kept (call : Call) (buffer : Bytes) (client : Client) : Prop where
  length : client.buffer.length = buffer.length
  write : call.isRead = false → client.buffer = buffer
  le : transferred client.log ≤ buffer.length
  bytes : call.isRead → client.buffer.take (transferred client.log) = supplied client.log
  offsets : ∀ offset ∈ call.offset, ∀ i < transferred client.log,
    requestedAt client.log i = some (offset + i)

/-- Writing over a buffer where the transfer stands. -/
theorem take_patch {pos n : Nat} {data : Bytes} (hpos : pos ≤ b.length) (hn : n ≤ data.length) :
    (patch 0 b pos data).take (pos + n) = b.take pos ++ data.take n := by
  rw [patch_of_le_length 0 data hpos, List.append_assoc]
  have hprefix : (b.take pos).length = pos := List.length_take_of_le hpos
  rw [List.take_append, hprefix, List.take_of_length_le (by omega), Nat.add_sub_cancel_left,
    List.take_append_of_le_length hn]

theorem Call.offset_request (hoffset : offset ∈ call.offset) (pos : Nat) :
    (call.request buffer pos).offset = some (offset + pos) := by
  cases call with
  | read address | write address => cases hoffset
  | pread o | pwrite o => rw [Option.mem_some.mp hoffset]; rfl

/-- The count of an exchange fits the rest of the buffer. -/
theorem Call.count_next_le {pos : Nat}
    (hserved : call.ServedAt server log (call.request buffer pos)) :
    (call.next server buffer log pos).2.count ≤ (call.request buffer pos).size := by
  obtain ⟨count, bytes, hreply, h0, hle, -⟩ := hserved
  simp only [Call.next, hreply, Reply.count]
  omega

/-- What is received stands behind what was received before. -/
theorem Call.take_received {pos : Nat}
    (hserved : call.ServedAt server log (call.request buffer pos)) (hread : call.isRead)
    (hlen : b.length = buffer.length) (hpos : pos < buffer.length) :
    (call.received b pos (call.next server buffer log pos)).take
        (pos + (call.next server buffer log pos).2.count) =
      b.take pos ++ (call.next server buffer log pos).2.supplied := by
  obtain ⟨count, bytes, hreply, h0, hle, hbytes⟩ := hserved
  have hle' : pos ≤ b.length := by omega
  cases call with
  | write address | pwrite offset => cases hread
  | read address =>
    simp only [Call.next, received, hreply, Reply.count, Reply.supplied]
    exact take_patch hle' (Nat.le_of_eq hbytes.symm)
  | pread offset =>
    simp only [Call.next, received, hreply, Reply.count, Reply.supplied]
    by_cases hcount : count = 0
    · simp only [hcount, if_true, Int.toNat_zero, Nat.add_zero, List.take_zero, List.append_nil]
    · rw [if_neg hcount, take_patch hle', List.take_take, Nat.min_eq_left (by omega)]
      have hsize : ((pread offset).request buffer pos).size ≤ partialReadBufferSize :=
        Nat.min_le_left _ _
      rw [List.length_take, hbytes]
      omega

theorem Call.length_received {pos : Nat}
    (hserved : call.ServedAt server log (call.request buffer pos))
    (hlen : b.length = buffer.length) (hpos : pos < buffer.length) :
    (call.received b pos (call.next server buffer log pos)).length = buffer.length := by
  obtain ⟨count, bytes, hreply, h0, hle, hbytes⟩ := hserved
  obtain ⟨-, hrest, -⟩ := call.size_request hpos
  cases call with
  | write address | pwrite offset => exact hlen
  | read address =>
    simp only [Call.next, received, hreply, length_patch]
    omega
  | pread offset =>
    simp only [Call.next, received, hreply]
    by_cases hcount : count = 0
    · rw [if_pos hcount]
      exact hlen
    · rw [if_neg hcount, length_patch, List.length_take]
      omega

/-- An exchange keeps the buffer and the log in step. -/
theorem Kept.next (h : Kept call buffer ⟨b, log⟩)
    (hserved : call.ServedAt server log (call.request buffer (transferred log)))
    (hlt : transferred log < buffer.length) :
    Kept call buffer
      ⟨call.received b (transferred log) (call.next server buffer log (transferred log)),
        log ++ [call.next server buffer log (transferred log)]⟩ := by
  obtain ⟨-, hrest, -⟩ := call.size_request hlt
  have hcount : (call.next server buffer log (transferred log)).2.count ≤ _ :=
    count_next_le hserved
  constructor
  · exact length_received hserved h.length hlt
  · intro hwrite
    cases call with
    | read address | pread offset => exact absurd hwrite.symm Bool.false_ne_true
    | write address | pwrite offset => exact h.write rfl
  · rw [transferred_append]
    omega
  · intro hread
    rw [transferred_append, supplied_append, take_received hserved hread h.length hlt]
    exact congrArg (· ++ _) (h.bytes hread)
  · intro offset hoffset i hi
    rw [transferred_append] at hi
    rw [requestedAt_append]
    by_cases hold : i < transferred log
    · rw [if_pos hold]
      exact h.offsets offset hoffset i hold
    · have hin : i - transferred log < (call.next server buffer log (transferred log)).2.count := by
        omega
      rw [if_neg hold, requestedAt, if_pos hin]
      simp only [Call.next, Call.offset_request hoffset, Option.map_some]
      congr 1
      omega

theorem extend_of_goesOn (h : GoesOn call buffer log) :
    extend call server buffer log = log ++ [call.next server buffer log (transferred log)] :=
  if_pos h

theorem extend_eq_self (h : ¬GoesOn call buffer log) : extend call server buffer log = log :=
  if_neg h

/-- Exchanges that were made stay. -/
theorem mem_iterate_extend (he : e ∈ log) (n : Nat) : e ∈ (extend call server buffer)^[n] log := by
  induction n generalizing log with
  | zero => exact he
  | succ n ih =>
    rw [Function.iterate_succ_apply]
    apply ih
    by_cases hgo : GoesOn call buffer log
    · rw [extend_of_goesOn hgo]
      exact List.mem_append_left _ he
    · rw [extend_eq_self hgo]
      exact he

/-- The call has ended with these exchanges, and every offset could be formed. -/
structure Completed (call : Call) (buffer : Bytes) (log : List Exchange) : Prop where
  inRange : ∀ e ∈ log, e.1.InRange
  ended : ¬GoesOn call buffer log

/-- The loop returns just when the exchanges that its fuel allows complete the call. -/
structure LoopEnds (call : Call) (buffer : Bytes) (final : List Exchange)
    (outcome : Outcome Client Error Nat) : Prop where
  returns : Completed call buffer final →
    ∃ b, outcome = .ok (transferred final) ⟨b, final⟩ ∧ Kept call buffer ⟨b, final⟩
  aborts : ¬Completed call buffer final → ∃ message, outcome = .abort message

/-- The loop of a call after these exchanges. -/
def Call.loop (call : Call) (server : Server) (buffer : Bytes) (fuel : Nat)
    (log : List Exchange) : Prog Client Error Nat :=
  transferLoop (call.round server) buffer.length fuel (transferred log) (transferred log)

/-- The loop after a request that was served. -/
theorem Call.loop_next {e : Exchange} (hkept : Kept call buffer ⟨b, log⟩)
    (hserved : call.ServedAt server log (call.request buffer (transferred log)))
    (hlt : transferred log < buffer.length)
    (hrange : (call.request buffer (transferred log)).InRange)
    (he : call.next server buffer log (transferred log) = e) (fuel : Nat) :
    call.loop server buffer (fuel + 1) log ⟨b, log⟩ =
      (if call.goesOn e then call.loop server buffer fuel (log ++ [e])
        else pure (transferred (log ++ [e])))
        ⟨call.received b (transferred log) e, log ++ [e]⟩ := by
  obtain ⟨r, hrun, hcount, hround, hadvance⟩ :=
    round_run hserved hkept.length hkept.write hlt hrange
  rw [he] at hrun hcount hround
  rw [loop, transferLoop, if_pos hlt, bind_ok hrun, loop, transferred_append, ← hround, hcount]
  cases hr : r.again with
  | true => rw [hadvance hr, hcount]
  | false => rfl

/-- The loop does not make a request beyond the range of offsets. -/
theorem Call.loop_overflow (hkept : Kept call buffer ⟨b, log⟩)
    (hlt : transferred log < buffer.length)
    (hrange : ¬(call.request buffer (transferred log)).InRange) (fuel : Nat) :
    ∃ message, call.loop server buffer (fuel + 1) log ⟨b, log⟩ = .abort message := by
  obtain ⟨message, hround⟩ :=
    round_overflow server log hkept.length hkept.write hlt hrange
  rw [loop, transferLoop, if_pos hlt]
  exact ⟨message, bind_abort hround⟩

/-- The loop at the end of the buffer. -/
theorem Call.loop_full (hlt : ¬transferred log < buffer.length) (fuel : Nat) :
    call.loop server buffer fuel log = pure (transferred log) := by
  cases fuel <;> exact if_neg hlt

theorem Call.loop_run (hserved : call.Served server) (fuel : Nat)
    (hkept : Kept call buffer ⟨b, log⟩) (hagain : ∀ e ∈ log.getLast?, call.goesOn e)
    (hin : ∀ e ∈ log, e.1.InRange) :
    LoopEnds call buffer ((extend call server buffer)^[fuel] log)
      (call.loop server buffer fuel log ⟨b, log⟩) := by
  induction fuel generalizing b log with
  | zero =>
    by_cases hlt : transferred log < buffer.length
    · rw [loop, transferLoop, if_pos hlt]
      exact ⟨fun hdone => absurd ⟨hlt, hagain⟩ hdone.ended, fun _ => ⟨_, rfl⟩⟩
    · rw [loop_full hlt]
      exact ⟨fun _ => ⟨b, rfl, hkept⟩, fun hnot => absurd ⟨hin, fun hgo => hlt hgo.1⟩ hnot⟩
  | succ fuel ih =>
    rw [Function.iterate_succ_apply]
    by_cases hlt : transferred log < buffer.length
    · rw [extend_of_goesOn ⟨hlt, hagain⟩]
      by_cases hrange : (call.request buffer (transferred log)).InRange
      · have hkept' := hkept.next (hserved log _) hlt
        rw [loop_next hkept (hserved log _) hlt hrange rfl]
        generalize he : call.next server buffer log (transferred log) = e at hkept' ⊢
        have hin' : ∀ x ∈ log ++ [e], x.1.InRange := by
          intro x hx
          rcases List.mem_append.mp hx with hx | hx
          · exact hin x hx
          · rw [List.mem_singleton.mp hx, ← he]
            exact hrange
        cases hgo : call.goesOn e with
        | true =>
          refine ih hkept' (fun x hx => ?_) hin'
          rw [List.getLast?_concat, Option.mem_some] at hx
          rw [← hx, hgo]
        | false =>
          have hstop : ¬GoesOn call buffer (log ++ [e]) := by
            intro hgo'
            have hlast := hgo'.2 _ (by rw [List.getLast?_concat]; rfl)
            rw [hgo] at hlast
            exact Bool.false_ne_true hlast
          rw [Function.iterate_fixed (extend_eq_self hstop)]
          exact ⟨fun _ => ⟨_, rfl, hkept'⟩, fun hnot => absurd ⟨hin', hstop⟩ hnot⟩
      · refine ⟨fun hdone => absurd ?_ hrange, fun _ => loop_overflow hkept hlt hrange fuel⟩
        exact hdone.inRange _ (mem_iterate_extend
          (List.mem_append_right _ (List.mem_singleton_self _)) fuel)
    · rw [loop_full hlt]
      have hstop : ¬GoesOn call buffer log := fun hgo => hlt hgo.1
      rw [extend_eq_self hstop, Function.iterate_fixed (extend_eq_self hstop)]
      exact ⟨fun _ => ⟨b, rfl, hkept⟩, fun hnot => absurd ⟨hin, hstop⟩ hnot⟩

theorem exchanges_succ (n : Nat) :
    exchanges call server buffer (n + 1) =
      extend call server buffer (exchanges call server buffer n) :=
  Function.iterate_succ_apply' _ _ _

/-- The exchanges of a call are made one by one, each while the call goes on. -/
theorem exchanges_induction {P : Nat → List Exchange → Prop} (hzero : P 0 [])
    (hnext : ∀ n log, GoesOn call buffer log → P n log →
      P (n + 1) (log ++ [call.next server buffer log (transferred log)]))
    (hstay : ∀ n log, P n log → P (n + 1) log) (n : Nat) :
    P n (exchanges call server buffer n) := by
  induction n with
  | zero => exact hzero
  | succ n ih =>
    rw [exchanges_succ]
    by_cases hgo : GoesOn call buffer (exchanges call server buffer n)
    · rw [extend_of_goesOn hgo]
      exact hnext n _ hgo ih
    · rw [extend_eq_self hgo]
      exact hstay n _ ih

/-- A loop that returns does so with more fuel as well. -/
theorem transferLoop_mono {round : Nat → Prog Client Error Round} {len fuel fuel' pos total r : Nat}
    {c c' : Client} (h : transferLoop round len fuel pos total c = .ok r c') (hle : fuel ≤ fuel') :
    transferLoop round len fuel' pos total c = .ok r c' := by
  induction fuel generalizing fuel' pos total c with
  | zero =>
    unfold transferLoop at h
    by_cases hlt : pos < len
    · rw [if_pos hlt] at h
      exact absurd h fun h => nomatch h
    · rw [if_neg hlt] at h
      rw [← h]
      cases fuel' <;> exact congrFun (if_neg hlt) c
  | succ fuel ih =>
    obtain ⟨n, rfl⟩ := Nat.exists_eq_add_of_le' hle
    rw [← Nat.add_assoc]
    unfold transferLoop at h ⊢
    by_cases hlt : pos < len
    · rw [if_pos hlt] at h ⊢
      obtain ⟨r, s, hround, h⟩ := bind_eq_ok h
      rw [bind_ok hround]
      split at h
      · rename_i hr
        rw [if_pos hr]
        exact ih h (Nat.le_add_left fuel n)
      · rename_i hr
        rw [if_neg hr]
        exact h
    · rw [if_neg hlt] at h ⊢
      exact h

/-- A call that stops at the first chunk not served in full transfers a byte with each request
after which it goes on. -/
theorem le_transferred_of_goesOn (hshort : ∀ e, call.goesOn e → e.1.size ≤ e.2.count) (n : Nat)
    (hgo : GoesOn call buffer (exchanges call server buffer n)) :
    n ≤ transferred (exchanges call server buffer n) := by
  induction n with
  | zero => exact Nat.zero_le _
  | succ n ih =>
    rw [exchanges_succ] at hgo ⊢
    by_cases hbefore : GoesOn call buffer (exchanges call server buffer n)
    · have hn := ih hbefore
      rw [extend_of_goesOn hbefore] at hgo ⊢
      have hlast := hshort _ (hgo.2 _ (by rw [List.getLast?_concat]; rfl))
      have hsize := (call.size_request hbefore.1).1
      rw [transferred_append]
      exact Nat.add_le_add hn (Nat.le_trans hsize hlast)
    · rw [extend_eq_self hbefore] at hgo
      exact absurd hgo hbefore

theorem Kept.start (call : Call) (buffer : Bytes) : Kept call buffer ⟨buffer, []⟩ :=
  ⟨rfl, fun _ => rfl, Nat.zero_le _, fun _ => rfl, fun _ _ i hi => absurd hi (Nat.not_lt_zero i)⟩

theorem length_exchanges_le (n : Nat) : (exchanges call server buffer n).length ≤ n := by
  refine exchanges_induction (P := fun n log => log.length ≤ n) (Nat.le_refl _) ?_
    (fun _ _ ih => Nat.le_succ_of_le ih) n
  intro n log _ ih
  rw [List.length_append]
  exact Nat.succ_le_succ ih

theorem Call.run_ends (hserved : call.Served server) (buffer : Bytes) (fuel : Nat) :
    LoopEnds call buffer (exchanges call server buffer fuel)
      (call.run server fuel ⟨buffer, []⟩) :=
  loop_run hserved fuel (Kept.start call buffer)
    (fun _ he => absurd he (Option.not_mem_none _)) fun _ he => absurd he List.not_mem_nil

/-- A call does what it should just when as many exchanges as the buffer has bytes complete it. -/
theorem transfers_iff_completed (hserved : call.Served server) :
    (∃ total client, Transfers call server buffer total client) ↔
      Completed call buffer (exchanges call server buffer buffer.length) := by
  have hrun := run_ends hserved buffer
  constructor
  · rintro ⟨total, client, htransfers⟩
    by_contra hnot
    obtain ⟨message, habort⟩ := (hrun buffer.length).aborts hnot
    rw [htransfers.returns buffer.length (Nat.le_refl _)] at habort
    exact absurd habort fun h => nomatch h
  · intro hdone
    obtain ⟨b, hok, hkept⟩ := (hrun buffer.length).returns hdone
    refine ⟨_, _, fun fuel hfuel => ?_, length_exchanges_le _, rfl, hkept.bytes, hkept.offsets⟩
    exact transferLoop_mono hok hfuel

/-- Every exchange was asked for by the call. -/
theorem exists_request_of_mem {n : Nat}
    (he : e ∈ exchanges call server buffer n) : ∃ pos, e.1 = call.request buffer pos := by
  refine exchanges_induction (P := fun _ log => ∀ e ∈ log, ∃ pos, e.1 = call.request buffer pos)
    (List.forall_mem_nil _) ?_ (fun _ _ ih => ih) n e he
  intro n log _ ih e he
  rcases List.mem_append.mp he with he | he
  · exact ih e he
  · rw [List.mem_singleton.mp he]
    exact ⟨_, rfl⟩

theorem transferred_exchanges_le (hserved : call.Served server) (buffer : Bytes) (n : Nat) :
    transferred (exchanges call server buffer n) ≤ buffer.length := by
  refine exchanges_induction (P := fun _ log => transferred log ≤ buffer.length) (Nat.zero_le _) ?_
    (fun _ _ ih => ih) n
  intro n log hgo _
  obtain ⟨-, hrest, -⟩ := call.size_request hgo.1
  have hcount := count_next_le (hserved log (call.request buffer (transferred log)))
  have hlt := hgo.1
  rw [transferred_append]
  omega

/-- A call that stops at the first chunk not served in full has stopped after as many requests as
the buffer has bytes. -/
theorem not_goesOn_of_short (hshort : ∀ e, call.goesOn e → e.1.size ≤ e.2.count) :
    ¬GoesOn call buffer (exchanges call server buffer buffer.length) := by
  intro hgo
  exact absurd hgo.1 (Nat.not_lt.mpr (le_transferred_of_goesOn hshort _ hgo))

theorem size_le_of_full (h : (!decide (e.2.count < e.1.size)) = true) : e.1.size ≤ e.2.count :=
  Nat.not_lt.mp (of_decide_eq_false ((Bool.not_eq_true' _).mp h))

/-- When a call does what it should. `read` and `write` always do. For the other two the offsets
of the requests have to fit their type, and the server has to take all bytes of a `pwrite` within
as many requests as there are bytes. -/
def Call.Completes (server : Server) (buffer : Bytes) : Call → Prop
  | .read _ | .write _ => True
  | .pread offset =>
    ∀ e ∈ exchanges (.pread offset) server buffer buffer.length, e.1.InRange
  | .pwrite offset =>
    (∀ e ∈ exchanges (.pwrite offset) server buffer buffer.length, e.1.InRange) ∧
      transferred (exchanges (.pwrite offset) server buffer buffer.length) = buffer.length

/-- The calls against any server that answers every chunk, also with zero. -/
theorem transfers_iff_completes (call : Call) (server : Server) (buffer : Bytes)
    (hserved : call.Served server) :
    (∃ total client, Transfers call server buffer total client) ↔
      call.Completes server buffer := by
  rw [transfers_iff_completed hserved]
  cases call with
  | read address | write address =>
    refine iff_of_true ⟨fun e he => ?_, not_goesOn_of_short fun e => size_le_of_full⟩ trivial
    obtain ⟨pos, hpos⟩ := exists_request_of_mem he
    rw [hpos]
    exact fun _ ho => absurd ho (Option.not_mem_none _)
  | pread offset =>
    constructor
    · exact Completed.inRange
    · exact fun hrange => ⟨hrange, not_goesOn_of_short fun e => size_le_of_full⟩
  | pwrite offset =>
    have hle := transferred_exchanges_le hserved buffer buffer.length
    constructor
    · intro hdone
      refine ⟨hdone.inRange, Nat.le_antisymm hle (Nat.not_lt.mp fun hlt => ?_)⟩
      exact hdone.ended ⟨hlt, fun _ _ => rfl⟩
    · rintro ⟨hrange, hall⟩
      exact ⟨hrange, fun hgo => absurd hall (Nat.ne_of_lt hgo.1)⟩

/-- A server that writes two bytes at most. -/
def shortServer : Server := fun _ request => .done (min request.size 2 : Nat) []

/-- Five bytes are written in three requests, two of which are served in part. -/
theorem transfers_short : exchanges (.pwrite 7) shortServer [1, 2, 3, 4, 5] 5 =
      [(⟨5, some 7, [1, 2, 3, 4, 5]⟩, .done 2 []), (⟨3, some 9, [3, 4, 5]⟩, .done 2 []),
        (⟨1, some 11, [5]⟩, .done 1 [])] ∧
    ∃ total client, Transfers (.pwrite 7) shortServer [1, 2, 3, 4, 5] total client := by
  have hlog : exchanges (.pwrite 7) shortServer [1, 2, 3, 4, 5] 5 =
      [(⟨5, some 7, [1, 2, 3, 4, 5]⟩, .done 2 []), (⟨3, some 9, [3, 4, 5]⟩, .done 2 []),
        (⟨1, some 11, [5]⟩, .done 1 [])] := rfl
  refine ⟨hlog, (transfers_iff_completes (.pwrite 7) shortServer [1, 2, 3, 4, 5] fun _ request =>
    ⟨_, [], rfl, Int.natCast_nonneg _, Int.ofNat_le.mpr (Nat.min_le_left _ _), trivial⟩).mpr
      ⟨?_, ?_⟩⟩
  · change ∀ e ∈ exchanges (.pwrite 7) shortServer [1, 2, 3, 4, 5] 5, e.1.InRange
    rw [hlog]
    simp only [List.forall_mem_cons, Request.InRange, Option.mem_some, forall_eq']
    decide
  · change transferred (exchanges (.pwrite 7) shortServer [1, 2, 3, 4, 5] 5) = 5
    rw [hlog]
    rfl

/-- A server whose volume is full. -/
def zeroServer : Server := fun _ _ => .done 0 []

theorem transferred_zeroServer (offset : Int) (buffer : Bytes) (n : Nat) :
    transferred (exchanges (.pwrite offset) zeroServer buffer n) = 0 := by
  refine exchanges_induction (P := fun _ log => transferred log = 0) rfl ?_ (fun _ _ ih => ih) n
  intro n log _ ih
  rw [transferred_append, ih]
  rfl

/-- `pwrite` never returns from a server that writes nothing. -/
theorem pwrite_never_returns :
    (pwrite 0).Served zeroServer ∧
      (∀ fuel, ∃ message, (pwrite 0).run zeroServer fuel ⟨[1], []⟩ = .abort message) ∧
      ¬∃ total client, Transfers (.pwrite 0) zeroServer [1] total client := by
  have hserved : (pwrite 0).Served zeroServer := fun _ request =>
    ⟨0, [], rfl, Int.le_refl _, Int.natCast_nonneg _, trivial⟩
  have hnever : ∀ fuel, ¬Completed (.pwrite 0) [1] (exchanges (.pwrite 0) zeroServer [1] fuel) := by
    intro fuel hdone
    refine hdone.ended ⟨?_, fun _ _ => rfl⟩
    rw [transferred_zeroServer]
    decide
  refine ⟨hserved, fun fuel => (run_ends hserved [1] fuel).aborts (hnever fuel), ?_⟩
  rw [transfers_iff_completed hserved]
  exact hnever _

end Runs
end Nanvix.Syscall
