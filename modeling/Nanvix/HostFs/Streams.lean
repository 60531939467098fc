import Mathlib.Data.List.Perm.Basic
import Nanvix.HostFs.Assembly

/-!
# The channels as queues of whole messages

A request that was transmitted in full is a `Req`, and a response is a `Rep`. As
long as no request is given up halfway, the channel to hostfsd together with its
assembler carries a queue of `Req`s (`Queued`), of which the first may have been
taken in part, and the channel back together with vfsd's assembler carries a queue
of `Rep`s (`Replied`). A step of a daemon then takes one more message of the first
element or finishes it.
-/
namespace Nanvix.HostFs.Forwarding

open Nanvix.HostFs.Forwarding.System

/-- A request on its way to hostfsd. -/
structure Req where
  serial : Nat
  id : Nat
  kind : OpKind
  body : Bytes

namespace Req

/-- The bytes of a request in parts. -/
def data (r : Req) : Bytes := toLeBytes r.id ++ r.body

def msgs (r : Req) : List RequestMsg :=
  if isLong r.kind r.body then (partsOf r.data).map (.part r.kind)
  else [.short r.kind r.id r.body]

def envelopes (r : Req) : List (Nat × RequestMsg) := r.msgs.map fun m => (r.serial, m)

/-- A request that the wire format can carry. -/
structure Fits (r : Req) : Prop where
  id_lt : r.id < 2 ^ 32
  body_le : isLong r.kind r.body = true → r.body.length ≤ maxBody r.kind

variable {r : Req}

theorem msgs_of_requestMsgs {msgs : List RequestMsg} (h : requestMsgs r.kind r.id r.body = some msgs) :
    msgs = r.msgs ∧ (isLong r.kind r.body = true → r.body.length ≤ maxBody r.kind) := by
  unfold requestMsgs at h
  unfold Req.msgs
  split at h
  · rename_i hlong
    split at h
    · cases h
    · rename_i hfit
      rw [if_pos hlong]
      exact ⟨(Option.some.inj h).symm, fun _ => Nat.le_of_not_lt hfit⟩
  · rename_i hlong
    rw [if_neg hlong]
    exact ⟨(Option.some.inj h).symm, fun hl => absurd hl hlong⟩

theorem data_ne_nil (r : Req) : r.data ≠ [] := by
  simp [data, toLeBytes]

theorem maxBody_le (kind : OpKind) : 4 + maxBody kind ≤ maxLongBufferSize := by
  cases kind <;> decide

theorem length_data_le (h : r.Fits) (hlong : isLong r.kind r.body = true) :
    r.data.length ≤ maxLongBufferSize := by
  have hbody := h.body_le hlong
  have hmax := maxBody_le r.kind
  simp only [data, List.length_append, length_toLeBytes]
  omega

theorem numParts_le (h : r.Fits) (hlong : isLong r.kind r.body = true) :
    numParts r.data ≤ maxTotalParts := by
  have hlen := length_data_le h hlong
  unfold numParts maxTotalParts divCeil partPayloadSize
  omega

theorem fromLeBytes_data (h : r.Fits) : fromLeBytes r.data = r.id :=
  fromLeBytes_append h.id_lt r.body

theorem drop_data (r : Req) : r.data.drop 4 = r.body := rfl

/-- hostfsd's assembler after it has taken the first `k` parts of a request, `k` not zero. -/
def taken (r : Req) (k : Nat) : HostFsAssembler :=
  ⟨some r.kind, numParts r.data, k, k, r.data.take (k * partPayloadSize)⟩

theorem begun_taken {k : Nat} (kind : OpKind) (total : Nat) :
    (r.taken k).begun kind total = r.taken k := rfl

theorem begun_new (r : Req) : HostFsAssembler.new.begun r.kind (numParts r.data) = r.taken 0 := by
  simp [HostFsAssembler.begun, HostFsAssembler.new, taken]

/-- Parts of a request that fits, taken in order, never cause an error. -/
theorem addPart_in_order {a : HostFsAssembler} {k : Nat} (h : r.Fits)
    (hlong : isLong r.kind r.body = true) (hk : k < numParts r.data)
    (ha : a = if k = 0 then .new else r.taken k) :
    a.addPart r.kind (partOf r.data k) =
      (if numParts r.data ≤ k + 1 then .complete else .needMore, r.taken (k + 1)) := by
  have hbegun : a.begun r.kind (numParts r.data) = r.taken k := by
    rw [ha]
    split
    · rename_i hzero
      rw [hzero]
      exact begun_new r
    · exact begun_taken _ _
  have hstart : k = 0 → a.header = none := by
    intro hzero
    rw [ha, if_pos hzero]
    rfl
  have hbuffer : r.data.take (k * partPayloadSize) ++ (partOf r.data k).payload.take
      partPayloadSize = r.data.take ((k + 1) * partPayloadSize) := by
    rw [partOf, chunk_take, take_append_chunk]
  have hroom := (List.length_take_le' ((k + 1) * partPayloadSize) r.data).trans
    (length_data_le h hlong)
  rw [addPart_next hbegun hstart hk (numParts_le h hlong) rfl rfl (hbuffer ▸ hroom), hbuffer]
  rfl

end Req

/-- The channel to hostfsd and its assembler carry these requests, the first perhaps in part. -/
def Queued (a : HostFsAssembler) (ch : List (Nat × RequestMsg)) (q : List Req) : Prop :=
  (a = .new ∧ ch = q.flatMap Req.envelopes) ∨
    ∃ r rs k, q = r :: rs ∧ isLong r.kind r.body = true ∧ 0 < k ∧ k < numParts r.data ∧
      a = r.taken k ∧ ch = r.envelopes.drop k ++ rs.flatMap Req.envelopes

namespace Queued
variable {a : HostFsAssembler} {ch : List (Nat × RequestMsg)} {q : List Req} {r : Req}

theorem envelopes_of_long (hlong : isLong r.kind r.body = true) :
    r.envelopes = (partsOf r.data).map fun p => (r.serial, .part r.kind p) := by
  unfold Req.envelopes Req.msgs
  rw [if_pos hlong, List.map_map]
  rfl

/-- A request transmitted in full joins the end of the queue. -/
theorem append (h : Queued a ch q) (r : Req) : Queued a (ch ++ r.envelopes) (q ++ [r]) := by
  rcases h with ⟨ha, hch⟩ | ⟨r₀, rs, k, hq, hlong, hpos, hk, ha, hch⟩
  · left
    exact ⟨ha, by rw [hch, List.flatMap_append, List.flatMap_singleton]⟩
  · right
    refine ⟨r₀, rs ++ [r], k, by rw [hq, List.cons_append], hlong, hpos, hk, ha, ?_⟩
    rw [hch, List.flatMap_append, List.flatMap_singleton, List.append_assoc]

section Serve
variable {β : Type} {handle : β → OpKind → Bytes → Result × β} {s : System β}

/-- hostfsd takes one more message of the first request, or its last one and responds. -/
def Serves (handle : β → OpKind → Bytes → Result × β) (s : System β) (r : Req) (rs : List Req) :
    Prop :=
  (∃ e ch a, s.requests = e :: ch ∧ s.serve handle = { s with requests := ch, assembler := a } ∧
    Queued a ch (r :: rs)) ∨
  ∃ e, s.requests = e :: rs.flatMap Req.envelopes ∧
    s.serve handle = ({ s with
      requests := rs.flatMap Req.envelopes
      assembler := .new } : System β).respond handle r.serial r.kind r.id r.body

/-- hostfsd takes part `k` of the first request. -/
theorem serve_part {rs : List Req} {k : Nat} (hfits : r.Fits)
    (hlong : isLong r.kind r.body = true) (hk : k < numParts r.data)
    (ha : s.assembler = if k = 0 then .new else r.taken k)
    (hch : s.requests = r.envelopes.drop k ++ rs.flatMap Req.envelopes) : Serves handle s r rs := by
  have hdrop : r.envelopes.drop k =
      (r.serial, .part r.kind (partOf r.data k)) :: r.envelopes.drop (k + 1) := by
    rw [envelopes_of_long hlong, ← List.map_drop, drop_partsOf hk, List.map_cons, List.map_drop]
  have hadd := Req.addPart_in_order hfits hlong hk ha
  rw [hdrop, List.cons_append] at hch
  by_cases hlast : numParts r.data ≤ k + 1
  · right
    have heq : k + 1 = numParts r.data := by omega
    have hempty : r.envelopes.drop (k + 1) = [] := by
      apply List.drop_eq_nil_of_le
      rw [envelopes_of_long hlong, List.length_map, length_partsOf, heq]
    have hbuffer : (r.taken (k + 1)).buffer = r.data := by
      rw [heq]
      exact take_numParts r.data
    rw [hempty, List.nil_append] at hch
    refine ⟨_, hch, ?_⟩
    simp only [serve, hch, handleLongPart, hadd, if_pos hlast, hbuffer,
      Req.fromLeBytes_data hfits, Req.drop_data]
    rfl
  · left
    refine ⟨_, _, r.taken (k + 1), hch, ?_, .inr ⟨r, rs, k + 1, rfl, hlong, Nat.succ_pos k,
      Nat.lt_of_not_le hlast, rfl, rfl⟩⟩
    simp only [serve, hch, handleLongPart, hadd, if_neg hlast]

/-- The next message is a part of the first request or completes it. -/
theorem serve_cons {rs : List Req} (h : Queued s.assembler s.requests (r :: rs))
    (hfits : r.Fits) : Serves handle s r rs := by
  rcases h with ⟨ha, hch⟩ | ⟨r₀, rs₀, k, hq, hlong, hpos, hk, ha, hch⟩
  · rw [List.flatMap_cons] at hch
    cases hlong : isLong r.kind r.body with
    | true => exact serve_part hfits hlong (numParts_pos r.data_ne_nil) ha hch
    | false =>
      right
      have hone : r.envelopes = [(r.serial, .short r.kind r.id r.body)] := by
        simp [Req.envelopes, Req.msgs, hlong]
      rw [hone, List.singleton_append] at hch
      refine ⟨_, hch, ?_⟩
      simp only [serve, hch]
      rw [← ha]
  · cases hq
    apply serve_part hfits hlong hk _ hch
    rw [if_neg (Nat.ne_of_gt hpos)]
    exact ha

theorem serve_nil (h : Queued s.assembler s.requests []) : s.serve handle = s := by
  rcases h with ⟨_, hch⟩ | ⟨r₀, rs₀, k, hq, _⟩
  · simp only [serve, hch, List.flatMap_nil]
  · cases hq

end Serve
end Queued

/-- A response on its way to vfsd. -/
structure Rep where
  serial : Nat
  id : Nat
  kind : OpKind
  result : Result

namespace Rep

def msgs (r : Rep) : List ResponseMsg := responseMsgs r.id r.kind r.result

def envelopes (r : Rep) : List (Nat × ResponseMsg) := r.msgs.map fun m => (r.serial, m)

/-- A response is one message, or the parts of a long `readlink` answer. -/
theorem msgs_cases (r : Rep) :
    (∃ data, r.msgs = [.reply r.kind r.id data]) ∨
      ∃ text, r.kind = .readlink ∧
        r.msgs = (partsOf (readlinkBody r.id text)).map .readlinkPart := by
  unfold msgs responseMsgs
  split
  · rename_i text hkind _
    split
    · exact .inl ⟨_, by rw [hkind]⟩
    · exact .inr ⟨text, hkind, rfl⟩
  · exact .inl ⟨_, rfl⟩
  · exact .inl ⟨_, rfl⟩

end Rep

section LongMessage
variable {body : Bytes} {k : Nat}

/-- vfsd's assembler after the first `k` parts of a long response. -/
def LongMessage.taken (body : Bytes) (k : Nat) : LongMessage :=
  ⟨numParts body, (List.range k).map (partOf body)⟩

theorem LongMessage.insertSorted_of_le {p : Part} {l : List Part}
    (h : ∀ q ∈ l, q.partNumber ≤ p.partNumber) : insertSorted p l = l ++ [p] := by
  induction l with
  | nil => rfl
  | cons q l ih =>
    rw [List.forall_mem_cons] at h
    simp only [insertSorted, if_pos h.1, ih h.2, List.cons_append]

theorem LongMessage.isComplete_taken :
    (LongMessage.taken body (k + 1)).isComplete = decide (numParts body = k + 1) := by
  simp [isComplete, taken, List.range_succ, partOf]

theorem LongMessage.isComplete_taken_lt (h : k < numParts body) :
    (LongMessage.taken body k).isComplete = false := by
  cases k with
  | zero => rfl
  | succ k =>
    rw [isComplete_taken]
    simp only [decide_eq_false_iff_not]
    omega

/-- Parts taken in order are kept in order. -/
theorem LongMessage.addPart_taken (h : k < numParts body) :
    (LongMessage.taken body k).addPart (partOf body k) = some (LongMessage.taken body (k + 1)) := by
  have hroom : ¬ ((LongMessage.taken body k).parts.length = (LongMessage.taken body k).capacity ∨
      (LongMessage.taken body k).isComplete = true) := by
    rw [isComplete_taken_lt h]
    simp only [taken, List.length_map, List.length_range, Bool.false_eq_true, or_false]
    omega
  unfold addPart
  rw [if_neg hroom, insertSorted_of_le]
  · simp [taken, List.range_succ]
  · intro q hq
    obtain ⟨i, hi, rfl⟩ := List.mem_map.mp hq
    exact (List.mem_range.mp hi).le

end LongMessage

/-- The channel to vfsd and its assembler carry these responses, the first perhaps in part. -/
def Replied (a : Option (LongMessage × Nat)) (ch : List (Nat × ResponseMsg)) (p : List Rep) :
    Prop :=
  (a = none ∧ ch = p.flatMap Rep.envelopes) ∨
    ∃ r rs text k, p = r :: rs ∧ r.kind = .readlink ∧
      r.msgs = (partsOf (readlinkBody r.id text)).map .readlinkPart ∧ 0 < k ∧
      k < numParts (readlinkBody r.id text) ∧
      a = some (LongMessage.taken (readlinkBody r.id text) k, r.id) ∧
      ch = r.envelopes.drop k ++ rs.flatMap Rep.envelopes

namespace Replied
variable {β : Type} {a : Option (LongMessage × Nat)} {ch : List (Nat × ResponseMsg)}
variable {p : List Rep} {r : Rep} {s : System β}

theorem append (h : Replied a ch p) (r : Rep) : Replied a (ch ++ r.envelopes) (p ++ [r]) := by
  rcases h with ⟨ha, hch⟩ | ⟨r₀, rs, text, k, hp, hkind, hmsgs, hpos, hk, ha, hch⟩
  · left
    exact ⟨ha, by rw [hch, List.flatMap_append, List.flatMap_singleton]⟩
  · right
    refine ⟨r₀, rs ++ [r], text, k, by rw [hp, List.cons_append], hkind, hmsgs, hpos, hk, ha, ?_⟩
    rw [hch, List.flatMap_append, List.flatMap_singleton, List.append_assoc]

theorem readlinkBody_ne_nil (id : Nat) (text : Bytes) : readlinkBody id text ≠ [] := by
  simp [readlinkBody, toLeBytes]

/-- The first part of a long response carries the identifier. -/
theorem first_chunk (id : Nat) (text : Bytes) (hid : id < 2 ^ 32) :
    ¬ (chunk (readlinkBody id text) 0).length < 4 ∧
      fromLeBytes (chunk (readlinkBody id text) 0) = id := by
  have hchunk : chunk (readlinkBody id text) 0 =
      toLeBytes id ++ ([0, 0, 0, 0] ++ ([UInt8.ofNat text.length,
        UInt8.ofNat (text.length / 2 ^ 8)] ++ text)).take 40 := rfl
  rw [hchunk]
  constructor
  · simp
  · exact fromLeBytes_append hid _

/-- vfsd takes one more message of the first response, or its last one and looks for the pending
operation. -/
def Receives (c : Conditions) (s : System β) (r : Rep) (rs : List Rep) : Prop :=
  (∃ e ch a, s.responses = e :: ch ∧
    s.receive c = { s with responses := ch, readlinkAsm := a } ∧ Replied a ch (r :: rs)) ∨
  ∃ m t, s.responses = (r.serial, m) :: rs.flatMap Rep.envelopes ∧
    t = { s with responses := rs.flatMap Rep.envelopes, readlinkAsm := none } ∧
    ((∃ data, s.receive c = t.receiveReply c r.serial r.kind r.id data) ∨
      ∃ body, r.kind = .readlink ∧ s.receive c = t.completeReadlinkLong r.serial r.id body)

variable {c : Conditions}

/-- vfsd takes part `k` of the first response. -/
theorem receive_part {rs : List Rep} {text : Bytes} {k : Nat}
    (hid : r.id < 2 ^ 32) (hkind : r.kind = .readlink)
    (hmsgs : r.msgs = (partsOf (readlinkBody r.id text)).map .readlinkPart)
    (hk : k < numParts (readlinkBody r.id text)) (ha : s.readlinkAsm =
      if k = 0 then none else some (LongMessage.taken (readlinkBody r.id text) k, r.id))
    (hch : s.responses = r.envelopes.drop k ++ rs.flatMap Rep.envelopes) : Receives c s r rs := by
  have hdrop : r.envelopes.drop k =
      (r.serial, .readlinkPart (partOf (readlinkBody r.id text) k)) ::
        r.envelopes.drop (k + 1) := by
    unfold Rep.envelopes
    rw [hmsgs, ← List.map_drop, ← List.map_drop, drop_partsOf hk, List.map_cons, List.map_cons,
      List.map_drop, List.map_drop]
  have hadd := LongMessage.addPart_taken hk
  have hone : 1 ≤ numParts (readlinkBody r.id text) := numParts_pos (readlinkBody_ne_nil _ _)
  obtain ⟨hfirst, hfirstId⟩ := first_chunk r.id text hid
  rw [hdrop, List.cons_append] at hch
  -- Whether the part starts the stream or not, it is added to the parts before it.
  have hstep : s.receive c = ({ s with
      responses := r.envelopes.drop (k + 1) ++ rs.flatMap Rep.envelopes
      readlinkAsm := some (LongMessage.taken (readlinkBody r.id text) k, r.id) } :
        System β).addReadlinkPart r.serial (partOf (readlinkBody r.id text) k) := by
    simp only [receive, hch, receiveReadlinkPart]
    cases k with
    | zero =>
      have hnone : s.readlinkAsm = none := ha
      simp only [partOf, if_true, if_neg hfirst, hnone, hfirstId, max_eq_left hone]
      rfl
    | succ k =>
      have hsome : s.readlinkAsm =
          some (LongMessage.taken (readlinkBody r.id text) (k + 1), r.id) := ha
      simp only [partOf, Nat.succ_ne_zero, if_false]
      rw [← hsome]
  simp only [addReadlinkPart, hadd, LongMessage.isComplete_taken, decide_eq_true_eq] at hstep
  by_cases hlast : numParts (readlinkBody r.id text) = k + 1
  · right
    have hempty : r.envelopes.drop (k + 1) = [] := by
      apply List.drop_eq_nil_of_le
      unfold Rep.envelopes
      rw [hmsgs, List.length_map, List.length_map, length_partsOf, hlast]
    rw [hempty, List.nil_append] at hch hstep
    rw [if_pos hlast] at hstep
    exact ⟨_, _, hch, rfl, .inr ⟨_, hkind, hstep⟩⟩
  · left
    rw [if_neg hlast] at hstep
    exact ⟨_, _, _, hch, hstep, .inr ⟨r, rs, text, k + 1, rfl, hkind, hmsgs, Nat.succ_pos k,
      by omega, rfl, rfl⟩⟩

/-- The next message is a part of the first response or completes it. -/
theorem receive_cons {rs : List Rep}
    (h : Replied s.readlinkAsm s.responses (r :: rs)) (hid : r.id < 2 ^ 32) :
    Receives c s r rs := by
  rcases h with ⟨ha, hch⟩ | ⟨r₀, rs₀, text, k, hp, hkind, hmsgs, hpos, hk, ha, hch⟩
  · rw [List.flatMap_cons] at hch
    rcases r.msgs_cases with ⟨data, hmsgs⟩ | ⟨text, hkind, hmsgs⟩
    · right
      have hone : r.envelopes = [(r.serial, .reply r.kind r.id data)] := by
        unfold Rep.envelopes
        rw [hmsgs]
        rfl
      rw [hone, List.singleton_append] at hch
      refine ⟨_, _, hch, rfl, .inl ⟨data, ?_⟩⟩
      simp only [receive, hch]
      rw [← ha]
    · exact receive_part hid hkind hmsgs (numParts_pos (readlinkBody_ne_nil _ _)) ha hch
  · cases hp
    apply receive_part hid hkind hmsgs hk _ hch
    rw [if_neg (Nat.ne_of_gt hpos)]
    exact ha

theorem receive_nil (h : Replied s.readlinkAsm s.responses []) : s.receive c = s := by
  rcases h with ⟨_, hch⟩ | ⟨r₀, rs₀, text, k, hp, _⟩
  · simp only [receive, hch, List.flatMap_nil]
  · cases hp

end Replied
end Nanvix.HostFs.Forwarding
