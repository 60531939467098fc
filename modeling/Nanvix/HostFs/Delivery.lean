import Mathlib.Data.List.Nodup
import Nanvix.HostFs.Streams

/-!
# Every forwarded operation is answered once

`Flow` ties the pending table to the channels: the identifiers on their way are
those of the pending operations, each once, and every request taken from a client
is either pending or answered. It is kept by every step when no request is given
up after some of its parts were sent, and when identifier 0, which vfsd uses for
requests of its own, is not handed out. `Move` lists what a step can do then.
-/
namespace Nanvix.HostFs.Forwarding

open Nanvix.Library (mapErase mem_of_lookup ne_of_lookup_eq_none lookup_of_mem mapErase_of_ne
  mapErase_cons_self ne_of_mem_mapErase perm_mapErase)

variable {β : Type} {s : System β} {q : List Req} {p : List Rep}

variable {queue : PendingQueue}

section Identifiers

/-- The search ends at the first identifier that may be handed out. -/
theorem allocFrom_first {inUse : Nat → Bool} {attempts id : Nat} (hid : id < 2 ^ 32)
    (hfree : ∃ i, i < attempts ∧ (id + i) % 2 ^ 32 ≠ invalidId ∧
      inUse ((id + i) % 2 ^ 32) = false) :
    ∃ k, PendingQueue.allocFrom inUse attempts id = (id + k) % 2 ^ 32 ∧
      (id + k) % 2 ^ 32 ≠ invalidId ∧ inUse ((id + k) % 2 ^ 32) = false ∧
      ∀ i < k, (id + i) % 2 ^ 32 = invalidId ∨ inUse ((id + i) % 2 ^ 32) = true := by
  induction attempts generalizing id with
  | zero =>
    obtain ⟨i, hi, _⟩ := hfree
    exact absurd hi (Nat.not_lt_zero i)
  | succ attempts ih =>
    have hshift : ∀ i, ((id + 1) % 2 ^ 32 + i) % 2 ^ 32 = (id + (i + 1)) % 2 ^ 32 := by
      intro i
      omega
    unfold PendingQueue.allocFrom
    split
    · rename_i hskip
      have hrest : ∃ i, i < attempts ∧ ((id + 1) % 2 ^ 32 + i) % 2 ^ 32 ≠ invalidId ∧
          inUse (((id + 1) % 2 ^ 32 + i) % 2 ^ 32) = false := by
        simp only [hshift]
        obtain ⟨i, hi, hne, huse⟩ := hfree
        cases i with
        | zero =>
          rw [Nat.add_zero, Nat.mod_eq_of_lt hid] at hne huse
          exact (hskip.elim hne (Bool.eq_false_iff.mp huse)).elim
        | succ i => exact ⟨i, Nat.lt_of_succ_lt_succ hi, hne, huse⟩
      obtain ⟨k, hk, hne, huse, hbefore⟩ := ih (Nat.mod_lt _ (by decide)) hrest
      simp only [hshift] at hk hne huse hbefore
      refine ⟨k + 1, hk, hne, huse, fun i hi => ?_⟩
      cases i with
      | zero => rwa [Nat.add_zero, Nat.mod_eq_of_lt hid]
      | succ i => exact hbefore i (Nat.lt_of_succ_lt_succ hi)
    · rename_i hstop
      rw [not_or, Bool.not_eq_true] at hstop
      refine ⟨0, ?_⟩
      rw [Nat.add_zero, Nat.mod_eq_of_lt hid]
      exact ⟨rfl, hstop.1, hstop.2, fun i hi => absurd hi (Nat.not_lt_zero i)⟩

/-- More candidates than identifiers to skip: one of them is free. -/
theorem exists_free (queue : PendingQueue) (hroom : queue.ops.length + 2 ≤ 2 ^ 32) (id : Nat) :
    ∃ i, i < queue.ops.length + 2 ∧ (id + i) % 2 ^ 32 ≠ invalidId ∧
      queue.contains ((id + i) % 2 ^ 32) = false := by
  by_contra hnone
  have hall : ∀ i, i < queue.ops.length + 2 →
      (id + i) % 2 ^ 32 ∈ invalidId :: queue.ops.map Prod.fst := by
    intro i hi
    by_contra hout
    rw [List.mem_cons, not_or] at hout
    apply hnone
    refine ⟨i, hi, hout.1, ?_⟩
    unfold PendingQueue.contains
    rw [Option.isSome_eq_false_iff, Option.isNone_iff_eq_none]
    cases hlook : queue.ops.lookup ((id + i) % 2 ^ 32) with
    | none => rfl
    | some op => exact absurd (List.mem_map_of_mem (mem_of_lookup hlook)) hout.2
  have hnodup : ((List.range (queue.ops.length + 2)).map fun i => (id + i) % 2 ^ 32).Nodup := by
    apply List.Nodup.map_on _ List.nodup_range
    intro i hi j hj heq
    rw [List.mem_range] at hi hj
    omega
  have hsub : (List.range (queue.ops.length + 2)).map (fun i => (id + i) % 2 ^ 32) ⊆
      invalidId :: queue.ops.map Prod.fst := by
    intro x hx
    obtain ⟨i, hi, rfl⟩ := List.mem_map.mp hx
    exact hall i (List.mem_range.mp hi)
  have hlen := (List.subperm_of_subset hnodup hsub).length_le
  simp only [List.length_map, List.length_range, List.length_cons] at hlen
  omega

/-- The identifier that the allocator hands out. -/
theorem nextOpId_first (hcap : queue.hasCapacity = true) (hnext : queue.nextId < 2 ^ 32) :
    ∃ k, queue.nextOpId = (queue.nextId + k) % 2 ^ 32 ∧ queue.nextOpId ≠ invalidId ∧
      queue.contains queue.nextOpId = false ∧
      ∀ i < k, (queue.nextId + i) % 2 ^ 32 = invalidId ∨
        queue.contains ((queue.nextId + i) % 2 ^ 32) = true := by
  have hlen : queue.ops.length < 64 := of_decide_eq_true hcap
  have hroom : queue.ops.length + 2 ≤ 2 ^ 32 := by omega
  obtain ⟨k, hk, hrest⟩ := allocFrom_first hnext (exists_free queue hroom queue.nextId)
  rw [← hk] at hrest
  exact ⟨k, hk, hrest⟩

/-- An identifier handed out belongs to no pending operation. -/
theorem nextOpId_fresh (hcap : queue.hasCapacity = true) (hnext : queue.nextId < 2 ^ 32) :
    queue.nextOpId < 2 ^ 32 ∧ ∀ e ∈ queue.ops, e.1 ≠ queue.nextOpId := by
  obtain ⟨k, hk, -, hfree, -⟩ := nextOpId_first hcap hnext
  refine ⟨hk ▸ Nat.mod_lt _ (by decide), ne_of_lookup_eq_none ?_⟩
  unfold PendingQueue.contains at hfree
  rwa [Option.isSome_eq_false_iff, Option.isNone_iff_eq_none] at hfree

end Identifiers

section Tokens

/-- What identifies an operation on its way. -/
structure Token where
  id : Nat
  serial : Nat
  kind : OpKind

/-- What a request, a response and a pending entry have in common. -/
def Req.token (r : Req) : Token := ⟨r.id, r.serial, r.kind⟩

def Rep.token (r : Rep) : Token := ⟨r.id, r.serial, r.kind⟩

def pendingToken (e : Nat × PendingOp) : Token := ⟨e.1, e.2.serial, e.2.kind.op⟩

/-- Everything on its way that belongs to a client. -/
def tokens (q : List Req) (p : List Rep) : List Token :=
  (q.map Req.token ++ p.map Rep.token).filter fun t => t.id ≠ 0

theorem filter_token {t : Token} (h : t.id ≠ 0) : [t].filter (fun t => t.id ≠ 0) = [t] := by
  simp [h]

theorem tokens_cons_req (r : Req) (q : List Req) (p : List Rep) :
    tokens (r :: q) p = [r.token].filter (fun t => t.id ≠ 0) ++ tokens q p := by
  unfold tokens
  rw [← List.filter_append]
  rfl

/-- The order of the queues does not matter for what is on its way. -/
theorem tokens_perm {t : Token} {q q' : List Req} {p p' : List Rep}
    (h : (q'.map Req.token ++ p'.map Rep.token).Perm (t :: (q.map Req.token ++ p.map Rep.token))) :
    (tokens q' p').Perm ([t].filter (fun t => t.id ≠ 0) ++ tokens q p) := by
  unfold tokens
  rw [← List.filter_append]
  exact h.filter _

theorem tokens_append_req (r : Req) (q : List Req) (p : List Rep) :
    (tokens (q ++ [r]) p).Perm ([r.token].filter (fun t => t.id ≠ 0) ++ tokens q p) := by
  apply tokens_perm
  rw [List.map_append, List.append_assoc]
  exact List.perm_middle

theorem tokens_cons_rep (r : Rep) (q : List Req) (p : List Rep) :
    (tokens q (r :: p)).Perm ([r.token].filter (fun t => t.id ≠ 0) ++ tokens q p) :=
  tokens_perm List.perm_middle

theorem tokens_append_rep (r : Rep) (q : List Req) (p : List Rep) :
    (tokens q (p ++ [r])).Perm ([r.token].filter (fun t => t.id ≠ 0) ++ tokens q p) := by
  apply tokens_perm
  rw [List.map_append, ← List.append_assoc]
  exact List.perm_append_singleton _ _

end Tokens

/-- In the step vfsd refuses the request with the serial `n`, or cannot send a message of it: the
table is full, the body is too long, sending the request fails, or a response to it is taken when
sending fails. -/
def Unsent (n : Nat) : Command → System β → Prop
  | .forward _ _ kind body fail, s => n = s.nextSerial ∧ (s.queue.hasCapacity = true →
      ∀ msgs, requestMsgs kind.op s.queue.nextOpId body = some msgs →
        (System.transmit fail msgs).2 = false)
  | .serve, _ => False
  | .receive c, s => c.sendFails = true ∧ ∃ m rest, s.responses = (n, m) :: rest

/-- An answer that a step gives came from hostfsd's work on the very request, or it is vfsd's own
error and the request was not sent. -/
def Answered.TrueTo (a : Answered) (c : Command) (s : System β) : Prop :=
  a.origin = some a.serial ∨
    a.origin = none ∧ Unsent a.serial c s ∧ ∃ e, a.answer = .failed e

/-- What is pending, what is on its way and what is answered fit together. -/
structure Flow (s : System β) (q : List Req) (p : List Rep) : Prop where
  live : s.halted = false
  queued : Queued s.assembler s.requests q
  replied : Replied s.readlinkAsm s.responses p
  fits : ∀ r ∈ q, r.Fits
  replyIds : ∀ r ∈ p, r.id < 2 ^ 32
  pending : (tokens q p).Perm (s.queue.ops.map pendingToken)
  ids : (s.queue.ops.map Prod.fst).Nodup
  nextId : s.queue.nextId < 2 ^ 32
  serials : (s.queue.ops.map (fun e => e.2.serial) ++ s.answers.map Answered.serial).Perm s.accepted
  nodup : s.accepted.Nodup
  fresh : ∀ n ∈ s.accepted, n < s.nextSerial

theorem flow_boot (backend : β) : Flow (boot backend) [] [] where
  live := rfl
  queued := .inl ⟨rfl, rfl⟩
  replied := .inl ⟨rfl, rfl⟩
  fits := fun _ hr => nomatch hr
  replyIds := fun _ hr => nomatch hr
  pending := .refl _
  ids := List.nodup_nil
  nextId := by
    change 1 < 2 ^ 32
    decide
  serials := .refl _
  nodup := List.nodup_nil
  fresh := fun _ hn => nomatch hn

theorem forall_mem_snoc {α : Type} {P : α → Prop} {l : List α} {a : α} (h : ∀ x ∈ l, P x)
    (ha : P a) : ∀ x ∈ l ++ [a], P x :=
  List.forall_mem_append.mpr ⟨h, List.forall_mem_singleton.mpr ha⟩

variable {id : Nat} {op : PendingOp}

theorem nodup_ids {ops : List (Nat × PendingOp)}
    (hfresh : ∀ e ∈ ops, e.1 ≠ id) (h : (ops.map Prod.fst).Nodup) :
    (((id, op) :: ops).map Prod.fst).Nodup := by
  refine List.nodup_cons.mpr ⟨fun hmem => ?_, h⟩
  obtain ⟨e, he, heq⟩ := List.mem_map.mp hmem
  exact hfresh e he heq

/-- Sending gets nothing or all through. -/
def undivided (fail : Option Nat) (msgs : List RequestMsg) : Bool :=
  (System.transmit fail msgs).2 || (System.transmit fail msgs).1.isEmpty

/-- No request is given up halfway, and none gets the identifier that vfsd uses itself. -/
def unbroken : Command → System β → Bool
  | .forward _ _ kind body fail, s =>
    !s.queue.hasCapacity || (s.queue.nextOpId != 0 &&
      (requestMsgs kind.op s.queue.nextOpId body).all (undivided fail))
  | .serve, _ => true
  | .receive _, _ => true

variable {fail : Option Nat}

section Forward
variable {id : Nat} {op : PendingOp} {msgs : List RequestMsg}

theorem reserve_of_capacity (hcap : s.queue.hasCapacity = true) :
    s.reserve id op = { s with queue := s.queue.put id op } := by
  unfold System.reserve PendingQueue.insert
  rw [if_pos hcap]

theorem put_of_fresh (hfresh : ∀ e ∈ queue.ops, e.1 ≠ id) :
    queue.put id op = ⟨(id, op) :: queue.ops, queue.nextId⟩ := by
  unfold PendingQueue.put PendingQueue.remove
  simp only [mapErase_of_ne hfresh]

theorem dispatch_all (hcap : s.queue.hasCapacity = true)
    (hsent : System.transmit fail msgs = (msgs, true)) :
    s.dispatch id op msgs fail = ({ s with queue := s.queue.put id op }).send op.serial msgs := by
  have hcap' : (s.send op.serial msgs).queue.hasCapacity = true := hcap
  unfold System.dispatch
  simp only [hsent, if_true]
  split
  · rw [reserve_of_capacity hcap]
  · rw [reserve_of_capacity hcap']
    rfl

/-- Nothing was sent: the entry that `close` reserved is gone again. -/
theorem dispatch_nothing (hcap : s.queue.hasCapacity = true)
    (hfresh : ∀ e ∈ s.queue.ops, e.1 ≠ id) (hsent : System.transmit fail msgs = ([], false)) :
    s.dispatch id op msgs fail = s.answer op (.failed .ioErr) none := by
  have hdrop : (⟨(id, op) :: s.queue.ops, s.queue.nextId⟩ : PendingQueue).remove id = s.queue := by
    unfold PendingQueue.remove
    rw [mapErase_cons_self, mapErase_of_ne hfresh]
  unfold System.dispatch
  simp only [hsent, Bool.false_eq_true, if_false, System.send, List.map_nil, List.append_nil,
    reserve_of_capacity hcap, put_of_fresh hfresh, System.drop, hdrop]
  split <;> rfl

theorem transmit_of_undivided (h : undivided fail msgs = true) :
    System.transmit fail msgs = (msgs, true) ∨ System.transmit fail msgs = ([], false) := by
  unfold undivided at h
  cases hall : (System.transmit fail msgs).2 with
  | true =>
    left
    cases fail with
    | none => rfl
    | some i =>
      have hlen : msgs.length ≤ i := of_decide_eq_true hall
      exact Prod.ext (List.take_of_length_le hlen) hall
  | false =>
    right
    rw [hall, Bool.false_or, List.isEmpty_iff] at h
    exact Prod.ext h hall

end Forward

namespace Flow

section Clients

variable (h : Flow s q p)
include h

theorem serial_fresh : s.nextSerial ∉ s.accepted :=
  fun hmem => Nat.lt_irrefl _ (h.fresh _ hmem)

theorem nodup_accept : s.accept.accepted.Nodup := by
  unfold System.accept
  rw [← List.concat_eq_append]
  exact h.nodup.concat h.serial_fresh

theorem fresh_accept : ∀ n ∈ s.accept.accepted, n < s.accept.nextSerial :=
  forall_mem_snoc (fun n hn => Nat.lt_succ_of_lt (h.fresh n hn)) (Nat.lt_succ_self _)

theorem refuse {next : Nat} (hnext : next < 2 ^ 32) {a : Answered}
    (hserial : a.serial = s.nextSerial) :
    Flow { s.accept with queue := ⟨s.queue.ops, next⟩, answers := s.answers ++ [a] } q p where
  __ := h
  nextId := hnext
  serials := by
    simp only [List.map_append, List.map_cons, List.map_nil, hserial, ← List.append_assoc]
    exact h.serials.append_right _
  nodup := h.nodup_accept
  fresh := h.fresh_accept

/-- A request that is taken goes to the end of the way out. -/
theorem take {next : Nat} (hnext : next < 2 ^ 32) {r : Req}
    (hfits : r.Fits) (hzero : r.id ≠ 0) (hserial : r.serial = s.nextSerial)
    (htoken : pendingToken (r.id, op) = r.token) (hfresh : ∀ e ∈ s.queue.ops, e.1 ≠ r.id) :
    Flow { s.accept with
      queue := ⟨(r.id, op) :: s.queue.ops, next⟩
      requests := s.requests ++ r.envelopes } (q ++ [r]) p where
  __ := h
  queued := h.queued.append r
  fits := forall_mem_snoc h.fits hfits
  pending := by
    refine (tokens_append_req r q p).trans ?_
    rw [filter_token hzero, List.map_cons, htoken]
    exact h.pending.cons _
  ids := nodup_ids hfresh h.ids
  nextId := hnext
  serials := by
    have hop : op.serial = s.nextSerial := (congrArg Token.serial htoken).trans hserial
    simp only [List.map_cons, List.cons_append, hop]
    exact (h.serials.cons _).trans (List.perm_append_singleton _ _).symm
  nodup := h.nodup_accept
  fresh := h.fresh_accept

end Clients

section Serving
variable {handle : β → OpKind → Bytes → Result × β} {r : Req}

theorem serve_part (h : Flow s q p) {a : HostFsAssembler} {ch : List (Nat × RequestMsg)}
    (hqueued : Queued a ch q) : Flow { s with requests := ch, assembler := a } q p where
  __ := h
  queued := hqueued

/-- The response of hostfsd to a request. -/
def reply (handle : β → OpKind → Bytes → Result × β) (s : System β) (r : Req) : Rep :=
  ⟨r.serial, r.id, r.kind, (handle s.backend r.kind r.body).1⟩

theorem serve_last (h : Flow s (r :: q) p) :
    Flow ({ s with requests := q.flatMap Req.envelopes, assembler := .new }.respond handle r.serial
      r.kind r.id r.body) q (p ++ [reply handle s r]) where
  __ := h
  queued := .inl ⟨rfl, rfl⟩
  replied := h.replied.append (reply handle s r)
  fits := (List.forall_mem_cons.mp h.fits).2
  replyIds := forall_mem_snoc h.replyIds (h.fits r List.mem_cons_self).id_lt
  pending := by
    have hpending := h.pending
    rw [tokens_cons_req] at hpending
    exact (tokens_append_rep (reply handle s r) q p).trans hpending

end Serving

section Receiving
variable {r : Rep}

theorem receive_part (h : Flow s q p) {a : Option (LongMessage × Nat)}
    {ch : List (Nat × ResponseMsg)} (hreplied : Replied a ch p) :
    Flow { s with responses := ch, readlinkAsm := a } q p where
  __ := h
  replied := hreplied

/-- The identifier of a response to a client's request is pending, with its serial and kind. -/
theorem pending_of_reply (h : Flow s q (r :: p)) (hzero : r.id ≠ 0) :
    ∃ op, (r.id, op) ∈ s.queue.ops ∧ op.serial = r.serial ∧ op.kind.op = r.kind := by
  have hmem : r.token ∈ tokens q (r :: p) := by
    unfold tokens
    simp [Rep.token, hzero]
  obtain ⟨⟨id, op⟩, he, htoken⟩ := List.mem_map.mp (h.pending.mem_iff.mp hmem)
  have hid : id = r.id := congrArg Token.id htoken
  subst hid
  exact ⟨op, he, congrArg Token.serial htoken, congrArg Token.kind htoken⟩

/-- Identifier 0 is never pending. -/
theorem ne_zero_of_pending (h : Flow s q p) {e : Nat × PendingOp} (he : e ∈ s.queue.ops) :
    e.1 ≠ 0 := by
  have hmem := h.pending.mem_iff.mpr (List.mem_map_of_mem he)
  unfold tokens at hmem
  exact of_decide_eq_true (List.mem_filter.mp hmem).2

/-- A pending operation is answered. -/
def settled (s : System β) (id : Nat) (a : Answered) : System β :=
  { s with
    queue := s.queue.remove id
    answers := s.answers ++ [a] }

/-- The first response has been taken from the channel. -/
def taken (s : System β) (p : List Rep) : System β :=
  { s with
    responses := p.flatMap Rep.envelopes
    readlinkAsm := none }

theorem pass (h : Flow s q (r :: p)) (hzero : r.id = 0) : Flow (taken s p) q p where
  __ := h
  replied := .inl ⟨rfl, rfl⟩
  replyIds := (List.forall_mem_cons.mp h.replyIds).2
  pending := by
    have hskip : [r.token].filter (fun t => t.id ≠ 0) = [] := by
      simp [Rep.token, hzero]
    have hperm := tokens_cons_rep r q p
    rw [hskip, List.nil_append] at hperm
    exact hperm.symm.trans h.pending

/-- What is left on its way when the first response is taken. -/
theorem tokens_rest (h : Flow s q (r :: p)) (hop : (r.id, op) ∈ s.queue.ops)
    (htoken : pendingToken (r.id, op) = r.token) :
    (tokens q p).Perm ((mapErase r.id s.queue.ops).map pendingToken) := by
  have hzero : r.token.id ≠ 0 := h.ne_zero_of_pending hop
  have hops := (perm_mapErase h.ids hop).map pendingToken
  have htokens := tokens_cons_rep r q p
  rw [filter_token hzero, List.singleton_append] at htokens
  rw [List.map_cons, htoken] at hops
  exact ((htokens.symm.trans h.pending).trans hops).cons_inv

theorem ids_rest (h : Flow s q p) (id : Nat) : ((mapErase id s.queue.ops).map Prod.fst).Nodup :=
  h.ids.sublist (List.filter_sublist.map Prod.fst)

theorem serials_rest (h : Flow s q p) (hop : (id, op) ∈ s.queue.ops) :
    (op.serial :: ((mapErase id s.queue.ops).map (fun e => e.2.serial) ++
      s.answers.map Answered.serial)).Perm s.accepted :=
  (((perm_mapErase h.ids hop).map fun e => e.2.serial).append_right _).symm.trans h.serials

theorem settle (h : Flow s q (r :: p)) (hop : (r.id, op) ∈ s.queue.ops)
    (htoken : pendingToken (r.id, op) = r.token) {a : Answered} (hserial : a.serial = op.serial) :
    Flow (settled (taken s p) r.id a) q p where
  __ := h
  replied := .inl ⟨rfl, rfl⟩
  replyIds := (List.forall_mem_cons.mp h.replyIds).2
  pending := h.tokens_rest hop htoken
  ids := h.ids_rest r.id
  serials := by
    refine .trans ?_ (h.serials_rest hop)
    simp only [settled, taken, PendingQueue.remove, List.map_append, List.map_cons, List.map_nil,
      hserial, ← List.append_assoc]
    exact List.perm_append_singleton _ _

/-- vfsd's own request to close a descriptor. -/
def orphan (s : System β) (body : Bytes) : Req := ⟨s.nextSerial, 0, .close, body⟩

theorem close_orphan (h : Flow s q p) (body : Bytes) :
    Flow { s with
      requests := s.requests ++ (orphan s body).envelopes
      nextSerial := s.nextSerial + 1 } (q ++ [orphan s body]) p where
  __ := h
  queued := h.queued.append _
  fits := forall_mem_snoc h.fits ⟨Nat.two_pow_pos 32, fun hlong => nomatch hlong⟩
  pending := (tokens_append_req (orphan s body) q p).trans h.pending
  fresh := fun n hn => Nat.lt_succ_of_lt (h.fresh n hn)

/-- The request for the next entry of a directory. -/
def sweepReq (op : PendingOp) (id : Nat) (body : Bytes) : Req := ⟨op.serial, id, .getdents, body⟩

/-- A listing asks for more under the identifier it has. -/
theorem sweep (h : Flow s q (r :: p)) {op swept : PendingOp} (hop : (r.id, op) ∈ s.queue.ops)
    (htoken : pendingToken (r.id, op) = r.token) (hserial : swept.serial = op.serial)
    (hkind : swept.kind.op = .getdents) (body : Bytes) :
    Flow { taken s p with
      queue := s.queue.put r.id swept
      requests := s.requests ++ (sweepReq op r.id body).envelopes }
      (q ++ [sweepReq op r.id body]) p where
  __ := h
  queued := h.queued.append _
  replied := .inl ⟨rfl, rfl⟩
  fits := forall_mem_snoc h.fits ⟨h.replyIds r List.mem_cons_self, fun hlong => nomatch hlong⟩
  replyIds := (List.forall_mem_cons.mp h.replyIds).2
  pending := by
    have hzero : (sweepReq op r.id body).token.id ≠ 0 := h.ne_zero_of_pending hop
    have hswept : pendingToken (r.id, swept) = (sweepReq op r.id body).token := by
      simp only [pendingToken, Req.token, sweepReq, hserial, hkind]
    refine (tokens_append_req _ q p).trans ?_
    rw [filter_token hzero]
    simp only [PendingQueue.put, PendingQueue.remove, List.map_cons, hswept]
    exact (h.tokens_rest hop htoken).cons _
  ids := nodup_ids (fun _ => ne_of_mem_mapErase) (h.ids_rest r.id)
  serials := by
    simp only [PendingQueue.put, PendingQueue.remove, List.map_cons, hserial]
    exact h.serials_rest hop

end Receiving
end Flow

section Completion
variable {r : Rep} {op : PendingOp} {c : System.Conditions} {s' : System β}

/-- The entries of a directory that vfsd has still to ask for. -/
def PendingOpKind.rounds : PendingOpKind → Nat
  | .getdents _ _ _ targetCount entries => targetCount - entries.length
  | _ => 0

/-- What becomes of a pending operation with the last message of its response, and the requests
that vfsd sends then. -/
inductive Completes (c : System.Conditions) (s : System β) (p : List Rep) (r : Rep)
    (op : PendingOp) : List Req → System β → Prop
  | answered (a : Answered) (serial : a.serial = op.serial) (truthful : a.TrueTo (.receive c) s) :
      Completes c s p r op [] (Flow.settled (Flow.taken s p) r.id a)
  | orphaned (a : Answered) (serial : a.serial = op.serial) (truthful : a.TrueTo (.receive c) s)
      (body : Bytes) : Completes c s p r op [Flow.orphan s body]
        { Flow.settled (Flow.taken s p) r.id a with
          requests := s.requests ++ (Flow.orphan s body).envelopes
          nextSerial := s.nextSerial + 1 }
  | swept (kind : PendingOpKind) (getdents : kind.op = .getdents)
      (rounds : kind.rounds < op.kind.rounds) (body : Bytes) :
      Completes c s p r op [Flow.sweepReq op r.id body]
        { Flow.taken s p with
          queue := s.queue.put r.id { op with kind := kind }
          requests := s.requests ++ (Flow.sweepReq op r.id body).envelopes }

variable {new : List Req}

theorem Completes.flow (h : Flow s q (r :: p)) (hop : (r.id, op) ∈ s.queue.ops)
    (htoken : pendingToken (r.id, op) = r.token) (hc : Completes c s p r op new s') :
    Flow s' (q ++ new) p := by
  cases hc with
  | answered a hserial _ =>
    rw [List.append_nil]
    exact h.settle hop htoken hserial
  | orphaned a hserial _ body => exact (h.settle hop htoken hserial).close_orphan body
  | swept kind hkind _ body =>
    have hserial : ({ op with kind := kind } : PendingOp).serial = op.serial := rfl
    exact h.sweep hop htoken hserial hkind body

theorem Completes.requests (hc : Completes c s p r op new s') :
    s'.requests = s.requests ++ new.flatMap Req.envelopes := by
  cases hc with
  | answered a _ _ => exact (List.append_nil _).symm
  | orphaned a _ _ body | swept kind _ _ body =>
    exact congrArg (s.requests ++ ·) (List.append_nil _).symm

theorem Completes.responses (hc : Completes c s p r op new s') :
    s'.responses = p.flatMap Rep.envelopes := by
  cases hc with
  | answered a _ _ | orphaned a _ _ body | swept kind _ _ body => rfl

theorem completes_pendingOp {data : Bytes} (hserial : op.serial = r.serial)
    (hkind : op.kind.op = r.kind) :
    ∃ new, Completes c s p r op new
      (((Flow.taken s p).drop r.id).completePendingOp c op r.serial r.kind data) := by
  have hown : some r.serial = some op.serial := congrArg some hserial.symm
  unfold System.completePendingOp
  rw [if_pos hkind]
  split
  · split
    · unfold System.closeOrphan
      split
      · exact ⟨_, .answered ⟨_, _, _, _⟩ rfl (.inl hown)⟩
      · exact ⟨_, .orphaned ⟨_, _, _, _⟩ rfl (.inl hown) (data.take 4)⟩
    · exact ⟨_, .answered ⟨_, _, _, _⟩ rfl (.inl hown)⟩
  · exact ⟨_, .answered ⟨_, _, _, _⟩ rfl (.inl hown)⟩
  · exact ⟨_, .answered ⟨_, _, _, _⟩ rfl (.inl hown)⟩

/-- An operation that was put back and is then failed is gone. -/
theorem cancel_put (t : System β) (id : Nat) (op : PendingOp) :
    ({ t with queue := t.queue.put id op }).cancel id =
      Flow.settled t id ⟨op.serial, op.sourceTid, .failed .ioErr, none⟩ := by
  have hget : (t.queue.put id op).get id = some op := by
    unfold PendingQueue.get PendingQueue.put
    rw [List.lookup_cons_self]
  have hremove : (t.queue.put id op).remove id = t.queue.remove id := by
    simp only [PendingQueue.remove, PendingQueue.put, mapErase_cons_self]
    rw [mapErase_of_ne fun _ => ne_of_mem_mapErase]
  simp only [System.cancel, hget, System.drop, hremove]
  rfl

theorem completes_stepGetdents {remoteFd guestFd : Int} {nextOffset targetCount : Nat}
    {entries : List Bytes} {data : Bytes} {m : ResponseMsg} {rest : List (Nat × ResponseMsg)}
    (hch : s.responses = (r.serial, m) :: rest) (hserial : op.serial = r.serial)
    (hkind : op.kind = .getdents remoteFd guestFd nextOffset targetCount entries) :
    ∃ new, Completes c s p r op new ((Flow.taken s p).stepGetdents c r.id op r.serial remoteFd guestFd
      nextOffset targetCount entries data) := by
  unfold System.stepGetdents
  split
  · exact ⟨_, .answered ⟨_, _, _, _⟩ rfl (.inl (congrArg some hserial.symm))⟩
  · split
    · exact ⟨_, .answered ⟨_, _, _, _⟩ rfl (.inl (congrArg some hserial.symm))⟩
    · rename_i hmore
      simp only
      split
      · rename_i hfails
        rw [cancel_put]
        rw [← hserial] at hch
        exact ⟨_, .answered ⟨_, _, _, _⟩ rfl (.inr ⟨rfl, ⟨hfails, m, rest, hch⟩, _, rfl⟩)⟩
      · refine ⟨_, .swept
          (.getdents remoteFd guestFd (nextOffset + 1) targetCount (entries ++ [data])) rfl ?_
          (System.readdirBody remoteFd (nextOffset + 1))⟩
        rw [hkind]
        simp only [PendingOpKind.rounds, List.length_append, List.length_singleton]
        omega

theorem completes_receiveReply (h : Flow s q (r :: p)) {data : Bytes} {m : ResponseMsg}
    {rest : List (Nat × ResponseMsg)} (hch : s.responses = (r.serial, m) :: rest)
    (hop : (r.id, op) ∈ s.queue.ops) (hserial : op.serial = r.serial)
    (hkind : op.kind.op = r.kind) :
    ∃ new, Completes c s p r op new
      ((Flow.taken s p).receiveReply c r.serial r.kind r.id data) := by
  have hget : (Flow.taken s p).queue.get r.id = some op := lookup_of_mem h.ids hop
  unfold System.receiveReply
  simp only [hget]
  split
  · rename_i hop'
    exact completes_stepGetdents hch hserial hop'
  · exact completes_pendingOp hserial hkind

theorem completes_readlinkLong (h : Flow s q (r :: p)) {body : Bytes}
    (hop : (r.id, op) ∈ s.queue.ops) (hserial : op.serial = r.serial)
    (hkind : op.kind.op = r.kind) (hreadlink : r.kind = .readlink) :
    ∃ new, Completes c s p r op new
      ((Flow.taken s p).completeReadlinkLong r.serial r.id body) := by
  have hget : (Flow.taken s p).queue.get r.id = some op := lookup_of_mem h.ids hop
  unfold System.completeReadlinkLong
  simp only [hget]
  split
  · exact ⟨_, .answered ⟨_, _, _, _⟩ rfl (.inl (congrArg some hserial.symm))⟩
  · rename_i hother
    rw [hreadlink] at hkind
    cases hop' : op.kind with
    | readlink bufsiz => exact absurd hop' (hother bufsiz)
    | _ =>
      rw [hop'] at hkind
      cases hkind

end Completion

section Moves
variable {handle : β → OpKind → Bytes → Result × β} {c : Command} {s' : System β}
variable {q' : List Req} {p' : List Rep}

/-- What a command does to the daemons and the messages on their way. -/
inductive Move (handle : β → OpKind → Bytes → Result × β) (s : System β) (q : List Req)
    (p : List Rep) : Command → System β → List Req → List Rep → Prop
  | refused {tid : Nat} {pid : Option Nat} {kind : PendingOpKind} {body : Bytes}
      {fail : Option Nat} (next : Nat) (e : LocalError) (bound : next < 2 ^ 32)
      (unsent : Unsent s.nextSerial (.forward tid pid kind body fail) s) :
      Move handle s q p (.forward tid pid kind body fail)
        { s.accept with
          queue := ⟨s.queue.ops, next⟩
          answers := s.answers ++ [⟨s.nextSerial, tid, .failed e, none⟩] } q p
  | taken {tid : Nat} {pid : Option Nat} {kind : PendingOpKind} {body : Bytes}
      {fail : Option Nat} (next : Nat) (op : PendingOp) (r : Req) (bound : next < 2 ^ 32)
      (fits : r.Fits) (nonzero : r.id ≠ 0) (serial : r.serial = s.nextSerial)
      (token : pendingToken (r.id, op) = r.token) (fresh : ∀ e ∈ s.queue.ops, e.1 ≠ r.id) :
      Move handle s q p (.forward tid pid kind body fail)
        { s.accept with
          queue := ⟨(r.id, op) :: s.queue.ops, next⟩
          requests := s.requests ++ r.envelopes } (q ++ [r]) p
  | servedNothing (empty : q = []) : Move handle s q p .serve s q p
  | servedPart {e : Nat × RequestMsg} {ch : List (Nat × RequestMsg)} {a : HostFsAssembler}
      (channel : s.requests = e :: ch) (queued : Queued a ch q) :
      Move handle s q p .serve { s with requests := ch, assembler := a } q p
  | served {e : Nat × RequestMsg} (r : Req) (q' : List Req) (first : q = r :: q')
      (channel : s.requests = e :: q'.flatMap Req.envelopes) :
      Move handle s q p .serve
        ({ s with requests := q'.flatMap Req.envelopes, assembler := .new }.respond handle r.serial
          r.kind r.id r.body) q' (p ++ [Flow.reply handle s r])
  | receivedNothing {c : System.Conditions} (empty : p = []) :
      Move handle s q p (.receive c) s q p
  | receivedPart {c : System.Conditions} {e : Nat × ResponseMsg} {ch : List (Nat × ResponseMsg)}
      {a : Option (LongMessage × Nat)} (channel : s.responses = e :: ch)
      (replied : Replied a ch p) :
      Move handle s q p (.receive c) { s with responses := ch, readlinkAsm := a } q p
  | ignored {c : System.Conditions} {e : Nat × ResponseMsg} (r : Rep) (p' : List Rep)
      (first : p = r :: p') (channel : s.responses = e :: p'.flatMap Rep.envelopes)
      (zero : r.id = 0) : Move handle s q p (.receive c) (Flow.taken s p') q p'
  | completed {c : System.Conditions} {e : Nat × ResponseMsg} (r : Rep) (p' : List Rep)
      (first : p = r :: p') (channel : s.responses = e :: p'.flatMap Rep.envelopes)
      (op : PendingOp) (pending : (r.id, op) ∈ s.queue.ops)
      (token : pendingToken (r.id, op) = r.token) (new : List Req) (s' : System β)
      (completes : Completes c s p' r op new s') :
      Move handle s q p (.receive c) s' (q ++ new) p'

theorem Move.flow (h : Flow s q p) (hm : Move handle s q p c s' q' p') : Flow s' q' p' := by
  cases hm with
  | refused next e bound _ => exact h.refuse bound rfl
  | taken next op r bound fits nonzero serial token fresh =>
    exact h.take bound fits nonzero serial token fresh
  | servedNothing _ => exact h
  | servedPart _ queued => exact h.serve_part queued
  | served r q' first _ =>
    subst first
    exact h.serve_last
  | receivedNothing _ => exact h
  | receivedPart _ replied => exact h.receive_part replied
  | ignored r p' first _ zero =>
    subst first
    exact h.pass zero
  | completed r p' first _ op pending token new s' completes =>
    subst first
    exact completes.flow h pending token

/-- Answers are never taken back. -/
theorem Move.answers (hm : Move handle s q p c s' q' p') : s.answers <+: s'.answers := by
  cases hm with
  | refused => exact List.prefix_append _ _
  | completed r p' _ _ op _ _ new s' completes =>
    cases completes with
    | answered a _ _ | orphaned a _ _ body => exact List.prefix_append _ _
    | swept kind _ _ body => exact List.prefix_refl _
  | _ => exact List.prefix_refl _

/-- Every answer of a step is true to it. -/
theorem Move.trueTo (hm : Move handle s q p c s' q' p') {a : Answered} (ha : a ∈ s'.answers) :
    a ∈ s.answers ∨ a.TrueTo c s := by
  have hnew : ∀ b : Answered, a ∈ s.answers ++ [b] → b.TrueTo c s →
      a ∈ s.answers ∨ a.TrueTo c s := by
    intro b hmem hb
    rcases List.mem_append.mp hmem with hold | hlast
    · exact .inl hold
    · exact .inr (List.mem_singleton.mp hlast ▸ hb)
  cases hm with
  | refused next e _ unsent => exact hnew _ ha (.inr ⟨rfl, unsent, e, rfl⟩)
  | completed r p' _ _ op _ _ new s' completes =>
    cases completes with
    | answered b _ truthful | orphaned b _ truthful body => exact hnew b ha truthful
    | swept kind _ _ body => exact .inl ha
  | _ => exact .inl ha

theorem receive_move {conditions : System.Conditions} (h : Flow s q p) :
    ∃ q' p', Move handle s q p (.receive conditions) (s.receive conditions) q' p' := by
  cases p with
  | nil =>
    rw [h.replied.receive_nil]
    exact ⟨_, _, .receivedNothing rfl⟩
  | cons r p =>
    have hreceives : Replied.Receives conditions s r p :=
      h.replied.receive_cons (h.replyIds r List.mem_cons_self)
    rcases hreceives with ⟨e, ch, a, hch, heq, hreplied⟩ | ⟨e, t, hch, rfl, hlast⟩
    · rw [heq]
      exact ⟨_, _, .receivedPart hch hreplied⟩
    · by_cases hzero : r.id = 0
      · have hget : s.queue.get r.id = none := by
          cases hget : s.queue.get r.id with
          | none => rfl
          | some op => exact absurd hzero (h.ne_zero_of_pending (mem_of_lookup hget))
        have hsame : s.receive conditions = Flow.taken s p := by
          rcases hlast with ⟨data, heq⟩ | ⟨body, _, heq⟩
          · simp only [heq, System.receiveReply, hget]
            rfl
          · simp only [heq, System.completeReadlinkLong, hget]
            rfl
        rw [hsame]
        exact ⟨_, _, .ignored r p rfl hch hzero⟩
      · obtain ⟨op, hop, hserial, hkind⟩ := h.pending_of_reply hzero
        have htoken : pendingToken (r.id, op) = r.token := by
          simp only [pendingToken, Rep.token, hserial, hkind]
        have hcompletes : ∃ new, Completes conditions s p r op new (s.receive conditions) := by
          rcases hlast with ⟨data, heq⟩ | ⟨body, hreadlink, heq⟩
          · rw [heq]
            exact completes_receiveReply h hch hop hserial hkind
          · rw [heq]
            exact completes_readlinkLong h hop hserial hkind hreadlink
        obtain ⟨new, hnew⟩ := hcompletes
        exact ⟨_, _, .completed r p rfl hch op hop htoken new _ hnew⟩

theorem serve_move (h : Flow s q p) : ∃ q' p', Move handle s q p .serve (s.serve handle) q' p' := by
  cases q with
  | nil =>
    rw [h.queued.serve_nil]
    exact ⟨_, _, .servedNothing rfl⟩
  | cons r q =>
    have hserves : Queued.Serves handle s r q :=
      h.queued.serve_cons (h.fits r List.mem_cons_self)
    rcases hserves with ⟨e, ch, a, hch, heq, hqueued⟩ | ⟨e, hch, heq⟩
    · rw [heq]
      exact ⟨_, _, .servedPart hch hqueued⟩
    · rw [heq]
      exact ⟨_, _, .served r q rfl hch⟩

/-- A request is refused with an error of vfsd, or it is sent in full and pending. -/
theorem forward_move {tid : Nat} {pid : Option Nat} {kind : PendingOpKind} {body : Bytes}
    (h : Flow s q p) (hunbroken : unbroken (.forward tid pid kind body fail) s = true) :
    ∃ q' p', Move handle s q p (.forward tid pid kind body fail)
      (s.forward tid pid kind body fail) q' p' := by
  by_cases hcap : s.queue.hasCapacity = true
  · obtain ⟨hlt, hfresh⟩ := nextOpId_fresh hcap h.nextId
    simp only [unbroken, hcap, Bool.not_true, Bool.false_or, Bool.and_eq_true, bne_iff_ne]
      at hunbroken
    obtain ⟨hzero, hundivided⟩ := hunbroken
    have hnext : s.queue.advanced.nextId < 2 ^ 32 := Nat.mod_lt _ (by decide)
    simp only [System.forward, if_pos hcap]
    cases hmsgs : requestMsgs kind.op s.queue.nextOpId body with
    | none =>
      refine ⟨_, _, .refused _ .invalidArgument hnext ⟨rfl, fun _ msgs hsome => ?_⟩⟩
      rw [hmsgs] at hsome
      cases hsome
    | some msgs =>
      let r : Req := ⟨s.nextSerial, s.queue.nextOpId, kind.op, body⟩
      have hreq : requestMsgs r.kind r.id r.body = some msgs := hmsgs
      obtain ⟨rfl, hbody⟩ := Req.msgs_of_requestMsgs hreq
      have hcap' : ({ s.accept with queue := s.queue.advanced } : System β).queue.hasCapacity =
        true := hcap
      have hfresh' : ∀ e ∈ ({ s.accept with queue := s.queue.advanced } : System β).queue.ops,
        e.1 ≠ s.queue.nextOpId := hfresh
      rw [hmsgs] at hundivided
      rcases transmit_of_undivided hundivided with hsent | hsent
      · simp only [dispatch_all hcap' hsent]
        rw [put_of_fresh hfresh']
        exact ⟨_, _, .taken _ ⟨tid, pid, kind, s.nextSerial⟩ r hnext ⟨hlt, hbody⟩ hzero rfl rfl
          hfresh⟩
      · simp only [dispatch_nothing hcap' hfresh' hsent]
        refine ⟨_, _, .refused _ .ioErr hnext ⟨rfl, fun _ msgs hsome => ?_⟩⟩
        cases hmsgs.symm.trans hsome
        rw [hsent]
  · simp only [System.forward, if_neg hcap]
    exact ⟨_, _, .refused _ .resourceBusy h.nextId ⟨rfl, fun hroom => absurd hroom hcap⟩⟩

/-- Every step of an unbroken run is one of the moves. -/
theorem step_move (handle : β → OpKind → Bytes → Result × β) (h : Flow s q p)
    (hc : unbroken c s = true) :
    ∃ q' p', Move handle s q p c (step handle c s) q' p' := by
  have hlive : ¬ s.halted = true := by
    rw [h.live]
    exact Bool.false_ne_true
  cases c with
  | serve => exact serve_move h
  | receive conditions =>
    simp only [step, if_neg hlive]
    exact receive_move h
  | forward tid pid kind body fail =>
    simp only [step, if_neg hlive]
    exact forward_move h hc

end Moves
end Nanvix.HostFs.Forwarding
