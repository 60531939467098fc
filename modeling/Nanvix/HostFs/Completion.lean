import Mathlib.Data.List.Flatten
import Nanvix.HostFs.Delivery
import Nanvix.Library.Fairness

/-!
# Every forwarded operation is answered once

A pending operation waits for hostfsd to take its request or for vfsd to take the
response, and every message taken in front of it brings it closer (`Waits`). A
directory is read entry by entry, so that its operation waits again and again, but
for fewer entries each time. When both daemons keep taking messages, every request
taken from a client gets its answer, and only one.

A request that is given up halfway leaves hostfsd's assembler in the middle of it.
The first part of the next request in parts is then dropped, and the operation it
belongs to stays pending for good.
-/
namespace Nanvix.HostFs.Forwarding

open Nanvix.Library (Position position_nil position_last exists_position exists_of_rank
  mapErase mem_mapErase_of_ne eq_of_mem)

variable {β : Type} {s s' : System β} {q q' : List Req} {p p' : List Rep}
variable {handle : β → OpKind → Bytes → Result × β} {c : Command}

section Waiting

/-- The requests behind the first are all still in the channel. -/
theorem Queued.length_tail_le {a : HostFsAssembler} {ch : List (Nat × RequestMsg)}
    (h : Queued a ch q) : (q.tail.flatMap Req.envelopes).length ≤ ch.length := by
  rcases h with ⟨_, rfl⟩ | ⟨r, rs, k, rfl, _, _, _, _, rfl⟩
  · exact ((List.tail_sublist q).flatMap _).length_le
  · rw [List.tail_cons, List.length_append]
    exact Nat.le_add_left _ _

theorem Replied.length_tail_le {a : Option (LongMessage × Nat)} {ch : List (Nat × ResponseMsg)}
    (h : Replied a ch p) : (p.tail.flatMap Rep.envelopes).length ≤ ch.length := by
  rcases h with ⟨_, rfl⟩ | ⟨r, rs, text, k, rfl, _, _, _, _, _, rfl⟩
  · exact ((List.tail_sublist p).flatMap _).length_le
  · rw [List.tail_cons, List.length_append]
    exact Nat.le_add_left _ _

/-- How far an operation is from its answer: the entries of a directory still to be asked for, which
of the two channels its message is in, and the messages to be taken up to it. -/
structure Rank where
  rounds : Nat
  outward : Bool
  count : Nat

namespace Rank

def key (w : Rank) : Nat × Nat × Nat := (w.rounds, w.outward.toNat, w.count)

/-- The order in which a wait comes to its end. -/
def Below (w' w : Rank) : Prop :=
  Prod.Lex (· < ·) (Prod.Lex (· < ·) (· < ·)) w'.key w.key

theorem below_wf : WellFounded Below :=
  InvImage.wf key (Prod.lex Nat.lt_wfRel (Prod.lex Nat.lt_wfRel Nat.lt_wfRel)).wf

theorem below_of_rounds {w' w : Rank} (h : w'.rounds < w.rounds) : Below w' w :=
  .left _ _ h

theorem below_of_turn {rounds count count' : Nat} :
    Below ⟨rounds, false, count'⟩ ⟨rounds, true, count⟩ :=
  .right _ (.left _ _ Nat.zero_lt_one)

theorem below_of_count {rounds count count' : Nat} {outward : Bool} (h : count' < count) :
    Below ⟨rounds, outward, count'⟩ ⟨rounds, outward, count⟩ :=
  .right _ (.right _ h)

/-- The daemon that the operation waits for. -/
def helps (w : Rank) (c : Command) : Bool := if w.outward then c.isServe else c.isReceive

end Rank

/-- The request with serial `n` is pending under the identifier `i`, with `k` rounds to go. -/
def PendingAt (n k i : Nat) (s : System β) : Prop :=
  ∃ op, (i, op) ∈ s.queue.ops ∧ op.serial = n ∧ op.kind.rounds = k

/-- The message that the operation waits for is in the channel of its rank. -/
def Waits (n : Nat) (w : Rank) (s : System β) (q : List Req) (p : List Rep) : Prop :=
  ∃ i, PendingAt n w.rounds i s ∧
    match w.outward with
    | true => Position Req.envelopes Req.id i w.count q s.requests
    | false => Position Rep.envelopes Rep.id i w.count p s.responses

/-- The request has its answer. -/
def Settled (n : Nat) (s : System β) : Prop := n ∈ s.answers.map Answered.serial

end Waiting

section Steps
variable {n k i m : Nat}

variable {r : Rep} {op : PendingOp} {new : List Req} {conditions : System.Conditions}

/-- Operations other than the one whose response is taken stay pending. -/
theorem Completes.pendingAt
    (hc : Completes conditions s p r op new s') (hi : i ≠ r.id) (h : PendingAt n k i s) :
    PendingAt n k i s' := by
  obtain ⟨op', hop', hserial, hrounds⟩ := h
  have hkeep : (i, op') ∈ mapErase r.id s.queue.ops := mem_mapErase_of_ne hop' hi
  refine ⟨op', ?_, hserial, hrounds⟩
  cases hc with
  | answered a _ _ | orphaned a _ _ body => exact hkeep
  | swept kind _ _ body => exact List.mem_cons_of_mem _ hkeep

/-- The operation whose response is taken is answered, or has one round less to go. -/
theorem Completes.waits {w : Rank}
    (h : Flow s q (r :: p)) (hop : (r.id, op) ∈ s.queue.ops) (hc : Completes conditions s p r op new s')
    (hn : PendingAt n w.rounds r.id s) :
    Settled n s' ∨ ∃ w', w'.Below w ∧ Waits n w' s' (q ++ new) p := by
  obtain ⟨op', hop', rfl, hrounds⟩ := hn
  obtain rfl := eq_of_mem h.ids hop' hop
  have hanswer : ∀ a : Answered, a.serial = op'.serial →
      op'.serial ∈ (s.answers ++ [a]).map Answered.serial := by
    intro a ha
    rw [← ha]
    exact List.mem_map_of_mem (List.mem_append_right _ (List.mem_singleton_self a))
  cases hc with
  | answered a ha _ | orphaned a ha _ body => exact .inl (hanswer a ha)
  | swept kind _ hless body =>
    right
    refine ⟨⟨kind.rounds, true, _⟩, Rank.below_of_rounds (hrounds ▸ hless), r.id, ?_,
      position_last q _ rfl⟩
    exact ⟨{ op' with kind := kind }, List.mem_cons_self, rfl, rfl⟩

/-- A response in front of the one that an operation waits for. -/
theorem position_after {e : Nat × ResponseMsg} (hne : i ≠ r.id)
    (hch : s.responses = e :: p.flatMap Rep.envelopes)
    (h : Position Rep.envelopes Rep.id i m (r :: p) s.responses) :
    ∃ m', m' < m ∧ Position Rep.envelopes Rep.id i m' p (p.flatMap Rep.envelopes) := by
  rw [hch] at h
  obtain ⟨m', hm', hposition⟩ := h.advance (Nat.le_refl _)
  exact ⟨m', hm', hposition.tail fun heq => hne heq.symm⟩

/-- The operation has its answer or comes closer to it, or it waits for the other daemon. -/
def Nears (n : Nat) (w : Rank) (c : Command) (s : System β) (q : List Req) (p : List Rep) : Prop :=
  Settled n s ∨ (∃ w', w'.Below w ∧ Waits n w' s q p) ∨ Waits n w s q p ∧ w.helps c = false

/-- An operation that waits for hostfsd. -/
theorem Move.outward (h : Flow s q p) (hm : Move handle s q p c s' q' p')
    (hw : Waits n ⟨k, true, m⟩ s q p) : Nears n ⟨k, true, m⟩ c s' q' p' := by
  obtain ⟨i, hpending, hposition⟩ := hw
  change Position Req.envelopes Req.id i m q s.requests at hposition
  cases hm with
  | refused next e _ _ => exact .inr (.inr ⟨⟨i, hpending, hposition⟩, rfl⟩)
  | taken next op r _ _ _ _ _ _ =>
    obtain ⟨op', hop', hop''⟩ := hpending
    refine .inr (.inr ⟨⟨i, ⟨op', List.mem_cons_of_mem _ hop', hop''⟩, ?_⟩, rfl⟩)
    have happend := hposition.append [r]
    rwa [List.flatMap_singleton] at happend
  | servedNothing hnil =>
    rw [hnil] at hposition
    exact absurd hposition position_nil
  | servedPart hch hqueued =>
    rw [hch] at hposition
    obtain ⟨m', hm', hposition'⟩ := hposition.advance hqueued.length_tail_le
    exact .inr (.inl ⟨⟨k, true, m'⟩, Rank.below_of_count hm', i, hpending, hposition'⟩)
  | served r q' hq hch =>
    subst hq
    rw [hch] at hposition
    right
    left
    by_cases hi : r.id = i
    · -- The request itself: its response is now the last one on the way back.
      exact ⟨⟨k, false, _⟩, Rank.below_of_turn, i, hpending, position_last p _ hi⟩
    · obtain ⟨m', hm', hposition'⟩ := hposition.advance (Nat.le_refl _)
      exact ⟨⟨k, true, m'⟩, Rank.below_of_count hm', i, hpending, hposition'.tail hi⟩
  | receivedNothing _ | receivedPart _ _ | ignored r p' _ _ _ =>
    exact .inr (.inr ⟨⟨i, hpending, hposition⟩, rfl⟩)
  | completed r p' hp _ op hop _ new s' hc =>
    subst hp
    by_cases hi : i = r.id
    · subst hi
      exact (hc.waits h hop hpending).imp_right .inl
    · refine .inr (.inr ⟨⟨i, hc.pendingAt hi hpending, ?_⟩, rfl⟩)
      have happend := hposition.append new
      rwa [← hc.requests] at happend

/-- An operation that waits for vfsd. -/
theorem Move.inward (h : Flow s q p) (hm : Move handle s q p c s' q' p')
    (hw : Waits n ⟨k, false, m⟩ s q p) : Nears n ⟨k, false, m⟩ c s' q' p' := by
  obtain ⟨i, hpending, hposition⟩ := hw
  change Position Rep.envelopes Rep.id i m p s.responses at hposition
  cases hm with
  | refused next e _ _ => exact .inr (.inr ⟨⟨i, hpending, hposition⟩, rfl⟩)
  | taken next op r _ _ _ _ _ _ =>
    obtain ⟨op', hop', hop''⟩ := hpending
    exact .inr (.inr ⟨⟨i, ⟨op', List.mem_cons_of_mem _ hop', hop''⟩, hposition⟩, rfl⟩)
  | servedNothing _ | servedPart _ _ => exact .inr (.inr ⟨⟨i, hpending, hposition⟩, rfl⟩)
  | served r q' _ _ =>
    refine .inr (.inr ⟨⟨i, hpending, ?_⟩, rfl⟩)
    have happend := hposition.append [Flow.reply handle s r]
    rwa [List.flatMap_singleton] at happend
  | receivedNothing hnil =>
    rw [hnil] at hposition
    exact absurd hposition position_nil
  | receivedPart hch hreplied =>
    rw [hch] at hposition
    obtain ⟨m', hm', hposition'⟩ := hposition.advance hreplied.length_tail_le
    exact .inr (.inl ⟨⟨k, false, m'⟩, Rank.below_of_count hm', i, hpending, hposition'⟩)
  | ignored r p' hp hch hzero =>
    subst hp
    obtain ⟨op, hop, hop'⟩ := hpending
    have hi : i ≠ r.id := by
      rw [hzero]
      exact h.ne_zero_of_pending hop
    obtain ⟨m', hm', hposition'⟩ := position_after hi hch hposition
    exact .inr (.inl ⟨⟨k, false, m'⟩, Rank.below_of_count hm', i, ⟨op, hop, hop'⟩, hposition'⟩)
  | completed r p' hp hch op hop _ new s' hc =>
    subst hp
    by_cases hi : i = r.id
    · subst hi
      exact (hc.waits h hop hpending).imp_right .inl
    · obtain ⟨m', hm', hposition'⟩ := position_after hi hch hposition
      rw [← hc.responses] at hposition'
      exact .inr (.inl ⟨⟨k, false, m'⟩, Rank.below_of_count hm', i, hc.pendingAt hi hpending,
        hposition'⟩)

/-- A request taken from a client is answered, or waits at some rank. -/
theorem settled_or_waits (h : Flow s q p) (hn : n ∈ s.accepted) :
    Settled n s ∨ ∃ w, Waits n w s q p := by
  rcases List.mem_append.mp (h.serials.mem_iff.mpr hn) with hpending | hsettled
  · right
    obtain ⟨⟨i, op⟩, hop, hserial⟩ := List.mem_map.mp hpending
    have htoken := h.pending.mem_iff.mpr (List.mem_map_of_mem (f := pendingToken) hop)
    rcases List.mem_append.mp (List.mem_filter.mp htoken).1 with hmem | hmem
    · obtain ⟨r, hr, heq⟩ := List.mem_map.mp hmem
      have hid : r.id = i := congrArg Token.id heq
      obtain ⟨m, hposition⟩ : ∃ m, Position Req.envelopes Req.id i m q s.requests :=
        exists_position hr hid h.queued.length_tail_le
      exact ⟨⟨op.kind.rounds, true, m⟩, i, ⟨op, hop, hserial, rfl⟩, hposition⟩
    · obtain ⟨r, hr, heq⟩ := List.mem_map.mp hmem
      have hid : r.id = i := congrArg Token.id heq
      obtain ⟨m, hposition⟩ : ∃ m, Position Rep.envelopes Rep.id i m p s.responses :=
        exists_position hr hid h.replied.length_tail_le
      exact ⟨⟨op.kind.rounds, false, m⟩, i, ⟨op, hop, hserial, rfl⟩, hposition⟩
  · exact .inl hsettled

end Steps

section Runs
variable {n : Nat}

/-- Two answers never have one serial. -/
theorem Flow.answers_nodup (h : Flow s q p) : (s.answers.map Answered.serial).Nodup :=
  (List.nodup_append.mp (h.serials.nodup_iff.mpr h.nodup)).2.1

/-- Each answer is the only one to its request. -/
theorem Flow.filter_answers (h : Flow s q p) {a : Answered} (ha : a ∈ s.answers) :
    s.answers.filter (fun b => b.serial = a.serial) = [a] := by
  have hnodup := h.answers_nodup
  obtain ⟨before, after, heq⟩ := List.append_of_mem ha
  rw [heq] at hnodup ⊢
  rw [List.map_append, List.map_cons, List.nodup_middle, List.nodup_cons, ← List.map_append]
    at hnodup
  have hnone : ∀ b ∈ before ++ after, ¬ decide (b.serial = a.serial) = true := by
    intro b hb hserial
    apply hnodup.1
    rw [← of_decide_eq_true hserial]
    exact List.mem_map_of_mem hb
  have hbefore : before.filter (fun b => b.serial = a.serial) = [] :=
    List.filter_eq_nil_iff.mpr fun b hb => hnone b (List.mem_append_left _ hb)
  have hafter : after.filter (fun b => b.serial = a.serial) = [] :=
    List.filter_eq_nil_iff.mpr fun b hb => hnone b (List.mem_append_right _ hb)
  rw [List.filter_append, hbefore, List.filter_cons, if_pos (decide_eq_true rfl), hafter]
  rfl

/-- The operation `n` waits at this rank, and the daemons are in step with their channels. -/
def Ranked (n : Nat) (w : Rank) (s : System β) : Prop := ∃ q p, Flow s q p ∧ Waits n w s q p

/-- The states of a run. -/
def execution (handle : β → OpKind → Bytes → Result × β) (cmd : Nat → Command) (s : System β) :
    Nat → System β
  | 0 => s
  | i + 1 => step handle (cmd i) (execution handle cmd s i)

/-- An answer in a run: it came from hostfsd's work on the very request, or it is vfsd's own error
and in an earlier step vfsd refused the request or could not send a message of it. -/
def Answered.Truthful (a : Answered) (handle : β → OpKind → Bytes → Result × β)
    (cmd : Nat → Command) (s : System β) (i : Nat) : Prop :=
  a.origin = some a.serial ∨ a.origin = none ∧ (∃ e, a.answer = .failed e) ∧
    ∃ j < i, Unsent a.serial (cmd j) (execution handle cmd s j)

variable {cmd : Nat → Command} {backend : β}

/-- A step settles a request, brings it nearer or does not help it. -/
theorem ranked_step (hunbroken : ∀ i, unbroken (cmd i) (execution handle cmd s i) = true)
    (w : Rank) (i : Nat) (h : Ranked n w (execution handle cmd s i)) :
    Settled n (execution handle cmd s (i + 1)) ∨
      (∃ w', w'.Below w ∧ Ranked n w' (execution handle cmd s (i + 1))) ∨
      Ranked n w (execution handle cmd s (i + 1)) ∧ ¬ w.helps (cmd i) = true := by
  obtain ⟨q, p, hflow, hwaits⟩ := h
  obtain ⟨q', p', hmove⟩ := step_move handle hflow (hunbroken i)
  have hflow' := hmove.flow hflow
  have hnears : Nears n w (cmd i) (execution handle cmd s (i + 1)) q' p' := by
    obtain ⟨rounds, outward, count⟩ := w
    cases outward with
    | true => exact hmove.outward hflow hwaits
    | false => exact hmove.inward hflow hwaits
  rcases hnears with hsettled | ⟨w', hw', hwaits'⟩ | ⟨hsame, hidle⟩
  · exact .inl hsettled
  · exact .inr (.inl ⟨w', hw', q', p', hflow', hwaits'⟩)
  · exact .inr (.inr ⟨⟨q', p', hflow', hsame⟩, Bool.eq_false_iff.mp hidle⟩)

section
variable (hunbroken : ∀ i, unbroken (cmd i) (execution handle cmd (boot backend) i) = true)
include hunbroken

theorem flow_execution (i : Nat) : ∃ q p, Flow (execution handle cmd (boot backend) i) q p := by
  induction i with
  | zero => exact ⟨[], [], flow_boot backend⟩
  | succ i ih =>
    obtain ⟨q, p, hflow⟩ := ih
    obtain ⟨q', p', hmove⟩ := step_move handle hflow (hunbroken i)
    exact ⟨q', p', hmove.flow hflow⟩

theorem truthful_execution {i : Nat} {a : Answered}
    (ha : a ∈ (execution handle cmd (boot backend) i).answers) :
    a.Truthful handle cmd (boot backend) i := by
  induction i with
  | zero => cases ha
  | succ i ih =>
    obtain ⟨q, p, hflow⟩ := flow_execution hunbroken i
    obtain ⟨q', p', hmove⟩ := step_move handle hflow (hunbroken i)
    rcases hmove.trueTo ha with hold | hown | ⟨hnone, hunsent, herror⟩
    · rcases ih hold with hown | ⟨hnone, herror, j, hj, hunsent⟩
      · exact .inl hown
      · exact .inr ⟨hnone, herror, j, Nat.lt_succ_of_lt hj, hunsent⟩
    · exact .inl hown
    · exact .inr ⟨hnone, herror, i, Nat.lt_succ_self i, hunsent⟩

theorem answers_grow {i j : Nat} (hij : i ≤ j) : (execution handle cmd (boot backend) i).answers <+:
      (execution handle cmd (boot backend) j).answers := by
  induction j, hij using Nat.le_induction with
  | base => exact List.prefix_refl _
  | succ j _ ih =>
    obtain ⟨q, p, hflow⟩ := flow_execution hunbroken j
    obtain ⟨q', p', hmove⟩ := step_move handle hflow (hunbroken j)
    exact ih.trans hmove.answers

/-- The only answer that a request keeps is the one that it has at some time. -/
theorem eq_of_filter {i j : Nat} {a b : Answered}
    (hb : b ∈ (execution handle cmd (boot backend) i).answers)
    (hall : ∀ k, j ≤ k → (execution handle cmd (boot backend) k).answers.filter
      (fun c => c.serial = b.serial) = [a]) : a = b := by
  have hmem := (answers_grow hunbroken (Nat.le_max_left i j)).subset hb
  have hone : b ∈ [a] :=
    hall _ (Nat.le_max_right i j) ▸ List.mem_filter.mpr ⟨hmem, decide_eq_true rfl⟩
  exact (List.mem_singleton.mp hone).symm

end

/-- Some requests of clients, and then the two daemons in turn. -/
def inTurn (first : List Command) (i : Nat) : Command :=
  match first[i]? with
  | some c => c
  | none => if i % 2 = 0 then .serve else .receive ⟨false, false⟩

theorem inTurn_serve (first : List Command) (i : Nat) :
    ∃ j, i ≤ j ∧ (inTurn first j).isServe = true := by
  refine ⟨2 * (i + first.length), by omega, ?_⟩
  unfold inTurn
  rw [List.getElem?_eq_none (by omega)]
  simp only [Nat.mul_mod_right, if_true]
  rfl

theorem inTurn_receive (first : List Command) (i : Nat) :
    ∃ j, i ≤ j ∧ (inTurn first j).isReceive = true := by
  refine ⟨2 * (i + first.length) + 1, by omega, ?_⟩
  have hodd : ¬ (2 * (i + first.length) + 1) % 2 = 0 := by omega
  unfold inTurn
  rw [List.getElem?_eq_none (by omega)]
  simp only [if_neg hodd]
  rfl

/-- A host on which everything succeeds. -/
def succeed (_ : Unit) (_ : OpKind) (_ : Bytes) : Result × Unit := (.inline [0, 0, 0, 0], ())

/-- One client removes a file; the request of another one cannot be sent. -/
def unlinkOnce : Nat → Command :=
  inTurn [.forward 7 none .unlink (List.replicate 50 0) none, .forward 8 none .stat [] (some 0)]

theorem unbroken_unlink (i : Nat) :
    unbroken (unlinkOnce i) (execution succeed unlinkOnce (boot ()) i) = true := by
  match i with
  | 0 | 1 => decide +kernel
  | i + 2 =>
    simp only [unlinkOnce, inTurn, List.getElem?_cons_succ, List.getElem?_nil]
    split <;> rfl

/-- The first request is given up after one of its two parts. -/
def abandon : List Command :=
  [.forward 1 none (.open []) (List.replicate 50 0) (some 1), .forward 2 none .unlink [0, 0] none]

/-- Nothing is on its way, and the request with this serial has no answer. -/
def stranded (n : Nat) (s : System β) : Bool :=
  s.requests.isEmpty && s.responses.isEmpty && (s.answers.filter fun b => b.serial = n).isEmpty

theorem stranded_step (hc : c = .serve ∨ ∃ conditions, c = .receive conditions)
    (h : stranded n s = true) : stranded n (step handle c s) = true := by
  have hempty := h
  unfold stranded at hempty
  rw [Bool.and_eq_true, Bool.and_eq_true, List.isEmpty_iff, List.isEmpty_iff] at hempty
  have hsame : step handle c s = s := by
    rcases hc with rfl | ⟨conditions, rfl⟩
    · simp only [step, System.serve, hempty.1.1]
    · simp only [step, System.receive, hempty.1.2, ite_self]
  rw [hsame]
  exact h

end Runs
end Nanvix.HostFs.Forwarding
