import Nanvix.Syscall.TransferExact

/-!
# Transfers that fail

A server may also answer a request with an error status. Each of the four calls
hands the first such status on as its own error, whether or not the requests before
it transferred bytes; how many they transferred is lost. A call reports truthfully
just when no request that it makes after a transferred byte fails.
-/
namespace Nanvix.Syscall

open HostFs (Bytes)
open Library Library.Prog

def Reply.isError : Reply → Bool
  | .failed _ => true
  | _ => false

/-- The server answers each request with an error status or as `Call.Served` says. -/
def Call.Answered (call : Call) (server : Server) : Prop :=
  ∀ log request, (server log request).isError ∨ call.ServedAt server log request

/-- What a call should report: an error only if nothing was transferred, and otherwise how much
was transferred before the error. -/
structure Reports (call : Call) (server : Server) (buffer : Bytes) : Prop where
  nothing : ∀ fuel error client, call.run server fuel ⟨buffer, []⟩ = .err error client →
    transferred client.log = 0
  count : ∀ fuel client, (call.run server fuel ⟨buffer, []⟩).final = some client →
    (∃ e ∈ client.log, e.2.isError) → 0 < transferred client.log →
    call.run server fuel ⟨buffer, []⟩ = .ok (transferred client.log) client

/-- Exchanges that a call makes, each with a request that the server serves. -/
inductive Made (call : Call) (server : Server) (buffer : Bytes) : List Exchange → Prop
  | nil : Made call server buffer []
  | next {log : List Exchange} (made : Made call server buffer log) (goesOn : GoesOn call buffer log)
      (inRange : (call.request buffer (transferred log)).InRange)
      (served : call.ServedAt server log (call.request buffer (transferred log))) :
      Made call server buffer (log ++ [call.next server buffer log (transferred log)])

/-- The request that a call makes after these exchanges fails. -/
structure FailsAfter (call : Call) (server : Server) (buffer : Bytes) (log : List Exchange) :
    Prop where
  made : Made call server buffer log
  goesOn : GoesOn call buffer log
  inRange : (call.request buffer (transferred log)).InRange
  isError : (server log (call.request buffer (transferred log))).isError

section Loops

variable {call : Call} {server : Server} {buffer b : Bytes} {log : List Exchange}

theorem count_of_isError {reply : Reply} (h : reply.isError) : reply.count = 0 := by
  cases reply with
  | done count bytes => cases h
  | broken error | failed code | unexpected => rfl

theorem Made.no_error (h : Made call server buffer log) : ∀ e ∈ log, ¬e.2.isError := by
  induction h with
  | nil => exact List.forall_mem_nil _
  | next _ _ _ served ih =>
    intro e he
    rcases List.mem_append.mp he with he | he
    · exact ih e he
    · obtain ⟨count, bytes, hreply, -⟩ := served
      rw [List.mem_singleton.mp he, Call.next, hreply]
      exact Bool.false_ne_true

/-- The loop goes as far as the exchanges that the call makes. -/
theorem Made.run (h : Made call server buffer log) (hagain : ∀ e ∈ log.getLast?, call.goesOn e) :
    ∃ n b, Kept call buffer ⟨b, log⟩ ∧ ∀ fuel, call.run server (fuel + n) ⟨buffer, []⟩ =
      call.loop server buffer fuel log ⟨b, log⟩ := by
  induction h with
  | nil => exact ⟨0, buffer, Kept.start call buffer, fun _ => rfl⟩
  | next _ hgo hrange hserved ih =>
    obtain ⟨n, b, hkept, hrun⟩ := ih hgo.2
    refine ⟨n + 1, _, hkept.next hserved hgo.1, fun fuel => ?_⟩
    rw [← Nat.add_assoc, Nat.add_right_comm, hrun, Call.loop_next hkept hserved hgo.1 hrange rfl,
      if_pos (hagain _ (by rw [List.getLast?_concat]; rfl))]

/-- A failed request ends the loop. -/
theorem FailsAfter.loop_ends (h : FailsAfter call server buffer log)
    (hkept : Kept call buffer ⟨b, log⟩) (fuel : Nat) :
    ends (call.loop server buffer (fuel + 1) log) (fun _ _ => False)
      (fun _ client => transferred client.log = transferred log) (fun _ => False) ⟨b, log⟩ := by
  rw [Call.loop, transferLoop, if_pos h.goesOn.1, ends_bind]
  refine (round_ends server log hkept.length hkept.write h.goesOn.1).mono ?_ (fun _ _ hround => ?_)
    fun _ hbig => hbig h.inRange
  · rintro _ _ ⟨-, count, bytes, hreply, -⟩
    have herror := h.isError
    rw [hreply] at herror
    cases herror
  · rw [hround.2.2, transferred_append, Call.next, count_of_isError h.isError, Nat.add_zero]

/-- The loop returns only after exchanges without an error, and fails only at a failed request. -/
theorem Made.loop_ends (hanswered : call.Answered server) (fuel : Nat)
    (hmade : Made call server buffer log) (hkept : Kept call buffer ⟨b, log⟩)
    (hagain : ∀ e ∈ log.getLast?, call.goesOn e) :
    ends (call.loop server buffer fuel log) (fun _ client => Made call server buffer client.log)
      (fun _ client => ∃ log, FailsAfter call server buffer log ∧
        transferred client.log = transferred log) (fun _ => True) ⟨b, log⟩ := by
  induction fuel generalizing b log with
  | zero =>
    rw [Call.loop, transferLoop, ends_ite]
    split
    · exact (ends_abort _).mpr trivial
    · exact (ends_pure _).mpr hmade
  | succ fuel ih =>
    by_cases hlt : transferred log < buffer.length
    · by_cases hrange : (call.request buffer (transferred log)).InRange
      · rcases hanswered log (call.request buffer (transferred log)) with hfailed | hserved
        · have hfails : FailsAfter call server buffer log := ⟨hmade, ⟨hlt, hagain⟩, hrange, hfailed⟩
          exact (hfails.loop_ends hkept fuel).mono (fun _ _ => False.elim)
            (fun _ _ heq => ⟨log, hfails, heq⟩) fun _ => False.elim
        · have hmade' := hmade.next ⟨hlt, hagain⟩ hrange hserved
          have hnext := Call.loop_next hkept hserved hlt hrange rfl fuel
          unfold ends
          rw [hnext]
          cases hgo : call.goesOn (call.next server buffer log (transferred log)) with
          | true =>
            have hrest := ih hmade' (hkept.next hserved hlt) fun e he => by
              rw [List.getLast?_concat, Option.mem_some] at he
              rw [← he, hgo]
            unfold ends at hrest
            exact hrest
          | false => exact hmade'
      · unfold ends
        obtain ⟨message, hrun⟩ := Call.loop_overflow hkept hlt hrange fuel
        rw [hrun]
        trivial
    · rw [Call.loop_full hlt]
      exact (ends_pure _).mpr hmade

end Loops

/-- A call against any server reports truthfully just when none of the requests that it makes
after a transferred byte fails. -/
theorem reports_iff (call : Call) (server : Server) (buffer : Bytes)
    (hanswered : call.Answered server) :
    Reports call server buffer ↔ ∀ log, FailsAfter call server buffer log → transferred log = 0 := by
  constructor
  · intro h log hfails
    obtain ⟨n, b, hkept, hrun⟩ := hfails.made.run hfails.goesOn.2
    have hends := hfails.loop_ends hkept 0
    cases hrun' : call.loop server buffer 1 log ⟨b, log⟩ with
    | ok total client => exact (hends.of_ok hrun').elim
    | err error client =>
      rw [← hends.of_err hrun']
      exact h.nothing (1 + n) error client ((hrun 1).trans hrun')
    | abort message => exact (hends.of_abort hrun').elim
  · intro h
    have hends := fun fuel => Made.nil.loop_ends hanswered fuel (Kept.start call buffer)
      fun _ he => absurd he (Option.not_mem_none _)
    have herr : ∀ fuel error client, call.run server fuel ⟨buffer, []⟩ = .err error client →
        transferred client.log = 0 := by
      intro fuel error client hrun
      obtain ⟨log, hfails, heq⟩ := (hends fuel).of_err hrun
      rw [heq, h log hfails]
    refine ⟨herr, ?_⟩
    rintro fuel client hfinal ⟨e, he, herror⟩ hpos
    cases hrun : call.run server fuel ⟨buffer, []⟩ with
    | ok total c =>
      rw [hrun] at hfinal
      cases hfinal
      exact absurd herror (((hends fuel).of_ok hrun).no_error e he)
    | err error c =>
      rw [hrun] at hfinal
      cases hfinal
      exact absurd (herr fuel error client hrun) (Nat.ne_of_gt hpos)
    | abort message =>
      rw [hrun] at hfinal
      cases hfinal

/-- A server that fails every request. -/
def failingServer : Server := fun _ _ => .failed none

/-- The first request of a `write` fails, before a byte is written. -/
theorem reports_failing : FailsAfter (.write 4095) failingServer [1, 2] [] ∧
    Reports (.write 4095) failingServer [1, 2] := by
  refine ⟨⟨.nil, ⟨by decide, fun _ he => absurd he (Option.not_mem_none _)⟩,
    fun _ he => absurd he (Option.not_mem_none _), rfl⟩, ?_⟩
  refine (reports_iff (.write 4095) failingServer [1, 2] fun _ _ => .inl rfl).mpr ?_
  intro log hfails
  cases hfails.made with
  | nil => rfl
  | next _ _ _ served =>
    obtain ⟨_, _, hreply, -⟩ := served
    cases hreply

/-- A server that takes one request. -/
def onceServer : Server := fun log request =>
  if log.isEmpty then .done request.size [] else .failed none

/-- A byte was written, and `write` returns an error. -/
theorem write_hides_count :
    (Call.write 4095).Answered onceServer ∧
      ∃ error client, (Call.write 4095).run onceServer 2 ⟨[1, 2], []⟩ = .err error client ∧
        transferred client.log = 1 := by
  refine ⟨fun log request => ?_, _, _, rfl, rfl⟩
  cases log with
  | nil => exact .inr ⟨request.size, [], rfl, Int.natCast_nonneg _, Int.le_refl _, trivial⟩
  | cons e log => exact .inl rfl

end Nanvix.Syscall
