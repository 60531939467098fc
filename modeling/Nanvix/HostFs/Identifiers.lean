import Nanvix.HostFs.Completion

/-!
# Identifiers of forwarded operations

The allocator of vfsd never hands out the identifier of a pending operation or the
invalid one, and it always finds one. It starts at 1 but comes back to 0 when its
counter of 32 bits wraps, and 0 is the identifier of vfsd's own request to close a
descriptor, which has no pending entry. Until then every response completes the
operation that it answers.
-/
namespace Nanvix.HostFs.Forwarding

/-- The search of the allocator ends before its counter wraps, or 0 is pending. -/
def PendingQueue.Spare (queue : PendingQueue) : Prop :=
  queue.contains 0 = true ∨ queue.nextId ≠ 0 ∧
    ∃ id, queue.nextId ≤ id ∧ id < invalidId ∧ queue.contains id = false

theorem nextOpId_ne_zero_iff {queue : PendingQueue} (hcap : queue.hasCapacity = true)
    (hnext : queue.nextId < 2 ^ 32) : queue.nextOpId ≠ 0 ↔ queue.Spare := by
  obtain ⟨k, hk, hne, hfree, hskip⟩ := nextOpId_first hcap hnext
  constructor
  · intro hzero
    by_cases hcontains : queue.contains 0 = true
    · exact .inl hcontains
    · -- The search does not pass over 0, so it ends before the counter wraps.
      have hpass : ∀ i ≤ k, (queue.nextId + i) % 2 ^ 32 ≠ 0 := by
        intro i hi heq
        rcases Nat.lt_or_eq_of_le hi with hi | rfl
        · have hi' := hskip i hi
          rw [heq] at hi'
          exact hi'.elim (by decide) hcontains
        · exact hzero (hk.trans heq)
      have hstart := hpass 0 (Nat.zero_le k)
      have hwrap := hpass (2 ^ 32 - queue.nextId)
      have hlt : queue.nextOpId = queue.nextId + k := by omega
      unfold invalidId at hne
      refine .inr ⟨by omega, queue.nextOpId, by omega, ?_, hfree⟩
      unfold invalidId
      omega
  · rintro (hcontains | ⟨hpos, id, hle, hlt, hid⟩) hzero
    · rw [hzero, hcontains] at hfree
      cases hfree
    · have hk' : k ≤ id - queue.nextId := by
        by_contra hlong
        have hskipped := hskip (id - queue.nextId) (Nat.lt_of_not_le hlong)
        rw [Nat.add_sub_cancel' hle, Nat.mod_eq_of_lt (Nat.lt_trans hlt (by decide)), hid]
          at hskipped
        exact hskipped.elim (Nat.ne_of_lt hlt) Bool.false_ne_true
      unfold invalidId at hlt
      omega

/-- While requests get through whole and the counter does not come to 0, every answer is from the
response to its own request or reports that this request could not be sent, and no two answers are
to one request. -/
theorem identifiers_never_collide {β : Type} (handle : β → OpKind → Bytes → Result × β)
    (backend : β) (cmd : Nat → Command) (i : Nat) :
    (∀ queue : PendingQueue, queue.hasCapacity = true → queue.nextId < 2 ^ 32 →
      queue.nextOpId < 2 ^ 32 ∧ queue.nextOpId ≠ invalidId ∧
        queue.contains queue.nextOpId = false ∧ (queue.nextOpId ≠ 0 ↔ queue.Spare)) ∧
    ((∀ j, unbroken (cmd j) (execution handle cmd (boot backend) j) = true) →
      let s := execution handle cmd (boot backend) i
      s.queue.nextId < 2 ^ 32 ∧ (∀ a ∈ s.answers, a.Truthful handle cmd (boot backend) i) ∧
        (s.answers.map Answered.serial).Nodup) := by
  constructor
  · intro queue hcap hnext
    obtain ⟨k, hk, hne, hfree, -⟩ := nextOpId_first hcap hnext
    exact ⟨hk ▸ Nat.mod_lt _ (by decide), hne, hfree, nextOpId_ne_zero_iff hcap hnext⟩
  · intro hunbroken
    obtain ⟨q, p, hflow⟩ := flow_execution hunbroken i
    exact ⟨hflow.nextId, fun a => truthful_execution hunbroken, hflow.answers_nodup⟩

theorem identifiers_never_collide_of_unlink :
    PendingQueue.new.nextOpId ≠ invalidId ∧
      (∀ a ∈ (execution succeed unlinkOnce (boot ()) 9).answers,
        a.Truthful succeed unlinkOnce (boot ()) 9) ∧
      ((execution succeed unlinkOnce (boot ()) 9).answers.map Answered.serial).Nodup := by
  obtain ⟨hqueue, hrun⟩ := identifiers_never_collide succeed () unlinkOnce 9
  exact ⟨(hqueue .new rfl (by decide)).2.1, (hrun unbroken_unlink).2⟩

section Wrap

/-- A request of which no message gets through uses up an identifier. -/
def giveUp : Command := .forward 1 none .stat [] (some 0)

/-- An `open` succeeds that vfsd has no descriptor for. While its own request to close the file is
under way, a client asks for a `stat`. -/
def collision : List Command :=
  [.forward 2 none (.open []) [] none, .serve, .receive ⟨true, false⟩,
    .forward 3 none .stat [] none, .serve, .receive ⟨false, false⟩]

def wrapping (n i : Nat) : Command := if i < n then giveUp else collision.getD (i - n) .serve

/-- Nothing is pending; some requests are on their way. -/
def idle (next serial : Nat) (requests : List (Nat × RequestMsg)) (accepted : List Nat)
    (answers : List Answered) : System Unit :=
  { boot () with
    queue := ⟨[], next⟩
    requests := requests
    accepted := accepted
    answers := answers
    nextSerial := serial }

variable {requests : List (Nat × RequestMsg)} {accepted : List Nat} {answers : List Answered}

theorem forward_idle (kind : PendingOpKind) {next id serial tid : Nat} {body : Bytes}
    {fail : Option Nat} {msgs : List RequestMsg} (hid : (⟨[], next⟩ : PendingQueue).nextOpId = id)
    (hmsgs : requestMsgs kind.op id body = some msgs) :
    step succeed (.forward tid none kind body fail) (idle next serial requests accepted answers) =
      (idle ((id + 1) % 2 ^ 32) (serial + 1) requests (accepted ++ [serial]) answers).dispatch id
        ⟨tid, none, kind, serial⟩ msgs fail := by
  have hcap : (idle next serial requests accepted answers).queue.hasCapacity = true := rfl
  change System.forward (idle next serial requests accepted answers) tid none kind body fail = _
  rw [System.forward, if_pos hcap]
  simp only [idle, hid, hmsgs, PendingQueue.advanced]
  rfl

theorem execution_giveUp {n i : Nat} (hi : i ≤ n) (hn : n + 2 ≤ 2 ^ 32) :
    ∃ accepted answers,
      execution succeed (wrapping n) (boot ()) i = idle (i + 1) i [] accepted answers := by
  induction i with
  | zero => exact ⟨[], [], rfl⟩
  | succ i ih =>
    obtain ⟨accepted, answers, heq⟩ := ih (Nat.le_of_succ_le hi)
    have hid : (⟨[], i + 1⟩ : PendingQueue).nextOpId = i + 1 := by
      have hne : ¬(i + 1 = invalidId ∨ PendingQueue.contains ⟨[], i + 1⟩ (i + 1) = true) := by
        unfold invalidId
        rintro (heq | hin)
        · omega
        · cases hin
      exact if_neg hne
    rw [execution, heq, wrapping, if_pos (Nat.lt_of_succ_le hi), giveUp, forward_idle .stat hid rfl,
      Nat.mod_eq_of_lt (by omega)]
    exact ⟨_, _, rfl⟩

theorem wrapping_add (n i : Nat) : wrapping n (n + i) = collision.getD i .serve := by
  rw [wrapping, if_neg (Nat.not_lt.mpr (Nat.le_add_right n i)), Nat.add_sub_cancel_left]

/-- The last steps of the run. -/
theorem execution_collision (n : Nat) :
    execution succeed (wrapping n) (boot ()) (n + 6) =
      collision.foldl (fun s c => step succeed c s) (execution succeed (wrapping n) (boot ()) n) := by
  have hfirst : wrapping n n = collision.getD 0 .serve := wrapping_add n 0
  simp only [execution, wrapping_add, hfirst]
  rfl

/-- The response to vfsd's own request completes the operation of a client. -/
theorem identifier_collides :
    ∃ a ∈ (execution succeed (wrapping (2 ^ 32 - 3)) (boot ()) (2 ^ 32 - 3 + 6)).answers,
      ¬a.Truthful succeed (wrapping (2 ^ 32 - 3)) (boot ()) (2 ^ 32 - 3 + 6) := by
  obtain ⟨accepted, answers, heq⟩ := execution_giveUp (Nat.le_refl (2 ^ 32 - 3)) (by decide)
  have hfirst : (⟨[], 2 ^ 32 - 3 + 1⟩ : PendingQueue).nextOpId = 2 ^ 32 - 2 := by decide +kernel
  have hwrapped : (⟨[], 2 ^ 32 - 1⟩ : PendingQueue).nextOpId = 0 := by decide +kernel
  have hmsgs : requestMsgs .open (2 ^ 32 - 2) [] =
      some [.part .open ⟨1, 0, [254, 255, 255, 255]⟩] := by
    simp [requestMsgs, isLong, partsOf, numParts, divCeil, partPayloadSize, partOf, chunk,
      toLeBytes]
  have hopen : step succeed (.receive ⟨true, false⟩) (step succeed .serve
      (step succeed (.forward 2 none (.open []) [] none)
        (idle (2 ^ 32 - 3 + 1) (2 ^ 32 - 3) [] accepted answers))) =
      idle (2 ^ 32 - 1) (2 ^ 32 - 1) [(2 ^ 32 - 2, .short .close 0 [0, 0, 0, 0])]
        (accepted ++ [2 ^ 32 - 3])
        (answers ++ [⟨2 ^ 32 - 3, 2, .failed .tooManyOpenFiles, some (2 ^ 32 - 3)⟩]) := by
    rw [forward_idle (.open []) hfirst hmsgs]
    rfl
  rw [execution_collision, heq]
  simp only [collision, List.foldl, hopen, forward_idle .stat hwrapped rfl]
  refine ⟨⟨2 ^ 32 - 1, 3, .failed .ioErr, some (2 ^ 32 - 2)⟩,
    List.mem_append_right _ (List.mem_singleton_self _), ?_⟩
  rintro (heq | ⟨⟨⟩, -⟩)
  cases heq

end Wrap
end Nanvix.HostFs.Forwarding
