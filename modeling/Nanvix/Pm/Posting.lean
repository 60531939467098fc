import Nanvix.Pm.Wakeups
import Mathlib.Data.List.Lattice

/-!
# What the answer of a send says

`post_message` puts the letter into the mailbox, counts it, and then wakes the
receivers that wait for messages. The letter stays where it is when the count
or a wakeup fails. A wakeup fails for a thread that is still in the queue of
receivers but does not sleep any more: one that was killed, and has not run
since. The results say in which states the answer can be trusted.

## Implementation notes

The threads that a post takes out of the queue are those of the list of waiting
threads that are also queued, each as often as it is in both: `List.bagInter`
takes them in the order of the loop.
-/
namespace Nanvix.Pm
open Config Library Library.Prog ProcessManager

variable {k : Kernel} {pm pm' : ProcessManager} {now : Nat}

/-- The mailboxes of the processes, by process. -/
def ProcessManager.mailboxes (pm : ProcessManager) : Multiset (Nat × List Letter) :=
  pm.books.map fun p => (p.pid, p.mailbox)

theorem Moved.mailboxes {ok : Kind → Row → Prop} (h : Moved now ok pm pm') :
    pm'.mailboxes = pm.mailboxes := by
  rw [ProcessManager.mailboxes, h.books, ProcessManager.mailboxes]

/-- An edit of one process changes one mailbox. -/
theorem Edited.mailboxes {s s' : Standing} (h : Edited s s' pm pm') :
    ∃ rest, pm.mailboxes = (s.1.pid, s.1.mailbox) ::ₘ rest ∧
      pm'.mailboxes = (s'.1.pid, s'.1.mailbox) ::ₘ rest := by
  obtain ⟨rest, hbefore, hafter⟩ := h.standings
  refine ⟨(rest.map fun s => s.1.book).map fun p => (p.pid, p.mailbox), ?_, ?_⟩
  · rw [ProcessManager.mailboxes, ProcessManager.books, hbefore, Multiset.map_cons,
      Multiset.map_cons]
    rfl
  · rw [ProcessManager.mailboxes, ProcessManager.books, hafter, Multiset.map_cons,
      Multiset.map_cons]
    rfl

/-- The threads sleep and none is named twice. -/
def ProcessManager.AllAsleep (pm : ProcessManager) (tids : List Nat) : Prop :=
  tids.Nodup ∧ ∀ tid ∈ tids, pm.Asleep tid

namespace Kernel

/-- The threads that are told of a letter to a process or a thread. -/
def recipients (k : Kernel) : Party → List Nat
  | .process pid => (k.em.waitingThreads.filter (·.1 == pid)).map (·.2)
  | .thread tid => [tid]

/-- The threads that a letter takes out of the queue of receivers. -/
def called (k : Kernel) (receiver : Party) : List Nat :=
  (k.recipients receiver).bagInter (k.queue .events)

/-- If the receiver exists, the counter has room and every thread that is called sleeps. -/
def Trusted (k : Kernel) (receiver : Party) : Prop :=
  (∃ s, receiver.finder.Hits k.pm s) →
    k.pm.numberBufferedMessages < usizeMax ∧ k.pm.AllAsleep (k.called receiver)

/-- The letter was put at the end of the receiver's mailbox and nothing else was. -/
def Appended (k k' : Kernel) (l : Letter) : Prop :=
  ∃ s rest, l.receiver.finder.Hits k.pm s ∧
    k.pm.mailboxes = (s.1.pid, s.1.mailbox) ::ₘ rest ∧
    k'.pm.mailboxes = (s.1.pid, s.1.mailbox ++ [l]) ::ₘ rest ∧
    k'.pm.numberBufferedMessages = k.pm.numberBufferedMessages + 1

/-- No mailbox and no count changed. -/
structure SameMail (k k' : Kernel) : Prop where
  mailboxes : k'.pm.mailboxes = k.pm.mailboxes
  buffered : k'.pm.numberBufferedMessages = k.pm.numberBufferedMessages

/-- A post answers with what it has done. -/
def Truthful (k : Kernel) (m : Message) (origin : Origin) : Prop :=
  match KM.postMessage m origin k with
  | .ok _ k' => Appended k k' ⟨m, k.nextSerial, origin⟩
  | .err _ k' => SameMail k k'
  | .abort _ => False

theorem SameMail.trans {k k' k'' : Kernel} (h : SameMail k k') (h' : SameMail k' k'') :
    SameMail k k'' :=
  ⟨h'.mailboxes.trans h.mailboxes, h'.buffered.trans h.buffered⟩

end Kernel

open Kernel

section Notify

/-- After a wakeup the others that slept sleep on. -/
theorem asleep_of_woken {tid : Nat} (hconserved : Conserved [] pm')
    (hm : Moved now (Wakes tid) pm pm') (hready : pm'.Ready tid) (t : Nat) :
    pm'.Asleep t ↔ pm.Asleep t ∧ t ≠ tid := by
  constructor
  · rintro ⟨y, hy, hytid, hsleeping⟩
    have hne : t ≠ tid := by
      rintro rfl
      exact hconserved.not_ready_of_asleep ⟨y, hy, hytid, hsleeping⟩ hready
    obtain ⟨x, hx, hsteps⟩ := hm.rows.exists_of_mem_right hy
    -- A row that moved is one of the thread that was woken.
    have hstuck : x = y := by
      induction hsteps using Relation.ReflTransGen.head_induction_on with
      | refl => rfl
      | head hstep hrest _ =>
        obtain ⟨kind, ⟨-, htid⟩, hmove⟩ := hstep
        have hcore := Evolves.eq_of_steps (fun _ _ hs => Step.core_eq hs) hrest
        have heq : y.tid = tid := by
          rw [← htid]
          exact (congrArg (·.2.1) (hmove.core_eq.trans hcore)).symm
        exact absurd (hytid.symm.trans heq) hne
    exact ⟨⟨y, hstuck ▸ hx, hytid, hsleeping⟩, hne⟩
  · rintro ⟨⟨x, hx, hxtid, hsleeping⟩, hne⟩
    refine ⟨x, hm.mem_of_stuck hx ?_, hxtid, hsleeping⟩
    rintro kind ⟨-, htid⟩ b -
    exact hne (hxtid.symm.trans htid)

/-- A wakeup of a receiver: it succeeds for a sleeper, and touches no mail. -/
theorem wakeup_called (h : Conserved [] k.pm) (tid : Nat) :
    ends (KM.wakeup tid)
      (fun _ k' => k.pm.Asleep tid ∧ Conserved [] k'.pm ∧ SameMail k k' ∧ k'.queue = k.queue ∧
        ∀ t, k'.pm.Asleep t ↔ k.pm.Asleep t ∧ t ≠ tid)
      (fun _ k' => ¬ k.pm.Asleep tid ∧ k' = k) (fun _ => False) k := by
  have hkept := keeps_conserved_wakeup tid k h
  unfold KM.wakeup at hkept ⊢
  simp only [ends_bind, ends_gets, ends_sched] at hkept ⊢
  refine ((doWakeup_exact h tid (A := fun _ => False)).and hkept).mono ?_ ?_ fun _ ha => ha.1
  · rintro _ pm' ⟨⟨hasleep, hready, hwoken⟩, hconserved⟩
    have hm := hwoken.moved.1
    exact ⟨hasleep, hconserved, ⟨hm.mailboxes, hm.buffered⟩, trivial,
      asleep_of_woken hconserved hm hready⟩
  · rintro _ pm' ⟨⟨hnot, rfl⟩, -⟩
    exact ⟨hnot, rfl⟩

/-- One call of the round fails if its thread is queued and not asleep. -/
theorem notifyThread_called (h : Conserved [] k.pm) (tid : Nat) :
    ends (KM.notifyThread .events tid)
      (fun _ k' => Conserved [] k'.pm ∧ SameMail k k' ∧ ∀ rest : List Nat,
        k'.pm.AllAsleep (rest.bagInter (k'.queue .events)) ↔
          k.pm.AllAsleep ((tid :: rest).bagInter (k.queue .events)))
      (fun _ k' => Conserved [] k'.pm ∧ SameMail k k' ∧ ∀ rest : List Nat,
        ¬ k.pm.AllAsleep ((tid :: rest).bagInter (k.queue .events)))
      (fun _ => False) k := by
  unfold KM.notifyThread KM.setQueue
  simp only [ends_bind, ends_gets, ends_ite, ends_modify, ends_pure, List.contains_iff_mem]
  split
  next hmem =>
    let k₁ : Kernel := { k with
      queue := Function.update k.queue .events ((k.queue .events).erase tid) }
    have hqueue : k₁.queue .events = (k.queue .events).erase tid := by
      simp only [k₁, Function.update_self]
    have hcalled : ∀ rest : List Nat, (tid :: rest).bagInter (k.queue .events) =
        tid :: rest.bagInter (k₁.queue .events) := by
      intro rest
      rw [hqueue, List.cons_bagInter_of_mem _ hmem]
    refine (wakeup_called (k := k₁) h tid).weaken ?_ ?_
    · rintro _ k' ⟨hasleep, hconserved, hmail, hsame, hothers⟩
      refine ⟨hconserved, ⟨hmail.mailboxes, hmail.buffered⟩, fun rest => ?_⟩
      rw [hcalled, hsame]
      simp only [AllAsleep, List.nodup_cons, List.forall_mem_cons, hothers]
      constructor
      · rintro ⟨hnodup, hall⟩
        exact ⟨⟨fun htid => (hall tid htid).2 rfl, hnodup⟩, hasleep, fun t ht => (hall t ht).1⟩
      · rintro ⟨⟨hnot, hnodup⟩, -, hall⟩
        exact ⟨hnodup, fun t ht => ⟨hall t ht, fun heq => hnot (heq ▸ ht)⟩⟩
    · rintro _ k' ⟨hnot, rfl⟩
      refine ⟨h, ⟨rfl, rfl⟩, fun rest hall => ?_⟩
      rw [hcalled] at hall
      exact hnot (hall.2 tid List.mem_cons_self)
  next hmem =>
    refine ⟨h, ⟨rfl, rfl⟩, fun rest => ?_⟩
    rw [List.cons_bagInter_of_not_mem _ hmem]

/-- The round has no error if and only if all it calls are asleep. -/
theorem notifyWaiting_called (h : Conserved [] k.pm) (waiting : List (Nat × Nat))
    (firstError : Option Error) :
    ends (KM.notifyWaiting waiting firstError)
      (fun r k' => SameMail k k' ∧ (r = none ↔ firstError = none ∧
        k.pm.AllAsleep ((waiting.map (·.2)).bagInter (k.queue .events))))
      (fun _ _ => False) (fun _ => False) k := by
  induction waiting generalizing k firstError with
  | nil =>
    unfold KM.notifyWaiting
    rw [ends_pure]
    refine ⟨⟨rfl, rfl⟩, ?_⟩
    simp [AllAsleep]
  | cons e waiting ih =>
    obtain ⟨pid, tid⟩ := e
    unfold KM.notifyWaiting
    simp only [ends_bind, ends_attempt, List.map_cons]
    refine (notifyThread_called h tid).weaken ?_ ?_
    · rintro _ k₁ ⟨hconserved, hmail, hrest⟩
      refine (ih hconserved firstError).imp ?_
      rintro r k' ⟨hmail', hiff⟩
      exact ⟨hmail.trans hmail', by rw [hiff, hrest]⟩
    · rintro error k₁ ⟨hconserved, hmail, hrest⟩
      refine (ih hconserved (firstError.or (some error))).imp ?_
      rintro r k' ⟨hmail', hiff⟩
      refine ⟨hmail.trans hmail', ?_⟩
      have hsome : firstError.or (some error) ≠ none := by
        cases firstError with
        | none | some _ => exact Option.some_ne_none _
      rw [hiff]
      exact iff_of_false (fun hr => hsome hr.1) fun hr => hrest _ hr.2

/-- The receivers of a letter are told of it without an error just when all that are called
sleep; no mail is touched either way. -/
theorem notifyReceivers_called (h : Conserved [] k.pm) (receiver : Party) :
    ends (match receiver with
      | .process pid => KM.notifyAllProcessThreads pid
      | .thread tid => KM.notifyThread .events tid : KM Unit)
      (fun _ k' => SameMail k k' ∧ k.pm.AllAsleep (k.called receiver))
      (fun _ k' => SameMail k k' ∧ ¬ k.pm.AllAsleep (k.called receiver)) (fun _ => False) k := by
  cases receiver with
  | process pid =>
    unfold KM.notifyAllProcessThreads
    simp only [ends_bind, ends_gets]
    refine (notifyWaiting_called h _ none).total ?_
    rintro r k' ⟨hmail, hiff⟩
    cases r with
    | none => exact (ends_pure _).mpr ⟨hmail, (hiff.mp rfl).2⟩
    | some e => exact (ends_throw _).mpr ⟨hmail, fun hall => by cases hiff.mpr ⟨rfl, hall⟩⟩
  | thread tid =>
    refine (notifyThread_called h tid).weaken ?_ ?_
    · rintro _ k' ⟨-, hmail, hrest⟩
      refine ⟨hmail, (hrest []).mp ?_⟩
      simp [AllAsleep]
    · rintro _ k' ⟨-, hmail, hrest⟩
      exact ⟨hmail, hrest []⟩

end Notify

section Answer

/-- What a post does and answers: it refuses an unknown receiver, fails after the letter is
stored when the counter is full or a receiver cannot be woken, and succeeds otherwise. -/
theorem postMessage_cases (h : Conserved [] k.pm) (m : Message) (origin : Origin) :
    ends (KM.postMessage m origin)
      (fun _ k' => Appended k k' ⟨m, k.nextSerial, origin⟩ ∧ k.Trusted m.receiver)
      (fun _ k' => SameMail k k' ∧ k.Trusted m.receiver ∨
        k'.pm.mailboxes ≠ k.pm.mailboxes ∧ ¬ k.Trusted m.receiver)
      (fun _ => False) k := by
  obtain ⟨p, hp⟩ := h.exists_running
  have hgrows : ∀ {pm₁ pm₂ : ProcessManager} {s : Standing},
      Edited s (s.1.postMessage ⟨m, k.nextSerial, origin⟩, s.2) k.pm pm₁ →
      pm₂.mailboxes = pm₁.mailboxes → pm₂.mailboxes ≠ k.pm.mailboxes := by
    intro pm₁ pm₂ s hedit hsame heq
    obtain ⟨rest, hbefore, hafter⟩ := hedit.mailboxes
    rw [hsame, hafter, hbefore, Multiset.cons_inj_left] at heq
    simp [ProcessState.postMessage] at heq
  unfold KM.postMessage
  simp only [ends_bind, ends_gets, ends_modify, ends_sched]
  refine ((postMessage_spec m.receiver ⟨m, k.nextSerial, origin⟩ k.pm).and
    (keeps_postMessage m.receiver ⟨m, k.nextSerial, origin⟩ k.pm h)).mono ?_ ?_ ?_
  · rintro _ pm₁ ⟨⟨s, hhits, hedit, hcount, hroom⟩, hconserved⟩
    let k₁ : Kernel := { k with nextSerial := k.nextSerial + 1, pm := pm₁ }
    have hasleep : k₁.pm.AllAsleep (k₁.called m.receiver) ↔
        k.pm.AllAsleep (k.called m.receiver) := by
      simp only [AllAsleep, Asleep, k₁, hedit.rows]
      rfl
    refine (notifyReceivers_called (k := k₁) hconserved m.receiver).weaken ?_ ?_
    · rintro _ k' ⟨hmail, hall⟩
      obtain ⟨rest, hbefore, hafter⟩ := hedit.mailboxes
      refine ⟨⟨s, rest, hhits, hbefore, hmail.mailboxes.trans hafter,
        hmail.buffered.trans hcount⟩, fun _ => ⟨hroom, hasleep.mp hall⟩⟩
    · rintro _ k' ⟨hmail, hnot⟩
      refine .inr ⟨hgrows hedit hmail.mailboxes, fun htrusted => ?_⟩
      exact hnot (hasleep.mpr (htrusted ⟨s, hhits⟩).2)
  · rintro _ pm₁ ⟨⟨rfl, hmissing⟩ | ⟨hfull, s, hhits, hedit, -⟩, -⟩
    · refine .inl ⟨⟨rfl, rfl⟩, ?_⟩
      rintro ⟨s, hhits⟩
      exact absurd hhits (hmissing s)
    · refine .inr ⟨hgrows hedit rfl, fun htrusted => ?_⟩
      have hroom := (htrusted ⟨s, hhits⟩).1
      omega
  · rintro _ ⟨hnone, -⟩
    cases hp.symm.trans hnone

theorem truthful_iff_trusted (h : Conserved [] k.pm) (m : Message) (origin : Origin) :
    k.Truthful m origin ↔ k.Trusted m.receiver := by
  have hcases := postMessage_cases h m origin
  unfold Truthful
  cases hpost : KM.postMessage m origin k with
  | ok _ k' =>
    have hok := hcases.of_ok hpost
    exact iff_of_true hok.1 hok.2
  | err e k' =>
    rcases hcases.of_err hpost with ⟨hmail, htrusted⟩ | ⟨hne, hnot⟩
    · exact iff_of_true hmail htrusted
    · exact iff_of_false (fun hmail => hne hmail.mailboxes) hnot
  | abort text => exact (hcases.of_abort hpost).elim

/-- In every state a run reaches, a post of any message answers with what it has done if and
only if, when its receiver exists, the counter has room and the threads it calls sleep. -/
theorem post_truthful_iff {kernelFrames : List Nat} {mem : Mm.MemState} {root : Nat}
    {interruptCapable : Bool} (hreach : (kernelMachine kernelFrames).Reach (fun _ _ => True)
      (.boot mem root interruptCapable) k) (m : Message) (origin : Origin) :
    k.Truthful m origin ↔ k.Trusted m.receiver :=
  truthful_iff_trusted (closed_conserved.reach (conserved_boot mem root interruptCapable) hreach)
    m origin

/-- A process waits for messages while another one runs. -/
def oneReceiver : List KernelCmd :=
  [.memory .newVmem, .memory .newVmem, .createProcess 0 (.ok ()), .createProcess 1 (.ok ()),
    .giveup, .recv (.ok ())]

/-- A message to the process that waits. -/
def greeting : Message := ⟨.ipc, 2, 1, 0, .bytes []⟩

/-- A post to a sleeping receiver is truthful. -/
theorem post_truthful_of_sleeper : ∃ k, (kernelMachine []).Reach (fun _ _ => True)
    (.boot (.boot 128) 0 false) k ∧ k.called greeting.receiver = [1] ∧
      k.Truthful greeting (.send 2 2) := by
  obtain ⟨k, hk, hcalled, hasleep, hcount⟩ := (kernelMachine []).exists_reach
    (.boot (.boot 128) 0 false) oneReceiver (fun k => k.called greeting.receiver = [1] ∧
      k.pm.Asleep 1 ∧ k.pm.numberBufferedMessages = 0) (by decide +kernel)
  refine ⟨k, hk, hcalled, (post_truthful_iff hk greeting _).mpr fun _ => ?_⟩
  rw [hcount, hcalled]
  exact ⟨by decide, List.nodup_singleton 1, fun t ht => List.mem_singleton.mp ht ▸ hasleep⟩

/-- The receiver was killed and has not run since: the post stores the letter and fails. -/
theorem post_stores_and_fails : ∃ k, (kernelMachine []).Reach (fun _ _ => True)
    (.boot (.boot 128) 0 false) k ∧ k.called greeting.receiver = [1] ∧ ¬ k.pm.Asleep 1 ∧
      ∃ e k', KM.postMessage greeting (.send 2 2) k = .err e k' ∧
        k.pm.interrupted.map (·.state.mailbox.length) = [0] ∧
        k'.pm.interrupted.map (·.state.mailbox.length) = [1] := by
  obtain ⟨k, hk, hcalled, hawake, hpost⟩ := (kernelMachine []).exists_reach
    (.boot (.boot 128) 0 false) (oneReceiver ++ [.terminate 1])
    (fun k => k.called greeting.receiver = [1] ∧ ¬ k.pm.Asleep 1 ∧
      (KM.postMessage greeting (.send 2 2) k).fails
        (fun k' : Kernel => decide (k.pm.interrupted.map (·.state.mailbox.length) = [0] ∧
          k'.pm.interrupted.map (·.state.mailbox.length) = [1])) = true) (by decide +kernel)
  obtain ⟨e, k', hresult, hpost⟩ := Outcome.of_fails hpost
  exact ⟨k, hk, hcalled, hawake, e, k', hresult, of_decide_eq_true hpost⟩

end Answer
end Nanvix.Pm
