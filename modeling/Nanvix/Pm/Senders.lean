import Nanvix.Pm.LedgerRefine

/-!
# Who a message comes from

A send call only logs a source that is not its caller, and it does not look at the type of
the message. If every call names its own thread or process as the source and leaves the
types of the kernel's own messages alone, then so does every message that is received or
forwarded.
-/
namespace Nanvix.Pm
open Config Library Library.Prog

namespace Message

/-- The message names the thread or its process as its source. -/
def Names (m : Message) (pid tid : Nat) : Prop :=
  m.source = (Party.process pid).raw ∨ m.source = (Party.thread tid).raw

instance (m : Message) (pid tid : Nat) : Decidable (m.Names pid tid) :=
  inferInstanceAs (Decidable (_ ∨ _))

instance (m : Message) : Decidable m.IsNotice := inferInstanceAs (Decidable (_ ∨ _ ∨ _))

/-- The message looks as if the kernel had made it. -/
def LooksLikeKernel (m : Message) : Prop := m.source = (Party.process kernelPid).raw ∨ m.IsNotice

end Message

/-- A letter of a send call names its sender and does not look as if the kernel had made it. -/
def Letter.Authentic (l : Letter) : Prop :=
  ∀ pid tid, l.origin = .send pid tid →
    l.message.Names pid tid ∧ ¬ l.message.LooksLikeKernel

/-- A message is received as it was sent, or the kernel made it. -/
def Delivery.Authentic (d : Delivery) : Prop :=
  match d.letter with
  | none => d.message.IsNotice
  | some l => d.message = l.message ∧ l.Authentic

/-- A letter is received by the thread it names or in the process it names. -/
def Delivery.Addressed (d : Delivery) : Prop :=
  ∀ l, d.letter = some l → l.receiver = .process d.pid ∨ l.receiver = .thread d.tid

/-- Threads of user processes name themselves and do not use the types of the kernel. -/
def Policy.honest : Policy :=
  ⟨fun L l => ∀ pid tid, l.origin = .send pid tid → (pid, tid) ∈ L.members ∧ pid ≠ kernelPid ∧
    l.message.Names pid tid ∧ ¬ l.message.IsNotice, fun _ _ => True⟩

namespace Ledger
variable {π : Policy} {L L' : Ledger}

/-- The first identifier of a thread is the kernel's. -/
structure Rooted (L : Ledger) : Prop where
  next : 0 < L.nextTid
  members : ∀ m ∈ L.members, m.2 = 0 → m.1 = kernelPid

theorem Step.rooted (h : Rooted L) (hstep : Step π L L') : Rooted L' := by
  cases hstep with
  | leave hle => exact ⟨h.next, fun m hm => h.members m (Multiset.mem_of_le hle hm)⟩
  | create space | spawn _ =>
    refine ⟨Nat.succ_pos _, fun m hm hzero => ?_⟩
    rcases Multiset.mem_cons.mp hm with rfl | hm
    · exact absurd hzero h.next.ne'
    · exact h.members m hm hzero
  | bury _ _ | exit _ _ | harvest _ _ | edit _ _ | register _ _ _ | unregister _ _ _ | post _ _ _
  | overflow _ _ _ _ | skip | fetch _ _ _ _ | lose _ _ _ | notice _ _ _ | forward _ _ _ =>
    exact ⟨h.next, h.members⟩

/-- An honest letter is authentic: no user thread has the kernel's identifiers. -/
theorem Rooted.authentic (h : Rooted L) {l : Letter} (hmay : Policy.honest.sends L l) :
    l.Authentic := by
  intro pid tid horigin
  obtain ⟨hmember, hpid, hnames, hnotice⟩ := hmay pid tid horigin
  refine ⟨hnames, ?_⟩
  rintro (hkernel | hlooks)
  · rcases hnames with hsource | hsource
    · rw [hsource] at hkernel
      exact hpid (Int.ofNat.inj hkernel)
    · rw [hsource] at hkernel
      exact hpid (h.members _ hmember (Int.ofNat.inj (Int.neg_eq_zero.mp hkernel)))
  · exact hnotice hlooks

theorem Takes.authentic (h : Rooted L) {l : Letter} (htakes : Takes .honest L l) : l.Authentic := by
  rcases htakes.2 with ⟨horigin, -⟩ | ⟨-, hmay⟩
  · intro pid tid hsend
    cases horigin.symm.trans hsend
  · exact h.authentic hmay

/-- All letters are authentic: those in mailboxes, those received and those forwarded. -/
structure Signed (L : Ledger) : Prop where
  rooted : Rooted L
  mail : ∀ s ∈ L.standings, ∀ l ∈ s.1.mailbox, l.Authentic
  received : ∀ d ∈ L.deliveries, d.Authentic
  forwarded : ∀ l ∈ L.forwarded, l.Authentic

/-- A step of honest senders puts only authentic letters into mailboxes. -/
theorem Step.signed_mail (h : Signed L) (hstep : Step .honest L L') :
    ∀ s ∈ L'.standings, ∀ l ∈ s.1.mailbox, l.Authentic := by
  intro s' hs' l hl
  cases hstep.mailed s' hs' with
  | kept hs _ hsub => exact h.mail _ hs l (hsub.subset hl)
  | empty hempty =>
    rw [hempty] at hl
    cases hl
  | posted hs _ hmail htakes _ =>
    rw [hmail] at hl
    rcases List.mem_append.mp hl with hl | hl
    · exact h.mail _ hs l hl
    · rw [List.mem_singleton.mp hl]
      exact htakes.authentic h.rooted

theorem Step.signed_received (h : Signed L) (hstep : Step .honest L L') :
    ∀ d ∈ L'.deliveries, d.Authentic := by
  cases hstep with
  | fetch hs _ hfetch _ =>
    intro d hd
    rcases List.mem_cons.mp hd with rfl | hd
    · refine ⟨rfl, h.mail _ (hs ▸ Multiset.mem_cons_self _ _) _ ?_⟩
      exact (Mailbox.perm_of_receive hfetch).mem_iff.mpr List.mem_cons_self
    · exact h.received d hd
  | notice pid tid hm =>
    exact List.forall_mem_cons.mpr ⟨hm, h.received⟩
  | bury _ _ | leave _ | create _ | spawn _ | exit _ _ | harvest _ _ | edit _ _ | register _ _ _
  | unregister _ _ _ | post _ _ _ | overflow _ _ _ _ | skip | lose _ _ _ | forward _ _ _ =>
    exact h.received

theorem Step.signed_forwarded (h : Signed L) (hstep : Step .honest L L') :
    ∀ l ∈ L'.forwarded, l.Authentic := by
  cases hstep with
  | forward _ _ hmay =>
    exact List.forall_mem_cons.mpr ⟨h.rooted.authentic hmay, h.forwarded⟩
  | bury _ _ | leave _ | create _ | spawn _ | exit _ _ | harvest _ _ | edit _ _ | register _ _ _
  | unregister _ _ _ | post _ _ _ | overflow _ _ _ _ | skip | fetch _ _ _ _ | lose _ _ _
  | notice _ _ _ => exact h.forwarded

theorem Step.signed (h : Signed L) (hstep : Step .honest L L') : Signed L' :=
  ⟨hstep.rooted h.rooted, hstep.signed_mail h, hstep.signed_received h, hstep.signed_forwarded h⟩

/-- A letter to a process lies in its mailbox, and a letter was received by those it names. -/
structure Addressed (L : Ledger) : Prop where
  mail : ∀ s ∈ L.standings, ∀ l ∈ s.1.mailbox, ∀ pid, l.receiver = .process pid → s.1.pid = pid
  received : ∀ d ∈ L.deliveries, d.Addressed

/-- Letters stay with the process they are addressed to. -/
theorem Step.addressed (h : Addressed L) (hstep : Step π L L') : Addressed L' := by
  constructor
  · intro s' hs' l hl pid hpid
    cases hstep.mailed s' hs' with
    | kept hs hsame hsub => exact hsame ▸ h.mail _ hs l (hsub.subset hl) pid hpid
    | empty hempty =>
      rw [hempty] at hl
      cases hl
    | posted hs hsame hmail _ hfits =>
      rw [hmail] at hl
      rcases List.mem_append.mp hl with hl | hl
      · exact hsame ▸ h.mail _ hs l hl pid hpid
      · rw [List.mem_singleton.mp hl] at hpid
        exact hsame ▸ hfits.1 pid hpid
  · cases hstep with
    | @fetch p _ tid l _ hs _ hfetch _ =>
      obtain ⟨test, htaken, hnamed⟩ := Mailbox.exists_removeIf hfetch
      obtain ⟨hpass, hperm⟩ := removeIf_eq_some htaken
      refine List.forall_mem_cons.mpr ⟨fun m hm => ?_, h.received⟩
      cases hm
      rcases hnamed hpass with hthread | hprocess
      · exact .inr hthread
      · cases hl : l.receiver with
        | process pid =>
          have hmem := hperm.mem_iff.mpr List.mem_cons_self
          exact .inl (h.mail _ (hs ▸ Multiset.mem_cons_self _ _) l hmem pid hl ▸ rfl)
        | thread t => rw [hl] at hprocess; cases hprocess
    | notice pid tid hm => exact List.forall_mem_cons.mpr ⟨fun _ hl => (nomatch hl), h.received⟩
    | bury _ _ | leave _ | create _ | spawn _ | exit _ _ | harvest _ _ | edit _ _ | register _ _ _
    | unregister _ _ _ | post _ _ _ | overflow _ _ _ _ | skip | lose _ _ _ | forward _ _ _ =>
      exact h.received

end Ledger

/-- The sources of messages can be trusted. -/
structure SourcesAuthentic (k : Kernel) : Prop where
  /-- What is received from a send call names its sender. -/
  received : ∀ d ∈ k.deliveries, ∀ l, d.letter = some l → ∀ pid tid, l.origin = .send pid tid →
    d.message.Names pid tid
  /-- What is forwarded comes from a send call and names its sender. -/
  forwarded : ∀ l ∈ k.forwarded, ∀ pid tid, l.origin = .send pid tid → l.message.Names pid tid
  /-- What looks as if the kernel had made it was made by the kernel or came over the channel. -/
  kernelMade : ∀ d ∈ k.deliveries, d.message.LooksLikeKernel →
    d.letter = none ∧ d.message.IsNotice ∨ ∃ l, d.letter = some l ∧ l.origin = .channel

/-- A send names the caller as its source and does not use the types of the kernel's messages. -/
def honest : KernelCmd → Kernel → Bool
  | .send m, k => k.pm.running.any fun p => p.state.pid != kernelPid &&
      decide (m.Names p.state.pid p.running.state.id) && !decide m.IsNotice
  | _, _ => true

/-- In every run in which every send is honest, sources can be trusted. -/
theorem sources_authentic_of_reach {kernelFrames : List Nat} {mem : Mm.MemState} {root : Nat}
    {interruptCapable : Bool} {k : Kernel} (h : (kernelMachine kernelFrames).Reach
      (fun c k => honest c k = true) (.boot mem root interruptCapable) k) :
    SourcesAuthentic k := by
  have hsend : ∀ m k p, honest (.send m) k = true → k.pm.running = some p →
      Policy.honest.sends k.ledger ⟨m, k.nextSerial, .send p.state.pid p.running.state.id⟩ := by
    intro m k p hhonest hp pid tid horigin
    cases horigin
    simp only [honest, hp, Option.any_some, Bool.and_eq_true, bne_iff_ne, decide_eq_true_eq,
      Bool.not_eq_true', decide_eq_false_iff_not] at hhonest
    exact ⟨member_running hp, hhonest.1.1, hhonest.1.2, hhonest.2⟩
  have hkept := kept_of_reach hsend (fun _ _ _ _ _ => trivial) h
  have hboot : Ledger.Signed (Kernel.boot mem root interruptCapable).ledger := by
    refine ⟨⟨Nat.zero_lt_one, ?_⟩, ?_, ?_, ?_⟩
    · intro m hm _
      rw [Multiset.mem_singleton.mp hm]
      rfl
    · intro s hs l hl
      rw [Multiset.mem_singleton.mp hs] at hl
      cases hl
    · exact List.forall_mem_nil _
    · exact List.forall_mem_nil _
  have hsigned := hkept.2.invariant hboot fun _ _ => Ledger.Step.signed
  have hletter : ∀ d ∈ k.deliveries, ∀ l, d.letter = some l → d.message = l.message ∧
      l.Authentic := by
    intro d hd l hl
    have hauthentic := hsigned.received d hd
    unfold Delivery.Authentic at hauthentic
    rw [hl] at hauthentic
    exact hauthentic
  constructor
  · intro d hd l hl pid tid horigin
    obtain ⟨hmessage, hauthentic⟩ := hletter d hd l hl
    rw [hmessage]
    exact (hauthentic pid tid horigin).1
  · exact fun l hl pid tid horigin => (hsigned.forwarded l hl pid tid horigin).1
  · intro d hd hlooks
    cases hl : d.letter with
    | none =>
      have hnotice := hsigned.received d hd
      unfold Delivery.Authentic at hnotice
      rw [hl] at hnotice
      exact .inl ⟨rfl, hnotice⟩
    | some l =>
      obtain ⟨hmessage, hauthentic⟩ := hletter d hd l hl
      rw [hmessage] at hlooks
      cases horigin : l.origin with
      | send pid tid => exact absurd hlooks (hauthentic pid tid horigin).2
      | channel => exact .inr ⟨l, rfl, horigin⟩

/-- In every run letters are received by those they name. -/
theorem received_by_addressee {kernelFrames : List Nat} {mem : Mm.MemState} {root : Nat}
    {interruptCapable : Bool} {k : Kernel} (h : (kernelMachine kernelFrames).Reach
      (fun _ _ => True) (.boot mem root interruptCapable) k) :
    ∀ d ∈ k.deliveries, d.Addressed := by
  have hkept := kept_of_reach (π := .any) (fun _ _ _ _ _ => trivial) (fun _ _ _ _ _ => trivial) h
  have hboot : Ledger.Addressed (Kernel.boot mem root interruptCapable).ledger := by
    refine ⟨fun s hs l hl => ?_, List.forall_mem_nil _⟩
    rw [Multiset.mem_singleton.mp hs] at hl
    cases hl
  exact (hkept.2.invariant hboot fun _ _ => Ledger.Step.addressed).received

/-- A process writes to another one, to a thread of it, and to another machine. -/
def letters : List KernelCmd :=
  [.memory .newVmem, .createProcess 0 (.ok ()), .createProcess 0 (.ok ()), .giveup,
    .send ⟨.ipc, 1, 2, 0, .bytes []⟩, .send ⟨.ipc, 1, -2, 0, .bytes []⟩,
    .send ⟨.ikc, 1, 100, 0, .bytes []⟩, .giveup, .recv (.ok ()), .recv (.ok ())]

/-- A thread receives a letter to itself and then one to its process. -/
theorem received_by_process : ∃ k, (kernelMachine []).Reach (fun _ _ => True)
    (.boot (.boot 128) 0 false) k ∧ k.deliveries.map (fun d => (d.pid, d.tid, d.message.receiver)) =
      [(2, 2, .process 2), (2, 2, .thread 2)] ∧ ∀ d ∈ k.deliveries, d.Addressed := by
  obtain ⟨k, hk, hmail⟩ := (kernelMachine []).exists_reach (.boot (.boot 128) 0 false) letters
    (·.deliveries.map (fun d => (d.pid, d.tid, d.message.receiver)) =
      [(2, 2, .process 2), (2, 2, .thread 2)]) (by decide +kernel)
  exact ⟨k, hk, hmail, received_by_addressee hk⟩

/-- A process receives the letters of another one, and a third letter is forwarded. -/
theorem sources_authentic_after_send : ∃ k, (kernelMachine []).Reach
    (fun c k => honest c k = true) (.boot (.boot 128) 0 false) k ∧
      k.deliveries.map (fun d => (d.pid, d.letter.map (·.origin))) =
        [(2, some (.send 1 1)), (2, some (.send 1 1))] ∧
      k.forwarded = [⟨⟨.ikc, 1, 100, 0, .bytes []⟩, 2, .send 1 1⟩] ∧ SourcesAuthentic k := by
  obtain ⟨k, hreach, hmail, hforwarded⟩ := (kernelMachine []).exists_reach_restrict honest
    (.boot (.boot 128) 0 false) letters
    (fun k => k.deliveries.map (fun d => (d.pid, d.letter.map (·.origin))) =
        [(2, some (.send 1 1)), (2, some (.send 1 1))] ∧
      k.forwarded = [⟨⟨.ikc, 1, 100, 0, .bytes []⟩, 2, .send 1 1⟩]) (by decide +kernel)
  exact ⟨k, hreach, hmail, hforwarded, sources_authentic_of_reach hreach⟩

/-- A send call forges an interrupt of the kernel. -/
theorem forged_interrupt_received : ∃ k, (kernelMachine []).Reach (fun _ _ => True)
    (.boot (.boot 128) 0 false) k ∧ ¬ SourcesAuthentic k := by
  obtain ⟨k, hk, hmail⟩ := (kernelMachine []).exists_reach (.boot (.boot 128) 0 false)
    [.memory .newVmem, .createProcess 0 (.ok ()), .giveup, .send ⟨.interrupt, 0, 1, 0, .bytes []⟩,
      .recv (.ok ())]
    (·.deliveries = [⟨1, 1, ⟨.interrupt, 0, 1, 0, .bytes []⟩,
      some ⟨⟨.interrupt, 0, 1, 0, .bytes []⟩, 0, .send 1 1⟩⟩]) (by decide +kernel)
  refine ⟨k, hk, fun hauthentic => ?_⟩
  have hforged := hauthentic.kernelMade ⟨1, 1, ⟨.interrupt, 0, 1, 0, .bytes []⟩,
    some ⟨⟨.interrupt, 0, 1, 0, .bytes []⟩, 0, .send 1 1⟩⟩
  rw [hmail] at hforged
  rcases hforged List.mem_cons_self (.inl rfl) with ⟨hnone, -⟩ | ⟨l, hl, horigin⟩
  · cases hnone
  · cases hl
    cases horigin

end Nanvix.Pm
