import Nanvix.Pm.EventSpec
import Nanvix.Pm.ManagerSpec
import Nanvix.Pm.System

/-!
# The ledger of processes and messages

What the kernel keeps about its processes and their mail, apart from scheduling: the
standings of the processes, their threads, the owners of the events, the counter of buffered messages,
and what has been delivered, forwarded and reported so far. The ledger changes in a few
ways only, and they are listed here. Scheduling shows up as processes that die.

## Implementation notes

The ledger is an abstract machine: a step names the standing it changes. Which letters
may be sent and which processes may be buried is left to a policy.
-/
namespace Nanvix.Pm
open Config Library Relation ProcessState

variable {mailbox : List Letter} {rest : Multiset Standing} {s : Standing}

/-- A thread as a member of its process. -/
def Row.member (r : Row) : Nat × Nat := (r.pid, r.tid)

/-- The threads of all processes. -/
def ProcessManager.members (pm : ProcessManager) : Multiset (Nat × Nat) := pm.rows.map Row.member

/-- The books about processes and messages. -/
structure Ledger where
  standings : Multiset Standing
  members : Multiset (Nat × Nat)
  nextPid : Nat
  nextTid : Nat
  buffered : Nat
  owner : Event → Option Nat
  interruptCapable : Bool
  deliveries : List Delivery
  forwarded : List Letter
  nextSerial : Nat
  exits : List (Nat × ExitStatus)

/-- The ledger of the kernel. -/
def Kernel.ledger (k : Kernel) : Ledger :=
  ⟨k.pm.standings, k.pm.members, k.pm.nextPid, k.pm.tm.nextId, k.pm.numberBufferedMessages,
    k.em.owner, k.em.interruptCapable, k.deliveries, k.forwarded, k.nextSerial, k.exits⟩

/-- The letters that threads may send and the processes that may be buried. -/
structure Policy where
  sends : Ledger → Letter → Prop
  harvests : Ledger → Standing → Prop

/-- Every letter may be sent and every process be buried. -/
def Policy.any : Policy := ⟨fun _ _ => True, fun _ _ => True⟩

/-- A message that the kernel makes of an event. -/
def Message.IsNotice (m : Message) : Prop :=
  m.messageType = .interrupt ∨ m.messageType = .exception ∨ m.messageType = .processTerminationEvent

variable {tid : Nat} {l : Letter}

theorem Mailbox.exists_removeIf {rest : List Letter}
    (h : Mailbox.receive tid mailbox = some (l, rest)) :
    ∃ p : Letter → Bool, removeIf p mailbox = some (l, rest) ∧
      (p l = true → l.receiver = .thread tid ∨ l.receiver.isProcess = true) := by
  unfold receive at h
  split at h
  next r hr =>
    cases h
    exact ⟨_, hr, fun hpass => .inl (eq_of_beq hpass)⟩
  next => exact ⟨_, h, .inr⟩

/-- A letter that is received is taken out of the mailbox. -/
theorem Mailbox.perm_of_receive {rest : List Letter}
    (h : Mailbox.receive tid mailbox = some (l, rest)) : mailbox.Perm (l :: rest) := by
  obtain ⟨p, hp, -⟩ := exists_removeIf h
  exact (removeIf_eq_some hp).2

theorem Mailbox.sublist_of_receive {rest : List Letter}
    (h : Mailbox.receive tid mailbox = some (l, rest)) : rest.Sublist mailbox := by
  obtain ⟨p, hp, -⟩ := exists_removeIf h
  exact removeIf_sublist hp

namespace Ledger

/-- The ledger takes a letter: one from the channel, or one that a thread may send. -/
def Takes (π : Policy) (L : Ledger) (l : Letter) : Prop :=
  l.serial = L.nextSerial ∧ ((l.origin = .channel ∧ L.buffered < maxIkcMessages) ∨
    (∃ pid tid, l.origin = .send pid tid) ∧ π.sends L l)

/-- A mailbox that a letter is put into: of the process it names, or that of the thread it names. -/
def Fits (L : Ledger) (l : Letter) (s : Standing) : Prop :=
  (∀ pid, l.receiver = .process pid → s.1.pid = pid) ∧
    ∀ tid, l.receiver = .thread tid → (s.1.pid, tid) ∈ L.members

/-- The changes of a ledger. -/
inductive Step (π : Policy) : Ledger → Ledger → Prop
  | bury {L : Ledger} {a b : Standing} {rest : Multiset Standing}
      (h : L.standings = a ::ₘ rest) (hbury : Buries a b) :
      Step π L { L with standings := b ::ₘ rest }
  | leave {L : Ledger} {members : Multiset (Nat × Nat)} (h : members ≤ L.members) :
      Step π L { L with members := members }
  | create {L : Ledger} (space : Nat) :
      Step π L { L with
        standings := (.new L.nextPid space, none) ::ₘ L.standings
        members := (L.nextPid, L.nextTid) ::ₘ L.members
        nextPid := L.nextPid + 1
        nextTid := L.nextTid + 1 }
  | spawn {L : Ledger} {p : ProcessState} (h : (p, none) ∈ L.standings) :
      Step π L { L with
        members := (p.pid, L.nextTid) ::ₘ L.members, nextTid := L.nextTid + 1 }
  | exit {L : Ledger} {p : ProcessState} {rest : Multiset Standing} (status : ExitStatus)
      (h : L.standings = (p, none) ::ₘ rest) :
      Step π L { L with
        standings := (p.setPendingExitStatus status, none) ::ₘ rest
        exits := (p.pid, status) :: L.exits }
  | harvest {L : Ledger} {z : ProcessState} {status : ExitStatus} {rest : Multiset Standing}
      (h : L.standings = (z, some status) ::ₘ rest) (hmay : π.harvests L (z, some status)) :
      Step π L { L with standings := rest, owner := z.events.foldl dropOwner L.owner }
  | edit {L : Ledger} {p p' : ProcessState} {o : Option ExitStatus} {rest : Multiset Standing}
      (h : L.standings = (p, o) ::ₘ rest) (hsame : p' = { p with
        capabilities := p'.capabilities, mutexes := p'.mutexes, conditions := p'.conditions }) :
      Step π L { L with standings := (p', o) ::ₘ rest }
  | register {L : Ledger} {p : ProcessState} {rest : Multiset Standing} {ev : Event}
      (h : L.standings = (p, none) ::ₘ rest) (hfree : L.owner ev = none)
      (hcapable : ev.isInterrupt = true → L.interruptCapable = true) :
      Step π L { L with
        standings := (p.addEvent ev, none) ::ₘ rest
        owner := Function.update L.owner ev (some p.pid) }
  | unregister {L : Ledger} {p : ProcessState} {rest : Multiset Standing} {ev : Event}
      (h : L.standings = (p, none) ::ₘ rest) (howner : L.owner ev = some p.pid)
      (hnot : ev.isInterrupt = false) :
      Step π L { L with
        standings := (p.removeEvent ev, none) ::ₘ rest, owner := Function.update L.owner ev none }
  | post {L : Ledger} {s : Standing} {rest : Multiset Standing} {l : Letter}
      (h : L.standings = s ::ₘ rest) (htakes : Takes π L l) (hfits : Fits L l s) :
      Step π L { L with
        standings := (s.1.postMessage l, s.2) ::ₘ rest, buffered := L.buffered + 1
        nextSerial := L.nextSerial + 1 }
  | overflow {L : Ledger} {s : Standing} {rest : Multiset Standing} {l : Letter}
      (h : L.standings = s ::ₘ rest) (htakes : Takes π L l) (hfits : Fits L l s)
      (hfull : usizeMax < L.buffered + 1) :
      Step π L { L with
        standings := (s.1.postMessage l, s.2) ::ₘ rest, nextSerial := L.nextSerial + 1 }
  | skip {L : Ledger} : Step π L { L with nextSerial := L.nextSerial + 1 }
  | fetch {L : Ledger} {p : ProcessState} {rest : Multiset Standing} {tid : Nat} {l : Letter}
      {mailbox : List Letter} (h : L.standings = (p, none) ::ₘ rest)
      (hmember : (p.pid, tid) ∈ L.members)
      (hfetch : Mailbox.receive tid p.mailbox = some (l, mailbox)) (hcount : 0 < L.buffered) :
      Step π L { L with
        standings := ({ p with mailbox := mailbox }, none) ::ₘ rest, buffered := L.buffered - 1
        deliveries := ⟨p.pid, tid, l.message, some l⟩ :: L.deliveries }
  | lose {L : Ledger} {p : ProcessState} {rest : Multiset Standing} {tid : Nat} {l : Letter}
      {mailbox : List Letter} (h : L.standings = (p, none) ::ₘ rest)
      (hfetch : Mailbox.receive tid p.mailbox = some (l, mailbox)) (hcount : L.buffered = 0) :
      Step π L { L with standings := ({ p with mailbox := mailbox }, none) ::ₘ rest }
  | notice {L : Ledger} (pid tid : Nat) {m : Message} (hm : m.IsNotice) :
      Step π L { L with deliveries := ⟨pid, tid, m, none⟩ :: L.deliveries }
  | forward {L : Ledger} {l : Letter} {pid tid : Nat} (hserial : l.serial = L.nextSerial)
      (horigin : l.origin = .send pid tid) (hmay : π.sends L l) :
      Step π L { L with nextSerial := L.nextSerial + 1, forwarded := l :: L.forwarded }

/-- The ledgers that come from one by the changes listed. -/
def Reaches (π : Policy) : Ledger → Ledger → Prop := ReflTransGen (Step π)

variable {π : Policy} {L L' : Ledger}

/-- What every change keeps holds of every ledger reached. -/
theorem Reaches.invariant {I : Ledger → Prop} (h : Reaches π L L') (h₀ : I L)
    (hstep : ∀ L L', I L → Step π L L' → I L') : I L' := by
  induction h with
  | refl => exact h₀
  | tail _ hlast ih => exact hstep _ _ ih hlast

/-- Threads leave, and processes die one after the other. -/
theorem Reaches.of_buries {s t : Multiset Standing} {members : Multiset (Nat × Nat)}
    (h : Evolves Buries s t) (hs : L.standings = s) (hmembers : members ≤ L.members)
    (hL' : L' = { L with standings := t, members := members }) : Reaches π L L' := by
  subst hs hL'
  have hsteps := h.replaces
  clear h
  induction hsteps with
  | refl => exact .single (.leave hmembers)
  | tail _ hlast ih =>
    obtain ⟨a, b, rest, hbury, rfl, rfl⟩ := hlast
    exact ih.tail (Step.bury rfl hbury)

section Pids

def pids (L : Ledger) : Multiset Nat := L.standings.map fun s => s.1.pid

/-- Identifiers of processes are told apart, and new ones are not in use. -/
structure Distinct (L : Ledger) : Prop where
  nodup : L.pids.Nodup
  bound : ∀ n ∈ L.pids, n < L.nextPid

theorem distinct_boot (mem : Mm.MemState) (root : Nat) (interruptCapable : Bool) :
    Distinct (Kernel.boot mem root interruptCapable).ledger := by
  constructor
  · exact Multiset.nodup_singleton _
  · intro n hn
    rw [Multiset.mem_singleton.mp hn]
    exact Nat.zero_lt_one

theorem pids_cons (h : L.standings = s ::ₘ rest) :
    L.pids = s.1.pid ::ₘ rest.map fun s => s.1.pid := by
  rw [pids, h, Multiset.map_cons]

/-- A standing that changes and keeps its identifier. -/
theorem pids_replace {s' : Standing} (h : L.standings = s ::ₘ rest)
    (h' : L'.standings = s' ::ₘ rest) (hpid : s'.1.pid = s.1.pid) : L'.pids = L.pids := by
  rw [pids_cons h, pids_cons h', hpid]

theorem Distinct.of_pids (h : Distinct L) (hpids : L'.pids = L.pids)
    (hnext : L'.nextPid = L.nextPid) : Distinct L' :=
  ⟨by rw [hpids]; exact h.nodup, by rw [hpids, hnext]; exact h.bound⟩

/-- No step gives a process number twice. -/
theorem Step.distinct (h : Distinct L) (hstep : Step π L L') : Distinct L' := by
  cases hstep with
  | bury hs hbury =>
    exact h.of_pids (pids_replace hs rfl (pid_eq_of_book hbury.book_eq).symm) rfl
  | leave _ | spawn _ => exact h.of_pids rfl rfl
  | create space =>
    have hpids : ({ L with
        standings := (.new L.nextPid space, none) ::ₘ L.standings
        members := (L.nextPid, L.nextTid) ::ₘ L.members
        nextPid := L.nextPid + 1
        nextTid := L.nextTid + 1 } : Ledger).pids = L.nextPid ::ₘ L.pids :=
      Multiset.map_cons _ _ _
    constructor
    · rw [hpids, Multiset.nodup_cons]
      exact ⟨fun hmem => Nat.lt_irrefl _ (h.bound _ hmem), h.nodup⟩
    · intro n hn
      rw [hpids] at hn
      rcases Multiset.mem_cons.mp hn with rfl | hn
      · exact Nat.lt_succ_self _
      · exact Nat.lt_succ_of_lt (h.bound n hn)
  | exit status hs =>
    exact h.of_pids (pids_replace hs rfl (pid_setPendingExitStatus _ _)) rfl
  | harvest hs _ =>
    have hnodup := h.nodup
    rw [pids_cons hs, Multiset.nodup_cons] at hnodup
    refine ⟨hnodup.2, fun n hn => h.bound n ?_⟩
    rw [pids_cons hs]
    exact Multiset.mem_cons_of_mem hn
  | edit hs hsame => exact h.of_pids (pids_replace hs rfl (by rw [hsame])) rfl
  | register hs _ _ | unregister hs _ _ | post hs _ _ | overflow hs _ _ _ =>
    exact h.of_pids (pids_replace hs rfl rfl) rfl
  | skip => exact h.of_pids rfl rfl
  | fetch hs _ _ _ | lose hs _ _ => exact h.of_pids (pids_replace hs rfl rfl) rfl
  | notice _ _ _ | forward _ _ _ => exact h.of_pids rfl rfl

end Pids

section Letters

/-- A mailbox after a change: as before or with letters taken out, empty, or with a new letter. -/
inductive Mailed (π : Policy) (L : Ledger) (s' : Standing) : Prop
  | kept {s : Standing} (hs : s ∈ L.standings) (hpid : s.1.pid = s'.1.pid)
      (hsub : s'.1.mailbox.Sublist s.1.mailbox) : Mailed π L s'
  | empty (h : s'.1.mailbox = []) : Mailed π L s'
  | posted {s : Standing} {l : Letter} (hs : s ∈ L.standings) (hpid : s.1.pid = s'.1.pid)
      (hmail : s'.1.mailbox = s.1.mailbox ++ [l]) (htakes : Takes π L l) (hfits : Fits L l s) :
      Mailed π L s'

theorem Mailed.refl (hs : s ∈ L.standings) : Mailed π L s :=
  .kept hs rfl (List.Sublist.refl _)

/-- One standing changes. -/
theorem Mailed.of_replace {s' t : Standing} (hs : L.standings = s ::ₘ rest) (ht : t ∈ s' ::ₘ rest)
    (hs' : s ∈ L.standings → Mailed π L s') : Mailed π L t := by
  rcases Multiset.mem_cons.mp ht with rfl | ht
  · apply hs'
    rw [hs]
    exact Multiset.mem_cons_self _ _
  · apply Mailed.refl
    rw [hs]
    exact Multiset.mem_cons_of_mem ht

/-- What a change does to the mailboxes. -/
theorem Step.mailed (hstep : Step π L L') : ∀ s' ∈ L'.standings, Mailed π L s' := by
  intro s' hs'
  cases hstep with
  | bury hs hbury =>
    refine .of_replace hs hs' fun h => .kept h (pid_eq_of_book hbury.book_eq) ?_
    rw [mailbox_eq_of_book hbury.book_eq]
  | leave _ => exact .refl hs'
  | create space =>
    rcases Multiset.mem_cons.mp hs' with rfl | hs'
    · exact .empty rfl
    · exact .refl hs'
  | spawn _ => exact .refl hs'
  | exit status hs =>
    have hbook := book_setPendingExitStatus
    refine .of_replace hs hs' fun h => .kept h (pid_eq_of_book (hbook _ _).symm) ?_
    rw [mailbox_eq_of_book (hbook _ status)]
  | harvest hs _ =>
    apply Mailed.refl
    rw [hs]
    exact Multiset.mem_cons_of_mem hs'
  | edit hs hsame =>
    refine .of_replace hs hs' fun h => .kept h (by rw [hsame]) ?_
    rw [hsame]
  | register hs _ _ | unregister hs _ _ =>
    exact .of_replace hs hs' fun h => .kept h rfl (List.Sublist.refl _)
  | post hs htakes hfits | overflow hs htakes hfits _ =>
    exact .of_replace hs hs' fun h => .posted h rfl rfl htakes hfits
  | skip => exact .refl hs'
  | fetch hs _ hfetch _ | lose hs hfetch _ =>
    exact .of_replace hs hs' fun h => .kept h rfl (Mailbox.sublist_of_receive hfetch)
  | notice _ _ _ | forward _ _ _ => exact .refl hs'

end Letters

end Ledger
end Nanvix.Pm
