import Nanvix.HostFs.Forward

/-!
# Requests put together from parts

hostfsd's assembler starts on a part zero, takes the parts of one stream in order, and
is drained after every error and every completion. Whatever has been received, it
holds the parts of one stream from part zero on (`Holds`), none if it is new, so a
stream that starts on a new assembler is assembled whatever came before.
-/
namespace Nanvix.HostFs.Forwarding

open HostFsAssembler

section Step

variable {kind : OpKind} {total : Nat} {ps : List (OpKind × Part)} {a : HostFsAssembler} {p : Part}

/-- The payloads of some parts, joined. -/
def joined (ps : List (OpKind × Part)) : Bytes :=
  ps.flatMap fun p => p.2.payload.take partPayloadSize

/-- The parts have one header and one total, and are numbered from zero. -/
def InOrder (kind : OpKind) (total : Nat) (ps : List (OpKind × Part)) : Prop :=
  ps.map (fun p => (p.1, p.2.totalParts, p.2.partNumber)) =
    (List.range ps.length).map fun k => (kind, total, k)

/-- The first parts of a stream that the limits of the assembler admit. -/
structure Fitting (kind : OpKind) (total : Nat) (ps : List (OpKind × Part)) : Prop where
  inOrder : InOrder kind total ps
  length_le : ps.length ≤ total
  total_le : total ≤ maxTotalParts
  joined_le : (joined ps).length ≤ maxLongBufferSize

theorem inOrder_append {q : OpKind × Part} : InOrder kind total (ps ++ [q]) ↔
    InOrder kind total ps ∧ q.1 = kind ∧ q.2.totalParts = total ∧ q.2.partNumber = ps.length := by
  simp [InOrder, List.range_succ]

@[simp] theorem joined_append (q : OpKind × Part) :
    joined (ps ++ [q]) = joined ps ++ q.2.payload.take partPayloadSize := by
  simp [joined]

theorem Fitting.init {q : OpKind × Part} (h : Fitting kind total (ps ++ [q])) :
    Fitting kind total ps := by
  obtain ⟨horder, hlen, htotal, hroom⟩ := h
  rw [List.length_append] at hlen
  rw [joined_append, List.length_append] at hroom
  exact ⟨(inOrder_append.mp horder).1, by omega, htotal, by omega⟩

/-- The assembler that was set up by the first of these parts and took them all. -/
def held (kind : OpKind) (total : Nat) (ps : List (OpKind × Part)) : HostFsAssembler :=
  ⟨some kind, total, ps.length, ps.length, joined ps⟩

/-- The assembler between two parts. -/
def progress (kind : OpKind) (total : Nat) (ps : List (OpKind × Part)) : HostFsAssembler :=
  if ps = [] then .new else held kind total ps

/-- The assembler holds these parts and waits for more. -/
def Holds (a : HostFsAssembler) (ps : List (OpKind × Part)) : Prop :=
  ∃ kind total, a = progress kind total ps ∧ ps.length < total ∧ Fitting kind total ps

/-- The counters fit their sixteen bits, and the buffer its limit. -/
structure InBounds (a : HostFsAssembler) : Prop where
  total_lt : a.totalParts < 2 ^ 16
  received_lt : a.partsReceived < 2 ^ 16
  next_lt : a.nextPartNumber < 2 ^ 16
  buffer_le : a.buffer.length ≤ maxLongBufferSize

theorem maxTotalParts_lt : maxTotalParts < 2 ^ 16 := by
  decide

theorem Fitting.inBounds (h : Fitting kind total ps) : InBounds (held kind total ps) := by
  obtain ⟨-, hlen, htotal, hbuffer⟩ := h
  have hmax := maxTotalParts_lt
  exact ⟨by dsimp only [held]; omega, by dsimp only [held]; omega, by dsimp only [held]; omega,
    hbuffer⟩

/-- The next part in order is taken. -/
theorem addPart_next {k : Nat} {buffer : Bytes}
    (hbegun : a.begun kind total = ⟨some kind, total, k, k, buffer⟩)
    (hstart : k = 0 → a.header = none) (hk : k < total) (htotal : total ≤ maxTotalParts)
    (hp : p.totalParts = total) (hnumber : p.partNumber = k)
    (hroom : (buffer ++ p.payload.take partPayloadSize).length ≤ maxLongBufferSize) :
    a.addPart kind p = (if total ≤ k + 1 then .complete else .needMore,
      ⟨some kind, total, k + 1, k + 1, buffer ++ p.payload.take partPayloadSize⟩) := by
  have hvalid : ¬ (total = 0 ∨ maxTotalParts < total) := by omega
  have hstray : ¬ (a.header.isSome = true ∧ k = 0 ∧ a.partsReceived < a.totalParts) := by
    rintro ⟨hsome, hzero, _⟩
    rw [hstart hzero] at hsome
    cases hsome
  rw [List.length_append] at hroom
  simp only [addPart, hp, hnumber, if_neg hvalid, if_neg hstray, hbegun, ne_eq, not_true_eq_false,
    if_false, if_neg (Nat.not_lt.mpr hroom), HostFsAssembler.append]

theorem begun_progress : (progress kind total ps).begun kind total = held kind total ps := by
  unfold progress
  split
  · rename_i hnil
    rw [hnil]
    rfl
  · rfl

theorem addPart_progress (h : Fitting kind total (ps ++ [(kind, p)])) :
    (progress kind total ps).addPart kind p =
      (if total ≤ ps.length + 1 then .complete else .needMore,
        held kind total (ps ++ [(kind, p)])) := by
  obtain ⟨horder, hlen, htotal, hroom⟩ := h
  obtain ⟨-, -, hp, hnumber⟩ := inOrder_append.mp horder
  have hstart : ps.length = 0 → (progress kind total ps).header = none := by
    intro hzero
    rw [progress, if_pos (List.length_eq_zero_iff.mp hzero)]
    rfl
  rw [joined_append] at hroom
  rw [List.length_append] at hlen
  rw [addPart_next begun_progress hstart hlen htotal hp hnumber hroom]
  simp [held]

/-- A part sets up a new assembler, and finds any other as it is. -/
theorem Holds.begun (h : Holds a ps) (kind : OpKind) (hpos : 0 < p.totalParts)
    (hle : p.totalParts ≤ maxTotalParts) :
    ∃ kind₁ total, a.begun kind p.totalParts = held kind₁ total ps ∧ a = progress kind₁ total ps ∧
      ps.length < total ∧ Fitting kind₁ total ps := by
  obtain ⟨kind₁, total, rfl, hlt, hfit⟩ := h
  by_cases hnil : ps = []
  · subst hnil
    exact ⟨kind, p.totalParts, rfl, rfl, hpos, rfl, Nat.zero_le _, hle, Nat.zero_le _⟩
  · have hsame : progress kind₁ total ps = held kind₁ total ps := if_neg hnil
    exact ⟨kind₁, total, by rw [hsame]; rfl, rfl, hlt, hfit⟩

/-- A part is refused, or it is the next one of the stream that the assembler holds. -/
theorem Holds.addPart (h : Holds a ps) (kind : OpKind) (p : Part) :
    ((a.addPart kind p).1 = .error ∧ InBounds (a.addPart kind p).2) ∨
      Fitting kind p.totalParts (ps ++ [(kind, p)]) ∧ a = progress kind p.totalParts ps := by
  have hbounds : InBounds a := by
    obtain ⟨kind', total, rfl, -, hfit⟩ := h
    unfold progress
    split
    · exact ⟨by decide, by decide, by decide, by decide⟩
    · exact hfit.inBounds
  unfold HostFsAssembler.addPart
  split
  · exact .inl ⟨rfl, hbounds⟩
  rename_i hvalid
  split
  · exact .inl ⟨rfl, hbounds⟩
  obtain ⟨kind₁, total, hbegun, ha, hlt, hfit⟩ :=
    h.begun kind (Nat.pos_of_ne_zero fun h => hvalid (.inl h))
      (Nat.le_of_not_lt fun h => hvalid (.inr h))
  simp only [hbegun]
  split
  · exact .inl ⟨rfl, hfit.inBounds⟩
  rename_i hkind
  split
  · exact .inl ⟨rfl, hfit.inBounds⟩
  rename_i htotal
  split
  · exact .inl ⟨rfl, hfit.inBounds⟩
  rename_i hnumber
  split
  · exact .inl ⟨rfl, hfit.inBounds⟩
  rename_i hroom
  obtain rfl : kind₁ = kind := Option.some.inj (not_not.mp hkind)
  obtain rfl : p.totalParts = total := not_not.mp htotal
  refine .inr ⟨⟨inOrder_append.mpr ⟨hfit.inOrder, rfl, rfl, not_not.mp hnumber⟩, ?_,
    hfit.total_le, ?_⟩, ha⟩
  · rw [List.length_append]
    exact hlt
  · simpa [held] using hroom

/-- What `handle_long_part` leaves of the assembler. -/
def drained (r : AssemblyStatus × HostFsAssembler) : HostFsAssembler :=
  if r.1 = .needMore then r.2 else .new

theorem drained_progress (h : Fitting kind total (ps ++ [(kind, p)])) :
    drained ((progress kind total ps).addPart kind p) =
      if total ≤ ps.length + 1 then .new else progress kind total (ps ++ [(kind, p)]) := by
  have hne : ps ++ [(kind, p)] ≠ [] := by simp
  rw [addPart_progress h, drained, progress, if_neg hne]
  split <;> rfl

theorem Holds.drained (h : Holds a ps) (kind : OpKind) (p : Part) :
    drained (a.addPart kind p) = .new ∨ Holds (drained (a.addPart kind p)) (ps ++ [(kind, p)]) := by
  rcases h.addPart kind p with ⟨herr, -⟩ | ⟨hfit, rfl⟩
  · left
    rw [Forwarding.drained, herr]
    rfl
  · rw [drained_progress hfit]
    split
    · exact .inl rfl
    · rename_i hmore
      exact .inr ⟨kind, p.totalParts, rfl, by simpa using hmore, hfit⟩

end Step

section Feed
variable {β : Type} (handle : β → OpKind → Bytes → Result × β) (origin : Nat) (s : System β)

/-- hostfsd after it has handled these parts, one after the other. -/
def feed (ps : List (OpKind × Part)) : System β :=
  ps.foldl (fun s p => s.handleLongPart handle origin p.1 p.2) s

variable {handle origin s} {kind : OpKind} {total : Nat} {ps stream : List (OpKind × Part)}

theorem assembler_feed_append (ps : List (OpKind × Part)) (kind : OpKind) (p : Part) :
    (feed handle origin s (ps ++ [(kind, p)])).assembler =
      drained ((feed handle origin s ps).assembler.addPart kind p) := by
  rw [feed, List.foldl_append, List.foldl_cons, List.foldl_nil, ← feed]
  unfold System.handleLongPart drained
  split <;> simp_all [System.respond]

/-- After any parts the assembler holds those received since it was last new. -/
theorem feed_holds (hs : s.assembler = .new) (ps : List (OpKind × Part)) :
    ∃ earlier stream, ps = earlier ++ stream ∧ (feed handle origin s earlier).assembler = .new ∧
      Holds (feed handle origin s ps).assembler stream := by
  have hnew : Holds .new [] :=
    ⟨.open, 1, rfl, Nat.one_pos, rfl, Nat.zero_le _, by decide, Nat.zero_le _⟩
  induction ps using List.reverseRecOn with
  | nil => exact ⟨[], [], rfl, hs, by rw [feed, List.foldl_nil, hs]; exact hnew⟩
  | append_singleton ps q ih =>
    obtain ⟨earlier, stream, rfl, hearlier, hholds⟩ := ih
    have hstep : (feed handle origin s (earlier ++ stream ++ [q])).assembler = _ :=
      assembler_feed_append (earlier ++ stream) q.1 q.2
    rcases hholds.drained q.1 q.2 with hnew' | hmore
    · rw [hnew'] at hstep
      exact ⟨_, [], (List.append_nil _).symm, hstep, hstep ▸ hnew⟩
    · rw [← hstep] at hmore
      exact ⟨earlier, stream ++ [q], List.append_assoc .., hearlier, hmore⟩

/-- The parts of a stream, but for the last, on an assembler that is new. -/
theorem feed_stream (hnew : (feed handle origin s ps).assembler = .new)
    (hlt : stream.length < total) (hfit : Fitting kind total stream) :
    (feed handle origin s (ps ++ stream)).assembler = progress kind total stream := by
  induction stream using List.reverseRecOn with
  | nil => rw [List.append_nil, hnew, progress, if_pos rfl]
  | append_singleton stream q ih =>
    obtain ⟨-, rfl, -, -⟩ := inOrder_append.mp hfit.inOrder
    rw [List.length_append, List.length_singleton] at hlt
    rw [← List.append_assoc, assembler_feed_append, ih (Nat.lt_of_succ_lt hlt) hfit.init,
      drained_progress hfit, if_neg (Nat.not_le.mpr hlt)]

end Feed
end Nanvix.HostFs.Forwarding
