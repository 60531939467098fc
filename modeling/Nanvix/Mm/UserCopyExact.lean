import Nanvix.Mm.CopyExact

/-!
# When a copy between user spaces is exact

A copy between user spaces first looks every page of both ranges up and then copies
piece by piece, each piece within one page of either range, from the lowest address
to the highest. The copy of a piece fails when its two ranges overlap in physical
memory; the pieces before it stay copied. A piece that does not overlap may still
read what an earlier piece has written. What is written to a frame that another
space maps shows there as well.
-/
namespace Nanvix.Mm
open Config Library Library.Prog MM

variable {held : List Nat} {s u : MemState} {i j l k n a b x y dst src size : Nat}

/-- Where the copy starts a piece. -/
abbrev UserCut (src dst size : Nat) : Nat → Prop := Cut userToUserPiece dst src size

/-- The size of the piece that starts at an offset. -/
def userPiece (src dst size a : Nat) : Nat := userToUserPiece (dst + a) (src + a) (size - a)

/-- The two ranges of a piece overlap in physical memory. -/
def PieceOverlaps (i src j dst size : Nat) (s : MemState) (a : Nat) : Prop :=
  ∃ x y, s.frameAddr j (dst + a) = some x ∧ s.frameAddr i (src + a) = some y ∧
    Overlap x y (userPiece src dst size a)

/-- Memory that no user page maps is as it was. -/
def UnmappedKept (s t : MemState) : Prop :=
  ∀ x, (∀ l a, s.frameAddr l a ≠ some x) → t.memory x = s.memory x

/-- A copy is all or nothing, and exact. -/
structure UserCopyExact (i src j dst size : Nat) (s : MemState) : Prop where
  returned : ∀ t, copyUserToUser i src j dst size s = .ok () t →
    Written j dst size (fun k => s.userByte i (src + k)) s t ∧ UnmappedKept s t
  failed : ∀ e t, copyUserToUser i src j dst size s = .err e t →
    (∀ l a, t.userByte l a = s.userByte l a) ∧ UnmappedKept s t
  ends : ∀ m, copyUserToUser i src j dst size s ≠ .abort m

/-- The pages of a byte of the source and of its destination are mapped. -/
abbrev BothMapped (i src j dst : Nat) (s : MemState) (k : Nat) : Prop :=
  (s.pte i (.alignDown (src + k))).isSome = true ∧ (s.pte j (.alignDown (dst + k))).isSome = true

/-- What the first pass accepts. -/
structure UserCopyAccepted (i src j dst size : Nat) (s : MemState) : Prop where
  nonempty : size ≠ 0
  source : isUserRegion src size = true
  destination : isUserRegion dst size = true
  mapped : ∀ k, k < size → (s.pte i (.alignDown (src + k))).isSome = true ∧
    (s.pte j (.alignDown (dst + k))).isSome = true

/-- The ranges that can be copied exactly. When a piece overlaps, the pieces before the first
such piece have nothing to change. When none does, a byte that an earlier piece writes and a
later one reads is written with the byte it has, and so is a byte that another space sees. -/
structure UserCopyable (i src j dst size : Nat) (s : MemState) : Prop where
  stops : ∀ a, UserCut src dst size a → a < size → PieceOverlaps i src j dst size s a →
    (∀ b, UserCut src dst size b → b < a → ¬PieceOverlaps i src j dst size s b) →
    ∀ k, k < a → s.userByte i (src + k) = s.userByte j (dst + k)
  ahead : (∀ a, UserCut src dst size a → a < size → ¬PieceOverlaps i src j dst size s a) →
    i = j → ∀ a, UserCut src dst size a → a < size → ∀ k, k < a → src + a ≤ dst + k →
    dst + k < src + a + userPiece src dst size a → s.userByte i (src + k) = s.userByte j (dst + k)
  unseen : (∀ a, UserCut src dst size a → a < size → ¬PieceOverlaps i src j dst size s a) →
    ∀ k, k < size → ∀ l, l ≠ j → ∀ a, s.frameAddr l a = s.frameAddr j (dst + k) →
    s.userByte i (src + k) = s.userByte j (dst + k)

section Pieces

theorem userToUserPiece_fits (hz : 0 < size) :
    0 < userToUserPiece dst src size ∧ userToUserPiece dst src size ≤ size := by
  have hsrc := pageOffset_lt src
  have hdst := pageOffset_lt dst
  unfold userToUserPiece
  omega

/-- The memory after the pieces before an offset were copied. A byte was copied from what an
earlier piece left, or from what was there at the start. -/
structure CopiedUpTo (i src j dst size k : Nat) (s u : MemState) : Prop where
  only : OnlyMemory s u
  clear : ∀ b, UserCut src dst size b → b < k → ¬PieceOverlaps i src j dst size s b
  other : ∀ x, (∀ l, l < k → s.frameAddr j (dst + l) ≠ some x) → u.memory x = s.memory x
  first : ∀ b, UserCut src dst size b → b < k → ∀ l, b ≤ l → l < b + userPiece src dst size b →
    ∀ x y, s.frameAddr j (dst + l) = some x → s.frameAddr i (src + l) = some y →
    (∀ l', l' < b → s.frameAddr j (dst + l') ≠ some y) → u.memory x = s.memory y
  again : ∀ b, UserCut src dst size b → b < k → ∀ l, b ≤ l → l < b + userPiece src dst size b →
    ∀ x y, s.frameAddr j (dst + l) = some x → s.frameAddr i (src + l) = some y →
    ∀ l', l' < b → s.frameAddr j (dst + l') = some y → u.memory x = u.memory y

/-- Where the byte at an offset came from. -/
theorem CopiedUpTo.read (h : CopiedUpTo i src j dst size k s u) (hcut : UserCut src dst size k)
    (hl : l < k) (hx : s.frameAddr j (dst + l) = some x) (hy : s.frameAddr i (src + l) = some y) :
    u.memory x = s.memory y ∨ ∃ b, UserCut src dst size b ∧ b < k ∧ b ≤ l ∧
      l < b + userPiece src dst size b ∧
      ∃ l', l' < b ∧ s.frameAddr j (dst + l') = some y ∧ u.memory x = u.memory y := by
  obtain ⟨b, hb, hbk, -, hlo, hhi⟩ := Cut.exists_piece hcut hl
  by_cases hwritten : ∃ l', l' < b ∧ s.frameAddr j (dst + l') = some y
  · obtain ⟨l', hl', hy'⟩ := hwritten
    exact Or.inr ⟨b, hb, hbk, hlo, hhi, l', hl', hy',
      h.again b hb hbk l hlo hhi x y hx hy l' hl' hy'⟩
  · exact Or.inl (h.first b hb hbk l hlo hhi x y hx hy fun l' hl' hy' => hwritten ⟨l', hl', hy'⟩)

theorem CopiedUpTo.start (s : MemState) : CopiedUpTo i src j dst size 0 s s :=
  ⟨.refl s, fun _ _ hb => absurd hb (Nat.not_lt_zero _), fun _ _ => rfl,
    fun _ _ hb => absurd hb (Nat.not_lt_zero _), fun _ _ hb => absurd hb (Nat.not_lt_zero _)⟩

theorem CopiedUpTo.piece (h : CopiedUpTo i src j dst size k s u) (honce : FrameOnce s)
    (hcut : UserCut src dst size k) (hk : k < size) (hx : s.frameAddr j (dst + k) = some x)
    (hy : s.frameAddr i (src + k) = some y) (hclear : ¬Overlap x y (userPiece src dst size k)) :
    CopiedUpTo i src j dst size (k + userPiece src dst size k) s { u with
      memory := setRange u.memory x (userPiece src dst size k) fun o => u.memory (y + o) } := by
  obtain ⟨-, hsrc, hdst⟩ := userToUserPiece_spec dst src hk
  change pageOffset (src + k) + userPiece src dst size k ≤ pageSize at hsrc
  change pageOffset (dst + k) + userPiece src dst size k ≤ pageSize at hdst
  -- What an earlier piece wrote is not written again.
  have hkeep : ∀ l z, l < k → s.frameAddr j (dst + l) = some z →
      setRange u.memory x (userPiece src dst size k) (fun o => u.memory (y + o)) z =
        u.memory z := by
    intro l z hl hz
    refine setRange_away hx hdst fun l' hlo hhi hz' => ?_
    have hinj := honce.addr_inj hz hz'
    omega
  have hread : ∀ l z z', k ≤ l → l < k + userPiece src dst size k →
      s.frameAddr j (dst + l) = some z → s.frameAddr i (src + l) = some z' →
      setRange u.memory x (userPiece src dst size k) (fun o => u.memory (y + o)) z =
        u.memory z' := by
    intro l z z' hlo hhi hz hz'
    rw [setRange_piece hx hdst hlo hhi hz]
    have hadd := frameAddr_add (k := l - k) hy (by omega)
    rw [show src + k + (l - k) = src + l by omega, hz', Option.some.injEq] at hadd
    rw [hadd]
  -- A cut before the end of the piece is its start or lies before it.
  have hcases : ∀ b, UserCut src dst size b → b < k + userPiece src dst size k →
      b = k ∨ (b < k ∧ b + userPiece src dst size b ≤ k) := by
    intro b hb hlt
    have hpos : ∀ dst src size, 0 < size → 0 < userToUserPiece dst src size :=
      fun _ _ _ hz => (userToUserPiece_fits hz).1
    rcases Nat.lt_trichotomy b k with hbk | rfl | hkb
    · exact Or.inr ⟨hbk, hb.end_le hcut hbk hpos⟩
    · exact Or.inl rfl
    · have hend : k + userPiece src dst size k ≤ b := hcut.end_le hb hkb hpos
      omega
  refine ⟨h.only.trans ⟨_, rfl⟩, fun b hb hlt => ?_, fun z hz => ?_,
    fun b hb hlt l hlo hhi z z' hz hz' hnew => ?_,
    fun b hb hlt l hlo hhi z z' hz hz' l' hl' hold => ?_⟩
  · rcases hcases b hb hlt with rfl | ⟨hbk, -⟩
    · rintro ⟨x', y', hx', hy', hover⟩
      rw [hx, Option.some.injEq] at hx'
      rw [hy, Option.some.injEq] at hy'
      exact hclear (hx' ▸ hy' ▸ hover)
    · exact h.clear b hb hbk
  · exact (setRange_away (b := fun o => u.memory (y + o)) hx hdst fun l _ hhi => hz l hhi).trans
      (h.other z fun l hl => hz l (by omega))
  · rcases hcases b hb hlt with rfl | ⟨hbk, hend⟩
    · exact (hread l z z' hlo hhi hz hz').trans (h.other z' hnew)
    · exact (hkeep l z (by omega) hz).trans (h.first b hb hbk l hlo hhi z z' hz hz' hnew)
  · rcases hcases b hb hlt with rfl | ⟨hbk, hend⟩
    · exact (hread l z z' hlo hhi hz hz').trans (hkeep l' z' hl' hold).symm
    · exact (hkeep l z (by omega) hz).trans
        ((h.again b hb hbk l hlo hhi z z' hz hz' l' hl' hold).trans
          (hkeep l' z' (by omega) hold).symm)

end Pieces

section Passes

/-- The pages of a piece are those of its first byte. -/
theorem mapped_piece (hk : pageOffset a + n ≤ pageSize) (h : (s.pte i (.alignDown a)).isSome = true)
    {o : Nat} (ho : o < n) : (s.pte i (.alignDown (a + o))).isSome = true := by
  rwa [(alignDown_add (show pageOffset a + o < pageSize by omega)).1]

theorem copyUserToUser_dry (hi : (s.spaces i).isSome) (hj : (s.spaces j).isSome) :
    wp (copyLoop userToUserPiece (copyUserToUserChunk true i j) size dst src size)
      (fun _ t => t = s ∧ ∀ k, k < size → BothMapped i src j dst s k)
      (fun _ t => t = s ∧ ¬∀ k, k < size → BothMapped i src j dst s k) s := by
  refine copyLoop_wp (I := fun k t => t = s ∧ ∀ l, l < k → BothMapped i src j dst s l)
    dst src size (fun _ _ _ => userToUserPiece_fits) ?_ size 0 .start (Nat.zero_le _) (Nat.le_refl _)
    ⟨rfl, fun _ hl => absurd hl (Nat.not_lt_zero _)⟩
  rintro k t - hk ⟨rfl, hdone⟩
  obtain ⟨-, hsrc, hdst⟩ := userToUserPiece_spec dst src hk
  generalize userToUserPiece (dst + k) (src + k) (size - k) = n at *
  simp only [copyUserToUserChunk, wp_bind, if_true, wp_pure]
  refine (findUserFrame_wp hi).mono ?_ ?_
  · rintro _ _ ⟨rfl, p, hp, -⟩
    refine (findUserFrame_wp hj).mono ?_ ?_
    · rintro _ _ ⟨rfl, q, hq, -⟩
      refine ⟨rfl, fun l hl => ?_⟩
      by_cases hlk : l < k
      · exact hdone l hlk
      · have hs := mapped_piece hsrc (Option.isSome_of_eq_some hp) (o := l - k) (by omega)
        have hd := mapped_piece hdst (Option.isSome_of_eq_some hq) (o := l - k) (by omega)
        rw [show src + k + (l - k) = src + l by omega] at hs
        rw [show dst + k + (l - k) = dst + l by omega] at hd
        exact ⟨hs, hd⟩
    · rintro _ _ ⟨rfl, hnone⟩
      refine ⟨rfl, fun hall => ?_⟩
      have hthere := (hall k hk).2
      rw [hnone] at hthere
      cases hthere
  · rintro _ _ ⟨rfl, hnone⟩
    refine ⟨rfl, fun hall => ?_⟩
    have hthere := (hall k hk).1
    rw [hnone] at hthere
    cases hthere

/-- The second pass copies to the end, or up to the first piece that overlaps. -/
theorem copyUserToUser_wet (h : Accounted held s) (honce : FrameOnce s)
    (hmapped : ∀ k, k < size → BothMapped i src j dst s k) :
    wp (copyLoop userToUserPiece (copyUserToUserChunk false i j) size dst src size)
      (fun _ u => UserCut src dst size size ∧ CopiedUpTo i src j dst size size s u)
      (fun _ u => ∃ a, UserCut src dst size a ∧ a < size ∧ PieceOverlaps i src j dst size s a ∧
        CopiedUpTo i src j dst size a s u) s := by
  refine copyLoop_wp (I := fun k u => UserCut src dst size k ∧ CopiedUpTo i src j dst size k s u)
    dst src size (fun _ _ _ => userToUserPiece_fits) ?_ size 0 .start (Nat.zero_le _)
    (Nat.le_refl _) ⟨.start, .start s⟩
  rintro k u hcut hk ⟨-, hu⟩
  obtain ⟨hn, hsrc, hdst⟩ := userToUserPiece_spec dst src hk
  obtain ⟨p, hp⟩ := Option.isSome_iff_exists.mp (hmapped k hk).1
  obtain ⟨q, hq⟩ := Option.isSome_iff_exists.mp (hmapped k hk).2
  have hpend := frame_end_le h.valid (h.refcount_pos hp)
  have hqend := frame_end_le h.valid (h.refcount_pos hq)
  obtain ⟨m, rfl⟩ := hu.only
  simp only [copyUserToUserChunk, wp_bind, Bool.false_eq_true, if_false]
  rw [wp_of_ok (findUserFrame_of_some (s := { s with memory := m }) hp),
    wp_of_ok (findUserFrame_of_some (s := { s with memory := m }) hq)]
  refine (memcpy_wp hn (by omega) (by omega)).mono ?_ ?_
  · rintro _ _ ⟨hclear, rfl⟩
    exact ⟨hcut.next hk,
      hu.piece honce hcut hk (frameAddr_of_pte hq) (frameAddr_of_pte hp) hclear⟩
  · rintro _ _ ⟨hover, rfl⟩
    exact ⟨k, hcut, hk, ⟨_, _, frameAddr_of_pte hq, frameAddr_of_pte hp, hover⟩, hu⟩

/-- All that a copy can do. -/
theorem copyUserToUser_wp (src dst size : Nat) (h : Accounted held s) (honce : FrameOnce s)
    (hi : (s.spaces i).isSome) (hj : (s.spaces j).isSome) :
    wp (copyUserToUser i src j dst size)
      (fun _ u => UserCopyAccepted i src j dst size s ∧ UserCut src dst size size ∧
        CopiedUpTo i src j dst size size s u)
      (fun _ u => (u = s ∧ ¬UserCopyAccepted i src j dst size s) ∨
        (UserCopyAccepted i src j dst size s ∧ ∃ a, UserCut src dst size a ∧ a < size ∧
          PieceOverlaps i src j dst size s a ∧ CopiedUpTo i src j dst size a s u)) s := by
  unfold copyUserToUser
  by_cases hz : size = 0
  · rw [if_pos hz, wp_throw]
    exact Or.inl ⟨rfl, fun hacc => hacc.nonempty hz⟩
  by_cases hsrc : isUserRegion src size = true
  · by_cases hdst : isUserRegion dst size = true
    · simp only [if_neg hz, hsrc, hdst, Bool.not_true, Bool.false_eq_true, if_false, wp_bind]
      refine (copyUserToUser_dry hi hj).mono ?_ ?_
      · rintro _ _ ⟨rfl, hmapped⟩
        exact (copyUserToUser_wet h honce hmapped).mono
          (fun _ u hu => ⟨⟨hz, hsrc, hdst, hmapped⟩, hu⟩)
          (fun _ u hu => Or.inr ⟨⟨hz, hsrc, hdst, hmapped⟩, hu⟩)
      · rintro _ _ ⟨rfl, hnot⟩
        exact Or.inl ⟨rfl, fun hacc => hnot hacc.mapped⟩
    · simp only [if_neg hz, hsrc, Bool.eq_false_iff.mpr hdst, Bool.not_true, Bool.false_eq_true,
        if_false, Bool.not_false, if_true, wp_throw]
      exact Or.inl ⟨trivial, fun hacc => hdst hacc.destination⟩
  · simp only [if_neg hz, Bool.eq_false_iff.mpr hsrc, Bool.not_false, if_true, wp_throw]
    exact Or.inl ⟨trivial, fun hacc => hsrc hacc.source⟩

end Passes

section Exact
variable (honce : FrameOnce s) (hacc : UserCopyAccepted i src j dst size s)
include hacc

theorem UserCopyAccepted.exists_source (hk : k < size) : ∃ y, s.frameAddr i (src + k) = some y := by
  obtain ⟨p, hp⟩ := Option.isSome_iff_exists.mp (hacc.mapped k hk).1
  exact ⟨_, frameAddr_of_pte hp⟩

theorem UserCopyAccepted.exists_destination (hk : k < size) :
    ∃ x, s.frameAddr j (dst + k) = some x := by
  obtain ⟨q, hq⟩ := Option.isSome_iff_exists.mp (hacc.mapped k hk).2
  exact ⟨_, frameAddr_of_pte hq⟩

omit hacc in
theorem CopiedUpTo.userByte_eq (h : CopiedUpTo i src j dst size k s u) (l a : Nat) :
    u.userByte l a = (s.frameAddr l a).map u.memory := by
  obtain ⟨m, rfl⟩ := h.only
  exact MemState.userByte_eq _ l a

omit hacc in
theorem CopiedUpTo.unmappedKept (h : CopiedUpTo i src j dst size k s u) : UnmappedKept s u :=
  fun x hx => h.other x fun l _ => hx j (dst + l)

/-- Copied bytes that were there already change nothing. -/
theorem CopiedUpTo.unchanged (h : CopiedUpTo i src j dst size k s u)
    (hcut : UserCut src dst size k) (hk : k ≤ size)
    (hsame : ∀ l, l < k → s.userByte i (src + l) = s.userByte j (dst + l)) :
    u.memory = s.memory := by
  have hbytes : ∀ l, l < k → ∀ x, s.frameAddr j (dst + l) = some x → u.memory x = s.memory x := by
    intro l
    induction l using Nat.strongRecOn with
    | _ l ih =>
      intro hl x hx
      obtain ⟨y, hy⟩ := hacc.exists_source (k := l) (by omega)
      have heq : s.memory y = s.memory x := by
        have hold := hsame l hl
        rwa [MemState.userByte_eq, MemState.userByte_eq, hx, hy, Option.map_some,
          Option.map_some, Option.some.injEq] at hold
      rcases h.read hcut hl hx hy with hread | ⟨b, -, -, hlo, -, l', hl', hy', hread⟩
      · rw [hread, heq]
      · rw [hread, ih l' (by omega) (by omega) y hy', heq]
  funext x
  by_cases hx : ∃ l, l < k ∧ s.frameAddr j (dst + l) = some x
  · obtain ⟨l, hl, hlx⟩ := hx
    exact hbytes l hl x hlx
  · exact h.other x fun l hl hlx => hx ⟨l, hl, hlx⟩

/-- The bytes that were there are those that were copied, when the copy changed nothing. -/
theorem CopiedUpTo.same_of_unchanged (h : CopiedUpTo i src j dst size k s u)
    (hcut : UserCut src dst size k) (hk : k ≤ size)
    (hbytes : ∀ l, l < k → u.userByte j (dst + l) = s.userByte j (dst + l)) {l : Nat} (hl : l < k) :
    s.userByte i (src + l) = s.userByte j (dst + l) := by
  have hmem : ∀ l, l < k → ∀ x, s.frameAddr j (dst + l) = some x → u.memory x = s.memory x := by
    intro l hl x hx
    have hold := hbytes l hl
    rwa [h.userByte_eq, MemState.userByte_eq, hx, Option.map_some, Option.map_some,
      Option.some.injEq] at hold
  obtain ⟨y, hy⟩ := hacc.exists_source (k := l) (by omega)
  obtain ⟨x, hx⟩ := hacc.exists_destination (k := l) (by omega)
  rw [MemState.userByte_eq, MemState.userByte_eq, hx, hy, Option.map_some, Option.map_some,
    ← hmem l hl x hx]
  rcases h.read hcut hl hx hy with hread | ⟨b, -, -, hlo, -, l', hl', hy', hread⟩
  · rw [hread]
  · rw [hread, hmem l' (by omega) y hy']

include honce

/-- The bytes of the source reach the destination, when none is overwritten with another byte
before it is read. -/
theorem CopiedUpTo.copied (h : CopiedUpTo i src j dst size size s u)
    (hend : UserCut src dst size size) (hcan : UserCopyable i src j dst size s) :
    ∀ l, l < size → ∀ x, s.frameAddr j (dst + l) = some x →
      some (u.memory x) = s.userByte i (src + l) := by
  have hclear : ∀ a, UserCut src dst size a → a < size → ¬PieceOverlaps i src j dst size s a :=
    h.clear
  intro l
  induction l using Nat.strongRecOn with
  | _ l ih =>
    intro hl x hx
    obtain ⟨y, hy⟩ := hacc.exists_source hl
    rw [MemState.userByte_eq, hy, Option.map_some]
    rcases h.read hend hl hx hy with hread | ⟨b, hb, hbs, hlo, hhi, l', hl', hy', hread⟩
    · rw [hread]
    · rw [hread, ih l' (by omega) (by omega) y hy']
      have hthere : s.userByte j (dst + l') = some (s.memory y) := by
        rw [MemState.userByte_eq, hy', Option.map_some]
      rw [← hthere]
      by_cases hij : i = j
      · subst hij
        have hmeet := honce.addr_inj hy hy'
        exact hcan.ahead hclear rfl b hb hbs l' hl' (by omega) (by omega)
      · exact hcan.unseen hclear l' (by omega) i hij (src + l) (hy.trans hy'.symm)

theorem CopiedUpTo.written (h : CopiedUpTo i src j dst size size s u)
    (hend : UserCut src dst size size) (hcan : UserCopyable i src j dst size s) :
    Written j dst size (fun k => s.userByte i (src + k)) s u := by
  intro l a
  rw [h.userByte_eq]
  cases hx : s.frameAddr l a with
  | none =>
    rw [if_neg, MemState.userByte_eq, hx]
    · rfl
    · rintro ⟨rfl, hlo, hhi⟩
      obtain ⟨x, hx'⟩ := hacc.exists_destination (k := a - dst) (by omega)
      rw [show dst + (a - dst) = a by omega, hx] at hx'
      cases hx'
  | some x =>
    rw [Option.map_some]
    by_cases hin : ∃ k, k < size ∧ s.frameAddr j (dst + k) = some x
    · obtain ⟨k, hk, hkx⟩ := hin
      rw [h.copied honce hacc hend hcan k hk x hkx]
      by_cases hl : l = j
      · subst hl
        have ha := honce.addr_inj hx hkx
        rw [if_pos ⟨rfl, by omega, by omega⟩, ha, Nat.add_sub_cancel_left]
      · rw [if_neg fun hc => hl hc.1,
          hcan.unseen h.clear k hk l hl a (hx.trans hkx.symm), MemState.userByte_eq,
          MemState.userByte_eq, hx, hkx]
    · rw [h.other x fun k hk hkx => hin ⟨k, hk, hkx⟩, if_neg, MemState.userByte_eq, hx]
      · rfl
      · rintro ⟨rfl, hlo, hhi⟩
        refine hin ⟨a - dst, by omega, ?_⟩
        rw [show dst + (a - dst) = a by omega, hx]

omit honce in
/-- A copy that is exact was possible. -/
theorem CopiedUpTo.copyable (h : CopiedUpTo i src j dst size size s u)
    (hw : Written j dst size (fun k => s.userByte i (src + k)) s u) :
    UserCopyable i src j dst size s where
  stops a ha hlt hover _ := absurd hover (h.clear a ha hlt)
  ahead _ hij a ha hlt k hk hlo hhi := by
    subst hij
    -- The byte read at `l` is the one that was written at `k`.
    obtain ⟨l, hl⟩ : ∃ l, src + l = dst + k := ⟨dst + k - src, by omega⟩
    have hls : l < size := by
      have hfits : userPiece src dst size a ≤ size - a := (userToUserPiece_fits (by omega)).2
      omega
    obtain ⟨x, hx⟩ := hacc.exists_destination hls
    obtain ⟨y, hy⟩ := hacc.exists_source hls
    have hy' : s.frameAddr i (dst + k) = some y := hl ▸ hy
    have hread := h.again a ha hlt l (by omega) (by omega) x y hx hy k hk hy'
    have hlater := hw.inside hls
    have hearly := hw.inside (k := k) (by omega)
    rw [h.userByte_eq, hx, Option.map_some] at hlater
    rw [h.userByte_eq, hy', Option.map_some, ← hread, hlater] at hearly
    rw [← hearly, hl]
  unseen _ k hk l hl a ha := by
    have hnew := hw.inside hk
    have hold := hw.of_ne (a := a) hl
    rw [h.userByte_eq, ha, ← h.userByte_eq, hnew] at hold
    rw [hold, MemState.userByte_eq, MemState.userByte_eq, ha]

end Exact

/-- A copy between user spaces is exact if and only if the ranges it accepts can be copied. -/
theorem copyUserToUser_exact_iff (h : Accounted held s) (honce : FrameOnce s)
    (hi : (s.spaces i).isSome = true) (hj : (s.spaces j).isSome = true) :
    UserCopyExact i src j dst size s ↔
      (UserCopyAccepted i src j dst size s → UserCopyable i src j dst size s) := by
  have hrun := copyUserToUser_wp src dst size h honce hi hj
  constructor
  · intro hexact hacc
    cases hres : copyUserToUser i src j dst size s with
    | ok r u => exact (hrun.of_ok hres).2.2.copyable hacc (hexact.returned u hres).1
    | err e u =>
      rcases hrun.of_err hres with ⟨-, hnot⟩ | ⟨-, a, ha, hlt, hover, hcopied⟩
      · exact absurd hacc hnot
      refine ⟨fun a' ha' hlt' hover' hfirst k hk => ?_, fun hclear => absurd hover (hclear a ha hlt),
        fun hclear => absurd hover (hclear a ha hlt)⟩
      have haa : a' = a := by
        rcases Nat.lt_trichotomy a' a with hl | he | hg
        · exact absurd hover' (hcopied.clear a' ha' hl)
        · exact he
        · exact absurd hover (hfirst a ha hg)
      exact hcopied.same_of_unchanged hacc ha (by omega)
        (fun l _ => (hexact.failed e u hres).1 j (dst + l)) (haa ▸ hk)
    | abort m => exact absurd hres (hexact.ends m)
  · intro hwhen
    refine ⟨fun u hres => ?_, fun e u hres => ?_, hrun.not_abort⟩
    · obtain ⟨hacc, hend, hcopied⟩ := hrun.of_ok hres
      exact ⟨hcopied.written honce hacc hend (hwhen hacc), hcopied.unmappedKept⟩
    · rcases hrun.of_err hres with ⟨rfl, -⟩ | ⟨hacc, a, ha, hlt, hover, hcopied⟩
      · exact ⟨fun _ _ => rfl, fun _ _ => rfl⟩
      · refine ⟨fun l b => ?_, hcopied.unmappedKept⟩
        rw [hcopied.userByte_eq, MemState.userByte_eq, hcopied.unchanged hacc ha (by omega)
          ((hwhen hacc).stops a ha hlt hover hcopied.clear)]

/-- A machine with a space of two pages, each byte of its memory its own address. -/
def twoPages : MM Unit := do
  let _ ← newVmem
  allocUpages 0 firstUserPage .RDWR true 2 [] 2
  modify fun s => { s with memory := UInt8.ofNat }

theorem twoPages_wp : wp twoPages
    (fun _ s => Accounted [] s ∧ FrameOnce s ∧ (s.spaces 0).isSome = true ∧
      ∀ l v, l ≠ 0 → s.pte l v = none) (fun _ _ => True) (.boot 128) := by
  simp only [twoPages, wp_bind, wp_modify]
  refine (newVmem_wp (accounted_boot (by decide) (by decide))).mono ?_ (fun _ _ _ => trivial)
  rintro _ s₁ ⟨rfl, hacc, -, -, hpte, ⟨d, hspaces⟩, -⟩
  have hzero : (s₁.spaces 0).isSome = true := by rw [hspaces]; rfl
  have honce : FrameOnce s₁ := fun i v _ p _ hp => by rw [hpte] at hp; cases hp
  refine (allocUpages_wp hacc hzero true 2 2 []).mono ?_ (fun _ _ _ => trivial)
  intro _ s hdone
  have honce' : FrameOnce s := honce.effect (c := .newVmem) (.allocated hdone)
  refine ⟨hdone.accounted.setMemory _, honce', (hdone.spaces.live 0).trans hzero, fun l v hl => ?_⟩
  change s.pte l v = none
  rw [hdone.other l v fun hin => hl hin.1, hpte]
  rfl

/-- A copy of sixteen bytes from the end of a page and the start of the next one. -/
theorem copyUserToUser_exact_pages : ∃ s, Accounted [] s ∧ FrameOnce s ∧
    UserCopyAccepted 0 (firstUserPage.raw + 4088) 0 (firstUserPage.raw + 256) 16 s ∧
    UserCopyExact 0 (firstUserPage.raw + 4088) 0 (firstUserPage.raw + 256) 16 s := by
  obtain ⟨_, s, hrun, htest⟩ := Outcome.of_returns (show (twoPages (.boot 128)).returns (fun s =>
    (List.range 16).all (fun k => decide
      (BothMapped 0 (firstUserPage.raw + 4088) 0 (firstUserPage.raw + 256) s k)) &&
    (s.frameAddr 0 (firstUserPage.raw + 256 + 8)).all fun x =>
      (s.frameAddr 0 (firstUserPage.raw + 4088 + 8)).all fun y => !decide (Overlap x y 8)) = true
    by decide +kernel)
  obtain ⟨hacc, honce, hzero, hsingle⟩ := twoPages_wp.of_ok hrun
  obtain ⟨hmapped, hapart⟩ := Bool.and_eq_true_iff.mp htest
  have haccepted :
      UserCopyAccepted 0 (firstUserPage.raw + 4088) 0 (firstUserPage.raw + 256) 16 s :=
    ⟨by decide, by decide, by decide, fun k hk =>
      of_decide_eq_true (List.all_eq_true.mp hmapped k (List.mem_range.mpr hk))⟩
  -- The range is two pieces.
  have hcut : ∀ a, UserCut (firstUserPage.raw + 4088) (firstUserPage.raw + 256) 16 a → a < 16 →
      a = 0 ∨ a = 8 := by
    intro a ha hlt
    have hfits : ∀ dst src size, 0 < size → 0 < userToUserPiece dst src size :=
      fun _ _ _ hz => (userToUserPiece_fits hz).1
    have height : UserCut (firstUserPage.raw + 4088) (firstUserPage.raw + 256) 16 8 :=
      Cut.start.next (by decide)
    rcases Nat.lt_trichotomy a 8 with hless | heq | hmore
    · refine .inl (Nat.eq_zero_of_not_pos fun hpos => ?_)
      have hend : 8 ≤ a := Cut.start.end_le ha hpos hfits
      omega
    · exact .inr heq
    · have hend : 16 ≤ a := height.end_le ha hmore hfits
      omega
  refine ⟨s, hacc, honce, haccepted, (copyUserToUser_exact_iff hacc honce hzero hzero).mpr
    fun _ => ⟨fun a ha hlt hover _ k hk => ?_, fun _ _ a _ hlt k hk hle => ?_,
      fun _ k hk l hl a heq => ?_⟩⟩
  · rcases hcut a ha hlt with rfl | rfl
    · exact absurd hk (Nat.not_lt_zero k)
    · obtain ⟨x, y, hx, hy, hover⟩ := hover
      have hpiece : userPiece (firstUserPage.raw + 4088) (firstUserPage.raw + 256) 16 8 = 8 := by
        decide
      rw [hpiece] at hover
      rw [hx, hy, Option.all_some, Option.all_some, Bool.not_eq_true', decide_eq_false_iff_not]
        at hapart
      exact absurd hover hapart
  · omega
  · obtain ⟨x, hx⟩ := haccepted.exists_destination hk
    rw [hx, MemState.frameAddr, hsingle l _ hl] at heq
    cases heq

/-- A byte of the source is overwritten before it is read, and the copy of two bytes returns with
the wrong byte. The copy of three bytes fails after it has written one. -/
theorem copyUserToUser_inexact : ∃ s, Accounted [] s ∧ FrameOnce s ∧ (s.spaces 0).isSome = true ∧
    ¬UserCopyExact 0 (firstUserPage.raw + 4095) 0 (firstUserPage.raw + 4096) 2 s ∧
    ¬UserCopyExact 0 (firstUserPage.raw + 4095) 0 (firstUserPage.raw + 4096) 3 s := by
  obtain ⟨_, s, hrun, htest⟩ := Outcome.of_returns (show (twoPages (.boot 128)).returns (fun s =>
    ((copyUserToUser 0 (firstUserPage.raw + 4095) 0 (firstUserPage.raw + 4096) 2 s).returns
      fun t => decide (t.userByte 0 (firstUserPage.raw + 4097) ≠
        s.userByte 0 (firstUserPage.raw + 4096))) &&
    ((copyUserToUser 0 (firstUserPage.raw + 4095) 0 (firstUserPage.raw + 4096) 3 s).fails
      fun t => decide (t.userByte 0 (firstUserPage.raw + 4096) ≠
        s.userByte 0 (firstUserPage.raw + 4096)))) = true by decide +kernel)
  obtain ⟨hacc, honce, hzero, -⟩ := twoPages_wp.of_ok hrun
  obtain ⟨hwrong, hpartial⟩ := Bool.and_eq_true_iff.mp htest
  refine ⟨s, hacc, honce, hzero, fun hexact => ?_, fun hexact => ?_⟩
  · obtain ⟨_, t, ht, hne⟩ := Outcome.of_returns hwrong
    refine of_decide_eq_true hne ?_
    exact (hexact.returned t ht).1.inside (k := 1) (by omega)
  · obtain ⟨e, t, ht, hne⟩ := Outcome.of_fails hpartial
    exact of_decide_eq_true hne ((hexact.failed e t ht).1 0 _)

end Nanvix.Mm
