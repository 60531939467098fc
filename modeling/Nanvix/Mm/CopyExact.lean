import Nanvix.Mm.EagerRefine
import Nanvix.Mm.FrameOnce

/-!
# When a copy to user memory is exact

A copy to user memory runs in two passes. The first one looks at the arguments and
at the range of the kernel only; the second one resolves the destination and then
writes to the frames of its pages. So a destination that passes the first check is
written exactly if, besides, every page of it is mapped, its marked pages can be
resolved, and no other space sees what is written to a page that is not marked.

## Implementation notes

A page that is shared and not marked is read-only for user code. The kernel writes
through the frame, which no page protection stops.
-/
namespace Nanvix.Mm
open Config Library Library.Prog MM MemState

variable {held : List Nat} {s t u : MemState} {i j n a k x dst src size : Nat} {v w : PageAligned}
variable {p q : PageTableEntry}

/-- User memory after a range of one space got new bytes, and nothing else changed. -/
def Written (i dst size : Nat) (b : Nat → Option UInt8) (s t : MemState) : Prop :=
  ∀ j a, t.userByte j a =
    if j = i ∧ dst ≤ a ∧ a < dst + size then b (a - dst) else s.userByte j a

theorem Written.inside {b : Nat → Option UInt8} (h : Written i dst size b s t) (hk : k < size) :
    t.userByte i (dst + k) = b k := by
  rw [h i (dst + k), if_pos ⟨rfl, by omega, by omega⟩, Nat.add_sub_cancel_left]

theorem Written.of_ne {b : Nat → Option UInt8} (h : Written i dst size b s t) (hj : j ≠ i) :
    t.userByte j a = s.userByte j a := by
  rw [h j a, if_neg fun hc => hj hc.1]

/-- The frames of the kernel have the bytes they had. -/
def KernelKept (held : List Nat) (s t : MemState) : Prop :=
  ∀ f ∈ held, (∀ j v p, s.pte j v = some p → p.frame ≠ f) → ∀ o, o < pageSize →
    t.memory (f * pageSize + o) = s.memory (f * pageSize + o)

/-- A buffer of the kernel: as far as it lies in the memory of the machine, it lies in frames
that the kernel holds and that no user page maps. -/
def KernelBuffer (held : List Nat) (s : MemState) (src size : Nat) : Prop :=
  ∀ x, src ≤ x → x < src + size → x / pageSize < s.frames.capacity →
    x / pageSize ∈ held ∧ ∀ j v p, s.pte j v = some p → p.frame ≠ x / pageSize

/-- The copy does what its dry run promises: after a dry run that passed it returns, with the
bytes of the buffer in the range and no other byte changed; a dry run that fails changes
nothing. -/
structure ToUserExact (held : List Nat) (i dst src size : Nat) (s : MemState) : Prop where
  passed : ∀ t, copyToUserUnalignedUnchecked i dst src size true s = .ok () t →
    ∃ u, copyToUserUnalignedUnchecked i dst src size false t = .ok () u ∧
      Written i dst size (fun k => some (s.memory (src + k))) s u ∧ KernelKept held s u
  refused : ∀ e t, copyToUserUnalignedUnchecked i dst src size true s = .err e t → t = s
  checked : ∀ m, copyToUserUnalignedUnchecked i dst src size true s ≠ .abort m

/-- A destination that the copy can write to: its pages are mapped, its marked pages can be
resolved, and a page that another space shares without a mark gets the bytes it has. -/
structure Writable (i dst src size : Nat) (s : MemState) : Prop where
  mapped : ∀ k, k < size → (s.pte i (.alignDown (dst + k))).isSome = true
  resolves : s.resolvable i dst size = true
  unseen : ∀ k, k < size → ∀ p, s.pte i (.alignDown (dst + k)) = some p → p.isCow = false →
    ∀ j, j ≠ i → ∀ a, s.frameAddr j a = s.frameAddr i (dst + k) →
      s.userByte i (dst + k) = some (s.memory (src + k))

section DryRun

/-- What the dry run checks. -/
structure Passes (dst src size : Nat) (s : MemState) : Prop where
  nonempty : size ≠ 0
  user : ¬usizeMax < dst + (size - 1)
  word : src + size ≤ usizeMax
  memory : src + size ≤ s.frames.capacity * pageSize

theorem copyToUser_dry (i dst src size : Nat) (s : MemState) :
    wp (copyToUserUnalignedUnchecked i dst src size true)
      (fun _ t => t = s ∧ isKernelRegion src size = true ∧ isUserRegion dst size = true ∧
        Passes dst src size s)
      (fun _ t => t = s) s := by
  unfold copyToUserUnalignedUnchecked
  by_cases hz : size = 0
  · rw [if_pos hz, wp_throw]
  by_cases hk : isKernelRegion src size = true
  · by_cases hu : isUserRegion dst size = true
    · have huser : ¬usizeMax < dst + (size - 1) := fun hover => by
        rw [isUserRegion, if_neg hz, if_pos hover] at hu
        cases hu
      simp only [if_neg hz, hk, hu, Bool.not_true, Bool.false_eq_true, if_false, if_true, wp_bind,
        wp_pure]
      refine (copyLoop_wp (I := fun k t => t = s ∧ (k ≠ 0 → src + k ≤ usizeMax ∧
        src + k ≤ s.frames.capacity * pageSize)) dst src size (fun _ _ _ => toUserPiece_fits) ?_
        size 0 .start (Nat.zero_le _) (Nat.le_refl _) ⟨rfl, fun hc => absurd rfl hc⟩).imp ?_
      · rintro k t - hk ⟨rfl, -⟩
        simp only [copyToUserChunk, isPhysicalRegion, wp_bind, wp_gets, wp_ite, if_true,
          wp_throw, wp_pure]
        split_ifs with hphys
        obtain ⟨-, hword, hmem⟩ := of_decide_eq_true (by simpa using hphys)
        exact ⟨trivial, fun _ => by rw [← Nat.add_assoc]; exact ⟨hword, hmem⟩⟩
      · rintro _ t ⟨rfl, hphys⟩
        exact ⟨rfl, trivial, trivial, hz, huser, (hphys hz).1, (hphys hz).2⟩
    · simp only [if_neg hz, hk, Bool.eq_false_iff.mpr hu, Bool.not_true, Bool.false_eq_true,
        if_false, Bool.not_false, if_true, wp_throw]
  · simp only [if_neg hz, Bool.eq_false_iff.mpr hk, Bool.not_false, if_true, wp_throw]

/-- The run after a dry run that passed. -/
theorem copyToUser_wet (hk : isKernelRegion src size = true) (hu : isUserRegion dst size = true)
    (hz : size ≠ 0) : copyToUserUnalignedUnchecked i dst src size false =
      (resolveCowForRegion i dst size >>= fun _ =>
        copyLoop toUserPiece (copyToUserChunk false i) size dst src size) := by
  simp only [copyToUserUnalignedUnchecked, if_neg hz, hk, hu, Bool.not_true,
    Bool.false_eq_true, if_false]

end DryRun

section Resolved
variable (hres : Resolution held i (regionPages dst size) s t)
include hres

/-- Resolving does not show. -/
theorem Resolution.userByte_eq (h : Accounted held s) (j a : Nat) :
    t.userByte j a = s.userByte j a := by
  unfold userByte
  cases hp : s.pte j (.alignDown a) with
  | none =>
    rw [hres.kept j _ (fun p hp' => by rw [hp] at hp'; cases hp'), hp]
    rfl
  | some p =>
    by_cases hin : j = i ∧ (PageAligned.alignDown a).number ∈ regionPages dst size ∧
        p.isCow = true
    · obtain ⟨rfl, hmem, hcow⟩ := hin
      obtain ⟨q, hq, -, -, hbytes⟩ := hres.renewed _ p hp hmem hcow
      rw [hq, Option.map_some, Option.map_some, hbytes _ (pageOffset_lt a)]
    · have hsame : t.pte j (.alignDown a) = some p := by
        rw [hres.kept j _ (fun p' hp' => by rw [hp, Option.some.injEq] at hp'; exact hp' ▸ hin), hp]
      rw [hsame, Option.map_some, Option.map_some,
        hres.bytes _ (h.refcount_pos hp) _ (pageOffset_lt a)]

/-- The entries of another space stay. -/
theorem Resolution.pte_other (hj : j ≠ i) : t.pte j w = s.pte j w :=
  hres.kept j w fun _ _ hin => hj hin.1

/-- An entry was there before, or is the only owner of its frame. -/
theorem Resolution.kept_or_one (hq : t.pte j w = some q) :
    s.pte j w = some q ∨ t.frames.refcount q.frame = 1 := by
  by_cases hin : ∃ p, s.pte j w = some p ∧ j = i ∧ w.number ∈ regionPages dst size ∧
      p.isCow = true
  · obtain ⟨p, hp, rfl, hmem, hcow⟩ := hin
    obtain ⟨q', hq', -, hone, -⟩ := hres.renewed w p hp hmem hcow
    rw [hq, Option.some.injEq] at hq'
    exact Or.inr (hq' ▸ hone)
  · rw [hres.kept j w fun p hp hc => hin ⟨p, hp, hc⟩] at hq
    exact Or.inl hq

theorem Resolution.frameOnce (h : FrameOnce s) : FrameOnce t :=
  h.of_frames hres.accounted fun j =>
    ⟨j, fun _ q hq => (hres.kept_or_one hq).imp (fun hold => ⟨q, hold, rfl⟩) (·.le)⟩

/-- A page of the range keeps its frame, or has one that no other page maps. -/
theorem Resolution.alone_or_kept (hp : s.pte i (.alignDown (dst + k)) = some p) (hk : k < size) :
    (p.isCow = false ∧ t.frameAddr i (dst + k) = s.frameAddr i (dst + k)) ∨
      (p.isCow = true ∧ ∀ j a, t.frameAddr j a = t.frameAddr i (dst + k) → j = i) := by
  cases hcow : p.isCow with
  | false =>
    refine Or.inl ⟨rfl, ?_⟩
    unfold frameAddr
    rw [hres.kept i _ fun p' hp' hin => ?_]
    rw [hp, Option.some.injEq] at hp'
    rw [← hp', hcow] at hin
    cases hin.2.2
  | true =>
    refine Or.inr ⟨rfl, fun j a ha => ?_⟩
    obtain ⟨q, hq, -, hone, -⟩ := hres.renewed _ p hp (mem_regionPages hk) hcow
    rw [frameAddr_of_pte hq] at ha
    obtain ⟨r, hr, heq⟩ := frameAddr_eq_some.mp ha
    have hf := (frame_offset_inj (pageOffset_lt _) (pageOffset_lt _) heq).1
    exact (hres.accounted.eq_of_refcount_le_one hq hr hf hone.le).1

/-- A frame that the kernel holds and no user page maps is not mapped after it either. -/
theorem Resolution.apart {f : Nat} (hf : f ∈ held)
    (happart : ∀ j v p, s.pte j v = some p → p.frame ≠ f) (hq : t.pte j w = some q) :
    q.frame ≠ f := by
  intro hqf
  rcases hres.kept_or_one hq with hold | hone
  · exact happart j w q hold hqf
  · obtain ⟨vm, hvm, hv⟩ := Accounted.pte_eq_some hq
    have hrefs := hres.accounted.one_le_refs hvm hv
    have hle := hres.accounted.refs_le hvm q.frame
    have hcount := hres.accounted.count q.frame
    have hheld := List.count_pos_iff.mpr (hqf.symm ▸ hf)
    omega

end Resolved

section Writing
variable {b m : Nat → UInt8} {y : Nat}

/-- What a piece of the range that is written holds. -/
theorem setRange_piece (h : s.frameAddr i (dst + k) = some y)
    (hfit : pageOffset (dst + k) + n ≤ pageSize) {l : Nat} (hlo : k ≤ l) (hhi : l < k + n)
    (hx : s.frameAddr i (dst + l) = some x) : setRange m y n b x = b (l - k) := by
  have hadd := frameAddr_add (k := l - k) h (by omega)
  rw [show dst + k + (l - k) = dst + l by omega, hx, Option.some.injEq] at hadd
  rw [hadd]
  exact setRange_inside m (by omega)

/-- A byte that is not in the piece stays. -/
theorem setRange_away (h : s.frameAddr i (dst + k) = some y)
    (hfit : pageOffset (dst + k) + n ≤ pageSize)
    (hx : ∀ l, k ≤ l → l < k + n → s.frameAddr i (dst + l) ≠ some x) :
    setRange m y n b x = m x := by
  refine setRange_outside ?_
  by_contra hin
  refine hx (k + (x - y)) (by omega) (by omega) ?_
  have hadd := frameAddr_add (k := x - y) h (by omega)
  rw [← Nat.add_assoc, hadd]
  congr 1
  omega

end Writing

/-- The memory after the first bytes of a range were written. -/
structure WrittenUpTo (i dst k : Nat) (b : Nat → UInt8) (t u : MemState) : Prop where
  only : OnlyMemory t u
  bytes : ∀ l, l < k → ∀ x, t.frameAddr i (dst + l) = some x → u.memory x = b l
  other : ∀ x, (∀ l, l < k → t.frameAddr i (dst + l) ≠ some x) → u.memory x = t.memory x

theorem WrittenUpTo.start (t : MemState) (b : Nat → UInt8) : WrittenUpTo i dst 0 b t t :=
  ⟨.refl t, fun _ hl => absurd hl (Nat.not_lt_zero _), fun _ _ => rfl⟩

/-- One more piece, with the bytes that belong there. -/
theorem WrittenUpTo.piece {b c : Nat → UInt8} {y : Nat} (h : WrittenUpTo i dst k b t u)
    (honce : FrameOnce t) (hy : t.frameAddr i (dst + k) = some y)
    (hfit : pageOffset (dst + k) + n ≤ pageSize) (hc : ∀ l, l < n → c l = b (k + l)) :
    WrittenUpTo i dst (k + n) b t { u with memory := setRange u.memory y n c } where
  only := h.only.trans ⟨_, rfl⟩
  bytes l hl x hx := by
    by_cases hlk : l < k
    · refine (setRange_away hy hfit fun l' hlo hhi hx' => ?_).trans (h.bytes l hlk x hx)
      have hinj := honce.addr_inj hx hx'
      omega
    · refine (setRange_piece hy hfit (Nat.not_lt.mp hlk) hl hx).trans ?_
      rw [hc _ (by omega), Nat.add_sub_cancel' (Nat.not_lt.mp hlk)]
  other x hx := (setRange_away hy hfit fun l hlo hhi => hx l hhi).trans
    (h.other x fun l hl => hx l (by omega))

/-- What user code reads after a range was written. -/
theorem WrittenUpTo.userByte {b : Nat → UInt8} (h : WrittenUpTo i dst size b t u) (j a : Nat) :
    (∃ k, k < size ∧ t.frameAddr j a = t.frameAddr i (dst + k) ∧ (t.frameAddr j a).isSome ∧
      u.userByte j a = some (b k)) ∨
    ((∀ k, k < size → j = i → a = dst + k → t.frameAddr j a = none) ∧
      u.userByte j a = t.userByte j a) := by
  obtain ⟨m, hm⟩ := h.only
  have hbyte : u.userByte j a = (t.frameAddr j a).map u.memory := by
    rw [userByte_eq, hm]
    rfl
  cases hx : t.frameAddr j a with
  | none => exact Or.inr ⟨fun _ _ _ _ => rfl, by rw [hbyte, hx, userByte_eq, hx]; rfl⟩
  | some x =>
    by_cases hin : ∃ k, k < size ∧ t.frameAddr i (dst + k) = some x
    · obtain ⟨k, hk, hkx⟩ := hin
      refine Or.inl ⟨k, hk, hkx.symm, rfl, ?_⟩
      rw [hbyte, hx, Option.map_some, h.bytes k hk x hkx]
    · refine Or.inr ⟨?_, ?_⟩
      · rintro k hk rfl rfl
        exact absurd ⟨k, hk, hx⟩ hin
      · rw [hbyte, hx, userByte_eq, hx, Option.map_some, Option.map_some,
          h.other x fun k hk hc => hin ⟨k, hk, hc⟩]

section Wet

/-- A copy changes the memory only. -/
theorem copyToUserChunk_only (hi : (t.spaces i).isSome) (dst src n : Nat) :
    Keeps (OnlyMemory t) (copyToUserChunk false i dst src n) := by
  have hcopy : ∀ d c z, Keeps (OnlyMemory t) (memcpy d c z) := by
    intro d c z
    unfold memcpy
    refine .ite (keeps_pure _) (.ite (keeps_throw _) (.ite (keeps_throw _) (.ite (keeps_throw _)
      (keeps_modify ?_))))
    rintro _ ⟨m, rfl⟩
    exact ⟨_, rfl⟩
  have hfind : Keeps (OnlyMemory t) (findUserFrame i (.alignDown dst)) := by
    rintro _ ⟨m, rfl⟩
    refine wp.ends ((findUserFrame_wp (s := { t with memory := m }) hi).mono ?_ ?_)
    · rintro _ _ ⟨rfl, -⟩
      exact ⟨m, rfl⟩
    · rintro _ _ ⟨rfl, -⟩
      exact ⟨m, rfl⟩
  unfold copyToUserChunk
  refine KeepsIn.bind (keeps_gets _) fun inside => .ite ?_ (.ite (keeps_pure _) ?_)
  · exact .ite (keeps_throw _) (keeps_abort _)
  · refine KeepsIn.bind hfind.attempt fun found => ?_
    cases found with
    | error e => exact keeps_abort _
    | ok frame =>
      refine KeepsIn.bind (keeps_gets _) fun there => .ite (keeps_abort _) ?_
      refine KeepsIn.bind (hcopy _ _ _).attempt fun copied => ?_
      cases copied with
      | error e => exact keeps_abort _
      | ok r => exact keeps_pure _

/-- A copy that returned resolved the range and then changed the memory only. -/
theorem copyToUser_returned (h : Accounted held s) (hi : (s.spaces i).isSome)
    (hk : isKernelRegion src size = true) (hu : isUserRegion dst size = true)
    (hpass : Passes dst src size s)
    (hrun : copyToUserUnalignedUnchecked i dst src size false s = .ok () u) :
    s.resolvable i dst size = true ∧
      ∃ t, Resolution held i (regionPages dst size) s t ∧ OnlyMemory t u := by
  rw [copyToUser_wet hk hu hpass.nonempty] at hrun
  suffices hends : ends (resolveCowForRegion i dst size >>= fun _ =>
      copyLoop toUserPiece (copyToUserChunk false i) size dst src size)
      (fun _ u => s.resolvable i dst size = true ∧
        ∃ t, Resolution held i (regionPages dst size) s t ∧ OnlyMemory t u)
      (fun _ _ => True) (fun _ => True) s from hends.of_ok hrun
  rw [ends_bind]
  refine wp.ends ((resolveCowForRegion_exact h hi hpass.nonempty hpass.user).mono ?_
    (fun _ _ _ => trivial))
  rintro _ t ⟨hres, hcan⟩
  exact (copyLoop_keeps (copyToUserChunk_only ((hres.spaces.live i).trans hi)) size dst src size t
    (.refl t)).weaken (fun _ _ hu => ⟨hcan, t, hres, hu⟩) (fun _ _ _ => trivial)

/-- The pieces are written one after the other. -/
theorem copyToUserLoop_wp (h : Accounted held s) (hbuf : KernelBuffer held s src size)
    (hres : Resolution held i (regionPages dst size) s t) (honce : FrameOnce t)
    (hpass : Passes dst src size s)
    (hmapped : ∀ k, k < size → (t.pte i (.alignDown (dst + k))).isSome = true) :
    wp (copyLoop toUserPiece (copyToUserChunk false i) size dst src size)
      (fun _ u => WrittenUpTo i dst size (fun k => s.memory (src + k)) t u)
      (fun _ _ => False) t := by
  have hcap := hres.spaces.capacity
  have hbuffer : ∀ l, l < size → (src + l) / pageSize ∈ held ∧
      ∀ j v p, s.pte j v = some p → p.frame ≠ (src + l) / pageSize := by
    intro l hl
    refine hbuf _ (by omega) (by omega) (Nat.div_lt_of_lt_mul ?_)
    have hend := hpass.memory
    rw [Nat.mul_comm]
    omega
  -- The bytes of the buffer stay, since no page of the destination lies there.
  have hsource : ∀ {k : Nat} {u : MemState},
      WrittenUpTo i dst k (fun k => s.memory (src + k)) t u → ∀ l, l < size →
        u.memory (src + l) = s.memory (src + l) := by
    intro k u hu l hl
    obtain ⟨hheld, happart⟩ := hbuffer l hl
    have hsplit : (src + l) / pageSize * pageSize + (src + l) % pageSize = src + l :=
      Nat.div_add_mod' _ _
    have hmod : (src + l) % pageSize < pageSize := Nat.mod_lt _ (by decide)
    have hpos : 0 < s.frames.refcount ((src + l) / pageSize) := by
      have hcount := h.count ((src + l) / pageSize)
      have hone := List.count_pos_iff.mpr hheld
      omega
    rw [hu.other _ fun l' _ hx => ?_]
    · have hkeep := hres.bytes _ hpos _ hmod
      rwa [hsplit] at hkeep
    · obtain ⟨q, hq, heq⟩ := frameAddr_eq_some.mp hx
      refine hres.apart hheld happart hq ?_
      rw [← hsplit] at heq
      exact (frame_offset_inj (pageOffset_lt _) hmod heq).1
  refine copyLoop_wp (I := fun k u => WrittenUpTo i dst k (fun k => s.memory (src + k)) t u)
    dst src size (fun _ _ _ => toUserPiece_fits) ?_ size 0 .start (Nat.zero_le _) (Nat.le_refl _)
    (.start t _)
  intro k u _ hk hu
  obtain ⟨hn, hfit, hend⟩ := toUserPiece_spec dst src hk
  generalize toUserPiece (dst + k) (src + k) (size - k) = n at *
  obtain ⟨p, hp⟩ := Option.isSome_iff_exists.mp (hmapped k hk)
  obtain ⟨m, rfl⟩ := hu.only
  have hpos := hres.accounted.refcount_pos hp
  have hframe := frame_end_le hres.accounted.valid hpos
  have hbound : (p.frame + 1) * pageSize ≤ t.frames.capacity * pageSize :=
    Nat.mul_le_mul_right _ (hres.accounted.valid.bound _ hpos)
  have hword := hpass.word
  have hmem := hpass.memory
  have hsrc : src + k + n ≤ usizeMax ∧ src + k + n ≤ t.frames.capacity * pageSize := by
    rw [hcap]
    omega
  have hdst : p.frame * pageSize + pageOffset (dst + k) + n ≤ usizeMax ∧
      p.frame * pageSize + pageOffset (dst + k) + n ≤ t.frames.capacity * pageSize := by
    rw [Nat.add_mul, Nat.one_mul] at hbound
    omega
  have hfar : ∀ l, l < n → ∀ o, o < n →
      src + k + l ≠ p.frame * pageSize + pageOffset (dst + k) + o := by
    intro l hl o ho heq
    obtain ⟨hheld, happart⟩ := hbuffer (k + l) (by omega)
    refine hres.apart hheld happart hp ?_
    have hdiv : (p.frame * pageSize + (pageOffset (dst + k) + o)) / pageSize = p.frame := by
      unfold pageSize at *
      omega
    rw [← Nat.add_assoc, heq, Nat.add_assoc, hdiv]
  refine (copyToUserChunk_ok (s := { t with memory := m }) hp hn hsrc hdst ?_).imp ?_
  · rintro (⟨hlo, hhi⟩ | ⟨hlo, hhi⟩)
    · exact hfar 0 (by omega) (src + k - (p.frame * pageSize + pageOffset (dst + k))) (by omega)
        (by omega)
    · exact hfar (p.frame * pageSize + pageOffset (dst + k) - (src + k)) (by omega) 0 (by omega)
        (by omega)
  · rintro _ _ rfl
    refine hu.piece honce (frameAddr_of_pte hp) hfit fun l hl => ?_
    rw [Nat.add_assoc]
    exact hsource hu (k + l) (by omega)

end Wet

section Exact
variable (h : Accounted held s) (hres : Resolution held i (regionPages dst size) s t)
include h hres

/-- A range that was written exactly was mapped, and what another space sees of a page without
a mark is what was written. -/
theorem writable_of_written (hcan : s.resolvable i dst size = true) (honly : OnlyMemory t u)
    (hwritten : Written i dst size (fun k => some (s.memory (src + k))) s u) :
    Writable i dst src size s := by
  obtain ⟨m, rfl⟩ := honly
  have hbyte : ∀ j a, userByte { t with memory := m } j a = (t.frameAddr j a).map m :=
    fun j a => userByte_eq _ j a
  refine ⟨fun k hk => ?_, hcan, fun k hk p hp hcow j hj a ha => ?_⟩
  · by_contra hnone
    rw [Bool.not_eq_true, Option.isSome_eq_false_iff, Option.isNone_iff_eq_none] at hnone
    have hgone : t.pte i (.alignDown (dst + k)) = none := by
      rw [hres.kept i _ (fun p hp => by rw [hnone] at hp; cases hp), hnone]
    have hnew := hwritten.inside hk
    rw [hbyte, frameAddr, hgone] at hnew
    cases hnew
  · rcases hres.alone_or_kept hp hk with ⟨-, hkept⟩ | ⟨hyes, -⟩
    · have hsame : t.frameAddr j a = t.frameAddr i (dst + k) := by
        rw [hkept, ← ha, frameAddr, frameAddr, hres.pte_other hj]
      calc s.userByte i (dst + k)
          = t.userByte i (dst + k) := (hres.userByte_eq h _ _).symm
        _ = t.userByte j a := by rw [userByte_eq, userByte_eq, hsame]
        _ = s.userByte j a := hres.userByte_eq h _ _
        _ = (t.frameAddr j a).map m := by rw [← hbyte, hwritten.of_ne hj]
        _ = (t.frameAddr i (dst + k)).map m := by rw [hsame]
        _ = some (s.memory (src + k)) := by rw [← hbyte, hwritten.inside hk]
    · cases hcow.symm.trans hyes

theorem Resolution.mapped (hp : (s.pte i (.alignDown a)).isSome = true) :
    (t.pte i (.alignDown a)).isSome = true := by
  have hsame := congrArg Option.isSome (hres.userByte_eq h i a)
  unfold userByte at hsame
  rw [Option.isSome_map, Option.isSome_map] at hsame
  exact hsame.trans hp

/-- A range whose bytes are all written is written exactly, when it can be. -/
theorem Writable.written (hw : Writable i dst src size s) (honce : FrameOnce t)
    (hu : WrittenUpTo i dst size (fun k => s.memory (src + k)) t u) :
    Written i dst size (fun k => some (s.memory (src + k))) s u := by
  intro j a
  rcases hu.userByte j a with ⟨k, hk, hsame, hsome, hbyte⟩ | ⟨hout, hbyte⟩
  · rw [hbyte]
    by_cases hj : j = i
    · subst hj
      obtain ⟨x, hx⟩ := Option.isSome_iff_exists.mp hsome
      have ha := honce.addr_inj hx (hsame ▸ hx)
      rw [if_pos ⟨rfl, by omega, by omega⟩, ha, Nat.add_sub_cancel_left]
    · -- Another space sees the byte, which is the one it had.
      rw [if_neg fun hc => hj hc.1, ← hres.userByte_eq h, userByte_eq, hsame,
        ← userByte_eq, hres.userByte_eq h]
      obtain ⟨p, hp⟩ := Option.isSome_iff_exists.mp (hw.mapped k hk)
      rcases hres.alone_or_kept hp hk with ⟨hcow, hkept⟩ | ⟨-, halone⟩
      · refine (hw.unseen k hk p hp hcow j hj a ?_).symm
        rw [← hkept, ← hsame, frameAddr, frameAddr, hres.pte_other hj]
      · exact absurd (halone j a hsame) hj
  · rw [hbyte, hres.userByte_eq h, if_neg]
    rintro ⟨rfl, hlo, hhi⟩
    obtain ⟨p, hp⟩ := Option.isSome_iff_exists.mp
      (hres.mapped h (hw.mapped (a - dst) (by omega)))
    have hnone := hout (a - dst) (by omega) rfl (by omega)
    rw [show dst + (a - dst) = a by omega] at hp
    rw [frameAddr_of_pte hp] at hnone
    cases hnone

theorem kernelKept_of_writtenUpTo {b : Nat → UInt8} (hu : WrittenUpTo i dst size b t u) :
    KernelKept held s u := by
  intro f hf happart o ho
  have hpos : 0 < s.frames.refcount f := by
    have hcount := h.count f
    have hone := List.count_pos_iff.mpr hf
    omega
  refine (hu.other _ fun l _ hx => ?_).trans (hres.bytes f hpos o ho)
  obtain ⟨q, hq, heq⟩ := frameAddr_eq_some.mp hx
  exact hres.apart hf happart hq (frame_offset_inj (pageOffset_lt _) ho heq).1

end Exact

/-- The copy is exact if and only if a destination that passes the dry run can be written. -/
theorem copyToUser_exact_iff (h : Accounted held s) (honce : FrameOnce s)
    (hi : (s.spaces i).isSome = true) (hbuf : KernelBuffer held s src size) :
    ToUserExact held i dst src size s ↔
      ((∃ t, copyToUserUnalignedUnchecked i dst src size true s = .ok () t) →
        Writable i dst src size s) := by
  have hdry := copyToUser_dry i dst src size s
  constructor
  · rintro hexact ⟨t₀, ht₀⟩
    obtain ⟨rfl, hk, hu, hpass⟩ := hdry.of_ok ht₀
    obtain ⟨u, hrun, hwritten, -⟩ := hexact.passed t₀ ht₀
    obtain ⟨hcan, t, hres, honly⟩ := copyToUser_returned h hi hk hu hpass hrun
    exact writable_of_written h hres hcan honly hwritten
  · intro hwhen
    refine ⟨fun t₀ ht₀ => ?_, fun e t he => hdry.of_err he, hdry.not_abort⟩
    obtain ⟨rfl, hk, hu, hpass⟩ := hdry.of_ok ht₀
    have hw := hwhen ⟨t₀, ht₀⟩
    have hwet : wp (copyToUserUnalignedUnchecked i dst src size false)
        (fun _ u => Written i dst size (fun k => some (t₀.memory (src + k))) t₀ u ∧
          KernelKept held t₀ u) (fun _ _ => False) t₀ := by
      rw [copyToUser_wet hk hu hpass.nonempty, wp_bind]
      refine (resolveCowForRegion_exact h hi hpass.nonempty hpass.user).mono ?_ ?_
      · rintro _ t ⟨hres, -⟩
        exact (copyToUserLoop_wp h hbuf hres (hres.frameOnce honce) hpass
          fun k hk => hres.mapped h (hw.mapped k hk)).imp fun _ u hu => ⟨hw.written h hres (hres.frameOnce honce) hu,
            kernelKept_of_writtenUpTo h hres hu⟩
      · rintro _ _ hno
        rw [hw.resolves] at hno
        cases hno
    obtain ⟨⟨⟩, u, hrun, hdone⟩ := hwet.exists_ok
    exact ⟨u, hrun, hdone⟩

/-- A machine with a frame that the kernel holds and a space with some pages. -/
def oneBuffer (pages : Nat) : MM Nat := do
  let f ← allocKernelFrame
  let _ ← newVmem
  allocUpages 0 firstUserPage .RDWR true pages [] pages
  return f

/-- What the results about copies ask of a buffer and of a machine with one space. -/
structure OneBuffer (f : Nat) (s : MemState) : Prop where
  accounted : Accounted [f] s
  once : FrameOnce s
  space : (s.spaces 0).isSome = true
  buffer : ∀ n, n ≤ pageSize → KernelBuffer [f] s (f * pageSize) n
  single : ∀ j v, j ≠ 0 → s.pte j v = none

theorem oneBuffer_wp (pages : Nat) :
    wp (oneBuffer pages) (fun f s => OneBuffer f s) (fun _ _ => True) (.boot 128) := by
  simp only [oneBuffer, allocKernelFrame, wp_bind, wp_pure]
  refine (allocFrame_wp (accounted_boot (by decide) (by decide))).mono ?_ (fun _ _ _ => trivial)
  rintro f _ ⟨hacc, -, a, rfl, -⟩
  refine (newVmem_wp hacc).mono ?_ (fun _ _ _ => trivial)
  rintro _ s₁ ⟨rfl, hacc₁, -, -, hpte, ⟨d, hspaces⟩, -⟩
  have hnone : ∀ j v, s₁.pte j v = none := fun j v => by rw [hpte]; rfl
  have hzero : (s₁.spaces 0).isSome = true := by rw [hspaces]; rfl
  refine (allocUpages_wp hacc₁ hzero true pages pages []).mono ?_ (fun _ _ _ => trivial)
  intro _ s hdone
  have hframe : ∀ {j v p}, s.pte j v = some p → j = 0 ∧ s₁.frames.refcount p.frame = 0 := by
    intro j v p hp
    by_cases hin : j = 0 ∧ firstUserPage.number ≤ v.number ∧
        v.number < firstUserPage.number + pages
    · obtain ⟨-, g, hg, hentry⟩ := hdone.done v hin.2.1 hin.2.2
      rw [hin.1, hentry, Option.some.injEq] at hp
      exact ⟨hin.1, hp ▸ hg⟩
    · rw [hdone.other j v hin, hnone] at hp
      cases hp
  have honce₁ : FrameOnce s₁ := fun i v _ p _ hp => by rw [hnone i v] at hp; cases hp
  refine ⟨hdone.accounted, honce₁.effect (c := .newVmem) (.allocated hdone),
    (hdone.spaces.live 0).trans hzero, ?_, fun j v hj => ?_⟩
  · intro n hn x hlo hhi _
    have hdiv : x / pageSize = f := by
      unfold pageSize at *
      omega
    refine ⟨hdiv ▸ List.mem_singleton_self f, fun j v p hp hpf => ?_⟩
    have hfree := (hframe hp).2
    have hcount := hacc₁.count f
    rw [hpf, hdiv, hcount, List.count_singleton_self] at hfree
    omega
  · by_contra hsome
    obtain ⟨p, hp⟩ := Option.ne_none_iff_exists'.mp hsome
    exact hj (hframe hp).1

/-- The machine passes a test. -/
def oneBufferTo (pages : Nat) (test : Nat → MemState → Bool) : Bool :=
  match oneBuffer pages (.boot 128) with
  | .ok f s => test f s
  | _ => false

theorem exists_oneBuffer {pages : Nat} {test : Nat → MemState → Bool}
    (h : oneBufferTo pages test = true) :
    ∃ f s, OneBuffer f s ∧ test f s = true := by
  unfold oneBufferTo at h
  split at h
  · next f s hrun => exact ⟨f, s, (oneBuffer_wp pages).of_ok hrun, h⟩
  · cases h

/-- A copy of sixteen bytes, of which the first eight are in one page and the others in the next. -/
theorem copyToUser_exact_two : ∃ f s, OneBuffer f s ∧
    (∃ t, copyToUserUnalignedUnchecked 0 (firstUserPage.raw + 4088) (f * pageSize) 16 true s =
      .ok () t) ∧ ToUserExact [f] 0 (firstUserPage.raw + 4088) (f * pageSize) 16 s := by
  obtain ⟨f, s, hone, htest⟩ := exists_oneBuffer (show oneBufferTo 2 (fun f s =>
    (List.range 16).all (fun k => (s.pte 0 (.alignDown (firstUserPage.raw + 4088 + k))).isSome) &&
      s.resolvable 0 (firstUserPage.raw + 4088) 16 &&
      (copyToUserUnalignedUnchecked 0 (firstUserPage.raw + 4088) (f * pageSize) 16 true s).returns
        fun _ => true) = true by decide +kernel)
  rw [Bool.and_eq_true, Bool.and_eq_true] at htest
  obtain ⟨⟨hmapped, hcan⟩, hdry⟩ := htest
  obtain ⟨_, t, hdry, -⟩ := Outcome.of_returns hdry
  have hpages : ∀ k, k < 16 → (s.pte 0 (.alignDown (firstUserPage.raw + 4088 + k))).isSome = true :=
    fun k hk => List.all_eq_true.mp hmapped k (List.mem_range.mpr hk)
  refine ⟨f, s, hone, ⟨t, hdry⟩, (copyToUser_exact_iff hone.accounted hone.once hone.space
    (hone.buffer 16 (by decide))).mpr fun _ => ⟨hpages, hcan, fun k hk p hp _ j hj a ha => ?_⟩⟩
  rw [frameAddr_of_pte hp, frameAddr, hone.single j _ hj] at ha
  cases ha

/-- The first byte of the range is in the page, the second one is behind it: the dry run passes,
and the copy panics. -/
theorem copyToUser_inexact : ∃ f s, OneBuffer f s ∧
    KernelBuffer [f] s (f * pageSize) 2 ∧
    copyToUserUnalignedUnchecked 0 (firstUserPage.raw + 4095) (f * pageSize) 2 true s =
      .ok () s ∧
    copyToUserUnalignedUnchecked 0 (firstUserPage.raw + 4095) (f * pageSize) 2 false s =
      .abort "failed to find user frame" ∧
    ¬ToUserExact [f] 0 (firstUserPage.raw + 4095) (f * pageSize) 2 s := by
  obtain ⟨f, s, hone, htest⟩ := exists_oneBuffer (show oneBufferTo 1 (fun f s =>
    ((copyToUserUnalignedUnchecked 0 (firstUserPage.raw + 4095) (f * pageSize) 2 true s).returns
      fun _ => true) &&
    match copyToUserUnalignedUnchecked 0 (firstUserPage.raw + 4095) (f * pageSize) 2 false s with
    | .abort m => m == "failed to find user frame"
    | _ => false) = true by decide +kernel)
  obtain ⟨hdry, hwet⟩ := Bool.and_eq_true_iff.mp htest
  obtain ⟨_, t, hdry, -⟩ := Outcome.of_returns hdry
  obtain ⟨rfl, -⟩ := (copyToUser_dry 0 _ _ _ s).of_ok hdry
  split at hwet
  · next m hm =>
    rw [beq_iff_eq] at hwet
    subst hwet
    refine ⟨f, t, hone, hone.buffer 2 (by decide), hdry, hm, fun hexact => ?_⟩
    obtain ⟨u, hrun, -⟩ := hexact.passed t hdry
    cases hm.symm.trans hrun
  · cases hwet

end Nanvix.Mm
