import Nanvix.Mm.EagerCopy

/-!
# Copy-on-write forks behave like forks that copy

Every call of the machine of copies and user accesses follows the same call of
the machine whose forks copy every page, so a run of the first shows a trace of
the second: each read returns the bytes it returns there. Two kinds of calls need
a guard. The kernel writes through physical addresses, so it must not write to a
page that is shared, read-only and unmarked. A fork of a marked page gives a child
that may not write it, so either no such page is forked or no such page is written
by user code.
-/
namespace Nanvix.Mm
open Config Library Library.Prog MM

variable {held kernelFrames : List Nat} {exact : Bool} {s s' t : MemState} {a : EagerState}
variable {i j n addr size dst src k : Nat} {v : PageAligned} {p q : PageTableEntry}

section Pieces

theorem toUserPiece_fits (hz : 0 < size) :
    0 < toUserPiece dst src size ∧ toUserPiece dst src size ≤ size := by
  have hlt := pageOffset_lt dst
  unfold toUserPiece
  omega

theorem toUserPiece_spec (dst src : Nat) (hk : k < size) :
    toUserPiece (dst + k) (src + k) (size - k) ≠ 0 ∧
      pageOffset (dst + k) + toUserPiece (dst + k) (src + k) (size - k) ≤ pageSize ∧
      k + toUserPiece (dst + k) (src + k) (size - k) ≤ size := by
  have hlt := pageOffset_lt (dst + k)
  unfold toUserPiece
  omega

theorem fromUserPiece_spec (dst src : Nat) (hk : k < size) :
    fromUserPiece (dst + k) (src + k) (size - k) ≠ 0 ∧
      pageOffset (src + k) + fromUserPiece (dst + k) (src + k) (size - k) ≤ pageSize ∧
      k + fromUserPiece (dst + k) (src + k) (size - k) ≤ size := by
  have hlt := pageOffset_lt (src + k)
  unfold fromUserPiece
  omega

theorem userToUserPiece_spec (dst src : Nat) (hk : k < size) :
    userToUserPiece (dst + k) (src + k) (size - k) ≠ 0 ∧
      pageOffset (src + k) + userToUserPiece (dst + k) (src + k) (size - k) ≤ pageSize ∧
      pageOffset (dst + k) + userToUserPiece (dst + k) (src + k) (size - k) ≤ pageSize := by
  have hsrc := pageOffset_lt (src + k)
  have hdst := pageOffset_lt (dst + k)
  unfold userToUserPiece
  omega

end Pieces

theorem OnlyMemory.refl (s : MemState) : OnlyMemory s s := ⟨s.memory, rfl⟩

theorem OnlyMemory.trans {u : MemState} (h : OnlyMemory s t) (h' : OnlyMemory t u) :
    OnlyMemory s u := by
  obtain ⟨m, rfl⟩ := h
  obtain ⟨m', rfl⟩ := h'
  exact ⟨m', rfl⟩

/-- A program on shared frames follows one on private pages and keeps a relation to it. -/
abbrev Tracks {α : Type} (R : MemState → EagerState → Prop) (x : MM α) (y : EM α)
    (s : MemState) (a : EagerState) : Prop :=
  follows OutOfMemory x y (fun _ => R) R s a

section Copies

/-- What a copy keeps between its pieces. -/
def Copying (exact : Bool) (held kernelFrames : List Nat) (s t : MemState) (b : EagerState) :
    Prop :=
  Follow exact held kernelFrames t b ∧ OnlyMemory s t

/-- A loop over pieces follows another one when each piece does. -/
theorem copyLoop_copying {piece : Nat → Nat → Nat → Nat} {body : Nat → Nat → Nat → MM Unit}
    {body' : Nat → Nat → Nat → EM Unit} (h : Follow exact held kernelFrames s a)
    (hbody : ∀ k t b, k < size → Copying exact held kernelFrames s t b →
      Tracks (Copying exact held kernelFrames t)
        (body (dst + k) (src + k) (piece (dst + k) (src + k) (size - k)))
        (body' (dst + k) (src + k) (piece (dst + k) (src + k) (size - k))) t b) :
    Tracks (Copying exact held kernelFrames s) (copyLoop piece body size dst src size)
      (copyLoop piece body' size dst src size) s a :=
  copyLoop_follows (R := Copying exact held kernelFrames s)
    (fun k t b hk hR => (hbody k t b hk hR).mono
      (fun _ _ _ hu => ⟨hu.1, hR.2.trans hu.2⟩) (fun _ _ hu => ⟨hu.1, hR.2.trans hu.2⟩))
    size 0 ⟨h, .refl s⟩

theorem copyToUserLoop_follows (h : Follow exact held kernelFrames s a)
    (hi : (s.spaces i).isSome) (hone : Unshared i dst size s)
    (hr : KernelRange kernelFrames src size) :
    Tracks (Copying exact held kernelFrames s)
      (copyLoop toUserPiece (copyToUserChunk false i) size dst src size)
      (copyLoop toUserPiece (EM.copyToUserChunk i) size dst src size) s a := by
  refine copyLoop_copying h ?_
  rintro k _ b hk ⟨hf, m, rfl⟩
  obtain ⟨hn, hfit, hend⟩ := toUserPiece_spec dst src hk
  exact (copyToUserChunk_follows hf hi (fun p hp => hone k hk p hp) hn hfit (hr.sub hend)).mono
    (fun _ _ _ ht => ht) (fun _ _ he => he.elim)

/-- The dry run passes over a buffer of the kernel. -/
theorem copyToUserDry_wp (h : Sound held kernelFrames s) (hr : KernelRange kernelFrames src size) :
    wp (copyLoop toUserPiece (copyToUserChunk true i) size dst src size)
      (fun _ t => t = s) (fun _ _ => False) s := by
  refine copyLoop_wp (I := fun _ t => t = s) dst src size (fun _ _ _ => toUserPiece_fits) ?_ size 0
    .start (Nat.zero_le _) (Nat.le_refl _) rfl
  · rintro k t - hk rfl
    obtain ⟨hn, -, hend⟩ := toUserPiece_spec dst src hk
    obtain ⟨hsrc, hphys⟩ := h.kernel_end_le (hr.sub hend) hn
    simp only [copyToUserChunk, isPhysicalRegion, wp_bind, wp_gets,
      decide_eq_true (show _ ∧ _ ∧ _ from ⟨hn, hsrc, hphys⟩), Bool.not_true, Bool.false_eq_true,
      if_false, if_true, wp_pure]

section
variable (h : Follow exact held kernelFrames s a)
include h

theorem copyToUser_follows (hi : (s.spaces i).isSome)
    (hw : KernelWritable i dst size s) (hr : KernelRange kernelFrames src size) :
    Tracks (Follow exact held kernelFrames) (copyToUserUnaligned i dst src size)
      (EM.copyToUser i dst src size) s a := by
  unfold copyToUserUnaligned copyToUserUnalignedUnchecked EM.copyToUser
  refine follows_check_bind h fun hz => follows_check_bind h fun hk => follows_check_bind h fun hu => ?_
  rw [Bool.not_eq_true', Bool.not_eq_false] at hk hu
  simp only [if_neg hz, hk, hu, Bool.not_true, Bool.false_eq_true, if_false, if_true]
  refine follows_of_wp ?_
  rw [wp_bind, wp_pure]
  refine (copyToUserDry_wp h.sound hr).total ?_
  rintro _ _ rfl
  refine follows_of_wp ((resolveRegion_follow h hi hw).mono ?_ ?_)
  · rintro _ s₁ ⟨hf, hsp, hone⟩
    exact (copyToUserLoop_follows hf ((hsp.live i).trans hi) hone hr).mono
      (fun _ _ _ ht => ht.1) (fun _ _ ht => ht.1)
  · rintro e s₁ (hoom | ⟨hover, -⟩)
    · exact hoom
    · rw [isUserRegion, if_neg hz, if_pos hover] at hu
      cases hu

theorem copyFromUserLoop_follows
    (hi : (s.spaces i).isSome) (dryRun : Bool) (hr : KernelRange kernelFrames dst size) :
    Tracks (Copying exact held kernelFrames s)
      (copyLoop fromUserPiece (copyFromUserChunk dryRun i) size dst src size)
      (copyLoop fromUserPiece (EM.copyFromUserChunk dryRun i) size dst src size) s a := by
  refine copyLoop_copying h ?_
  rintro k _ b hk ⟨hf, m, rfl⟩
  obtain ⟨hn, hfit, hend⟩ := fromUserPiece_spec dst src hk
  exact copyFromUserChunk_follows hf hi dryRun hn hfit (hr.sub hend)

theorem copyFromUser_follows (hi : (s.spaces i).isSome) (hr : KernelRange kernelFrames dst size) :
    Tracks (Follow exact held kernelFrames) (copyFromUserUnaligned i dst src size)
      (EM.copyFromUser i dst src size) s a := by
  unfold copyFromUserUnaligned EM.copyFromUser
  refine follows_check h fun _ => follows_check h fun _ => follows_check h fun _ => ?_
  refine follows_bind ((copyFromUserLoop_follows h hi true hr).mono ?_ (fun _ _ ht => ht.1))
  rintro _ _ b ⟨hf, m, rfl⟩
  exact (copyFromUserLoop_follows hf hi false hr).mono (fun _ _ _ ht => ht.1) (fun _ _ ht => ht.1)

theorem copyUserToUserLoop_follows
    (hi : (s.spaces i).isSome) (hj : (s.spaces j).isSome) (dryRun : Bool)
    (hone : Unshared j dst size s) :
    Tracks (Copying exact held kernelFrames s)
      (copyLoop userToUserPiece (copyUserToUserChunk dryRun i j) size dst src size)
      (copyLoop userToUserPiece (EM.copyUserToUserChunk dryRun i j) size dst src size) s a := by
  refine copyLoop_copying h ?_
  rintro k _ b hk ⟨hf, m, rfl⟩
  obtain ⟨hn, hsrc, hdst⟩ := userToUserPiece_spec dst src hk
  exact copyUserToUserChunk_follows hf hi hj dryRun (fun p hp => hone k hk p hp) hn hsrc hdst

theorem copyUserToUser_follows
    (hi : (s.spaces i).isSome) (hj : (s.spaces j).isSome) (hone : Unshared j dst size s) :
    Tracks (Follow exact held kernelFrames) (copyUserToUser i src j dst size)
      (EM.copyUserToUser i src j dst size) s a := by
  unfold copyUserToUser EM.copyUserToUser
  refine follows_check h fun _ => follows_check h fun _ => follows_check h fun _ => ?_
  refine follows_bind ((copyUserToUserLoop_follows h hi hj true hone).mono ?_ (fun _ _ ht => ht.1))
  rintro _ _ b ⟨hf, m, rfl⟩
  exact (copyUserToUserLoop_follows hf hi hj false hone).mono (fun _ _ _ ht => ht.1)
    (fun _ _ ht => ht.1)

end

/-- A range that runs past the last address is refused by the copy on private pages too. -/
theorem EM.copyUserToUser_overflow (hz : 0 < size) (hover : usizeMax < dst + (size - 1)) :
    EM.copyUserToUser i src j dst size a = .err () a := by
  have hu : isUserRegion dst size = false := by
    rw [isUserRegion, if_neg (Nat.pos_iff_ne_zero.mp hz), if_pos hover]
  unfold EM.copyUserToUser
  rw [hu, if_neg (Nat.pos_iff_ne_zero.mp hz)]
  cases isUserRegion src size <;> rfl

theorem vmcopy_follows (h : Follow exact held kernelFrames s a) (hi : (s.spaces i).isSome)
    (hj : (s.spaces j).isSome) (hw : KernelWritable j dst size s) :
    Tracks (Follow exact held kernelFrames) (vmcopyUserToUser i src j dst size)
      (EM.copyUserToUser i src j dst size) s a := by
  unfold vmcopyUserToUser
  by_cases hz : 0 < size
  · by_cases hover : usizeMax < dst + (size - 1)
    · refine follows_err (EM.copyUserToUser_overflow hz hover) ?_
      rw [if_pos hz, wp_bind, resolveCowForRegion, if_neg (Nat.pos_iff_ne_zero.mp hz),
        if_pos hover, wp_throw]
      exact Or.inr h
    · rw [if_pos hz]
      refine follows_of_wp ((resolveRegion_follow h hj hw).mono ?_ ?_)
      · rintro _ s₁ ⟨hf, hsp, hone⟩
        exact copyUserToUser_follows hf ((hsp.live i).trans hi) ((hsp.live j).trans hj) hone
      · rintro e s₁ (hoom | ⟨hyes, -⟩)
        · exact hoom
        · exact absurd hyes hover
  · rw [if_neg hz]
    exact copyUserToUser_follows h hi hj fun k hk => absurd hk (by omega)

end Copies

section Accesses

/-- User code accesses a page of a sound memory through its entry. -/
theorem accessPte_wp (h : Sound held kernelFrames s) {o : Option PageTableEntry}
    (ho : s.pte i (.alignDown addr) = o) {Q : Option PageTableEntry → MemState → Prop}
    {E : Error → MemState → Prop} (hQ : Q o s) : wp (accessPte i addr) Q E s := by
  have huser : (s.pte i (.alignDown addr)).filter
      (fun p => decide (p.flags.userSupervisor = .user)) = o := by
    rw [ho]
    cases o with
    | none => rfl
    | some p =>
      have hp : decide (p.flags.userSupervisor = .user) = true := h.user i _ p ho
      rw [Option.filter_some, if_pos hp]
  rw [accessPte, wp_gets, huser]
  exact hQ

theorem userRead_follows (h : Follow exact held kernelFrames s a) :
    Tracks (Follow exact held kernelFrames) (userRead i addr) (EM.userRead i addr) s a := by
  unfold userRead
  cases hp : s.pte i (.alignDown addr) with
  | none =>
    refine follows_of_wp (accessPte_wp h.sound hp ?_)
    exact follows_err (bind_ok (h.hasPage hp)) (by rw [wp_throw]; exact Or.inr h)
  | some p =>
    have hbyte := h.bytes_eq hp (k := 0) (pageOffset_lt addr)
    rw [Nat.add_zero, Nat.add_zero] at hbyte
    refine follows_of_wp (accessPte_wp h.sound hp ?_)
    refine follows_ok (bind_ok (h.hasPage hp)) ?_
    rw [wp_gets]
    exact ⟨hbyte, h⟩

theorem setRange_one (m : Nat → UInt8) (x : Nat) (b : UInt8) :
    setRange m x 1 (fun _ => b) = Function.update m x b := by
  funext y
  rw [Function.update_apply]
  unfold setRange
  congr 1
  exact propext (by omega)

/-- A write through an entry passes when the entry is writable. -/
theorem storeByte_wp {b : UInt8} (h : Sound held kernelFrames s)
    (hp : s.pte i (.alignDown addr) = some p) :
    wp (storeByte i addr b)
      (fun r s' => if p.isWritable = true then r = none ∧ s' = { s with
          memory := setRange s.memory (p.frame * pageSize + pageOffset addr) 1 fun _ => b }
        else r = some ⟨true, true, true⟩ ∧ s' = s)
      (fun _ _ => False) s := by
  unfold storeByte
  rw [wp_bind]
  refine accessPte_wp h hp ?_
  by_cases hw : p.isWritable = true
  · simp only [if_pos hw, wp_bind, wp_modify, wp_pure, setRange_one]
    exact ⟨trivial, trivial⟩
  · simp only [if_neg hw, wp_pure]
    exact ⟨trivial, trivial⟩

/-- A write through a writable entry. -/
theorem storeByte_follows {b : UInt8} {f : Option FaultCode → MM Unit}
    (h : Follow exact held kernelFrames s a) (hp : s.pte i (.alignDown addr) = some p)
    (hw : p.isWritable = true) (hf : f none = pure ()) :
    Tracks (Follow exact held kernelFrames) (storeByte i addr b >>= f) (EM.userWrite i addr b)
      s a := by
  have hgranted : a.pages i (.alignDown addr) = some true :=
    h.shows.granted i _ (by rw [hp, mayWrite_some, hw, Bool.true_or])
  have hrun : EM.userWrite i addr b a = EM.writeBytes i addr 1 (fun _ _ => b) a := by
    refine (bind_ok rfl).trans ?_
    rw [if_pos hgranted]
  have hfit : pageOffset addr + 1 ≤ pageSize := pageOffset_lt addr
  refine follows_ok hrun ?_
  rw [wp_bind]
  refine (storeByte_wp h.sound hp).total ?_
  intro r s₁ hstore
  rw [if_pos hw] at hstore
  obtain ⟨rfl, rfl⟩ := hstore
  rw [hf, wp_pure]
  exact ⟨rfl, h.write hp (isolated_iff.mp h.sound.isolated _ _ p hp hw) hfit⟩

theorem userWrite_follows {b : UInt8} (h : Follow exact held kernelFrames s a)
    (hi : (s.spaces i).isSome)
    (hpermitted : exact = false → ∀ p, s.pte i (.alignDown addr) = some p →
      p.isWritable = true ∨ p.isCow = true) :
    Tracks (Follow exact held kernelFrames) (userWrite i addr b) (EM.userWrite i addr b) s a := by
  obtain ⟨vm, hvm⟩ := Option.isSome_iff_exists.mp hi
  have hrefused : a.pages i (.alignDown addr) ≠ some true → EM.userWrite i addr b a = .err () a := by
    intro hne
    refine (bind_ok rfl).trans ?_
    rw [if_neg hne]
    rfl
  unfold userWrite
  cases hp : s.pte i (.alignDown addr) with
  | none =>
    have hpresent := h.shows.present i (.alignDown addr)
    rw [hp] at hpresent
    refine follows_err (hrefused fun hc => by rw [hc] at hpresent; cases hpresent) ?_
    rw [wp_bind, storeByte, wp_bind]
    refine accessPte_wp h.sound hp ?_
    simp only [wp_pure, wp_bind, tryResolveCowFault, Bool.not_false, Bool.true_or, if_true,
      Bool.false_eq_true, if_false, wp_throw]
    exact Or.inr h
  | some p =>
    by_cases hw : p.isWritable = true
    · exact storeByte_follows h hp hw rfl
    · refine follows_of_wp ((storeByte_wp h.sound hp).total ?_)
      intro r s₀ hstore
      rw [if_neg hw] at hstore
      obtain ⟨rfl, rfl⟩ := hstore
      refine follows_of_wp ((resolveCowAt_wp h.sound.accounted hvm).mono ?_ ?_)
      · rintro r s₁ (⟨rfl, rfl, hclear⟩ | ⟨rfl, hstep, -⟩)
        · -- The page is read-only for good, on private pages too.
          have hcow := hclear p hp
          refine follows_err (hrefused fun hc => ?_) (by
            simp only [Bool.false_eq_true, if_false, wp_throw]; exact Or.inr h)
          cases exact with
          | true =>
            have hmay := h.shows.denied rfl i _ hc
            rw [hp, mayWrite_some, hcow, Bool.or_false] at hmay
            exact hw hmay
          | false =>
            rcases hpermitted rfl p hp with hyes | hyes
            · exact hw hyes
            · cases hcow.symm.trans hyes
        · obtain ⟨q, -, -, hres⟩ := hstep.entry
          obtain ⟨q', hpte, hnew⟩ := hres.renewed
          simp only [if_true]
          exact storeByte_follows (h.resolved hstep) (by rw [hpte, setPte_self]) hnew.writable rfl
      · rintro e s₁ ⟨-, ⟨hoom, -⟩ | hopen⟩
        · exact hoom
        · exact absurd hopen h.sound.not_openShared

end Accesses

section Pages
variable {parent child : Nat}

theorem Sound.released (h : Sound held kernelFrames s) (hr : Released held i v p s s') :
    Sound held kernelFrames s' where
  accounted := hr.accounted
  isolated := h.isolated.released hr
  user := h.user.set (fun _ hc => by cases hc) hr.pte
  owned := h.owned
  apart j w q hq := by
    rw [hr.pte] at hq
    by_cases hin : j = i ∧ w = v
    · rw [hin.1, hin.2, setPte_self] at hq
      cases hq
    · rw [setPte_of_ne hin] at hq
      exact h.apart j w q hq

theorem Shows.released (h : Shows exact kernelFrames s a) (hr : Released held i v p s s') :
    Shows exact kernelFrames s' (a.dropPage i v) := by
  have hself : s'.pte i v = none := by rw [hr.pte, setPte_self]
  have hother : ∀ {j w}, ¬(j = i ∧ w = v) → s'.pte j w = s.pte j w := fun hin => by
    rw [hr.pte, setPte_of_ne hin]
  refine ⟨h.numSpaces.trans hr.spaces.numSpaces.symm, fun j => (h.live j).trans (hr.spaces.live j).symm,
    fun j w => ?_, fun j w hw => ?_, fun he j w ha => ?_, fun j w q hq o ho => ?_,
    fun x hx => (h.kernel x hx).trans (congrFun hr.memory x).symm⟩ <;>
    by_cases hin : j = i ∧ w = v
  · rw [hin.1, hin.2, a.dropPage_pages_self, hself]
    rfl
  · rw [a.dropPage_pages_of_ne hin, hother hin]
    exact h.present j w
  · rw [hin.1, hin.2, hself] at hw
    cases hw
  · rw [hother hin] at hw
    rw [a.dropPage_pages_of_ne hin]
    exact h.granted j w hw
  · rw [hin.1, hin.2, a.dropPage_pages_self] at ha
    cases ha
  · rw [a.dropPage_pages_of_ne hin] at ha
    rw [hother hin]
    exact h.denied he j w ha
  · rw [hin.1, hin.2, hself] at hq
    cases hq
  · rw [hother hin] at hq
    rw [hr.memory]
    exact h.bytes j w q hq o ho

theorem unmap_follows {β : Type} (r : β) (h : Follow exact held kernelFrames s a)
    (hi : (s.spaces i).isSome) :
    Tracks (Follow exact held kernelFrames) (tryUnmapUpage i v >>= fun _ => pure r)
      (EM.unmap i v >>= fun _ => (pure r : EM β)) s a := by
  obtain ⟨vm, hvm⟩ := Option.isSome_iff_exists.mp hi
  cases huser : isUserAddr v.raw with
  | false =>
    refine follows_err (d := ()) (b := a) (by unfold EM.unmap; rw [huser]; rfl) ?_
    simp only [tryUnmapUpage, unmap, huser, Bool.not_false, if_true, wp_bind, wp_throw]
    exact Or.inr h
  | true =>
    refine follows_ok (r := r) (b := a.dropPage i v) (by unfold EM.unmap; rw [huser]; rfl) ?_
    simp only [wp_bind, wp_pure]
    refine (tryUnmapUpage_wp h.sound.accounted hvm).mono ?_ ?_
    · rintro r s₁ (⟨-, hnone, rfl⟩ | ⟨-, p, -, hrel⟩)
      · have habsent := h.shows.present i v
        rw [hnone, Option.isSome_none, Option.isSome_eq_false_iff, Option.isNone_iff_eq_none] at habsent
        rw [a.dropPage_eq_self habsent]
        exact ⟨trivial, h⟩
      · exact ⟨trivial, h.sound.released hrel, h.shows.released hrel⟩
    · rintro e s₁ ⟨hfalse, -⟩
      cases huser.symm.trans hfalse

theorem Sound.linked (h : Sound held kernelFrames s) (hl : Linking held parent child s s')
    (hpte : s'.pte = linkedPte s.pte parent child) : Sound held kernelFrames s' where
  accounted := hl.accounted
  isolated := h.isolated.linked h.accounted hl hpte
  user := h.user.linked entryStable_isUser hpte
  owned := h.owned
  apart j w q hq := by
    rw [hpte] at hq
    unfold linkedPte at hq
    split_ifs at hq
    · obtain ⟨r, hr, rfl⟩ := Option.map_eq_some_iff.mp hq
      rw [childEntry_frame]
      exact h.apart parent w r hr
    · obtain ⟨r, hr, rfl⟩ := Option.map_eq_some_iff.mp hq
      rw [parentEntry_frame]
      exact h.apart parent w r hr
    · exact h.apart j w q hq

/-- A right that the child has is one of the parent. -/
theorem mayWrite_of_childEntry {o : Option PageTableEntry}
    (h : mayWrite (o.map childEntry) = true) : mayWrite o = true := by
  cases o with
  | none => exact h
  | some p =>
    rw [Option.map_some, mayWrite_some, childEntry_isWritable, childEntry_isCow,
      Bool.false_or] at h
    rw [mayWrite_some, h, Bool.true_or]

theorem mayWrite_parentEntry (o : Option PageTableEntry) :
    mayWrite (o.map parentEntry) = mayWrite o := by
  cases o with
  | none => rfl
  | some p => exact (sameRights_parentEntry p).write

/-- The bytes of a page that was present before. -/
theorem Shows.kept_bytes (h : Shows exact kernelFrames s a) (hacc : Accounted held s)
    (hk : KeepsBytes s s') (hp : s.pte i v = some p) {o : Nat} (ho : o < pageSize) :
    a.bytes i (v.raw + o) = s'.memory (p.frame * pageSize + o) :=
  (h.bytes i v p hp o ho).trans (hk _ (hacc.refcount_pos hp) o ho).symm

theorem Shows.linked (h : Shows exact kernelFrames s a) (hs : Sound held kernelFrames s)
    (hne : parent ≠ child) (hl : Linking held parent child s s')
    (hpte : s'.pte = linkedPte s.pte parent child)
    (hunmarked : exact = true → NoMarkedPage parent s) :
    Shows exact kernelFrames s' (a.fork parent child) := by
  have hchild : ∀ w, s'.pte child w = (s.pte parent w).map childEntry := fun w => by
    rw [hpte, linkedPte, if_pos rfl]
  have hparent : ∀ w, s'.pte parent w = (s.pte parent w).map parentEntry := fun w => by
    rw [hpte, linkedPte, if_neg hne, if_pos rfl]
  refine ⟨h.numSpaces.trans hl.spaces.numSpaces.symm, fun j => (h.live j).trans (hl.spaces.live j).symm,
    fun j w => ?_, fun j w hw => ?_, fun he j w ha => ?_, fun j w q hq o ho => ?_,
    fun x hx => (h.kernel x hx).trans (hs.kernel_kept hl.bytes hx).symm⟩ <;>
    rcases eq_or_ne j child with rfl | hjc
  · rw [a.fork_pages_child, hchild, Option.isSome_map]
    exact h.present parent w
  · rw [a.fork_pages_of_ne hjc]
    rcases eq_or_ne j parent with rfl | hjp
    · rw [hparent, Option.isSome_map]
      exact h.present j w
    · rw [hl.other j hjp hjc]
      exact h.present j w
  · rw [hchild] at hw
    rw [a.fork_pages_child]
    exact h.granted parent w (mayWrite_of_childEntry hw)
  · rw [a.fork_pages_of_ne hjc]
    rcases eq_or_ne j parent with rfl | hjp
    · rw [hparent, mayWrite_parentEntry] at hw
      exact h.granted j w hw
    · rw [hl.other j hjp hjc] at hw
      exact h.granted j w hw
  · rw [a.fork_pages_child] at ha
    have hmay := h.denied he parent w ha
    rw [hchild]
    cases hp : s.pte parent w with
    | none => rw [hp] at hmay; cases hmay
    | some p =>
      rw [hp] at hmay
      rw [Option.map_some, (((sameRights_childEntry_iff (hs.user parent w p hp)).mpr
        (hunmarked he w p hp)).write), hmay]
  · rw [a.fork_pages_of_ne hjc] at ha
    rcases eq_or_ne j parent with rfl | hjp
    · rw [hparent, mayWrite_parentEntry]
      exact h.denied he j w ha
    · rw [hl.other j hjp hjc]
      exact h.denied he j w ha
  · rw [hchild] at hq
    obtain ⟨p, hp, rfl⟩ := Option.map_eq_some_iff.mp hq
    rw [a.fork_bytes_child, childEntry_frame]
    exact h.kept_bytes hs.accounted hl.bytes hp ho
  · rw [a.fork_bytes_of_ne hjc]
    rcases eq_or_ne j parent with rfl | hjp
    · rw [hparent] at hq
      obtain ⟨p, hp, rfl⟩ := Option.map_eq_some_iff.mp hq
      rw [parentEntry_frame]
      exact h.kept_bytes hs.accounted hl.bytes hp ho
    · rw [hl.other j hjp hjc] at hq
      exact h.kept_bytes hs.accounted hl.bytes hq ho

theorem fork_follows (h : Follow exact held kernelFrames s a)
    (henabled : memMachine.enabled (.linkUserPages parent child) s = true)
    (hunmarked : exact = true → NoMarkedPage parent s) :
    Tracks (Follow exact held kernelFrames) (linkUserPages parent child) (EM.fork parent child)
      s a := by
  obtain ⟨hne, hparent, hchild, hempty⟩ := linkUserPages_enabled henabled
  refine follows_ok rfl
    ((linkUserPages_wp h.sound.accounted hne hparent hchild hempty).mono ?_ (fun _ _ he => he.2))
  rintro _ s₁ ⟨hl, hpte⟩
  exact ⟨rfl, h.sound.linked hl hpte, h.shows.linked h.sound hne hl hpte hunmarked⟩

theorem newVmem_follows {β : Type} (r : β) (h : Follow exact held kernelFrames s a) :
    Tracks (Follow exact held kernelFrames) (newVmem >>= fun _ => pure r)
      (EM.newVmem >>= fun _ => (pure r : EM β)) s a := by
  refine follows_ok rfl ?_
  simp only [wp_bind, wp_pure]
  refine (newVmem_wp h.sound.accounted).mono ?_ (fun _ _ he => he.2)
  rintro i s₁ ⟨rfl, hacc, howners, hmem, hpte, ⟨d, hspaces⟩, hnum, -⟩
  have hiso : Isolated s₁ :=
    h.sound.isolated.effect (c := .newVmem) h.sound.accounted trivial (.quiet howners hpte)
  refine ⟨trivial, ⟨hacc, hiso, ?_, h.sound.owned, ?_⟩, ⟨?_, ?_, ?_, ?_, ?_, ?_, ?_⟩⟩
  · exact fun j w p hp => h.sound.user j w p (hpte ▸ hp)
  · exact fun j w p hp => h.sound.apart j w p (hpte ▸ hp)
  · exact (congrArg (· + 1) h.shows.numSpaces).trans hnum.symm
  · intro j
    change Function.update a.live a.numSpaces true j = _
    rw [hspaces, h.shows.numSpaces, Function.update_apply, Function.update_apply]
    split_ifs
    · rfl
    · exact h.shows.live j
  · exact fun j w => hpte ▸ h.shows.present j w
  · exact fun j w => hpte ▸ h.shows.granted j w
  · exact fun he j w => hpte ▸ h.shows.denied he j w
  · intro j w p hp o ho
    rw [hmem]
    exact h.shows.bytes j w p (hpte ▸ hp) o ho
  · intro x hx
    rw [hmem]
    exact h.shows.kernel x hx

end Pages

/-- The kernel writes to pages only that it may write to once they are resolved. Of forks and
user writes, either no marked page is forked or no user write goes to a page that is read-only
and unmarked. -/
def WritesPrivate (exact : Bool) : CopyCmd → MemState → Prop
  | .fork parent _, s => exact = true → NoMarkedPage parent s
  | .userWrite i addr _, s => exact = false → ∀ p, s.pte i (.alignDown addr) = some p →
      p.isWritable = true ∨ p.isCow = true
  | .copyToUser i dst _ size, s => KernelWritable i dst size s
  | .vmcopy _ _ j dst size, s => KernelWritable j dst size s
  | _, _ => True

/-- No frame allocation of the call fails. -/
def AllocationsSucceed (c : CopyCmd) (s : MemState) : Prop :=
  ∀ e t, c.exec s = .err e t → ¬OutOfMemory e

/-- Every call follows the same call on private pages. -/
theorem copyMachine_follows (c : CopyCmd) (h : Follow exact held kernelFrames s a)
    (henabled : (copyMachine kernelFrames).enabled c s = true) (hguard : WritesPrivate exact c s) :
    eagerMachine.enabled c a = true ∧
      Tracks (Follow exact held kernelFrames) ((copyMachine kernelFrames).exec c)
        (eagerMachine.exec c) s a := by
  have hdone : ∀ {x : MM Unit} {y : EM Unit},
      Tracks (Follow exact held kernelFrames) x y s a →
      Tracks (Follow exact held kernelFrames) (x >>= fun _ => pure [])
        (y >>= fun _ => (pure [] : EM (List UInt8))) s a :=
    fun hx => follows_bind (hx.mono (fun _ _ _ ht => follows_pure ht) fun _ _ ht => ht)
  cases c with
  | newVmem => exact ⟨rfl, newVmem_follows [] h⟩
  | fork parent child =>
    obtain ⟨hne, hparent, hchild, -⟩ := linkUserPages_enabled henabled
    refine ⟨?_, hdone (fork_follows h henabled hguard)⟩
    simp only [eagerMachine, CopyCmd.eagerEnabled, h.shows.live, hparent, hchild, Bool.and_true,
      bne_iff_ne]
    exact hne
  | unmap i v => exact ⟨(h.shows.live i).trans henabled, unmap_follows [] h henabled⟩
  | userRead i addr =>
    refine ⟨(h.shows.live i).trans henabled, ?_⟩
    exact follows_bind ((userRead_follows h).mono (fun _ _ _ ht => follows_pure ht) fun _ _ ht => ht)
  | userWrite i addr b =>
    exact ⟨(h.shows.live i).trans henabled, hdone (userWrite_follows h henabled hguard)⟩
  | copyToUser i dst src size =>
    obtain ⟨hi, hbuf⟩ := Bool.and_eq_true_iff.mp henabled
    exact ⟨(h.shows.live i).trans hi,
      hdone (copyToUser_follows h hi hguard (kernelRange_of_buffer hbuf))⟩
  | copyFromUser i dst src size =>
    obtain ⟨hi, hbuf⟩ := Bool.and_eq_true_iff.mp henabled
    have hr := kernelRange_of_buffer hbuf
    refine ⟨(h.shows.live i).trans hi,
      follows_bind ((copyFromUser_follows h hi hr).mono (fun _ t b ht => ?_) fun _ _ ht => ht)⟩
    refine follows_ok rfl ?_
    rw [wp_gets]
    refine ⟨List.map_congr_left fun k hk => ?_, ht⟩
    have hlt := List.mem_range.mp hk
    exact (ht.shows.kernel _ (hr _ (by omega) (by omega))).symm
  | vmcopy i src j dst size =>
    obtain ⟨hi, hj⟩ := Bool.and_eq_true_iff.mp henabled
    refine ⟨?_, hdone (vmcopy_follows h hi hj hguard)⟩
    simp only [eagerMachine, CopyCmd.eagerEnabled, h.shows.live, hi, hj, Bool.and_self]

/-- A run with guarded writes shows a trace of the machine whose forks copy every page. -/
theorem copyMachine_refines_eager (exact : Bool) {s₀ : MemState}
    {calls : List (CopyCmd × Option (List UInt8))} (h₀ : Sound held kernelFrames s₀)
    (hrun : (copyMachine kernelFrames).Trace
      (fun c s => WritesPrivate exact c s ∧ AllocationsSucceed c s) s₀ calls t) :
    ∃ b, eagerMachine.Trace (fun _ _ => True) s₀.eager calls b := by
  obtain ⟨b, hb, -⟩ := hrun.simulated OutOfMemory (Follow exact held kernelFrames)
    (fun c s hg => hg.2)
    (fun c s a hR henabled hg => copyMachine_follows c hR henabled hg.1)
    ⟨h₀, shows_eager exact kernelFrames s₀⟩
  exact ⟨b, hb⟩

/-- The check of the guard for runs without user writes to read-only unmarked pages. -/
def writesPrivate : CopyCmd → MemState → Bool
  | .userWrite i addr _, s => (s.pte i (.alignDown addr)).all fun p => p.isWritable || p.isCow
  | .copyToUser i dst _ size, s => kernelWritable i dst size s
  | .vmcopy _ _ j dst size, s => kernelWritable j dst size s
  | _, _ => true
where
  kernelWritable (i addr size : Nat) (s : MemState) : Bool :=
    (List.range size).all fun k => (s.pte i (.alignDown (addr + k))).all fun p =>
      p.isWritable || p.isCow || decide (s.frames.refcount p.frame ≤ 1)

def allocationsSucceed (c : CopyCmd) (s : MemState) : Bool :=
  match c.exec s with
  | .err e _ => decide (e.code ≠ .outOfMemory)
  | _ => true

theorem kernelWritable_of_check (h : writesPrivate.kernelWritable i addr size s = true) :
    KernelWritable i addr size s := by
  intro k hk p hp
  have hall := List.all_eq_true.mp h k (List.mem_range.mpr hk)
  rw [hp, Option.all_some] at hall
  simpa only [Bool.or_eq_true, decide_eq_true_eq, or_assoc] using hall

theorem writesPrivate_of_check {c : CopyCmd} (h : writesPrivate c s = true) :
    WritesPrivate false c s := by
  cases c with
  | fork parent child => exact fun hc => by cases hc
  | userWrite i addr b =>
    intro _ p hp
    rw [writesPrivate, hp, Option.all_some, Bool.or_eq_true] at h
    exact h
  | copyToUser i dst src size | vmcopy i src j dst size => exact kernelWritable_of_check h
  | _ => trivial

theorem allocationsSucceed_of_check {c : CopyCmd} (h : allocationsSucceed c s = true) :
    AllocationsSucceed c s := by
  intro e t hcall
  rw [allocationsSucceed, hcall, decide_eq_true_eq] at h
  exact h

/-- Three spaces, the first with a writable page and a read-only page after it. -/
def twoPageCommands : List MemCmd :=
  [.newVmem, .newVmem, .newVmem, .allocUpages 0 firstUserPage .RDWR true 1 [] 1,
    .allocUpages 0 firstUserPage.next .RDONLY true 1 [] 1]

/-- A memory that was set up without permission changes is sound. -/
theorem sound_of_reach {n : Nat} (hpos : 0 < n) (hn : n * pageSize ≤ usizeMax)
    (h : memMachine.Reach WriteUnshared (.boot n) s) : Sound [] [] s := by
  have hstart : Isolated (.boot n) ∧ Entries (fun p => p.isUser = true) (.boot n) :=
    ⟨fun _ _ _ hp => (nomatch hp), entries_boot n⟩
  obtain ⟨hacc, hiso, huser⟩ := memMachine_invariant
    (I := fun t => Isolated t ∧ Entries (fun p => p.isUser = true) t) (accounted_boot hpos hn) hstart
    (fun c t t' hacc hI hguard he =>
      ⟨hI.1.effect hacc hguard he, hI.2.effect entryStable_isUser he⟩) h
  exact ⟨hacc, hiso, huser, fun _ hf => hf, fun _ _ _ _ hf => absurd hf List.not_mem_nil⟩

theorem twoPageCommands_guarded : ∀ c ∈ twoPageCommands, ∀ t, WriteUnshared c t := by
  intro c hc t
  simp only [twoPageCommands, List.mem_cons, List.not_mem_nil, or_false] at hc
  rcases hc with rfl | rfl | rfl | rfl | rfl <;> trivial

/-- Parent and child write the same page after a fork, a grandchild is forked from the parent,
and each reads what it wrote or was given. -/
def forkedCalls : List CopyCmd :=
  [.userWrite 0 userBase 7, .fork 0 1, .userWrite 1 userBase 8, .userRead 0 userBase,
    .userRead 1 userBase, .vmcopy 1 userBase 0 (userBase + 1) 1, .userRead 0 (userBase + 1),
    .userRead 1 (userBase + 1), .fork 0 2, .unmap 0 firstUserPage, .userRead 2 userBase]

/-- The child read its own byte, and the parent the byte it was sent. -/
def readBack (p : List (CopyCmd × Option (List UInt8)) × MemState) : Bool :=
  decide ((CopyCmd.userRead 1 userBase, some [8]) ∈ p.1 ∧
    (CopyCmd.userRead 0 (userBase + 1), some [8]) ∈ p.1)

theorem copyMachine_refines_eager_forks : ∃ s₀ calls t, Sound [] [] s₀ ∧
    (copyMachine []).Trace (fun c s => WritesPrivate false c s ∧ AllocationsSucceed c s) s₀ calls t ∧
    (CopyCmd.userRead 1 userBase, some [8]) ∈ calls ∧
    (CopyCmd.userRead 0 (userBase + 1), some [8]) ∈ calls ∧
    ∃ b, eagerMachine.Trace (fun _ _ => True) s₀.eager calls b := by
  obtain ⟨s₀, hrun, ⟨calls, t⟩, hreplay, hreads⟩ :
      ∃ s ∈ memMachine.run twoPageCommands (.boot 128), ∃ p ∈ (copyMachine []).replay
        (fun c s => writesPrivate c s && allocationsSucceed c s) forkedCalls s,
          readBack p = true := by decide +kernel
  obtain ⟨hone, htwo⟩ := of_decide_eq_true hreads
  have hsound := sound_of_reach (by decide) (by decide)
    (Machine.Reach.start.of_run twoPageCommands_guarded hrun)
  have htrace : (copyMachine []).Trace
      (fun c s => WritesPrivate false c s ∧ AllocationsSucceed c s) s₀ calls t := by
    refine .of_replay (fun c s hc => ?_) hreplay
    obtain ⟨hw, ha⟩ := Bool.and_eq_true_iff.mp hc
    exact ⟨writesPrivate_of_check hw, allocationsSucceed_of_check ha⟩
  exact ⟨s₀, calls, t, hsound, htrace, hone, htwo, copyMachine_refines_eager false hsound htrace⟩

/-- The calls run on shared frames without a trace on private pages. -/
def Diverges (cs : List CopyCmd) : Prop :=
  ∃ s₀ calls t, Sound [] [] s₀ ∧ calls.map Prod.fst = cs ∧
    (copyMachine []).Trace AllocationsSucceed s₀ calls t ∧
    ¬∃ b, eagerMachine.Trace (fun _ _ => True) s₀.eager calls b

/-- A check that the calls return something else on private pages. -/
def divergesFrom (cs : List CopyCmd) (s : MemState) : Bool :=
  ((copyMachine []).replay allocationsSucceed cs s).any fun p =>
    !((eagerMachine.replay (fun _ _ => true) cs s.eager).any fun q => decide (q.1 = p.1))

theorem diverges_of_check {cs : List CopyCmd}
    (h : ∃ s ∈ memMachine.run twoPageCommands (.boot 128), divergesFrom cs s = true) :
    Diverges cs := by
  obtain ⟨s₀, hrun, htest⟩ := h
  have hs₀ := Machine.Reach.start.of_run twoPageCommands_guarded hrun
  rw [divergesFrom, Option.any_eq_true] at htest
  obtain ⟨⟨calls, t⟩, hreplay, hdiff⟩ := htest
  have hcalls := Machine.replay_calls hreplay
  refine ⟨s₀, calls, t, sound_of_reach (by decide) (by decide) hs₀, hcalls,
    .of_replay (fun c s hc => allocationsSucceed_of_check hc) hreplay, ?_⟩
  rintro ⟨b, hb⟩
  have heager := hb.replay
  rw [hcalls] at heager
  rw [heager, Option.any_some, decide_eq_true rfl] at hdiff
  cases hdiff

/-- The kernel writes to a shared read-only page of the parent, and the child reads the new
byte. A second fork of a page gives a child whose write fails. -/
theorem eager_divergence :
    Diverges [.userWrite 0 userBase 7, .fork 0 1,
      .vmcopy 0 userBase 0 firstUserPage.next.raw 1, .userRead 1 firstUserPage.next.raw] ∧
    Diverges [.fork 0 1, .fork 0 2, .userWrite 2 userBase 9, .userRead 2 userBase] :=
  ⟨diverges_of_check (by decide +kernel), diverges_of_check (by decide +kernel)⟩

end Nanvix.Mm
