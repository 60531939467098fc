import Nanvix.Library.Machine
import Nanvix.Mm.Frame

/-!
# Runs of the frame allocator

The allocator from its initialisation on, with all its operations. Every state of a
run is `Valid`; an operation that fails changes nothing, one that succeeds hands out
frames without an owner, and only freeing takes a frame's last owner away.

## Implementation notes

A region is given by its first frame and the number of its frames.
-/
namespace Nanvix.Mm
open Library Library.Prog

def Bitmap.set (b : Bitmap) (index : Nat) : Except Error Bitmap :=
  match b.test index with
  | .error e => .error e
  | .ok true => .error ⟨.resourceBusy, "bit is already set"⟩
  | .ok false =>
    .ok { b with bits := fun i => decide (i = index) || b.bits i, usage := b.usage + 1 }

namespace FrameAllocator

/-- `init`, with the length of the table of counters. -/
def init (nframes : Nat) (bitmap : Bitmap) : Except Error FrameAllocator :=
  if nframes < bitmap.numberOfBits then
    .error ⟨.invalidArgument, "frame bitmap is larger than the configured refcount storage"⟩
  else .ok ⟨bitmap, fun i => if i < bitmap.numberOfBits ∧ bitmap.bits i then 1 else 0, nframes⟩

def book (frame : Nat) : Prog FrameAllocator Error Unit := do
  let bitmap ← ofExcept ((← gets fun a => a.bitmap).set frame)
  setBitmap bitmap
  if (← gets fun a => a.refcount frame) ≠ 0 then abort "debug_assert_eq!(refcount, 0)"
  setRefcount frame 1

def checkFree (index : Nat) : Prog FrameAllocator Error Unit := do
  let b ← gets fun a => a.bitmap
  if b.numberOfBits ≤ index then
    throw ⟨.invalidArgument, "frame index not covered by the bitmap"⟩
  else if ← ofExcept (b.test index) then throw ⟨.outOfMemory, "frame is already allocated"⟩
  else pure ()

def allocRange (start count : Nat) : Prog FrameAllocator Error Unit := do
  forEach checkFree (List.range' start count)
  forEach book (List.range' start count)

end FrameAllocator

inductive FrameCmd where
  | alloc
  | allocContiguous (count : Nat)
  | allocRange (start count : Nat)
  | book (frame : Nat)
  | share (frame : Nat)
  | free (frame : Nat)

open FrameAllocator

/-- The operation, with the frames it hands out. -/
def FrameCmd.exec : FrameCmd → Prog FrameAllocator Error (List Nat)
  | alloc => return [← FrameAllocator.alloc]
  | allocContiguous count => return List.range' (← FrameAllocator.allocContiguous count) count
  | allocRange start count => do
    FrameAllocator.allocRange start count
    return List.range' start count
  | book frame => do
    FrameAllocator.book frame
    return [frame]
  | share frame => do
    FrameAllocator.share frame
    return []
  | free frame => do
    FrameAllocator.free frame
    return []

def frameMachine : Machine FrameAllocator Error FrameCmd (List Nat) :=
  ⟨fun _ _ => true, FrameCmd.exec⟩

/-- The operation takes the last owner of a frame away. -/
def FrameCmd.Drops (f : Nat) (c : FrameCmd) (a : FrameAllocator) : Prop :=
  c = .free f ∧ a.refcount f = 1

/-- Frames without an owner are handed out, and no other frame loses its last one. -/
structure FrameCmd.Hands (c : FrameCmd) (out : List Nat) (a a' : FrameAllocator) : Prop where
  valid : a'.Valid
  fresh : ∀ f ∈ out, a.refcount f = 0 ∧ 0 < a'.refcount f
  keeps : ∀ f, 0 < a.refcount f → ¬c.Drops f a → 0 < a'.refcount f

section
variable {a a' : FrameAllocator} {f start count : Nat} {c : FrameCmd}

theorem FrameCmd.hands_took (hvalid : a'.Valid)
    (hfree : ∀ g, start ≤ g → g < start + count → a.refcount g = 0)
    (hcount : a'.refcount = tookRange a.refcount start count) :
    c.Hands (List.range' start count) a a' where
  valid := hvalid
  fresh g hg := by
    obtain ⟨hlo, hhi⟩ := List.mem_range'_1.mp hg
    rw [hcount, tookRange, if_pos ⟨hlo, hhi⟩]
    exact ⟨hfree g hlo hhi, Nat.one_pos⟩
  keeps g hg _ := by
    rw [hcount, tookRange]
    split_ifs
    · exact Nat.one_pos
    · exact hg

theorem FrameCmd.hands_recounted {n : Nat} (hvalid : a'.Valid)
    (hcount : a'.refcount = Function.update a.refcount f n)
    (hn : 0 < a.refcount f → ¬c.Drops f a → 0 < n) : c.Hands [] a a' where
  valid := hvalid
  fresh _ hg := absurd hg List.not_mem_nil
  keeps g hg hdrops := by
    rw [hcount, Function.update_apply]
    split_ifs with hgf
    · subst hgf
      exact hn hg hdrops
    · exact hg

variable (h : a.Valid)
include h

theorem FrameAllocator.book_wp (f : Nat) :
    wp (book f)
      (fun _ a' => a.Evolves a' ∧ a.refcount f = 0 ∧ a'.refcount = Function.update a.refcount f 1)
      (fun _ a' => a' = a ∧ ¬(f < a.bitmap.numberOfBits ∧ a.refcount f = 0)) a := by
  simp only [book, wp_bind, wp_gets, Bitmap.set, Bitmap.test]
  split_ifs with hle
  · rw [wp_ofExcept_error]
    exact ⟨rfl, fun hf => Nat.not_lt.mpr hle hf.1⟩
  cases hbit : a.bitmap.bits f with
  | true =>
    rw [wp_ofExcept_error]
    exact ⟨rfl, fun hf => Nat.ne_of_gt ((h.bit_iff f).mp hbit) hf.2⟩
  | false =>
    have hzero : a.refcount f = 0 := by
      by_contra hne
      rw [(h.bit_iff f).mpr (Nat.pos_of_ne_zero hne)] at hbit
      cases hbit
    simp only [wp_ofExcept_ok, setBitmap, setRefcount, wp_modify, wp_ite, hzero, ne_eq,
      not_true_eq_false, if_false]
    refine ⟨⟨?_, rfl⟩, trivial, trivial⟩
    have hfree : ∀ i, f ≤ i → i < f + 1 → a.bitmap.bits i = false := by
      intro i hlo hhi
      obtain rfl : i = f := by omega
      exact hbit
    have hbits : (fun i => decide (i = f) || a.bitmap.bits i) =
        fun i => (decide (f ≤ i) && decide (i < f + 1)) || a.bitmap.bits i := by
      funext i
      rw [← Bool.decide_and, decide_eq_decide.mpr (show i = f ↔ f ≤ i ∧ i < f + 1 by omega)]
    have hvalid := h.occupy (Nat.not_le.mp hle) hfree a.bitmap.nextFree
    rwa [← tookRange_succ, Nat.add_zero, tookRange_zero, ← hbits] at hvalid

/-- A region is taken as a whole, or not at all. -/
theorem FrameAllocator.allocRange_wp (start count : Nat) :
    wp (FrameAllocator.allocRange start count)
      (fun _ a' => a'.Valid ∧ (∀ g, start ≤ g → g < start + count → a.refcount g = 0) ∧
        a'.refcount = tookRange a.refcount start count) (fun _ a' => a' = a) a := by
  unfold FrameAllocator.allocRange
  rw [wp_bind]
  refine (wp_forEach_range' (fun k a' => a' = a ∧ ∀ g, start ≤ g → g < start + k →
    g < a.bitmap.numberOfBits ∧ a.refcount g = 0) start count ?_ ⟨rfl, by omega⟩).imp ?_
  · rintro k a - ⟨rfl, hfree⟩
    simp only [checkFree, wp_bind, wp_gets, wp_ite, wp_throw, Bitmap.test]
    split_ifs with hle
    rw [wp_ofExcept_ok]
    split_ifs with hbit
    · rfl
    rw [wp_pure]
    refine ⟨rfl, fun g hlo hhi => ?_⟩
    by_cases hg : g = start + k
    · subst hg
      rw [h.bit_iff] at hbit
      exact ⟨Nat.not_le.mp hle, Nat.eq_zero_of_not_pos hbit⟩
    · exact hfree g hlo (by omega)
  · rintro _ a ⟨rfl, hfree⟩
    refine (wp_forEach_range' (E := fun _ _ => False) (fun k a' => a.Evolves a' ∧
      a'.refcount = tookRange a.refcount start k) start count ?_
      ⟨⟨h, rfl⟩, (tookRange_zero _ _).symm⟩).total ?_
    · rintro k a₁ hk ⟨⟨hvalid, hcapacity⟩, hcount⟩
      obtain ⟨hlt, hzero⟩ := hfree (start + k) (Nat.le_add_right _ _) (by omega)
      have hnew : a₁.refcount (start + k) = 0 := by
        rw [hcount, tookRange, if_neg (by omega), hzero]
      refine (book_wp hvalid (start + k)).mono ?_ ?_
      · rintro _ a₂ ⟨hev, -, hcount'⟩
        refine ⟨⟨hev.valid, hev.capacity.trans hcapacity⟩, ?_⟩
        rw [hcount', hcount, tookRange_succ]
      · rintro _ _ ⟨-, hnot⟩
        exact hnot ⟨Nat.lt_of_lt_of_eq hlt hcapacity.symm, hnew⟩
    · rintro _ a' ⟨hev, hcount⟩
      exact ⟨hev.valid, fun g hlo hhi => (hfree g hlo hhi).2, hcount⟩

theorem FrameCmd.exec_wp (c : FrameCmd) :
    wp c.exec (fun out a' => c.Hands out a a') (fun _ a' => a' = a) a := by
  have hone (f : Nat) : Function.update a.refcount f 1 = tookRange a.refcount f 1 := by
    rw [← tookRange_succ, Nat.add_zero, tookRange_zero]
  have hsame (f g : Nat) (hzero : a.refcount f = 0) (hlo : f ≤ g) (hhi : g < f + 1) :
      a.refcount g = 0 := by
    obtain rfl : g = f := by omega
    exact hzero
  cases c with
  | alloc =>
    simp only [exec, wp_bind, wp_pure]
    refine (alloc_wp h).mono ?_ fun _ _ he => he.1
    rintro f a' ⟨hev, hzero, hcount⟩
    exact hands_took hev.valid (fun g => hsame f g hzero) (hcount.trans (hone f))
  | allocContiguous count =>
    simp only [exec, wp_bind, wp_pure]
    refine (allocContiguous_wp h count).mono ?_ fun _ _ he => he.1
    rintro f a' ⟨hev, hzero, hcount⟩
    exact hands_took hev.valid hzero hcount
  | allocRange start count =>
    simp only [exec, wp_bind, wp_pure]
    refine (FrameAllocator.allocRange_wp h start count).imp ?_
    rintro _ a' ⟨hvalid, hzero, hcount⟩
    exact hands_took hvalid hzero hcount
  | book f =>
    simp only [exec, wp_bind, wp_pure]
    refine (book_wp h f).mono ?_ fun _ _ he => he.1
    rintro _ a' ⟨hev, hzero, hcount⟩
    exact hands_took hev.valid (fun g => hsame f g hzero) (hcount.trans (hone f))
  | share f =>
    simp only [exec, wp_bind, wp_pure]
    by_cases hf : 0 < a.refcount f
    · refine (share_wp h hf).mono ?_ fun _ _ he => he.1
      rintro _ a' ⟨hev, hcount, -⟩
      exact hands_recounted hev.valid hcount fun _ _ => Nat.succ_pos _
    · simp only [FrameAllocator.share, wp_bind, wp_gets, wp_ite, wp_throw, id_eq,
        if_pos (Nat.eq_zero_of_not_pos hf), ite_self]
  | free f =>
    simp only [exec, wp_bind, wp_pure]
    by_cases hf : 0 < a.refcount f
    · refine (free_wp h hf).total ?_
      rintro _ a' ⟨hev, hcount⟩
      refine hands_recounted hev.valid hcount fun hpos hdrops => ?_
      have hne : a.refcount f ≠ 1 := fun hlast => hdrops ⟨rfl, hlast⟩
      omega
    · simp only [FrameAllocator.free, wp_bind, wp_gets, wp_ite, wp_throw, id_eq,
        if_pos (Nat.eq_zero_of_not_pos hf), ite_self]

end

section Runs
variable {nframes : Nat} {bitmap : Bitmap} {a₀ a : FrameAllocator}

theorem FrameAllocator.valid_init (hpos : 0 < bitmap.numberOfBits)
    (haddr : nframes * Config.pageSize ≤ Config.usizeMax)
    (hbits : ∀ f, bitmap.bits f → f < bitmap.numberOfBits)
    (husage : bitmap.usage = bitmap.taken.card) (h : init nframes bitmap = .ok a₀) : a₀.Valid := by
  unfold init at h
  split_ifs at h with hlt
  cases h
  have hle := Nat.not_lt.mp hlt
  refine ⟨hpos, Nat.le_trans (Nat.mul_le_mul_right _ hle) haddr, hle, fun f => ?_, fun f hf => ?_,
    fun f => ?_, husage⟩
  · dsimp only
    split_ifs with hf
    · exact iff_of_true hf.2 Nat.one_pos
    · exact iff_of_false (fun hbit => hf ⟨hbits f hbit, hbit⟩) (Nat.lt_irrefl 0)
  · dsimp only at hf
    split_ifs at hf with hbit
    · exact hbit.1
    · exact absurd hf (Nat.lt_irrefl 0)
  · dsimp only
    split_ifs <;> omega

/-- In every run bits and counters agree, failing operations change nothing, and a frame is not
handed out again before its last owner is gone. -/
theorem frames_consistent (hpos : 0 < bitmap.numberOfBits)
    (haddr : nframes * Config.pageSize ≤ Config.usizeMax)
    (hbits : ∀ f, bitmap.bits f → f < bitmap.numberOfBits)
    (husage : bitmap.usage = bitmap.taken.card) (hinit : init nframes bitmap = .ok a₀)
    (h : frameMachine.Reach (fun _ _ => True) a₀ a) :
    (∀ f, a.bitmap.bits f = true ↔ 1 ≤ a.refcount f) ∧
      a.freeCount =
        ((Finset.range a.bitmap.numberOfBits).filter fun f => a.refcount f = 0).card ∧
      (∀ (c : FrameCmd) e a', c.exec a = .err e a' → a' = a) ∧
      ∀ (c : FrameCmd) out a₁, c.exec a = .ok out a₁ → ∀ f ∈ out, ∀ a₂,
        frameMachine.Reach (fun d b => ¬d.Drops f b) a₁ a₂ →
        ∀ (d : FrameCmd) out' a₃, d.exec a₂ = .ok out' a₃ → f ∉ out' := by
  have hkeep : ∀ (c : FrameCmd) (b : FrameAllocator), b.Valid →
      wp c.exec (fun _ b' => b'.Valid) (fun _ b' => b'.Valid) b := fun c b hb =>
    (c.exec_wp hb).mono (fun _ _ hb' => hb'.valid) fun _ _ he => he ▸ hb
  have hvalid : a.Valid := h.invariant (valid_init hpos haddr hbits husage hinit)
    fun c b hb _ _ => hkeep c b hb
  refine ⟨hvalid.bit_iff, hvalid.freeCount_eq, fun c e a' he => (c.exec_wp hvalid).of_err he, ?_⟩
  intro c out a₁ hc f hf a₂ hreach d out' a₃ hd hf'
  have hgiven := (c.exec_wp hvalid).of_ok hc
  have howned : a₂.Valid ∧ 0 < a₂.refcount f := by
    refine hreach.invariant (I := fun b => b.Valid ∧ 0 < b.refcount f)
      ⟨hgiven.valid, (hgiven.fresh f hf).2⟩ ?_
    rintro e b ⟨hb, hpos⟩ - hdrops
    exact (e.exec_wp hb).mono (fun _ _ hb' => ⟨hb'.valid, hb'.keeps f hpos hdrops⟩)
      fun _ _ he => he ▸ ⟨hb, hpos⟩
  have hfresh := (((d.exec_wp howned.1).of_ok hd).fresh f hf').1
  exact Nat.ne_of_gt howned.2 hfresh

/-- Eight frames, all of them free. -/
def eightFree : Bitmap := ⟨8, 0, fun _ => false, 0⟩

theorem frames_consistent_of_share : ∃ a₀ a, init 8 eightFree = .ok a₀ ∧
    frameMachine.Reach (fun _ _ => True) a₀ a ∧ a.refcount 0 = 2 ∧
    ∀ f, a.bitmap.bits f = true ↔ 1 ≤ a.refcount f := by
  obtain ⟨a, hreach, htwo⟩ := frameMachine.exists_reach
    ⟨eightFree, fun i => if i < 8 ∧ eightFree.bits i then 1 else 0, 8⟩ [.alloc, .share 0]
    (fun a => a.refcount 0 = 2) (by decide +kernel)
  have hinit : init 8 eightFree = .ok _ := rfl
  exact ⟨_, a, hinit, hreach, htwo, (frames_consistent (by decide) (by decide)
    (fun f hf => absurd hf Bool.false_ne_true) rfl hinit hreach).1⟩

end Runs

end Nanvix.Mm
