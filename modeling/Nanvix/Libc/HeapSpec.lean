import Mathlib.Data.List.Nodup
import Mathlib.Data.List.Pairwise
import Nanvix.Libc.BlockHeader

/-!
# What the calls of the C heap do

A live block is a pointer that was handed out and not freed, with the size and
the alignment that were asked for and the block of the underlying allocator that
it lies in. `Placed` says where a live block lies: its header stands right before
the pointer, header and user area lie in the underlying block, and the header in
memory has the fields the block was made with. `Sound` says this of all live
blocks, which lie in different underlying blocks.

Each call is described by what it does to the blocks of the underlying allocator
and by the blocks in which it leaves the memory alone.
-/
namespace Nanvix.Libc

open Library Library.Prog Memory

section Invariant

/-- A pointer that was handed out, with what was asked for and the block it lies in. -/
structure Live where
  ptr : Nat
  size : Nat
  alignment : Nat
  block : Block
deriving DecidableEq

/-- The bytes that the caller may use. -/
def Live.User (b : Live) (x : Nat) : Prop := b.ptr ≤ x ∧ x < b.ptr + b.size

instance (b : Live) (x : Nat) : Decidable (b.User x) := inferInstanceAs (Decidable (_ ∧ _))

/-- The bytes of the header. -/
def Live.Header (b : Live) (x : Nat) : Prop :=
  getMutPtr b.ptr ≤ x ∧ x < getMutPtr b.ptr + blockHeaderSize

/-- No address lies in both blocks. -/
def Block.Apart (B C : Block) : Prop := ∀ x, B.Holds x → ¬C.Holds x

/-- A block as the underlying allocator hands it out. -/
structure Granted (B : Block) : Prop where
  align : B.align = underlyingAlignment
  base_dvd : underlyingAlignment ∣ B.base
  size_dvd : underlyingAlignment ∣ B.size
  lower : userMmapBase ≤ B.base
  upper : B.base + B.size ≤ userMmapEnd
  layout : layoutFits B.size

/-- Where a live block lies. -/
structure Placed (h : Heap) (b : Live) : Prop where
  header : readHeader h.mem (getMutPtr b.ptr) =
    ⟨b.block.base, b.block.size, b.size, b.alignment⟩
  power : isPowerOfTwo b.alignment
  alignment_le : b.alignment ≤ maxAlignment
  aligned : b.alignment ∣ b.ptr
  word : blockHeaderAlignment ∣ b.ptr
  pos : 0 < b.size
  start : b.block.base + blockHeaderSize ≤ b.ptr
  fits : b.ptr + b.size ≤ b.block.base + b.block.size
  block : b.block ∈ h.blocks

structure Sound (h : Heap) (live : List Live) : Prop where
  granted : ∀ B ∈ h.blocks, Granted B
  apart : h.blocks.Pairwise Block.Apart
  placed : ∀ b ∈ live, Placed h b
  distinct : (live.map Live.block).Nodup

/-- The underlying allocator answers with aligned blocks inside the region for mappings, apart
from what it has handed out. -/
def Oracle.Lawful (oracle : Oracle) (blocks : List Block) : Prop :=
  ∀ size base, oracle.answer size = some base → underlyingAlignment ∣ base ∧
    userMmapBase ≤ base ∧ base + size ≤ userMmapEnd ∧
    ∀ B ∈ blocks, Block.Apart ⟨base, size, underlyingAlignment⟩ B

/-- The memory of these blocks is as before. -/
def Untouched (blocks : List Block) (h h' : Heap) : Prop :=
  ∀ B ∈ blocks, AgreeOn B.Holds h'.mem h.mem

end Invariant

section Placement

variable {h h' : Heap} {live : List Live} {b c : Live} {x : Nat}

section
variable (hb : Placed h b)
include hb

theorem Placed.getMutPtr_eq : getMutPtr b.ptr = b.ptr - blockHeaderSize :=
  Libc.getMutPtr_eq hb.word

/-- The header lies in the underlying block. -/
theorem Placed.holds_header (hx : b.Header x) : b.block.Holds x := by
  obtain ⟨hlow, hhigh⟩ := hx
  have hstart := hb.start
  have hfits := hb.fits
  rw [hb.getMutPtr_eq] at hlow hhigh
  constructor <;> omega

/-- The user area lies in the underlying block. -/
theorem Placed.holds_user (hx : b.User x) : b.block.Holds x := by
  obtain ⟨hlow, hhigh⟩ := hx
  have hstart := hb.start
  have hfits := hb.fits
  constructor <;> omega

/-- The header lies before the user area. -/
theorem Placed.not_user_of_header (hx : b.Header x) : ¬b.User x := by
  rintro ⟨hlow, -⟩
  have hhigh := hx.2
  have hstart := hb.start
  rw [hb.getMutPtr_eq] at hhigh
  omega

/-- A live block stays where it is when its header does. -/
theorem Placed.of_header (hblock : b.block ∈ h'.blocks)
    (hmem : AgreeOn b.Header h'.mem h.mem) : Placed h' b := by
  refine ⟨?_, hb.power, hb.alignment_le, hb.aligned, hb.word, hb.pos, hb.start, hb.fits, hblock⟩
  rw [← hb.header]
  exact readHeader_congr hmem

theorem Placed.of_agree (hblock : b.block ∈ h'.blocks)
    (hmem : AgreeOn b.block.Holds h'.mem h.mem) : Placed h' b :=
  hb.of_header hblock (hmem.mono fun _ hx => hb.holds_header hx)

end

instance : Std.Symm Block.Apart := ⟨fun _ _ happart x hx hx' => happart x hx' hx⟩

/-- Live blocks that are not one lie in underlying blocks apart. -/
theorem Sound.apart_of_ne (hs : Sound h live) (hb : b ∈ live) (hc : c ∈ live) (hne : b ≠ c) :
    b.block.Apart c.block := by
  refine hs.apart.forall (hs.placed b hb).block (hs.placed c hc).block fun heq => hne ?_
  exact List.inj_on_of_nodup_map hs.distinct hb hc heq

/-- A pointer belongs to one live block. -/
theorem Sound.eq_of_ptr (hs : Sound h live) (hb : b ∈ live) (hc : c ∈ live)
    (hptr : b.ptr = c.ptr) : b = c := by
  by_contra hne
  have hbp := hs.placed b hb
  have hcp := hs.placed c hc
  have hpos := hbp.pos
  have hpos' := hcp.pos
  refine hs.apart_of_ne hb hc hne b.ptr (hbp.holds_user ⟨Nat.le_refl _, by omega⟩) ?_
  exact hcp.holds_user ⟨Nat.le_of_eq hptr.symm, by omega⟩

theorem Sound.nodup (hs : Sound h live) : live.Nodup := hs.distinct.of_map _

end Placement

section Underlying

variable {h : Heap} {oracle : Oracle} {B : Block}

/-- The underlying allocator leaves alone what it has handed out. -/
theorem scribble_untouched (h : Heap) (noise : Memory) (hB : B ∈ h.blocks) :
    AgreeOn B.Holds (h.scribble noise) h.mem := by
  intro x hx
  unfold Heap.scribble
  exact if_pos ⟨B, hB, hx⟩

theorem underlyingAlloc_wp (oracle : Oracle) (size align : Nat) (h : Heap) :
    wp (underlyingAlloc oracle size align)
      (fun r h' => r = oracle.answer size ∧ h'.released = h.released ∧
        Untouched h.blocks h h' ∧
        h'.blocks = (r.map fun base => ⟨base, size, align⟩).toList ++ h.blocks)
      (fun _ _ => False) h := by
  have hsame : Untouched h.blocks h { h with mem := h.scribble oracle.noise } := fun _ hB =>
    scribble_untouched h oracle.noise hB
  unfold underlyingAlloc
  rw [wp_bind, wp_modify]
  cases hanswer : oracle.answer size with
  | none => exact (wp_pure _).mpr ⟨rfl, rfl, hsame, rfl⟩
  | some base =>
    rw [wp_bind, wp_modify, wp_pure]
    exact ⟨rfl, rfl, hsame, rfl⟩

theorem underlyingDealloc_wp (oracle : Oracle) (hB : B ∈ h.blocks) :
    wp (underlyingDealloc oracle B)
      (fun _ h' => h'.blocks = h.blocks.erase B ∧ h'.released = B :: h.released ∧
        Untouched h'.blocks h h')
      (fun _ _ => False) h := by
  unfold underlyingDealloc
  rw [wp_bind, wp_gets, id, if_pos hB, wp_bind, wp_modify, wp_modify]
  exact ⟨rfl, rfl, fun C hC => scribble_untouched (B := C) _ oracle.noise hC⟩

end Underlying

section Calls

variable {h : Heap} {live : List Live} {oracle : Oracle} {b : Live} {size : Nat}
variable {alignment : Option Nat}

/-- What an allocation does: nothing to the blocks there are, and a new one if it succeeds. -/
structure Allocated (h : Heap) (size alignment : Nat) (r : Option Nat) (h' : Heap) : Prop where
  released : h'.released = h.released
  untouched : Untouched h.blocks h h'
  failed : r = none → h'.blocks = h.blocks
  placed : ∀ p, r = some p → ∃ B, h'.blocks = B :: h.blocks ∧ Granted B ∧
    (∀ C ∈ h.blocks, B.Apart C) ∧ Placed h' ⟨p, size, alignment, B⟩

theorem Allocated.of_failed {size alignment : Nat} {h' : Heap} (hblocks : h'.blocks = h.blocks)
    (hreleased : h'.released = h.released) (huntouched : Untouched h.blocks h h') :
    Allocated h size alignment none h' :=
  ⟨hreleased, huntouched, fun _ => hblocks, fun _ hp => absurd hp.symm (Option.some_ne_none _)⟩

theorem Untouched.refl (blocks : List Block) (h : Heap) : Untouched blocks h h :=
  fun _ _ => AgreeOn.refl _ _

/-- The header and the user area of a new block lie in the block that was asked for. -/
theorem placed_write (h : Heap) {base n size alignment : Nat} (hbase : underlyingAlignment ∣ base)
    (hupper : base + n ≤ userMmapEnd) (hpow : isPowerOfTwo alignment)
    (hle : alignment ≤ maxAlignment) (hsize : 0 < size)
    (hn : size + blockHeaderSize + (alignment - 1) ≤ n)
    (hblock : ⟨base, n, underlyingAlignment⟩ ∈ h.blocks) :
    Placed { h with
        mem := writeHeader h.mem (getMutPtr (userPtrOf base alignment)) ⟨base, n, size, alignment⟩ }
      ⟨userPtrOf base alignment, size, alignment, ⟨base, n, underlyingAlignment⟩⟩ := by
  have hpos := pos_of_isPowerOfTwo hpow
  obtain ⟨hlow, hhigh⟩ := userPtrOf_bounds base hpos
  have hsmall : userMmapEnd < 2 ^ 32 := by decide
  have hmax : maxAlignment < 2 ^ 32 := by decide
  refine ⟨readHeader_writeHeader ⟨?_, ?_, ?_, ?_⟩, hpow, hle, dvd_userPtrOf hpos,
    word_dvd_userPtrOf hbase hpow, hsize, hlow, ?_, hblock⟩
  all_goals dsimp only; omega

theorem alloc_wp (oracle : Oracle) (hlawful : oracle.Lawful h.blocks) (hsize : 0 < size)
    (halignment : alignment ≠ some 0) :
    wp (alloc oracle size alignment)
      (fun r h' => Allocated h size (alignment.getD 1) r h') (fun _ _ => False) h := by
  have hfailed : Allocated h size (alignment.getD 1) none h :=
    .of_failed rfl rfl (Untouched.refl _ _)
  unfold alloc
  rw [if_neg (Nat.pos_iff_ne_zero.mp hsize), if_neg halignment]
  dsimp only
  generalize alignment.getD 1 = al at hfailed ⊢
  split_ifs with hinvalid
  · exact (wp_pure _).mpr hfailed
  rw [Bool.or_eq_true, not_or, Bool.not_eq_true', Bool.not_eq_false, decide_eq_true_iff,
    Nat.not_lt] at hinvalid
  obtain ⟨hpow, hle⟩ := hinvalid
  cases hn : allocSizeOf size al with
  | none => exact (wp_pure _).mpr hfailed
  | some n =>
    dsimp only
    split_ifs with hlayout
    · exact (wp_pure _).mpr hfailed
    rw [Bool.not_eq_true', Bool.not_eq_false] at hlayout
    obtain ⟨hroom, hdvd, -⟩ := allocSizeOf_spec hn
    rw [wp_bind]
    refine (underlyingAlloc_wp oracle n underlyingAlignment h).imp ?_
    rintro r h₁ ⟨hr, hreleased, huntouched, hblocks⟩
    cases r with
    | none => exact (wp_pure _).mpr (.of_failed hblocks hreleased huntouched)
    | some base =>
      obtain ⟨hbase, hlower, hupper, hapart⟩ := hlawful n base hr.symm
      dsimp only
      rw [wp_bind, BlockHeader.write, wp_bind, wp_modify, wp_pure, wp_pure]
      have hblock : ⟨base, n, underlyingAlignment⟩ ∈ h₁.blocks := by
        rw [hblocks]
        exact List.mem_cons_self
      have hplaced := placed_write h₁ hbase hupper hpow hle hsize hroom hblock
      refine ⟨hreleased, fun C hC => ?_, fun hnone => absurd hnone (Option.some_ne_none _), ?_⟩
      · -- The header lies in the new block, apart from the others.
        refine AgreeOn.trans (writeHeader_of_apart fun x hx => ?_) (huntouched C hC)
        by_contra hin
        rw [not_or, Nat.not_lt, Nat.not_le] at hin
        exact hapart C hC x (hplaced.holds_header hin) hx
      · rintro p hp
        obtain rfl := Option.some.inj hp
        exact ⟨_, hblocks, ⟨rfl, hbase, hdvd, hlower, hupper, hlayout⟩, hapart, hplaced⟩

/-- The checks accept the header of a live block. -/
theorem Placed.isValid (hb : Placed h b) (hgranted : Granted b.block) :
    BlockHeader.isValid ⟨b.block.base, b.block.size, b.size, b.alignment⟩ b.ptr = true := by
  have hpos := pos_of_isPowerOfTwo hb.power
  have hstart := hb.start
  have hfits := hb.fits
  have hsize := hb.pos
  have hupper := hgranted.upper
  have hsmall : userMmapEnd ≤ Config.usizeMax := by decide
  have hroom : blockHeaderSize = 16 := rfl
  have hsum : checkedAdd b.size blockHeaderSize = some (b.size + blockHeaderSize) :=
    if_pos (by omega)
  have hend : checkedAdd b.block.base b.block.size = some (b.block.base + b.block.size) :=
    if_pos (by omega)
  unfold BlockHeader.isValid
  dsimp only
  rw [hsum, hend]
  simp only [Option.any_some, Bool.and_eq_true, decide_eq_true_iff, beq_iff_eq]
  refine ⟨⟨⟨⟨⟨⟨hpos, hb.power⟩, hb.alignment_le⟩, ?_⟩, hgranted.lower, ?_⟩, ⟨?_, ?_⟩, hupper⟩,
    Nat.mod_eq_zero_of_dvd hgranted.base_dvd, Nat.mod_eq_zero_of_dvd hgranted.size_dvd⟩
  all_goals omega

/-- `free` accepts a live block and returns its underlying block as it was obtained. -/
theorem free_wp (oracle : Oracle) (hb : Placed h b) (hgranted : Granted b.block) :
    wp (free oracle b.ptr)
      (fun _ h' => h'.blocks = h.blocks.erase b.block ∧ h'.released = b.block :: h.released ∧
        Untouched h'.blocks h h')
      (fun _ _ => False) h := by
  have hstart := hb.start
  have hroom : blockHeaderSize = 16 := rfl
  have hblock : (⟨b.block.base, b.block.size, underlyingAlignment⟩ : Block) = b.block := by
    rw [← hgranted.align]
  unfold free
  rw [if_neg (by omega), wp_bind, wp_gets, hb.header, hb.isValid hgranted, hgranted.layout]
  rw [if_neg (by decide), if_neg (by decide), hblock]
  exact underlyingDealloc_wp oracle hb.block

/-- What a reallocation does to a live block. It fails and changes nothing, shrinks the block where
it is, or moves it into a new block and returns the old one. -/
inductive Reallocated (h : Heap) (b : Live) (newSize : Nat) : Option Nat → Heap → Prop
  | failed {h' : Heap} (blocks : h'.blocks = h.blocks) (released : h'.released = h.released)
      (untouched : Untouched h.blocks h h') : Reallocated h b newSize none h'
  | shrunk {h' : Heap} (blocks : h'.blocks = h.blocks) (released : h'.released = h.released)
      (le : newSize ≤ b.size)
      (others : ∀ C ∈ h.blocks, b.block.Apart C → AgreeOn C.Holds h'.mem h.mem)
      (bytes : AgreeOn b.User h'.mem h.mem)
      (placed : Placed h' { b with size := newSize }) :
      Reallocated h b newSize (some b.ptr) h'
  | moved {h' : Heap} {p : Nat} {B : Block} (lt : b.size < newSize)
      (blocks : h'.blocks = (B :: h.blocks).erase b.block)
      (released : h'.released = b.block :: h.released) (granted : Granted B)
      (apart : ∀ C ∈ h.blocks, B.Apart C)
      (others : ∀ C ∈ h.blocks, C ∈ h'.blocks → AgreeOn C.Holds h'.mem h.mem)
      (bytes : ∀ i < b.size, h'.mem (p + i) = h.mem (b.ptr + i))
      (placed : Placed h' ⟨p, newSize, b.alignment, B⟩) :
      Reallocated h b newSize (some p) h'

/-- The size in the header of a live block is changed in place. -/
theorem Placed.shrink (hb : Placed h b) (hgranted : Granted b.block) {newSize : Nat}
    (hpos : 0 < newSize) (hle : newSize ≤ b.size) :
    Placed { h with mem := h.mem.storeWord (getMutPtr b.ptr + 8) newSize }
      { b with size := newSize } := by
  have hfits := hb.fits
  have hupper := hgranted.upper
  have hsmall : userMmapEnd < 2 ^ 32 := by decide
  have hheader := hb.header
  refine ⟨?_, hb.power, hb.alignment_le, hb.aligned, hb.word, hpos, hb.start, ?_, hb.block⟩
  · unfold readHeader at hheader ⊢
    dsimp only
    rw [loadWord_storeWord_of_apart (by omega), loadWord_storeWord_of_apart (by omega),
      loadWord_storeWord (by omega), loadWord_storeWord_of_apart (by omega)]
    injection hheader with hbase hsize _ halignment
    rw [hbase, hsize, halignment]
  · dsimp only
    omega

/-- The size is a word of the header. -/
theorem shrink_untouched {S : Nat → Prop} {newSize : Nat} (hS : ∀ x, b.Header x → ¬S x) :
    AgreeOn S (h.mem.storeWord (getMutPtr b.ptr + 8) newSize) h.mem := by
  refine storeWord_of_apart fun x hx => ?_
  by_contra hin
  have hroom : blockHeaderSize = 16 := rfl
  exact hS x ⟨by omega, by omega⟩ hx

/-- A new block is not one that was there before. -/
theorem Placed.ne_of_apart (hb : Placed h b) {B : Block} (happart : B.Apart b.block) :
    B ≠ b.block := by
  intro heq
  have hin : b.block.Holds b.ptr := hb.holds_user ⟨Nat.le_refl _, by have := hb.pos; omega⟩
  exact happart b.ptr (heq ▸ hin) hin

theorem realloc_wp (oracle : Oracle) (hlawful : oracle.Lawful h.blocks) (hb : Placed h b)
    (hgranted : Granted b.block) {newSize : Nat} (hpos : 0 < newSize) :
    wp (realloc oracle b.ptr newSize) (fun r h' => Reallocated h b newSize r h')
      (fun _ _ => False) h := by
  have hstart := hb.start
  have hroom : blockHeaderSize = 16 := rfl
  have halignment := pos_of_isPowerOfTwo hb.power
  unfold realloc
  rw [if_neg (by omega), if_neg (Nat.pos_iff_ne_zero.mp hpos)]
  dsimp only
  rw [wp_bind, wp_gets, hb.header]
  dsimp only
  split_ifs with hle
  · rw [wp_bind, wp_modify, wp_pure]
    refine .shrunk rfl rfl hle ?_ ?_ (hb.shrink hgranted hpos hle)
    · exact fun C _ happart => shrink_untouched fun x hx => happart x (hb.holds_header hx)
    · exact shrink_untouched fun x hx => hb.not_user_of_header hx
  · have hne : some b.alignment ≠ some 0 := fun h0 =>
      Nat.ne_of_gt halignment (Option.some.inj h0)
    rw [wp_bind]
    refine (alloc_wp oracle hlawful hpos hne).imp ?_
    rintro r h₁ ⟨hreleased, huntouched, hfailed, hplaced⟩
    cases r with
    | none => exact (wp_pure _).mpr (.failed (hfailed rfl) hreleased huntouched)
    | some p =>
      obtain ⟨B, hblocks, hgrantedB, hapart, hnew⟩ := hplaced p rfl
      dsimp only [Option.getD_some] at hnew
      dsimp only
      rw [wp_bind, wp_modify, wp_bind, wp_attempt]
      -- The copy stays in the user area of the new block.
      have hcopy : ∀ {S : Nat → Prop}, (∀ x, S x → ¬(⟨p, newSize, b.alignment, B⟩ : Live).User x) →
          AgreeOn S (h₁.mem.copy b.ptr p b.size) h₁.mem := by
        intro S hS
        refine copy_of_apart fun x hx => ?_
        by_contra hin
        exact hS x hx ⟨by dsimp only; omega, by dsimp only; omega⟩
      have hold : ∀ C ∈ h.blocks,
          AgreeOn C.Holds (h₁.mem.copy b.ptr p b.size) h.mem := fun C hC =>
        (hcopy fun x hx huser => hapart C hC x (hnew.holds_user huser) hx).trans
          (huntouched C hC)
      have hb₁ : Placed { h₁ with mem := h₁.mem.copy b.ptr p b.size } b := by
        refine hb.of_agree ?_ (hold _ hb.block)
        rw [hblocks]
        exact List.mem_cons_of_mem _ hb.block
      have hBne := hb.ne_of_apart (hapart _ hb.block)
      refine (free_wp oracle hb₁ hgranted).mono ?_ fun _ _ he => he.elim
      rintro - h₂ ⟨hblocks₂, hreleased₂, huntouched₂⟩
      rw [wp_pure]
      dsimp only at hblocks₂ hreleased₂
      rw [hblocks] at hblocks₂
      have hB₂ : B ∈ h₂.blocks := by
        rw [hblocks₂]
        exact (List.mem_erase_of_ne hBne).mpr List.mem_cons_self
      have hmemB := huntouched₂ B hB₂
      refine .moved (Nat.lt_of_not_le hle) hblocks₂ (by rw [hreleased₂, hreleased]) hgrantedB
        hapart (fun C hC hC₂ => (huntouched₂ C hC₂).trans (hold C hC)) ?_ ?_
      · intro i hi
        have huser : (⟨p, newSize, b.alignment, B⟩ : Live).User (p + i) :=
          ⟨Nat.le_add_right _ _, by dsimp only; omega⟩
        have hsource : b.User (b.ptr + i) := ⟨Nat.le_add_right _ _, by omega⟩
        calc h₂.mem (p + i)
            = h₁.mem.copy b.ptr p b.size (p + i) := hmemB _ (hnew.holds_user huser)
          _ = h₁.mem (b.ptr + i) := copy_apply hi
          _ = h.mem (b.ptr + i) := huntouched _ hb.block _ (hb.holds_user hsource)
      · have hnew₁ : Placed { h₁ with mem := h₁.mem.copy b.ptr p b.size }
            ⟨p, newSize, b.alignment, B⟩ :=
          hnew.of_header hnew.block (hcopy fun x hx => hnew.not_user_of_header hx)
        exact hnew₁.of_agree hB₂ hmemB

end Calls
end Nanvix.Libc
