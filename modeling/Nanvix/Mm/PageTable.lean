import Mathlib.Data.Finset.Card
import Nanvix.Base
import Nanvix.Library.Tally

/-!
# Page tables

Virtual pages, page-table entries and the page table of `hal/arch/shared`. Every
routine of the table checks the entry before it writes it, so a failed call
leaves the table as it was and the model returns the new table only on success.

## Implementation notes

A page-aligned address is kept as its page number, and the address of the region
one table covers as the index of that region, so that alignment holds by
construction. The index of a page within its table and the region it lies in are
the remainder and the quotient by the table length.
-/
namespace Nanvix.Mm
open Config Library

/-- A page-aligned virtual address. -/
structure PageAligned where
  number : Nat
  deriving DecidableEq, Repr

/-- The address of a region covered by one page table. -/
structure PageTableAddress where
  number : Nat
  deriving DecidableEq, Repr

namespace PageAligned

def raw (v : PageAligned) : Nat := v.number * pageSize

/-- The page that holds an address. -/
def alignDown (addr : Nat) : PageAligned := ⟨addr / pageSize⟩

def next (v : PageAligned) : PageAligned := ⟨v.number + 1⟩

def pteIndex (v : PageAligned) : Nat := v.number % pageTableLength

def pgtab (v : PageAligned) : PageTableAddress := ⟨v.number / pageTableLength⟩

end PageAligned

/-- The page at an index of a region. -/
def PageTableAddress.page (t : PageTableAddress) (index : Nat) : PageAligned :=
  ⟨t.number * pageTableLength + index⟩

namespace PageTableAddress
variable {t : PageTableAddress} {i : Nat}

@[simp] theorem page_pgtab (hi : i < pageTableLength) : (t.page i).pgtab = t := by
  have h : (t.number * pageTableLength + i) / pageTableLength = t.number := by
    rw [Nat.mul_comm, Nat.mul_add_div (by decide), Nat.div_eq_of_lt hi, Nat.add_zero]
  simp only [PageAligned.pgtab, page, h]

@[simp] theorem page_pteIndex (hi : i < pageTableLength) : (t.page i).pteIndex = i := by
  simp only [PageAligned.pteIndex, page, Nat.mul_comm t.number, Nat.mul_add_mod,
    Nat.mod_eq_of_lt hi]

end PageTableAddress

namespace PageAligned

theorem pteIndex_lt (v : PageAligned) : v.pteIndex < pageTableLength :=
  Nat.mod_lt _ (by decide)

@[simp] theorem page_pgtab_pteIndex (v : PageAligned) : v.pgtab.page v.pteIndex = v := by
  simp only [PageTableAddress.page, pgtab, pteIndex, Nat.div_add_mod']

/-- Two pages of one region at one index are the same page. -/
theorem eq_of_pgtab_pteIndex {v w : PageAligned} (ht : v.pgtab = w.pgtab)
    (hi : v.pteIndex = w.pteIndex) : v = w := by
  rw [← page_pgtab_pteIndex v, ← page_pgtab_pteIndex w, ht, hi]

end PageAligned

def isUserAddr (addr : Nat) : Bool := decide (userBase ≤ addr) && decide (addr < userEnd)

theorem isUserAddr_iff {addr : Nat} :
    isUserAddr addr = true ↔ userBase ≤ addr ∧ addr < userEnd := by
  simp [isUserAddr]

def isUserRegion (start size : Nat) : Bool :=
  if size = 0 then false
  else if usizeMax < start + (size - 1) then false
  else isUserAddr start && isUserAddr (start + (size - 1))

inductive ReadPermission where
  | deny
  | allow
  deriving DecidableEq, Repr

inductive WritePermission where
  | deny
  | allow
  deriving DecidableEq, Repr

inductive ExecutePermission where
  | deny
  | allow
  deriving DecidableEq, Repr

structure AccessPermission where
  read : ReadPermission
  write : WritePermission
  execute : ExecutePermission
  deriving DecidableEq, Repr

namespace AccessPermission

def RDONLY : AccessPermission := ⟨.allow, .deny, .deny⟩
def RDWR : AccessPermission := ⟨.allow, .allow, .deny⟩

def isWritable (a : AccessPermission) : Bool := decide (a.write = .allow)

end AccessPermission

inductive PresentFlag where
  | notPresent
  | present
  deriving DecidableEq, Repr

inductive ReadWriteFlag where
  | readOnly
  | readWrite
  deriving DecidableEq, Repr

inductive UserSupervisorFlag where
  | supervisor
  | user
  deriving DecidableEq, Repr

inductive PageWriteThroughFlag where
  | notWriteThrough
  | writeThrough
  deriving DecidableEq, Repr

inductive PageCacheDisableFlag where
  | cacheEnabled
  | cacheDisabled
  deriving DecidableEq, Repr

inductive AccessedFlag where
  | notAccessed
  | accessed
  deriving DecidableEq, Repr

inductive DirtyFlag where
  | notDirty
  | dirty
  deriving DecidableEq, Repr

inductive CopyOnWriteFlag where
  | notCopyOnWrite
  | copyOnWrite
  deriving DecidableEq, Repr

structure PageTableEntryFlags where
  present : PresentFlag
  readWrite : ReadWriteFlag
  userSupervisor : UserSupervisorFlag
  pageWriteThrough : PageWriteThroughFlag
  pageCacheDisable : PageCacheDisableFlag
  accessed : AccessedFlag
  dirty : DirtyFlag
  cow : CopyOnWriteFlag
  deriving DecidableEq, Repr

/-- An entry: its flags and the frame it maps. The processor has no bit that
denies reading or execution, so a present entry grants both. -/
structure PageTableEntry where
  flags : PageTableEntryFlags
  frame : Nat
  deriving DecidableEq, Repr

namespace PageTableEntry

def isPresent (p : PageTableEntry) : Bool := decide (p.flags.present = .present)
def isWritable (p : PageTableEntry) : Bool := decide (p.flags.readWrite = .readWrite)
def isCow (p : PageTableEntry) : Bool := decide (p.flags.cow = .copyOnWrite)

def setReadWrite (p : PageTableEntry) (rw : ReadWriteFlag) : PageTableEntry :=
  { p with flags.readWrite := rw }

def setUserSupervisor (p : PageTableEntry) (us : UserSupervisorFlag) : PageTableEntry :=
  { p with flags.userSupervisor := us }

def setCow (p : PageTableEntry) (cow : CopyOnWriteFlag) : PageTableEntry :=
  { p with flags.cow := cow }

/-- The entry a cleared word decodes to. -/
def zero : PageTableEntry :=
  ⟨⟨.notPresent, .readOnly, .supervisor, .notWriteThrough, .cacheEnabled, .notAccessed, .notDirty,
    .notCopyOnWrite⟩, 0⟩

/-- The entry `unmap` leaves behind. -/
def unmapped : PageTableEntry :=
  ⟨⟨.notPresent, .readOnly, .user, .notWriteThrough, .cacheDisabled, .notAccessed, .notDirty,
    .notCopyOnWrite⟩, 0⟩

/-- The entry `map` writes. -/
def mapped (frame : Nat) (supervisor writethrough cache : Bool) (access : AccessPermission) :
    PageTableEntry :=
  ⟨⟨.present, if access.isWritable then .readWrite else .readOnly,
    if supervisor then .supervisor else .user,
    if writethrough then .writeThrough else .notWriteThrough,
    if cache then .cacheEnabled else .cacheDisabled, .notAccessed, .notDirty,
    .notCopyOnWrite⟩, frame⟩

/-- The entry with other access rights. The copy-on-write mark stays as it is. -/
def withAccess (supervisor : Bool) (access : AccessPermission) (p : PageTableEntry) :
    PageTableEntry :=
  (p.setReadWrite (if access.isWritable then .readWrite else .readOnly)).setUserSupervisor
    (if supervisor then .supervisor else .user)

/-- The entry marked copy-on-write. -/
def marked (p : PageTableEntry) : PageTableEntry := (p.setReadWrite .readOnly).setCow .copyOnWrite

/-- The entry with the copy-on-write mark cleared. -/
def unmarked (p : PageTableEntry) : PageTableEntry :=
  (p.setCow .notCopyOnWrite).setReadWrite .readWrite

/-- The entry of a copy-on-write page that got its own frame. -/
def replaced (newFrame : Nat) (p : PageTableEntry) : PageTableEntry :=
  ⟨((p.setReadWrite .readWrite).setCow .notCopyOnWrite).flags, newFrame⟩

def ctrl (supervisor : Bool) (access : AccessPermission) (p : PageTableEntry) :
    Except Error (Unit × PageTableEntry) :=
  .ok ((), p.withAccess supervisor access)

def markCow (p : PageTableEntry) : Except Error (Unit × PageTableEntry) :=
  if !p.isWritable then .error ⟨.invalidArgument, "page is already read-only"⟩
  else .ok ((), p.marked)

def unmarkCow (p : PageTableEntry) : Except Error (Unit × PageTableEntry) :=
  if !p.isCow then .error ⟨.invalidArgument, "page is not copy-on-write"⟩
  else .ok ((), p.unmarked)

/-- `replace_cow_frame` returns the old frame. -/
def replaceCowFrame (newFrame : Nat) (p : PageTableEntry) : Except Error (Nat × PageTableEntry) :=
  if !p.isCow then .error ⟨.invalidArgument, "page is not copy-on-write"⟩
  else if p.isWritable then
    .error ⟨.invalidArgument, "copy-on-write page is unexpectedly writable"⟩
  else .ok (p.frame, p.replaced newFrame)

variable (p : PageTableEntry)

@[simp] theorem marked_isCow : p.marked.isCow = true := rfl
@[simp] theorem unmarked_frame : p.unmarked.frame = p.frame := rfl
@[simp] theorem replaced_frame (n : Nat) : (p.replaced n).frame = n := rfl
@[simp] theorem withAccess_isWritable (b : Bool) (a : AccessPermission) :
    (p.withAccess b a).isWritable = a.isWritable := by
  cases h : a.isWritable <;> simp [isWritable, withAccess, setReadWrite, setUserSupervisor, h]

variable {p}

variable {q : PageTableEntry}

theorem markCow_eq_ok (h : p.markCow = .ok ((), q)) : p.isWritable = true ∧ q = p.marked := by
  unfold markCow at h
  split_ifs at h with hw
  cases h
  exact ⟨by simpa using hw, rfl⟩

theorem unmarkCow_eq_ok (h : p.unmarkCow = .ok ((), q)) : p.isCow = true ∧ q = p.unmarked := by
  unfold unmarkCow at h
  split_ifs at h with hc
  cases h
  exact ⟨by simpa using hc, rfl⟩

theorem replaceCowFrame_eq_ok {n m : Nat} (h : p.replaceCowFrame n = .ok (m, q)) :
    p.isCow = true ∧ p.isWritable = false ∧ m = p.frame ∧ q = p.replaced n := by
  unfold replaceCowFrame at h
  split_ifs at h with hc hw
  cases h
  exact ⟨by simpa using hc, by simpa using hw, rfl, rfl⟩

end PageTableEntry

/-- A page table and the kernel frame that stores it. -/
structure PageTable where
  storage : Nat
  nmapped : Nat
  entries : Nat → PageTableEntry

namespace PageTable

def new (storage : Nat) : PageTable := ⟨storage, 0, fun _ => .zero⟩

def readPte (pt : PageTable) (v : PageAligned) : PageTableEntry := pt.entries v.pteIndex

def writePte (pt : PageTable) (v : PageAligned) (p : PageTableEntry) : PageTable :=
  { pt with entries := Function.update pt.entries v.pteIndex p }

def map (pt : PageTable) (v : PageAligned) (frame : Nat) (supervisor writethrough cache : Bool)
    (access : AccessPermission) : Except Error PageTable :=
  if (pt.readPte v).isPresent then .error ⟨.resourceBusy, "page table entry is busy"⟩
  else
    .ok { pt.writePte v (.mapped frame supervisor writethrough cache access) with
      nmapped := pt.nmapped + 1 }

def unmap (pt : PageTable) (v : PageAligned) : Except Error (Nat × PageTable) :=
  if !(pt.readPte v).isPresent then .error ⟨.resourceBusy, "page is not present"⟩
  else .ok ((pt.readPte v).frame, { pt.writePte v .unmapped with nmapped := pt.nmapped - 1 })

def lookup (pt : PageTable) (v : PageAligned) : Except Error Nat :=
  if !(pt.readPte v).isPresent then .error ⟨.noSuchEntry, "page is not present"⟩
  else .ok (pt.readPte v).frame

/-- The common shape of the routines that check a present entry and rewrite it. -/
def rewrite {α : Type} (pt : PageTable) (v : PageAligned)
    (r : PageTableEntry → Except Error (α × PageTableEntry)) : Except Error (α × PageTable) :=
  if !(pt.readPte v).isPresent then .error ⟨.noSuchEntry, "page is not present"⟩
  else match r (pt.readPte v) with
    | .error e => .error e
    | .ok (a, q) => .ok (a, pt.writePte v q)

def ctrl (pt : PageTable) (supervisor : Bool) (v : PageAligned) (access : AccessPermission) :
    Except Error (Unit × PageTable) :=
  pt.rewrite v (PageTableEntry.ctrl supervisor access)

def markCow (pt : PageTable) (v : PageAligned) : Except Error (Unit × PageTable) :=
  pt.rewrite v PageTableEntry.markCow

def unmarkCow (pt : PageTable) (v : PageAligned) : Except Error (Unit × PageTable) :=
  pt.rewrite v PageTableEntry.unmarkCow

def replaceCowFrame (pt : PageTable) (v : PageAligned) (newFrame : Nat) :
    Except Error (Nat × PageTable) :=
  pt.rewrite v (PageTableEntry.replaceCowFrame newFrame)

/-- The entry of a page, when it is present. -/
def readPteAt (pt : PageTable) (v : PageAligned) : Option PageTableEntry :=
  if (pt.readPte v).isPresent then some (pt.readPte v) else none

/-- The present entries with their indices, in index order. -/
def iterPresentPtes (pt : PageTable) : List (Nat × PageTableEntry) :=
  (List.range pageTableLength).filterMap fun i =>
    if (pt.entries i).isPresent then some (i, pt.entries i) else none

/-- Whether an entry counts as mapped. -/
def presence (p : PageTableEntry) : Nat := if p.isPresent then 1 else 0

/-- The counter of the table is the number of its present entries. -/
def Counted (pt : PageTable) : Prop :=
  pt.nmapped = tally (Finset.range pageTableLength) presence pt.entries

variable {pt : PageTable} {v w : PageAligned} {p q : PageTableEntry}

theorem counted_new (storage : Nat) : (new storage).Counted :=
  (tally_eq_zero fun _ _ => rfl).symm

theorem readPteAt_eq_some : pt.readPteAt v = some p ↔ pt.readPte v = p ∧ p.isPresent = true := by
  unfold readPteAt
  split_ifs with h
  · rw [Option.some.injEq]
    exact ⟨fun hp => ⟨hp, hp ▸ h⟩, fun hp => hp.1⟩
  · simp only [false_iff, not_and]
    rintro rfl
    exact h

theorem readPteAt_eq_none : pt.readPteAt v = none ↔ (pt.readPte v).isPresent = false := by
  unfold readPteAt
  split_ifs with h <;> simp [h]

theorem readPte_writePte (pt : PageTable) (v w : PageAligned) (p : PageTableEntry) :
    (pt.writePte v p).readPte w = if w.pteIndex = v.pteIndex then p else pt.readPte w :=
  Function.update_apply pt.entries v.pteIndex p w.pteIndex

theorem readPteAt_writePte (pt : PageTable) (v w : PageAligned) (p : PageTableEntry) :
    (pt.writePte v p).readPteAt w =
      if w.pteIndex = v.pteIndex then (if p.isPresent then some p else none)
      else pt.readPteAt w := by
  unfold readPteAt
  rw [readPte_writePte]
  split_ifs <;> rfl

/-- Rewriting a present entry as a present entry keeps the count. -/
theorem Counted.writePte (h : pt.Counted) (hv : pt.readPteAt v = some p)
    (hq : q.isPresent = true) : (pt.writePte v q).Counted := by
  obtain ⟨hp, hpres⟩ := readPteAt_eq_some.mp hv
  change pt.nmapped = _
  rw [h]
  refine (tally_update_eq _ _ (Finset.mem_range.mpr v.pteIndex_lt) ?_).symm
  change presence q = presence (pt.readPte v)
  simp only [presence, hp, hpres, hq]

theorem map_absent (hv : pt.readPteAt v = none) (frame : Nat) (sup wt cache : Bool)
    (access : AccessPermission) :
    pt.map v frame sup wt cache access =
      .ok { pt.writePte v (.mapped frame sup wt cache access) with nmapped := pt.nmapped + 1 } := by
  simp only [map, readPteAt_eq_none.mp hv, Bool.false_eq_true, if_false]

theorem Counted.map (h : pt.Counted) (hv : pt.readPteAt v = none) (hq : q.isPresent = true) :
    Counted { pt.writePte v q with nmapped := pt.nmapped + 1 } := by
  have habs := readPteAt_eq_none.mp hv
  have hsum := tally_update_zero presence pt.entries (Finset.mem_range.mpr v.pteIndex_lt) q (by
      change presence (pt.readPte v) = 0
      simp only [presence, habs, Bool.false_eq_true, if_false])
  change pt.nmapped + 1 = tally _ _ (Function.update pt.entries v.pteIndex q)
  rw [hsum, h]
  simp only [presence, hq, if_true]

theorem unmap_present (hv : pt.readPteAt v = some p) :
    pt.unmap v = .ok (p.frame, { pt.writePte v .unmapped with nmapped := pt.nmapped - 1 }) := by
  obtain ⟨hp, hpres⟩ := readPteAt_eq_some.mp hv
  simp only [unmap, hp, hpres, Bool.not_true, Bool.false_eq_true, if_false]

theorem Counted.unmap (h : pt.Counted) (hv : pt.readPteAt v = some p) :
    Counted { pt.writePte v .unmapped with nmapped := pt.nmapped - 1 } := by
  obtain ⟨hp, hpres⟩ := readPteAt_eq_some.mp hv
  have hsum := tally_update presence pt.entries (Finset.mem_range.mpr v.pteIndex_lt) .unmapped
  change pt.nmapped - 1 = tally _ _ (Function.update pt.entries v.pteIndex _)
  have hone : presence (pt.entries v.pteIndex) = 1 := by
    change presence (pt.readPte v) = 1
    simp only [presence, hp, hpres, if_true]
  have hzero : presence .unmapped = 0 := rfl
  rw [hone, hzero] at hsum
  rw [h]
  omega

/-- A table whose counter is zero has no present entry. -/
theorem Counted.eq_none (h : pt.Counted) (hz : pt.nmapped = 0) (v : PageAligned) :
    pt.readPteAt v = none := by
  have hle := weight_le_tally presence pt.entries (Finset.mem_range.mpr v.pteIndex_lt)
  rw [← h, hz] at hle
  rw [readPteAt_eq_none]
  by_contra hne
  change presence (pt.readPte v) ≤ 0 at hle
  simp only [presence, Bool.not_eq_false] at hle hne
  rw [if_pos hne] at hle
  omega

theorem lookup_present (hv : pt.readPteAt v = some p) : pt.lookup v = .ok p.frame := by
  obtain ⟨hp, hpres⟩ := readPteAt_eq_some.mp hv
  simp only [lookup, hp, hpres, Bool.not_true, Bool.false_eq_true, if_false]

variable {α : Type} {r : PageTableEntry → Except Error (α × PageTableEntry)}

theorem rewrite_present (hv : pt.readPteAt v = some p) :
    pt.rewrite v r = (r p).map fun aq => (aq.1, pt.writePte v aq.2) := by
  obtain ⟨hp, hpres⟩ := readPteAt_eq_some.mp hv
  simp only [rewrite, hp, hpres, Bool.not_true, Bool.false_eq_true, if_false]
  cases r p <;> rfl

theorem rewrite_absent (hv : pt.readPteAt v = none) :
    pt.rewrite v r = .error ⟨.noSuchEntry, "page is not present"⟩ := by
  simp only [rewrite, readPteAt_eq_none.mp hv, Bool.not_false, if_true]

theorem mem_iterPresentPtes {i : Nat} : (i, p) ∈ pt.iterPresentPtes ↔
    i < pageTableLength ∧ pt.entries i = p ∧ p.isPresent = true := by
  simp only [iterPresentPtes, List.mem_filterMap, List.mem_range]
  constructor
  · rintro ⟨j, hj, h⟩
    split_ifs at h with hpres
    cases h
    exact ⟨hj, rfl, hpres⟩
  · rintro ⟨hi, rfl, hpres⟩
    exact ⟨i, hi, by rw [if_pos hpres]⟩

theorem nodup_iterPresentPtes (pt : PageTable) : (pt.iterPresentPtes.map Prod.fst).Nodup := by
  have hfst : pt.iterPresentPtes.map Prod.fst =
      (List.range pageTableLength).filter fun i => (pt.entries i).isPresent := by
    rw [iterPresentPtes, List.map_filterMap, ← List.filterMap_eq_filter]
    congr 1
    funext i
    by_cases hi : (pt.entries i).isPresent = true <;> simp [hi, Option.guard]
  rw [hfst]
  exact List.nodup_range.filter _

end PageTable
end Nanvix.Mm
