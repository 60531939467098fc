import Mathlib.Algebra.Group.Int.Defs
import Mathlib.Algebra.Group.Nat.Defs
import Mathlib.Order.Compare
import Mathlib.Order.Nat
import Mathlib.Tactic.Common

/-!
# Instants and durations

`SystemTime` of the `sys` library is a number of seconds in a `u64` and a
number of nanoseconds below one second in a `u32`. Its operations carry and
borrow between the two fields. A valid instant denotes one natural number, its
total of nanoseconds, and the results below compare every operation with the
arithmetic of the totals.

## Implementation notes

The constructor `SystemTime::new` refuses nanoseconds of a second or more and
the fields are private, so the bound is a field of the structure here. A plain
subtraction panics in a build with overflow checks and wraps in a build without
them; `Build` says which of the two the code was compiled as. `Duration` is the
type of the core library, whose nanoseconds are below one second as well.
-/
namespace Nanvix.Sys

/-- Nanoseconds in a second. -/
def nanosecondsPerSecond : Nat := 1000000000

/-- The two profiles of the workspace: `dev` checks for overflow, `release` wraps. -/
inductive Build where
  | dev
  | release
  deriving DecidableEq, Repr

/-- The ways in which the modelled functions panic. -/
inductive Panic where
  | subtractWithOverflow
  | durationOverflow
  deriving DecidableEq, Repr

/-- The subtraction operator of an unsigned type of `w` bits. -/
def Build.sub (build : Build) (w : Nat) (a b : Nat) : Except Panic Nat :=
  if b ≤ a then .ok (a - b)
  else match build with
    | .dev => .error .subtractWithOverflow
    | .release => .ok (a + 2 ^ w - b)

theorem Build.sub_of_le {build : Build} {w a b : Nat} (h : b ≤ a) : build.sub w a b = .ok (a - b) :=
  if_pos h

/-- `checked_add` of an unsigned type of `w` bits. -/
def checkedAdd (w : Nat) (a b : Nat) : Option Nat :=
  if a + b < 2 ^ w then some (a + b) else none

/-- `checked_sub` of an unsigned type. -/
def checkedSub (a b : Nat) : Option Nat :=
  if b ≤ a then some (a - b) else none

/-- A length of time of the core library. -/
@[ext] structure Duration where
  secs : Nat
  nanos : Nat
  secs_lt : secs < 2 ^ 64
  nanos_lt : nanos < nanosecondsPerSecond
  deriving DecidableEq

namespace Duration

/-- The number of nanoseconds a duration denotes. -/
def total (d : Duration) : Nat := d.secs * nanosecondsPerSecond + d.nanos

/-- `Duration::new`: nanoseconds of a second or more carry into the seconds. -/
def new (secs nanos : Nat) : Except Panic Duration :=
  if h : secs + nanos / nanosecondsPerSecond < 2 ^ 64 then
    .ok ⟨secs + nanos / nanosecondsPerSecond, nanos % nanosecondsPerSecond, h,
      Nat.mod_lt _ (by decide)⟩
  else .error .durationOverflow

theorem new_eq {secs nanos : Nat} (hs : secs < 2 ^ 64) (hn : nanos < nanosecondsPerSecond) :
    new secs nanos = .ok ⟨secs, nanos, hs, hn⟩ := by
  simp only [new, Nat.div_eq_of_lt hn, Nat.mod_eq_of_lt hn, Nat.add_zero, dif_pos hs]

end Duration

/-- An instant: seconds since the epoch and nanoseconds since the last second. -/
@[ext] structure SystemTime where
  seconds : Nat
  nanoseconds : Nat
  seconds_lt : seconds < 2 ^ 64
  nanoseconds_lt : nanoseconds < nanosecondsPerSecond
  deriving DecidableEq

namespace SystemTime

/-- The number of nanoseconds since the epoch. -/
def total (t : SystemTime) : Nat := t.seconds * nanosecondsPerSecond + t.nanoseconds

/-- `SystemTime::new`; a `u64` of seconds is below `2 ^ 64` by its type. -/
def new (seconds nanoseconds : Nat) : Option SystemTime :=
  if h : nanoseconds < nanosecondsPerSecond ∧ seconds < 2 ^ 64 then
    some ⟨seconds, nanoseconds, h.2, h.1⟩
  else none

/-- `SystemTime::checked_sub`. The error is the length of time by which `self` is earlier. -/
def checkedSub (build : Build) (self earlier : SystemTime) :
    Except Panic (Except Duration Duration) :=
  if earlier.seconds ≤ self.seconds then do
    let seconds ← build.sub 64 self.seconds earlier.seconds
    if earlier.nanoseconds ≤ self.nanoseconds then
      let nanoseconds ← build.sub 32 self.nanoseconds earlier.nanoseconds
      return .ok (← Duration.new seconds nanoseconds)
    else
      let nanoseconds ← build.sub 32 earlier.nanoseconds self.nanoseconds
      let adjustedSeconds ← build.sub 64 seconds 1
      let rest ← build.sub 32 nanosecondsPerSecond nanoseconds
      return .ok (← Duration.new adjustedSeconds rest)
  else do
    match ← checkedSub build earlier self with
    | .ok duration => return .error duration
    | .error duration => return .ok duration
  -- The two instants change places once: afterwards the first test succeeds.
  termination_by if earlier.seconds ≤ self.seconds then 0 else 1
  decreasing_by
    rename_i h
    rw [if_neg h, if_pos (by omega)]
    omega

/-- `SystemTime::checked_add_duration`. -/
def checkedAddDuration (build : Build) (self : SystemTime) (duration : Duration) :
    Except Panic (Option SystemTime) :=
  match checkedAdd 64 self.seconds duration.secs with
  | none => .ok none
  | some newSeconds =>
    match checkedAdd 32 self.nanoseconds duration.nanos with
    | none => .ok none
    | some newNanoseconds =>
      if nanosecondsPerSecond ≤ newNanoseconds then
        match checkedAdd 64 newSeconds 1 with
        | none => .ok none
        | some s => do
          return SystemTime.new s (← build.sub 32 newNanoseconds nanosecondsPerSecond)
      else .ok (SystemTime.new newSeconds newNanoseconds)

/-- `SystemTime::checked_sub_duration`. -/
def checkedSubDuration (build : Build) (self : SystemTime) (duration : Duration) :
    Except Panic (Option SystemTime) :=
  match Sys.checkedSub self.seconds duration.secs with
  | none => .ok none
  | some newSeconds =>
    match Sys.checkedSub self.nanoseconds duration.nanos with
    | none => .ok none
    | some newNanoseconds =>
      if nanosecondsPerSecond ≤ newNanoseconds then
        match Sys.checkedSub newSeconds 1 with
        | none => .ok none
        | some s => do
          return SystemTime.new s (← build.sub 32 nanosecondsPerSecond newNanoseconds)
      else .ok (SystemTime.new newSeconds newNanoseconds)

/-- `Ord::cmp`: seconds first, then nanoseconds. -/
def cmp (self other : SystemTime) : Ordering :=
  match compare self.seconds other.seconds with
  | .eq => compare self.nanoseconds other.nanoseconds
  | different => different

/-! ## The arithmetic of the totals -/

/-- The totals that an instant can denote. -/
def Representable (n : Nat) : Prop := n < 2 ^ 64 * nanosecondsPerSecond

/-- The checked difference is the difference of the totals, with its sign. -/
def DifferenceExact (build : Build) (a b : SystemTime) : Prop :=
  ∃ result, checkedSub build a b = .ok result ∧
    match result with
    | .ok d => b.total ≤ a.total ∧ d.total = a.total - b.total
    | .error d => a.total < b.total ∧ d.total = b.total - a.total

/-- Adding a duration adds the totals, and gives nothing only for want of room. -/
def AddExact (build : Build) (a : SystemTime) (d : Duration) : Prop :=
  ∃ result, checkedAddDuration build a d = .ok result ∧
    match result with
    | some t => t.total = a.total + d.total
    | none => ¬ Representable (a.total + d.total)

/-- Subtracting a duration subtracts the totals, and gives nothing only below the epoch. -/
def SubExact (build : Build) (a : SystemTime) (d : Duration) : Prop :=
  ∃ result, checkedSubDuration build a d = .ok result ∧
    match result with
    | some t => d.total ≤ a.total ∧ t.total = a.total - d.total
    | none => a.total < d.total

/-- Whenever a duration can be added, subtracting it again gives the instant back. -/
def RoundTrip (build : Build) (a : SystemTime) (d : Duration) : Prop :=
  ∀ t, checkedAddDuration build a d = .ok (some t) →
    checkedSubDuration build t d = .ok (some a)

/-- Every operation on two instants and a duration is exact. -/
structure Exact (build : Build) (a b : SystemTime) (d : Duration) : Prop where
  difference : DifferenceExact build a b
  add : AddExact build a d
  sub : SubExact build a d
  order : cmp a b = compare a.total b.total
  roundTrip : RoundTrip build a d

/-! ## Each operation against its totals -/

variable {build : Build} {a b : SystemTime} {d : Duration}

/-- The totals are ordered by the seconds and, within a second, by the nanoseconds. -/
theorem total_le_total_iff :
    a.total ≤ b.total ↔
      a.seconds < b.seconds ∨ a.seconds = b.seconds ∧ a.nanoseconds ≤ b.nanoseconds := by
  have ha := a.nanoseconds_lt
  have hb := b.nanoseconds_lt
  simp only [total, nanosecondsPerSecond] at *
  omega

theorem new_eq {seconds nanoseconds : Nat} (hs : seconds < 2 ^ 64)
    (hn : nanoseconds < nanosecondsPerSecond) :
    SystemTime.new seconds nanoseconds = some ⟨seconds, nanoseconds, hs, hn⟩ :=
  dif_pos ⟨hn, hs⟩

/-- With the later instant on the left and no tie of the seconds to borrow from, the
difference is a duration that denotes the difference of the totals. -/
theorem checkedSub_of_le (build : Build) (hs : b.seconds ≤ a.seconds)
    (hn : a.seconds = b.seconds → b.nanoseconds ≤ a.nanoseconds) :
    ∃ d : Duration, checkedSub build a b = .ok (.ok d) ∧ d.total = a.total - b.total := by
  have ha := a.nanoseconds_lt
  have hb := b.nanoseconds_lt
  have has := a.seconds_lt
  rw [checkedSub, if_pos hs, Build.sub_of_le hs]
  by_cases hle : b.nanoseconds ≤ a.nanoseconds
  · have hsecs : a.seconds - b.seconds < 2 ^ 64 := by omega
    have hnanos : a.nanoseconds - b.nanoseconds < nanosecondsPerSecond := by omega
    refine ⟨⟨_, _, hsecs, hnanos⟩, ?_, ?_⟩
    · simp only [bind, Except.bind, pure, Except.pure, if_pos hle, Build.sub_of_le hle,
        Duration.new_eq hsecs hnanos]
    · simp only [Duration.total, total, nanosecondsPerSecond]
      omega
  · -- The nanoseconds borrow a second, and the seconds differ by at least one.
    have hlt : a.nanoseconds ≤ b.nanoseconds := by omega
    have hone : 1 ≤ a.seconds - b.seconds := by omega
    have hrest : b.nanoseconds - a.nanoseconds ≤ nanosecondsPerSecond := by omega
    have hsecs : a.seconds - b.seconds - 1 < 2 ^ 64 := by omega
    have hnanos :
        nanosecondsPerSecond - (b.nanoseconds - a.nanoseconds) < nanosecondsPerSecond := by
      omega
    refine ⟨⟨_, _, hsecs, hnanos⟩, ?_, ?_⟩
    · simp only [bind, Except.bind, pure, Except.pure, if_neg hle, Build.sub_of_le hlt,
        Build.sub_of_le hone, Build.sub_of_le hrest, Duration.new_eq hsecs hnanos]
    · simp only [Duration.total, total, nanosecondsPerSecond] at *
      omega

/-- With the earlier instant on the left in an earlier second, the difference is an error
that carries the duration between them. -/
theorem checkedSub_of_lt (build : Build) (hs : a.seconds < b.seconds) :
    ∃ d : Duration, checkedSub build a b = .ok (.error d) ∧ d.total = b.total - a.total := by
  obtain ⟨d, hd, htotal⟩ := checkedSub_of_le build (Nat.le_of_lt hs) (by omega)
  refine ⟨d, ?_, htotal⟩
  rw [checkedSub, if_neg (by omega), hd]
  rfl

/-- Within one second, an earlier instant on the left borrows from seconds that are zero:
the code panics, or answers `Ok` with the largest number of seconds. -/
theorem not_differenceExact_of_tie (hs : a.seconds = b.seconds)
    (hn : a.nanoseconds < b.nanoseconds) : ¬ DifferenceExact build a b := by
  rintro ⟨result, hresult, hexact⟩
  have hle : a.nanoseconds ≤ b.nanoseconds := Nat.le_of_lt hn
  have hb := b.nanoseconds_lt
  have hrest : b.nanoseconds - a.nanoseconds ≤ nanosecondsPerSecond := by omega
  have hnanos :
      nanosecondsPerSecond - (b.nanoseconds - a.nanoseconds) < nanosecondsPerSecond := by
    omega
  rw [checkedSub, if_pos hs.ge, Build.sub_of_le hs.ge] at hresult
  cases build with
  | dev =>
    have hpanic : Build.sub .dev 64 (a.seconds - b.seconds) 1 =
        .error .subtractWithOverflow := by
      simp [Build.sub, hs]
    simp only [bind, Except.bind, Build.sub_of_le hle, if_neg (Nat.not_le_of_lt hn),
      hpanic] at hresult
    cases hresult
  | release =>
    have hbig : 2 ^ 64 - 1 < 2 ^ 64 := by decide
    have hwrap : Build.sub .release 64 (a.seconds - b.seconds) 1 = .ok (2 ^ 64 - 1) := by
      simp [Build.sub, hs]
    simp only [bind, Except.bind, pure, Except.pure, Build.sub_of_le hle,
      if_neg (Nat.not_le_of_lt hn), hwrap, Build.sub_of_le hrest, Duration.new_eq hbig hnanos] at hresult
    cases hresult
    have hba : b.total ≤ a.total := hexact.1
    rw [total_le_total_iff] at hba
    omega

/-- The difference is exact just when no second has to be borrowed within a tie. -/
theorem differenceExact_iff :
    DifferenceExact build a b ↔ ¬ (a.seconds = b.seconds ∧ a.nanoseconds < b.nanoseconds) := by
  constructor
  · rintro hexact ⟨hs, hn⟩
    exact not_differenceExact_of_tie hs hn hexact
  · intro htie
    rcases Nat.lt_or_ge a.seconds b.seconds with hlt | hge
    · obtain ⟨d, hd, htotal⟩ := checkedSub_of_lt build hlt
      refine ⟨_, hd, ?_, htotal⟩
      rw [← Nat.not_le, total_le_total_iff]
      omega
    · obtain ⟨d, hd, htotal⟩ := checkedSub_of_le build hge (by omega)
      refine ⟨_, hd, ?_, htotal⟩
      rw [total_le_total_iff]
      omega

/-- The instant that denotes a total, if there is one. -/
def ofTotal (n : Nat) : Option SystemTime :=
  SystemTime.new (n / nanosecondsPerSecond) (n % nanosecondsPerSecond)

theorem ofTotal_eq_none {n : Nat} : ofTotal n = none ↔ ¬ Representable n := by
  unfold ofTotal SystemTime.new Representable nanosecondsPerSecond
  split_ifs <;> simp only [true_iff, false_iff] <;> omega

theorem total_of_ofTotal {n : Nat} {t : SystemTime} (h : ofTotal n = some t) : t.total = n := by
  unfold ofTotal SystemTime.new at h
  split_ifs at h
  cases h
  exact Nat.div_add_mod' _ _

theorem ofTotal_eq {seconds nanoseconds n : Nat} (hn : nanoseconds < nanosecondsPerSecond)
    (h : n = seconds * nanosecondsPerSecond + nanoseconds) :
    ofTotal n = SystemTime.new seconds nanoseconds := by
  unfold ofTotal nanosecondsPerSecond at *
  congr
  · omega
  · omega

/-- Adding adds the totals, with and without a carry. -/
theorem checkedAddDuration_eq (build : Build) (a : SystemTime) (d : Duration) :
    checkedAddDuration build a d = .ok (ofTotal (a.total + d.total)) := by
  have ha := a.nanoseconds_lt
  have hd := d.nanos_lt
  have hnone : a.total + d.total ≥ 2 ^ 64 * nanosecondsPerSecond →
      .ok none = (.ok (ofTotal (a.total + d.total)) : Except Panic _) := fun hbig =>
    congrArg _ (ofTotal_eq_none.mpr (Nat.not_lt.mpr hbig)).symm
  unfold checkedAddDuration checkedAdd total Duration.total nanosecondsPerSecond at *
  rw [if_pos (show a.nanoseconds + d.nanos < 2 ^ 32 by omega)]
  split_ifs with hsecs
  · simp only
    split_ifs with hcarry hone
    · rw [Build.sub_of_le hcarry]
      refine congrArg _ (ofTotal_eq ?_ ?_).symm <;> unfold nanosecondsPerSecond <;> omega
    · exact hnone (by omega)
    · refine congrArg _ (ofTotal_eq ?_ ?_).symm <;> unfold nanosecondsPerSecond <;> omega
  · exact hnone (by omega)

/-- Adding is exact for every instant and duration. -/
theorem addExact (build : Build) (a : SystemTime) (d : Duration) : AddExact build a d := by
  refine ⟨_, checkedAddDuration_eq build a d, ?_⟩
  split
  case h_1 ht => exact total_of_ofTotal ht
  case h_2 ht => exact ofTotal_eq_none.mp ht

/-- Subtracting a duration succeeds just when neither field has to borrow. -/
theorem checkedSubDuration_eq (build : Build) (a : SystemTime) (d : Duration) :
    checkedSubDuration build a d = .ok
      (if d.secs ≤ a.seconds ∧ d.nanos ≤ a.nanoseconds then
        SystemTime.new (a.seconds - d.secs) (a.nanoseconds - d.nanos)
      else none) := by
  have ha := a.nanoseconds_lt
  by_cases hsecs : d.secs ≤ a.seconds
  · by_cases hnanos : d.nanos ≤ a.nanoseconds
    · -- The test for an underflow of the nanoseconds never succeeds.
      have hsmall : ¬ nanosecondsPerSecond ≤ a.nanoseconds - d.nanos := by omega
      simp only [checkedSubDuration, Sys.checkedSub, hsecs, hnanos, hsmall, and_self,
        if_true, if_false]
    · simp only [checkedSubDuration, Sys.checkedSub, hsecs, hnanos, and_false, if_true,
        if_false]
  · simp only [checkedSubDuration, Sys.checkedSub, hsecs, false_and, if_false]

theorem checkedSubDuration_of_le (hs : d.secs ≤ a.seconds) (hn : d.nanos ≤ a.nanoseconds) :
    checkedSubDuration build a d = .ok (some ⟨a.seconds - d.secs, a.nanoseconds - d.nanos,
      (Nat.sub_le _ _).trans_lt a.seconds_lt,
      (Nat.sub_le _ _).trans_lt a.nanoseconds_lt⟩) := by
  rw [checkedSubDuration_eq, if_pos ⟨hs, hn⟩, new_eq]

/-- Subtracting is exact just when the nanoseconds do not borrow from a later second. -/
theorem subExact_iff : SubExact build a d ↔ ¬ (a.nanoseconds < d.nanos ∧ d.secs < a.seconds) := by
  have ha := a.nanoseconds_lt
  have hd := d.nanos_lt
  by_cases hle : d.secs ≤ a.seconds ∧ d.nanos ≤ a.nanoseconds
  · have hexact : SubExact build a d := by
      refine ⟨_, checkedSubDuration_of_le hle.1 hle.2, ?_⟩
      simp only [total, Duration.total, nanosecondsPerSecond]
      omega
    exact iff_of_true hexact (by omega)
  · have hnone : checkedSubDuration build a d = .ok none := by
      rw [checkedSubDuration_eq, if_neg hle]
    have hsub : SubExact build a d ↔ a.total < d.total := by
      simp only [SubExact, hnone, Except.ok.injEq, exists_eq_left']
    rw [hsub]
    simp only [total, Duration.total, nanosecondsPerSecond] at *
    omega

/-- The lexicographic order of the fields is the order of the totals. -/
theorem cmp_eq_compare_total (a b : SystemTime) : cmp a b = compare a.total b.total := by
  rcases Nat.lt_trichotomy a.seconds b.seconds with hlt | heq | hgt
  · have htotal : a.total < b.total := by
      rw [← Nat.not_le, total_le_total_iff]
      omega
    rw [cmp, compare_lt_iff_lt.mpr hlt, compare_lt_iff_lt.mpr htotal]
  · have hseconds : compare a.seconds b.seconds = .eq := compare_eq_iff_eq.mpr heq
    have htotal : compare a.total b.total = compare a.nanoseconds b.nanoseconds := by
      simp only [total, heq, Nat.compare_eq_ite_lt, Nat.add_lt_add_iff_left]
    rw [cmp, hseconds, htotal]
  · have htotal : b.total < a.total := by
      rw [← Nat.not_le, total_le_total_iff]
      omega
    rw [cmp, compare_gt_iff_gt.mpr hgt, compare_gt_iff_gt.mpr htotal]

/-- A duration can be taken off again just when adding it did not carry a second. -/
theorem roundTrip_iff :
    RoundTrip build a d ↔
      ¬ (nanosecondsPerSecond ≤ a.nanoseconds + d.nanos ∧
        Representable (a.total + d.total)) := by
  have ha := a.nanoseconds_lt
  have hd := d.nanos_lt
  constructor
  · rintro htrip ⟨hcarry, hroom⟩
    obtain ⟨t, ht⟩ := Option.ne_none_iff_exists'.mp (ofTotal_eq_none.not.mpr (not_not.mpr hroom))
    have htotal := total_of_ofTotal ht
    have hback := htrip t (by rw [checkedAddDuration_eq, ht])
    rw [checkedSubDuration_eq, if_neg] at hback
    · cases hback
    · have hlt := t.nanoseconds_lt
      simp only [total, Duration.total, nanosecondsPerSecond] at *
      omega
  · intro hnot t ht
    rw [checkedAddDuration_eq, Except.ok.injEq] at ht
    have htotal := total_of_ofTotal ht
    have hlt := t.nanoseconds_lt
    have hcarry : ¬ nanosecondsPerSecond ≤ a.nanoseconds + d.nanos := fun hcarry =>
      hnot ⟨hcarry, by_contra fun hnone => by rw [ofTotal_eq_none.mpr hnone] at ht; cases ht⟩
    simp only [total, Duration.total, nanosecondsPerSecond] at *
    rw [checkedSubDuration_of_le (by omega) (by omega)]
    congr 2
    exact SystemTime.ext (by simp only; omega) (by simp only; omega)

/-- The operations on two instants and a duration agree with the arithmetic of the totals
just when no operation has to borrow a second: the difference within one second, the
subtraction from a later second, the way back from an addition that carried. -/
theorem exact_iff_no_borrow (build : Build) (a b : SystemTime) (d : Duration) :
    Exact build a b d ↔
      ¬ (a.seconds = b.seconds ∧ a.nanoseconds < b.nanoseconds) ∧
      ¬ (a.nanoseconds < d.nanos ∧ d.secs < a.seconds) ∧
      ¬ (nanosecondsPerSecond ≤ a.nanoseconds + d.nanos ∧
        Representable (a.total + d.total)) := by
  constructor
  · intro hexact
    exact ⟨differenceExact_iff.mp hexact.difference, subExact_iff.mp hexact.sub,
      roundTrip_iff.mp hexact.roundTrip⟩
  · rintro ⟨hdifference, hsub, htrip⟩
    exact ⟨differenceExact_iff.mpr hdifference, addExact build a d, subExact_iff.mpr hsub,
      cmp_eq_compare_total a b, roundTrip_iff.mpr htrip⟩

/-- Half a second after the epoch. -/
def half : SystemTime := ⟨0, 500000000, by decide, by decide⟩
/-- One second after the epoch. -/
def one : SystemTime := ⟨1, 0, by decide, by decide⟩
/-- The duration between the two. -/
def halfSecond : Duration := ⟨0, 500000000, by decide, by decide⟩

/-- Half a second before one second is refused, adding it again to half a second cannot be
undone, and the difference of the epoch and half a second is not the half second. -/
theorem exact_fails_at_half :
    checkedSubDuration .dev one halfSecond = .ok none ∧
      ¬ SubExact .dev one halfSecond ∧ ¬ RoundTrip .release half halfSecond ∧
      ¬ DifferenceExact .dev ⟨0, 0, by decide, by decide⟩ half ∧
      ¬ DifferenceExact .release ⟨0, 0, by decide, by decide⟩ half := by
  refine ⟨rfl, ?_, ?_, ?_, ?_⟩
  · rw [subExact_iff]
    decide
  · rw [roundTrip_iff]
    exact fun hnot => hnot ⟨by decide, by change (_ : Nat) < _; decide⟩
  · exact not_differenceExact_of_tie rfl (by decide)
  · exact not_differenceExact_of_tie rfl (by decide)

end SystemTime
end Nanvix.Sys
