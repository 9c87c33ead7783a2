import Mathlib.Algebra.Order.Ring.Int
import Mathlib.Algebra.Ring.Divisibility.Basic
import Mathlib.Data.List.Pairwise

/-! The calendar: dates of the proleptic Gregorian calendar as numbers of days, instants cut off
to hours, days and weeks, going back by a month, and series of instants at equal distances.
Instants are nanoseconds from the start of 1970 in one time zone without shifts. -/
namespace Calendar

def isLeap (year : Int) : Bool := year % 4 = 0 && (year % 100 ≠ 0 || year % 400 = 0)

def monthLength (leap : Bool) : Nat → Nat
  | 2 => if leap then 29 else 28
  | 4 | 6 | 9 | 11 => 30
  | _ => 31

def daysBeforeMonth (leap : Bool) : Nat → Nat
  | 0 | 1 => 0
  | month + 2 => daysBeforeMonth leap (month + 1) + monthLength leap (month + 1)

def daysBeforeYear (year : Int) : Int :=
  365 * (year - 1) + (year - 1) / 4 - (year - 1) / 100 + (year - 1) / 400

structure Date where
  year : Int
  month : Nat
  day : Nat
  month_pos : 1 ≤ month
  month_le : month ≤ 12
  day_pos : 1 ≤ day
  day_le : day ≤ monthLength (isLeap year) month
  deriving DecidableEq, Repr

theorem monthLength_bounds (leap : Bool) (month : Nat) :
    28 ≤ monthLength leap month ∧ monthLength leap month ≤ 31 := by
  unfold monthLength
  split
  · split <;> omega
  · omega
  · omega
  · omega
  · omega
  · omega

theorem monthLength_eq_iff {leap : Bool} {month : Nat} :
    monthLength leap month = 28 ↔ month = 2 ∧ leap = false := by
  unfold monthLength
  split <;> cases leap <;> simp_all

theorem daysBeforeYear_succ (year : Int) : daysBeforeYear (year + 1) = daysBeforeYear year +
    (daysBeforeMonth (isLeap year) 12 + monthLength (isLeap year) 12 : Nat) := by
  have hleap : daysBeforeMonth true 12 + monthLength true 12 = 366 := by decide
  have hplain : daysBeforeMonth false 12 + monthLength false 12 = 365 := by decide
  unfold daysBeforeYear
  cases h : isLeap year with
  | true =>
      simp only [isLeap, Bool.and_eq_true, Bool.or_eq_true, decide_eq_true_eq] at h
      rw [hleap]
      omega
  | false =>
      simp only [isLeap, Bool.and_eq_false_iff, Bool.or_eq_false_iff, decide_eq_false_iff_not]
        at h
      rw [hplain]
      omega

/-- The year of a day counted from the first day of year 1; the estimate by the mean length of
a year is at most one short. -/
def yearAt (days : Int) : Int :=
  if daysBeforeYear (400 * days / 146097 + 2) ≤ days then 400 * days / 146097 + 2
  else 400 * days / 146097 + 1

theorem yearAt_spec (days : Int) :
    daysBeforeYear (yearAt days) ≤ days ∧ days < daysBeforeYear (yearAt days + 1) := by
  unfold yearAt
  split
  · next h =>
      refine ⟨h, ?_⟩
      unfold daysBeforeYear
      omega
  · next h =>
      refine ⟨?_, by rw [Int.add_assoc]; exact Int.lt_of_not_ge h⟩
      unfold daysBeforeYear
      omega

/-- The month of a day of the year. -/
def monthAt (leap : Bool) (dayOfYear : Nat) : Nat :=
  ((List.range 12).filter (fun i => daysBeforeMonth leap (i + 1) ≤ dayOfYear)).length

theorem monthAt_spec : ∀ leap : Bool, ∀ dayOfYear : Fin 366,
    dayOfYear < daysBeforeMonth leap 12 + monthLength leap 12 →
    1 ≤ monthAt leap dayOfYear ∧ monthAt leap dayOfYear ≤ 12 ∧
      daysBeforeMonth leap (monthAt leap dayOfYear) ≤ dayOfYear ∧
      dayOfYear < daysBeforeMonth leap (monthAt leap dayOfYear) +
        monthLength leap (monthAt leap dayOfYear) := by
  decide +kernel

theorem dayOfYear_lt (days : Int) : (days - daysBeforeYear (yearAt days)).toNat <
    daysBeforeMonth (isLeap (yearAt days)) 12 + monthLength (isLeap (yearAt days)) 12 := by
  have hyear := yearAt_spec days
  have hsucc := daysBeforeYear_succ (yearAt days)
  omega

theorem yearLength_le (leap : Bool) : daysBeforeMonth leap 12 + monthLength leap 12 ≤ 366 := by
  revert leap
  decide

theorem monthAt_day (days : Int) :
    let leap := isLeap (yearAt days)
    let dayOfYear := (days - daysBeforeYear (yearAt days)).toNat
    1 ≤ monthAt leap dayOfYear ∧ monthAt leap dayOfYear ≤ 12 ∧
      daysBeforeMonth leap (monthAt leap dayOfYear) ≤ dayOfYear ∧
      dayOfYear < daysBeforeMonth leap (monthAt leap dayOfYear) +
        monthLength leap (monthAt leap dayOfYear) := by
  have hlt := dayOfYear_lt days
  exact monthAt_spec _ ⟨_, hlt.trans_le (yearLength_le _)⟩ hlt

namespace Date

/-- The days from the start of 1970. -/
def toDays (d : Date) : Int :=
  daysBeforeYear d.year + daysBeforeMonth (isLeap d.year) d.month + d.day - 1 -
    daysBeforeYear 1970

def ofDays (days : Int) : Date :=
  let sinceYear1 := days + daysBeforeYear 1970
  let year := yearAt sinceYear1
  let dayOfYear := (sinceYear1 - daysBeforeYear year).toNat
  let month := monthAt (isLeap year) dayOfYear
  { year := year
    month := month
    day := dayOfYear - daysBeforeMonth (isLeap year) month + 1
    month_pos := (monthAt_day sinceYear1).1
    month_le := (monthAt_day sinceYear1).2.1
    day_pos := Nat.succ_pos _
    day_le := by
      have hday : daysBeforeMonth (isLeap year) month ≤ dayOfYear ∧
          dayOfYear < daysBeforeMonth (isLeap year) month + monthLength (isLeap year) month :=
        (monthAt_day sinceYear1).2.2
      omega }

theorem toDays_ofDays (days : Int) : (ofDays days).toDays = days := by
  have hyear := (yearAt_spec (days + daysBeforeYear 1970)).1
  have hmonth := (monthAt_day (days + daysBeforeYear 1970)).2.2.1
  simp only [toDays, ofDays]
  omega

/-- The year and the month before the month of a date. -/
def monthBefore (d : Date) : Int × Nat :=
  if d.month = 1 then (d.year - 1, 12) else (d.year, d.month - 1)

theorem monthBefore_range (d : Date) : 1 ≤ d.monthBefore.2 ∧ d.monthBefore.2 ≤ 12 := by
  have hle := d.month_le
  have hpos := d.month_pos
  unfold monthBefore
  split <;> dsimp only <;> omega

/-- How many days the month before has. -/
def lengthBefore (d : Date) : Nat := monthLength (isLeap d.monthBefore.1) d.monthBefore.2

def minusMonth (d : Date) : Date where
  year := d.monthBefore.1
  month := d.monthBefore.2
  day := min d.day d.lengthBefore
  month_pos := d.monthBefore_range.1
  month_le := d.monthBefore_range.2
  day_pos := Nat.le_min.mpr
    ⟨d.day_pos, Nat.le_trans (by decide) (monthLength_bounds _ _).1⟩
  day_le := Nat.min_le_right _ _

theorem monthBefore_days (d : Date) :
    daysBeforeYear d.year + daysBeforeMonth (isLeap d.year) d.month =
      daysBeforeYear d.monthBefore.1 +
        daysBeforeMonth (isLeap d.monthBefore.1) d.monthBefore.2 + d.lengthBefore := by
  unfold lengthBefore monthBefore
  split
  · next hjanuary =>
      have hsucc := daysBeforeYear_succ (d.year - 1)
      rw [Int.sub_add_cancel] at hsucc
      rw [hjanuary, hsucc]
      simp only [daysBeforeMonth]
      omega
  · next hlater =>
      obtain ⟨month, hmonth⟩ : ∃ month, d.month = month + 2 :=
        ⟨d.month - 2, by have := d.month_pos; omega⟩
      rw [hmonth]
      simp only [daysBeforeMonth, show month + 2 - 1 = month + 1 from rfl]
      omega

/-- A month back is as many days as the month before has, or the day of the month if that is
more. -/
theorem toDays_sub_minusMonth (d : Date) :
    d.toDays - d.minusMonth.toDays = max d.day d.lengthBefore := by
  have hdays := d.monthBefore_days
  simp only [toDays, minusMonth]
  omega

/-- A month back is four weeks exactly from March into a February without a leap day. -/
theorem seven_dvd_minusMonth (d : Date) : 7 ∣ d.toDays - d.minusMonth.toDays ↔
    d.month = 3 ∧ isLeap d.year = false ∧ d.day ≤ 28 := by
  obtain ⟨hge, hle⟩ : 28 ≤ d.lengthBefore ∧ d.lengthBefore ≤ 31 := monthLength_bounds _ _
  have hday : d.day ≤ 31 := d.day_le.trans (monthLength_bounds _ _).2
  have hfour : d.lengthBefore = 28 ↔ d.month = 3 ∧ isLeap d.year = false := by
    have hpos := d.month_pos
    unfold lengthBefore
    rw [monthLength_eq_iff]
    unfold monthBefore
    split
    · simp only [show (12 : Nat) ≠ 2 by decide, false_and, false_iff]
      omega
    · exact and_congr (by dsimp only; omega) Iff.rfl
  rw [toDays_sub_minusMonth, ← and_assoc, ← hfour]
  omega

end Date

def hourLength : Int := 3600 * 1000000000

def dayLength : Int := 24 * hourLength

def dateOf (instant : Int) : Date := Date.ofDays (instant / dayLength)

def minusMonth (instant : Int) : Int :=
  (dateOf instant).minusMonth.toDays * dayLength + instant % dayLength

theorem sub_minusMonth (instant : Int) : instant - minusMonth instant =
    ((dateOf instant).toDays - (dateOf instant).minusMonth.toDays) * dayLength := by
  have hsplit := Int.mul_ediv_add_emod instant dayLength
  rw [Int.mul_comm] at hsplit
  rw [Int.sub_mul, minusMonth, dateOf, Date.toDays_ofDays]
  omega

theorem minusMonth_le (instant : Int) : minusMonth instant ≤ instant := by
  have hback := sub_minusMonth instant
  rw [Date.toDays_sub_minusMonth] at hback
  unfold dayLength hourLength at hback
  omega

/-- A length of time, and an instant from which instants are counted off in it. -/
structure Period where
  length : Int
  origin : Int
  length_pos : 0 < length

namespace Period

def hour : Period := ⟨hourLength, 0, by decide⟩

def day : Period := ⟨dayLength, 0, by decide⟩

/-- Weeks start on Mondays, the first of which is the fifth of January 1970. -/
def week : Period := ⟨7 * dayLength, 4 * dayLength, by decide⟩

variable (p : Period)

/-- The start of the period an instant lies in. -/
def trunc (instant : Int) : Int := instant - (instant - p.origin) % p.length

/-- Where a period starts. -/
def OnGrid (instant : Int) : Prop := p.length ∣ instant - p.origin

instance (instant : Int) : Decidable (p.OnGrid instant) :=
  inferInstanceAs (Decidable (p.length ∣ instant - p.origin))

theorem trunc_le (instant : Int) : p.trunc instant ≤ instant := by
  have hnonneg := Int.emod_nonneg (instant - p.origin) (Int.ne_of_gt p.length_pos)
  unfold trunc
  omega

theorem trunc_onGrid (instant : Int) : p.OnGrid (p.trunc instant) := by
  unfold OnGrid trunc
  have hsub : instant - (instant - p.origin) % p.length - p.origin =
      (instant - p.origin) - (instant - p.origin) % p.length := by omega
  rw [hsub]
  exact Int.dvd_self_sub_emod

theorem le_trunc {p : Period} {start instant : Int} (hstart : p.OnGrid start) :
    start ≤ p.trunc instant ↔ start ≤ instant := by
  constructor
  · intro hle
    exact hle.trans (p.trunc_le instant)
  · intro hle
    obtain ⟨k, hk⟩ := hstart
    have hmod := Int.mul_ediv_add_emod (instant - p.origin) p.length
    have hcount : k ≤ (instant - p.origin) / p.length := by
      apply (Int.le_ediv_iff_mul_le p.length_pos).mpr
      rw [Int.mul_comm, ← hk]
      exact Int.sub_le_sub_right hle _
    have hlength := Int.mul_le_mul_of_nonneg_left hcount p.length_pos.le
    unfold trunc
    omega

theorem onGrid_sub_iff {p : Period} {start instant : Int} (hstart : p.OnGrid start) :
    p.OnGrid instant ↔ p.length ∣ start - instant := by
  have hsub : start - instant = (start - p.origin) - (instant - p.origin) := by omega
  unfold OnGrid at hstart ⊢
  rw [hsub, dvd_sub_right hstart]

end Period

/-- The instants from a start up to a stop, a step apart. -/
def series (start stop step : Int) : List Int :=
  (List.range ((stop - start) / step + 1).toNat).map (fun i : Nat => start + (i : Int) * step)

theorem mem_series {start stop step instant : Int} (hstep : 0 < step) :
    instant ∈ series start stop step ↔
      start ≤ instant ∧ instant ≤ stop ∧ step ∣ instant - start := by
  have hcount : ∀ i : Nat,
      i < ((stop - start) / step + 1).toNat ↔ start + i * step ≤ stop := by
    intro i
    have hle : (i : Int) ≤ (stop - start) / step ↔ i * step ≤ stop - start :=
      Int.le_ediv_iff_mul_le hstep
    omega
  unfold series
  rw [List.mem_map]
  constructor
  · rintro ⟨i, hi, rfl⟩
    have hnonneg : 0 ≤ (i : Int) * step := Int.mul_nonneg (Int.natCast_nonneg i) hstep.le
    refine ⟨by omega, (hcount i).mp (List.mem_range.mp hi), ?_⟩
    rw [add_sub_cancel_left]
    exact Int.dvd_mul_left _ _
  · rintro ⟨hstart, hstop, k, hk⟩
    have hnonneg : 0 ≤ k := by
      by_contra hneg
      have := Int.mul_neg_of_pos_of_neg hstep (Int.not_le.mp hneg)
      omega
    obtain ⟨i, rfl⟩ := Int.eq_ofNat_of_zero_le hnonneg
    have hinstant : start + i * step = instant := by
      rw [Int.mul_comm] at hk
      omega
    exact ⟨i, List.mem_range.mpr ((hcount i).mpr (hinstant ▸ hstop)), hinstant⟩

theorem series_pairwise {start stop step : Int} (hstep : 0 < step) :
    (series start stop step).Pairwise (· < ·) := by
  unfold series
  rw [List.pairwise_map]
  refine List.pairwise_lt_range.imp ?_
  intro i j hlt
  have hmul := Int.mul_lt_mul_of_pos_right (Int.ofNat_lt.mpr hlt) hstep
  omega

theorem getLast?_series {start stop step : Int} (hstep : 0 < step) :
    (series start stop step).getLast? = some stop ↔ stop ∈ series start stop step := by
  constructor
  · exact List.mem_of_getLast?
  · intro hmem
    have hne := List.ne_nil_of_mem hmem
    rw [List.getLast?_eq_some_getLast hne]
    have hlast := (mem_series hstep).mp (List.getLast_mem hne)
    rw [← List.dropLast_concat_getLast hne, List.mem_append, List.mem_singleton] at hmem
    rcases hmem with hearlier | hlast
    · have hlt := (series_pairwise hstep).rel_dropLast_getLast hearlier
      omega
    · rw [← hlast]

/-- From the start of a period, the periods up to the one that an instant lies in. -/
theorem Period.mem_series {p : Period} {start instant : Int} (hstart : p.OnGrid start) (t : Int) :
    t ∈ series start (p.trunc instant) p.length ↔ p.OnGrid t ∧ start ≤ t ∧ t ≤ instant := by
  have hsub : t - start = (t - p.origin) - (start - p.origin) := by omega
  rw [Calendar.mem_series p.length_pos, hsub, dvd_sub_left hstart]
  constructor
  · rintro ⟨hle, htrunc, hgrid⟩
    exact ⟨hgrid, hle, htrunc.trans (p.trunc_le instant)⟩
  · rintro ⟨hgrid, hle, hinstant⟩
    exact ⟨hle, (Period.le_trunc hgrid).mpr hinstant, hgrid⟩

end Calendar
