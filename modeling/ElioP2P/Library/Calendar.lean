import ElioP2P.Library.Bytes
import Mathlib.Algebra.Group.Int.Defs

/-!
# Dates and times of day

The Gregorian calendar as `gmtime` has it, for a day counted from 1 January
1970.  Years are counted from March on, so that a leap day is the last of its
year.  400 of them make an era; an era is cut into centuries, those into spans of
four years, and those into years, where the last part of each may be a day
longer.
-/

namespace ElioP2P.Library

@[ext]
structure Date where
  year : Int
  month : Nat
  day : Nat
  deriving DecidableEq

def splitDayOfEra (dayOfEra : Nat) : Nat × Nat :=
  let century := min (dayOfEra / 36524) 3
  let dayOfCentury := dayOfEra - 36524 * century
  let dayOfSpan := dayOfCentury % 1461
  let year := min (dayOfSpan / 365) 3
  (100 * century + 4 * (dayOfCentury / 1461) + year, dayOfSpan - 365 * year)

def monthStart (month : Nat) : Nat := (153 * month + 2) / 5

def splitDayOfYear (dayOfYear : Nat) : Nat × Nat :=
  let month := (5 * dayOfYear + 2) / 153
  (month, dayOfYear - monthStart month)

def civilDate (days : Int) : Date :=
  let era := (days + 719468) / 146097
  let (year, dayOfYear) := splitDayOfEra ((days + 719468) % 146097).toNat
  let (month, day) := splitDayOfYear dayOfYear
  { year := 400 * era + year + if month < 10 then 0 else 1
    month := if month < 10 then month + 3 else month - 9
    day := day + 1 }

example : civilDate 0 = ⟨1970, 1, 1⟩ ∧ civilDate 19782 = ⟨2024, 2, 29⟩ ∧
    civilDate (-1) = ⟨1969, 12, 31⟩ := by decide

/-! ## The day of a date -/

def yearStart (year : Nat) : Nat :=
  36524 * (year / 100) + 1461 * (year % 100 / 4) + 365 * (year % 4)

def dayOfDate (date : Date) : Int :=
  let month := if date.month < 3 then date.month + 9 else date.month - 3
  let year := if date.month < 3 then date.year - 1 else date.year
  146097 * (year / 400) + yearStart (year % 400).toNat + monthStart month + date.day - 719469

theorem splitDayOfEra_spec {dayOfEra : Nat} (h : dayOfEra < 146097) :
    (splitDayOfEra dayOfEra).1 < 400 ∧ (splitDayOfEra dayOfEra).2 < 366 ∧
      yearStart (splitDayOfEra dayOfEra).1 + (splitDayOfEra dayOfEra).2 = dayOfEra := by
  simp only [yearStart, splitDayOfEra]
  generalize hcentury : min (dayOfEra / 36524) 3 = century
  have hdayOfCentury : century ≤ 3 ∧ 36524 * century ≤ dayOfEra ∧
      dayOfEra - 36524 * century < 36525 := by omega
  generalize hday : dayOfEra - 36524 * century = dayOfCentury at hdayOfCentury ⊢
  generalize hspan : dayOfCentury / 1461 = span
  generalize hdayOfSpan : dayOfCentury % 1461 = dayOfSpan
  generalize hyear : min (dayOfSpan / 365) 3 = year
  have hspanBound : span < 25 ∧ dayOfCentury = 1461 * span + dayOfSpan ∧ dayOfSpan < 1461 := by
    omega
  have hyearBound : year ≤ 3 ∧ 365 * year ≤ dayOfSpan ∧ dayOfSpan - 365 * year < 366 := by omega
  refine ⟨by omega, by omega, ?_⟩
  have hparts : (100 * century + 4 * span + year) / 100 = century ∧
      (100 * century + 4 * span + year) % 100 / 4 = span ∧
      (100 * century + 4 * span + year) % 4 = year := by omega
  rw [hparts.1, hparts.2.1, hparts.2.2]
  omega

theorem splitDayOfYear_spec {dayOfYear : Nat} (h : dayOfYear < 366) :
    (splitDayOfYear dayOfYear).1 < 12 ∧ (splitDayOfYear dayOfYear).2 < 31 ∧
      monthStart (splitDayOfYear dayOfYear).1 + (splitDayOfYear dayOfYear).2 = dayOfYear := by
  simp only [splitDayOfYear, monthStart]
  omega

/-- The date of a day has a month and a day of at most two digits, and the day
can be told from it. -/
theorem civilDate_spec (days : Int) :
    dayOfDate (civilDate days) = days ∧ (civilDate days).month < 13 ∧
      (civilDate days).day < 32 := by
  have hmod : 0 ≤ (days + 719468) % 146097 ∧ (days + 719468) % 146097 < 146097 := by omega
  have hdayOfEra : ((days + 719468) % 146097).toNat < 146097 := by omega
  obtain ⟨hyear, hdayOfYear, hsum⟩ := splitDayOfEra_spec hdayOfEra
  obtain ⟨hmonth, hday, hsum'⟩ := splitDayOfYear_spec hdayOfYear
  simp only [civilDate]
  generalize splitDayOfEra ((days + 719468) % 146097).toNat = yearAndDay at *
  obtain ⟨year, dayOfYear⟩ := yearAndDay
  simp only at hyear hdayOfYear hsum hmonth hday hsum' ⊢
  generalize splitDayOfYear dayOfYear = monthAndDay at *
  obtain ⟨month, day⟩ := monthAndDay
  simp only at hmonth hday hsum' ⊢
  have hback : ∀ era : Int, (400 * era + (year : Int)) / 400 = era ∧
      ((400 * era + (year : Int)) % 400).toNat = year := by omega
  refine ⟨?_, by split <;> omega, by omega⟩
  by_cases hspring : month < 10
  · simp only [dayOfDate, if_pos hspring]
    rw [if_neg (by omega), if_neg (by omega), Int.add_zero, (hback _).1, (hback _).2,
      Nat.add_sub_cancel]
    omega
  · simp only [dayOfDate, if_neg hspring]
    rw [if_pos (by omega), if_pos (by omega), Int.add_sub_cancel, (hback _).1, (hback _).2,
      Nat.sub_add_cancel (by omega)]
    omega

theorem civilDate_inj {days days' : Int} : civilDate days = civilDate days' ↔ days = days' := by
  refine ⟨fun h => ?_, congrArg civilDate⟩
  rw [← (civilDate_spec days).1, h, (civilDate_spec days').1]

/-! ## Readings of a clock -/

/-- A reading of `system_clock`: nanoseconds since the beginning of 1970 in 64
bits. -/
structure Instant where
  nanoseconds : Int
  lower : -2 ^ 63 ≤ nanoseconds
  upper : nanoseconds < 2 ^ 63

namespace Instant

/-- `to_time_t`, which rounds towards zero. -/
def seconds (i : Instant) : Int := i.nanoseconds.tdiv 1000000000

def day (i : Instant) : Int := i.seconds / 86400

def secondOfDay (i : Instant) : Nat := (i.seconds % 86400).toNat

end Instant

def twoDigits (n : Nat) : Bytes := [UInt8.ofNat (48 + n / 10), UInt8.ofNat (48 + n % 10)]

/-- `%Y%m%d` -/
def formatDate (date : Date) : Bytes :=
  decimal date.year.toNat ++ (twoDigits date.month ++ twoDigits date.day)

/-- `%H%M%S` -/
def formatTime (secondOfDay : Nat) : Bytes :=
  twoDigits (secondOfDay / 3600) ++
    (twoDigits (secondOfDay / 60 % 60) ++ twoDigits (secondOfDay % 60))

theorem twoDigits_inj {m n : Nat} (hm : m < 100) (hn : n < 100) :
    twoDigits m = twoDigits n ↔ m = n := by
  refine ⟨fun h => ?_, congrArg twoDigits⟩
  obtain ⟨htens, hones, -⟩ : UInt8.ofNat (48 + m / 10) = UInt8.ofNat (48 + n / 10) ∧
      UInt8.ofNat (48 + m % 10) = UInt8.ofNat (48 + n % 10) ∧ True := by
    simpa [twoDigits] using h
  have htens' := congrArg UInt8.toNat htens
  have hones' := congrArg UInt8.toNat hones
  rw [UInt8.toNat_ofNat', UInt8.toNat_ofNat'] at htens' hones'
  omega

theorem length_decimal_of_four_digits {n : Nat} (hlow : 1000 ≤ n) (hhigh : n < 10000) :
    (decimal n).length = 4 := by
  rw [decimal, List.length_map, Nat.toDigits_of_base_le (by decide) (by omega),
    Nat.toDigits_of_base_le (by decide) (by omega), Nat.toDigits_of_base_le (by decide) (by omega),
    Nat.toDigits_of_lt_base (by omega)]
  rfl

theorem yearStart_lt {year : Nat} (h : year < 400) : yearStart year < 146097 := by
  unfold yearStart
  omega

theorem Instant.year_spec (i : Instant) :
    1000 ≤ (civilDate i.day).year ∧ (civilDate i.day).year < 10000 := by
  have hlower := i.lower
  have hupper := i.upper
  have hseconds : -9223372037 ≤ i.seconds ∧ i.seconds ≤ 9223372037 := by
    have hsign : Int.sign 1000000000 = 1 := rfl
    rw [seconds, Int.tdiv_eq_ediv, hsign]
    split <;> omega
  have hday : -106753 ≤ i.day ∧ i.day ≤ 106753 := by
    rw [day]
    omega
  obtain ⟨hback, hmonth, hdate⟩ := civilDate_spec i.day
  have hstart : ∀ year : Int, yearStart (year % 400).toNat < 146097 :=
    fun year => yearStart_lt (by omega)
  have hmonthStart : ∀ month, month < 13 → monthStart month < 400 := by
    intro month hmonth
    unfold monthStart
    omega
  generalize civilDate i.day = date at *
  unfold dayOfDate at hback
  split at hback
  · rename_i hspring
    have h1 := hstart (date.year - 1)
    have h2 := hmonthStart (date.month + 9) (by omega)
    simp only at hback
    omega
  · rename_i hspring
    have h1 := hstart date.year
    have h2 := hmonthStart (date.month - 3) (by omega)
    simp only at hback
    omega

theorem Instant.length_formatDate (i : Instant) : (formatDate (civilDate i.day)).length = 8 := by
  obtain ⟨hlow, hhigh⟩ := i.year_spec
  rw [formatDate, List.length_append, length_decimal_of_four_digits (by omega) (by omega)]
  rfl

theorem Instant.formatDate_inj {i j : Instant} :
    formatDate (civilDate i.day) = formatDate (civilDate j.day) ↔ i.day = j.day := by
  refine ⟨fun h => ?_, fun h => by rw [h]⟩
  obtain ⟨hlow, hhigh⟩ := i.year_spec
  obtain ⟨hlow', hhigh'⟩ := j.year_spec
  obtain ⟨-, hmonth, hdate⟩ := civilDate_spec i.day
  obtain ⟨-, hmonth', hdate'⟩ := civilDate_spec j.day
  rw [← civilDate_inj]
  generalize civilDate i.day = date at *
  generalize civilDate j.day = date' at *
  obtain ⟨hyear, hrest⟩ := List.append_inj h (by
    rw [length_decimal_of_four_digits (by omega) (by omega),
      length_decimal_of_four_digits (by omega) (by omega)])
  obtain ⟨hmonths, hdays⟩ := List.append_inj hrest rfl
  have hyears := decimal_injective hyear
  exact Date.ext (by omega) ((twoDigits_inj (by omega) (by omega)).mp hmonths)
    ((twoDigits_inj (by omega) (by omega)).mp hdays)

end ElioP2P.Library
