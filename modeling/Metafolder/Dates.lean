import Metafolder.Calendar
import Metafolder.Decimals

/-!
# Dates and the days since the epoch

The two conversions between a day and its date are inverse, and the day of a date is the number of
days the calendar has from the epoch to it.
-/

namespace Metafolder

open Calendar

/-- The date of a day, as `civil_from_days` finds it. -/
def civilDate (days : Int) : Date :=
  let (year, month, day) := civilFromDays days
  ⟨year, month, day⟩

/-- The day of a date, as `days_from_civil` finds it. -/
def dateDays (date : Date) : Int := daysFromCivil date.year date.month date.day

/-- The first day. -/
def epoch : Date := ⟨1970, 1, 1⟩

/-! ### Rounding down -/

/-- Dividing as the code does, a negative number lowered first, rounds down. -/
theorem tdiv_lowered {unit : Int} (positive : 0 < unit) (n : Int) :
    (if 0 ≤ n then n else n - (unit - 1)).tdiv unit = n / unit := by
  split
  · next low => exact Int.tdiv_eq_ediv_of_nonneg low
  · next below =>
    have low := Int.emod_nonneg n (Int.ne_of_gt positive)
    have high := Int.emod_lt_of_pos n positive
    have parts := Int.mul_ediv_add_emod n unit
    have flipped : n - (unit - 1) = -(unit - 1 - n % unit + -(n / unit) * unit) := by
      rw [Int.neg_mul, Int.mul_comm (n / unit)]
      omega
    rw [flipped, Int.neg_tdiv, Int.tdiv_eq_ediv_of_nonneg (by omega),
      Int.add_mul_ediv_right _ _ (Int.ne_of_gt positive),
      Int.ediv_eq_zero_of_lt (by omega) (by omega)]
    omega

/-! ### From a date to its day -/

theorem yearStart_era (era year : Int) :
    yearStart (year + era * 400) = era * 146097 + yearStart year := by
  rw [yearStart, yearStart]
  omega

/-- The day of a date is the number of days before it since March of the year 0, counted from the
epoch. -/
theorem dateDays_eq {date : Date} (low : 1 ≤ date.month) (high : date.month ≤ 12) :
    dateDays date = dayNumber date - 719468 := by
  obtain ⟨year, month, day⟩ := date
  have months : 0 ≤ marchMonth ⟨year, month, day⟩ := (marchMonth_bounds low high).1
  have month_eq : (if 2 < month then month - 3 else month + 9) = marchMonth ⟨year, month, day⟩ := by
    rw [marchMonth]
    dsimp only
    split
    · rw [if_neg (by omega)]
    · rw [if_pos (by omega)]
  have year_eq : (if month ≤ 2 then year - 1 else year) = marchYear ⟨year, month, day⟩ := rfl
  rw [dateDays, daysFromCivil, dayNumber]
  dsimp only
  rw [year_eq, month_eq]
  generalize marchYear ⟨year, month, day⟩ = start
  generalize marchMonth ⟨year, month, day⟩ = since at months ⊢
  have era : (if 0 ≤ start then start else start - 399).tdiv 400 = start / 400 :=
    @tdiv_lowered 400 (by decide) start
  rw [era, Int.tdiv_eq_ediv_of_nonneg (by omega), Int.tdiv_eq_ediv_of_nonneg (by omega),
    Int.tdiv_eq_ediv_of_nonneg (by omega), yearStart, monthStart]
  omega

/-! ### From a day to its date -/

/-- A day of an era is in the year of it that is found. -/
theorem era_year {days year : Int} (low : 0 ≤ days) (high : days ≤ 146096)
    (found : (days - days / 1460 + days / 36524 - days / 146096) / 365 = year) :
    0 ≤ year ∧ year ≤ 399 ∧ yearStart year ≤ days ∧ days < yearStart (year + 1) := by
  have last : days / 146096 = 0 ∨ days = 146096 := by omega
  rcases last with last | rfl
  · have centuries : days / 36524 = 0 ∨ days / 36524 = 1 ∨ days / 36524 = 2 ∨ days / 36524 = 3 ∨
        days / 36524 = 4 := by omega
    have century : year / 100 = days / 36524 := by
      rcases centuries with same | same | same | same | same
      all_goals omega
    have bounds : 0 ≤ year ∧ year ≤ 399 := by omega
    have fours : year / 4 ≤ days / 1460 := by omega
    have next : days / 1460 ≤ year / 4 + 1 := by omega
    have era : year / 400 = 0 := by omega
    have long := yearStart_succ year
    refine ⟨bounds.1, bounds.2, ?_, ?_⟩
    · rw [yearStart]
      omega
    · rw [long, yearStart]
      split
      · omega
      · next plain =>
        rw [Leap] at plain
        have turn : (year + 1) % 4 ≠ 0 ∨ (year + 1) % 100 = 0 := by omega
        rcases turn with within | ends
        · have early : year % 4 ≤ 2 := by omega
          have cycle : days / 1460 = year / 4 ∨ days / 1460 = year / 4 + 1 := by omega
          rcases cycle with same | after
          · omega
          · have late : 1460 * (year / 4 + 1) ≤ days := by omega
            omega
        · have final : year = 100 * (days / 36524) + 99 := by omega
          omega
  · obtain rfl := found
    decide

/-- A day of a year from March on is in the month of it that is found. -/
theorem year_month {days month : Int} (low : 0 ≤ days) (high : days ≤ 365)
    (found : (5 * days + 2) / 153 = month) :
    0 ≤ month ∧ month ≤ 11 ∧ monthStart month ≤ days ∧ days < monthStart (month + 1) := by
  rw [monthStart, monthStart]
  omega

/-- A day's date is one of the calendar, and its number is the day's. -/
theorem civilDate_spec (days : Int) :
    (civilDate days).Valid ∧ dayNumber (civilDate days) = days + 719468 := by
  have era : (if 0 ≤ days + 719468 then days + 719468 else days + 719468 - 146096).tdiv 146097 =
      (days + 719468) / 146097 := @tdiv_lowered 146097 (by decide) (days + 719468)
  have inside : 0 ≤ days + 719468 - (days + 719468) / 146097 * 146097 ∧
      days + 719468 - (days + 719468) / 146097 * 146097 ≤ 146096 := by omega
  rw [civilDate, civilFromDays]
  dsimp only
  rw [era]
  generalize cycle : (days + 719468) / 146097 = era at inside ⊢
  generalize rest : days + 719468 - era * 146097 = day at inside ⊢
  generalize found : (day - day / 1460 + day / 36524 - day / 146096) / 365 = year
  obtain ⟨low, high, after, before⟩ := era_year inside.1 inside.2 found
  have start : yearStart year = 365 * year + year / 4 - year / 100 := by
    rw [yearStart]
    omega
  rw [← start]
  have length := yearStart_succ year
  generalize left : day - yearStart year = since
  have bounds : 0 ≤ since ∧ since ≤ 365 := by
    split at length
    · omega
    · omega
  generalize reached : (5 * since + 2) / 153 = month
  obtain ⟨first, last, begun, ends⟩ := year_month bounds.1 bounds.2 reached
  have month_start : (153 * month + 2) / 5 = monthStart month := rfl
  rw [month_start]
  by_cases late : month < 10
  · have march : ¬month + 3 ≤ 2 := by omega
    simp only [if_pos late, if_neg march]
    have years : marchYear ⟨year + era * 400, month + 3, since - monthStart month + 1⟩ =
        year + era * 400 := if_neg march
    have months : marchMonth ⟨year + era * 400, month + 3, since - monthStart month + 1⟩ = month :=
      (if_neg march).trans (Int.add_sub_cancel _ _)
    have short := monthDays_eq (year + era * 400) (by omega) (by omega) (by omega : month + 3 ≠ 2)
    change _ = monthStart (marchMonth ⟨year + era * 400, month + 3, since - monthStart month + 1⟩ + 1) -
      monthStart (marchMonth ⟨year + era * 400, month + 3, since - monthStart month + 1⟩) at short
    rw [months] at short
    refine ⟨⟨by dsimp only; omega, by dsimp only; omega⟩, ?_⟩
    rw [dayNumber, years, months, yearStart_era]
    dsimp only
    omega
  · have winter : month - 9 ≤ 2 := by omega
    simp only [if_neg late, if_pos winter]
    have years : marchYear ⟨year + era * 400 + 1, month - 9, since - monthStart month + 1⟩ =
        year + era * 400 := (if_pos winter).trans (Int.add_sub_cancel _ _)
    have months : marchMonth ⟨year + era * 400 + 1, month - 9, since - monthStart month + 1⟩ =
        month := (if_pos winter).trans (Int.sub_add_cancel _ _)
    have short : since - monthStart month + 1 ≤ monthDays (year + era * 400 + 1) (month - 9) := by
      have which : month = 10 ∨ month = 11 := by omega
      rcases which with rfl | rfl
      · change since - 306 + 1 ≤ 31
        change since < 337 at ends
        omega
      · have turns := monthDays_february (year + era * 400 + 1)
        have next := yearStart_era era (year + 1)
        rw [Int.add_sub_cancel, yearStart_era] at turns
        rw [Int.add_right_comm] at next
        change since - monthStart 11 + 1 ≤ monthDays (year + era * 400 + 1) 2
        omega
    refine ⟨⟨by dsimp only; omega, by dsimp only; omega⟩, ?_⟩
    rw [dayNumber, years, months, yearStart_era]
    dsimp only
    omega

/-! ### There and back -/

theorem dateDays_civilDate (days : Int) : dateDays (civilDate days) = days := by
  obtain ⟨valid, number⟩ := civilDate_spec days
  rw [dateDays_eq valid.month.1 valid.month.2, number]
  omega

theorem numbers_dateDays : Numbers dateDays where
  next date valid := by
    rw [dateDays_eq valid.month.1 valid.month.2, dateDays_eq valid.next.month.1 valid.next.month.2,
      numbers_dayNumber.next date valid]
    omega
  apart one other first second same := by
    rw [dateDays_eq first.month.1 first.month.2, dateDays_eq second.month.1 second.month.2] at same
    exact numbers_dayNumber.apart one other first second (by omega)

theorem civilDate_dateDays {date : Date} (valid : date.Valid) : civilDate (dateDays date) = date :=
  numbers_dateDays.apart _ _ (civilDate_spec _).1 valid (dateDays_civilDate _)

/-- The day of a date is the days from the epoch to it. -/
theorem elapsed_dateDays {date : Date} (valid : date.Valid) : Elapsed epoch date (dateDays date) :=
  numbers_dateDays.elapsed ⟨by decide, by decide⟩ (by decide) valid

end Metafolder
