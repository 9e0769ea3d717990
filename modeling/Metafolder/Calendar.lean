import Mathlib.Data.Int.DivMod
import Mathlib.Logic.Function.Iterate
import Mathlib.Tactic.Common

/-!
# The Gregorian calendar

The dates of the proleptic Gregorian calendar follow one another, and so the days between two of
them are counted.  A numbering of the dates that gives the next date the next number counts the days,
and one such numbering lets the years begin in March, where a leap year's day comes last.
-/

namespace Calendar

/-- A leap year has a 29th of February. -/
def Leap (year : Int) : Prop := year % 4 = 0 ∧ year % 100 ≠ 0 ∨ year % 400 = 0

instance (year : Int) : Decidable (Leap year) := inferInstanceAs (Decidable (_ ∨ _))

/-- The days of a month. -/
def monthDays (year month : Int) : Int :=
  if month = 2 then if Leap year then 29 else 28
  else if month = 4 ∨ month = 6 ∨ month = 9 ∨ month = 11 then 30
  else 31

/-- A day, by its year, month and day of the month. -/
structure Date where
  year : Int
  month : Int
  day : Int
  deriving DecidableEq

namespace Date

/-- The date is one of the calendar. -/
structure Valid (date : Date) : Prop where
  month : 1 ≤ date.month ∧ date.month ≤ 12
  day : 1 ≤ date.day ∧ date.day ≤ monthDays date.year date.month

/-- The day after. -/
def next (date : Date) : Date :=
  if date.day < monthDays date.year date.month then { date with day := date.day + 1 }
  else if date.month < 12 then ⟨date.year, date.month + 1, 1⟩
  else ⟨date.year + 1, 1, 1⟩

end Date

theorem monthDays_pos (year month : Int) : 1 ≤ monthDays year month := by
  rw [monthDays]
  split
  · split
    · omega
    · omega
  · split
    · omega
    · omega

theorem Date.Valid.next {date : Date} (valid : date.Valid) : date.next.Valid := by
  obtain ⟨month, day⟩ := valid
  rw [Date.next]
  split
  · next more => exact ⟨month, by dsimp only; omega⟩
  · split
    · next more =>
      have room := monthDays_pos date.year (date.month + 1)
      exact ⟨by dsimp only; omega, by dsimp only; omega⟩
    · have room := monthDays_pos (date.year + 1) 1
      exact ⟨by dsimp only; omega, by dsimp only; omega⟩

/-- The days from one date to another, negative where the other comes first. -/
def Elapsed (origin date : Date) (days : Int) : Prop :=
  0 ≤ days ∧ Date.next^[days.toNat] origin = date ∨
    days ≤ 0 ∧ Date.next^[(-days).toNat] date = origin

/-- A numbering of the dates: the next date has the next number, and no two have one. -/
structure Numbers (number : Date → Int) : Prop where
  next : ∀ date : Date, date.Valid → number date.next = number date + 1
  apart : ∀ one other : Date, one.Valid → other.Valid → number one = number other → one = other

namespace Numbers

variable {number : Date → Int} {origin date : Date}

theorem iterate (numbers : Numbers number) (valid : date.Valid) (days : Nat) :
    (Date.next^[days] date).Valid ∧ number (Date.next^[days] date) = number date + days := by
  induction days generalizing date with
  | zero => exact ⟨valid, by simp⟩
  | succ days ih =>
      obtain ⟨later, counted⟩ := ih valid.next
      rw [Function.iterate_succ_apply]
      refine ⟨later, counted.trans ?_⟩
      rw [numbers.next date valid]
      omega

/-- A numbering from an origin counts the days since. -/
theorem elapsed (numbers : Numbers number) (first : origin.Valid) (zero : number origin = 0)
    (valid : date.Valid) : Elapsed origin date (number date) := by
  rcases Int.le_total 0 (number date) with since | before
  · left
    obtain ⟨later, counted⟩ := numbers.iterate first (number date).toNat
    refine ⟨since, numbers.apart _ _ later valid ?_⟩
    omega
  · right
    obtain ⟨later, counted⟩ := numbers.iterate valid (-number date).toNat
    refine ⟨before, numbers.apart _ _ later first ?_⟩
    omega

end Numbers

/-! ### Years from March on -/

/-- The days before a year that begins in March, from the one of the year 0. -/
def yearStart (year : Int) : Int := 365 * year + year / 4 - year / 100 + year / 400

/-- The days before a month, from March. -/
def monthStart (month : Int) : Int := (153 * month + 2) / 5

/-- The years from March on, each a day longer before a leap year's March. -/
theorem yearStart_succ (year : Int) :
    yearStart (year + 1) = yearStart year + if Leap (year + 1) then 366 else 365 := by
  rw [yearStart, yearStart]
  split
  · next leap =>
    rw [Leap] at leap
    omega
  · next plain =>
    rw [Leap] at plain
    omega

theorem yearStart_mono {first second : Int} (less : first ≤ second) :
    yearStart first ≤ yearStart second := by
  have fours : first / 4 ≤ second / 4 := by omega
  have hundreds : second / 100 - first / 100 ≤ second - first := by omega
  have eras : first / 400 ≤ second / 400 := by omega
  rw [yearStart, yearStart]
  omega

/-- A day is in one year from March on. -/
theorem year_unique {first second days : Int} (after : yearStart first ≤ days)
    (before : days < yearStart (first + 1)) (later : yearStart second ≤ days)
    (earlier : days < yearStart (second + 1)) : first = second := by
  rcases Int.lt_trichotomy first second with less | same | more
  · have starts := yearStart_mono (Int.add_one_le_of_lt less)
    omega
  · exact same
  · have starts := yearStart_mono (Int.add_one_le_of_lt more)
    omega

/-- A day is in one month from March on. -/
theorem month_unique {first second days : Int} (after : monthStart first ≤ days)
    (before : days < monthStart (first + 1)) (later : monthStart second ≤ days)
    (earlier : days < monthStart (second + 1)) : first = second := by
  rw [monthStart] at after before later earlier
  omega

/-- The year, from March on, a day is in. -/
def marchYear (date : Date) : Int := if date.month ≤ 2 then date.year - 1 else date.year

/-- The month, from March on. -/
def marchMonth (date : Date) : Int := if date.month ≤ 2 then date.month + 9 else date.month - 3

/-- The days before a date, from March of the year 0. -/
def dayNumber (date : Date) : Int :=
  yearStart (marchYear date) + monthStart (marchMonth date) + (date.day - 1)

/-- From March on every month but the last ends where the next begins. -/
theorem monthDays_eq (year : Int) {month : Int} (low : 1 ≤ month) (high : month ≤ 12)
    (other : month ≠ 2) : monthDays year month =
      monthStart (marchMonth ⟨year, month, 1⟩ + 1) - monthStart (marchMonth ⟨year, month, 1⟩) := by
  have months : month = 1 ∨ month = 3 ∨ month = 4 ∨ month = 5 ∨ month = 6 ∨ month = 7 ∨ month = 8 ∨
      month = 9 ∨ month = 10 ∨ month = 11 ∨ month = 12 := by omega
  rcases months with rfl | rfl | rfl | rfl | rfl | rfl | rfl | rfl | rfl | rfl | rfl
  all_goals rfl

/-- In February a year from March on ends. -/
theorem monthDays_february (year : Int) :
    yearStart (year - 1) + monthStart 11 + monthDays year 2 = yearStart year := by
  have long := yearStart_succ (year - 1)
  rw [Int.sub_add_cancel] at long
  rw [long, monthDays, if_pos rfl, monthStart]
  split
  · omega
  · omega

theorem marchMonth_bounds {date : Date} (low : 1 ≤ date.month) (high : date.month ≤ 12) :
    0 ≤ marchMonth date ∧ marchMonth date ≤ 11 := by
  rw [marchMonth]
  split
  · omega
  · omega

/-- Where a date is in its year from March on. -/
theorem Date.Valid.within {date : Date} (valid : date.Valid) :
    monthStart (marchMonth date) + (date.day - 1) < monthStart (marchMonth date + 1) ∧
      dayNumber date < yearStart (marchYear date + 1) := by
  obtain ⟨year, month, day⟩ := date
  obtain ⟨⟨low, high⟩, first, last⟩ := valid
  dsimp only at low high first last ⊢
  by_cases february : month = 2
  · subst february
    have ends := monthDays_february year
    have most : monthDays year 2 ≤ 29 := by
      rw [monthDays, if_pos rfl]
      split
      · omega
      · omega
    change monthStart 11 + (day - 1) < monthStart 12 ∧
      yearStart (year - 1) + monthStart 11 + (day - 1) < yearStart (year - 1 + 1)
    rw [Int.sub_add_cancel]
    rw [monthStart] at ends ⊢
    rw [monthStart]
    omega
  · have short := monthDays_eq year low high february
    have long := yearStart_succ (marchYear ⟨year, month, day⟩)
    obtain ⟨least, most⟩ := @marchMonth_bounds ⟨year, month, day⟩ low high
    have before : marchMonth ⟨year, month, day⟩ ≤ 10 := by
      rw [marchMonth] at most ⊢
      dsimp only at most ⊢
      split
      · omega
      · omega
    change monthDays year month = monthStart (marchMonth ⟨year, month, day⟩ + 1) -
      monthStart (marchMonth ⟨year, month, day⟩) at short
    rw [dayNumber]
    rw [monthStart, monthStart] at short
    rw [monthStart, monthStart]
    dsimp only
    split at long
    · omega
    · omega

/-- The days before a date give the next date the next number. -/
theorem numbers_dayNumber : Numbers dayNumber where
  next date valid := by
    obtain ⟨year, month, day⟩ := date
    obtain ⟨⟨low, high⟩, first, last⟩ := valid
    dsimp only at low high first last
    rw [Date.next]
    dsimp only
    split
    · next more =>
      change yearStart (marchYear ⟨year, month, day⟩) + monthStart (marchMonth ⟨year, month, day⟩) +
        (day + 1 - 1) = dayNumber ⟨year, month, day⟩ + 1
      rw [dayNumber]
      dsimp only
      omega
    · next full =>
      have ends : day = monthDays year month := by omega
      split
      · next more =>
        by_cases february : month = 2
        · subst february
          have turns := monthDays_february year
          change yearStart year + monthStart 0 + 0 =
            yearStart (year - 1) + monthStart 11 + (day - 1) + 1
          have march : monthStart 0 = 0 := rfl
          rw [ends, ← turns, march]
          omega
        · have short := monthDays_eq year low high february
          have years : marchYear ⟨year, month + 1, 1⟩ = marchYear ⟨year, month, day⟩ := by
            rw [marchYear, marchYear]
            exact if_congr (by dsimp only; omega) rfl rfl
          have months : marchMonth ⟨year, month + 1, 1⟩ = marchMonth ⟨year, month, day⟩ + 1 := by
            rw [marchMonth, marchMonth]
            dsimp only
            split
            · rw [if_pos (by omega)]
              omega
            · rw [if_neg (by omega)]
              omega
          change monthDays year month = monthStart (marchMonth ⟨year, month, day⟩ + 1) -
            monthStart (marchMonth ⟨year, month, day⟩) at short
          rw [dayNumber, dayNumber, years, months]
          dsimp only
          omega
      · next december =>
        obtain rfl : month = 12 := by omega
        change yearStart (year + 1 - 1) + monthStart 10 + 0 =
          yearStart year + monthStart 9 + (day - 1) + 1
        rw [ends, Int.add_sub_cancel]
        change yearStart year + monthStart 10 + 0 = yearStart year + monthStart 9 + (31 - 1) + 1
        rw [monthStart, monthStart]
        omega
  apart one other first second same := by
    obtain ⟨inside, before⟩ := first.within
    obtain ⟨within, earlier⟩ := second.within
    have begins {date : Date} (valid : date.Valid) : 0 ≤ monthStart (marchMonth date) := by
      have bounds := marchMonth_bounds valid.month.1 valid.month.2
      rw [monthStart]
      omega
    have start {date : Date} (valid : date.Valid) : yearStart (marchYear date) ≤ dayNumber date := by
      have least := begins valid
      have day := valid.day
      rw [dayNumber]
      omega
    have years : marchYear one = marchYear other :=
      year_unique (start first) before (same ▸ start second) (same ▸ earlier)
    have days := same
    rw [dayNumber, dayNumber, years] at days
    have early := first.day
    have late := second.day
    have months : marchMonth one = marchMonth other :=
      @month_unique _ _ (monthStart (marchMonth one) + (one.day - 1)) (by omega) inside
        (by omega) (by omega)
    rw [months] at days
    obtain ⟨year, month, day⟩ := one
    obtain ⟨year', month', day'⟩ := other
    have range := first.month
    have bounds := second.month
    rw [marchYear, marchYear] at years
    rw [marchMonth, marchMonth] at months
    dsimp only at years months days range bounds
    obtain ⟨rfl, rfl⟩ : month = month' ∧ year = year' := by
      split at months
      · split at months
        · omega
        · omega
      · split at months
        · omega
        · omega
    obtain rfl : day = day' := by omega
    rfl

end Calendar
