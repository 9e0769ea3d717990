import Metafolder.Dates

/-!
# Times as texts

A time is read from the components its text has, and the day alone is narrowed before it is
checked; the text of a time on a whole second is read back.
-/

namespace Metafolder

open Calendar

/-- The components of a time, as they are written. -/
structure DateParts where
  year : Int
  month : Int
  day : Int
  hour : Int
  min : Int
  sec : Int
  deriving DecidableEq

namespace DateParts

def date (parts : DateParts) : Date := ⟨parts.year, parts.month, parts.day⟩

/-- The components are those of a date and a time of day; a leap second is let in. -/
structure InRange (parts : DateParts) : Prop where
  date : parts.date.Valid
  hour : 0 ≤ parts.hour ∧ parts.hour ≤ 23
  min : 0 ≤ parts.min ∧ parts.min ≤ 59
  sec : 0 ≤ parts.sec ∧ parts.sec ≤ 60

/-- The time, in milliseconds since the epoch. -/
def Is (parts : DateParts) (ms : Int) : Prop :=
  ∃ days, Elapsed epoch parts.date days ∧
    ms = (days * 86400 + parts.hour * 3600 + parts.min * 60 + parts.sec) * 1000

/-- The day cut to 32 bits. -/
def narrowed (parts : DateParts) : DateParts := { parts with day := parts.day % 2 ^ 32 }

/-- The years that are read. -/
def YearRead (parts : DateParts) : Prop := 0 ≤ parts.year ∧ parts.year ≤ 999999

end DateParts

/-- The components a text is split into; `none` where one is no number, or there is one too many. -/
def written (text : List Char) : Option DateParts := do
  let trimmed := trim text
  let s := if trimmed.getLast? = some 'Z' then trimmed.dropLast else trimmed
  let (date, time) := (splitOnce ['T', ' '] s).getD (s, "00:00:00".toList)
  let dateParts := splitOn '-' date
  let year ← datePart dateParts[0]? 0
  let month ← datePart dateParts[1]? 1
  let day ← datePart dateParts[2]? 1
  if 3 < dateParts.length then none
  let timeParts := splitOn ':' time
  let hour ← datePart timeParts[0]? 0
  let min ← datePart timeParts[1]? 0
  let sec ← datePart timeParts[2]? 0
  if 3 < timeParts.length then none
  pure ⟨year, month, day, hour, min, sec⟩

/-! ### What is read -/

theorem daysInMonth_eq (year : Int) {month : Int} (low : 1 ≤ month) (high : month ≤ 12) :
    daysInMonth year month = monthDays year month := by
  have leap : isLeapYear year = decide (Leap year) := by
    rw [Bool.eq_iff_iff, decide_eq_true_iff]
    simp [isLeapYear, Leap]
  have months : month = 1 ∨ month = 2 ∨ month = 3 ∨ month = 4 ∨ month = 5 ∨ month = 6 ∨ month = 7 ∨
      month = 8 ∨ month = 9 ∨ month = 10 ∨ month = 11 ∨ month = 12 := by omega
  rw [daysInMonth, monthDays, leap]
  rcases months with rfl | rfl | rfl | rfl | rfl | rfl | rfl | rfl | rfl | rfl | rfl | rfl
  all_goals simp

instance (parts : DateParts) : Decidable parts.InRange :=
  decidable_of_iff ((1 ≤ parts.month ∧ parts.month ≤ 12) ∧
      (1 ≤ parts.day ∧ parts.day ≤ monthDays parts.year parts.month) ∧
      (0 ≤ parts.hour ∧ parts.hour ≤ 23) ∧ (0 ≤ parts.min ∧ parts.min ≤ 59) ∧
      0 ≤ parts.sec ∧ parts.sec ≤ 60)
    ⟨fun ⟨month, day, hour, min, sec⟩ => ⟨⟨month, day⟩, hour, min, sec⟩,
      fun ⟨⟨month, day⟩, hour, min, sec⟩ => ⟨month, day, hour, min, sec⟩⟩

instance (parts : DateParts) : Decidable parts.YearRead := inferInstanceAs (Decidable (_ ∧ _))

/-- A time is read where the components are in range once the day is narrowed. -/
theorem isoToMs_eq (text : List Char) : isoToMs text = (written text).bind fun parts =>
    if parts.narrowed.InRange ∧ parts.YearRead then
      some (Int64.ofInt ((dateDays parts.narrowed.date * 86400 + parts.hour * 3600 +
        parts.min * 60 + parts.sec) * 1000))
    else none := by
  rw [isoToMs, written]
  dsimp only
  generalize (splitOnce _ _).getD _ = parts
  obtain ⟨date, time⟩ := parts
  dsimp only
  generalize splitOn '-' date = dateParts
  generalize splitOn ':' time = timeParts
  cases datePart dateParts[0]? 0 with
  | none => rfl
  | some year =>
  cases datePart dateParts[1]? 1 with
  | none => rfl
  | some month =>
  cases datePart dateParts[2]? 1 with
  | none => rfl
  | some day =>
  simp only [Option.bind_eq_bind, Option.bind_some, Option.pure_def]
  cases datePart timeParts[0]? 0 with
  | none => simp only [Option.bind_none, ite_self]
  | some hour =>
  cases datePart timeParts[1]? 0 with
  | none => simp only [Option.bind_some, Option.bind_none, ite_self]
  | some min =>
  cases datePart timeParts[2]? 0 with
  | none => simp only [Option.bind_some, Option.bind_none, ite_self]
  | some sec =>
  by_cases long : 3 < dateParts.length
  · rw [if_pos long, if_pos long]
    rfl
  rw [if_neg long, if_neg long]
  by_cases longer : 3 < timeParts.length
  · simp only [if_pos longer, Option.bind_some, Option.bind_none, ite_self]
  rw [Option.bind_some, Option.bind_some, Option.bind_some, Option.bind_some, Option.bind_some,
    Option.bind_some, if_neg longer, if_neg longer, Option.bind_some]
  split
  · next outside =>
    refine (if_neg fun good => ?_).symm
    obtain ⟨⟨⟨month, -⟩, -, -, -⟩, year⟩ := good
    exact outside.elim (fun out => out year) fun out => out month
  · next months =>
    rw [not_or, not_not, not_not] at months
    rw [daysInMonth_eq year months.2.1 months.2.2]
    split
    · next outside => exact (if_neg fun good => outside good.1.date.day).symm
    · next days =>
      rw [not_not] at days
      split
      · next outside =>
        refine (if_neg fun good => ?_).symm
        obtain ⟨⟨-, hours, mins, secs⟩, -⟩ := good
        exact outside.elim (fun out => out hours) fun out => out.elim (fun out => out mins)
          fun out => out secs
      · next times =>
        rw [not_or, not_or, not_not, not_not, not_not] at times
        rw [if_pos]
        · rfl
        · exact ⟨⟨⟨months.2, days⟩, times.1, times.2.1, times.2.2⟩, months.1⟩

/-! ### Times that are right -/

theorem monthDays_le (year month : Int) : monthDays year month ≤ 31 := by
  rw [monthDays]
  split
  · split
    · omega
    · omega
  · split
    · omega
    · omega

/-- Where a date is among the years that begin in March. -/
theorem dateDays_bounds {date : Date} (valid : date.Valid) :
    yearStart (marchYear date) - 719468 ≤ dateDays date ∧
      dateDays date < yearStart (marchYear date + 1) - 719468 := by
  have bounds := marchMonth_bounds valid.month.1 valid.month.2
  have before := valid.within.2
  have day := valid.day
  rw [dateDays_eq valid.month.1 valid.month.2]
  refine ⟨?_, by omega⟩
  rw [dayNumber, monthStart]
  omega

/-- The time read fits, and so is not cut. -/
theorem toInt_time {parts : DateParts} (range : parts.InRange) (year : parts.YearRead) :
    (Int64.ofInt ((dateDays parts.date * 86400 + parts.hour * 3600 + parts.min * 60 + parts.sec) *
      1000)).toInt =
      (dateDays parts.date * 86400 + parts.hour * 3600 + parts.min * 60 + parts.sec) * 1000 := by
  obtain ⟨valid, hour, min, sec⟩ := range
  obtain ⟨after, before⟩ := dateDays_bounds valid
  have low : -1 ≤ marchYear parts.date := by
    rw [marchYear, DateParts.date]
    dsimp only
    have first := year.1
    split
    · omega
    · omega
  have high : marchYear parts.date + 1 ≤ 1000000 := by
    rw [marchYear, DateParts.date]
    dsimp only
    have last := year.2
    split
    · omega
    · omega
  have least : yearStart (-1) = -366 := rfl
  have most : yearStart 1000000 = 365242500 := rfl
  have start := yearStart_mono low
  have final := yearStart_mono high
  refine Int64.toInt_ofInt_of_le ?_ ?_
  · omega
  · omega

theorem mem_splitOn {separator c : Char} {text part : List Char}
    (member : part ∈ splitOn separator text) (inside : c ∈ part) : c ≠ separator := by
  induction text generalizing part with
  | nil =>
      obtain rfl := List.mem_singleton.mp member
      cases inside
  | cons head rest ih =>
      rw [splitOn] at member
      split at member
      · cases member with
        | head => cases inside
        | tail _ member => exact ih member inside
      · next other =>
        cases parts : splitOn separator rest with
        | nil =>
            rw [parts] at member
            obtain rfl := List.mem_singleton.mp member
            obtain rfl := List.mem_singleton.mp inside
            exact other
        | cons first others =>
            rw [parts] at member
            rcases List.mem_cons.mp member with rfl | later
            · rcases List.mem_cons.mp inside with rfl | inside
              · exact other
              · exact ih (parts ▸ List.mem_cons_self) inside
            · exact ih (parts ▸ List.mem_cons_of_mem _ later) inside

/-- The day written has no sign. -/
theorem day_nonneg {text : List Char} {parts : DateParts} (read : written text = some parts) :
    0 ≤ parts.day := by
  rw [written] at read
  dsimp only at read
  generalize (splitOnce _ _).getD _ = pieces at read
  obtain ⟨year, -, read⟩ := Option.bind_eq_some_iff.mp read
  obtain ⟨month, -, read⟩ := Option.bind_eq_some_iff.mp read
  obtain ⟨day, found, read⟩ := Option.bind_eq_some_iff.mp read
  have given : 0 ≤ day := by
    cases part : (splitOn '-' pieces.1)[2]? with
    | none =>
        rw [part] at found
        cases found
        decide
    | some digits =>
        rw [part] at found
        obtain ⟨n, number, rfl⟩ := Option.map_eq_some_iff.mp found
        exact parseInt64_nonneg (fun c inside => mem_splitOn (List.mem_of_getElem? part) inside) number
  split at read
  · cases read
  · obtain ⟨hour, -, read⟩ := Option.bind_eq_some_iff.mp read
    obtain ⟨min, -, read⟩ := Option.bind_eq_some_iff.mp read
    obtain ⟨sec, -, read⟩ := Option.bind_eq_some_iff.mp read
    split at read
    · cases read
    · obtain rfl := Option.some.inj read
      exact given

/-- A text is read as the time it tells, if at all, exactly when its day, narrowed to one of the
month, is written in 32 bits. -/
theorem isoToMs_right (text : List Char) :
    (∀ ms, isoToMs text = some ms →
      ∃ parts, written text = some parts ∧ parts.InRange ∧ parts.Is ms.toInt) ↔
    ∀ parts, written text = some parts → parts.narrowed.InRange → parts.YearRead →
      parts.day < 2 ^ 32 := by
  rw [isoToMs_eq]
  cases read : written text with
  | none => exact iff_of_true (fun _ nothing => nomatch nothing) fun _ nothing => nomatch nothing
  | some parts =>
      have unsigned := day_nonneg read
      rw [Option.bind_some]
      constructor
      · intro right other same range year
        cases same
        obtain ⟨_, same, written, -⟩ := right _ (if_pos ⟨range, year⟩)
        cases same
        have last := written.date.day.2
        have most := monthDays_le parts.date.year parts.date.month
        change parts.day ≤ monthDays parts.date.year parts.date.month at last
        omega
      · intro bounded ms found
        split at found
        · next accepted =>
          obtain ⟨range, year⟩ := accepted
          have same : parts.narrowed = parts := by
            rw [DateParts.narrowed, Int.emod_eq_of_lt unsigned (bounded parts rfl range year)]
          rw [same] at range found
          obtain rfl := Option.some.inj found
          exact ⟨parts, rfl, range, dateDays parts.date, elapsed_dateDays range.date,
            toInt_time range year⟩
        · cases found

/-! ### Times as they are shown -/

theorem padded_digits (width : Nat) {n : Int} (unsigned : 0 ≤ n) :
    ∀ c ∈ padded width n, c.isDigit := by
  obtain ⟨m, rfl⟩ := Int.eq_ofNat_of_zero_le unsigned
  intro c member
  have shown : (toString (m : Int)).toList = Nat.toDigits 10 m := Nat.toList_repr
  rw [padded, shown] at member
  rcases List.mem_append.mp member with zero | digit
  · rw [List.eq_of_mem_replicate zero]
    rfl
  · exact isDigit_of_mem_decimalDigits digit

theorem padded_ne_nil (width : Nat) {n : Int} (unsigned : 0 ≤ n) : padded width n ≠ [] := by
  obtain ⟨m, rfl⟩ := Int.eq_ofNat_of_zero_le unsigned
  have shown : (toString (m : Int)).toList = Nat.toDigits 10 m := Nat.toList_repr
  rw [padded, shown]
  exact List.append_ne_nil_of_right_ne_nil _ Nat.toDigits_ne_nil

/-- A number padded is read back. -/
theorem parseInt64_padded (width : Nat) {n : Int} (unsigned : 0 ≤ n) (fits : n < 2 ^ 63) :
    parseInt64 (padded width n) = some (Int64.ofInt n) := by
  have all := padded_digits width unsigned
  cases text : padded width n with
  | nil => exact absurd text (padded_ne_nil width unsigned)
  | cons c rest =>
      rw [text] at all
      have value : digits (c :: rest) 0 = some n.toNat := by
        obtain ⟨m, rfl⟩ := Int.eq_ofNat_of_zero_le unsigned
        have shown : (toString (m : Int)).toList = Nat.toDigits 10 m := Nat.toList_repr
        rw [digits_eq_ofDigitChars all, ← text, padded, shown, Nat.ofDigitChars_append,
          Nat.ofDigitChars_replicate_zero, Nat.mul_zero]
        rw [Nat.ofDigitChars_toDigits (by decide) (by decide)]
        rfl
      have back : (n.toNat : Int) = n := Int.toNat_of_nonneg unsigned
      rw [parseInt64_cons (all c List.mem_cons_self), value, Option.bind_some, back,
        if_pos ⟨by omega, fits⟩]

theorem datePart_padded (width : Nat) {n default : Int} (unsigned : 0 ≤ n) (fits : n < 2 ^ 63) :
    datePart (some (padded width n)) default = some n := by
  rw [datePart, parseInt64_padded width unsigned fits, Option.map_some,
    Int64.toInt_ofInt_of_le (by omega) fits]

theorem splitOn_append {separator : Char} {part : List Char} (rest : List Char)
    (free : ∀ c ∈ part, c ≠ separator) :
    splitOn separator (part ++ separator :: rest) = part :: splitOn separator rest := by
  induction part with
  | nil => rw [List.nil_append, splitOn, if_pos rfl]
  | cons c part ih =>
      rw [List.cons_append, splitOn, if_neg (free c List.mem_cons_self),
        ih fun d member => free d (List.mem_cons_of_mem _ member)]

theorem splitOn_single {separator : Char} {part : List Char} (free : ∀ c ∈ part, c ≠ separator) :
    splitOn separator part = [part] := by
  induction part with
  | nil => rfl
  | cons c part ih =>
      rw [splitOn, if_neg (free c List.mem_cons_self),
        ih fun d member => free d (List.mem_cons_of_mem _ member)]

theorem splitOnce_append {separators : List Char} {separator : Char} {part : List Char}
    (rest : List Char) (listed : separator ∈ separators) (free : ∀ c ∈ part, c ∉ separators) :
    splitOnce separators (part ++ separator :: rest) = some (part, rest) := by
  induction part with
  | nil => rw [List.nil_append, splitOnce, if_pos listed]
  | cons c part ih =>
      rw [List.cons_append, splitOnce, if_neg (free c List.mem_cons_self),
        ih fun d member => free d (List.mem_cons_of_mem _ member)]
      rfl

/-- A text without white space at its ends is not trimmed. -/
theorem trim_eq {text : List Char} (first : ∀ c ∈ text.head?, isWhitespace c = false)
    (last : ∀ c ∈ text.getLast?, isWhitespace c = false) : trim text = text := by
  have kept {text : List Char} (first : ∀ c ∈ text.head?, isWhitespace c = false) :
      text.dropWhile isWhitespace = text := by
    cases text with
    | nil => rfl
    | cons c rest => rw [List.dropWhile_cons, if_neg (by simp [first c rfl])]
  rw [trim, kept first, kept, List.reverse_reverse]
  rw [List.head?_reverse]
  exact last

/-- A date, as it is shown. -/
def shownDate (parts : DateParts) : List Char :=
  padded 4 parts.year ++ '-' :: (padded 2 parts.month ++ '-' :: padded 2 parts.day)

/-- A time of day, as it is shown. -/
def shownTime (parts : DateParts) : List Char :=
  padded 2 parts.hour ++ ':' :: (padded 2 parts.min ++ ':' :: padded 2 parts.sec)

/-- What is shown is split where its components are. -/
theorem splitOn_padded {separator : Char} (other : separator.isDigit = false) (width : Nat)
    {first second third : Int} (one : 0 ≤ first) (two : 0 ≤ second) (three : 0 ≤ third) :
    splitOn separator (padded width first ++ separator ::
      (padded 2 second ++ separator :: padded 2 third)) =
        [padded width first, padded 2 second, padded 2 third] := by
  have free (width : Nat) {n : Int} (unsigned : 0 ≤ n) : ∀ c ∈ padded width n, c ≠ separator :=
    fun c member => ne_of_isDigit (padded_digits width unsigned c member) other
  rw [splitOn_append _ (free width one), splitOn_append _ (free 2 two), splitOn_single (free 2 three)]

/-- The components shown are read. -/
theorem written_shown {parts : DateParts} (range : parts.InRange)
    (year : 0 ≤ parts.year ∧ parts.year < 2 ^ 63) :
    written (shownDate parts ++ 'T' :: (shownTime parts ++ ['Z'])) = some parts := by
  obtain ⟨⟨month, day⟩, hour, min, sec⟩ := range
  have most := monthDays_le parts.date.year parts.date.month
  change 1 ≤ parts.month ∧ parts.month ≤ 12 at month
  change 1 ≤ parts.day ∧ parts.day ≤ monthDays parts.date.year parts.date.month at day
  obtain ⟨early, late⟩ := year
  have ends : shownDate parts ++ 'T' :: (shownTime parts ++ ['Z']) =
      (shownDate parts ++ 'T' :: shownTime parts) ++ ['Z'] := by
    rw [List.append_assoc, List.cons_append]
  have trimmed : trim ((shownDate parts ++ 'T' :: shownTime parts) ++ ['Z']) =
      (shownDate parts ++ 'T' :: shownTime parts) ++ ['Z'] := by
    refine trim_eq (fun c head => ?_) fun c last => ?_
    · obtain ⟨d, rest, digits⟩ := List.exists_cons_of_ne_nil (padded_ne_nil 4 early)
      rw [shownDate, digits] at head
      obtain rfl := Option.some.inj head
      have digit := padded_digits 4 early d (digits ▸ List.mem_cons_self)
      exact isWhitespace_of_isDigit digit
    · rw [List.getLast?_append] at last
      obtain rfl := Option.some.inj last
      decide
  have dated : ∀ c ∈ shownDate parts, c ∉ ['T', ' '] := by
    intro c member
    have plain : c.isDigit ∨ c = '-' := by
      rw [shownDate] at member
      rcases List.mem_append.mp member with first | member
      · exact .inl (padded_digits 4 early c first)
      · rcases List.mem_cons.mp member with dash | member
        · exact .inr dash
        · rcases List.mem_append.mp member with second | member
          · exact .inl (padded_digits 2 (by omega) c second)
          · rcases List.mem_cons.mp member with dash | third
            · exact .inr dash
            · exact .inl (padded_digits 2 (by omega) c third)
    rcases plain with digit | rfl
    · rw [List.mem_cons, List.mem_singleton, not_or]
      exact ⟨ne_of_isDigit digit rfl, ne_of_isDigit digit rfl⟩
    · decide
  rw [written, ends, trimmed]
  dsimp only
  rw [List.getLast?_append, if_pos (by rfl), List.dropLast_concat,
    splitOnce_append _ (by decide) dated, Option.getD_some, shownDate, shownTime]
  dsimp only
  rw [splitOn_padded rfl 4 early (by omega) (by omega),
    splitOn_padded rfl 2 hour.1 min.1 sec.1]
  have years : datePart (some (padded 4 parts.year)) 0 = some parts.year :=
    datePart_padded 4 early (by omega)
  have months : datePart (some (padded 2 parts.month)) 1 = some parts.month :=
    datePart_padded 2 (by omega) (by omega)
  have days : datePart (some (padded 2 parts.day)) 1 = some parts.day :=
    datePart_padded 2 (by omega) (by omega)
  have hours : datePart (some (padded 2 parts.hour)) 0 = some parts.hour :=
    datePart_padded 2 hour.1 (by omega)
  have mins : datePart (some (padded 2 parts.min)) 0 = some parts.min :=
    datePart_padded 2 min.1 (by omega)
  have secs : datePart (some (padded 2 parts.sec)) 0 = some parts.sec :=
    datePart_padded 2 sec.1 (by omega)
  simp only [List.getElem?_cons_zero, List.getElem?_cons_succ, years, months, days, hours, mins,
    secs, Option.bind_eq_bind, Option.bind_some, List.length_cons, List.length_nil]
  rfl

/-- The last year that is read ends before this day. -/
def lastDay : Int := dateDays ⟨1000000, 1, 1⟩

/-- The years of the days since the epoch that are read. -/
theorem yearRead_civilDate {days : Int} (first : 0 ≤ days) :
    0 ≤ (civilDate days).year ∧ (civilDate days).year ≤ days + 719468 ∧
      ((civilDate days).year ≤ 999999 ↔ days < lastDay) := by
  obtain ⟨valid, number⟩ := civilDate_spec days
  have final : lastDay = 364522972 := by decide
  have bounds := marchMonth_bounds valid.month.1 valid.month.2
  have before := valid.within.2
  have counted := number
  rw [dayNumber] at counted
  have day := valid.day
  have most := monthDays_le (civilDate days).year (civilDate days).month
  have least : yearStart 999999 = 365242134 := rfl
  have last : yearStart 1000000 = 365242500 := rfl
  have year : marchYear (civilDate days) ≤ (civilDate days).year ∧
      (civilDate days).year ≤ marchYear (civilDate days) + 1 := by
    rw [marchYear]
    split
    · omega
    · omega
  have early : 0 ≤ marchYear (civilDate days) := by
    by_contra early
    have start := yearStart_mono (by omega : marchYear (civilDate days) + 1 ≤ 0)
    have zero : yearStart 0 = 0 := rfl
    omega
  have months : monthStart (marchMonth (civilDate days)) ≤ 337 := by
    rw [monthStart]
    omega
  have started : 0 ≤ monthStart (marchMonth (civilDate days)) := by
    rw [monthStart]
    omega
  refine ⟨by omega, ?_, ?_⟩
  · have steep : 365 * marchYear (civilDate days) ≤ yearStart (marchYear (civilDate days)) := by
      rw [yearStart]
      omega
    omega
  · by_cases winter : (civilDate days).month ≤ 2
    · have years : marchYear (civilDate days) = (civilDate days).year - 1 := if_pos winter
      have month : marchMonth (civilDate days) = (civilDate days).month + 9 := if_pos winter
      have low := valid.month.1
      rw [month, monthStart] at counted
      constructor
      · intro read
        have start := yearStart_mono (by omega : marchYear (civilDate days) + 1 ≤ 999999)
        omega
      · intro within
        by_contra late
        have start := yearStart_mono (by omega : 999999 ≤ marchYear (civilDate days))
        omega
    · have years : marchYear (civilDate days) = (civilDate days).year := if_neg winter
      have month : marchMonth (civilDate days) = (civilDate days).month - 3 := if_neg winter
      have high := valid.month.2
      constructor
      · intro read
        have start := yearStart_mono (by omega : marchYear (civilDate days) ≤ 999999)
        rw [month, monthStart] at counted
        omega
      · intro within
        by_contra late
        have start := yearStart_mono (by omega : 1000000 ≤ marchYear (civilDate days))
        omega

/-- A time is shown by the second, none before the epoch; what is shown is read as far as years
are. -/
theorem isoToMs_iso8601FromMs (ms : Int64) : isoToMs (iso8601FromMs ms).toList =
    if max (ms.toInt / 1000) 0 < lastDay * 86400
    then some (Int64.ofInt (max (ms.toInt / 1000) 0 * 1000)) else none := by
  have high := ms.toInt_lt
  generalize seconds : max (ms.toInt / 1000) 0 = secs
  have first : 0 ≤ secs := seconds ▸ le_max_right _ _
  have bound : secs < 2 ^ 62 := by
    rw [← seconds]
    omega
  let parts : DateParts := ⟨(civilDate (secs / 86400)).year, (civilDate (secs / 86400)).month,
    (civilDate (secs / 86400)).day, secs % 86400 / 3600, secs % 86400 % 3600 / 60,
    secs % 86400 % 60⟩
  obtain ⟨early, late, read⟩ := yearRead_civilDate (by omega : 0 ≤ secs / 86400)
  have year : 0 ≤ parts.year ∧ parts.year < 2 ^ 63 :=
    ⟨early, by change (civilDate (secs / 86400)).year < 2 ^ 63; omega⟩
  have valid : parts.date.Valid := (civilDate_spec (secs / 86400)).1
  have range : parts.InRange := by
    refine ⟨valid, ?_, ?_, ?_⟩
    · dsimp only [parts]
      omega
    · dsimp only [parts]
      omega
    · dsimp only [parts]
      omega
  have shown : (iso8601FromMs ms).toList =
      shownDate parts ++ 'T' :: (shownTime parts ++ ['Z']) := by
    rw [iso8601FromMs]
    dsimp only
    rw [seconds, String.toList_ofList]
    simp only [shownDate, shownTime, parts, civilDate, List.append_assoc, List.cons_append]
  have most := monthDays_le parts.date.year parts.date.month
  have day := valid.day
  have same : parts.narrowed = parts := by
    change 1 ≤ parts.day ∧ parts.day ≤ _ at day
    rw [DateParts.narrowed, Int.emod_eq_of_lt (by omega) (by omega)]
  have days : dateDays parts.date = secs / 86400 := dateDays_civilDate _
  have total : secs / 86400 * 86400 + parts.hour * 3600 + parts.min * 60 + parts.sec = secs := by
    dsimp only [parts]
    omega
  rw [isoToMs_eq, shown, written_shown range year, Option.bind_some, same, days, total]
  refine if_congr ?_ rfl rfl
  constructor
  · rintro ⟨-, -, late⟩
    have within := read.mp late
    omega
  · intro within
    exact ⟨range, early, read.mpr (by omega)⟩

/-- A time is read back from its text exactly when it is on a whole second, from the epoch to the
end of the last year. -/
theorem isoToMs_iso8601FromMs_iff {ms : Int64} : isoToMs (iso8601FromMs ms).toList = some ms ↔
    0 ≤ ms.toInt ∧ ms.toInt % 1000 = 0 ∧ ms.toInt < lastDay * 86400000 := by
  have high := ms.toInt_lt
  have final : lastDay = 364522972 := by decide
  rw [isoToMs_iso8601FromMs]
  split
  · next read =>
    rw [Option.some.injEq, ← Int64.toInt_inj, Int64.toInt_ofInt_of_le (by omega) (by omega)]
    omega
  · next unread => exact iff_of_false nofun fun within => unread (by omega)

end Metafolder
