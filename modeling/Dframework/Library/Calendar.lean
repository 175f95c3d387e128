import Mathlib

/-!
# The Gregorian calendar

Days are counted from the first of January 1970. Years start in March while they are counted, so
that the day a leap year has more is its last one, and a cycle of four hundred years is one of four
centuries, a century of twenty-five times four years.

Results:
1. `number_dateOf`: a day has the number its date stands for.
2. `dateOf_valid`: a date that a day has is one of the calendar.
3. `year_lt_iff`: a date lies in front of a year when its number does.
-/

namespace Calendar

/-- A date, with the months counted from 0. -/
structure Date where
  year : Int
  month : Int
  day : Int
  deriving DecidableEq, Repr

def IsLeap (year : Int) : Prop :=
  4 ∣ year ∧ (100 ∣ year → 400 ∣ year)

instance (year : Int) : Decidable (IsLeap year) := inferInstanceAs (Decidable (_ ∧ (_ → _)))

def monthLength (year month : Int) : Int :=
  if month = 1 then (if IsLeap year then 29 else 28)
  else if month = 3 ∨ month = 5 ∨ month = 8 ∨ month = 10 then 30
  else 31

def Date.Valid (d : Date) : Prop :=
  0 ≤ d.month ∧ d.month ≤ 11 ∧ 1 ≤ d.day ∧ d.day ≤ monthLength d.year d.month

/-- The year that started in March. -/
def Date.marchYear (d : Date) : Int :=
  if d.month < 2 then d.year - 1 else d.year

/-- The days from the first of March to the first of a month. -/
def monthOffset (month : Int) : Int :=
  (153 * ((month + 10) % 12) + 2) / 5

def Date.number (d : Date) : Int :=
  365 * d.marchYear + d.marchYear / 4 - d.marchYear / 100 + d.marchYear / 400 +
    monthOffset d.month + d.day - 719469

/-- A day of a cycle of four hundred years: its year in the cycle and its day of the year. -/
def yearOfCycle (day : Int) : Int × Int :=
  -- the last century of a cycle and the last year of four are one day longer
  let century := min (day / 36524) 3
  let day := day - 36524 * century
  let four := day / 1461
  let day := day - 1461 * four
  let year := min (day / 365) 3
  (100 * century + 4 * four + year, day - 365 * year)

def dateOf (number : Int) : Date :=
  let cycle := (number + 719468) / 146097
  let y := yearOfCycle ((number + 719468) % 146097)
  let month := (5 * y.2 + 2) / 153
  { year := 400 * cycle + y.1 + (if month < 10 then 0 else 1)
    month := if month < 10 then month + 2 else month - 10
    day := y.2 - (153 * month + 2) / 5 + 1 }

def weekday (number : Int) : Int :=
  (number + 4) % 7

/-! ## Years of a cycle -/

/-- The parts of a day of a cycle. -/
theorem yearOfCycle_parts {day : Int} (h0 : 0 ≤ day) (h1 : day < 146097) :
    ∃ century four year rest : Int, yearOfCycle day = (100 * century + 4 * four + year, rest) ∧
      day = 36524 * century + 1461 * four + 365 * year + rest ∧
      0 ≤ century ∧ century ≤ 3 ∧ 0 ≤ four ∧ four ≤ 24 ∧ 0 ≤ year ∧ year ≤ 3 ∧ 0 ≤ rest ∧
      rest ≤ 365 ∧ (rest = 365 → year = 3 ∧ (four = 24 → century = 3)) := by
  obtain ⟨century, hc⟩ : ∃ c, c = min (day / 36524) 3 := ⟨_, rfl⟩
  obtain ⟨four, hf⟩ : ∃ f, f = (day - 36524 * century) / 1461 := ⟨_, rfl⟩
  obtain ⟨year, hy⟩ : ∃ y, y = min ((day - 36524 * century - 1461 * four) / 365) 3 := ⟨_, rfl⟩
  refine ⟨century, four, year, day - 36524 * century - 1461 * four - 365 * year, ?_, ?_⟩
  · simp only [yearOfCycle, hc, hf, hy]
  · have hcentury : 0 ≤ century ∧ century ≤ 3 ∧ 0 ≤ day - 36524 * century ∧
        day - 36524 * century ≤ 36524 ∧ (century < 3 → day - 36524 * century < 36524) := by
      omega
    have hfour : 0 ≤ four ∧ four ≤ 24 ∧ 0 ≤ day - 36524 * century - 1461 * four ∧
        day - 36524 * century - 1461 * four ≤ 1460 := by
      omega
    omega

section

variable {day : Int} (h0 : 0 ≤ day) (h1 : day < 146097)

include h0 h1

/-- The year of a day in its cycle, and the days in front of it. -/
theorem yearOfCycle_spec :
    0 ≤ (yearOfCycle day).1 ∧ (yearOfCycle day).1 ≤ 399 ∧ 0 ≤ (yearOfCycle day).2 ∧
    (yearOfCycle day).2 ≤ 365 ∧
    day = 365 * (yearOfCycle day).1 + (yearOfCycle day).1 / 4 - (yearOfCycle day).1 / 100 +
      (yearOfCycle day).2 := by
  obtain ⟨century, four, year, rest, heq, hday, hparts⟩ := yearOfCycle_parts h0 h1
  have hfours : (100 * century + 4 * four + year) / 4 = 25 * century + four := by omega
  have hcenturies : (100 * century + 4 * four + year) / 100 = century := by omega
  simp only [heq, hfours, hcenturies]
  omega

/-- Only a year in front of the February of a leap year has a last day. -/
theorem leap_of_yearOfCycle (h : (yearOfCycle day).2 = 365) (cycle : Int) :
    IsLeap (400 * cycle + (yearOfCycle day).1 + 1) := by
  obtain ⟨century, four, year, rest, heq, hday, hparts⟩ := yearOfCycle_parts h0 h1
  simp only [heq] at h ⊢
  obtain ⟨hyear, hcentury⟩ := hparts.2.2.2.2.2.2.2.2 h
  constructor
  · omega
  · intro hdvd
    have hfour : four = 24 := by omega
    have := hcentury hfour
    omega

end

/-! ## Months -/

/-- The month of a day of a year that starts in March, and the days in front of it. -/
theorem month_spec {day month : Int} (h0 : 0 ≤ day) (h1 : day ≤ 365)
    (hm : month = (5 * day + 2) / 153) :
    0 ≤ month ∧ month ≤ 11 ∧ (153 * month + 2) / 5 ≤ day ∧ day < (153 * (month + 1) + 2) / 5 := by
  omega

theorem dateOf_eq (number : Int) :
    ∃ cycle year day month : Int, number + 719468 =
        146097 * cycle + 365 * year + year / 4 - year / 100 + day ∧
      0 ≤ year ∧ year ≤ 399 ∧ 0 ≤ day ∧ day ≤ 365 ∧ month = (5 * day + 2) / 153 ∧
      (day = 365 → IsLeap (400 * cycle + year + 1)) ∧
      dateOf number = { year := 400 * cycle + year + (if month < 10 then 0 else 1)
                        month := if month < 10 then month + 2 else month - 10
                        day := day - (153 * month + 2) / 5 + 1 } := by
  have h0 : 0 ≤ (number + 719468) % 146097 := Int.emod_nonneg _ (by decide)
  have h1 : (number + 719468) % 146097 < 146097 := Int.emod_lt_of_pos _ (by decide)
  obtain ⟨hy0, hy1, hd0, hd1, heq⟩ := yearOfCycle_spec h0 h1
  refine ⟨(number + 719468) / 146097, _, _, _, ?_, hy0, hy1, hd0, hd1, rfl,
    fun h => leap_of_yearOfCycle h0 h1 h _, rfl⟩
  omega

/-- A day has the number its date stands for. -/
theorem number_dateOf (number : Int) : (dateOf number).number = number := by
  obtain ⟨cycle, year, day, month, hnumber, hy0, hy1, hd0, hd1, hm, -, hdate⟩ := dateOf_eq number
  obtain ⟨hm0, hm1, hday⟩ := month_spec hd0 hd1 hm
  have hmarch : (dateOf number).marchYear = 400 * cycle + year := by
    rw [hdate]
    simp only [Date.marchYear]
    split_ifs <;> omega
  have hoffset : monthOffset (dateOf number).month = (153 * month + 2) / 5 := by
    rw [hdate, monthOffset]
    split_ifs <;> simp only <;> congr 2 <;> omega
  have hcycles : (400 * cycle + year) / 4 = 100 * cycle + year / 4 ∧
      (400 * cycle + year) / 100 = 4 * cycle + year / 100 ∧
      (400 * cycle + year) / 400 = cycle := by
    omega
  rw [Date.number, hmarch, hoffset, hdate, hcycles.1, hcycles.2.1, hcycles.2.2]
  simp only
  omega

/-- The days between the starts of two months, from March to January. -/
theorem monthLength_march {month : Int} (h0 : 0 ≤ month) (h1 : month < 11) (year : Int) :
    monthLength year (if month < 10 then month + 2 else month - 10) =
      (153 * (month + 1) + 2) / 5 - (153 * month + 2) / 5 := by
  interval_cases month <;> simp [monthLength]

/-- A date that a day has is one of the calendar. -/
theorem dateOf_valid (number : Int) : (dateOf number).Valid := by
  obtain ⟨cycle, year, day, month, -, -, -, hd0, hd1, hm, hleap, hdate⟩ := dateOf_eq number
  obtain ⟨hm0, hm1, hday⟩ := month_spec hd0 hd1 hm
  rw [hdate]
  refine ⟨?_, ?_, ?_, ?_⟩ <;> simp only
  · split_ifs <;> omega
  · split_ifs <;> omega
  · omega
  · rcases eq_or_lt_of_le hm1 with rfl | hlt
    · -- the last month is February
      have hlen : monthLength (400 * cycle + year + 1) 1 =
          if IsLeap (400 * cycle + year + 1) then 29 else 28 := rfl
      show day - (153 * 11 + 2) / 5 + 1 ≤ monthLength (400 * cycle + year + 1) 1
      rw [hlen]
      by_cases hlast : day = 365
      · rw [if_pos (hleap hlast)]
        omega
      · split_ifs <;> omega
    · rw [monthLength_march hm0 hlt]
      omega

/-- The leap years in front of a March and in front of the next one. -/
theorem leap_days (year : Int) :
    year / 4 - year / 100 + year / 400 =
      (year - 1) / 4 - (year - 1) / 100 + (year - 1) / 400 + (if IsLeap year then 1 else 0) := by
  unfold IsLeap
  split_ifs <;> omega

/-! ## Years -/

def newYear (year : Int) : Int :=
  Date.number ⟨year, 0, 1⟩

theorem newYear_mono {a b : Int} (h : a ≤ b) : newYear a ≤ newYear b := by
  simp only [newYear, Date.number, Date.marchYear, monthOffset]
  omega

/-- A date lies in its year. -/
theorem number_in_year {d : Date} (h : d.Valid) :
    newYear d.year ≤ d.number ∧ d.number < newYear (d.year + 1) := by
  obtain ⟨year, month, day⟩ := d
  obtain ⟨hm0, hm1, hd0, hd1⟩ := h
  have hleap := leap_days year
  simp only at hm0 hm1 hd0 hd1 ⊢
  simp only [newYear]
  interval_cases month <;>
    simp [Date.number, Date.marchYear, monthOffset, monthLength] at hd1 ⊢ <;>
    split_ifs at * <;> omega

/-- A date lies in front of a year when its number does. -/
theorem year_lt_iff {d : Date} (h : d.Valid) (year : Int) :
    d.year < year ↔ d.number < newYear year := by
  obtain ⟨hstart, hend⟩ := number_in_year h
  constructor
  · intro hlt
    have := newYear_mono (Int.add_one_le_of_lt hlt)
    omega
  · intro hlt
    by_contra hge
    have := newYear_mono (Int.not_lt.mp hge)
    omega

end Calendar
