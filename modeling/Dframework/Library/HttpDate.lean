import Mathlib
import Dframework.Library.Calendar
import Dframework.Library.CLib

/-!
# The dates of HTTP

An instant is a number of seconds since the start of 1970, and its date is that of Greenwich. There
are three texts for it: `Sun, 06 Nov 1994 08:49:37 GMT`, `Sunday, 06-Nov-94 08:49:37 GMT`, and
`Sun Nov  6 08:49:37 1994`.

Results:
1. `digitsVal_digit_two`, `digitsVal_digit_four`: the numbers of a date are read back.
2. `clock_eq`: the hours, minutes and seconds of an instant make it up again.
3. `le_yearOf_iff`: the instants of a year and of the years behind it.
-/

namespace HttpDate

open CLib Calendar

def digit (n : Int) : UInt8 :=
  UInt8.ofInt (n + 48)

def two (n : Int) : Bytes :=
  [digit (n / 10), digit (n % 10)]

def four (n : Int) : Bytes :=
  [digit (n / 1000), digit (n % 1000 / 100), digit (n % 100 / 10), digit (n % 10)]

/-- A day of the month in two places. -/
def paddedDay (day : Int) : Bytes :=
  if day < 10 then [32, digit day] else two day

def dayNames : List Bytes :=
  ["Sunday", "Monday", "Tuesday", "Wednesday", "Thursday", "Friday", "Saturday"].map bytes

def monthNames : List Bytes :=
  ["Jan", "Feb", "Mar", "Apr", "May", "Jun", "Jul", "Aug", "Sep", "Oct", "Nov", "Dec"].map bytes

def dayName (wday : Int) : Bytes :=
  dayNames.getD wday.toNat []

def monthName (month : Int) : Bytes :=
  monthNames.getD month.toNat []

def dayOf (t : Int) : Int :=
  t / 86400

def hourOf (t : Int) : Int :=
  t % 86400 / 3600

def minuteOf (t : Int) : Int :=
  t % 3600 / 60

def secondOf (t : Int) : Int :=
  t % 60

/-- `08:49:37`. -/
def clock (t : Int) : Bytes :=
  two (hourOf t) ++ 58 :: two (minuteOf t) ++ 58 :: two (secondOf t)

/-- The three texts of a date. -/
inductive Format where
  | rfc1123
  | rfc850
  | asctime
  deriving DecidableEq, Repr

/-- The text of an instant, with a text in the place of the name of the month. -/
def Format.textWith (month : Bytes) (t : Int) : Format → Bytes
  | rfc1123 =>
    (dayName (weekday (dayOf t))).take 3 ++ bytes ", " ++ two (dateOf (dayOf t)).day ++ 32 :: month ++
      32 :: four (dateOf (dayOf t)).year ++ 32 :: clock t ++ bytes " GMT"
  | rfc850 =>
    dayName (weekday (dayOf t)) ++ bytes ", " ++ two (dateOf (dayOf t)).day ++ 45 :: month ++
      45 :: two ((dateOf (dayOf t)).year % 100) ++ 32 :: clock t ++ bytes " GMT"
  | asctime =>
    (dayName (weekday (dayOf t))).take 3 ++ 32 :: month ++
      32 :: paddedDay (dateOf (dayOf t)).day ++ 32 :: clock t ++
      32 :: four (dateOf (dayOf t)).year

def Format.text (t : Int) (format : Format) : Bytes :=
  format.textWith (monthName (dateOf (dayOf t)).month) t

def yearOf (t : Int) : Int :=
  (dateOf (dayOf t)).year

/-! ## Digits -/

section

variable {n : Int}

theorem digit_toNat (h0 : -48 ≤ n) (h1 : n < 208) : (digit n).toNat = (n + 48).toNat := by
  unfold digit UInt8.ofInt
  rw [UInt8.toNat_ofNat']
  omega

theorem digit_inj {k : Int} (h0 : -48 ≤ n) (h1 : n < 208) (k0 : -48 ≤ k) (k1 : k < 208)
    (h : digit n = digit k) : n = k := by
  have := congrArg UInt8.toNat h
  rw [digit_toNat h0 h1, digit_toNat k0 k1] at this
  omega

theorem digit_ne_zero (h0 : -48 < n) (h1 : n < 208) : digit n ≠ 0 := by
  intro h
  have := congrArg UInt8.toNat h
  rw [digit_toNat h0.le h1] at this
  simp at this
  omega

theorem digit_eq_iff {c : UInt8} : digit n = c ↔ (n + 48) % 256 = c.toNat := by
  rw [← UInt8.toNat_inj, digit, UInt8.ofInt, UInt8.toNat_ofNat']
  omega

variable (h0 : 0 ≤ n) (h1 : n ≤ 9)

include h0 h1

theorem digitVal_digit : digitVal (digit n) = some n.toNat := by
  interval_cases n <;> rfl

theorem isDigit_digit : isDigit 10 (digit n) := by
  interval_cases n <;> rfl

end

theorem digitsVal_digit_two {n : Int} (h0 : 0 ≤ n) (h1 : n ≤ 99) :
    (digitsVal 10 (two n) : Int) = n := by
  have htens := digitVal_digit (n := n / 10) (by omega) (by omega)
  have hones := digitVal_digit (n := n % 10) (by omega) (by omega)
  simp only [digitsVal, two, List.foldl_cons, List.foldl_nil, htens, hones, Option.getD_some]
  omega

theorem digitsVal_digit_four {n : Int} (h0 : 0 ≤ n) (h1 : n ≤ 9999) :
    (digitsVal 10 (four n) : Int) = n := by
  have ha := digitVal_digit (n := n / 1000) (by omega) (by omega)
  have hb := digitVal_digit (n := n % 1000 / 100) (by omega) (by omega)
  have hc := digitVal_digit (n := n % 100 / 10) (by omega) (by omega)
  have hd := digitVal_digit (n := n % 10) (by omega) (by omega)
  simp only [digitsVal, four, List.foldl_cons, List.foldl_nil, ha, hb, hc, hd, Option.getD_some]
  omega

/-! ## Names -/

theorem dayNames_eq : dayNames =
    [[83, 117, 110, 100, 97, 121], [77, 111, 110, 100, 97, 121], [84, 117, 101, 115, 100, 97, 121],
      [87, 101, 100, 110, 101, 115, 100, 97, 121], [84, 104, 117, 114, 115, 100, 97, 121],
      [70, 114, 105, 100, 97, 121], [83, 97, 116, 117, 114, 100, 97, 121]] :=
  rfl

theorem monthNames_eq : monthNames =
    [[74, 97, 110], [70, 101, 98], [77, 97, 114], [65, 112, 114], [77, 97, 121], [74, 117, 110],
      [74, 117, 108], [65, 117, 103], [83, 101, 112], [79, 99, 116], [78, 111, 118],
      [68, 101, 99]] :=
  rfl

theorem dayName_mem {wday : Int} (h0 : 0 ≤ wday) (h1 : wday ≤ 6) : dayName wday ∈ dayNames := by
  have hlt : wday.toNat < dayNames.length := by
    show wday.toNat < 7
    omega
  rw [dayName, List.getD_eq_getElem _ _ hlt]
  exact List.getElem_mem hlt

theorem monthName_mem {month : Int} (h0 : 0 ≤ month) (h1 : month ≤ 11) :
    monthName month ∈ monthNames := by
  have hlt : month.toNat < monthNames.length := by
    show month.toNat < 12
    omega
  rw [monthName, List.getD_eq_getElem _ _ hlt]
  exact List.getElem_mem hlt

theorem monthName_length {month : Int} (h0 : 0 ≤ month) (h1 : month ≤ 11) :
    (monthName month).length = 3 :=
  (by decide : ∀ name ∈ monthNames, name.length = 3) _ (monthName_mem h0 h1)

theorem dayName_take_length {wday : Int} (h0 : 0 ≤ wday) (h1 : wday ≤ 6) :
    ((dayName wday).take 3).length = 3 :=
  (by decide : ∀ name ∈ dayNames, (name.take 3).length = 3) _ (dayName_mem h0 h1)

theorem monthName_inj {a b : Int} (ha : 0 ≤ a ∧ a ≤ 11) (hb : 0 ≤ b ∧ b ≤ 11)
    (h : monthName a = monthName b) : a = b := by
  have hnodup : monthNames.Nodup := by decide
  have hlta : a.toNat < monthNames.length := by
    show a.toNat < 12
    omega
  have hltb : b.toNat < monthNames.length := by
    show b.toNat < 12
    omega
  rw [monthName, monthName, List.getD_eq_getElem _ _ hlta, List.getD_eq_getElem _ _ hltb] at h
  have := (hnodup.getElem_inj_iff).mp h
  omega

/-! ## Instants -/

theorem weekday_bounds (number : Int) : 0 ≤ weekday number ∧ weekday number ≤ 6 := by
  unfold weekday
  omega

theorem day_bounds (number : Int) : 1 ≤ (dateOf number).day ∧ (dateOf number).day ≤ 31 := by
  obtain ⟨-, -, h0, h1⟩ := dateOf_valid number
  refine ⟨h0, h1.trans ?_⟩
  unfold monthLength
  split_ifs <;> decide

theorem month_bounds (number : Int) : 0 ≤ (dateOf number).month ∧ (dateOf number).month ≤ 11 :=
  ⟨(dateOf_valid number).1, (dateOf_valid number).2.1⟩

/-- The parts of an instant make it up again. -/
theorem clock_eq (t : Int) :
    t = 86400 * dayOf t + 3600 * hourOf t + 60 * minuteOf t + secondOf t := by
  unfold dayOf hourOf minuteOf secondOf
  omega

/-- Two instants with the same date and the same time of the day are one. -/
theorem instant_inj {t u : Int} (hd : dateOf (dayOf t) = dateOf (dayOf u))
    (hh : hourOf t = hourOf u) (hm : minuteOf t = minuteOf u) (hs : secondOf t = secondOf u) :
    t = u := by
  have hday : dayOf t = dayOf u := by
    rw [← number_dateOf (dayOf t), hd, number_dateOf]
  have ht := clock_eq t
  have hu := clock_eq u
  omega


theorem clock_bounds (t : Int) :
    0 ≤ hourOf t ∧ hourOf t ≤ 23 ∧ 0 ≤ minuteOf t ∧ minuteOf t ≤ 59 ∧ 0 ≤ secondOf t ∧
      secondOf t ≤ 59 := by
  unfold hourOf minuteOf secondOf
  omega

/-- The instants of a year and of the years behind it. -/
theorem le_yearOf_iff (t year : Int) : year ≤ yearOf t ↔ 86400 * newYear year ≤ t := by
  have h := year_lt_iff (dateOf_valid (dayOf t)) year
  rw [number_dateOf] at h
  unfold yearOf
  unfold dayOf at h ⊢
  omega

end HttpDate
