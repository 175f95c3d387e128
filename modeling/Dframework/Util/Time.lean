import Mathlib
import Dframework.Library.HttpDate

/-!
# Time and its date string

`Time::get` takes an instant apart, in Greenwich or where the machine is, and
`getDateStringRfc822` writes what it found. It asks for the local time and writes `GMT` behind it,
and the instant 0 stands for now.

Results:
1. `getDateString_eq`: the string is the date of the local time.
2. `dateString_denotes_iff`: the instants whose string is their own date.
-/

namespace Dframework

open CLib Calendar HttpDate

/-- The fields of `struct tm` that are read, and those of `Time` of the same names. -/
structure Tm where
  sec : Int := 0
  min : Int := 0
  hour : Int := 0
  mday : Int := 0
  mon : Int := 0
  year : Int := 0
  wday : Int := 0
  gmtoff : Int := 0
  deriving DecidableEq, Repr

/-- What a machine has of its own: the offset of its zone from Greenwich in seconds, and its clock.
A zone lies less than twenty-five hours away, and the clock shows a year of four digits. -/
structure Machine where
  gmtoff : Int
  now : Int
  zone : -90000 < gmtoff ∧ gmtoff < 90000
  clock : 0 ≤ now ∧ now ≤ 253402300799

inductive TimeType where
  | gm
  | localTime
  deriving DecidableEq, Repr

/-- An instant in parts. It stays empty where the year does not fit in an `int`. -/
def brokenDown (t gmtoff : Int) : Tm :=
  let shown := t + gmtoff
  let year := yearOf shown - 1900
  if -2 ^ 31 ≤ year ∧ year < 2 ^ 31 then
    { sec := secondOf shown
      min := minuteOf shown
      hour := hourOf shown
      mday := (dateOf (dayOf shown)).day
      mon := (dateOf (dayOf shown)).month
      year
      wday := weekday (dayOf shown)
      gmtoff }
  else {}

/-- `gmtime_r` into a structure of zeros. -/
def gmtime (t : Int) : Tm :=
  brokenDown t 0

/-- `localtime_r` into a structure of zeros. -/
def localtime (machine : Machine) (t : Int) : Tm :=
  brokenDown t machine.gmtoff

namespace Time

def WEEK_DAYS : List Bytes :=
  ["Sun", "Mon", "Tue", "Wed", "Thu", "Fri", "Sat"].map bytes

def SHORT_MONTHS : List Bytes :=
  ["Jan", "Feb", "Mar", "Apr", "May", "Jun", "Jul", "Aug", "Sep", "Oct", "Nov", "Dec"].map bytes

def instant (machine : Machine) (t : Int) : Int :=
  if t = 0 then machine.now else t

def get (machine : Machine) (t : Int) (type : TimeType) : Tm :=
  match type with
  | .gm => gmtime (instant machine t)
  | .localTime => localtime machine (instant machine t)

/-- `Time::getDateStringRfc822`. The quotients and remainders of C go towards zero. -/
def getDateStringRfc822 (machine : Machine) (time : Int) : Bytes :=
  let tm := get machine time .localTime
  let realYear := 1900 + tm.year
  cstr (WEEK_DAYS.getD tm.wday.toNat [] ++
    [44, 32, digit (tm.mday.tdiv 10), digit (tm.mday.tmod 10), 32] ++
    SHORT_MONTHS.getD tm.mon.toNat [] ++
    [32, digit (realYear.tdiv 1000), digit ((realYear.tmod 1000).tdiv 100),
      digit ((realYear.tmod 100).tdiv 10), digit (realYear.tmod 10), 32,
      digit (tm.hour.tdiv 10), digit (tm.hour.tmod 10), 58,
      digit (tm.min.tdiv 10), digit (tm.min.tmod 10), 58,
      digit (tm.sec.tdiv 10), digit (tm.sec.tmod 10), 32, 71, 77, 84])

end Time

/-! ## The parts of an instant -/

def shown (machine : Machine) (t : Int) : Int :=
  Time.instant machine t + machine.gmtoff

def FourDigits (t : Int) : Prop :=
  0 ≤ yearOf t ∧ yearOf t ≤ 9999

instance (t : Int) : Decidable (FourDigits t) := inferInstanceAs (Decidable (_ ∧ _))

theorem fourDigits_iff (t : Int) : FourDigits t ↔ -62167219200 ≤ t ∧ t ≤ 253402300799 := by
  have h0 := le_yearOf_iff t 0
  have h1 := le_yearOf_iff t 10000
  have hn0 : newYear 0 = -719528 := by decide
  have hn1 : newYear 10000 = 2932897 := by decide
  rw [hn0] at h0
  rw [hn1] at h1
  unfold FourDigits
  omega

/-- The local time lies near an instant of a year of four digits. -/
theorem yearOf_shown (machine : Machine) {t : Int} (h : FourDigits t) :
    -1 ≤ yearOf (shown machine t) ∧ yearOf (shown machine t) ≤ 10000 := by
  have hzone := machine.zone
  have hclock := machine.clock
  rw [fourDigits_iff] at h
  have h0 := le_yearOf_iff (shown machine t) (-1)
  have h1 := le_yearOf_iff (shown machine t) 10001
  have hn0 : newYear (-1) = -719893 := by decide
  have hn1 : newYear 10001 = 2933263 := by decide
  rw [hn0] at h0
  rw [hn1] at h1
  have hs : -62167309200 < shown machine t ∧ shown machine t < 253402390800 := by
    unfold shown Time.instant
    split_ifs <;> omega
  omega

theorem get_localTime {machine : Machine} {t : Int} (h0 : -1 ≤ yearOf (shown machine t))
    (h1 : yearOf (shown machine t) ≤ 10000) :
    Time.get machine t .localTime =
      { sec := secondOf (shown machine t)
        min := minuteOf (shown machine t)
        hour := hourOf (shown machine t)
        mday := (dateOf (dayOf (shown machine t))).day
        mon := (dateOf (dayOf (shown machine t))).month
        year := yearOf (shown machine t) - 1900
        wday := weekday (dayOf (shown machine t))
        gmtoff := machine.gmtoff } := by
  show brokenDown (Time.instant machine t) machine.gmtoff = _
  rw [brokenDown]
  exact if_pos (by show -2 ^ 31 ≤ yearOf (shown machine t) - 1900 ∧ _; unfold shown at *; omega)

/-! ## The string -/

/-- The string of an instant, of any year. -/
def dateLine (u : Int) : Bytes :=
  (dayName (weekday (dayOf u))).take 3 ++
    ([44, 32, digit ((dateOf (dayOf u)).day / 10), digit ((dateOf (dayOf u)).day % 10), 32] ++
    (monthName (dateOf (dayOf u)).month ++
    [32, digit ((yearOf u).tdiv 1000), digit (((yearOf u).tmod 1000).tdiv 100),
      digit (((yearOf u).tmod 100).tdiv 10), digit ((yearOf u).tmod 10), 32,
      digit (hourOf u / 10), digit (hourOf u % 10), 58,
      digit (minuteOf u / 10), digit (minuteOf u % 10), 58,
      digit (secondOf u / 10), digit (secondOf u % 10), 32, 71, 77, 84]))

theorem weekDays_eq {wday : Int} (h0 : 0 ≤ wday) (h1 : wday ≤ 6) :
    Time.WEEK_DAYS.getD wday.toNat [] = (dayName wday).take 3 := by
  interval_cases wday <;> rfl

theorem shortMonths_eq (mon : Int) : Time.SHORT_MONTHS.getD mon.toNat [] = monthName mon :=
  rfl

/-- The digits of a year near those of four digits. -/
theorem year_digits {y : Int} (h0 : -1 ≤ y) (h1 : y ≤ 10000) :
    y = 1000 * y.tdiv 1000 + 100 * (y.tmod 1000).tdiv 100 + 10 * (y.tmod 100).tdiv 10 +
      y.tmod 10 ∧
    0 ≤ y.tdiv 1000 ∧ y.tdiv 1000 ≤ 10 ∧ 0 ≤ (y.tmod 1000).tdiv 100 ∧
    (y.tmod 1000).tdiv 100 ≤ 9 ∧ 0 ≤ (y.tmod 100).tdiv 10 ∧ (y.tmod 100).tdiv 10 ≤ 9 ∧
    -1 ≤ y.tmod 10 ∧ y.tmod 10 ≤ 9 := by
  rcases eq_or_lt_of_le h0 with rfl | hpos
  · decide
  · have hy : 0 ≤ y := hpos
    rw [Int.tmod_eq_emod_of_nonneg hy, Int.tmod_eq_emod_of_nonneg hy,
      Int.tmod_eq_emod_of_nonneg hy, Int.tdiv_eq_ediv_of_nonneg hy,
      Int.tdiv_eq_ediv_of_nonneg (Int.emod_nonneg y (by decide)),
      Int.tdiv_eq_ediv_of_nonneg (Int.emod_nonneg y (by decide))]
    omega

/-- The string has no NUL in it. -/
theorem zero_not_mem_dateLine {u : Int} (h0 : -1 ≤ yearOf u) (h1 : yearOf u ≤ 10000) :
    (0 : UInt8) ∉ dateLine u := by
  have hname : (0 : UInt8) ∉ (dayName (weekday (dayOf u))).take 3 :=
    (by decide : ∀ name ∈ dayNames, (0 : UInt8) ∉ name.take 3) _
      (dayName_mem (weekday_bounds _).1 (weekday_bounds _).2)
  have hmonth : (0 : UInt8) ∉ monthName (dateOf (dayOf u)).month :=
    (by decide : ∀ name ∈ monthNames, (0 : UInt8) ∉ name) _
      (monthName_mem (month_bounds _).1 (month_bounds _).2)
  have hday := day_bounds (dayOf u)
  have hclock := clock_bounds u
  obtain ⟨-, hyear⟩ := year_digits h0 h1
  have hdigit : ∀ n : Int, -48 < n → n < 208 → (0 : UInt8) ≠ digit n := fun n ha hb =>
    (digit_ne_zero ha hb).symm
  simp only [dateLine, List.mem_append, List.mem_cons, List.not_mem_nil, or_false, hname, hmonth,
    false_or, not_or]
  refine ⟨⟨by decide, by decide, ?_, ?_, by decide⟩, by decide, ?_, ?_, ?_, ?_, by decide, ?_, ?_,
    by decide, ?_, ?_, by decide, ?_, ?_, by decide, by decide, by decide, by decide⟩ <;>
    exact hdigit _ (by omega) (by omega)

/-- The string is the date of the local time. -/
theorem getDateString_eq {machine : Machine} {t : Int} (h0 : -1 ≤ yearOf (shown machine t))
    (h1 : yearOf (shown machine t) ≤ 10000) :
    Time.getDateStringRfc822 machine t = dateLine (shown machine t) := by
  have hday := day_bounds (dayOf (shown machine t))
  have hclock := clock_bounds (shown machine t)
  have hyear : 1900 + (yearOf (shown machine t) - 1900) = yearOf (shown machine t) := by omega
  rw [Time.getDateStringRfc822, get_localTime h0 h1]
  simp only [hyear]
  rw [weekDays_eq (weekday_bounds _).1 (weekday_bounds _).2, shortMonths_eq,
    Int.tdiv_eq_ediv_of_nonneg (by omega), Int.tmod_eq_emod_of_nonneg (by omega),
    Int.tdiv_eq_ediv_of_nonneg hclock.1, Int.tmod_eq_emod_of_nonneg hclock.1,
    Int.tdiv_eq_ediv_of_nonneg hclock.2.2.1, Int.tmod_eq_emod_of_nonneg hclock.2.2.1,
    Int.tdiv_eq_ediv_of_nonneg hclock.2.2.2.2.1, Int.tmod_eq_emod_of_nonneg hclock.2.2.2.2.1]
  simp only [List.append_assoc]
  exact cstr_of_not_mem (zero_not_mem_dateLine h0 h1)

/-- The string of a year of four digits is the text of the instant. -/
theorem dateLine_text {u : Int} (h : FourDigits u) : dateLine u = Format.rfc1123.text u := by
  obtain ⟨h0, h1⟩ := h
  rw [dateLine, Int.tdiv_eq_ediv_of_nonneg h0, Int.tmod_eq_emod_of_nonneg h0,
    Int.tmod_eq_emod_of_nonneg h0, Int.tmod_eq_emod_of_nonneg h0,
    Int.tdiv_eq_ediv_of_nonneg (Int.emod_nonneg _ (by decide)),
    Int.tdiv_eq_ediv_of_nonneg (Int.emod_nonneg _ (by decide))]
  simp [Format.text, Format.textWith, HttpDate.two, four, HttpDate.clock, bytes, yearOf]

theorem two_inj {a b : Int} (ha : 0 ≤ a ∧ a ≤ 99) (hb : 0 ≤ b ∧ b ≤ 99)
    (hten : digit (a / 10) = digit (b / 10)) (hone : digit (a % 10) = digit (b % 10)) : a = b := by
  have h1 := digit_inj (by omega) (by omega) (by omega) (by omega) hten
  have h2 := digit_inj (by omega) (by omega) (by omega) (by omega) hone
  omega

/-- The string of one instant only. -/
theorem dateLine_inj {u t : Int} (hu0 : -1 ≤ yearOf u) (hu1 : yearOf u ≤ 10000)
    (ht0 : -1 ≤ yearOf t) (ht1 : yearOf t ≤ 10000) (h : dateLine u = dateLine t) : u = t := by
  have hdayU := day_bounds (dayOf u)
  have hdayT := day_bounds (dayOf t)
  obtain ⟨hh0, hh1, hm0, hm1, hs0, hs1⟩ := clock_bounds u
  obtain ⟨hh0', hh1', hm0', hm1', hs0', hs1'⟩ := clock_bounds t
  obtain ⟨hyearU, hboundsU⟩ := year_digits hu0 hu1
  obtain ⟨hyearT, hboundsT⟩ := year_digits ht0 ht1
  have hname : ((dayName (weekday (dayOf u))).take 3).length =
      ((dayName (weekday (dayOf t))).take 3).length := by
    rw [dayName_take_length (weekday_bounds _).1 (weekday_bounds _).2,
      dayName_take_length (weekday_bounds _).1 (weekday_bounds _).2]
  have hmonth : (monthName (dateOf (dayOf u)).month).length =
      (monthName (dateOf (dayOf t)).month).length := by
    rw [monthName_length (month_bounds _).1 (month_bounds _).2,
      monthName_length (month_bounds _).1 (month_bounds _).2]
  obtain ⟨-, hrest⟩ := List.append_inj h hname
  obtain ⟨hday, hrest⟩ := List.append_inj hrest rfl
  obtain ⟨hmon, hrest⟩ := List.append_inj hrest hmonth
  simp only [List.cons.injEq, true_and, and_true] at hday hrest
  obtain ⟨hy1, hy2, hy3, hy4, hh1, hh2, hm1, hm2, hs1, hs2⟩ := hrest
  have hdays : (dateOf (dayOf u)).day = (dateOf (dayOf t)).day :=
    two_inj (by omega) (by omega) hday.1 hday.2
  have hmonths := monthName_inj (month_bounds _) (month_bounds _) hmon
  have hyears : yearOf u = yearOf t := by
    have h1 := digit_inj (by omega) (by omega) (by omega) (by omega) hy1
    have h2 := digit_inj (by omega) (by omega) (by omega) (by omega) hy2
    have h3 := digit_inj (by omega) (by omega) (by omega) (by omega) hy3
    have h4 := digit_inj (by omega) (by omega) (by omega) (by omega) hy4
    omega
  have hdate : dateOf (dayOf u) = dateOf (dayOf t) := by
    rw [Date.mk.injEq]
    exact ⟨hyears, hmonths, hdays⟩
  exact instant_inj hdate (two_inj (by omega) (by omega) hh1 hh2)
    (two_inj (by omega) (by omega) hm1 hm2) (two_inj (by omega) (by omega) hs1 hs2)

/-! ## What the string denotes -/

def Denotes (s : Bytes) (t : Int) : Prop :=
  FourDigits t ∧ s = Format.rfc1123.text t

/-- The string denotes the instant where the machine has no offset, the year has four digits and the
instant is not 0. For the instant 0 it is the local time of the machine that has to be 0. -/
theorem dateString_denotes_iff (machine : Machine) (t : Int) :
    Denotes (Time.getDateStringRfc822 machine t) t ↔
      FourDigits t ∧ if t = 0 then machine.now + machine.gmtoff = 0 else machine.gmtoff = 0 := by
  have hshown : shown machine t = t ↔
      if t = 0 then machine.now + machine.gmtoff = 0 else machine.gmtoff = 0 := by
    unfold shown Time.instant
    split_ifs <;> omega
  rw [Denotes, and_congr_right_iff, ← hshown]
  intro hfour
  obtain ⟨h0, h1⟩ := yearOf_shown machine hfour
  obtain ⟨ht0, ht1⟩ := hfour
  rw [getDateString_eq h0 h1, ← dateLine_text ⟨ht0, ht1⟩]
  constructor
  · exact fun h => dateLine_inj h0 h1 (by omega) (by omega) h
  · exact fun h => congrArg dateLine h

/-- A machine one hour east of Greenwich. -/
def eastern : Machine :=
  { gmtoff := 3600, now := 1000000000, zone := by decide, clock := by decide }

/-- One hour east, the string of 08:49:37 GMT says 09:49:37 GMT. -/
theorem not_dateString_denotes : ¬ Denotes (Time.getDateStringRfc822 eastern 784111777) 784111777 ∧
    Time.getDateStringRfc822 eastern 784111777 = bytes "Sun, 06 Nov 1994 09:49:37 GMT" := by
  have hstring : Time.getDateStringRfc822 eastern 784111777 =
      bytes "Sun, 06 Nov 1994 09:49:37 GMT" := by decide
  have htext : Format.rfc1123.text 784111777 = bytes "Sun, 06 Nov 1994 08:49:37 GMT" := by
    decide
  refine ⟨?_, hstring⟩
  rintro ⟨-, h⟩
  rw [hstring, htext] at h
  exact absurd h (by decide)

end Dframework
