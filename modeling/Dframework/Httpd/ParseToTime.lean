import Mathlib
import Dframework.Base.Retval
import Dframework.Util.Time

/-!
# The server's date parser

`parseToTime` compares what stands behind the day of the week with the masks of four formats,
takes the numbers out of it and hands them to `expget`, which counts the days. Both work on a `Time`
that was made for the present time, so the offset of the machine is taken away again. `expget` counts
the seconds in an `int`.

Results:
1. `expget_lt`: no instant behind the range of an `int` comes out of it.
2. `parseToTime_dateLine`: what the text of a local time is read as.
3. `parseToTime_dateString_iff`: the instants that their own date string gives back.
-/

namespace Dframework

open CLib Calendar HttpDate

/-- A value in an `int`. -/
def int32 (x : Int) : Int :=
  x.bmod (2 ^ 32)

def Tm.getGmtOffsetHour (tm : Tm) : Int :=
  (tm.gmtoff.tdiv 60).tdiv 60

def Tm.getGmtOffsetMin (tm : Tm) : Int :=
  (tm.gmtoff.tdiv 60).tmod 60

namespace HttpdUtil

def dayoffset : List Int :=
  [306, 337, 0, 31, 61, 92, 122, 153, 184, 214, 245, 275]

def expget (xt : Tm) : Except Ret Int :=
  -- the year starts in March
  let year := if xt.mon < 2 then xt.year - 1 else xt.year
  let days := year * 365 + year.tdiv 4 - year.tdiv 100 + (year.tdiv 100 + 3).tdiv 4
  let days := days + dayoffset.getD xt.mon.toNat 0 + xt.mday - 1 - 25508
  let days := int32 ((((days * 24 + xt.hour - xt.getGmtOffsetHour) * 60) + xt.min -
    xt.getGmtOffsetMin) * 60 + xt.sec)
  if days < 0 then .error { value := .eInval, message := s!"days<0, days={days}" } else .ok days

def isupper (c : UInt8) : Bool :=
  65 ≤ c && c ≤ 90

def islower (c : UInt8) : Bool :=
  97 ≤ c && c ≤ 122

def isdigit (c : UInt8) : Bool :=
  48 ≤ c && c ≤ 57

/-- `HttpdUtil::isDateMask`. The masks are all shorter than its limit. -/
def isDateMask : Bytes → Bytes → Bool
  | data, [] => data.headD 0 == 0
  | data, m :: mask =>
    let d := data.headD 0
    if m = 42 then true
    else if m = 64 then isupper d && isDateMask data.tail mask
    else if m = 36 then islower d && isDateMask data.tail mask
    else if m = 35 then isdigit d && isDateMask data.tail mask
    else if m = 38 then isxdigit d && isDateMask data.tail mask
    else if m = 126 then (d == 32 || isdigit d) && isDateMask data.tail mask
    else m == d && isDateMask data.tail mask

/-- Three characters in one `int`. -/
def letters (s : Bytes) : Int :=
  (s.getD 0 0).toNat * 65536 + (s.getD 1 0).toNat * 256 + (s.getD 2 0).toNat

def months : List Int :=
  ["Jan", "Feb", "Mar", "Apr", "May", "Jun", "Jul", "Aug", "Sep", "Oct", "Nov", "Dec"].map
    fun s => letters (bytes s)

/-- What the masks find: the year and the day, and where the month and the time stand. -/
structure DateParts where
  year : Int
  day : Int
  monstr : Bytes
  timstr : Bytes
  deriving DecidableEq, Repr

/-- `date[i] - '0'`. -/
def num (date : Bytes) (i : Nat) : Int :=
  (date.getD i 0).toNat - 48

/-- The branches of `parseToTime` for the four formats. A year in front of 1900 is an error. -/
def dateParts (date : Bytes) : Option DateParts :=
  if isDateMask date (bytes "## @$$ #### ##:##:## *") then
    let century := (num date 7 * 10 + num date 8 - 19) * 100
    if century < 0 then none
    else
      some
        { year := century + (num date 9 * 10 + num date 10), day := num date 0 * 10 + num date 1
          monstr := date.drop 3, timstr := date.drop 12 }
  else if isDateMask date (bytes "##-@$$-## ##:##:## *") then
    let year := num date 7 * 10 + num date 8
    some
      { year := if year < 70 then year + 100 else year, day := num date 0 * 10 + num date 1
        monstr := date.drop 3, timstr := date.drop 10 }
  else if isDateMask date (bytes "@$$ ~# ##:##:## ####*") then
    let century := (num date 16 * 10 + num date 17 - 19) * 100
    if century < 0 then none
    else
      some
        { year := century + num date 18 * 10 + num date 19
          day := (if date.getD 4 0 = 32 then 0 else num date 4 * 10) + num date 5
          monstr := date, timstr := date.drop 7 }
  else if isDateMask date (bytes "# @$$ #### ##:##:## *") then
    let century := (num date 6 * 10 + num date 7 - 19) * 100
    if century < 0 then none
    else
      some
        { year := century + num date 8 * 10 + num date 9, day := num date 0
          monstr := date.drop 2, timstr := date.drop 11 }
  else none

/-- The part of `parseToTime` behind the masks. `ds` is the `Time` it started with. -/
def checkParts (ds : Tm) (p : DateParts) : Except Ret Int :=
  let hour := num p.timstr 0 * 10 + num p.timstr 1
  let min := num p.timstr 3 * 10 + num p.timstr 4
  let sec := num p.timstr 6 * 10 + num p.timstr 7
  let mon : Int := months.findIdx (· == letters p.monstr)
  if p.day ≤ 0 ∨ p.day > 31 then .error { value := .error }
  else if hour > 23 ∨ min > 59 ∨ sec > 61 then .error { value := .error }
  else if mon = 12 then .error { value := .error }
  else if p.day = 31 ∧ (mon = 3 ∨ mon = 5 ∨ mon = 8 ∨ mon = 10) then .error { value := .error }
  else if mon = 1 ∧ (p.day > 29 ∨
      p.day = 29 ∧ (p.year % 4 ≠ 0 ∨ p.year % 100 = 0 ∧ p.year % 400 ≠ 100)) then
    .error { value := .error }
  else expget { ds with sec, min, hour, mday := p.day, mon, year := p.year }

def unknownDate (date : String) : Ret :=
  { value := .eInval, message := s!"Unknown arg(date={date})" }

/-- `HttpdUtil::parseToTime`. Where no blank is found the pointer to the date is `NULL` by then. -/
def parseToTime (machine : Machine) (date : Option Bytes) : Except Ret Int :=
  match date with
  | none => .error { value := .eInval, message := "arg(date) is null." }
  | some date =>
    let ds := Time.get machine 0 .localTime
    let date := (cstr date).dropWhile isspace
    if date = [] then .error (unknownDate "")
    else match strstr date [32] with
    | none => .error (unknownDate "(null)")
    | some i =>
      match dateParts (date.drop (i + 1)) with
      | none => .error { value := .error }
      | some p => checkParts ds p

end HttpdUtil

/-! ## Counting the days -/

theorem int32_lt (x : Int) : int32 x < 2 ^ 31 :=
  Int.bmod_lt (by decide)

theorem int32_of_lt {x : Int} (h0 : 0 ≤ x) (h1 : x < 2 ^ 31) : int32 x = x :=
  Int.bmod_eq_of_le (by omega) (by omega)

/-- No instant behind the range of an `int` comes out. -/
theorem expget_lt {xt : Tm} {t : Int} (h : HttpdUtil.expget xt = .ok t) : t < 2 ^ 31 := by
  simp only [HttpdUtil.expget] at h
  split_ifs at h <;> exact Except.ok.inj h ▸ int32_lt _

theorem checkParts_lt {ds : Tm} {p : HttpdUtil.DateParts} {t : Int}
    (h : HttpdUtil.checkParts ds p = .ok t) : t < 2 ^ 31 := by
  simp only [HttpdUtil.checkParts] at h
  split_ifs at h
  exact expget_lt h

theorem parseToTime_lt {machine : Machine} {date : Option Bytes} {t : Int}
    (h : HttpdUtil.parseToTime machine date = .ok t) : t < 2 ^ 31 := by
  simp only [HttpdUtil.parseToTime] at h
  split at h
  · cases h
  · split at h
    · cases h
    split at h
    · cases h
    split at h
    · cases h
    · exact checkParts_lt h

theorem dayoffset_eq {mon : Int} (h0 : 0 ≤ mon) (h1 : mon ≤ 11) :
    HttpdUtil.dayoffset.getD mon.toNat 0 = monthOffset mon := by
  interval_cases mon <;> rfl

/-- A whole minute is split into hours and minutes. -/
theorem gmtOffset_eq {tm : Tm} (h : 60 ∣ tm.gmtoff) :
    3600 * tm.getGmtOffsetHour + 60 * tm.getGmtOffsetMin = tm.gmtoff := by
  obtain ⟨k, hk⟩ := h
  have hmin : tm.gmtoff.tdiv 60 = k := by rw [hk, Int.mul_tdiv_cancel_left _ (by decide)]
  have hsplit := Int.tmod_add_mul_tdiv k 60
  unfold Tm.getGmtOffsetHour Tm.getGmtOffsetMin
  rw [hmin]
  omega

/-- What `expget` makes of a date in the years of an `int`. -/
theorem expget_date {xt : Tm} {d : Date} {t : Int} (hd : d.Valid) (hyear : xt.year = d.year - 1900)
    (hmon : xt.mon = d.month) (hday : xt.mday = d.day) (hy : 1901 ≤ d.year)
    (hoff : 60 ∣ xt.gmtoff)
    (ht : t = 86400 * d.number + 3600 * xt.hour + 60 * xt.min + xt.sec - xt.gmtoff)
    (h0 : 0 ≤ t) (h1 : t < 2 ^ 31) : HttpdUtil.expget xt = .ok t := by
  obtain ⟨hm0, hm1, -, -⟩ := hd
  have hgmt := gmtOffset_eq hoff
  have hnumber : d.number = d.marchYear * 365 + d.marchYear / 4 - d.marchYear / 100 +
      d.marchYear / 400 + monthOffset d.month + d.day - 719469 := by
    rw [Date.number, Int.mul_comm]
  have hmarch : (if d.month < 2 then d.year - 1900 - 1 else d.year - 1900) = d.marchYear - 1900 := by
    unfold Date.marchYear
    split_ifs <;> omega
  have hpos : 0 ≤ d.marchYear - 1900 := by
    unfold Date.marchYear
    split_ifs <;> omega
  have hvalue : ((((d.marchYear - 1900) * 365 + (d.marchYear - 1900).tdiv 4 -
      (d.marchYear - 1900).tdiv 100 + ((d.marchYear - 1900).tdiv 100 + 3).tdiv 4 +
      monthOffset d.month + d.day - 1 - 25508) * 24 + xt.hour - xt.getGmtOffsetHour) * 60 + xt.min -
      xt.getGmtOffsetMin) * 60 + xt.sec = t := by
    rw [Int.tdiv_eq_ediv_of_nonneg hpos, Int.tdiv_eq_ediv_of_nonneg hpos,
      Int.tdiv_eq_ediv_of_nonneg (by omega)]
    omega
  simp only [HttpdUtil.expget, hyear, hmon, hday, hmarch, dayoffset_eq hm0 hm1, hvalue,
    int32_of_lt h0 h1]
  exact if_neg (by omega)

/-! ## Reading the text -/

open HttpdUtil

theorem isdigit_digit {n : Int} (h0 : 0 ≤ n) (h1 : n ≤ 9) : isdigit (digit n) := by
  interval_cases n <;> rfl

theorem digit_value {n : Int} (h0 : 0 ≤ n) (h1 : n ≤ 9) : ((digit n).toNat : Int) - 48 = n := by
  rw [digit_toNat (by omega) (by omega)]
  omega

/-- What the masks and the table see of the name of a month. -/
theorem monthNames_spec {month : Int} (h0 : 0 ≤ month) (h1 : month ≤ 11) :
    ∃ a b c, monthName month = [a, b, c] ∧ isupper a ∧ islower b ∧ islower c ∧
      ∀ s : Bytes, (months.findIdx (· == letters (a :: b :: c :: s)) : Int) = month := by
  have hindex : ∀ s : Bytes, ∀ a b c, letters (a :: b :: c :: s) = letters [a, b, c] :=
    fun _ _ _ _ => rfl
  interval_cases month <;>
    refine ⟨_, _, _, rfl, by decide, by decide, by decide, fun s => ?_⟩ <;>
    rw [hindex] <;> decide

/-- The text of an instant behind the name of the day. -/
def behindDay (name : Bytes) (t : Int) : Bytes :=
  two (dateOf (dayOf t)).day ++ 32 :: (name ++ 32 :: (four (yearOf t) ++ 32 :: (clock t ++
    bytes " GMT")))

section

variable {t : Int} {a b c : UInt8}

theorem isDateMask_text (ha : isupper a) (hb : islower b) (hc : islower c) (h0 : 1900 ≤ yearOf t)
    (h1 : yearOf t ≤ 9999) :
    isDateMask (behindDay [a, b, c] t) (bytes "## @$$ #### ##:##:## *") := by
  have hday := day_bounds (dayOf t)
  obtain ⟨hh0, hh1, hm0, hm1, hs0, hs1⟩ := clock_bounds t
  have hmask : bytes "## @$$ #### ##:##:## *" = [35, 35, 32, 64, 36, 36, 32, 35, 35, 35, 35, 32, 35,
    35, 58, 35, 35, 58, 35, 35, 32, 42] := by decide
  have hgmt : bytes " GMT" = [32, 71, 77, 84] := by decide
  have hdigit : ∀ n : Int, 0 ≤ n → n ≤ 9 → isdigit (digit n) = true := fun n => isdigit_digit
  rw [hmask, behindDay, hgmt]
  simp only [two, four, HttpDate.clock, List.cons_append, List.nil_append]
  simp (disch := omega) [isDateMask, hdigit, ha, hb, hc]

/-- The parts of the text behind the name of the day. -/
theorem dateParts_text (ha : isupper a) (hb : islower b) (hc : islower c) (h0 : 1900 ≤ yearOf t)
    (h1 : yearOf t ≤ 9999) :
    dateParts (behindDay [a, b, c] t) =
      some
        { year := yearOf t - 1900
          day := (dateOf (dayOf t)).day
          monstr := a :: b :: c :: (behindDay [a, b, c] t).drop 6
          timstr := HttpDate.clock t ++ bytes " GMT" } := by
  have hday := day_bounds (dayOf t)
  have hd0 : num (behindDay [a, b, c] t) 0 = (dateOf (dayOf t)).day / 10 :=
    digit_value (by omega) (by omega)
  have hd1 : num (behindDay [a, b, c] t) 1 = (dateOf (dayOf t)).day % 10 :=
    digit_value (by omega) (by omega)
  have hy7 : num (behindDay [a, b, c] t) 7 = yearOf t / 1000 := digit_value (by omega) (by omega)
  have hy8 : num (behindDay [a, b, c] t) 8 = yearOf t % 1000 / 100 :=
    digit_value (by omega) (by omega)
  have hy9 : num (behindDay [a, b, c] t) 9 = yearOf t % 100 / 10 :=
    digit_value (by omega) (by omega)
  have hy10 : num (behindDay [a, b, c] t) 10 = yearOf t % 10 := digit_value (by omega) (by omega)
  have hcentury : ¬ (yearOf t / 1000 * 10 + yearOf t % 1000 / 100 - 19) * 100 < 0 := by omega
  have hyear : (yearOf t / 1000 * 10 + yearOf t % 1000 / 100 - 19) * 100 +
      (yearOf t % 100 / 10 * 10 + yearOf t % 10) = yearOf t - 1900 := by omega
  have htwo : (dateOf (dayOf t)).day / 10 * 10 + (dateOf (dayOf t)).day % 10 =
      (dateOf (dayOf t)).day := by omega
  rw [dateParts, if_pos (isDateMask_text ha hb hc h0 h1)]
  simp only [hd0, hd1, hy7, hy8, hy9, hy10, if_neg hcentury, hyear, htwo]
  rfl

end

/-- The time of the day is read back. -/
theorem num_clock (t : Int) :
    num (HttpDate.clock t ++ bytes " GMT") 0 * 10 + num (HttpDate.clock t ++ bytes " GMT") 1 =
      hourOf t ∧
    num (HttpDate.clock t ++ bytes " GMT") 3 * 10 + num (HttpDate.clock t ++ bytes " GMT") 4 =
      minuteOf t ∧
    num (HttpDate.clock t ++ bytes " GMT") 6 * 10 + num (HttpDate.clock t ++ bytes " GMT") 7 =
      secondOf t := by
  obtain ⟨hh0, hh1, hm0, hm1, hs0, hs1⟩ := clock_bounds t
  have h0 : num (HttpDate.clock t ++ bytes " GMT") 0 = hourOf t / 10 :=
    digit_value (by omega) (by omega)
  have h1 : num (HttpDate.clock t ++ bytes " GMT") 1 = hourOf t % 10 :=
    digit_value (by omega) (by omega)
  have h3 : num (HttpDate.clock t ++ bytes " GMT") 3 = minuteOf t / 10 :=
    digit_value (by omega) (by omega)
  have h4 : num (HttpDate.clock t ++ bytes " GMT") 4 = minuteOf t % 10 :=
    digit_value (by omega) (by omega)
  have h6 : num (HttpDate.clock t ++ bytes " GMT") 6 = secondOf t / 10 :=
    digit_value (by omega) (by omega)
  have h7 : num (HttpDate.clock t ++ bytes " GMT") 7 = secondOf t % 10 :=
    digit_value (by omega) (by omega)
  rw [h0, h1, h3, h4, h6, h7]
  omega

/-- The date of a day passes the checks of the month. -/
theorem checks_pass {d : Date} (hd : d.Valid) :
    ¬ (d.day = 31 ∧ (d.month = 3 ∨ d.month = 5 ∨ d.month = 8 ∨ d.month = 10)) ∧
    ¬ (d.month = 1 ∧ (d.day > 29 ∨ d.day = 29 ∧ ((d.year - 1900) % 4 ≠ 0 ∨
      (d.year - 1900) % 100 = 0 ∧ (d.year - 1900) % 400 ≠ 100))) := by
  obtain ⟨-, -, -, hlen⟩ := hd
  constructor
  · rintro ⟨h31, hmon⟩
    have hthirty : monthLength d.year d.month = 30 := by
      rcases hmon with h | h | h | h <;> rw [h] <;> rfl
    omega
  · rintro ⟨hfeb, hday⟩
    rw [hfeb] at hlen
    have hlength : monthLength d.year 1 = if IsLeap d.year then 29 else 28 := rfl
    rw [hlength] at hlen
    split_ifs at hlen with hleap
    · unfold IsLeap at hleap
      omega
    · omega

/-- What the parts of a local time are read as. -/
theorem checkParts_text {machine : Machine} {u t : Int} {ds : Tm} {p : DateParts}
    (hds : ds.gmtoff = machine.gmtoff) (hoff : 60 ∣ machine.gmtoff) (ht : t = u - machine.gmtoff)
    (hyear : p.year = yearOf u - 1900) (hday : p.day = (dateOf (dayOf u)).day)
    (htim : p.timstr = HttpDate.clock u ++ bytes " GMT")
    (hmon : (months.findIdx (· == letters p.monstr) : Int) = (dateOf (dayOf u)).month)
    (hy : 1901 ≤ yearOf u) (h0 : 0 ≤ t) (h1 : t < 2 ^ 31) : checkParts ds p = .ok t := by
  obtain ⟨hhour, hmin, hsec⟩ := num_clock u
  obtain ⟨hh0, hh1, hm0, hm1, hs0, hs1⟩ := clock_bounds u
  have hvalid := dateOf_valid (dayOf u)
  have hd := day_bounds (dayOf u)
  have hm := month_bounds (dayOf u)
  obtain ⟨hlong, hfeb⟩ := checks_pass hvalid
  have hdayOk : ¬ ((dateOf (dayOf u)).day ≤ 0 ∨ (dateOf (dayOf u)).day > 31) := by omega
  have htimeOk : ¬ (hourOf u > 23 ∨ minuteOf u > 59 ∨ secondOf u > 61) := by omega
  have hmonOk : ¬ (dateOf (dayOf u)).month = 12 := by omega
  simp only [checkParts, htim, hday, hyear, hmon, hhour, hmin, hsec, if_neg hdayOk, if_neg htimeOk,
    if_neg hmonOk, if_neg hlong]
  refine (if_neg hfeb).trans ?_
  refine expget_date hvalid rfl rfl rfl hy (hds ▸ hoff) ?_ h0 h1
  have hclock := clock_eq u
  rw [number_dateOf]
  simp only [hds]
  omega

/-- The name of a day with its comma has no blank and no NUL in it. -/
theorem dayName_comma {w : Bytes} (h : w ∈ dayNames) :
    (∀ s : Bytes, ((w.take 3 ++ [44]) ++ s).dropWhile isspace = (w.take 3 ++ [44]) ++ s) ∧
    (0 : UInt8) ∉ w.take 3 ++ [44] ∧ (32 : UInt8) ∉ w.take 3 ++ [44] := by
  have hall : ∀ name ∈ dayNames, (∀ c ∈ (name.take 3 ++ [44]).head?, isspace c = false) ∧
      (0 : UInt8) ∉ name.take 3 ++ [44] ∧ (32 : UInt8) ∉ name.take 3 ++ [44] := by
    rw [dayNames_eq]
    simp [isspace]
  obtain ⟨hhead, h0, h32⟩ := hall w h
  refine ⟨fun s => ?_, h0, h32⟩
  obtain ⟨x, xs, hx⟩ := List.exists_cons_of_ne_nil (by simp : w.take 3 ++ [44] ≠ [])
  rw [hx] at hhead ⊢
  rw [List.cons_append, List.dropWhile_cons, hhead x rfl]
  rfl

/-- The string of a local time gives the instant back, in the range of an `int`. -/
theorem parseToTime_dateLine {machine : Machine} {u t : Int} (hoff : 60 ∣ machine.gmtoff)
    (ht : t = u - machine.gmtoff) (hy : 1901 ≤ yearOf u) (hy' : yearOf u ≤ 9999) (h0 : 0 ≤ t)
    (h1 : t < 2 ^ 31) : parseToTime machine (some (dateLine u)) = .ok t := by
  obtain ⟨hm0, hm1⟩ := month_bounds (dayOf u)
  obtain ⟨a, b, c, hname, ha, hb, hc, hindex⟩ := monthNames_spec hm0 hm1
  have hword := dayName_mem (weekday_bounds (dayOf u)).1 (weekday_bounds (dayOf u)).2
  set w := dayName (weekday (dayOf u)) with hw
  have hline : dateLine u = (w.take 3 ++ [44]) ++ 32 :: behindDay [a, b, c] u := by
    rw [dateLine_text ⟨by omega, hy'⟩, Format.text, hname]
    simp [Format.textWith, behindDay, bytes, yearOf, hw]
  have hcstr : cstr (dateLine u) = dateLine u :=
    cstr_of_not_mem (zero_not_mem_dateLine (by omega) (by omega))
  obtain ⟨hskip, hzero, hblank⟩ := dayName_comma hword
  have hfind : strstr ((w.take 3 ++ [44]) ++ 32 :: behindDay [a, b, c] u) [32] =
      some (w.take 3 ++ [44]).length := strstr_char hzero hblank (by decide) _
  have hdrop : ((w.take 3 ++ [44]) ++ 32 :: behindDay [a, b, c] u).drop
      ((w.take 3 ++ [44]).length + 1) = behindDay [a, b, c] u := by
    rw [List.drop_append, List.drop_of_length_le (by omega), Nat.add_sub_cancel_left]
    rfl
  have hds : (Time.get machine 0 .localTime).gmtoff = machine.gmtoff := by
    have hepoch : FourDigits 0 := by decide
    obtain ⟨hlo, hhi⟩ := yearOf_shown machine hepoch
    rw [get_localTime hlo hhi]
  have hyear : 1900 ≤ yearOf u := by omega
  have hne : (w.take 3 ++ [44]) ++ 32 :: behindDay [a, b, c] u ≠ [] := by simp
  rw [hline] at hcstr
  simp only [parseToTime, hline, hcstr, hskip, if_neg hne, hfind, hdrop,
    dateParts_text ha hb hc hyear hy']
  exact checkParts_text hds hoff ht rfl rfl rfl (hindex _) hy h0 h1

/-! ## The round trip -/

/-- The date string of an instant gives the instant back when it fits in an `int`. -/
theorem parseToTime_dateString_iff {machine : Machine} (hoff : 60 ∣ machine.gmtoff) {t : Int}
    (h0 : 1 ≤ t) (h1 : t ≤ 253402300799) :
    parseToTime machine (some (Time.getDateStringRfc822 machine t)) = .ok t ↔ t < 2 ^ 31 := by
  refine ⟨parseToTime_lt, fun hlt => ?_⟩
  have hzone := machine.zone
  have hshown : shown machine t = t + machine.gmtoff := by
    unfold shown Time.instant
    rw [if_neg (by omega)]
  have hyear : 1901 ≤ yearOf (shown machine t) ∧ yearOf (shown machine t) ≤ 9999 := by
    have hlo := le_yearOf_iff (shown machine t) 1901
    have hhi := le_yearOf_iff (shown machine t) 10000
    have hn0 : newYear 1901 = -25202 := by decide
    have hn1 : newYear 10000 = 2932897 := by decide
    omega
  rw [getDateString_eq (by omega) (by omega)]
  exact parseToTime_dateLine hoff (by omega) hyear.1 hyear.2 (by omega) hlt

theorem parseToTime_dateString_eastern :
    parseToTime eastern (some (Time.getDateStringRfc822 eastern 784111777)) = .ok 784111777 :=
  (parseToTime_dateString_iff (by decide) (by decide) (by decide)).mpr (by decide)

/-- The first second that an `int` does not hold is refused. -/
theorem not_parseToTime_dateString :
    parseToTime eastern (some (Time.getDateStringRfc822 eastern 2147483648)) ≠ .ok 2147483648 ∧
    Time.getDateStringRfc822 eastern 2147483648 = bytes "Tue, 19 Jan 2038 04:14:08 GMT" := by
  refine ⟨fun h => ?_, by decide⟩
  exact absurd (parseToTime_lt h) (by decide)

end Dframework
