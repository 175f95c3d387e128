import Mathlib
import Dframework.Library.Iso8601
import Dframework.Util.TimeParse

/-!
# Dates with an offset

`Time::iso8601` tries three formats of `sscanf`, which differ behind the seconds. The seconds are
read as a `double` with their fraction, and the part in front of the point is taken of that. A
fraction that is nearer to the next second than any `double` is rounded up to it.

Results:
1. `scan_isoHead`: what the three formats have in common.
2. `iso8601_text`: the number that a text is read as.
3. `iso8601_text_iff`: the texts that are read as their instant.
-/

namespace Dframework

open CLib Calendar HttpDate Scanf Binary64 Iso8601

namespace Time

def ISO8601_FORMAT_Z : List Directive :=
  parseFormat none (bytes "%04d-%02d-%02dT%02d:%02d:%lfZ")

def ISO8601_FORMAT_M : List Directive :=
  parseFormat none (bytes "%04d-%02d-%02dT%02d:%02d:%lf-%02d:%02d")

def ISO8601_FORMAT_P : List Directive :=
  parseFormat none (bytes "%04d-%02d-%02dT%02d:%02d:%lf+%02d:%02d")

/-- The end of `Time::iso8601`, with `(int)sec`. `GMTOFF` is 0. -/
def iso8601Out (year mon mday hour min : Int) (sec : ℚ) (fix : Int) : Int :=
  mktime { sec := truncate sec, min, hour, mday, mon := mon - 1, year := year - 1900 } + fix

/-- `Time::iso8601`. `errno` is what it makes of the error number when no format fits. -/
def iso8601 (errno : Retno) (date : Bytes) : Except Ret Int :=
  match scan ISO8601_FORMAT_P (cstr date) with
  | [.dec year, .dec mon, .dec mday, .dec hour, .dec min, .double sec, .dec off_hour,
      .dec off_min] =>
    .ok (iso8601Out year mon mday hour min sec (-off_hour * 3600 - off_min * 60))
  | _ =>
    match scan ISO8601_FORMAT_M (cstr date) with
    | [.dec year, .dec mon, .dec mday, .dec hour, .dec min, .double sec, .dec off_hour,
        .dec off_min] =>
      .ok (iso8601Out year mon mday hour min sec (off_hour * 3600 + off_min * 60))
    | _ =>
      match scan ISO8601_FORMAT_Z (cstr date) with
      | [.dec year, .dec mon, .dec mday, .dec hour, .dec min, .double sec] =>
        .ok (iso8601Out year mon mday hour min sec 0)
      | _ => .error { value := errno }

end Time

/-! ## The formats on a text -/

/-- What the formats have in front of the offset. -/
def isoHead (format : List Directive) : List Directive :=
  .dec 4 :: .lit 45 :: .dec 2 :: .lit 45 :: .dec 2 :: .lit 84 :: .dec 2 :: .lit 58 :: .dec 2 ::
    .lit 58 :: .double :: format

theorem ISO8601_FORMAT_Z_eq : Time.ISO8601_FORMAT_Z = isoHead [.lit 90] := by
  decide

theorem ISO8601_FORMAT_M_eq :
    Time.ISO8601_FORMAT_M = isoHead [.lit 45, .dec 2, .lit 58, .dec 2] := by
  decide

theorem ISO8601_FORMAT_P_eq :
    Time.ISO8601_FORMAT_P = isoHead [.lit 43, .dec 2, .lit 58, .dec 2] := by
  decide

/-- A text up to its offset. -/
def isoFront (u : Int) (frac : List (Fin 10)) (s : Bytes) : Bytes :=
  yearText (yearOf u) ++ (45 :: (two ((dateOf (dayOf u)).month + 1) ++ (45 ::
    (two (dateOf (dayOf u)).day ++ (84 :: (two (hourOf u) ++ (58 :: (two (minuteOf u) ++ (58 ::
      (two (secondOf u) ++ (fractionText frac ++ s)))))))))))

theorem text_eq (t : Int) (frac : List (Fin 10)) (zone : Zone) :
    Iso8601.text t frac zone = isoFront (localTime t zone) frac zone.text := by
  simp [Iso8601.text, isoFront, clock]

section

variable {u : Int} {frac : List (Fin 10)} {s : Bytes} {format : List Directive}

def seconds (u : Int) (frac : List (Fin 10)) : ℚ :=
  secondOf u + fraction frac

theorem scan_isoHead (hy0 : 0 ≤ yearOf u) (hy1 : yearOf u ≤ 9999)
    (hs : ∀ c ∈ s.head?, isDigit 10 c = false ∧ c ≠ 46 ∧ c ≠ 69 ∧ c ≠ 101) :
    scan (isoHead format) (isoFront u frac s) =
      .dec (yearOf u) :: .dec ((dateOf (dayOf u)).month + 1) :: .dec (dateOf (dayOf u)).day ::
        .dec (hourOf u) :: .dec (minuteOf u) :: .double (nearest (seconds u frac)) ::
          scan format s := by
  obtain ⟨hh0, hh1, hm0, hm1, hs0, hs1⟩ := clock_bounds u
  obtain ⟨hmon0, hmon1⟩ := month_bounds (dayOf u)
  obtain ⟨hday0, hday1⟩ := day_bounds (dayOf u)
  have hdigits : ∀ c ∈ two (secondOf u), isDigit 10 c := by
    intro c hc
    simp only [two, List.mem_cons, List.not_mem_nil, or_false] at hc
    rcases hc with rfl | rfl <;> exact isDigit_digit (by omega) (by omega)
  have hdouble := @scan_double format _ (two (secondOf u)) _ _ (List.cons_ne_nil _ _)
    hdigits (isDigit_fractionDigits frac) rfl hs
  rw [digitsVal_seconds frac hs0 (by omega)] at hdouble
  rw [isoHead, isoFront, yearText, if_pos hy1, scan_four hy0 hy1, scan_lit,
    scan_two (by omega) (by omega), scan_lit, scan_two (by omega) (by omega), scan_lit,
    scan_two hh0 (by omega), scan_lit, scan_two hm0 (by omega), scan_lit]
  exact congrArg _ (congrArg _ (congrArg _ (congrArg _ (congrArg _ hdouble))))

/-- A year of five digits has one too many in front of the dash. -/
theorem scan_isoHead_long (hy : yearOf u = 10000) :
    scan (isoHead format) (isoFront u frac s) = [.dec 1000] := by
  have hsplit : ∀ rest : Bytes,
      yearText (yearOf u) ++ rest = four 1000 ++ (digit 0 :: rest) := by
    intro rest
    rw [hy]
    rfl
  rw [isoHead, isoFront, hsplit, scan_four (by decide) (by decide), scan_lit_none (by decide)]

theorem scan_offset (sign : UInt8) {m : Int} (h0 : 0 ≤ m) (h1 : m < 1440) :
    scan [.lit sign, .dec 2, .lit 58, .dec 2] (sign :: offsetText m) =
      [.dec (m / 60), .dec (m % 60)] := by
  have hend : offsetText m = two (m / 60) ++ (58 :: (two (m % 60) ++ [])) := by simp [offsetText]
  rw [scan_lit, hend, scan_two (by omega) (by omega), scan_lit, scan_two (by omega) (by omega), scan]

theorem zone_head (zone : Zone) :
    ∀ c ∈ zone.text.head?, isDigit 10 c = false ∧ c ≠ 46 ∧ c ≠ 69 ∧ c ≠ 101 := by
  cases zone <;> simp [Zone.text, isDigit, digitVal]

theorem zero_not_mem_zone (zone : Zone) : (0 : UInt8) ∉ zone.text := by
  have hoffset : ∀ m : Fin 1440, (0 : UInt8) ∉ offsetText m.val := by
    intro m
    have h0 := zero_not_mem_two (n := (m.val : Int) / 60) (by omega) (by omega)
    have h1 := zero_not_mem_two (n := (m.val : Int) % 60) (by omega) (by omega)
    simp [offsetText, h0, h1]
  cases zone with
  | utc => simp [Zone.text]
  | ahead m => simp [Zone.text, hoffset m]
  | behind m => simp [Zone.text, hoffset m]

theorem zero_not_mem_fraction : (0 : UInt8) ∉ fractionText frac := by
  have hdigits : (0 : UInt8) ∉ fractionDigits frac := fun h =>
    absurd (isDigit_fractionDigits frac 0 h) (by decide)
  unfold fractionText
  split_ifs
  · exact List.not_mem_nil
  · simp [hdigits]

theorem zero_not_mem_year (h0 : 0 ≤ yearOf u) (h1 : yearOf u ≤ 10000) :
    (0 : UInt8) ∉ yearText (yearOf u) := by
  have hfour : ∀ n : Int, 0 ≤ n → n ≤ 9999 → (0 : UInt8) ∉ four n := by
    intro n hn0 hn1
    have ha := digit_ne_zero (n := n / 1000) (by omega) (by omega)
    have hb := digit_ne_zero (n := n % 1000 / 100) (by omega) (by omega)
    have hc := digit_ne_zero (n := n % 100 / 10) (by omega) (by omega)
    have hd := digit_ne_zero (n := n % 10) (by omega) (by omega)
    simp [four, ha.symm, hb.symm, hc.symm, hd.symm]
  unfold yearText
  split_ifs with hle
  · exact hfour _ h0 hle
  · have hten := digit_ne_zero (n := yearOf u / 10000) (by omega) (by omega)
    simp [hten.symm, hfour (yearOf u % 10000) (by omega) (by omega)]

/-- A text has no NUL in it. -/
theorem cstr_isoFront (zone : Zone) (h0 : 0 ≤ yearOf u) (h1 : yearOf u ≤ 10000) :
    cstr (isoFront u frac zone.text) = isoFront u frac zone.text := by
  obtain ⟨hh0, hh1, hm0, hm1, hs0, hs1⟩ := clock_bounds u
  obtain ⟨hmon0, hmon1⟩ := month_bounds (dayOf u)
  obtain ⟨hday0, hday1⟩ := day_bounds (dayOf u)
  refine cstr_of_not_mem ?_
  simp [isoFront, zero_not_mem_year h0 h1, zero_not_mem_fraction, zero_not_mem_zone,
    zero_not_mem_two hh0 (by omega), zero_not_mem_two hm0 (by omega),
    zero_not_mem_two hs0 (by omega), zero_not_mem_two (n := (dateOf (dayOf u)).month + 1)
      (by omega) (by omega), zero_not_mem_two (n := (dateOf (dayOf u)).day) (by omega) (by omega)]

end

/-! ## What a text is read as -/

section

variable {t : Int} (frac : List (Fin 10)) (zone : Zone)

/-- The clock of a text is less than a day away. -/
theorem localYear_bounds (h0 : 1970 ≤ yearOf t) (h1 : yearOf t ≤ 9999) :
    1969 ≤ yearOf (localTime t zone) ∧ yearOf (localTime t zone) ≤ 10000 := by
  have hminutes : -1440 < zone.minutes ∧ zone.minutes < 1440 := by
    cases zone <;> simp only [Zone.minutes] <;> omega
  have hfirst : newYear 1969 = -365 ∧ newYear 1970 = 0 := by decide
  have hlast : newYear 10001 = newYear 10000 + 366 := by decide
  have hlow := (le_yearOf_iff t 1970).mp h0
  have hhigh := (le_yearOf_iff t 10000).not.mp (by omega)
  constructor
  · rw [le_yearOf_iff, localTime]
    omega
  · have := (le_yearOf_iff (localTime t zone) 10001).not.mpr (by rw [localTime]; omega)
    omega

/-- The parts of an instant make it up again, with other seconds. -/
theorem mktime_seconds (u sec : Int) :
    mktime { dateTm u (dateOf (dayOf u)).month (yearOf u - 1900) with sec } =
      u - secondOf u + sec := by
  have h := mktime_date u
  simp only [mktime, dateTm] at h ⊢
  omega

theorem iso8601Out_eq (u : Int) (sec : ℚ) (fix : Int) :
    Time.iso8601Out (yearOf u) ((dateOf (dayOf u)).month + 1) (dateOf (dayOf u)).day (hourOf u)
      (minuteOf u) sec fix = u - secondOf u + truncate sec + fix := by
  have h := mktime_seconds u (truncate sec)
  simp only [dateTm] at h
  rw [Time.iso8601Out, add_sub_cancel_right, h]

theorem seconds_local (t : Int) : seconds (localTime t zone) frac = seconds t frac := by
  have hsec : secondOf (localTime t zone) = secondOf t := by
    unfold secondOf localTime
    omega
  rw [seconds, seconds, hsec]

/-- A text with a year of four digits is read with the whole part of its seconds. -/
theorem iso8601_text (errno : Retno) (h0 : 1970 ≤ yearOf t) (h1 : yearOf t ≤ 9999)
    (hy : yearOf (localTime t zone) ≤ 9999) :
    Time.iso8601 errno (Iso8601.text t frac zone) =
      .ok (t - secondOf t + truncate (nearest (seconds t frac))) := by
  have hy0 : 0 ≤ yearOf (localTime t zone) := by
    have := (localYear_bounds zone h0 h1).1
    omega
  have hsec : secondOf (localTime t zone) = secondOf t := by
    unfold secondOf localTime
    omega
  have hstop := zone_head zone
  rw [Time.iso8601, text_eq, cstr_isoFront zone hy0 (by omega), ISO8601_FORMAT_P_eq,
    ISO8601_FORMAT_M_eq, ISO8601_FORMAT_Z_eq, scan_isoHead hy0 hy hstop, scan_isoHead hy0 hy hstop,
    scan_isoHead hy0 hy hstop, seconds_local]
  cases zone with
  | utc =>
    have hp : scan [.lit 43, .dec 2, .lit 58, .dec 2] Zone.utc.text = [] := rfl
    have hm : scan [.lit 45, .dec 2, .lit 58, .dec 2] Zone.utc.text = [] := rfl
    have hz : scan [.lit 90] Zone.utc.text = [] := rfl
    simp only [hp, hm, hz, iso8601Out_eq, hsec]
    simp [localTime, Zone.minutes]
  | ahead m =>
    have hp := scan_offset 43 (m := m.val) (by omega) (by omega)
    rw [Zone.text]
    simp only [hp, iso8601Out_eq, hsec]
    simp only [localTime, Zone.minutes, Except.ok.injEq]
    omega
  | behind m =>
    have hp : scan [.lit 43, .dec 2, .lit 58, .dec 2] (45 :: offsetText m.val) = [] :=
      scan_lit_none (by decide)
    have hm := scan_offset 45 (m := m.val) (by omega) (by omega)
    rw [Zone.text]
    simp only [hp, hm, iso8601Out_eq, hsec]
    simp only [localTime, Zone.minutes, Except.ok.injEq]
    omega

/-- No format fits a text with a year of five digits. -/
theorem iso8601_text_long (errno : Retno) (hy : yearOf (localTime t zone) = 10000) :
    Time.iso8601 errno (Iso8601.text t frac zone) = .error { value := errno } := by
  rw [Time.iso8601, text_eq, cstr_isoFront zone (by omega) (by omega), ISO8601_FORMAT_P_eq,
    ISO8601_FORMAT_M_eq, ISO8601_FORMAT_Z_eq, scan_isoHead_long hy, scan_isoHead_long hy,
    scan_isoHead_long hy]

/-- The seconds of a clock keep their whole part, or they are rounded up to the next one. -/
theorem truncate_seconds_iff :
    truncate (nearest (seconds t frac)) = secondOf t ↔
      fraction frac + halfStep ((secondOf t).toNat + 1) < 1 := by
  obtain ⟨-, -, -, -, hs0, hs1⟩ := clock_bounds t
  obtain ⟨hf0, hf1⟩ := fraction_bounds frac
  obtain ⟨n, hn⟩ : ∃ n : ℕ, secondOf t = n := ⟨_, (Int.toNat_of_nonneg hs0).symm⟩
  have hsum : seconds t frac = n + fraction frac := by
    rw [seconds, hn]
    rfl
  rw [truncate_nonneg (nearest_nonneg (by rw [hsum]; positivity)), hsum, hn, Int.toNat_natCast,
    floor_nearest_iff (by omega) (by linarith) (by linarith)]
  constructor <;> intro h <;> linarith

/-- The text of an instant is read as that instant in whole seconds just when its year has four
digits and its fraction is not within half a step of the next second. -/
theorem iso8601_text_iff (errno : Retno) (h0 : 1970 ≤ yearOf t) (h1 : yearOf t ≤ 9999) :
    Time.iso8601 errno (Iso8601.text t frac zone) = .ok t ↔
      yearOf (localTime t zone) ≤ 9999 ∧
        fraction frac + halfStep ((secondOf t).toNat + 1) < 1 := by
  rcases Int.lt_or_le 9999 (yearOf (localTime t zone)) with hlong | hy
  · have hlast := (localYear_bounds zone h0 h1).2
    rw [iso8601_text_long frac zone errno (by omega)]
    exact iff_of_false (by simp) (by omega)
  · rw [iso8601_text frac zone errno h0 h1 hy, ← truncate_seconds_iff, Except.ok.injEq]
    constructor
    · exact fun h => ⟨hy, by omega⟩
    · exact fun h => by omega

/-- Fractions of at most fourteen digits do no harm. -/
theorem iso8601_text_short (errno : Retno) (h0 : 1970 ≤ yearOf t) (h1 : yearOf t ≤ 9999)
    (hy : yearOf (localTime t zone) ≤ 9999) (hlen : frac.length ≤ 14) :
    Time.iso8601 errno (Iso8601.text t frac zone) = .ok t := by
  refine (iso8601_text_iff frac zone errno h0 h1).mpr ⟨hy, ?_⟩
  obtain ⟨-, -, -, -, hs0, hs1⟩ := clock_bounds t
  have hfrac : fraction frac ≤ 1 - 1 / 10 ^ 14 := by
    refine (fraction_le frac).trans (sub_le_sub_left ?_ 1)
    exact one_div_le_one_div_of_le (by positivity) (pow_le_pow_right₀ (by norm_num) hlen)
  have hstep : halfStep ((secondOf t).toNat + 1) ≤ 2 ^ (-48 : ℤ) := by
    have hclog : Nat.clog 2 ((secondOf t).toNat + 1) ≤ 6 :=
      (Nat.clog_le_iff_le_pow one_lt_two).mpr (by omega)
    exact zpow_le_zpow_right₀ one_le_two (by omega)
  calc fraction frac + halfStep ((secondOf t).toNat + 1) ≤ 1 - 1 / 10 ^ 14 + 2 ^ (-48 : ℤ) :=
        add_le_add hfrac hstep
    _ < 1 := by norm_num

end

/-- The half steps in the later half of a minute. -/
theorem halfStep_late {n : ℕ} (h0 : 33 ≤ n) (h1 : n ≤ 64) : halfStep n = 2 ^ (-48 : ℤ) := by
  have hle : Nat.clog 2 n ≤ 6 := (Nat.clog_le_iff_le_pow one_lt_two).mpr h1
  have hlt : 5 < Nat.clog 2 n := (Nat.lt_clog_iff_pow_lt one_lt_two).mpr (by omega)
  rw [halfStep, le_antisymm hle hlt]
  norm_num

theorem iso8601_text_iff_tokyo :
    Time.iso8601 .eInval (bytes "1994-11-06T17:49:37.25+09:00") = .ok 784111777 := by
  have htext : Iso8601.text 784111777 [2, 5] (.ahead 540) =
      bytes "1994-11-06T17:49:37.25+09:00" := by
    decide
  have hfrac : fraction [2, 5] = 1 / 4 := by
    have hdigits : digitsVal 10 (fractionDigits [2, 5]) = 25 := by decide
    rw [fraction, hdigits]
    norm_num
  rw [← htext]
  refine (iso8601_text_iff [2, 5] (.ahead 540) .eInval (by decide) (by decide)).mpr
    ⟨by decide, ?_⟩
  show fraction [2, 5] + halfStep 38 < 1
  rw [hfrac, halfStep_late (by decide) (by decide)]
  norm_num

/-- Twenty nines are rounded up to the next second, and the last hour of the year 9999 has a year of
five digits further in the east. -/
theorem not_iso8601_text :
    (Iso8601.text 59 (List.replicate 20 9) .utc =
        bytes "1970-01-01T00:00:59.99999999999999999999Z" ∧
      Time.iso8601 .eInval (bytes "1970-01-01T00:00:59.99999999999999999999Z") ≠ .ok 59) ∧
    Iso8601.text 253402300799 [] (.ahead 60) = bytes "10000-01-01T00:59:59+01:00" ∧
      Time.iso8601 .eInval (bytes "10000-01-01T00:59:59+01:00") ≠ .ok 253402300799 := by
  have hnines : Iso8601.text 59 (List.replicate 20 9) .utc =
      bytes "1970-01-01T00:00:59.99999999999999999999Z" := by
    decide
  have hlong : Iso8601.text 253402300799 [] (.ahead 60) = bytes "10000-01-01T00:59:59+01:00" := by
    decide
  have hfrac : fraction (List.replicate 20 9) = 1 - 1 / 10 ^ 20 := by
    have hdigits : digitsVal 10 (fractionDigits (List.replicate 20 9)) = 99999999999999999999 := by
      decide
    rw [fraction, hdigits]
    norm_num
  refine ⟨⟨hnines, ?_⟩, hlong, ?_⟩
  · have hup : ¬ truncate (nearest (seconds 59 (List.replicate 20 9))) = secondOf 59 := by
      rw [truncate_seconds_iff]
      show ¬ fraction (List.replicate 20 9) + halfStep 60 < 1
      rw [hfrac, halfStep_late (by decide) (by decide)]
      norm_num
    rw [← hnines, iso8601_text _ _ .eInval (by decide) (by decide) (by decide)]
    intro h
    have h59 : secondOf 59 = 59 := by decide
    rw [h59] at h hup
    exact hup (by simpa using h)
  · rw [← hlong, iso8601_text_long [] (.ahead 60) .eInval (by decide)]
    simp

end Dframework
