import Mathlib
import Dframework.Library.HttpDate

/-!
# The dates of ISO 8601

An instant is a number of seconds since the start of 1970 and a fraction of a second. Its text gives
the date and the time at an offset from Greenwich, and then the offset:
`1994-11-06T08:49:37.25Z`, `1994-11-06T17:49:37.25+09:00`, `1994-11-05T22:49:37.25-10:00`.

Results:
1. `fraction_bounds`: a fraction is less than a second.
2. `fraction_le`: a fraction of few digits keeps its distance from the next second.
-/

namespace Iso8601

open CLib HttpDate

/-- The end of a text, with an offset in minutes. -/
inductive Zone where
  | utc
  | ahead (minutes : Fin 1440)
  | behind (minutes : Fin 1440)
  deriving Repr

/-- The minutes that the clock of a text is ahead of Greenwich. -/
def Zone.minutes : Zone → Int
  | utc => 0
  | ahead m => m.val
  | behind m => -m.val

def offsetText (m : Int) : Bytes :=
  two (m / 60) ++ 58 :: two (m % 60)

def Zone.text : Zone → Bytes
  | utc => [90]
  | ahead m => 43 :: offsetText m.val
  | behind m => 45 :: offsetText m.val

/-- The clock of a text. -/
def localTime (t : Int) (zone : Zone) : Int :=
  t + 60 * zone.minutes

/-- A year has four digits, and the year 10000 five. -/
def yearText (year : Int) : Bytes :=
  if year ≤ 9999 then four year else digit (year / 10000) :: four (year % 10000)

def fractionDigits (frac : List (Fin 10)) : Bytes :=
  frac.map fun d => digit d.val

def fractionText (frac : List (Fin 10)) : Bytes :=
  if fractionDigits frac = [] then [] else 46 :: fractionDigits frac

/-- The fraction of a second that some digits stand for. -/
def fraction (frac : List (Fin 10)) : ℚ :=
  digitsVal 10 (fractionDigits frac) / 10 ^ frac.length

def text (t : Int) (frac : List (Fin 10)) (zone : Zone) : Bytes :=
  let u := localTime t zone
  yearText (yearOf u) ++ 45 :: two ((Calendar.dateOf (dayOf u)).month + 1) ++
    45 :: two (Calendar.dateOf (dayOf u)).day ++ 84 :: clock u ++ fractionText frac ++ zone.text

/-! ## Fractions -/

theorem digitsVal_append (base : Nat) (a b : Bytes) :
    digitsVal base (a ++ b) = digitsVal base a * base ^ b.length + digitsVal base b := by
  induction b using List.reverseRecOn with
  | nil => simp [digitsVal]
  | append_singleton b c ih =>
    have hstep : ∀ ds : Bytes,
        digitsVal base (ds ++ [c]) = digitsVal base ds * base + (digitVal c).getD 0 := by
      intro ds
      simp [digitsVal]
    rw [← List.append_assoc, hstep, hstep, ih, List.length_append, List.length_singleton, pow_succ]
    ring

theorem digitsVal_lt {digits : Bytes} (h : ∀ c ∈ digits, isDigit 10 c) :
    digitsVal 10 digits < 10 ^ digits.length := by
  induction digits using List.reverseRecOn with
  | nil => decide
  | append_singleton digits c ih =>
    have hlt := ih fun x hx => h x (List.mem_append_left _ hx)
    obtain ⟨v, hv, hv10⟩ := isDigit_iff.mp (h c (List.mem_append_right _ (List.mem_singleton_self c)))
    have hone : digitsVal 10 [c] = v := by simp [digitsVal, hv]
    rw [digitsVal_append, hone, List.length_append, List.length_singleton, pow_succ]
    omega

section

variable (frac : List (Fin 10))

theorem fractionDigits_length : (fractionDigits frac).length = frac.length :=
  List.length_map _

theorem isDigit_fractionDigits : ∀ c ∈ fractionDigits frac, isDigit 10 c := by
  intro c hc
  obtain ⟨d, -, rfl⟩ := List.mem_map.mp hc
  exact isDigit_digit (by omega) (by omega)

/-- A fraction of few digits keeps its distance from the next second. -/
theorem fraction_le : fraction frac ≤ 1 - 1 / 10 ^ frac.length := by
  have hval := digitsVal_lt (isDigit_fractionDigits frac)
  rw [fractionDigits_length] at hval
  have hpow : (0 : ℚ) < 10 ^ frac.length := by positivity
  have hcast : (digitsVal 10 (fractionDigits frac) : ℚ) + 1 ≤ 10 ^ frac.length := by
    exact_mod_cast hval
  rw [fraction, div_le_iff₀ hpow, sub_mul, div_mul_cancel₀ _ hpow.ne']
  linarith

theorem fraction_bounds : 0 ≤ fraction frac ∧ fraction frac < 1 := by
  have hpow : (0 : ℚ) < 1 / 10 ^ frac.length := by positivity
  have hle := fraction_le frac
  exact ⟨div_nonneg (Nat.cast_nonneg _) (by positivity), by linarith⟩

/-- The seconds of a clock and a fraction behind them. -/
theorem digitsVal_seconds {n : Int} (h0 : 0 ≤ n) (h1 : n ≤ 99) :
    (digitsVal 10 (two n ++ fractionDigits frac) : ℚ) / 10 ^ (fractionDigits frac).length =
      n + fraction frac := by
  have htwo : ((digitsVal 10 (two n) : ℤ) : ℚ) = n := congrArg _ (digitsVal_digit_two h0 h1)
  have hpow : (10 : ℚ) ^ frac.length ≠ 0 := by positivity
  rw [digitsVal_append, fractionDigits_length, fraction]
  push_cast at htwo ⊢
  rw [htwo, add_div, mul_div_cancel_right₀ _ hpow]

end

end Iso8601
