import Mathlib

/-!
# Rounding to binary64

A number of the format has 53 bits behind its first one. The nearest one to a rational is taken, and
of two that are as near the one whose last bit is zero. Numbers of 2^1024 and more are not in the
format, and nothing is said about them.

Results:
1. `le_roundEven_iff`: what is rounded up to an even number.
2. `floor_nearest_iff`: the numbers that keep their whole part.
-/

namespace Binary64

/-- The integer nearest to `x`, and the even one of two. -/
def roundEven (x : ℚ) : ℤ :=
  if Int.fract x < 1 / 2 then ⌊x⌋
  else if 1 / 2 < Int.fract x then ⌊x⌋ + 1
  else if Even ⌊x⌋ then ⌊x⌋
  else ⌊x⌋ + 1

/-- The exponent of the last bit. -/
def lastBit (x : ℚ) : ℤ :=
  max (Int.log 2 |x| - 52) (-1074)

/-- The number of the format that is nearest to `x`. -/
def nearest (x : ℚ) : ℚ :=
  roundEven (x / 2 ^ lastBit x) * 2 ^ lastBit x

/-- The part in front of the point. -/
def truncate (x : ℚ) : ℤ :=
  if 0 ≤ x then ⌊x⌋ else ⌈x⌉

/-- Half of the step between a whole number and the number of the format below it. -/
def halfStep (n : ℕ) : ℚ :=
  2 ^ ((Nat.clog 2 n : ℤ) - 54)

section

variable {x : ℚ}

theorem floor_le_roundEven (x : ℚ) : ⌊x⌋ ≤ roundEven x := by
  unfold roundEven
  split_ifs <;> omega

theorem roundEven_le_floor_succ (x : ℚ) : roundEven x ≤ ⌊x⌋ + 1 := by
  unfold roundEven
  split_ifs <;> omega

/-- Of two numbers the even one is taken, so the middle in front of an even number goes up. -/
theorem le_roundEven_iff {m : ℤ} (hm : Even m) : m ≤ roundEven x ↔ (m : ℚ) - 1 / 2 ≤ x := by
  have hfract := Int.self_sub_floor x
  have hlow : (⌊x⌋ : ℚ) ≤ x := Int.floor_le x
  have hhigh : x < ⌊x⌋ + 1 := Int.lt_floor_add_one x
  rcases lt_trichotomy m (⌊x⌋ + 1) with hlt | heq | hgt
  · have hcast : (m : ℚ) ≤ ⌊x⌋ := by exact_mod_cast Int.lt_add_one_iff.mp hlt
    refine iff_of_true ?_ (by linarith)
    have := floor_le_roundEven x
    omega
  · have hcast : (m : ℚ) = ⌊x⌋ + 1 := by rw [heq]; push_cast; rfl
    have hodd : ¬ Even ⌊x⌋ := by
      rw [heq] at hm
      exact Int.not_even_iff_odd.mpr (by simpa using hm.sub_odd odd_one)
    rw [hcast, heq, roundEven, if_neg hodd, ite_self]
    split_ifs with hhalf
    · exact iff_of_false (by omega) (by linarith)
    · exact iff_of_true le_rfl (by linarith)
  · have hcast : (⌊x⌋ : ℚ) + 2 ≤ m := by exact_mod_cast (by omega : ⌊x⌋ + 2 ≤ m)
    refine iff_of_false ?_ (by linarith)
    have := roundEven_le_floor_succ x
    omega

theorem truncate_nonneg (h : 0 ≤ x) : truncate x = ⌊x⌋ :=
  if_pos h

end

section

variable {x : ℚ} {n : ℕ}

theorem lastBit_eq {k : ℤ} (hk : -1021 ≤ k) (hlow : (2 : ℚ) ^ (k - 1) ≤ x) (hhigh : x < 2 ^ k) :
    lastBit x = k - 53 := by
  have hpos : 0 < x := lt_of_lt_of_le (by positivity) hlow
  have hle : k - 1 ≤ Int.log 2 x :=
    (Int.zpow_le_iff_le_log one_lt_two hpos).mp (by exact_mod_cast hlow)
  have hlt : Int.log 2 x < k :=
    (Int.lt_zpow_iff_log_lt one_lt_two hpos).mp (by exact_mod_cast hhigh)
  rw [lastBit, abs_of_pos hpos]
  omega

/-- What is rounded up to a number whose last bit is zero. -/
theorem le_nearest_iff {m j : ℤ} (hm : Even m) (hj : lastBit x = j) :
    (m : ℚ) * 2 ^ j ≤ nearest x ↔ (m : ℚ) * 2 ^ j - 2 ^ (j - 1) ≤ x := by
  have hstep : (0 : ℚ) < 2 ^ j := by positivity
  have hhalf : (2 : ℚ) ^ (j - 1) = 1 / 2 * 2 ^ j := by
    rw [zpow_sub_one₀ two_ne_zero]
    ring
  rw [nearest, hj, mul_le_mul_iff_left₀ hstep, Int.cast_le, le_roundEven_iff hm, le_div_iff₀ hstep,
    hhalf, sub_mul]

/-- A number of the format is not passed. -/
theorem nearest_bounds {a b j : ℤ} (hj : lastBit x = j) (ha : (a : ℚ) * 2 ^ j ≤ x)
    (hb : x < (b : ℚ) * 2 ^ j) : (a : ℚ) * 2 ^ j ≤ nearest x ∧ nearest x ≤ (b : ℚ) * 2 ^ j := by
  have hstep : (0 : ℚ) < 2 ^ j := by positivity
  have hfloor : a ≤ ⌊x / 2 ^ j⌋ := Int.le_floor.mpr ((le_div_iff₀ hstep).mpr ha)
  have hceil : ⌊x / 2 ^ j⌋ < b := Int.floor_lt.mpr ((div_lt_iff₀ hstep).mpr hb)
  have hup := roundEven_le_floor_succ (x / 2 ^ j)
  have hdown := floor_le_roundEven (x / 2 ^ j)
  rw [nearest, hj, mul_le_mul_iff_left₀ hstep, mul_le_mul_iff_left₀ hstep, Int.cast_le, Int.cast_le]
  omega

theorem nearest_nonneg (h : 0 ≤ x) : 0 ≤ nearest x := by
  have hstep : (0 : ℚ) < 2 ^ lastBit x := by positivity
  have hfloor : 0 ≤ ⌊x / 2 ^ lastBit x⌋ := Int.floor_nonneg.mpr (by positivity)
  have hround : 0 ≤ roundEven (x / 2 ^ lastBit x) := hfloor.trans (floor_le_roundEven _)
  rw [nearest]
  exact mul_nonneg (by exact_mod_cast hround) hstep.le

/-- A number below a half is not rounded up to one. -/
theorem nearest_lt_one (h0 : 0 ≤ x) (h1 : x < 1 / 2) : nearest x < 1 := by
  have hlast : lastBit x ≤ -1 := by
    have hlog : Int.log 2 x ≤ 0 := by
      rw [← Int.lt_add_one_iff]
      rcases h0.eq_or_lt with rfl | hpos
      · simp
      · exact (Int.lt_zpow_iff_log_lt one_lt_two hpos).mp (by norm_num; linarith)
    rw [lastBit, abs_of_nonneg h0]
    omega
  have hstep : (0 : ℚ) < 2 ^ lastBit x := by positivity
  have hsmall : (2 : ℚ) ^ lastBit x ≤ 1 / 2 := by
    calc (2 : ℚ) ^ lastBit x ≤ 2 ^ (-1 : ℤ) := zpow_le_zpow_right₀ one_le_two hlast
      _ = 1 / 2 := by norm_num
  have hround : (roundEven (x / 2 ^ lastBit x) : ℚ) ≤ x / 2 ^ lastBit x + 1 := by
    have hup : (roundEven (x / 2 ^ lastBit x) : ℚ) ≤ ⌊x / 2 ^ lastBit x⌋ + 1 := by
      exact_mod_cast roundEven_le_floor_succ _
    linarith [Int.floor_le (x / 2 ^ lastBit x)]
  calc nearest x ≤ (x / 2 ^ lastBit x + 1) * 2 ^ lastBit x :=
        mul_le_mul_of_nonneg_right hround hstep.le
    _ = x + 2 ^ lastBit x := by rw [add_mul, div_mul_cancel₀ _ hstep.ne', one_mul]
    _ < 1 := by linarith

end

/-! ## Whole parts -/

section

variable {x : ℚ} {n : ℕ}

/-- Where the numbers of the format are halves of a step apart, from the last power of two on. -/
theorem floor_nearest_iff_of_le (hn : n < 2 ^ 52) (hbit : (2 : ℚ) ^ ((Nat.clog 2 (n + 1) : ℤ) - 1) ≤ x)
    (hlow : (n : ℚ) ≤ x) (hhigh : x < n + 1) : ⌊nearest x⌋ = n ↔ x < n + 1 - halfStep (n + 1) := by
  obtain ⟨k, hk⟩ : ∃ k, Nat.clog 2 (n + 1) = k := ⟨_, rfl⟩
  have hk52 : k ≤ 52 := hk ▸ (Nat.clog_le_iff_le_pow one_lt_two).mpr hn
  have hpow : n + 1 ≤ 2 ^ k := hk ▸ Nat.le_pow_clog one_lt_two _
  have hlast : lastBit x = (k : ℤ) - 53 := by
    rw [hk] at hbit
    refine lastBit_eq (by omega) hbit (hhigh.trans_le ?_)
    exact_mod_cast hpow
  have hwhole : ∀ a : ℕ, (a : ℚ) = ((a * 2 ^ (53 - k) : ℕ) : ℤ) * 2 ^ ((k : ℤ) - 53) := by
    intro a
    have hone : (2 : ℚ) ^ (53 - k) * 2 ^ ((k : ℤ) - 53) = 1 := by
      rw [← zpow_natCast, ← zpow_add₀ two_ne_zero, Nat.cast_sub (by omega)]
      simp
    push_cast
    rw [mul_assoc, hone, mul_one]
  have heven : Even (((n + 1) * 2 ^ (53 - k) : ℕ) : ℤ) := by
    have : Even ((n + 1) * 2 ^ (53 - k)) := (Nat.even_pow.mpr ⟨even_two, by omega⟩).mul_left _
    exact_mod_cast this
  have hup := le_nearest_iff heven hlast
  have hbetween := nearest_bounds hlast ((hwhole n) ▸ hlow) (by rw [← hwhole]; exact_mod_cast hhigh)
  rw [← hwhole] at hup
  rw [← hwhole, ← hwhole] at hbetween
  have hhalf : (2 : ℚ) ^ ((k : ℤ) - 53 - 1) = halfStep (n + 1) := by
    rw [halfStep, hk]
    congr 1
    omega
  rw [hhalf, Nat.cast_add, Nat.cast_one] at hup
  rw [← not_le, ← hup, not_le]
  constructor
  · intro h
    have hfloor := Int.lt_floor_add_one (nearest x)
    rw [h] at hfloor
    exact_mod_cast hfloor
  · intro h
    rw [Int.floor_eq_iff]
    exact ⟨by exact_mod_cast hbetween.1, by exact_mod_cast h⟩

/-- A number between two whole ones keeps the lower one as its whole part, unless the nearest number
of the format is the upper one. -/
theorem floor_nearest_iff (hn : n < 2 ^ 52) (hlow : (n : ℚ) ≤ x) (hhigh : x < n + 1) :
    ⌊nearest x⌋ = n ↔ x < n + 1 - halfStep (n + 1) := by
  rcases le_or_gt ((2 : ℚ) ^ ((Nat.clog 2 (n + 1) : ℤ) - 1)) x with hbit | hbit
  · exact floor_nearest_iff_of_le hn hbit hlow hhigh
  · -- there is a power of two between the two numbers, so they are zero and one
    have hzero : n = 0 := by
      by_contra hne
      have hlt : 2 ^ (Nat.clog 2 (n + 1) - 1) < n + 1 :=
        Nat.pow_pred_clog_lt_self one_lt_two (by omega)
      have hpos : 0 < Nat.clog 2 (n + 1) := Nat.clog_pos one_lt_two (by omega)
      have hpower : (2 : ℚ) ^ ((Nat.clog 2 (n + 1) : ℤ) - 1) ≤ n := by
        have hcast : ((Nat.clog 2 (n + 1) : ℤ) - 1) = ((Nat.clog 2 (n + 1) - 1 : ℕ) : ℤ) := by omega
        rw [hcast, zpow_natCast]
        exact_mod_cast Nat.lt_succ_iff.mp hlt
      linarith
    subst hzero
    have hx : x < 1 / 2 := by
      refine hbit.trans_le ?_
      norm_num
    have h0 : 0 ≤ x := by exact_mod_cast hlow
    have hstep : halfStep (0 + 1) ≤ 1 / 2 := by
      rw [halfStep]
      norm_num
    refine iff_of_true ?_ (by push_cast; linarith)
    rw [Int.floor_eq_iff]
    exact ⟨by exact_mod_cast nearest_nonneg h0, by exact_mod_cast nearest_lt_one h0 hx⟩

end

end Binary64
