import Mathlib
import Dframework.Base.Retval

/-!
# The deadline of a timed wait

`Condition::___timedwait_real` adds a wait in milliseconds to the clock and hands
`pthread_cond_timedwait` an instant in seconds and nanoseconds. The clock is kept in unsigned
words and the instant in signed ones. The nanoseconds are carried into the seconds only when they
are more than a whole second.

Results:
1. `deadline_of_le`, `deadline_of_gt`: the instant for a wait that is not negative.
2. `deadline_exact_iff`: the waits whose instant is well formed and the one asked for.
-/

namespace Dframework

/-- `struct timeval` as `gettimeofday` fills it: words of 64 bits, less than a second in `usec`. -/
structure Timeval where
  sec : Int
  usec : Int
  long : -2 ^ 63 ≤ sec ∧ sec < 2 ^ 63
  fraction : 0 ≤ usec ∧ usec < 10 ^ 6

structure DfwTimeval where
  sec : UInt64
  usec : UInt64
  deriving DecidableEq, Repr

structure Timespec where
  sec : Int
  nsec : Int
  deriving DecidableEq, Repr

/-- What an unsigned word is in a variable of type `long`. -/
def long (n : UInt64) : Int :=
  Int.bmod n.toNat (2 ^ 64)

/-- `Time::currentTimeMillis(dfw_timeval*)` when the clock answers. -/
def currentTimeMillis (clock : Timeval) : DfwTimeval :=
  { sec := UInt64.ofInt clock.sec
    usec := UInt64.ofInt clock.usec }

namespace Condition

def DFW_NSEC : Int :=
  1000000000

/-- The instant that `___timedwait_real` waits for. -/
def deadline (clock : Timeval) (milliSeconds : Int) : Timespec :=
  let tv := currentTimeMillis clock
  let sec := long (tv.sec + UInt64.ofInt (milliSeconds.tdiv 1000))
  let nsec := long ((tv.usec + UInt64.ofInt (milliSeconds.tmod 1000 * 1000)) * 1000)
  if nsec > DFW_NSEC then
    -- the sum leaves the range of a `long` only where the instant asked for does
    { sec := Int.bmod (sec + nsec.tdiv DFW_NSEC) (2 ^ 64), nsec := nsec.tmod DFW_NSEC }
  else { sec, nsec }

end Condition

/-! ## What a deadline says -/

/-- The fields of an instant that the system takes. -/
def Timespec.WellFormed (ts : Timespec) : Prop :=
  0 ≤ ts.nsec ∧ ts.nsec < 10 ^ 9

/-- The nanoseconds that an instant stands for. -/
def Timespec.nanoseconds (ts : Timespec) : Int :=
  ts.sec * 10 ^ 9 + ts.nsec

def Timeval.nanoseconds (tv : Timeval) : Int :=
  (tv.sec * 10 ^ 6 + tv.usec) * 1000

/-- The microseconds past the second of the clock, before any carry. -/
def Timeval.fractionAfter (tv : Timeval) (milliSeconds : Int) : Int :=
  tv.usec + milliSeconds % 1000 * 1000

/-- The second of the instant a wait asks for. -/
def Timeval.secondAfter (tv : Timeval) (milliSeconds : Int) : Int :=
  tv.sec + milliSeconds / 1000 + tv.fractionAfter milliSeconds / 10 ^ 6

theorem Timeval.fractionAfter_bounds (clock : Timeval) (milliSeconds : Int) :
    0 ≤ clock.fractionAfter milliSeconds ∧ clock.fractionAfter milliSeconds < 2 * 10 ^ 6 := by
  have := clock.fraction
  unfold Timeval.fractionAfter
  omega

/-- Clock and wait together, second and fraction apart. -/
theorem Timeval.nanoseconds_add (clock : Timeval) (milliSeconds : Int) :
    clock.nanoseconds + milliSeconds * 10 ^ 6 =
      clock.secondAfter milliSeconds * 10 ^ 9 +
        clock.fractionAfter milliSeconds % 10 ^ 6 * 1000 := by
  unfold Timeval.nanoseconds Timeval.secondAfter Timeval.fractionAfter
  omega

/-! ## Words -/

theorem toNat_ofInt (x : Int) : ((UInt64.ofInt x).toNat : Int) = x % (2 ^ 64 : Nat) := by
  have hnonneg : 0 ≤ x % 2 ^ 64 := Int.emod_nonneg x (by norm_num)
  have hlt : x % 2 ^ 64 < 2 ^ 64 := Int.emod_lt_of_pos x (by norm_num)
  have hword : (UInt64.ofInt x).toNat = (x % 2 ^ 64).toNat :=
    UInt64.toNat_ofNat_of_lt' (by rw [UInt64.size]; omega)
  rw [hword]
  push_cast
  omega

/-- A sum of unsigned words, read as a signed one, is the sum of the integers they came from. -/
theorem long_add (a b : Int) :
    long (UInt64.ofInt a + UInt64.ofInt b) = Int.bmod (a + b) (2 ^ 64) := by
  unfold long
  rw [UInt64.toNat_add, Int.natCast_emod, Int.natCast_add, toNat_ofInt, toNat_ofInt,
    ← Int.add_emod, Int.emod_bmod]

theorem long_add_mul {a b : Int} (hlo : 0 ≤ a + b) (hhi : a + b < 2 ^ 32) :
    long ((UInt64.ofInt a + UInt64.ofInt b) * 1000) = (a + b) * 1000 := by
  have hthousand : ((1000 : UInt64).toNat : Int) = 1000 := rfl
  unfold long
  rw [UInt64.toNat_mul, UInt64.toNat_add, Int.natCast_emod, Int.natCast_mul, Int.natCast_emod,
    Int.natCast_add, toNat_ofInt, toNat_ofInt, ← Int.add_emod, hthousand, Int.emod_bmod,
    Int.bmod_eq_of_le]
  all_goals omega

namespace Condition

variable {clock : Timeval} {milliSeconds : Int}

/-! ## The deadline computed -/

theorem sec_sum (h : 0 ≤ milliSeconds) :
    long ((currentTimeMillis clock).sec + UInt64.ofInt (milliSeconds.tdiv 1000)) =
      Int.bmod (clock.sec + milliSeconds / 1000) (2 ^ 64) := by
  rw [Int.tdiv_eq_ediv_of_nonneg h]
  exact long_add clock.sec (milliSeconds / 1000)

theorem nsec_sum (h : 0 ≤ milliSeconds) :
    long (((currentTimeMillis clock).usec + UInt64.ofInt (milliSeconds.tmod 1000 * 1000)) * 1000) =
      clock.fractionAfter milliSeconds * 1000 := by
  have hbounds := clock.fractionAfter_bounds milliSeconds
  rw [Int.tmod_eq_emod_of_nonneg h]
  unfold Timeval.fractionAfter at hbounds ⊢
  exact long_add_mul hbounds.1 (by omega)

/-- Nothing is carried up to a whole second, and that second is left in the nanoseconds. -/
theorem deadline_of_le (h : 0 ≤ milliSeconds)
    (hle : clock.fractionAfter milliSeconds ≤ 10 ^ 6) :
    deadline clock milliSeconds =
      { sec := Int.bmod (clock.sec + milliSeconds / 1000) (2 ^ 64)
        nsec := clock.fractionAfter milliSeconds * 1000 } := by
  unfold deadline
  simp only [sec_sum h, nsec_sum h]
  rw [if_neg (by unfold DFW_NSEC; omega)]

theorem deadline_of_gt (h : 0 ≤ milliSeconds)
    (hgt : 10 ^ 6 < clock.fractionAfter milliSeconds) :
    deadline clock milliSeconds =
      { sec := Int.bmod (clock.sec + milliSeconds / 1000 + 1) (2 ^ 64)
        nsec := clock.fractionAfter milliSeconds * 1000 - 10 ^ 9 } := by
  have hbounds := clock.fractionAfter_bounds milliSeconds
  have hdiv : (clock.fractionAfter milliSeconds * 1000).tdiv DFW_NSEC = 1 := by
    rw [Int.tdiv_eq_ediv_of_nonneg (by omega)]
    unfold DFW_NSEC
    omega
  have hmod : (clock.fractionAfter milliSeconds * 1000).tmod DFW_NSEC =
      clock.fractionAfter milliSeconds * 1000 - 10 ^ 9 := by
    rw [Int.tmod_eq_emod_of_nonneg (by omega)]
    unfold DFW_NSEC
    omega
  unfold deadline
  simp only [sec_sum h, nsec_sum h]
  rw [if_pos (by unfold DFW_NSEC; omega), hdiv, hmod, Int.bmod_add_bmod]

/-- A second that is carried to exactly the one asked for, or lost past the end of a `long`. -/
theorem sec_exact_iff {x : Int} (hlo : -2 ^ 63 ≤ x) :
    Int.bmod x (2 ^ 64) = x ↔ x < 2 ^ 63 := by
  constructor
  · intro hsame
    have hlt : Int.bmod x (2 ^ 64) < (2 ^ 64 + 1) / 2 := Int.bmod_lt (by norm_num)
    omega
  · intro hlt
    exact Int.bmod_eq_of_le (by omega) (by omega)

/-- The deadline of a timed wait is well formed and names the instant that the wait asks for exactly
when the microseconds do not add up to a whole second and the second fits in a `long`. -/
theorem deadline_exact_iff (clock : Timeval) (milliSeconds : Int)
    (hwait : 0 ≤ milliSeconds ∧ milliSeconds < 2 ^ 63) :
    ((deadline clock milliSeconds).WellFormed ∧
        (deadline clock milliSeconds).nanoseconds =
          clock.nanoseconds + milliSeconds * 10 ^ 6) ↔
      clock.fractionAfter milliSeconds ≠ 10 ^ 6 ∧ clock.secondAfter milliSeconds < 2 ^ 63 := by
  have hbounds := clock.fractionAfter_bounds milliSeconds
  have hlong := clock.long
  rw [clock.nanoseconds_add]
  by_cases hcarry : 10 ^ 6 < clock.fractionAfter milliSeconds
  · have hsecond : clock.secondAfter milliSeconds = clock.sec + milliSeconds / 1000 + 1 := by
      unfold Timeval.secondAfter
      omega
    rw [deadline_of_gt hwait.1 hcarry, hsecond, ← sec_exact_iff (by omega)]
    simp only [Timespec.WellFormed, Timespec.nanoseconds]
    omega
  · have hfield := deadline_of_le hwait.1 (not_lt.mp hcarry)
    rw [hfield]
    by_cases hwhole : clock.fractionAfter milliSeconds = 10 ^ 6
    · -- the boundary: the nanoseconds are a whole second
      simp only [Timespec.WellFormed]
      omega
    · have hsecond : clock.secondAfter milliSeconds = clock.sec + milliSeconds / 1000 := by
        unfold Timeval.secondAfter
        omega
      rw [hsecond, ← sec_exact_iff (by omega)]
      simp only [Timespec.WellFormed, Timespec.nanoseconds]
      omega

/-- Half a second past the second, and a wait of a second and a half less a millisecond. -/
theorem deadline_exact_iff_carried :
    let clock : Timeval := ⟨1700000000, 500000, by norm_num, by norm_num⟩
    (deadline clock 1499).WellFormed ∧
      (deadline clock 1499).nanoseconds = clock.nanoseconds + 1499 * 10 ^ 6 := by
  intro clock
  exact (deadline_exact_iff clock 1499 (by norm_num)).mpr
    ⟨by norm_num [Timeval.fractionAfter, clock],
      by norm_num [Timeval.secondAfter, Timeval.fractionAfter, clock]⟩

/-- Half a second past the second, and a wait of a second and a half: the nanoseconds are a whole
second, which the system refuses. -/
theorem not_deadline_exact :
    ¬ ∀ (clock : Timeval) (milliSeconds : Int), 0 ≤ milliSeconds ∧ milliSeconds < 2 ^ 63 →
      (deadline clock milliSeconds).WellFormed ∧
        (deadline clock milliSeconds).nanoseconds =
          clock.nanoseconds + milliSeconds * 10 ^ 6 := by
  intro hexact
  let clock : Timeval := ⟨1700000000, 500000, by norm_num, by norm_num⟩
  have hdeadline : deadline clock 1500 = { sec := 1700000001, nsec := 1000000000 } := by decide
  obtain ⟨⟨_, hlt⟩, _⟩ := hexact clock 1500 (by norm_num)
  rw [hdeadline] at hlt
  exact absurd hlt (by norm_num)

end Condition

end Dframework
