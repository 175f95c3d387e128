import Mathlib
import Dframework.Lang.String

/-!
# Numbers as text

`decimal` is what the formats `%d` and `%lu` print, `hexadecimal` what `%x` prints.

Results:
1. `strtol_printed`: what `strtol` reads from a printed number, saturated.
2. `parseInt_printed`, `parseLong_printed`: what the two classes make of it.
-/

namespace Dframework

open CLib

/-- `%d` of a number. -/
def decimal (i : Int) : Bytes :=
  (if i < 0 then [45] else []) ++
    if i = 0 then [48] else ((Nat.digits 10 i.natAbs).map fun d => UInt8.ofNat (48 + d)).reverse

/-- `%x` of a number that is not negative. -/
def hexadecimal (n : Nat) : Bytes :=
  if n = 0 then [48]
  else ((Nat.digits 16 n).map fun d => UInt8.ofNat (if d < 10 then 48 + d else 87 + d)).reverse

theorem digitsVal_ofDigits (ds : Bytes) :
    digitsVal 10 ds = Nat.ofDigits 10 (ds.reverse.map fun c => (digitVal c).getD 0) := by
  induction ds using List.reverseRecOn with
  | nil => rfl
  | append_singleton ds c ih =>
    have hstep : digitsVal 10 (ds ++ [c]) = digitsVal 10 ds * 10 + (digitVal c).getD 0 := by
      simp [digitsVal]
    rw [hstep, ih, List.reverse_append, List.reverse_singleton, List.singleton_append,
      List.map_cons, Nat.ofDigits_cons]
    ring

/-- A decimal digit is 48 more than its value. -/
theorem digitVal_decimal {c : UInt8} (h : isDigit 10 c) :
    (digitVal c).getD 0 < 10 ∧ UInt8.ofNat (48 + (digitVal c).getD 0) = c := by
  obtain ⟨v, hval, hlt⟩ := isDigit_iff.mp h
  have hv : (digitVal c).getD 0 = v := by rw [hval]; rfl
  refine ⟨by omega, ?_⟩
  rw [hv]
  unfold digitVal at hval
  split at hval
  next hr =>
    have hc := Option.some.inj hval
    have h48 : 48 ≤ c.toNat := by simpa [UInt8.le_iff_toNat_le] using hr.1
    rw [show 48 + v = c.toNat by omega]
    exact UInt8.ofNat_toNat
  next =>
    split at hval
    next hr =>
      have hc := Option.some.inj hval
      have h97 : 97 ≤ c.toNat := by simpa [UInt8.le_iff_toNat_le] using hr.1
      omega
    next =>
      split at hval
      next hr =>
        have hc := Option.some.inj hval
        have h65 : 65 ≤ c.toNat := by simpa [UInt8.le_iff_toNat_le] using hr.1
        omega
      next => cases hval

theorem decimal_pos {n : Nat} (h : 0 < n) :
    decimal n = ((Nat.digits 10 n).map fun d => UInt8.ofNat (48 + d)).reverse := by
  have h0 : ¬ (n : Int) = 0 := by omega
  have hneg : ¬ (n : Int) < 0 := by omega
  rw [decimal, if_neg hneg, if_neg h0, List.nil_append, Int.natAbs_natCast]

theorem isDigit_ofNat {d : Nat} (h : d < 10) : isDigit 10 (UInt8.ofNat (48 + d)) := by
  interval_cases d <;> rfl

/-- A number that is not negative is printed as digits only. -/
theorem isDigit_of_mem_decimal {n : Nat} {c : UInt8} (h : c ∈ decimal n) : isDigit 10 c := by
  rcases Nat.eq_zero_or_pos n with rfl | hpos
  · rw [show decimal ((0 : Nat) : Int) = [48] from rfl, List.mem_singleton] at h
    rw [h]
    rfl
  · rw [decimal_pos hpos, List.mem_reverse, List.mem_map] at h
    obtain ⟨d, hd, rfl⟩ := h
    exact isDigit_ofNat (Nat.digits_lt_base (by decide) hd)

/-- A number is printed as hexadecimal digits only. -/
theorem isxdigit_of_mem_hexadecimal {n : Nat} {c : UInt8} (h : c ∈ hexadecimal n) :
    isxdigit c := by
  rw [hexadecimal] at h
  split_ifs at h
  · rw [List.mem_singleton.mp h]
    rfl
  · rw [List.mem_reverse, List.mem_map] at h
    obtain ⟨d, hd, rfl⟩ := h
    have hlt : d < 16 := Nat.digits_lt_base (by decide) hd
    interval_cases d <;> rfl

theorem decimal_ne_nil (i : Int) : decimal i ≠ [] := by
  rw [decimal]
  split <;> split <;> simp_all

theorem decimal_neg {n : Nat} (h : 0 < n) : decimal (-(n : Int)) = 45 :: decimal n := by
  have hneg : -(n : Int) < 0 := by omega
  have hne : ¬ -(n : Int) = 0 := by omega
  rw [decimal_pos h, decimal, if_pos hneg, if_neg hne, Int.natAbs_neg, Int.natAbs_natCast]
  rfl

theorem decimal_mem {i : Int} {c : UInt8} (h : c ∈ decimal i) : isDigit 10 c ∨ c = 45 := by
  obtain ⟨n, rfl | rfl⟩ := Int.eq_nat_or_neg i
  · exact .inl (isDigit_of_mem_decimal h)
  rcases Nat.eq_zero_or_pos n with rfl | hpos
  · exact .inl (isDigit_of_mem_decimal (n := 0) h)
  · rw [decimal_neg hpos, List.mem_cons] at h
    exact h.symm.imp isDigit_of_mem_decimal id

/-- The digits have the value that was printed. -/
theorem digitsVal_printed (n : Nat) : digitsVal 10 (decimal n) = n := by
  rcases Nat.eq_zero_or_pos n with rfl | hpos
  · rfl
  have hdigit : ∀ d ∈ Nat.digits 10 n, (digitVal (UInt8.ofNat (48 + d))).getD 0 = d := by
    intro d hd
    have hlt : d < 10 := Nat.digits_lt_base (by decide) hd
    interval_cases d <;> rfl
  rw [decimal_pos hpos, digitsVal_ofDigits, List.reverse_reverse, List.map_map]
  have hmap : (Nat.digits 10 n).map ((fun c => (digitVal c).getD 0) ∘ fun d => UInt8.ofNat (48 + d)) =
      Nat.digits 10 n := (List.map_congr_left hdigit).trans (List.map_id _)
  rw [hmap, Nat.ofDigits_digits]

/-- What a `long` keeps of a number. -/
def saturated (i : Int) : Int :=
  max (min i (2 ^ 63 - 1)) (-(2 ^ 63))

theorem strtol_printed (i : Int) {t : Bytes} (ht : ∀ c ∈ t.head?, isDigit 10 c = false) :
    strtol 10 (decimal i ++ t) = saturated i := by
  obtain ⟨n, rfl | rfl⟩ := Int.eq_nat_or_neg i
  · rw [strtol_decimal_append (decimal_ne_nil n) (fun c hc => isDigit_of_mem_decimal hc) ht,
      digitsVal_printed, saturated]
    omega
  rcases Nat.eq_zero_or_pos n with rfl | hpos
  · show strtol 10 (decimal (0 : Nat) ++ t) = saturated 0
    rw [strtol_decimal_append (decimal_ne_nil _) (fun c hc => isDigit_of_mem_decimal hc) ht,
      digitsVal_printed]
    rfl
  · rw [decimal_neg hpos, List.cons_append,
      strtol_decimal_neg (fun c hc => isDigit_of_mem_decimal hc) ht, digitsVal_printed, saturated]
    omega

/-- An `int` is read back. -/
theorem parseInt_printed (i : Int32) {t : Bytes} (ht : ∀ c ∈ t.head?, isDigit 10 c = false) :
    Int32.ofInt (parseInt (some (decimal i.toInt ++ t))) = i := by
  have hle := i.toInt_lt
  have hge := i.le_toInt
  have hread : parseInt (some (decimal i.toInt ++ t)) = i.toInt := by
    rw [parseInt, strtol_printed _ ht, saturated]
    rw [show max (min i.toInt (2 ^ 63 - 1)) (-(2 ^ 63)) = i.toInt by omega]
    exact Int.bmod_eq_of_le (by omega) (by omega)
  rw [hread, Int32.ofInt_toInt]

/-- What a counter of 64 bits is when it went through a `long`. -/
def throughLong (n : UInt64) : UInt64 :=
  UInt64.ofNat (min n.toNat (2 ^ 63 - 1))

theorem toNat_throughLong (n : UInt64) : (throughLong n).toNat = min n.toNat (2 ^ 63 - 1) :=
  UInt64.toNat_ofNat_of_lt (by rw [UInt64.size]; omega)

theorem parseLong_printed (n : UInt64) {t : Bytes} (ht : ∀ c ∈ t.head?, isDigit 10 c = false) :
    UInt64.ofInt (parseLong (some (decimal n.toNat ++ t))) = throughLong n := by
  have hread : parseLong (some (decimal n.toNat ++ t)) = (min n.toNat (2 ^ 63 - 1) : Nat) := by
    rw [parseLong, strtol_printed _ ht, saturated]
    omega
  have hlt : ((min n.toNat (2 ^ 63 - 1) : Nat) : Int) % 2 ^ 64 = (min n.toNat (2 ^ 63 - 1) : Nat) := by
    omega
  rw [hread, UInt64.ofInt, hlt, Int.toNat_natCast, throughLong]

theorem throughLong_idem (n : UInt64) : throughLong (throughLong n) = throughLong n := by
  apply UInt64.toNat_inj.mp
  rw [toNat_throughLong, toNat_throughLong, Nat.min_assoc, Nat.min_self]

theorem throughLong_eq_iff {n : UInt64} : throughLong n = n ↔ n.toNat < 2 ^ 63 := by
  rw [← UInt64.toNat_inj, toNat_throughLong]
  omega

end Dframework
