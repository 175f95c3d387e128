import Mathlib
import Dframework.Library.Search

/-!
# Bytes, C strings and the number parsers of the C library

A C string is what stands before the first NUL of the memory a pointer points
into. Memory is a list of bytes that goes on with NUL bytes for ever, so the
list `[]` is memory that starts with a NUL. `strstr`, `strchr` and `strrchr`
answer offsets from the pointer instead of pointers.
-/

namespace CLib

abbrev Bytes := List UInt8

/-- The bytes of a text made of ASCII characters. -/
def bytes (s : String) : Bytes :=
  s.toList.map fun c => UInt8.ofNat c.toNat

def CRLF : Bytes := [13, 10]

/-- The C string at a pointer into the memory `m`. -/
def cstr (m : Bytes) : Bytes :=
  m.takeWhile (· != 0)

/-- `strstr(m, pat)`, for a pattern without NUL. -/
def strstr (m pat : Bytes) : Option Nat :=
  Search.find pat (cstr m)

def lastIndex (c : UInt8) : Bytes → Option Nat
  | [] => none
  | x :: xs =>
    match lastIndex c xs with
    | some i => some (i + 1)
    | none => if x = c then some 0 else none

/-- `strrchr(m, c)`, for `c` other than NUL. -/
def strrchr (m : Bytes) (c : UInt8) : Option Nat :=
  lastIndex c (cstr m)

def isspace (c : UInt8) : Bool :=
  c == 32 || (9 ≤ c && c ≤ 13)

/-- The value of a digit in base 36 and below, letters of either case. -/
def digitVal (c : UInt8) : Option Nat :=
  if 48 ≤ c ∧ c ≤ 57 then some (c.toNat - 48)
  else if 97 ≤ c ∧ c ≤ 122 then some (c.toNat - 87)
  else if 65 ≤ c ∧ c ≤ 90 then some (c.toNat - 55)
  else none

/-- `c` is a digit in base `base`. -/
def isDigit (base : Nat) (c : UInt8) : Bool :=
  match digitVal c with
  | some v => v < base
  | none => false

def isxdigit (c : UInt8) : Bool :=
  isDigit 16 c

/-- The number a run of digits writes, most significant digit first. -/
def digitsVal (base : Nat) (ds : Bytes) : Nat :=
  ds.foldl (fun acc c => acc * base + (digitVal c).getD 0) 0

/-- The sign `strtol` accepts in front of the digits. -/
def strtolSign : Bytes → Bool × Bytes
  | 45 :: m => (true, m)
  | 43 :: m => (false, m)
  | m => (false, m)

/-- The prefix `0x` that `strtol` skips in base 16 when a digit follows it. -/
def strtolPrefix (base : Nat) : Bytes → Bytes
  | 48 :: x :: d :: m =>
    if base = 16 ∧ (x = 120 ∨ x = 88) ∧ isxdigit d then d :: m else 48 :: x :: d :: m
  | m => m

/-- `strtol(m, NULL, base)` on a machine where `long` has 64 bits: blanks, a
sign, digits, saturated at the ends of the range. -/
def strtol (base : Nat) (m : Bytes) : Int :=
  let s := strtolSign (m.dropWhile isspace)
  let v := digitsVal base ((strtolPrefix base s.2).takeWhile (isDigit base))
  if s.1 then max (-(v : Int)) (-(2 ^ 63)) else min (v : Int) (2 ^ 63 - 1)

/-- The conversion of a `long` to `size_t`. -/
def toSizeT (i : Int) : Nat :=
  (i % 2 ^ 64).toNat

def sizeSub (a b : Nat) : Nat :=
  if b ≤ a then a - b else a + 2 ^ 64 - b

def sizeAdd (a b : Nat) : Nat :=
  (a + b) % 2 ^ 64

/-- What holds of the 256 bytes. -/
theorem forall_byte {P : UInt8 → Prop} (h : ∀ n : Fin 256, P (UInt8.ofFin n)) (c : UInt8) : P c :=
  h c.toFin

/-! ## C strings -/

theorem cstr_of_not_mem {m : Bytes} (h : (0 : UInt8) ∉ m) : cstr m = m := by
  refine List.takeWhile_eq_self_iff.mpr fun x hx => ?_
  simp only [bne_iff_ne, ne_eq]
  rintro rfl
  exact h hx

theorem cstr_append_of_not_mem {a m : Bytes} (h : (0 : UInt8) ∉ a) :
    cstr (a ++ m) = a ++ cstr m := by
  have ha : ∀ x ∈ a, (x != 0) = true := by
    intro x hx
    simp only [bne_iff_ne, ne_eq]
    rintro rfl
    exact h hx
  exact List.takeWhile_append_of_pos ha

theorem cstr_isPrefix (m : Bytes) : cstr m <+: m :=
  List.takeWhile_prefix _

theorem not_mem_cstr (m : Bytes) : (0 : UInt8) ∉ cstr m := by
  intro h
  simpa using List.mem_takeWhile_imp h

theorem cstr_cstr (m : Bytes) : cstr (cstr m) = cstr m :=
  cstr_of_not_mem (not_mem_cstr m)

/-- A string that stops before the end of `a` stops there whatever follows. -/
theorem cstr_append_of_mem {a : Bytes} (h : (0 : UInt8) ∈ a) (m : Bytes) :
    cstr (a ++ m) = cstr a := by
  have hlen : ¬ (cstr a).length = a.length := by
    intro hl
    have hall := List.takeWhile_eq_self_iff.mp ((cstr_isPrefix a).eq_of_length hl)
    simpa using hall 0 h
  rw [cstr, List.takeWhile_append]
  exact if_neg hlen

theorem cstr_append (a m : Bytes) : cstr a <+: cstr (a ++ m) := by
  by_cases h : (0 : UInt8) ∈ a
  · rw [cstr_append_of_mem h]
  · rw [cstr_append_of_not_mem h, cstr_of_not_mem h]
    exact List.prefix_append _ _

theorem cstr_drop {m : Bytes} {k : Nat} (h : k ≤ (cstr m).length) :
    cstr (m.drop k) = (cstr m).drop k := by
  induction k generalizing m with
  | zero => rfl
  | succ k ih =>
    cases m with
    | nil => rfl
    | cons c m =>
      by_cases hc : c = 0
      · subst hc
        exact absurd h (Nat.not_succ_le_zero k)
      · have hcons : cstr (c :: m) = c :: cstr m :=
          List.takeWhile_cons_of_pos (bne_iff_ne.mpr hc)
        rw [hcons] at h ⊢
        exact ih (Nat.le_of_succ_le_succ h)

/-! ## `strstr` -/

theorem strstr_append {m pat : Bytes} {i : Nat} (h : strstr m pat = some i) (t : Bytes) :
    strstr (m ++ t) pat = some i := by
  obtain ⟨u, hu⟩ := cstr_append m t
  rw [strstr, ← hu]
  exact Search.find_append h u

theorem strstr_add_length_le {m pat : Bytes} {i : Nat} (h : strstr m pat = some i) :
    i + pat.length ≤ m.length :=
  (Search.find_add_length_le h).trans (cstr_isPrefix m).length_le

theorem strstr_of_append {m t pat : Bytes} {i : Nat} (h : strstr (m ++ t) pat = some i)
    (hi : i + pat.length ≤ m.length) : strstr m pat = some i := by
  by_cases h0 : (0 : UInt8) ∈ m
  · rw [strstr, cstr_append_of_mem h0] at h
    exact h
  · rw [strstr, cstr_append_of_not_mem h0] at h
    rw [strstr, cstr_of_not_mem h0]
    exact Search.find_of_append h hi

/-- A text without CRLF does not get one by the CRLF that follows it. -/
theorem not_crlf_prefix_drop {a t : Bytes} (h : Search.find CRLF a = none) :
    ∀ j < a.length, ¬ CRLF <+: (a ++ CRLF ++ t).drop j := by
  intro j hj hp
  rw [List.append_assoc, List.drop_append_of_le_length hj.le] at hp
  have hfree := Search.find_eq_none_iff.mp h j hj.le
  match hd : a.drop j with
  | [] => rw [List.drop_eq_nil_iff] at hd; omega
  | [x] => simp [hd, CRLF, List.cons_prefix_cons] at hp
  | x :: y :: rest =>
    rw [hd] at hp hfree
    simp only [CRLF, List.cons_append, List.cons_prefix_cons, List.nil_prefix, and_true] at hp hfree
    exact hfree hp

/-- The first CRLF of a text is the one behind its first line. -/
theorem find_crlf_line {a : Bytes} (h : Search.find CRLF a = none) (t : Bytes) :
    Search.find CRLF (a ++ CRLF ++ t) = some a.length :=
  Search.find_piece (not_crlf_prefix_drop h)

theorem strstr_crlf_line {a : Bytes} (h0 : (0 : UInt8) ∉ a) (h : Search.find CRLF a = none)
    (t : Bytes) : strstr (a ++ CRLF ++ t) CRLF = some a.length := by
  have hz : (0 : UInt8) ∉ a ++ CRLF := by simpa [CRLF] using h0
  rw [strstr, cstr_append_of_not_mem hz]
  exact find_crlf_line h _

theorem find_crlf_of_not_mem {a : Bytes} (h : (13 : UInt8) ∉ a) : Search.find CRLF a = none := by
  refine Search.find_eq_none_iff.mpr fun i _ hp => h ?_
  exact List.mem_of_mem_drop (hp.subset (by simp [CRLF]))

/-! ## Single characters -/

theorem strstr_char_none {c : UInt8} {s : Bytes} (h : c ∉ s) : strstr s [c] = none :=
  Search.find_singleton_none fun hc => h ((cstr_isPrefix s).subset hc)

theorem strstr_char {c : UInt8} {a : Bytes} (h0 : (0 : UInt8) ∉ a) (h : c ∉ a) (hc : c ≠ 0)
    (t : Bytes) : strstr (a ++ c :: t) [c] = some a.length := by
  have hstop : cstr (c :: t) = c :: cstr t := by
    rw [cstr, List.takeWhile_cons, if_pos (bne_iff_ne.mpr hc), cstr]
  rw [strstr, cstr_append_of_not_mem h0, hstop]
  exact Search.find_singleton h _

theorem lastIndex_none {c : UInt8} {s : Bytes} (h : c ∉ s) : lastIndex c s = none := by
  induction s with
  | nil => rfl
  | cons x xs ih =>
    rw [List.mem_cons, not_or] at h
    rw [lastIndex, ih h.2]
    exact if_neg (Ne.symm h.1)

/-- The byte that was looked for stands where it was found. -/
theorem getElem?_lastIndex {c : UInt8} {s : Bytes} {i : Nat} (h : lastIndex c s = some i) :
    s[i]? = some c := by
  induction s generalizing i with
  | nil => cases h
  | cons x xs ih =>
    rw [lastIndex] at h
    split at h
    next j hj =>
      obtain rfl := Option.some.inj h
      exact ih hj
    next =>
      split_ifs at h with hx
      obtain rfl := Option.some.inj h
      exact congrArg some hx

theorem lastIndex_append {c : UInt8} {t : Bytes} (h : c ∉ t) (a : Bytes) :
    lastIndex c (a ++ c :: t) = some a.length := by
  induction a with
  | nil =>
    rw [List.nil_append, lastIndex, lastIndex_none h]
    exact if_pos rfl
  | cons x xs ih => rw [List.cons_append, lastIndex, ih, List.length_cons]

theorem strrchr_none {c : UInt8} {s : Bytes} (h : c ∉ s) : strrchr s c = none :=
  lastIndex_none fun hc => h ((cstr_isPrefix s).subset hc)

theorem strrchr_append {c : UInt8} {a t : Bytes} (h0 : (0 : UInt8) ∉ a ++ c :: t) (h : c ∉ t) :
    strrchr (a ++ c :: t) c = some a.length := by
  rw [strrchr, cstr_of_not_mem h0, lastIndex_append h]

/-! ## `strtol` -/

theorem isDigit_iff {base : Nat} {c : UInt8} :
    isDigit base c ↔ ∃ v, digitVal c = some v ∧ v < base := by
  unfold isDigit
  cases digitVal c <;> simp

theorem digitsVal_append_zero (base k : Nat) (ds : Bytes) :
    digitsVal base (List.replicate k 48 ++ ds) = digitsVal base ds := by
  induction k with
  | zero => rfl
  | succ k ih =>
    rw [List.replicate_succ, List.cons_append]
    simpa [digitsVal, digitVal] using ih

/-- A hexadecimal digit is none of the bytes that end a number. -/
theorem isxdigit_ne {c : UInt8} (h : isxdigit c) :
    c ≠ 0 ∧ c ≠ 13 ∧ c ≠ 10 ∧ c ≠ 43 ∧ c ≠ 45 ∧ c ≠ 120 ∧ c ≠ 88 ∧ isspace c = false := by
  refine ⟨?_, ?_, ?_, ?_, ?_, ?_, ?_, ?_⟩ <;> try (rintro rfl; revert h; decide)
  by_contra hs
  have hmem : c ∈ ([9, 10, 11, 12, 13, 32] : Bytes) := by
    simp only [isspace, Bool.not_eq_false, Bool.or_eq_true, beq_iff_eq, Bool.and_eq_true,
      decide_eq_true_eq] at hs
    simp only [List.mem_cons, List.not_mem_nil, or_false]
    simp only [UInt8.le_iff_toNat_le, ← UInt8.toNat_inj] at hs ⊢
    simp at hs ⊢
    omega
  fin_cases hmem <;> revert h <;> decide

/-- The prefix `0x` is not taken from a run of digits. -/
theorem strtolPrefix_digits {ds t : Bytes} (hne : ds ≠ []) (hd : ∀ c ∈ ds, isxdigit c) :
    strtolPrefix 16 (ds ++ 13 :: t) = ds ++ 13 :: t := by
  unfold strtolPrefix
  split
  next x d m heq =>
    rw [heq]
    refine if_neg ?_
    rintro ⟨-, hx, -⟩
    match ds, hne with
    | [_], _ =>
      simp only [List.cons_append, List.nil_append, List.cons.injEq] at heq
      obtain ⟨-, rfl, -⟩ := heq
      revert hx
      decide
    | _ :: y :: _, _ =>
      simp only [List.cons_append, List.cons.injEq] at heq
      obtain ⟨-, rfl, -⟩ := heq
      have := isxdigit_ne (hd y (by simp))
      tauto
  next => rfl

/-- What `strtol` reads from a line of hexadecimal digits. -/
theorem strtol_digits {ds t : Bytes} (hne : ds ≠ []) (hd : ∀ c ∈ ds, isxdigit c)
    (hv : digitsVal 16 ds < 2 ^ 63) : strtol 16 (ds ++ 13 :: t) = digitsVal 16 ds := by
  obtain ⟨c, cs, rfl⟩ := List.exists_cons_of_ne_nil hne
  obtain ⟨-, -, -, hplus, hminus, -, -, hspace⟩ := isxdigit_ne (hd c (by simp))
  have hskip : ((c :: cs) ++ 13 :: t).dropWhile isspace = (c :: cs) ++ 13 :: t := by
    simp [hspace]
  have hsign : strtolSign ((c :: cs) ++ 13 :: t) = (false, (c :: cs) ++ 13 :: t) := by
    simp only [List.cons_append]
    unfold strtolSign
    split
    next heq => exact absurd (List.cons.inj heq).1 hminus
    next heq => exact absurd (List.cons.inj heq).1 hplus
    next => rfl
  have hrun : ((c :: cs) ++ 13 :: t).takeWhile (isDigit 16) = c :: cs := by
    have hall : ∀ x ∈ c :: cs, isDigit 16 x := hd
    have hstop : (13 :: t).takeWhile (isDigit 16) = [] := by
      rw [List.takeWhile_cons, if_neg (by decide)]
    rw [List.takeWhile_append_of_pos hall, hstop, List.append_nil]
  simp only [strtol, hskip, hsign, strtolPrefix_digits hne hd, hrun, Bool.false_eq_true,
    ↓reduceIte]
  omega

/-- A decimal digit is none of the bytes `strtol` skips in front of a number. -/
theorem decimalDigit_ne {c : UInt8} (h : isDigit 10 c) : isspace c = false ∧ c ≠ 45 ∧ c ≠ 43 := by
  obtain ⟨v, hval, hlt⟩ := isDigit_iff.mp h
  have hx : isxdigit c := isDigit_iff.mpr ⟨v, hval, by omega⟩
  obtain ⟨-, -, -, hplus, hminus, -, -, hspace⟩ := isxdigit_ne hx
  exact ⟨hspace, hminus, hplus⟩

theorem strtolPrefix_ten (m : Bytes) : strtolPrefix 10 m = m := by
  unfold strtolPrefix
  split
  next => exact if_neg fun h => absurd h.1 (by decide)
  next => rfl

/-- A run of digits ends where the text behind it has none. -/
theorem takeWhile_digits {base : Nat} {ds t : Bytes} (hd : ∀ c ∈ ds, isDigit base c)
    (ht : ∀ c ∈ t.head?, isDigit base c = false) : (ds ++ t).takeWhile (isDigit base) = ds := by
  have hstop : t.takeWhile (isDigit base) = [] := by
    cases t with
    | nil => rfl
    | cons c t => rw [List.takeWhile_cons, ht c rfl]; rfl
  rw [List.takeWhile_append_of_pos hd, hstop, List.append_nil]

/-- What `strtol` reads from a run of decimal digits, saturated. -/
theorem strtol_decimal_append {ds t : Bytes} (hne : ds ≠ []) (hd : ∀ c ∈ ds, isDigit 10 c)
    (ht : ∀ c ∈ t.head?, isDigit 10 c = false) :
    strtol 10 (ds ++ t) = min (digitsVal 10 ds : Int) (2 ^ 63 - 1) := by
  obtain ⟨c, cs, rfl⟩ := List.exists_cons_of_ne_nil hne
  obtain ⟨hspace, hminus, hplus⟩ := decimalDigit_ne (hd c List.mem_cons_self)
  have hskip : (c :: cs ++ t).dropWhile isspace = c :: cs ++ t := by
    rw [List.cons_append, List.dropWhile_cons, hspace]
    rfl
  have hsign : strtolSign (c :: cs ++ t) = (false, c :: cs ++ t) := by
    unfold strtolSign
    split
    next heq => exact absurd (List.cons.inj heq).1 hminus
    next heq => exact absurd (List.cons.inj heq).1 hplus
    next => rfl
  simp only [strtol, hskip, hsign, strtolPrefix_ten, takeWhile_digits hd ht, Bool.false_eq_true,
    ↓reduceIte]

/-- What `strtol` reads from decimal digits behind a minus. -/
theorem strtol_decimal_neg {ds t : Bytes} (hd : ∀ c ∈ ds, isDigit 10 c)
    (ht : ∀ c ∈ t.head?, isDigit 10 c = false) :
    strtol 10 (45 :: (ds ++ t)) = max (-(digitsVal 10 ds : Int)) (-(2 ^ 63)) := by
  have hskip : (45 :: (ds ++ t)).dropWhile isspace = 45 :: (ds ++ t) :=
    List.dropWhile_cons_of_neg (by decide)
  simp only [strtol, hskip, strtolSign, strtolPrefix_ten, takeWhile_digits hd ht, ↓reduceIte]

/-- What `atoi` reads from a run of decimal digits. -/
theorem strtol_decimal {ds : Bytes} (hd : ∀ c ∈ ds, isDigit 10 c) (hv : digitsVal 10 ds < 2 ^ 63) :
    strtol 10 ds = digitsVal 10 ds := by
  rcases eq_or_ne ds [] with rfl | hne
  · decide
  · have hread := strtol_decimal_append (t := []) hne hd fun c hc => by cases hc
    rw [List.append_nil] at hread
    rw [hread]
    omega

/-! ## `int` and `size_t` -/

theorem int_of_lt {n : Nat} (h : n < 2 ^ 31) : Int.bmod n (2 ^ 32) = n :=
  Int.bmod_eq_of_le (by omega) (by omega)

theorem sizeSub_of_le {a b : Nat} (h : b ≤ a) : sizeSub a b = a - b :=
  if_pos h

theorem sizeAdd_of_lt {a b : Nat} (h : a + b < 2 ^ 64) : sizeAdd a b = a + b :=
  Nat.mod_eq_of_lt h

theorem toSizeT_natCast {n : Nat} (h : n < 2 ^ 64) : toSizeT n = n := by
  unfold toSizeT
  omega

end CLib
