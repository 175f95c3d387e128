import Mathlib
import Dframework.Library.Binary64
import Dframework.Library.CLib

/-!
# `sscanf`

The directives of a format are taken one by one. A conversion that fails ends the scan, and the
values in front of it are what the caller counts.

Results:
1. `scan_str`, `scan_dec`, `scan_double`: what a conversion takes from a text that starts with its
   value.
2. `scan_lit_none`, `scan_dec_none`: where it takes nothing.
-/

namespace Scanf

open CLib

/-- A directive of a format, with the width of its field. -/
inductive Directive where
  | space
  | lit (c : UInt8)
  | str (width : Nat)
  | dec (width : Nat)
  | double
  deriving DecidableEq, Repr

inductive Item where
  | str (s : Bytes)
  | dec (v : Int)
  | double (v : ℚ)
  deriving DecidableEq, Repr

/-- The directives of a format with `%Ns`, `%Nd` and `%lf`. A zero in front of a width has no meaning. -/
def parseFormat : Option Nat → Bytes → List Directive
  | none, [] => []
  | none, c :: fmt =>
    if c = 37 then parseFormat (some 0) fmt
    else if isspace c then .space :: parseFormat none fmt
    else .lit c :: parseFormat none fmt
  | some _, [] => []
  | some width, c :: fmt =>
    if c = 115 then .str width :: parseFormat none fmt
    else if c = 100 then .dec width :: parseFormat none fmt
    else if c = 102 then .double :: parseFormat none fmt
    else if c = 108 then parseFormat (some width) fmt
    else parseFormat (some (width * 10 + (digitVal c).getD 0)) fmt

/-- A number of at most `width` characters, its sign among them, and the text behind it. -/
def scanInt (width : Nat) (s : Bytes) : Option (Int × Bytes) :=
  let signed := s.head? = some 45 ∨ s.head? = some 43
  let body := if signed then s.drop 1 else s
  let digits := (body.take (if signed then width - 1 else width)).takeWhile (isDigit 10)
  if digits = [] then none
  else
    let v : Int := digitsVal 10 digits
    some (if s.head? = some 45 then -v else v, body.drop digits.length)

/-- The exponent of a number, and the text behind it. The letter must have a number behind it. -/
def scanExponent (s : Bytes) : Option (Int × Bytes) :=
  if s.head? = some 69 ∨ s.head? = some 101 then scanInt s.length (s.drop 1)
  else some (0, s)

/-- A number in decimal notation, and the text behind it. -/
def scanDouble (s : Bytes) : Option (ℚ × Bytes) :=
  let body := if s.head? = some 45 ∨ s.head? = some 43 then s.drop 1 else s
  let whole := body.takeWhile (isDigit 10)
  let behind := body.drop whole.length
  let point := behind.head? = some 46
  let frac := if point then (behind.drop 1).takeWhile (isDigit 10) else []
  if whole = [] ∧ frac = [] then none
  else
    match scanExponent (if point then behind.drop (1 + frac.length) else behind) with
    | none => none
    | some (e, rest) =>
      let v : ℚ := digitsVal 10 (whole ++ frac) / 10 ^ frac.length * 10 ^ e
      some (Binary64.nearest (if s.head? = some 45 then -v else v), rest)

/-- `sscanf`: the values of the conversions that were made. -/
def scan : List Directive → Bytes → List Item
  | [], _ => []
  | .space :: format, s => scan format (s.dropWhile isspace)
  | .lit c :: format, s => if s.head? = some c then scan format (s.drop 1) else []
  | .str width :: format, s =>
    let s := s.dropWhile isspace
    let word := (s.take width).takeWhile fun c => !isspace c
    if word = [] then [] else .str word :: scan format (s.drop word.length)
  | .dec width :: format, s =>
    match scanInt width (s.dropWhile isspace) with
    | none => []
    | some (v, rest) => .dec v :: scan format rest
  | .double :: format, s =>
    match scanDouble (s.dropWhile isspace) with
    | none => []
    | some (v, rest) => .double v :: scan format rest

section

variable {format : List Directive} {s : Bytes}

/-! ## One directive -/

theorem scan_space_cons (format : List Directive) (s : Bytes) :
    scan (.space :: format) s = scan format (s.dropWhile isspace) := rfl

theorem scan_lit_cons (c : UInt8) (format : List Directive) (s : Bytes) :
    scan (.lit c :: format) s = if s.head? = some c then scan format (s.drop 1) else [] := rfl

theorem scan_str_cons (width : Nat) (format : List Directive) (s : Bytes) :
    scan (.str width :: format) s =
      let s := s.dropWhile isspace
      let word := (s.take width).takeWhile fun c => !isspace c
      if word = [] then [] else .str word :: scan format (s.drop word.length) := rfl

theorem scan_dec_cons (width : Nat) (format : List Directive) (s : Bytes) :
    scan (.dec width :: format) s =
      (scanInt width (s.dropWhile isspace)).elim [] fun r => .dec r.1 :: scan format r.2 := by
  rw [scan]
  rcases scanInt width (s.dropWhile isspace) with _ | ⟨v, rest⟩ <;> rfl

theorem scan_double_cons (format : List Directive) (s : Bytes) :
    scan (.double :: format) s =
      (scanDouble (s.dropWhile isspace)).elim [] fun r => .double r.1 :: scan format r.2 := by
  rw [scan]
  rcases scanDouble (s.dropWhile isspace) with _ | ⟨v, rest⟩ <;> rfl

/-! ## Blanks and other characters -/

theorem dropWhile_isspace {c : UInt8} (h : isspace c = false) :
    (c :: s).dropWhile isspace = c :: s := by
  rw [List.dropWhile_cons, h]
  rfl

/-- A blank in a format says nothing more in front of a conversion. -/
theorem scan_space_str (width : Nat) :
    scan (.space :: .str width :: format) s = scan (.str width :: format) s := by
  simp only [scan_space_cons, scan_str_cons, List.dropWhile_idempotent]

theorem scan_space_dec (width : Nat) :
    scan (.space :: .dec width :: format) s = scan (.dec width :: format) s := by
  rw [scan_space_cons, scan_dec_cons, scan_dec_cons, List.dropWhile_idempotent]

/-- A conversion skips the blanks in front of its value. -/
theorem scan_str_blank (width : Nat) :
    scan (.str width :: format) (32 :: s) = scan (.str width :: format) s := by
  have hskip : (32 :: s).dropWhile isspace = s.dropWhile isspace := List.dropWhile_cons_of_pos rfl
  simp only [scan_str_cons, hskip]

theorem scan_dec_blank (width : Nat) :
    scan (.dec width :: format) (32 :: s) = scan (.dec width :: format) s := by
  have hskip : (32 :: s).dropWhile isspace = s.dropWhile isspace := List.dropWhile_cons_of_pos rfl
  rw [scan_dec_cons, scan_dec_cons, hskip]

theorem scan_lit (c : UInt8) : scan (.lit c :: format) (c :: s) = scan format s := by
  rw [scan_lit_cons, List.head?_cons, if_pos rfl, List.drop_one, List.tail_cons]

theorem scan_lit_none {c x : UInt8} (h : x ≠ c) : scan (.lit c :: format) (x :: s) = [] := by
  rw [scan_lit_cons, List.head?_cons, if_neg (by simpa using h)]

/-! ## Words -/

/-- A word that fills its field, or that a blank follows. -/
theorem scan_str {word : Bytes} {width : Nat} (hne : word ≠ [])
    (hword : ∀ c ∈ word, isspace c = false) (hlen : word.length ≤ width)
    (hstop : word.length = width ∨ ∀ c ∈ s.head?, isspace c) :
    scan (.str width :: format) (word ++ s) = .str word :: scan format s := by
  have hskip : (word ++ s).dropWhile isspace = word ++ s := by
    obtain ⟨c, rest, rfl⟩ := List.exists_cons_of_ne_nil hne
    exact dropWhile_isspace (hword c List.mem_cons_self)
  have htake : ((word ++ s).take width).takeWhile (fun c => !isspace c) = word := by
    rw [List.take_append, List.take_of_length_le hlen,
      List.takeWhile_append_of_pos fun c hc => by rw [hword c hc]; rfl]
    rcases hstop with heq | hstop
    · rw [heq, Nat.sub_self, List.take_zero, List.takeWhile_nil, List.append_nil]
    · cases s with
      | nil => simp
      | cons c s =>
        cases width - word.length with
        | zero => simp
        | succ n => simp [hstop c rfl]
  simp only [scan_str_cons, hskip, htake, if_neg hne, List.drop_left]

/-- A word that fills its field. -/
theorem scan_full {word : Bytes} {width : Nat} (hne : word ≠ [])
    (hword : ∀ c ∈ word, isspace c = false) (hlen : word.length = width) :
    scan (.str width :: format) (word ++ s) = .str word :: scan format s :=
  scan_str hne hword hlen.le (Or.inl hlen)

/-- A word with a blank behind it. -/
theorem scan_word {word : Bytes} {width : Nat} (hne : word ≠ [])
    (hword : ∀ c ∈ word, isspace c = false) (hlen : word.length ≤ width) :
    scan (.str width :: format) (word ++ 32 :: s) = .str word :: scan format (32 :: s) :=
  scan_str hne hword hlen (Or.inr fun _ hc => Option.some.inj hc ▸ rfl)

/-! ## Numbers -/

/-- A number that fills its field, or that another character follows. -/
theorem scan_dec {digits : Bytes} {width : Nat} (hne : digits ≠ [])
    (hdigits : ∀ c ∈ digits, isDigit 10 c) (hlen : digits.length ≤ width)
    (hstop : digits.length = width ∨ ∀ c ∈ s.head?, isDigit 10 c = false) :
    scan (.dec width :: format) (digits ++ s) =
      .dec (digitsVal 10 digits) :: scan format s := by
  obtain ⟨c, rest, rfl⟩ := List.exists_cons_of_ne_nil hne
  obtain ⟨hspace, hminus, hplus⟩ := decimalDigit_ne (hdigits c List.mem_cons_self)
  have hskip : (c :: rest ++ s).dropWhile isspace = c :: rest ++ s := dropWhile_isspace hspace
  have htake : ((c :: rest ++ s).take width).takeWhile (isDigit 10) = c :: rest := by
    rw [List.take_append, List.take_of_length_le hlen, List.takeWhile_append_of_pos hdigits]
    rcases hstop with heq | hstop
    · rw [heq, Nat.sub_self, List.take_zero, List.takeWhile_nil, List.append_nil]
    · cases s with
      | nil => simp
      | cons x s =>
        cases width - (c :: rest).length with
        | zero => simp
        | succ n => simp [hstop x rfl]
  have hm : ¬ (c :: rest ++ s).head? = some 45 := by simpa using hminus
  have hsign : ¬ ((c :: rest ++ s).head? = some 45 ∨ (c :: rest ++ s).head? = some 43) := by
    simp [hminus, hplus]
  have hint : scanInt width (c :: rest ++ s) = some ((digitsVal 10 (c :: rest) : Int), s) := by
    simp only [scanInt, if_neg hsign, if_neg hm, htake, if_neg hne, List.drop_left]
  rw [scan_dec_cons, hskip, hint]
  rfl

/-- A character that starts no number. -/
theorem scan_dec_none {width : Nat} {c : UInt8} (hspace : isspace c = false)
    (hdigit : isDigit 10 c = false) (hm : c ≠ 45) (hp : c ≠ 43) :
    scan (.dec width :: format) (c :: s) = [] := by
  have hsign : ¬ ((c :: s).head? = some 45 ∨ (c :: s).head? = some 43) := by simp [hm, hp]
  have htake : ((c :: s).take width).takeWhile (isDigit 10) = [] := by
    cases width with
    | zero => rfl
    | succ n => simp [hdigit]
  have hint : scanInt width (c :: s) = none := by
    simp only [scanInt, if_neg hsign, htake, if_pos]
  rw [scan_dec_cons, dropWhile_isspace hspace, hint]
  rfl

/-- A number without a sign and an exponent, with its fraction behind a point. -/
theorem scanDouble_eq {whole frac point : Bytes} (hne : whole ≠ [])
    (hwhole : ∀ c ∈ whole, isDigit 10 c) (hfrac : ∀ c ∈ frac, isDigit 10 c)
    (hpoint : point = if frac = [] then [] else 46 :: frac)
    (hstop : ∀ c ∈ s.head?, isDigit 10 c = false ∧ c ≠ 46 ∧ c ≠ 69 ∧ c ≠ 101) :
    scanDouble (whole ++ (point ++ s)) =
      some (Binary64.nearest (digitsVal 10 (whole ++ frac) / 10 ^ frac.length), s) := by
  have hunsigned : ¬ (whole ++ (point ++ s)).head? = some 45 ∧
      ¬ (whole ++ (point ++ s)).head? = some 43 := by
    obtain ⟨c, rest, rfl⟩ := List.exists_cons_of_ne_nil hne
    obtain ⟨-, hminus, hplus⟩ := decimalDigit_ne (hwhole c List.mem_cons_self)
    exact ⟨by simpa using hminus, by simpa using hplus⟩
  have hend : s.takeWhile (isDigit 10) = [] := by
    cases s with
    | nil => rfl
    | cons x s => simp [(hstop x rfl).1]
  have hexp : scanExponent s = some (0, s) := by
    have hletter : ¬ (s.head? = some 69 ∨ s.head? = some 101) := by
      rintro (h | h)
      · exact (hstop _ h).2.2.1 rfl
      · exact (hstop _ h).2.2.2 rfl
    rw [scanExponent, if_neg hletter]
  have htake : (whole ++ (point ++ s)).takeWhile (isDigit 10) = whole := by
    rw [List.takeWhile_append_of_pos hwhole, hpoint]
    split_ifs
    · rw [List.nil_append, hend, List.append_nil]
    · rw [List.cons_append, List.takeWhile_cons_of_neg (by decide), List.append_nil]
  rw [scanDouble]
  simp only [if_neg (not_or.mpr hunsigned), if_neg hunsigned.1, htake, List.drop_left]
  by_cases hnil : frac = []
  · have hnopoint : ¬ s.head? = some 46 := fun h => (hstop _ h).2.1 rfl
    rw [if_pos hnil] at hpoint
    rw [hpoint, List.nil_append, hnil, if_neg hnopoint, if_neg hnopoint, hexp,
      if_neg (not_and_of_not_left _ hne)]
    simp
  · have hfractake : (frac ++ s).takeWhile (isDigit 10) = frac := by
      rw [List.takeWhile_append_of_pos hfrac, hend, List.append_nil]
    have hrest : (46 :: (frac ++ s)).drop (1 + frac.length) = s := by
      rw [Nat.add_comm, List.drop_succ_cons, List.drop_left]
    rw [if_neg hnil] at hpoint
    rw [hpoint, List.cons_append, List.head?_cons, if_pos rfl, if_pos rfl, List.drop_one,
      List.tail_cons, hfractake, hrest, hexp, if_neg (not_and_of_not_left _ hne)]
    simp

theorem scan_double {whole frac point : Bytes} (hne : whole ≠ [])
    (hwhole : ∀ c ∈ whole, isDigit 10 c) (hfrac : ∀ c ∈ frac, isDigit 10 c)
    (hpoint : point = if frac = [] then [] else 46 :: frac)
    (hstop : ∀ c ∈ s.head?, isDigit 10 c = false ∧ c ≠ 46 ∧ c ≠ 69 ∧ c ≠ 101) :
    scan (.double :: format) (whole ++ (point ++ s)) =
      .double (Binary64.nearest (digitsVal 10 (whole ++ frac) / 10 ^ frac.length)) ::
        scan format s := by
  have hskip : (whole ++ (point ++ s)).dropWhile isspace = whole ++ (point ++ s) := by
    obtain ⟨c, rest, rfl⟩ := List.exists_cons_of_ne_nil hne
    exact dropWhile_isspace (decimalDigit_ne (hwhole c List.mem_cons_self)).1
  rw [scan_double_cons, hskip, scanDouble_eq hne hwhole hfrac hpoint hstop]
  rfl

end

end Scanf
