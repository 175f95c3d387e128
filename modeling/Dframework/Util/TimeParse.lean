import Mathlib
import Dframework.Base.Retval
import Dframework.Library.Scanf
import Dframework.Util.Time

/-!
# Parsing dates

`Time::parse` tries three formats of `sscanf`, one after the other. The loop over the names of the
months stops behind the last one when it finds none, and that is the month `mktime` gets. `asctime`
hands the year over as it stands in the text, where `mktime` counts from 1900.

Results:
1. `parse_rfc1123`, `parse_rfc1036`, `parse_asctime`: what a text of each format is read as.
2. `parse_date_iff`: the formats whose dates are read right, and the names that are refused.
-/

namespace Dframework

open CLib Calendar HttpDate Scanf

/-- `mktime` on a machine in Greenwich. A month past December is one of the next year. -/
def mktime (tm : Tm) : Int :=
  86400 * (Date.number ⟨1900 + tm.year + tm.mon / 12, tm.mon % 12, 1⟩ + tm.mday - 1) +
    3600 * tm.hour + 60 * tm.min + tm.sec

namespace Time

def RFC1123_FORMAT : List Directive :=
  parseFormat none (bytes "%3s, %02d %3s %4d %02d:%02d:%02d GMT")

def RFC1036_FORMAT : List Directive :=
  parseFormat none (bytes "%10s %2d-%3s-%2d %2d:%2d:%2d GMT")

def ASCTIME_FORMAT : List Directive :=
  parseFormat none (bytes "%3s %3s %2d %2d:%2d:%2d %4d")

/-- The loop over `SHORT_MONTHS`. -/
def monthIndex (mon : Bytes) : Int :=
  SHORT_MONTHS.findIdx (· == mon)

/-- `mktime`, and -1 is an error. `GMTOFF` is 0. -/
def finish (tm : Tm) : Except Ret Int :=
  let result := mktime tm
  if result = -1 then .error { value := .error } else .ok result

def rfc1123 (date : Bytes) : Except Ret Int :=
  match scan RFC1123_FORMAT (cstr date) with
  | [.str _, .dec mday, .str mon, .dec year, .dec hour, .dec min, .dec sec] =>
    finish { sec, min, hour, mday, mon := monthIndex mon, year := year - 1900 }
  | _ => .error { value := .eInval }

def rfc1036 (date : Bytes) : Except Ret Int :=
  match scan RFC1036_FORMAT (cstr date) with
  | [.str _, .dec mday, .str mon, .dec year, .dec hour, .dec min, .dec sec] =>
    -- a year before 50 is one of the next century
    finish
      { sec, min, hour, mday, mon := monthIndex mon, year := if year < 50 then year + 100 else year }
  | _ => .error { value := .eInval }

def asctime (date : Bytes) : Except Ret Int :=
  match scan ASCTIME_FORMAT (cstr date) with
  | [.str _, .str mon, .dec mday, .dec hour, .dec min, .dec sec, .dec year] =>
    finish { sec, min, hour, mday, mon := monthIndex mon, year }
  | _ => .error { value := .eInval }

def parse (date : Bytes) : Except Ret Int :=
  match rfc1123 date with
  | .ok t => .ok t
  | .error _ =>
    match rfc1036 date with
    | .ok t => .ok t
    | .error _ => asctime date

end Time

/-! ## Words and numbers of a date -/

def isalpha (c : UInt8) : Bool :=
  (65 ≤ c && c ≤ 90) || (97 ≤ c && c ≤ 122)

/-- A name, which is made of letters. -/
def IsWord (name : Bytes) : Prop :=
  name ≠ [] ∧ ∀ c ∈ name, isalpha c

theorem isalpha_spec {c : UInt8} (h : isalpha c) :
    isspace c = false ∧ isDigit 10 c = false ∧ c ≠ 0 ∧ c ≠ 44 ∧ c ≠ 45 ∧ c ≠ 43 := by
  have hrange : (65 ≤ c.toNat ∧ c.toNat ≤ 90) ∨ (97 ≤ c.toNat ∧ c.toNat ≤ 122) := by
    simpa [isalpha, UInt8.le_iff_toNat_le] using h
  have hspace : isspace c = false := by
    simp [isspace, UInt8.le_iff_toNat_le, ← UInt8.toNat_inj]
    omega
  have hval : digitVal c =
      if 97 ≤ c.toNat ∧ c.toNat ≤ 122 then some (c.toNat - 87) else some (c.toNat - 55) := by
    simp only [digitVal, UInt8.le_iff_toNat_le]
    simp
    split_ifs <;> (try rfl) <;> omega
  have hdigit : isDigit 10 c = false := by
    rw [isDigit, hval]
    split_ifs <;> simp <;> omega
  refine ⟨hspace, hdigit, ?_, ?_, ?_, ?_⟩ <;> rintro rfl <;> simp at hrange

section

variable {format : List Directive} {s : Bytes} {n t : Int}

theorem scan_two (h0 : 0 ≤ n) (h1 : n ≤ 99) :
    scan (.dec 2 :: format) (two n ++ s) = .dec n :: scan format s := by
  have hdigits : ∀ c ∈ two n, isDigit 10 c := by
    intro c hc
    simp only [two, List.mem_cons, List.not_mem_nil, or_false] at hc
    rcases hc with rfl | rfl <;> exact isDigit_digit (by omega) (by omega)
  have hne : two n ≠ [] := List.cons_ne_nil _ _
  rw [scan_dec hne hdigits (le_refl 2) (Or.inl rfl), digitsVal_digit_two h0 h1]

theorem scan_four (h0 : 0 ≤ n) (h1 : n ≤ 9999) :
    scan (.dec 4 :: format) (four n ++ s) = .dec n :: scan format s := by
  have hdigits : ∀ c ∈ four n, isDigit 10 c := by
    intro c hc
    simp only [four, List.mem_cons, List.not_mem_nil, or_false] at hc
    rcases hc with rfl | rfl | rfl | rfl <;> exact isDigit_digit (by omega) (by omega)
  have hne : four n ≠ [] := List.cons_ne_nil _ _
  rw [scan_dec hne hdigits (le_refl 4) (Or.inl rfl), digitsVal_digit_four h0 h1]

theorem scan_clock :
    scan (.dec 2 :: .lit 58 :: .dec 2 :: .lit 58 :: .dec 2 :: format) (clock t ++ s) =
      .dec (hourOf t) :: .dec (minuteOf t) :: .dec (secondOf t) :: scan format s := by
  obtain ⟨hh0, hh1, hm0, hm1, hs0, hs1⟩ := clock_bounds t
  have hsplit : clock t ++ s =
      two (hourOf t) ++ (58 :: (two (minuteOf t) ++ (58 :: (two (secondOf t) ++ s)))) := by
    simp [clock]
  rw [hsplit, scan_two hh0 (by omega), scan_lit, scan_two hm0 (by omega), scan_lit,
    scan_two hs0 (by omega)]

end

/-! ## Names -/

section

variable {format : List Directive} {name s : Bytes} (hw : IsWord name)

include hw

theorem IsWord.nonblank : ∀ c ∈ name, isspace c = false :=
  fun c hc => (isalpha_spec (hw.2 c hc)).1

theorem IsWord.not_mem_zero : (0 : UInt8) ∉ name :=
  fun hc => (isalpha_spec (hw.2 0 hc)).2.2.1 rfl

/-- A name that is too long for its field leaves a letter behind. -/
theorem scan_name_long {width : Nat} (hpos : 0 < width) (hlen : width < name.length) :
    ∃ c rest, isalpha c ∧
      scan (.str width :: format) (name ++ s) = .str (name.take width) :: scan format (c :: rest) := by
  obtain ⟨c, rest, hdrop⟩ : ∃ c rest, name.drop width = c :: rest :=
    List.exists_cons_of_ne_nil (by simp; omega)
  have hc : c ∈ name := List.mem_of_mem_drop (hdrop ▸ List.mem_cons_self)
  refine ⟨c, rest ++ s, hw.2 c hc, ?_⟩
  have hsplit : name ++ s = name.take width ++ (c :: rest ++ s) := by
    rw [← hdrop, ← List.append_assoc, List.take_append_drop]
  have htake : (name.take width).length = width := by
    rw [List.length_take]
    omega
  rw [hsplit]
  refine scan_full ?_ (fun c hc => hw.nonblank c (List.mem_of_mem_take hc)) htake
  intro h
  rw [h] at htake
  exact absurd htake hpos.ne

end

/-- A letter starts no number. -/
theorem scan_dec_letter {format : List Directive} {c : UInt8} (h : isalpha c) (width : Nat)
    (s : Bytes) : scan (.dec width :: format) (c :: s) = [] := by
  obtain ⟨hspace, hdigit, -, -, hm, hp⟩ := isalpha_spec h
  exact scan_dec_none hspace hdigit hm hp

/-- What the formats see of the name of a day. -/
theorem dayNames_spec {name : Bytes} (h : name ∈ dayNames) :
    IsWord name ∧ IsWord (name.take 3) ∧ (name.take 3).length = 3 ∧ 6 ≤ name.length ∧
      name.length ≤ 9 := by
  revert name
  rw [dayNames_eq]
  simp [IsWord, isalpha]

/-- A name has its first three letters, three more, and then letters or none. -/
theorem dayNames_parts {name : Bytes} (h : name ∈ dayNames) :
    ∃ a b c : Bytes, name = a ++ (b ++ c) ∧ a = name.take 3 ∧ b.length = 3 ∧ IsWord b ∧
      ∀ x ∈ c, isalpha x := by
  obtain ⟨hw, -, -, hlen, -⟩ := dayNames_spec h
  have hletters : ∀ n, ∀ x ∈ name.drop n, isalpha x := fun n x hx => hw.2 x (List.mem_of_mem_drop hx)
  have hthree : ((name.drop 3).take 3).length = 3 := by
    rw [List.length_take, List.length_drop]
    omega
  refine ⟨name.take 3, (name.drop 3).take 3, (name.drop 3).drop 3, ?_, rfl, hthree,
    ⟨fun h0 => ?_, fun x hx => hletters 3 x (List.mem_of_mem_take hx)⟩,
    fun x hx => hletters 3 x (List.mem_of_mem_drop hx)⟩
  · rw [List.take_append_drop, List.take_append_drop]
  · rw [h0] at hthree
    exact absurd hthree (by decide)

/-- The name of a day with the comma behind it. -/
theorem dayNames_comma {name : Bytes} (h : name ∈ dayNames) :
    name ++ [44] ≠ [] ∧ (∀ c ∈ name ++ [44], isspace c = false) ∧ (name ++ [44]).length ≤ 10 := by
  obtain ⟨hw, -, -, -, hlen⟩ := dayNames_spec h
  refine ⟨by simp, fun c hc => ?_, by simp; omega⟩
  rcases List.mem_append.mp hc with hc | hc
  · exact hw.nonblank c hc
  · rw [List.mem_singleton.mp hc]
    rfl

/-! ## The formats on the texts -/

theorem RFC1123_FORMAT_eq : Time.RFC1123_FORMAT =
    [.str 3, .lit 44, .space, .dec 2, .space, .str 3, .space, .dec 4, .space, .dec 2, .lit 58,
      .dec 2, .lit 58, .dec 2, .space, .lit 71, .lit 77, .lit 84] := by
  decide

theorem RFC1036_FORMAT_eq : Time.RFC1036_FORMAT =
    [.str 10, .space, .dec 2, .lit 45, .str 3, .lit 45, .dec 2, .space, .dec 2, .lit 58, .dec 2,
      .lit 58, .dec 2, .space, .lit 71, .lit 77, .lit 84] := by
  decide

theorem ASCTIME_FORMAT_eq : Time.ASCTIME_FORMAT =
    [.str 3, .space, .str 3, .space, .dec 2, .space, .dec 2, .lit 58, .dec 2, .lit 58, .dec 2,
      .space, .dec 4] := by
  decide

/-- The end of a format makes no conversion. -/
theorem scan_gmt (s : Bytes) : scan [.space, .lit 71, .lit 77, .lit 84] s = [] := by
  simp only [scan]
  split_ifs <;> rfl

section

variable {w name : Bytes} (rest : Bytes) {day year t : Int}

section

variable (hw : w ∈ dayNames) (hname : IsWord name) (hd : 1 ≤ day ∧ day ≤ 31)

include hw hname hd

/-- `Sun, 06 Nov 1994 08:49:37 GMT` in its own format. -/
theorem scan_rfc1123 (hlen : name.length ≤ 3) (hy : 0 ≤ year ∧ year ≤ 9999) :
    scan Time.RFC1123_FORMAT (w.take 3 ++ (44 :: 32 :: (two day ++ (32 :: (name ++
        (32 :: (four year ++ (32 :: (clock t ++ rest))))))))) =
      [.str (w.take 3), .dec day, .str name, .dec year, .dec (hourOf t), .dec (minuteOf t),
        .dec (secondOf t)] := by
  obtain ⟨-, hw3, hlen3, -⟩ := dayNames_spec hw
  rw [RFC1123_FORMAT_eq, scan_full hw3.1 hw3.nonblank hlen3, scan_lit,
    scan_space_dec, scan_dec_blank, scan_two (by omega) (by omega), scan_space_str, scan_str_blank,
    scan_word hname.1 hname.nonblank hlen, scan_space_dec, scan_dec_blank, scan_four hy.1 hy.2, scan_space_dec,
    scan_dec_blank, scan_clock, scan_gmt]

/-- A longer name of the month stops the scan. -/
theorem scan_rfc1123_long (hlen : 3 < name.length) :
    scan Time.RFC1123_FORMAT (w.take 3 ++ (44 :: 32 :: (two day ++ (32 :: (name ++ rest))))) =
      [.str (w.take 3), .dec day, .str (name.take 3)] := by
  obtain ⟨-, hw3, hlen3, -⟩ := dayNames_spec hw
  obtain ⟨c, more, hc, hlong⟩ := scan_name_long (s := rest) hname (by decide) hlen
  rw [RFC1123_FORMAT_eq, scan_full hw3.1 hw3.nonblank hlen3, scan_lit,
    scan_space_dec, scan_dec_blank, scan_two (by omega) (by omega), scan_space_str, scan_str_blank,
    hlong, scan_space_dec, scan_dec_letter hc]

omit hname in
/-- The other formats stop at the blank behind the day, and at the name. -/
theorem scan_rfc1036_of_rfc1123 :
    scan Time.RFC1036_FORMAT (w.take 3 ++ (44 :: 32 :: (two day ++ (32 :: rest)))) =
      [.str (w.take 3 ++ [44]), .dec day] := by
  obtain ⟨-, hw3, hlen3, -⟩ := dayNames_spec hw
  have hword : ∀ c ∈ w.take 3 ++ [44], isspace c = false := by
    intro c hc
    rcases List.mem_append.mp hc with hc | hc
    · exact hw3.nonblank c hc
    · rw [List.mem_singleton.mp hc]
      rfl
  have hsplit : ∀ s : Bytes, w.take 3 ++ (44 :: s) = (w.take 3 ++ [44]) ++ s := by simp
  rw [RFC1036_FORMAT_eq, hsplit, scan_word (by simp) hword (by simp), scan_space_dec, scan_dec_blank,
    scan_two (by omega) (by omega), scan_lit_none (by decide)]

theorem scan_asctime_of_rfc1123 :
    scan Time.ASCTIME_FORMAT (w.take 3 ++ (44 :: 32 :: (two day ++ (32 :: (name ++ rest))))) =
      [.str (w.take 3), .str [44], .dec day] := by
  obtain ⟨-, hw3, hlen3, -⟩ := dayNames_spec hw
  obtain ⟨c, more, rfl⟩ := List.exists_cons_of_ne_nil hname.1
  have hcomma : ∀ s : Bytes, 44 :: 32 :: s = [44] ++ (32 :: s) := fun _ => rfl
  have hblank : ∀ c ∈ ([44] : Bytes), isspace c = false := fun c hc =>
    List.mem_singleton.mp hc ▸ rfl
  rw [ASCTIME_FORMAT_eq, scan_full hw3.1 hw3.nonblank hlen3, scan_space_str,
    hcomma, scan_word (by simp) hblank (by simp), scan_space_dec, scan_dec_blank,
    scan_two (by omega) (by omega), scan_space_dec, scan_dec_blank, List.cons_append,
    scan_dec_letter (hname.2 c List.mem_cons_self)]

/-- `Sunday, 06-Nov-94 08:49:37 GMT` in its own format. -/
theorem scan_rfc1036 (hlen : name.length = 3) (hy : 0 ≤ year ∧ year ≤ 99) :
    scan Time.RFC1036_FORMAT (w ++ (44 :: 32 :: (two day ++ (45 :: (name ++ (45 :: (two year ++
        (32 :: (clock t ++ rest))))))))) =
      [.str (w ++ [44]), .dec day, .str name, .dec year, .dec (hourOf t), .dec (minuteOf t),
        .dec (secondOf t)] := by
  obtain ⟨hne, hblank, hlen'⟩ := dayNames_comma hw
  have hsplit : ∀ s : Bytes, w ++ (44 :: s) = (w ++ [44]) ++ s := by simp
  rw [RFC1036_FORMAT_eq, hsplit, scan_word hne hblank hlen', scan_space_dec, scan_dec_blank,
    scan_two (by omega) (by omega), scan_lit, scan_full hname.1 hname.nonblank hlen,
    scan_lit, scan_two hy.1 hy.2, scan_space_dec, scan_dec_blank, scan_clock, scan_gmt]

/-- Behind a name of the month with more or fewer letters the format finds no dash. -/
theorem scan_rfc1036_bad (hlen : name.length ≠ 3) (hy : 0 ≤ year ∧ year ≤ 99) :
    ∃ month, scan Time.RFC1036_FORMAT (w ++ (44 :: 32 :: (two day ++ (45 :: (name ++
        (45 :: (two year ++ (32 :: rest)))))))) =
      [.str (w ++ [44]), .dec day, .str month] := by
  obtain ⟨hne, hblank, hlen'⟩ := dayNames_comma hw
  have hsplit : ∀ s : Bytes, w ++ (44 :: s) = (w ++ [44]) ++ s := by simp
  rw [RFC1036_FORMAT_eq, hsplit, scan_word hne hblank hlen', scan_space_dec, scan_dec_blank,
    scan_two (by omega) (by omega), scan_lit]
  rcases Nat.lt_or_gt_of_ne hlen with hshort | hlong
  · -- the field takes the dash, and a digit where the name has one letter
    have htens := isDigit_digit (n := year / 10) (by omega) (by omega)
    have hones := isDigit_digit (n := year % 10) (by omega) (by omega)
    have hpos := List.length_pos_of_ne_nil hname.1
    obtain ⟨c, more, rfl⟩ := List.exists_cons_of_ne_nil hname.1
    have hc : isspace c = false := hname.nonblank c List.mem_cons_self
    match more with
    | [] =>
      refine ⟨[c, 45, digit (year / 10)], ?_⟩
      have hfield : [c] ++ (45 :: (two year ++ (32 :: rest))) =
          [c, 45, digit (year / 10)] ++ (digit (year % 10) :: 32 :: rest) := rfl
      have hword : ∀ x ∈ [c, 45, digit (year / 10)], isspace x = false := by
        simp [hc, (decimalDigit_ne htens).1]
        rfl
      have hfull : [c, 45, digit (year / 10)].length = 3 := rfl
      rw [hfield, scan_full (List.cons_ne_nil _ _) hword hfull,
        scan_lit_none (decimalDigit_ne hones).2.1]
    | [e] =>
      have he : isspace e = false := hname.nonblank e (by simp)
      refine ⟨[c, e, 45], ?_⟩
      have hfield : [c, e] ++ (45 :: (two year ++ (32 :: rest))) =
          [c, e, 45] ++ (digit (year / 10) :: digit (year % 10) :: 32 :: rest) := rfl
      have hword : ∀ x ∈ [c, e, 45], isspace x = false := by
        simp [hc, he]
        rfl
      have hfull : [c, e, 45].length = 3 := rfl
      rw [hfield, scan_full (List.cons_ne_nil _ _) hword hfull,
        scan_lit_none (decimalDigit_ne htens).2.1]
    | _ :: _ :: _ =>
      simp only [List.length_cons] at hshort
      omega
  · obtain ⟨c, more, hc, heq⟩ := scan_name_long (s := 45 :: (two year ++ (32 :: rest))) hname
      (by decide) hlong
    obtain ⟨-, -, -, -, hdash, -⟩ := isalpha_spec hc
    exact ⟨name.take 3, by rw [heq, scan_lit_none hdash]⟩

omit hw hname in
theorem scan_paddedDay {format : List Directive} {s : Bytes} :
    scan (.dec 2 :: format) (paddedDay day ++ 32 :: s) = .dec day :: scan format (32 :: s) := by
  unfold paddedDay
  split_ifs with hten
  · have hdigit := isDigit_digit (n := day) (by omega) (by omega)
    have hval : (digitsVal 10 [digit day] : Int) = day := by
      simp only [digitsVal, List.foldl_cons, List.foldl_nil,
        digitVal_digit (n := day) (by omega) (by omega), Option.getD_some]
      omega
    have hall : ∀ c ∈ [digit day], isDigit 10 c := fun c hc => List.mem_singleton.mp hc ▸ hdigit
    have hsplit : [32, digit day] ++ 32 :: s = 32 :: ([digit day] ++ 32 :: s) := rfl
    have hlen : [digit day].length ≤ 2 := by simp
    have hstop : ∀ c ∈ (32 :: s).head?, isDigit 10 c = false := fun _ hc =>
      Option.some.inj hc ▸ rfl
    rw [hsplit, scan_dec_blank, scan_dec (List.cons_ne_nil _ _) hall hlen (Or.inr hstop), hval]
  · exact scan_two (by omega) (by omega)

/-- `Sun Nov  6 08:49:37 1994` in its own format. -/
theorem scan_asctime (hlen : name.length ≤ 3) (hy : 0 ≤ year ∧ year ≤ 9999) :
    scan Time.ASCTIME_FORMAT (w.take 3 ++ (32 :: (name ++ (32 :: (paddedDay day ++
        (32 :: (clock t ++ (32 :: (four year ++ [])))))))))  =
      [.str (w.take 3), .str name, .dec day, .dec (hourOf t), .dec (minuteOf t),
        .dec (secondOf t), .dec year] := by
  obtain ⟨-, hw3, hlen3, -⟩ := dayNames_spec hw
  rw [ASCTIME_FORMAT_eq, scan_word hw3.1 hw3.nonblank hlen3.le, scan_space_str, scan_str_blank,
    scan_word hname.1 hname.nonblank hlen, scan_space_dec, scan_dec_blank, scan_paddedDay hd,
    scan_space_dec, scan_dec_blank, scan_clock, scan_space_dec, scan_dec_blank,
    scan_four hy.1 hy.2, scan]

omit hd in
theorem scan_asctime_long (hlen : 3 < name.length) :
    scan Time.ASCTIME_FORMAT (w.take 3 ++ (32 :: (name ++ rest))) =
      [.str (w.take 3), .str (name.take 3)] := by
  obtain ⟨-, hw3, hlen3, -⟩ := dayNames_spec hw
  obtain ⟨c, more, hc, hlong⟩ := scan_name_long (s := rest) hname (by decide) hlen
  rw [ASCTIME_FORMAT_eq, scan_word hw3.1 hw3.nonblank hlen3.le, scan_space_str, scan_str_blank,
    hlong, scan_space_dec, scan_dec_letter hc]

omit hd in
/-- The other formats stop behind the name of the day. -/
theorem scan_others_of_asctime :
    scan Time.RFC1123_FORMAT (w.take 3 ++ (32 :: (name ++ rest))) = [.str (w.take 3)] ∧
    scan Time.RFC1036_FORMAT (w.take 3 ++ (32 :: (name ++ rest))) = [.str (w.take 3)] := by
  obtain ⟨-, hw3, hlen3, -⟩ := dayNames_spec hw
  obtain ⟨c, more, rfl⟩ := List.exists_cons_of_ne_nil hname.1
  constructor
  · rw [RFC1123_FORMAT_eq, scan_full hw3.1 hw3.nonblank hlen3, scan_lit_none (by decide)]
  · rw [RFC1036_FORMAT_eq, scan_word hw3.1 hw3.nonblank (by omega), scan_space_dec, scan_dec_blank,
      List.cons_append, scan_dec_letter (hname.2 c List.mem_cons_self)]

end

/-- The other formats stop in the name of the day. -/
theorem scan_others_of_rfc1036 (hw : w ∈ dayNames) :
    scan Time.RFC1123_FORMAT (w ++ 44 :: rest) = [.str (w.take 3)] ∧
    ∃ more, scan Time.ASCTIME_FORMAT (w ++ 44 :: rest) = [.str (w.take 3), .str more] := by
  obtain ⟨-, hw3, hlen3, -⟩ := dayNames_spec hw
  obtain ⟨a, b, c, heq, rfl, hlenb, hb, hc⟩ := dayNames_parts hw
  have hsplit : w ++ 44 :: rest = w.take 3 ++ (b ++ (c ++ 44 :: rest)) := by
    conv_lhs => rw [heq]
    simp only [List.append_assoc]
  obtain ⟨x, y, hx, hnext⟩ : ∃ x y, b = x :: y ∧ isalpha x := by
    obtain ⟨x, y, rfl⟩ := List.exists_cons_of_ne_nil hb.1
    exact ⟨x, y, rfl, hb.2 x List.mem_cons_self⟩
  rw [hsplit]
  constructor
  · obtain ⟨-, -, -, hcomma, -⟩ := isalpha_spec hnext
    rw [RFC1123_FORMAT_eq, scan_full hw3.1 hw3.nonblank hlen3, hx, List.cons_append,
      scan_lit_none hcomma]
  · refine ⟨b, ?_⟩
    rw [ASCTIME_FORMAT_eq, scan_full hw3.1 hw3.nonblank hlen3, scan_space_str,
      scan_full hb.1 hb.nonblank hlenb, scan_space_dec]
    cases c with
    | nil => rw [List.nil_append, scan_dec_none rfl rfl (by decide) (by decide)]
    | cons z c => rw [List.cons_append, scan_dec_letter (hc z List.mem_cons_self)]

end

/-! ## The texts -/

section

variable {name : Bytes} {t : Int}

theorem textWith_rfc1123 : Format.rfc1123.textWith name t =
    (dayName (weekday (dayOf t))).take 3 ++ (44 :: 32 :: (two (dateOf (dayOf t)).day ++ (32 ::
      (name ++ (32 :: (four (yearOf t) ++ (32 :: (clock t ++ bytes " GMT")))))))) := by
  simp [Format.textWith, bytes, yearOf]

theorem textWith_rfc850 : Format.rfc850.textWith name t =
    dayName (weekday (dayOf t)) ++ (44 :: 32 :: (two (dateOf (dayOf t)).day ++ (45 ::
      (name ++ (45 :: (two (yearOf t % 100) ++ (32 :: (clock t ++ bytes " GMT")))))))) := by
  simp [Format.textWith, bytes, yearOf]

theorem textWith_asctime : Format.asctime.textWith name t =
    (dayName (weekday (dayOf t))).take 3 ++ (32 :: (name ++ (32 ::
      (paddedDay (dateOf (dayOf t)).day ++ (32 :: (clock t ++ (32 :: (four (yearOf t) ++ [])))))))) := by
  simp [Format.textWith, yearOf]

theorem zero_not_mem_two {n : Int} (h0 : 0 ≤ n) (h1 : n ≤ 99) : (0 : UInt8) ∉ two n := by
  have hten := digit_ne_zero (n := n / 10) (by omega) (by omega)
  have hone := digit_ne_zero (n := n % 10) (by omega) (by omega)
  simp [two, hten.symm, hone.symm]

/-- A text has no NUL in it. -/
theorem cstr_textWith (hname : IsWord name) (h0 : 0 ≤ yearOf t) (h1 : yearOf t ≤ 9999)
    (format : Format) : cstr (format.textWith name t) = format.textWith name t := by
  have hw := (dayNames_spec (dayName_mem (weekday_bounds (dayOf t)).1 (weekday_bounds (dayOf t)).2)).1
  have hday := day_bounds (dayOf t)
  obtain ⟨hh0, hh1, hm0, hm1, hs0, hs1⟩ := clock_bounds t
  have h3 : (0 : UInt8) ∉ (dayName (weekday (dayOf t))).take 3 := fun h =>
    hw.not_mem_zero (List.mem_of_mem_take h)
  have hday2 := zero_not_mem_two (n := (dateOf (dayOf t)).day) (by omega) (by omega)
  have hpad : (0 : UInt8) ∉ paddedDay (dateOf (dayOf t)).day := by
    unfold paddedDay
    split_ifs
    · have := digit_ne_zero (n := (dateOf (dayOf t)).day) (by omega) (by omega)
      simp [this.symm]
    · exact hday2
  have hclock : (0 : UInt8) ∉ clock t := by
    simp [clock, zero_not_mem_two hh0 (by omega), zero_not_mem_two hm0 (by omega),
      zero_not_mem_two hs0 (by omega)]
  have hfour : (0 : UInt8) ∉ four (yearOf t) := by
    have ha := digit_ne_zero (n := yearOf t / 1000) (by omega) (by omega)
    have hb := digit_ne_zero (n := yearOf t % 1000 / 100) (by omega) (by omega)
    have hc := digit_ne_zero (n := yearOf t % 100 / 10) (by omega) (by omega)
    have hd := digit_ne_zero (n := yearOf t % 10) (by omega) (by omega)
    simp [four, ha.symm, hb.symm, hc.symm, hd.symm]
  have hshort := zero_not_mem_two (n := yearOf t % 100) (by omega) (by omega)
  refine cstr_of_not_mem ?_
  cases format with
  | rfc1123 =>
    rw [textWith_rfc1123]
    simp [h3, hday2, hname.not_mem_zero, hfour, hclock, bytes]
  | rfc850 =>
    rw [textWith_rfc850]
    simp [hw.not_mem_zero, hday2, hname.not_mem_zero, hshort, hclock, bytes]
  | asctime =>
    rw [textWith_asctime]
    simp [h3, hpad, hname.not_mem_zero, hfour, hclock]

end

/-! ## What the texts are read as -/

/-- The parts of an instant, with a month and a year of their own. -/
def dateTm (t mon year : Int) : Tm :=
  { sec := secondOf t, min := minuteOf t, hour := hourOf t, mday := (dateOf (dayOf t)).day, mon, year }

/-- The number of a date in a month that starts with the first. -/
theorem number_first (d : Date) :
    d.number = Date.number ⟨d.year, d.month, 1⟩ + d.day - 1 := by
  simp only [Date.number, Date.marchYear]
  omega

/-- The parts of an instant make it up again. -/
theorem mktime_date (t : Int) :
    mktime (dateTm t (dateOf (dayOf t)).month (yearOf t - 1900)) = t := by
  obtain ⟨hm0, hm1⟩ := month_bounds (dayOf t)
  have hday := number_dateOf (dayOf t)
  rw [number_first] at hday
  have hyear : 1900 + (yearOf t - 1900) + (dateOf (dayOf t)).month / 12 =
      (dateOf (dayOf t)).year := by
    unfold yearOf
    omega
  have hmonth : (dateOf (dayOf t)).month % 12 = (dateOf (dayOf t)).month := by omega
  have hclock := clock_eq t
  simp only [mktime, dateTm, hyear, hmonth]
  omega

/-- Nothing in the years from 1970 on lies in front of 1970. -/
theorem mktime_nonneg {t mon year : Int} (hm : 0 ≤ mon) (hy : 70 ≤ year) :
    0 ≤ mktime (dateTm t mon year) := by
  obtain ⟨hd, -⟩ := day_bounds (dayOf t)
  obtain ⟨hh, -, hmin, -, hs, -⟩ := clock_bounds t
  have hvalid : Date.Valid ⟨1900 + year + mon / 12, mon % 12, 1⟩ := by
    refine ⟨by simp only; omega, by simp only; omega, le_refl 1, ?_⟩
    show 1 ≤ monthLength _ _
    unfold monthLength
    split_ifs <;> decide
  have hnumber : 0 ≤ Date.number ⟨1900 + year + mon / 12, mon % 12, 1⟩ :=
    calc
      0 = newYear 1970 := by decide
      _ ≤ newYear (1900 + year + mon / 12) := newYear_mono (by omega)
      _ ≤ _ := (number_in_year hvalid).1
  simp only [mktime, dateTm]
  omega

theorem finish_date {t mon year : Int} (hm : 0 ≤ mon) (hy : 70 ≤ year) :
    Time.finish (dateTm t mon year) = .ok (mktime (dateTm t mon year)) := by
  have := mktime_nonneg (t := t) hm hy
  exact if_neg (by omega)

theorem monthIndex_nonneg (name : Bytes) : 0 ≤ Time.monthIndex name :=
  Int.natCast_nonneg _

theorem monthIndex_name {month : Int} (h0 : 0 ≤ month) (h1 : month ≤ 11) :
    Time.monthIndex (monthName month) = month := by
  interval_cases month <;> rfl

/-- A name that is none of the twelve has the index behind them. -/
theorem monthIndex_unknown {name : Bytes} (h : name ∉ monthNames) : Time.monthIndex name = 12 := by
  have hindex : Time.SHORT_MONTHS.findIdx (· == name) = Time.SHORT_MONTHS.length := by
    rw [List.findIdx_eq_length]
    intro x hx
    rw [beq_eq_false_iff_ne]
    rintro rfl
    exact h hx
  rw [Time.monthIndex, hindex]
  rfl

section

variable {name : Bytes} {t : Int} (hname : IsWord name)

include hname

theorem parse_rfc1123 (hlen : name.length ≤ 3) (h0 : 1970 ≤ yearOf t) (h1 : yearOf t ≤ 9999) :
    Time.parse (Format.rfc1123.textWith name t) =
      .ok (mktime (dateTm t (Time.monthIndex name) (yearOf t - 1900))) := by
  have hw := dayName_mem (weekday_bounds (dayOf t)).1 (weekday_bounds (dayOf t)).2
  have hscan := @scan_rfc1123 _ _ (bytes " GMT") _ _ t hw hname (day_bounds (dayOf t)) hlen
    ⟨(by omega : 0 ≤ yearOf t), h1⟩
  rw [← textWith_rfc1123] at hscan
  have hown : Time.rfc1123 (Format.rfc1123.textWith name t) =
      .ok (mktime (dateTm t (Time.monthIndex name) (yearOf t - 1900))) := by
    unfold Time.rfc1123
    rw [cstr_textWith hname (by omega) h1, hscan]
    exact finish_date (monthIndex_nonneg name) (by omega)
  unfold Time.parse
  rw [hown]

theorem parse_rfc1123_long (hlen : 3 < name.length) (h0 : 1970 ≤ yearOf t) (h1 : yearOf t ≤ 9999) :
    Time.parse (Format.rfc1123.textWith name t) = .error { value := .eInval } := by
  have hw := dayName_mem (weekday_bounds (dayOf t)).1 (weekday_bounds (dayOf t)).2
  have hd := day_bounds (dayOf t)
  have hcstr := cstr_textWith hname (by omega : 0 ≤ yearOf t) h1 .rfc1123
  unfold Time.parse Time.rfc1123 Time.rfc1036 Time.asctime
  rw [hcstr, textWith_rfc1123, scan_rfc1123_long _ hw hname hd hlen,
    scan_rfc1036_of_rfc1123 _ hw hd, scan_asctime_of_rfc1123 _ hw hname hd]

theorem parse_rfc1036 (hlen : name.length = 3) (h0 : 1970 ≤ yearOf t) (h1 : yearOf t ≤ 2049) :
    Time.parse (Format.rfc850.textWith name t) =
      .ok (mktime (dateTm t (Time.monthIndex name) (yearOf t - 1900))) := by
  have hw := dayName_mem (weekday_bounds (dayOf t)).1 (weekday_bounds (dayOf t)).2
  have hscan := @scan_rfc1036 _ _ (bytes " GMT") _ _ t hw hname (day_bounds (dayOf t)) hlen
    ⟨(by omega : 0 ≤ yearOf t % 100), (by omega : yearOf t % 100 ≤ 99)⟩
  rw [← textWith_rfc850] at hscan
  have hcstr := cstr_textWith hname (by omega : 0 ≤ yearOf t) (by omega) .rfc850
  obtain ⟨r, hother⟩ : ∃ r, Time.rfc1123 (Format.rfc850.textWith name t) = .error r := by
    unfold Time.rfc1123
    rw [hcstr, textWith_rfc850, (scan_others_of_rfc1036 _ hw).1]
    exact ⟨_, rfl⟩
  have hyear : (if yearOf t % 100 < 50 then yearOf t % 100 + 100 else yearOf t % 100) =
      yearOf t - 1900 := by
    split_ifs <;> omega
  have hown : Time.rfc1036 (Format.rfc850.textWith name t) =
      .ok (mktime (dateTm t (Time.monthIndex name) (yearOf t - 1900))) := by
    unfold Time.rfc1036
    rw [hcstr, hscan]
    simp only [hyear]
    exact finish_date (monthIndex_nonneg name) (by omega)
  unfold Time.parse
  rw [hother, hown]

theorem parse_rfc1036_bad (hlen : name.length ≠ 3) (h0 : 1970 ≤ yearOf t) (h1 : yearOf t ≤ 9999) :
    Time.parse (Format.rfc850.textWith name t) = .error { value := .eInval } := by
  have hw := dayName_mem (weekday_bounds (dayOf t)).1 (weekday_bounds (dayOf t)).2
  have hcstr := cstr_textWith hname (by omega : 0 ≤ yearOf t) h1 .rfc850
  obtain ⟨month, hbad⟩ := scan_rfc1036_bad (clock t ++ bytes " GMT") hw hname
    (day_bounds (dayOf t)) hlen ⟨(by omega : 0 ≤ yearOf t % 100), (by omega : yearOf t % 100 ≤ 99)⟩
  have hothers := scan_others_of_rfc1036 (32 :: (two (dateOf (dayOf t)).day ++ (45 ::
    (name ++ (45 :: (two (yearOf t % 100) ++ (32 :: (clock t ++ bytes " GMT")))))))) hw
  obtain ⟨hfirst, more, hlast⟩ := hothers
  unfold Time.parse Time.rfc1123 Time.rfc1036 Time.asctime
  rw [hcstr, textWith_rfc850, hfirst, hbad,
    hlast]

theorem parse_asctime (hlen : name.length ≤ 3) (h0 : 1970 ≤ yearOf t) (h1 : yearOf t ≤ 9999) :
    Time.parse (Format.asctime.textWith name t) =
      .ok (mktime (dateTm t (Time.monthIndex name) (yearOf t))) := by
  have hw := dayName_mem (weekday_bounds (dayOf t)).1 (weekday_bounds (dayOf t)).2
  have hcstr := cstr_textWith hname (by omega : 0 ≤ yearOf t) h1 .asctime
  obtain ⟨hfirst, hsecond⟩ := scan_others_of_asctime (32 ::
    (paddedDay (dateOf (dayOf t)).day ++ (32 :: (clock t ++ (32 :: (four (yearOf t) ++ []))))))
    hw hname
  have hscan := scan_asctime (t := t) hw hname (day_bounds (dayOf t)) hlen
    ⟨(by omega : 0 ≤ yearOf t), h1⟩
  unfold Time.parse Time.rfc1123 Time.rfc1036 Time.asctime
  rw [hcstr, textWith_asctime, hfirst, hsecond,
    hscan]
  exact finish_date (monthIndex_nonneg name) (by omega)

theorem parse_asctime_long (hlen : 3 < name.length) (h0 : 1970 ≤ yearOf t) (h1 : yearOf t ≤ 9999) :
    Time.parse (Format.asctime.textWith name t) = .error { value := .eInval } := by
  have hw := dayName_mem (weekday_bounds (dayOf t)).1 (weekday_bounds (dayOf t)).2
  have hcstr := cstr_textWith hname (by omega : 0 ≤ yearOf t) h1 .asctime
  obtain ⟨hfirst, hsecond⟩ := scan_others_of_asctime (32 ::
    (paddedDay (dateOf (dayOf t)).day ++ (32 :: (clock t ++ (32 :: (four (yearOf t) ++ []))))))
    hw hname
  unfold Time.parse Time.rfc1123 Time.rfc1036 Time.asctime
  rw [hcstr, textWith_asctime, hfirst, hsecond,
    scan_asctime_long _ hw hname hlen]

end

/-! ## What is read right -/

/-- The years of a format. Two digits reach from 1970 to 2049. -/
def InFormat (t : Int) : Format → Prop
  | .rfc850 => 1970 ≤ yearOf t ∧ yearOf t ≤ 2049
  | _ => 1970 ≤ yearOf t ∧ yearOf t ≤ 9999

/-- The lengths of the names of months that do not fit in a format. -/
def NameMisfits (length : Nat) : Format → Prop
  | .rfc850 => length ≠ 3
  | _ => 3 < length

theorem monthName_word {month : Int} (h0 : 0 ≤ month) (h1 : month ≤ 11) :
    IsWord (monthName month) := by
  have hall : ∀ name ∈ monthNames, IsWord name := by
    rw [monthNames_eq]
    simp [IsWord, isalpha]
  exact hall _ (monthName_mem h0 h1)

/-- A date in the year 1900 years on is another one. -/
theorem mktime_year_ne (t : Int) :
    mktime (dateTm t (dateOf (dayOf t)).month (yearOf t)) ≠ t := by
  have hsame := mktime_date t
  obtain ⟨hm0, hm1⟩ := month_bounds (dayOf t)
  have hdiv : (dateOf (dayOf t)).month / 12 = 0 := by omega
  have hlater : Date.number ⟨1900 + (yearOf t - 1900) + 0, (dateOf (dayOf t)).month % 12, 1⟩ <
      Date.number ⟨1900 + yearOf t + 0, (dateOf (dayOf t)).month % 12, 1⟩ := by
    simp only [Date.number, Date.marchYear]
    split_ifs <;> omega
  simp only [mktime, dateTm, hdiv] at hsame ⊢
  omega

/-- `Time::parse` reads the text of an instant as that instant in the first two formats and never in
the third, and it refuses an unknown name of a month only where the name does not fit in its
field. -/
theorem parse_date_iff {format : Format} {t : Int} (h : InFormat t format) :
    (Time.parse (format.text t) = .ok t ↔ format ≠ .asctime) ∧
    ∀ name, IsWord name → name ∉ monthNames →
      ((∃ r, Time.parse (format.textWith name t) = .error r) ↔
        NameMisfits name.length format) := by
  obtain ⟨hm0, hm1⟩ := month_bounds (dayOf t)
  have hword := monthName_word hm0 hm1
  have hthree := monthName_length hm0 hm1
  have hindex := monthIndex_name hm0 hm1
  cases format with
  | rfc1123 =>
    refine ⟨iff_of_true ?_ (by simp), fun name hname _ => ?_⟩
    · rw [Format.text, parse_rfc1123 hword hthree.le h.1 h.2, hindex, mktime_date]
    · by_cases hlen : 3 < name.length
      · exact iff_of_true ⟨_, parse_rfc1123_long hname hlen h.1 h.2⟩ hlen
      · rw [parse_rfc1123 hname (by omega) h.1 h.2]
        exact iff_of_false (by simp) hlen
  | rfc850 =>
    refine ⟨iff_of_true ?_ (by simp), fun name hname _ => ?_⟩
    · rw [Format.text, parse_rfc1036 hword hthree h.1 h.2, hindex, mktime_date]
    · by_cases hlen : name.length = 3
      · rw [parse_rfc1036 hname hlen h.1 h.2]
        exact iff_of_false (by simp) (by simpa [NameMisfits] using hlen)
      · have hmax : yearOf t ≤ 9999 := h.2.trans (by decide)
        exact iff_of_true ⟨_, parse_rfc1036_bad hname hlen h.1 hmax⟩ hlen
  | asctime =>
    refine ⟨iff_of_false ?_ (by simp), fun name hname _ => ?_⟩
    · rw [Format.text, parse_asctime hword hthree.le h.1 h.2, hindex]
      exact fun heq => mktime_year_ne t (Except.ok.inj heq)
    · by_cases hlen : 3 < name.length
      · exact iff_of_true ⟨_, parse_asctime_long hname hlen h.1 h.2⟩ hlen
      · rw [parse_asctime hname (by omega) h.1 h.2]
        exact iff_of_false (by simp) hlen

theorem parse_date_sunday :
    Time.parse (bytes "Sunday, 06-Nov-94 08:49:37 GMT") = .ok 784111777 := by
  have htext : Format.rfc850.text 784111777 = bytes "Sunday, 06-Nov-94 08:49:37 GMT" := by
    decide
  have hyears : InFormat 784111777 .rfc850 := by
    unfold InFormat
    decide
  rw [← htext]
  exact (parse_date_iff hyears).1.mpr (by decide)

/-- The third text of an instant is read as one nineteen hundred years later, and a date with the
month `Foo` as one in the January of the next year. -/
theorem not_parse_date :
    (Time.parse (Format.asctime.text 784111777) = .ok 60742342177 ∧
      Time.parse (Format.asctime.text 784111777) ≠ .ok 784111777) ∧
    bytes "Foo" ∉ monthNames ∧
    ¬ ∃ r, Time.parse (Format.rfc1123.textWith (bytes "Foo") 784111777) = .error r := by
  have hlater : Time.parse (Format.asctime.text 784111777) = .ok 60742342177 := by decide
  have hfoo : Time.parse (Format.rfc1123.textWith (bytes "Foo") 784111777) = .ok 789382177 := by
    decide
  rw [hlater, hfoo]
  exact ⟨⟨rfl, by decide⟩, by decide, by simp⟩

end Dframework
