import Mathlib
import Dframework.Library.CLib

/-!
# `dframework::String`

A `String` is the bytes it holds, so its length is theirs and `shift` is `drop`.
What the class does in its own way is defined here: `toChars` answers `NULL`
for the empty string, whether or not it owns memory.
-/

namespace Dframework

open CLib

def toChars (s : Bytes) : Option Bytes :=
  if s = [] then none else some s

@[simp] theorem toChars_nil : toChars [] = none := rfl

theorem toChars_of_ne_nil {s : Bytes} (h : s ≠ []) : toChars s = some s :=
  if_neg h

/-- What `%s` writes for `toChars`. -/
def printed (s : Bytes) : Bytes :=
  if s = [] then bytes "(null)" else cstr s

theorem printed_of_ne_nil {s : Bytes} (h : s ≠ []) : printed s = cstr s :=
  if_neg h

theorem not_mem_printed (s : Bytes) : (0 : UInt8) ∉ printed s := by
  unfold printed
  split_ifs
  · decide
  · exact not_mem_cstr s

@[simp] theorem toChars_getD (s : Bytes) : (toChars s).getD [] = s := by
  unfold toChars
  split <;> simp_all

/-- `String::append` of `len` bytes of the memory `mem`. A length that no allocation can hold
fails and empties the string, and so does one that comes to 0 with that of the string; another
one that leaves the memory has no result. -/
def append (s mem : Bytes) (len : Nat) : Option Bytes :=
  if len ≤ mem.length then some (s ++ mem.take len)
  else if 2 ^ 63 ≤ len ∧ s.length + len + 1 < 2 ^ 64 ∨ s.length + len = 2 ^ 64 then some []
  else none

/-- `String::set` of `len` bytes at a pointer. From `NULL` only nothing can be
taken, and more bytes than the memory has have no result. -/
def setChars (mem : Option Bytes) (len : Nat) : Option Bytes :=
  if len = 0 then some []
  else match mem with
    | none => none
    | some m => if len ≤ m.length then some (m.take len) else none

/-- `String::indexOf`, an `int`. -/
def indexOf (hay needle : Bytes) : Int :=
  match strstr hay (cstr needle) with
  | some i => Int.bmod i (2 ^ 32)
  | none => -1

/-- `String::lastIndexOf` of one byte, an `int`. -/
def lastIndexOf (hay : Bytes) (needle : UInt8) : Int :=
  match strrchr hay needle with
  | some i => Int.bmod i (2 ^ 32)
  | none => -1

/-- `String::isspace`, which `trim` uses. -/
def isBlank (c : UInt8) : Bool :=
  c == 32 || c == 9 || c == 13 || c == 10

def trim (s : Bytes) : Bytes :=
  ((s.dropWhile isBlank).reverse.dropWhile isBlank).reverse

def tolower (c : UInt8) : UInt8 :=
  if 65 ≤ c ∧ c ≤ 90 then c + 32 else c

/-- `String::equals`: `strcasecmp` on the C strings. -/
def equals (s str : Bytes) : Bool :=
  if s = [] then str = [] else (cstr s).map tolower = (cstr str).map tolower

/-- `String::equals` of two strings. -/
def sameName (a b : Bytes) : Bool :=
  a.length = b.length ∧ equals a b

/-- `String::equals` of a pointer. From `NULL` nothing can be compared. -/
def equalsChars (s : Bytes) (str : Option Bytes) : Option Bool :=
  match str with
  | none => if s = [] then some true else none
  | some str => some (equals s str)

/-- A `char` as the number it is compared as. -/
def signedChar (c : UInt8) : Int :=
  if c < 128 then c.toNat else c.toNat - 256

/-- The order behind the comparison operators of `String`: `strncmp_s`, with the
empty string below the others. -/
def compareChars : Bytes → Bytes → Ordering
  | [], [] => .eq
  | [], _ :: _ => .lt
  | _ :: _, [] => .gt
  | x :: xs, y :: ys => (compare (signedChar x) (signedChar y)).then (compareChars xs ys)

theorem signedChar_injective : Function.Injective signedChar := by
  intro c d h
  have hc := c.toNat_lt
  have hd := d.toNat_lt
  apply UInt8.toNat_inj.mp
  simp only [signedChar, UInt8.lt_iff_toNat_lt] at h
  split at h <;> split at h <;> simp at * <;> omega

theorem compareChars_eq (s t : Bytes) :
    compareChars s t = List.compareLex (compareOn signedChar) s t := by
  induction s generalizing t with
  | nil => cases t <;> rfl
  | cons x xs ih =>
    cases t with
    | nil => rfl
    | cons y ys => rw [compareChars, ih, List.compareLex_cons_cons]; rfl

/-- The strings are in a total order. -/
instance : Std.TransCmp compareChars := by
  rw [show compareChars = List.compareLex (compareOn signedChar) from
    funext₂ compareChars_eq]
  infer_instance

instance : Std.LawfulEqCmp compareChars := by
  have : Std.LawfulEqCmp (compareOn signedChar) :=
    ⟨fun h => signedChar_injective (Std.LawfulEqCmp.eq_of_compare h)⟩
  rw [show compareChars = List.compareLex (compareOn signedChar) from
    funext₂ compareChars_eq]
  infer_instance

/-- `Integer::parseInt`: `atoi`, and 0 for `NULL`. -/
def parseInt (s : Option Bytes) : Int :=
  match s with
  | none => 0
  | some m => Int.bmod (strtol 10 m) (2 ^ 32)

/-- `Long::parseLong`: `atol`, and 0 for `NULL`. -/
def parseLong (s : Option Bytes) : Int :=
  match s with
  | none => 0
  | some m => strtol 10 m

theorem append_of_le {s mem : Bytes} {len : Nat} (h : len ≤ mem.length) :
    append s mem len = some (s ++ mem.take len) :=
  if_pos h

/-! ## Indexes -/

variable {c : UInt8} {s a t : Bytes}

theorem indexOf_none (hc : c ≠ 0) (h : c ∉ s) : indexOf s [c] = -1 := by
  rw [indexOf, cstr_of_not_mem (by simpa using hc.symm), strstr_char_none h]

theorem indexOf_char (hc : c ≠ 0) (h0 : (0 : UInt8) ∉ a) (h : c ∉ a) (t : Bytes) :
    indexOf (a ++ c :: t) [c] = Int.bmod a.length (2 ^ 32) := by
  rw [indexOf, cstr_of_not_mem (by simpa using hc.symm), strstr_char h0 h hc]

theorem lastIndexOf_none (h : c ∉ s) : lastIndexOf s c = -1 := by
  rw [lastIndexOf, strrchr_none h]

theorem lastIndexOf_char (h0 : (0 : UInt8) ∉ a ++ c :: t) (h : c ∉ t) :
    lastIndexOf (a ++ c :: t) c = Int.bmod a.length (2 ^ 32) := by
  rw [lastIndexOf, strrchr_append h0 h]

/-- An index that comes out as that of nothing. -/
def Overlooked (n : Nat) : Prop :=
  n % 2 ^ 32 = 2 ^ 32 - 1

theorem overlooked_iff {n : Nat} : Overlooked n ↔ Int.bmod n (2 ^ 32) = -1 := by
  rw [Overlooked, Int.bmod_def]
  split_ifs <;> omega

/-- Another one that an `int` cannot hold is in front of the text, or too small by `2 ^ 32` at
least. -/
theorem bmod_of_le {n : Nat} (hne : ¬ Overlooked n) (h : 2 ^ 31 ≤ n) :
    Int.bmod n (2 ^ 32) < -1 ∨
      ∃ i : Nat, Int.bmod n (2 ^ 32) = i ∧ i < 2 ^ 31 ∧ i + 2 ^ 32 ≤ n := by
  rw [overlooked_iff] at hne
  rcases lt_or_ge (Int.bmod n (2 ^ 32)) (-1) with hlt | hge
  · exact .inl hlt
  · refine .inr ⟨(Int.bmod n (2 ^ 32)).toNat, by omega, ?_⟩
    rw [Int.bmod_def] at hge hne ⊢
    split_ifs at hge hne ⊢ <;> constructor <;> omega

end Dframework
