import Mathlib
import Dframework.Base.Retval
import Dframework.Lang.String
import Dframework.Library.Pattern

/-!
# `Regexp`

The expressions of the source are lists of pieces that are matched from left to
right at the start of the value, and their groups are intervals of pieces. A match
is what `pcre2_match` leaves in the offset vector.
-/

namespace Dframework

open CLib Pattern

/-- A compiled expression: its pieces, and the interval of pieces of each group. -/
structure Regexp where
  pieces : List (Piece UInt8)
  groups : List (Nat × Nat)

/-- A successful match: `m_sValue`, and the offset vector as the lengths the pieces
take. -/
structure Match where
  value : Bytes
  lens : List Nat
  groups : List (Nat × Nat)

/-- `Regexp::regexp` of a `const char *`. -/
def Regexp.regexp (e : Regexp) (value : Option Bytes) : Except Ret Match :=
  match value.map cstr with
  | none | some [] => .error ⟨.eInval, "Value string is empty."⟩
  | some v =>
    match matchPieces e.pieces v with
    | none => .error ⟨.eRegexpNotMatch, "No match"⟩
    | some ls => .ok ⟨v, ls, (0, e.pieces.length) :: e.groups⟩

/-- `m_iOffset[2 * i]`. -/
def Match.start (m : Match) (i : Nat) : Option Nat :=
  (m.groups[i]?).map fun g => (m.lens.take g.1).sum

/-- `m_iOffset[2 * i + 1]`. -/
def Match.stop (m : Match) (i : Nat) : Option Nat :=
  (m.groups[i]?).map fun g => (m.lens.take g.2).sum

/-- `Regexp::getOffset`: an entry of the offset vector, which is told from a missing
one with the number of groups. -/
def Match.getOffset (m : Match) (index : Nat) : Option Nat :=
  if index < m.groups.length then
    if index % 2 = 0 then m.start (index / 2) else m.stop (index / 2)
  else none

/-- `Regexp::getMatch`: the memory at the start of group `i`. It is compared with
the number of the group whether the value is long enough. -/
def Match.getMatch (m : Match) (i : Nat) : Option Bytes :=
  if 2 * i < m.value.length then (m.start i).map fun o => m.value.drop o else none

/-- `Regexp::getMatchLength` of a group of the expression. -/
def Match.getMatchLength (m : Match) (i : Nat) : Nat :=
  ((m.groups[i]?).map fun g => ((m.lens.take g.2).drop g.1).sum).getD 0

/-- `Regexp::getMatchString`, and `String::set` of a match and its length. -/
def Match.getMatchString (m : Match) (i : Nat) : Option Bytes :=
  setChars (m.getMatch i) (m.getMatchLength i)

/-- A byte of an expression that stands for itself. -/
def lit (c : UInt8) : Piece UInt8 := one (· == c)

/-- `[0-9]`. -/
def isDigitChar (c : UInt8) : Bool := 48 ≤ c && c ≤ 57

/-- `[a-zA-Z0-9]`. -/
def isAlnum (c : UInt8) : Bool :=
  isDigitChar c || (65 ≤ c && c ≤ 90) || (97 ≤ c && c ≤ 122)

theorem regexp_cstr (e : Regexp) (v : Bytes) : e.regexp (some v) = e.regexp (some (cstr v)) := by
  rw [Regexp.regexp, Regexp.regexp, Option.map_some, Option.map_some, cstr_cstr]

/-- A text that the pieces match, as a C string that is not empty. -/
theorem regexp_of_match {e : Regexp} {v : Bytes} {ls : List Nat} (h0 : (0 : UInt8) ∉ v)
    (hne : v ≠ []) (h : matchPieces e.pieces v = some ls) :
    e.regexp (toChars v) = .ok ⟨v, ls, (0, e.pieces.length) :: e.groups⟩ := by
  obtain ⟨x, xs, rfl⟩ := List.exists_cons_of_ne_nil hne
  rw [Regexp.regexp, toChars_of_ne_nil hne, Option.map_some, cstr_of_not_mem h0]
  simp only [h]

/-- A text that the pieces do not match. -/
theorem regexp_of_no_match {e : Regexp} {v : Bytes} (h0 : (0 : UInt8) ∉ v)
    (h : matchPieces e.pieces v = none) : ∃ r, e.regexp (toChars v) = .error r := by
  rcases eq_or_ne v [] with rfl | hne
  · exact ⟨_, rfl⟩
  obtain ⟨x, xs, rfl⟩ := List.exists_cons_of_ne_nil hne
  rw [Regexp.regexp, toChars_of_ne_nil hne, Option.map_some, cstr_of_not_mem h0]
  simp only [h]
  exact ⟨_, rfl⟩

@[simp] theorem matchPieces_lit (c : UInt8) (ps : List (Piece UInt8)) (s : Bytes) :
    matchPieces (lit c :: ps) (c :: s) = (matchPieces ps s).map (1 :: ·) :=
  matchPieces_one (beq_self_eq_true c)

theorem matchPieces_lit_none {c : UInt8} {ps : List (Piece UInt8)} {s : Bytes}
    (h : ∀ x ∈ s.head?, x ≠ c) : matchPieces (lit c :: ps) s = none :=
  matchPieces_one_none fun x hx => beq_eq_false_iff_ne.mpr (h x hx)

/-- The text of a group, when the value is long enough for `getMatch`. -/
theorem getMatchString_eq {m : Match} {i : Nat} {g : Nat × Nat} {a b c : Bytes}
    (hg : m.groups[i]? = some g) (hval : m.value = a ++ b ++ c)
    (ha : (m.lens.take g.1).sum = a.length)
    (hb : ((m.lens.take g.2).drop g.1).sum = b.length) (hlong : 2 * i < m.value.length) :
    m.getMatchString i = some b := by
  have hmatch : m.getMatch i = some (b ++ c) := by
    rw [Match.getMatch, if_pos hlong, Match.start, hg, Option.map_some, Option.map_some, ha, hval,
      List.append_assoc, List.drop_left]
  have hlen : m.getMatchLength i = b.length := by
    rw [Match.getMatchLength, hg, Option.map_some, hb, Option.getD_some]
  rw [Match.getMatchString, hmatch, hlen, setChars]
  split
  next h => rw [List.length_eq_zero_iff.mp h]
  next => simp

/-- A group inside the value has a text, when the value is long enough for `getMatch`. -/
theorem getMatchString_isSome {m : Match} {i : Nat} {g : Nat × Nat} (hg : m.groups[i]? = some g)
    (hle : g.1 ≤ g.2) (hsum : m.lens.sum ≤ m.value.length) (hlong : 2 * i < m.value.length) :
    ∃ s, m.getMatchString i = some s := by
  have hstop : (m.lens.take g.1).sum + ((m.lens.take g.2).drop g.1).sum = (m.lens.take g.2).sum := by
    have hsplit := List.sum_take_add_sum_drop (m.lens.take g.2) g.1
    rwa [List.take_take, min_eq_left hle] at hsplit
  have hall := List.sum_take_add_sum_drop m.lens g.2
  rw [Match.getMatchString, Match.getMatch, if_pos hlong, Match.start, Match.getMatchLength, hg,
    Option.map_some, Option.map_some, Option.map_some, Option.getD_some, setChars]
  split
  · exact ⟨_, rfl⟩
  · exact ⟨_, if_pos (by rw [List.length_drop]; omega)⟩

/-- Nothing is taken from `NULL`: the group is empty, or the value is long enough for `getMatch`. -/
def Match.Legible (m : Match) (i : Nat) : Prop :=
  2 * i < m.value.length ∨ m.getMatchLength i = 0

theorem getMatchString_isSome_iff {e : Regexp} {v : Option Bytes} {m : Match}
    (hgroups : ∀ g ∈ e.groups, g.1 ≤ g.2) (h : e.regexp v = .ok m) (i : Nat) :
    (m.getMatchString i).isSome ↔ m.Legible i := by
  rw [Regexp.regexp] at h
  split at h
  · cases h
  · cases h
  next w _ _ =>
    split at h
    · cases h
    next ls hls =>
      obtain rfl := Except.ok.inj h
      set m : Match := ⟨w, ls, (0, e.pieces.length) :: e.groups⟩ with hm
      by_cases hempty : m.getMatchLength i = 0
      · simp [Match.Legible, Match.getMatchString, setChars.eq_def, hempty]
      rw [Match.Legible, or_iff_left hempty]
      constructor
      · intro hsome
        by_contra hshort
        simp [Match.getMatchString, setChars.eq_def, hempty, Match.getMatch, hshort] at hsome
      · intro hlong
        obtain ⟨g, hg⟩ : ∃ g, m.groups[i]? = some g := by
          refine Option.ne_none_iff_exists'.mp fun hnone => hempty ?_
          rw [Match.getMatchLength, hnone]
          rfl
        have hle : g.1 ≤ g.2 := by
          rcases List.mem_cons.mp (List.mem_of_getElem? hg) with rfl | hmem
          · exact Nat.zero_le _
          · exact hgroups g hmem
        have hsum : ls.sum ≤ w.length :=
          matchPieces_sum_le (s := w) (t := []) (by simp) (by rw [List.append_nil]; exact hls)
        obtain ⟨s, hs⟩ := getMatchString_isSome hg hle hsum hlong
        rw [hs]
        rfl

end Dframework
