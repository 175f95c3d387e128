import Mathlib
import Dframework.Xml.Parser

/-!
# The attributes of a tag

A value stands between quotes, or it ends where a blank or the end of the tag follows. The end
`/>` of a value without quotes is looked for where the attribute begins, and not behind the value.

Results:
1. `TagAttr.WellFormed.parse`: what one round reads, whatever follows the attribute.
2. `TagText.WellFormed.parse`: attributes that are read as they are written.
3. `tagText_read_iff`: when they are.
-/

namespace Dframework

open CLib Pattern

/-- A byte of a name: those of `isNameChar`, the dot, and what is beyond ASCII. -/
def isXmlNameByte (c : UInt8) : Bool :=
  isNameChar c || c == 46 || 128 ≤ c

/-- `>`, or `/>`. -/
def tagEnd (selfClosed : Bool) : Bytes :=
  if selfClosed then [47, 62] else [62]

namespace AttrText

/-- `hasQ` behind a part of a value. -/
def hasQ : Bool → Bytes → Bool
  | q, [] => q
  | true, _ :: val => hasQ false val
  | false, c :: val => hasQ (c == 92) val

end AttrText

/-- An attribute as it is written, with the blanks in front of it. -/
structure TagAttr where
  before : Bytes
  name : Bytes
  left : Bytes
  right : Bytes
  quote : Option UInt8
  value : Bytes

/-- What stands behind the name of a tag. The blanks in front of its end are the `tail`. -/
structure TagText where
  attrs : List TagAttr
  tail : Bytes
  selfClosed : Bool

namespace TagAttr

def head (a : TagAttr) : Bytes :=
  a.before ++ a.name ++ a.left ++ 61 :: a.right

/-- ` name = "value"`, or ` name = value`. -/
def text (a : TagAttr) : Bytes :=
  a.head ++ (a.quote.toList ++ (a.value ++ a.quote.toList))

/-- A byte that the value goes on with. -/
def Goes (startQ : Option UInt8) (c : UInt8) : Prop :=
  match startQ with
  | some q => c ≠ q
  | none => isBlank c = false ∧ c ≠ 62

/-- A value without quotes is not empty, and begins with neither a blank nor a quote. -/
structure WellFormed (a : TagAttr) : Prop where
  before_ne : a.before ≠ []
  before : ∀ c ∈ a.before, isBlank c
  name_ne : a.name ≠ []
  name : ∀ c ∈ a.name, isXmlNameByte c
  left : ∀ c ∈ a.left, isBlank c
  right : ∀ c ∈ a.right, isBlank c
  quote : ∀ q ∈ a.quote, q = 34 ∨ q = 39
  value : ∀ c ∈ a.value, Goes a.quote c
  value_ne : a.quote = none → a.value ≠ []
  value_head : a.quote = none → ∀ c ∈ a.value.head?, isspace c = false ∧ c ≠ 34 ∧ c ≠ 39

def toAttribute (a : TagAttr) : XmlAttribute := ⟨a.name, a.value⟩

/-- The name is made of the bytes that the expressions know, and the last backslash of the value
is not left without a character behind it. -/
structure Plain (a : TagAttr) : Prop where
  name : ∀ c ∈ a.name, isNameChar c
  value : AttrText.hasQ false a.value = false

def texts (attrs : List TagAttr) : Bytes := (attrs.map text).flatten

end TagAttr

namespace TagText

def text (t : TagText) : Bytes := TagAttr.texts t.attrs ++ (t.tail ++ tagEnd t.selfClosed)

/-- A value without quotes that is followed by `/>` ends in front of it. -/
structure WellFormed (t : TagText) : Prop where
  attrs : ∀ a ∈ t.attrs, a.WellFormed
  tail : ∀ c ∈ t.tail, isBlank c
  last : t.tail = [] → t.selfClosed = false → ∀ a ∈ t.attrs.getLast?, a.quote = none →
    a.value.getLast? ≠ some 47

/-- The attributes are read off the front of `buf` as they are written, the tag closes itself when
it is written with `/>`, the loop has come to its end, and no more is taken than there is. -/
structure Read (t : TagText) (buf : Bytes) : Prop where
  attributes : ∃ n ≤ buf.length, parseUnknownAttributes buf buf.length =
    some (some (t.attrs.map TagAttr.toAttribute, t.selfClosed, n))
  ends : ∀ fuel, buf.length ≤ fuel →
    attributesLoop fuel (some buf) buf.length = attributesLoop buf.length (some buf) buf.length

/-- No value without quotes stands directly in front of `/>`. -/
structure Plain (t : TagText) : Prop where
  attrs : ∀ a ∈ t.attrs, a.Plain
  last : t.tail = [] → t.selfClosed → ∀ a ∈ t.attrs.getLast?, a.quote ≠ none

end TagText

/-! ## The expressions -/

theorem isspace_of_isBlank {c : UInt8} (h : isBlank c) : isspace c := by
  simp only [isBlank, Bool.or_eq_true, beq_iff_eq] at h
  rcases h with ((rfl | rfl) | rfl) | rfl <;> decide

theorem isspace_of_isNameChar {c : UInt8} (h : isNameChar c) : isspace c = false := by
  revert c
  decide +kernel

/-- No `=` follows the blanks and letters. -/
theorem attrExp_none {w u : Bytes} (hw : ∀ c ∈ w, isspace c ∨ isNameChar c)
    (hu : ∀ c ∈ u.head?, c ≠ 61 ∧ isspace c = false ∧ isNameChar c = false) :
    matchPieces attrExp.pieces (w ++ u) = none := by
  have hstop : ∀ p ∈ [many isspace 0, many isNameChar 0, many isspace 0], ∀ x ∈ u.head?,
      p.cls x = false := by
    intro p hp x hx
    obtain ⟨-, hspace, hname⟩ := hu x hx
    simp only [List.mem_cons, List.not_mem_nil, or_false] at hp
    rcases hp with rfl | rfl | rfl
    · exact hspace
    · exact hname
    · exact hspace
  refine matchPieces_append_none hstop fun n => matchPieces_lit_none fun x hx => ?_
  rcases hdrop : w.drop n with _ | ⟨y, ys⟩
  · rw [hdrop] at hx
    exact (hu x hx).1
  · rw [hdrop] at hx
    obtain rfl := Option.some.inj hx
    have hmem : y ∈ w := List.mem_of_mem_drop (hdrop ▸ List.mem_cons_self)
    rintro rfl
    rcases hw 61 hmem with h | h <;> exact absurd h (by decide)

theorem takeWhile_of_head {cls : UInt8 → Bool} {u : Bytes} (hu : ∀ c ∈ u.head?, cls c = false) :
    u.takeWhile cls = [] := by
  cases u with
  | nil => rfl
  | cons c u => exact List.takeWhile_cons_of_neg (by simp [hu c rfl])

/-- The blanks in front of a name end where it begins. -/
theorem takeWhile_isspace_name {n t : Bytes} (hn : ∀ c ∈ n, isNameChar c)
    (hstop : n = [] → ∀ c ∈ t.head?, isspace c = false) : (n ++ t).takeWhile isspace = [] := by
  refine takeWhile_of_head ?_
  cases n with
  | nil => exact hstop rfl
  | cons c n =>
    intro x hx
    obtain rfl := Option.some.inj hx
    exact isspace_of_isNameChar (hn c List.mem_cons_self)

/-- Blanks and a name are taken where no `=` follows. -/
theorem bareExp_match {s n t : Bytes} (hs : ∀ c ∈ s, isspace c) (hn : ∀ c ∈ n, isNameChar c)
    (ht : ∀ c ∈ t.head?, isNameChar c = false) (hstop : n = [] → ∀ c ∈ t.head?, isspace c = false) :
    matchPieces bareExp.pieces (s ++ (n ++ t)) = some [s.length, n.length] :=
  matchPieces_greedy hs (takeWhile_isspace_name hn hstop) (Nat.zero_le _)
    (matchPieces_greedy hn (takeWhile_of_head ht) (Nat.zero_le _) rfl)

/-- A name with its `=` and the blanks around it. -/
theorem attrExp_match {s n l r u : Bytes} (hs : ∀ c ∈ s, isspace c) (hne : n ≠ [])
    (hn : ∀ c ∈ n, isNameChar c) (hl : ∀ c ∈ l, isspace c) (hr : ∀ c ∈ r, isspace c)
    (hu : ∀ c ∈ u.head?, isspace c = false) :
    matchPieces attrExp.pieces (s ++ (n ++ (l ++ 61 :: (r ++ u)))) =
      some [s.length, n.length, l.length, 1, r.length] := by
  have hlname : ∀ c ∈ (l ++ 61 :: (r ++ u)).head?, isNameChar c = false := by
    intro c hc
    cases l with
    | nil =>
      obtain rfl := Option.some.inj hc
      decide
    | cons x l =>
      obtain rfl := Option.some.inj hc
      rcases hname : isNameChar x with _ | _
      · rfl
      · exact absurd (hl x List.mem_cons_self) (by simp [isspace_of_isNameChar hname])
  refine matchPieces_greedy hs (takeWhile_isspace_name hn fun h => absurd h hne) (Nat.zero_le _) ?_
  refine matchPieces_greedy hn (takeWhile_of_head hlname) (Nat.zero_le _) ?_
  refine matchPieces_greedy hl ?_ (Nat.zero_le _) ?_
  · exact List.takeWhile_cons_of_neg (by decide)
  · rw [matchPieces_lit, matchPieces_greedy hr (takeWhile_of_head hu) (Nat.zero_le _) rfl]
    rfl

theorem zero_not_mem_isspace {s : Bytes} (hs : ∀ c ∈ s, isspace c) : (0 : UInt8) ∉ s := fun h =>
  absurd (hs 0 h) (by decide)

theorem zero_not_mem_isNameChar {n : Bytes} (hn : ∀ c ∈ n, isNameChar c) : (0 : UInt8) ∉ n := fun h =>
  absurd (hn 0 h) (by decide)

theorem head?_cstr {t : Bytes} {c : UInt8} (h : c ∈ (cstr t).head?) : c ∈ t.head? := by
  cases t with
  | nil => exact h
  | cons x t =>
    rw [cstr, List.takeWhile_cons] at h
    split at h
    · exact h
    · exact absurd h (by simp)

/-- What is read where no `=` follows the blanks and the letters, and there is enough behind them
for `getMatch`. -/
theorem parse_bare {s n t : Bytes} (hs : ∀ c ∈ s, isspace c) (hn : ∀ c ∈ n, isNameChar c)
    (ht : ∀ c ∈ t.head?, isNameChar c = false) (hstop : n = [] → ∀ c ∈ t.head?, isspace c = false)
    (hlong : n = [] ∨ 2 < (s ++ (n ++ cstr t)).length)
    (hnone : matchPieces attrExp.pieces (s ++ (n ++ cstr t)) = none) (size : Nat) :
    parseAttributesReal (some (s ++ (n ++ t))) size = some (⟨n, []⟩, s.length + n.length) := by
  have hcstr : cstr (s ++ (n ++ t)) = s ++ (n ++ cstr t) := by
    rw [cstr_append_of_not_mem (zero_not_mem_isspace hs),
      cstr_append_of_not_mem (zero_not_mem_isNameChar hn)]
  rcases hne : s ++ (n ++ cstr t) with _ | ⟨x, xs⟩
  · -- a NUL, or nothing at all: both expressions refuse the empty value
    rw [hne] at hcstr
    obtain ⟨rfl, hnt⟩ := List.append_eq_nil_iff.mp hne
    obtain ⟨rfl, -⟩ := List.append_eq_nil_iff.mp hnt
    simp only [parseAttributesReal, Regexp.regexp, Option.map_some, hcstr]
    rfl
  have hv : s ++ (n ++ cstr t) ≠ [] := hne ▸ List.cons_ne_nil x xs
  have h0 : (0 : UInt8) ∉ s ++ (n ++ cstr t) := hcstr ▸ not_mem_cstr _
  obtain ⟨r, hr⟩ := regexp_of_no_match h0 hnone
  have hmatch := regexp_of_match h0 hv (bareExp_match hs hn (fun c hc => ht c (head?_cstr hc))
    fun hnil c hc => hstop hnil c (head?_cstr hc))
  rw [toChars_of_ne_nil hv, ← hcstr, ← regexp_cstr] at hr hmatch
  rw [hcstr] at hmatch
  set m : Match := ⟨s ++ (n ++ cstr t), [s.length, n.length],
    (0, bareExp.pieces.length) :: bareExp.groups⟩ with hm
  have hname : m.getMatchString 1 = some n := by
    rcases hlong with rfl | hlong
    · rw [Match.getMatchString, show m.getMatchLength 1 = 0 from rfl]
      rfl
    · refine getMatchString_eq (a := s) (b := n) (c := cstr t) (g := (1, 2)) rfl ?_ ?_ ?_ hlong
      · exact (List.append_assoc s n _).symm
      · exact Nat.add_zero _
      · exact Nat.add_zero _
  have hlen : m.getMatchLength 0 = s.length + n.length := rfl
  simp only [parseAttributesReal, hr, hmatch, hname, hlen, Option.bind_eq_bind, Option.bind_some]

/-! ## The loop over a value -/

/-- The loop ends within the bytes it is given, and a quote at the end is one of them. -/
theorem valueLoop_bounds (buf : Bytes) (size : Nat) (startQ : Option UInt8) (h : Bool) (k : Nat)
    (val : Bytes) {e lastQ : Nat} (hloop : valueLoop buf size startQ h k val = (e, lastQ)) :
    k + lastQ ≤ e ∧ e ≤ k + val.length ∧ (startQ = none → lastQ = 0) := by
  have hstop : (k, 0) = (e, lastQ) →
      k + lastQ ≤ e ∧ e ≤ k + val.length ∧ (startQ = none → lastQ = 0) := by
    rintro ⟨⟩
    exact ⟨le_rfl, Nat.le_add_right _ _, fun _ => rfl⟩
  induction val generalizing h k with
  | nil => exact hstop (by cases h <;> exact hloop)
  | cons c val ih =>
    have hnext : ∀ h', valueLoop buf size startQ h' (k + 1) val = (e, lastQ) →
        k + lastQ ≤ e ∧ e ≤ k + (c :: val).length ∧ (startQ = none → lastQ = 0) := by
      intro h' hl
      obtain ⟨hle, hge, hq⟩ := ih h' (k + 1) hl (by
        rintro ⟨⟩
        exact ⟨le_rfl, Nat.le_add_right _ _, fun _ => rfl⟩)
      rw [List.length_cons]
      exact ⟨by omega, by omega, hq⟩
    cases h with
    | true =>
      rw [valueLoop] at hloop
      exact hnext false hloop
    | false =>
      rcases startQ with _ | q
      · rw [valueLoop] at hloop
        split at hloop
        · exact hnext true hloop
        split at hloop
        · exact hstop hloop
        split at hloop
        · exact hstop hloop
        · exact hnext false hloop
      · rw [valueLoop] at hloop
        split at hloop
        · exact hnext true hloop
        split at hloop
        · obtain ⟨rfl, rfl⟩ := Prod.mk.inj hloop
          refine ⟨le_rfl, ?_, fun h => nomatch h⟩
          rw [List.length_cons]
          omega
        · exact hnext false hloop

/-- The loop passes over a value. The byte it looks ahead for is not in the bytes it looks at. -/
theorem valueLoop_pass (buf : Bytes) (size : Nat) {startQ : Option UInt8} {val : Bytes}
    (hval : ∀ c ∈ val, TagAttr.Goes startQ c) (h : Bool) (k : Nat) (more : Bytes)
    (hlook : startQ = none → ∀ j < k + val.length, buf[j + 1]? ≠ some 62) :
    valueLoop buf size startQ h k (val ++ more) =
      valueLoop buf size startQ (AttrText.hasQ h val) (k + val.length) more := by
  induction val generalizing h k with
  | nil => cases h <;> rfl
  | cons c val ih =>
    have hnum : k + (c :: val).length = k + 1 + val.length := by
      rw [List.length_cons]
      omega
    rw [hnum] at hlook ⊢
    have hrest := fun h' => ih (fun x hx => hval x (List.mem_cons_of_mem c hx)) h' (k + 1) hlook
    have hgoes := hval c List.mem_cons_self
    rw [List.cons_append]
    cases h with
    | true =>
      rw [valueLoop]
      exact hrest false
    | false =>
      rw [AttrText.hasQ, ← hrest]
      rcases startQ with _ | q
      · have hahead : ¬ (c = 47 ∧ k < size - 1 ∧ buf[k + 1]? = some 62) := fun hc =>
          hlook rfl k (by omega) hc.2.2
        have hblank : ¬ (isBlank c || c == 62) = true := by simp [hgoes.1, hgoes.2]
        rw [valueLoop, if_neg hblank, if_neg hahead]
        split
        next hback => rw [hback, beq_self_eq_true]
        next hback => rw [beq_eq_false_iff_ne.mpr hback]
      · rw [valueLoop, if_neg (Ne.symm hgoes)]
        split
        next hback => rw [hback, beq_self_eq_true]
        next hback => rw [beq_eq_false_iff_ne.mpr hback]

/-- What is read of an attribute, by what the loop over its value answers. -/
theorem parse_value {s n l r u : Bytes} (hs : ∀ c ∈ s, isspace c) (hs' : s ≠ [])
    (hn : ∀ c ∈ n, isNameChar c) (hn' : n ≠ []) (hl : ∀ c ∈ l, isspace c)
    (hr : ∀ c ∈ r, isspace c) (hu : ∀ c ∈ u.head?, isspace c = false) (hu' : u ≠ []) {b : Bytes}
    (hb : b = s ++ (n ++ (l ++ 61 :: (r ++ u)))) {toff k lastQ : Nat}
    (htoff : toff = if (startQuote u).isSome then 1 else 0)
    (hloop : valueLoop b b.length (startQuote u) false toff (u.drop toff) = (k, lastQ)) :
    parseAttributesReal (some b) b.length =
      some (⟨n, (u.drop toff).take (k - toff - lastQ)⟩, (s ++ n ++ l ++ 61 :: r).length + k) := by
  set head := s ++ n ++ l ++ 61 :: r with hhead
  have hsplit : b = head ++ u := by simp [hb, hhead]
  have hcstr : cstr b = s ++ (n ++ (l ++ 61 :: (r ++ cstr u))) := by
    have h61 : (0 : UInt8) ∉ [61] := by decide
    rw [hb, cstr_append_of_not_mem (zero_not_mem_isspace hs),
      cstr_append_of_not_mem (zero_not_mem_isNameChar hn),
      cstr_append_of_not_mem (zero_not_mem_isspace hl), ← List.singleton_append,
      cstr_append_of_not_mem h61, cstr_append_of_not_mem (zero_not_mem_isspace hr)]
    rfl
  have hmatch := attrExp_match hs hn' hn hl hr fun c hc => hu c (head?_cstr hc)
  rw [← hcstr] at hmatch
  have hne : cstr b ≠ [] := by simp [hcstr]
  have hregexp := regexp_of_match (not_mem_cstr b) hne hmatch
  rw [toChars_of_ne_nil hne, ← regexp_cstr] at hregexp
  set m : Match := ⟨cstr b, [s.length, n.length, l.length, 1, r.length],
    (0, attrExp.pieces.length) :: attrExp.groups⟩ with hm
  have hlength : m.getMatchLength 0 = head.length := by
    simp [hm, Match.getMatchLength, attrExp, hhead]
    omega
  have hlong : 2 * 1 < m.value.length := by
    have := List.length_pos_of_ne_nil hs'
    have := List.length_pos_of_ne_nil hn'
    simp [hm, hcstr]
    omega
  have hname : m.getMatchString 1 = some n := by
    refine getMatchString_eq (a := s) (b := n) (c := l ++ 61 :: (r ++ cstr u)) (g := (1, 2)) rfl ?_
      (Nat.add_zero _) (Nat.add_zero _) hlong
    rw [List.append_assoc]
    exact hcstr
  have hdrop : b.drop head.length = u := by rw [hsplit, List.drop_left]
  have hlast : b.length - head.length = u.length := by
    rw [hsplit, List.length_append, Nat.add_sub_cancel_left]
  have hge : head.length < b.length := by
    have hpos := List.length_pos_of_ne_nil hu'
    omega
  have hk : k - toff - lastQ ≤ (u.drop toff).length := by
    obtain ⟨-, hle, -⟩ := valueLoop_bounds _ _ _ _ _ _ hloop
    omega
  have hset : setChars (some (u.drop toff)) (k - toff - lastQ) =
      some ((u.drop toff).take (k - toff - lastQ)) := by
    rw [setChars]
    split
    next h => rw [h, List.take_zero]
    next => rfl
  simp only [parseAttributesReal, hregexp, hlength, if_neg (Nat.lt_asymm hge), if_neg hge.ne',
    hdrop, hlast, List.take_length, ← htoff, hloop, hset, hname, Option.bind_eq_bind,
    Option.bind_some]

/-! ## The loop over the attributes -/

/-- More rounds than bytes do not change the loop. -/
theorem attributesLoop_fuel {f g size : Nat} (p : Option Bytes) (hf : size ≤ f) (hg : size ≤ g) :
    attributesLoop f p size = attributesLoop g p size := by
  induction f generalizing g p size with
  | zero =>
    obtain rfl := Nat.le_zero.mp hf
    cases g <;> rfl
  | succ f ih =>
    rcases Nat.eq_zero_or_pos size with rfl | hpos
    · cases g <;> rfl
    obtain ⟨g, rfl⟩ := Nat.exists_eq_succ_of_ne_zero (hpos.trans_le hg).ne'
    rw [attributesLoop, attributesLoop, if_neg hpos.ne', if_neg hpos.ne']
    rcases hread : parseAttributesReal p size with _ | ⟨attr, oize⟩
    · rfl
    show (if oize = 0 then _ else _) = if oize = 0 then _ else _
    split
    · rfl
    next hne => rw [ih (g := g) _ (by omega) (by omega)]

theorem attributesLoop_step {p : Bytes} {size n : Nat} {attr : XmlAttribute}
    (hread : parseAttributesReal (some p) size = some (attr, n)) (hn : n ≠ 0) (hsize : size ≠ 0) :
    attributesLoop size (some p) size =
      (attributesLoop (size - n) (some (p.drop n)) (size - n)).map fun r =>
        ((if attr.name = [] then [] else [attr]) ++ r.1, r.2) := by
  obtain ⟨k, rfl⟩ := Nat.exists_eq_succ_of_ne_zero hsize
  have hle : k.succ - n ≤ k := by omega
  rw [attributesLoop, if_neg hsize, hread]
  simp only [Option.bind_eq_bind, Option.bind_some, if_neg hn, Option.map_some]
  rw [attributesLoop_fuel (some (p.drop n)) hle le_rfl]
  cases attributesLoop (k.succ - n) (some (p.drop n)) (k.succ - n) <;> rfl

theorem attributesLoop_done {p : Option Bytes} {size : Nat}
    (hread : parseAttributesReal p size = some (⟨[], []⟩, 0)) :
    attributesLoop size p size = some ([], p, size) := by
  cases size with
  | zero => rfl
  | succ size =>
    rw [attributesLoop, if_neg (Nat.succ_ne_zero size), hread]
    rfl

/-- What no attribute begins with: the end of the text, or a byte that is neither a blank nor a
letter nor `=`. -/
def Stops (u : Bytes) : Prop :=
  ∀ c ∈ u.head?, c ≠ 61 ∧ isspace c = false ∧ isNameChar c = false

/-- The loop passes blanks. -/
theorem attributesLoop_blanks {tail u : Bytes} (htail : ∀ c ∈ tail, isspace c) (hu : Stops u) :
    attributesLoop (tail ++ u).length (some (tail ++ u)) (tail ++ u).length =
      some ([], some u, u.length) := by
  have hread : ∀ s, (∀ c ∈ s, isspace c) →
      parseAttributesReal (some (s ++ u)) (s ++ u).length = some (⟨[], []⟩, s.length) := fun s hs =>
    parse_bare (n := []) hs (fun c hc => (by cases hc)) (fun c hc => (hu c hc).2.2)
      (fun _ c hc => (hu c hc).2.1) (.inl rfl)
      (attrExp_none (fun c hc => .inl (hs c hc)) fun c hc => hu c (head?_cstr hc)) _
  have hend := attributesLoop_done (hread [] (fun c hc => (by cases hc)))
  rcases tail with _ | ⟨c, tail⟩
  · exact hend
  · rw [attributesLoop_step (hread _ htail) (Nat.succ_ne_zero _) (by simp), List.drop_left,
      List.length_append, Nat.add_sub_cancel_left]
    rw [List.nil_append] at hend
    rw [hend]
    rfl

theorem stops_tagEnd (selfClosed : Bool) (rest : Bytes) : Stops (tagEnd selfClosed ++ rest) := by
  intro c hc
  cases selfClosed <;> obtain rfl := Option.some.inj hc <;> decide

theorem findCloseTag_tagEnd (selfClosed : Bool) (rest : Bytes) :
    findCloseTag 0 (tagEnd selfClosed ++ rest) = some (0, (tagEnd selfClosed).length) := by
  cases selfClosed <;> rfl

namespace TagAttr

variable {a : TagAttr}

/-- The value ends in front of `more`: no escape is open, and a value without quotes is not followed
by the end `/>`. -/
def Ended (a : TagAttr) (more : Bytes) : Prop :=
  AttrText.hasQ false a.value = false ∧ (a.quote = none → more.head? ≠ some 47)

/-- What may follow a value without quotes. -/
def Followed (more : Bytes) : Prop :=
  ∃ c w, more = c :: w ∧ (isBlank c ∨ c = 62 ∨ c = 47)

theorem WellFormed.not_gt (ha : a.WellFormed) : (62 : UInt8) ∉ a.head := by
  intro hmem
  simp only [head, List.mem_append, List.mem_cons] at hmem
  rcases hmem with ((hmem | hmem) | hmem) | hmem | hmem
  · exact absurd (ha.before 62 hmem) (by decide)
  · exact absurd (ha.name 62 hmem) (by decide)
  · exact absurd (ha.left 62 hmem) (by decide)
  · exact absurd hmem (by decide)
  · exact absurd (ha.right 62 hmem) (by decide)

theorem WellFormed.head_length (ha : a.WellFormed) : 3 ≤ a.head.length := by
  have hbefore := List.length_pos_of_ne_nil ha.before_ne
  have hname := List.length_pos_of_ne_nil ha.name_ne
  simp only [head, List.length_append, List.length_cons]
  omega

theorem WellFormed.quote_ne (ha : a.WellFormed) {q : UInt8} (hq : a.quote = some q) : q ≠ 92 := by
  rcases ha.quote q hq with rfl | rfl <;> decide

/-- Where the loop looks ahead, it looks at bytes of the attribute. -/
theorem WellFormed.not_ahead (ha : a.WellFormed) (hquote : a.quote = none) (more : Bytes) :
    ∀ j ≤ a.value.length, (a.text ++ more)[j + 1]? ≠ some 62 := by
  intro j hj hget
  have hlen := ha.head_length
  have htext : a.text = a.head ++ a.value := by
    rw [text, hquote, Option.toList_none, List.nil_append, List.append_nil]
  rw [htext, List.getElem?_append_left (by rw [List.length_append]; omega)] at hget
  rcases List.mem_append.mp (List.mem_of_getElem? hget) with hmem | hmem
  · exact ha.not_gt hmem
  · have hgoes := ha.value 62 hmem
    rw [hquote] at hgoes
    exact hgoes.2 rfl

/-- The loop over the value ends behind it, or takes more. -/
theorem WellFormed.loop_ends (ha : a.WellFormed) {more b : Bytes}
    (hmore : a.quote = none → Followed more) (hb : b = a.text ++ more) {toff k lastQ : Nat}
    (htoff : toff = a.quote.toList.length)
    (hloop : valueLoop b b.length a.quote false toff (a.value ++ (a.quote.toList ++ more)) =
      (k, lastQ)) :
    (a.Ended more → lastQ = toff ∧ k = toff + a.value.length + toff) ∧
      (¬ a.Ended more → a.value.length < k - toff - lastQ) := by
  rw [valueLoop_pass b b.length ha.value false toff _ fun hquote j hj => hb ▸
    ha.not_ahead hquote more j (by rw [htoff, hquote] at hj; exact (Nat.zero_add _ ▸ hj).le)] at hloop
  -- one byte more than the value
  have hmoreThan : ∀ {h w}, valueLoop b b.length a.quote h (toff + a.value.length + 1) w = (k, lastQ) →
      a.value.length < k - toff - lastQ := by
    intro h w hl
    obtain ⟨hle, -, -⟩ := valueLoop_bounds _ _ _ _ _ _ hl
    omega
  rcases hopen : AttrText.hasQ false a.value with _ | _
  · rw [hopen] at hloop
    rcases hquote : a.quote with _ | q
    · obtain ⟨c, w, rfl, hc⟩ := hmore hquote
      have hended : a.Ended (c :: w) ↔ c ≠ 47 := by simp [Ended, hopen, hquote]
      rw [hquote, Option.toList_none, List.length_nil] at htoff
      rw [hquote, Option.toList_none, List.nil_append, valueLoop] at hloop
      rw [hended, not_not]
      have hback : c ≠ 92 := by
        rintro rfl
        revert hc
        decide
      rw [if_neg hback] at hloop
      refine ⟨fun hne => ?_, ?_⟩
      · rw [if_pos (by rcases hc with hc | hc | hc <;> simp_all)] at hloop
        obtain ⟨rfl, rfl⟩ := Prod.mk.inj hloop
        exact ⟨htoff.symm, by omega⟩
      · rintro rfl
        have hahead := ha.not_ahead hquote (47 :: w) a.value.length le_rfl
        rw [← hb, ← Nat.zero_add a.value.length, ← htoff] at hahead
        rw [if_neg (by decide), if_neg fun h => hahead h.2.2, ← hquote] at hloop
        exact hmoreThan hloop
    · have hended : a.Ended more := ⟨hopen, fun h => absurd (hquote ▸ h) (by simp)⟩
      rw [hquote] at hloop htoff
      change valueLoop b b.length (some q) false (toff + a.value.length) (q :: more) = _ at hloop
      rw [valueLoop, if_neg (ha.quote_ne hquote), if_pos rfl] at hloop
      obtain ⟨rfl, rfl⟩ := Prod.mk.inj hloop
      exact ⟨fun _ => ⟨htoff.symm, by rw [htoff]; rfl⟩, fun h => absurd hended h⟩
  · have hended : ¬ a.Ended more := fun h => absurd (hopen ▸ h.1) (by decide)
    refine ⟨fun h => absurd h hended, fun _ => ?_⟩
    obtain ⟨c, w, hcw⟩ : ∃ c w, a.quote.toList ++ more = c :: w := by
      rcases hquote : a.quote with _ | q
      · obtain ⟨c, w, rfl, -⟩ := hmore hquote
        exact ⟨c, w, rfl⟩
      · exact ⟨q, more, rfl⟩
    rw [hopen, hcw, valueLoop] at hloop
    exact hmoreThan hloop

/-! ## An attribute -/

/-- The byte behind the `=` and its blanks. -/
theorem WellFormed.start (ha : a.WellFormed) (w : Bytes) :
    ∃ c u, a.quote.toList ++ (a.value ++ w) = c :: u ∧ isspace c = false ∧
      startQuote (c :: u) = a.quote := by
  rcases hquote : a.quote with _ | q
  · obtain ⟨c, v, hv⟩ := List.exists_cons_of_ne_nil (ha.value_ne hquote)
    obtain ⟨hspace, h34, h39⟩ := ha.value_head hquote c (by rw [hv]; rfl)
    refine ⟨c, v ++ w, by rw [hv]; rfl, hspace, ?_⟩
    rw [startQuote]
    · exact fun _ h => h34 (List.cons.inj h).1
    · exact fun _ h => h39 (List.cons.inj h).1
  · refine ⟨q, a.value ++ w, rfl, ?_⟩
    rcases ha.quote q hquote with rfl | rfl <;> exact ⟨by decide, rfl⟩

/-- An attribute whose name the expressions know is read up to the end of its value, or with
another value. -/
theorem WellFormed.parse (ha : a.WellFormed) (hname : ∀ c ∈ a.name, isNameChar c) {more b : Bytes}
    (hmore : a.quote = none → Followed more) (hb : b = a.text ++ more) :
    ∃ value n, parseAttributesReal (some b) b.length = some (⟨a.name, value⟩, n) ∧ n ≠ 0 ∧
      (a.Ended more → value = a.value ∧ n = a.text.length) ∧ (¬ a.Ended more → value ≠ a.value) := by
  set w := a.quote.toList ++ more with hw
  obtain ⟨c, u, hu, hspace, hstart⟩ := ha.start w
  obtain ⟨toff, htoff⟩ : ∃ toff, toff = a.quote.toList.length := ⟨_, rfl⟩
  obtain ⟨k, lastQ, hloop⟩ : ∃ k lastQ,
      valueLoop b b.length a.quote false toff (a.value ++ w) = (k, lastQ) := ⟨_, _, rfl⟩
  have hends := ha.loop_ends hmore hb htoff hloop
  have hbounds := valueLoop_bounds _ _ _ _ _ _ hloop
  have hsplit : b = a.before ++ (a.name ++ (a.left ++ 61 :: (a.right ++ (c :: u)))) := by
    rw [hb, ← hu]
    simp [text, head, hw]
  have hdrop : (c :: u).drop toff = a.value ++ w := by rw [← hu, htoff, List.drop_left]
  have hfirst : ∀ x ∈ (c :: u).head?, isspace x = false := by
    rintro x ⟨⟩
    exact hspace
  have hone : toff = if (startQuote (c :: u)).isSome then 1 else 0 := by
    rw [hstart, htoff]
    cases a.quote <;> rfl
  have hvalue : valueLoop b b.length (startQuote (c :: u)) false toff ((c :: u).drop toff) =
      (k, lastQ) := by
    rw [hstart, hdrop]
    exact hloop
  have hread := parse_value (fun x hx => isspace_of_isBlank (ha.before x hx)) ha.before_ne hname
    ha.name_ne (fun x hx => isspace_of_isBlank (ha.left x hx))
    (fun x hx => isspace_of_isBlank (ha.right x hx)) hfirst (List.cons_ne_nil c u) hsplit hone hvalue
  rw [hdrop] at hread
  have hhead := ha.head_length
  refine ⟨_, _, hread, by rw [head] at hhead; omega, fun hended => ?_, fun hended heq => ?_⟩
  · obtain ⟨hlast, hk⟩ := hends.1 hended
    have hcut : k - toff - lastQ = a.value.length := by omega
    refine ⟨by rw [hcut, List.take_left], ?_⟩
    simp only [text, head, List.length_append, hk, htoff]
    omega
  · have hlong := hends.2 hended
    have hlen := congrArg List.length heq
    rw [List.length_take] at hlen
    omega

theorem stops_of_isXmlNameByte (c : UInt8) (h : isXmlNameByte c) (hname : isNameChar c = false) :
    c ≠ 61 ∧ isspace c = false ∧ isNameChar c = false := by
  simp only [isXmlNameByte, hname, Bool.false_or, Bool.or_eq_true, beq_iff_eq,
    decide_eq_true_eq] at h
  rcases h with rfl | h
  · exact ⟨by decide, rfl, rfl⟩
  refine ⟨?_, ?_, hname⟩
  · rintro rfl
    exact absurd h (by decide)
  · rcases hspace : isspace c with _ | _
    · rfl
    · simp only [isspace, Bool.or_eq_true, beq_iff_eq, Bool.and_eq_true, decide_eq_true_eq] at hspace
      rcases hspace with rfl | ⟨-, hspace⟩
      · exact absurd h (by decide)
      · exact absurd (UInt8.le_trans h hspace) (by decide)

/-- The loop ends within a name that the expressions do not know. -/
theorem WellFormed.loop_name (ha : a.WellFormed) (hname : ¬ ∀ c ∈ a.name, isNameChar c)
    {more b : Bytes} (hb : b = a.text ++ more) :
    ∃ n u, n ≠ a.name ∧
      attributesLoop b.length (some b) b.length =
        some (if n = [] then [] else [⟨n, []⟩], some u, u.length) ∧
      ∃ c w, u = c :: w ∧ isXmlNameByte c ∧ isNameChar c = false := by
  set n := a.name.takeWhile isNameChar with hn
  obtain ⟨c, v, hv⟩ : ∃ c v, a.name.dropWhile isNameChar = c :: v :=
    List.exists_cons_of_ne_nil fun h => hname (List.dropWhile_eq_nil_iff.mp h)
  have hsplit : a.name = n ++ c :: v := by rw [← hv, hn, List.takeWhile_append_dropWhile]
  have hc : isNameChar c = false := by
    have := List.head?_dropWhile_not isNameChar a.name
    rw [hv] at this
    simpa using this
  have hstop := stops_of_isXmlNameByte c (ha.name c (by rw [hsplit]; simp)) hc
  set u := c :: (v ++ (a.left ++ 61 :: (a.right ++ (a.quote.toList ++ (a.value ++
    (a.quote.toList ++ more)))))) with hu
  have hstops : Dframework.Stops u := by
    rintro x ⟨⟩
    exact hstop
  have hbu : b = a.before ++ (n ++ u) := by
    rw [hb, text, head, hsplit, hu]
    simp
  have hbefore : ∀ x ∈ a.before, isspace x := fun x hx => isspace_of_isBlank (ha.before x hx)
  have hnchar : ∀ x ∈ n, isNameChar x := fun x hx => List.mem_takeWhile_imp hx
  refine ⟨n, u, fun h => ?_, ?_, c, _, hu, ha.name c (by rw [hsplit]; simp), hc⟩
  · rw [hsplit] at h
    simpa using congrArg List.length h
  have hlong : n = [] ∨ 2 < (a.before ++ (n ++ cstr u)).length := by
    rcases eq_or_ne n [] with h | h
    · exact .inl h
    · have h1 := List.length_pos_of_ne_nil ha.before_ne
      have h2 := List.length_pos_of_ne_nil h
      have hc0 : c ≠ 0 := by
        rintro rfl
        exact absurd (ha.name 0 (by rw [hsplit]; simp)) (by decide)
      have h3 : 0 < (cstr u).length := by
        rw [hu, cstr, List.takeWhile_cons_of_pos (by simpa using hc0)]
        simp
      refine .inr ?_
      simp only [List.length_append]
      omega
  have hnone : matchPieces attrExp.pieces (a.before ++ (n ++ cstr u)) = none := by
    rw [← List.append_assoc]
    refine attrExp_none (fun x hx => ?_) fun x hx => hstops x (head?_cstr hx)
    exact (List.mem_append.mp hx).imp (hbefore x) (hnchar x)
  have hread := parse_bare hbefore hnchar (fun x hx => (hstops x hx).2.2)
    (fun _ x hx => (hstops x hx).2.1) hlong hnone b.length
  rw [← hbu] at hread
  have hpos := List.length_pos_of_ne_nil ha.before_ne
  have hlen : b.length - (a.before.length + n.length) = u.length := by
    rw [hbu, List.length_append, List.length_append]
    omega
  have hdrop : b.drop (a.before.length + n.length) = u := by
    rw [hbu, ← List.append_assoc, ← List.length_append, List.drop_left]
  have hend := @attributesLoop_blanks [] u (fun x hx => (by cases hx)) hstops
  rw [attributesLoop_step hread (by omega) (by rw [hbu, List.length_append]; omega), hdrop, hlen]
  rw [List.nil_append] at hend
  rw [hend, Option.map_some, List.append_nil]

/-- The attribute is read as it is written. -/
def ReadBefore (a : TagAttr) (more : Bytes) : Prop :=
  (∀ c ∈ a.name, isNameChar c) ∧ a.Ended more

theorem WellFormed.text_ne_nil (ha : a.WellFormed) (more : Bytes) : (a.text ++ more).length ≠ 0 := by
  have hhead := ha.head_length
  rw [text, List.append_assoc, List.length_append]
  omega

theorem WellFormed.loop_cons (ha : a.WellFormed) {more : Bytes} (hread : a.ReadBefore more)
    (hmore : a.quote = none → Followed more) :
    attributesLoop (a.text ++ more).length (some (a.text ++ more)) (a.text ++ more).length =
      (attributesLoop more.length (some more) more.length).map fun r =>
        (a.toAttribute :: r.1, r.2) := by
  obtain ⟨value, n, hparse, hn, hended, -⟩ := ha.parse hread.1 hmore rfl
  obtain ⟨rfl, rfl⟩ := hended hread.2
  rw [attributesLoop_step hparse hn (ha.text_ne_nil more), List.drop_left, List.length_append,
    Nat.add_sub_cancel_left, if_neg ha.name_ne]
  rfl

theorem WellFormed.loop_ne (ha : a.WellFormed) {more : Bytes} (hread : ¬ a.ReadBefore more)
    (hmore : a.quote = none → Followed more) {r : List XmlAttribute × Option Bytes × Nat}
    (hloop : attributesLoop (a.text ++ more).length (some (a.text ++ more)) (a.text ++ more).length =
      some r) : r.1.head? ≠ some a.toAttribute := by
  by_cases hname : ∀ c ∈ a.name, isNameChar c
  · obtain ⟨value, n, hparse, hn, -, hvalue⟩ := ha.parse hname hmore rfl
    rw [attributesLoop_step hparse hn (ha.text_ne_nil more), if_neg ha.name_ne] at hloop
    obtain ⟨r', -, rfl⟩ := Option.map_eq_some_iff.mp hloop
    intro h
    exact hvalue (fun hended => hread ⟨hname, hended⟩)
      (congrArg XmlAttribute.value (Option.some.inj h))
  · obtain ⟨n, u, hn, hl, -⟩ := ha.loop_name hname (Eq.refl (a.text ++ more))
    obtain rfl := Option.some.inj (hl.symm.trans hloop)
    intro h
    dsimp only at h
    split at h
    · cases h
    · exact hn (congrArg XmlAttribute.name (Option.some.inj h))

/-! ## The attributes -/

/-- Every attribute is read in front of what follows it. -/
def AllRead : List TagAttr → Bytes → Prop
  | [], _ => True
  | a :: attrs, p => a.ReadBefore (texts attrs ++ p) ∧ AllRead attrs p

theorem WellFormed.followed (ha : a.WellFormed) (more : Bytes) : Followed (a.text ++ more) := by
  obtain ⟨c, v, hv⟩ := List.exists_cons_of_ne_nil ha.before_ne
  refine ⟨c, v ++ (a.name ++ (a.left ++ 61 :: (a.right ++ (a.quote.toList ++ (a.value ++
    (a.quote.toList ++ more)))))), ?_, .inl (ha.before c (by rw [hv]; exact List.mem_cons_self))⟩
  simp [text, head, hv]

theorem texts_cons (a : TagAttr) (attrs : List TagAttr) (p : Bytes) :
    texts (a :: attrs) ++ p = a.text ++ (texts attrs ++ p) := by
  rw [texts, texts, List.map_cons, List.flatten_cons, List.append_assoc]

section

variable {attrs : List TagAttr} (hattrs : ∀ a ∈ attrs, a.WellFormed) {p : Bytes} (hp : Followed p)

include hattrs hp

theorem followed_texts : Followed (texts attrs ++ p) := by
  rcases attrs with _ | ⟨a, attrs⟩
  · exact hp
  · rw [texts_cons]
    exact (hattrs a List.mem_cons_self).followed _

/-- The attributes are read one by one. -/
theorem loop_texts (hread : AllRead attrs p) :
    attributesLoop (texts attrs ++ p).length (some (texts attrs ++ p)) (texts attrs ++ p).length =
      (attributesLoop p.length (some p) p.length).map fun r => (attrs.map toAttribute ++ r.1, r.2) := by
  induction attrs with
  | nil => exact Option.map_id'.symm
  | cons a attrs ih =>
    have hattrs' := fun b hb => hattrs b (List.mem_cons_of_mem a hb)
    rw [texts_cons, (hattrs a List.mem_cons_self).loop_cons hread.1 fun _ => followed_texts hattrs' hp,
      ih hattrs' hread.2, Option.map_map]
    rfl

/-- Only what is read as it is written comes out so. -/
theorem allRead_of_loop {r : List XmlAttribute × Option Bytes × Nat}
    (hloop : attributesLoop (texts attrs ++ p).length (some (texts attrs ++ p))
      (texts attrs ++ p).length = some r) (hr : r.1 = attrs.map toAttribute) : AllRead attrs p := by
  induction attrs generalizing r with
  | nil => trivial
  | cons a attrs ih =>
    have ha := hattrs a List.mem_cons_self
    have hattrs' := fun b hb => hattrs b (List.mem_cons_of_mem a hb)
    rw [texts_cons] at hloop
    by_cases hread : a.ReadBefore (texts attrs ++ p)
    · rw [ha.loop_cons hread fun _ => followed_texts hattrs' hp] at hloop
      obtain ⟨r', hr', rfl⟩ := Option.map_eq_some_iff.mp hloop
      exact ⟨hread, ih hattrs' hr' (List.cons.inj hr).2⟩
    · refine absurd ?_ (ha.loop_ne hread (fun _ => followed_texts hattrs' hp) hloop)
      rw [hr]
      rfl

omit hp in
/-- Only the last value can have `/>` behind it. -/
theorem allRead_iff : AllRead attrs p ↔ (∀ a ∈ attrs, a.Plain) ∧
    (p.head? = some 47 → ∀ a ∈ attrs.getLast?, a.quote ≠ none) := by
  induction attrs with
  | nil => simp [AllRead]
  | cons a attrs ih =>
    rw [AllRead, ih fun b hb => hattrs b (List.mem_cons_of_mem a hb), List.forall_mem_cons]
    rcases attrs with _ | ⟨b, attrs⟩
    · constructor
      · rintro ⟨⟨hname, hescape, hlast⟩, -⟩
        refine ⟨⟨⟨hname, hescape⟩, fun x hx => (by cases hx)⟩, ?_⟩
        rintro hhead x ⟨⟩ hquote
        exact hlast hquote hhead
      · rintro ⟨⟨ha, -⟩, hlast⟩
        exact ⟨⟨ha.name, ha.value, fun hquote hhead => hlast hhead a rfl hquote⟩, by simp⟩
    · have hhead : (texts (b :: attrs) ++ p).head? ≠ some 47 := by
        have hb := hattrs b (by simp)
        obtain ⟨c, v, hv⟩ := List.exists_cons_of_ne_nil hb.before_ne
        have hc := hb.before c (by rw [hv]; exact List.mem_cons_self)
        have hfirst : (texts (b :: attrs) ++ p).head? = some c := by
          rw [texts_cons, text, head, hv]
          rfl
        rw [hfirst]
        rintro ⟨⟩
        exact absurd hc (by decide)
      have hread : a.ReadBefore (texts (b :: attrs) ++ p) ↔ a.Plain :=
        ⟨fun h => ⟨h.1, h.2.1⟩, fun h => ⟨h.name, h.value, fun _ => hhead⟩⟩
      rw [hread, List.getLast?_cons_cons, and_assoc]

end

end TagAttr

namespace TagText

open TagAttr

variable {t : TagText}

/-- What stands behind the attributes. -/
theorem WellFormed.followed (ht : t.WellFormed) (rest : Bytes) :
    Followed (t.tail ++ (tagEnd t.selfClosed ++ rest)) := by
  rcases htail : t.tail with _ | ⟨c, tail⟩
  · rcases t.selfClosed with _ | _
    · exact ⟨62, rest, rfl, by decide⟩
    · exact ⟨47, 62 :: rest, rfl, by decide⟩
  · exact ⟨c, tail ++ (tagEnd t.selfClosed ++ rest), rfl, .inl (ht.tail c (by simp [htail]))⟩

theorem text_append (t : TagText) (rest : Bytes) :
    t.text ++ rest = texts t.attrs ++ (t.tail ++ (tagEnd t.selfClosed ++ rest)) := by
  simp [text]

/-- `/>` follows where no blank stands in front of it. -/
theorem WellFormed.head?_tail (ht : t.WellFormed) (rest : Bytes) :
    (t.tail ++ (tagEnd t.selfClosed ++ rest)).head? = some 47 ↔ t.tail = [] ∧ t.selfClosed := by
  rcases htail : t.tail with _ | ⟨c, tail⟩
  · cases t.selfClosed <;> simp [tagEnd]
  · have hc := ht.tail c (by simp [htail])
    have hne : c ≠ 47 := by
      rintro rfl
      exact absurd hc (by decide)
    simp [hne]

theorem WellFormed.allRead_iff (ht : t.WellFormed) (rest : Bytes) :
    AllRead t.attrs (t.tail ++ (tagEnd t.selfClosed ++ rest)) ↔ t.Plain := by
  rw [TagAttr.allRead_iff ht.attrs, ht.head?_tail]
  exact ⟨fun h => ⟨h.1, fun h₁ h₂ => h.2 ⟨h₁, h₂⟩⟩, fun h => ⟨h.attrs, fun h' => h.last h'.1 h'.2⟩⟩

/-- A tag that is read off the front of the buffer, whatever follows it. -/
theorem WellFormed.parse (ht : t.WellFormed) (hplain : t.Plain) (rest : Bytes) :
    parseUnknownAttributes (t.text ++ rest) (t.text ++ rest).length =
      some (some (t.attrs.map toAttribute, t.selfClosed, t.text.length)) := by
  have hloop := loop_texts ht.attrs (ht.followed rest) ((ht.allRead_iff rest).mpr hplain)
  rw [attributesLoop_blanks (fun c hc => isspace_of_isBlank (ht.tail c hc))
    (stops_tagEnd t.selfClosed rest), Option.map_some, List.append_nil, ← text_append] at hloop
  have hsize : (t.text ++ rest).length - (tagEnd t.selfClosed ++ rest).length =
      (texts t.attrs ++ t.tail).length := by
    simp only [text, List.length_append]
    omega
  have htest : testAttributes (t.text ++ rest) (t.text ++ rest).length =
      some (some ((texts t.attrs ++ t.tail).length, (tagEnd t.selfClosed).length)) := by
    rw [testAttributes, hloop]
    simp only [Option.bind_eq_bind, Option.bind_some, Option.getD_some, List.take_length,
      findCloseTag_tagEnd, Option.map_some, Nat.zero_add, hsize]
  have hclosed : decide (1 < (tagEnd t.selfClosed).length) = t.selfClosed := by
    cases t.selfClosed <;> rfl
  rw [parseUnknownAttributes, htest]
  simp only [Option.bind_eq_bind, Option.bind_some, parseEndedAttributes, hloop, hclosed]
  rw [← List.length_append, List.append_assoc, ← text]

end TagText

/-- Attributes are read as they are written if and only if their names are made of letters, digits,
`-`, `_` and `:`, no value ends in an open escape, and no value without quotes is followed
by `/>`. -/
theorem tagText_read_iff {t : TagText} (ht : t.WellFormed) (rest : Bytes) :
    t.Read (t.text ++ rest) ↔ t.Plain := by
  constructor
  · rintro ⟨⟨n, -, hparse⟩, -⟩
    rw [← ht.allRead_iff rest]
    rw [parseUnknownAttributes] at hparse
    obtain ⟨found, -, hparse⟩ := Option.bind_eq_some_iff.mp hparse
    rcases found with _ | ⟨closeTag, closeLen⟩
    · cases hparse
    obtain ⟨attributes, hended, hparse⟩ := Option.bind_eq_some_iff.mp hparse
    obtain ⟨r, hloop, hr⟩ := Option.bind_eq_some_iff.mp hended
    have hattributes : attributes = t.attrs.map TagAttr.toAttribute :=
      congrArg Prod.fst (Option.some.inj (Option.some.inj hparse))
    rw [TagText.text_append] at hloop
    exact TagAttr.allRead_of_loop ht.attrs (ht.followed rest) hloop
      ((Option.some.inj hr).trans hattributes)
  · intro hplain
    refine ⟨⟨_, ?_, ht.parse hplain rest⟩, fun fuel hfuel => attributesLoop_fuel _ hfuel le_rfl⟩
    rw [List.length_append]
    exact Nat.le_add_right _ _

/-- ` id="5" n=3 />`. -/
def twoAttrs : TagText :=
  ⟨[⟨[32], [105, 100], [], [], some 34, [53]⟩, ⟨[32], [110], [], [], none, [51]⟩], [32], true⟩

theorem twoAttrs_wellFormed : twoAttrs.WellFormed where
  attrs a ha := by
    simp only [twoAttrs, List.mem_cons, List.not_mem_nil, or_false] at ha
    rcases ha with rfl | rfl <;> constructor <;> simp [TagAttr.Goes] <;> decide
  tail c hc := by
    obtain rfl := List.mem_singleton.mp hc
    decide
  last h := nomatch h

/-- They are read, whatever follows the tag. -/
theorem tagText_read_iff_twoAttrs : twoAttrs.Read (twoAttrs.text ++ bytes "<b/>") := by
  refine (tagText_read_iff twoAttrs_wellFormed _).mpr ⟨fun a ha => ?_, nofun⟩
  simp only [twoAttrs, List.mem_cons, List.not_mem_nil, or_false] at ha
  rcases ha with rfl | rfl
  · exact ⟨by simp; decide, by decide⟩
  · exact ⟨by simp; decide, by decide⟩

/-- ` b=c/>`. -/
def slashed : TagText := ⟨[⟨[32], [98], [], [], none, [99]⟩], [], true⟩

/-- In ` b=c/>` the value is `c/`, and the tag does not close itself. -/
theorem not_tagText_read : slashed.WellFormed ∧
    parseUnknownAttributes slashed.text slashed.text.length =
      some (some ([⟨bytes "b", bytes "c/"⟩], false, 6)) ∧
    ¬ slashed.Read (slashed.text ++ []) := by
  have hparse : parseUnknownAttributes slashed.text slashed.text.length =
      some (some ([⟨bytes "b", bytes "c/"⟩], false, 6)) := by decide
  refine ⟨⟨fun a ha => ?_, fun c hc => (by cases hc), fun _ h => nomatch h⟩, hparse, ?_⟩
  · obtain rfl := List.mem_singleton.mp ha
    constructor <;> simp [TagAttr.Goes] <;> decide
  · rintro ⟨⟨n, -, hread⟩, -⟩
    rw [List.append_nil, hparse] at hread
    exact Bool.false_ne_true (congrArg (fun r => r.2.1) (Option.some.inj (Option.some.inj hread)))

end Dframework
