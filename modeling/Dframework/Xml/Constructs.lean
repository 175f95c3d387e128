import Mathlib
import Dframework.Xml.Attributes

/-!
# Documents

A document is written as a sequence of constructs.

Results:
1. `parseTagOf_eq`: what a tag comes to behind its name.
2. `parseNode_tag`, `parseNode_closeTag`: the node that a tag becomes.
-/

namespace Dframework

open CLib Pattern

/-- An attribute as it is written, with the blanks in front of it. -/
structure AttrText where
  before : Bytes
  name : Bytes
  left : Bytes
  right : Bytes
  quote : UInt8
  value : Bytes

namespace AttrText

/-- ` name = "value"`. -/
def text (a : AttrText) : Bytes :=
  a.before ++ a.name ++ a.left ++ 61 :: (a.right ++ a.quote :: (a.value ++ [a.quote]))

structure WellFormed (a : AttrText) : Prop where
  before_ne : a.before ≠ []
  before : ∀ c ∈ a.before, isBlank c
  name_ne : a.name ≠ []
  name : ∀ c ∈ a.name, isXmlNameByte c
  left : ∀ c ∈ a.left, isBlank c
  right : ∀ c ∈ a.right, isBlank c
  quote : a.quote = 34 ∨ a.quote = 39
  value : a.quote ∉ a.value
  nul : 0 ∉ a.value

/-- The last backslash of the value is not left without a character behind it. -/
def Escaped (a : AttrText) : Prop := hasQ false a.value = false

end AttrText

namespace AttrText

def toAttribute (a : AttrText) : XmlAttribute := ⟨a.name, a.value⟩

/-- What the parser reads as it is written. -/
structure Readable (a : AttrText) : Prop where
  wellFormed : a.WellFormed
  plain : ∀ c ∈ a.name, isNameChar c
  escaped : a.Escaped

def texts (attrs : List AttrText) : Bytes := (attrs.map text).flatten

theorem texts_cons (a : AttrText) (attrs : List AttrText) : texts (a :: attrs) = a.text ++ texts attrs := by
  rw [texts, texts, List.map_cons, List.flatten_cons]

end AttrText

namespace AttrText

/-- The attribute as one of those that may stand in a tag. -/
def toTag (a : AttrText) : TagAttr := ⟨a.before, a.name, a.left, a.right, some a.quote, a.value⟩

theorem texts_toTag (attrs : List AttrText) : TagAttr.texts (attrs.map toTag) = texts attrs := by
  rw [TagAttr.texts, texts, List.map_map]
  refine congrArg List.flatten (List.map_congr_left fun a _ => ?_)
  simp [toTag, TagAttr.text, TagAttr.head, text]

theorem WellFormed.toTag {a : AttrText} (ha : a.WellFormed) : a.toTag.WellFormed where
  before_ne := ha.before_ne
  before := ha.before
  name_ne := ha.name_ne
  name := ha.name
  left := ha.left
  right := ha.right
  quote := by
    rintro q ⟨⟩
    exact ha.quote
  value c hc := fun heq => ha.value (heq ▸ hc)
  value_ne h := nomatch h
  value_head h := nomatch h

end AttrText

/-! ## Tags -/

/-- The rest of a tag, behind its name. -/
theorem parseUnknownAttributes_eq {attrs : List AttrText} (hattrs : ∀ a ∈ attrs, a.Readable)
    {tail : Bytes} (htail : ∀ c ∈ tail, isBlank c) (selfClosed : Bool) {rest p : Bytes}
    (hp : p = AttrText.texts attrs ++ (tail ++ (tagEnd selfClosed ++ rest))) :
    parseUnknownAttributes p p.length = some (some (attrs.map AttrText.toAttribute, selfClosed,
      (AttrText.texts attrs ++ tail ++ tagEnd selfClosed).length)) := by
  let t : TagText := ⟨attrs.map AttrText.toTag, tail, selfClosed⟩
  have htext : t.text = AttrText.texts attrs ++ tail ++ tagEnd selfClosed := by
    rw [TagText.text, AttrText.texts_toTag, List.append_assoc]
  have hquote : ∀ a ∈ t.attrs, a.quote ≠ none := by
    intro a ha
    obtain ⟨b, -, rfl⟩ := List.mem_map.mp ha
    exact Option.some_ne_none _
  have ht : t.WellFormed := by
    refine ⟨fun a ha => ?_, htail, fun _ _ a ha h => absurd h (hquote a (List.mem_of_getLast? ha))⟩
    obtain ⟨b, hb, rfl⟩ := List.mem_map.mp ha
    exact (hattrs b hb).wellFormed.toTag
  have hplain : t.Plain := by
    refine ⟨fun a ha => ?_, fun _ _ a ha => hquote a (List.mem_of_getLast? ha)⟩
    obtain ⟨b, hb, rfl⟩ := List.mem_map.mp ha
    exact ⟨(hattrs b hb).plain, (hattrs b hb).escaped⟩
  have hparse := ht.parse hplain rest
  rw [htext, List.map_map] at hparse
  rw [hp, ← List.append_assoc, ← List.append_assoc]
  exact hparse

/-- The expression takes the bytes `pre` and a name. -/
def Begins (exp : Regexp) (pre : Bytes) : Prop :=
  ∀ {name more : Bytes}, name ≠ [] → (∀ c ∈ name, isNameChar c) →
    (∀ c ∈ more.head?, isNameChar c = false) → (0 : UInt8) ∉ pre ++ (name ++ more) →
    2 < (pre ++ (name ++ more)).length →
    ∃ regexp, exp.regexp (toChars (pre ++ (name ++ more))) = .ok regexp ∧
      regexp.getMatchString 1 = some name ∧ regexp.getMatchLength 0 = (pre ++ name).length

theorem begins_tag : Begins tagExp [60] := by
  intro name more hne hname hmore h0 hlong
  have hmatch : matchPieces tagExp.pieces ([60] ++ (name ++ more)) = some [1, name.length] := by
    show matchPieces [lit 60, many isNameChar 1] (60 :: (name ++ more)) = _
    rw [matchPieces_lit, matchPieces_greedy hname (takeWhile_of_head hmore)
      (List.length_pos_of_ne_nil hne) rfl]
    rfl
  refine ⟨_, regexp_of_match h0 (List.cons_ne_nil _ _) hmatch, ?_, ?_⟩
  · exact getMatchString_eq (a := [60]) (b := name) (c := more) (g := (1, 2)) rfl
      (List.append_assoc ..).symm rfl (Nat.add_zero _) hlong
  · show 1 + (name.length + 0) = _
    rw [List.length_append]
    rfl

theorem begins_closeTag : Begins closeTagExp [60, 47] := by
  intro name more hne hname hmore h0 hlong
  have hmatch : matchPieces closeTagExp.pieces ([60, 47] ++ (name ++ more)) =
      some [1, 1, name.length] := by
    show matchPieces [lit 60, lit 47, many isNameChar 1] (60 :: 47 :: (name ++ more)) = _
    rw [matchPieces_lit, matchPieces_lit, matchPieces_greedy hname (takeWhile_of_head hmore)
      (List.length_pos_of_ne_nil hne) rfl]
    rfl
  refine ⟨_, regexp_of_match h0 (List.cons_ne_nil _ _) hmatch, ?_, ?_⟩
  · exact getMatchString_eq (a := [60, 47]) (b := name) (c := more) (g := (2, 3)) rfl
      (List.append_assoc ..).symm rfl (Nat.add_zero _) hlong
  · show 1 + (1 + (name.length + 0)) = _
    rw [List.length_append]
    show _ = 2 + _
    omega

/-- What a tag comes to behind its name. -/
theorem parseTagOf_eq {exp : Regexp} {pre : Bytes} (hexp : Begins exp pre) (type : XmlNodeType)
    {name more : Bytes} (hne : name ≠ []) (hname : ∀ c ∈ name, isNameChar c)
    (hmore : ∀ c ∈ more.head?, isNameChar c = false) (h0 : (0 : UInt8) ∉ pre ++ (name ++ more))
    (hlong : 2 < (pre ++ (name ++ more)).length) :
    parseTagOf exp type (pre ++ (name ++ more)) =
      (parseUnknownAttributes more more.length).map fun
        | none => { status := .needBuffer }
        | some (attributes, closeNode, n) =>
          ⟨.findNode, some { type, name, attributes, closeNode }, (pre ++ name).length + n⟩ := by
  obtain ⟨regexp, hregexp, hmatch, hlen⟩ := hexp hne hname hmore h0 hlong
  have hdrop : (pre ++ (name ++ more)).drop (pre ++ name).length = more := by
    rw [← List.append_assoc, List.drop_left]
  have hleft : (pre ++ (name ++ more)).length - (pre ++ name).length = more.length := by
    rw [← List.append_assoc, List.length_append, Nat.add_sub_cancel_left]
  rw [parseTagOf, hregexp]
  simp only [hmatch, hlen, hdrop, hleft, Option.bind_eq_bind, Option.bind_some]
  rcases parseUnknownAttributes more more.length with _ | _ | ⟨attributes, closeNode, n⟩ <;> rfl

/-! ## Constructs -/

/-- A construct of a document. The blanks in front of the end of a tag are its `tail`. -/
inductive Construct where
  | declaration (body : Bytes)
  | tag (name : Bytes) (attrs : List AttrText) (tail : Bytes) (selfClosed : Bool)
  | closeTag (name tail : Bytes)
  | noneTag (body : Bytes)
  | comment (body : Bytes)
  | text (body : Bytes)

namespace Construct

def bytes : Construct → Bytes
  | declaration body => [60, 63] ++ (body ++ [63, 62])
  | tag name attrs tail selfClosed =>
    [60] ++ (name ++ (AttrText.texts attrs ++ (tail ++ tagEnd selfClosed)))
  | closeTag name tail => [60, 47] ++ (name ++ (tail ++ [62]))
  | noneTag body => [60, 33] ++ (body ++ [62])
  | comment body => [60, 33, 45, 45] ++ (body ++ [45, 45, 62])
  | text body => body

def IsText : Construct → Prop
  | text _ => True
  | _ => False

def IsNoneTag : Construct → Prop
  | noneTag _ => True
  | _ => False

/-- Nothing in `body` ends the construct before its end. -/
def EndsWith (mark body : Bytes) : Prop :=
  ∀ j < body.length, ¬ mark <+: (body ++ mark).drop j

/-- The grammar of a construct. A `<!...>` construct has no `>` inside and is not a comment. -/
def WellFormed : Construct → Prop
  | declaration body => (0 : UInt8) ∉ body ∧ EndsWith [63, 62] body
  | tag name attrs tail _ => name ≠ [] ∧ (∀ c ∈ name, isXmlNameByte c) ∧
    (∀ a ∈ attrs, a.WellFormed) ∧ ∀ c ∈ tail, isBlank c
  | closeTag name tail => name ≠ [] ∧ (∀ c ∈ name, isXmlNameByte c) ∧ ∀ c ∈ tail, isBlank c
  | noneTag body => (0 : UInt8) ∉ body ∧ 62 ∉ body ∧ ¬ [45, 45] <+: body
  | comment body => (0 : UInt8) ∉ body ∧ EndsWith [45, 45, 62] body
  | text body => body ≠ [] ∧ (0 : UInt8) ∉ body ∧ 60 ∉ body

/-- The names in the construct are made of the bytes that the expressions know. -/
def PlainNames : Construct → Prop
  | tag name attrs _ _ => (∀ c ∈ name, isNameChar c) ∧ ∀ a ∈ attrs, ∀ c ∈ a.name, isNameChar c
  | closeTag name _ => ∀ c ∈ name, isNameChar c
  | _ => True

/-- No value of the construct ends in an open escape. -/
def Escaped : Construct → Prop
  | tag _ attrs _ _ => ∀ a ∈ attrs, a.Escaped
  | _ => True

end Construct

theorem isXmlNameByte_ne_zero {c : UInt8} (h : isXmlNameByte c) : c ≠ 0 := by
  rintro rfl
  exact absurd h (by decide)

theorem isBlank_ne_zero {c : UInt8} (h : isBlank c) : c ≠ 0 := by
  rintro rfl
  exact absurd h (by decide)

theorem AttrText.WellFormed.zero_not_mem {a : AttrText} (h : a.WellFormed) : (0 : UInt8) ∉ a.text := by
  intro hmem
  have hquote : a.quote ≠ 0 := by rcases h.quote with hq | hq <;> rw [hq] <;> decide
  simp only [text, List.mem_append, List.mem_cons, List.not_mem_nil, or_false] at hmem
  rcases hmem with ((hmem | hmem) | hmem) | hmem | hmem | hmem | hmem | hmem
  · exact isBlank_ne_zero (h.before 0 hmem) rfl
  · exact isXmlNameByte_ne_zero (h.name 0 hmem) rfl
  · exact isBlank_ne_zero (h.left 0 hmem) rfl
  · exact absurd hmem (by decide)
  · exact isBlank_ne_zero (h.right 0 hmem) rfl
  · exact hquote hmem.symm
  · exact h.nul hmem
  · exact hquote hmem.symm

/-- A construct has no NUL. -/
theorem Construct.WellFormed.zero_not_mem {c : Construct} (h : c.WellFormed) :
    (0 : UInt8) ∉ c.bytes := by
  intro hmem
  cases c with
  | declaration body => simp [bytes, h.1] at hmem
  | tag name attrs tail selfClosed =>
    obtain ⟨-, hname, hattrs, htail⟩ := h
    simp only [bytes, List.mem_append] at hmem
    rcases hmem with hmem | hmem | hmem | hmem | hmem
    · exact absurd hmem (by decide)
    · exact isXmlNameByte_ne_zero (hname 0 hmem) rfl
    · obtain ⟨_, hl, hmem⟩ := List.mem_flatten.mp hmem
      obtain ⟨a, ha, rfl⟩ := List.mem_map.mp hl
      exact (hattrs a ha).zero_not_mem hmem
    · exact isBlank_ne_zero (htail 0 hmem) rfl
    · revert hmem
      cases selfClosed <;> decide
  | closeTag name tail =>
    obtain ⟨-, hname, htail⟩ := h
    simp only [bytes, List.mem_append] at hmem
    rcases hmem with hmem | hmem | hmem | hmem
    · exact absurd hmem (by decide)
    · exact isXmlNameByte_ne_zero (hname 0 hmem) rfl
    · exact isBlank_ne_zero (htail 0 hmem) rfl
    · exact absurd hmem (by decide)
  | noneTag body => simp [bytes, h.1] at hmem
  | comment body => simp [bytes, h.1] at hmem
  | text body => exact h.2.1 hmem

/-! ## What the sub-parsers pass over -/

theorem firstFound_pass {parse : Bytes → Option XmlFound} {parsers : List (Bytes → Option XmlFound)}
    {buf : Bytes} (h : parse buf = some { status := .ok }) :
    firstFound (parse :: parsers) buf = firstFound parsers buf := by
  rw [firstFound, h]
  rfl

theorem firstFound_found {parse : Bytes → Option XmlFound} {parsers : List (Bytes → Option XmlFound)}
    {buf : Bytes} {found : XmlFound} (h : parse buf = some found) (hok : found.status ≠ .ok) :
    firstFound (parse :: parsers) buf = some found := by
  rw [firstFound, h]
  exact if_neg hok

section

variable {buf : Bytes} (h0 : (0 : UInt8) ∉ buf)

include h0

theorem parseDeclaration_pass (h : matchPieces declarationExp.pieces buf = none) :
    parseDeclaration buf = some { status := .ok } := by
  obtain ⟨r, hr⟩ := regexp_of_no_match h0 h
  rw [parseDeclaration, hr]

theorem parseTagOf_pass {exp : Regexp} {type : XmlNodeType} (h : matchPieces exp.pieces buf = none) :
    parseTagOf exp type buf = some { status := .ok } := by
  obtain ⟨r, hr⟩ := regexp_of_no_match h0 h
  rw [parseTagOf, hr]

theorem parseCommentTag_pass (h : matchPieces commentExp.pieces buf = none) :
    parseCommentTag buf = some { status := .ok } := by
  obtain ⟨r, hr⟩ := regexp_of_no_match h0 h
  rw [parseCommentTag, hr]

theorem parseNoneTag_pass (h : matchPieces noneExp.pieces buf = none) :
    parseNoneTag buf = some { status := .ok } := by
  obtain ⟨r, hr⟩ := regexp_of_no_match h0 h
  rw [parseNoneTag, hr]

end

/-- The second byte tells the sub-parsers apart. -/
theorem second_none {x : UInt8} {ps : List (Piece UInt8)} {s : Bytes} (h : ∀ c ∈ s.head?, c ≠ x) :
    matchPieces (lit 60 :: lit x :: ps) (60 :: s) = none := by
  rw [matchPieces_lit, matchPieces_lit_none h]
  rfl

theorem tagExp_none {s : Bytes} (h : ∀ c ∈ s.head?, isNameChar c = false) :
    matchPieces tagExp.pieces (60 :: s) = none := by
  have hname : matchPieces [many isNameChar 1] s = none := by
    refine matchPieces_none fun n hn hleast => ?_
    have hlong : (many isNameChar 1).longest s = 0 := by
      show (s.takeWhile isNameChar).length = 0
      rw [takeWhile_of_head h]
      rfl
    exact absurd (hleast.trans hn) (by rw [hlong]; decide)
  show matchPieces (lit 60 :: [many isNameChar 1]) (60 :: s) = none
  rw [matchPieces_lit, hname]
  rfl

/-! ## What is taken off the buffer -/

theorem isNameChar_of_isBlank {c : UInt8} (h : isBlank c) : isNameChar c = false := by
  rcases hname : isNameChar c with _ | _
  · rfl
  · exact absurd (isspace_of_isBlank h) (by simp [isspace_of_isNameChar hname])

/-- The name of a tag ends where the blanks in front of an attribute or its end begin. -/
theorem head_behind_name {attrs : List AttrText} (hattrs : ∀ a ∈ attrs, a.WellFormed) {tail u : Bytes}
    (htail : ∀ c ∈ tail, isBlank c) (hu : ∀ c ∈ u.head?, isNameChar c = false) :
    ∀ c ∈ (AttrText.texts attrs ++ (tail ++ u)).head?, isNameChar c = false := by
  intro c hc
  rcases attrs with _ | ⟨a, attrs⟩
  · rw [AttrText.texts, List.map_nil, List.flatten_nil, List.nil_append] at hc
    rcases tail with _ | ⟨x, tail⟩
    · exact hu c hc
    · obtain rfl := Option.some.inj hc
      exact isNameChar_of_isBlank (htail x List.mem_cons_self)
  · have ha := hattrs a List.mem_cons_self
    obtain ⟨x, xs, hx⟩ := List.exists_cons_of_ne_nil ha.before_ne
    rw [AttrText.texts_cons, AttrText.text, hx] at hc
    obtain rfl := Option.some.inj hc
    exact isNameChar_of_isBlank (ha.before x (hx ▸ List.mem_cons_self))

theorem stops_head {u : Bytes} (h : Stops u) : ∀ c ∈ u.head?, isNameChar c = false :=
  fun c hc => (h c hc).2.2

theorem parseNode_tag {name tail rest : Bytes} {attrs : List AttrText} {selfClosed : Bool}
    (hne : name ≠ []) (hname : ∀ c ∈ name, isNameChar c) (hattrs : ∀ a ∈ attrs, a.Readable)
    (htail : ∀ c ∈ tail, isBlank c)
    (h0 : (0 : UInt8) ∉ (Construct.tag name attrs tail selfClosed).bytes ++ rest) :
    parseNode ((Construct.tag name attrs tail selfClosed).bytes ++ rest) =
      some ⟨.findNode,
        some { type := .tag, name := name, closeNode := selfClosed,
               attributes := attrs.map AttrText.toAttribute },
        (Construct.tag name attrs tail selfClosed).bytes.length⟩ := by
  set more := AttrText.texts attrs ++ (tail ++ (tagEnd selfClosed ++ rest)) with hmore
  have hsplit : (Construct.tag name attrs tail selfClosed).bytes ++ rest = [60] ++ (name ++ more) := by
    simp [Construct.bytes, hmore]
  have hhead := head_behind_name (fun a ha => (hattrs a ha).wellFormed) htail
    (stops_head (stops_tagEnd selfClosed rest))
  obtain ⟨x, xs, hx⟩ := List.exists_cons_of_ne_nil hne
  have hfirst : ∀ c ∈ (name ++ more).head?, c ≠ 63 := by
    intro c hc
    rw [hx] at hc
    obtain rfl := Option.some.inj hc
    rintro rfl
    exact absurd (hname 63 (hx ▸ List.mem_cons_self)) (by decide)
  have hlong : 2 < ([60] ++ (name ++ more)).length := by
    have hpos := List.length_pos_of_ne_nil hne
    have hend : 0 < (tagEnd selfClosed).length := by cases selfClosed <;> decide
    simp only [hmore, List.length_append, List.length_singleton]
    omega
  rw [hsplit] at h0 ⊢
  have htag : parseTag ([60] ++ (name ++ more)) = _ := parseTagOf_eq begins_tag .tag hne hname hhead h0 hlong
  rw [parseUnknownAttributes_eq hattrs htail selfClosed hmore] at htag
  rw [parseNode, firstFound_pass (parseDeclaration_pass h0 (second_none hfirst)),
    firstFound_found htag (by simp)]
  simp [Construct.bytes]
  omega

theorem parseNode_closeTag {name tail rest : Bytes} (hne : name ≠ []) (hname : ∀ c ∈ name, isNameChar c)
    (htail : ∀ c ∈ tail, isBlank c) (h0 : (0 : UInt8) ∉ (Construct.closeTag name tail).bytes ++ rest) :
    parseNode ((Construct.closeTag name tail).bytes ++ rest) =
      some ⟨.findNode, some { type := .closeTag, name := name },
        (Construct.closeTag name tail).bytes.length⟩ := by
  set more := AttrText.texts [] ++ (tail ++ (tagEnd false ++ rest)) with hmore
  have hsplit : (Construct.closeTag name tail).bytes ++ rest = [60, 47] ++ (name ++ more) := by
    simp [Construct.bytes, hmore, tagEnd, AttrText.texts]
  have hhead := @head_behind_name [] (fun a ha => (by cases ha)) _ _ htail
    (stops_head (stops_tagEnd false rest))
  have hlong : 2 < ([60, 47] ++ (name ++ more)).length := by
    have hpos := List.length_pos_of_ne_nil hne
    simp only [List.length_append, List.length_cons, List.length_nil]
    omega
  rw [hsplit] at h0 ⊢
  have htag : parseCloseTag ([60, 47] ++ (name ++ more)) = _ :=
    parseTagOf_eq begins_closeTag .closeTag hne hname hhead h0 hlong
  rw [parseUnknownAttributes_eq (fun a ha => (by cases ha)) htail false hmore] at htag
  have hslash : ∀ c ∈ (47 :: (name ++ more)).head?, c = (47 : UInt8) := fun c hc =>
    (Option.some.inj hc).symm
  have hdecl : matchPieces declarationExp.pieces ([60, 47] ++ (name ++ more)) = none :=
    second_none fun c hc => hslash c hc ▸ by decide
  have hopen : matchPieces tagExp.pieces ([60, 47] ++ (name ++ more)) = none :=
    tagExp_none fun c hc => hslash c hc ▸ by decide
  have htagpass : parseTag ([60, 47] ++ (name ++ more)) = _ := parseTagOf_pass h0 hopen
  rw [parseNode, firstFound_pass (parseDeclaration_pass h0 hdecl), firstFound_pass htagpass,
    firstFound_found htag (by simp)]
  simp [Construct.bytes, AttrText.texts, tagEnd]
  omega

end Dframework
