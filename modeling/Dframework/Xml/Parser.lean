import Mathlib
import Dframework.Util.Regexp
import Dframework.Xml.Document

/-!
# `XmlParser`

The bytes of a call are put behind those that an earlier call left, and nodes are taken off the
front of the buffer. Six sub-parsers are asked in turn. Each of them answers `DFW_XML_OK` where the
buffer begins with something else, so that the next one is asked.

The expressions are matched against the C string at their pointer, however long the part is that a
sub-parser has been given.
-/

namespace Dframework

open CLib Pattern

inductive XmlStatus where
  | ok
  | error
  | syntaxError
  | emptyBuffer
  | needBuffer
  | findNode
  deriving DecidableEq, Repr

/-- What a sub-parser answers: its status, `o_node` and `*o_size`. -/
structure XmlFound where
  status : XmlStatus
  node : Option XmlNode := none
  outsize : Nat := 0
  deriving DecidableEq, Repr

/-- `[\-\_\:a-zA-Z0-9]`. -/
def isNameChar (c : UInt8) : Bool :=
  c == 45 || c == 95 || c == 58 || isAlnum c

/-- `[\-\_a-zA-Z0-9]`. -/
def isNoneChar (c : UInt8) : Bool :=
  c == 45 || c == 95 || isAlnum c

/-- `[\s\S]`. -/
def anyChar (_ : UInt8) : Bool := true

/-! ## Attributes -/

/-- `^[\s]*([\-\_\:a-zA-Z0-9]*)[\s]*=[\s]*`. -/
def attrExp : Regexp :=
  ⟨[many isspace 0, many isNameChar 0, many isspace 0, lit 61, many isspace 0], [(1, 2)]⟩

/-- `^[\s]*([\-\_\:a-zA-Z0-9]*)`. -/
def bareExp : Regexp :=
  ⟨[many isspace 0, many isNameChar 0], [(1, 2)]⟩

/-- `startQ`. -/
def startQuote : Bytes → Option UInt8
  | 34 :: _ => some 34
  | 39 :: _ => some 39
  | _ => none

/-- The loop over a value, from `k` and `hasQ` on: where it ends, and `lastQ`. The end `/>` of a
value without quotes is looked for in `buf`, where the attribute begins. -/
def valueLoop (buf : Bytes) (size : Nat) (startQ : Option UInt8) : Bool → Nat → Bytes → Nat × Nat
  | _, k, [] => (k, 0)
  | true, k, _ :: val => valueLoop buf size startQ false (k + 1) val
  | false, k, ch :: val =>
    if ch = 92 then valueLoop buf size startQ true (k + 1) val
    else
      match startQ with
      | none =>
        if isBlank ch || ch == 62 then (k, 0)
        else if ch = 47 ∧ k < size - 1 ∧ buf[k + 1]? = some 62 then (k, 0)
        else valueLoop buf size startQ false (k + 1) val
      | some q => if q = ch then (k + 1, 1) else valueLoop buf size startQ false (k + 1) val

/-- `XmlParser::parseAttributes_real`: the attribute, and `*o_size`. There is no result where `NULL`
is copied from, or where `size - length` wraps around. -/
def parseAttributesReal (buf : Option Bytes) (size : Nat) : Option (XmlAttribute × Nat) :=
  match buf with
  | none => some (⟨[], []⟩, 0)
  | some b =>
    match attrExp.regexp buf with
    | .ok regexp => do
      let length := regexp.getMatchLength 0
      if size < length then none
      else if size = length then
        some (⟨← regexp.getMatchString 1, []⟩, length)
      else
        let val := b.drop length
        let last := size - length
        let startQ := startQuote val
        let toff := if startQ.isSome then 1 else 0
        let (k, lastQ) := valueLoop b size startQ false toff ((val.take last).drop toff)
        let sAttrValue ← setChars (val.drop toff) (k - toff - lastQ)
        some (⟨← regexp.getMatchString 1, sAttrValue⟩, length + k)
    | .error _ =>
      match bareExp.regexp buf with
      | .ok exp2 => do some (⟨← exp2.getMatchString 1, []⟩, exp2.getMatchLength 0)
      | .error _ => some (⟨[], []⟩, 0)

/-- The loop of `testAttributes` and `parseEndedAttributes`, which ends at the latest when `size`
is used up: the attributes, and what is left behind them. -/
def attributesLoop : Nat → Option Bytes → Nat → Option (List XmlAttribute × Option Bytes × Nat)
  | 0, p, size => some ([], p, size)
  | fuel + 1, p, size =>
    if size = 0 then some ([], p, size)
    else do
      let (attr, oize) ← parseAttributesReal p size
      let found := if attr.name = [] then [] else [attr]
      if oize = 0 then some (found, p, size)
      else
        let (attrs, rest, left) ← attributesLoop fuel (p.map fun b => b.drop oize) (size - oize)
        some (found ++ attrs, rest, left)

/-- `XmlParser::findCloseTag`, from `k` on: where the end of the tag is, and `*olen`. -/
def findCloseTag : Nat → Bytes → Option (Nat × Nat)
  | _, [] => none
  | k, ch :: buf =>
    if isBlank ch then findCloseTag (k + 1) buf
    else if ch = 47 ∧ buf.head? = some 62 then some (k, 2)
    else if ch = 62 then some (k, 1)
    else none

/-- `XmlParser::testAttributes`: `*closeTag` and `*closeLen`, when the tag is closed. -/
def testAttributes (buf : Bytes) (size : Nat) : Option (Option (Nat × Nat)) := do
  let (_, p, left) ← attributesLoop size (some buf) size
  some ((findCloseTag 0 ((p.getD []).take left)).map fun c => (c.1 + (size - left), c.2))

/-- `XmlParser::parseEndedAttributes`: `m_Attributes` of the node. -/
def parseEndedAttributes (buf : Option Bytes) (size : Nat) : Option (List XmlAttribute) := do
  let (attrs, _) ← attributesLoop size buf size
  some attrs

/-- `XmlParser::parseUnknownAttributes`: `m_Attributes` and `m_bCloseNode` of the node, and
`*o_size`, when the tag is closed. -/
def parseUnknownAttributes (buf : Bytes) (size : Nat) :
    Option (Option (List XmlAttribute × Bool × Nat)) := do
  match ← testAttributes buf size with
  | none => some none
  | some (closeTag, closeLen) =>
    some (some (← parseEndedAttributes (some buf) size, decide (1 < closeLen), closeTag + closeLen))

/-! ## The sub-parsers -/

/-- `^<\?([\-\_\:a-zA-Z0-9]*)(\s*[\s\S]*?)\?>`. -/
def declarationExp : Regexp :=
  ⟨[lit 60, lit 63, many isNameChar 0, many isspace 0, few anyChar 0, lit 63, lit 62],
    [(2, 3), (3, 5)]⟩

/-- `^<([\-\_\:a-zA-Z0-9]+)`. -/
def tagExp : Regexp := ⟨[lit 60, many isNameChar 1], [(1, 2)]⟩

/-- `^</([\-\_\:a-zA-Z0-9]+)`. -/
def closeTagExp : Regexp := ⟨[lit 60, lit 47, many isNameChar 1], [(2, 3)]⟩

/-- `^<!--([\s\S]*?)-->`. -/
def commentExp : Regexp :=
  ⟨[lit 60, lit 33, lit 45, lit 45, few anyChar 0, lit 45, lit 45, lit 62], [(4, 5)]⟩

/-- `^<!([\-\_a-zA-Z0-9]*)([\s\S]*?)>`. -/
def noneExp : Regexp :=
  ⟨[lit 60, lit 33, many isNoneChar 0, few anyChar 0, lit 62], [(2, 3), (3, 4)]⟩

/-- `XmlParser::parseDeclaration`. -/
def parseDeclaration (buf : Bytes) : Option XmlFound :=
  match declarationExp.regexp (toChars buf) with
  | .error _ => some { status := .ok }
  | .ok regexp => do
    let text ← regexp.getMatchString 0
    let name ← regexp.getMatchString 1
    let attributes ← parseEndedAttributes (regexp.getMatch 2) (regexp.getMatchLength 2)
    some ⟨.findNode, some { type := .declaration, name, text, attributes }, regexp.getMatchLength 0⟩

/-- What `parseTag` and `parseCloseTag` have in common. -/
def parseTagOf (exp : Regexp) (type : XmlNodeType) (buf : Bytes) : Option XmlFound :=
  match exp.regexp (toChars buf) with
  | .error _ => some { status := .ok }
  | .ok regexp => do
    let name ← regexp.getMatchString 1
    let ssize := regexp.getMatchLength 0
    match ← parseUnknownAttributes (buf.drop ssize) (buf.length - ssize) with
    | none => some { status := .needBuffer }
    | some (attributes, closeNode, testoffset) =>
      some ⟨.findNode, some { type, name, attributes, closeNode }, ssize + testoffset⟩

/-- `XmlParser::parseTag`. -/
def parseTag : Bytes → Option XmlFound := parseTagOf tagExp .tag

/-- `XmlParser::parseCloseTag`. -/
def parseCloseTag : Bytes → Option XmlFound := parseTagOf closeTagExp .closeTag

/-- `XmlParser::parseCommentTag`. -/
def parseCommentTag (buf : Bytes) : Option XmlFound :=
  match commentExp.regexp (toChars buf) with
  | .error _ => some { status := .ok }
  | .ok regexp => do
    let text ← regexp.getMatchString 0
    some ⟨.findNode, some { type := .comment, name := bytes "#comment", text }, regexp.getMatchLength 0⟩

/-- `XmlParser::parseNoneTag`. The node is made, but it does not become `o_node`. -/
def parseNoneTag (buf : Bytes) : Option XmlFound :=
  match noneExp.regexp (toChars buf) with
  | .error _ => some { status := .ok }
  | .ok regexp => do
    let _name ← regexp.getMatchString 1
    let _text ← regexp.getMatchString 2
    some ⟨.findNode, none, regexp.getMatchLength 0⟩

/-- A node of type `DFW_XMLNODETYPE_TEXT`. -/
def textNode (text : Bytes) : XmlNode := { type := .text, name := bytes "#text", text }

/-- `XmlParser::parseText`. -/
def parseText (buf : Bytes) : Option XmlFound :=
  match strstr buf [60] with
  | some 0 => some { status := .ok }
  | some n => some ⟨.findNode, some (textNode (buf.take n)), n⟩
  | none => some ⟨.findNode, some (textNode buf), buf.length⟩

/-! ## `parseBuffer` -/

/-- The first sub-parser that does not answer `DFW_XML_OK`. -/
def firstFound : List (Bytes → Option XmlFound) → Bytes → Option XmlFound
  | [], _ => some { status := .syntaxError }
  | parse :: parsers, buf => do
    let found ← parse buf
    if found.status = .ok then firstFound parsers buf else some found

/-- The sub-parsers, in their order. -/
def parseNode : Bytes → Option XmlFound :=
  firstFound [parseDeclaration, parseTag, parseCloseTag, parseCommentTag, parseNoneTag, parseText]

/-- The loop of `parseBuffer`. Each round but the last takes a byte off, so it ends at the latest
when the buffer is empty. -/
def parseLoop : Nat → Bytes → Xml → Option (XmlStatus × Bytes × Xml)
  | 0, buf, xml => some (.ok, buf, xml)
  | fuel + 1, buf, xml =>
    if buf = [] then some (.ok, buf, xml)
    else do
      let found ← parseNode buf
      if found.status ≠ .findNode then some (found.status, buf, xml)
      else
        match found.node with
        | none => some (.error, buf, xml)
        | some node =>
          if found.outsize = 0 then some (.error, buf, xml)
          else parseLoop fuel (buf.drop found.outsize) (xml.append node)

structure XmlParser where
  buffer : Bytes := []
  result : Option Xml := none
  deriving DecidableEq, Repr

namespace XmlParser

/-- The tree so far. -/
def xml (p : XmlParser) : Xml := p.result.getD Xml.empty

/-- `XmlParser::parseBuffer()`. -/
def parseOwnBuffer (p : XmlParser) : Option (XmlStatus × XmlParser) :=
  if p.buffer = [] then some (.emptyBuffer, { p with result := some p.xml })
  else (parseLoop p.buffer.length p.buffer p.xml).map fun r => (r.1, ⟨r.2.1, some r.2.2⟩)

/-- `XmlParser::parseBuffer(buffer, size)`. There is no result where `NULL` is copied from. -/
def parseBuffer (p : XmlParser) (buffer : Bytes) (size : Nat) : Option (XmlStatus × XmlParser) := do
  let sBuffer ← append p.buffer buffer size
  parseOwnBuffer { p with buffer := sBuffer }

end XmlParser

end Dframework
