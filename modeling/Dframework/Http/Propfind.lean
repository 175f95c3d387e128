import Mathlib
import Dframework.Lang.Number
import Dframework.Lang.StringRuns
import Dframework.Net.Uri
import Dframework.Util.TimeIso
import Dframework.Util.TimeParse
import Dframework.Xml.Markup

/-!
# `HttpPropfind`

The answer to a `PROPFIND` is parsed block by block, and at its end four walks go down the tree:
over the document, over a response, over its status and over its properties. Each of them passes by
what is no element. A listener is called for each response, with what the walks have found.

Results:
1. `Markup.shows_elements`: the nodes that the walks do not pass by are the elements.
2. `foldlM_shows`: a walk over elements whose rounds do not disturb each other, in any order.
-/

namespace Dframework

open CLib Pattern

/-- `HttpPropfind::Prop`. What the constructor does not set is `none`. -/
structure PropfindProp where
  name : Bytes := []
  contentType : Bytes := []
  etag : Bytes := []
  httpStatus : Int := 0
  exclusiveLock : Nat := 0
  sharedLock : Nat := 0
  dir : Bool := false
  file : Bool := false
  createDate : Option Int := none
  lastModified : Option Int := none
  contentLength : Option UInt64 := none
  deriving DecidableEq, Repr

namespace HttpPropfind

structure LockEntry where
  lockscope : Nat := 0
  locktype : Nat := 0

def LOCKSCOPE_EXCLUSIVE : Nat := 1

def LOCKSCOPE_SHARED : Nat := 3

def LOCKTYPE_WRITE : Nat := 1

/-- What an entry of `D:supportedlock` is to the properties. -/
def addLock (prop : PropfindProp) (le : LockEntry) : PropfindProp :=
  let prop := if le.lockscope &&& LOCKSCOPE_EXCLUSIVE ≠ 0 then
    { prop with exclusiveLock := le.locktype } else prop
  if le.lockscope &&& LOCKSCOPE_SHARED ≠ 0 then { prop with sharedLock := le.locktype } else prop

mutual

/-- `HttpPropfind::propfindSupportedlock`, with `*ple` where there is one. -/
def propfindSupportedlock (prop : PropfindProp) (ple : Option LockEntry) :
    XmlTree → PropfindProp × Option LockEntry
  | .node _ childs => supportedlockLoop prop ple childs

def supportedlockLoop (prop : PropfindProp) (ple : Option LockEntry) :
    List XmlTree → PropfindProp × Option LockEntry
  | [] => (prop, ple)
  | chd :: childs =>
    let name := chd.root.name
    if !chd.isTag then supportedlockLoop prop ple childs
    else if equals name (bytes "D:lockentry") then
      let found := propfindSupportedlock prop (some {}) chd
      supportedlockLoop (addLock found.1 (found.2.getD {})) ple childs
    else if equals name (bytes "D:lockscope") then
      if Xml.hasNode chd (bytes "D:exclusive") then
        supportedlockLoop prop (ple.map ({ · with lockscope := LOCKSCOPE_EXCLUSIVE })) childs
      else if Xml.hasNode chd (bytes "D:shared") then
        supportedlockLoop prop (ple.map ({ · with lockscope := LOCKSCOPE_SHARED })) childs
      else supportedlockLoop prop ple childs
    else if equals name (bytes "D:locktype") && Xml.hasNode chd (bytes "D:write") then
      supportedlockLoop prop (ple.map ({ · with locktype := LOCKTYPE_WRITE })) childs
    else supportedlockLoop prop ple childs

end

/-- `*out` behind `Time::iso8601`. There is no result where `NULL` is read. -/
def readIso8601 (out : Option Int) (date : Bytes) : Option (Option Int) :=
  (toChars date).map fun date =>
    match Time.iso8601 .eInval date with
    | .ok t => some t
    | .error _ => out

/-- `*out` behind `Time::parse`: a time of -1 is stored, and refused. -/
def readTime (out : Option Int) (date : Bytes) : Option (Option Int) :=
  (toChars date).map fun date =>
    match Time.parse date with
    | .ok t => some t
    | .error _ =>
      if [Time.rfc1123, Time.rfc1036, Time.asctime].any fun read =>
          read date matches .error { value := .error, .. } then some (-1)
      else out

/-- One round of `HttpPropfind::propfindProp`. -/
def propfindPropRound (prop : PropfindProp) (chd : XmlTree) : Option PropfindProp :=
  let name := chd.root.name
  let text := Xml.text chd
  if !chd.isTag then some prop
  else if equals name (bytes "lp1:resourcetype") then
    some { prop with dir := Xml.hasNode chd (bytes "D:collection") || prop.dir }
  else if equals name (bytes "lp1:creationdate") then do
    some { prop with createDate := ← readIso8601 prop.createDate text }
  else if equals name (bytes "lp1:getlastmodified") then do
    some { prop with lastModified := ← readTime prop.lastModified text }
  else if equals name (bytes "lp1:getetag") then some { prop with etag := text }
  else if equals name (bytes "D:getcontenttype") then some { prop with contentType := text }
  else if equals name (bytes "D:supportedlock") then
    some (propfindSupportedlock prop none chd).1
  else if equals name (bytes "lp1:getcontentlength") then
    some { prop with contentLength := some (UInt64.ofInt (parseLong (toChars text))) }
  else if equals name (bytes "lp2:executable") then
    some { prop with file := equals text (bytes "F") || prop.file }
  else some prop

def propfindProp (prop : PropfindProp) (node : XmlTree) : Option PropfindProp :=
  node.childs.foldlM propfindPropRound prop

/-- `[a-zA-Z]`. -/
def isAlphaChar (c : UInt8) : Bool :=
  (97 ≤ c && c ≤ 122) || (65 ≤ c && c ≤ 90)

/-- `^([a-zA-Z]+)\/([0-9]+)\.([0-9]+)[\s]+([0-9]+)[\s]+([\s\S]*)`. -/
def statusExp : Regexp :=
  ⟨[many isAlphaChar 1, lit 47, many isDigitChar 1, lit 46, many isDigitChar 1, many isspace 1,
    many isDigitChar 1, many isspace 1, many anyChar 0], [(0, 1), (2, 3), (4, 5), (6, 7), (8, 9)]⟩

/-- The status that is read from a status line. There is no result where `NULL` is copied from. -/
def readStatus (hstatus : Bytes) : Option Int :=
  match statusExp.regexp (toChars hstatus) with
  | .error _ => some 0
  | .ok exp => do
    let sistatus ← exp.getMatchString 4
    some (parseInt (toChars sistatus))

/-- One round of `HttpPropfind::propfindStat`. -/
def propfindStatRound (prop : PropfindProp) (chd : XmlTree) : Option PropfindProp :=
  let name := chd.root.name
  if !chd.isTag then some prop
  else if equals name (bytes "D:status") then do
    some { prop with httpStatus := ← readStatus (Xml.text chd) }
  else if equals name (bytes "D:prop") then propfindProp prop chd
  else some prop

def propfindStat (prop : PropfindProp) (node : XmlTree) : Option PropfindProp :=
  node.childs.foldlM propfindStatRound prop

/-- `m_sName` of a resource, for the `m_sPath` of the query. -/
def hrefName (path href : Bytes) : Bytes :=
  let name := trim href
  let name := if path ≠ [] ∧ indexOf name path = 0 then name.drop path.length else name
  let name := if name.getLast? = some 47 then name.take (name.length - 1) else name
  if name = [] then bytes "." else name

/-- One round of `HttpPropfind::propfindResponse`. -/
def propfindResponseRound (path : Bytes) (prop : PropfindProp) (chd : XmlTree) : Option PropfindProp :=
  let name := chd.root.name
  if !chd.isTag then some prop
  else if equals name (bytes "D:href") then some { prop with name := hrefName path (Xml.text chd) }
  else if equals name (bytes "D:propstat") then propfindStat prop chd
  else some prop

/-- `HttpPropfind::propfindResponse`: what `onPropfind` is called with. -/
def propfindResponse (path : Bytes) (childs : List XmlTree) : Option PropfindProp :=
  childs.foldlM (propfindResponseRound path) {}

mutual

/-- `HttpPropfind::propfindComplete`: what `onPropfind` is called with, call by call. What the
calls answer is not looked at. -/
def propfindComplete (path : Bytes) : List XmlTree → Option (List PropfindProp)
  | [] => some []
  | node :: list => do
    let calls ← propfindNode path node
    let rest ← propfindComplete path list
    some (calls ++ rest)

/-- One round of it. -/
def propfindNode (path : Bytes) : XmlTree → Option (List PropfindProp)
  | .node node childs =>
    if !node.isTag then some []
    else if equals node.name (bytes "D:response") then do some [← propfindResponse path childs]
    else if equals node.name (bytes "D:multistatus") then propfindComplete path childs
    else some []

end

end HttpPropfind

/-- `m_XmlParser` and `m_sPath`. -/
structure HttpPropfind where
  xmlParser : XmlParser := {}
  path : Bytes := []

namespace HttpPropfind

/-- The path of the URI, with a slash at its end. -/
def collectionPath (uri : Uri) : Bytes :=
  if uri.path.getLast? = some 47 then uri.path else uri.path ++ [47]

/-- What `HttpPropfind::query` does before it sends the request. -/
def query (p : HttpPropfind) (uri : Uri) : Except Ret HttpPropfind :=
  if uri.path = [] then .error ⟨.error, "path is empty."⟩
  else .ok { p with path := collectionPath uri }

/-- `HttpPropfind::onRequest`, which cleans the result of the parser. -/
def onRequest (p : HttpPropfind) : HttpPropfind :=
  { p with xmlParser := {} }

/-- `HttpPropfind::onResponse` of a query that is not read from: the calls of `onPropfind`, and its
value. A block from `NULL` has no result. -/
def onResponse (p : HttpPropfind) (b : Option Bytes) (s : Nat) :
    Option (List PropfindProp × Retval × HttpPropfind) :=
  match b with
  | none =>
    if s = 0 then
      match p.xmlParser.getResult with
      | none => some ([], none, p)
      | some list => (propfindComplete p.path list).map fun calls => (calls, none, p)
    else none
  | some b => do
    let (xmlstatus, xmlParser) ← p.xmlParser.parseBuffer b s
    match xmlstatus with
    | .ok | .emptyBuffer | .needBuffer => some ([], none, { p with xmlParser })
    | _ => some ([], retval .error, { p with xmlParser })

end HttpPropfind

/-! ## Elements -/

/-- An element: its tag, and what it holds. An element that closes itself holds nothing. -/
abbrev Element := OpenTag × Markup

def Markup.elements : Markup → List Element
  | text _ => []
  | empty _ tag next => (tag, .text []) :: next.elements
  | element _ tag inner _ next => (tag, inner) :: next.elements

/-- The element has that name, and what it holds is as it has to be. -/
def Element.Is (e : Element) (name : String) (Holds : Markup → Prop) : Prop :=
  e.1.name = bytes name ∧ Holds e.2

/-! ## Elements in the tree -/

structure Shows (e : Element) (t : XmlTree) : Prop where
  isTag : t.isTag = true
  name : t.root.name = e.1.name
  text : ∀ d, e.2 = .text d → Xml.text t = d
  childs : t.childs.filter XmlTree.isTag = e.2.trees.filter XmlTree.isTag

namespace Markup

theorem gapTrees_filter (gap : Bytes) : (gapTrees gap).filter XmlTree.isTag = [] := by
  rw [gapTrees]
  split <;> rfl

theorem texts_gapTrees (gap : Bytes) (ts : List XmlTree) :
    Xml.texts (gapTrees gap ++ ts) = gap ++ Xml.texts ts := by
  rw [gapTrees]
  split
  next h => rw [h]; rfl
  · rfl

/-- The elements are the nodes that the walks do not pass by. -/
theorem shows_elements (m : Markup) : List.Forall₂ Shows m.elements (m.trees.filter XmlTree.isTag) := by
  induction m with
  | text body =>
    rw [trees, gapTrees_filter]
    exact .nil
  | empty gap tag next ih =>
    rw [trees, List.filter_append, gapTrees_filter, List.nil_append, List.filter_cons_of_pos (by rfl)]
    refine .cons ⟨rfl, rfl, ?_, ?_⟩ ih
    · rintro d ⟨⟩
      rfl
    · exact (gapTrees_filter []).symm
  | element gap tag inner closeTail next ihinner ihnext =>
    rw [trees, List.filter_append, gapTrees_filter, List.nil_append, List.filter_cons_of_pos (by rfl)]
    refine .cons ⟨rfl, rfl, ?_, ?_⟩ ihnext
    · rintro d rfl
      rw [Xml.text_eq]
      exact (texts_gapTrees d _).trans (List.append_nil d)
    · show (inner.trees ++ [_]).filter _ = _
      rw [List.filter_append, List.filter_cons_of_neg (fun h => by cases h), List.filter_nil,
        List.append_nil]

end Markup

theorem Markup.WellFormed.elements {m : Markup} (h : m.WellFormed) : ∀ e ∈ m.elements, e.2.WellFormed := by
  induction m with
  | text body => exact fun e he => by cases he
  | empty gap tag next ih =>
    intro e he
    rcases List.mem_cons.mp he with rfl | he
    · exact ⟨List.not_mem_nil, List.not_mem_nil⟩
    · exact ih h.2.2 e he
  | element gap tag inner closeTail next _ ih =>
    intro e he
    rcases List.mem_cons.mp he with rfl | he
    · exact h.2.2.1
    · exact ih h.2.2.2.2 e he

/-- A round does what the name of the node says. -/
theorem Shows.named {e : Element} {t : XmlTree} (ht : Shows e t) {name : String} {Holds : Markup → Prop}
    (he : e.Is name Holds) : t.root.name = bytes name :=
  ht.name.trans he.1

/-! ## Walks -/

/-- A walk passes by what is no element. -/
theorem foldlM_elements {α : Type} {f : α → XmlTree → Option α}
    (hskip : ∀ s t, t.isTag = false → f s t = some s) (childs : List XmlTree) (s : α) :
    childs.foldlM f s = (childs.filter XmlTree.isTag).foldlM f s := by
  induction childs generalizing s with
  | nil => rfl
  | cons t childs ih =>
    rcases htag : t.isTag with _ | _
    · rw [List.filter_cons_of_neg (by simp [htag]), List.foldlM_cons, hskip s t htag]
      exact ih s
    · rw [List.filter_cons_of_pos htag, List.foldlM_cons, List.foldlM_cons]
      exact congrArg _ (funext ih)

/-- The order of rounds that do not disturb each other does not matter. -/
theorem foldlM_perm {α β : Type} {f : α → β → Option α} {l l' : List β} (hperm : l.Perm l')
    (hcomm : ∀ x ∈ l, ∀ y ∈ l, ∀ s, (f s x).bind (f · y) = (f s y).bind (f · x)) (s : α) :
    l.foldlM f s = l'.foldlM f s := by
  induction hperm generalizing s with
  | nil => rfl
  | cons x _ ih =>
    rw [List.foldlM_cons, List.foldlM_cons]
    exact congrArg _ (funext (ih fun a ha b hb =>
      hcomm a (List.mem_cons_of_mem x ha) b (List.mem_cons_of_mem x hb)))
  | swap x y l =>
    simp only [List.foldlM_cons, Option.bind_eq_bind, ← Option.bind_assoc]
    rw [hcomm y List.mem_cons_self x (List.mem_cons_of_mem y List.mem_cons_self)]
  | trans h _ ih ih' =>
    rw [ih hcomm, ih' fun a ha b hb => hcomm a (h.mem_iff.mpr ha) b (h.mem_iff.mpr hb)]

/-- A walk over an element that holds other elements, in any order. -/
theorem foldlM_shows {α : Type} {f : α → XmlTree → Option α} {e : Element} {t : XmlTree}
    {es : List Element} (ht : Shows e t) (hperm : e.2.elements.Perm es)
    (hskip : ∀ s t, t.isTag = false → f s t = some s) :
    ∃ ts, List.Forall₂ Shows es ts ∧
      ((∀ x ∈ ts, ∀ y ∈ ts, ∀ s, (f s x).bind (f · y) = (f s y).bind (f · x)) →
        ∀ s, t.childs.foldlM f s = ts.foldlM f s) := by
  obtain ⟨ts, hts, hperm'⟩ := List.perm_comp_forall₂ hperm.symm e.2.shows_elements
  refine ⟨ts, hts, fun hcomm s => ?_⟩
  rw [foldlM_elements hskip, ht.childs]
  exact (foldlM_perm hperm' hcomm s).symm

end Dframework
