import Mathlib
import Dframework.Xml.DocumentRun
import Dframework.Xml.Search

/-!
# Documents as trees

The top of the document is handed out as an array of nodes, each with its childs. The closing tag
of an element is among its childs, as the last one, and what stands between two tags is a text node
even where it is white space.

A document is written as an element with what it holds and what follows it, so that a text always
stands between two tags.

Results:
1. `AreTrees.getRoot_eq`: the nodes of the arena as the trees that they are.
2. `parseBuffer_markup`: a document that is delivered whole becomes its trees.
-/

namespace Dframework

open CLib Pattern

namespace XmlTree

def childs : XmlTree → List XmlTree
  | node _ childs => childs

def isTag (t : XmlTree) : Bool := t.root.isTag

end XmlTree

namespace Xml

/-! ## The nodes with their childs -/

/-- A node with its childs, whose numbers are larger than its own. -/
def tree (s : Xml) : Nat → Nat → Option XmlTree
  | 0, _ => none
  | fuel + 1, id => (s.nodes[id]?).map fun e => .node e.1 (e.2.filterMap (s.tree fuel))

def getRoot (s : Xml) : List XmlTree :=
  s.nodeList.filterMap (s.tree s.nodes.length)

mutual

def text : XmlTree → Bytes
  | .node _ childs => texts childs

/-- The loop of `Xml::text`. -/
def texts : List XmlTree → Bytes
  | [] => []
  | chd :: childs =>
    (match chd.root.type with
      | .text => chd.root.text
      | .tag => text chd
      | _ => []) ++ texts childs

end

def hasNode (node : XmlTree) (name : Bytes) : Bool :=
  node.childs.any fun chd => chd.isTag && equals chd.root.name name

theorem text_eq (t : XmlTree) : text t = texts t.childs := by
  cases t
  rw [text, XmlTree.childs]

/-- The childs of a node have come in behind it. -/
def Later (s : Xml) : Prop :=
  ∀ id, ∀ c ∈ s.childsOf id, id < c

variable {s : Xml} {n : XmlNode}

theorem Later.place (h : s.Later) (hp : s.HasParent) : (s.place n).Later := by
  intro id c hc
  rw [childsOf_place hp] at hc
  split at hc
  next hparent =>
    rcases List.mem_append.mp hc with hold | hnew
    · exact h id c hold
    · rw [List.mem_singleton.mp hnew]
      exact hp id hparent
  next => exact h id c hc

theorem setClosedNode_nodes (s : Xml) (name : Bytes) : (s.setClosedNode name).nodes = s.nodes := by
  rw [setClosedNode]
  split <;> rfl

theorem Later.append (h : s.Later) (hp : s.HasParent) : (s.append n).Later := by
  have hplace : (s.place n).Later := h.place hp
  rw [Xml.append]
  split_ifs
  · exact hplace
  · intro id c hc
    rw [childsOf, setClosedNode_nodes] at hc
    exact hplace id c hc
  · exact hplace

theorem later_foldl (seq : List XmlNode) : (seq.foldl Xml.append Xml.empty).Later := by
  induction seq using List.reverseRecOn with
  | nil => exact fun id c hc => by cases hc
  | append_singleton seq n ih =>
    rw [List.foldl_append]
    exact ih.append (holds_foldl seq).hasParent

end Xml

section

variable {s : Xml}

mutual

theorem IsTree.tree_eq (hlater : s.Later) {id fuel : Nat} {t : XmlTree} (hfuel : s.nodes.length ≤ id + fuel) :
    IsTree (fun id => s.nodes[id]?) id t → s.tree fuel id = some t
  | @IsTree.node _ _ n ids childs hid hchilds => by
    have hget : s.nodes[id]? = some (n, ids) := hid
    have hlt := (List.getElem?_eq_some_iff.mp hget).1
    obtain ⟨fuel, rfl⟩ : ∃ f, fuel = f + 1 := ⟨fuel - 1, by omega⟩
    have hbehind : ∀ c ∈ ids, s.nodes.length ≤ c + fuel := by
      intro c hc
      have hmem : c ∈ s.childsOf id := by
        rw [Xml.childsOf, hget]
        exact hc
      have := hlater id c hmem
      omega
    rw [Xml.tree, hget, Option.map_some, hchilds.filterMap_eq hlater hbehind]

theorem AreTrees.filterMap_eq (hlater : s.Later) {ids : List Nat} {fuel : Nat} {ts : List XmlTree}
    (hfuel : ∀ id ∈ ids, s.nodes.length ≤ id + fuel) :
    AreTrees (fun id => s.nodes[id]?) ids ts → ids.filterMap (s.tree fuel) = ts
  | .nil => rfl
  | .cons ht hts => by
    rw [List.filterMap_cons_some (ht.tree_eq hlater (hfuel _ List.mem_cons_self)),
      hts.filterMap_eq hlater fun id hid => hfuel id (List.mem_cons_of_mem _ hid)]

end

/-- The trees at the top of the document. -/
theorem AreTrees.getRoot_eq (hlater : s.Later) {ts : List XmlTree}
    (h : AreTrees (fun id => s.nodes[id]?) s.nodeList ts) : s.getRoot = ts :=
  h.filterMap_eq hlater fun _ _ => Nat.le_add_left _ _

end

/-- A sequence with matching tags is handed out as the trees of its brackets. -/
theorem Nested.getRoot_eq {seq : List XmlNode} {ts : List XmlTree} (h : Nested seq ts) :
    (seq.foldl Xml.append Xml.empty).getRoot = ts := by
  have hp : Xml.empty.HasParent := fun parent hparent => by cases hparent
  obtain ⟨ids, new, hrun, htrees⟩ := Xml.append_nested h hp
  refine AreTrees.getRoot_eq (Xml.later_foldl seq) ?_
  have hgrow : Xml.empty.grow ids new = ⟨new, ids, []⟩ := rfl
  rw [hrun, hgrow]
  have hlook : ∀ id, Xml.lookFrom 0 new id = new[id]? := fun id => if_neg (Nat.not_lt_zero id)
  exact htrees.mono fun id e hid => (hlook id).symm.trans hid

def XmlParser.getResult (p : XmlParser) : Option (List XmlTree) :=
  p.result.map Xml.getRoot

/-! ## Documents as they are written -/

/-- What stands between the brackets of an opening tag. -/
structure OpenTag where
  name : Bytes
  attrs : List AttrText
  tail : Bytes

/-- The elements that stand side by side, with the text in front of each of them, which may be
empty, and the text behind the last one. -/
inductive Markup where
  | text (body : Bytes)
  | empty (gap : Bytes) (tag : OpenTag) (next : Markup)
  | element (gap : Bytes) (tag : OpenTag) (inner : Markup) (closeTail : Bytes) (next : Markup)

def IsCharData (s : Bytes) : Prop := (0 : UInt8) ∉ s ∧ 60 ∉ s

structure OpenTag.WellFormed (t : OpenTag) : Prop where
  name_ne : t.name ≠ []
  name : ∀ c ∈ t.name, isNameChar c
  attrs : ∀ a ∈ t.attrs, a.Readable
  tail : ∀ c ∈ t.tail, isBlank c

namespace Markup

def WellFormed : Markup → Prop
  | text body => IsCharData body
  | empty gap tag next => IsCharData gap ∧ tag.WellFormed ∧ next.WellFormed
  | element gap tag inner closeTail next =>
    IsCharData gap ∧ tag.WellFormed ∧ inner.WellFormed ∧ (∀ c ∈ closeTail, isBlank c) ∧ next.WellFormed

/-- A text, unless it is empty. -/
def gapText (gap : Bytes) : List Construct := if gap = [] then [] else [.text gap]

def constructs : Markup → List Construct
  | text body => gapText body
  | empty gap tag next => gapText gap ++ .tag tag.name tag.attrs tag.tail true :: next.constructs
  | element gap tag inner closeTail next =>
    gapText gap ++ .tag tag.name tag.attrs tag.tail false ::
      (inner.constructs ++ .closeTag tag.name closeTail :: next.constructs)

def tagNode (tag : OpenTag) (closeNode : Bool) : XmlNode :=
  { type := .tag, name := tag.name, closeNode, attributes := tag.attrs.map AttrText.toAttribute }

def closeNode (name : Bytes) : XmlNode := { type := .closeTag, name }

def gapNodes (gap : Bytes) : List XmlNode := if gap = [] then [] else [textNode gap]

def gapTrees (gap : Bytes) : List XmlTree := if gap = [] then [] else [.node (textNode gap) []]

/-- The trees that the constructs are the brackets of. -/
def trees : Markup → List XmlTree
  | text body => gapTrees body
  | empty gap tag next => gapTrees gap ++ .node (tagNode tag true) [] :: next.trees
  | element gap tag inner _ next =>
    gapTrees gap ++
      .node (tagNode tag false) (inner.trees ++ [.node (closeNode tag.name) []]) :: next.trees

end Markup

/-! ## A document that is delivered whole -/

theorem isXmlNameByte_of_isNameChar {c : UInt8} (h : isNameChar c) : isXmlNameByte c := by
  simp [isXmlNameByte, h]

namespace OpenTag

variable {t : OpenTag}

theorem WellFormed.plain (h : t.WellFormed) (selfClosed : Bool) :
    (Construct.tag t.name t.attrs t.tail selfClosed).Plain where
  wellFormed :=
    ⟨h.name_ne, fun c hc => isXmlNameByte_of_isNameChar (h.name c hc), fun a ha => (h.attrs a ha).wellFormed,
      h.tail⟩
  names := ⟨h.name, fun a ha => (h.attrs a ha).plain⟩
  escaped a ha := (h.attrs a ha).escaped
  notNone := id

theorem WellFormed.closePlain (h : t.WellFormed) {closeTail : Bytes} (htail : ∀ c ∈ closeTail, isBlank c) :
    (Construct.closeTag t.name closeTail).Plain where
  wellFormed := ⟨h.name_ne, fun c hc => isXmlNameByte_of_isNameChar (h.name c hc), htail⟩
  names := h.name
  escaped := trivial
  notNone := id

end OpenTag

namespace Markup

variable {m : Markup}

theorem gapText_plain {gap : Bytes} (h : IsCharData gap) : ∀ c ∈ gapText gap, c.Plain := by
  intro c hc
  rw [gapText] at hc
  split at hc
  · cases hc
  next hne =>
    rw [List.mem_singleton.mp hc]
    exact ⟨⟨hne, h⟩, trivial, trivial, id⟩

theorem WellFormed.plain (h : m.WellFormed) : ∀ c ∈ m.constructs, c.Plain := by
  induction m with
  | text body => exact gapText_plain h
  | empty gap tag next ih =>
    intro c hc
    obtain ⟨hgap, htag, hnext⟩ := h
    rcases List.mem_append.mp hc with hc | hc
    · exact gapText_plain hgap c hc
    rcases List.mem_cons.mp hc with rfl | hc
    · exact htag.plain true
    · exact ih hnext c hc
  | element gap tag inner closeTail next ihinner ihnext =>
    intro c hc
    obtain ⟨hgap, htag, hinner, htail, hnext⟩ := h
    rcases List.mem_append.mp hc with hc | hc
    · exact gapText_plain hgap c hc
    rcases List.mem_cons.mp hc with rfl | hc
    · exact htag.plain false
    rcases List.mem_append.mp hc with hc | hc
    · exact ihinner hinner c hc
    rcases List.mem_cons.mp hc with rfl | hc
    · exact htag.closePlain htail
    · exact ihnext hnext c hc

/-- What is no text may follow everything, and be followed by everything. -/
theorem apart_cons {c : Construct} {cs : List Construct} (hc : ¬ c.IsText) (h : Construct.Apart cs) :
    Construct.Apart (c :: cs) := by
  cases cs with
  | nil => exact List.isChain_singleton _
  | cons d cs => exact List.isChain_cons_cons.mpr ⟨fun hboth => hc hboth.1, h⟩

/-- The first construct is no text. -/
def Starts (cs : List Construct) : Prop := ∀ c ∈ cs.head?, ¬ c.IsText

theorem apart_gapText (gap : Bytes) {cs : List Construct} (hstarts : Starts cs) (h : Construct.Apart cs) :
    Construct.Apart (gapText gap ++ cs) := by
  rw [gapText]
  split
  · exact h
  · cases cs with
    | nil => exact List.isChain_singleton _
    | cons d cs => exact List.isChain_cons_cons.mpr ⟨fun hboth => hstarts d rfl hboth.2, h⟩

theorem starts_cons {c : Construct} (hc : ¬ c.IsText) (cs : List Construct) : Starts (c :: cs) := by
  rintro d ⟨⟩
  exact hc

theorem apart_constructs (m : Markup) {cs : List Construct} (hstarts : Starts cs) (h : Construct.Apart cs) :
    Construct.Apart (m.constructs ++ cs) := by
  induction m generalizing cs with
  | text body => exact apart_gapText body hstarts h
  | empty gap tag next ih =>
    rw [constructs, List.append_assoc]
    exact apart_gapText gap (starts_cons id _) (apart_cons id (ih hstarts h))
  | element gap tag inner closeTail next ihinner ihnext =>
    rw [constructs, List.append_assoc, List.cons_append, List.append_assoc, List.cons_append]
    exact apart_gapText gap (starts_cons id _) (apart_cons id
      (ihinner (starts_cons id _) (apart_cons id (ihnext hstarts h))))

def nodes : Markup → List XmlNode
  | text body => gapNodes body
  | empty gap tag next => gapNodes gap ++ tagNode tag true :: next.nodes
  | element gap tag inner _ next =>
    gapNodes gap ++ tagNode tag false :: (inner.nodes ++ closeNode tag.name :: next.nodes)

theorem gapText_node (gap : Bytes) :
    (gapText gap).map Construct.node = (gapNodes gap).map some := by
  rw [gapText, gapNodes]
  split <;> rfl

theorem constructs_node (m : Markup) : m.constructs.map Construct.node = m.nodes.map some := by
  induction m with
  | text body => exact gapText_node body
  | empty gap tag next ih =>
    simp only [constructs, nodes, List.map_append, List.map_cons, gapText_node, ih]
    rfl
  | element gap tag inner closeTail next ihinner ihnext =>
    simp only [constructs, nodes, List.map_append, List.map_cons, gapText_node, ihinner, ihnext]
    rfl

theorem sameName_self (name : Bytes) : sameName name name = true := by
  simp [sameName, equals]

theorem nested_gap (gap : Bytes) {seq : List XmlNode} {ts : List XmlTree} (h : Nested seq ts) :
    Nested (gapNodes gap ++ seq) (gapTrees gap ++ ts) := by
  rw [gapNodes, gapTrees]
  split
  · exact h
  · exact .leaf (fun hopens => by cases hopens.1) (fun heq => by cases heq) h

theorem nested (m : Markup) : Nested m.nodes m.trees := by
  induction m with
  | text body =>
    have h := nested_gap body .nil
    rwa [List.append_nil, List.append_nil] at h
  | empty gap tag next ih =>
    exact nested_gap gap (.leaf (fun hopens => by cases hopens.2) (fun heq => by cases heq) ih)
  | element gap tag inner closeTail next ihinner ihnext =>
    exact nested_gap gap (.element ⟨rfl, rfl⟩ rfl (sameName_self tag.name) ihinner ihnext)

/-- The document, with what its declaration says. -/
def document (declaration : Bytes) (m : Markup) : List Construct :=
  .declaration declaration :: m.constructs

end Markup

open Markup in
/-- A document in one block becomes its declaration and the trees of its elements. -/
theorem parseBuffer_markup {declaration : Bytes} {m : Markup}
    (hdecl : (Construct.declaration declaration).WellFormed) (hm : m.WellFormed) :
    ∃ p node, XmlParser.parseBuffer {} (Construct.texts (document declaration m))
        (Construct.texts (document declaration m)).length = some (.ok, p) ∧
      node.type = .declaration ∧ p.getResult = some (.node node [] :: m.trees) := by
  have hplain : ∀ c ∈ document declaration m, c.Plain := by
    intro c hc
    rcases List.mem_cons.mp hc with rfl | hc
    · exact ⟨hdecl, trivial, trivial, id⟩
    · exact hm.plain c hc
  have hapart : Construct.Apart (document declaration m) := by
    have h := @apart_constructs m [] (fun c hc => by cases hc) List.isChain_nil
    rw [List.append_nil] at h
    exact apart_cons id h
  obtain ⟨seq, hseq, hparse⟩ := parseBuffer_constructs hplain hapart (List.cons_ne_nil _ _)
  obtain ⟨node, nodes, hnode, hnodes, rfl⟩ := List.forall₂_cons_left_iff.mp hseq
  obtain rfl := Construct.nodes_eq hnodes (constructs_node m)
  obtain htype : node.type = .declaration := by
    cases hnode with
    | declaration htype => exact htype
    | told heq => cases heq
  refine ⟨_, node, hparse, htype, ?_⟩
  have hleaf : Nested (node :: m.nodes) (.node node [] :: m.trees) := by
    refine .leaf (fun hopens => ?_) (fun heq => ?_) m.nested
    · rw [hopens.1] at htype
      cases htype
    · rw [heq] at htype
      cases htype
  exact congrArg some hleaf.getRoot_eq

end Dframework
