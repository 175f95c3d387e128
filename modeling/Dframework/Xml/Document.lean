import Mathlib
import Dframework.Lang.String

/-!
# `Xml`

A document grows node by node. A node goes to the childs of the innermost element that is
open, or to the top of the document. An opening tag is open from then on; a closing tag takes
the innermost open element of its name off, with all that has been opened behind it. Names
are compared without regard to case. A closing tag without an element changes nothing, but it
is a node like the others.

The nodes are numbered in the order they come in. The memory for them is there.

Results:
1. `Xml.Holds.append`: what one node does to the tree and to the list of open elements.
2. `Xml.append_nested`: a sequence with matching tags becomes the tree of its brackets.
3. `xml_append_run`: both, for every document.
-/

namespace Dframework

open CLib

inductive XmlNodeType where
  | declaration
  | text
  | tag
  | closeTag
  | noneTag
  | comment
  deriving DecidableEq, Repr

structure XmlAttribute where
  name : Bytes
  value : Bytes
  deriving DecidableEq, Repr

/-- An `XmlNode`, without its childs. -/
structure XmlNode where
  type : XmlNodeType
  name : Bytes
  text : Bytes := []
  attributes : List XmlAttribute := []
  closeNode : Bool := false
  deriving DecidableEq, Repr

/-- The nodes with their `m_Childs`, and the two arrays of the document. -/
structure Xml where
  nodes : List (XmlNode × List Nat)
  nodeList : List Nat
  openList : List Nat
  deriving DecidableEq, Repr

/-- `Array::remove`: the last element comes to the place of the one that is removed. -/
def swapRemove (l : List Nat) (position : Nat) : List Nat :=
  match l.getLast? with
  | some last => (l.set position last).dropLast
  | none => l

namespace XmlNode

def Opens (n : XmlNode) : Prop := n.type = .tag ∧ n.closeNode = false

instance (n : XmlNode) : Decidable n.Opens := inferInstanceAs (Decidable (_ ∧ _))

end XmlNode

namespace Xml

def empty : Xml := ⟨[], [], []⟩

def nameOf (s : Xml) (id : Nat) : Bytes :=
  ((s.nodes[id]?).map fun e => e.1.name).getD []

def getParentNode (s : Xml) : Option Nat :=
  s.openList.getLast?

def setOpenedNode (s : Xml) (id : Nat) : Xml :=
  { s with openList := s.openList ++ [id] }

/-- The first loop of `Xml::setClosedNode`, from `k - 1` down. -/
def findOpened (s : Xml) (name : Bytes) : Nat → Option Nat
  | 0 => none
  | k + 1 =>
    if sameName (s.nameOf ((s.openList[k]?).getD 0)) name then some k else s.findOpened name k

/-- Its second loop, from `k - 1` down to `find`. -/
def removeOpened (find : Nat) : Nat → List Nat → List Nat
  | 0, l => l
  | k + 1, l => if find ≤ k then removeOpened find k (swapRemove l k) else l

def setClosedNode (s : Xml) (name : Bytes) : Xml :=
  match s.findOpened name s.openList.length with
  | none => s
  | some find => { s with openList := removeOpened find s.openList.length s.openList }

def place (s : Xml) (n : XmlNode) : Xml :=
  match s.getParentNode with
  | some parent =>
    { s with nodes := s.nodes.modify parent (fun e => (e.1, e.2 ++ [s.nodes.length])) ++ [(n, [])] }
  | none => { s with nodes := s.nodes ++ [(n, [])], nodeList := s.nodeList ++ [s.nodes.length] }

def append (s : Xml) (n : XmlNode) : Xml :=
  if n.Opens then (s.place n).setOpenedNode s.nodes.length
  else if n.type = .closeTag then (s.place n).setClosedNode n.name
  else s.place n

/-! ## The elements that are open -/

/-- The elements that are open behind a closing tag, the innermost first. -/
def closed (st : List (Nat × XmlNode)) (name : Bytes) : List (Nat × XmlNode) :=
  match st.dropWhile fun e => !sameName e.2.name name with
  | [] => st
  | _ :: rest => rest

/-- The elements that are open behind a node. -/
def opened (st : List (Nat × XmlNode)) (id : Nat) (n : XmlNode) : List (Nat × XmlNode) :=
  if n.Opens then (id, n) :: st
  else if n.type = .closeTag then closed st n.name
  else st

/-- The elements that are open behind a sequence of nodes. -/
def unclosed (seq : List XmlNode) : List (Nat × XmlNode) :=
  seq.zipIdx.foldl (fun st e => opened st e.2 e.1) []

/-! ## The tree -/

def childsOf (s : Xml) (id : Nat) : List Nat :=
  ((s.nodes[id]?).map Prod.snd).getD []

def siblings (s : Xml) : List Nat :=
  match s.getParentNode with
  | some parent => s.childsOf parent
  | none => s.nodeList

/-- A document consists of the nodes of `seq`, each of them in one place, and siblings stand in
the order they came in. -/
structure Placed (seq : List XmlNode) (s : Xml) : Prop where
  nodes : s.nodes.map Prod.fst = seq
  placed : (s.nodeList ++ s.nodes.flatMap Prod.snd).Perm (List.range s.nodes.length)
  top : s.nodeList.Pairwise (· < ·)
  ordered : ∀ e ∈ s.nodes, e.2.Pairwise (· < ·)

/-- `l` starts at the top of the document, and each of its elements is a child of the one
before it. -/
structure Chained (s : Xml) (l : List Nat) : Prop where
  first : ∀ id, l.head? = some id → id ∈ s.nodeList
  chain : l.IsChain fun parent id => id ∈ s.childsOf parent

variable {s : Xml} {seq : List XmlNode} {n : XmlNode} {id : Nat}

theorem removeOpened_eq (find : Nat) (l : List Nat) (h : find ≤ l.length) :
    removeOpened find l.length l = l.take find := by
  generalize hk : l.length = k at h
  induction k generalizing l with
  | zero => rw [removeOpened, List.length_eq_zero_iff.mp hk, List.take_nil]
  | succ k ih =>
    rw [removeOpened]
    obtain ⟨last, hlast⟩ : ∃ last, l[k]? = some last := ⟨_, List.getElem?_eq_getElem (by omega)⟩
    have hswap : swapRemove l k = l.take k := by
      have hget : l.getLast? = some last := by rw [List.getLast?_eq_getElem?, hk]; exact hlast
      rw [swapRemove, hget]
      dsimp only
      rw [List.dropLast_eq_take, List.length_set, hk, Nat.add_sub_cancel, List.take_set_of_le le_rfl]
    split
    next hle =>
      have hlen : (l.take k).length = k := List.length_take_of_le (by omega)
      rw [hswap, ih _ hlen hle, List.take_take, min_eq_left hle]
    next hgt => rw [List.take_of_length_le (by omega)]

/-! ## A node comes to its place -/

/-- The element the next node goes to is there. -/
def HasParent (s : Xml) : Prop :=
  ∀ parent, s.getParentNode = some parent → parent < s.nodes.length

theorem place_length (s : Xml) (n : XmlNode) : (s.place n).nodes.length = s.nodes.length + 1 := by
  rw [place]
  split
  · rw [List.length_append, List.length_modify]
    rfl
  · exact List.length_append

/-- The childs of a node, behind another one that has come in. -/
theorem childsOf_place (hp : s.HasParent) (n : XmlNode) (j : Nat) :
    (s.place n).childsOf j =
      if s.getParentNode = some j then s.childsOf j ++ [s.nodes.length] else s.childsOf j := by
  have hnew : ∀ l : List (XmlNode × List Nat), l.length = s.nodes.length →
      (((l ++ [(n, [])])[j]?).map Prod.snd).getD [] = ((l[j]?).map Prod.snd).getD [] := by
    intro l hl
    rw [List.getElem?_append]
    split
    · rfl
    next hge =>
      rw [List.getElem?_eq_none (Nat.le_of_not_lt hge)]
      rcases hj : [(n, ([] : List Nat))][j - l.length]? with _ | e
      · rfl
      · obtain rfl := List.mem_singleton.mp (List.mem_of_getElem? hj)
        rfl
  rw [place, childsOf, childsOf]
  rcases hparent : s.getParentNode with _ | parent
  · rw [if_neg (Option.some_ne_none j).symm]
    exact hnew s.nodes rfl
  · show ((((s.nodes.modify parent fun e => (e.1, e.2 ++ [s.nodes.length])) ++ [(n, [])])[j]?).map
      Prod.snd).getD [] = _
    rw [hnew _ (List.length_modify ..), List.getElem?_modify]
    rcases eq_or_ne parent j with rfl | hne
    · rw [if_pos rfl, List.getElem?_eq_getElem (hp parent hparent)]
      simp
    · rw [if_neg fun heq => hne (Option.some.inj heq)]
      simp [hne]

theorem mem_childsOf_place (hp : s.HasParent) (n : XmlNode) {j c : Nat} (hc : c ∈ s.childsOf j) :
    c ∈ (s.place n).childsOf j := by
  rw [childsOf_place hp]
  split
  · exact List.mem_append_left _ hc
  · exact hc

theorem Placed.place (h : Placed seq s) (hp : s.HasParent) (n : XmlNode) :
    Placed (seq ++ [n]) (s.place n) := by
  have hbound : ∀ j ∈ s.nodeList ++ s.nodes.flatMap Prod.snd, j < s.nodes.length := fun j hj =>
    List.mem_range.mp (h.placed.mem_iff.mp hj)
  -- the new number is above all that are in use
  have hpush : ∀ l : List Nat, l.Pairwise (· < ·) → (∀ j ∈ l, j < s.nodes.length) →
      (l ++ [s.nodes.length]).Pairwise (· < ·) := by
    intro l hl hlt
    refine List.pairwise_append.mpr ⟨hl, List.pairwise_singleton _ _, fun a ha b hb => ?_⟩
    obtain rfl := List.mem_singleton.mp hb
    exact hlt a ha
  rw [Xml.place]
  rcases hparent : s.getParentNode with _ | parent
  · refine ⟨?_, ?_, hpush _ h.top fun j hj => hbound j (List.mem_append_left _ hj), ?_⟩
    · show (s.nodes ++ [(n, [])]).map Prod.fst = seq ++ [n]
      rw [List.map_append, h.nodes]
      rfl
    · show (s.nodeList ++ [s.nodes.length] ++ (s.nodes ++ [(n, [])]).flatMap Prod.snd).Perm
        (List.range (s.nodes ++ [(n, [])]).length)
      rw [List.flatMap_append, List.length_append, List.length_singleton, List.range_succ,
        List.append_assoc, List.flatMap_singleton, List.append_nil]
      exact ((List.perm_append_comm).append_left _).trans
        (by rw [← List.append_assoc]; exact h.placed.append_right _)
    · intro e he
      rcases List.mem_append.mp he with he | he
      · exact h.ordered e he
      · obtain rfl := List.mem_singleton.mp he
        exact List.Pairwise.nil
  · obtain ⟨l₁, e₀, l₂, hsplit, -, hmodify⟩ :=
      List.exists_of_modify (fun e : XmlNode × List Nat => (e.1, e.2 ++ [s.nodes.length]))
        (hp parent hparent)
    have hflat : s.nodes.flatMap Prod.snd = l₁.flatMap Prod.snd ++ (e₀.2 ++ l₂.flatMap Prod.snd) := by
      rw [hsplit, List.flatMap_append, List.flatMap_cons]
    have hmem : ∀ e, e = e₀ ∨ e ∈ l₁ ++ l₂ → e ∈ s.nodes := fun e he => by
      rw [hsplit]
      exact List.perm_middle.mem_iff.mpr (List.mem_cons.mpr he)
    refine ⟨?_, ?_, h.top, ?_⟩
    · show ((s.nodes.modify parent _) ++ [(n, [])]).map Prod.fst = seq ++ [n]
      rw [hmodify, ← h.nodes, hsplit]
      simp only [List.map_append, List.map_cons, List.map_nil]
    · show (s.nodeList ++ ((s.nodes.modify parent _) ++ [(n, [])]).flatMap Prod.snd).Perm
        (List.range ((s.nodes.modify parent _) ++ [(n, [])]).length)
      rw [List.length_append, List.length_modify, List.length_singleton, List.range_succ, hmodify]
      simp only [List.flatMap_append, List.flatMap_cons, List.flatMap_nil, List.append_nil]
      have hlast : (e₀.2 ++ [s.nodes.length] ++ l₂.flatMap Prod.snd).Perm
          (e₀.2 ++ l₂.flatMap Prod.snd ++ [s.nodes.length]) := by
        rw [List.append_assoc, List.append_assoc]
        exact List.perm_append_comm.append_left _
      refine ((hlast.append_left _).append_left _).trans ?_
      have hall := h.placed.append_right [s.nodes.length]
      rw [hflat] at hall
      simpa only [List.append_assoc] using hall
    · intro e he
      rcases List.mem_append.mp he with he | he
      · rw [hmodify] at he
        rcases List.mem_cons.mp (List.perm_middle.mem_iff.mp he) with rfl | he
        · refine hpush _ (h.ordered e₀ (hmem e₀ (.inl rfl))) fun j hj => hbound j ?_
          exact List.mem_append_right _ (List.mem_flatMap.mpr ⟨e₀, hmem e₀ (.inl rfl), hj⟩)
        · exact h.ordered e (hmem e (.inr he))
      · obtain rfl := List.mem_singleton.mp he
        exact List.Pairwise.nil

/-- The new node is a child of the last open element. -/
theorem Chained.place (h : Chained s s.openList) (hp : s.HasParent) (n : XmlNode) :
    Chained (s.place n) (s.openList ++ [s.nodes.length]) := by
  have htop : ∀ id ∈ s.nodeList, id ∈ (s.place n).nodeList := by
    intro id hid
    rw [Xml.place]
    split
    · exact hid
    · exact List.mem_append_left _ hid
  have hchain : s.openList.IsChain fun parent id => id ∈ (s.place n).childsOf parent :=
    h.chain.imp fun parent id hid => mem_childsOf_place hp n hid
  constructor
  · intro id hid
    rcases hopen : s.openList with _ | ⟨o, l⟩
    · rw [hopen] at hid
      obtain rfl := Option.some.inj hid
      have hnone : s.getParentNode = none := by rw [getParentNode, hopen]; rfl
      rw [Xml.place, hnone]
      exact List.mem_append_right _ (List.mem_singleton_self _)
    · rw [hopen] at hid
      exact htop id (h.first id (by rw [hopen]; exact hid))
  · refine hchain.append (List.isChain_singleton _) fun parent hparent id hid => ?_
    obtain rfl := Option.some.inj hid
    rw [childsOf_place hp, if_pos (show s.getParentNode = some parent from hparent)]
    exact List.mem_append_right _ (List.mem_singleton_self _)

theorem Chained.take {l : List Nat} (h : Chained s l) (k : Nat) : Chained s (l.take k) := by
  refine ⟨fun id hid => h.first id ?_, h.chain.take k⟩
  cases l with
  | nil => rw [List.take_nil] at hid; exact hid
  | cons o l =>
    cases k with
    | zero => cases hid
    | succ k => exact hid

/-! ## Closing an element -/

/-- The search goes from the innermost open element outwards. -/
theorem findOpened_eq (pre : List (Nat × XmlNode)) {st : List (Nat × XmlNode)}
    (hopen : s.openList = ((pre ++ st).map Prod.fst).reverse)
    (hname : ∀ e ∈ st, s.nameOf e.1 = e.2.name) (name : Bytes) :
    s.findOpened name st.length =
      match st.dropWhile fun e => !sameName e.2.name name with
      | [] => none
      | _ :: rest => some rest.length := by
  induction st generalizing pre with
  | nil => rfl
  | cons e st ih =>
    have hget : s.openList[st.length]? = some e.1 := by
      rw [hopen, List.map_append, List.reverse_append, List.map_cons, List.reverse_cons,
        List.append_assoc, List.getElem?_append_right (by simp), List.length_reverse, List.length_map,
        Nat.sub_self]
      rfl
    rw [List.length_cons, findOpened, hget, Option.getD_some, hname e List.mem_cons_self]
    split
    next hsame => rw [List.dropWhile_cons_of_neg (by simpa using hsame)]
    next hdiff =>
      rw [List.dropWhile_cons_of_pos (by simpa using hdiff)]
      refine ih (pre ++ [e]) ?_ fun e' he' => hname e' (List.mem_cons_of_mem _ he')
      rw [hopen, List.append_assoc]
      rfl

theorem closed_suffix (st : List (Nat × XmlNode)) (name : Bytes) : closed st name <:+ st := by
  rw [closed]
  split
  · exact List.suffix_refl _
  next e rest hdrop =>
    exact (List.suffix_cons e rest).trans (hdrop ▸ List.dropWhile_suffix _)

/-- A closing tag takes its element off, with those that are open inside it. -/
theorem setClosedNode_eq {st : List (Nat × XmlNode)} (hopen : s.openList = (st.map Prod.fst).reverse)
    (hname : ∀ e ∈ st, s.nameOf e.1 = e.2.name) (name : Bytes) :
    s.setClosedNode name = { s with openList := ((closed st name).map Prod.fst).reverse } := by
  have hlen : s.openList.length = st.length := by rw [hopen, List.length_reverse, List.length_map]
  have hfind := findOpened_eq [] hopen hname name
  rw [setClosedNode, hlen, hfind, closed]
  rcases hdrop : st.dropWhile fun e => !sameName e.2.name name with _ | ⟨e, rest⟩
  · simp only [hdrop]
    rw [← hopen]
  · obtain ⟨pre, hpre⟩ : e :: rest <:+ st := hdrop ▸ List.dropWhile_suffix _
    have hle : rest.length ≤ s.openList.length := by
      rw [hlen, ← hpre, List.length_append, List.length_cons]
      omega
    simp only [hdrop]
    rw [← hlen, removeOpened_eq _ _ hle, hopen, ← hpre]
    congr 1
    rw [List.map_append, List.reverse_append, List.map_cons, List.reverse_cons, List.append_assoc,
      List.take_append_of_le_length (by simp), List.take_of_length_le (by simp)]

/-! ## Any sequence of nodes -/

/-- What holds of a document behind a sequence of nodes. -/
structure Holds (seq : List XmlNode) (s : Xml) : Prop where
  placed : Placed seq s
  chained : Chained s s.openList
  open_eq : s.openList = ((unclosed seq).map Prod.fst).reverse
  named : ∀ e ∈ unclosed seq, seq[e.1]? = some e.2

theorem Holds.empty : Holds [] Xml.empty := by
  refine ⟨⟨rfl, .refl _, List.Pairwise.nil, ?_⟩, ⟨?_, List.isChain_nil⟩, rfl, ?_⟩
  · exact fun e he => absurd he List.not_mem_nil
  · exact fun id hid => by cases hid
  · exact fun e he => absurd he List.not_mem_nil

theorem Holds.nameOf (h : Holds seq s) {e : Nat × XmlNode} (he : seq[e.1]? = some e.2) :
    s.nameOf e.1 = e.2.name := by
  rw [← h.placed.nodes, List.getElem?_map, Option.map_eq_some_iff] at he
  obtain ⟨e', he', heq⟩ := he
  rw [Xml.nameOf, he', Option.map_some, Option.getD_some, heq]

theorem Holds.hasParent (h : Holds seq s) : s.HasParent := by
  intro parent hparent
  have hmem : parent ∈ s.openList := List.mem_of_getLast? hparent
  rw [h.open_eq, List.mem_reverse, List.mem_map] at hmem
  obtain ⟨e, he, rfl⟩ := hmem
  have hlt := (List.getElem?_eq_some_iff.mp (h.named e he)).1
  rwa [← h.placed.nodes, List.length_map] at hlt

theorem unclosed_append (seq : List XmlNode) (n : XmlNode) :
    unclosed (seq ++ [n]) = opened (unclosed seq) seq.length n := by
  rw [unclosed, List.zipIdx_append, List.foldl_append, Nat.zero_add]
  rfl

theorem Holds.append (h : Holds seq s) (n : XmlNode) : Holds (seq ++ [n]) (s.append n) := by
  have hp := h.hasParent
  have hplaced := h.placed.place hp n
  have hchain := h.chained.place hp n
  have hlen : s.nodes.length = seq.length := by rw [← h.placed.nodes, List.length_map]
  have hopen : (s.place n).openList = s.openList := by
    rw [place]
    split <;> rfl
  have hold : ∀ e ∈ unclosed seq, (seq ++ [n])[e.1]? = some e.2 := fun e he => by
    rw [List.getElem?_append_left (List.getElem?_eq_some_iff.mp (h.named e he)).1]
    exact h.named e he
  have hprefix : Chained (s.place n) s.openList := by
    have htake := hchain.take s.openList.length
    rwa [List.take_left] at htake
  have hname : ∀ e ∈ unclosed seq, (s.place n).nameOf e.1 = e.2.name := by
    intro e he
    have hget := hold e he
    rw [← hplaced.nodes, List.getElem?_map, Option.map_eq_some_iff] at hget
    obtain ⟨e', he', heq⟩ := hget
    rw [Xml.nameOf, he', Option.map_some, Option.getD_some, heq]
  rw [Xml.append]
  split
  next hopens =>
    refine ⟨⟨hplaced.nodes, hplaced.placed, hplaced.top, hplaced.ordered⟩, ?_, ?_, ?_⟩
    · rw [setOpenedNode, hopen]
      exact ⟨hchain.first, hchain.chain⟩
    · rw [setOpenedNode, hopen, unclosed_append, opened, if_pos hopens, h.open_eq, hlen]
      exact List.reverse_cons.symm
    · rw [unclosed_append, opened, if_pos hopens]
      refine List.forall_mem_cons.mpr ⟨?_, hold⟩
      show (seq ++ [n])[seq.length]? = some n
      rw [List.getElem?_concat_length]
  next hnot =>
    split
    next hclose =>
      have hsuffix := closed_suffix (unclosed seq) n.name
      rw [setClosedNode_eq (hopen.trans h.open_eq) hname]
      have hunclosed : unclosed (seq ++ [n]) = closed (unclosed seq) n.name := by
        rw [unclosed_append, opened, if_neg hnot, if_pos hclose]
      refine ⟨⟨hplaced.nodes, hplaced.placed, hplaced.top, hplaced.ordered⟩, ?_, ?_, ?_⟩
      · -- the elements that stay open are the outer ones
        obtain ⟨pre, hpre⟩ := hsuffix
        have hsplit : s.openList = ((closed (unclosed seq) n.name).map Prod.fst).reverse ++
            (pre.map Prod.fst).reverse := by
          rw [h.open_eq, ← List.reverse_append, ← List.map_append, hpre]
        have htake := hprefix.take (closed (unclosed seq) n.name).length
        rw [hsplit, List.take_append_of_le_length (by simp), List.take_of_length_le (by simp)] at htake
        exact ⟨htake.first, htake.chain⟩
      · rw [hunclosed]
      · rw [hunclosed]
        exact fun e he => hold e (hsuffix.subset he)
    next hplain =>
      have hunclosed : unclosed (seq ++ [n]) = unclosed seq := by
        rw [unclosed_append, opened, if_neg hnot, if_neg hplain]
      rw [← hopen] at hprefix
      exact ⟨hplaced, hprefix, by rw [hopen, hunclosed, h.open_eq], by rw [hunclosed]; exact hold⟩

theorem holds_foldl (seq : List XmlNode) : Holds seq (seq.foldl Xml.append Xml.empty) := by
  induction seq using List.reverseRecOn with
  | nil => exact .empty
  | append_singleton seq n ih =>
    rw [List.foldl_append]
    exact ih.append n

/-! ## Matching tags -/

end Xml

inductive XmlTree where
  | node (n : XmlNode) (childs : List XmlTree)

/-- A sequence of nodes with matching tags, and the trees of its brackets. The closing tag is the
last child of its element. -/
inductive Nested : List XmlNode → List XmlTree → Prop
  | nil : Nested [] []
  | leaf {n : XmlNode} {seq : List XmlNode} {ts : List XmlTree} :
    ¬ n.Opens → n.type ≠ .closeTag → Nested seq ts → Nested (n :: seq) (.node n [] :: ts)
  | element {o c : XmlNode} {inner seq : List XmlNode} {childs ts : List XmlTree} :
    o.Opens → c.type = .closeTag → sameName o.name c.name = true → Nested inner childs →
    Nested seq ts → Nested (o :: (inner ++ c :: seq)) (.node o (childs ++ [.node c []]) :: ts)

mutual

/-- The node with the number `id` is the root of a tree. -/
inductive IsTree (look : Nat → Option (XmlNode × List Nat)) : Nat → XmlTree → Prop
  | node {id : Nat} {n : XmlNode} {ids : List Nat} {childs : List XmlTree} :
    look id = some (n, ids) → AreTrees look ids childs → IsTree look id (.node n childs)

/-- The nodes with these numbers are the roots of trees. -/
inductive AreTrees (look : Nat → Option (XmlNode × List Nat)) : List Nat → List XmlTree → Prop
  | nil : AreTrees look [] []
  | cons {id : Nat} {t : XmlTree} {ids : List Nat} {ts : List XmlTree} :
    IsTree look id t → AreTrees look ids ts → AreTrees look (id :: ids) (t :: ts)

end

section

variable {look look' : Nat → Option (XmlNode × List Nat)}

mutual

theorem IsTree.mono (hlook : ∀ id e, look id = some e → look' id = some e) {id : Nat} {t : XmlTree} :
    IsTree look id t → IsTree look' id t
  | .node hid hchilds => .node (hlook _ _ hid) (hchilds.mono hlook)

theorem AreTrees.mono (hlook : ∀ id e, look id = some e → look' id = some e) {ids : List Nat}
    {ts : List XmlTree} : AreTrees look ids ts → AreTrees look' ids ts
  | .nil => .nil
  | .cons ht hts => .cons (ht.mono hlook) (hts.mono hlook)

end

theorem AreTrees.append {ids ids' : List Nat} {ts ts' : List XmlTree} (h : AreTrees look ids ts)
    (h' : AreTrees look ids' ts') :
    AreTrees look (ids ++ ids') (ts ++ ts') := by
  induction ids generalizing ts with
  | nil =>
    cases h
    exact h'
  | cons id ids ih =>
    cases h with
    | cons ht hts => exact .cons ht (ih hts)

end

namespace Xml

variable {s : Xml} {n : XmlNode} {ids ids' : List Nat} {new new' : List (XmlNode × List Nat)}

/-- The document with new siblings, for the nodes that have come in. -/
def grow (s : Xml) (ids : List Nat) (new : List (XmlNode × List Nat)) : Xml :=
  match s.getParentNode with
  | some parent => { s with nodes := s.nodes.modify parent (fun e => (e.1, e.2 ++ ids)) ++ new }
  | none => { s with nodes := s.nodes ++ new, nodeList := s.nodeList ++ ids }

/-- The nodes that have come in, by their numbers. -/
def lookFrom (base : Nat) (new : List (XmlNode × List Nat)) (id : Nat) : Option (XmlNode × List Nat) :=
  if id < base then none else new[id - base]?

theorem place_eq_grow (s : Xml) (n : XmlNode) : s.place n = s.grow [s.nodes.length] [(n, [])] := rfl

theorem grow_openList (s : Xml) (ids : List Nat) (new : List (XmlNode × List Nat)) :
    (s.grow ids new).openList = s.openList := by
  rw [grow]
  split <;> rfl

theorem grow_length (s : Xml) (ids : List Nat) (new : List (XmlNode × List Nat)) :
    (s.grow ids new).nodes.length = s.nodes.length + new.length := by
  rw [grow]
  split
  · rw [List.length_append, List.length_modify]
  · exact List.length_append

theorem modify_middle {β : Type*} (f : β → β) (l₁ : List β) (e : β) (l₂ : List β) :
    (l₁ ++ e :: l₂).modify l₁.length f = l₁ ++ f e :: l₂ := by
  induction l₁ with
  | nil => rfl
  | cons a l₁ ih => rw [List.cons_append, List.length_cons, List.modify_succ_cons, ih]; rfl

/-- Siblings that come in one after the other. -/
theorem grow_grow (hp : s.HasParent) (ids ids' : List Nat) (new new' : List (XmlNode × List Nat)) :
    (s.grow ids new).grow ids' new' = s.grow (ids ++ ids') (new ++ new') := by
  have hparent : (s.grow ids new).getParentNode = s.getParentNode := by
    rw [getParentNode, getParentNode, grow_openList]
  rw [grow, hparent, grow, grow]
  rcases hs : s.getParentNode with _ | parent
  · simp only [List.append_assoc]
  · obtain ⟨l₁, e, l₂, hsplit, hlen, hmodify⟩ :=
      List.exists_of_modify (fun e : XmlNode × List Nat => (e.1, e.2 ++ ids)) (hp parent hs)
    subst hlen
    simp only [hsplit, modify_middle, List.append_assoc, List.cons_append]

/-- An element whose childs are known becomes the last open one. -/
theorem open_grow (s : Xml) (n : XmlNode) (ids : List Nat) (new : List (XmlNode × List Nat)) :
    ((s.place n).setOpenedNode s.nodes.length).grow ids new =
      { s.grow [s.nodes.length] ((n, ids) :: new) with openList := s.openList ++ [s.nodes.length] } := by
  have hparent : ((s.place n).setOpenedNode s.nodes.length).getParentNode = some s.nodes.length :=
    List.getLast?_concat ..
  have hnew : ∀ l : List (XmlNode × List Nat), l.length = s.nodes.length →
      (l ++ [(n, [])]).modify s.nodes.length (fun e => (e.1, e.2 ++ ids)) ++ new =
        l ++ (n, ids) :: new := by
    rintro l hl
    rw [← hl, modify_middle, List.append_assoc]
    rfl
  rw [grow, hparent, setOpenedNode, place, grow]
  rcases s.getParentNode with _ | parent
  · simp only [hnew s.nodes rfl]
  · simp only [hnew _ (List.length_modify ..)]

theorem lookFrom_mono {base base' : Nat} (hbase : base ≤ base') (h : ∀ k e, new'[k]? = some e →
    new[base' - base + k]? = some e) (id : Nat) (e : XmlNode × List Nat)
    (hid : lookFrom base' new' id = some e) : lookFrom base new id = some e := by
  rw [lookFrom] at hid ⊢
  split at hid
  · cases hid
  next hge =>
    rw [if_neg (by omega), ← h _ _ hid]
    congr 1
    omega

theorem grow_nil (s : Xml) : s.grow [] [] = s := by
  have hid : (fun e : XmlNode × List Nat => (e.1, e.2 ++ [])) = id := by
    funext e
    rw [List.append_nil]
    rfl
  rw [grow]
  split
  · rw [hid, List.modify_id, List.append_nil]
  · rw [List.append_nil, List.append_nil]

theorem grow_get (s : Xml) (ids : List Nat) (new : List (XmlNode × List Nat)) (k : Nat) :
    (s.grow ids new).nodes[s.nodes.length + k]? = new[k]? := by
  rw [grow]
  split
  · show (_ ++ new)[_]? = _
    rw [List.getElem?_append_right (by rw [List.length_modify]; omega), List.length_modify]
    congr 1
    omega
  · show (_ ++ new)[_]? = _
    rw [List.getElem?_append_right (by omega)]
    congr 1
    omega

theorem HasParent.grow (hp : s.HasParent) (ids : List Nat) (new : List (XmlNode × List Nat)) :
    (s.grow ids new).HasParent := by
  intro parent hparent
  rw [getParentNode, grow_openList] at hparent
  rw [grow_length]
  exact (hp parent hparent).trans_le (Nat.le_add_right _ _)

/-- A closing tag of the innermost open element takes this one off. -/
theorem setClosedNode_last {l : List Nat} {id : Nat} {name : Bytes} (hopen : s.openList = l ++ [id])
    (hsame : sameName (s.nameOf id) name = true) :
    s.setClosedNode name = { s with openList := l } := by
  have hlen : s.openList.length = l.length + 1 := by rw [hopen, List.length_append]; rfl
  have hget : s.openList[l.length]? = some id := by rw [hopen, List.getElem?_concat_length]
  have hfind : s.findOpened name s.openList.length = some l.length := by
    rw [hlen, findOpened, hget, Option.getD_some, if_pos hsame]
  have htake : removeOpened l.length s.openList.length s.openList = l := by
    rw [removeOpened_eq _ _ (by omega), hopen, List.take_left]
  rw [setClosedNode, hfind]
  simp only [htake]

/-- A sequence with matching tags leaves the open elements as they were, and its trees become the
last siblings. -/
theorem append_nested {seq : List XmlNode} {ts : List XmlTree} (h : Nested seq ts) (hp : s.HasParent) :
    ∃ ids new, seq.foldl Xml.append s = s.grow ids new ∧ AreTrees (lookFrom s.nodes.length new) ids ts := by
  induction h generalizing s with
  | nil => exact ⟨[], [], (grow_nil s).symm, .nil⟩
  | @leaf n seq ts hopens hclose _ ih =>
    have happend : s.append n = s.grow [s.nodes.length] [(n, [])] := by
      rw [Xml.append, if_neg hopens, if_neg hclose, place_eq_grow]
    obtain ⟨ids, new, hrun, htrees⟩ := ih (hp.grow [s.nodes.length] [(n, [])])
    rw [grow_length] at htrees
    refine ⟨s.nodes.length :: ids, (n, []) :: new, ?_, .cons (.node ?_ .nil) (htrees.mono ?_)⟩
    · rw [List.foldl_cons, happend, hrun, grow_grow hp]
      rfl
    · rw [lookFrom, if_neg (lt_irrefl _), Nat.sub_self]
      rfl
    · exact lookFrom_mono (Nat.le_add_right _ _) fun k e hk => by
        rw [Nat.add_sub_cancel_left, List.length_singleton, Nat.add_comm, List.getElem?_cons_succ, hk]
  | @element o c inner seq childs ts hopens hclose hsame _ _ ihinner ihrest =>
    set b := s.nodes.length with hb
    set s₁ := (s.place o).setOpenedNode b with hs₁
    have hlen₁ : s₁.nodes.length = b + 1 := place_length s o
    have hp₁ : s₁.HasParent := by
      intro parent hparent
      obtain rfl : b = parent :=
        Option.some.inj ((List.getLast?_concat ..).symm.trans hparent)
      omega
    have happend₁ : s.append o = s₁ := by rw [Xml.append, if_pos hopens]
    obtain ⟨ids, new, hrun, htrees⟩ := ihinner hp₁
    -- the closing tag comes behind the childs, and takes the element off
    set entry : XmlNode × List Nat := (o, ids ++ [b + 1 + new.length]) with hentry
    have hplace : (s₁.grow ids new).place c = { s.grow [b] (entry :: (new ++ [(c, [])])) with
        openList := s.openList ++ [b] } := by
      rw [place_eq_grow, grow_length, hlen₁, grow_grow hp₁, hs₁, open_grow]
    have hclosed : (s₁.grow ids new).append c = s.grow [b] (entry :: (new ++ [(c, [])])) := by
      have hnot : ¬ c.Opens := fun hc => by
        have htype := hc.1
        rw [hclose] at htype
        cases htype
      rw [Xml.append, if_neg hnot, if_pos hclose, hplace]
      have hname : nameOf { s.grow [b] (entry :: (new ++ [(c, [])])) with openList := s.openList ++ [b] }
          b = o.name := by
        have hget := grow_get s [b] (entry :: (new ++ [(c, [])])) 0
        rw [Nat.add_zero, ← hb] at hget
        rw [nameOf, hget]
        rfl
      rw [setClosedNode_last rfl (by rw [hname]; exact hsame)]
      rw [← grow_openList s [b] (entry :: (new ++ [(c, [])]))]
    obtain ⟨ids', new', hrun', htrees'⟩ := ihrest (hp.grow [b] (entry :: (new ++ [(c, [])])))
    rw [grow_length, ← hb] at htrees'
    rw [hlen₁] at htrees
    refine ⟨b :: ids', entry :: (new ++ [(c, [])]) ++ new', ?_, ?_⟩
    · rw [List.foldl_cons, happend₁, List.foldl_append, hrun, List.foldl_cons, hclosed, hrun',
        grow_grow hp]
      rfl
    have hlast : (entry :: (new ++ [(c, [])]) ++ new')[1 + new.length]? = some (c, []) := by
      rw [List.cons_append, Nat.add_comm, List.getElem?_cons_succ,
        List.getElem?_append_left (by simp), List.getElem?_concat_length]
    have hlook : ∀ k e, (entry :: (new ++ [(c, [])]) ++ new')[k]? = some e →
        lookFrom b (entry :: (new ++ [(c, [])]) ++ new') (b + k) = some e := fun k e hk => by
      rw [lookFrom, if_neg (by omega), Nat.add_sub_cancel_left, hk]
    refine .cons (.node (hlook 0 entry rfl) (.append (htrees.mono ?_) (.cons (.node ?_ .nil) .nil)))
      (htrees'.mono ?_)
    · refine lookFrom_mono (Nat.le_add_right _ _) fun k e hk => ?_
      rw [Nat.add_sub_cancel_left, List.cons_append, Nat.add_comm, List.getElem?_cons_succ,
        List.append_assoc, List.getElem?_append_left (List.getElem?_eq_some_iff.mp hk).1, hk]
    · rw [Nat.add_assoc]
      exact hlook _ _ hlast
    · refine lookFrom_mono (Nat.le_add_right _ _) fun k e hk => ?_
      rw [Nat.add_sub_cancel_left, List.getElem?_append_right (Nat.le_add_right _ _),
        Nat.add_sub_cancel_left, hk]

theorem siblings_grow (hp : s.HasParent) (ids : List Nat) (new : List (XmlNode × List Nat)) :
    (s.grow ids new).siblings = s.siblings ++ ids := by
  rw [siblings, siblings, getParentNode, grow_openList, ← getParentNode, grow]
  rcases hs : s.getParentNode with _ | parent
  · rfl
  · have hlt := hp parent hs
    simp only [childsOf]
    rw [List.getElem?_append_left (by rwa [List.length_modify]), List.getElem?_modify,
      List.getElem?_eq_getElem hlt]
    simp

end Xml

/-- Behind every sequence of nodes, each of them stands in one place of the tree, siblings stand
in the order they came in, and the open list is the chain of the elements that are open. A further
sequence with matching tags leaves the open list as it was, and adds the trees of its brackets. -/
theorem xml_append_run (seq : List XmlNode) :
    (seq.foldl Xml.append Xml.empty).Placed seq ∧
    (seq.foldl Xml.append Xml.empty).Chained (seq.foldl Xml.append Xml.empty).openList ∧
    (seq.foldl Xml.append Xml.empty).openList = ((Xml.unclosed seq).map Prod.fst).reverse ∧
    ∀ seq' ts, Nested seq' ts → ∃ s' ids, (seq ++ seq').foldl Xml.append Xml.empty = s' ∧
      s'.openList = (seq.foldl Xml.append Xml.empty).openList ∧
      s'.siblings = (seq.foldl Xml.append Xml.empty).siblings ++ ids ∧
      AreTrees (fun id => s'.nodes[id]?) ids ts := by
  have h := Xml.holds_foldl seq
  refine ⟨h.placed, h.chained, h.open_eq, fun seq' ts hnested => ?_⟩
  obtain ⟨ids, new, hrun, htrees⟩ := Xml.append_nested hnested h.hasParent
  refine ⟨_, ids, rfl, ?_, ?_, ?_⟩
  · rw [List.foldl_append, hrun, Xml.grow_openList]
  · rw [List.foldl_append, hrun, Xml.siblings_grow h.hasParent]
  · rw [List.foldl_append, hrun]
    refine htrees.mono fun id e hid => ?_
    rw [Xml.lookFrom] at hid
    split at hid
    · cases hid
    next hge =>
      obtain ⟨k, rfl⟩ := Nat.exists_eq_add_of_le (Nat.le_of_not_lt hge)
      rw [Nat.add_sub_cancel_left] at hid
      rw [Xml.grow_get, hid]

/-- An element whose closing tag is written in the other case. -/
theorem xml_append_run_element : ∃ s' ids,
    ([⟨.tag, bytes "a", [], [], false⟩, ⟨.text, bytes "#text", bytes "b", [], false⟩,
      ⟨.closeTag, bytes "A", [], [], false⟩] : List XmlNode).foldl Xml.append Xml.empty = s' ∧
    s'.openList = [] ∧ s'.siblings = ids ∧
    AreTrees (fun id => s'.nodes[id]?) ids [.node ⟨.tag, bytes "a", [], [], false⟩
      [.node ⟨.text, bytes "#text", bytes "b", [], false⟩ [],
        .node ⟨.closeTag, bytes "A", [], [], false⟩ []]] :=
  (xml_append_run []).2.2.2 _ _ (.element ⟨rfl, rfl⟩ rfl (by decide)
    (.leaf (by decide) (by decide) .nil) .nil)

end Dframework
