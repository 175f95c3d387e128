import Mathlib
import Dframework.Library.Rose
import Dframework.Util.StringArray
import Dframework.Xml.Parser

/-!
# `Xml::search`

A query is cut at its blanks, and its steps are looked for down the tree. A step names a tag, an
`id` or a `class`; a condition `[attr='v']` behind the name is cut off and read, but not asked for:
`isattr` is set to `false` where it is found. The childs of an element are begun at again where the
element has been tested with a step that is not the first, and those of an element that fits the
first step are not.

Results:
1. `searchNode_adds`: the strings of the query change on the way, and what they say does not.
2. `search_eq`: the search is the one of `Rose.visit`.
3. `search_iff`: when it finds the elements of the query, in the order of the document.
-/

namespace Dframework

open CLib Search
open Rose (Place Before)

namespace XmlTree

def root : XmlTree → XmlNode
  | node n _ => n

mutual

/-- A tree of nodes as a tree that is searched. -/
def rose : XmlTree → Rose XmlNode
  | node n childs => .node n (roses childs)

def roses : List XmlTree → List (Rose XmlNode)
  | [] => []
  | t :: ts => rose t :: roses ts

end

theorem label_rose (t : XmlTree) : t.rose.label = t.root := by
  cases t
  rfl

end XmlTree

def XmlNode.getAttribute (node : XmlNode) (name : Bytes) : Bytes :=
  ((node.attributes.find? fun attr => equals attr.name name).map XmlAttribute.value).getD []

def XmlNode.isTag (node : XmlNode) : Bool := node.type == .tag

namespace Xml

/-- What the search changes: `m_aNodes` of the result, and the strings of the query. -/
structure Searching where
  nodes : List Place
  query : List Bytes

/-- `test_opt[0] = '\\0'`, where there is a `[`. -/
def cutOption (sCur : Bytes) : Bytes :=
  match strstr sCur [91] with
  | some test_opt => sCur.set test_opt 0
  | none => sCur

/-- `isfind`, for the C string `p`. The condition that is cut off has no part in it. -/
def isFind (node : XmlNode) (p : Bytes) : Bool :=
  match cstr p with
  | 35 :: pn => equals (node.getAttribute (bytes "id")) pn
  | 46 :: pn => equals (node.getAttribute (bytes "class")) pn
  | pn => equals node.name pn

mutual

/-- `Xml::search` of a node with the step at `depth`. The node is told by its `path`. -/
def searchNode (path : Place) : XmlTree → Nat → Searching → Searching
  | .node node childs, depth, s =>
    match s.query[depth]? with
    | none => s
    | some sCur =>
      let p := cutOption sCur
      let s := { s with query := s.query.set depth p }
      if isFind node p then
        let s :=
          if s.query.length - 1 = depth then { s with nodes := s.nodes ++ [path] }
          else searchChilds path childs 0 (depth + 1) s
        if depth ≠ 0 then searchChilds path childs 0 0 s else s
      else searchChilds path childs 0 0 s

/-- `Xml::search_childs`, from the `k`-th child on. -/
def searchChilds (path : Place) : List XmlTree → Nat → Nat → Searching → Searching
  | [], _, _, s => s
  | child :: childs, k, depth, s =>
    searchChilds path childs (k + 1) depth
      (if child.root.isTag then searchNode (path ++ [k]) child depth s else s)

end

/-- `Xml::search` of a node with a query. -/
def search (node : XmlTree) (query : Option Bytes) : List Place :=
  match StringArray.split query [32] with
  | [] => []
  | sa => (searchNode [] node 0 ⟨[], sa⟩).nodes

/-! ## The strings of the query -/

/-- What a string of the query is read as. -/
def stepName (sCur : Bytes) : Bytes := cstr (cutOption sCur)

/-- A label fits the step of that number. -/
def fitsNames (names : List Bytes) (d : Nat) (node : XmlNode) : Bool :=
  (names[d]?).any (isFind node)

variable {names : List Bytes} {s : Searching} {d : Nat} {path : Place}

theorem isFind_cstr (node : XmlNode) (p : Bytes) : isFind node (cstr p) = isFind node p := by
  rw [isFind, isFind, cstr_cstr]

theorem cutOption_of_not_mem {sCur : Bytes} (h : 91 ∉ cstr sCur) : cutOption sCur = sCur := by
  rw [cutOption, strstr, find_singleton_none h]

/-- A string of the query is read up to the `[`. -/
theorem stepName_eq (sCur : Bytes) : stepName sCur = (cstr sCur).takeWhile (· != 91) := by
  by_cases h : 91 ∈ cstr sCur
  · obtain ⟨a, b, hab, ha⟩ := List.eq_append_cons_of_mem h
    obtain ⟨r, hr⟩ := cstr_isPrefix sCur
    have h0 : (0 : UInt8) ∉ a := fun hmem => not_mem_cstr sCur (hab ▸ List.mem_append_left _ hmem)
    have hset : sCur.set a.length 0 = a ++ 0 :: (b ++ r) := by
      rw [← hr, hab, List.append_assoc, List.set_append_right _ _ le_rfl, Nat.sub_self]
      rfl
    have hcut : cutOption sCur = a ++ 0 :: (b ++ r) := by
      rw [cutOption, strstr, hab, find_singleton ha]
      exact hset
    have hpass : ∀ x ∈ a, (x != 91) = true := by
      intro x hx
      rw [bne_iff_ne]
      rintro rfl
      exact ha hx
    rw [stepName, hcut, hab, cstr_append_of_not_mem h0, List.takeWhile_append_of_pos hpass]
    rfl
  · rw [stepName, cutOption_of_not_mem h, List.takeWhile_eq_self_iff.mpr]
    intro x hx
    rw [bne_iff_ne]
    rintro rfl
    exact h hx

/-- The cut string is read as the one it was cut from. -/
theorem stepName_cutOption (sCur : Bytes) : stepName (cutOption sCur) = stepName sCur := by
  have h : 91 ∉ cstr (cutOption sCur) := by
    show 91 ∉ stepName sCur
    rw [stepName_eq]
    intro hmem
    simpa using List.mem_takeWhile_imp hmem
  rw [stepName, cutOption_of_not_mem h, stepName]

/-- The search has found `found`, and the query says what it said. -/
def Adds (names : List Bytes) (s s' : Searching) (found : List Place) : Prop :=
  s'.nodes = s.nodes ++ found ∧ s'.query.map stepName = names

theorem Adds.trans {s s' s'' : Searching} {f g : List Place} (h : Adds names s s' f)
    (h' : Adds names s' s'' g) : Adds names s s'' (f ++ g) :=
  ⟨by rw [h'.1, h.1, List.append_assoc], h'.2⟩

theorem fitsNames_eq (hs : s.query.map stepName = names) {sCur : Bytes} (hcur : s.query[d]? = some sCur)
    (n : XmlNode) : fitsNames names d n = isFind n (cutOption sCur) := by
  rw [fitsNames, ← hs, List.getElem?_map, hcur]
  exact isFind_cstr n (cutOption sCur)

/-- The string of a step is written back as it is read. -/
theorem adds_set (hs : s.query.map stepName = names) {sCur : Bytes} (hcur : s.query[d]? = some sCur) :
    Adds names s { s with query := s.query.set d (cutOption sCur) } [] := by
  obtain ⟨hd, rfl⟩ := List.getElem?_eq_some_iff.mp hcur
  refine ⟨(List.append_nil _).symm, ?_⟩
  show (s.query.set d (cutOption s.query[d])).map stepName = names
  rw [List.map_set, stepName_cutOption, ← List.map_set, List.set_getElem_self, hs]

/-- The search of the trees is the one of `Rose.visit`. -/
def visited (names : List Bytes) (t : XmlTree) (d : Nat) : List Place :=
  t.rose.visit XmlNode.isTag (fitsNames names) names.length d

def visitedChilds (names : List Bytes) (ts : List XmlTree) (k d : Nat) : List Place :=
  Rose.visitChilds XmlNode.isTag (fitsNames names) names.length (XmlTree.roses ts) k d

mutual

theorem searchNode_adds (names : List Bytes) (path : Place) : ∀ (t : XmlTree) (d : Nat) (s : Searching),
    d < names.length → s.query.map stepName = names →
      Adds names s (searchNode path t d s) ((visited names t d).map (path ++ ·))
  | .node n childs, d, s, hd, hs => by
    obtain ⟨sCur, hcur⟩ : ∃ sCur, s.query[d]? = some sCur := by
      rw [← hs, List.length_map] at hd
      exact ⟨_, List.getElem?_eq_getElem hd⟩
    have hset := adds_set hs hcur
    set s₁ : Searching := { s with query := s.query.set d (cutOption sCur) } with hs₁
    have hlen : s₁.query.length = names.length := by rw [← hset.2, List.length_map]
    have hchilds := fun e he s hs => searchChilds_adds names path childs 0 e s he hs
    have hn : 0 < names.length := Nat.zero_lt_of_lt hd
    have hfits : fitsNames names d n = isFind n (cutOption sCur) := fitsNames_eq hs hcur n
    have hagain : ∀ s₂, s₂.query.map stepName = names →
        Adds names s₂ (searchChilds path childs 0 0 s₂)
          ((visitedChilds names childs 0 0).map (path ++ ·)) := fun s₂ hs₂ => hchilds 0 hn s₂ hs₂
    -- the element itself, or the pass with the next step
    have hfirst : isFind n (cutOption sCur) = true →
        Adds names s (if s₁.query.length - 1 = d then { s₁ with nodes := s₁.nodes ++ [path] }
            else searchChilds path childs 0 (d + 1) s₁)
          (((if fitsNames names d n ∧ d + 1 = names.length then [([] : Place)] else []) ++
            (if fitsNames names d n ∧ d + 1 < names.length then
              visitedChilds names childs 0 (d + 1) else [])).map (path ++ ·)) := by
      intro hfind
      rw [hlen, hfits, hfind]
      by_cases hlast : d + 1 = names.length
      · rw [if_pos (by omega), if_pos ⟨rfl, hlast⟩, if_neg (by omega)]
        refine ⟨?_, hset.2⟩
        simp [hs₁]
      · rw [if_neg (by omega), if_neg (by simp [hlast]), if_pos ⟨rfl, by omega⟩]
        exact hset.trans (hchilds (d + 1) (by omega) s₁ hset.2)
    have hvisited : visited names (.node n childs) d =
        ((if fitsNames names d n ∧ d + 1 = names.length then [([] : Place)] else []) ++
          (if fitsNames names d n ∧ d + 1 < names.length then
            visitedChilds names childs 0 (d + 1) else [])) ++
          (if d ≠ 0 ∨ fitsNames names d n = false then visitedChilds names childs 0 0 else []) := by
      rw [visited, XmlTree.rose, Rose.visit, ← List.append_assoc]
      rfl
    rw [searchNode, hcur, hvisited, List.map_append]
    show Adds names s (if isFind n (cutOption sCur) then _ else _) _
    by_cases hfind : isFind n (cutOption sCur) = true
    · rw [if_pos hfind]
      have h₁ := hfirst hfind
      by_cases hd0 : d = 0
      · have hskip : ¬ (d ≠ 0 ∨ fitsNames names d n = false) := by
          rw [hfits, hfind]
          simp [hd0]
        rw [if_neg hskip, List.map_nil, List.append_nil]
        show Adds names s (if d ≠ 0 then _ else _) _
        rw [if_neg (not_not.mpr hd0)]
        exact h₁
      · have hdo : d ≠ 0 ∨ fitsNames names d n = false := .inl hd0
        rw [if_pos hdo, if_pos hd0]
        exact h₁.trans (hagain _ h₁.2)
    · have hno : fitsNames names d n = false := by
        rw [hfits]
        exact Bool.eq_false_iff.mpr hfind
      rw [if_neg hfind, hno, if_neg (by simp), if_neg (by simp), if_pos (.inr rfl)]
      exact hset.trans (hagain s₁ hset.2)

theorem searchChilds_adds (names : List Bytes) (path : Place) : ∀ (ts : List XmlTree) (k d : Nat)
    (s : Searching), d < names.length → s.query.map stepName = names →
      Adds names s (searchChilds path ts k d s) ((visitedChilds names ts k d).map (path ++ ·))
  | [], k, d, s, hd, hs => ⟨(List.append_nil _).symm, hs⟩
  | t :: ts, k, d, s, hd, hs => by
    have hchild : Adds names s (if t.root.isTag then searchNode (path ++ [k]) t d s else s)
        ((if t.rose.label.isTag then (visited names t d).map (k :: ·) else []).map (path ++ ·)) := by
      rw [XmlTree.label_rose]
      by_cases htag : t.root.isTag = true
      · rw [if_pos htag, if_pos htag, List.map_map]
        have hnode := searchNode_adds names (path ++ [k]) t d s hd hs
        simpa [Function.comp_def] using hnode
      · rw [if_neg htag, if_neg htag]
        exact ⟨(List.append_nil _).symm, hs⟩
    rw [searchChilds, visitedChilds, XmlTree.roses, Rose.visitChilds, List.map_append]
    exact hchild.trans (searchChilds_adds names path ts (k + 1) d _ hd hchild.2)

end

/-- The search is the one of `Rose.visit`, with what the strings of the query are read as. -/
theorem search_eq (node : XmlTree) {query : Option Bytes} {sa : List Bytes}
    (hsa : StringArray.split query [32] = sa) (hne : sa ≠ []) :
    search node query = visited (sa.map stepName) node 0 := by
  have hlen : 0 < (sa.map stepName).length := by
    rw [List.length_map]
    exact List.length_pos_of_ne_nil hne
  have hadds := (searchNode_adds (sa.map stepName) [] node 0 ⟨[], sa⟩ hlen rfl).1
  obtain ⟨x, xs, rfl⟩ := List.exists_cons_of_ne_nil hne
  rw [search, hsa]
  show (searchNode [] node 0 ⟨[], x :: xs⟩).nodes = _
  rw [hadds]
  simp

end Xml

/-! ## Steps -/

/-- What a step of a query names. -/
inductive StepKind where
  | tag
  | id
  | className
  deriving DecidableEq, Repr

/-- A step of a query: a name, and the attribute that is asked for with its value. -/
structure Step where
  kind : StepKind
  name : Bytes
  attr : Option (Bytes × Bytes) := none
  deriving DecidableEq, Repr

namespace Step

def mark : StepKind → Bytes
  | .tag => []
  | .id => [35]
  | .className => [46]

/-- `[attr='v']`. -/
def option : Option (Bytes × Bytes) → Bytes
  | none => []
  | some (attr, v) => 91 :: (attr ++ [61, 39] ++ v ++ [39, 93])

/-- The step as it is written. -/
def text (step : Step) : Bytes :=
  mark step.kind ++ step.name ++ option step.attr

structure WellFormed (step : Step) : Prop where
  name_ne : step.name ≠ []
  name : 91 ∉ step.name
  tag : step.kind = .tag → ∀ c ∈ step.name.head?, c ≠ 35 ∧ c ≠ 46
  attr : ∀ attr v, step.attr = some (attr, v) → attr ≠ [] ∧ (∀ c ∈ attr, isNameChar c) ∧ 39 ∉ v

/-- The element has the name of the step. -/
def Fits (step : Step) (node : XmlNode) : Bool :=
  match step.kind with
  | .tag => equals node.name step.name
  | .id => equals (node.getAttribute (bytes "id")) step.name
  | .className => equals (node.getAttribute (bytes "class")) step.name

/-- The element satisfies the step. -/
def Satisfies (step : Step) (node : XmlNode) : Bool :=
  step.Fits node && step.attr.all fun attr => equals (node.getAttribute attr.1) attr.2

/-- The blanks of `query` cut it into the steps. -/
structure Written (steps : List Step) (query : Bytes) : Prop where
  nul : (0 : UInt8) ∉ query
  pieces : (pieces [32] query).filter (· ≠ []) = steps.map text

/-- A node fits the step of that number. -/
def fitsStep (steps : List Step) (d : Nat) (node : XmlNode) : Bool :=
  (steps[d]?).any fun step => step.Fits node

variable {steps : List Step} {step : Step} {query : Bytes}

theorem Written.split_eq (h : Written steps query) :
    StringArray.split (some query) [32] = steps.map text := by
  rw [← h.pieces]
  exact (StringArray.split_eq_iff (List.cons_ne_nil _ _) h.nul).mpr (dense_singleton 32 query)

theorem Written.not_nul (h : Written steps query) (hstep : step ∈ steps) : (0 : UInt8) ∉ step.text := by
  have hmem : step.text ∈ (Search.pieces [32] query).filter (· ≠ []) := by
    rw [h.pieces]
    exact List.mem_map_of_mem hstep
  exact fun h0 => h.nul (subset_of_mem_pieces (List.cons_ne_nil _ _) (List.mem_of_mem_filter hmem) h0)

/-- The option is cut off the step. -/
theorem WellFormed.stepName_text (h : step.WellFormed) (h0 : (0 : UInt8) ∉ step.text) :
    Xml.stepName step.text = mark step.kind ++ step.name := by
  have hpass : ∀ x ∈ mark step.kind ++ step.name, (x != 91) = true := by
    intro x hx
    rw [bne_iff_ne]
    rintro rfl
    rcases List.mem_append.mp hx with hx | hx
    · revert hx
      cases step.kind <;> decide
    · exact h.name hx
  rw [Xml.stepName_eq, cstr_of_not_mem h0, text, List.takeWhile_append_of_pos hpass]
  rcases step.attr with _ | ⟨attr, v⟩
  · exact List.append_nil _
  · exact List.append_nil _

theorem WellFormed.isFind_text (h : step.WellFormed) (h0 : (0 : UInt8) ∉ step.text) (node : XmlNode) :
    Xml.isFind node (Xml.stepName step.text) = step.Fits node := by
  have hname := h.stepName_text h0
  have hcstr : cstr (Xml.stepName step.text) = mark step.kind ++ step.name := by
    rw [Xml.stepName, cstr_cstr, ← Xml.stepName, hname]
  rw [Xml.isFind, hcstr, Fits]
  rcases hkind : step.kind with _ | _ | _
  · obtain ⟨c, cs, hcs⟩ := List.exists_cons_of_ne_nil h.name_ne
    obtain ⟨h35, h46⟩ := h.tag hkind c (by rw [hcs]; rfl)
    rw [mark, List.nil_append, hcs]
    split
    next heq => exact absurd (List.cons.inj heq).1 h35
    next heq => exact absurd (List.cons.inj heq).1 h46
    next => rfl
  · rfl
  · rfl

/-- The search asks for the names of the steps. -/
theorem Written.visited_eq (h : Written steps query) (hsteps : ∀ step ∈ steps, step.WellFormed)
    (root : XmlTree) (d : Nat) :
    Xml.visited ((steps.map text).map Xml.stepName) root d =
      root.rose.visit XmlNode.isTag (fitsStep steps) steps.length d := by
  have hfits : Xml.fitsNames ((steps.map text).map Xml.stepName) = fitsStep steps := by
    funext d node
    rw [Xml.fitsNames, fitsStep, List.getElem?_map, List.getElem?_map]
    rcases hd : steps[d]? with _ | step
    · rfl
    · have hmem := List.mem_of_getElem? hd
      exact (hsteps step hmem).isFind_text (h.not_nul hmem) node
  rw [Xml.visited, hfits, List.length_map, List.length_map]

theorem forall₂_fits_iff {l : List XmlNode} :
    List.Forall₂ (fun step node => step.Fits node = true) steps l ↔
      l.length = steps.length ∧ Rose.FitsAll (fitsStep steps) l := by
  rw [List.forall₂_iff_get, eq_comm]
  refine and_congr_right fun hlen => ⟨fun h i x hx => ?_, fun h i h₁ h₂ => ?_⟩
  · obtain ⟨hi, rfl⟩ := List.getElem?_eq_some_iff.mp hx
    rw [fitsStep, List.getElem?_eq_getElem (hlen ▸ hi)]
    exact h i (hlen ▸ hi) hi
  · have hfits := h i _ (List.getElem?_eq_getElem h₂)
    rw [fitsStep, List.getElem?_eq_getElem h₁] at hfits
    exact hfits

end Step

namespace Xml

/-- `found` are the elements that a chain leads to whose elements satisfy the steps, in the order of
the document. -/
structure Finds (steps : List Step) (root : XmlTree) (found : List Place) : Prop where
  ordered : found.Pairwise Before
  mem_iff : ∀ p, p ∈ found ↔ ∃ l₁ l₂, root.rose.line XmlNode.isTag p = some (l₁ ++ l₂) ∧
    List.Forall₂ (fun step node => step.Satisfies node = true) steps l₂

/-- The search begins at what follows these elements: it comes there with the first step. -/
def Begins (steps : List Step) (l : List XmlNode) : Prop :=
  Rose.Comes (Step.fitsStep steps) steps.length 0 l 0

/-- The search begins at the chains that satisfy the steps and at no other chain with their names,
and where it goes through childs twice it finds what comes first in the first pass. -/
structure Clean (steps : List Step) (root : XmlTree) : Prop where
  begun : ∀ p l₁ l₂, root.rose.line XmlNode.isTag p = some (l₁ ++ l₂) →
    List.Forall₂ (fun step node => step.Satisfies node = true) steps l₂ → Begins steps l₁
  satisfied : ∀ p l₁ l₂, root.rose.line XmlNode.isTag p = some (l₁ ++ l₂) → Begins steps l₁ →
    List.Forall₂ (fun step node => step.Fits node = true) steps l₂ →
      List.Forall₂ (fun step node => step.Satisfies node = true) steps l₂
  inTurn : Rose.InTurn XmlNode.isTag (Step.fitsStep steps) steps.length root.rose 0

theorem search_iff {steps : List Step} (hne : steps ≠ []) (hsteps : ∀ step ∈ steps, step.WellFormed)
    {query : Bytes} (hquery : Step.Written steps query) (root : XmlTree) :
    Finds steps root (search root (some query)) ↔ Clean steps root := by
  have hlen := List.length_pos_of_ne_nil hne
  have hsearch := search_eq root hquery.split_eq (by simpa using hne)
  rw [hquery.visited_eq hsteps] at hsearch
  have hmem : ∀ p, p ∈ search root (some query) ↔ ∃ l₁ l₂,
      root.rose.line XmlNode.isTag p = some (l₁ ++ l₂) ∧ Begins steps l₁ ∧
        List.Forall₂ (fun step node => step.Fits node = true) steps l₂ := by
    intro p
    rw [hsearch, Rose.mem_visit_zero_iff hlen]
    refine exists₂_congr fun l₁ l₂ => and_congr_right fun _ => ?_
    rw [Step.forall₂_fits_iff, Begins]
    exact and_left_comm
  -- the last elements of a line are told by their number
  have hsame : ∀ {l₁ l₂ m₁ m₂ : List XmlNode} {o : Option (List XmlNode)}, o = some (l₁ ++ l₂) →
      o = some (m₁ ++ m₂) → l₂.length = steps.length → m₂.length = steps.length →
        l₁ = m₁ ∧ l₂ = m₂ := by
    intro l₁ l₂ m₁ m₂ o hl hm hl₂ hm₂
    exact List.append_inj' (Option.some.inj (hl.symm.trans hm)) (hl₂.trans hm₂.symm)
  have hfits : ∀ {l : List XmlNode}, List.Forall₂ (fun step node => step.Satisfies node = true) steps l →
      List.Forall₂ (fun step node => step.Fits node = true) steps l := fun h =>
    h.imp fun step node hsat => (Bool.and_eq_true_iff.mp hsat).1
  constructor
  · intro h
    refine ⟨fun p l₁ l₂ hline hsat => ?_, fun p l₁ l₂ hline hbegins hl₂ => ?_, ?_⟩
    · obtain ⟨m₁, m₂, hm, hbegins, hm₂⟩ := (hmem p).mp ((h.mem_iff p).mpr ⟨l₁, l₂, hline, hsat⟩)
      rw [(hsame hline hm hsat.length_eq.symm hm₂.length_eq.symm).1]
      exact hbegins
    · obtain ⟨m₁, m₂, hm, hsat⟩ := (h.mem_iff p).mp ((hmem p).mpr ⟨l₁, l₂, hline, hbegins, hl₂⟩)
      rw [(hsame hline hm hl₂.length_eq.symm hsat.length_eq.symm).2]
      exact hsat
    · rw [← Rose.pairwise_visit_iff hlen, ← hsearch]
      exact h.ordered
  · intro h
    refine ⟨?_, fun p => ⟨fun hp => ?_, ?_⟩⟩
    · rw [hsearch, Rose.pairwise_visit_iff hlen]
      exact h.inTurn
    · obtain ⟨l₁, l₂, hline, hbegins, hl₂⟩ := (hmem p).mp hp
      exact ⟨l₁, l₂, hline, h.satisfied p l₁ l₂ hline hbegins hl₂⟩
    · rintro ⟨l₁, l₂, hline, hsat⟩
      exact (hmem p).mpr ⟨l₁, l₂, hline, h.begun p l₁ l₂ hline hsat, hfits hsat⟩

theorem begins_singleton_iff {step : Step} {l : List XmlNode} :
    Begins [step] l ↔ ∀ y ∈ l, ¬ step.Fits y := by
  have hnext : ∀ y e, Rose.Next (Step.fitsStep [step]) 1 0 y e ↔ ¬ step.Fits y ∧ e = 0 := by
    intro y e
    simp [Rose.Next, Step.fitsStep]
  rw [Begins, List.length_singleton]
  induction l with
  | nil => simp [Rose.comes_nil_iff]
  | cons y l ih => simp [Rose.comes_cons_iff, hnext, ih]

/-- With one step the elements that fit it are found right when those satisfy it that are not below
another one, and no others. -/
theorem clean_singleton_iff {step : Step} {root : XmlTree} :
    Clean [step] root ↔ ∀ p l x, root.rose.line XmlNode.isTag p = some (l ++ [x]) → step.Fits x →
      (step.Satisfies x ↔ ∀ y ∈ l, ¬ step.Fits y) := by
  have hfits : ∀ x, step.Satisfies x → step.Fits x := fun x h => (Bool.and_eq_true_iff.mp h).1
  constructor
  · intro h p l x hline hx
    rw [← begins_singleton_iff]
    constructor
    · exact fun hsat => h.begun p l [x] hline (.cons hsat .nil)
    · intro hbegins
      have hsat := h.satisfied p l [x] hline hbegins (.cons hx .nil)
      simpa using hsat
  · intro h
    refine ⟨fun p l₁ l₂ hline hsat => ?_, fun p l₁ l₂ hline hbegins hfit => ?_, ?_⟩
    · obtain ⟨x, rfl⟩ := List.length_eq_one_iff.mp hsat.length_eq.symm
      have hx : step.Satisfies x := by simpa using hsat
      exact begins_singleton_iff.mpr ((h p l₁ x hline (hfits x hx)).mp hx)
    · obtain ⟨x, rfl⟩ := List.length_eq_one_iff.mp hfit.length_eq.symm
      have hx : step.Fits x := by simpa using hfit
      exact .cons ((h p l₁ x hline hx).mpr (begins_singleton_iff.mp hbegins)) .nil
    · intro p l x e _ _ _ hlt
      exact absurd hlt (by simp)

/-- An element without attributes. -/
def element (name : Bytes) (childs : List XmlTree) : XmlTree :=
  .node { type := .tag, name } childs

theorem wellFormed_of_name {name : Bytes} (hne : name ≠ []) (hname : name.all isNameChar = true) :
    (⟨.tag, name, none⟩ : Step).WellFormed where
  name_ne := hne
  name hmem := absurd (List.all_eq_true.mp hname 91 hmem) (by decide)
  tag _ c hc := by
    have hc' := List.all_eq_true.mp hname c (List.mem_of_mem_head? hc)
    constructor <;> rintro rfl <;> exact absurd hc' (by decide)
  attr _ _ h := nomatch h

/-- `a[x='1']`. -/
def optionStep : Step := ⟨.tag, bytes "a", some (bytes "x", bytes "1")⟩

theorem optionStep_wellFormed : optionStep.WellFormed := by
  obtain ⟨hne, hname, htag, -⟩ :=
    @wellFormed_of_name (bytes "a") (by decide) (by decide)
  refine ⟨hne, hname, htag, fun a v h => ?_⟩
  obtain ⟨rfl, rfl⟩ := Prod.mk.inj (Option.some.inj h)
  exact ⟨by decide, List.all_eq_true.mp (by decide : (bytes "x").all isNameChar = true), by decide⟩

/-- `<r><a x='1'/></r>`. -/
def optionTree : XmlTree :=
  element (bytes "r")
    [.node { type := .tag, name := bytes "a", attributes := [⟨bytes "x", bytes "1"⟩] } []]

/-- The element with the attribute is found. -/
theorem search_iff_option :
    Finds [optionStep] optionTree (search optionTree (some (bytes "a[x='1']"))) := by
  have hclean : Clean [optionStep] optionTree := by
    refine clean_singleton_iff.mpr fun p l x hline hx => ?_
    rcases p with _ | ⟨_ | k, _ | ⟨j, p⟩⟩
    · -- the root has another name
      obtain ⟨-, hxs⟩ := List.append_inj' (Option.some.inj hline : [] ++ [_] = l ++ [x]) rfl
      obtain rfl := List.singleton_injective hxs
      exact absurd hx (by decide)
    · obtain ⟨rfl, hxs⟩ := List.append_inj' (Option.some.inj hline : [_] ++ [_] = l ++ [x]) rfl
      obtain rfl := List.singleton_injective hxs
      exact iff_of_true (by decide) (by decide)
    all_goals cases hline
  exact (search_iff (List.cons_ne_nil _ _) (by simpa using optionStep_wellFormed)
    ⟨by decide, by decide⟩ optionTree).mpr hclean

/-- An element without the attribute is found, and one below an element of its name is not. -/
theorem not_search :
    (optionStep.WellFormed ∧ Step.Written [optionStep] (bytes "a[x='1']") ∧
      search (element (bytes "a") []) (some (bytes "a[x='1']")) = [[]] ∧
      ¬ Finds [optionStep] (element (bytes "a") [])
        (search (element (bytes "a") []) (some (bytes "a[x='1']")))) ∧
    (Step.Written [⟨.tag, bytes "a", none⟩] (bytes "a") ∧
      search (element (bytes "a") [element (bytes "a") []]) (some (bytes "a")) = [[]] ∧
      ¬ Finds [⟨.tag, bytes "a", none⟩] (element (bytes "a") [element (bytes "a") []])
        (search (element (bytes "a") [element (bytes "a") []]) (some (bytes "a")))) := by
  have hone : search (element (bytes "a") []) (some (bytes "a[x='1']")) = [[]] := by decide
  have htwo : search (element (bytes "a") [element (bytes "a") []]) (some (bytes "a")) = [[]] := by
    decide
  refine ⟨⟨optionStep_wellFormed, ⟨by decide, by decide⟩, hone, fun h => ?_⟩, ⟨by decide, by decide⟩, htwo, fun h => ?_⟩
  · obtain ⟨l₁, l₂, hline, hsat⟩ := (h.mem_iff []).mp (by rw [hone]; exact List.mem_cons_self)
    obtain ⟨x, rfl⟩ := List.length_eq_one_iff.mp hsat.length_eq.symm
    have hx : [] ++ [({ type := .tag, name := bytes "a" } : XmlNode)] = l₁ ++ [x] :=
      Option.some.inj hline
    obtain ⟨-, hx⟩ := List.append_inj' hx rfl
    obtain rfl := List.singleton_injective hx
    exact absurd hsat (by simp only [List.forall₂_cons]; decide)
  · have hmem := (h.mem_iff [0]).mpr
      ⟨[{ type := .tag, name := bytes "a" }], [{ type := .tag, name := bytes "a" }], rfl,
        .cons (by decide) .nil⟩
    rw [htwo] at hmem
    exact absurd hmem (by decide)

end Xml

end Dframework
