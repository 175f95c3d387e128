import Mathlib
import Dframework.Base.Retval
import Dframework.Library.Linked
import Dframework.Util.ArraySorted

/-!
# `ArrayLinked`

A sorted array whose elements are nodes with links. `insert` lets the neighbours of the new node
link to it, and the new node links to nothing. So of the two links between neighbours there is
always exactly one: forth where the second of them came later, back where the first did.

Results:
1. `HalfLinked.insert`: what an insertion keeps of the links.
2. `links_mirror_iff`: the runs after which the links are those of the order.
-/

namespace Dframework

open Linked

/-- `ArrayLinked::Node`, with its address. -/
structure LinkedNode (α : Type*) where
  address : Nat
  data : α
  deriving DecidableEq, Repr

/-- An `ArrayLinked`: how many nodes were made, their `m_next` and `m_prev`, and the array. -/
structure ArrayLinked (α : Type*) where
  made : Nat
  links : Links Nat
  aList : List (LinkedNode α)

namespace ArrayLinked

variable {α : Type*}

def new : ArrayLinked α :=
  ⟨0, .bare, []⟩

/-- The addresses in the order of the array. -/
def order (s : ArrayLinked α) : List Nat :=
  s.aList.map LinkedNode.address

def get (l : List (LinkedNode α)) (position : Int) : Option (LinkedNode α) :=
  if position < l.length ∧ position ≥ 0 then l[position.toNat]? else none

/-- The links of the neighbours of a node that came in. -/
def linkIn (links : Links Nat) (node : Nat) (prev next : Option Nat) : Links Nat :=
  let links := match prev with
    | some prev => links.setNext prev (some node)
    | none => links
  match next with
  | some next => links.setPrev next (some node)
  | none => links

/-- `ArrayLinked::insert`, and the position it answers. Whether `capacity` finds memory is `room`. -/
def insert (cmp : α → α → Ordering) (room : Bool) (data : α) (s : ArrayLinked α) :
    Retval × Option Nat × ArrayLinked α :=
  let node : LinkedNode α := ⟨s.made, data⟩
  let cmp := fun a b : LinkedNode α => cmp a.data b.data
  if room then
    let pos := ArraySorted.insertId cmp node s.aList
    let aList := ArraySorted.insert cmp node s.aList
    let prev := (get aList (pos - 1)).map LinkedNode.address
    let next := (get aList (pos + 1)).map LinkedNode.address
    (none, some pos, ⟨s.made + 1, linkIn s.links node.address prev next, aList⟩)
  else (retval .eNomem, none, { s with made := s.made + 1 })

/-- A sequence of insertions, each with whether memory is found. -/
def run (cmp : α → α → Ordering) (inserts : List (Bool × α)) : ArrayLinked α :=
  inserts.foldl (fun s i => (insert cmp i.1 i.2 s).2.2) new

/-! ## The links of the neighbours -/

section

variable {links : Links Nat} {node z : Nat} {prev next : Option Nat}

theorem linkIn_next :
    (linkIn links node prev next).next z = if prev = some z then some node else links.next z := by
  cases prev with
  | none => cases next <;> rfl
  | some y =>
    by_cases hz : z = y
    · subst hz
      cases next <;> simp [linkIn]
    · have hne : some y ≠ some z := fun heq => hz (Option.some.inj heq).symm
      rw [if_neg hne]
      cases next <;> exact Links.next_setNext_of_ne links hz _

theorem linkIn_prev :
    (linkIn links node prev next).prev z = if next = some z then some node else links.prev z := by
  cases next with
  | none => cases prev <;> rfl
  | some y =>
    by_cases hz : z = y
    · subst hz
      cases prev <;> simp [linkIn]
    · have hne : some y ≠ some z := fun heq => hz (Option.some.inj heq).symm
      rw [if_neg hne]
      cases prev <;> exact Links.prev_setPrev_of_ne _ hz _

end

/-! ## One link between neighbours -/

/-- The links that insertions leave: each two neighbours have one of theirs, and the ends have none
outwards. -/
structure HalfLinked (links : Links Nat) (l : List Nat) : Prop where
  nodup : l.Nodup
  pair : ∀ i x y, l[i]? = some x → l[i + 1]? = some y →
    links.next x = some y ∧ links.prev y = none ∨ links.next x = none ∧ links.prev y = some x
  front : ∀ x, l[0]? = some x → links.prev x = none
  back : ∀ i x, l.length = i + 1 → l[i]? = some x → links.next x = none

namespace HalfLinked

variable {links : Links Nat} {l : List Nat} {node pos x y i : Nat} {before behind : Option Nat}

theorem nil : HalfLinked .bare [] where
  nodup := List.nodup_nil
  pair _ _ _ hx _ := (Option.some_ne_none _ hx.symm).elim
  front _ hx := (Option.some_ne_none _ hx.symm).elim
  back _ _ _ hx := (Option.some_ne_none _ hx.symm).elim

/-- Two neighbours that do not stand on both sides of the new node keep their links. -/
theorem old_pair (h : HalfLinked links l) (hx : l[i]? = some x) (hy : l[i + 1]? = some y)
    (hbefore : before ≠ some x) (hbehind : behind ≠ some y) :
    (linkIn links node before behind).next x = some y ∧
        (linkIn links node before behind).prev y = none ∨
      (linkIn links node before behind).next x = none ∧
        (linkIn links node before behind).prev y = some x := by
  rw [linkIn_next, linkIn_prev, if_neg hbefore, if_neg hbehind]
  exact h.pair i x y hx hy

/-- A node without links comes in at `pos`, and its neighbours link to it. -/
theorem insert (h : HalfLinked links l) (hnew : node ∉ l) (hnext : links.next node = none)
    (hprev : links.prev node = none) (hpos : pos ≤ l.length)
    (hbefore : ∀ x, before = some x ↔ 0 < pos ∧ l[pos - 1]? = some x)
    (hbehind : behind = l[pos]?) :
    HalfLinked (linkIn links node before behind) (l.insertIdx pos node) := by
  have hapart : ∀ {i z}, l[i]? = some z → z ≠ node := fun hz heq =>
    hnew (heq ▸ List.mem_of_getElem? hz)
  -- the neighbours of the new node are told by their positions
  have hbefore' : ∀ {i z}, l[i]? = some z → i + 1 ≠ pos → before ≠ some z := by
    intro i z hz hi heq
    obtain ⟨hpos0, hz'⟩ := (hbefore z).mp heq
    have := place_unique h.nodup hz hz'
    omega
  have hbehind' : ∀ {i z}, l[i]? = some z → i ≠ pos → behind ≠ some z := fun hz hi heq =>
    hi (place_unique h.nodup hz (hbehind ▸ heq))
  have hnext' : (linkIn links node before behind).next node = none := by
    rw [linkIn_next, if_neg, hnext]
    intro heq
    exact hapart ((hbefore node).mp heq).2 rfl
  have hprev' : (linkIn links node before behind).prev node = none := by
    rw [linkIn_prev, if_neg, hprev]
    intro heq
    exact hapart (hbehind ▸ heq) rfl
  have hat : (l.insertIdx pos node)[pos]? = some node := by
    rw [List.getElem?_insertIdx_self, if_pos hpos]
  refine ⟨?_, fun i x y hx hy => ?_, fun x hx => ?_, fun i x hlen hx => ?_⟩
  · exact (List.perm_insertIdx node l hpos).nodup_iff.mpr (List.nodup_cons.mpr ⟨hnew, h.nodup⟩)
  · rcases lt_trichotomy i pos with hi | rfl | hi
    · rw [List.getElem?_insertIdx_of_lt hi] at hx
      by_cases hi' : i + 1 = pos
      · -- the element before the new node
        subst hi'
        obtain rfl : node = y := Option.some.inj (hat.symm.trans hy)
        left
        rw [linkIn_next, if_pos ((hbefore x).mpr ⟨Nat.succ_pos i, hx⟩)]
        exact ⟨rfl, hprev'⟩
      · rw [List.getElem?_insertIdx_of_lt (by omega)] at hy
        exact h.old_pair hx hy (hbefore' hx hi') (hbehind' hy hi')
    · -- the element behind the new node
      obtain rfl : node = x := Option.some.inj (hat.symm.trans hx)
      rw [List.getElem?_insertIdx_of_gt (Nat.lt_add_one i), Nat.add_sub_cancel] at hy
      right
      rw [linkIn_prev, if_pos (hbehind.trans hy)]
      exact ⟨hnext', rfl⟩
    · obtain ⟨j, rfl⟩ := Nat.exists_eq_add_one_of_ne_zero (by omega : i ≠ 0)
      rw [List.getElem?_insertIdx_of_gt hi, Nat.add_sub_cancel] at hx
      rw [List.getElem?_insertIdx_of_gt (by omega), Nat.add_sub_cancel] at hy
      exact h.old_pair hx hy (hbefore' hx (by omega)) (hbehind' hy (by omega))
  · by_cases hzero : pos = 0
    · subst hzero
      obtain rfl : node = x := Option.some.inj (hat.symm.trans hx)
      exact hprev'
    · rw [List.getElem?_insertIdx_of_lt (by omega)] at hx
      rw [linkIn_prev, if_neg (hbehind' hx (by omega)), h.front x hx]
  · rw [List.length_insertIdx_of_le_length hpos] at hlen
    by_cases hlast : pos = i
    · subst hlast
      obtain rfl : node = x := Option.some.inj (hat.symm.trans hx)
      exact hnext'
    · obtain ⟨j, rfl⟩ := Nat.exists_eq_add_one_of_ne_zero (by omega : i ≠ 0)
      rw [List.getElem?_insertIdx_of_gt (by omega), Nat.add_sub_cancel] at hx
      rw [linkIn_next, if_neg (hbefore' hx (by omega)), h.back j x (by omega) hx]

/-- Half of the links are all of them only where there are no neighbours. -/
theorem mirrors_iff (h : HalfLinked links l) : Mirrors links l ↔ l.length ≤ 1 := by
  constructor
  · intro hall
    by_contra hlong
    have hx := List.getElem?_eq_getElem (show 0 < l.length by omega)
    have hy := List.getElem?_eq_getElem (show 0 + 1 < l.length by omega)
    obtain ⟨hnext, hprev⟩ := hall.linked hx hy
    rcases h.pair 0 _ _ hx hy with ⟨_, hnone⟩ | ⟨hnone, _⟩
    · rw [hnone] at hprev
      cases hprev
    · rw [hnone] at hnext
      cases hnext
  · intro hshort
    match l, hshort, h with
    | [], _, _ => exact .nil
    | [x], _, h => exact .single (h.back 0 x rfl rfl) (h.front x rfl)

end HalfLinked

/-! ## Runs -/

section

variable {α : Type*} {s : ArrayLinked α}

/-- What insertions keep. -/
structure Holds (s : ArrayLinked α) : Prop where
  half : HalfLinked s.links s.order
  made : ∀ x ∈ s.order, x < s.made
  bare : ∀ x, s.made ≤ x → s.links.next x = none ∧ s.links.prev x = none

theorem Holds.new : Holds (new : ArrayLinked α) where
  half := .nil
  made _ hx := (List.not_mem_nil hx).elim
  bare _ _ := ⟨rfl, rfl⟩

theorem get_map (l : List (LinkedNode α)) (position : Int) :
    (get l position).map LinkedNode.address =
      if 0 ≤ position then (l.map LinkedNode.address)[position.toNat]? else none := by
  unfold get
  by_cases hpos : 0 ≤ position
  · rw [if_pos hpos, List.getElem?_map]
    by_cases hlt : position < l.length
    · rw [if_pos ⟨hlt, hpos⟩]
    · rw [if_neg (fun hin => hlt hin.1), List.getElem?_eq_none (by omega)]
  · rw [if_neg hpos, if_neg (fun hin => hpos hin.2)]
    rfl

/-- Where a node comes in, and the neighbours that `insert` asks for. -/
theorem insert_parts (cmp : α → α → Ordering) (data : α) (s : ArrayLinked α) :
    ∃ pos ≤ s.order.length, ∃ before behind,
      (insert cmp true data s).2.2.order = s.order.insertIdx pos s.made ∧
      (insert cmp true data s).2.2.links = linkIn s.links s.made before behind ∧
      (insert cmp true data s).2.2.made = s.made + 1 ∧
      (∀ x, before = some x ↔ 0 < pos ∧ s.order[pos - 1]? = some x) ∧ behind = s.order[pos]? := by
  let node : LinkedNode α := ⟨s.made, data⟩
  let pos := ArraySorted.insertId (fun a b => cmp a.data b.data) node s.aList
  have hpos : pos ≤ s.aList.length := ArraySorted.insertId_le ..
  have horder : (s.aList.insertIdx pos node).map LinkedNode.address =
      s.order.insertIdx pos s.made := List.map_insertIdx ..
  refine ⟨pos, ?_, _, _, horder, rfl, rfl, fun x => ?_, ?_⟩
  · rw [order, List.length_map]
    exact hpos
  · show (get (s.aList.insertIdx pos node) (pos - 1)).map LinkedNode.address = some x ↔ _
    rw [get_map, horder]
    by_cases hzero : pos = 0
    · rw [hzero, if_neg (by omega)]
      simp
    · have hlt : ((pos : Int) - 1).toNat = pos - 1 := by omega
      rw [if_pos (by omega), hlt, List.getElem?_insertIdx_of_lt (by omega)]
      exact ⟨fun hx => ⟨Nat.pos_of_ne_zero hzero, hx⟩, And.right⟩
  · show (get (s.aList.insertIdx pos node) (pos + 1)).map LinkedNode.address = _
    rw [get_map, horder, if_pos (by omega), List.getElem?_insertIdx_of_gt (by omega)]
    rfl

theorem Holds.insert (h : Holds s) (cmp : α → α → Ordering) (room : Bool) (data : α) :
    Holds (insert cmp room data s).2.2 ∧
      (insert cmp room data s).2.2.order.length = s.order.length + room.toNat := by
  cases room with
  | false => exact ⟨⟨h.half, fun x hx => (h.made x hx).trans (Nat.lt_succ_self _),
      fun x hx => h.bare x (by exact Nat.le_of_succ_le hx)⟩, rfl⟩
  | true =>
    obtain ⟨pos, hpos, before, behind, horder, hlinks, hmade, hbefore, hbehind⟩ :=
      insert_parts cmp data s
    have hnew : s.made ∉ s.order := fun hin => lt_irrefl _ (h.made _ hin)
    obtain ⟨hnext, hprev⟩ := h.bare s.made le_rfl
    refine ⟨⟨?_, fun x hx => ?_, fun x hx => ?_⟩, ?_⟩
    · rw [horder, hlinks]
      exact h.half.insert hnew hnext hprev hpos hbefore hbehind
    · rw [horder] at hx
      rw [hmade]
      rcases List.eq_or_mem_of_mem_insertIdx hx with rfl | hx
      · exact Nat.lt_succ_self _
      · exact (h.made x hx).trans (Nat.lt_succ_self _)
    · rw [hmade] at hx
      have hout : x ∉ s.order := fun hin => absurd (h.made x hin) (by omega)
      have hbare := h.bare x (by omega)
      rw [hlinks, linkIn_next, linkIn_prev, if_neg, if_neg]
      · exact hbare
      · rintro rfl
        exact hout (List.mem_of_getElem? hbehind.symm)
      · intro heq
        exact hout (List.mem_of_getElem? ((hbefore x).mp heq).2)
    · rw [horder, List.length_insertIdx_of_le_length hpos]
      rfl

theorem run_holds (cmp : α → α → Ordering) (inserts : List (Bool × α)) :
    Holds (run cmp inserts) ∧ (run cmp inserts).order.length = inserts.countP (·.1) := by
  induction inserts using List.reverseRecOn with
  | nil => exact ⟨.new, rfl⟩
  | append_singleton inserts i ih =>
    obtain ⟨hholds, hlen⟩ := ih
    obtain ⟨hholds', hlen'⟩ := hholds.insert cmp i.1 i.2
    have hrun : run cmp (inserts ++ [i]) = (ArrayLinked.insert cmp i.1 i.2 (run cmp inserts)).2.2 :=
      List.foldl_concat ..
    rw [hrun, hlen', hlen, List.countP_append]
    refine ⟨hholds', ?_⟩
    cases hi : i.1 <;> simp [hi]

/-- After a sequence of insertions the links are those of the order of the array exactly when at
most one of them found memory. -/
theorem links_mirror_iff (cmp : α → α → Ordering) (inserts : List (Bool × α)) :
    Mirrors (run cmp inserts).links (run cmp inserts).order ↔ inserts.countP (·.1) ≤ 1 := by
  obtain ⟨hholds, hlen⟩ := run_holds cmp inserts
  rw [hholds.half.mirrors_iff, hlen]

end

/-- Two numbers in their order: the second links to nothing. -/
theorem not_links_mirror : ¬ ∀ inserts : List (Bool × Nat),
    Mirrors (run compare inserts).links (run compare inserts).order := by
  intro hmirror
  have h := (hmirror [(true, 1), (true, 2)]).prev 0 1 (by decide)
  exact absurd h (by decide)

end ArrayLinked

end Dframework
