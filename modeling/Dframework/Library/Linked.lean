import Mathlib

/-!
# Doubly linked lists

The links of the nodes are two partial functions, forth and back. They mirror a list when each of
its elements links to the one behind it and to the one before it, and its ends link to nothing.

Results:
1. `Mirrors.walk`: following the links from the first element visits the list.
2. `Mirrors.cut`, `Mirrors.snoc`: a list that is cut, and one that grows at its end.
-/

namespace Linked

variable {ι : Type*}

structure Links (ι : Type*) where
  next : ι → Option ι
  prev : ι → Option ι

namespace Links

def bare : Links ι :=
  ⟨fun _ => none, fun _ => none⟩

variable [DecidableEq ι]

def setNext (k : Links ι) (x : ι) (v : Option ι) : Links ι :=
  { k with next := Function.update k.next x v }

def setPrev (k : Links ι) (x : ι) (v : Option ι) : Links ι :=
  { k with prev := Function.update k.prev x v }

@[simp] theorem next_setNext_self (k : Links ι) (x : ι) (v : Option ι) :
    (k.setNext x v).next x = v :=
  Function.update_self ..

@[simp] theorem prev_setPrev_self (k : Links ι) (x : ι) (v : Option ι) :
    (k.setPrev x v).prev x = v :=
  Function.update_self ..

theorem next_setNext_of_ne (k : Links ι) {x y : ι} (h : y ≠ x) (v : Option ι) :
    (k.setNext x v).next y = k.next y :=
  Function.update_of_ne h ..

theorem prev_setPrev_of_ne (k : Links ι) {x y : ι} (h : y ≠ x) (v : Option ι) :
    (k.setPrev x v).prev y = k.prev y :=
  Function.update_of_ne h ..

@[simp] theorem prev_setNext (k : Links ι) (x : ι) (v : Option ι) :
    (k.setNext x v).prev = k.prev :=
  rfl

@[simp] theorem next_setPrev (k : Links ι) (x : ι) (v : Option ι) :
    (k.setPrev x v).next = k.next :=
  rfl

end Links

/-- The links of the elements of a list are those of its order. -/
structure Mirrors (k : Links ι) (l : List ι) : Prop where
  next : ∀ i x, l[i]? = some x → k.next x = l[i + 1]?
  prev : ∀ i y, l[i + 1]? = some y → k.prev y = l[i]?
  front : ∀ x, l[0]? = some x → k.prev x = none

/-- The nodes met on the way along `next`, up to where it ends. -/
inductive Walk (next : ι → Option ι) : Option ι → List ι → Prop
  | nil : Walk next none []
  | cons {x : ι} {l : List ι} : Walk next (next x) l → Walk next (some x) (x :: l)

/-- Links that agree on the nodes of a way lead the same way. -/
theorem Walk.congr {next next' : ι → Option ι} {start : Option ι} {l : List ι}
    (h : Walk next start l) (hnext : ∀ x ∈ l, next' x = next x) : Walk next' start l := by
  induction h with
  | nil => exact .nil
  | cons _ ih =>
    refine .cons ?_
    rw [hnext _ List.mem_cons_self]
    exact ih fun x hx => hnext x (List.mem_cons_of_mem _ hx)

/-- A way that goes on behind its last node. -/
theorem Walk.snoc {next next' : ι → Option ι} {start : Option ι} {l : List ι} {x : ι}
    (h : Walk next start l) (hne : l ≠ []) (hinit : ∀ y ∈ l.dropLast, next' y = next y)
    (hlast : ∀ y, l.getLast? = some y → next' y = some x) (hx : next' x = none) :
    Walk next' start (l ++ [x]) := by
  induction h with
  | nil => exact absurd rfl hne
  | @cons y rest hrest ih =>
    refine .cons ?_
    rcases rest with _ | ⟨z, rest⟩
    · rw [hlast y rfl]
      exact .cons (hx ▸ .nil)
    · rw [hinit y (by simp)]
      refine ih (List.cons_ne_nil _ _) (fun w hw => hinit w (by simp [hw])) fun w hw => hlast w ?_
      rwa [List.getLast?_cons_cons]

theorem place_unique {l : List ι} {x : ι} {i j : Nat} (hnodup : l.Nodup) (hi : l[i]? = some x)
    (hj : l[j]? = some x) : i = j :=
  (List.getElem?_inj (List.getElem?_eq_some_iff.mp hi).1 hnodup).mp (hi.trans hj.symm)

namespace Mirrors

variable {k : Links ι} {l : List ι} {x y : ι} {i : Nat}

theorem nil : Mirrors k [] :=
  ⟨fun _ _ hx => (Option.some_ne_none _ hx.symm).elim,
    fun _ _ hy => (Option.some_ne_none _ hy.symm).elim,
    fun _ hx => (Option.some_ne_none _ hx.symm).elim⟩

theorem walk_drop (h : Mirrors k l) (i : Nat) : Walk k.next l[i]? (l.drop i) := by
  induction hn : l.length - i generalizing i with
  | zero =>
    have hle : l.length ≤ i := by omega
    rw [List.getElem?_eq_none hle, List.drop_eq_nil_of_le hle]
    exact .nil
  | succ n ih =>
    have hlt : i < l.length := by omega
    have hrest := ih (i + 1) (by omega)
    rw [← h.next i l[i] (List.getElem?_eq_getElem hlt)] at hrest
    rw [List.getElem?_eq_getElem hlt, List.drop_eq_getElem_cons hlt]
    exact .cons hrest

/-- The way from the first element visits the elements in their order. -/
theorem walk (h : Mirrors k l) : Walk k.next l.head? l := by
  rw [List.head?_eq_getElem?]
  exact h.walk_drop 0

/-- Neighbours are linked both ways. -/
theorem linked (h : Mirrors k l) (hx : l[i]? = some x) (hy : l[i + 1]? = some y) :
    k.next x = some y ∧ k.prev y = some x :=
  ⟨(h.next i x hx).trans hy, (h.prev i y hy).trans hx⟩

theorem single (hnext : k.next x = none) (hprev : k.prev x = none) : Mirrors k [x] where
  next i y hy := by
    rw [List.getElem?_singleton] at hy
    split at hy
    · next hi =>
      cases hy
      rw [hnext, hi]
      rfl
    · cases hy
  prev i y hy := by simp at hy
  front y hy := by
    cases hy
    exact hprev

variable [DecidableEq ι]

/-- The list that ends where a link forth is taken away. -/
theorem cut (h : Mirrors k l) (hnodup : l.Nodup) (hx : l[i]? = some x) :
    Mirrors (k.setNext x none) (l.take (i + 1)) where
  next j y hy := by
    rw [List.getElem?_take] at hy ⊢
    split at hy
    · next hj =>
      by_cases hji : j = i
      · subst hji
        obtain rfl : x = y := Option.some.inj (hx.symm.trans hy)
        rw [Links.next_setNext_self, if_neg (lt_irrefl _)]
      · have hne : y ≠ x := by
          rintro rfl
          exact hji (place_unique hnodup hy hx)
        rw [Links.next_setNext_of_ne k hne, if_pos (by omega), h.next j y hy]
    · cases hy
  prev j y hy := by
    rw [List.getElem?_take] at hy ⊢
    split at hy
    · next hj => rw [if_pos (by omega), Links.prev_setNext, h.prev j y hy]
    · cases hy
  front y hy := by
    rw [List.getElem?_take, if_pos (Nat.succ_pos i)] at hy
    exact h.front y hy

/-- The list that grows at its end by a node without a link forth. -/
theorem snoc (h : Mirrors k l) (hnodup : l.Nodup) (hnew : x ∉ l) (hbare : k.next x = none)
    (hlast : l[i]? = some y) (hlen : l.length = i + 1) :
    Mirrors ((k.setNext y (some x)).setPrev x (some y)) (l ++ [x]) := by
  have hyx : x ≠ y := fun heq => hnew (heq ▸ List.mem_of_getElem? hlast)
  have hold : ∀ {j z}, l[j]? = some z → z ≠ x := fun hz heq =>
    hnew (heq ▸ List.mem_of_getElem? hz)
  have hend : (l ++ [x])[i + 1]? = some x := by rw [← hlen, List.getElem?_concat_length]
  -- an element of the longer list is an element of `l` or the new one at its end
  have hsplit : ∀ {j z}, (l ++ [x])[j]? = some z → l[j]? = some z ∨ j = i + 1 ∧ z = x := by
    intro j z hz
    by_cases hj : j < l.length
    · rw [List.getElem?_append_left hj] at hz
      exact .inl hz
    · obtain rfl : j = i + 1 := by
        have := (List.getElem?_eq_some_iff.mp hz).1
        rw [List.length_append, List.length_singleton] at this
        omega
      exact .inr ⟨rfl, (Option.some.inj (hend.symm.trans hz)).symm⟩
  have hleft : ∀ {j}, j ≤ i → (l ++ [x])[j]? = l[j]? := fun hj =>
    List.getElem?_append_left (by omega)
  refine ⟨fun j z hz => ?_, fun j z hz => ?_, fun z hz => ?_⟩
  · rw [Links.next_setPrev]
    rcases hsplit hz with hz | ⟨rfl, rfl⟩
    · by_cases hj : j = i
      · subst hj
        obtain rfl : y = z := Option.some.inj (hlast.symm.trans hz)
        rw [Links.next_setNext_self, hend]
      · have hlt := (List.getElem?_eq_some_iff.mp hz).1
        have hne : z ≠ y := by
          rintro rfl
          exact hj (place_unique hnodup hz hlast)
        rw [Links.next_setNext_of_ne k hne, hleft (by omega), h.next j z hz]
    · rw [Links.next_setNext_of_ne k hyx, hbare, List.getElem?_eq_none]
      rw [List.length_append, List.length_singleton]
      omega
  · rcases hsplit hz with hz | ⟨hj, rfl⟩
    · have hlt := (List.getElem?_eq_some_iff.mp hz).1
      rw [Links.prev_setPrev_of_ne _ (hold hz), Links.prev_setNext, hleft (by omega),
        h.prev j z hz]
    · obtain rfl : j = i := by omega
      rw [Links.prev_setPrev_self, hleft le_rfl, hlast]
  · rw [hleft (Nat.zero_le i)] at hz
    rw [Links.prev_setPrev_of_ne _ (hold hz), Links.prev_setNext, h.front z hz]

end Mirrors

end Linked
