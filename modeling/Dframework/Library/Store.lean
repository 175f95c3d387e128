import Mathlib

/-!
# Stores whose places are never used again

A store is the list of what has been put into it: place `i` holds the `i`-th thing, or
nothing once that is gone. New things go to new places at the end.

Results:
1. `get_set_self`, `get_set_ne`, `get_append`: a lookup behind an update.
2. `mem_places`: the places that hold something with a property.
3. `places_set_none`, `places_set_some`, `places_append`: these places behind an update.
4. `flatMap_set`: the lists at all places, when one of them is changed.
-/

namespace Store

variable {α : Type*}

def get (s : List (Option α)) (i : Nat) : Option α :=
  s[i]?.join

/-- The places that hold something with the property `p`. -/
def places (s : List (Option α)) (p : α → Bool) : Finset Nat :=
  (Finset.range s.length).filter fun i => (get s i).any p

variable {s : List (Option α)} {a : α} {i j : Nat} {p : α → Bool}

theorem lt_of_get (h : get s i = some a) : i < s.length := by
  by_contra hge
  rw [get, List.getElem?_eq_none (not_lt.mp hge)] at h
  cases h

theorem get_of_le (h : s.length ≤ i) : get s i = none := by
  rw [get, List.getElem?_eq_none h]
  rfl

theorem get_set_self (h : i < s.length) (v : Option α) : get (s.set i v) i = v := by
  rw [get, List.getElem?_set_self h]
  rfl

theorem get_set_ne (h : i ≠ j) (v : Option α) : get (s.set i v) j = get s j := by
  rw [get, List.getElem?_set_ne h, get]

theorem get_set (h : i < s.length) (v : Option α) (j : Nat) :
    get (s.set i v) j = if i = j then v else get s j := by
  split
  next heq => rw [← heq, get_set_self h]
  next hne => exact get_set_ne hne v

/-- What stands at a place is put there again. -/
theorem set_get (h : get s i = some a) : s.set i (some a) = s := by
  refine List.ext_getElem? fun k => ?_
  rw [List.getElem?_set]
  split
  next heq =>
    rw [if_pos (lt_of_get h), ← heq]
    exact (Option.join_eq_some_iff.mp h).symm
  next => rfl

theorem get_append_lt (h : i < s.length) (t : List (Option α)) : get (s ++ t) i = get s i := by
  rw [get, List.getElem?_append_left h, get]

theorem get_append_length (v : Option α) : get (s ++ [v]) s.length = v := by
  rw [get, List.getElem?_append_right le_rfl, Nat.sub_self]
  rfl

/-- What stands in a store with one more thing at its end. -/
theorem get_append (v : Option α) (i : Nat) :
    get (s ++ [v]) i = if i = s.length then v else get s i := by
  split
  next heq => rw [heq, get_append_length]
  next hne =>
    rcases Nat.lt_or_gt_of_ne hne with hlt | hgt
    · exact get_append_lt hlt _
    · rw [get_of_le hgt.le, get_of_le]
      rw [List.length_append, List.length_singleton]
      exact hgt

@[simp] theorem mem_places : i ∈ places s p ↔ ∃ a, get s i = some a ∧ p a = true := by
  rw [places, Finset.mem_filter, Finset.mem_range, Option.any_eq_true]
  exact ⟨fun h => h.2, fun ⟨a, ha, hp⟩ => ⟨lt_of_get ha, a, ha, hp⟩⟩

theorem places_set_none (s : List (Option α)) (p : α → Bool) (i : Nat) :
    places (s.set i none) p = (places s p).erase i := by
  ext j
  rw [Finset.mem_erase, mem_places, mem_places]
  by_cases hij : i = j
  · subst hij
    by_cases hlt : i < s.length
    · simp [get_set_self hlt]
    · rw [List.set_eq_of_length_le (not_lt.mp hlt), get_of_le (not_lt.mp hlt)]
      simp
  · simp [get_set_ne hij, Ne.symm hij]

theorem places_set_some (h : i < s.length) (p : α → Bool) (a : α) :
    places (s.set i (some a)) p =
      if p a then insert i (places s p) else (places s p).erase i := by
  ext j
  rw [mem_places, get_set h]
  by_cases hij : i = j
  · subst hij
    by_cases hp : p a = true
    · simp [hp]
    · simp [hp]
  · rw [if_neg hij]
    by_cases hp : p a = true
    · simp [hp, Ne.symm hij]
    · simp [hp, Ne.symm hij]

theorem places_append (s : List (Option α)) (p : α → Bool) (a : α) :
    places (s ++ [some a]) p = if p a then insert s.length (places s p) else places s p := by
  ext j
  rw [mem_places, get_append]
  by_cases hj : j = s.length
  · have hnot : j ∉ places s p := by
      rw [mem_places, hj, get_of_le le_rfl]
      simp
    rw [if_pos hj]
    by_cases hp : p a = true
    · simp [hp, hj]
    · simp [hp, hnot]
  · rw [if_neg hj]
    by_cases hp : p a = true
    · simp [hp, hj]
    · simp [hp]

theorem places_append_none (s : List (Option α)) (p : α → Bool) :
    places (s ++ [none]) p = places s p := by
  ext j
  rw [mem_places, mem_places, get_append]
  split
  next heq => simp [heq, get_of_le]
  next => rfl

/-- Lists that are kept at the places, all of them behind one another, when one is changed. -/
theorem flatMap_set {β : Type*} (f : Option α → List β) (h : get s i = some a) :
    ∃ rest, (s.flatMap f).Perm (f (some a) ++ rest) ∧
      ∀ v, ((s.set i v).flatMap f).Perm (f v ++ rest) := by
  induction s generalizing i with
  | nil => cases h
  | cons u s ih =>
    cases i with
    | zero =>
      obtain rfl : u = some a := h
      exact ⟨s.flatMap f, .refl _, fun v => .refl _⟩
    | succ i =>
      obtain ⟨rest, hperm, hset⟩ := ih (i := i) h
      have hswap : ∀ {l l' : List β}, l.Perm (l' ++ rest) → (f u ++ l).Perm (l' ++ (f u ++ rest)) := by
        intro l l' hl
        refine (hl.append_left (f u)).trans ?_
        rw [← List.append_assoc, ← List.append_assoc]
        exact List.perm_append_comm.append_right rest
      exact ⟨f u ++ rest, hswap hperm, fun v => hswap (hset v)⟩

end Store
