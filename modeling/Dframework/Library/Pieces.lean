import Mathlib
import Dframework.Library.Search

/-!
# A list cut at a pattern

The occurrences of a pattern are taken from the left, and the next one is looked for behind
the end of the last. `places` are their indices, `pieces` what stands between them. Beside
them stand all occurrences, the overlapping ones included.

Results:
1. `intercalate_pieces`: the pieces around the pattern are the list.
2. `occurrences_le`: there are no more occurrences than elements covered by the places.
3. `occurrences_eq_iff`: there are as many just when an occurrence starts at every element
   that they cover.
-/

namespace Search

variable {α : Type*} [DecidableEq α] {pat s : List α} {i : Nat}

def piecesFrom (pat : List α) : Nat → List α → List (List α)
  | 0, s => [s]
  | fuel + 1, s =>
    match find pat s with
    | none => [s]
    | some i => s.take i :: piecesFrom pat fuel (s.drop (i + pat.length))

/-- What stands between the places. -/
def pieces (pat s : List α) : List (List α) :=
  piecesFrom pat (s.length + 1) s

/-- Where the gaps of length `n` between pieces start. -/
def gaps (n : Nat) : List (List α) → List Nat
  | [] | [_] => []
  | p :: q :: ps => p.length :: (gaps n (q :: ps)).map (· + (p.length + n))

/-- Where a pattern that is not empty stands, from the left and without overlaps. -/
def places (pat s : List α) : List Nat :=
  gaps pat.length (pieces pat s)

/-- Behind a place the list is shorter. -/
theorem length_drop_lt (hpat : pat ≠ []) (h : find pat s = some i) :
    (s.drop (i + pat.length)).length < s.length := by
  have hlen := List.length_pos_iff.mpr hpat
  have hle := find_add_length_le h
  rw [List.length_drop]
  omega

theorem piecesFrom_eq (hpat : pat ≠ []) {fuel : Nat} (hfuel : s.length < fuel) :
    piecesFrom pat fuel s = pieces pat s := by
  induction fuel using Nat.strong_induction_on generalizing s with
  | _ fuel ih =>
    obtain ⟨fuel, rfl⟩ := Nat.exists_eq_succ_of_ne_zero (Nat.ne_of_gt (Nat.zero_lt_of_lt hfuel))
    rw [pieces, piecesFrom, piecesFrom]
    cases hf : find pat s with
    | none => rfl
    | some i =>
      have hlt := length_drop_lt hpat hf
      show s.take i :: _ = s.take i :: _
      rcases Nat.lt_or_ge s.length fuel with hmore | hless
      · rw [ih fuel (Nat.lt_succ_self _) (hlt.trans hmore), ih s.length (by omega) hlt]
      · obtain rfl : fuel = s.length := by omega
        rfl

theorem pieces_of_none (h : find pat s = none) : pieces pat s = [s] := by
  rw [pieces, piecesFrom, h]

theorem pieces_of_some (hpat : pat ≠ []) (h : find pat s = some i) :
    pieces pat s = s.take i :: pieces pat (s.drop (i + pat.length)) := by
  rw [pieces, piecesFrom, h]
  show s.take i :: _ = s.take i :: _
  rw [piecesFrom_eq hpat (length_drop_lt hpat h)]

theorem pieces_ne_nil (pat s : List α) : pieces pat s ≠ [] := by
  rw [pieces, piecesFrom]
  split <;> exact List.cons_ne_nil _ _

theorem places_of_none (h : find pat s = none) : places pat s = [] := by
  rw [places, pieces_of_none h]
  rfl

theorem places_of_some (hpat : pat ≠ []) (h : find pat s = some i) :
    places pat s =
      i :: (places pat (s.drop (i + pat.length))).map (· + (i + pat.length)) := by
  have hle := find_add_length_le h
  obtain ⟨q, ps, hq⟩ := List.exists_cons_of_ne_nil (pieces_ne_nil pat (s.drop (i + pat.length)))
  rw [places, places, pieces_of_some hpat h, hq, gaps, List.length_take, min_eq_left (by omega)]

/-- Induction from one place to the next. -/
theorem cut_induction (hpat : pat ≠ []) {P : List α → Prop}
    (hlast : ∀ s, find pat s = none → P s)
    (hcut : ∀ s i, find pat s = some i → P (s.drop (i + pat.length)) → P s) (s : List α) : P s := by
  induction hn : s.length using Nat.strong_induction_on generalizing s with
  | _ n ih =>
    cases hf : find pat s with
    | none => exact hlast s hf
    | some i => exact hcut s i hf (ih _ (hn ▸ length_drop_lt hpat hf) _ rfl)

/-- A list cut at a place, with something else in the place of the pattern. -/
theorem intercalate_pieces_of_some (hpat : pat ≠ []) (h : find pat s = some i) (t : List α) :
    List.intercalate t (pieces pat s) =
      s.take i ++ t ++ List.intercalate t (pieces pat (s.drop (i + pat.length))) := by
  rw [pieces_of_some hpat h, List.intercalate_cons_of_ne_nil (pieces_ne_nil _ _)]

theorem intercalate_pieces (hpat : pat ≠ []) (s : List α) :
    List.intercalate pat (pieces pat s) = s := by
  induction s using cut_induction hpat with
  | hlast s hf => rw [pieces_of_none hf, List.intercalate_singleton]
  | hcut s i hf ih => rw [intercalate_pieces_of_some hpat hf, ih, ← find_split hf]

theorem subset_of_mem_pieces (hpat : pat ≠ []) {p : List α} (h : p ∈ pieces pat s) : p ⊆ s := by
  induction s using cut_induction hpat with
  | hlast s hf =>
    rw [pieces_of_none hf] at h
    exact List.mem_singleton.mp h ▸ List.Subset.refl s
  | hcut s i hf ih =>
    rw [pieces_of_some hpat hf] at h
    rcases List.mem_cons.mp h with rfl | h
    · exact List.take_subset i s
    · exact List.Subset.trans (ih h) (List.drop_subset _ s)

theorem length_pieces (hpat : pat ≠ []) (s : List α) :
    ((pieces pat s).map List.length).sum + pat.length * (places pat s).length = s.length := by
  induction s using cut_induction hpat with
  | hlast s hf => simp [pieces_of_none hf, places_of_none hf]
  | hcut s i hf ih =>
    have hle := find_add_length_le hf
    rw [pieces_of_some hpat hf, places_of_some hpat hf, List.map_cons, List.sum_cons,
      List.length_cons, List.length_map, Nat.mul_succ, List.length_take, min_eq_left (by omega)]
    rw [List.length_drop] at ih
    omega

/-! ## All occurrences -/

/-- How many occurrences start in the list. -/
def occurrences (pat : List α) : List α → Nat
  | [] => 0
  | x :: xs => (if pat <+: x :: xs then 1 else 0) + occurrences pat xs

/-- How many start at one of the first `n` elements. -/
def occurrencesBefore (pat s : List α) (n : Nat) : Nat :=
  (List.range n).countP fun j => pat.isPrefixOf (s.drop j)

theorem occurrences_drop (pat s : List α) {n : Nat} (h : n ≤ s.length) :
    occurrences pat s = occurrencesBefore pat s n + occurrences pat (s.drop n) := by
  induction n with
  | zero => simp [occurrencesBefore]
  | succ n ih =>
    rw [ih (by omega), occurrencesBefore, occurrencesBefore, List.range_succ, List.countP_append,
      List.drop_eq_getElem_cons (by omega : n < s.length), occurrences,
      ← List.drop_eq_getElem_cons (by omega : n < s.length), Nat.add_assoc]
    simp [List.countP_cons]

theorem occurrencesBefore_le (pat s : List α) (n : Nat) : occurrencesBefore pat s n ≤ n :=
  List.countP_le_length.trans_eq List.length_range

theorem occurrencesBefore_eq_iff {n : Nat} :
    occurrencesBefore pat s n = n ↔ ∀ j < n, pat <+: s.drop j := by
  have h := List.countP_eq_length (p := fun j => pat.isPrefixOf (s.drop j)) (l := List.range n)
  rw [List.length_range] at h
  rw [occurrencesBefore, h]
  simp

theorem occurrences_of_none (h : find pat s = none) : occurrences pat s = 0 := by
  rw [occurrences_drop pat s le_rfl, List.drop_length, occurrences, occurrencesBefore,
    List.countP_eq_zero.mpr]
  intro j hj hp
  rw [List.mem_range] at hj
  exact find_eq_none_iff.mp h j hj.le (List.isPrefixOf_iff_prefix.mp hp)

/-- The occurrences from a place on: those in the place itself, and those behind it. -/
theorem occurrences_of_some (h : find pat s = some i) :
    occurrences pat s = occurrencesBefore pat (s.drop i) pat.length +
      occurrences pat (s.drop (i + pat.length)) := by
  have hle := find_add_length_le h
  have hfront : occurrencesBefore pat s i = 0 := by
    refine List.countP_eq_zero.mpr fun j hj hp => ?_
    exact (find_eq_some_iff.mp h).2.2 j (List.mem_range.mp hj) (List.isPrefixOf_iff_prefix.mp hp)
  rw [occurrences_drop pat s (by omega : i ≤ s.length), hfront, Nat.zero_add,
    occurrences_drop pat (s.drop i) (n := pat.length) (by rw [List.length_drop]; omega),
    List.drop_drop]

theorem occurrences_le (hpat : pat ≠ []) (s : List α) :
    occurrences pat s ≤ pat.length * (places pat s).length := by
  induction s using cut_induction hpat with
  | hlast s hf => rw [occurrences_of_none hf]; exact Nat.zero_le _
  | hcut s i hf ih =>
    have hfirst := occurrencesBefore_le pat (s.drop i) pat.length
    rw [occurrences_of_some hf, places_of_some hpat hf, List.length_cons, List.length_map,
      Nat.mul_succ]
    omega

/-- An occurrence starts at every element that a place covers. -/
def Dense (pat s : List α) : Prop :=
  ∀ p ∈ places pat s, ∀ k < pat.length, pat <+: s.drop (p + k)

instance (pat s : List α) : Decidable (Dense pat s) :=
  inferInstanceAs (Decidable (∀ p ∈ places pat s, ∀ k < pat.length, pat <+: s.drop (p + k)))

theorem dense_of_none (h : find pat s = none) : Dense pat s := by
  intro p hp
  rw [places_of_none h] at hp
  cases hp

theorem dense_of_some (hpat : pat ≠ []) (h : find pat s = some i) :
    Dense pat s ↔ (∀ k < pat.length, pat <+: s.drop (i + k)) ∧
      Dense pat (s.drop (i + pat.length)) := by
  rw [Dense, places_of_some hpat h, List.forall_mem_cons, List.forall_mem_map]
  refine and_congr_right fun _ => forall₂_congr fun p _ => forall₂_congr fun k _ => ?_
  rw [List.drop_drop, Nat.add_comm p, Nat.add_assoc]

theorem occurrences_eq_iff (hpat : pat ≠ []) (s : List α) :
    occurrences pat s = pat.length * (places pat s).length ↔ Dense pat s := by
  induction s using cut_induction hpat with
  | hlast s hf => simp [occurrences_of_none hf, places_of_none hf, dense_of_none hf]
  | hcut s i hf ih =>
    have hfirst := occurrencesBefore_le pat (s.drop i) pat.length
    have hrest := occurrences_le hpat (s.drop (i + pat.length))
    rw [dense_of_some hpat hf, ← ih, occurrences_of_some hf, places_of_some hpat hf,
      List.length_cons, List.length_map, Nat.mul_succ]
    have hall : occurrencesBefore pat (s.drop i) pat.length = pat.length ↔ _ :=
      occurrencesBefore_eq_iff
    simp only [List.drop_drop] at hall
    rw [← hall]
    omega

/-- An element by itself is dense. -/
theorem dense_singleton (c : α) (s : List α) : Dense [c] s := by
  induction s using cut_induction (List.cons_ne_nil c []) with
  | hlast s hf => exact dense_of_none hf
  | hcut s i hf ih =>
    refine (dense_of_some (List.cons_ne_nil c []) hf).mpr ⟨fun k hk => ?_, ih⟩
    obtain rfl : k = 0 := Nat.lt_one_iff.mp hk
    exact find_starts hf

end Search
