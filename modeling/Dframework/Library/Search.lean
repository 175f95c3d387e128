import Mathlib

/-!
# First occurrence of a pattern in a list

`find pat s` is the least index at which `pat` occurs in `s`. The lemmas say
what the index means (`find_eq_some_iff`), that it does not move when more
elements arrive behind the text (`find_append`), and where the pattern is found
in a text that starts with a pattern-free piece (`find_piece`).
-/

namespace Search

variable {α : Type*} [DecidableEq α]

/-- The least index at which `pat` occurs in the list. -/
def find (pat : List α) : List α → Option Nat
  | [] => if pat = [] then some 0 else none
  | x :: xs => if pat.isPrefixOf (x :: xs) then some 0 else (find pat xs).map (· + 1)

theorem find_nil (pat : List α) : find pat [] = if pat = [] then some 0 else none := rfl

theorem find_cons (pat : List α) (x : α) (xs : List α) :
    find pat (x :: xs) = if pat.isPrefixOf (x :: xs) then some 0 else (find pat xs).map (· + 1) := rfl

theorem find_of_starts {pat s : List α} (h : pat <+: s) : find pat s = some 0 := by
  cases s with
  | nil => simp [find_nil, List.prefix_nil.mp h]
  | cons x xs => simp [find_cons, h]

theorem find_cons_of_not_starts {pat : List α} {x : α} {xs : List α} (h : ¬ pat <+: x :: xs) :
    find pat (x :: xs) = (find pat xs).map (· + 1) := by
  simp [find_cons, h]

/-- What the index found means: the pattern is there, and nowhere before. -/
theorem find_eq_some_iff {pat s : List α} {i : Nat} :
    find pat s = some i ↔ i ≤ s.length ∧ pat <+: s.drop i ∧ ∀ j < i, ¬ pat <+: s.drop j := by
  induction s generalizing i with
  | nil =>
    by_cases hp : pat = []
    · subst hp
      simp only [find_nil, ↓reduceIte, Option.some.injEq, List.length_nil, Nat.le_zero_eq,
        List.drop_nil, List.prefix_refl, not_true_eq_false, imp_false, true_and]
      constructor
      · rintro rfl; simp
      · exact fun h => h.1.symm
    · simp [find_nil, hp, List.prefix_nil]
  | cons x xs ih =>
    by_cases hp : pat <+: x :: xs
    · rw [find_of_starts hp]
      constructor
      · rintro ⟨⟩
        exact ⟨Nat.zero_le _, hp, fun j hj => absurd hj (Nat.not_lt_zero j)⟩
      · rintro ⟨_, _, hmin⟩
        cases i with
        | zero => rfl
        | succ i => exact absurd hp (hmin 0 (Nat.succ_pos i))
    · rw [find_cons_of_not_starts hp]
      cases i with
      | zero => simp [hp]
      | succ i =>
        simp only [Option.map_eq_some_iff, Nat.add_right_cancel_iff, exists_eq_right, ih,
          List.length_cons, Nat.add_le_add_iff_right, List.drop_succ_cons]
        refine and_congr_right fun _ => and_congr_right fun _ => ?_
        constructor
        · intro hmin j hj
          cases j with
          | zero => exact hp
          | succ j => exact hmin j (Nat.lt_of_succ_lt_succ hj)
        · exact fun hmin j hj => hmin (j + 1) (Nat.succ_lt_succ hj)

theorem find_eq_none_iff {pat s : List α} :
    find pat s = none ↔ ∀ i ≤ s.length, ¬ pat <+: s.drop i := by
  constructor
  · intro h i hi hp
    induction s generalizing i with
    | nil => simp [find_nil] at h; simp [List.prefix_nil, h] at hp
    | cons x xs ih =>
      by_cases h0 : pat <+: x :: xs
      · simp [find_of_starts h0] at h
      · rw [find_cons_of_not_starts h0, Option.map_eq_none_iff] at h
        cases i with
        | zero => exact h0 hp
        | succ i => exact ih h i (by simpa using hi) (by simpa using hp)
  · intro h
    cases hf : find pat s with
    | none => rfl
    | some i =>
      obtain ⟨hi, hp, _⟩ := find_eq_some_iff.1 hf
      exact absurd hp (h i hi)

theorem find_starts {pat s : List α} {i : Nat} (h : find pat s = some i) : pat <+: s.drop i :=
  (find_eq_some_iff.1 h).2.1

theorem find_add_length_le {pat s : List α} {i : Nat} (h : find pat s = some i) :
    i + pat.length ≤ s.length := by
  obtain ⟨hi, hp, _⟩ := find_eq_some_iff.1 h
  have := hp.length_le
  rw [List.length_drop] at this
  omega

/-- The text found at `i` splits there. -/
theorem find_split {pat s : List α} {i : Nat} (h : find pat s = some i) :
    s = s.take i ++ pat ++ s.drop (i + pat.length) := by
  have hpat : pat ++ s.drop (i + pat.length) = s.drop i := by
    rw [← List.drop_drop]
    exact (List.prefix_append_drop (find_starts h)).symm
  rw [List.append_assoc, hpat, List.take_append_drop]

/-- The piece in front of the first occurrence has none. -/
theorem find_take {pat s : List α} {i : Nat} (hpat : pat ≠ []) (h : find pat s = some i) :
    find pat (s.take i) = none := by
  obtain ⟨_, _, hmin⟩ := find_eq_some_iff.1 h
  refine find_eq_none_iff.2 fun j hj hp => ?_
  rw [List.length_take] at hj
  rw [List.drop_take] at hp
  rcases Nat.lt_or_ge j i with hlt | hge
  · exact hmin j hlt (hp.trans (List.take_prefix _ _))
  · rw [Nat.sub_eq_zero_of_le hge, List.take_zero] at hp
    exact hpat (List.prefix_nil.mp hp)

/-- An occurrence does not move when more elements arrive behind the text. -/
theorem find_append {pat s : List α} {i : Nat} (h : find pat s = some i) (t : List α) :
    find pat (s ++ t) = some i := by
  have hlen := find_add_length_le h
  obtain ⟨hi, hp, hmin⟩ := find_eq_some_iff.1 h
  refine find_eq_some_iff.2 ⟨by simp; omega, ?_, ?_⟩
  · rw [List.drop_append_of_le_length hi]
    exact hp.trans (List.prefix_append _ _)
  · intro j hj hpj
    rw [List.drop_append_of_le_length (by omega)] at hpj
    refine hmin j hj (List.prefix_of_prefix_length_le hpj (List.prefix_append _ _) ?_)
    rw [List.length_drop]
    omega

/-- An occurrence that ends inside the first part is found there already. -/
theorem find_of_append {pat s t : List α} {i : Nat} (h : find pat (s ++ t) = some i)
    (hi : i + pat.length ≤ s.length) : find pat s = some i := by
  obtain ⟨_, hp, hmin⟩ := find_eq_some_iff.1 h
  refine find_eq_some_iff.2 ⟨by omega, ?_, ?_⟩
  · rw [List.drop_append_of_le_length (by omega)] at hp
    refine List.prefix_of_prefix_length_le hp (List.prefix_append _ _) ?_
    rw [List.length_drop]
    omega
  · intro j hj hpj
    refine hmin j hj ?_
    rw [List.drop_append_of_le_length (by omega)]
    exact hpj.trans (List.prefix_append _ _)

/-- A pattern-free piece in front of the pattern: when no occurrence can start
inside the piece, the pattern is found right behind it. -/
theorem find_piece {pat a t : List α} (h : ∀ j < a.length, ¬ pat <+: (a ++ pat ++ t).drop j) :
    find pat (a ++ pat ++ t) = some a.length := by
  refine find_eq_some_iff.2 ⟨by simp, ?_, h⟩
  rw [List.append_assoc, List.drop_left]
  exact List.prefix_append _ _

/-- The pattern is looked for behind a piece in which none starts. -/
theorem find_skip {pat a t : List α} (h : ∀ j < a.length, ¬ pat <+: (a ++ t).drop j) :
    find pat (a ++ t) = (find pat t).map (· + a.length) := by
  induction a with
  | nil => simp
  | cons x a ih =>
    have hx : ¬ pat <+: x :: (a ++ t) := h 0 (Nat.succ_pos _)
    rw [List.cons_append, find_cons_of_not_starts hx,
      ih fun j hj => h (j + 1) (Nat.succ_lt_succ hj), Option.map_map]
    rfl

theorem find_singleton_none {c : α} {s : List α} (h : c ∉ s) : find [c] s = none := by
  refine find_eq_none_iff.2 fun i _ hp => h ?_
  exact List.mem_of_mem_drop (hp.subset (List.mem_singleton_self c))

/-- An element is looked for behind a piece that has none. -/
theorem find_singleton_append {c : α} {a : List α} (h : c ∉ a) (t : List α) :
    find [c] (a ++ t) = (find [c] t).map (· + a.length) := by
  refine find_skip fun j hj hp => h ?_
  rw [List.drop_append_of_le_length hj.le] at hp
  obtain ⟨x, xs, hx⟩ := List.exists_cons_of_length_pos
    (show 0 < (a.drop j).length by rw [List.length_drop]; omega)
  rw [hx, List.cons_append, List.cons_prefix_cons] at hp
  exact List.mem_of_mem_drop (show c ∈ a.drop j by rw [hx, hp.1]; exact List.mem_cons_self)

/-- A single element is found at its first place. -/
theorem find_singleton {c : α} {a : List α} (h : c ∉ a) (t : List α) :
    find [c] (a ++ c :: t) = some a.length := by
  have hstarts : find [c] (c :: t) = some 0 := find_of_starts ⟨t, rfl⟩
  rw [find_singleton_append h, hstarts]
  exact congrArg some (Nat.zero_add _)

end Search
