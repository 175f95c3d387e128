import Mathlib

/-!
# Texts with an escape

An element `esc` takes the meaning from the element behind it. `units` cuts a text into elements
and escaped elements, and `segments` are the pieces between the separators that are not escaped,
without the empty ones.

Results:
1. `flatten_units`: the units are the text.
2. `segments_eq_cut`: the segments, read from left to right.
3. `weight_cut_append`: a longer text has more in its segments, unless there are separators only.
-/

namespace Escape

variable {α : Type*}

/-- The length of some segments with a separator for each of them. -/
def weight (l : List (List α)) : Nat :=
  (l.map (·.length + 1)).sum

@[simp] theorem weight_nil : weight ([] : List (List α)) = 0 := rfl

@[simp] theorem weight_cons (x : List α) (l : List (List α)) :
    weight (x :: l) = x.length + 1 + weight l := by
  simp [weight]

/-- The separators of a text are what its segments have beside their elements. -/
theorem length_intercalate (sep : α) {l : List (List α)} (h : l ≠ []) :
    (List.intercalate [sep] l).length + 1 = weight l := by
  induction l with
  | nil => exact absurd rfl h
  | cons x l ih =>
    cases l with
    | nil => simp
    | cons y l =>
      have ih := ih (List.cons_ne_nil _ _)
      rw [List.intercalate_cons_of_ne_nil (List.cons_ne_nil _ _), weight_cons, ← ih]
      simp only [List.length_append, List.length_singleton]
      omega

variable [DecidableEq α] {esc sep : α}

/-- The elements of a text, an escaped one together with its escape. -/
def units (esc : α) : List α → List (List α)
  | [] => []
  | [c] => [[c]]
  | c :: d :: t => if c = esc then [c, d] :: units esc t else [c] :: units esc (d :: t)

/-- What stands between the separators. -/
def segments (esc sep : α) (s : List α) : List (List α) :=
  (((units esc s).splitOn [sep]).map List.flatten).filter (· ≠ [])

/-- The segments of some units behind the start `cur` of a segment. -/
def cut (sep : α) : List (List α) → List α → List (List α)
  | [], cur => if cur = [] then [] else [cur]
  | u :: us, cur =>
    if u = [sep] then if cur = [] then cut sep us [] else cur :: cut sep us []
    else cut sep us (cur ++ u)

variable {c : α} {s t cur u : List α} {us vs : List (List α)}

/-! ## Units -/

@[simp] theorem units_nil : units esc [] = [] := rfl

theorem units_cons_cons (esc c d : α) (t : List α) : units esc (c :: d :: t) =
    if c = esc then [c, d] :: units esc t else [c] :: units esc (d :: t) := rfl

theorem units_cons (h : c ≠ esc) (t : List α) : units esc (c :: t) = [c] :: units esc t := by
  cases t with
  | nil => rfl
  | cons d t => rw [units_cons_cons, if_neg h]

@[simp] theorem units_escape (d : α) (t : List α) :
    units esc (esc :: d :: t) = [esc, d] :: units esc t := by
  rw [units_cons_cons, if_pos rfl]

/-- Induction over a text the way it is cut. -/
theorem units_induct {P : List α → Prop} (esc : α) (hnil : P []) (hopen : P [esc])
    (hplain : ∀ c t, c ≠ esc → P t → P (c :: t)) (hescape : ∀ d t, P t → P (esc :: d :: t))
    (s : List α) : P s := by
  induction hn : s.length using Nat.strongRecOn generalizing s with
  | ind n ih =>
    subst hn
    match s with
    | [] => exact hnil
    | c :: t =>
      by_cases hc : c = esc
      · subst hc
        match t with
        | [] => exact hopen
        | d :: t => exact hescape d t (ih t.length (by simp only [List.length_cons]; omega) t rfl)
      · exact hplain c t hc (ih t.length (by simp) t rfl)

theorem flatten_units (esc : α) (s : List α) : (units esc s).flatten = s := by
  induction s using units_induct esc with
  | hnil => rfl
  | hopen => rfl
  | hplain c t hc ih => rw [units_cons hc, List.flatten_cons, ih]; rfl
  | hescape d t ih => rw [units_escape, List.flatten_cons, ih]; rfl

/-- A unit is an element, an escaped element, or an escape at the end. -/
theorem mem_units {u : List α} (h : u ∈ units esc s) :
    (∃ c, c ≠ esc ∧ u = [c]) ∨ (∃ d, u = [esc, d]) ∨ u = [esc] := by
  induction s using units_induct esc with
  | hnil => cases h
  | hopen => exact .inr (.inr (List.mem_singleton.mp h))
  | hplain c t hc ih =>
    rw [units_cons hc] at h
    rcases List.mem_cons.mp h with rfl | h
    · exact .inl ⟨c, hc, rfl⟩
    · exact ih h
  | hescape d t ih =>
    rw [units_escape] at h
    rcases List.mem_cons.mp h with rfl | h
    · exact .inr (.inl ⟨d, rfl⟩)
    · exact ih h

theorem unit_ne_nil {u : List α} (h : u ∈ units esc s) : u ≠ [] := by
  rcases mem_units h with ⟨c, -, rfl⟩ | ⟨d, rfl⟩ | rfl <;> exact List.cons_ne_nil _ _

/-- A text that no escape is left open in is cut by itself. -/
theorem units_append (h : [esc] ∉ units esc s) (t : List α) :
    units esc (s ++ t) = units esc s ++ units esc t := by
  induction s using units_induct esc with
  | hnil => rfl
  | hopen => exact absurd List.mem_cons_self h
  | hplain c s hc ih =>
    rw [units_cons hc, List.mem_cons, not_or] at h
    rw [List.cons_append, units_cons hc, units_cons hc, ih h.2, List.cons_append]
  | hescape d s ih =>
    rw [units_escape, List.mem_cons, not_or] at h
    rw [List.cons_append, List.cons_append, units_escape, units_escape, ih h.2, List.cons_append]

/-! ## Segments -/

theorem cut_nil (sep : α) (cur : List α) : cut sep [] cur = if cur = [] then [] else [cur] := rfl

theorem cut_cons (sep : α) (u : List α) (us : List (List α)) (cur : List α) :
    cut sep (u :: us) cur =
      if u = [sep] then if cur = [] then cut sep us [] else cur :: cut sep us []
      else cut sep us (cur ++ u) := rfl

@[simp] theorem cut_sep_nil (us : List (List α)) : cut sep ([sep] :: us) [] = cut sep us [] := by
  rw [cut_cons, if_pos rfl, if_pos rfl]

theorem cut_sep (h : cur ≠ []) (us : List (List α)) :
    cut sep ([sep] :: us) cur = cur :: cut sep us [] := by
  rw [cut_cons, if_pos rfl, if_neg h]

theorem cut_unit (h : u ≠ [sep]) (us : List (List α)) (cur : List α) :
    cut sep (u :: us) cur = cut sep us (cur ++ u) := by
  rw [cut_cons, if_neg h]

theorem mem_cut_ne_nil {x : List α} (h : x ∈ cut sep us cur) : x ≠ [] := by
  induction us generalizing cur with
  | nil =>
    rw [cut_nil] at h
    split_ifs at h with hcur
    · cases h
    · rw [List.mem_singleton.mp h]
      exact hcur
  | cons u us ih =>
    by_cases hu : u = [sep]
    · subst hu
      by_cases hcur : cur = []
      · rw [hcur, cut_sep_nil] at h
        exact ih h
      · rw [cut_sep hcur] at h
        rcases List.mem_cons.mp h with rfl | h
        · exact hcur
        · exact ih h
    · rw [cut_unit hu] at h
      exact ih h

/-- The first segment starts with what was read of it. -/
theorem cut_of_ne_nil (h : cur ≠ []) (us : List (List α)) :
    ∃ x xs, cut sep us cur = x :: xs ∧ cur <+: x := by
  induction us generalizing cur with
  | nil => exact ⟨cur, [], by rw [cut_nil, if_neg h], List.prefix_refl cur⟩
  | cons u us ih =>
    by_cases hu : u = [sep]
    · exact ⟨cur, _, by rw [hu, cut_sep h], List.prefix_refl cur⟩
    · obtain ⟨x, xs, hcut, hpre⟩ := ih (List.append_ne_nil_of_left_ne_nil h u)
      exact ⟨x, xs, by rw [cut_unit hu, hcut], (List.prefix_append cur u).trans hpre⟩

/-- The pieces of some units behind the start `cur` of a piece, without the empty ones. -/
theorem cut_eq (sep : α) (us : List (List α)) (cur : List α) :
    cut sep us cur =
      (((us.splitOn [sep]).map List.flatten).modifyHead (cur ++ ·)).filter (· ≠ []) := by
  induction us generalizing cur with
  | nil => by_cases hcur : cur = [] <;> simp [cut_nil, hcur]
  | cons u us ih =>
    obtain ⟨p, ps, hsplit⟩ := List.exists_cons_of_ne_nil (List.splitOnP_ne_nil (· == [sep]) us)
    simp only [List.splitOn, hsplit] at ih
    rw [List.splitOn, List.splitOnP_cons_eq_if_modifyHead, hsplit]
    by_cases hu : u = [sep]
    · subst hu
      by_cases hcur : cur = []
      · subst hcur
        rw [cut_sep_nil, ih]
        simp
      · rw [cut_sep hcur, ih]
        simp [hcur]
    · rw [cut_unit hu, ih]
      simp [hu]

/-- The segments, read from left to right. -/
theorem segments_eq_cut (s : List α) : segments esc sep s = cut sep (units esc s) [] := by
  rw [cut_eq, segments]
  congr 1
  cases (units esc s).splitOn [sep] <;> simp

/-! ## A longer text -/

theorem weight_cut_nil (sep : α) (cur : List α) :
    weight (cut sep [] cur) = if cur = [] then 0 else cur.length + 1 := by
  rw [cut_nil]
  split_ifs <;> simp

theorem weight_cut_nil_le (sep : α) (cur u : List α) :
    weight (cut sep [] cur) ≤ weight (cut sep [] (cur ++ u)) := by
  rw [weight_cut_nil, weight_cut_nil]
  by_cases hcur : cur = []
  · rw [if_pos hcur]
    exact Nat.zero_le _
  · rw [if_neg hcur, if_neg (List.append_ne_nil_of_left_ne_nil hcur u), List.length_append]
    omega

theorem weight_cut_nil_lt (sep : α) (cur : List α) (h : u ≠ []) :
    weight (cut sep [] cur) < weight (cut sep [] (cur ++ u)) := by
  have hlen := List.length_pos_iff.mpr h
  rw [weight_cut_nil, weight_cut_nil, if_neg (List.append_ne_nil_of_right_ne_nil cur h),
    List.length_append]
  split_ifs <;> omega

/-- Units behind a text add to its last segment or start another one, unless they are separators. -/
theorem weight_cut_le (sep : α) (us : List (List α)) (cur : List α) :
    weight (cut sep [] cur) ≤ weight (cut sep us cur) := by
  induction us generalizing cur with
  | nil => exact le_rfl
  | cons u us ih =>
    by_cases hu : u = [sep]
    · subst hu
      by_cases hcur : cur = []
      · rw [hcur, cut_sep_nil]
        exact ih []
      · rw [cut_sep hcur, weight_cut_nil, if_neg hcur, weight_cons]
        exact Nat.le_add_right _ _
    · rw [cut_unit hu]
      exact (weight_cut_nil_le sep cur u).trans (ih (cur ++ u))

theorem weight_cut_lt (h : ∀ u ∈ us, u ≠ []) (hne : ∃ u ∈ us, u ≠ [sep]) (cur : List α) :
    weight (cut sep [] cur) < weight (cut sep us cur) := by
  induction us generalizing cur with
  | nil => simp at hne
  | cons u us ih =>
    obtain ⟨hnil, hus⟩ := List.forall_mem_cons.mp h
    by_cases hu : u = [sep]
    · subst hu
      have hne : ∃ u ∈ us, u ≠ [sep] := by simpa using hne
      have hlt := ih hus hne []
      by_cases hcur : cur = []
      · rw [hcur, cut_sep_nil]
        exact hlt
      · rw [cut_sep hcur, weight_cut_nil, if_neg hcur, weight_cons]
        omega
    · rw [cut_unit hu]
      exact (weight_cut_nil_lt sep cur hnil).trans_le (weight_cut_le sep us (cur ++ u))

/-- A text that goes on has no less in its segments. -/
theorem weight_cut_append (esc sep : α) (hsep : esc ≠ sep) (s t cur : List α) :
    weight (cut sep (units esc s) cur) ≤ weight (cut sep (units esc (s ++ t)) cur) := by
  induction s using units_induct esc generalizing cur with
  | hnil => exact weight_cut_le sep _ cur
  | hopen =>
    have hopen : [esc] ≠ [sep] := by simpa using hsep
    cases t with
    | nil => exact le_rfl
    | cons d t =>
      show weight (cut sep [[esc]] cur) ≤ weight (cut sep (units esc (esc :: d :: t)) cur)
      rw [units_escape, cut_unit hopen, cut_unit (by simp),
        show cur ++ [esc, d] = cur ++ [esc] ++ [d] by simp]
      exact (weight_cut_nil_le sep _ [d]).trans (weight_cut_le sep _ _)
  | hplain c s hc ih =>
    rw [List.cons_append, units_cons hc, units_cons hc]
    by_cases hcsep : [c] = [sep]
    · rw [hcsep]
      by_cases hcur : cur = []
      · rw [hcur, cut_sep_nil, cut_sep_nil]
        exact ih []
      · rw [cut_sep hcur, cut_sep hcur, weight_cons, weight_cons]
        exact Nat.add_le_add_left (ih []) _
    · rw [cut_unit hcsep, cut_unit hcsep]
      exact ih _
  | hescape d s ih =>
    rw [List.cons_append, List.cons_append, units_escape, units_escape, cut_unit (by simp),
      cut_unit (by simp)]
    exact ih _

/-- Behind a text in which no escape is left open, only separators add nothing. -/
theorem weight_cut_append_lt (h : [esc] ∉ units esc s) (ht : ∃ c ∈ t, c ≠ sep) (cur : List α) :
    weight (cut sep (units esc s) cur) < weight (cut sep (units esc (s ++ t)) cur) := by
  have hne : ∃ u ∈ units esc t, u ≠ [sep] := by
    by_contra hall
    simp only [not_exists, not_and, not_not] at hall
    obtain ⟨c, hc, hcsep⟩ := ht
    rw [← flatten_units esc t] at hc
    obtain ⟨u, hu, hcu⟩ := List.mem_flatten.mp hc
    rw [hall u hu] at hcu
    exact hcsep (List.mem_singleton.mp hcu)
  rw [units_append h]
  generalize units esc s = us
  induction us generalizing cur with
  | nil => exact weight_cut_lt (fun u hu => unit_ne_nil hu) hne cur
  | cons u us ih =>
    rw [List.cons_append]
    by_cases hu : u = [sep]
    · subst hu
      by_cases hcur : cur = []
      · rw [hcur, cut_sep_nil, cut_sep_nil]
        exact ih []
      · rw [cut_sep hcur, cut_sep hcur, weight_cons, weight_cons]
        exact Nat.add_lt_add_left (ih []) _
    · rw [cut_unit hu, cut_unit hu]
      exact ih _

/-- Separators behind a text add nothing. -/
theorem cut_append_sep (hsep : esc ≠ sep) (h : [esc] ∉ units esc s) (ht : ∀ c ∈ t, c = sep)
    (cur : List α) : cut sep (units esc (s ++ t)) cur = cut sep (units esc s) cur := by
  have hseps : ∀ cur : List α, cut sep (units esc t) cur = cut sep [] cur := by
    clear h
    induction t with
    | nil => exact fun _ => rfl
    | cons c t ih =>
      obtain ⟨rfl, ht⟩ := List.forall_mem_cons.mp ht
      intro cur
      rw [units_cons hsep.symm]
      by_cases hcur : cur = []
      · rw [hcur, cut_sep_nil, ih ht]
      · rw [cut_sep hcur, ih ht, cut_nil, cut_nil, if_pos rfl, if_neg hcur]
  rw [units_append h]
  generalize units esc s = us
  induction us generalizing cur with
  | nil => exact hseps cur
  | cons u us ih =>
    rw [List.cons_append]
    by_cases hu : u = [sep]
    · subst hu
      by_cases hcur : cur = []
      · rw [hcur, cut_sep_nil, cut_sep_nil, ih]
      · rw [cut_sep hcur, cut_sep hcur, ih]
    · rw [cut_unit hu, cut_unit hu, ih]

end Escape
