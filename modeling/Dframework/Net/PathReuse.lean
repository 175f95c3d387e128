import Mathlib
import Dframework.Net.PathInfo

/-!
# A path that is parsed again

`PathInfo::parse` adds to the segments that the object holds. A path that was parsed is parsed to
itself unless a slash or a backslash lost the escape in front of it.

Results:
1. `parse_sPath`: when a path that was parsed is parsed to itself.
2. `reusable_iff`: when an object can be used again.
-/

namespace Dframework

open CLib Escape

namespace PathInfo

/-- An object can be used again: what it held leaves no trace, its path is parsed to itself, and a
copy has its fields. -/
structure Reusable (first path : Bytes) : Prop where
  sameSegments : ((parse {} first).parse path).aPaths = (parse {} path).aPaths
  samePath : ((parse {} first).parse path).sPath = (parse {} path).sPath
  samePrefix : ((parse {} first).parse path).sPrefixPath = (parse {} path).sPrefixPath
  sameName : ((parse {} first).parse path).sName = (parse {} path).sName
  fixed : parse {} (parse {} path).sPath = parse {} path
  copied : copy ((parse {} first).parse path) = (parse {} first).parse path

end PathInfo

/-- No escape of a slash or of a backslash stands directly behind a separator. -/
def Stable : Bool → List Bytes → Prop
  | _, [] => True
  | behind, u :: us =>
    if u = [47] then Stable true us
    else (behind → u ≠ [92, 47] ∧ u ≠ [92, 92]) ∧ Stable false us

instance decidableStable : (behind : Bool) → (us : List Bytes) → Decidable (Stable behind us)
  | _, [] => inferInstanceAs (Decidable True)
  | behind, u :: us =>
    have : Decidable (Stable true us) := decidableStable true us
    have : Decidable (Stable false us) := decidableStable false us
    inferInstanceAs (Decidable (if u = [47] then Stable true us
      else (behind → u ≠ [92, 47] ∧ u ≠ [92, 92]) ∧ Stable false us))

/-- A text without a separator in which no escape is left open. -/
def Whole (x : Bytes) : Prop :=
  [47] ∉ units 92 x ∧ [92] ∉ units 92 x

/-- It starts with a slash or a backslash. -/
def Marked (x : Bytes) : Prop :=
  x.head? = some 47 ∨ x.head? = some 92

section

variable {behind : Bool} {c : UInt8} {s x temp : Bytes} {xs : List Bytes} {us : List Bytes}

theorem stable_sep (behind : Bool) (us : List Bytes) :
    Stable behind ([47] :: us) ↔ Stable true us := by
  rw [Stable, if_pos rfl]

theorem stable_plain (hc' : c ≠ 47) (us : List Bytes) :
    Stable behind ([c] :: us) ↔ Stable false us := by
  rw [Stable, if_neg (by simpa using hc')]
  simp

theorem stable_escape (d : UInt8) (us : List Bytes) :
    Stable behind ([92, d] :: us) ↔ (behind → d ≠ 47 ∧ d ≠ 92) ∧ Stable false us := by
  rw [Stable, if_neg (by simp)]
  simp

theorem whole_nil : Whole [] := ⟨List.not_mem_nil, List.not_mem_nil⟩

theorem Whole.append (h : Whole x) (hs : Whole s) : Whole (x ++ s) := by
  rw [Whole, units_append h.2]
  simp [h.1, h.2, hs.1, hs.2]

theorem whole_plain (hc : c ≠ 92) (hc' : c ≠ 47) : Whole [c] := by
  rw [Whole, units_cons hc]
  simp [hc.symm, hc'.symm]

theorem whole_escape (d : UInt8) : Whole [92, d] := by
  rw [Whole, units_escape]
  simp

/-- A text without separators is taken as it is. -/
theorem drawn_whole (h : Whole x) (us : List Bytes) (temp : Bytes) :
    drawn (units 92 x ++ us) false temp = drawn us false (temp ++ x) := by
  induction x using units_induct (92 : UInt8) generalizing temp with
  | hnil => simp
  | hopen => exact absurd List.mem_cons_self h.2
  | hplain c t hc ih =>
    have hsplit := units_cons hc t
    rw [Whole, hsplit, List.mem_cons, List.mem_cons, not_or, not_or] at h
    have hslash : c ≠ 47 := fun heq => h.1.1 (by rw [heq])
    rw [hsplit, List.cons_append, drawn_plain hc hslash, ih ⟨h.1.2, h.2.2⟩, List.append_assoc]
    rfl
  | hescape d t ih =>
    have hsplit : units (92 : UInt8) (92 :: d :: t) = [92, d] :: units 92 t := units_escape d t
    rw [Whole, hsplit, List.mem_cons, List.mem_cons, not_or, not_or] at h
    rw [hsplit, List.cons_append, drawn_escape, ih ⟨h.1.2, h.2.2⟩, List.append_assoc]
    rfl

/-- So is one behind a separator, if it does not start with an escape. -/
theorem drawn_whole_behind (h : Whole x) (hne : x ≠ []) (hmark : ¬ Marked x) (us : List Bytes) :
    drawn (units 92 x ++ us) true [] = drawn us false x := by
  obtain ⟨c, t, rfl⟩ := List.exists_cons_of_ne_nil hne
  have hc : c ≠ 92 := fun heq => hmark (.inr (congrArg some heq))
  have hslash : c ≠ 47 := fun heq => hmark (.inl (congrArg some heq))
  have hsplit := units_cons hc t
  have ht : Whole t := by
    rw [Whole, hsplit, List.mem_cons, List.mem_cons, not_or, not_or] at h
    exact ⟨h.1.2, h.2.2⟩
  rw [hsplit, List.cons_append, drawn_plain hc hslash, drawn_whole ht]
  rfl

theorem units_slash (h : Whole x) (t : Bytes) :
    units 92 (x ++ 47 :: t) = units 92 x ++ [47] :: units 92 t := by
  rw [units_append h.2, units_cons (by decide)]

/-- The segments are no longer than the text. -/
theorem weight_drawn_text (htemp : behind = true → temp = []) :
    weight (drawn (units 92 s) behind temp) ≤ s.length + temp.length + 1 := by
  induction s using units_induct (92 : UInt8) generalizing behind temp with
  | hnil =>
    rw [units_nil, drawn_nil, weight_cut_nil]
    split_ifs <;> simp
  | hopen =>
    show weight (drawn [[92]] behind temp) ≤ 1 + temp.length + 1
    rw [drawn_open, weight_cut_nil]
    split_ifs <;> omega
  | hplain c t hc ih =>
    rw [units_cons hc, List.length_cons]
    by_cases hslash : c = 47
    · subst hslash
      cases behind with
      | true =>
        rw [htemp rfl, drawn_sep_behind]
        exact (ih fun _ => rfl).trans (by simp)
      | false =>
        have hle : weight (drawn (units 92 t) true []) ≤ t.length + 0 + 1 := ih fun _ => rfl
        rw [drawn_sep, weight_cons]
        omega
    · have hle : weight (drawn (units 92 t) false (temp ++ [c])) ≤ _ := ih (by simp)
      rw [List.length_append, List.length_singleton] at hle
      rw [drawn_plain hc hslash]
      omega
  | hescape d t ih =>
    have hle : weight (drawn (units 92 t) false (temp ++ if behind then [d] else [92, d])) ≤ _ :=
      ih (by simp)
    have hadd : (if behind then [d] else [92, d]).length ≤ 2 := by split_ifs <;> simp
    rw [List.length_append] at hle
    rw [units_escape, drawn_escape, List.length_cons, List.length_cons]
    omega

/-- They are shorter when a marked segment is read behind a separator. -/
theorem weight_drawn_marked (h : Marked s) :
    weight (drawn (units 92 s) true []) < s.length + 1 := by
  rcases s with _ | ⟨c, t⟩
  · rcases h with h | h <;> cases h
  rw [List.length_cons]
  rcases h with h | h
  · obtain rfl := Option.some.inj h
    have hle : weight (drawn (units 92 t) true []) ≤ t.length + 0 + 1 :=
      weight_drawn_text fun _ => rfl
    rw [units_cons (by decide), drawn_sep_behind]
    omega
  · obtain rfl := Option.some.inj h
    cases t with
    | nil => exact Nat.lt_succ_of_lt Nat.zero_lt_one
    | cons d t =>
      have hle : weight (drawn (units 92 t) false [d]) ≤ t.length + 1 + 1 :=
        weight_drawn_text (by simp)
      rw [units_escape, drawn_escape, if_pos rfl, List.nil_append, List.length_cons]
      omega

theorem marked_append (h : temp ≠ []) (s : Bytes) : Marked (temp ++ s) ↔ Marked temp := by
  obtain ⟨c, t, rfl⟩ := List.exists_cons_of_ne_nil h
  rfl

/-- A text of joined segments is cut into them exactly when none of them is marked. -/
theorem drawn_intercalate_iff (h : ∀ x ∈ xs, x ≠ [] ∧ (Marked x ∨ Whole x)) :
    drawn (units 92 (List.intercalate [47] xs)) true [] = xs ↔ ∀ x ∈ xs, ¬ Marked x := by
  induction xs with
  | nil => exact iff_of_true rfl (by simp)
  | cons x xs ih =>
    obtain ⟨⟨hne, hsound⟩, hxs⟩ := List.forall_mem_cons.mp h
    rw [List.forall_mem_cons]
    by_cases hmark : Marked x
    · refine iff_of_false (fun heq => ?_) (fun hall => hall.1 hmark)
      have htext : Marked (List.intercalate [47] (x :: xs)) := by
        cases xs with
        | nil => rwa [List.intercalate_singleton]
        | cons y ys =>
          rw [List.intercalate_cons_of_ne_nil (List.cons_ne_nil y ys), List.append_assoc]
          exact (marked_append hne _).mpr hmark
      have hlt := weight_drawn_marked htext
      rw [heq, length_intercalate _ (List.cons_ne_nil x xs)] at hlt
      exact lt_irrefl _ hlt
    · have hwhole := hsound.resolve_left hmark
      cases xs with
      | nil =>
        have hone := drawn_whole_behind hwhole hne hmark []
        rw [List.append_nil, drawn_nil, cut, if_neg hne] at hone
        rw [List.intercalate_singleton, hone]
        exact iff_of_true rfl ⟨hmark, by simp⟩
      | cons y ys =>
        rw [List.intercalate_cons_of_ne_nil (List.cons_ne_nil y ys), List.append_assoc,
          List.singleton_append, units_slash hwhole, drawn_whole_behind hwhole hne hmark, drawn_sep,
          List.cons_inj_right, ih hxs]
        exact ⟨fun hall => ⟨hmark, hall⟩, And.right⟩

theorem not_marked_nil : ¬ Marked [] := by
  rintro (h | h) <;> cases h

theorem marked_singleton (d : UInt8) : Marked [d] ↔ d = 47 ∨ d = 92 := by
  simp [Marked]

theorem sound_append (h : Marked temp ∨ Whole temp) (hs : Whole s) :
    Marked (temp ++ s) ∨ Whole (temp ++ s) := by
  by_cases hne : temp = []
  · subst hne
    exact .inr hs
  · exact h.imp (marked_append hne s).mpr fun hwhole => hwhole.append hs

theorem sound_singleton (d : UInt8) : Marked [d] ∨ Whole [d] := by
  by_cases hmark : d = 47 ∨ d = 92
  · exact .inl ((marked_singleton d).mpr hmark)
  · rw [not_or] at hmark
    exact .inr (whole_plain hmark.2 hmark.1)

theorem cut_sound (h : Marked temp ∨ Whole temp) :
    ∀ x ∈ cut 47 [] temp, x ≠ [] ∧ (Marked x ∨ Whole x) := by
  intro x hx
  rw [cut] at hx
  split_ifs at hx with hne
  · cases hx
  · rw [List.mem_singleton.mp hx]
    exact ⟨hne, h⟩

/-- A segment that is found behind a separator is whole, or an escape was lost in front of it. -/
theorem drawn_sound (hb : behind = true ↔ temp = []) (h : Marked temp ∨ Whole temp) :
    ∀ x ∈ drawn (units 92 s) behind temp, x ≠ [] ∧ (Marked x ∨ Whole x) := by
  induction s using units_induct (92 : UInt8) generalizing behind temp with
  | hnil => exact cut_sound h
  | hopen =>
    show ∀ x ∈ drawn [[92]] behind temp, _
    rw [drawn_open]
    exact cut_sound h
  | hplain c t hc ih =>
    rw [units_cons hc]
    by_cases hslash : c = 47
    · subst hslash
      cases behind with
      | true =>
        rw [hb.mp rfl, drawn_sep_behind]
        exact ih (by simp) (.inr whole_nil)
      | false =>
        rw [drawn_sep, List.forall_mem_cons]
        exact ⟨⟨by simpa using hb, h⟩, ih (by simp) (.inr whole_nil)⟩
    · rw [drawn_plain hc hslash]
      exact ih (by simp) (sound_append h (whole_plain hc hslash))
  | hescape d t ih =>
    rw [units_escape, drawn_escape]
    cases behind with
    | true =>
      rw [hb.mp rfl]
      exact ih (by simp) (sound_singleton d)
    | false => exact ih (by simp) (sound_append h (whole_escape d))

/-- None of the segments that are found is marked exactly when no escape was lost that matters. -/
theorem drawn_marked_iff (hb : behind = true ↔ temp = []) :
    (∀ x ∈ drawn (units 92 s) behind temp, ¬ Marked x) ↔
      Stable behind (units 92 s) ∧ ¬ Marked temp := by
  have hcut : ∀ temp, (∀ x ∈ cut 47 [] temp, ¬ Marked x) ↔ ¬ Marked temp := by
    intro temp
    rw [cut]
    split_ifs with hne
    · rw [hne]
      exact iff_of_true (by simp) not_marked_nil
    · exact List.forall_mem_singleton
  induction s using units_induct (92 : UInt8) generalizing behind temp with
  | hnil => exact (hcut temp).trans (iff_of_eq (true_and _)).symm
  | hopen =>
    show (∀ x ∈ drawn [[92]] behind temp, ¬ Marked x) ↔ Stable behind [[92]] ∧ ¬ Marked temp
    rw [drawn_open, hcut]
    simp [Stable]
  | hplain c t hc ih =>
    rw [units_cons hc]
    by_cases hslash : c = 47
    · subst hslash
      rw [stable_sep]
      cases behind with
      | true =>
        rw [hb.mp rfl, drawn_sep_behind]
        exact ih (by simp)
      | false =>
        have ih : (∀ x ∈ drawn (units 92 t) true [], ¬ Marked x) ↔ _ := ih (by simp)
        rw [drawn_sep, List.forall_mem_cons, ih]
        exact ⟨fun h => ⟨h.2.1, h.1⟩, fun h => ⟨h.2, h.1, not_marked_nil⟩⟩
    · have ih : (∀ x ∈ drawn (units 92 t) false (temp ++ [c]), ¬ Marked x) ↔ _ := ih (by simp)
      rw [drawn_plain hc hslash, ih, stable_plain hslash]
      by_cases hne : temp = []
      · rw [hne, List.nil_append, marked_singleton]
        simp [hc, hslash, not_marked_nil]
      · rw [marked_append hne]
  | hescape d t ih =>
    rw [units_escape, drawn_escape, stable_escape]
    cases behind with
    | true =>
      have ih : (∀ x ∈ drawn (units 92 t) false [d], ¬ Marked x) ↔ _ := ih (by simp)
      rw [hb.mp rfl, if_pos rfl, List.nil_append, ih, marked_singleton, not_or]
      simp only [true_implies, not_marked_nil, not_false_eq_true, and_true]
      exact and_comm
    | false =>
      have hne : temp ≠ [] := by simpa using hb
      have ih : (∀ x ∈ drawn (units 92 t) false (temp ++ [92, d]), ¬ Marked x) ↔ _ := ih (by simp)
      rw [if_neg Bool.false_ne_true, ih, marked_append hne]
      simp

/-- The segment that is read first keeps its escapes. -/
theorem drawn_first (h : Whole temp) :
    (∃ x, Whole x ∧ drawn (units 92 s) false temp = cut 47 [] x ∧ Stable false (units 92 s)) ∨
    ∃ x s', Whole x ∧ drawn (units 92 s) false temp = x :: drawn (units 92 s') true [] ∧
      (Stable false (units 92 s) ↔ Stable true (units 92 s')) := by
  induction s using units_induct (92 : UInt8) generalizing temp with
  | hnil => exact .inl ⟨temp, h, rfl, trivial⟩
  | hopen => exact .inl ⟨temp, h, drawn_open false temp, by decide⟩
  | hplain c t hc ih =>
    rw [units_cons hc]
    by_cases hslash : c = 47
    · subst hslash
      exact .inr ⟨temp, t, h, drawn_sep _ temp, stable_sep _ _⟩
    · rw [drawn_plain hc hslash, stable_plain hslash]
      exact ih (h.append (whole_plain hc hslash))
  | hescape d t ih =>
    rw [units_escape, drawn_escape, stable_escape, if_neg Bool.false_ne_true]
    simp only [Bool.false_eq_true, false_implies, true_and]
    exact ih (h.append (whole_escape d))

theorem drawn_ne_nil (h : temp ≠ []) : drawn (units 92 s) false temp ≠ [] := by
  have hend : cut 47 [] temp ≠ [] := by
    rw [cut, if_neg h]
    exact List.cons_ne_nil _ _
  induction s using units_induct (92 : UInt8) generalizing temp with
  | hnil => exact hend
  | hopen =>
    show drawn [[92]] false temp ≠ []
    rwa [drawn_open]
  | hplain c t hc ih =>
    rw [units_cons hc]
    by_cases hslash : c = 47
    · rw [hslash, drawn_sep]
      exact List.cons_ne_nil _ _
    · rw [drawn_plain hc hslash]
      exact ih (by simp) (by simp [cut])
  | hescape d t ih =>
    rw [units_escape, drawn_escape]
    exact ih (by simp) (by simp [cut])

/-- Nothing is found in a path without bytes, or with an open escape alone. -/
theorem drawn_eq_nil_iff : drawn (units 92 s) false [] = [] ↔ s = [] ∨ s = [92] := by
  rcases s with _ | ⟨c, t⟩
  · exact iff_of_true rfl (.inl rfl)
  by_cases hc : c = 92
  · subst hc
    cases t with
    | nil => exact iff_of_true rfl (.inr rfl)
    | cons d t =>
      rw [units_escape, drawn_escape]
      exact iff_of_false (drawn_ne_nil (by simp)) (by simp)
  · refine iff_of_false ?_ (by simp [hc])
    rw [units_cons hc]
    by_cases hslash : c = 47
    · rw [hslash, drawn_sep]
      exact List.cons_ne_nil _ _
    · rw [drawn_plain hc hslash]
      exact drawn_ne_nil (by simp)

end

/-! ## The path of an object -/

namespace PathInfo

theorem ofPaths_aPaths (l : List Bytes) : (ofPaths l).aPaths = l := by
  match l with
  | [] => rfl
  | [] :: l => rw [ofPaths_absolute]
  | [p :: ps] => rfl
  | (p :: ps) :: q :: l =>
    rw [ofPaths, if_neg (List.cons_ne_nil p ps), appendRest_eq (List.cons_ne_nil q l)]

theorem ofPaths_inj {l m : List Bytes} : ofPaths l = ofPaths m ↔ l = m := by
  constructor
  · intro h
    rw [← ofPaths_aPaths l, h, ofPaths_aPaths]
  · exact congrArg ofPaths

theorem ofPaths_sPath {l : List Bytes} (h : l ≠ [[]]) :
    (ofPaths l).sPath = List.intercalate [47] l := by
  match l with
  | [] => rfl
  | [[]] => exact absurd rfl h
  | [] :: q :: l =>
    rw [ofPaths_absolute, List.intercalate_cons_of_ne_nil (List.cons_ne_nil q l)]
    rfl
  | [p :: ps] =>
    rw [List.intercalate_singleton]
    exact List.append_nil _
  | (p :: ps) :: q :: l =>
    rw [ofPaths, if_neg (List.cons_ne_nil p ps), appendRest_eq (List.cons_ne_nil q l),
      List.intercalate_cons_of_ne_nil (List.cons_ne_nil q l)]
    rfl

theorem readOf_of_le {s : Bytes} (h : s.length ≤ 1023) : readOf s = s := by
  have hlen : Int.bmod s.length (2 ^ 32) = s.length := int_of_lt (by omega)
  rw [readOf, hlen, taken, if_neg (by omega), if_neg (by omega), Int.toNat_natCast,
    List.take_length]

theorem length_sPath {p : Bytes} (h : p.length ≤ 1023) :
    (ofPaths (drawn (units 92 p) false [])).sPath.length ≤ 1023 := by
  by_cases hroot : drawn (units 92 p) false [] = [[]]
  · rw [hroot]
    decide
  · rw [ofPaths_sPath hroot]
    by_cases hnil : drawn (units 92 p) false [] = []
    · rw [hnil]
      exact Nat.zero_le _
    · have hlen := length_intercalate 47 hnil
      have hle : weight (drawn (units 92 p) false []) ≤ p.length + 0 + 1 :=
        weight_drawn_text (by simp)
      omega

/-- The path of an object is read as a whole. -/
theorem readOf_sPath (path : Bytes) : readOf (parse {} path).sPath = (parse {} path).sPath := by
  refine readOf_of_le ?_
  rw [parse_fresh]
  exact length_sPath (readOf_length_le path)

theorem drawn_sPath {x : Bytes} (h : Whole x) :
    drawn (units 92 (ofPaths [x]).sPath) false [] = [x] := by
  by_cases hx : x = []
  · subst hx
    rfl
  · have hroot : [x] ≠ [[]] := by simpa using hx
    have hone := drawn_whole h [] []
    rw [List.append_nil, List.nil_append, drawn_nil, cut, if_neg hx] at hone
    rw [ofPaths_sPath hroot, List.intercalate_singleton, hone]

/-- When a path that was parsed is parsed to itself. -/
theorem parse_sPath (path : Bytes) :
    parse {} (parse {} path).sPath = parse {} path ↔ Stable false (units 92 (readOf path)) := by
  rw [parse_fresh (parse {} path).sPath, readOf_sPath, parse_fresh, ofPaths_inj]
  generalize readOf path = p
  rcases drawn_first whole_nil (s := p) with
    ⟨x, hwhole, hdrawn, hstable⟩ | ⟨x, s, hwhole, hdrawn, hstable⟩
  · rw [hdrawn, cut]
    refine iff_of_true ?_ hstable
    split_ifs with hx
    · rfl
    · exact drawn_sPath hwhole
  · have hsound : ∀ y ∈ drawn (units 92 s) true [], y ≠ [] ∧ (Marked y ∨ Whole y) :=
      drawn_sound (by simp) (.inr whole_nil)
    have hmarked : (∀ y ∈ drawn (units 92 s) true [], ¬ Marked y) ↔ _ := drawn_marked_iff (by simp)
    rw [hdrawn, hstable, ← and_iff_left (a := Stable true (units 92 s)) not_marked_nil, ← hmarked]
    generalize drawn (units 92 s) true [] = l at hsound
    cases l with
    | nil => exact iff_of_true (drawn_sPath hwhole) (by simp)
    | cons y l =>
      have hroot : x :: y :: l ≠ [[]] := by simp
      rw [ofPaths_sPath hroot, List.intercalate_cons_of_ne_nil (List.cons_ne_nil y l),
        List.append_assoc, List.singleton_append, units_slash hwhole, drawn_whole hwhole, drawn_sep,
        List.nil_append, List.cons_inj_right]
      exact drawn_intercalate_iff hsound

/-- An object can be used again exactly when it held no segment, and no escape of a slash or of a
backslash behind a slash is lost. -/
theorem reusable_iff (first path : Bytes) :
    Reusable first path ↔
      (readOf first = [] ∨ readOf first = [92]) ∧ Stable false (units 92 (readOf path)) := by
  have hheld : (parse {} first).aPaths = [] ↔ readOf first = [] ∨ readOf first = [92] := by
    rw [parse_fresh, ofPaths_aPaths, drawn_eq_nil_iff]
  rw [← hheld, ← parse_sPath]
  constructor
  · intro h
    refine ⟨?_, h.fixed⟩
    have hsegs := h.sameSegments
    rw [parse_eq, ofPaths_aPaths, parse_fresh path, ofPaths_aPaths] at hsegs
    exact List.append_left_eq_self.mp hsegs
  · rintro ⟨hnil, hfixed⟩
    have hsame : (parse {} first).parse path = parse {} path := by
      rw [parse_eq, hnil, List.nil_append, ← parse_fresh]
    rw [← hsame] at hfixed
    exact {
      sameSegments := congrArg aPaths hsame
      samePath := congrArg sPath hsame
      samePrefix := congrArg sPrefixPath hsame
      sameName := congrArg sName hsame
      fixed := by rw [← hsame]; exact hfixed
      copied := hfixed }

/-- An object that held a path keeps its segments. -/
theorem not_reusable : ¬ ∀ first path, Reusable first path := by
  intro h
  have hsegs := (h (bytes "/a") (bytes "/b")).sameSegments
  revert hsegs
  decide

end PathInfo

end Dframework
