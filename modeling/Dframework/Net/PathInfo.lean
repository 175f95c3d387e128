import Mathlib
import Dframework.Lang.String
import Dframework.Library.Escape

/-!
# `URI::PathInfo`

A path is cut at its slashes into the list of its segments, and the other forms of the path are made
from that list. A path that starts with a slash has an empty segment in front.

Results:
1. `PathLoop.paths_eq`: the segments that the loop finds.
2. `pathRight_iff`: the paths whose forms are right.
-/

namespace Dframework

open CLib Escape

/-- The loop of `URI::PathInfo::parse`. `temp` is the part of the buffer that was written. -/
structure PathLoop where
  buslash : Bool := false
  reslash : Bool := false
  temp : Bytes := []
  aPaths : List Bytes := []
  deriving DecidableEq, Repr

def PathLoop.step (st : PathLoop) (c : UInt8) : PathLoop :=
  if !st.buslash && c == 92 then { st with buslash := true }
  else
    let st :=
      if (!st.buslash && c == 47) && !st.reslash then
        { st with reslash := true, aPaths := st.aPaths ++ [st.temp], temp := [] }
      else if (!st.buslash && c == 47) && st.reslash then st
      else if st.reslash then { st with reslash := false, temp := st.temp ++ [c] }
      else if st.buslash then { st with temp := st.temp ++ [92] ++ [c], buslash := false }
      else { st with temp := st.temp ++ [c] }
    { st with buslash := false }

structure PathInfo where
  sPath : Bytes := []
  sWinPath : Bytes := []
  sPrefixPath : Bytes := []
  sWinPrefixPath : Bytes := []
  sName : Bytes := []
  aPaths : List Bytes := []
  deriving DecidableEq, Repr

namespace PathInfo

/-- The loop over the segments behind the first one. -/
def appendRest : List Bytes → PathInfo → PathInfo
  | [], o => o
  | [p], o => { o with sPath := o.sPath ++ p, sWinPath := o.sWinPath ++ p, sName := cstr p }
  | p :: q :: rest, o =>
    appendRest (q :: rest) { o with
      sPath := o.sPath ++ p ++ [47]
      sWinPath := o.sWinPath ++ p ++ [92]
      sPrefixPath := o.sPrefixPath ++ p ++ if rest = [] then [] else [47]
      sWinPrefixPath := o.sWinPrefixPath ++ p ++ if rest = [] then [] else [92] }

/-- The strings that `parse` makes from the segments. -/
def ofPaths (aPaths : List Bytes) : PathInfo :=
  match aPaths with
  | [] => {}
  | p :: rest =>
    if p = [] then
      appendRest rest
        { sPath := [47], sWinPath := [92], sPrefixPath := [47], sWinPrefixPath := [92], aPaths }
    else
      let colon := p.getLast? = some 58
      appendRest rest
        { sPath := p ++ if rest = [] then [] else [47]
          sWinPath := p ++ if colon then [92, 92] else []
          sPrefixPath := if rest = [] then [] else [47]
          sWinPrefixPath := if colon then [92, 92] else []
          aPaths }

def taken (path : Bytes) (len : Int) : Bytes :=
  let len := if len = -1 then Int.bmod (cstr path).length (2 ^ 32) else len
  let len := if 1023 < len then 1023 else len
  path.take len.toNat

/-- `URI::PathInfo::parse` of `len` bytes. -/
def parseChars (o : PathInfo) (path : Bytes) (len : Int) : PathInfo :=
  let st := (taken path len).foldl PathLoop.step { aPaths := o.aPaths }
  ofPaths (st.aPaths ++ if 0 < st.temp.length then [st.temp] else [])

/-- `URI::PathInfo::parse` of a `String`, whose length becomes an `int`. -/
def parse (o : PathInfo) (path : Bytes) : PathInfo :=
  parseChars o path (Int.bmod path.length (2 ^ 32))

def copy (o : PathInfo) : PathInfo :=
  parse {} o.sPath

end PathInfo

/-! ## The segments that are found -/

/-- The segments of some units, as the loop finds them: behind a separator the escape of the first
unit is left out, and so is one at the end. -/
def drawn : List Bytes → Bool → Bytes → List Bytes
  | [], _, temp => if temp = [] then [] else [temp]
  | u :: us, reslash, temp =>
    if u = [47] then if reslash then drawn us true temp else temp :: drawn us true []
    else if u = [92] then drawn us reslash temp
    else drawn us false (temp ++ if reslash then u.drop (u.length - 1) else u)

section

variable {c : UInt8}

theorem drawn_nil (behind : Bool) (temp : Bytes) : drawn [] behind temp = cut 47 [] temp := rfl

theorem drawn_sep_behind (us : List Bytes) (temp : Bytes) :
    drawn ([47] :: us) true temp = drawn us true temp := by
  rw [drawn, if_pos rfl, if_pos rfl]

theorem drawn_sep (us : List Bytes) (temp : Bytes) :
    drawn ([47] :: us) false temp = temp :: drawn us true [] := by
  rw [drawn, if_pos rfl, if_neg Bool.false_ne_true]

theorem drawn_plain (hc : c ≠ 92) (hc' : c ≠ 47) (us : List Bytes) (behind : Bool) (temp : Bytes) :
    drawn ([c] :: us) behind temp = drawn us false (temp ++ [c]) := by
  rw [drawn, if_neg (by simpa using hc'), if_neg (by simpa using hc)]
  simp

theorem drawn_escape (d : UInt8) (us : List Bytes) (behind : Bool) (temp : Bytes) :
    drawn ([92, d] :: us) behind temp =
      drawn us false (temp ++ if behind then [d] else [92, d]) := by
  rw [drawn, if_neg (by simp), if_neg (by simp)]
  rfl

theorem drawn_open (behind : Bool) (temp : Bytes) : drawn [[92]] behind temp = cut 47 [] temp := by
  rw [drawn, if_neg (by decide), if_pos rfl, drawn_nil]

end

namespace PathLoop

def paths (st : PathLoop) : List Bytes :=
  st.aPaths ++ if 0 < st.temp.length then [st.temp] else []

theorem paths_end (st : PathLoop) : st.paths = st.aPaths ++ cut 47 [] st.temp := by
  rw [paths, cut]
  by_cases htemp : st.temp = [] <;> simp [htemp, List.length_pos_iff]

theorem step_slash (st : PathLoop) (h : st.buslash = false) :
    st.step 47 = if st.reslash then st
      else { st with reslash := true, aPaths := st.aPaths ++ [st.temp], temp := [] } := by
  rcases st with ⟨buslash, reslash, temp, aPaths⟩
  obtain rfl : buslash = false := h
  cases reslash <;> rfl

theorem step_backslash (st : PathLoop) (h : st.buslash = false) :
    st.step 92 = { st with buslash := true } := by
  rw [step, h]
  rfl

theorem step_plain (st : PathLoop) {c : UInt8} (h : st.buslash = false) (hc : c ≠ 92)
    (hc' : c ≠ 47) :
    st.step c = { st with reslash := false, temp := st.temp ++ [c] } := by
  rcases st with ⟨buslash, reslash, temp, aPaths⟩
  obtain rfl : buslash = false := h
  cases reslash <;> simp [step, hc, hc']

theorem step_escaped (st : PathLoop) (d : UInt8) (h : st.buslash = false) :
    (st.step 92).step d = { st with
      reslash := false
      temp := st.temp ++ if st.reslash then [d] else [92, d] } := by
  rw [step_backslash st h]
  rcases st with ⟨buslash, reslash, temp, aPaths⟩
  obtain rfl : buslash = false := h
  cases reslash <;> simp [step]

/-- The segments that the loop finds. -/
theorem paths_eq (s : Bytes) (st : PathLoop) (h : st.buslash = false) :
    (s.foldl step st).paths = st.aPaths ++ drawn (units 92 s) st.reslash st.temp := by
  induction s using units_induct (92 : UInt8) generalizing st with
  | hnil => exact paths_end st
  | hopen =>
    rw [List.foldl_cons, List.foldl_nil, step_backslash st h, paths_end]
    exact congrArg _ (drawn_open st.reslash st.temp).symm
  | hplain c t hc ih =>
    rw [List.foldl_cons, units_cons hc]
    by_cases hslash : c = 47
    · subst hslash
      rw [step_slash st h]
      by_cases hre : st.reslash
      · rw [if_pos hre, ih st h, hre, drawn_sep_behind]
      · have hre' : st.reslash = false := by simpa using hre
        rw [if_neg hre, hre', drawn_sep]
        refine (ih { st with reslash := true, aPaths := st.aPaths ++ [st.temp], temp := [] } h).trans ?_
        exact List.append_assoc _ _ _
    · rw [step_plain st h hc hslash, drawn_plain hc hslash]
      exact ih { st with reslash := false, temp := st.temp ++ [c] } h
  | hescape d t ih =>
    rw [List.foldl_cons, List.foldl_cons, step_escaped st d h, units_escape, drawn_escape]
    exact ih { st with
      reslash := false
      temp := st.temp ++ if st.reslash then [d] else [92, d] } h

theorem paths_eq_drawn (s : Bytes) (aPaths : List Bytes) :
    (s.foldl step { aPaths }).paths = aPaths ++ drawn (units 92 s) false [] :=
  paths_eq s _ rfl

/-- The loop writes no more bytes than it reads. -/
theorem temp_length_le (s : Bytes) (st : PathLoop) :
    (s.foldl step st).temp.length + (if (s.foldl step st).buslash then 1 else 0) ≤
      st.temp.length + (if st.buslash then 1 else 0) + s.length := by
  induction s generalizing st with
  | nil => exact le_rfl
  | cons c s ih =>
    refine (ih (st.step c)).trans ?_
    have hstep : (st.step c).temp.length + (if (st.step c).buslash then 1 else 0) ≤
        st.temp.length + (if st.buslash then 1 else 0) + 1 := by
      rcases st with ⟨buslash, reslash, temp, aPaths⟩
      unfold step
      cases buslash <;> cases reslash <;> simp only [] <;> split_ifs <;> simp_all
    rw [List.length_cons]
    omega

end PathLoop

/-- No escape is the first unit behind a separator, and none is left open. -/
def Tame : Bool → List Bytes → Prop
  | _, [] => True
  | behind, u :: us =>
    if u = [47] then Tame true us else (behind → u.head? ≠ some 92) ∧ u ≠ [92] ∧ Tame false us

instance decidableTame : (behind : Bool) → (us : List Bytes) → Decidable (Tame behind us)
  | _, [] => inferInstanceAs (Decidable True)
  | behind, u :: us =>
    have : Decidable (Tame true us) := decidableTame true us
    have : Decidable (Tame false us) := decidableTame false us
    inferInstanceAs (Decidable (if u = [47] then Tame true us
      else (behind → u.head? ≠ some 92) ∧ u ≠ [92] ∧ Tame false us))

section

variable {behind : Bool} {c : UInt8} {s temp cur : Bytes} {us : List Bytes}

/-- Of a tame text every segment is found. -/
theorem drawn_eq_cut (h : Tame behind (units 92 s)) (htemp : behind = true ↔ temp = []) :
    drawn (units 92 s) behind temp = cut 47 (units 92 s) temp := by
  induction s using units_induct (92 : UInt8) generalizing behind temp with
  | hnil => exact drawn_nil behind temp
  | hopen =>
    replace h : Tame behind [[92]] := h
    rw [Tame, if_neg (by decide)] at h
    exact absurd rfl h.2.1
  | hplain c t hc ih =>
    rw [units_cons hc] at h ⊢
    by_cases hslash : c = 47
    · subst hslash
      rw [Tame, if_pos rfl] at h
      cases behind with
      | true =>
        rw [htemp.mp rfl, drawn_sep_behind, cut_sep_nil]
        exact ih h (by simp)
      | false =>
        rw [drawn_sep, cut_sep (by simpa using htemp), ih h (by simp)]
    · rw [Tame, if_neg (by simpa using hslash)] at h
      rw [drawn_plain hc hslash, cut_unit (by simpa using hslash)]
      exact ih h.2.2 (by simp)
  | hescape d t ih =>
    rw [units_escape] at h ⊢
    rw [Tame, if_neg (by simp)] at h
    cases behind with
    | true => exact absurd rfl (h.1 rfl)
    | false =>
      rw [drawn_escape, cut_unit (by simp)]
      exact ih h.2.2 (by simp)

theorem tame_sep (behind : Bool) (us : List Bytes) : Tame behind ([47] :: us) ↔ Tame true us := by
  rw [Tame, if_pos rfl]

theorem tame_plain (hc : c ≠ 92) (hc' : c ≠ 47) (us : List Bytes) :
    Tame behind ([c] :: us) ↔ Tame false us := by
  rw [Tame, if_neg (by simpa using hc')]
  simp [hc]

theorem tame_escape (d : UInt8) (us : List Bytes) :
    Tame behind ([92, d] :: us) ↔ behind = false ∧ Tame false us := by
  rw [Tame, if_neg (by simp)]
  simp

/-- What is found is no longer than the segments. -/
theorem weight_drawn_le (hcur : temp = [] ↔ cur = []) (hlen : temp.length ≤ cur.length)
    (htemp : behind = true ↔ temp = []) :
    weight (drawn (units 92 s) behind temp) ≤ weight (cut 47 (units 92 s) cur) := by
  induction s using units_induct (92 : UInt8) generalizing behind temp cur with
  | hnil =>
    rw [units_nil, drawn_nil, weight_cut_nil, weight_cut_nil]
    simp only [hcur]
    split_ifs <;> omega
  | hopen =>
    show weight (drawn [[92]] behind temp) ≤ weight (cut 47 [[92]] cur)
    rw [drawn_open, cut_unit (by decide), weight_cut_nil, weight_cut_nil,
      if_neg (List.append_ne_nil_of_right_ne_nil cur (List.cons_ne_nil 92 [])),
      List.length_append, List.length_singleton]
    split_ifs <;> omega
  | hplain c t hc ih =>
    rw [units_cons hc]
    by_cases hslash : c = 47
    · subst hslash
      cases behind with
      | true =>
        obtain rfl := htemp.mp rfl
        obtain rfl := hcur.mp rfl
        rw [drawn_sep_behind, cut_sep_nil]
        exact ih Iff.rfl le_rfl (by simp)
      | false =>
        have hne : temp ≠ [] := by simpa using htemp
        rw [drawn_sep, cut_sep (fun h => hne (hcur.mpr h)), weight_cons, weight_cons]
        exact Nat.add_le_add (Nat.succ_le_succ hlen) (ih Iff.rfl le_rfl (by simp))
    · rw [drawn_plain hc hslash, cut_unit (by simpa using hslash)]
      exact ih (by simp) (by simpa using hlen) (by simp)
  | hescape d t ih =>
    rw [units_escape, drawn_escape, cut_unit (by simp)]
    refine ih (by cases behind <;> simp) ?_ (by cases behind <;> simp)
    rw [List.length_append, List.length_append]
    refine Nat.add_le_add hlen ?_
    split_ifs <;> simp

/-- It is shorter when the text is not tame. -/
theorem weight_drawn_lt (hcur : temp = [] ↔ cur = []) (hlen : temp.length ≤ cur.length)
    (htemp : behind = true ↔ temp = [])
    (h : temp.length < cur.length ∨ ¬ Tame behind (units 92 s)) :
    weight (drawn (units 92 s) behind temp) < weight (cut 47 (units 92 s) cur) := by
  induction s using units_induct (92 : UInt8) generalizing behind temp cur with
  | hnil =>
    have hlt : temp.length < cur.length := h.resolve_right fun hnot => hnot trivial
    have hne : cur ≠ [] := List.length_pos_iff.mp (Nat.zero_lt_of_lt hlt)
    rw [units_nil, drawn_nil, weight_cut_nil, weight_cut_nil, if_neg hne]
    split_ifs <;> omega
  | hopen =>
    show weight (drawn [[92]] behind temp) < weight (cut 47 [[92]] cur)
    rw [drawn_open, cut_unit (by decide), weight_cut_nil, weight_cut_nil,
      if_neg (List.append_ne_nil_of_right_ne_nil cur (List.cons_ne_nil 92 [])),
      List.length_append, List.length_singleton]
    split_ifs <;> omega
  | hplain c t hc ih =>
    rw [units_cons hc] at h ⊢
    by_cases hslash : c = 47
    · subst hslash
      rw [tame_sep] at h
      cases behind with
      | true =>
        obtain rfl := htemp.mp rfl
        obtain rfl := hcur.mp rfl
        rw [drawn_sep_behind, cut_sep_nil]
        exact ih Iff.rfl le_rfl (by simp) h
      | false =>
        have hne : temp ≠ [] := by simpa using htemp
        rw [drawn_sep, cut_sep (fun h => hne (hcur.mpr h)), weight_cons, weight_cons]
        rcases h with hlt | hnot
        · exact Nat.add_lt_add_of_lt_of_le (Nat.succ_lt_succ hlt)
            (weight_drawn_le Iff.rfl le_rfl (by simp))
        · exact Nat.add_lt_add_of_le_of_lt (Nat.succ_le_succ hlen)
            (ih Iff.rfl le_rfl (by simp) (.inr hnot))
    · rw [tame_plain hc hslash] at h
      rw [drawn_plain hc hslash, cut_unit (by simpa using hslash)]
      exact ih (by simp) (by simpa using hlen) (by simp) (by simpa using h)
  | hescape d t ih =>
    rw [units_escape] at h ⊢
    rw [tame_escape] at h
    rw [drawn_escape, cut_unit (by simp)]
    cases behind with
    | true =>
      refine ih (by simp) ?_ (by simp) (.inl ?_)
      · simpa using by omega
      · simpa using by omega
    | false =>
      refine ih (by simp) ?_ (by simp) ?_
      · simpa using hlen
      · simpa using h

theorem Tame.not_open (h : Tame behind us) : [92] ∉ us := by
  induction us generalizing behind with
  | nil => exact List.not_mem_nil
  | cons u us ih =>
    rw [Tame] at h
    rw [List.mem_cons, not_or]
    split_ifs at h with hu
    · exact ⟨by rw [hu]; decide, ih h⟩
    · exact ⟨h.2.1.symm, ih h.2.2⟩

end

/-! ## The forms of a path -/

namespace PathInfo

/-- The segments with a separator between them, and one in front when the path is absolute. -/
def joined (sep : UInt8) (absolute : Bool) (l : List Bytes) : Bytes :=
  (if absolute then [sep] else []) ++ List.intercalate [sep] l

/-- The forms of a path: the segments between its slashes joined again, the last of them, and those
in front of the last. -/
structure Forms (o : PathInfo) (absolute : Bool) (segs : List Bytes) : Prop where
  path : o.sPath = joined 47 absolute segs
  name : o.sName = segs.getLastD []
  prefixPath : o.sPrefixPath = joined 47 absolute segs.dropLast
  winPath : o.sWinPath = joined 92 absolute segs

theorem appendRest_eq {rest : List Bytes} (h : rest ≠ []) (o : PathInfo) :
    appendRest rest o = { o with
      sPath := o.sPath ++ List.intercalate [47] rest
      sWinPath := o.sWinPath ++ List.intercalate [92] rest
      sPrefixPath := o.sPrefixPath ++ List.intercalate [47] rest.dropLast
      sWinPrefixPath := o.sWinPrefixPath ++ List.intercalate [92] rest.dropLast
      sName := cstr (rest.getLastD []) } := by
  induction rest generalizing o with
  | nil => exact absurd rfl h
  | cons p rest ih =>
    cases rest with
    | nil => simp [appendRest]
    | cons q rest =>
      rw [appendRest, ih (List.cons_ne_nil q rest)]
      cases rest with
      | nil => simp [List.intercalate_cons_of_ne_nil]
      | cons x rest => simp [List.intercalate_cons_of_ne_nil]

/-- The forms that are made from the segments of an absolute path. -/
theorem ofPaths_absolute (l : List Bytes) :
    ofPaths ([] :: l) =
      { sPath := joined 47 true l
        sWinPath := joined 92 true l
        sPrefixPath := joined 47 true l.dropLast
        sWinPrefixPath := joined 92 true l.dropLast
        sName := cstr (l.getLastD [])
        aPaths := [] :: l } := by
  rw [ofPaths, if_pos rfl]
  cases l with
  | nil => rfl
  | cons p l => rw [appendRest_eq (List.cons_ne_nil p l)]; rfl

/-- The bytes of a `String` that are read: 1023 at most, and none when its length is a negative
`int`. -/
def readOf (path : Bytes) : Bytes :=
  taken path (Int.bmod path.length (2 ^ 32))

theorem readOf_isPrefix (path : Bytes) : readOf path <+: path :=
  List.take_prefix _ _

theorem parse_eq (o : PathInfo) (path : Bytes) :
    o.parse path = ofPaths (o.aPaths ++ drawn (units 92 (readOf path)) false []) := by
  rw [← PathLoop.paths_eq_drawn]
  rfl

theorem parse_fresh (path : Bytes) :
    parse {} path = ofPaths (drawn (units 92 (readOf path)) false []) := by
  rw [parse_eq]
  exact congrArg ofPaths (List.nil_append _)

theorem readOf_length_le (path : Bytes) : (readOf path).length ≤ 1023 := by
  rw [readOf, taken, List.length_take]
  refine (min_le_left _ _).trans ?_
  split_ifs <;> omega

/-- What is right of a path that was parsed: its forms, and that the loop stays in its buffer of 1024
bytes. -/
structure PathRight (path : Bytes) : Prop where
  forms : Forms (parse {} path) (path.head? = some 47) (segments 92 47 path)
  buffer : ∀ k, (((readOf path).take k).foldl PathLoop.step {}).temp.length ≤ 1024

/-- The empty path, and an absolute path of which no more than slashes is left unread, in which no
backslash stands behind a slash or is the last byte without being escaped, and whose last segment is
a C string. -/
def Shaped (path : Bytes) : Prop :=
  path = [] ∨
    path.head? = some 47 ∧ readOf path ≠ [] ∧ (∀ c ∈ path.drop (readOf path).length, c = 47) ∧
      Tame false (units 92 (readOf path)) ∧ 0 ∉ (segments 92 47 path).getLastD []

theorem buffer_le (path : Bytes) (k : Nat) :
    (((readOf path).take k).foldl PathLoop.step {}).temp.length ≤ 1024 := by
  have hread := readOf_length_le path
  have htake := (List.take_prefix k (readOf path)).length_le
  have hstep : _ ≤ 0 + 0 + ((readOf path).take k).length :=
    PathLoop.temp_length_le ((readOf path).take k) {}
  have hle := (Nat.le_add_right _ _).trans hstep
  omega

theorem segments_slash (path : Bytes) :
    segments 92 47 (47 :: path) = cut 47 (units 92 path) [] := by
  rw [segments_eq_cut, units_cons (by decide), cut_sep_nil]

/-- The first segment of a relative path. -/
theorem segments_relative {c : UInt8} (h : c ≠ 47) (t : Bytes) :
    ∃ x xs, segments 92 47 (c :: t) = (c :: x) :: xs := by
  have hgen : ∀ u, c :: u ≠ ([47] : Bytes) := fun u hu => h (List.cons.inj hu).1
  have hfirst : ∃ u us, units 92 (c :: t) = (c :: u) :: us := by
    by_cases hc : c = 92
    · subst hc
      cases t with
      | nil => exact ⟨[], [], rfl⟩
      | cons d t => exact ⟨[d], _, units_escape d t⟩
    · exact ⟨[], _, units_cons hc t⟩
  obtain ⟨u, us, hunits⟩ := hfirst
  obtain ⟨y, xs, hcut, x, hx⟩ : ∃ y xs, cut 47 us (c :: u) = y :: xs ∧ c :: u <+: y :=
    cut_of_ne_nil (List.cons_ne_nil c u) us
  refine ⟨u ++ x, xs, ?_⟩
  rw [segments_eq_cut, hunits, cut_unit (hgen u), List.nil_append, hcut, ← hx]
  rfl

theorem joined_head {sep : UInt8} {x : Bytes} (hx : x ≠ []) (xs : List Bytes) :
    (joined sep false (x :: xs)).head? = x.head? := by
  obtain ⟨c, x, rfl⟩ := List.exists_cons_of_ne_nil hx
  cases xs with
  | nil => simp [joined]
  | cons y ys => simp [joined, List.intercalate_cons_of_ne_nil]

/-- The forms of a relative path are never right. -/
theorem not_forms_relative {c : UInt8} (h : c ≠ 47) (t : Bytes) (l : List Bytes) :
    ¬ Forms (ofPaths l) false (segments 92 47 (c :: t)) := by
  obtain ⟨x, xs, hsegs⟩ := segments_relative h t
  rintro ⟨hpath, hname, hlead, -⟩
  rw [hsegs] at hpath hname hlead
  have hhead : (ofPaths l).sPath.head? = some c := by
    rw [hpath, joined_head (List.cons_ne_nil c x)]
    rfl
  match l with
  | [] => cases hhead
  | [] :: l =>
    rw [ofPaths_absolute] at hhead
    exact h (Option.some.inj hhead).symm
  | [p :: ps] =>
    -- the name of a path with one segment is left empty
    have hempty : (ofPaths [p :: ps]).sName = [] := rfl
    have hlast : ((c :: x) :: xs).getLastD [] ∈ segments 92 47 (c :: t) := by
      rw [hsegs, List.getLastD_cons, ← List.getLast_eq_getLastD (List.cons_ne_nil _ _)]
      exact List.getLast_mem _
    rw [segments_eq_cut] at hlast
    exact mem_cut_ne_nil hlast (hname.symm.trans hempty)
  | (p :: ps) :: q :: l =>
    -- its prefix starts with a slash
    have hslash : (ofPaths ((p :: ps) :: q :: l)).sPrefixPath.head? = some 47 := by
      rw [ofPaths, if_neg (List.cons_ne_nil p ps), appendRest_eq (List.cons_ne_nil q l)]
      rfl
    rw [hlead] at hslash
    cases xs with
    | nil => cases hslash
    | cons y ys =>
      rw [List.dropLast_cons_of_ne_nil (List.cons_ne_nil y ys),
        joined_head (List.cons_ne_nil c x)] at hslash
      exact h (Option.some.inj hslash)

theorem length_joined (sep : UInt8) (l : List Bytes) :
    (joined sep true l).length = max 1 (weight l) := by
  rw [joined, if_pos rfl, List.length_append, List.length_singleton]
  rcases eq_or_ne l [] with rfl | hne
  · rfl
  · have hlen := length_intercalate sep hne
    omega

theorem weight_cut_ne_one (us : List Bytes) (cur : Bytes) : weight (cut 47 us cur) ≠ 1 := by
  rcases hcut : cut 47 us cur with _ | ⟨x, xs⟩
  · exact Nat.zero_ne_one
  · have hx : x ≠ [] := mem_cut_ne_nil (by rw [hcut]; exact List.mem_cons_self)
    have hlen := List.length_pos_iff.mpr hx
    rw [weight_cons]
    omega

/-- An absolute path of which `p` is read in front of `rest`. -/
theorem forms_absolute_iff (p rest : Bytes) :
    Forms (ofPaths (drawn (units 92 (47 :: p)) false [])) true (segments 92 47 (47 :: (p ++ rest))) ↔
      (∀ c ∈ rest, c = 47) ∧ Tame true (units 92 p) ∧
        0 ∉ (segments 92 47 (47 :: (p ++ rest))).getLastD [] := by
  rw [units_cons (by decide), drawn_sep, ofPaths_absolute, segments_slash]
  constructor
  · rintro ⟨hpath, hname, -, -⟩
    have hlen := congrArg List.length hpath
    rw [length_joined, length_joined] at hlen
    have hone := weight_cut_ne_one (units 92 (p ++ rest)) []
    have hdrawn : weight (drawn (units 92 p) true []) ≤ weight (cut 47 (units 92 p) []) :=
      weight_drawn_le Iff.rfl le_rfl (by simp)
    have hrest := weight_cut_append 92 47 (by decide) p rest []
    have htame : Tame true (units 92 p) := by
      by_contra hnot
      have hlt : weight (drawn (units 92 p) true []) < weight (cut 47 (units 92 p) []) :=
        weight_drawn_lt Iff.rfl le_rfl (by simp) (.inr hnot)
      omega
    refine ⟨?_, htame, ?_⟩
    · by_contra hnot
      simp only [not_forall, exists_prop] at hnot
      have hlt := weight_cut_append_lt htame.not_open hnot []
      omega
    · rw [← hname]
      exact not_mem_cstr _
  · rintro ⟨hrest, htame, hlast⟩
    have hsegs : drawn (units 92 p) true [] = cut 47 (units 92 (p ++ rest)) [] := by
      rw [drawn_eq_cut htame (by simp), cut_append_sep (by decide) htame.not_open hrest]
    rw [hsegs]
    exact ⟨rfl, cstr_of_not_mem hlast, rfl, rfl⟩

/-- The paths that are parsed right. -/
theorem pathRight_iff (path : Bytes) : PathRight path ↔ Shaped path := by
  have hforms : PathRight path ↔
      Forms (parse {} path) (path.head? = some 47) (segments 92 47 path) :=
    ⟨PathRight.forms, fun h => ⟨h, buffer_le path⟩⟩
  have hparse := parse_fresh path
  rw [hforms, hparse, Shaped]
  rcases path with _ | ⟨c, t⟩
  · exact iff_of_true ⟨rfl, rfl, rfl, rfl⟩ (.inl rfl)
  by_cases hc : c = 47
  swap
  · have hnot : ¬ (c :: t).head? = some 47 := fun h => hc (Option.some.inj h)
    rw [decide_eq_false hnot]
    refine iff_of_false (not_forms_relative hc t _) ?_
    rintro (h | h)
    · cases h
    · exact hnot h.1
  subst hc
  have hhead : decide ((47 :: t).head? = some (47 : UInt8)) = true := rfl
  rw [hhead]
  obtain ⟨rest, hrest⟩ := readOf_isPrefix (47 :: t)
  rcases hread : readOf (47 :: t) with _ | ⟨d, p⟩
  · refine iff_of_false ?_ (by simp)
    intro hforms
    have hlen := congrArg List.length hforms.path
    rw [length_joined] at hlen
    have hnone : (ofPaths (drawn (units 92 []) false [])).sPath.length = 0 := rfl
    omega
  · rw [hread] at hrest
    obtain ⟨rfl, rfl⟩ := List.cons.inj hrest
    have hdrop : (47 :: (p ++ rest)).drop (47 :: p).length = rest := List.drop_left
    rw [List.append_eq, forms_absolute_iff, hdrop, units_cons (by decide), tame_sep]
    simp only [reduceCtorEq, List.head?_cons, ne_eq, not_false_eq_true, true_and, false_or]

/-- The name of a path of one segment is left empty. -/
theorem not_pathRight : ¬ ∀ path, (∀ s ∈ segments 92 47 path, s.getLast? ≠ some 58) →
    PathRight path := by
  intro h
  have hforms := (h (bytes "a") (by decide)).forms
  have hempty : (parse {} (bytes "a")).sName = [] := by decide
  have hname := hforms.name
  rw [hempty] at hname
  revert hname
  decide

end PathInfo

end Dframework
