import Mathlib
import Dframework.Util.Regexp

/-!
# The groups of a match

`Regexp` leaves the matching to a library and answers from the offset vector that the library
fills. `getMatch` compares the number of a group, and not its offset, with the length of the value,
and it does not look whether the group took part.

Results:
1. `groupRight_iff`: the groups that are answered right.
2. `PatternLib.fills`: the patterns of the source are matched by such a library.
-/

namespace Dframework

open CLib

/-- The library: `pcre2_compile`, and `pcre2_match` with a vector of ten pairs. It answers a number
and the vector. -/
structure Pcre2 (Code : Type*) where
  compile : Bytes → Option Code
  exec : Code → Bytes → Int × (Nat → UInt64)

/-- For each group that took part in a match where its text starts and ends. -/
abbrev Captures := Nat → Option (Nat × Nat)

def pcre2Unset : UInt64 := -1

/-- A pair of the vector. -/
def offsetPair (g : Option (Nat × Nat)) : UInt64 × UInt64 :=
  match g with
  | none => (pcre2Unset, pcre2Unset)
  | some (a, b) => (UInt64.ofNat a, UInt64.ofNat b)

/-- What the library promises of a call in which the groups `g` took part. -/
structure FilledVector (g : Captures) (s : Bytes) (rc : Int) (offsets : Nat → UInt64) : Prop where
  /-- The number is negative when nothing matches. -/
  none_match : g 0 = none → rc < 0 ∧ ∀ i, g i = none
  /-- It is the largest group that took part and one more, and 0 when the vector is too small. -/
  count : g 0 ≠ none → ∃ top, g top ≠ none ∧ (∀ i, top < i → g i = none) ∧
    rc = if top < 10 then (top : Int) + 1 else 0
  /-- The vector is filled as far as the groups that took part; what stands behind them is open. -/
  pairs : ∀ i < 10, (∃ j, i ≤ j ∧ g j ≠ none) →
    (offsets (2 * i), offsets (2 * i + 1)) = offsetPair (g i)
  bounds : ∀ i a b, g i = some (a, b) → a ≤ b ∧ b ≤ s.length

/-- A library in whose matches the groups `captures` take part. -/
def Pcre2.Fills {Code : Type*} (lib : Pcre2 Code) (captures : Code → Bytes → Captures) : Prop :=
  ∀ code s, FilledVector (captures code s) s (lib.exec code s).1 (lib.exec code s).2

structure RegexpObject (Code : Type*) where
  sExp : Bytes
  sValue : Bytes := []
  pPattern : Option Code
  iMatchCount : Int := 0
  iOffset : Option (Nat → UInt64) := none

namespace RegexpObject

variable {Code : Type*} {lib : Pcre2 Code} {captures : Code → Bytes → Captures}

/-- The constructor of `Regexp`, with `___compile`. -/
def new (lib : Pcre2 Code) (sExp : Bytes) : RegexpObject Code :=
  { sExp, pPattern := if sExp = [] then none else lib.compile sExp }

/-- `Regexp::regexp`. The library reads the value as a C string. -/
def regexp (lib : Pcre2 Code) (r : RegexpObject Code) (value : Bytes) :
    Retval × RegexpObject Code :=
  let r := { r with sValue := value, iMatchCount := 0, iOffset := none }
  match r.pPattern with
  | none => (retval .eRegexpNotPattern, r)
  | some code =>
    if r.sExp = [] then (retvalMsg .eRegexpNotPattern "RegExp string is empty.", r)
    else if r.sValue = [] then (retvalMsg .eInval "Value string is empty.", r)
    else
      let (iMatchCount, iOffset) := lib.exec code (cstr r.sValue)
      let r := { r with iMatchCount }
      if iMatchCount ≤ 0 then (retvalMsg .eRegexpNotMatch "No match", r)
      else (none, { r with iOffset := some iOffset })

/-- `Regexp::getMatch`, as the offset from the start of the value. -/
def getMatch (r : RegexpObject Code) (index : Int) : Option UInt64 :=
  if index < 0 then none
  else
    match r.iOffset with
    | none => none
    | some iOffset =>
      if r.sValue.length ≠ 0 ∧ index < r.iMatchCount then
        let offidx := 2 * index.toNat
        if offidx < r.sValue.length then some (iOffset offidx) else none
      else none

def getMatchLength (r : RegexpObject Code) (index : Int) : UInt64 :=
  if index < 0 then -1
  else
    match r.iOffset with
    | none => -1
    | some iOffset =>
      if index < r.iMatchCount then iOffset (2 * index.toNat + 1) - iOffset (2 * index.toNat)
      else -1

/-- The groups that took part when `value` was matched. Without an expression or a value nothing is
matched. -/
def took (captures : Code → Bytes → Captures) (r : RegexpObject Code) (value : Bytes) : Captures :=
  match r.pPattern with
  | none => fun _ => none
  | some code => if value = [] then fun _ => none else captures code (cstr value)

/-- `getMatch` answers the start of the text of group `i` when the group took part, and `NULL`
otherwise. -/
def GroupRight (r : RegexpObject Code) (g : Option (Nat × Nat)) (i : Nat) : Prop :=
  match g with
  | none => r.getMatch i = none
  | some (a, b) => r.getMatch i = some (UInt64.ofNat a) ∧ r.getMatchLength i = UInt64.ofNat (b - a)

/-- Group `i` is answered right: when it took part, its number is small beside the length of the
value and no group has a number behind the vector. When it did not, the value is short, or no larger
group took part, or one has a number behind the vector. -/
def Answered (g : Captures) (value : Bytes) (i : Nat) : Prop :=
  if (g i).isSome then 2 * i < value.length ∧ ∀ j, 10 ≤ j → g j = none
  else value.length ≤ 2 * i ∨ (∃ j, 10 ≤ j ∧ (g j).isSome) ∨ ∀ j, i < j → g j = none

/-! ## What a call leaves behind -/

/-- A vector that was filled for the groups `g`, the last of which is `top`. -/
structure Held (r : RegexpObject Code) (g : Captures) (value : Bytes) (top : Nat)
    (offsets : Nat → UInt64) : Prop where
  value_eq : r.sValue = value
  value_ne : value ≠ []
  offset : r.iOffset = some offsets
  count : r.iMatchCount = top + 1
  top_lt : top < 10
  top_took : g top ≠ none
  none_behind : ∀ i, top < i → g i = none
  pairs : ∀ i ≤ top, (offsets (2 * i), offsets (2 * i + 1)) = offsetPair (g i)
  bounds : ∀ i a b, g i = some (a, b) → a ≤ b ∧ b ≤ value.length

/-- A call keeps the vector of a match that fits into it. -/
theorem regexp_cases (h : lib.Fills captures) (sExp value : Bytes) :
    (((new lib sExp).regexp lib value).2.iOffset = none ∧
      ((∀ i, took captures (new lib sExp) value i = none) ∨
        ∃ j, 10 ≤ j ∧ (took captures (new lib sExp) value j).isSome)) ∨
    ∃ top offsets, Held ((new lib sExp).regexp lib value).2
      (took captures (new lib sExp) value) value top offsets := by
  rcases hcode : (new lib sExp).pPattern with _ | code
  · refine .inl ⟨?_, .inl fun i => ?_⟩
    · rw [regexp, hcode]
    · rw [took, hcode]
  have hexp : sExp ≠ [] := by
    rintro rfl
    cases hcode
  by_cases hvalue : value = []
  · refine .inl ⟨?_, .inl fun i => ?_⟩
    · simp only [regexp, hcode, hvalue, if_true]
      split_ifs <;> rfl
    · simp only [took, hcode, hvalue, if_true]
  have htook : took captures (new lib sExp) value = captures code (cstr value) := by
    simp only [took, hcode, if_neg hvalue]
  have hrun : (new lib sExp).regexp lib value =
      if (lib.exec code (cstr value)).1 ≤ 0 then
        (retvalMsg .eRegexpNotMatch "No match", { (new lib sExp) with
          sValue := value, iMatchCount := (lib.exec code (cstr value)).1, iOffset := none })
      else (none, { (new lib sExp) with
          sValue := value, iMatchCount := (lib.exec code (cstr value)).1,
          iOffset := some (lib.exec code (cstr value)).2 }) := by
    have hexp' : (new lib sExp).sExp ≠ [] := hexp
    simp only [regexp, hcode, if_neg hexp', if_neg hvalue]
  obtain ⟨hnone, hcount, hpairs, hbounds⟩ := h code (cstr value)
  rw [hrun, htook]
  by_cases hmatch : captures code (cstr value) 0 = none
  · obtain ⟨hrc, hall⟩ := hnone hmatch
    rw [if_pos hrc.le]
    exact .inl ⟨rfl, .inl hall⟩
  obtain ⟨top, htop, hbehind, hrc⟩ := hcount hmatch
  by_cases hlt : top < 10
  · rw [if_pos hlt] at hrc
    rw [if_neg (by omega)]
    have hfilled := fun i (hi : i ≤ top) => hpairs i (hi.trans_lt hlt) ⟨top, hi, htop⟩
    refine .inr ⟨top, _, rfl, hvalue, rfl, hrc, hlt, htop, hbehind, hfilled, ?_⟩
    intro i a b hi
    obtain ⟨hab, hb⟩ := hbounds i a b hi
    exact ⟨hab, hb.trans (cstr_isPrefix value).length_le⟩
  · rw [if_neg hlt] at hrc
    rw [if_pos hrc.le]
    exact .inl ⟨rfl, .inr ⟨top, not_lt.mp hlt, Option.isSome_iff_ne_none.mpr htop⟩⟩

theorem ofNat_sub {a b : Nat} (h : a ≤ b) :
    UInt64.ofNat b - UInt64.ofNat a = UInt64.ofNat (b - a) := by
  obtain ⟨k, rfl⟩ := Nat.exists_eq_add_of_le h
  rw [Nat.add_sub_cancel_left, UInt64.ofNat_add, add_comm, add_sub_cancel_right]

section

variable {r : RegexpObject Code} {g : Captures} {value : Bytes} {top i : Nat}
  {offsets : Nat → UInt64}

theorem getMatch_of_none (h : r.iOffset = none) (index : Int) : r.getMatch index = none := by
  simp only [getMatch, h, ite_self]

/-- `getMatch` of an object that holds a match. -/
theorem Held.getMatch (h : Held r g value top offsets) :
    r.getMatch i = if i ≤ top ∧ 2 * i < value.length then some (offsets (2 * i)) else none := by
  have hne : value.length ≠ 0 := by simpa using h.value_ne
  have hneg : ¬ (i : Int) < 0 := by omega
  have hcount : (i : Int) < top + 1 ↔ i ≤ top := by omega
  simp only [RegexpObject.getMatch, h.offset, h.value_eq, h.count, hneg, if_false, hne, hcount,
    ne_eq, not_false_eq_true, true_and, Int.toNat_natCast]
  split_ifs <;> tauto

theorem Held.getMatchLength (h : Held r g value top offsets) (hi : i ≤ top) :
    r.getMatchLength i = offsets (2 * i + 1) - offsets (2 * i) := by
  have hneg : ¬ (i : Int) < 0 := by omega
  have hcount : (i : Int) < top + 1 := by omega
  simp only [RegexpObject.getMatchLength, h.offset, h.count, hneg, if_false, hcount, if_true,
    Int.toNat_natCast]

theorem Held.le_top (h : Held r g value top offsets) (hi : g i ≠ none) : i ≤ top := by
  by_contra hlt
  exact hi (h.none_behind i (not_le.mp hlt))

theorem Held.right_iff (h : Held r g value top offsets) :
    GroupRight r (g i) i ↔ Answered g value i := by
  have hfit : ∀ j, 10 ≤ j → g j = none := fun j hj => h.none_behind j (h.top_lt.trans_le hj)
  rcases hg : g i with _ | ⟨a, b⟩
  · have hlarger : (∀ j, i < j → g j = none) ↔ ¬ i ≤ top := by
      constructor
      · intro hall hle
        refine h.top_took (hall top (lt_of_le_of_ne hle ?_))
        rintro rfl
        exact h.top_took hg
      · exact fun hlt j hj => h.none_behind j ((not_le.mp hlt).trans hj)
    have hover : ¬ ∃ j, 10 ≤ j ∧ (g j).isSome := by
      rintro ⟨j, hj, hsome⟩
      rw [hfit j hj] at hsome
      cases hsome
    rw [GroupRight, h.getMatch, Answered, hg, hlarger]
    simp only [Option.isSome_none, Bool.false_eq_true, if_false, hover, false_or]
    split_ifs with hcond
    · simp only [false_iff]
      omega
    · simp only [true_iff]
      omega
  · have hle : i ≤ top := h.le_top (by rw [hg]; exact Option.some_ne_none _)
    have hpair := h.pairs i hle
    rw [hg] at hpair
    obtain ⟨hstart, hstop⟩ := Prod.mk.inj hpair
    obtain ⟨hab, -⟩ := h.bounds i a b hg
    rw [GroupRight, h.getMatch, h.getMatchLength hle, hstart, hstop, ofNat_sub hab, Answered, hg]
    simp only [Option.isSome_some, if_true, hle, true_and, and_true]
    constructor
    · intro hmatch
      refine ⟨?_, hfit⟩
      by_contra hlong
      rw [if_neg hlong] at hmatch
      cases hmatch
    · exact fun hlong => if_pos hlong.1

end

/-- The groups that are answered right. -/
theorem groupRight_iff (h : lib.Fills captures) (sExp value : Bytes) (i : Nat) :
    GroupRight ((new lib sExp).regexp lib value).2 (took captures (new lib sExp) value i) i ↔
      Answered (took captures (new lib sExp) value) value i := by
  rcases regexp_cases h sExp value with ⟨hoffset, hall⟩ | ⟨top, offsets, hheld⟩
  · have hnull := getMatch_of_none hoffset i
    rcases hg : took captures (new lib sExp) value i with _ | ⟨a, b⟩
    · rw [GroupRight, hnull, Answered, hg]
      simp only [Option.isSome_none, Bool.false_eq_true, if_false, true_iff]
      rcases hall with hall | hover
      · exact .inr (.inr fun j _ => hall j)
      · exact .inr (.inl hover)
    · rw [GroupRight, hnull, Answered, hg]
      simp only [Option.isSome_some, if_true, reduceCtorEq, false_and, false_iff, not_and]
      rintro - hfit
      rcases hall with hall | ⟨j, hj, hsome⟩
      · rw [hall i] at hg
        cases hg
      · rw [hfit j hj] at hsome
        cases hsome
  · exact hheld.right_iff

end RegexpObject

/-! ## The expressions of the source -/

/-- An expression whose groups start where they end or in front of it. -/
def GroupedExp := { e : Regexp // ∀ g ∈ e.groups, g.1 ≤ g.2 }

/-- The groups of an expression, with the whole of it. -/
def Regexp.allGroups (e : Regexp) : List (Nat × Nat) :=
  (0, e.pieces.length) :: e.groups

namespace PatternLib

open Pattern RegexpObject

/-- The groups of an expression all take part when it matches. -/
def captures (e : GroupedExp) (s : Bytes) : Captures := fun i =>
  (matchPieces e.1.pieces s).bind fun ls =>
    (e.1.allGroups[i]?).map fun g => ((ls.take g.1).sum, (ls.take g.2).sum)

def lib (e : GroupedExp) : Pcre2 GroupedExp where
  compile _ := some e
  exec e s :=
    match matchPieces e.1.pieces s with
    | none => (-1, fun _ => 0)
    | some _ =>
      (if e.1.allGroups.length ≤ 10 then e.1.allGroups.length else 0,
        fun k => if k % 2 = 0 then (offsetPair (captures e s (k / 2))).1
          else (offsetPair (captures e s (k / 2))).2)

theorem captures_none {e : GroupedExp} {s : Bytes} (h : matchPieces e.1.pieces s = none) (i : Nat) :
    captures e s i = none := by
  rw [captures, h, Option.bind_none]

theorem captures_some {e : GroupedExp} {s : Bytes} {ls : List Nat}
    (h : matchPieces e.1.pieces s = some ls) (i : Nat) :
    captures e s i =
      (e.1.allGroups[i]?).map fun g => ((ls.take g.1).sum, (ls.take g.2).sum) := by
  rw [captures, h, Option.bind_some]

theorem sum_take_le {ls : List Nat} {m n : Nat} (h : m ≤ n) :
    (ls.take m).sum ≤ (ls.take n).sum :=
  ((List.take_sublist_take_left h).sum_le_sum fun _ _ => Nat.zero_le _)

theorem fills (e : GroupedExp) : (lib e).Fills captures := by
  intro e' s
  rcases hmatch : matchPieces e'.1.pieces s with _ | ls
  · have hrc : ((lib e).exec e' s).1 = -1 := by simp only [lib, hmatch]
    have hnone := captures_none hmatch
    refine ⟨fun _ => ⟨by omega, hnone⟩, fun h => absurd (hnone 0) h, ?_, ?_⟩
    · rintro i - ⟨j, -, hj⟩
      exact absurd (hnone j) hj
    intro i a b hi
    rw [hnone i] at hi
    cases hi
  · have hsome := captures_some hmatch
    have htook : ∀ i, captures e' s i ≠ none ↔ i < e'.1.allGroups.length := by
      intro i
      rw [hsome, ne_eq, Option.map_eq_none_iff, List.getElem?_eq_none_iff, not_le]
    have hpos : e'.1.allGroups.length = e'.1.groups.length + 1 := List.length_cons
    refine ⟨fun h => absurd h ((htook 0).mpr (by omega)), fun _ => ?_, fun i _ _ => ?_, ?_⟩
    · refine ⟨e'.1.groups.length, (htook _).mpr (by omega), fun i hi => ?_, ?_⟩
      · by_contra hne
        have := (htook i).mp hne
        omega
      · simp only [lib, hmatch, hpos]
        split_ifs <;> omega
    · have heven : 2 * i % 2 = 0 ∧ 2 * i / 2 = i := by omega
      have hodd : (2 * i + 1) % 2 = 1 ∧ (2 * i + 1) / 2 = i := by omega
      simp only [lib, hmatch, heven, hodd, if_true, one_ne_zero, if_false]
    · intro i a b hi
      rw [hsome, Option.map_eq_some_iff] at hi
      obtain ⟨g, hg, hab⟩ := hi
      obtain ⟨rfl, rfl⟩ := Prod.mk.inj hab
      have hle : g.1 ≤ g.2 := by
        rcases List.mem_cons.mp (List.mem_of_getElem? hg) with rfl | hmem
        · exact Nat.zero_le _
        · exact e'.2 g hmem
      have hsum : ls.sum ≤ s.length :=
        matchPieces_sum_le (s := s) (t := []) (by simp) (by rw [List.append_nil]; exact hmatch)
      refine ⟨sum_take_le hle, le_trans ?_ hsum⟩
      exact (List.take_sublist _ _).sum_le_sum fun _ _ => Nat.zero_le _

/-- What `getMatch` answers for an expression of the source is what it answers with the library. -/
theorem getMatch_eq {e : GroupedExp} {v : Bytes} {m : Match} {i : Nat}
    (h : e.1.regexp (some v) = .ok m) (hfit : e.1.allGroups.length ≤ 10) (hv : v.length < 2 ^ 64)
    (h0 : (0 : UInt8) ∉ v) :
    m.getMatch i =
      (((new (lib e) (bytes "e")).regexp (lib e) v).2.getMatch i).map fun o => v.drop o.toNat := by
  rw [Regexp.regexp, Option.map_some, cstr_of_not_mem h0] at h
  split at h
  · cases h
  · cases h
  next v' hne heq =>
    obtain rfl := Option.some.inj heq
    split at h
    · cases h
    next ls hmatch =>
      obtain rfl := Except.ok.inj h
      have hne' : v ≠ [] := fun hnil => hne (hnil ▸ rfl)
      have htook : took captures (new (lib e) (bytes "e")) v = captures e v := by
        show (if v = [] then fun _ => none else captures e (cstr v)) = captures e v
        rw [if_neg hne', cstr_of_not_mem h0]
      have hsome : ∀ j, captures e v j =
          (e.1.allGroups[j]?).map fun g => ((ls.take g.1).sum, (ls.take g.2).sum) :=
        captures_some hmatch
      have hcases := regexp_cases (fills e) (bytes "e") v
      rw [htook] at hcases
      rcases hcases with ⟨-, hall | ⟨j, hj, hover⟩⟩ | ⟨top, offsets, hheld⟩
      · have hzero := hall 0
        rw [hsome 0] at hzero
        cases hzero
      · rw [hsome j, Option.isSome_map, Option.isSome_iff_ne_none, ne_eq, List.getElem?_eq_none_iff] at hover
        omega
      · rw [hheld.getMatch]
        show (if 2 * i < v.length then
          ((e.1.allGroups[i]?).map fun g => (ls.take g.1).sum).map (v.drop ·) else none) = _
        by_cases hlong : 2 * i < v.length
        swap
        · rw [if_neg hlong, if_neg (fun hc => hlong hc.2), Option.map_none]
        rcases hg : e.1.allGroups[i]? with _ | g
        · have hbehind : ¬ i ≤ top := by
            intro hle
            have htop := hheld.top_took
            rw [hsome, ne_eq, Option.map_eq_none_iff, List.getElem?_eq_none_iff] at htop
            rw [List.getElem?_eq_none_iff] at hg
            omega
          rw [if_pos hlong, if_neg (fun hc => hbehind hc.1)]
          rfl
        · have hgroup : captures e v i = some ((ls.take g.1).sum, (ls.take g.2).sum) := by
            rw [hsome, hg, Option.map_some]
          have hle := hheld.le_top (i := i) (by rw [hgroup]; exact Option.some_ne_none _)
          obtain ⟨hab, hb⟩ := hheld.bounds i _ _ hgroup
          have hpair := hheld.pairs i hle
          rw [hgroup] at hpair
          have hnat : (UInt64.ofNat (ls.take g.1).sum).toNat = (ls.take g.1).sum :=
            UInt64.toNat_ofNat_of_lt' (by show _ < 2 ^ 64; omega)
          rw [if_pos hlong, if_pos ⟨hle, hlong⟩, (Prod.mk.inj hpair).1, Option.map_some,
            Option.map_some, Option.map_some, hnat]

/-- The expression `"(a)"`. -/
def letter : GroupedExp :=
  ⟨⟨[lit 97], [(0, 1)]⟩, by decide⟩

theorem groupRight_abc :
    GroupRight ((new (lib letter) (bytes "(a)")).regexp (lib letter) (bytes "abc")).2
      (took captures (new (lib letter) (bytes "(a)")) (bytes "abc") 1) 1 :=
  (groupRight_iff (fills letter) (bytes "(a)") (bytes "abc") 1).mpr
    ⟨by decide, fun j hj => by
      have hnone : letter.1.allGroups[j]? = none := List.getElem?_eq_none_iff.mpr (by
        show 2 ≤ j
        omega)
      exact congrArg (Option.map _) hnone⟩

/-- A group of a value that is as short as the number of the group. -/
theorem not_groupRight : ¬ ∀ (Code : Type) (lib : Pcre2 Code) (captures : Code → Bytes → Captures),
    lib.Fills captures → ∀ (sExp value : Bytes) (i : Nat),
      GroupRight ((new lib sExp).regexp lib value).2 (took captures (new lib sExp) value i) i := by
  intro h
  have hright := h _ (lib letter) captures (fills letter) (bytes "(a)") (bytes "a") 1
  have htook : took captures (new (lib letter) (bytes "(a)")) (bytes "a") 1 = some (0, 1) := rfl
  have hnull : ((new (lib letter) (bytes "(a)")).regexp (lib letter) (bytes "a")).2.getMatch (1 : Nat) =
      none := rfl
  rw [htook, GroupRight, hnull] at hright
  cases hright.1

end PatternLib

end Dframework
