import Mathlib
import Dframework.Lang.StringBuffer
import Dframework.Library.FieldOrder

/-!
# Comparison of `String`s

The six operators are written one by one, four of them over `strncmp_s`, which answers 1
where the string itself is the smaller one. `equals` is another comparison, up to the case
of letters, and takes a pointer where the operators take a `String`.

Results:
1. `StringCompare.operators_total`: the operators are one total order.
2. `StringCompare.equalsPtr_eq_equalsChars`: `equals` of the fields is `equals` of the texts.
3. `StringCompare.equals_agree_iff`: when the three `equals` say the same.
-/

namespace Dframework

open CLib FieldOrder

namespace StringCompare

/-! ## The operators -/

/-- `String::strncmp_s`. The bytes both have are compared first, the lengths behind them. -/
def strncmpS : Bytes → Bytes → Int
  | [], [] => 0
  | [], _ :: _ => 1
  | _ :: _, [] => -1
  | s :: ss, d :: ds =>
    if signedChar s < signedChar d then 1
    else if signedChar d < signedChar s then -1
    else strncmpS ss ds

def ne (s t : Bytes) : Bool :=
  if s ≠ [] ∧ t ≠ [] then 0 ≠ strncmpS s t
  else if s = [] ∧ t = [] then false
  else true

def eq (s t : Bytes) : Bool :=
  !ne s t

def ge (s t : Bytes) : Bool :=
  if s ≠ [] ∧ t ≠ [] then if 0 < strncmpS s t then false else true
  else if s = [] ∧ t = [] then true
  else if s = [] then false
  else true

def le (s t : Bytes) : Bool :=
  if s ≠ [] ∧ t ≠ [] then if 0 > strncmpS s t then false else true
  else if s = [] ∧ t = [] then true
  else if s = [] then true
  else false

def gt (s t : Bytes) : Bool :=
  !le s t

def lt (s t : Bytes) : Bool :=
  !ge s t

/-- What `strncmp_s` answers for an order. -/
def sign : Ordering → Int
  | .lt => 1
  | .eq => 0
  | .gt => -1

@[simp] theorem sign_pos_iff {o : Ordering} : 0 < sign o ↔ o = .lt := by
  cases o <;> decide

@[simp] theorem sign_neg_iff {o : Ordering} : sign o < 0 ↔ o = .gt := by
  cases o <;> decide

@[simp] theorem zero_eq_sign_iff {o : Ordering} : 0 = sign o ↔ o = .eq := by
  cases o <;> decide

theorem strncmpS_eq (s t : Bytes) : strncmpS s t = sign (compareChars s t) := by
  induction s generalizing t with
  | nil => cases t <;> rfl
  | cons x xs ih =>
    cases t with
    | nil => rfl
    | cons y ys =>
      rw [strncmpS, compareChars, ih]
      rcases lt_trichotomy (signedChar x) (signedChar y) with hlt | heq | hgt
      · rw [if_pos hlt, compare_lt_iff_lt.mpr hlt]
        rfl
      · rw [if_neg heq.not_lt, if_neg heq.not_gt, compare_eq_iff_eq.mpr heq]
        rfl
      · rw [if_neg hgt.not_gt, if_pos hgt, compare_gt_iff_gt.mpr hgt]
        rfl

/-- The special cases for empty strings are the ones `strncmp_s` has by itself. -/
theorem compareChars_cases (s t : Bytes) :
    (s ≠ [] ∧ t ≠ []) ∨ (s = [] ∧ t = [] ∧ compareChars s t = .eq) ∨
      (s = [] ∧ t ≠ [] ∧ compareChars s t = .lt) ∨
      (s ≠ [] ∧ t = [] ∧ compareChars s t = .gt) := by
  cases s <;> cases t <;> simp [compareChars]

theorem ne_iff {s t : Bytes} : ne s t = true ↔ compareChars s t ≠ .eq := by
  rw [ne, strncmpS_eq]
  rcases compareChars_cases s t with h | h | h | h
  · simp [h]
  all_goals
    rw [h.2.2]
    simp [h.1, h.2.1]

theorem ge_iff {s t : Bytes} : ge s t = true ↔ compareChars s t ≠ .lt := by
  rw [ge, strncmpS_eq]
  rcases compareChars_cases s t with h | h | h | h
  · simp [h]
  all_goals
    rw [h.2.2]
    simp [h.1, h.2.1]

theorem le_iff {s t : Bytes} : le s t = true ↔ compareChars s t ≠ .gt := by
  rw [le, strncmpS_eq]
  rcases compareChars_cases s t with h | h | h | h
  · simp [h]
  all_goals
    rw [h.2.2]
    simp [h.1, h.2.1]

theorem eq_iff {s t : Bytes} : eq s t = true ↔ compareChars s t = .eq := by
  rw [eq, Bool.not_eq_true', ← Bool.not_eq_true, ne_iff, not_not]

theorem gt_iff {s t : Bytes} : gt s t = true ↔ compareChars s t = .gt := by
  rw [gt, Bool.not_eq_true', ← Bool.not_eq_true, le_iff, not_not]

theorem lt_iff {s t : Bytes} : lt s t = true ↔ compareChars s t = .lt := by
  rw [lt, Bool.not_eq_true', ← Bool.not_eq_true, ge_iff, not_not]

/-- `==` tells strings apart that differ at all. -/
theorem eq_iff_eq {s t : Bytes} : eq s t = true ↔ s = t :=
  eq_iff.trans ⟨Std.LawfulEqCmp.eq_of_compare, fun h => h ▸ Std.ReflCmp.compare_self⟩

/-- `>` is `<` the other way. -/
theorem gt_iff_lt {s t : Bytes} : gt s t = true ↔ lt t s = true :=
  gt_iff.trans (Std.OrientedCmp.gt_iff_lt.trans lt_iff.symm)

theorem lt_trans {s t u : Bytes} (hst : lt s t = true) (htu : lt t u = true) : lt s u = true :=
  lt_iff.mpr (Std.TransCmp.lt_trans (lt_iff.mp hst) (lt_iff.mp htu))

theorem trichotomy (s t : Bytes) : ExactlyOne (lt s t) (eq s t) (gt s t) := by
  rw [lt_iff, eq_iff, gt_iff]
  exact exactlyOne_ordering _

/-- The six operators form one total order. -/
theorem operators_total (a b c : Bytes) :
    ExactlyOne (lt a b) (eq a b) (gt a b) ∧
      (le a b = true ↔ lt a b = true ∨ eq a b = true) ∧
      (ge a b = true ↔ gt a b = true ∨ eq a b = true) ∧
      ne a b = !eq a b ∧
      (lt a b = true ∧ lt b c = true → lt a c = true) := by
  refine ⟨trichotomy a b, ?_, ?_, ?_, fun h => lt_trans h.1 h.2⟩
  · rw [le_iff, lt_iff, eq_iff]
    cases compareChars a b <;> simp
  · rw [ge_iff, gt_iff, eq_iff]
    cases compareChars a b <;> simp
  · rw [eq, Bool.not_not]

/-! ## `equals` -/

/-- What stands in memory from an address on. The address 0 is `NULL`. -/
abbrev Memory := Nat → Bytes

/-- The fields of a `String` that `equals` reads. -/
structure Fields where
  buffer : Nat
  length : Nat
  deriving DecidableEq, Repr

/-- `String::toChars` as a pointer. -/
def Fields.toChars (s : Fields) : Nat :=
  if s.length = 0 then 0 else s.buffer

def strlen (mem : Memory) (p : Nat) : Nat :=
  if p = 0 then 0 else (cstr (mem p)).length

/-- Equality up to the case of ASCII letters. -/
def sameLetters (a b : Bytes) : Bool :=
  a.map tolower = b.map tolower

/-- `strcasecmp(p, q) == 0`. Through `NULL` there is no answer. -/
def strcasecmp (mem : Memory) (p q : Nat) : Option Bool :=
  if p = 0 ∨ q = 0 then none else some (sameLetters (cstr (mem p)) (cstr (mem q)))

/-- `String::equals` of a pointer and a length. -/
def equalsSized (mem : Memory) (s : Fields) (str size : Nat) : Option Bool :=
  if str = s.buffer then some true
  else if s.length = 0 then some (size = 0 ∨ str = 0)
  else strcasecmp mem str s.buffer

/-- `String::equals` of a pointer. -/
def equalsPtr (mem : Memory) (s : Fields) (str : Nat) : Option Bool :=
  equalsSized mem s str (strlen mem str)

/-- `String::equals` of a `String`. The strings are the ones at two addresses. -/
def equalsString (mem : Memory) (obj : Nat → Fields) (this that : Nat) : Option Bool :=
  if this = that then some true
  else if (obj this).buffer = (obj that).toChars then some true
  else if (obj this).length ≠ (obj that).length then some false
  else equalsSized mem (obj this) (obj that).toChars (obj that).length

structure Holds (mem : Memory) (s : Fields) (text : Bytes) : Prop where
  length_eq : s.length = text.length
  not_mem : (0 : UInt8) ∉ text
  buffer_eq : s.buffer ≠ 0 → cstr (mem s.buffer) = text
  null_eq : s.buffer = 0 → text = []

/-- Letter case is left out by an equivalence. -/
theorem sameLetters_equivalence : Equivalence fun a b => sameLetters a b = true := by
  refine ⟨fun _ => decide_eq_true rfl, fun h => ?_, fun h h' => ?_⟩
  · exact decide_eq_true (of_decide_eq_true h).symm
  · exact decide_eq_true ((of_decide_eq_true h).trans (of_decide_eq_true h'))

@[simp] theorem sameLetters_self (a : Bytes) : sameLetters a a = true :=
  decide_eq_true rfl

theorem length_eq_of_sameLetters {a b : Bytes} (h : sameLetters a b = true) :
    a.length = b.length := by
  rw [← List.length_map tolower, of_decide_eq_true h, List.length_map]

theorem sameLetters_nil_left (b : Bytes) : sameLetters [] b = decide (b = []) := by
  cases b <;> rfl

namespace Holds

variable {mem : Memory} {s : Fields} {a b : Bytes}

theorem length_eq_zero (h : Holds mem s a) : s.length = 0 ↔ a = [] := by
  rw [h.length_eq, List.length_eq_zero_iff]

theorem buffer_ne_zero (h : Holds mem s a) (ha : a ≠ []) : s.buffer ≠ 0 :=
  fun h0 => ha (h.null_eq h0)

theorem toChars_eq (h : Holds mem s a) : s.toChars = if a = [] then 0 else s.buffer := by
  rw [Fields.toChars]
  exact if_congr h.length_eq_zero rfl rfl

theorem unique (h : Holds mem s a) (h' : Holds mem s b) : a = b := by
  by_cases h0 : s.buffer = 0
  · rw [h.null_eq h0, h'.null_eq h0]
  · rw [← h.buffer_eq h0, h'.buffer_eq h0]

/-- The length that goes with the pointer is the one `strlen` finds. -/
theorem strlen_toChars (h : Holds mem s a) : strlen mem s.toChars = s.length := by
  rw [h.toChars_eq, h.length_eq, strlen]
  by_cases ha : a = []
  · rw [if_pos ha, if_pos rfl, ha, List.length_nil]
  · rw [if_neg ha, if_neg (h.buffer_ne_zero ha), h.buffer_eq (h.buffer_ne_zero ha)]

end Holds

section

variable {mem : Memory} {s t : Fields} {a b : Bytes}

/-- What `equals` finds behind the pointer of another string. `strcasecmp` gets `NULL` from
an empty one. -/
theorem equalsSized_eq (hs : Holds mem s a) (ht : Holds mem t b) :
    equalsSized mem s t.toChars t.length =
      if a ≠ [] ∧ b = [] then none else some (sameLetters a b) := by
  rw [equalsSized, ht.toChars_eq]
  by_cases ha : a = []
  · have hlen := hs.length_eq_zero.mpr ha
    subst ha
    rw [if_neg (show ¬ ([] ≠ [] ∧ b = []) from fun h => h.1 rfl), if_pos hlen]
    by_cases hb : b = []
    · subst hb
      simp
    · have hne := ht.buffer_ne_zero hb
      have hlen' : t.length ≠ 0 := fun h0 => hb (ht.length_eq_zero.mp h0)
      -- a pointer to a text is no pointer to an empty one
      have hptr : t.buffer ≠ s.buffer := fun he => hb (by
        rw [← ht.buffer_eq hne, he, hs.buffer_eq (he ▸ hne)])
      simp [hb, hptr, hlen', hne, sameLetters_nil_left]
  · have hlen : s.length ≠ 0 := fun h0 => ha (hs.length_eq_zero.mp h0)
    have hne := hs.buffer_ne_zero ha
    by_cases hb : b = []
    · rw [if_pos hb, if_neg hne.symm, if_neg hlen, strcasecmp, if_pos (.inl rfl),
        if_pos ⟨ha, hb⟩]
    · have hne' := ht.buffer_ne_zero hb
      rw [if_neg hb, if_neg (show ¬ (a ≠ [] ∧ b = []) from fun h => hb h.2)]
      by_cases hptr : t.buffer = s.buffer
      · have hab : a = b := by rw [← hs.buffer_eq hne, ← ht.buffer_eq hne', hptr]
        subst hab
        simp [hptr]
      · rw [if_neg hptr, if_neg hlen, strcasecmp, if_neg (show ¬ (_ ∨ _) by tauto),
          hs.buffer_eq hne, ht.buffer_eq hne']
        congr 1
        exact decide_eq_decide.mpr eq_comm

theorem equalsPtr_eq (hs : Holds mem s a) (ht : Holds mem t b) :
    equalsPtr mem s t.toChars = if a ≠ [] ∧ b = [] then none else some (sameLetters a b) := by
  rw [equalsPtr, ht.strlen_toChars]
  exact equalsSized_eq hs ht

theorem equals_eq (hs : Holds mem s a) (ht : Holds mem t b) : equals a b = sameLetters a b := by
  rw [equals]
  split_ifs with ha
  · rw [ha, sameLetters_nil_left]
  · rw [cstr_of_not_mem hs.not_mem, cstr_of_not_mem ht.not_mem, sameLetters]

/-- What the other parts of the program are told of `equals` is what it does. -/
theorem equalsPtr_eq_equalsChars (hs : Holds mem s a) (ht : Holds mem t b) :
    equalsPtr mem s t.toChars = equalsChars a (toChars b) := by
  rw [equalsPtr_eq hs ht]
  by_cases hb : b = []
  · subst hb
    by_cases ha : a = [] <;> simp [ha, equalsChars]
  · rw [if_neg (fun h => hb h.2), toChars_of_ne_nil hb, equalsChars, equals_eq hs ht]

/-- `equals` of a `String` never asks for more than the lengths when they differ. -/
theorem equalsString_eq {obj : Nat → Fields} {i j : Nat} (hi : Holds mem (obj i) a)
    (hj : Holds mem (obj j) b) :
    equalsString mem obj i j = some (sameLetters a b) := by
  rw [equalsString]
  split_ifs with hsame hptr hlen
  · subst hsame
    rw [hi.unique hj, sameLetters_self]
  · have hab : a = b := by
      rw [hj.toChars_eq] at hptr
      split_ifs at hptr with hb
      · rw [hi.null_eq hptr, hb]
      · have hne := hj.buffer_ne_zero hb
        rw [← hi.buffer_eq (hptr ▸ hne), hptr, hj.buffer_eq hne]
    rw [hab, sameLetters_self]
  · have hab : sameLetters a b = false := by
      by_contra h
      rw [Bool.not_eq_false] at h
      exact hlen (by rw [hi.length_eq, hj.length_eq, length_eq_of_sameLetters h])
    rw [hab]
  · rw [equalsSized_eq hi hj, if_neg]
    rintro ⟨ha, hb⟩
    refine hlen fun heq => ha ?_
    rw [← hi.length_eq_zero, heq, hj.length_eq_zero, hb]

end

/-- The three ways to ask whether `a` is `b`, with the answer they all should give. -/
def EqualsAgree (mem : Memory) (obj : Nat → Fields) (i j : Nat) (a b : Bytes) : Prop :=
  equalsString mem obj i j = some (sameLetters a b) ∧
    equalsPtr mem (obj i) (obj j).toChars = some (sameLetters a b) ∧
    equalsSized mem (obj i) (obj j).toChars (obj j).length = some (sameLetters a b)

/-- They agree unless the argument is empty and the string is not. -/
theorem equals_agree_iff {mem : Memory} {obj : Nat → Fields} {i j : Nat} {a b : Bytes}
    (hi : Holds mem (obj i) a) (hj : Holds mem (obj j) b) :
    EqualsAgree mem obj i j a b ↔ (b = [] → a = []) := by
  rw [EqualsAgree, equalsString_eq hi hj, equalsPtr_eq hi hj, equalsSized_eq hi hj]
  constructor
  · rintro ⟨-, h, -⟩ hb
    by_contra ha
    rw [if_pos ⟨ha, hb⟩] at h
    cases h
  · intro h
    rw [if_neg (fun h' => h'.1 (h h'.2))]
    exact ⟨rfl, rfl, rfl⟩

/-- Memory with a word at two addresses, in different letters. -/
def twoWords : Memory
  | 1 => bytes "Host\x00"
  | 2 => bytes "host\x00"
  | _ => [0]

/-- Strings over `twoWords`, and an empty one. -/
def twoWordsObj : Nat → Fields
  | 1 => ⟨1, 4⟩
  | 2 => ⟨2, 4⟩
  | _ => ⟨0, 0⟩

theorem equals_agree_host : EqualsAgree twoWords twoWordsObj 1 2 (bytes "Host") (bytes "host") :=
  (equals_agree_iff ⟨rfl, by decide, fun _ => rfl, by decide⟩
    ⟨rfl, by decide, fun _ => rfl, by decide⟩).mpr (by decide)

/-- A word asked whether it is the empty string reads through `NULL`. -/
theorem not_equals_agree : ¬ ∀ (mem : Memory) (obj : Nat → Fields) (i j : Nat) (a b : Bytes),
    Holds mem (obj i) a → Holds mem (obj j) b → EqualsAgree mem obj i j a b := by
  intro h
  have hnull := (h twoWords twoWordsObj 1 3 (bytes "Host") []
    ⟨rfl, by decide, fun _ => rfl, by decide⟩ ⟨rfl, by decide, fun _ => rfl, fun _ => rfl⟩).2.1
  revert hnull
  decide

end StringCompare

end Dframework
