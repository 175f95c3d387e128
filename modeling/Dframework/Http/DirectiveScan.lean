import Mathlib
import Dframework.Http.HttpDigest

/-!
# How far the loops over directives read

A loop moves its pointer by the length of what it took and by two bytes for a quote and a comma,
or for a comma and a blank, without looking whether they are there.

Results:
1. `run_scan`: a loop ends after as many rounds as its text has bytes, or one more.
2. `scanRound_within_iff`: when one round stays in front of the terminator.
3. `directiveLoops_inBounds`: when a loop does.
-/

namespace Dframework

namespace HttpDigest

open CLib Loop

/-! ## One round -/

/-- `test` takes the quotes off. -/
def Quoted (v : Bytes) : Prop :=
  2 < v.length ∧ v.head? = some 34 ∧ v.getLast? = some 34

instance (v : Bytes) : Decidable (Quoted v) :=
  inferInstanceAs (Decidable (_ ∧ _))

variable {names : List Bytes} {text rest : Bytes} {s : Scan}

theorem asInt_of_lt {n : Nat} (h : n < 2 ^ 31) : asInt n = some n :=
  if_pos h

theorem asInt_of_le {n : Nat} (h : 2 ^ 31 ≤ n) : asInt n = none :=
  if_neg (Nat.not_lt.mpr h)

theorem asInt_eq_some_iff {n k : Nat} : asInt n = some k ↔ n < 2 ^ 31 ∧ n = k := by
  rw [asInt]
  split_ifs with h
  · exact ⟨fun hs => ⟨h, Option.some.inj hs⟩, fun hs => congrArg some hs.2⟩
  · exact iff_of_false not_false fun hs => h hs.1

/-- `test` inside the text. -/
theorem test_of_le {str slen pre : Nat} (hstr : str + pre ≤ text.length)
    (hlen : text.length - (str + pre) < 2 ^ 31) (hslen : pre ≤ slen) :
    test text str slen pre =
      let v := (text.drop (str + pre)).take (slen - pre)
      if Quoted v then (asInt (pre + v.length + 2)).map fun o_len =>
        ((v.drop 1).take (v.length - 2), o_len)
      else some (v, pre + v.length) := by
  have hmin : (text.drop (str + pre)).take (min (text.length - (str + pre)) (slen - pre)) =
      (text.drop (str + pre)).take (slen - pre) := by
    rw [← List.length_drop, Nat.min_comm, ← List.take_eq_take_min]
  rw [test]
  simp only [hstr, hslen, guard_true, asInt_of_lt hlen, Option.bind_eq_bind, Option.pure_def,
    Option.bind_some, hmin]
  generalize (text.drop (str + pre)).take (slen - pre) = v
  by_cases hshort : v.length ≤ 2
  · rw [if_pos hshort, if_neg fun hq : Quoted v => absurd hq.1 (Nat.not_lt.mpr hshort)]
  · rw [if_neg hshort]
    by_cases hends : v.head? ≠ some 34 ∨ v.getLast? ≠ some 34
    · rw [if_pos hends, if_neg fun hq : Quoted v => hends.elim (· hq.2.1) (· hq.2.2)]
    · rw [not_or, not_not, not_not] at hends
      have hq : Quoted v := ⟨Nat.not_le.mp hshort, hends⟩
      rw [if_neg (by rw [not_or, not_not, not_not]; exact hends), if_pos hq]
      exact Option.map_eq_bind.symm

/-- `test` looks at nothing in front of the pointer. -/
theorem test_drop {pos str slen pre : Nat} (hpos : pos ≤ text.length) :
    test text (pos + str) slen pre = test (text.drop pos) str slen pre := by
  have hle : pos + str + pre ≤ text.length ↔ str + pre ≤ (text.drop pos).length := by
    rw [List.length_drop]
    omega
  have hlen : text.length - (pos + str + pre) = (text.drop pos).length - (str + pre) := by
    rw [List.length_drop]
    omega
  simp only [test, hle, hlen, List.drop_drop, ← Nat.add_assoc]

def temp (rest : Bytes) : Bytes :=
  rest.dropWhile isBlankOrTab

def blanks (rest : Bytes) : Bytes :=
  rest.takeWhile isBlankOrTab

theorem blanks_append_temp (rest : Bytes) : blanks rest ++ temp rest = rest :=
  List.takeWhile_append_dropWhile

theorem comma_not_mem_blanks (rest : Bytes) : (44 : UInt8) ∉ blanks rest := by
  intro h
  simpa [isBlankOrTab] using List.mem_takeWhile_imp h

def nameOf (names : List Bytes) (rest : Bytes) : Option Bytes :=
  names.find? fun name => startsName name (temp rest)

/-- How far a loop thinks a directive reaches. -/
def templen (rest : Bytes) : Nat :=
  (Search.find [44] rest).getD rest.length

/-- What a round makes of a directive that is known. -/
def testAt (name rest : Bytes) : Option (Bytes × Nat) :=
  asInt (templen rest) >>= fun templen => test rest (blanks rest).length templen (name.length + 1)

/-- A round on the text its pointer stands on. -/
theorem scanRound_of_drop (hpos : s.pos ≤ text.length) (hrest : text.drop s.pos = rest) :
    scanRound names text s =
      match nameOf names rest with
      | some name =>
        match testAt name rest with
        | none => .done none
        | some (v, olen) =>
          if Search.find [44] rest = none ∨ olen = 0 then
            .done (some ⟨s.pos + olen, Function.update s.fields name v⟩)
          else .next ⟨s.pos + olen, Function.update s.fields name v⟩
      | none =>
        match Search.find [44] rest with
        | none => .done (some s)
        | some i =>
          match asInt (i + 2) with
          | none => .done none
          | some olen => .next { s with pos := s.pos + olen } := by
  have htemp : text.drop (s.pos + (blanks rest).length) = temp rest := by
    rw [← List.drop_drop, hrest]
    nth_rewrite 2 [← blanks_append_temp rest]
    exact List.drop_left
  have htest (slen pre : Nat) : test text (s.pos + (blanks rest).length) slen pre =
      test rest (blanks rest).length slen pre := by
    rw [test_drop hpos, hrest]
  rw [scanRound, if_neg (Nat.not_lt.mpr hpos)]
  simp only [hrest]
  rw [show rest.takeWhile isBlankOrTab = blanks rest from rfl, htemp]
  simp only [htest]
  rfl

/-! ## What a round needs -/

/-- A comma that a byte follows. -/
def CommaInside (rest : Bytes) : Prop :=
  ∃ i, Search.find [44] rest = some i ∧ i + 1 < rest.length

/-- The bytes `test` looks at for quotes. -/
def valueOf (name rest : Bytes) : Bytes :=
  ((temp rest).drop (name.length + 1)).take (templen rest - (name.length + 1))

/-- A byte stands behind the name, other than a comma when no blank stands in front. -/
def HasValue (name rest : Bytes) : Prop :=
  ∃ c after, (temp rest).drop name.length = c :: after ∧ (c = 44 → blanks rest ≠ [])

/-- A known directive has a value, and the lengths that are computed for it are `int`s. -/
structure Readable (name rest : Bytes) : Prop where
  value : HasValue name rest
  text : rest.length - ((blanks rest).length + (name.length + 1)) < 2 ^ 31
  comma : templen rest < 2 ^ 31
  reach : Quoted (valueOf name rest) → name.length + 1 + (valueOf name rest).length + 2 < 2 ^ 31

/-- A directive that is skipped has no comma behind it or one that a byte follows. One that is known
can be read; when its quotes are taken off, two blanks stand in front or a byte follows the comma
behind it. -/
def RoundFits (names : List Bytes) (rest : Bytes) : Prop :=
  match nameOf names rest with
  | some name =>
    Readable name rest ∧
      (Quoted (valueOf name rest) → 2 ≤ (blanks rest).length ∨ CommaInside rest)
  | none => Search.find [44] rest = none ∨ CommaInside rest ∧ templen rest + 2 < 2 ^ 31

/-- What is taken of a known directive, and how far it reaches. -/
def taken (name rest : Bytes) : Bytes × Nat :=
  let v := valueOf name rest
  if Quoted v then ((v.drop 1).take (v.length - 2), name.length + 1 + v.length + 2)
  else (v, name.length + 1 + v.length)

/-- The pointer is not behind the terminator. -/
def Within (text : Bytes) (s : Scan) : Prop :=
  s.pos ≤ text.length

/-- A loop ends with a pointer that is not behind the terminator. -/
def EndsWithin (text : Bytes) (r : Option Scan) : Prop :=
  ∃ s, r = some s ∧ Within text s

/-- A name that stands behind the blanks holds no comma. -/
theorem nameOf_split {name : Bytes} (hnames : ∀ name ∈ names, (44 : UInt8) ∉ name)
    (h : nameOf names rest = some name) :
    ∃ p, rest = p ++ (temp rest).drop name.length ∧
      p.length = (blanks rest).length + name.length ∧ (44 : UInt8) ∉ p := by
  have hstarts : startsName name (temp rest) = true := by
    simpa using List.find?_some h
  rw [startsName, decide_eq_true_iff] at hstarts
  refine ⟨blanks rest ++ (temp rest).take name.length, ?_, ?_, ?_⟩
  · rw [List.append_assoc, List.take_append_drop, blanks_append_temp]
  · have hlen := congrArg List.length hstarts
    rw [List.length_map] at hlen
    rw [List.length_append, hlen]
  · rw [List.mem_append, not_or]
    refine ⟨comma_not_mem_blanks rest, fun hw => ?_⟩
    refine hnames name (List.mem_of_find?_eq_some h) ?_
    rw [← hstarts]
    exact List.mem_map.mpr ⟨44, hw, rfl⟩

/-- A known directive with a value has room for its name and one more byte in front of the comma. -/
theorem hasValue_iff {name : Bytes} (hnames : ∀ name ∈ names, (44 : UInt8) ∉ name)
    (h : nameOf names rest = some name) :
    HasValue name rest ↔
      (blanks rest).length + (name.length + 1) ≤ rest.length ∧ name.length + 1 ≤ templen rest := by
  obtain ⟨p, hrest, hp, hcomma⟩ := nameOf_split hnames h
  have hfind := Search.find_singleton_append hcomma ((temp rest).drop name.length)
  rw [← hrest] at hfind
  have hlen := congrArg List.length hrest
  rw [List.length_append, hp] at hlen
  rw [HasValue, templen, hfind]
  cases hafter : (temp rest).drop name.length with
  | nil =>
    rw [hafter, List.length_nil] at hlen
    refine iff_of_false (by rintro ⟨c, after, hc, -⟩; simp at hc) ?_
    omega
  | cons c after =>
    rw [hafter, List.length_cons] at hlen
    have hvalue : (∃ d t, c :: after = d :: t ∧ (d = 44 → blanks rest ≠ [])) ↔
        (c = 44 → 0 < (blanks rest).length) := by
      rw [List.length_pos_iff]
      exact ⟨by rintro ⟨d, t, ⟨⟩, h⟩; exact h, fun h => ⟨c, after, rfl, h⟩⟩
    rw [hvalue]
    by_cases hc : c = 44
    · have hfound : Search.find [44] (c :: after) = some 0 :=
        Search.find_of_starts ⟨after, by rw [hc]; rfl⟩
      rw [hfound]
      simp only [hc, Option.map_some, Option.getD_some, forall_const]
      omega
    · have hstart : ¬ [(44 : UInt8)] <+: c :: after := fun hpre =>
        hc (List.cons_prefix_cons.mp hpre).1.symm
      rw [Search.find_cons_of_not_starts hstart]
      refine iff_of_true (fun h => absurd h hc) ?_
      cases Search.find [44] after with
      | none =>
        rw [Option.map_none, Option.map_none, Option.getD_none]
        omega
      | some i =>
        rw [Option.map_some, Option.map_some, Option.getD_some]
        omega

theorem drop_blanks (rest : Bytes) : rest.drop (blanks rest).length = temp rest := by
  nth_rewrite 2 [← blanks_append_temp rest]
  exact List.drop_left

theorem length_valueOf (name rest : Bytes) :
    (valueOf name rest).length =
      min (templen rest - (name.length + 1)) (rest.length - (blanks rest).length - (name.length + 1)) := by
  rw [valueOf, List.length_take, List.length_drop, ← drop_blanks, List.length_drop]

open Classical in
/-- What `test` answers for a directive that is known. -/
theorem testAt_known {name : Bytes} (hnames : ∀ name ∈ names, (44 : UInt8) ∉ name)
    (h : nameOf names rest = some name) :
    testAt name rest = if Readable name rest then some (taken name rest) else none := by
  have hiff := hasValue_iff hnames h
  rw [testAt]
  by_cases hcomma : templen rest < 2 ^ 31
  swap
  · rw [asInt_of_le (Nat.not_lt.mp hcomma), if_neg fun hr => hcomma hr.comma]
    rfl
  rw [asInt_of_lt hcomma, Option.bind_eq_bind, Option.bind_some]
  by_cases hv : HasValue name rest
  swap
  · rw [if_neg fun hr => hv hr.value, test]
    rw [hiff, not_and_or] at hv
    rcases hv with hroom | hlen
    · simp [hroom]
    · simp [hlen]
  obtain ⟨hroom, hlen⟩ := hiff.mp hv
  by_cases htext : rest.length - ((blanks rest).length + (name.length + 1)) < 2 ^ 31
  swap
  · rw [if_neg fun hr => htext hr.text, test, asInt_of_le (Nat.not_lt.mp htext)]
    simp
  rw [test_of_le hroom htext hlen, ← List.drop_drop, drop_blanks]
  show (if Quoted (valueOf name rest) then _ else _) = _
  by_cases hq : Quoted (valueOf name rest)
  · have htaken : taken name rest = (((valueOf name rest).drop 1).take ((valueOf name rest).length - 2),
        name.length + 1 + (valueOf name rest).length + 2) := if_pos hq
    rw [if_pos hq]
    by_cases hreach : name.length + 1 + (valueOf name rest).length + 2 < 2 ^ 31
    · have hr : Readable name rest := ⟨hv, htext, hcomma, fun _ => hreach⟩
      rw [if_pos hr, htaken]
      exact congrArg (Option.map _) (asInt_of_lt hreach)
    · rw [if_neg fun hr : Readable name rest => hreach (hr.reach hq)]
      exact congrArg (Option.map _) (asInt_of_le (Nat.not_lt.mp hreach))
  · have htaken : taken name rest = (valueOf name rest, name.length + 1 + (valueOf name rest).length) :=
      if_neg hq
    rw [if_neg hq, if_pos ⟨hv, htext, hcomma, fun h => absurd h hq⟩, htaken]
    rfl

theorem templen_le (rest : Bytes) : templen rest ≤ rest.length := by
  rw [templen]
  cases h : Search.find [44] rest with
  | none => exact le_refl _
  | some i => exact (Search.find_eq_some_iff.mp h).1

/-- The comma behind a directive is where the directive ends. -/
theorem commaInside_iff : CommaInside rest ↔ templen rest + 1 < rest.length := by
  rw [CommaInside, templen]
  cases h : Search.find [44] rest with
  | none => simp
  | some i => simp

/-- What is taken reaches behind the end when its quotes are taken off and neither two blanks nor a
comma with a byte behind it make up for the two bytes that are skipped. -/
theorem taken_le_iff {name : Bytes} (hnames : ∀ name ∈ names, (44 : UInt8) ∉ name)
    (h : nameOf names rest = some name) (hv : HasValue name rest) :
    (taken name rest).2 ≤ rest.length ↔
      (Quoted (valueOf name rest) → 2 ≤ (blanks rest).length ∨ CommaInside rest) := by
  obtain ⟨hroom, hlen⟩ := (hasValue_iff hnames h).mp hv
  have hval := length_valueOf name rest
  have hle := templen_le rest
  rw [commaInside_iff, taken]
  by_cases hq : Quoted (valueOf name rest)
  · rw [if_pos hq]
    simp only [hq, forall_const]
    omega
  · rw [if_neg hq]
    simp only [hq, false_imp_iff, iff_true]
    omega

/-- When one round stays in front of the terminator. -/
theorem scanRound_within_iff (hnames : ∀ name ∈ names, (44 : UInt8) ∉ name)
    (hpos : Within text s) :
    (scanRound names text s).Meets (Within text) (EndsWithin text) ↔
      RoundFits names (text.drop s.pos) := by
  classical
  have hlen : (text.drop s.pos).length = text.length - s.pos := List.length_drop
  have hpos' : s.pos ≤ text.length := hpos
  rw [scanRound_of_drop hpos rfl]
  generalize text.drop s.pos = rest at hlen
  rw [RoundFits]
  cases hname : nameOf names rest with
  | none =>
    cases hfind : Search.find [44] rest with
    | none => exact iff_of_true ⟨s, rfl, hpos⟩ (.inl rfl)
    | some i =>
      rw [commaInside_iff, templen, hfind]
      simp only [reduceCtorEq, false_or, Option.getD_some]
      by_cases hi : i + 2 < 2 ^ 31
      · rw [asInt_of_lt hi]
        show s.pos + (i + 2) ≤ text.length ↔ _
        omega
      · rw [asInt_of_le (Nat.not_lt.mp hi)]
        exact iff_of_false (by rintro ⟨s', hs', -⟩; cases hs') (fun h => hi h.2)
  | some name =>
    have htest := testAt_known hnames hname
    by_cases hv : Readable name rest
    · rw [if_pos hv] at htest
      have htaken := taken_le_iff hnames hname hv.value
      simp only [htest, hv, true_and]
      rw [← htaken]
      have hmove : s.pos + (taken name rest).2 ≤ text.length ↔
          (taken name rest).2 ≤ rest.length := by omega
      split_ifs
      · exact ⟨by rintro ⟨s', ⟨⟩, hs'⟩; exact hmove.mp hs', fun hle => ⟨_, rfl, hmove.mpr hle⟩⟩
      · exact hmove
    · rw [if_neg hv] at htest
      simp only [htest]
      exact iff_of_false (by rintro ⟨s', hs', -⟩; cases hs') (fun hf => hv hf.1)

/-! ## Runs -/

/-- Every round takes the pointer on. -/
theorem scanRound_advances {s' : Scan} (h : scanRound names text s = .next s') :
    s.pos ≤ text.length ∧ s.pos < s'.pos := by
  rw [scanRound] at h
  split_ifs at h with hpos
  refine ⟨Nat.not_lt.mp hpos, ?_⟩
  simp only at h
  split at h
  · split at h
    · cases h
    · split_ifs at h with hlast
      rw [not_or] at hlast
      cases h
      exact Nat.lt_add_of_pos_right (Nat.pos_of_ne_zero hlast.2)
  · split at h
    · cases h
    · split at h
      · cases h
      next hint =>
        cases h
        obtain ⟨-, rfl⟩ := asInt_eq_some_iff.mp hint
        exact Nat.lt_add_of_pos_right (Nat.succ_pos _)

theorem run_scan (names : List Bytes) (text : Bytes) (fields : Bytes → Bytes) :
    ∃ r, run (scanRound names text) (text.length + 2) ⟨0, fields⟩ = some r := by
  refine run_of_measure (I := fun _ => True) (fun s => text.length + 1 - s.pos) trivial ?_ ?_
  · show text.length + 1 - 0 < text.length + 2
    omega
  · intro s s' _ h
    obtain ⟨hle, hlt⟩ := scanRound_advances h
    exact ⟨trivial, by omega⟩

/-- A loop ends after as many rounds as `scan` gives it. -/
theorem scan_eq_some_iff {fields : Bytes → Bytes} :
    scan names text fields = some s ↔ Returns (scanRound names text) ⟨0, fields⟩ (some s) := by
  obtain ⟨r, hr⟩ := run_scan names text fields
  have hret : Returns (scanRound names text) ⟨0, fields⟩ r := ⟨_, hr⟩
  rw [scan, hr]
  constructor
  · intro h
    cases r with
    | none => cases h
    | some s' => cases h; exact hret
  · intro h
    rw [hret.unique h]

/-- The loop ends, and neither when it ends nor at the head of a round does its pointer stand behind
the terminator. -/
def InBounds (names : List Bytes) (text : Bytes) : Prop :=
  ∀ fields, (∃ r, Returns (scanRound names text) ⟨0, fields⟩ r ∧ EndsWithin text r) ∧
    ∀ t, Reach (scanRound names text) ⟨0, fields⟩ t → Within text t

theorem inBounds_iff (hnames : ∀ name ∈ names, (44 : UInt8) ∉ name) :
    InBounds names text ↔
      ∀ fields t, Reach (scanRound names text) ⟨0, fields⟩ t → RoundFits names (text.drop t.pos) := by
  refine forall_congr' fun fields => ?_
  obtain ⟨r, hr⟩ := run_scan names text fields
  exact always_iff (Nat.zero_le _) ⟨r, _, hr⟩ fun t ht => scanRound_within_iff hnames ht

end HttpDigest

/-! ## The three loops -/

open CLib Loop HttpDigest

inductive DirectiveLoop where
  | digest
  | info
  | basic
  deriving DecidableEq, Repr

def DirectiveLoop.names : DirectiveLoop → List Bytes
  | .digest => HttpDigest.names
  | .info => HttpDigest.infoNames
  | .basic => HttpBasic.names

/-- Where a loop starts in the value of a header. -/
def DirectiveLoop.text (value : Bytes) : DirectiveLoop → Option Bytes
  | .digest => behindScheme (bytes "Digest ") value
  | .info => some (cstr value)
  | .basic => behindScheme (bytes "Basic ") value

theorem DirectiveLoop.comma_not_mem (l : DirectiveLoop) : ∀ name ∈ l.names, (44 : UInt8) ∉ name := by
  cases l <;> decide

/-- For each of the loops, and for every value of a header. -/
theorem directiveLoops_inBounds (l : DirectiveLoop) (value : Bytes) :
    (∀ text ∈ l.text value, InBounds l.names text) ↔
      ∀ text ∈ l.text value, ∀ fields t,
        Reach (scanRound l.names text) ⟨0, fields⟩ t → RoundFits l.names (text.drop t.pos) :=
  forall₂_congr fun _ _ => HttpDigest.inBounds_iff l.comma_not_mem

/-- A name at the end of a header. -/
theorem not_directiveLoops_inBounds :
    ¬ ∀ (l : DirectiveLoop) (value : Bytes), ∀ text ∈ l.text value, InBounds l.names text := by
  intro h
  obtain ⟨⟨r, hr, s, rfl, -⟩, -⟩ :=
    h .digest (bytes "Digest realm") (bytes "realm") (by decide) (fun _ => [])
  have hsome : scan HttpDigest.names (bytes "realm") (fun _ => []) = some s :=
    scan_eq_some_iff.mpr hr
  have hnone : scan HttpDigest.names (bytes "realm") (fun _ => []) = none := rfl
  exact Option.some_ne_none s (hsome.symm.trans hnone)

end Dframework
