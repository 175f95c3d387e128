import Mathlib
import Dframework.Net.Uri

/-!
# Parsing the text of a URI

A network URI is `scheme://host[:port]/path[?query][#fragment]` and a file URI is
`file:///path[?query][#fragment]`. Both end with the same tail, and `___parse_path`
cuts it.

Results:
1. `NetUri.parse_enc`, `UriTail.parse_file`: `parse` finds scheme, host and port, and
   hands the tail to `___parse_path` unless the text behind the scheme is too short.
2. `NetUri.parse_components_iff`: when the fields are the components of the text.
-/

namespace Dframework

open CLib Pattern

/-! ## Texts -/

/-- A byte that is no NUL and no blank. -/
def isText (c : UInt8) : Bool := c != 0 && !isspace c

/-- `path[?query][#fragment]`, without the `/` in front of it. -/
structure UriTail where
  path : Bytes
  query : Option Bytes
  fragment : Option Bytes
  path_text : ∀ c ∈ path, isText c ∧ c ≠ 63 ∧ c ≠ 35
  query_text : ∀ q ∈ query, ∀ c ∈ q, isText c ∧ c ≠ 35
  fragment_text : ∀ f ∈ fragment, ∀ c ∈ f, isText c ∧ c ≠ 35

/-- A separator and what it introduces. -/
def introduced (c : UInt8) : Option Bytes → Bytes
  | none => []
  | some s => c :: s

def UriTail.enc (t : UriTail) : Bytes :=
  t.path ++ introduced 63 t.query ++ introduced 35 t.fragment

/-- A network URI. The scheme is not `file`, in any case of its letters, and the port is
a number from 1 to 65535. -/
structure NetUri extends UriTail where
  scheme : Bytes
  host : Bytes
  port : Option Bytes
  scheme_ne : scheme ≠ []
  scheme_text : ∀ c ∈ scheme, isText c ∧ c ≠ 58
  not_file : equals scheme (bytes "file") = false
  host_text : ∀ c ∈ host, isText c ∧ c ≠ 58 ∧ c ≠ 47 ∧ c ≠ 64
  port_digits : ∀ p ∈ port, ∀ c ∈ p, isDigit 10 c
  port_range : ∀ p ∈ port, 1 ≤ digitsVal 10 p ∧ digitsVal 10 p ≤ 65535

def NetUri.authority (u : NetUri) : Bytes := u.host ++ introduced 58 u.port

/-- The text behind `://`. -/
def NetUri.hp (u : NetUri) : Bytes := u.authority ++ 47 :: u.toUriTail.enc

def NetUri.enc (u : NetUri) : Bytes := u.scheme ++ bytes "://" ++ u.hp

/-- The number of the port, 0 when there is none. -/
def NetUri.portValue (u : NetUri) : Int := ((u.port.map (digitsVal 10)).getD 0 : Nat)

def UriTail.encFile (t : UriTail) : Bytes := bytes "file:///" ++ t.enc

namespace UriTextLemmas

/-! ## Bytes of a text -/

theorem isText_iff {c : UInt8} : isText c ↔ c ≠ 0 ∧ isspace c = false := by
  simp [isText]

theorem not_mem_zero {s : Bytes} (h : ∀ c ∈ s, isText c) : (0 : UInt8) ∉ s :=
  fun h0 => absurd (h 0 h0) (by decide)

theorem isBlank_of_isText {c : UInt8} (h : isText c) : isBlank c = false := by
  have hs := (isText_iff.mp h).2
  simp only [isspace, Bool.or_eq_false_iff, beq_eq_false_iff_ne, ne_eq, Bool.and_eq_false_iff,
    decide_eq_false_iff_not] at hs
  simp only [isBlank, Bool.or_eq_false_iff, beq_eq_false_iff_ne, ne_eq]
  refine ⟨⟨⟨hs.1, ?_⟩, ?_⟩, ?_⟩ <;> rintro rfl <;> revert hs <;> decide

theorem trim_of_text {s : Bytes} (h : ∀ c ∈ s, isText c) : trim s = s := by
  have hkeep : ∀ l : Bytes, (∀ c ∈ l, isText c) → l.dropWhile isBlank = l := by
    intro l hl
    cases l with
    | nil => rfl
    | cons c cs =>
      rw [List.dropWhile_cons, isBlank_of_isText (hl c List.mem_cons_self)]
      rfl
  rw [trim, hkeep s h, hkeep s.reverse fun c hc => h c (List.mem_reverse.mp hc),
    List.reverse_reverse]

theorem digit_text {c : UInt8} (h : isDigit 10 c) : isText c ∧ c ≠ 58 ∧ c ≠ 47 := by
  obtain ⟨v, hval, hlt⟩ := isDigit_iff.mp h
  have hx : isxdigit c := isDigit_iff.mpr ⟨v, hval, by omega⟩
  obtain ⟨h0, -, -, -, -, -, -, hspace⟩ := isxdigit_ne hx
  refine ⟨isText_iff.mpr ⟨h0, hspace⟩, ?_, ?_⟩ <;> rintro rfl <;> revert h <;> decide

theorem tail_text (t : UriTail) : ∀ c ∈ t.enc, isText c := by
  intro c hc
  simp only [UriTail.enc, List.mem_append] at hc
  rcases hc with (hc | hc) | hc
  · exact (t.path_text c hc).1
  · cases hq : t.query with
    | none => rw [hq] at hc; cases hc
    | some q =>
      rw [hq] at hc
      rcases List.mem_cons.mp hc with rfl | hc
      · decide
      · exact (t.query_text q hq c hc).1
  · cases hf : t.fragment with
    | none => rw [hf] at hc; cases hc
    | some f =>
      rw [hf] at hc
      rcases List.mem_cons.mp hc with rfl | hc
      · decide
      · exact (t.fragment_text f hf c hc).1

theorem authority_text (u : NetUri) : ∀ c ∈ u.authority, isText c ∧ c ≠ 47 := by
  intro c hc
  rcases List.mem_append.mp hc with hc | hc
  · exact ⟨(u.host_text c hc).1, (u.host_text c hc).2.2.1⟩
  · cases hp : u.port with
    | none => rw [hp] at hc; cases hc
    | some p =>
      rw [hp] at hc
      rcases List.mem_cons.mp hc with rfl | hc
      · decide
      · have hd := digit_text (u.port_digits p hp c hc)
        exact ⟨hd.1, hd.2.2⟩

/-- A text is cut at the first of a byte, if it has one. -/
theorem cut_cases (c : UInt8) (s : Bytes) : c ∉ s ∨ ∃ a t, s = a ++ c :: t ∧ c ∉ a := by
  by_cases h : c ∈ s
  · obtain ⟨a, t, rfl, ha⟩ := List.eq_append_cons_of_mem h
    exact .inr ⟨a, t, rfl, ha⟩
  · exact .inl h

/-! ## The two expressions -/

theorem nonSpace_of_isText {c : UInt8} (h : isText c) : nonSpace c := by
  rw [nonSpace, (isText_iff.mp h).2]
  rfl

theorem many_all (s : Bytes) : matchPieces [many (fun _ => true) 0] s = some [s.length] := by
  have h : matchPieces [many (fun _ => true) 0] (s ++ []) = some [s.length] :=
    matchPieces_greedy (fun _ _ => rfl) rfl (Nat.zero_le _) rfl
  rwa [List.append_nil] at h

theorem lit_cons (c : UInt8) (ps : List (Piece UInt8)) (s : Bytes) :
    matchPieces (lit c :: ps) (c :: s) = (matchPieces ps s).map (1 :: ·) := by
  have hc : (fun x : UInt8 => x == c) c = true := beq_self_eq_true c
  exact matchPieces_one hc

/-- A piece for a byte that does not come in the first part does not match there. -/
theorem lit_drop_none {c : UInt8} {a t : Bytes} {ps : List (Piece UInt8)} (h : c ∉ a) {k : Nat}
    (hk : k < a.length) : matchPieces (lit c :: ps) ((a ++ t).drop k) = none := by
  refine matchPieces_one_none fun x hx => ?_
  rw [List.head?_drop, List.getElem?_append_left hk, List.getElem?_eq_getElem hk] at hx
  simp only [beq_eq_false_iff_ne, ne_eq]
  rintro rfl
  exact h (Option.mem_some.mp hx ▸ List.getElem_mem hk)

/-- The match of `^([\S]+?)://([\s\S]*)$`. -/
theorem regexp_schemeExp {scheme rest : Bytes} (hne : scheme ≠ [])
    (hs : ∀ c ∈ scheme, isText c ∧ c ≠ 58) (hrest : ∀ c ∈ rest, isText c) :
    schemeExp.regexp (toChars (scheme ++ bytes "://" ++ rest)) =
      .ok ⟨scheme ++ bytes "://" ++ rest, [scheme.length, 1, 1, 1, rest.length],
        [(0, 5), (0, 1), (4, 5)]⟩ := by
  have hsplit : scheme ++ bytes "://" ++ rest = scheme ++ (58 :: 47 :: 47 :: rest) := by
    rw [List.append_assoc]
    rfl
  refine regexp_of_match ?_ (by simp [hne]) ?_
  · rw [hsplit]
    refine not_mem_zero fun c hc => ?_
    rcases List.mem_append.mp hc with hc | hc
    · exact (hs c hc).1
    · simp only [List.mem_cons] at hc
      rcases hc with rfl | rfl | rfl | hc
      · decide
      · decide
      · decide
      · exact hrest c hc
  · rw [hsplit]
    refine matchPieces_lazy (fun c hc => nonSpace_of_isText (hs c hc).1)
      (List.length_pos_of_ne_nil hne) ?_ fun k _ hk => lit_drop_none (fun h => (hs 58 h).2 rfl) hk
    rw [lit_cons, lit_cons, lit_cons, many_all]
    rfl

/-- The match of `^([\S]*?)([/]{1})([\s\S]*)`. -/
theorem regexp_hostExp {authority rest : Bytes} (ha : ∀ c ∈ authority, isText c ∧ c ≠ 47)
    (hrest : ∀ c ∈ rest, isText c) :
    hostExp.regexp (toChars (authority ++ 47 :: rest)) =
      .ok ⟨authority ++ 47 :: rest, [authority.length, 1, rest.length],
        [(0, 3), (0, 1), (1, 2), (2, 3)]⟩ := by
  refine regexp_of_match ?_ (by simp) ?_
  · refine not_mem_zero fun c hc => ?_
    rcases List.mem_append.mp hc with hc | hc
    · exact (ha c hc).1
    · rcases List.mem_cons.mp hc with rfl | hc
      · decide
      · exact hrest c hc
  · refine matchPieces_lazy (fun c hc => nonSpace_of_isText (ha c hc).1) (Nat.zero_le _) ?_
      fun k _ hk => lit_drop_none (fun h => (ha 47 h).2 rfl) hk
    rw [lit_cons, many_all]
    rfl

/-! ## Host and path -/

theorem parseInt_decimal {ds : Bytes} (hd : ∀ c ∈ ds, isDigit 10 c)
    (hv : digitsVal 10 ds < 2 ^ 31) : parseInt (some ds) = digitsVal 10 ds := by
  simp only [parseInt, strtol_decimal hd (hv.trans (by decide))]
  exact int_of_lt hv

section

variable {a f q s t : Bytes}

/-- A host without a port. -/
theorem parseHost_plain (v : Uri) (h0 : (0 : UInt8) ∉ s) (h47 : s.head? ≠ some 47)
    (h58 : (58 : UInt8) ∉ s) : v.parseHost (some s) = some { v with host := s } := by
  rw [Uri.parseHost]
  simp only [if_neg h47, lastIndexOf_none h58, if_true, cstr_of_not_mem h0]

/-- All in front of the last colon is the host. -/
theorem parseHost_colon (v : Uri) (h0 : (0 : UInt8) ∉ a ++ 58 :: t)
    (h47 : (a ++ 58 :: t).head? ≠ some 47) (h58 : (58 : UInt8) ∉ t) (hlen : a.length < 2 ^ 31) :
    v.parseHost (some (a ++ 58 :: t)) = some { v with host := a, port := parseInt (toChars t) } := by
  have hdrop : (a ++ 58 :: t).drop (a.length + 1) = t := by
    rw [← List.drop_drop, List.drop_left]
    rfl
  have ht0 : (0 : UInt8) ∉ t := fun h => h0 (by simp [h])
  rw [Uri.parseHost]
  simp only [if_neg h47, lastIndexOf_char h0 h58, int_of_lt hlen]
  rw [if_neg (by omega), if_neg (by omega), Int.toNat_natCast, List.take_left, hdrop,
    cstr_of_not_mem ht0]

/-- A colon that is overlooked stays in the host. -/
theorem parseHost_overlooked (v : Uri) (h0 : (0 : UInt8) ∉ a ++ 58 :: t)
    (h47 : (a ++ 58 :: t).head? ≠ some 47) (h58 : (58 : UInt8) ∉ t) (h : Overlooked a.length) :
    v.parseHost (some (a ++ 58 :: t)) = some { v with host := a ++ 58 :: t } := by
  rw [Uri.parseHost]
  simp only [if_neg h47, lastIndexOf_char h0 h58, overlooked_iff.mp h, if_true, cstr_of_not_mem h0]

/-- The index of another one is wrong: the host ends too early, or memory is read in front of it. -/
theorem parseHost_far (v : Uri) (h0 : (0 : UInt8) ∉ a ++ 58 :: t)
    (h47 : (a ++ 58 :: t).head? ≠ some 47) (h58 : (58 : UInt8) ∉ t) (hne : ¬ Overlooked a.length)
    (hlen : 2 ^ 31 ≤ a.length) :
    v.parseHost (some (a ++ 58 :: t)) = none ∨ ∃ i, i + 2 ^ 32 ≤ a.length ∧ ∃ port,
      v.parseHost (some (a ++ 58 :: t)) = some { v with host := a.take i, port } := by
  rw [Uri.parseHost]
  simp only [if_neg h47, lastIndexOf_char h0 h58, if_neg (overlooked_iff.not.mp hne)]
  rcases bmod_of_le hne hlen with hneg | ⟨i, hi, hlt, hle⟩
  · rw [if_pos (by omega)]
    exact .inl rfl
  · rw [hi, if_neg (by omega), Int.toNat_natCast, List.take_append_of_le_length (by omega)]
    exact .inr ⟨i, hle, _, rfl⟩

/-- Of the fields only host and port change. -/
theorem parseHost_keeps {v w : Uri} {str : Option Bytes} (h : v.parseHost str = some w) :
    ∃ host port, w = { v with host, port } := by
  cases str with
  | none => exact ⟨_, _, (Option.some.inj h).symm⟩
  | some s =>
    rw [Uri.parseHost] at h
    by_cases h47 : s.head? = some 47
    · rw [if_pos h47] at h
      exact ⟨_, _, (Option.some.inj h).symm⟩
    · rw [if_neg h47] at h
      dsimp only at h
      split_ifs at h <;> exact ⟨_, _, (Option.some.inj h).symm⟩

theorem authority_head (u : NetUri) : u.authority.head? ≠ some 47 := fun h =>
  (authority_text u 47 (List.mem_of_mem_head? h)).2 rfl

theorem authority_zero (u : NetUri) : (0 : UInt8) ∉ u.authority :=
  not_mem_zero fun c hc => (authority_text u c hc).1

theorem authority_none {u : NetUri} (h : u.port = none) : u.authority = u.host := by
  rw [NetUri.authority, h, introduced, List.append_nil]

theorem authority_some {u : NetUri} {p : Bytes} (h : u.port = some p) :
    u.authority = u.host ++ 58 :: p := by
  rw [NetUri.authority, h, introduced]

theorem colon_not_mem_port {u : NetUri} {p : Bytes} (h : u.port = some p) : (58 : UInt8) ∉ p :=
  fun hmem => (digit_text (u.port_digits p h 58 hmem)).2.1 rfl

theorem parsePort {u : NetUri} {p : Bytes} (h : u.port = some p) :
    parseInt (toChars p) = u.portValue := by
  have hrange := u.port_range p h
  have hne : p ≠ [] := by
    rintro rfl
    exact absurd hrange.1 (by decide)
  rw [toChars_of_ne_nil hne,
    parseInt_decimal (u.port_digits p h) (show digitsVal 10 p < 2 ^ 31 by omega), NetUri.portValue, h,
    Option.map_some, Option.getD_some]

/-- Host and port are found when the colon between them is. -/
theorem parseHost_authority (u : NetUri) (v : Uri) (hport : v.port = 0)
    (hlen : u.port ≠ none → u.host.length < 2 ^ 31) :
    v.parseHost (toChars u.authority) = some { v with host := u.host, port := u.portValue } := by
  have hcolon : (58 : UInt8) ∉ u.host := fun h => (u.host_text 58 h).2.1 rfl
  have h0 := authority_zero u
  have hhead := authority_head u
  cases hp : u.port with
  | none =>
    have hvalue : u.portValue = v.port := by rw [hport, NetUri.portValue, hp]; rfl
    rw [authority_none hp] at h0 hhead ⊢
    by_cases hnil : u.host = []
    · rw [hnil, hvalue]
      rfl
    · rw [toChars_of_ne_nil hnil, parseHost_plain v h0 hhead hcolon, hvalue]
  | some p =>
    rw [authority_some hp] at h0 hhead ⊢
    rw [toChars_of_ne_nil (by simp), parseHost_colon v h0 hhead (colon_not_mem_port hp)
      (hlen (by simp [hp])), parsePort hp]

/-! ## Path and query -/

/-- A path that needs no cut. -/
theorem parsePath_plain (v : Uri) (h0 : (0 : UInt8) ∉ s) (hq : (63 : UInt8) ∉ s) :
    v.parsePath s = some { v with path := s } := by
  rw [Uri.parsePath]
  simp only [indexOf_none (by decide) hq, if_true, cstr_of_not_mem h0]

/-- A path that is cut at its first `?`. -/
theorem parsePath_near (v : Uri) (h0 : (0 : UInt8) ∉ a) (ha : (63 : UInt8) ∉ a)
    (hlen : a.length < 2 ^ 31) (p : Bytes) :
    v.parsePath (a ++ 63 :: p) = ({ v with path := a } : Uri).parseQuery p := by
  have hdrop : (a ++ 63 :: p).drop (a.length + 1) = p := by
    rw [← List.drop_drop, List.drop_left]
    rfl
  rw [Uri.parsePath]
  simp only [indexOf_char (by decide) h0 ha, int_of_lt hlen]
  rw [if_neg (by omega), if_neg (by omega), Int.toNat_natCast, List.take_left, hdrop]

/-- A `?` that is overlooked stays in the path. -/
theorem parsePath_overlooked (v : Uri) {p : Bytes} (h0 : (0 : UInt8) ∉ a ++ 63 :: p)
    (ha : (63 : UInt8) ∉ a) (h : Overlooked a.length) :
    v.parsePath (a ++ 63 :: p) = some { v with path := a ++ 63 :: p } := by
  rw [Uri.parsePath]
  simp only [indexOf_char (by decide) (fun hmem => h0 (List.mem_append_left _ hmem)) ha,
    overlooked_iff.mp h, if_true, cstr_of_not_mem h0]

/-- The index of another one is wrong: the path ends too early, or memory is read in front of it. -/
theorem parsePath_far (v : Uri) (h0 : (0 : UInt8) ∉ a) (ha : (63 : UInt8) ∉ a)
    (hne : ¬ Overlooked a.length) (hlen : 2 ^ 31 ≤ a.length) (p : Bytes) :
    v.parsePath (a ++ 63 :: p) = none ∨ ∃ i, i + 2 ^ 32 ≤ a.length ∧ v.parsePath (a ++ 63 :: p) =
      ({ v with path := a.take i } : Uri).parseQuery (a.drop (i + 1) ++ 63 :: p) := by
  rw [Uri.parsePath]
  simp only [indexOf_char (by decide) h0 ha, if_neg (overlooked_iff.not.mp hne)]
  rcases bmod_of_le hne hlen with hneg | ⟨i, hi, hlt, hle⟩
  · rw [if_pos (by omega)]
    exact .inl rfl
  · rw [hi, if_neg (by omega), Int.toNat_natCast, List.take_append_of_le_length (by omega),
      List.drop_append_of_le_length (by omega)]
    exact .inr ⟨i, hle, rfl⟩

/-- Behind the `?` nothing changes but query and fragment. -/
theorem parseQuery_keeps {v w : Uri} (h : v.parseQuery s = some w) :
    ∃ query fragment, w = { v with query, fragment } := by
  rw [Uri.parseQuery] at h
  split_ifs at h
  · exact ⟨_, _, (Option.some.inj h).symm⟩
  · exact ⟨_, _, (Option.some.inj h).symm⟩
  · obtain ⟨f, -, hw⟩ := Option.bind_eq_some_iff.mp h
    exact ⟨_, _, (Option.some.inj hw).symm⟩

/-- The fields in front of the path are kept. -/
structure SameFront (v w : Uri) : Prop where
  scheme_eq : w.scheme = v.scheme
  host_eq : w.host = v.host
  port_eq : w.port = v.port
  user_eq : w.user = v.user
  pass_eq : w.pass = v.pass

theorem parsePath_keeps {v w : Uri} (h : v.parsePath s = some w) : SameFront v w := by
  rw [Uri.parsePath] at h
  split_ifs at h
  · obtain rfl := Option.some.inj h
    exact ⟨rfl, rfl, rfl, rfl, rfl⟩
  · obtain ⟨query, fragment, rfl⟩ := parseQuery_keeps h
    exact ⟨rfl, rfl, rfl, rfl, rfl⟩

/-- A query with no fragment behind it. -/
theorem parseQuery_plain (v : Uri) (h0 : (0 : UInt8) ∉ q) (hq : (35 : UInt8) ∉ q) :
    v.parseQuery q = some { v with query := q } := by
  rw [Uri.parseQuery]
  simp only [indexOf_none (by decide) hq, if_true, cstr_of_not_mem h0]

/-- Behind a query the fragment is taken from the start of the query on, as many bytes as the
query has and one more behind it. They are there when the fragment is long enough. -/
theorem parseQuery_near (v : Uri) (h0 : (0 : UInt8) ∉ q) (hq : (35 : UInt8) ∉ q)
    (hlen : q.length < 2 ^ 31) (f : Bytes) :
    v.parseQuery (q ++ 35 :: f) =
      if q.length ≤ f.length + 1 then
        some { v with query := q, fragment := q ++ 35 :: (f ++ [0]).take q.length }
      else none := by
  have htake : (q ++ 35 :: f ++ [0]).take (q.length + q.length + 1) =
      q ++ 35 :: (f ++ [0]).take q.length := by
    rw [List.append_assoc, List.cons_append, Nat.add_assoc, List.take_length_add_append,
      List.take_succ_cons]
  have hmem : (q ++ 35 :: f ++ [0]).length = q.length + (f.length + 1) + 1 := by
    simp only [List.length_append, List.length_cons, List.length_nil]
  rw [Uri.parseQuery]
  simp only [indexOf_char (by decide) h0 hq, int_of_lt hlen]
  rw [if_neg (by omega), if_neg (by omega), Int.toNat_natCast, List.take_left, setChars,
    if_neg (Nat.succ_ne_zero _)]
  by_cases hfits : q.length ≤ f.length + 1
  · rw [if_pos hfits]
    simp only [if_pos (show q.length + q.length + 1 ≤ (q ++ 35 :: f ++ [0]).length by omega), htake]
    rfl
  · rw [if_neg hfits]
    simp only [if_neg (show ¬ q.length + q.length + 1 ≤ (q ++ 35 :: f ++ [0]).length by omega)]
    rfl

/-- A `#` that is overlooked stays in the query. -/
theorem parseQuery_overlooked (v : Uri) (h0 : (0 : UInt8) ∉ q ++ 35 :: f)
    (hq : (35 : UInt8) ∉ q) (h : Overlooked q.length) :
    v.parseQuery (q ++ 35 :: f) = some { v with query := q ++ 35 :: f } := by
  rw [Uri.parseQuery]
  simp only [indexOf_char (by decide) (fun hmem => h0 (List.mem_append_left _ hmem)) hq,
    overlooked_iff.mp h, if_true, cstr_of_not_mem h0]

/-- The index of another one is wrong: nothing is taken, or the query ends too early. -/
theorem parseQuery_far {v w : Uri} (h0 : (0 : UInt8) ∉ q) (hq : (35 : UInt8) ∉ q)
    (hne : ¬ Overlooked q.length) (hlen : 2 ^ 31 ≤ q.length)
    (h : v.parseQuery (q ++ 35 :: f) = some w) :
    w = { v with query := [], fragment := [] } ∨ ∃ i, i < 2 ^ 31 ∧ i + 2 ^ 32 ≤ q.length ∧
      w = { v with query := q.take i, fragment := (q ++ 35 :: f ++ [0]).take (i + i + 1) } := by
  rw [Uri.parseQuery] at h
  simp only [indexOf_char (by decide) h0 hq, if_neg (overlooked_iff.not.mp hne)] at h
  rcases bmod_of_le hne hlen with hneg | ⟨i, hi, hlt, hle⟩
  · rw [if_pos (by omega)] at h
    exact .inl (Option.some.inj h).symm
  · rw [hi, if_neg (by omega), Int.toNat_natCast, List.take_append_of_le_length (by omega)] at h
    obtain ⟨fragment, hset, hw⟩ := Option.bind_eq_some_iff.mp h
    rw [setChars, if_neg (Nat.succ_ne_zero _)] at hset
    split_ifs at hset
    obtain rfl := Option.some.inj hset
    exact .inr ⟨i, hlt, hle, (Option.some.inj hw).symm⟩

end

/-! ## `parse` -/

/-- The match of `hostExp` against a text with an authority. -/
abbrev hostMatch (authority rest : Bytes) : Match :=
  ⟨authority ++ 47 :: rest, [authority.length, 1, rest.length], [(0, 3), (0, 1), (1, 2), (2, 3)]⟩

/-- `parse` of a text with a scheme comes to `___parseHostAndPath` with the text behind it. -/
theorem parse_scheme_hp {scheme hp : Bytes} (hne : scheme ≠ [])
    (hs : ∀ c ∈ scheme, isText c ∧ c ≠ 58) (hhpne : hp ≠ []) (hhptext : ∀ c ∈ hp, isText c) :
    Uri.parse (scheme ++ bytes "://" ++ hp) =
      ({ uri := scheme ++ bytes "://" ++ hp, scheme } : Uri).parseHostAndPath (some hp) := by
  have htext : ∀ c ∈ scheme ++ bytes "://" ++ hp, isText c := by
    intro c hc
    simp only [List.mem_append] at hc
    rcases hc with (hc | hc) | hc
    · exact (hs c hc).1
    · revert c
      decide +kernel
    · exact hhptext c hc
  have hlen : scheme.length + 3 + hp.length = (scheme ++ bytes "://" ++ hp).length := by
    simp only [List.length_append]
    rfl
  have hpos := List.length_pos_of_ne_nil hne
  have hpos' := List.length_pos_of_ne_nil hhpne
  have hscheme := getMatchString_eq
    (m := ⟨scheme ++ bytes "://" ++ hp, [scheme.length, 1, 1, 1, hp.length],
      [(0, 5), (0, 1), (4, 5)]⟩) (i := 1) (a := []) (b := scheme) (c := bytes "://" ++ hp) rfl
    (by simp) rfl (by simp) (by simp only; omega)
  have hrest' := getMatchString_eq
    (m := ⟨scheme ++ bytes "://" ++ hp, [scheme.length, 1, 1, 1, hp.length],
      [(0, 5), (0, 1), (4, 5)]⟩) (i := 2) (a := scheme ++ bytes "://") (b := hp) (c := []) rfl
    (by simp) (by simp only [List.length_append]; simp [bytes]) (by simp) (by simp only; omega)
  rw [Uri.parse]
  simp only [cstr_of_not_mem (not_mem_zero htext), trim_of_text htext]
  rw [if_neg (by simp [hne]), regexp_schemeExp hne hs hhptext]
  simp only [hscheme, hrest', Option.bind_eq_bind, Option.bind_some, toChars_of_ne_nil hhpne]

/-- With a slash in it, it comes to `___parse_HP`. -/
theorem parse_scheme {scheme authority rest : Bytes} (hne : scheme ≠ [])
    (hs : ∀ c ∈ scheme, isText c ∧ c ≠ 58) (ha : ∀ c ∈ authority, isText c ∧ c ≠ 47)
    (hrest : ∀ c ∈ rest, isText c) :
    Uri.parse (scheme ++ bytes "://" ++ (authority ++ 47 :: rest)) =
      (({ uri := scheme ++ bytes "://" ++ (authority ++ 47 :: rest), scheme } : Uri).parseHp
        (hostMatch authority rest) (some (authority ++ 47 :: rest))).map (none, ·) := by
  have hhpne : authority ++ 47 :: rest ≠ [] := by simp
  have hhptext : ∀ c ∈ authority ++ 47 :: rest, isText c := by
    intro c hc
    rcases List.mem_append.mp hc with hc | hc
    · exact (ha c hc).1
    · rcases List.mem_cons.mp hc with rfl | hc
      · decide
      · exact hrest c hc
  rw [parse_scheme_hp hne hs hhpne hhptext, Uri.parseHostAndPath, ← toChars_of_ne_nil hhpne,
    regexp_hostExp ha hrest]

variable {authority rest : Bytes}

/-- The host is read from a match of more than two bytes. -/
theorem hostMatch_host (h : 2 < (authority ++ 47 :: rest).length) :
    (hostMatch authority rest).getMatchString 1 = some authority :=
  getMatchString_eq (a := []) (c := 47 :: rest) rfl (by simp) rfl (by simp) h

theorem hostMatch_slash : (hostMatch authority rest).getMatchLength 2 = 1 := by
  simp [Match.getMatchLength]

theorem hostMatch_length : (hostMatch authority rest).getMatchLength 3 = rest.length := by
  simp [Match.getMatchLength]

theorem hostMatch_start : (hostMatch authority rest).start 3 = some (authority.length + 1) := by
  simp [Match.start]

theorem hostMatch_getMatch (h : 6 < (authority ++ 47 :: rest).length) :
    (hostMatch authority rest).getMatch 3 = some rest := by
  rw [Match.getMatch, if_pos h, hostMatch_start, Option.map_some]
  rw [← List.drop_drop, List.drop_left]
  rfl

theorem hostMatch_getMatch_none (h : (authority ++ 47 :: rest).length ≤ 6) :
    (hostMatch authority rest).getMatch 3 = none :=
  if_neg (by simp only; omega)

/-- The path of a network scheme, when the match is long enough for its third group. -/
theorem parseHpFileScheme_net {v : Uri} (hv : equals v.scheme (bytes "file") = false)
    (str : Option Bytes) (host slash : Bytes) (hne : rest ≠ [])
    (h : 6 < (authority ++ 47 :: rest).length) :
    v.parseHpFileScheme (hostMatch authority rest) 3 str host slash =
      some (host, 47 :: rest) := by
  have hlen : ¬ rest.length = 0 := List.length_eq_zero_iff.not.mpr hne
  simp only [Uri.parseHpFileScheme, hostMatch_length, hv, Bool.false_eq_true, if_false, hlen,
    hostMatch_getMatch h, hostMatch_start, List.drop_left]
  rw [setChars, if_neg (Nat.succ_ne_zero _)]
  simp

/-- On a shorter match `NULL` is read. -/
theorem parseHpFileScheme_short {v : Uri} (hv : equals v.scheme (bytes "file") = false)
    (str : Option Bytes) (host slash : Bytes) (hne : rest ≠ [])
    (h : (authority ++ 47 :: rest).length ≤ 6) :
    v.parseHpFileScheme (hostMatch authority rest) 3 str host slash = none := by
  have hlen : ¬ rest.length = 0 := List.length_eq_zero_iff.not.mpr hne
  simp only [Uri.parseHpFileScheme, hostMatch_length, hv, Bool.false_eq_true, if_false, hlen,
    hostMatch_getMatch_none h]

theorem parseHpFileScheme_bare {v : Uri} (hv : equals v.scheme (bytes "file") = false)
    (str : Option Bytes) (host slash : Bytes) :
    v.parseHpFileScheme (hostMatch authority []) 3 str host slash = some (host, []) := by
  simp [Uri.parseHpFileScheme, hostMatch_length, hv]

/-- The path of the `file` scheme. On a short match the end of the first group stands in
for the start of the third. -/
theorem parseHpFileScheme_file {v : Uri} (hv : equals v.scheme (bytes "file") = true)
    (h0 : (0 : UInt8) ∉ rest) :
    v.parseHpFileScheme (hostMatch [] rest) 3 (some (47 :: rest)) [] [47] =
      some ([], 47 :: rest) := by
  have hfile : cstr [] ++ cstr [47] ++ cstr rest = 47 :: rest := by rw [cstr_of_not_mem h0]; rfl
  by_cases hne : rest = []
  · subst hne
    simp only [Uri.parseHpFileScheme, hostMatch_length, hv, if_true, List.length_nil,
      Option.bind_eq_bind, Option.bind_some, hfile]
  have hlen : ¬ rest.length = 0 := List.length_eq_zero_iff.not.mpr hne
  rcases Nat.lt_or_ge 6 ([] ++ 47 :: rest).length with h | h
  · have hset : setChars (some rest) rest.length = some rest := by
      rw [setChars, if_neg hlen]
      simp
    simp only [Uri.parseHpFileScheme, hostMatch_length, hv, if_true, if_neg hlen,
      hostMatch_getMatch h, hset, Option.bind_eq_bind, Option.bind_some, hfile]
  · have hoff : (hostMatch [] rest).getOffset 3 = some 0 := by
      simp [Match.getOffset, Match.stop]
    simp only [Uri.parseHpFileScheme, hostMatch_length, hv, if_true, if_neg hlen,
      hostMatch_getMatch_none h, hoff, List.cons_ne_nil, if_false]
    rw [if_pos (by simp)]
    simp only [Nat.zero_add, List.drop_succ_cons, List.drop_zero, Option.bind_eq_bind,
      Option.bind_some, cstr_of_not_mem h0]
    rw [← hfile, cstr_of_not_mem h0]

end UriTextLemmas

open UriTextLemmas

/-- What `parse` has of a network URI before its host. -/
def NetUri.origin (u : NetUri) : Uri where
  uri := u.enc
  scheme := u.scheme

/-- What `parse` knows of a network URI in front of its path. -/
def NetUri.front (u : NetUri) : Uri where
  uri := u.enc
  scheme := u.scheme
  host := u.host
  port := u.portValue

/-- The text behind the scheme of a network URI comes to `___parse_host` and `___parse_path` when
it has more than six bytes. -/
theorem NetUri.parse_enc (u : NetUri) (hne : u.toUriTail.enc ≠ []) (h : 6 < u.hp.length) :
    Uri.parse u.enc = ((u.origin.parseHost (toChars u.authority)).bind
      fun v => v.parsePath (47 :: u.toUriTail.enc)).map (none, ·) := by
  have hslash : ¬ (hostMatch u.authority u.toUriTail.enc).getMatchLength 2 = 0 := by
    rw [hostMatch_slash]
    decide
  rw [NetUri.origin, NetUri.enc, NetUri.hp,
    parse_scheme u.scheme_ne u.scheme_text (authority_text u) (tail_text _), Uri.parseHp,
    hostMatch_host (by rw [NetUri.hp] at h; omega)]
  simp only [Option.bind_eq_bind, Option.bind_some, if_neg hslash,
    parseHpFileScheme_net (v := ⟨_, u.scheme, [], 0, [], [], [], [], []⟩) u.not_file _ _ _ hne h]

/-- The colon of the port is found. -/
def NetUri.PortNear (u : NetUri) : Prop :=
  u.port ≠ none → u.host.length < 2 ^ 31

/-- A network URI comes to `___parse_path` with its host and its port. -/
theorem NetUri.parse_near (u : NetUri) (hne : u.toUriTail.enc ≠ []) (h : 6 < u.hp.length)
    (hnear : u.PortNear) :
    Uri.parse u.enc = (u.front.parsePath (47 :: u.toUriTail.enc)).map (none, ·) := by
  rw [u.parse_enc hne h, parseHost_authority u u.origin rfl hnear]
  rfl

/-- A shorter one is read through `NULL`. -/
theorem NetUri.parse_enc_short (u : NetUri) (hne : u.toUriTail.enc ≠ []) (h : u.hp.length ≤ 6) :
    Uri.parse u.enc = none := by
  rw [NetUri.enc, NetUri.hp, parse_scheme u.scheme_ne u.scheme_text (authority_text u) (tail_text _),
    Uri.parseHp]
  cases (hostMatch u.authority u.toUriTail.enc).getMatchString 1 with
  | none => rfl
  | some host =>
    simp only [Option.bind_eq_bind, Option.bind_some,
      parseHpFileScheme_short (v := ⟨_, u.scheme, [], 0, [], [], [], [], []⟩) u.not_file _ _ _ hne h]
    rfl

/-- What `parse` knows of a file URI in front of its path. -/
def UriTail.front (t : UriTail) : Uri where
  uri := t.encFile
  scheme := bytes "file"

structure NetUri.Components (u : NetUri) (v : Uri) : Prop where
  scheme_eq : v.scheme = u.scheme
  host_eq : v.host = u.host
  port_eq : v.port = u.portValue
  path_eq : v.path = 47 :: u.path
  query_eq : v.query = u.query.getD []
  fragment_eq : v.fragment = u.fragment.getD []

namespace UriTextLemmas

variable {t : UriTail}

theorem path_not_mem (t : UriTail) : (63 : UInt8) ∉ 47 :: t.path ∧ (35 : UInt8) ∉ 47 :: t.path := by
  refine ⟨fun h => ?_, fun h => ?_⟩ <;> rcases List.mem_cons.mp h with h | h
  · exact absurd h (by decide)
  · exact (t.path_text 63 h).2.1 rfl
  · exact absurd h (by decide)
  · exact (t.path_text 35 h).2.2 rfl

theorem slash_enc_zero (t : UriTail) : (0 : UInt8) ∉ 47 :: t.enc := by
  rw [List.mem_cons, not_or]
  exact ⟨by decide, not_mem_zero (tail_text t)⟩

theorem query_zero {q : Bytes} (h : t.query = some q) : (0 : UInt8) ∉ q :=
  not_mem_zero fun c hc => (t.query_text q h c hc).1

theorem query_not_mem {q : Bytes} (h : t.query = some q) : (35 : UInt8) ∉ q :=
  fun hmem => (t.query_text q h 35 hmem).2 rfl

/-- Without a fragment the path and the query are found. -/
theorem parsePath_no_fragment (v : Uri) (hq : v.query = []) (hf : t.fragment = none)
    (hlen : t.query ≠ none → (47 :: t.path).length < 2 ^ 31) :
    v.parsePath (47 :: t.enc) =
      some { v with path := 47 :: t.path, query := t.query.getD [] } := by
  have h0 := slash_enc_zero t
  obtain ⟨hno, -⟩ := path_not_mem t
  cases hquery : t.query with
  | none =>
    have henc : t.enc = t.path := by simp [UriTail.enc, introduced, hquery, hf]
    rw [henc] at h0 ⊢
    rw [parsePath_plain v h0 hno, Option.getD_none, ← hq]
  | some q =>
    have henc : 47 :: t.enc = (47 :: t.path) ++ 63 :: q := by
      simp [UriTail.enc, introduced, hquery, hf]
    rw [henc] at h0 ⊢
    rw [parsePath_near v (fun h => h0 (List.mem_append_left _ h)) hno (hlen (by simp [hquery])),
      parseQuery_plain _ (query_zero hquery) (query_not_mem hquery)]
    rfl

/-- The fields behind the authority are the components of the tail. -/
structure TailComponents (t : UriTail) (v : Uri) : Prop where
  path_eq : v.path = 47 :: t.path
  query_eq : v.query = t.query.getD []
  fragment_eq : v.fragment = t.fragment.getD []

variable {v w : Uri}

/-- A fragment with no query in front of it stays in the path, or it is taken for a query. -/
theorem not_components_fragment (hquery : t.query = none) {f : Bytes}
    (hf : t.fragment = some f) (hw : v.parsePath (47 :: t.enc) = some w) : ¬ TailComponents t w := by
  intro hcomp
  have h0 := slash_enc_zero t
  obtain ⟨hno, -⟩ := path_not_mem t
  have hlen := congrArg List.length hcomp.path_eq
  have henc : 47 :: t.enc = (47 :: t.path) ++ 35 :: f := by
    simp [UriTail.enc, introduced, hquery, hf]
  have hfree : ∀ {a : Bytes}, 63 ∉ a → (63 : UInt8) ∉ (47 :: t.path) ++ 35 :: a := by
    intro a ha h
    rcases List.mem_append.mp h with h | h
    · exact hno h
    · rcases List.mem_cons.mp h with h | h
      · exact absurd h (by decide)
      · exact ha h
  rw [henc] at h0 hw
  by_cases hmark : (63 : UInt8) ∈ f
  · obtain ⟨a, b, rfl, ha⟩ := List.eq_append_cons_of_mem hmark
    have hsplit : (47 :: t.path) ++ 35 :: (a ++ 63 :: b) = (47 :: t.path ++ 35 :: a) ++ 63 :: b := by
      simp
    rw [hsplit] at h0 hw
    have h0' : (0 : UInt8) ∉ 47 :: t.path ++ 35 :: a := fun h => h0 (List.mem_append_left _ h)
    by_cases hover : Overlooked (47 :: t.path ++ 35 :: a).length
    · rw [parsePath_overlooked v h0 (hfree ha) hover] at hw
      obtain rfl := Option.some.inj hw
      simp at hlen
    rcases Nat.lt_or_ge (47 :: t.path ++ 35 :: a).length (2 ^ 31) with hshort | hlong
    · rw [parsePath_near v h0' (hfree ha) hshort] at hw
      obtain ⟨query, fragment, rfl⟩ := parseQuery_keeps hw
      simp at hlen
    rcases parsePath_far v h0' (hfree ha) hover hlong b with hnone | ⟨i, hi, hfar⟩
    · rw [hnone] at hw
      cases hw
    -- cut by chance where the fragment begins, the text behind it is a query
    rw [hfar] at hw
    obtain ⟨query, fragment, hkeep⟩ := parseQuery_keeps hw
    have hi' : i = (47 :: t.path).length := by
      rw [hkeep] at hlen
      simp only [List.length_take] at hlen
      omega
    have hdrop : (47 :: t.path ++ 35 :: a).drop (i + 1) = a := by
      rw [hi', ← List.drop_drop, List.drop_left]
      rfl
    have hmem : ∀ c ∈ a ++ 63 :: b, isText c ∧ c ≠ 35 := t.fragment_text _ hf
    rw [hdrop, parseQuery_plain _ (not_mem_zero fun c hc => (hmem c hc).1)
      fun h => (hmem 35 h).2 rfl] at hw
    obtain rfl := Option.some.inj hw
    have hnil := hcomp.query_eq
    rw [hquery] at hnil
    simp at hnil
  · rw [parsePath_plain v h0 (hfree hmark)] at hw
    obtain rfl := Option.some.inj hw
    simp at hlen

/-- A fragment behind a query is read from the start of the query on, or not at all. -/
theorem not_components_both {q f : Bytes} (hquery : t.query = some q) (hf : t.fragment = some f)
    (hw : v.parseQuery (q ++ 35 :: f) = some w) : ¬ TailComponents t w := by
  intro hcomp
  have hq0 := query_zero hquery
  have hq := query_not_mem hquery
  have hlen := congrArg List.length hcomp.query_eq
  rw [hquery, Option.getD_some] at hlen
  by_cases hover : Overlooked q.length
  · have hf0 : (0 : UInt8) ∉ q ++ 35 :: f := by
      simp only [List.mem_append, List.mem_cons, not_or]
      exact ⟨hq0, by decide, not_mem_zero fun c hc => (t.fragment_text f hf c hc).1⟩
    rw [parseQuery_overlooked v hf0 hq hover] at hw
    obtain rfl := Option.some.inj hw
    simp at hlen
  rcases Nat.lt_or_ge q.length (2 ^ 31) with hshort | hlong
  · rw [parseQuery_near v hq0 hq hshort] at hw
    split_ifs at hw
    obtain rfl := Option.some.inj hw
    -- what is taken for the fragment has the separator in it
    have hmem : (35 : UInt8) ∈ f := by
      have := hcomp.fragment_eq
      rw [hf, Option.getD_some] at this
      rw [← this]
      simp
    exact (t.fragment_text f hf 35 hmem).2 rfl
  · rcases parseQuery_far hq0 hq hover hlong hw with rfl | ⟨i, -, hi, rfl⟩
    · simp only [List.length_nil] at hlen
      omega
    · simp only [List.length_take] at hlen
      omega

/-- Only a path that is cut at its `?` is that of the text. -/
theorem path_near_of_components {p : Bytes}
    (henc : 47 :: t.enc = (47 :: t.path) ++ 63 :: p) (hw : v.parsePath (47 :: t.enc) = some w)
    (hcomp : TailComponents t w) :
    (47 :: t.path).length < 2 ^ 31 ∧ ({ v with path := 47 :: t.path } : Uri).parseQuery p = some w := by
  have h0 := slash_enc_zero t
  obtain ⟨hno, -⟩ := path_not_mem t
  have hlen := congrArg List.length hcomp.path_eq
  rw [henc] at h0 hw
  have h0' : (0 : UInt8) ∉ 47 :: t.path := fun h => h0 (List.mem_append_left _ h)
  by_cases hover : Overlooked (47 :: t.path).length
  · rw [parsePath_overlooked v h0 hno hover] at hw
    obtain rfl := Option.some.inj hw
    simp at hlen
  rcases Nat.lt_or_ge (47 :: t.path).length (2 ^ 31) with hshort | hlong
  · rw [parsePath_near v h0' hno hshort] at hw
    exact ⟨hshort, hw⟩
  rcases parsePath_far v h0' hno hover hlong p with hnone | ⟨i, hi, hfar⟩
  · rw [hnone] at hw
    cases hw
  · rw [hfar] at hw
    obtain ⟨query, fragment, rfl⟩ := parseQuery_keeps hw
    simp only [List.length_take] at hlen
    omega

/-- `___parse_path` finds the components of the tail. -/
theorem tail_components_iff (hvq : v.query = []) (hvf : v.fragment = []) :
    (∃ w, v.parsePath (47 :: t.enc) = some w ∧ TailComponents t w) ↔
      t.fragment = none ∧ (t.query ≠ none → (47 :: t.path).length < 2 ^ 31) := by
  constructor
  · rintro ⟨w, hw, hcomp⟩
    cases hquery : t.query with
    | none =>
      refine ⟨?_, fun h => absurd rfl h⟩
      by_contra hsome
      obtain ⟨f, hf⟩ := Option.ne_none_iff_exists'.mp hsome
      exact not_components_fragment hquery hf hw hcomp
    | some q =>
      have henc : 47 :: t.enc = (47 :: t.path) ++ 63 :: (q ++ introduced 35 t.fragment) := by
        simp [UriTail.enc, introduced, hquery]
      obtain ⟨hshort, hw'⟩ := path_near_of_components henc hw hcomp
      refine ⟨?_, fun _ => hshort⟩
      by_contra hsome
      obtain ⟨f, hf⟩ := Option.ne_none_iff_exists'.mp hsome
      rw [hf] at hw'
      exact not_components_both hquery hf hw' hcomp
  · rintro ⟨hf, hlen⟩
    refine ⟨_, parsePath_no_fragment v hvq hf hlen, rfl, rfl, ?_⟩
    rw [hf]
    exact hvf

/-- Host and port are the components exactly when the colon between them is found. -/
theorem host_components_iff (u : NetUri) {w : Uri}
    (hw : u.origin.parseHost (toChars u.authority) = some w) (hhost : w.host = u.host) :
    u.PortNear := by
  intro hport
  obtain ⟨p, hp⟩ := Option.ne_none_iff_exists'.mp hport
  have h0 := authority_zero u
  have hhead := authority_head u
  have hlen := congrArg List.length hhost
  rw [authority_some hp] at h0 hhead hw
  rw [toChars_of_ne_nil (by simp)] at hw
  by_contra hlong
  by_cases hover : Overlooked u.host.length
  · rw [parseHost_overlooked _ h0 hhead (colon_not_mem_port hp) hover] at hw
    obtain rfl := Option.some.inj hw
    simp at hlen
  rcases parseHost_far u.origin h0 hhead (colon_not_mem_port hp) hover (not_lt.mp hlong) with
    hnone | ⟨i, hi, port, hsome⟩
  · rw [hnone] at hw
    cases hw
  · rw [hsome] at hw
    obtain rfl := Option.some.inj hw
    simp only [List.length_take] at hlen
    omega

end UriTextLemmas

/-- `parse` finds the components of a network URI exactly when it has no fragment and more than six
bytes behind its scheme, and its port and its query are where an `int` can point. -/
theorem NetUri.parse_components_iff (u : NetUri) (hpath : u.path ≠ []) :
    (∃ v, Uri.parse u.enc = some (none, v) ∧ u.Components v) ↔
      u.fragment = none ∧ 6 < u.hp.length ∧ u.PortNear ∧
        (u.query ≠ none → (47 :: u.path).length < 2 ^ 31) := by
  have hne : u.toUriTail.enc ≠ [] := by simp [UriTail.enc, hpath]
  constructor
  · rintro ⟨v, hparse, hv⟩
    have hlong : 6 < u.hp.length := by
      by_contra hshort
      rw [u.parse_enc_short hne (not_lt.mp hshort)] at hparse
      cases hparse
    rw [u.parse_enc hne hlong] at hparse
    obtain ⟨w, hw, hwv⟩ := Option.map_eq_some_iff.mp hparse
    obtain ⟨-, rfl⟩ := Prod.mk.inj hwv
    obtain ⟨front, hfront, hw⟩ := Option.bind_eq_some_iff.mp hw
    have hkeep := parsePath_keeps hw
    have hnear := host_components_iff u hfront (hkeep.host_eq.symm.trans hv.host_eq)
    rw [parseHost_authority u u.origin rfl hnear] at hfront
    obtain rfl := Option.some.inj hfront
    obtain ⟨hf, hquery⟩ := (tail_components_iff (t := u.toUriTail) rfl rfl).mp
      ⟨w, hw, hv.path_eq, hv.query_eq, hv.fragment_eq⟩
    exact ⟨hf, hlong, hnear, hquery⟩
  · rintro ⟨hf, hlong, hnear, hquery⟩
    refine ⟨_, by rw [u.parse_near hne hlong hnear, parsePath_no_fragment u.front rfl hf hquery]; rfl, ?_⟩
    exact ⟨rfl, rfl, rfl, rfl, rfl, by rw [hf]; rfl⟩

/-! ## A text with a fragment and one without -/

/-- `/b?q#f` -/
def exTail : UriTail where
  path := bytes "b"
  query := some (bytes "q")
  fragment := some (bytes "f")
  path_text := by decide +kernel
  query_text := by decide +kernel
  fragment_text := by decide +kernel

/-- `http://host/b?q#f` -/
def exNet : NetUri where
  toUriTail := exTail
  scheme := bytes "http"
  host := bytes "host"
  port := none
  scheme_ne := by decide
  scheme_text := by decide +kernel
  not_file := by decide
  host_text := by decide +kernel
  port_digits := by decide
  port_range := by decide

/-- The fragment of `http://host/b?q#f` is read as `q#f`. -/
theorem parse_components_shifted : ¬ ∃ v, Uri.parse exNet.enc = some (none, v) ∧ exNet.Components v := by
  rintro ⟨v, hparse, hv⟩
  have hrun : (Uri.parse exNet.enc).map (fun r => r.2.fragment) = some (bytes "q#f") := by decide
  rw [hparse] at hrun
  have heq := hv.fragment_eq.symm.trans (Option.some.inj hrun)
  exact absurd heq (by decide)

/-- `http://host:80/b?q` -/
def exKept : NetUri where
  toUriTail := { exTail with fragment := none, fragment_text := by simp }
  scheme := bytes "http"
  host := bytes "host"
  port := some (bytes "80")
  scheme_ne := by decide
  scheme_text := by decide +kernel
  not_file := by decide
  host_text := by decide +kernel
  port_digits := by decide +kernel
  port_range := by decide +kernel

theorem parse_components_exKept : ∃ v, Uri.parse exKept.enc = some (none, v) ∧ exKept.Components v :=
  (exKept.parse_components_iff (by decide)).mpr
    ⟨rfl, by decide, fun _ => by decide, fun _ => by decide⟩

end Dframework
