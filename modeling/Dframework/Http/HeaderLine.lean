import Mathlib
import Dframework.Http.Header
import Dframework.Http.Round

/-!
# One header line of a response

`parseHeaderLine` takes the value two bytes behind the colon, whatever stands there. What it records
is the value when the white space around it is one byte in front.

Results:
1. `parseHeaderLine_eq`: what is recorded of a line.
2. `headerLine_iff`: when it is the value.
-/

namespace Dframework

open CLib

/-- White space around a value: blanks and tabs. -/
def IsOws (s : Bytes) : Prop :=
  ∀ c ∈ s, c = 32 ∨ c = 9

def Stripped (v : Bytes) : Prop :=
  (∀ c ∈ v.head?, c ≠ 32 ∧ c ≠ 9) ∧ ∀ c ∈ v.getLast?, c ≠ 32 ∧ c ≠ 9

/-- `name ':' OWS value OWS`, as it stands in `lineBuffer`. -/
structure HeaderField (line name front value back : Bytes) : Prop where
  line_eq : line = name ++ 58 :: (front ++ value ++ back)
  no_nul : (0 : UInt8) ∉ line
  name_no_colon : 58 ∉ name
  front_ows : IsOws front
  back_ows : IsOws back
  stripped : Stripped value

/-- `value` is recorded for `name`, and the typed headers are decided from it. -/
structure Recorded (round round' : HttpRound) (name value : Bytes) : Prop where
  header : getHeader round'.responseHeader name = some ⟨name, value⟩
  chunked : equals name (bytes "Transfer-Encoding") →
    round'.chunked = (round.chunked || equals value (bytes "chunked"))
  contentLength : equals name (bytes "Content-Length") →
    round'.contentLength = toSizeT (parseLong (toChars value))
  keepAlive : equals name (bytes "Connection") →
    round'.keepAlive = equals value (bytes "Keep-Alive")

/-- The white space that puts the value two bytes behind the colon. -/
def Aligned (front value back : Bytes) : Prop :=
  (value ≠ [] ∧ front.length = 1 ∧ back = []) ∨ (value = [] ∧ (front ++ back).length ≤ 1)

/-- A content type whose parts are taken from a value that is long enough for them. -/
def TypeOk (value : Bytes) : Prop :=
  match contentTypeExp.regexp (toChars value) with
  | .ok m => ∀ i ∈ [1, 2, 3, 4], m.Legible i
  | .error _ =>
    match contentTypeExp2.regexp (toChars value) with
    | .ok m => ∀ i ∈ [1, 2], m.Legible i
    | .error _ => True

/-- `patchHeader` does not follow `NULL`. -/
structure PatchOk (name value : Bytes) : Prop where
  type : equals name (bytes "Content-Type") → TypeOk value
  date : equals name (bytes "Last-Modified") ∨ equals name (bytes "Date") ∨
    equals name (bytes "Expires") → value ≠ []

variable {round round' : HttpRound} {line name front value back : Bytes}

/-! ## The white space -/

/-- What stands two bytes behind the colon is the value. -/
theorem drop_one_eq_iff (hback : IsOws back) (hvalue : Stripped value) :
    (front ++ value ++ back).drop 1 = value ↔ Aligned front value back := by
  rcases eq_or_ne value [] with rfl | hne
  · rw [List.append_nil, List.drop_eq_nil_iff]
    simp [Aligned]
  cases front with
  | nil =>
    refine iff_of_false (fun heq => ?_) (by simp [Aligned, hne])
    obtain ⟨c, t, rfl⟩ := List.exists_cons_of_ne_nil hne
    have heq' : t ++ back = c :: t := heq
    have hlen := congrArg List.length heq'
    rw [List.length_append, List.length_cons] at hlen
    obtain ⟨o, rfl⟩ := List.length_eq_one_iff.mp (show back.length = 1 by omega)
    -- the last byte of the value would be white space
    have hlast : o ∈ (c :: t).getLast? := by
      rw [← heq', List.getLast?_concat]
      rfl
    rcases hback o (List.mem_singleton_self o) with ho | ho
    · exact (hvalue.2 o hlast).1 ho
    · exact (hvalue.2 o hlast).2 ho
  | cons f fs =>
    have hdrop : (f :: fs ++ value ++ back).drop 1 = fs ++ (value ++ back) := by simp
    rw [hdrop]
    constructor
    · intro heq
      have hlen := congrArg List.length heq
      rw [List.length_append, List.length_append] at hlen
      have hfs : fs = [] := List.length_eq_zero_iff.mp (by omega)
      have hb : back = [] := List.length_eq_zero_iff.mp (by omega)
      exact .inl ⟨hne, by rw [hfs]; rfl, hb⟩
    · rintro (⟨-, hlen, rfl⟩ | ⟨hnil, -⟩)
      · rw [List.length_cons, Nat.succ_inj, List.length_eq_zero_iff] at hlen
        rw [hlen, List.nil_append, List.append_nil]
      · exact absurd hnil hne

/-! ## The line -/

theorem parseContentType_responseHeader {str : Option Bytes}
    (h : round.parseContentType str = some round') :
    round'.responseHeader = round.responseHeader := by
  unfold HttpRound.parseContentType at h
  split at h
  next =>
    obtain ⟨ctype, -, h⟩ := Option.bind_eq_some_iff.mp h
    obtain ⟨subType, -, h⟩ := Option.bind_eq_some_iff.mp h
    obtain ⟨_, -, h⟩ := Option.bind_eq_some_iff.mp h
    obtain ⟨charset, -, h⟩ := Option.bind_eq_some_iff.mp h
    cases h
    rfl
  next =>
    split at h
    next =>
      obtain ⟨ctype, -, h⟩ := Option.bind_eq_some_iff.mp h
      obtain ⟨subType, -, h⟩ := Option.bind_eq_some_iff.mp h
      cases h
      rfl
    next =>
      cases h
      rfl

/-- What follows from the answer of each branch follows from the answer. -/
theorem of_ite {c : Prop} [Decidable c] {x y : Option HttpRound} {P : Prop}
    (hx : x = some round' → P) (hy : y = some round' → P) :
    (if c then x else y) = some round' → P := by
  split
  · exact hx
  · exact hy

theorem patchHeader_responseHeader {name value : Bytes} :
    round.patchHeader name value = some round' →
      round'.responseHeader = round.responseHeader := by
  have hset : ∀ r : HttpRound, r.responseHeader = round.responseHeader →
      some r = some round' → round'.responseHeader = round.responseHeader :=
    fun r hr h => Option.some.inj h ▸ hr
  have hdate : (toChars value).map (fun _ => round) = some round' →
      round'.responseHeader = round.responseHeader := by
    intro h
    obtain ⟨_, -, rfl⟩ := Option.map_eq_some_iff.mp h
    rfl
  rw [HttpRound.patchHeader]
  refine of_ite (hset _ (by split <;> rfl)) (of_ite parseContentType_responseHeader ?_)
  refine of_ite hdate (of_ite hdate (of_ite hdate ?_))
  exact of_ite (hset _ rfl) (of_ite (hset _ rfl) (of_ite (hset _ rfl) (of_ite (hset _ rfl)
    (of_ite (hset _ rfl) (hset _ rfl)))))

/-- What `parseHeaderLine` makes of a line with a colon. -/
theorem parseHeaderLine_eq (h : HeaderField line name front value back)
    (hline : round.lineBuffer = line) :
    round.parseHeaderLine =
      (round.patchHeader name ((front ++ value ++ back).drop 1)).map fun round' =>
        let l := appendHeader round.responseHeader name ((front ++ value ++ back).drop 1)
        (none, { round' with responseHeader := l }) := by
  obtain ⟨rfl, h0, hcolon, -⟩ := h
  obtain ⟨rest, hrest⟩ : ∃ rest, rest = front ++ value ++ back := ⟨_, rfl⟩
  rw [← hrest] at h0 hline ⊢
  have h0n : (0 : UInt8) ∉ name := fun hmem => h0 (by simp [hmem])
  have h0r : (0 : UInt8) ∉ rest := fun hmem => h0 (by simp [hmem])
  have hne : name ++ 58 :: rest ≠ [] := by simp
  have hfind : strstr (name ++ 58 :: rest) [58] = some name.length :=
    strstr_char h0n hcolon (by decide) rest
  have hvalue : (if name.length + 1 < (name ++ 58 :: rest).length
      then cstr ((name ++ 58 :: rest).drop (name.length + 2)) else []) = rest.drop 1 := by
    have hdrop : (name ++ 58 :: rest).drop (name.length + 2) = rest.drop 1 := by
      rw [← List.drop_drop, List.drop_left]
      rfl
    rw [hdrop, cstr_of_not_mem fun hmem => h0r (List.mem_of_mem_drop hmem)]
    split_ifs with hlt
    · rfl
    · rw [List.length_append, List.length_cons] at hlt
      rw [List.drop_eq_nil_iff.mpr (by omega)]
  rw [HttpRound.parseHeaderLine, hline, toChars_of_ne_nil hne, Option.bind_eq_bind,
    Option.bind_some, hfind]
  simp only [List.take_left', hvalue]
  cases hp : round.patchHeader name (rest.drop 1) with
  | none => rfl
  | some round' =>
    rw [Option.map_some, ← patchHeader_responseHeader hp]
    rfl

/-! ## The typed headers -/

/-- A name is equal to one text only. -/
theorem not_equals {a b : Bytes} (hne : a ≠ []) (h : equals name a)
    (hab : (cstr a).map tolower ≠ (cstr b).map tolower) : ¬ equals name b := by
  have hname : name ≠ [] := by
    rintro rfl
    rw [equals, if_pos rfl, decide_eq_true_eq] at h
    exact hne h
  rw [equals, if_neg hname, decide_eq_true_eq] at h
  rw [equals, if_neg hname, decide_eq_true_eq, h]
  exact hab

theorem patchHeader_chunked (h : equals name (bytes "Transfer-Encoding"))
    (hp : round.patchHeader name value = some round') :
    round'.chunked = (round.chunked || equals value (bytes "chunked")) := by
  rw [HttpRound.patchHeader, if_pos h] at hp
  split_ifs at hp with hv
  · cases hp
    rw [hv, Bool.or_true]
  · cases hp
    rw [Bool.eq_false_iff.mpr hv, Bool.or_false]

theorem patchHeader_keepAlive (h : equals name (bytes "Connection"))
    (hp : round.patchHeader name value = some round') :
    round'.keepAlive = equals value (bytes "Keep-Alive") := by
  have hother : ∀ b, (cstr (bytes "Connection")).map tolower ≠ (cstr b).map tolower →
      ¬ equals name b := fun b => not_equals (by decide) h
  rw [HttpRound.patchHeader, if_neg (hother _ (by decide)), if_neg (hother _ (by decide)),
    if_neg (hother _ (by decide)), if_neg (hother _ (by decide)), if_neg (hother _ (by decide)),
    if_pos h, Option.some.injEq] at hp
  rw [← hp]

theorem patchHeader_contentLength (h : equals name (bytes "Content-Length"))
    (hp : round.patchHeader name value = some round') :
    round'.contentLength = toSizeT (parseLong (toChars value)) := by
  have hother : ∀ b, (cstr (bytes "Content-Length")).map tolower ≠ (cstr b).map tolower →
      ¬ equals name b := fun b => not_equals (by decide) h
  rw [HttpRound.patchHeader, if_neg (hother _ (by decide)), if_neg (hother _ (by decide)),
    if_neg (hother _ (by decide)), if_neg (hother _ (by decide)), if_neg (hother _ (by decide)),
    if_neg (hother _ (by decide)), if_neg (hother _ (by decide)), if_pos h,
    Option.some.injEq] at hp
  rw [← hp]

theorem parseContentType_isSome_iff (round : HttpRound) (value : Bytes) :
    (round.parseContentType (toChars value)).isSome ↔ TypeOk value := by
  rw [HttpRound.parseContentType, TypeOk]
  rcases hexp : contentTypeExp.regexp (toChars value) with e | m
  · rcases hexp2 : contentTypeExp2.regexp (toChars value) with e' | m
    · simp
    · have hgroup := getMatchString_isSome_iff (by decide) hexp2
      cases h₁ : m.getMatchString 1 <;> cases h₂ : m.getMatchString 2 <;> simp [← hgroup, h₁, h₂]
  · have hgroup := getMatchString_isSome_iff (by decide) hexp
    cases h₁ : m.getMatchString 1 <;> cases h₂ : m.getMatchString 2 <;>
      cases h₃ : m.getMatchString 3 <;> cases h₄ : m.getMatchString 4 <;>
      simp [← hgroup, h₁, h₂, h₃, h₄]

theorem patchHeader_isSome_iff (round : HttpRound) (name value : Bytes) :
    (round.patchHeader name value).isSome ↔ PatchOk name value := by
  have hchars : (toChars value).isSome ↔ value ≠ [] := by
    cases value <;> simp [toChars]
  by_cases htype : equals name (bytes "Content-Type")
  · have hother : ∀ b, (cstr (bytes "Content-Type")).map tolower ≠ (cstr b).map tolower →
        ¬ equals name b := fun b => not_equals (by decide) htype
    have hdates : ¬ (equals name (bytes "Last-Modified") ∨ equals name (bytes "Date") ∨
        equals name (bytes "Expires")) := by
      rintro (h | h | h)
      · exact hother _ (by decide) h
      · exact hother _ (by decide) h
      · exact hother _ (by decide) h
    rw [HttpRound.patchHeader, if_neg (hother _ (by decide)), if_pos htype,
      parseContentType_isSome_iff]
    exact ⟨fun h => ⟨fun _ => h, fun hd => absurd hd hdates⟩, fun h => h.type htype⟩
  by_cases hdate : equals name (bytes "Last-Modified") ∨ equals name (bytes "Date") ∨
      equals name (bytes "Expires")
  · have hchunked : ¬ equals name (bytes "Transfer-Encoding") := by
      rcases hdate with h | h | h
      · exact not_equals (by decide) h (by decide)
      · exact not_equals (by decide) h (by decide)
      · exact not_equals (by decide) h (by decide)
    have hpatch : round.patchHeader name value = (toChars value).map fun _ => round := by
      rw [HttpRound.patchHeader, if_neg hchunked, if_neg htype]
      rcases hdate with h | h | h
      · rw [if_pos h]
      · rw [if_pos h, ite_self]
      · rw [if_pos h, ite_self, ite_self]
    rw [hpatch, Option.isSome_map, hchars]
    exact ⟨fun h => ⟨fun ht => absurd ht htype, fun _ => h⟩, fun h => h.date hdate⟩
  · obtain ⟨hmodified, hd, hexpires⟩ : ¬ _ ∧ ¬ _ ∧ ¬ _ := by simpa only [not_or] using hdate
    refine iff_of_true ?_ ⟨fun ht => absurd ht htype, fun hd => absurd hd hdate⟩
    simp only [HttpRound.patchHeader, htype, hmodified, hd, hexpires, if_false, Bool.false_eq_true,
      apply_ite Option.isSome, Option.isSome_some, ite_self]

/-- The value is recorded exactly when the white space is one byte in front of it, or when there is no
value and at most one byte of white space, and `patchHeader` does not follow `NULL`. -/
theorem headerLine_iff (hs : List (Bytes × Bytes)) (h : HeaderField line name front value back)
    (hline : round.lineBuffer = line) (hround : round.responseHeader = appendAll hs) :
    (∃ ret round', round.parseHeaderLine = some (ret, round') ∧ Recorded round round' name value) ↔
      Aligned front value back ∧ PatchOk name value := by
  have hord : Ordered round.responseHeader := hround ▸ Ordered.appendAll hs
  have h0n : (0 : UInt8) ∉ name := fun hmem => h.no_nul (by rw [h.line_eq]; simp [hmem])
  have h0v : (0 : UInt8) ∉ front ++ value ++ back :=
    fun hmem => h.no_nul (by rw [h.line_eq]; exact List.mem_append_right _ (.tail _ hmem))
  rw [parseHeaderLine_eq h hline, ← drop_one_eq_iff h.back_ows h.stripped]
  constructor
  · rintro ⟨ret, round', hrun, hrec⟩
    obtain ⟨r, hp, hr⟩ := Option.map_eq_some_iff.mp hrun
    cases hr
    have hfound := hrec.header
    rw [getHeader_appendHeader hord, if_pos rfl, cstr_of_not_mem h0n,
      cstr_of_not_mem fun hmem => h0v (List.mem_of_mem_drop hmem)] at hfound
    simp only [Option.some.injEq, NamedValue.mk.injEq, true_and] at hfound
    refine ⟨hfound, ?_⟩
    rw [← patchHeader_isSome_iff round, ← hfound, hp]
    rfl
  · rintro ⟨hdrop, hok⟩
    rw [hdrop]
    rw [← patchHeader_isSome_iff round] at hok
    obtain ⟨r, hp⟩ := Option.isSome_iff_exists.mp hok
    have h0 : (0 : UInt8) ∉ value := fun hmem => h0v (by simp [hmem])
    refine ⟨_, _, congrArg _ hp, ?_, ?_, ?_, ?_⟩
    · show getHeader (appendHeader round.responseHeader name value) name = _
      rw [getHeader_appendHeader hord, if_pos rfl, cstr_of_not_mem h0n, cstr_of_not_mem h0]
    · exact fun hn => show r.chunked = _ from patchHeader_chunked hn hp
    · exact fun hn => show r.contentLength = _ from patchHeader_contentLength hn hp
    · exact fun hn => show r.keepAlive = _ from patchHeader_keepAlive hn hp

def roundOf (line : Bytes) : HttpRound :=
  { lineBuffer := line }

theorem contentLength_field (front : Bytes) (h : IsOws front) (h0 : (0 : UInt8) ∉ front) :
    HeaderField (bytes "Content-Length:" ++ front ++ bytes "5") (bytes "Content-Length") front
      (bytes "5") [] where
  line_eq := by simp [bytes]
  no_nul := by simp [bytes, h0]
  name_no_colon := by decide
  front_ows := h
  back_ows := fun _ hc => absurd hc List.not_mem_nil
  stripped := by simp [Stripped, bytes]

theorem headerLine_contentLength : ∃ ret round',
    (roundOf (bytes "Content-Length: 5")).parseHeaderLine = some (ret, round') ∧
      Recorded (roundOf (bytes "Content-Length: 5")) round' (bytes "Content-Length") (bytes "5") :=
  (headerLine_iff [] (contentLength_field [32] (by simp [IsOws]) (by decide)) rfl rfl).mpr
    ⟨.inl ⟨by decide, rfl, rfl⟩, ⟨fun h => absurd h (by decide), fun h => absurd h (by decide)⟩⟩

/-- Without white space the value loses its first byte. -/
theorem not_headerLine : ¬ ∀ (round : HttpRound) (line name front value back : Bytes),
    HeaderField line name front value back → round.lineBuffer = line →
      ∃ ret round', round.parseHeaderLine = some (ret, round') ∧
        Recorded round round' name value := by
  intro h
  have hfield := contentLength_field [] (by simp [IsOws]) List.not_mem_nil
  obtain ⟨ret, round', hrun, hrec⟩ := h (roundOf (bytes "Content-Length:5")) _ _ _ _ _ hfield rfl
  have hline : (roundOf (bytes "Content-Length:5")).parseHeaderLine = some (none,
      { roundOf (bytes "Content-Length:5") with
        responseHeader := [⟨bytes "Content-Length", []⟩] }) := by decide
  cases hrun.symm.trans hline
  exact absurd hrec.header (by decide)

end Dframework
