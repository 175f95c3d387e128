import Mathlib
import Dframework.Util.ArraySorted
import Dframework.Util.Regexp

/-!
# `HttpRound`: the lines of a response head

A round holds what is known of one response: the bytes that have been received and
not been read, the line that was read last, and what the status line and the header
lines say. A function has no result when it reads through `NULL`.

Results:
1. `readLine_line`: the line that is read is the first one.
2. `parseStatusLine_enc`: the version and the status of a status line.
3. `parseHeaderLine_recv`: what a header line says does not depend on the bytes that
   are saved, and they stay.
4. `parseHeaderLine_isSome`: whether a header line is read through `NULL` depends on
   the line alone.
-/

namespace Dframework

open CLib Pattern

/-- The part of `HttpRound` that the head of a response and the readers of its body
use. -/
structure HttpRound where
  majorVersion : Int := 0
  minorVersion : Int := 0
  status : Int := 0
  statusMsg : Bytes := []
  contentTypeLine : Bytes := []
  contentType : Bytes := []
  contentSubType : Bytes := []
  charset : Bytes := []
  chunked : Bool := false
  keepAlive : Bool := false
  contentLength : Nat := 0
  location : Bytes := []
  server : Bytes := []
  responseHeader : List NamedValue := []
  recvBuffer : Bytes := []
  lineBuffer : Bytes := []
  deriving DecidableEq, Repr

def HttpRound.readLine (round : HttpRound) : Retval × HttpRound :=
  match (toChars round.recvBuffer).bind (strstr · CRLF) with
  | none => (retval .error, { round with lineBuffer := [] })
  | some size =>
    (none, { round with
      lineBuffer := round.recvBuffer.take size
      recvBuffer := round.recvBuffer.drop (size + 2) })

/-- `^HTTP/([0-9]+)\.([0-9]+) ([0-9]+)`. -/
def statusExp : Regexp where
  pieces := (bytes "HTTP/").map lit ++ [many isDigitChar 1, lit 46, many isDigitChar 1, lit 32,
    many isDigitChar 1]
  groups := [(5, 6), (7, 8), (9, 10)]

def HttpRound.parseStatusLine (round : HttpRound) : Option (Retval × HttpRound) :=
  match statusExp.regexp (toChars round.lineBuffer) with
  | .error e => some (some e, round)
  | .ok m => do
    let r_maj ← m.getMatchString 1
    let r_min ← m.getMatchString 2
    let r_status ← m.getMatchString 3
    return (none, { round with
      majorVersion := parseInt (toChars r_maj)
      minorVersion := parseInt (toChars r_min)
      status := parseInt (toChars r_status)
      statusMsg := cstr (round.lineBuffer.drop (m.getMatchLength 0)) })

/-- The class `\s` of an expression. -/
def isSpaceChar (c : UInt8) : Bool := isspace c

/-- The class `[a-zA-Z0-9-_"'\s]`. -/
def isCharsetChar (c : UInt8) : Bool :=
  isAlnum c || c == 45 || c == 95 || c == 34 || c == 39 || isspace c

/-- `^[\s]*([a-zA-Z0-9]*)[\s]*/[\s]*([a-zA-Z0-9]*)[\s]*;[\s]*([a-zA-Z0-9]*)[\s]*=([a-zA-Z0-9-_"'\s]*)`. -/
def contentTypeExp : Regexp where
  pieces := [many isSpaceChar 0, many isAlnum 0, many isSpaceChar 0, lit 47, many isSpaceChar 0,
    many isAlnum 0, many isSpaceChar 0, lit 59, many isSpaceChar 0, many isAlnum 0,
    many isSpaceChar 0, lit 61, many isCharsetChar 0]
  groups := [(1, 2), (5, 6), (9, 10), (12, 13)]

/-- `^[\s]*([a-zA-Z0-9]*)/([a-zA-Z0-9]*)[\s]*`. -/
def contentTypeExp2 : Regexp where
  pieces := [many isSpaceChar 0, many isAlnum 0, lit 47, many isAlnum 0, many isSpaceChar 0]
  groups := [(1, 2), (3, 4)]

/-- `HttpRound::parseContentType`. The parameter's name is not looked at. -/
def HttpRound.parseContentType (round : HttpRound) (str : Option Bytes) : Option HttpRound :=
  let round := { round with contentTypeLine := cstr (str.getD []) }
  match contentTypeExp.regexp str with
  | .ok m => do
    let ctype ← m.getMatchString 1
    let subType ← m.getMatchString 2
    let _ ← m.getMatchString 3
    let charset ← m.getMatchString 4
    return { round with contentType := ctype, contentSubType := subType, charset := charset }
  | .error _ =>
    match contentTypeExp2.regexp str with
    | .ok m => do
      let ctype ← m.getMatchString 1
      let subType ← m.getMatchString 2
      return { round with contentType := ctype, contentSubType := subType }
    | .error _ => some round

/-- `HttpRound::patchHeader`. Of the three dates only the text is used: `Time::parse`
reads it with `sscanf`, which reads through a `NULL`. -/
def HttpRound.patchHeader (round : HttpRound) (name value : Bytes) : Option HttpRound :=
  if equals name (bytes "Transfer-Encoding") then
    some (if equals value (bytes "chunked") then { round with chunked := true } else round)
  else if equals name (bytes "Content-Type") then
    round.parseContentType (toChars value)
  else if equals name (bytes "Last-Modified") then
    (toChars value).map fun _ => round
  else if equals name (bytes "Date") then
    (toChars value).map fun _ => round
  else if equals name (bytes "Expires") then
    (toChars value).map fun _ => round
  else if equals name (bytes "Connection") then
    some { round with keepAlive := equals value (bytes "Keep-Alive") }
  else if equals name (bytes "Keep-Alive") then
    some round
  else if equals name (bytes "Content-Length") then
    some { round with contentLength := toSizeT (parseLong (toChars value)) }
  else if equals name (bytes "Location") then
    some { round with location := value }
  else if equals name (bytes "Server") then
    some { round with server := value }
  else
    some round

/-- `HttpRound::parseHeaderLine`, for a line that is not empty. The value starts two
bytes behind the first colon. -/
def HttpRound.parseHeaderLine (round : HttpRound) : Option (Retval × HttpRound) := do
  let p ← toChars round.lineBuffer
  match strstr p [58] with
  | none => return (retval .error, round)
  | some depth =>
    let name := p.take depth
    let value := if depth + 1 < round.lineBuffer.length then cstr (p.drop (depth + 2)) else []
    let round ← round.patchHeader name value
    return (none, { round with responseHeader := appendHeader round.responseHeader name value })

/-! ## Lines -/

/-- A line of a head: no NUL, and no CRLF in it. -/
def IsLine (l : Bytes) : Prop :=
  (0 : UInt8) ∉ l ∧ Search.find CRLF l = none

theorem eq_of_toChars {s p : Bytes} (h : toChars s = some p) : s = p := by
  rw [← toChars_getD s, h, Option.getD_some]

/-- `readLine` without a complete line. -/
theorem readLine_none {round : HttpRound} (h : strstr round.recvBuffer CRLF = none) :
    round.readLine = (retval .error, { round with lineBuffer := [] }) := by
  have hnone : (toChars round.recvBuffer).bind (strstr · CRLF) = none := by
    unfold toChars
    split
    · rfl
    · simpa using h
  simp only [HttpRound.readLine, hnone]

/-- `readLine` hands the first line out and keeps what follows it. -/
theorem readLine_line {round : HttpRound} {l t : Bytes} (hl : IsLine l)
    (h : round.recvBuffer = l ++ CRLF ++ t) :
    round.readLine = (none, { round with lineBuffer := l, recvBuffer := t }) := by
  have hne : round.recvBuffer ≠ [] := by simp [h, CRLF]
  have hsome : (toChars round.recvBuffer).bind (strstr · CRLF) = some l.length := by
    rw [toChars_of_ne_nil hne, h]
    exact strstr_crlf_line hl.1 hl.2 t
  have hdrop : round.recvBuffer.drop (l.length + 2) = t := by
    rw [h]
    exact List.drop_left' (by simp [CRLF])
  have htake : round.recvBuffer.take l.length = l := by
    rw [h, List.append_assoc, List.take_left]
  simp only [HttpRound.readLine, hsome, hdrop, htake]

/-- The line `readLine` hands out, and what it keeps. -/
theorem readLine_fields {round round' : HttpRound} (h : round.readLine = (none, round')) :
    ∃ size, strstr round.recvBuffer CRLF = some size ∧
      round' = { round with
        lineBuffer := round.recvBuffer.take size
        recvBuffer := round.recvBuffer.drop (size + 2) } := by
  unfold HttpRound.readLine at h
  split at h
  next => cases h
  next size hsize =>
    obtain ⟨p, hp, hfound⟩ := Option.bind_eq_some_iff.mp hsize
    obtain rfl := eq_of_toChars hp
    exact ⟨size, hfound, (congrArg Prod.snd h).symm⟩

theorem readLine_failed {round round' : HttpRound} {e : Ret}
    (h : round.readLine = (some e, round')) :
    strstr round.recvBuffer CRLF = none ∧ round' = { round with lineBuffer := [] } := by
  unfold HttpRound.readLine at h
  split at h
  next hnone =>
    refine ⟨?_, (congrArg Prod.snd h).symm⟩
    cases hb : round.recvBuffer with
    | nil => rfl
    | cons x xs => rwa [hb, toChars_of_ne_nil (List.cons_ne_nil x xs)] at hnone
  next => cases h

/-! ## The status line -/

/-- A status line. The text behind the status starts with something else than a digit. -/
structure StatusLine where
  major : Bytes
  minor : Bytes
  code : Bytes
  msg : Bytes
  major_digits : ∀ c ∈ major, isDigitChar c
  major_ne : major ≠ []
  minor_digits : ∀ c ∈ minor, isDigitChar c
  minor_ne : minor ≠ []
  code_digits : ∀ c ∈ code, isDigitChar c
  code_ne : code ≠ []
  msg_stop : msg.takeWhile isDigitChar = []
  msg_line : IsLine msg

def StatusLine.enc (s : StatusLine) : Bytes :=
  bytes "HTTP/" ++ s.major ++ [46] ++ s.minor ++ [32] ++ s.code ++ s.msg

namespace RoundLemmas

theorem digit_ne {c : UInt8} (h : isDigitChar c) : c ≠ 0 ∧ c ≠ 13 ∧ c ≠ 46 ∧ c ≠ 32 := by
  refine ⟨?_, ?_, ?_, ?_⟩ <;> (rintro rfl; revert h; decide)

theorem digits_not_mem {ds : Bytes} (h : ∀ c ∈ ds, isDigitChar c) :
    (0 : UInt8) ∉ ds ∧ (13 : UInt8) ∉ ds :=
  ⟨fun hm => (digit_ne (h _ hm)).1 rfl, fun hm => (digit_ne (h _ hm)).2.1 rfl⟩

theorem enc_not_mem_zero (s : StatusLine) : (0 : UInt8) ∉ s.enc := by
  have h1 := (digits_not_mem s.major_digits).1
  have h2 := (digits_not_mem s.minor_digits).1
  have h3 := (digits_not_mem s.code_digits).1
  have h4 := s.msg_line.1
  have h5 : (0 : UInt8) ∉ bytes "HTTP/" := by decide
  simp [StatusLine.enc, h1, h2, h3, h4, h5]

end RoundLemmas

open RoundLemmas

/-- The pieces of the status expression take the parts of a status line. -/
theorem matchPieces_statusExp (s : StatusLine) :
    matchPieces statusExp.pieces s.enc =
      some ([1, 1, 1, 1, 1] ++ [s.major.length, 1, s.minor.length, 1, s.code.length]) := by
  have hstop : ∀ (x : UInt8) (t : Bytes), isDigitChar x = false →
      (x :: t).takeWhile isDigitChar = [] := by
    intro x t hx
    rw [List.takeWhile_cons, if_neg (by simp [hx])]
  have hcode : matchPieces [many isDigitChar 1] (s.code ++ s.msg) = some [s.code.length] :=
    matchPieces_greedy s.code_digits s.msg_stop (List.length_pos_of_ne_nil s.code_ne) rfl
  have hblank : matchPieces [lit 32, many isDigitChar 1] (32 :: (s.code ++ s.msg)) =
      some [1, s.code.length] := by
    rw [lit, matchPieces_one (by rfl), hcode]
    rfl
  have hminor := matchPieces_greedy s.minor_digits (hstop 32 (s.code ++ s.msg) (by decide))
    (List.length_pos_of_ne_nil s.minor_ne) hblank
  have hdot : matchPieces [lit 46, many isDigitChar 1, lit 32, many isDigitChar 1]
      (46 :: (s.minor ++ 32 :: (s.code ++ s.msg))) =
      some [1, s.minor.length, 1, s.code.length] := by
    rw [lit, matchPieces_one (by rfl), hminor]
    rfl
  have hmajor := matchPieces_greedy s.major_digits
    (hstop 46 (s.minor ++ 32 :: (s.code ++ s.msg)) (by decide))
    (List.length_pos_of_ne_nil s.major_ne) hdot
  have henc : s.enc = 72 :: 84 :: 84 :: 80 :: 47 ::
      (s.major ++ 46 :: (s.minor ++ 32 :: (s.code ++ s.msg))) := by
    simp [StatusLine.enc, bytes]
  have hpieces : statusExp.pieces = lit 72 :: lit 84 :: lit 84 :: lit 80 :: lit 47 ::
      [many isDigitChar 1, lit 46, many isDigitChar 1, lit 32, many isDigitChar 1] := rfl
  rw [henc, hpieces]
  simp only [lit] at hmajor ⊢
  rw [matchPieces_one (by rfl), matchPieces_one (by rfl), matchPieces_one (by rfl),
    matchPieces_one (by rfl), matchPieces_one (by rfl), hmajor]
  rfl

theorem StatusLine.enc_isLine (s : StatusLine) : IsLine s.enc := by
  refine ⟨enc_not_mem_zero s, ?_⟩
  have hfree : (13 : UInt8) ∉ bytes "HTTP/" ++ s.major ++ [46] ++ s.minor ++ [32] ++ s.code := by
    have h1 := (digits_not_mem s.major_digits).2
    have h2 := (digits_not_mem s.minor_digits).2
    have h3 := (digits_not_mem s.code_digits).2
    have h4 : (13 : UInt8) ∉ bytes "HTTP/" := by decide
    simp [h1, h2, h3, h4]
  rw [StatusLine.enc]
  refine Search.find_eq_none_iff.mpr fun i hi hp => ?_
  rcases Nat.lt_or_ge i (bytes "HTTP/" ++ s.major ++ [46] ++ s.minor ++ [32] ++ s.code).length
    with h | h
  · -- a CRLF cannot start at a byte that is no CR
    rw [List.drop_append_of_le_length h.le] at hp
    obtain ⟨x, xs, hx⟩ := List.exists_cons_of_ne_nil
      (List.ne_nil_of_length_pos (show 0 < ((bytes "HTTP/" ++ s.major ++ [46] ++ s.minor ++ [32] ++
        s.code).drop i).length by rw [List.length_drop]; omega))
    rw [hx, CRLF, List.cons_append, List.cons_prefix_cons] at hp
    refine hfree (hp.1 ▸ List.mem_of_mem_drop (i := i) ?_)
    rw [hx]
    exact List.mem_cons_self
  · rw [List.drop_append, List.drop_eq_nil_of_le h, List.nil_append] at hp
    refine Search.find_eq_none_iff.mp s.msg_line.2 _ ?_ hp
    rw [List.length_append] at hi
    omega

theorem StatusLine.enc_ne_nil (s : StatusLine) : s.enc ≠ [] := by
  simp [StatusLine.enc, bytes]

theorem StatusLine.enc_length (s : StatusLine) : s.enc.length =
    5 + s.major.length + 1 + s.minor.length + 1 + s.code.length + s.msg.length := by
  simp [StatusLine.enc, bytes]
  omega

/-- What a status line says. -/
theorem parseStatusLine_enc (s : StatusLine) {round : HttpRound} (h : round.lineBuffer = s.enc) :
    round.parseStatusLine = some (none, { round with
      majorVersion := parseInt (some s.major)
      minorVersion := parseInt (some s.minor)
      status := parseInt (some s.code)
      statusMsg := s.msg }) := by
  have hmajor := List.length_pos_of_ne_nil s.major_ne
  have hminor := List.length_pos_of_ne_nil s.minor_ne
  have hcode := List.length_pos_of_ne_nil s.code_ne
  have hlen := s.enc_length
  set m : Match := ⟨s.enc, [1, 1, 1, 1, 1] ++ [s.major.length, 1, s.minor.length, 1, s.code.length],
    [(0, 10), (5, 6), (7, 8), (9, 10)]⟩ with hm
  have hmatch : statusExp.regexp (toChars round.lineBuffer) = .ok m := by
    rw [h]
    exact regexp_of_match (enc_not_mem_zero s) s.enc_ne_nil (matchPieces_statusExp s)
  have h1 : m.getMatchString 1 = some s.major :=
    getMatchString_eq (a := bytes "HTTP/") (c := [46] ++ s.minor ++ [32] ++ s.code ++ s.msg) rfl
      (by simp [hm, StatusLine.enc]) rfl (by simp [hm]) (by simp only [hm]; omega)
  have h2 : m.getMatchString 2 = some s.minor :=
    getMatchString_eq (a := bytes "HTTP/" ++ s.major ++ [46]) (c := [32] ++ s.code ++ s.msg) rfl
      (by simp [hm, StatusLine.enc]) (by simp [hm, bytes]; omega) (by simp [hm])
      (by simp only [hm]; omega)
  have h3 : m.getMatchString 3 = some s.code :=
    getMatchString_eq (a := bytes "HTTP/" ++ s.major ++ [46] ++ s.minor ++ [32]) (c := s.msg) rfl
      (by simp [hm, StatusLine.enc]) (by simp [hm, bytes]; omega) (by simp [hm])
      (by simp only [hm]; omega)
  have hmsg : cstr (round.lineBuffer.drop (m.getMatchLength 0)) = s.msg := by
    have h0 : m.getMatchLength 0 =
        (bytes "HTTP/" ++ s.major ++ [46] ++ s.minor ++ [32] ++ s.code).length := by
      simp [hm, Match.getMatchLength, bytes]
      omega
    rw [h, h0, StatusLine.enc, List.drop_left, cstr_of_not_mem s.msg_line.1]
  rw [HttpRound.parseStatusLine, hmatch]
  simp only [h1, h2, h3, hmsg, toChars_of_ne_nil s.major_ne, toChars_of_ne_nil s.minor_ne,
    toChars_of_ne_nil s.code_ne, Option.bind_eq_bind, Option.bind_some, Option.pure_def]

/-! ## Header lines -/

/-- What `parseHeaderLine` reads through `NULL` at. -/
def HeaderOk (l : Bytes) : Prop :=
  (HttpRound.parseHeaderLine { lineBuffer := l }).isSome

instance (l : Bytes) : Decidable (HeaderOk l) :=
  inferInstanceAs (Decidable (_ = true))

theorem parseContentType_recv (round : HttpRound) (str : Option Bytes) (b : Bytes) :
    HttpRound.parseContentType { round with recvBuffer := b } str =
      (round.parseContentType str).map fun r => { r with recvBuffer := b } := by
  unfold HttpRound.parseContentType
  split
  next m _ =>
    cases m.getMatchString 1 <;> cases m.getMatchString 2 <;> cases m.getMatchString 3 <;>
      cases m.getMatchString 4 <;> rfl
  next =>
    split
    next m _ => cases m.getMatchString 1 <;> cases m.getMatchString 2 <;> rfl
    next => rfl

theorem parseContentType_location {round round' : HttpRound} {str : Option Bytes}
    (h : round.parseContentType str = some round') : round'.location = round.location := by
  unfold HttpRound.parseContentType at h
  split at h
  next m _ =>
    cases h1 : m.getMatchString 1 <;> cases h2 : m.getMatchString 2 <;>
      cases h3 : m.getMatchString 3 <;> cases h4 : m.getMatchString 4 <;>
      simp only [h1, h2, h3, h4, Option.bind_eq_bind, Option.bind_none, Option.bind_some,
        Option.pure_def, reduceCtorEq, Option.some.injEq] at h
    exact h ▸ rfl
  next =>
    split at h
    next m _ =>
      cases h1 : m.getMatchString 1 <;> cases h2 : m.getMatchString 2 <;>
        simp only [h1, h2, Option.bind_eq_bind, Option.bind_none, Option.bind_some,
          Option.pure_def, reduceCtorEq, Option.some.injEq] at h
      exact h ▸ rfl
    next => exact Option.some.inj h ▸ rfl

theorem patchHeader_recv (round : HttpRound) (name value b : Bytes) :
    HttpRound.patchHeader { round with recvBuffer := b } name value =
      (round.patchHeader name value).map fun r => { r with recvBuffer := b } := by
  simp only [HttpRound.patchHeader, apply_ite (Option.map fun r : HttpRound =>
    { r with recvBuffer := b }), Option.map_some, Option.map_map, parseContentType_recv]
  cases equals value (bytes "chunked") <;> rfl

/-- A header sets the location to its value, or leaves it. -/
theorem patchHeader_location {round round' : HttpRound} {name value : Bytes}
    (h : round.patchHeader name value = some round') :
    round'.location = round.location ∨ round'.location = value := by
  unfold HttpRound.patchHeader at h
  split_ifs at h
  all_goals first
    | exact .inl (parseContentType_location h)
    | (cases h; exact .inl rfl)
    | (cases h; exact .inr rfl)
    | (obtain ⟨_, _, rfl⟩ := Option.map_eq_some_iff.mp h; exact .inl rfl)

/-- A header line is read whatever bytes are saved, and they stay. -/
theorem parseHeaderLine_recv (round : HttpRound) (b : Bytes) :
    HttpRound.parseHeaderLine { round with recvBuffer := b } =
      round.parseHeaderLine.map fun r => (r.1, { r.2 with recvBuffer := b }) := by
  unfold HttpRound.parseHeaderLine
  cases hp : toChars round.lineBuffer with
  | none => rfl
  | some p =>
    simp only [Option.bind_eq_bind, Option.bind_some]
    cases hs : strstr p [58] with
    | none => rfl
    | some depth =>
      simp only [patchHeader_recv]
      cases round.patchHeader (p.take depth)
        (if depth + 1 < round.lineBuffer.length then cstr (p.drop (depth + 2)) else []) <;> rfl

theorem parseHeaderLine_keeps {round round' : HttpRound} {ret : Retval}
    (h : round.parseHeaderLine = some (ret, round')) : round'.recvBuffer = round.recvBuffer := by
  have hsame := parseHeaderLine_recv round round.recvBuffer
  rw [h, Option.map_some] at hsame
  exact congrArg (fun r : Retval × HttpRound => r.2.recvBuffer) (Option.some.inj hsame)

/-- The location a header line sets is a part of the line. -/
theorem parseHeaderLine_location {round round' : HttpRound} {ret : Retval}
    (h : round.parseHeaderLine = some (ret, round')) :
    round'.location = round.location ∨ round'.location.length ≤ round.lineBuffer.length := by
  unfold HttpRound.parseHeaderLine at h
  obtain ⟨p, hp, h⟩ := Option.bind_eq_some_iff.mp h
  obtain rfl := eq_of_toChars hp
  split at h
  next => cases h; exact .inl rfl
  next depth _ =>
    obtain ⟨round'', hpatch, h⟩ := Option.bind_eq_some_iff.mp h
    obtain ⟨-, rfl⟩ := Prod.mk.inj (Option.some.inj h)
    refine (patchHeader_location hpatch).imp id fun hvalue => ?_
    rw [show _ = _ from hvalue]
    split
    · exact (cstr_isPrefix _).length_le.trans (List.drop_sublist ..).length_le
    · exact Nat.zero_le _

theorem parseContentType_isSome (round round' : HttpRound) (str : Option Bytes) :
    (round.parseContentType str).isSome = (round'.parseContentType str).isSome := by
  unfold HttpRound.parseContentType
  split
  next m _ =>
    cases m.getMatchString 1 <;> cases m.getMatchString 2 <;> cases m.getMatchString 3 <;>
      cases m.getMatchString 4 <;> rfl
  next =>
    split
    next m _ => cases m.getMatchString 1 <;> cases m.getMatchString 2 <;> rfl
    next => rfl

theorem patchHeader_isSome (round round' : HttpRound) (name value : Bytes) :
    (round.patchHeader name value).isSome = (round'.patchHeader name value).isSome := by
  simp only [HttpRound.patchHeader, apply_ite Option.isSome, Option.isSome_some,
    Option.isSome_map, parseContentType_isSome round round']

/-- Whether a header line is read through `NULL` depends on the line alone. -/
theorem parseHeaderLine_isSome (round : HttpRound) :
    (round.parseHeaderLine).isSome ↔ HeaderOk round.lineBuffer := by
  unfold HeaderOk HttpRound.parseHeaderLine
  cases hp : toChars round.lineBuffer with
  | none => rfl
  | some p =>
    simp only [Option.bind_eq_bind, Option.bind_some]
    cases hs : strstr p [58] with
    | none => rfl
    | some depth =>
      have hpatch := patchHeader_isSome round { lineBuffer := round.lineBuffer } (p.take depth)
        (if depth + 1 < round.lineBuffer.length then cstr (p.drop (depth + 2)) else [])
      simp only [Option.isSome_bind, Option.pure_def]
      cases hr : round.patchHeader (p.take depth)
        (if depth + 1 < round.lineBuffer.length then cstr (p.drop (depth + 2)) else []) <;>
      cases hr' : HttpRound.patchHeader { lineBuffer := round.lineBuffer } (p.take depth)
        (if depth + 1 < round.lineBuffer.length then cstr (p.drop (depth + 2)) else []) <;>
      simp_all

def HttpRound.parseHeader : HttpRound → List Bytes → Option HttpRound
  | round, [] => some round
  | round, l :: ls =>
    (HttpRound.parseHeaderLine { round with lineBuffer := l }).bind fun r => r.2.parseHeader ls

theorem parseHeader_recv (round : HttpRound) (ls : List Bytes) (b : Bytes) :
    HttpRound.parseHeader { round with recvBuffer := b } ls =
      (round.parseHeader ls).map fun r => { r with recvBuffer := b } := by
  induction ls generalizing round with
  | nil => rfl
  | cons l ls ih =>
    have hline := parseHeaderLine_recv { round with lineBuffer := l } b
    simp only [HttpRound.parseHeader] at hline ⊢
    rw [hline]
    cases HttpRound.parseHeaderLine { round with lineBuffer := l } with
    | none => rfl
    | some r => exact ih r.2

theorem parseHeader_isSome (round : HttpRound) (ls : List Bytes) :
    (round.parseHeader ls).isSome ↔ ∀ l ∈ ls, HeaderOk l := by
  induction ls generalizing round with
  | nil => simp [HttpRound.parseHeader]
  | cons l ls ih =>
    have hline := parseHeaderLine_isSome { round with lineBuffer := l }
    rw [List.forall_mem_cons, ← hline, HttpRound.parseHeader]
    cases HttpRound.parseHeaderLine { round with lineBuffer := l } with
    | none => simp
    | some r => simpa using ih r.2

end Dframework
