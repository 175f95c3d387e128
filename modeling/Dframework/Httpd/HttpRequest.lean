import Mathlib
import Dframework.Http.Header
import Dframework.Httpd.HttpdUtil
import Dframework.Library.Lines

/-!
# `HttpRequest`

The parser of the server. `parseRequest` takes what has been received, and the request line and the
header lines are taken from the front of what is there. `none` as a result stands for a run that
follows `NULL` or leaves a block.

Results:
1. `line_cases`: the ways a header line is read.
2. `headerLines_iff`: when each header line is read by itself.
-/

namespace Dframework

open CLib Loop

/-- `HTTPD_CSTATUS_READY`, `HTTPD_CSTATUS_HEADER` and `HTTPD_CSTATUS_BODY`. -/
inductive HttpdCstatus where
  | ready
  | header
  | body
  deriving DecidableEq, Repr

structure HttpRequest where
  cstatus : HttpdCstatus := .ready
  sBuffer : Bytes := []
  sRequestHeaders : Bytes := []
  sRequestLine : Bytes := []
  sMethod : Bytes := []
  sFile : Bytes := []
  sFileExt : Bytes := []
  sQuery : Bytes := []
  sProtocol : Bytes := []
  sVersion : Bytes := []
  sRequest : Bytes := []
  sHost : Bytes := []
  sUserAgent : Bytes := []
  sConnection : Bytes := []
  sAcceptLanguage : Bytes := []
  sAcceptEncoding : Bytes := []
  sIfModifiedSince : Bytes := []
  sIfNoneMatch : Bytes := []
  sIfRange : Bytes := []
  iUpgradeInsecureRequests : Int := 0
  bKeepAlive : Bool := false
  bCacheControl : Bool := false
  iCacheControlMaxAge : UInt64 := 0
  headers : List NamedValue := []
  deriving DecidableEq, Repr

namespace HttpRequest

/-- The characters of a C string. -/
def chars (s : Bytes) : String :=
  String.ofList ((cstr s).map fun c => Char.ofNat c.toNat)

/-- An error with the line it is about. -/
def wrong (message : String) (line : Bytes) : Retval :=
  retvalMsg .error (message ++ chars (printed line))

/-- `String::set` of `len` bytes on a new string. A negative length is a `size_t` that no block
has, but the size of a block for `-1` bytes and a NUL is 0. -/
def setNew (mem : Bytes) (len : Int) : Option Bytes :=
  if len < 0 then if len = -1 then none else some []
  else if len ≤ mem.length then some (mem.take len.toNat)
  else none

/-! ## The request line -/

/-- The decoded target: `m_sFile` and `m_sQuery`. -/
def setTarget (r : HttpRequest) (query : Bytes) : HttpRequest :=
  let r := { r with sRequest := query }
  match strstr query [63] with
  | none => { r with sFile := query }
  | some i => { r with sQuery := query.drop (i + 1), sFile := query.take i }

/-- `m_sFileExt`. The index is an `unsigned`. -/
def setFileExt (r : HttpRequest) : HttpRequest :=
  let extindex := (lastIndexOf r.sFile 46 % 2 ^ 32).toNat
  if extindex = 2 ^ 32 - 1 then r
  else { r with sFileExt := r.sFile.drop (extindex + 1) }

/-- The end of the request line: protocol and version. -/
def parseVersion (r : HttpRequest) (buf : Bytes) (test : Nat) : Retval × HttpRequest :=
  match strstr buf [47] with
  | none | some 0 =>
    (retvalMsg .error ("Wrong request line : [" ++ chars r.sRequestLine ++ "], method=[" ++
      chars r.sMethod ++ "], query=[" ++ chars (printed r.sQuery) ++ "], buf=" ++ chars buf), r)
  | some slash =>
    let r := { r with
      sProtocol := buf.take slash
      sVersion := buf.drop (slash + 1)
      sBuffer := r.sBuffer.drop (test + 2)
      cstatus := .header }
    (none, { r with
      sRequestLine := printed r.sMethod ++ [32] ++ printed r.sRequest ++ [32] ++
        printed r.sProtocol ++ [47] ++ printed r.sVersion })

def parseRequestReady (r : HttpRequest) : Option (Retval × HttpRequest) :=
  match (toChars r.sBuffer).bind (strstr · CRLF) with
  | none => some (retval .eAgain, r)
  | some test =>
    let line := r.sBuffer.take test
    let r := { r with sRequestLine := line }
    if line = [] then some (retvalMsg .error "Wrong request line : null", r)
    else
      match strstr line [32] with
      | none | some 0 => some (wrong "Wrong request line : " line, r)
      | some blank =>
        let r := { r with sMethod := line.take blank }
        let buf := line.drop (blank + 1)
        match strrchr buf 32 with
        | none | some 0 => some (wrong "Wrong request line : " line, r)
        | some blank =>
          match HttpdUtil.urldecode (toChars (buf.take blank)) with
          | none => none
          | some (.error e) => some (some e, r)
          | some (.ok sQuery) =>
            match toChars sQuery with
            | none => none
            | some query =>
              some ((r.setTarget query).setFileExt.parseVersion (buf.drop (blank + 1)) test)

/-! ## The header lines -/

/-- What `parseRequestHeaders` keeps of a header besides the list. -/
def setField (r : HttpRequest) (sName sVal : Bytes) : HttpRequest :=
  if equals sName (bytes "Host") then { r with sHost := sVal }
  else if equals sName (bytes "User-Agent") then { r with sUserAgent := sVal }
  else if equals sName (bytes "Connection") then
    { r with
      sConnection := sVal
      bKeepAlive := if equals sVal (bytes "Keep-Alive") then true
        else if equals sVal (bytes "close") then false else r.bKeepAlive }
  else if equals sName (bytes "Accept-Language") then { r with sAcceptLanguage := sVal }
  else if equals sName (bytes "Accept-Encoding") then { r with sAcceptEncoding := sVal }
  else if equals sName (bytes "If-Modified-Since") then { r with sIfModifiedSince := sVal }
  else if equals sName (bytes "If-None-Match") then { r with sIfNoneMatch := sVal }
  else if equals sName (bytes "If-Range") then { r with sIfRange := sVal }
  else if equals sName (bytes "Cache-Control") then
    { r with
      bCacheControl := true
      iCacheControlMaxAge := match strstr sVal [61] with
        | some (i + 1) =>
          -- `strstr` is compared with 0, so it is the other directives that are read
          if strstr sVal (bytes "max-age") = none then
            UInt64.ofInt (parseInt (some (sVal.drop (i + 2))))
          else r.iCacheControlMaxAge
        | _ => r.iCacheControlMaxAge }
  else if equals sName (bytes "Upgrade-Insecure-Requests") then
    { r with iUpgradeInsecureRequests := parseInt (toChars sVal) }
  else r

/-- `HttpRequest::parseRequestHeaders`: one line. -/
def parseRequestHeaders (r : HttpRequest) : Option (Retval × HttpRequest) :=
  match toChars r.sBuffer with
  | none => none
  | some buf =>
    match strstr buf CRLF with
    | none => some (retval .eAgain, r)
    | some 0 => some (none, { r with sBuffer := buf.drop 2, cstatus := .body })
    | some test =>
      match strstr buf [58] with
      | none | some 0 => some (wrong "Wrong request header : " (buf.take test), r)
      | some colon =>
        match setNew (buf.drop (colon + 1)) ((test : Int) - (colon + 1)) with
        | none => none
        | some val =>
          let sName := trim (buf.take colon)
          let sVal := trim val
          let r := { r with
            sBuffer := buf.drop (test + 2)
            headers := appendHeader r.headers sName sVal }
          some (retval .ok, r.setField sName sVal)

/-- One pass of the loop over the header lines. -/
def headerRound (r : HttpRequest) : Round HttpRequest (Option (Retval × HttpRequest)) :=
  match r.parseRequestHeaders with
  | none => .done none
  | some (none, r) => .done (some (none, r))
  | some (some e, r) => if e.value = .ok then .next r else .done (some (some e, r))

/-- The loop over the header lines. Each pass that goes on takes a line. -/
def parseHeaderLines (r : HttpRequest) : Option (Retval × HttpRequest) :=
  (run headerRound (r.sBuffer.length + 1) r).join

def parseRequest (r : HttpRequest) (buf : Bytes) : Option (Retval × HttpRequest) :=
  if buf = [] then some (retvalMsg .error "Read size is zero.", r)
  else
    let r := { r with
      sBuffer := r.sBuffer ++ buf
      sRequestHeaders := r.sRequestHeaders ++ buf }
    match r.cstatus with
    | .ready =>
      match r.parseRequestReady with
      | some (none, r) => r.parseHeaderLines
      | res => res
    | .header => r.parseHeaderLines
    | .body => some (none, r)

/-! ## One header line -/

/-- A line of the block that is taken: not the empty one, and not one that starts with a colon. -/
def TakenLine (l : Bytes) : Prop :=
  l ≠ [] ∧ l.head? ≠ some 58 ∧ Search.find CRLF l = none

/-- The line in front is refused, and no header is stored. -/
def Refused (r : HttpRequest) : Prop :=
  ∃ e r', r.parseRequestHeaders = some (some e, r') ∧ e.value = .error ∧ r'.headers = r.headers

/-- The line in front is read by itself: it is refused when it has no name or no colon, and otherwise
the parts in front of its first colon and behind it are stored. -/
def LineMet (r : HttpRequest) : Prop :=
  ∀ test, strstr r.sBuffer CRLF = some test → 0 < test →
    match strstr (r.sBuffer.take test) [58] with
    | none | some 0 => r.Refused
    | some colon => 0 ≤ (test : Int) - (colon + 1) ∧
        ∃ r', r.parseRequestHeaders = some (retval .ok, r') ∧
          r'.headers = appendHeader r.headers (trim ((r.sBuffer.take test).take colon))
            (trim ((r.sBuffer.take test).drop (colon + 1)))

/-- No line that is taken lacks a colon while there is one behind it. -/
def NoBorrow (b : Bytes) : Prop :=
  ∀ ls l rest, cstr b = Lines.text ls ++ (l ++ (CRLF ++ rest)) → (∀ l' ∈ ls, TakenLine l') →
    l ≠ [] → Search.find CRLF l = none → 58 ∈ l ∨ 58 ∉ rest

variable {r r' : HttpRequest} {l rest : Bytes}

theorem frame_ite {α : Type*} (f : HttpRequest → α) {c : Prop} [Decidable c] {a b : HttpRequest}
    (ha : f a = f r) (hb : f b = f r) : f (if c then a else b) = f r := by
  split_ifs
  · exact ha
  · exact hb

/-- The list, the buffer and what was in the request line, which a header does not change. -/
def kept (r : HttpRequest) : List NamedValue × Bytes × Bytes × Bytes × Bytes :=
  (r.headers, r.sBuffer, r.sMethod, r.sFile, r.sQuery)

theorem setField_kept (r : HttpRequest) (sName sVal : Bytes) :
    (r.setField sName sVal).kept = r.kept := by
  unfold setField
  iterate 10 refine frame_ite kept rfl ?_
  rfl

@[simp] theorem setField_headers (r : HttpRequest) (sName sVal : Bytes) :
    (r.setField sName sVal).headers = r.headers :=
  congrArg Prod.fst (setField_kept r sName sVal)

@[simp] theorem setField_sBuffer (r : HttpRequest) (sName sVal : Bytes) :
    (r.setField sName sVal).sBuffer = r.sBuffer :=
  congrArg (·.2.1) (setField_kept r sName sVal)

/-- What the request line was read as. -/
def target (r : HttpRequest) : Bytes × Bytes × Bytes :=
  (r.sMethod, r.sFile, r.sQuery)

@[simp] theorem setField_target (r : HttpRequest) (sName sVal : Bytes) :
    (r.setField sName sVal).target = r.target :=
  congrArg (·.2.2) (setField_kept r sName sVal)

/-- The buffer, cut at the end of its first line. -/
theorem strstr_line (hl : Search.find CRLF l = none) (h : cstr r.sBuffer = l ++ (CRLF ++ rest)) :
    strstr r.sBuffer CRLF = some l.length ∧ r.sBuffer.take l.length = l ∧
      cstr (r.sBuffer.drop (l.length + 2)) = rest := by
  have hpre : l ++ CRLF <+: r.sBuffer := by
    refine List.IsPrefix.trans ⟨rest, ?_⟩ (cstr_isPrefix _)
    rw [h, List.append_assoc]
  refine ⟨?_, ?_, ?_⟩
  · rw [strstr, h, ← List.append_assoc]
    exact find_crlf_line hl rest
  · exact (List.prefix_iff_eq_take.mp ((List.prefix_append l CRLF).trans hpre)).symm
  · have hlen : l.length + 2 = (l ++ CRLF).length := by simp [CRLF]
    rw [cstr_drop (by rw [h]; simp [CRLF]), h, ← List.append_assoc, hlen, List.drop_left]

/-- The line in front of the buffer. -/
theorem exists_line {test : Nat} (h : strstr r.sBuffer CRLF = some test) :
    ∃ l rest, Search.find CRLF l = none ∧ l.length = test ∧
      cstr r.sBuffer = l ++ (CRLF ++ rest) := by
  have hsplit := Search.find_split h
  have hlen := Search.find_add_length_le h
  rw [List.append_assoc] at hsplit
  refine ⟨_, _, Search.find_take (by decide) h, ?_, hsplit⟩
  rw [List.length_take]
  omega

theorem toChars_of_cstr {m l rest : Bytes} (h : cstr m = l ++ (CRLF ++ rest)) :
    toChars m = some m := by
  refine toChars_of_ne_nil ?_
  rintro rfl
  exact absurd (congrArg List.length h) (by simp [cstr, CRLF])

/-- A line with a colon that has something in front of it is taken. -/
theorem parseRequestHeaders_field {a v : Bytes} (ha : a ≠ []) (hcolon : 58 ∉ a)
    (hl : Search.find CRLF (a ++ 58 :: v) = none)
    (h : cstr r.sBuffer = (a ++ 58 :: v) ++ (CRLF ++ rest)) :
    ∃ r', r.parseRequestHeaders = some (retval .ok, r') ∧
      r'.headers = appendHeader r.headers (trim a) (trim v) ∧
      r'.sBuffer = r.sBuffer.drop ((a ++ 58 :: v).length + 2) ∧ r'.target = r.target := by
  obtain ⟨htest, -, -⟩ := strstr_line hl h
  obtain ⟨mem, hmem⟩ := cstr_isPrefix r.sBuffer
  have hbuf : r.sBuffer = a ++ 58 :: (v ++ (CRLF ++ (rest ++ mem))) := by
    rw [← hmem, h]
    simp
  have hfind : strstr r.sBuffer [58] = some a.length := by
    rw [strstr, h, List.append_assoc]
    exact Search.find_singleton hcolon _
  have hname : r.sBuffer.take a.length = a := by rw [hbuf, List.take_left]
  have hmem' : r.sBuffer.drop (a.length + 1) = v ++ (CRLF ++ (rest ++ mem)) := by
    rw [hbuf, ← List.drop_drop, List.drop_left]
    rfl
  have hval : setNew (r.sBuffer.drop (a.length + 1))
      (((a ++ 58 :: v).length : Int) - (a.length + 1)) = some v := by
    have hlen : ((a ++ 58 :: v).length : Int) - (a.length + 1) = v.length := by
      simp only [List.length_append, List.length_cons]
      omega
    rw [hlen, hmem', setNew, if_neg (by omega), if_pos (by rw [List.length_append]; omega),
      Int.toNat_natCast, List.take_left]
  obtain ⟨n, hn⟩ : ∃ n, a.length = n + 1 := Nat.exists_eq_succ_of_ne_zero (by simpa using ha)
  obtain ⟨k, hk⟩ : ∃ k, (a ++ 58 :: v).length = k + 1 := Nat.exists_eq_succ_of_ne_zero (by simp)
  rw [parseRequestHeaders, toChars_of_cstr h]
  rw [hn] at hfind hval hname
  rw [hk] at htest hval
  simp only [htest, hfind, hval, hname]
  exact ⟨_, rfl, by rw [setField_headers], by rw [setField_sBuffer, hk], by rw [setField_target]; rfl⟩

/-- A line that starts with a colon is refused, and one without a colon when none is behind it. -/
theorem refused_of_find (h : cstr r.sBuffer = l ++ (CRLF ++ rest)) (hl : Search.find CRLF l = none)
    (hne : l ≠ []) (hfind : strstr r.sBuffer [58] = none ∨ strstr r.sBuffer [58] = some 0) :
    r.Refused := by
  obtain ⟨htest, -, -⟩ := strstr_line hl h
  obtain ⟨k, hk⟩ : ∃ k, l.length = k + 1 := Nat.exists_eq_succ_of_ne_zero (by simpa using hne)
  rw [hk] at htest
  rcases hfind with hfind | hfind
  · exact ⟨_, r, by rw [parseRequestHeaders, toChars_of_cstr h]; simp only [htest, hfind]; rfl, rfl, rfl⟩
  · exact ⟨_, r, by rw [parseRequestHeaders, toChars_of_cstr h]; simp only [htest, hfind]; rfl, rfl, rfl⟩

/-- A line without a colon is not refused when there is a colon behind it. -/
theorem not_refused_of_borrow (h : cstr r.sBuffer = l ++ (CRLF ++ rest))
    (hl : Search.find CRLF l = none) (hne : l ≠ []) (hno : 58 ∉ l) (hcolon : 58 ∈ rest) :
    ¬ r.Refused := by
  obtain ⟨htest, -, -⟩ := strstr_line hl h
  obtain ⟨k, hk⟩ : ∃ k, l.length = k + 1 := Nat.exists_eq_succ_of_ne_zero (by simpa using hne)
  obtain ⟨colon, hfind⟩ : ∃ colon, strstr r.sBuffer [58] = some (colon + 1) := by
    obtain ⟨x, y, rfl, hx⟩ := List.eq_append_cons_of_mem hcolon
    have hno' : 58 ∉ l ++ (CRLF ++ x) := by simp [hno, hx, CRLF]
    have hsplit : cstr r.sBuffer = (l ++ (CRLF ++ x)) ++ 58 :: y := by
      rw [h]
      simp
    rw [strstr, hsplit, Search.find_singleton hno', List.length_append, hk]
    exact ⟨k + (CRLF ++ x).length, by congr 1; omega⟩
  rw [hk] at htest
  rintro ⟨e, r', hrun, he, -⟩
  rw [parseRequestHeaders, toChars_of_cstr h] at hrun
  simp only [htest, hfind] at hrun
  split at hrun
  · cases hrun
  · cases hrun
    cases he

/-! ## The block -/

theorem NoBorrow.tail {b b' : Bytes} (h : NoBorrow b) (hl : TakenLine l)
    (hb : cstr b = l ++ (CRLF ++ cstr b')) : NoBorrow b' := by
  intro ls l' rest hb' hls
  refine h (l :: ls) l' rest ?_ (List.forall_mem_cons.mpr ⟨hl, hls⟩)
  rw [hb, hb', Lines.text_cons]
  simp

/-- What `LineMet` says of the line in front. -/
theorem lineMet_iff (h : cstr r.sBuffer = l ++ (CRLF ++ rest)) (hl : Search.find CRLF l = none)
    (hne : l ≠ []) :
    r.LineMet ↔ match strstr l [58] with
      | none | some 0 => r.Refused
      | some colon => 0 ≤ (l.length : Int) - (colon + 1) ∧
          ∃ r', r.parseRequestHeaders = some (retval .ok, r') ∧
            r'.headers = appendHeader r.headers (trim (l.take colon)) (trim (l.drop (colon + 1))) := by
  obtain ⟨htest, htake, -⟩ := strstr_line hl h
  constructor
  · intro hmet
    have hline := hmet l.length htest (List.length_pos_iff.mpr hne)
    rw [htake] at hline
    exact hline
  · intro hline test htest' _
    cases htest.symm.trans htest'
    rw [htake]
    exact hline

/-- The ways a line is read: it is taken by itself, it is refused, or it is taken with a colon of
another line. -/
theorem line_cases (h : cstr r.sBuffer = l ++ (CRLF ++ rest)) (hl : Search.find CRLF l = none)
    (hne : l ≠ []) :
    (r.LineMet ∧ 58 ∈ l ∧ TakenLine l ∧ ∃ r', r.parseRequestHeaders = some (retval .ok, r') ∧
      cstr r'.sBuffer = rest) ∨
    (r.LineMet ∧ r.Refused ∧ (l.head? = some 58 ∨ 58 ∉ l)) ∨
    (¬ r.LineMet ∧ 58 ∉ l ∧ 58 ∈ rest) := by
  rw [lineMet_iff h hl hne]
  by_cases hcolon : 58 ∈ l
  · obtain ⟨a, v, rfl, ha⟩ := List.eq_append_cons_of_mem hcolon
    have h0 : (0 : UInt8) ∉ a := fun hmem => not_mem_cstr r.sBuffer (by rw [h]; simp [hmem])
    rw [strstr_char h0 ha (by decide)]
    cases a with
    | nil =>
      have hfind : strstr r.sBuffer [58] = some 0 := by
        rw [strstr, h]
        exact Search.find_singleton List.not_mem_nil _
      have href := refused_of_find h hl hne (.inr hfind)
      exact .inr (.inl ⟨href, href, .inl rfl⟩)
    | cons c a =>
      obtain ⟨r', hrun, hheaders, hbuf, -⟩ := parseRequestHeaders_field (List.cons_ne_nil c a) ha hl h
      have htaken : TakenLine (c :: a ++ 58 :: v) := by
        refine ⟨hne, ?_, hl⟩
        rw [List.mem_cons, not_or] at ha
        simpa [eq_comm] using ha.1
      refine .inl ⟨⟨?_, r', hrun, ?_⟩, hcolon, htaken, r', hrun, ?_⟩
      · simp only [List.length_append, List.length_cons]
        omega
      · have hname : (c :: a ++ 58 :: v).take (c :: a).length = c :: a := List.take_left
        have hval : (c :: a ++ 58 :: v).drop ((c :: a).length + 1) = v := by
          rw [← List.drop_drop, List.drop_left]
          rfl
        show r'.headers = appendHeader r.headers (trim ((c :: a ++ 58 :: v).take (c :: a).length))
          (trim ((c :: a ++ 58 :: v).drop ((c :: a).length + 1)))
        rw [hname, hval, hheaders]
      · rw [hbuf]
        exact (strstr_line hl h).2.2
  · rw [strstr_char_none hcolon]
    by_cases hrest : 58 ∈ rest
    · exact .inr (.inr ⟨not_refused_of_borrow h hl hne hcolon hrest, hcolon, hrest⟩)
    · have hfind : strstr r.sBuffer [58] = none := by
        rw [strstr, h]
        exact Search.find_singleton_none (by simp [hcolon, hrest, CRLF])
      have href := refused_of_find h hl hne (.inl hfind)
      exact .inr (.inl ⟨href, href, .inr hcolon⟩)

theorem headerRound_next_iff :
    headerRound r = .next r' ↔ ∃ e, r.parseRequestHeaders = some (some e, r') ∧ e.value = .ok := by
  unfold headerRound
  constructor
  · intro h
    split at h
    · cases h
    · cases h
    next e r'' hrun =>
      split at h
      next he =>
        cases h
        exact ⟨e, hrun, he⟩
      next => cases h
  · rintro ⟨e, hrun, he⟩
    rw [hrun]
    exact if_pos he

/-- A pass that goes on has taken a line. -/
theorem exists_taken (h : headerRound r = .next r') :
    ∃ l rest, cstr r.sBuffer = l ++ (CRLF ++ rest) ∧ Search.find CRLF l = none ∧ l ≠ [] := by
  obtain ⟨e, hrun, he⟩ := headerRound_next_iff.mp h
  unfold parseRequestHeaders at hrun
  split at hrun
  · cases hrun
  next buf hbuf =>
    have heq : buf = r.sBuffer := by
      unfold toChars at hbuf
      split at hbuf
      · cases hbuf
      · exact (Option.some.inj hbuf).symm
    subst heq
    split at hrun
    · cases hrun
      cases he
    · cases hrun
    next test hzero htest =>
      obtain ⟨l, rest, hl, hlen, hsplit⟩ := exists_line htest
      refine ⟨l, rest, hsplit, hl, ?_⟩
      rintro rfl
      exact hzero hlen.symm

theorem NoBorrow.next (h : NoBorrow r.sBuffer) (hnext : headerRound r = .next r') :
    NoBorrow r'.sBuffer := by
  obtain ⟨l, rest, hsplit, hl, hne⟩ := exists_taken hnext
  obtain ⟨e, hrun, he⟩ := headerRound_next_iff.mp hnext
  rcases line_cases hsplit hl hne with ⟨-, -, htaken, r'', hrun', hrest⟩ | ⟨-, href, -⟩ | ⟨-, hno, hcolon⟩
  · cases hrun.symm.trans hrun'
    exact h.tail htaken (by rw [hsplit, hrest])
  · obtain ⟨e', r'', hrun', he', -⟩ := href
    cases hrun.symm.trans hrun'
    cases he.symm.trans he'
  · rcases h [] l rest (by rw [hsplit]; rfl) (by simp) hne hl with h | h
    · exact absurd h hno
    · exact absurd hcolon h

theorem NoBorrow.lineMet (h : NoBorrow r.sBuffer) : r.LineMet := by
  intro test htest hpos
  obtain ⟨l, rest, hl, hlen, hsplit⟩ := exists_line htest
  have hne : l ≠ [] := by
    rintro rfl
    exact hpos.ne hlen
  have hmet : r.LineMet := by
    rcases line_cases hsplit hl hne with ⟨hmet, -⟩ | ⟨hmet, -⟩ | ⟨-, hno, hcolon⟩
    · exact hmet
    · exact hmet
    · rcases h [] l rest (by rw [hsplit]; rfl) (by simp) hne hl with h | h
      · exact absurd h hno
      · exact absurd hcolon h
  exact hmet test htest hpos

/-- A block in which every line is read by itself. -/
theorem noBorrow_of_met (h : ∀ t, Reach headerRound r t → t.LineMet) : NoBorrow r.sBuffer := by
  intro ls l rest hsplit hls hne hl
  -- along the lines in front: the first one without a colon would borrow
  induction ls generalizing r with
  | nil =>
    rcases line_cases hsplit hl hne with ⟨-, hcolon, -⟩ | ⟨-, href, -⟩ | ⟨hnot, -⟩
    · exact .inl hcolon
    · by_contra hno
      rw [not_or, not_not] at hno
      exact not_refused_of_borrow hsplit hl hne hno.1 hno.2 href
    · exact absurd (h r (.refl r)) hnot
  | cons l' ls ih =>
    obtain ⟨⟨hne', hhead, hl'⟩, hls⟩ := List.forall_mem_cons.mp hls
    rw [Lines.text_cons] at hsplit
    have hsplit' : cstr r.sBuffer = l' ++ (CRLF ++ (Lines.text ls ++ (l ++ (CRLF ++ rest)))) := by
      rw [hsplit]
      simp
    rcases line_cases hsplit' hl' hne' with
      ⟨-, -, -, r', hrun, hrest⟩ | ⟨-, href, hhead' | hcolon⟩ | ⟨hnot, -⟩
    · have hnext : headerRound r = .next r' := headerRound_next_iff.mpr ⟨_, hrun, rfl⟩
      exact ih (fun t ht => h t (.next hnext ht)) hrest hls
    · exact absurd hhead' hhead
    · right
      intro hmem
      refine not_refused_of_borrow hsplit' hl' hne' hcolon ?_ href
      simp [hmem]
    · exact absurd (h r (.refl r)) hnot

/-- Each header line is read by itself exactly when none of them lacks a colon while one is behind
it. -/
theorem headerLines_iff (r : HttpRequest) :
    (∀ t, Reach headerRound r t → t.LineMet) ↔ NoBorrow r.sBuffer := by
  constructor
  · exact noBorrow_of_met
  · intro h t ht
    have hinv : NoBorrow t.sBuffer :=
      ht.invariant (I := fun t => NoBorrow t.sBuffer) h fun _ _ hs hb => hs.next hb
    exact hinv.lineMet

/-- A line without a colon in front of one with a colon. -/
def borrowing : HttpRequest :=
  { cstatus := .header, sBuffer := bytes "x" ++ CRLF ++ bytes "Host: h" ++ CRLF ++ CRLF }

theorem not_headerLines : ¬ ∀ r t, Reach headerRound r t → t.LineMet := by
  intro h
  have hsplit : cstr borrowing.sBuffer =
      bytes "x" ++ (CRLF ++ (bytes "Host: h" ++ CRLF ++ CRLF)) := by decide
  have hmet := h borrowing borrowing (.refl _)
  rcases line_cases hsplit (by decide) (by decide) with ⟨-, hcolon, -⟩ | ⟨-, href, -⟩ | ⟨hnot, -⟩
  · exact absurd hcolon (by decide)
  · exact not_refused_of_borrow hsplit (by decide) (by decide) (by decide) (by decide) href
  · exact hnot hmet

end HttpRequest

end Dframework
