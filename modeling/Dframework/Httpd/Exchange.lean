import Mathlib
import Dframework.Httpd.Response
import Dframework.Httpd.ParseToTime

/-!
# Answering a request

`se_checkLocalFile` looks at what a request names and makes an error page, a redirect or a 304 of it,
or leaves the file to `sendLocalFile_ready`. The redirect puts the decoded name of the file into a
header as it is, and the date of a file has one character for the thousands of its year.

Results:
1. `unbroken_dateString_iff`: the instants whose date is one line.
2. `exchange_stream_iff`: the responses whose stream has one line for each header.
-/

namespace Dframework

open CLib Calendar HttpDate

/-- What `se_checkLocalFile` and `sendLocalFile_ready` read of the request. -/
structure FileRequest where
  sFile : Bytes
  sIfModifiedSince : Bytes := []
  range : RangeRequest := {}
  bKeepAlive : Bool := false
  deriving DecidableEq, Repr

structure FileStat where
  mode : Nat
  size : UInt64
  mtime : Int
  deriving DecidableEq, Repr

/-- `st_mode & S_IFDIR`. -/
def FileStat.isDir (st : FileStat) : Bool :=
  st.mode &&& 0o40000 ≠ 0

/-- `st_mode & S_IFREG`. -/
def FileStat.isReg (st : FileStat) : Bool :=
  st.mode &&& 0o100000 ≠ 0

/-- What the server meets when it opens a file: `ready` is what comes in the way, `stat` is what the
size is when it is asked for again, and the type comes from a table or is asked of the file system. -/
structure OpenFile where
  ready : Retval := none
  resizeable : Bool := false
  stat : Except Ret UInt64
  contentType : Bytes
  unbroken : Lines.Unbroken contentType

/-- The `since` of the request is the time of the file. -/
def FileRequest.notModified (req : FileRequest) (machine : Machine) (mtime : Int) : Bool :=
  req.sIfModifiedSince ≠ [] &&
    match HttpdUtil.parseToTime machine (some req.sIfModifiedSince) with
    | .ok since => since ≠ 0 && since == mtime
    | .error _ => false

/-- The ETag of a file, of its size and its time as numbers of 64 bits. -/
def fileETag (st : FileStat) : Bytes :=
  34 :: hexadecimal st.size.toNat ++ 45 :: hexadecimal (st.mtime % 2 ^ 64).toNat ++ [34]

/-- `HttpdClient::se_checkLocalFile`. An answer that is not `NULL` has a response to be sent. For a
directory the code reads the last byte of the name, and in front of `NULL` when there is none. -/
def seCheckLocalFile (machine : Machine) (req : FileRequest) (resp : HttpResponse)
    (attr : Except Ret FileStat) : Option (Retval × FileRequest × HttpResponse) :=
  match attr with
  | .error r =>
    if r.value = .eNoent then some (some { r with value := .ok }, req, resp.set404Response)
    else some (some r, req, resp)
  | .ok st =>
    if st.isDir then
      req.sFile.getLast?.map fun ch =>
        let resp := if ch = 47 then resp.set403Response
          else resp.set301Response (printed req.sFile ++ [47])
        (retvalMsg .ok "Not found file.", req, resp)
    else if !st.isReg then some (retvalMsg .ok "Not found file.", req, resp.set403Response)
    else
      let resp := { resp with
        iFileSize := st.size, iFileMTime := st.mtime, sFileETag := fileETag st }
      if req.notModified machine st.mtime then
        some (retvalMsg .ok "If-Modified-Since", req, resp.set304Response)
      else
        let sIfRange := req.range.ifRange.getD []
        let isIfRange := req.range.isIfRange ||
          (sIfRange ≠ [] && equals resp.sFileETag sIfRange)
        some (none, { req with range := { req.range with isIfRange } }, resp)

/-- `HttpdClient::sendLocalFile_ready`, as far as its stream. -/
def sendLocalFileReady (machine : Machine) (req : FileRequest) (resp : HttpResponse)
    (file : OpenFile) : Except Ret HttpResponse :=
  match file.ready with
  | some r => .error r
  | none =>
    let sModify := Time.getDateStringRfc822 machine resp.iFileMTime
    match checkRangeBytes req.range with
    | .error r => .error r
    | .ok range =>
      match switchRange range resp.iFileSize file.resizeable file.stat with
      | .error r => .error r
      | .ok (answer, iFileSize) =>
        if answer.iEnd < answer.iStart then .error rangeError
        else if iFileSize ≤ answer.iStart then .error rangeError
        else
          let sContentRange := if range.minus = 0 then [] else
            bytes "bytes " ++ decimal answer.iStart.toNat ++ 45 :: decimal answer.iEnd.toNat ++
              47 :: decimal iFileSize.toNat
          let resp := resp.setFile answer req.bKeepAlive sContentRange file.contentType sModify
          .ok (resp.makeStream machine)

/-- The response to a request: what `HttpdWorker::pollin` hands to one of its senders. -/
def exchange (machine : Machine) (req : FileRequest) (attr : Except Ret FileStat)
    (file : OpenFile) : Option (Except Ret HttpResponse) :=
  (seCheckLocalFile machine req {} attr).map fun
    | (some _, _, resp) => .ok (resp.makeStream machine)
    | (none, req, resp) => sendLocalFileReady machine req resp file

/-! ## The date of a file -/

/-- The year of an instant, as the machine shows it. -/
def Time.shownYear (machine : Machine) (t : Int) : Int :=
  1900 + (Time.get machine t .localTime).year

/-- The first character of the year is CR or LF. The years are those of 218000 and of 221000, and
every 256000 years. -/
def Time.YearBreaks (machine : Machine) (t : Int) : Prop :=
  (Time.shownYear machine t).tdiv 1000 % 256 = 218 ∨ (Time.shownYear machine t).tdiv 1000 % 256 = 221

theorem get_bounds (machine : Machine) (t : Int) :
    0 ≤ (Time.get machine t .localTime).mday ∧ (Time.get machine t .localTime).mday ≤ 31 ∧
    0 ≤ (Time.get machine t .localTime).hour ∧ (Time.get machine t .localTime).hour ≤ 23 ∧
    0 ≤ (Time.get machine t .localTime).min ∧ (Time.get machine t .localTime).min ≤ 59 ∧
    0 ≤ (Time.get machine t .localTime).sec ∧ (Time.get machine t .localTime).sec ≤ 59 := by
  have hday := day_bounds (dayOf (shown machine t))
  have hclock := clock_bounds (shown machine t)
  have hget : Time.get machine t .localTime = brokenDown (Time.instant machine t) machine.gmtoff :=
    rfl
  simp only [hget, brokenDown]
  unfold shown at hday hclock
  split_ifs
  · exact ⟨(by decide : (0 : Int) ≤ 1).trans hday.1, hday.2, hclock⟩
  · decide

/-- A digit of a number is no NUL, no CR and no LF. -/
theorem digit_plain {n : Int} (h0 : -10 < n) (h1 : n < 10) :
    digit n ≠ 0 ∧ digit n ≠ 13 ∧ digit n ≠ 10 := by
  simp only [ne_eq, digit_eq_iff]
  refine ⟨?_, ?_, ?_⟩ <;> simp <;> omega

theorem digit_tdiv_plain {n k : Int} (hk : 0 < k) (h0 : -(10 * k) < n) (h1 : n < 10 * k) :
    digit (n.tdiv k) ≠ 0 ∧ digit (n.tdiv k) ≠ 13 ∧ digit (n.tdiv k) ≠ 10 := by
  rcases le_total 0 n with hn | hn
  · rw [Int.tdiv_eq_ediv_of_nonneg hn]
    have hlt := Int.ediv_lt_of_lt_mul hk h1
    have hle := Int.ediv_nonneg hn hk.le
    exact digit_plain (by omega) hlt
  · have heq : n.tdiv k = -((-n) / k) := by
      rw [← Int.tdiv_eq_ediv_of_nonneg (by omega), Int.neg_tdiv, neg_neg]
    have hlt : -n / k < 10 := Int.ediv_lt_of_lt_mul hk (by omega)
    have hle := Int.ediv_nonneg (neg_nonneg.mpr hn) hk.le
    rw [heq]
    exact digit_plain (by omega) (by omega)

theorem digit_tmod_plain (n : Int) :
    digit (n.tmod 10) ≠ 0 ∧ digit (n.tmod 10) ≠ 13 ∧ digit (n.tmod 10) ≠ 10 :=
  digit_plain (Int.lt_tmod_of_pos n (by decide)) (Int.tmod_lt_of_pos n (by decide))

theorem names_plain (names : List Bytes) (h : ∀ name ∈ names, (0 : UInt8) ∉ name ∧ Lines.Unbroken name)
    (i : Nat) : (0 : UInt8) ∉ names.getD i [] ∧ Lines.Unbroken (names.getD i []) := by
  rw [List.getD_eq_getElem?_getD]
  rcases hi : names[i]? with _ | name
  · exact ⟨List.not_mem_nil, Lines.unbroken_nil⟩
  · exact h name (List.mem_of_getElem? hi)

theorem unbroken_cstr_iff {a b : Bytes} {c : UInt8} (h0 : (0 : UInt8) ∉ a) (ha : Lines.Unbroken a)
    (hb : Lines.Unbroken b) : Lines.Unbroken (cstr (a ++ c :: b)) ↔ c ≠ 13 ∧ c ≠ 10 := by
  constructor
  · intro h
    rw [cstr_append_of_not_mem h0, Lines.unbroken_append] at h
    by_cases hc : c = 0
    · subst hc
      decide
    · rw [cstr, List.takeWhile_cons_of_pos (by simpa using hc)] at h
      exact (Lines.unbroken_cons.mp h.2).1
  · intro h
    exact Lines.unbroken_of_prefix (Lines.unbroken_append.mpr ⟨ha, Lines.unbroken_cons.mpr ⟨h, hb⟩⟩)
      (cstr_isPrefix _)

/-- The date of a file is broken only by the first character of its year. -/
theorem unbroken_dateString_iff (machine : Machine) (t : Int) :
    Lines.Unbroken (Time.getDateStringRfc822 machine t) ↔ ¬ Time.YearBreaks machine t := by
  obtain ⟨hday0, hday1, hhour0, hhour1, hmin0, hmin1, hsec0, hsec1⟩ := get_bounds machine t
  have hweek := names_plain Time.WEEK_DAYS (by decide) (Time.get machine t .localTime).wday.toNat
  have hmonth := names_plain Time.SHORT_MONTHS (by decide) (Time.get machine t .localTime).mon.toNat
  have hyear : digit ((Time.shownYear machine t).tdiv 1000) ≠ 13 ∧
      digit ((Time.shownYear machine t).tdiv 1000) ≠ 10 ↔ ¬ Time.YearBreaks machine t := by
    simp only [ne_eq, digit_eq_iff, Time.YearBreaks]
    simp
    omega
  rw [← hyear]
  unfold Time.getDateStringRfc822
  show Lines.Unbroken (cstr (_ ++ _ ++ _ ++ 32 :: digit ((Time.shownYear machine t).tdiv 1000) :: _)) ↔ _
  rw [List.append_cons]
  have htwo : ∀ n : Int, 0 ≤ n → n ≤ 59 →
      digit (n.tdiv 10) ≠ 0 ∧ digit (n.tdiv 10) ≠ 13 ∧ digit (n.tdiv 10) ≠ 10 := fun n h0 h1 =>
    digit_tdiv_plain (by decide) (by omega) (by omega)
  have hd0 := htwo _ hday0 (by omega)
  have hd1 := digit_tmod_plain (Time.get machine t .localTime).mday
  have hy1 := digit_tdiv_plain (n := (Time.shownYear machine t).tmod 1000) (k := 100) (by decide)
    (Int.lt_tmod_of_pos _ (by decide)) (Int.tmod_lt_of_pos _ (by decide))
  have hy2 := digit_tdiv_plain (n := (Time.shownYear machine t).tmod 100) (k := 10) (by decide)
    (Int.lt_tmod_of_pos _ (by decide)) (Int.tmod_lt_of_pos _ (by decide))
  have hy3 := digit_tmod_plain (Time.shownYear machine t)
  have hh0 := htwo _ hhour0 (by omega)
  have hh1 := digit_tmod_plain (Time.get machine t .localTime).hour
  have hm0 := htwo _ hmin0 hmin1
  have hm1 := digit_tmod_plain (Time.get machine t .localTime).min
  have hs0 := htwo _ hsec0 hsec1
  have hs1 := digit_tmod_plain (Time.get machine t .localTime).sec
  refine unbroken_cstr_iff ?_ ?_ ?_
  · simp only [List.mem_append, List.mem_cons, List.not_mem_nil, or_false, hweek.1, hmonth.1,
      false_or, not_or]
    exact ⟨⟨by decide, by decide, hd0.1.symm, hd1.1.symm, by decide⟩, by decide⟩
  · simp only [Lines.unbroken_append, Lines.unbroken_cons, hweek.2, hmonth.2, true_and, and_true,
      Lines.unbroken_nil]
    exact ⟨⟨by decide, by decide, hd0.2, hd1.2, by decide⟩, by decide⟩
  · simp only [Lines.unbroken_cons, Lines.unbroken_nil, and_true]
    exact ⟨hy1.2, hy2.2, hy3.2, by decide, hh0.2, hh1.2, by decide, hm0.2, hm1.2, by decide, hs0.2,
      hs1.2, by decide, by decide, by decide, by decide⟩
theorem not_yearBreaks_now (machine : Machine) : ¬ Time.YearBreaks machine machine.now := by
  have hclock : FourDigits machine.now := by
    have h := machine.clock
    rw [fourDigits_iff]
    omega
  obtain ⟨h0, h1⟩ := yearOf_shown machine hclock
  have hyear : Time.shownYear machine machine.now = yearOf (shown machine machine.now) := by
    rw [Time.shownYear, get_localTime h0 h1]
    show 1900 + (yearOf (shown machine machine.now) - 1900) = _
    omega
  obtain ⟨-, hq0, hq1, -⟩ := year_digits h0 h1
  rw [Time.YearBreaks, hyear]
  omega

/-! ## Each kind of response -/

namespace HttpResponse

variable {machine : Machine} {resp : HttpResponse} {name value : Bytes}

theorem Plain.withDefaults (h : resp.Plain) (machine : Machine) :
    (resp.withDefaults machine).Plain := by
  have hnow := (unbroken_dateString_iff machine machine.now).mpr (not_yearBreaks_now machine)
  have hserver : Lines.Unbroken (bytes "Dframework/1.0.2") := by decide
  have hdate := h.date
  simp only [HttpResponse.withDefaults]
  split_ifs
  · exact { h with date := hnow, server := hserver, lastModified := hnow }
  · exact { h with date := hnow, server := hserver }
  · exact { h with date := hnow, lastModified := hnow }
  · exact { h with date := hnow }
  · exact { h with server := hserver, lastModified := hdate }
  · exact { h with server := hserver }
  · exact { h with lastModified := hdate }
  · exact h

theorem withDefaults_sBody (machine : Machine) (resp : HttpResponse) :
    (resp.withDefaults machine).sBody = resp.sBody := by
  simp only [withDefaults]
  split_ifs <;> rfl

theorem withDefaults_list (machine : Machine) (resp : HttpResponse) :
    (resp.withDefaults machine).list = resp.list := by
  simp only [withDefaults]
  split_ifs <;> rfl

theorem mem_headers_of_list {nv : NamedValue} (h : nv ∈ resp.list) : nv ∈ resp.headers :=
  List.mem_append_left _ (List.mem_append_left _ (List.mem_append_right _ h))

theorem mem_headers_lastModified (resp : HttpResponse) :
    ⟨bytes "Last-Modified", resp.sLastModified⟩ ∈ resp.headers :=
  List.mem_append_left _ (List.mem_append_left _ (List.mem_append_left _ (List.mem_append_left _
    (List.mem_cons_of_mem _ (List.mem_cons_of_mem _ List.mem_cons_self)))))

theorem withDefaults_lastModified (h : resp.sLastModified ≠ []) :
    (resp.withDefaults machine).sLastModified = resp.sLastModified := by
  simp only [withDefaults]
  split_ifs <;> rfl

theorem oneLineEach_of_plain (h : resp.Plain) (hlen : resp.sBody ≠ [] →
    ⟨bytes "Content-Length", decimal resp.sBody.length⟩ ∈ resp.list) :
    (resp.makeStream machine).OneLineEach := by
  rw [oneLineEach_iff, withDefaults_sBody, withDefaults_list]
  exact ⟨(h.withDefaults machine).headers, hlen⟩

theorem setKeepAlive_list (resp : HttpResponse) (status : Nat) (keepAlive : Bool) :
    (resp.setKeepAlive status keepAlive).list = resp.list := by
  cases keepAlive <;> rfl

theorem setKeepAlive_sBody (resp : HttpResponse) (status : Nat) (keepAlive : Bool) :
    (resp.setKeepAlive status keepAlive).sBody = resp.sBody := by
  cases keepAlive <;> rfl

theorem cstr_decimal (n : Nat) : cstr (decimal n) = decimal n :=
  cstr_of_not_mem fun h => absurd (isDigit_of_mem_decimal h) (by decide)

theorem setResponse_list (resp : HttpResponse) (status contentLength : Nat) (keepAlive : Bool) :
    (resp.setResponse status contentLength keepAlive).list =
      Dframework.appendHeader resp.list (bytes "Content-Length") (decimal contentLength) := by
  rw [setResponse, setKeepAlive_list]
  show Dframework.appendHeader resp.list (bytes "Content-Length") (cstr (decimal contentLength)) = _
  rw [cstr_decimal]

theorem setResponse_sBody (resp : HttpResponse) (status contentLength : Nat) (keepAlive : Bool) :
    (resp.setResponse status contentLength keepAlive).sBody = resp.sBody := by
  rw [setResponse, setKeepAlive_sBody]
  rfl

theorem mem_setResponse_list (resp : HttpResponse) (status contentLength : Nat) (keepAlive : Bool) :
    ⟨bytes "Content-Length", decimal contentLength⟩ ∈
      (resp.setResponse status contentLength keepAlive).list := by
  have hmem := mem_appendHeader_self resp.list (bytes "Content-Length") (decimal contentLength)
  rw [cstr_decimal] at hmem
  rw [setResponse_list]
  exact hmem

theorem appendHeader_cstr (resp : HttpResponse) (name value : Bytes) :
    resp.appendHeader name (cstr value) = resp.appendHeader name value := by
  simp only [appendHeader, cstr_of_not_mem (not_mem_cstr value)]

theorem Plain.setResponseLocation (h : resp.Plain) {location : Bytes}
    (hl : Lines.Unbroken (cstr location)) (status contentLength : Nat) (keepAlive : Bool) :
    (resp.setResponseLocation status contentLength location keepAlive).Plain := by
  have hname : Lines.Unbroken (bytes "Location") := by decide
  rw [HttpResponse.setResponseLocation, ← appendHeader_cstr]
  exact (h.appendHeader hname hl).setResponse status contentLength keepAlive

/-- An error page is not broken. -/
theorem oneLineEach_makeError (status : Nat) (title : Bytes) (bKeepAlive : Bool) :
    ((makeError {} status title bKeepAlive).makeStream machine).OneLineEach := by
  have hplain : Plain { sBody := HttpdSender.htmlErr status title } := { Plain.empty with }
  refine oneLineEach_of_plain (hplain.setResponse status _ bKeepAlive) fun _ => ?_
  rw [makeError, setResponse_sBody]
  exact mem_setResponse_list _ status _ bKeepAlive

/-- A redirect is not broken exactly when its location is not. -/
theorem oneLineEach_makeLocation (status : Nat) (title location : Bytes) :
    ((makeLocation {} status title location).makeStream machine).OneLineEach ↔
      Lines.Unbroken (cstr location) := by
  have hbody : (makeLocation {} status title location).sBody =
      HttpdSender.htmlErrLocation status title (cstr location) := by
    rw [makeLocation, setResponseLocation, setResponse_sBody]
    rfl
  have hlist : (makeLocation {} status title location).list =
      Dframework.appendHeader (Dframework.appendHeader [] (bytes "Location") (cstr location))
        (bytes "Content-Length") (decimal (makeLocation {} status title location).sBody.length) := by
    rw [hbody, makeLocation, setResponseLocation, setResponse_list]
    rfl
  constructor
  · intro h
    have hmem : ⟨bytes "Location", cstr location⟩ ∈
        (makeLocation {} status title location).list := by
      rw [hlist, mem_appendHeader_iff (Ordered.nil.append _ _)]
      refine .inr ⟨?_, (by decide : bytes "Location" ≠ cstr (bytes "Content-Length"))⟩
      have := mem_appendHeader_self [] (bytes "Location") (cstr location)
      rwa [cstr_of_not_mem (not_mem_cstr location)] at this
    rw [oneLineEach_iff] at h
    have hfield := h.1 _ (mem_headers_of_list (withDefaults_list machine _ ▸ hmem))
    rw [unbroken_field, cstr_of_not_mem (not_mem_cstr location)] at hfield
    exact hfield.2
  · intro h
    have hplain : Plain { sBody := HttpdSender.htmlErrLocation status title (cstr location) } :=
      { Plain.empty with }
    refine oneLineEach_of_plain (hplain.setResponseLocation h status _ true) fun _ => ?_
    rw [hlist]
    have := mem_appendHeader_self (Dframework.appendHeader [] (bytes "Location") (cstr location))
      (bytes "Content-Length") (decimal (makeLocation {} status title location).sBody.length)
    rwa [cstr_decimal] at this

theorem appendHeader_sBody (resp : HttpResponse) (name value : Bytes) :
    (resp.appendHeader name value).sBody = resp.sBody := by
  simp only [appendHeader]
  split_ifs <;> rfl

theorem appendHeader_sFileETag (resp : HttpResponse) (name value : Bytes) :
    (resp.appendHeader name value).sFileETag = resp.sFileETag := by
  simp only [appendHeader]
  split_ifs <;> rfl

theorem setResponse_sFileETag (resp : HttpResponse) (status contentLength : Nat)
    (keepAlive : Bool) :
    (resp.setResponse status contentLength keepAlive).sFileETag = resp.sFileETag := by
  cases keepAlive <;>
    simp only [setResponse, setKeepAlive, appendHeader_sFileETag, Bool.false_eq_true, if_true, if_false]

/-- A header is appended where it is not empty. -/
theorem Plain.appendSome (h : resp.Plain) (hn : Lines.Unbroken name) (hv : Lines.Unbroken value) :
    Plain (if value = [] then resp else resp.appendHeader name value) := by
  split_ifs
  · exact h
  · exact h.appendHeader hn hv

theorem appendSome_sFileETag (resp : HttpResponse) (name value : Bytes) :
    (if value = [] then resp else resp.appendHeader name value).sFileETag = resp.sFileETag := by
  split_ifs
  · rfl
  · exact appendHeader_sFileETag resp name value

theorem makeNoBodyError_sBody (resp : HttpResponse) (status : Nat) (bKeepAlive : Bool) :
    (resp.makeNoBodyError status bKeepAlive).sBody = [] := by
  rw [makeNoBodyError, setResponse_sBody]

theorem Plain.makeNoBodyError (h : resp.Plain) (status : Nat) (bKeepAlive : Bool) :
    (resp.makeNoBodyError status bKeepAlive).Plain :=
  have hempty : Plain { resp with sBody := [] } := { h with }
  hempty.setResponse status 0 bKeepAlive

theorem oneLineEach_set304Response (h : resp.Plain) (ht : Lines.Unbroken resp.sFileETag) :
    (resp.set304Response.makeStream machine).OneLineEach := by
  have hname : Lines.Unbroken (bytes "ETag") := by decide
  have htag : (resp.makeNoBodyError 304 true).sFileETag = resp.sFileETag :=
    setResponse_sFileETag _ 304 0 true
  have hbody : resp.set304Response.sBody = [] := by
    simp only [set304Response]
    split_ifs
    · exact makeNoBodyError_sBody resp 304 true
    · rw [appendHeader_sBody, makeNoBodyError_sBody]
  refine oneLineEach_of_plain ?_ fun hne => absurd hbody hne
  exact (h.makeNoBodyError 304 true).appendSome hname (htag ▸ ht)

/-- All headers of a file but the last one. -/
theorem exists_setFile (h : resp.Plain) (ht : Lines.Unbroken resp.sFileETag)
    {sContentRange sContentType : Bytes} (hrange : Lines.Unbroken sContentRange)
    (htype : Lines.Unbroken sContentType) (answer : RangeAnswer) (bKeepAlive : Bool)
    (sModify : Bytes) : ∃ r, Plain r ∧
      resp.setFile answer bKeepAlive sContentRange sContentType sModify =
        { r.appendHeader (bytes "Last-Modified") sModify with sBody := [] } := by
  have haccept : Lines.Unbroken (bytes "Accept-Ranges") := by decide
  have hbytes : Lines.Unbroken (bytes "bytes") := by decide
  have hname : Lines.Unbroken (bytes "Content-Range") := by decide
  have htypename : Lines.Unbroken (bytes "Content-Type") := by decide
  have htagname : Lines.Unbroken (bytes "ETag") := by decide
  have hplain := (((h.setResponse answer.status answer.iLength.toNat bKeepAlive).appendHeader haccept
    hbytes).appendSome hname hrange).appendSome htypename htype
  refine ⟨_, hplain.appendSome htagname ?_, rfl⟩
  rw [appendSome_sFileETag, appendSome_sFileETag, appendHeader_sFileETag, setResponse_sFileETag]
  exact ht

/-- The headers of a file are broken only by its date. -/
theorem oneLineEach_setFile (h : resp.Plain) (ht : Lines.Unbroken resp.sFileETag)
    {sContentRange sContentType : Bytes} (hrange : Lines.Unbroken sContentRange)
    (htype : Lines.Unbroken sContentType) (answer : RangeAnswer) (bKeepAlive : Bool)
    (sModify : Bytes) :
    ((resp.setFile answer bKeepAlive sContentRange sContentType sModify).makeStream
      machine).OneLineEach ↔ Lines.Unbroken (cstr sModify) := by
  obtain ⟨r, hr, heq⟩ := exists_setFile h ht hrange htype answer bKeepAlive sModify
  have hname : Lines.Unbroken (bytes "Last-Modified") := by decide
  rw [heq, ← appendHeader_cstr]
  constructor
  · intro hlines
    rw [oneLineEach_iff] at hlines
    by_cases hne : cstr sModify = []
    · rw [hne]
      exact Lines.unbroken_nil
    · have hset : ({ r.appendHeader (bytes "Last-Modified") (cstr sModify) with
          sBody := [] } : HttpResponse).sLastModified = cstr sModify :=
        cstr_of_not_mem (not_mem_cstr sModify)
      rw [← hset] at hne
      have hfield := hlines.1 _ (mem_headers_lastModified _)
      rw [withDefaults_lastModified hne, hset, unbroken_field,
        cstr_of_not_mem (not_mem_cstr sModify)] at hfield
      exact hfield.2
  · intro hmodify
    have hplain : Plain { r.appendHeader (bytes "Last-Modified") (cstr sModify) with sBody := [] } :=
      { hr.appendHeader hname hmodify with }
    exact oneLineEach_of_plain hplain fun hne => absurd rfl hne

end HttpResponse

/-! ## Every response -/

section

variable {machine : Machine} {req : FileRequest} {attr : Except Ret FileStat} {file : OpenFile}
  {resp : HttpResponse} {st : FileStat}

/-- What a response needs to have one line for each header: a directory that is redirected has no CR
and no LF in its name, and a file that is sent has a year whose thousands are no such character. -/
def Lined (machine : Machine) (req : FileRequest) : Except Ret FileStat → Prop
  | .error _ => True
  | .ok st =>
    (st.isDir → req.sFile.getLast? = some 47 ∨ Lines.Unbroken (cstr req.sFile)) ∧
    (¬ st.isDir → st.isReg → ¬ req.notModified machine st.mtime →
      ¬ Time.YearBreaks machine st.mtime)

theorem unbroken_fileETag (st : FileStat) : Lines.Unbroken (fileETag st) := by
  have hquote : (34 : UInt8) ≠ 13 ∧ (34 : UInt8) ≠ 10 := by decide
  have hminus : (45 : UInt8) ≠ 13 ∧ (45 : UInt8) ≠ 10 := by decide
  have hend : Lines.Unbroken [34] := by decide
  refine Lines.unbroken_append.mpr ⟨Lines.unbroken_cons.mpr ⟨hquote, Lines.unbroken_append.mpr
    ⟨HttpResponse.unbroken_hexadecimal _, Lines.unbroken_cons.mpr ⟨hminus, ?_⟩⟩⟩, hend⟩
  exact HttpResponse.unbroken_hexadecimal _

/-- A location is broken where the name of the directory is. -/
theorem unbroken_location_iff (sFile : Bytes) :
    Lines.Unbroken (cstr (printed sFile ++ [47])) ↔ Lines.Unbroken (cstr sFile) := by
  have hslash : Lines.Unbroken [47] := by decide
  have hzero : (0 : UInt8) ∉ printed sFile ++ [47] := by
    rw [List.mem_append, not_or]
    exact ⟨not_mem_printed sFile, by decide⟩
  rw [cstr_of_not_mem hzero, Lines.unbroken_append, HttpResponse.unbroken_printed]
  exact and_iff_left hslash

theorem oneLineEach_dir (sFile : Bytes) (ch : UInt8) :
    ((if ch = 47 then HttpResponse.set403Response {}
      else HttpResponse.set301Response {} (printed sFile ++ [47])).makeStream machine).OneLineEach ↔
      ch = 47 ∨ Lines.Unbroken (cstr sFile) := by
  split_ifs with hslash
  · exact iff_of_true (HttpResponse.oneLineEach_makeError _ _ _) (.inl hslash)
  · rw [HttpResponse.set301Response, HttpResponse.oneLineEach_makeLocation, unbroken_location_iff]
    simp [hslash]

theorem unbroken_contentRange (minus a b n : Nat) :
    Lines.Unbroken (if minus = 0 then [] else
      bytes "bytes " ++ decimal a ++ 45 :: decimal b ++ 47 :: decimal n) := by
  have hbytes : Lines.Unbroken (bytes "bytes ") := by decide
  have hminus : (45 : UInt8) ≠ 13 ∧ (45 : UInt8) ≠ 10 := by decide
  have hslash : (47 : UInt8) ≠ 13 ∧ (47 : UInt8) ≠ 10 := by decide
  split_ifs
  · exact Lines.unbroken_nil
  · refine Lines.unbroken_append.mpr ⟨Lines.unbroken_append.mpr ⟨Lines.unbroken_append.mpr
      ⟨hbytes, HttpResponse.unbroken_decimal a⟩, ?_⟩, ?_⟩
    · exact Lines.unbroken_cons.mpr ⟨hminus, HttpResponse.unbroken_decimal b⟩
    · exact Lines.unbroken_cons.mpr ⟨hslash, HttpResponse.unbroken_decimal n⟩

/-- The date is all that can break the head of a file. -/
theorem oneLineEach_sendLocalFileReady {resp₀ : HttpResponse} (h₀ : resp₀.Plain)
    (ht : Lines.Unbroken resp₀.sFileETag) (h : sendLocalFileReady machine req resp₀ file = .ok resp) :
    resp.OneLineEach ↔ ¬ Time.YearBreaks machine resp₀.iFileMTime := by
  simp only [sendLocalFileReady] at h
  split at h
  · cases h
  split at h
  · cases h
  split at h
  · cases h
  split at h
  · cases h
  split at h
  · cases h
  rw [← Except.ok.inj h, HttpResponse.oneLineEach_setFile h₀ ht (unbroken_contentRange _ _ _ _)
    file.unbroken, ← unbroken_dateString_iff]
  have hcstr : cstr (Time.getDateStringRfc822 machine resp₀.iFileMTime) =
      Time.getDateStringRfc822 machine resp₀.iFileMTime := cstr_of_not_mem (not_mem_cstr _)
  rw [hcstr]

/-- Every response has its lines but the redirect of a directory with CR or LF in its name, and a
file of a year that has them. -/
theorem exchange_stream_iff (h : exchange machine req attr file = some (.ok resp)) :
    resp.OneLineEach ↔ Lined machine req attr := by
  rcases attr with r | st
  · -- the name could not be looked up
    refine iff_of_true ?_ trivial
    by_cases hr : r.value = .eNoent
    · simp only [exchange, seCheckLocalFile, if_pos hr, Option.map_some, Option.some.injEq,
        Except.ok.injEq] at h
      rw [← h]
      exact HttpResponse.oneLineEach_makeError _ _ _
    · simp only [exchange, seCheckLocalFile, if_neg hr, Option.map_some, Option.some.injEq,
        Except.ok.injEq] at h
      rw [← h]
      exact HttpResponse.oneLineEach_of_plain .empty fun hne => absurd rfl hne
  · by_cases hdir : st.isDir
    · simp only [exchange, seCheckLocalFile, if_pos hdir, Option.map_map] at h
      obtain ⟨ch, hch, h⟩ := Option.map_eq_some_iff.mp h
      rw [← Except.ok.inj h, oneLineEach_dir]
      simp [Lined, hdir, hch]
    · by_cases hreg : st.isReg
      · have hplain : HttpResponse.Plain
            { iFileSize := st.size, iFileMTime := st.mtime, sFileETag := fileETag st } :=
          { HttpResponse.Plain.empty with }
        have htag := unbroken_fileETag st
        by_cases hnot : req.notModified machine st.mtime
        · simp only [exchange, seCheckLocalFile, if_neg hdir, hreg, hnot, Bool.not_true,
            Bool.false_eq_true, if_false, if_true, Option.map_some, Option.some.injEq] at h
          rw [← Except.ok.inj h]
          refine iff_of_true (HttpResponse.oneLineEach_set304Response hplain htag) ?_
          simp [Lined, hdir, hnot]
        · simp only [exchange, seCheckLocalFile, if_neg hdir, hreg, hnot, Bool.not_true,
            Bool.false_eq_true, if_false, Option.map_some, Option.some.injEq] at h
          rw [oneLineEach_sendLocalFileReady hplain htag h]
          simp [Lined, hdir, hreg, hnot]
      · simp only [exchange, seCheckLocalFile, if_neg hdir, hreg, Bool.not_false, if_true,
          Option.map_some, Option.some.injEq] at h
        rw [← Except.ok.inj h]
        refine iff_of_true (HttpResponse.oneLineEach_makeError _ _ _) ?_
        simp [Lined, hdir, hreg]

end

/-- A directory whose name holds a line of its own. -/
def brokenDir : FileRequest :=
  { sFile := bytes "/a" ++ CRLF ++ bytes "X: y" }

/-- What the server opens where it comes to no file. -/
def noFile : OpenFile :=
  { stat := .error { value := .eNoent }, contentType := [], unbroken := Lines.unbroken_nil }

theorem exchange_stream_dir :
    (HttpResponse.set301Response {} (bytes "/a/")).makeStream eastern |>.OneLineEach :=
  (exchange_stream_iff (show exchange eastern { sFile := bytes "/a" } (.ok ⟨0o40755, 4096, 1⟩)
      noFile = some (.ok _) from rfl)).mpr
    ⟨fun _ => .inr (by decide), fun h => absurd rfl h⟩

/-- The redirect of a directory whose name has CR and LF in it has a line too many. -/
theorem not_exchange_stream :
    ¬ ∀ (machine : Machine) (req : FileRequest) (attr : Except Ret FileStat) (file : OpenFile)
      (resp : HttpResponse), exchange machine req attr file = some (.ok resp) → resp.OneLineEach := by
  intro h
  have hlined := h eastern brokenDir (.ok ⟨0o40755, 4096, 1⟩) noFile _ rfl
  rcases (oneLineEach_dir brokenDir.sFile 121).mp hlined with hslash | hname
  · cases hslash
  · revert hname
    decide

end Dframework
