import Mathlib
import Dframework.Lang.Number
import Dframework.Library.Lines
import Dframework.Http.Header
import Dframework.Lang.String
import Dframework.Httpd.RangeBytes
import Dframework.Util.Time

/-!
# The responses of the server

A response has members for some headers and a list for the others. `makeStream` writes the status, the
headers and the body, and fills the members that have to be there. Nothing looks at what the headers
have in them.

Results:
1. `makeStream_lines`: the stream is its lines, an empty line and the body.
2. `oneLineEach_iff`: the stream has one line for each header exactly when no header is broken.
3. `Plain.setResponse`, `Plain.headers`: what the senders add breaks none.
-/

namespace Dframework

open CLib

/-- `HttpResponse`, with the list of `HttpHeader`. -/
structure HttpResponse where
  status : Nat := 0
  sBody : Bytes := []
  bKeepAlive : Bool := false
  sDate : Bytes := []
  sServer : Bytes := []
  sLastModified : Bytes := []
  sETag : Bytes := []
  sKeepAlive : Bytes := []
  sConnection : Bytes := []
  sContentType : Bytes := []
  list : List NamedValue := []
  iFileSize : UInt64 := 0
  iFileMTime : Int := 0
  sFileETag : Bytes := []
  sStream : Bytes := []
  deriving DecidableEq, Repr

namespace HttpResponse

def appendHeader (resp : HttpResponse) (name value : Bytes) : HttpResponse :=
  let sName := cstr name
  let value := cstr value
  if equals sName (bytes "Date") then { resp with sDate := value }
  else if equals sName (bytes "Server") then { resp with sServer := value }
  else if equals sName (bytes "Last-Modified") then { resp with sLastModified := value }
  else if equals sName (bytes "ETag") then { resp with sETag := value }
  else if equals sName (bytes "Keep-Alive") then { resp with sKeepAlive := value }
  else if equals sName (bytes "Content-Type") then { resp with sContentType := value }
  else if equals sName (bytes "Connection") then { resp with sConnection := value }
  else { resp with list := Dframework.appendHeader resp.list name value }

end HttpResponse

namespace HttpdSender

def STATUS_TITLE_301 : Bytes := bytes "Moved Permanently"
def STATUS_TITLE_304 : Bytes := bytes "Not Modified"
def STATUS_TITLE_403 : Bytes := bytes "Forbidden"
def STATUS_TITLE_404 : Bytes := bytes "Not Found"

def getStatusMsg (status : Nat) : Bytes :=
  match status with
  | 200 => bytes "OK"
  | 206 => bytes "Partial Content"
  | 301 => STATUS_TITLE_301
  | 304 => STATUS_TITLE_304
  | 403 => STATUS_TITLE_403
  | 404 => STATUS_TITLE_404
  | _ => bytes "-"

/-- `HTML_ERRFMT`. -/
def htmlErr (status : Nat) (title : Bytes) : Bytes :=
  bytes "<html>\n<head><title>" ++ decimal status ++ 32 :: title ++
    bytes "</title></head>\n<body>\n<h1>" ++ title ++
    bytes "</h1>\n<address><!-- --></address>\n</body>\n</html>\n"

/-- `HTML_ERRFMT_LOCATION`. -/
def htmlErrLocation (status : Nat) (title location : Bytes) : Bytes :=
  bytes "<html>\n<head><title>" ++ decimal status ++ 32 :: title ++
    bytes "</title></head>\n<body>\n<h1>" ++ title ++
    bytes "</h1>\n<p>The document has moved <a href=\"" ++ location ++
    bytes "\">here</a>.</p>\n<address><!-- --></address>\n</body>\n</html>\n"

end HttpdSender

namespace HttpResponse

def line (name value : Bytes) : Bytes :=
  printed name ++ bytes ": " ++ printed value ++ CRLF

/-- The members that `makeStream` fills when they are empty. -/
def withDefaults (machine : Machine) (resp : HttpResponse) : HttpResponse :=
  let resp := if resp.sDate = [] then
    { resp with sDate := Time.getDateStringRfc822 machine machine.now } else resp
  let resp := if resp.sServer = [] then { resp with sServer := bytes "Dframework/1.0.2" } else resp
  if resp.sLastModified = [] then { resp with sLastModified := resp.sDate } else resp

def makeStream (machine : Machine) (resp : HttpResponse) : HttpResponse :=
  let resp := resp.withDefaults machine
  { resp with
    sStream :=
      bytes "HTTP/1.1 " ++ decimal resp.status ++ 32 :: HttpdSender.getStatusMsg resp.status ++
        CRLF ++
      line (bytes "Date") resp.sDate ++ line (bytes "Server") resp.sServer ++
      line (bytes "Last-Modified") resp.sLastModified ++
      (if resp.sETag = [] then [] else line (bytes "ETag") resp.sETag) ++
      (resp.list.flatMap fun nv => line nv.name nv.value) ++
      (if resp.sKeepAlive ≠ [] then
        line (bytes "Keep-Alive") resp.sKeepAlive ++ bytes "Connection: Keep-Alive" ++ CRLF
      else if resp.sConnection ≠ [] then line (bytes "Connection") resp.sConnection
      else bytes "Connection: Close" ++ CRLF) ++
      (if resp.sContentType = [] then [] else line (bytes "Content-Type") resp.sContentType) ++
      CRLF ++ resp.sBody }

/-! ## Making a response -/

/-- `HttpdClient::setResponse` without a length. -/
def setKeepAlive (resp : HttpResponse) (status : Nat) (keepAlive : Bool) : HttpResponse :=
  if keepAlive then
    { (resp.appendHeader (bytes "Keep-Alive") (bytes "timeout=2400")).appendHeader
        (bytes "Connection") (bytes "Keep-Alive") with
      bKeepAlive := true, status }
  else { resp.appendHeader (bytes "Connection") (bytes "close") with bKeepAlive := false, status }

/-- `HttpdClient::setResponse`. -/
def setResponse (resp : HttpResponse) (status contentLength : Nat) (keepAlive : Bool) :
    HttpResponse :=
  (resp.appendHeader (bytes "Content-Length") (decimal contentLength)).setKeepAlive status keepAlive

/-- `HttpdClient::setResponseLocation`. -/
def setResponseLocation (resp : HttpResponse) (status contentLength : Nat) (location : Bytes)
    (keepAlive : Bool) : HttpResponse :=
  (resp.appendHeader (bytes "Location") location).setResponse status contentLength keepAlive

/-- `HttpdSender::makeError`. -/
def makeError (resp : HttpResponse) (status : Nat) (title : Bytes) (bKeepAlive : Bool) :
    HttpResponse :=
  let sBody := HttpdSender.htmlErr status title
  { resp with sBody }.setResponse status sBody.length bKeepAlive

/-- `HttpdSender::makeNoBodyError`. -/
def makeNoBodyError (resp : HttpResponse) (status : Nat) (bKeepAlive : Bool) : HttpResponse :=
  { resp with sBody := [] }.setResponse status 0 bKeepAlive

/-- `HttpdSender::makeLocation`. -/
def makeLocation (resp : HttpResponse) (status : Nat) (title location : Bytes) : HttpResponse :=
  let sBody := HttpdSender.htmlErrLocation status title (cstr location)
  { resp with sBody }.setResponseLocation status sBody.length location true

def set301Response (resp : HttpResponse) (sLocation : Bytes) : HttpResponse :=
  resp.makeLocation 301 HttpdSender.STATUS_TITLE_301 sLocation

def set304Response (resp : HttpResponse) : HttpResponse :=
  let resp := resp.makeNoBodyError 304 true
  if resp.sFileETag = [] then resp else resp.appendHeader (bytes "ETag") resp.sFileETag

def set403Response (resp : HttpResponse) : HttpResponse :=
  resp.makeError 403 HttpdSender.STATUS_TITLE_403 false

def set404Response (resp : HttpResponse) : HttpResponse :=
  resp.makeError 404 HttpdSender.STATUS_TITLE_404 false

/-- The headers that `sendLocalFile_ready` gives a file. -/
def setFile (resp : HttpResponse) (answer : RangeAnswer) (bKeepAlive : Bool)
    (sContentRange sContentType sModify : Bytes) : HttpResponse :=
  let resp := resp.setResponse answer.status answer.iLength.toNat bKeepAlive
  let resp := resp.appendHeader (bytes "Accept-Ranges") (bytes "bytes")
  let resp := if sContentRange = [] then resp
    else resp.appendHeader (bytes "Content-Range") sContentRange
  let resp := if sContentType = [] then resp
    else resp.appendHeader (bytes "Content-Type") sContentType
  let resp := if resp.sFileETag = [] then resp else resp.appendHeader (bytes "ETag") resp.sFileETag
  { resp.appendHeader (bytes "Last-Modified") sModify with sBody := [] }

end HttpResponse

/-! ## The lines of a response -/

def NamedValue.field (nv : NamedValue) : Bytes :=
  printed nv.name ++ bytes ": " ++ printed nv.value

namespace HttpResponse

variable {machine : Machine} {resp : HttpResponse} {name value : Bytes}

def statusLine (resp : HttpResponse) : Bytes :=
  bytes "HTTP/1.1 " ++ decimal resp.status ++ 32 :: HttpdSender.getStatusMsg resp.status

/-- The headers that are set, in the order of the stream. -/
def headers (resp : HttpResponse) : List NamedValue :=
  [⟨bytes "Date", resp.sDate⟩, ⟨bytes "Server", resp.sServer⟩,
    ⟨bytes "Last-Modified", resp.sLastModified⟩] ++
  (if resp.sETag = [] then [] else [⟨bytes "ETag", resp.sETag⟩]) ++ resp.list ++
  (if resp.sKeepAlive ≠ [] then
    [⟨bytes "Keep-Alive", resp.sKeepAlive⟩, ⟨bytes "Connection", bytes "Keep-Alive"⟩]
  else if resp.sConnection ≠ [] then [⟨bytes "Connection", resp.sConnection⟩]
  else [⟨bytes "Connection", bytes "Close"⟩]) ++
  (if resp.sContentType = [] then [] else [⟨bytes "Content-Type", resp.sContentType⟩])

/-- The stream is read as one status line, one line for each header, an empty line and the body, and
a body has its length in the head. -/
structure OneLineEach (resp : HttpResponse) : Prop where
  head : ∃ head, Lines.IsHead (1 + resp.headers.length) head ∧
    resp.sStream = head ++ (CRLF ++ resp.sBody)
  length : resp.sBody ≠ [] → ⟨bytes "Content-Length", decimal resp.sBody.length⟩ ∈ resp.list

/-- The stream is its lines, an empty line and the body. -/
theorem makeStream_lines (machine : Machine) (resp : HttpResponse) :
    (resp.makeStream machine).sStream =
      Lines.text ((resp.withDefaults machine).statusLine ::
        (resp.withDefaults machine).headers.map NamedValue.field) ++
        (CRLF ++ (resp.withDefaults machine).sBody) := by
  generalize hr : resp.withDefaults machine = r
  have hlist : Lines.text (r.list.map NamedValue.field) =
      r.list.flatMap fun nv => line nv.name nv.value := by
    rw [Lines.text, List.flatMap_map]
    rfl
  simp only [makeStream, hr, headers, List.map_append, Lines.text_cons, Lines.text_append, hlist]
  split_ifs <;>
    simp [line, statusLine, NamedValue.field, bytes, printed, cstr, CRLF]

theorem unbroken_decimal (n : Nat) : Lines.Unbroken (decimal n) := by
  constructor
  · intro h
    exact absurd (isDigit_of_mem_decimal h) (by decide)
  · intro h
    exact absurd (isDigit_of_mem_decimal h) (by decide)

theorem unbroken_hexadecimal (n : Nat) : Lines.Unbroken (hexadecimal n) := by
  constructor
  · intro h
    exact absurd (isxdigit_of_mem_hexadecimal h) (by decide)
  · intro h
    exact absurd (isxdigit_of_mem_hexadecimal h) (by decide)

theorem unbroken_getStatusMsg (status : Nat) :
    Lines.Unbroken (HttpdSender.getStatusMsg status) := by
  unfold HttpdSender.getStatusMsg
  split <;> decide

theorem unbroken_statusLine (resp : HttpResponse) : Lines.Unbroken resp.statusLine := by
  have htitle := unbroken_getStatusMsg resp.status
  refine Lines.unbroken_append.mpr ⟨Lines.unbroken_append.mpr ⟨by decide, unbroken_decimal _⟩, ?_⟩
  exact Lines.unbroken_cons.mpr ⟨by decide, htitle⟩

theorem unbroken_printed {s : Bytes} : Lines.Unbroken (printed s) ↔ Lines.Unbroken (cstr s) := by
  unfold printed
  split_ifs with h
  · rw [h]
    decide
  · rfl

theorem unbroken_field {nv : NamedValue} :
    Lines.Unbroken nv.field ↔ Lines.Unbroken (cstr nv.name) ∧ Lines.Unbroken (cstr nv.value) := by
  have hcolon : Lines.Unbroken (bytes ": ") := by decide
  rw [NamedValue.field, Lines.unbroken_append, Lines.unbroken_append, unbroken_printed,
    unbroken_printed]
  tauto

/-- The lines are found exactly when no header is broken. -/
theorem oneLineEach_iff :
    (resp.makeStream machine).OneLineEach ↔
      (∀ nv ∈ (resp.withDefaults machine).headers, Lines.Unbroken nv.field) ∧
      ((resp.withDefaults machine).sBody ≠ [] →
        ⟨bytes "Content-Length", decimal (resp.withDefaults machine).sBody.length⟩ ∈
          (resp.withDefaults machine).list) := by
  have hlines := makeStream_lines machine resp
  have hstatus := unbroken_statusLine (resp.withDefaults machine)
  have hhead := Lines.isHead_text_iff ((resp.withDefaults machine).statusLine ::
    (resp.withDefaults machine).headers.map NamedValue.field)
  rw [List.length_cons, List.length_map, Nat.add_comm] at hhead
  simp only [List.forall_mem_cons, List.forall_mem_map, hstatus, true_and] at hhead
  constructor
  · rintro ⟨⟨head, hn, heq⟩, hlen⟩
    refine ⟨hhead.mp ?_, hlen⟩
    rw [hlines] at heq
    exact List.append_cancel_right heq ▸ hn
  · rintro ⟨h, hlen⟩
    exact ⟨⟨_, hhead.mpr h, hlines⟩, hlen⟩

/-! ## Responses without a broken header -/

/-- No header of the response is broken. -/
structure Plain (resp : HttpResponse) : Prop where
  date : Lines.Unbroken resp.sDate
  server : Lines.Unbroken resp.sServer
  lastModified : Lines.Unbroken resp.sLastModified
  eTag : Lines.Unbroken resp.sETag
  keepAlive : Lines.Unbroken resp.sKeepAlive
  connection : Lines.Unbroken resp.sConnection
  contentType : Lines.Unbroken resp.sContentType
  list : ∀ nv ∈ resp.list, Lines.Unbroken nv.name ∧ Lines.Unbroken nv.value

theorem Plain.empty : Plain {} := by
  constructor <;> first | exact Lines.unbroken_nil | exact fun nv h => absurd h List.not_mem_nil

theorem unbroken_cstr {s : Bytes} (h : Lines.Unbroken s) : Lines.Unbroken (cstr s) :=
  Lines.unbroken_of_prefix h (cstr_isPrefix s)

theorem Plain.headers (h : resp.Plain) : ∀ nv ∈ resp.headers, Lines.Unbroken nv.field := by
  have hfield : ∀ {n v : Bytes}, Lines.Unbroken n → Lines.Unbroken v →
      Lines.Unbroken (NamedValue.field ⟨n, v⟩) := fun hn hv =>
    unbroken_field.mpr ⟨unbroken_cstr hn, unbroken_cstr hv⟩
  have hlist : ∀ nv ∈ resp.list, Lines.Unbroken nv.field := fun nv hmem =>
    hfield (h.list nv hmem).1 (h.list nv hmem).2
  have hdate := hfield (n := bytes "Date") (by decide) h.date
  have hserver := hfield (n := bytes "Server") (by decide) h.server
  have hmodified := hfield (n := bytes "Last-Modified") (by decide) h.lastModified
  have htag := hfield (n := bytes "ETag") (by decide) h.eTag
  have hkeep := hfield (n := bytes "Keep-Alive") (by decide) h.keepAlive
  have hconnection := hfield (n := bytes "Connection") (by decide) h.connection
  have htype := hfield (n := bytes "Content-Type") (by decide) h.contentType
  have halive : Lines.Unbroken (NamedValue.field ⟨bytes "Connection", bytes "Keep-Alive"⟩) := by
    decide
  have hclose : Lines.Unbroken (NamedValue.field ⟨bytes "Connection", bytes "Close"⟩) := by decide
  have hnone : ∀ nv ∈ ([] : List NamedValue), Lines.Unbroken nv.field := fun _ hmem =>
    absurd hmem List.not_mem_nil
  rw [HttpResponse.headers]
  refine List.forall_mem_append.mpr ⟨List.forall_mem_append.mpr ⟨List.forall_mem_append.mpr
    ⟨List.forall_mem_append.mpr ⟨?_, ?_⟩, hlist⟩, ?_⟩, ?_⟩
  · exact List.forall_mem_cons.mpr ⟨hdate, List.forall_mem_cons.mpr ⟨hserver,
      List.forall_mem_singleton.mpr hmodified⟩⟩
  · split_ifs
    · exact hnone
    · exact List.forall_mem_singleton.mpr htag
  · split_ifs
    · exact List.forall_mem_cons.mpr ⟨hkeep, List.forall_mem_singleton.mpr halive⟩
    · exact List.forall_mem_singleton.mpr hconnection
    · exact List.forall_mem_singleton.mpr hclose
  · split_ifs
    · exact hnone
    · exact List.forall_mem_singleton.mpr htype

theorem Plain.appendHeader (h : resp.Plain) (hn : Lines.Unbroken name) (hv : Lines.Unbroken value) :
    (resp.appendHeader name value).Plain := by
  have hc := unbroken_cstr hv
  simp only [HttpResponse.appendHeader]
  split_ifs
  · exact { h with date := hc }
  · exact { h with server := hc }
  · exact { h with lastModified := hc }
  · exact { h with eTag := hc }
  · exact { h with keepAlive := hc }
  · exact { h with contentType := hc }
  · exact { h with connection := hc }
  · refine { h with list := fun nv hmem => ?_ }
    rcases mem_appendHeader hmem with rfl | hmem
    · exact ⟨unbroken_cstr hn, unbroken_cstr hc⟩
    · exact h.list nv hmem

theorem Plain.marked (h : resp.Plain) (status : Nat) (bKeepAlive : Bool) :
    Plain { resp with status, bKeepAlive } :=
  { h with }

theorem Plain.setKeepAlive (h : resp.Plain) (status : Nat) (keepAlive : Bool) :
    (resp.setKeepAlive status keepAlive).Plain := by
  have hname : Lines.Unbroken (bytes "Keep-Alive") := by decide
  have htime : Lines.Unbroken (bytes "timeout=2400") := by decide
  have hconnection : Lines.Unbroken (bytes "Connection") := by decide
  have hclose : Lines.Unbroken (bytes "close") := by decide
  cases keepAlive with
  | true => exact ((h.appendHeader hname htime).appendHeader hconnection hname).marked status true
  | false => exact (h.appendHeader hconnection hclose).marked status false

theorem Plain.setResponse (h : resp.Plain) (status contentLength : Nat) (keepAlive : Bool) :
    (resp.setResponse status contentLength keepAlive).Plain :=
  (h.appendHeader (by decide) (unbroken_decimal contentLength)).setKeepAlive status keepAlive

end HttpResponse

end Dframework
