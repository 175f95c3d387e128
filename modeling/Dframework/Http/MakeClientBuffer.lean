import Mathlib
import Dframework.Library.Lines
import Dframework.Http.Header
import Dframework.Lang.Number
import Dframework.Net.FileInfo
import Dframework.Net.Uri

/-!
# The request of the client

`HttpMakeClientBuffer` writes the head of a request and the contents that go with it into one buffer,
and `request_raw` sends that buffer and nothing else. The parts of a multipart request are counted into
the length of the contents and never written.

Results:
1. `make_lines`: the buffer is the lines of the head, an empty line and the contents.
2. `request_consistent_iff`: the requests whose head says what is sent behind its first empty line.
-/

namespace Dframework

open CLib

def contentType (fm : Option Bytes) : Option Bytes :=
  (Uri.FileInfo.parse fm).map fun oFileInfo =>
    let sExtension := oFileInfo.sExtension
    if equals sExtension (bytes "html") then bytes "text/html"
    else if equals sExtension (bytes "txt") then bytes "text/plain"
    else if equals sExtension (bytes "xml") then bytes "text/xml"
    else if equals sExtension (bytes "jpg") then bytes "image/jpeg"
    else if equals sExtension (bytes "jpeg") then bytes "image/jpeg"
    else if equals sExtension (bytes "gif") then bytes "image/gif"
    else if equals sExtension (bytes "png") then bytes "image/png"
    else if equals sExtension (bytes "tif") then bytes "image/tiff"
    else if equals sExtension (bytes "tiff") then bytes "image/tiff"
    else bytes "application/octet-stream"

/-! ## The query -/

/-- The port of a scheme, `URI::getDefaultPort`. -/
def defaultPorts : List (Bytes × Int) :=
  [("http", 80), ("file", 0), ("https", 443), ("ftp", 21), ("ssh", 22), ("sftp", 22),
    ("telnet", 23), ("smtp", 25), ("dns", 53), ("dhcp", 68), ("finger", 79), ("pop3", 110),
    ("nntp", 119), ("imap", 143), ("snmp", 161), ("irc", 194), ("imap3", 220), ("ldap", 389),
    ("ssl", 443), ("smb", 445), ("mssql", 1433), ("oracle", 1521), ("nfs", 2049),
    ("mysql", 3306)].map fun p => (bytes p.1, p.2)

def getDefaultPort (scheme : Bytes) : Int :=
  if scheme = [] then 80
  else
    match defaultPorts.find? fun p => equals scheme p.1 with
    | some p => p.2
    | none => 80

def Uri.getPort (u : Uri) : Int :=
  if u.port ≠ 0 then u.port else getDefaultPort u.scheme

/-- `HttpFormData`. Its constructors leave `nContentLength` as it is. -/
structure HttpFormData where
  sName : Bytes
  sValue : Bytes := []
  sUri : Bytes := []
  sType : Bytes := []
  bIsUri : Bool
  nContentLength : UInt64
  deriving DecidableEq, Repr

/-- What `HttpMakeClientBuffer` reads of `HttpQuery`. -/
structure ClientQuery where
  sMethod : Bytes
  sVirtualHost : Bytes := []
  iVirtualPort : Int := 0
  sUserAgent : Bytes
  aFormDataList : List HttpFormData := []
  requestHeader : List NamedValue := []
  deriving DecidableEq, Repr

structure HttpMakeClientBuffer where
  sHost : Bytes := []
  sContents : Bytes := []
  sContentType : Bytes := []
  uContentLength : UInt64 := 0
  iDepth : Nat := 0
  bDepth : Bool := false
  bMultipart : Bool := false
  sBoundary : Bytes := []
  bExpect100 : Bool := false
  deriving DecidableEq, Repr

/-- A number as `%ld` writes it. -/
def signedDecimal (n : UInt64) : Bytes :=
  decimal n.toInt64.toInt

def ClientQuery.host (q : ClientQuery) (uri : Uri) : Bytes :=
  if q.sVirtualHost = [] then uri.host else q.sVirtualHost

def ClientQuery.port (q : ClientQuery) (uri : Uri) : Int :=
  if q.sVirtualHost = [] then uri.getPort
  else if q.iVirtualPort = 0 then uri.getPort
  else q.iVirtualPort

/-- The contents of a `PROPFIND`. -/
def propfind : Bytes :=
  bytes "<?xml version=\"1.0\"?><D:propfind xmlns:D=\"DAV:\">\r\n  <D:allprop>\r\n    <D:namespaces>\r\n      <D:namespace uri=\"DAV:\"/>\r\n    </D:namespaces>\r\n  </D:allprop>\r\n</D:propfind>\r\n"

def ClientQuery.contents (q : ClientQuery) : Bytes :=
  if equals q.sMethod (bytes "PROPFIND") then propfind else []

/-- The queries whose contents come in parts. -/
def ClientQuery.isMultipart (q : ClientQuery) : Bool :=
  equals q.sMethod (bytes "POST") ||
    (!equals q.sMethod (bytes "PROPFIND") && q.aFormDataList.any HttpFormData.bIsUri)

/-- The builder of a query without parts, apart from `m_sHost`. -/
def ClientQuery.plain (q : ClientQuery) : HttpMakeClientBuffer :=
  if equals q.sMethod (bytes "PROPFIND") then
    { sContents := propfind
      sContentType := bytes "text/xml"
      uContentLength := UInt64.ofNat propfind.length
      iDepth := 1
      bDepth := true }
  else {}

namespace HttpMakeClientBuffer

def makeHost (q : ClientQuery) (uri : Uri) : Except Ret Bytes :=
  match toChars (q.host uri) with
  | none => .error { value := .eInval }
  | some host =>
    if q.port uri = 0 ∨ q.sMethod = [] then .error { value := .eInval }
    else if q.port uri = 80 then .ok (bytes "Host: " ++ cstr host ++ bytes ":80" ++ CRLF)
    else .ok (bytes "Host: " ++ cstr host ++ 58 :: decimal (q.port uri) ++ CRLF)

def boundary : Bytes :=
  bytes "----BOUNDARY"

/-- The head of a part of a multipart request, and the length of what follows it. A part that names a
file takes its length from `stat`. -/
def makePart (stat : Uri → Except Ret UInt64) (data : HttpFormData) :
    Option (Except Ret (Bytes × UInt64)) :=
  if data.bIsUri then do
    let (_, oUri) ← Uri.parse data.sUri
    let oFileInfo ← Uri.FileInfo.parse (toChars oUri.path)
    let sType ← if data.sType = [] then contentType (toChars oFileInfo.sExtension) else some data.sType
    let length := if equals oUri.scheme (bytes "File") then stat oUri else .ok data.nContentLength
    some (length.map fun n =>
      (boundary ++ CRLF ++ bytes "Content-Disposition: form-data; name=\"" ++ printed data.sName ++
        bytes "\"; filename=\"" ++ printed oFileInfo.sFilename ++ 34 :: CRLF ++
        bytes "Content-Type: " ++ printed sType ++ CRLF ++
        bytes "Content-Length: " ++ signedDecimal n ++ CRLF ++ CRLF, n))
  else
    some (.ok
      (boundary ++ CRLF ++ bytes "Content-Disposition: form-data; name=\"" ++ printed data.sName ++
        34 :: CRLF ++ bytes "Content-Length: " ++
        decimal (Int.bmod data.sValue.length (2 ^ 32)) ++ CRLF ++ CRLF,
      UInt64.ofNat data.sValue.length))

/-- The loop of `HttpMakeClientBuffer::makeMultipartContents`. -/
def partsLength (stat : Uri → Except Ret UInt64) :
    List HttpFormData → UInt64 → Option (Except Ret UInt64)
  | [], contLen => some (.ok contLen)
  | data :: rest, contLen => do
    match ← makePart stat data with
    | .error r => some (.error r)
    | .ok (sBuffer, n) => partsLength stat rest (contLen + (UInt64.ofNat sBuffer.length + n + 2))

def makeMultipartContents (stat : Uri → Except Ret UInt64) (q : ClientQuery)
    (b : HttpMakeClientBuffer) : Option (Except Ret HttpMakeClientBuffer) :=
  (partsLength stat q.aFormDataList 0).map fun length => length.map fun contLen =>
    { b with
      sBoundary := boundary
      sContentType := bytes "multipart/form-data; boundary=" ++ boundary
      uContentLength := contLen + 2 }

def makeContents (stat : Uri → Except Ret UInt64) (q : ClientQuery) (b : HttpMakeClientBuffer) :
    Option (Except Ret HttpMakeClientBuffer) :=
  if equals q.sMethod (bytes "POST") then makeMultipartContents stat q { b with bMultipart := true }
  else if equals q.sMethod (bytes "PROPFIND") then
    some (.ok { b with
      sContents := propfind
      sContentType := bytes "text/xml"
      uContentLength := UInt64.ofNat propfind.length
      iDepth := 1
      bDepth := true })
  else if q.aFormDataList.any HttpFormData.bIsUri then
    makeMultipartContents stat q { b with bMultipart := true }
  else some (.ok b)

/-- `String::replace` of a text by another one, at `count` places at most. -/
def replaceText (pat into : Bytes) : Nat → Bytes → Bytes
  | 0, s => s
  | count + 1, s =>
    match strstr s pat with
    | none => s
    | some pos => s.take pos ++ into ++ replaceText pat into count (s.drop (pos + pat.length))

def requestTarget (uri : Uri) : Bytes :=
  let sPath := match toChars uri.query with
    | some pQuery => printed uri.path ++ 63 :: cstr pQuery
    | none => printed uri.path
  replaceText [32] (bytes "%20") sPath.length sPath

def appendHeaders (l : List NamedValue) (sHeadBuffer : Bytes) : Bytes :=
  sHeadBuffer ++ l.flatMap fun nv =>
    if nv.name = [] then [] else cstr nv.name ++ bytes ": " ++ cstr nv.value ++ CRLF

/-- The head in front of the headers of the query, as `make` formats it. -/
def formatHead (q : ClientQuery) (uri : Uri) (b : HttpMakeClientBuffer) : Bytes :=
  let sContents := if 0 < b.uContentLength then
    bytes "Content-Type: " ++ printed b.sContentType ++ CRLF ++
      bytes "Content-Length: " ++ signedDecimal b.uContentLength ++ CRLF
    else []
  let sDepth := if b.bDepth then bytes "Depth: " ++ decimal b.iDepth ++ CRLF else []
  printed q.sMethod ++ 32 :: requestTarget uri ++ bytes " HTTP/1.1" ++ CRLF ++
    b.sHost ++ bytes "Connection: Keep-Alive" ++ CRLF ++
    (if b.bExpect100 then bytes "Expect: 100-Continue" ++ CRLF else []) ++
    sContents ++ sDepth ++ bytes "User-Agent: " ++ printed q.sUserAgent ++ CRLF

/-- `HttpMakeClientBuffer::make`: the builder, and `m_sHeadBuffer` of the round. -/
def make (stat : Uri → Except Ret UInt64) (q : ClientQuery) (uri : Uri) :
    Option (Except Ret (HttpMakeClientBuffer × Bytes)) :=
  match makeHost q uri with
  | .error r => some (.error r)
  | .ok sHost =>
    match makeContents stat q { sHost } with
    | none => none
    | some (.error r) => some (.error r)
    | some (.ok b) =>
      let b := { b with bExpect100 := b.bExpect100 || b.bMultipart }
      some (.ok (b, appendHeaders q.requestHeader (formatHead q uri b) ++ CRLF ++ b.sContents))

/-! ## The lines of the head -/

def requestLine (q : ClientQuery) (uri : Uri) : Bytes :=
  printed q.sMethod ++ 32 :: requestTarget uri ++ bytes " HTTP/1.1"

def hostLine (q : ClientQuery) (uri : Uri) : Bytes :=
  bytes "Host: " ++ cstr (q.host uri) ++ 58 :: decimal (q.port uri)

def agentLine (q : ClientQuery) : Bytes :=
  bytes "User-Agent: " ++ printed q.sUserAgent

/-- The lines of the builder. -/
def ownLines (q : ClientQuery) (uri : Uri) (b : HttpMakeClientBuffer) : List Bytes :=
  [hostLine q uri, bytes "Connection: Keep-Alive"] ++
  (if b.bExpect100 then [bytes "Expect: 100-Continue"] else []) ++
  (if 0 < b.uContentLength then [bytes "Content-Type: " ++ printed b.sContentType,
    bytes "Content-Length: " ++ signedDecimal b.uContentLength] else []) ++
  (if b.bDepth then [bytes "Depth: " ++ decimal b.iDepth] else []) ++ [agentLine q]

def headerLine (nv : NamedValue) : Bytes :=
  cstr nv.name ++ bytes ": " ++ cstr nv.value

def headerLines (l : List NamedValue) : List Bytes :=
  (l.filter fun nv => nv.name ≠ []).map headerLine

/-- The lines behind the request line. A text of the query with a line end in it makes more of
them when they are read. -/
def headLines (q : ClientQuery) (uri : Uri) (b : HttpMakeClientBuffer) : List Bytes :=
  ownLines q uri b ++ headerLines q.requestHeader

section

variable {stat : Uri → Except Ret UInt64} {q : ClientQuery} {uri : Uri} {b : HttpMakeClientBuffer}
  {sent : Bytes}

theorem appendHeaders_eq (l : List NamedValue) (head : Bytes) :
    appendHeaders l head = head ++ Lines.text (headerLines l) := by
  rw [appendHeaders, headerLines]
  congr 1
  induction l with
  | nil => rfl
  | cons nv l ih =>
    rw [List.flatMap_cons, ih]
    by_cases hname : nv.name = []
    · simp [hname]
    · simp [hname, headerLine]

theorem makeHost_eq {sHost : Bytes} (h : makeHost q uri = .ok sHost) :
    sHost = hostLine q uri ++ CRLF ∧ q.sMethod ≠ [] := by
  rw [makeHost] at h
  split at h
  · cases h
  next host hhost =>
    have heq : host = q.host uri := by
      unfold toChars at hhost
      split at hhost
      · cases hhost
      · exact (Option.some.inj hhost).symm
    split_ifs at h with h0 h80
    · rw [not_or] at h0
      refine ⟨?_, h0.2⟩
      rw [← Except.ok.inj h, heq, hostLine, h80]
      rfl
    · rw [not_or] at h0
      refine ⟨?_, h0.2⟩
      rw [← Except.ok.inj h, heq, hostLine]

theorem makeMultipartContents_spec {b₀ : HttpMakeClientBuffer}
    (h : makeMultipartContents stat q b₀ = some (.ok b)) :
    b.bMultipart = b₀.bMultipart ∧ b.sContents = b₀.sContents ∧ b.sHost = b₀.sHost ∧
      b.sBoundary = boundary := by
  rw [makeMultipartContents, Option.map_eq_some_iff] at h
  obtain ⟨length, -, hlength⟩ := h
  cases length with
  | error r => cases hlength
  | ok contLen =>
    obtain rfl := Except.ok.inj hlength
    exact ⟨rfl, rfl, rfl, rfl⟩

theorem not_post_of_propfind (h : equals q.sMethod (bytes "PROPFIND")) :
    equals q.sMethod (bytes "POST") = false := by
  rw [Bool.eq_false_iff]
  intro hpost
  unfold equals at h hpost
  split at h
  · exact absurd h (by decide)
  next hne =>
    rw [if_neg hne, decide_eq_true_eq] at hpost
    rw [decide_eq_true_eq, hpost] at h
    exact absurd h (by decide)

/-- What `makeContents` leaves behind. -/
theorem makeContents_spec {sHost : Bytes} (h : makeContents stat q { sHost } = some (.ok b)) :
    b.bMultipart = q.isMultipart ∧ b.sContents = q.contents ∧ b.sHost = sHost ∧
      (q.isMultipart → b.sBoundary = boundary) ∧
      (q.isMultipart = false → b = { q.plain with sHost }) := by
  rw [makeContents] at h
  split_ifs at h with hpost hpropfind huri
  · obtain ⟨hm, hc, hh, hb⟩ := makeMultipartContents_spec h
    have hnot : equals q.sMethod (bytes "PROPFIND") = false := by
      rw [Bool.eq_false_iff]
      intro hpropfind
      rw [not_post_of_propfind hpropfind] at hpost
      cases hpost
    simp [ClientQuery.isMultipart, ClientQuery.contents, hpost, hnot, hm, hc, hh, hb]
  · obtain rfl := Except.ok.inj (Option.some.inj h)
    simp [ClientQuery.isMultipart, ClientQuery.contents, ClientQuery.plain, hpost, hpropfind]
  · obtain ⟨hm, hc, hh, hb⟩ := makeMultipartContents_spec h
    simp [ClientQuery.isMultipart, ClientQuery.contents, hpost, hpropfind, huri, hm, hc, hh, hb]
  · obtain rfl := Except.ok.inj (Option.some.inj h)
    simp [ClientQuery.isMultipart, ClientQuery.contents, ClientQuery.plain, hpost, hpropfind, huri]

theorem formatHead_eq (h : b.sHost = hostLine q uri ++ CRLF) :
    formatHead q uri b = Lines.text (requestLine q uri :: ownLines q uri b) := by
  have hlines : ∀ (p : Prop) [Decidable p] (ls : List Bytes),
      Lines.text (if p then ls else []) = if p then Lines.text ls else [] := fun p _ ls => by
    split_ifs <;> rfl
  simp only [formatHead, ownLines, agentLine, requestLine, h, hlines, Lines.text_append, Lines.text_cons,
    Lines.text_nil, List.append_assoc, List.cons_append, List.nil_append, List.append_nil]

/-- The buffer is the lines of the head, an empty line and the contents. -/
theorem make_lines (h : make stat q uri = some (.ok (b, sent))) :
    sent = Lines.text (requestLine q uri :: headLines q uri b) ++ (CRLF ++ q.contents) ∧
      b.bMultipart = q.isMultipart ∧ (q.isMultipart → b.sBoundary = boundary) ∧
      (q.isMultipart = false → headLines q uri b = headLines q uri q.plain) := by
  rw [make] at h
  split at h
  · cases h
  next sHost hhost =>
    obtain ⟨hhost, -⟩ := makeHost_eq hhost
    split at h
    · cases h
    · cases h
    next b₀ hb₀ =>
      obtain ⟨hm, hc, hh, hbound, hplain⟩ := makeContents_spec hb₀
      obtain ⟨rfl, rfl⟩ := Prod.mk.inj (Except.ok.inj (Option.some.inj h))
      refine ⟨?_, hm, hbound, fun hmulti => ?_⟩
      swap
      · obtain rfl := hplain hmulti
        have hexpect : (q.plain.bExpect100 || q.plain.bMultipart) = q.plain.bExpect100 := by
          rw [ClientQuery.plain]
          split_ifs <;> rfl
        simp only [headLines, ownLines, hexpect]
      have hhead : formatHead q uri { b₀ with bExpect100 := b₀.bExpect100 || b₀.bMultipart } =
          Lines.text (requestLine q uri ::
            ownLines q uri { b₀ with bExpect100 := b₀.bExpect100 || b₀.bMultipart }) :=
        formatHead_eq (hh.trans hhost)
      rw [appendHeaders_eq, hhead, headLines, ← hc, ← List.cons_append, Lines.text_append,
        List.append_assoc]

/-! ## The declared length -/

/-- The length that a line declares: the number behind the colon of a `Content-Length`. -/
def declares (l : Bytes) : Option Int :=
  match strstr l [58] with
  | none => none
  | some i =>
    if equals (l.take i) (bytes "Content-Length") then some (strtol 10 (l.drop (i + 1))) else none

/-- Parts of a multipart body, each behind a boundary, and the boundary that closes it. -/
def IsMultipart (sBoundary : Bytes) (count : Nat) (body : Bytes) : Prop :=
  ∃ parts : List Bytes, parts.length = count ∧
    body = (parts.flatMap fun part => sBoundary ++ CRLF ++ part ++ CRLF) ++ sBoundary ++ bytes "--"

/-- The lengths that some lines declare are that of the body, and one stands there when it has one. -/
def Fits (lines : List Bytes) (body : Bytes) : Prop :=
  (∀ l ∈ lines, ∀ n, declares l = some n → n = body.length) ∧
    ((∀ l ∈ lines, declares l = none) → body = [])

/-- The lines behind the first one say what is sent behind the first empty line. -/
def SelfConsistent (q : ClientQuery) (b : HttpMakeClientBuffer) (sent : Bytes) : Prop :=
  ∃ line lines body, Lines.cutHead sent = some (line :: lines, body) ∧ Fits lines body ∧
    (b.bMultipart → IsMultipart b.sBoundary q.aFormDataList.length body)

/-- The lines behind the first one that the texts of a query make when they are read. -/
def spelled (q : ClientQuery) (uri : Uri) : List Bytes :=
  (Search.pieces CRLF (requestLine q uri)).tail ++
    Lines.broken (hostLine q uri :: agentLine q :: headerLines q.requestHeader)

/-- The texts of a query without parts make an empty line of their own, and the lines in front of it
declare what then stands behind it. -/
def EndsEarly (q : ClientQuery) (uri : Uri) : Prop :=
  ∃ front behind, (Lines.broken (requestLine q uri :: headLines q uri q.plain)).tail =
      front ++ [] :: behind ∧ [] ∉ front ∧ Fits front (Lines.text behind ++ (CRLF ++ q.contents))

theorem propfind_length : propfind.length = 170 := by
  rw [propfind, bytes, List.length_map, String.toList_ofList]
  rfl

/-- The lines of a query without parts that are the same whatever its texts are. -/
def fixedLines (q : ClientQuery) : List Bytes :=
  bytes "Connection: Keep-Alive" ::
    if equals q.sMethod (bytes "PROPFIND") then
      [bytes "Content-Type: text/xml", bytes "Content-Length: 170", bytes "Depth: 1"] else []

theorem ownLines_plain (q : ClientQuery) (uri : Uri) :
    ownLines q uri q.plain = hostLine q uri :: (fixedLines q ++ [agentLine q]) := by
  rw [ownLines, fixedLines, ClientQuery.plain, propfind_length]
  by_cases hp : equals q.sMethod (bytes "PROPFIND") = true
  · rw [if_pos hp, if_pos hp]
    rfl
  · rw [if_neg hp, if_neg hp]
    rfl

/-- What is read behind the first line comes from the texts, or is fixed. -/
theorem mem_headPieces (q : ClientQuery) (uri : Uri) (p : Bytes) :
    p ∈ (Lines.broken (requestLine q uri :: headLines q uri q.plain)).tail ↔
      p ∈ spelled q uri ∨ p ∈ fixedLines q := by
  have hfixed : Lines.broken (fixedLines q) = fixedLines q := by
    rw [Lines.broken, List.flatMap_congr (g := fun l => [l]) fun l hl =>
      Lines.pieces_of_unbroken ?_, List.flatMap_singleton']
    rw [fixedLines] at hl
    split_ifs at hl <;> revert l <;> decide
  obtain ⟨line, lines, hrequest⟩ :=
    List.exists_cons_of_ne_nil (Search.pieces_ne_nil CRLF (requestLine q uri))
  have happend : ∀ a b, Lines.broken (a ++ b) = Lines.broken a ++ Lines.broken b := fun a b =>
    List.flatMap_append
  have hcons : ∀ l ls, Lines.broken (l :: ls) = Search.pieces CRLF l ++ Lines.broken ls := fun l ls =>
    List.flatMap_cons
  rw [headLines, ownLines_plain, spelled]
  simp only [hcons, List.cons_append, happend, hfixed, hrequest, List.tail_cons, List.mem_append]
  simp only [Lines.broken, List.flatMap_nil, List.not_mem_nil, or_false]
  tauto

theorem fixedLines_ne_nil (q : ClientQuery) : [] ∉ fixedLines q := by
  rw [fixedLines]
  split_ifs <;> decide

/-- The builder declares the length of the contents. -/
theorem fits_fixedLines (q : ClientQuery) : Fits (fixedLines q) q.contents := by
  rw [fixedLines, ClientQuery.contents]
  split_ifs
  · have hdeclares : declares (bytes "Content-Length: 170") = some 170 := by decide
    refine ⟨?_, fun hnone => ?_⟩
    · rw [propfind_length]
      simp only [List.forall_mem_cons]
      exact ⟨by decide, by decide, by decide, by decide, fun _ hl => (by cases hl)⟩
    · rw [hnone _ (by simp)] at hdeclares
      cases hdeclares
  · exact ⟨by decide, fun _ => rfl⟩

/-- A body of parts ends with the boundary that closes it. -/
theorem getLast?_of_isMultipart {sBoundary : Bytes} {count : Nat} {body : Bytes}
    (h : IsMultipart sBoundary count body) : body.getLast? = some 45 := by
  obtain ⟨parts, -, rfl⟩ := h
  rw [List.getLast?_append]
  rfl

/-- Of a query with parts none is sent. -/
theorem not_selfConsistent (h : make stat q uri = some (.ok (b, sent))) (hmulti : q.isMultipart) :
    ¬ SelfConsistent q b sent := by
  obtain ⟨hsent, hm, -, -⟩ := make_lines h
  have hnone : q.contents = [] := by
    rw [ClientQuery.contents]
    split_ifs with hp
    · rw [ClientQuery.isMultipart, not_post_of_propfind hp, hp] at hmulti
      cases hmulti
    · rfl
  rintro ⟨line, lines, body, hcut, -, hparts⟩
  have hlast := getLast?_of_isMultipart (hparts (hm.trans hmulti))
  -- all that is sent ends with a line end, and so does any end of it
  have hend : sent.getLast? = some 10 := by
    rw [hsent, hnone, List.append_nil, List.getLast?_append]
    rfl
  obtain ⟨i, -, hi⟩ := Option.map_eq_some_iff.mp hcut
  obtain rfl := (Prod.mk.inj hi).2
  rw [List.getLast?_drop] at hlast
  split_ifs at hlast
  rw [hend] at hlast
  exact absurd hlast (by decide)

/-- Where the head ends is settled by the first empty line that is read. -/
theorem selfConsistent_iff_fits {line : Bytes} {front : List Bytes} {body : Bytes}
    (hplain : ¬ b.bMultipart) (hcut : Lines.cutHead sent = some (line :: front, body)) :
    SelfConsistent q b sent ↔ Fits front body := by
  constructor
  · rintro ⟨l, ls, body', hcut', hfits, -⟩
    obtain ⟨hls, rfl⟩ := Prod.mk.inj (Option.some.inj (hcut.symm.trans hcut'))
    exact (List.cons.inj hls).2 ▸ hfits
  · exact fun hfits => ⟨line, front, body, hcut, hfits, fun hb => absurd hb hplain⟩

/-- The head says what is sent behind it exactly when the query has no parts and its texts make no
line that is empty or declares another length, or make an empty line at the right place. -/
theorem request_consistent_iff (h : make stat q uri = some (.ok (b, sent))) :
    SelfConsistent q b sent ↔
      q.isMultipart = false ∧
        ((∀ p ∈ spelled q uri, p ≠ [] ∧ ∀ n, declares p = some n → n = q.contents.length) ∨
          EndsEarly q uri) := by
  obtain ⟨hsent, hm, -, hplain⟩ := make_lines h
  rcases hmulti : q.isMultipart with _ | _
  swap
  · exact iff_of_false (not_selfConsistent h hmulti) fun hcond => by cases hcond.1
  have hmulti' : ¬ b.bMultipart := by simp [hm, hmulti]
  have hne : Lines.broken (requestLine q uri :: headLines q uri q.plain) ≠ [] := by
    rw [Lines.broken, List.flatMap_cons]
    exact fun hnil => Search.pieces_ne_nil _ _ (List.append_eq_nil_iff.mp hnil).1
  obtain ⟨line, lines, hlines⟩ := List.exists_cons_of_ne_nil hne
  have hmem : ∀ p, p ∈ lines ↔ p ∈ spelled q uri ∨ p ∈ fixedLines q := by
    intro p
    rw [← mem_headPieces, hlines, List.tail_cons]
  have hfree : ∀ p ∈ line :: lines, Search.find CRLF p = none := fun p hp =>
    Lines.find_of_mem_broken (hlines ▸ hp)
  rw [hplain hmulti, ← Lines.text_broken, hlines] at hsent
  have hearly : ∀ {front behind}, lines = front ++ [] :: behind → [] ∉ front →
      (SelfConsistent q b sent ↔ Fits front (Lines.text behind ++ (CRLF ++ q.contents))) := by
    intro front behind hsplit hfront
    refine selfConsistent_iff_fits hmulti' (show Lines.cutHead sent = some (line :: front, _) from ?_)
    rw [hsent, hsplit, ← List.cons_append, Lines.text_append, Lines.text_cons [], List.nil_append,
      List.append_assoc, List.append_assoc]
    refine Lines.cutHead_text _ (fun l hl => hfree l ?_) hfront
    rw [hsplit, ← List.cons_append]
    exact List.mem_append_left _ hl
  rw [EndsEarly, hlines, List.tail_cons]
  refine ⟨fun hcons => ⟨rfl, ?_⟩, ?_⟩
  · by_cases hempty : [] ∈ lines
    · obtain ⟨front, behind, hsplit, hfront⟩ := List.eq_append_cons_of_mem hempty
      exact .inr ⟨front, behind, hsplit, hfront, (hearly hsplit hfront).mp hcons⟩
    · have hfits := (selfConsistent_iff_fits hmulti' (hsent ▸ Lines.cutHead_text _ hfree hempty)).mp hcons
      refine .inl fun p hp => ⟨?_, hfits.1 p ((hmem p).mpr (.inl hp))⟩
      rintro rfl
      exact hempty ((hmem []).mpr (.inl hp))
  · rintro ⟨-, hplainly | ⟨front, behind, hsplit, hfront, hfits⟩⟩
    · have hempty : [] ∉ lines := fun hnil =>
        ((hmem []).mp hnil).elim (fun hp => (hplainly _ hp).1 rfl) (fixedLines_ne_nil q)
      obtain ⟨hfixed, hnone⟩ := fits_fixedLines q
      refine (selfConsistent_iff_fits hmulti' (hsent ▸ Lines.cutHead_text _ hfree hempty)).mpr ⟨fun p hp => ?_, fun hall => ?_⟩
      · exact ((hmem p).mp hp).elim (fun hp => (hplainly p hp).2) (hfixed p)
      · exact hnone fun l hl => hall l ((hmem l).mpr (.inr hl))
    · exact (hearly hsplit hfront).mpr hfits

end

def exampleUri : Uri :=
  { scheme := bytes "http", host := bytes "h", path := bytes "/" }

/-- A header with a line end in it, that makes another header line. -/
def exampleQuery : ClientQuery where
  sMethod := bytes "GET"
  sUserAgent := bytes "a"
  requestHeader := [⟨bytes "X", bytes "1" ++ CRLF ++ bytes "Y: 2"⟩]

theorem request_consistent_get : ∃ b sent,
    make (fun _ => .ok 0) exampleQuery exampleUri = some (.ok (b, sent)) ∧
    SelfConsistent exampleQuery b sent :=
  ⟨_, _, rfl, (request_consistent_iff
    (show make (fun _ => .ok 0) exampleQuery exampleUri = some (.ok (_, _)) from rfl)).mpr
      ⟨by decide, .inl (by decide)⟩⟩

/-- A query with one part that declares its length and sends nothing of it. -/
theorem not_request_consistent :
    ¬ ∀ (stat : Uri → Except Ret UInt64) (q : ClientQuery) (uri : Uri) (b : HttpMakeClientBuffer)
      (sent : Bytes), make stat q uri = some (.ok (b, sent)) → SelfConsistent q b sent := by
  intro h
  let q : ClientQuery :=
    { sMethod := bytes "POST", sUserAgent := bytes "a"
      aFormDataList := [⟨bytes "n", bytes "v", [], [], false, 0⟩] }
  have hmake : ∃ b sent, make (fun _ => .ok 0) q exampleUri = some (.ok (b, sent)) := ⟨_, _, rfl⟩
  obtain ⟨b, sent, hmake⟩ := hmake
  exact not_selfConsistent hmake (by decide) (h _ q exampleUri b sent hmake)

end HttpMakeClientBuffer

end Dframework
