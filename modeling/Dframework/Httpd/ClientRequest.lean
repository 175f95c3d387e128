import Mathlib
import Dframework.Http.MakeClientBuffer
import Dframework.Httpd.Response
import Dframework.Httpd.SplitRequest

/-!
# A request of the client at the server

The client writes path and query as they are, but for their blanks, and the server decodes what it
reads as a target. A header of the query stands behind the ones of the client, and the server keeps
the last header of a name.

Results:
1. `parseHeaderLines_block`: a block of header lines is read line by line.
2. `request_received`: what the server has of a request of the client, in whatever segments it comes.
-/

namespace Dframework

open CLib

namespace HttpRequest

/-- A header line as it is written: a name, a colon, a blank and a value. -/
def fieldLine (f : Bytes × Bytes) : Bytes :=
  f.1 ++ 58 :: 32 :: f.2

/-- A name and a value that keep to one line, and to their sides of the colon. -/
structure IsField (f : Bytes × Bytes) : Prop where
  name_ne_nil : f.1 ≠ []
  no_colon : 58 ∉ f.1
  no_nul : (0 : UInt8) ∉ f.1 ∧ (0 : UInt8) ∉ f.2
  unbroken : Lines.Unbroken f.1 ∧ Lines.Unbroken f.2

variable {r : HttpRequest} {f : Bytes × Bytes} {fields : List (Bytes × Bytes)} {rest : Bytes}

theorem IsField.unbroken_line (h : IsField f) : Lines.Unbroken (fieldLine f) := by
  refine Lines.unbroken_append.mpr ⟨h.unbroken.1, Lines.unbroken_cons.mpr ⟨by decide, ?_⟩⟩
  exact Lines.unbroken_cons.mpr ⟨by decide, h.unbroken.2⟩

theorem IsField.no_nul_line (h : IsField f) : (0 : UInt8) ∉ fieldLine f := by
  obtain ⟨hname, hvalue⟩ := h.no_nul
  simp [fieldLine, hname, hvalue]

theorem zero_not_mem_block (hfields : ∀ f ∈ fields, IsField f) :
    (0 : UInt8) ∉ Lines.text (fields.map fieldLine) := by
  intro hmem
  obtain ⟨line, hline, hmem⟩ := List.mem_flatMap.mp hmem
  obtain ⟨f, hf, rfl⟩ := List.mem_map.mp hline
  rcases List.mem_append.mp hmem with hmem | hmem
  · exact (hfields f hf).no_nul_line hmem
  · exact absurd hmem (by decide)

/-- The blank behind the colon is no part of the value. -/
theorem trim_blank (v : Bytes) : trim (32 :: v) = trim v := by
  rw [trim, List.dropWhile_cons_of_pos (by decide)]
  rfl

/-- The empty line. -/
theorem parseHeaderLines_empty (h : r.sBuffer = CRLF ++ rest) :
    r.parseHeaderLines = some (none, { r with sBuffer := rest, cstatus := .body }) := by
  have hzero : strstr r.sBuffer CRLF = some 0 := by
    rw [h]
    exact Search.find_of_starts ⟨cstr rest, (cstr_append_of_not_mem (by decide)).symm⟩
  refine (parseHeaderLines_done (headerRound_zero hzero)).trans ?_
  rw [h]
  rfl

/-- Header lines and the empty line behind them. -/
theorem parseHeaderLines_block (hfields : ∀ f ∈ fields, IsField f) (h0 : (0 : UInt8) ∉ r.sBuffer)
    (h : r.sBuffer = Lines.text (fields.map fieldLine) ++ (CRLF ++ rest)) :
    ∃ r', r.parseHeaderLines = some (none, r') ∧ r'.cstatus = .body ∧ r'.sBuffer = rest ∧
      r'.target = r.target ∧
      r'.headers = fields.foldl (fun l f => appendHeader l (trim f.1) (trim f.2)) r.headers := by
  induction fields generalizing r with
  | nil => exact ⟨_, parseHeaderLines_empty h, rfl, rfl, rfl, rfl⟩
  | cons f fields ih =>
    obtain ⟨hf, hfields⟩ := List.forall_mem_cons.mp hfields
    rw [List.map_cons, Lines.text_cons, List.append_assoc, List.append_assoc] at h
    have hcstr : cstr r.sBuffer =
        fieldLine f ++ (CRLF ++ (Lines.text (fields.map fieldLine) ++ (CRLF ++ rest))) :=
      (cstr_of_not_mem h0).trans h
    obtain ⟨r₁, hrun, hheaders, hbuf, htarget⟩ := parseRequestHeaders_field hf.name_ne_nil hf.no_colon
      (find_crlf_of_not_mem hf.unbroken_line.1) hcstr
    have hrest : r₁.sBuffer = Lines.text (fields.map fieldLine) ++ (CRLF ++ rest) := by
      rw [hbuf, h, ← List.drop_drop]
      show ((fieldLine f ++ _).drop (fieldLine f).length).drop 2 = _
      rw [List.drop_left]
      rfl
    have h0' : (0 : UInt8) ∉ r₁.sBuffer := by
      rw [hbuf]
      exact fun hmem => h0 (List.mem_of_mem_drop hmem)
    obtain ⟨r', hlines, hstatus, hbuffer, htarget', hheaders'⟩ := ih hfields h0' hrest
    refine ⟨r', ?_, hstatus, hbuffer, htarget'.trans htarget, ?_⟩
    · exact (parseHeaderLines_next (headerRound_next_iff.mpr ⟨_, hrun, rfl⟩)).trans hlines
    · rw [hheaders', hheaders, trim_blank, List.foldl_cons]

/-- A request line, header lines, the empty line and what stands behind it. -/
theorem parseRequest_head {l : RequestLine} (hline : Lines.Unbroken l.enc) (h0 : (0 : UInt8) ∉ l.enc)
    (hne : l.target ≠ []) (hlen : l.target.length + 2 < 2 ^ 31)
    (hdecode : cstr (Percent.decode l.target) ≠ []) (hfields : ∀ f ∈ fields, IsField f)
    (hrest : (0 : UInt8) ∉ rest) :
    ∃ r r₀, parseRequest {}
        (l.enc ++ (CRLF ++ (Lines.text (fields.map fieldLine) ++ (CRLF ++ rest)))) = some (none, r) ∧
      r.cstatus = .body ∧ r.sBuffer = rest ∧ r₀.sQuery = [] ∧
      r.target = (l.method, (setTarget r₀ (cstr (Percent.decode l.target))).sFile,
        (setTarget r₀ (cstr (Percent.decode l.target))).sQuery) ∧
      r.headers = appendAll (fields.map fun f => (trim f.1, trim f.2)) := by
  set block := Lines.text (fields.map fieldLine) ++ (CRLF ++ rest) with hblock
  have hblock0 : (0 : UInt8) ∉ block := by
    rw [hblock, List.mem_append, List.mem_append, not_or, not_or]
    exact ⟨zero_not_mem_block hfields, by decide, hrest⟩
  set start : HttpRequest := extend (l.enc ++ (CRLF ++ block)) {} with hstart
  have hbuf : start.sBuffer = l.enc ++ (CRLF ++ block) := rfl
  have hstart0 : (0 : UInt8) ∉ start.sBuffer := by
    rw [hbuf, List.mem_append, List.mem_append, not_or, not_or]
    exact ⟨h0, by decide, hblock0⟩
  have hcstr : cstr start.sBuffer = l.enc ++ (CRLF ++ block) := cstr_of_not_mem hstart0
  obtain ⟨-, hready⟩ :=
    parseRequestReady_decoded hcstr (find_crlf_of_not_mem hline.1) hne hlen
  obtain ⟨r₁, hrun, htarget, hheaders, hbuf₁⟩ := hready hdecode
  have hrest₁ : r₁.sBuffer = block := by
    rw [hbuf₁, hbuf, ← List.drop_drop, List.drop_left]
    rfl
  obtain ⟨r, hlines, hstatus, hbuffer, htarget', hheaders'⟩ :=
    parseHeaderLines_block hfields (hrest₁ ▸ hblock0) (hrest₁.trans hblock)
  refine ⟨r, start, ?_, hstatus, hbuffer, rfl, htarget'.trans htarget, ?_⟩
  · have hnil : l.enc ++ (CRLF ++ block) ≠ [] := by simp [CRLF]
    rw [parseRequest_eq hnil, ← hstart, dispatch_taken rfl hrun, hlines]
  · rw [hheaders', hheaders, appendAll, List.foldl_map]
    rfl

/-! ## The last header of a name -/

theorem getHeader_last {before after : List (Bytes × Bytes)} (f : Bytes × Bytes)
    (h : ∀ x ∈ after, cstr x.1 ≠ cstr f.1) :
    getHeader (appendAll (before ++ f :: after)) f.1 = some ⟨cstr f.1, cstr f.2⟩ := by
  induction after using List.reverseRecOn with
  | nil => rw [appendAll_concat, getHeader_appendHeader (.appendAll before), if_pos rfl]
  | append_singleton after x ih =>
    have hx : cstr f.1 ≠ cstr x.1 := (h x (by simp)).symm
    have hsplit : before ++ f :: (after ++ [x]) = (before ++ f :: after) ++ [x] := by simp
    rw [hsplit, appendAll_concat, getHeader_appendHeader (.appendAll _), if_neg hx]
    exact ih fun y hy => h y (List.mem_append_left _ hy)

end HttpRequest

namespace HttpMakeClientBuffer

/-! ## The target -/

/-- A text with an escape in the place of each blank. -/
def escapeBlanks (s : Bytes) : Bytes :=
  s.flatMap fun c => if c = 32 then bytes "%20" else [c]

theorem escapeBlanks_of_not_mem {s : Bytes} (h : 32 ∉ s) : escapeBlanks s = s := by
  induction s with
  | nil => rfl
  | cons c s ih =>
    rw [List.mem_cons, not_or] at h
    have hstep : escapeBlanks (c :: s) = [c] ++ escapeBlanks s := by
      rw [escapeBlanks, List.flatMap_cons, if_neg (Ne.symm h.1)]
      rfl
    rw [hstep, ih h.2]
    rfl

theorem replaceText_blank {count : Nat} {s : Bytes} (h0 : (0 : UInt8) ∉ s) (hcount : s.length ≤ count) :
    replaceText [32] (bytes "%20") count s = escapeBlanks s := by
  induction count generalizing s with
  | zero =>
    obtain rfl := List.length_eq_zero_iff.mp (Nat.le_zero.mp hcount)
    rfl
  | succ count ih =>
    by_cases hmem : 32 ∈ s
    · obtain ⟨a, b, rfl, ha⟩ := List.eq_append_cons_of_mem hmem
      rw [List.mem_append, List.mem_cons, not_or, not_or] at h0
      have hfind : strstr (a ++ 32 :: b) [32] = some a.length := strstr_char h0.1 ha (by decide) b
      have hdrop : (a ++ 32 :: b).drop (a.length + 1) = b := by
        rw [← List.drop_drop, List.drop_left]
        rfl
      have hlen : b.length ≤ count := by
        simp only [List.length_append, List.length_cons] at hcount
        omega
      have hsplit : escapeBlanks (a ++ 32 :: b) = escapeBlanks a ++ (bytes "%20" ++ escapeBlanks b) := by
        rw [escapeBlanks, List.flatMap_append, List.flatMap_cons]
        rfl
      rw [replaceText, hfind, hsplit, escapeBlanks_of_not_mem ha]
      show (a ++ 32 :: b).take a.length ++ bytes "%20" ++
        replaceText [32] (bytes "%20") count ((a ++ 32 :: b).drop (a.length + 1)) = _
      rw [List.take_left, hdrop, ih h0.2.2 hlen, List.append_assoc]
    · rw [replaceText, strstr_char_none hmem, escapeBlanks_of_not_mem hmem]

/-- The escapes are the ones that the server takes back. -/
theorem encodes_escapeBlanks {s : Bytes} (h : ∀ c ∈ s, c ≠ 37 ∧ c ≠ 43) :
    Percent.Encodes s (escapeBlanks s) := by
  induction s with
  | nil => exact .nil
  | cons c s ih =>
    obtain ⟨⟨hsign, hplus⟩, hs⟩ := List.forall_mem_cons.mp h
    by_cases hc : c = 32
    · rw [hc]
      exact .escape (a := 50) (b := 48) (by decide) (by decide) (ih hs)
    · have hstep : escapeBlanks (c :: s) = c :: escapeBlanks s := by
        rw [escapeBlanks, List.flatMap_cons, if_neg hc]
        rfl
      rw [hstep]
      exact .plain hsign hplus (ih hs)

theorem mem_escapeBlanks {s : Bytes} {c : UInt8} (h : c ∈ escapeBlanks s) :
    c ∈ bytes "%20" ∨ c ∈ s ∧ c ≠ 32 := by
  obtain ⟨d, hd, hc⟩ := List.mem_flatMap.mp h
  split_ifs at hc with h32
  · exact .inl hc
  · obtain rfl := List.mem_singleton.mp hc
    exact .inr ⟨hd, h32⟩

/-! ## The headers -/

/-- The names of the headers that are the client's own. -/
def ownNames : List Bytes :=
  ["Host", "Connection", "Expect", "Content-Type", "Content-Length", "Depth", "User-Agent"].map bytes

/-- The headers that are the client's own. -/
def ownFields (q : ClientQuery) (uri : Uri) (b : HttpMakeClientBuffer) : List (Bytes × Bytes) :=
  [(bytes "Host", cstr (q.host uri) ++ 58 :: decimal (q.port uri)),
    (bytes "Connection", bytes "Keep-Alive")] ++
  (if b.bExpect100 then [(bytes "Expect", bytes "100-Continue")] else []) ++
  (if 0 < b.uContentLength then [(bytes "Content-Type", printed b.sContentType),
    (bytes "Content-Length", signedDecimal b.uContentLength)] else []) ++
  (if b.bDepth then [(bytes "Depth", decimal b.iDepth)] else []) ++
  [(bytes "User-Agent", printed q.sUserAgent)]

def queryFields (l : List NamedValue) : List (Bytes × Bytes) :=
  (l.filter fun nv => nv.name ≠ []).map fun nv => (cstr nv.name, cstr nv.value)

variable {stat : Uri → Except Ret UInt64} {q : ClientQuery} {uri : Uri} {b : HttpMakeClientBuffer}
  {sent : Bytes}

theorem headLines_eq :
    headLines q uri b =
      (ownFields q uri b ++ queryFields q.requestHeader).map HttpRequest.fieldLine := by
  have hmap : ∀ (p : Prop) [Decidable p] (fs : List (Bytes × Bytes)),
      (if p then fs else []).map HttpRequest.fieldLine =
        if p then fs.map HttpRequest.fieldLine else [] := fun p _ fs => by
    split_ifs <;> rfl
  have hquery : (queryFields q.requestHeader).map HttpRequest.fieldLine =
      headerLines q.requestHeader := by
    rw [queryFields, headerLines, List.map_map]
    exact List.map_congr_left fun nv _ => by simp [HttpRequest.fieldLine, headerLine, bytes]
  have hown : (ownFields q uri b).map HttpRequest.fieldLine = ownLines q uri b := by
    simp only [ownFields, ownLines, hostLine, agentLine, List.map_append, hmap]
    simp [HttpRequest.fieldLine, bytes]
  rw [headLines, List.map_append, hown, hquery]

theorem decimal_clean (i : Int) : (0 : UInt8) ∉ decimal i ∧ Lines.Unbroken (decimal i) := by
  have hmem : ∀ c ∈ decimal i, isDigit 10 c ∨ c = 45 := by
    intro c hc
    obtain ⟨n, rfl | rfl⟩ := Int.eq_nat_or_neg i
    · exact .inl (isDigit_of_mem_decimal hc)
    rcases Nat.eq_zero_or_pos n with rfl | hpos
    · exact .inl (isDigit_of_mem_decimal (n := 0) hc)
    · rw [decimal_neg hpos, List.mem_cons] at hc
      exact hc.symm.imp isDigit_of_mem_decimal id
  refine ⟨fun h => ?_, fun h => ?_, fun h => ?_⟩
  · exact absurd (hmem _ h) (by decide)
  · exact absurd (hmem _ h) (by decide)
  · exact absurd (hmem _ h) (by decide)

theorem sContentType_cases (h : make stat q uri = some (.ok (b, sent))) :
    b.sContentType ∈ [[], bytes "text/xml", bytes "multipart/form-data; boundary=" ++ boundary] := by
  have hmulti : ∀ {b₀ b : HttpMakeClientBuffer}, makeMultipartContents stat q b₀ = some (.ok b) →
      b.sContentType = bytes "multipart/form-data; boundary=" ++ boundary := by
    intro b₀ b h
    rw [makeMultipartContents, Option.map_eq_some_iff] at h
    obtain ⟨length, -, hlength⟩ := h
    cases length with
    | error r => cases hlength
    | ok contLen => rw [← Except.ok.inj hlength]
  rw [make] at h
  split at h
  · cases h
  next sHost hhost =>
    split at h
    · cases h
    · cases h
    next b₀ hb₀ =>
      obtain ⟨rfl, -⟩ := Prod.mk.inj (Except.ok.inj (Option.some.inj h))
      show b₀.sContentType ∈ _
      rw [makeContents] at hb₀
      split_ifs at hb₀ with hpost hpropfind huri
      · rw [hmulti hb₀]
        simp
      · rw [← Except.ok.inj (Option.some.inj hb₀)]
        simp
      · rw [hmulti hb₀]
        simp
      · rw [← Except.ok.inj (Option.some.inj hb₀)]
        simp

/-- A header that is written on one line and comes back as it is. -/
structure IsPlain (nv : NamedValue) : Prop where
  field : HttpRequest.IsField (nv.name, nv.value)
  name : trim nv.name = nv.name
  value : trim nv.value = nv.value

/-- A query that is written as it is. -/
structure Clean (q : ClientQuery) (uri : Uri) : Prop where
  method : ∀ c ∈ q.sMethod, c ≠ 0 ∧ c ≠ 32 ∧ c ≠ 13 ∧ c ≠ 10
  path_ne_nil : uri.path ≠ []
  path : ∀ c ∈ uri.path, c ≠ 0 ∧ c ≠ 13 ∧ c ≠ 10 ∧ c ≠ 37 ∧ c ≠ 43 ∧ c ≠ 63
  query : ∀ c ∈ uri.query, c ≠ 0 ∧ c ≠ 13 ∧ c ≠ 10 ∧ c ≠ 37 ∧ c ≠ 43
  fits : (requestTarget uri).length + 2 < 2 ^ 31
  host : Lines.Unbroken (cstr (q.host uri))
  agent : Lines.Unbroken (printed q.sUserAgent)
  headers : ∀ nv ∈ q.requestHeader, nv.name ≠ [] → IsPlain nv
  names : (q.requestHeader.map NamedValue.name).Nodup

structure Received (q : ClientQuery) (uri : Uri) (b : HttpMakeClientBuffer) (r : HttpRequest) :
    Prop where
  cstatus : r.cstatus = .body
  target : r.target = (q.sMethod, uri.path, uri.query)
  contents : r.sBuffer = q.contents
  header : ∀ nv ∈ q.requestHeader, nv.name ≠ [] → getHeader r.headers nv.name = some nv
  own : ∀ f ∈ ownFields q uri b, (∀ nv ∈ q.requestHeader, nv.name ≠ f.1) →
    getHeader r.headers f.1 = some ⟨f.1, trim f.2⟩

theorem ownNames_spec : ∀ name ∈ ownNames, name ≠ [] ∧ 58 ∉ name ∧ (0 : UInt8) ∉ name ∧
    Lines.Unbroken name ∧ trim name = name := by
  decide

theorem ownFields_names (q : ClientQuery) (uri : Uri) (b : HttpMakeClientBuffer) :
    ((ownFields q uri b).map Prod.fst).Sublist ownNames := by
  unfold ownFields
  split_ifs <;> simp only [List.map_append, List.map_cons, List.map_nil, List.append_nil] <;> decide

theorem ownFields_isField (hmake : make stat q uri = some (.ok (b, sent))) (hclean : Clean q uri) :
    ∀ f ∈ ownFields q uri b, HttpRequest.IsField f := by
  have hvalue : ∀ f ∈ ownFields q uri b, (0 : UInt8) ∉ f.2 ∧ Lines.Unbroken f.2 := by
    have hport := decimal_clean (q.port uri)
    have htype : (0 : UInt8) ∉ printed b.sContentType ∧ Lines.Unbroken (printed b.sContentType) := by
      have hcases := sContentType_cases hmake
      simp only [List.mem_cons, List.not_mem_nil, or_false] at hcases
      rcases hcases with h | h | h <;> rw [h] <;> decide
    intro f hf
    simp only [ownFields, List.mem_append, List.mem_cons, List.not_mem_nil, or_false] at hf
    rcases hf with ((((rfl | rfl) | hf) | hf) | hf) | rfl
    · refine ⟨?_, Lines.unbroken_append.mpr ⟨hclean.host, Lines.unbroken_cons.mpr ⟨by decide, hport.2⟩⟩⟩
      simp only [List.mem_append, List.mem_cons, not_or]
      exact ⟨not_mem_cstr _, by decide, hport.1⟩
    · decide
    · split_ifs at hf
      · obtain rfl := List.mem_singleton.mp hf
        decide
      · cases hf
    · split_ifs at hf
      · rcases List.mem_cons.mp hf with rfl | hf
        · exact htype
        · obtain rfl := List.mem_singleton.mp hf
          exact decimal_clean _
      · cases hf
    · split_ifs at hf
      · obtain rfl := List.mem_singleton.mp hf
        exact decimal_clean _
      · cases hf
    · exact ⟨not_mem_printed _, hclean.agent⟩
  intro f hf
  obtain ⟨hne, hcolon, hnul, hbroken, -⟩ :=
    ownNames_spec f.1 ((ownFields_names q uri b).subset (List.mem_map_of_mem hf))
  obtain ⟨hnul', hbroken'⟩ := hvalue f hf
  exact ⟨hne, hcolon, ⟨hnul, hnul'⟩, hbroken, hbroken'⟩

theorem IsPlain.cstr_eq {nv : NamedValue} (h : IsPlain nv) :
    (cstr nv.name, cstr nv.value) = (nv.name, nv.value) := by
  obtain ⟨hname, hvalue⟩ := h.field.no_nul
  rw [cstr_of_not_mem hname, cstr_of_not_mem hvalue]

/-- The headers of a clean query are written as they are. -/
theorem queryFields_eq (hclean : Clean q uri) :
    queryFields q.requestHeader =
      (q.requestHeader.filter fun nv => nv.name ≠ []).map fun nv => (nv.name, nv.value) := by
  refine List.map_congr_left fun nv hnv => ?_
  obtain ⟨hmem, hne⟩ := List.mem_filter.mp hnv
  exact (hclean.headers nv hmem (by simpa using hne)).cstr_eq

/-! ## The head at the server -/

/-- The target before its blanks are escaped. -/
def plainTarget (uri : Uri) : Bytes :=
  HttpRequest.targetOf uri.path (toChars uri.query)

theorem plainTarget_spec (hclean : Clean q uri) :
    ∀ c ∈ plainTarget uri, c ≠ 0 ∧ c ≠ 13 ∧ c ≠ 10 ∧ c ≠ 37 ∧ c ≠ 43 := by
  intro c hc
  rcases List.mem_append.mp hc with hc | hc
  · obtain ⟨h0, h13, h10, h37, h43, -⟩ := hclean.path c hc
    exact ⟨h0, h13, h10, h37, h43⟩
  · by_cases hquery : uri.query = []
    · rw [hquery] at hc
      cases hc
    · rw [toChars_of_ne_nil hquery] at hc
      rcases List.mem_cons.mp hc with rfl | hc
      · decide
      · exact hclean.query c hc

theorem plainTarget_ne_nil (hclean : Clean q uri) : plainTarget uri ≠ [] :=
  List.append_ne_nil_of_left_ne_nil hclean.path_ne_nil _

theorem requestTarget_eq (hclean : Clean q uri) : requestTarget uri = escapeBlanks (plainTarget uri) := by
  have h0 : (0 : UInt8) ∉ plainTarget uri := fun hmem => (plainTarget_spec hclean 0 hmem).1 rfl
  have hpath : printed uri.path = uri.path := by
    rw [printed_of_ne_nil hclean.path_ne_nil]
    exact cstr_of_not_mem fun hmem => (hclean.path 0 hmem).1 rfl
  have hquery : cstr uri.query = uri.query := cstr_of_not_mem fun hmem => (hclean.query 0 hmem).1 rfl
  rw [← replaceText_blank h0 le_rfl, requestTarget, plainTarget, HttpRequest.targetOf, hpath]
  by_cases hnil : uri.query = []
  · rw [hnil]
    simp
  · rw [toChars_of_ne_nil hnil]
    simp [hquery]

theorem mem_requestTarget (hclean : Clean q uri) :
    ∀ c ∈ requestTarget uri, c ≠ 0 ∧ c ≠ 32 ∧ c ≠ 13 ∧ c ≠ 10 := by
  intro c hc
  rw [requestTarget_eq hclean] at hc
  have hescape : ∀ c ∈ [37, 50, 48], c ≠ (0 : UInt8) ∧ c ≠ 32 ∧ c ≠ 13 ∧ c ≠ 10 := by
    simp
  rcases mem_escapeBlanks hc with hc | ⟨hc, h32⟩
  · exact hescape c hc
  · obtain ⟨h0, h13, h10, -⟩ := plainTarget_spec hclean c hc
    exact ⟨h0, h32, h13, h10⟩

theorem decode_requestTarget (hclean : Clean q uri) :
    cstr (Percent.decode (requestTarget uri)) = plainTarget uri := by
  have hspec := plainTarget_spec hclean
  have henc : Percent.Encodes (plainTarget uri) (escapeBlanks (plainTarget uri)) :=
    encodes_escapeBlanks fun c hc => (hspec c hc).2.2.2
  rw [requestTarget_eq hclean, henc.decode_eq]
  exact cstr_of_not_mem fun hmem => (hspec 0 hmem).1 rfl

theorem http_ne_nil : bytes "HTTP" ≠ [] := by
  decide

theorem slash_not_mem_http : 47 ∉ bytes "HTTP" := by
  decide

def clientLine (hclean : Clean q uri) (hmethod : q.sMethod ≠ []) : RequestLine where
  method := q.sMethod
  target := requestTarget uri
  protocol := bytes "HTTP"
  version := bytes "1.1"
  method_ne_nil := hmethod
  protocol_ne_nil := http_ne_nil
  no_blank := ⟨fun h => (hclean.method 32 h).2.1 rfl, fun h => (mem_requestTarget hclean 32 h).2.1 rfl,
    by decide, by decide⟩
  no_slash := slash_not_mem_http

theorem clientLine_enc (hclean : Clean q uri) (hmethod : q.sMethod ≠ []) :
    (clientLine hclean hmethod).enc = requestLine q uri := by
  have hprinted : printed q.sMethod = q.sMethod := by
    rw [printed_of_ne_nil hmethod]
    exact cstr_of_not_mem fun h => (hclean.method 0 h).1 rfl
  rw [requestLine, hprinted, List.append_assoc]
  rfl

theorem requestLine_clean (hclean : Clean q uri) (hmethod : q.sMethod ≠ []) :
    (0 : UInt8) ∉ requestLine q uri ∧ Lines.Unbroken (requestLine q uri) := by
  have hversion : ∀ c ∈ [32, 72, 84, 84, 80, 47, 49, 46, 49], c ≠ (0 : UInt8) ∧ c ≠ 13 ∧ c ≠ 10 := by
    simp
  have hmem : ∀ c ∈ requestLine q uri, c ≠ 0 ∧ c ≠ 13 ∧ c ≠ 10 := by
    intro c hc
    rw [← clientLine_enc hclean hmethod] at hc
    rcases List.mem_append.mp hc with hc | hc
    · obtain ⟨h0, -, h13, h10⟩ := hclean.method c hc
      exact ⟨h0, h13, h10⟩
    rcases List.mem_cons.mp hc with rfl | hc
    · decide
    rcases List.mem_append.mp hc with hc | hc
    · obtain ⟨h0, -, h13, h10⟩ := mem_requestTarget hclean c hc
      exact ⟨h0, h13, h10⟩
    · exact hversion c hc
  exact ⟨fun h => (hmem 0 h).1 rfl, fun h => (hmem 13 h).2.1 rfl, fun h => (hmem 10 h).2.2 rfl⟩

/-- The target is split where the client has put the mark. -/
theorem setTarget_plain (hclean : Clean q uri) {r : HttpRequest} (hr : r.sQuery = []) :
    (r.setTarget (plainTarget uri)).sFile = uri.path ∧
      (r.setTarget (plainTarget uri)).sQuery = uri.query := by
  have h0 : (0 : UInt8) ∉ uri.path := fun h => (hclean.path 0 h).1 rfl
  have h63 : 63 ∉ uri.path := fun h => (hclean.path 63 h).2.2.2.2.2 rfl
  by_cases hnil : uri.query = []
  · have hplain : plainTarget uri = uri.path := by
      rw [plainTarget, hnil]
      exact List.append_nil _
    rw [hplain, hnil, ← hr]
    exact HttpRequest.setTarget_none h63
  · have hplain : plainTarget uri = uri.path ++ 63 :: uri.query := by
      rw [plainTarget, toChars_of_ne_nil hnil]
      rfl
    rw [hplain]
    exact HttpRequest.setTarget_mark h0 h63

def head (q : ClientQuery) (uri : Uri) (b : HttpMakeClientBuffer) : Bytes :=
  Lines.text (requestLine q uri :: headLines q uri b) ++ CRLF

/-- The headers of a query as the server stores them. -/
def fields (q : ClientQuery) (uri : Uri) (b : HttpMakeClientBuffer) : List (Bytes × Bytes) :=
  ownFields q uri b ++ queryFields q.requestHeader

theorem fields_isField (hmake : make stat q uri = some (.ok (b, sent))) (hclean : Clean q uri) :
    ∀ f ∈ fields q uri b, HttpRequest.IsField f := by
  intro f hf
  rcases List.mem_append.mp hf with hf | hf
  · exact ownFields_isField hmake hclean f hf
  · rw [queryFields_eq hclean] at hf
    obtain ⟨nv, hnv, rfl⟩ := List.mem_map.mp hf
    obtain ⟨hmem, hne⟩ := List.mem_filter.mp hnv
    exact (hclean.headers nv hmem (by simpa using hne)).field

theorem sMethod_ne_nil (hmake : make stat q uri = some (.ok (b, sent))) : q.sMethod ≠ [] := by
  rw [make] at hmake
  split at hmake
  · cases hmake
  next sHost hhost => exact (makeHost_eq hhost).2

theorem zero_not_mem_head (hmake : make stat q uri = some (.ok (b, sent))) (hclean : Clean q uri) :
    (0 : UInt8) ∉ head q uri b := by
  have hline := (requestLine_clean hclean (sMethod_ne_nil hmake)).1
  rw [head, Lines.text_cons, headLines_eq, List.append_assoc, List.append_assoc]
  simp only [List.mem_append, not_or]
  exact ⟨hline, by decide, HttpRequest.zero_not_mem_block (fields_isField hmake hclean), by decide⟩

/-- The head of a query in front of anything. -/
theorem parseRequest_client (hmake : make stat q uri = some (.ok (b, sent))) (hclean : Clean q uri)
    {rest : Bytes} (hrest : (0 : UInt8) ∉ rest) :
    ∃ r, HttpRequest.parseRequest {} (head q uri b ++ rest) = some (none, r) ∧ r.cstatus = .body ∧
      r.sBuffer = rest ∧ r.target = (q.sMethod, uri.path, uri.query) ∧
      r.headers = appendAll ((fields q uri b).map fun f => (trim f.1, trim f.2)) := by
  have hmethod := sMethod_ne_nil hmake
  obtain ⟨h0, hline⟩ := requestLine_clean hclean hmethod
  have hdecode := decode_requestTarget hclean
  have hne : requestTarget uri ≠ [] := by
    intro hnil
    rw [hnil] at hdecode
    exact plainTarget_ne_nil hclean hdecode.symm
  rw [← clientLine_enc hclean hmethod] at h0 hline
  obtain ⟨r, r₀, hrun, hstatus, hbuf, hquery, htarget, hheaders⟩ :=
    HttpRequest.parseRequest_head (l := clientLine hclean hmethod) hline h0 hne hclean.fits
      (by rw [show (clientLine hclean hmethod).target = requestTarget uri from rfl, hdecode]
          exact plainTarget_ne_nil hclean)
      (fields_isField hmake hclean) hrest
  refine ⟨r, ?_, hstatus, hbuf, ?_, hheaders⟩
  · rw [head, Lines.text_cons, headLines_eq, ← clientLine_enc hclean hmethod]
    simpa only [fields, List.append_assoc] using hrun
  · obtain ⟨hfile, hquery'⟩ := setTarget_plain hclean hquery
    rw [htarget]
    show (q.sMethod, (r₀.setTarget (cstr (Percent.decode (requestTarget uri)))).sFile,
      (r₀.setTarget (cstr (Percent.decode (requestTarget uri)))).sQuery) = _
    rw [hdecode, hfile, hquery']

/-! ## The headers at the server -/

theorem trimmed_fields (hclean : Clean q uri) :
    (fields q uri b).map (fun f => (trim f.1, trim f.2)) =
      (ownFields q uri b).map (fun f => (f.1, trim f.2)) ++
        (q.requestHeader.filter fun nv => nv.name ≠ []).map fun nv => (nv.name, nv.value) := by
  rw [fields, List.map_append, queryFields_eq hclean, List.map_map]
  congr 1
  · refine List.map_congr_left fun f hf => ?_
    obtain ⟨-, -, -, -, htrim⟩ :=
      ownNames_spec f.1 ((ownFields_names q uri b).subset (List.mem_map_of_mem hf))
    rw [htrim]
  · refine List.map_congr_left fun nv hnv => ?_
    obtain ⟨hmem, hne⟩ := List.mem_filter.mp hnv
    have hplain := hclean.headers nv hmem (by simpa using hne)
    show (trim nv.name, trim nv.value) = _
    rw [hplain.name, hplain.value]

/-- The names of a clean query have no NUL. -/
theorem cstr_name (hclean : Clean q uri) {nv : NamedValue} (hnv : nv ∈ q.requestHeader)
    (hne : nv.name ≠ []) : cstr nv.name = nv.name :=
  cstr_of_not_mem (hclean.headers nv hnv hne).field.no_nul.1

theorem getHeader_query (hclean : Clean q uri) {nv : NamedValue} (hnv : nv ∈ q.requestHeader)
    (hne : nv.name ≠ []) :
    getHeader (appendAll ((fields q uri b).map fun f => (trim f.1, trim f.2))) nv.name = some nv := by
  obtain ⟨before, after, hsplit⟩ := List.append_of_mem hnv
  have hnames := hclean.names
  rw [hsplit, List.map_append, List.map_cons] at hnames
  have hlast : ∀ x ∈ after, x.name ≠ nv.name := by
    intro x hx heq
    have hnot := (List.nodup_cons.mp (List.nodup_append.mp hnames).2.1).1
    exact hnot (heq ▸ List.mem_map_of_mem hx)
  rw [trimmed_fields hclean, hsplit, List.filter_append, List.filter_cons_of_pos (by simpa using hne),
    List.map_append, List.map_cons, ← List.append_assoc]
  refine (HttpRequest.getHeader_last (nv.name, nv.value) ?_).trans ?_
  · intro x hx
    obtain ⟨y, hy, rfl⟩ := List.mem_map.mp hx
    obtain ⟨hy, hyne⟩ := List.mem_filter.mp hy
    show cstr y.name ≠ cstr nv.name
    rw [cstr_name hclean (by rw [hsplit]; simp [hy]) (by simpa using hyne), cstr_name hclean hnv hne]
    exact hlast y hy
  · obtain ⟨hname, hvalue⟩ := Prod.mk.inj (hclean.headers nv hnv hne).cstr_eq
    show some (⟨cstr nv.name, cstr nv.value⟩ : NamedValue) = some nv
    rw [hname, hvalue]

theorem mem_of_mem_trim {s : Bytes} {c : UInt8} (h : c ∈ trim s) : c ∈ s := by
  rw [trim, List.mem_reverse] at h
  have hmem := (List.dropWhile_sublist _).subset h
  exact (List.dropWhile_sublist _).subset (List.mem_reverse.mp hmem)

theorem getHeader_own (hmake : make stat q uri = some (.ok (b, sent))) (hclean : Clean q uri)
    {f : Bytes × Bytes} (hf : f ∈ ownFields q uri b) (hnot : ∀ nv ∈ q.requestHeader, nv.name ≠ f.1) :
    getHeader (appendAll ((fields q uri b).map fun f => (trim f.1, trim f.2))) f.1 =
      some ⟨f.1, trim f.2⟩ := by
  have hnul := (ownFields_isField hmake hclean f hf).no_nul
  have hnodup : ((ownFields q uri b).map Prod.fst).Nodup :=
    (by decide : ownNames.Nodup).sublist (ownFields_names q uri b)
  have hzero : ∀ f' ∈ ownFields q uri b, cstr f'.1 = f'.1 := fun f' hf' =>
    cstr_of_not_mem (ownFields_isField hmake hclean f' hf').no_nul.1
  obtain ⟨before, after, hsplit⟩ := List.append_of_mem hf
  rw [trimmed_fields hclean]
  rw [hsplit] at hnodup hzero ⊢
  rw [List.map_append, List.map_cons] at hnodup
  have hlast : ∀ x ∈ after, x.1 ≠ f.1 := by
    intro x hx heq
    have hnot := (List.nodup_cons.mp (List.nodup_append.mp hnodup).2.1).1
    exact hnot (heq ▸ List.mem_map_of_mem hx)
  rw [List.map_append, List.map_cons, List.append_assoc, List.cons_append]
  refine (HttpRequest.getHeader_last (f.1, trim f.2) ?_).trans ?_
  · intro x hx
    show cstr x.1 ≠ cstr f.1
    rw [cstr_of_not_mem hnul.1]
    rcases List.mem_append.mp hx with hx | hx
    · obtain ⟨y, hy, rfl⟩ := List.mem_map.mp hx
      show cstr y.1 ≠ f.1
      rw [hzero y (by simp [hy])]
      exact hlast y hy
    · obtain ⟨y, hy, rfl⟩ := List.mem_map.mp hx
      obtain ⟨hy, hyne⟩ := List.mem_filter.mp hy
      show cstr y.name ≠ f.1
      rw [cstr_name hclean hy (by simpa using hyne)]
      exact hnot y hy
  · show some (⟨cstr f.1, cstr (trim f.2)⟩ : NamedValue) = _
    have htrim : (0 : UInt8) ∉ trim f.2 := fun hmem => hnul.2 (mem_of_mem_trim hmem)
    rw [cstr_of_not_mem hnul.1, cstr_of_not_mem htrim]

set_option maxRecDepth 20000 in
theorem zero_not_mem_contents (q : ClientQuery) : (0 : UInt8) ∉ q.contents := by
  rw [ClientQuery.contents]
  split_ifs
  · decide
  · exact List.not_mem_nil

/-- The server has a clean query as the client has sent it, in whatever segments it comes, when they
are cut inside the lines of the head. -/
theorem request_received (hmake : make stat q uri = some (.ok (b, sent))) (hclean : Clean q uri)
    {segments : List Bytes} (hne : ∀ s ∈ segments, s ≠ []) (hcat : segments.flatten = sent)
    (hinside : ∀ before after, segments = before ++ after → before ≠ [] →
      before.flatten.length < (head q uri b).length → HttpRequest.InsideLine before.flatten) :
    ∃ answers r, HttpRequest.feed {} segments = some (answers, r) ∧
      HttpRequest.Waits (head q uri b).length segments answers ∧ Received q uri b r := by
  have hsent : segments.flatten = head q uri b ++ q.contents := by
    rw [hcat, head, List.append_assoc]
    exact (make_lines hmake).1
  obtain ⟨r, hone, hstatus, hbuf, htarget, hheaders⟩ :=
    parseRequest_client hmake hclean (zero_not_mem_contents q)
  have haccepted : HttpRequest.Accepted (head q uri b) := by
    have hnil : (0 : UInt8) ∉ ([] : Bytes) := List.not_mem_nil
    obtain ⟨r₀, hone₀, -, hbuf₀, -⟩ := parseRequest_client hmake hclean hnil
    rw [List.append_nil] at hone₀
    exact ⟨zero_not_mem_head hmake hclean, r₀, hone₀, hbuf₀⟩
  have hpos : ([] : Bytes).length < (head q uri b).length := by
    simp [head, CRLF]
  obtain ⟨answers, hfeed, hwaits⟩ := HttpRequest.feed_inside (p := []) haccepted hone
    (fun _ _ => rfl) hpos hne hsent hinside
  refine ⟨answers, r, hfeed, hwaits, hstatus, htarget, hbuf, fun nv hnv hname => ?_, fun f hf hnot => ?_⟩
  · rw [hheaders]
    exact getHeader_query hclean hnv hname
  · rw [hheaders]
    exact getHeader_own hmake hclean hf hnot

/-- A query with a blank in its path, a query string and a header. -/
def exQuery : ClientQuery :=
  { sMethod := bytes "GET", sUserAgent := bytes "a", requestHeader := [⟨bytes "X", bytes "y"⟩] }

def exUri : Uri :=
  { scheme := bytes "http", host := bytes "h", path := bytes "/a b", query := bytes "c" }

theorem exQuery_clean : Clean exQuery exUri where
  method := by simp [exQuery, bytes]
  path_ne_nil := by decide
  path := by simp [exUri, bytes]
  query := by simp [exUri, bytes]
  fits := by decide
  host := by decide
  agent := by decide
  headers := List.forall_mem_singleton.mpr fun _ =>
    ⟨⟨by decide, by decide, by decide, by decide⟩, by decide, by decide⟩
  names := by decide

set_option maxRecDepth 20000 in
theorem request_received_get : ∃ b sent answers r,
    make (fun _ => .ok 0) exQuery exUri = some (.ok (b, sent)) ∧
      HttpRequest.feed {} [bytes "GET /a%2", sent.drop 8] = some (answers, r) ∧
      HttpRequest.Waits (head exQuery exUri b).length [bytes "GET /a%2", sent.drop 8] answers ∧
      Received exQuery exUri b r := by
  obtain ⟨b, sent, hmake, hcat, hrest, hlen⟩ : ∃ b sent,
      make (fun _ => .ok 0) exQuery exUri = some (.ok (b, sent)) ∧
      bytes "GET /a%2" ++ sent.drop 8 = sent ∧ sent.drop 8 ≠ [] ∧
      (head exQuery exUri b).length ≤ sent.length :=
    ⟨_, _, rfl, rfl, by decide, by decide⟩
  have hflatten : [bytes "GET /a%2", sent.drop 8].flatten = sent := by
    rw [List.flatten_cons, List.flatten_singleton, hcat]
  obtain ⟨answers, r, hreceived⟩ := request_received hmake exQuery_clean
    (List.forall_mem_cons.mpr ⟨by decide, List.forall_mem_singleton.mpr hrest⟩) hflatten (by
      intro before after hsplit hbefore hcut
      rcases before with _ | ⟨s, _ | ⟨t, before⟩⟩
      · exact absurd rfl hbefore
      · obtain ⟨rfl, -⟩ := List.cons.inj hsplit
        exact .inl (by decide)
      · -- the cut behind the last segment stands behind the head
        obtain ⟨rfl, hsplit₁⟩ := List.cons.inj hsplit
        obtain ⟨rfl, hsplit₂⟩ := List.cons.inj hsplit₁
        obtain ⟨rfl, -⟩ := List.append_eq_nil_iff.mp hsplit₂.symm
        rw [hflatten] at hcut
        omega)
  exact ⟨b, sent, answers, r, hmake, hreceived⟩

end HttpMakeClientBuffer

end Dframework
