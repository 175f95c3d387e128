import Mathlib
import Dframework.Http.BlocksRun
import Dframework.Http.LengthRun
import Dframework.Http.HeadRun
import Dframework.Http.ReadRun

/-!
# Several responses on one connection

An exchange is what `HttpConnection` does for one request: `connect`, which keeps the
socket when the URI is that of the last request, `request_raw`, and the body reader of
`response_real`. The server sends its answer once the request has been sent, so an
exchange starts with what the exchange before has left on the socket.

Results:
1. `Exchanges.unique`: a run of exchanges has one outcome.
2. `exchange_receives`: an answer that arrives is received as it was sent, and nothing
   of it stays on the socket.
3. `exchanges_receive`: so do all answers of a run.
4. `exchanges_shifted`: the CRLF behind the zero-size chunk is read as the next status
   line.
-/

namespace Dframework

open CLib Loop

/-! ## Exchanges -/

/-- The connection: whether its socket is connected, `m_sLastUri`, and the socket. -/
structure HttpConnection where
  isConnect : Bool
  lastUri : Bytes
  sock : Socket

/-- A request: its URI and method, the query it belongs to, and what the stack holds
where the body reader has its array. -/
structure Request where
  uri : Bytes
  method : Bytes
  query : HttpQuery
  stack : Bytes

/-- What an exchange has made of the answer: the lines `readLine` has handed out, the
round behind the head, the calls of `onResponse`, and the value. -/
structure Reply where
  lines : List Bytes
  round : HttpRound
  calls : List Block
  ret : Retval

/-- `HttpConnection::connect`, when the host can be reached. -/
def HttpConnection.connect (c : HttpConnection) (uri : Bytes) : HttpConnection :=
  if c.isConnect ∧ equals c.lastUri uri then c else ⟨true, uri, []⟩

/-- `HttpConnection::response_real`, with the `reset` of the reader: it takes the bytes
that were received with the head. The end of a chunked body is no error. -/
def ResponseReal (req : Request) (round : HttpRound) (sock : Socket)
    (r : Option (List Block × Socket × Retval)) : Prop :=
  if req.method = bytes "HEAD" then r = some ([], sock, none)
  else if round.chunked then
    ∃ b, ReadBlocks req.query round.recvBuffer sock req.stack b ∧
      r = b.map fun s => (s.1.chunked.calls, s.1.sock,
        if s.2.map Ret.value = some .tChunkedEnd then none else s.2)
  else if round.contentLength = 0 then r = some ([], sock, none)
  else
    ∃ b, ReadLength req.query (lengthInit round.recvBuffer round.contentLength sock) b ∧
      r = b.map fun s => (s.1.calls, s.1.sock, s.2)

/-- One exchange, with `answer` what the server sends; `none` is a run that has no
result. -/
inductive Exchange (c : HttpConnection) (req : Request) (answer : Socket) :
    Option (Reply × HttpConnection) → Prop
  | crashed {lines : List Bytes}
      (hhead : ReadStatusAndHeader {} ((c.connect req.uri).sock ++ answer) lines none) :
      Exchange c req answer none
  | refused {lines : List Bytes} {round : HttpRound} {sock : Socket} {e : Ret}
      (hhead : ReadStatusAndHeader {} ((c.connect req.uri).sock ++ answer) lines
        (some (some e, round, sock))) :
      Exchange c req answer
        (some (⟨lines, round, [], some e⟩, { c.connect req.uri with sock := sock }))
  | lost {lines : List Bytes} {round : HttpRound} {sock : Socket}
      (hhead : ReadStatusAndHeader {} ((c.connect req.uri).sock ++ answer) lines
        (some (none, round, sock)))
      (hbody : ResponseReal req round sock none) :
      Exchange c req answer none
  | answered {lines : List Bytes} {round : HttpRound} {sock sock' : Socket}
      {calls : List Block} {ret : Retval}
      (hhead : ReadStatusAndHeader {} ((c.connect req.uri).sock ++ answer) lines
        (some (none, round, sock)))
      (hbody : ResponseReal req round sock (some (calls, sock', ret))) :
      Exchange c req answer
        (some (⟨lines, round, calls, ret⟩, { c.connect req.uri with sock := sock' }))

/-- Exchanges one after another, with the reply to each request and the connection
behind it. -/
inductive Exchanges : HttpConnection → List (Request × Socket) → List (Reply × HttpConnection) →
    Prop
  | nil (c : HttpConnection) : Exchanges c [] []
  | cons {c : HttpConnection} {req : Request} {answer : Socket} {r : Reply × HttpConnection}
      {xs : List (Request × Socket)} {rs : List (Reply × HttpConnection)}
      (hfirst : Exchange c req answer (some r)) (hrest : Exchanges r.2 xs rs) :
      Exchanges c ((req, answer) :: xs) (r :: rs)

/-! ## One outcome -/

theorem ReadResponseHeader.unique {round : HttpRound} {sock : Socket} {lines lines' : List Bytes}
    {r r' : Option (Retval × HttpRound × Socket)} (h : ReadResponseHeader round sock lines r)
    (h' : ReadResponseHeader round sock lines' r') : lines = lines' ∧ r = r' := by
  induction h generalizing lines' r' with
  | failed hread =>
    cases h' with
    | failed hread' => cases hread.unique hread'; exact ⟨rfl, rfl⟩
    | ended hread' | crashed hread' | line hread' => cases hread.unique hread'
  | ended hread hline =>
    cases h' with
    | failed hread' => cases hread.unique hread'
    | ended hread' => cases hread.unique hread'; exact ⟨rfl, rfl⟩
    | crashed hread' hline' | line hread' hline' =>
      cases hread.unique hread'
      exact absurd hline hline'
  | crashed hread hline hparse =>
    cases h' with
    | failed hread' => cases hread.unique hread'
    | ended hread' hline' =>
      cases hread.unique hread'
      exact absurd hline' hline
    | crashed hread' => cases hread.unique hread'; exact ⟨rfl, rfl⟩
    | line hread' _ hparse' =>
      cases hread.unique hread'
      cases hparse.symm.trans hparse'
  | line hread hline hparse _ ih =>
    cases h' with
    | failed hread' => cases hread.unique hread'
    | ended hread' hline' =>
      cases hread.unique hread'
      exact absurd hline' hline
    | crashed hread' _ hparse' =>
      cases hread.unique hread'
      cases hparse.symm.trans hparse'
    | line hread' _ hparse' hrest' =>
      cases hread.unique hread'
      cases hparse.symm.trans hparse'
      obtain ⟨rfl, rfl⟩ := ih hrest'
      exact ⟨rfl, rfl⟩

theorem ReadStatusAndHeader.unique {round : HttpRound} {sock : Socket} {lines lines' : List Bytes}
    {r r' : Option (Retval × HttpRound × Socket)} (h : ReadStatusAndHeader round sock lines r)
    (h' : ReadStatusAndHeader round sock lines' r') : lines = lines' ∧ r = r' := by
  cases h with
  | failed hread =>
    cases h' with
    | failed hread' => cases hread.unique hread'; exact ⟨rfl, rfl⟩
    | crashed hread' | refused hread' | header hread' => cases hread.unique hread'
  | crashed hread hparse =>
    cases h' with
    | failed hread' => cases hread.unique hread'
    | crashed hread' => cases hread.unique hread'; exact ⟨rfl, rfl⟩
    | refused hread' hparse' | header hread' hparse' =>
      cases hread.unique hread'
      cases hparse.symm.trans hparse'
  | refused hread hparse =>
    cases h' with
    | failed hread' => cases hread.unique hread'
    | refused hread' hparse' =>
      cases hread.unique hread'
      cases hparse.symm.trans hparse'
      exact ⟨rfl, rfl⟩
    | crashed hread' hparse' | header hread' hparse' =>
      cases hread.unique hread'
      cases hparse.symm.trans hparse'
  | header hread hparse hrest =>
    cases h' with
    | failed hread' => cases hread.unique hread'
    | header hread' hparse' hrest' =>
      cases hread.unique hread'
      cases hparse.symm.trans hparse'
      obtain ⟨rfl, rfl⟩ := hrest.unique hrest'
      exact ⟨rfl, rfl⟩
    | crashed hread' hparse' | refused hread' hparse' =>
      cases hread.unique hread'
      cases hparse.symm.trans hparse'

theorem ReadLength.unique {q : HttpQuery} {st : LengthState} {r r' : LengthResult}
    (h : ReadLength q st r) (h' : ReadLength q st r') : r = r' := by
  unfold ReadLength at h h'
  rcases hl : readLastBlocks q st with _ | ⟨st', _ | e⟩ <;> rw [hl] at h h'
  · exact h.trans h'.symm
  · exact h.trans h'.symm
  · exact Returns.unique h h'

theorem ResponseReal.unique {req : Request} {round : HttpRound} {sock : Socket}
    {r r' : Option (List Block × Socket × Retval)} (h : ResponseReal req round sock r)
    (h' : ResponseReal req round sock r') : r = r' := by
  unfold ResponseReal at h h'
  split_ifs at h h'
  · exact h.trans h'.symm
  · obtain ⟨b, hb, rfl⟩ := h
    obtain ⟨b', hb', rfl⟩ := h'
    rw [Returns.unique hb hb']
  · exact h.trans h'.symm
  · obtain ⟨b, hb, rfl⟩ := h
    obtain ⟨b', hb', rfl⟩ := h'
    rw [hb.unique hb']

theorem Exchange.unique {c : HttpConnection} {req : Request} {answer : Socket}
    {r r' : Option (Reply × HttpConnection)} (h : Exchange c req answer r)
    (h' : Exchange c req answer r') : r = r' := by
  cases h with
  | crashed hhead =>
    cases h' with
    | crashed => rfl
    | refused hhead' | lost hhead' | answered hhead' => cases (hhead.unique hhead').2
  | refused hhead =>
    cases h' with
    | refused hhead' =>
      obtain ⟨rfl, heq⟩ := hhead.unique hhead'
      cases heq
      rfl
    | crashed hhead' | lost hhead' | answered hhead' => cases (hhead.unique hhead').2
  | lost hhead hbody =>
    cases h' with
    | crashed | lost => rfl
    | refused hhead' => cases (hhead.unique hhead').2
    | answered hhead' hbody' =>
      cases (hhead.unique hhead').2
      cases hbody.unique hbody'
  | answered hhead hbody =>
    cases h' with
    | crashed hhead' | refused hhead' => cases (hhead.unique hhead').2
    | lost hhead' hbody' =>
      cases (hhead.unique hhead').2
      cases hbody.unique hbody'
    | answered hhead' hbody' =>
      obtain ⟨rfl, heq⟩ := hhead.unique hhead'
      cases heq
      cases hbody.unique hbody'
      rfl

/-- A run of exchanges has one outcome. -/
theorem Exchanges.unique {c : HttpConnection} {xs : List (Request × Socket)}
    {rs rs' : List (Reply × HttpConnection)} (h : Exchanges c xs rs) (h' : Exchanges c xs rs') :
    rs = rs' := by
  induction h generalizing rs' with
  | nil =>
    cases h'
    rfl
  | cons hfirst _ ih =>
    cases h' with
    | cons hfirst' hrest' =>
      cases hfirst.unique hfirst'
      rw [ih hrest']

/-! ## Answers -/

/-- The body of an answer: chunked, or with its length announced. -/
inductive AnswerBody where
  | chunked (b : Body)
  | length (payload : Bytes)

def AnswerBody.enc : AnswerBody → Bytes
  | .chunked b => b.enc
  | .length payload => payload

def AnswerBody.payload : AnswerBody → Bytes
  | .chunked b => b.payload
  | .length payload => payload

/-- A request and the answer to it, with the segments in which the answer comes. -/
structure Served where
  req : Request
  head : ResponseHead
  body : AnswerBody
  segs : List Bytes
  not_head : req.method ≠ bytes "HEAD"
  accepts : ∀ calls, req.query.onResponse calls = none
  segs_ne_nil : ∀ s ∈ segs, s ≠ []
  split : segs.flatten = head.enc ++ body.enc

/-- What the head says. -/
def Served.round (x : Served) : Option HttpRound :=
  (HttpRound.withStatus {} x.head.status).parseHeader x.head.headers

/-- The body arrives when `held` has come with the head, `segs` come behind it, and the
head has said what is in `F`. A chunked body ends with the last segment. -/
def Served.BodyArrives (x : Served) (held : Bytes) (segs : List Bytes) (F : HttpRound) : Prop :=
  match x.body with
  | .chunked b => F.chunked = true ∧ 0 < x.req.query.blockSize ∧ b.Fits ∧
      ∀ a, Reach (arrayRound b.zeros) (arrayInit b held segs x.req.stack) a →
        a.Ok b.zeros ∧ (a.verdict b.zeros = .last → a.rest.2 = [])
  | .length payload => F.chunked = false ∧ F.contentLength = payload.length ∧
      payload.length < 2 ^ 64 ∧ (x.req.query.blockSize = 0 → held = [])

/-- The answer arrives: its head does, no header line is read through `NULL`, and its
body arrives behind it. -/
def Served.Arrives (x : Served) : Prop :=
  ∃ held segs F, arrives x.head.lines [] x.segs = some (held, segs) ∧ x.round = some F ∧
    x.BodyArrives held segs F

/-- The reply to the request is read from the bytes of its answer, and of these nothing
is left on the socket. -/
structure Served.Received (x : Served) (r : Reply × HttpConnection) : Prop where
  lines_eq : r.1.lines = x.head.lines
  round_eq : ∃ F b, x.round = some F ∧ r.1.round = { F with lineBuffer := [], recvBuffer := b }
  payload_eq : delivered r.1.calls = x.body.payload
  ret_eq : r.1.ret = none
  sock_brings : Brings r.2.sock [] []

namespace KeepAliveLemmas

theorem query_accepting (x : Served) : x.req.query = .accepting x.req.query.blockSize := by
  rw [HttpQuery.accepting, ← funext x.accepts]

/-- A pause before the first byte is waited through. -/
theorem readLine_pause {sock : Socket} {r : Retval × HttpRound × Socket}
    (h : ReadLine {} sock r) : ReadLine {} (.wouldBlock :: sock) r := by
  have hsame : ∀ round data size, lineRound ⟨round, .wouldBlock :: sock, data, size⟩ =
      lineRound ⟨round, sock, data, size⟩ := by
    intro round data size
    simp only [lineRound, waitRecv_wouldBlock]
  have hread : HttpRound.readLine {} = (retval .error, {}) := rfl
  simp only [ReadLine, hread, retval] at h ⊢
  obtain ⟨fuel, hrun⟩ := h
  cases fuel with
  | zero => cases hrun
  | succ fuel =>
    refine ⟨fuel + 1, ?_⟩
    rw [run] at hrun ⊢
    rwa [hsame]

theorem readHead_pause {sock : Socket} {lines : List Bytes}
    {r : Option (Retval × HttpRound × Socket)} (h : ReadStatusAndHeader {} sock lines r) :
    ReadStatusAndHeader {} (.wouldBlock :: sock) lines r := by
  cases h with
  | failed hread => exact .failed (readLine_pause hread)
  | crashed hread hparse => exact .crashed (readLine_pause hread) hparse
  | refused hread hparse => exact .refused (readLine_pause hread) hparse
  | header hread hparse hrest => exact .header (readLine_pause hread) hparse hrest

/-- The head of an answer that arrives, on a socket on which nothing is left. -/
theorem readHead_served (x : Served) {sock : Socket} (hsock : Brings sock [] []) {held : Bytes}
    {segs : List Bytes} {F : HttpRound}
    (harrives : arrives x.head.lines [] x.segs = some (held, segs)) (hround : x.round = some F) :
    ReadStatusAndHeader {} (sock ++ segments x.segs) x.head.lines (some (none,
      { F with lineBuffer := [], recvBuffer := held }, segments segs)) ∧
    held ++ segs.flatten = x.body.enc ∧ ∀ s ∈ segs, s ≠ [] := by
  obtain ⟨hread, hrest, hsub⟩ := readHead_of_arrives .silent x.segs_ne_nil
    (show ({} : HttpRound).recvBuffer ++ x.segs.flatten ++ Ending.silent.bytes = _ by
      simpa [Ending.bytes] using x.split) harrives hround
  simp only [Ending.sock, Ending.bytes, List.append_nil] at hread hrest
  refine ⟨?_, hrest, fun s hs => x.segs_ne_nil s (hsub s hs)⟩
  rcases hsock with rfl | rfl
  · exact hread
  · exact readHead_pause hread

/-- The body of an answer that arrives. -/
theorem responseReal_served (x : Served) {round : HttpRound} {segs : List Bytes}
    (hsegs : ∀ s ∈ segs, s ≠ []) (hsplit : round.recvBuffer ++ segs.flatten = x.body.enc)
    (hbody : x.BodyArrives round.recvBuffer segs round) :
    ∃ calls sock, ResponseReal x.req round (segments segs) (some (calls, sock, none)) ∧
      delivered calls = x.body.payload ∧ Brings sock [] [] := by
  have hquery := query_accepting x
  unfold Served.BodyArrives at hbody
  cases hb : x.body with
  | chunked body =>
    rw [hb] at hbody hsplit
    obtain ⟨hchunked, hB, hfits, hok⟩ := hbody
    obtain ⟨s, hread, hpayload, hsock⟩ :=
      readBlocks_consumes hB hfits x.req.stack [] hsegs hsplit hok
    rw [List.append_nil, ← hquery] at hread
    refine ⟨s.chunked.calls, s.sock, ?_, hpayload, hsock⟩
    rw [ResponseReal, if_neg x.not_head, if_pos hchunked]
    exact ⟨_, hread, rfl⟩
  | length payload =>
    rw [hb] at hbody hsplit
    obtain ⟨hchunked, hlength, hlen, hzero⟩ := hbody
    by_cases h0 : payload.length = 0
    · have hnil : payload = [] := List.length_eq_zero_iff.mp h0
      obtain ⟨-, hflat⟩ := List.append_eq_nil_iff.mp (hsplit.trans hnil)
      have hsegs' : segs = [] :=
        (LengthRunLemmas.flatten_eq_nil_iff hsegs).mp (by rw [hflat, List.length_nil])
      refine ⟨[], segments segs, ?_, hnil.symm, .inl (by rw [hsegs', List.append_nil])⟩
      rw [ResponseReal, if_neg x.not_head, if_neg (by simp [hchunked]), if_pos (hlength.trans h0)]
    · obtain ⟨st, hread, hpayload, hsock⟩ := readLength_delivers [] hsegs hlen hsplit hzero
      rw [List.append_nil, ← hquery, ← hlength] at hread
      refine ⟨st.calls, st.sock, ?_, hpayload, hsock⟩
      rw [ResponseReal, if_neg x.not_head, if_neg (by simp [hchunked]),
        if_neg (hlength.trans_ne h0)]
      exact ⟨_, hread, rfl⟩

end KeepAliveLemmas

open KeepAliveLemmas

/-- An answer that arrives is received as it was sent, and nothing of it is left on the
socket. -/
theorem exchange_receives (x : Served) (c : HttpConnection) (hc : Brings c.sock [] [])
    (h : x.Arrives) :
    ∃ r, Exchange c x.req (segments x.segs) (some r) ∧ x.Received r := by
  obtain ⟨held, segs, F, harrives, hround, hbody⟩ := h
  have hsock : Brings (c.connect x.req.uri).sock [] [] := by
    unfold HttpConnection.connect
    split
    · exact hc
    · exact .inl rfl
  obtain ⟨hhead, hsplit, hsegs⟩ := readHead_served x hsock harrives hround
  obtain ⟨calls, sock, hread, hpayload, hleft⟩ := responseReal_served x hsegs
    (show ({ F with lineBuffer := [], recvBuffer := held } : HttpRound).recvBuffer ++ _ = _
      from hsplit) hbody
  exact ⟨_, .answered hhead hread, rfl, ⟨F, held, hround, rfl⟩, hpayload, rfl, hleft⟩

/-- Answers that arrive, one to each request of a connection, are received one by one:
each reply is read from the bytes of its own answer, and of these nothing is left for
the next one. -/
theorem exchanges_receive (xs : List Served) (c : HttpConnection) (hc : Brings c.sock [] [])
    (h : ∀ x ∈ xs, x.Arrives) :
    ∃ rs, Exchanges c (xs.map fun x => (x.req, segments x.segs)) rs ∧
      List.Forall₂ Served.Received xs rs := by
  induction xs generalizing c with
  | nil => exact ⟨[], .nil c, .nil⟩
  | cons x xs ih =>
    obtain ⟨r, hfirst, hreceived⟩ := exchange_receives x c hc (h x List.mem_cons_self)
    obtain ⟨rs, hrest, hall⟩ := ih r.2 hreceived.sock_brings
      fun y hy => h y (List.mem_cons_of_mem _ hy)
    exact ⟨r :: rs, .cons hfirst hrest, .cons hreceived hall⟩

/-! ## Two requests -/

def exChunkedHead : ResponseHead where
  status := exStatus
  headers := [bytes "Transfer-Encoding: chunked"]
  headers_line := by
    intro l hl
    rw [List.mem_singleton.mp hl]
    exact ⟨by decide, by decide⟩
  headers_ne := fun l hl => by
    rw [List.mem_singleton.mp hl]
    decide

/-- A request that is answered with the chunked body `hello`, in the segments `segs`. -/
def exServed (segs : List Bytes) (hne : ∀ s ∈ segs, s ≠ [])
    (hsplit : segs.flatten = exChunkedHead.enc ++ (AnswerBody.chunked exHello).enc) : Served where
  req := ⟨bytes "http://localhost/a", bytes "GET", .accepting 4, []⟩
  head := exChunkedHead
  body := .chunked exHello
  segs := segs
  not_head := by decide
  accepts := fun _ => rfl
  segs_ne_nil := hne
  split := hsplit

/-- A request for the same URI that is answered with the two bytes `ok`. -/
def exServedLength : Served where
  req := ⟨bytes "http://localhost/a", bytes "GET", .accepting 4, []⟩
  head := exHead
  body := .length (bytes "ok")
  segs := [exHead.enc ++ bytes "ok"]
  not_head := by decide
  accepts := fun _ => rfl
  segs_ne_nil := by decide
  split := by decide

/-- Both answers in one segment each. -/
theorem exchanges_receive_two :
    ∃ rs, Exchanges ⟨false, [], []⟩
        (([exServed [exChunkedHead.enc ++ exHello.enc] (by decide) (by decide), exServedLength] :
          List Served).map fun x => (x.req, segments x.segs)) rs ∧
      List.Forall₂ Served.Received
        [exServed [exChunkedHead.enc ++ exHello.enc] (by decide) (by decide), exServedLength] rs := by
  refine exchanges_receive _ ⟨false, [], []⟩ (.inl rfl) ?_
  intro x hx
  rcases List.mem_pair.mp hx with rfl | rfl
  · have hround : (exServed [exChunkedHead.enc ++ exHello.enc] (by decide) (by decide)).round.map
        HttpRound.chunked = some true := by decide
    obtain ⟨F, hF, hchunked⟩ := Option.map_eq_some_iff.mp hround
    have hfits : exHello.Fits := by unfold Body.Fits; decide
    refine ⟨exHello.enc, [], F, by decide, hF, hchunked, by decide, hfits, fun a ha => ?_⟩
    cases ha with
    | refl => exact ⟨by decide, fun _ => by decide⟩
    | next hstep _ =>
      have hlast : (arrayInit exHello exHello.enc [] []).verdict exHello.zeros = .last := by decide
      have hwait := (BlocksRunLemmas.arrayRound_next hstep).2.1
      cases hlast.symm.trans hwait
  · have hround : exServedLength.round.map (fun F => (F.chunked, F.contentLength)) =
        some (false, 2) := by decide
    obtain ⟨F, hF, hannounced⟩ := Option.map_eq_some_iff.mp hround
    obtain ⟨hchunked, hlength⟩ := Prod.mk.inj hannounced
    exact ⟨bytes "ok", [], F, by decide, hF, hchunked, hlength, by decide, by decide⟩

/-- The first answer with its last CRLF in a segment of its own. -/
def exCut : Served :=
  exServed [exChunkedHead.enc ++ bytes "5\r\nhello\r\n0\r\n", bytes "\r\n"] (by decide) (by decide)

/-- The body reader reports the end at the size line `0`, and the CRLF that follows it is
left for the next answer. -/
theorem exchanges_shifted :
    ¬ ∃ rs, Exchanges ⟨false, [], []⟩
        ([exCut, exServedLength].map fun x => (x.req, segments x.segs)) rs ∧
      List.Forall₂ Served.Received [exCut, exServedLength] rs := by
  rintro ⟨rs, hrun, hall⟩
  cases hall with
  | cons hreceived _ =>
    cases hrun with
    | cons hfirst _ =>
      have hround : exCut.round.map HttpRound.chunked = some true := by decide
      obtain ⟨F, hF, hchunked⟩ := Option.map_eq_some_iff.mp hround
      obtain ⟨hhead, -, -⟩ := readHead_served exCut (.inl rfl)
        (show arrives exCut.head.lines [] exCut.segs =
          some (bytes "5\r\nhello\r\n0\r\n", [bytes "\r\n"]) by decide) hF
      have hblocks : (run (readBlocksRound (.accepting 4)) 2
          (readBlocksInit (bytes "5\r\nhello\r\n0\r\n") (segments [bytes "\r\n"]) [])).map
            (Option.map fun s => (s.1.sock, s.2)) =
          some (some (segments [bytes "\r\n"], retval .tChunkedEnd)) := by decide
      obtain ⟨b, hb, hends⟩ := Option.map_eq_some_iff.mp hblocks
      obtain ⟨⟨s, ret⟩, rfl, hs⟩ := Option.map_eq_some_iff.mp hends
      obtain ⟨hsock, rfl⟩ := Prod.mk.inj hs
      have hbody : ResponseReal exCut.req
          { F with lineBuffer := [], recvBuffer := bytes "5\r\nhello\r\n0\r\n" }
          (segments [bytes "\r\n"]) (some (s.chunked.calls, s.sock, none)) := by
        rw [ResponseReal, if_neg exCut.not_head, if_pos hchunked]
        exact ⟨_, ⟨2, hb⟩, rfl⟩
      cases hfirst.unique (.answered hhead hbody)
      have hleft := hreceived.sock_brings
      rw [hsock] at hleft
      rcases hleft with h | h <;> cases h

end Dframework
