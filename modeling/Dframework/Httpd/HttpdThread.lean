import Mathlib
import Dframework.Httpd.SplitRequest

/-!
# `HttpdThread`

A connection of the thread mode: requests are received and answered one after another, as long as the
answers keep the connection alive. `HttpdClient::ready` makes a new request and a new response in
between, so what has been received behind the end of a request is no part of the next one.

What `readyRequest` and `sendResponse` do with a request is a parameter: whether they fail, and
whether the response keeps the connection alive. It may depend on the requests before. So is what
`isstop` answers between two requests.

Results:
1. `parseRequest_delivery`: a request whose cuts stand inside lines is received whole.
2. `run2_deliveries`: the requests that are answered are the ones that were delivered, each once and
   in their order, whatever stands behind their ends.
-/

namespace Dframework

open CLib

def maxReadPacket : Nat := 102400

/-- What a pass of the loop in `HttpdClient::parseRequest` meets: `m_bStop`, the end of
`MAX_TIMEOUT`, an answer of `wait_recv`, or what `recv` has written and answers. -/
inductive Incoming where
  | stop
  | late
  | wait (r : Ret)
  | recv (buf : Bytes) (ret : Retval)

/-- What `HttpdClient::parseRequest` comes to. It goes on waiting when nothing arrives any more. -/
inductive ParseEnd where
  | waiting (req : HttpRequest)
  | ended (ret : Retval) (req : HttpRequest) (left : List Incoming)

/-- The answers behind which the loop goes on. -/
def goesOn (r : Ret) : Bool :=
  r.value = .eAgain || r.value = .eTimeout

def HttpdClient.parseRequest : HttpRequest → List Incoming → Option ParseEnd
  | req, [] => some (.waiting req)
  | req, .stop :: left => some (.ended (retvalMsg .error "Stop httpd thread.") req left)
  | req, .late :: left =>
    if sizeSub maxReadPacket req.sBuffer.length = 0 then some (.ended (retval .error) req left)
    else some (.ended (retvalMsg .eTimeout "Timeout read request.") req left)
  | req, .wait r :: left =>
    if sizeSub maxReadPacket req.sBuffer.length = 0 then some (.ended (retval .error) req left)
    else if goesOn r then HttpdClient.parseRequest req left
    else some (.ended (some r) req left)
  | req, .recv buf ret :: left =>
    if sizeSub maxReadPacket req.sBuffer.length = 0 then some (.ended (retval .error) req left)
    else
      match buf, ret with
      | [], some r =>
        if goesOn r then HttpdClient.parseRequest req left else some (.ended (some r) req left)
      | buf, _ =>
        match req.parseRequest buf with
        | none => none
        | some (none, req) => some (.ended none req left)
        | some (some r, req) =>
          if goesOn r then HttpdClient.parseRequest req left else some (.ended (some r) req left)

/-- How a connection ends: the answer of `run_2`, or it waits with a part of a request. -/
inductive ThreadEnd where
  | waiting (req : HttpRequest)
  | ended (ret : Retval)

namespace HttpdThread

/-- What `isstop` answers in front of the `i`-th request, what `readyRequest` and `sendResponse`
answer to it, and `m_bKeepAlive` of its response. -/
structure Answers where
  isstop : Nat → Bool
  request : Nat → HttpRequest → Retval × Bool

/-- `HttpdThread::run_2` from the `i`-th request on, for at most `fuel` requests: the requests that
have been handed on, and the end. -/
def run2 (answers : Answers) : Nat → Nat → List Incoming → Option (List HttpRequest × ThreadEnd)
  | 0, _, _ => none
  | fuel + 1, i, arrivals =>
    if answers.isstop i then some ([], .ended (retvalMsg .error "stop httpd thread."))
    else
      match HttpdClient.parseRequest {} arrivals with
      | none => none
      | some (.waiting req) => some ([], .waiting req)
      | some (.ended (some r) _ _) => some ([], .ended (some r))
      | some (.ended none req left) =>
        match answers.request i req with
        | (some r, _) => some ([req], .ended (some r))
        | (none, false) => some ([req], .ended (retvalMsg .ok "exit thread(no keepalive)"))
        | (none, true) =>
          (run2 answers fuel (i + 1) left).map fun (requests, last) => (req :: requests, last)

end HttpdThread

/-! ## What is delivered -/

/-- Nothing has arrived yet. -/
inductive Incoming.IsIdle : Incoming → Prop
  | wait {r : Ret} (h : goesOn r) : IsIdle (.wait r)
  | recv {r : Ret} (h : goesOn r) : IsIdle (.recv [] (some r))

/-- The arrivals bring the segments. -/
inductive BringsIn : List Incoming → List Bytes → Prop
  | last (s : Bytes) (ret : Retval) : BringsIn [.recv s ret] [s]
  | more (s : Bytes) (ret : Retval) {arrivals : List Incoming} {segments : List Bytes}
      (h : BringsIn arrivals segments) : BringsIn (.recv s ret :: arrivals) (s :: segments)
  | idle {a : Incoming} {arrivals : List Incoming} {segments : List Bytes} (ha : a.IsIdle)
      (h : BringsIn arrivals segments) : BringsIn (a :: arrivals) segments

/-- A request and what comes with the rest of it. It ends in the last segment. -/
structure Delivery where
  head : Bytes
  surplus : Bytes
  segments : List Bytes
  arrivals : List Incoming
  accepted : HttpRequest.Accepted head
  ne_nil : ∀ s ∈ segments, s ≠ []
  flatten : segments.flatten = head ++ surplus
  inside : ∀ before after, segments = before ++ after → before ≠ [] → after ≠ [] →
    before.flatten.length < head.length ∧ HttpRequest.InsideLine before.flatten
  fits : head.length ≤ maxReadPacket
  bringsIn : BringsIn arrivals segments

/-- The request in one piece. What has come behind it is still in its buffer. -/
def Delivery.IsRequest (d : Delivery) (req : HttpRequest) : Prop :=
  ∃ r, HttpRequest.parseRequest {} d.head = some (none, r) ∧ req = r.extend d.surplus

/-! ## Receiving a request -/

theorem BringsIn.ne_nil {arrivals : List Incoming} {segments : List Bytes} (h : BringsIn arrivals segments) :
    segments ≠ [] := by
  induction h with
  | last s ret => exact List.cons_ne_nil _ _
  | more s ret h ih => exact List.cons_ne_nil _ _
  | idle ha h ih => exact ih

theorem room_left {n : Nat} (h : n < maxReadPacket) : sizeSub maxReadPacket n ≠ 0 := by
  rw [sizeSub_of_le h.le]
  exact Nat.sub_ne_zero_of_lt h

namespace HttpdClient

variable {req req' : HttpRequest} {left : List Incoming}

/-- A pass with bytes hands them on. -/
theorem parseRequest_recv (hroom : req.sBuffer.length < maxReadPacket) {buf : Bytes} (hbuf : buf ≠ [])
    (ret : Retval) :
    (∀ r, req.parseRequest buf = some (none, r) →
      HttpdClient.parseRequest req (.recv buf ret :: left) = some (.ended none r left)) ∧
    (∀ r, req.parseRequest buf = some (retval .eAgain, r) →
      HttpdClient.parseRequest req (.recv buf ret :: left) = HttpdClient.parseRequest r left) := by
  obtain ⟨c, buf, rfl⟩ := List.exists_cons_of_ne_nil hbuf
  constructor
  · intro r hparse
    rw [HttpdClient.parseRequest, if_neg (room_left hroom), hparse]
    exact fun _ hnil => absurd hnil hbuf
  · intro r hparse
    rw [HttpdClient.parseRequest, if_neg (room_left hroom), hparse]
    · exact if_pos rfl
    · exact fun _ hnil => absurd hnil hbuf

theorem parseRequest_idle (hroom : req.sBuffer.length < maxReadPacket) {a : Incoming} (ha : a.IsIdle) :
    HttpdClient.parseRequest req (a :: left) = HttpdClient.parseRequest req left := by
  cases ha with
  | wait h => rw [HttpdClient.parseRequest, if_neg (room_left hroom), if_pos h]
  | recv h =>
    rw [HttpdClient.parseRequest, if_neg (room_left hroom)]
    exact if_pos h

/-- The rest of a request whose front `p` has been handed on. -/
theorem parseRequest_rest {head more p : Bytes} {segments : List Bytes} {arrivals : List Incoming}
    (hbringsIn : BringsIn arrivals segments) (hhead : HttpRequest.Accepted head)
    (hone : HttpRequest.parseRequest {} (head ++ more) = some (none, req'))
    (hgo : ∀ t, t ≠ [] → req.parseRequest t = HttpRequest.parseRequest {} (p ++ t))
    (hbuf : req.sBuffer.length ≤ p.length) (hp : p.length < head.length)
    (hfits : head.length ≤ maxReadPacket) (hne : ∀ s ∈ segments, s ≠ [])
    (hcat : p ++ segments.flatten = head ++ more)
    (hinside : ∀ before after, segments = before ++ after → before ≠ [] → after ≠ [] →
      (p ++ before.flatten).length < head.length ∧ HttpRequest.InsideLine (p ++ before.flatten)) :
    HttpdClient.parseRequest req (arrivals ++ left) = some (.ended none req' left) := by
  induction hbringsIn generalizing p req with
  | last s ret =>
    have hs : s ≠ [] := hne s List.mem_cons_self
    rw [List.flatten_singleton] at hcat
    refine (parseRequest_recv (by omega) hs ret).1 _ ?_
    rw [hgo s hs, hcat, hone]
  | @more s ret arrivals segments h ih =>
    obtain ⟨hs, hrest⟩ := List.forall_mem_cons.mp hne
    rw [List.flatten_cons, ← List.append_assoc] at hcat
    obtain ⟨hlt, hin⟩ := hinside [s] segments rfl (List.cons_ne_nil _ _) h.ne_nil
    rw [List.flatten_singleton] at hlt hin
    have hps : p ++ s ≠ [] := List.append_ne_nil_of_right_ne_nil p hs
    have hpre : p ++ s <+: head :=
      List.prefix_of_prefix_length_le ⟨_, hcat⟩ (List.prefix_append head more) hlt.le
    obtain ⟨r₂, hr₂⟩ := (HttpRequest.again_iff hhead hpre hps hlt).mpr hin
    rw [List.cons_append, (parseRequest_recv (by omega) hs ret).2 r₂ (by rw [hgo s hs, hr₂])]
    refine ih (p := p ++ s) (fun t ht => HttpRequest.parseRequest_again hps ht hr₂)
      (HttpRequest.again_length hps hr₂) hlt hrest hcat fun before after hsplit hbefore hafter => ?_
    have hcut := hinside (s :: before) after (by rw [hsplit]; rfl) (List.cons_ne_nil _ _) hafter
    rwa [List.flatten_cons, ← List.append_assoc] at hcut
  | idle ha h ih =>
    rw [List.cons_append, parseRequest_idle (by omega) ha]
    exact ih hgo hbuf hp hne hcat hinside

/-- A delivery is received whole, and what arrives behind it is left. -/
theorem parseRequest_delivery (d : Delivery) :
    ∃ r, d.IsRequest r ∧
      HttpdClient.parseRequest {} (d.arrivals ++ left) = some (.ended none r left) := by
  obtain ⟨-, r, hr, -⟩ := id d.accepted
  have hne : d.head ≠ [] := by
    intro hnil
    rw [hnil] at hr
    cases congrArg Prod.fst (Option.some.inj hr)
  refine ⟨r.extend d.surplus, ⟨r, hr, rfl⟩, ?_⟩
  exact parseRequest_rest (p := []) d.bringsIn d.accepted (HttpRequest.parseRequest_done hne hr).1
    (fun _ _ => rfl) le_rfl (List.length_pos_of_ne_nil hne) d.fits d.ne_nil d.flatten d.inside

end HttpdClient

/-! ## The connection -/

namespace HttpdThread

/-- The requests that are answered from the `i`-th on: as long as the thread is not stopped and the
answers keep the connection alive. -/
def answered (answers : Answers) : Nat → List HttpRequest → List HttpRequest × ThreadEnd
  | i, [] =>
    if answers.isstop i then ([], .ended (retvalMsg .error "stop httpd thread.")) else ([], .waiting {})
  | i, req :: requests =>
    if answers.isstop i then ([], .ended (retvalMsg .error "stop httpd thread."))
    else
      match answers.request i req with
      | (some r, _) => ([req], .ended (some r))
      | (none, false) => ([req], .ended (retvalMsg .ok "exit thread(no keepalive)"))
      | (none, true) =>
        (req :: (answered answers (i + 1) requests).1, (answered answers (i + 1) requests).2)

theorem run2_cons (answers : Answers) (req : HttpRequest) (requests : List HttpRequest) {fuel i : Nat}
    {arrivals left : List Incoming}
    (hparse : HttpdClient.parseRequest {} arrivals = some (.ended none req left))
    (hrun : run2 answers fuel (i + 1) left = some (answered answers (i + 1) requests)) :
    run2 answers (fuel + 1) i arrivals = some (answered answers i (req :: requests)) := by
  rw [run2, hparse]
  cases hstop : answers.isstop i with
  | true => simp [answered, hstop]
  | false =>
    rcases hanswer : answers.request i req with ⟨_ | r, _ | _⟩
    · simp only [answered, hstop, hanswer]
      rfl
    · simp only [answered, hstop, hanswer]
      rw [hrun]
      rfl
    · simp only [answered, hstop, hanswer]
      rfl
    · simp only [answered, hstop, hanswer]
      rfl

/-- The requests of a connection are the ones that were delivered, each once and in their order. What
stands behind the end of a request is no part of the next one. -/
theorem run2_deliveries (answers : Answers) (i : Nat) (deliveries : List Delivery) (k : Nat) :
    ∃ requests, List.Forall₂ Delivery.IsRequest deliveries requests ∧
      run2 answers (deliveries.length + (k + 1)) i (deliveries.flatMap Delivery.arrivals) =
        some (answered answers i requests) := by
  induction deliveries generalizing i with
  | nil =>
    refine ⟨[], .nil, ?_⟩
    rw [List.length_nil, Nat.zero_add, answered, run2]
    split_ifs <;> rfl
  | cons d deliveries ih =>
    obtain ⟨requests, hrequests, hrun⟩ := ih (i + 1)
    obtain ⟨req, hreq, hparse⟩ :=
      @HttpdClient.parseRequest_delivery (deliveries.flatMap Delivery.arrivals) d
    refine ⟨req :: requests, .cons hreq hrequests, ?_⟩
    rw [List.length_cons, Nat.add_right_comm, List.flatMap_cons]
    exact run2_cons answers req requests hparse hrun

/-- A request with the front of another one behind it. -/
def exDelivery : Delivery where
  head := HttpRequest.exHead
  surplus := bytes "GET"
  segments := [bytes "GE", bytes "T / HTTP/1.1" ++ (CRLF ++ (bytes "Host: h" ++ (CRLF ++ (CRLF ++ bytes "GET"))))]
  arrivals := [.wait { value := .eTimeout }, .recv (bytes "GE") none, .recv (bytes "T / HTTP/1.1" ++
    (CRLF ++ (bytes "Host: h" ++ (CRLF ++ (CRLF ++ bytes "GET"))))) (retval .eAgain)]
  accepted := HttpRequest.exHead_accepted
  ne_nil := List.forall_mem_cons.mpr ⟨by decide, List.forall_mem_singleton.mpr (by decide)⟩
  flatten := rfl
  inside := by
    intro before after hsplit hbefore hafter
    rcases before with _ | ⟨a, _ | ⟨b, before⟩⟩
    · exact absurd rfl hbefore
    · obtain ⟨rfl, -⟩ := List.cons.inj hsplit
      exact ⟨by decide, .inl (by decide)⟩
    · obtain ⟨-, hsplit₁⟩ := List.cons.inj hsplit
      obtain ⟨-, hsplit₂⟩ := List.cons.inj hsplit₁
      exact absurd (List.append_eq_nil_iff.mp hsplit₂.symm).2 hafter
  fits := by decide
  bringsIn := .idle (.wait rfl) (.more _ _ (.last _ _))

/-- The first answer keeps the connection alive, and the second one does not. -/
def onceAlive : Answers where
  isstop _ := false
  request i _ := (none, i = 0)

/-- The same request twice, answered in two ways. -/
theorem run2_deliveries_two : ∃ r₁ r₂, exDelivery.IsRequest r₁ ∧ exDelivery.IsRequest r₂ ∧
    run2 onceAlive 3 0 (exDelivery.arrivals ++ exDelivery.arrivals) =
      some ([r₁, r₂], .ended (retvalMsg .ok "exit thread(no keepalive)")) := by
  obtain ⟨requests, hrequests, hrun⟩ := run2_deliveries onceAlive 0 [exDelivery, exDelivery] 0
  cases hrequests with
  | @cons _ r₁ _ _ h₁ hrest =>
    cases hrest with
    | @cons _ r₂ _ _ h₂ hrest =>
      cases hrest
      exact ⟨r₁, r₂, h₁, h₂, hrun⟩

set_option maxRecDepth 20000 in
/-- Its front is lost. -/
example : (run2 ⟨fun _ => false, fun _ _ => (none, true)⟩ 2 0 exDelivery.arrivals).map Prod.snd =
    some (.waiting {}) := rfl

end HttpdThread

end Dframework
