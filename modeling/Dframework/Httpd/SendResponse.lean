import Mathlib
import Dframework.Httpd.FileResponse
import Dframework.Library.Driven

/-!
# The response of the thread mode

`sendResponse` calls `sendLocalFile` until it answers `NULL`, and goes on for every answer that asks
for another call. A response that is no file is sent by `sendResponseStatus` in the same way. What the
caller of `sendResponse` is told of an answer with the value `DFW_OK` is `NULL`.

Results:
1. `sendResponse_sends`: what has been sent is the front of the response, and all of it when `NULL` is
   answered.
2. `sendResponse_ends`: on a connection that takes something at each pass the whole response is sent.
-/

namespace Dframework

open CLib Driven Cells

/-- What a pass of the loops meets: `stop` is `m_bStop`, and `late` the end of the time. -/
structure LoopPass where
  stop : Bool := false
  late : Bool := false
  turn : Turn := {}

namespace HttpdClient

/-- A pass of a loop over `call`. An answer for which `again` holds is followed by another pass. -/
def sendPass (handle : Int) (lateMessage : String) (again : Retno → Bool)
    (call : FileResponse → Turn → Option (Retval × FileResponse × Bytes)) (resp : FileResponse)
    (p : LoopPass) : Option (Step FileResponse (Retval × FileResponse) × Bytes) :=
  if p.stop then
    some (.done (retvalMsg .error ("Stop httpd thread. handle=" ++ toString handle), resp), [])
  else if p.late then
    some (.done (retvalMsg .eTimeout (lateMessage ++ toString handle), resp), [])
  else
    match call resp p.turn with
    | none => none
    | some (none, resp, out) => some (.done (none, resp), out)
    | some (some r, resp, out) =>
      if again r.value then some (.next resp, out) else some (.done (some r, resp), out)

/-- A pass of `HttpdClient::sendResponseStatus`. -/
def statusPass (handle : Int) : FileResponse → LoopPass →
    Option (Step FileResponse (Retval × FileResponse) × Bytes) :=
  sendPass handle "Timeout read request. handle=" (fun v => v = .eAgain ∨ v = .eTimeout)
    fun resp t => some (resp.sendStream t)

/-- A pass of `HttpdClient::sendResponse`. -/
def filePass (s : FileRange) (handle : Int) : FileResponse → LoopPass →
    Option (Step FileResponse (Retval × FileResponse) × Bytes) :=
  sendPass handle "Timeout response. handle="
    (fun v => v = .eAgain ∨ v = .eTimeout ∨ v = .tContinue) fun resp t => resp.sendLocalFile s t

/-- What `HttpResponse::makeStream` leaves behind. -/
def withStream (stream : Bytes) (resp : FileResponse) : FileResponse :=
  { resp with sStream := stream, iStreamSended := 0, iSendedSize := 0 }

/-- What `sendResponse` makes of the answer of `sendResponseStatus`. -/
def statusAnswer (check : Ret) (ret : Retval × FileResponse) : Retval × FileResponse :=
  match ret with
  | (none, resp) => (if check.value = .ok then none else some check, resp)
  | (some r, resp) => (some r, resp)

/-- The end of a loop with another answer. -/
def mapEnd {σ ρ : Type*} (f : ρ → ρ) : End σ ρ → End σ ρ
  | .waiting s => .waiting s
  | .ended r => .ended (f r)

/-- `HttpdClient::sendResponse`, from where `se_checkLocalFile` has answered: `stream` is the response
that has been made when the answer is not `NULL`. -/
def sendResponse (s : FileRange) (handle : Int) (check : Retval) (stream : Bytes)
    (resp : FileResponse) (passes : List LoopPass) :
    Option (End FileResponse (Retval × FileResponse) × Bytes) :=
  match check with
  | none => drive (filePass s handle) resp passes
  | some r =>
    (drive (statusPass handle) (withStream stream resp) passes).map
      (Prod.map (mapEnd (statusAnswer r)) id)

end HttpdClient

def FileRange.whole (s : FileRange) : Bytes :=
  if s.head then s.header else s.header ++ (s.content.drop s.start).take s.length

def wholeResponse (s : FileRange) (check : Retval) (stream : Bytes) : Bytes :=
  if check = none then s.whole else stream

/-! ## The stream -/

/-- The stream has been sent as far as the counter says. -/
structure StreamSent (stream : Bytes) (resp : FileResponse) (wire : Bytes) : Prop where
  stream_eq : resp.sStream = stream
  sended_le : resp.iStreamSended ≤ stream.length
  wire_eq : wire = stream.take resp.iStreamSended

theorem StreamSent.isPrefix {stream : Bytes} {resp : FileResponse} {wire : Bytes}
    (h : StreamSent stream resp wire) : wire <+: stream := by
  rw [h.wire_eq]
  exact List.take_prefix _ _

/-- Nothing of a stream has been sent. -/
theorem streamSent_withStream (stream : Bytes) (resp : FileResponse) :
    StreamSent stream (HttpdClient.withStream stream resp) [] :=
  ⟨rfl, Nat.zero_le _, rfl⟩

namespace FileResponse

variable {resp resp' : FileResponse} {stream wire out : Bytes} {s : FileRange} {ret : Retval}

/-- A call goes on with the stream where it stopped, and `NULL` says that all of it has been sent. -/
theorem sendStream_spec (hlen : stream.length < 2 ^ 63) (h : StreamSent stream resp wire) (t : Turn) :
    ∃ ret resp' out, resp.sendStream t = (ret, resp', out) ∧ StreamSent stream resp' (wire ++ out) ∧
      (ret = none → resp'.iStreamSended = stream.length) ∧
      resp'.iFileStatus = resp.iFileStatus ∧ resp'.iFileSended = resp.iFileSended := by
  have hsame : StreamSent stream resp (wire ++ []) := (List.append_nil wire).symm ▸ h
  rw [sendStream]
  split_ifs with hall
  · exact ⟨_, _, _, rfl, hsame, fun _ => hall.symm.trans (congrArg _ h.stream_eq), rfl, rfl⟩
  rcases t.wait with _ | r
  swap
  · exact ⟨_, _, _, rfl, hsame, by simp, rfl, rfl⟩
  obtain ⟨out, ret, hraw⟩ : ∃ out ret,
      sendRaw (resp.sStream.drop resp.iStreamSended) t.sends = (out, ret) := ⟨_, _, rfl⟩
  have hfront : out <+: stream.drop resp.iStreamSended := by
    have := sendRaw_prefix (resp.sStream.drop resp.iStreamSended) t.sends
    rwa [hraw, h.stream_eq] at this
  have hle : resp.iStreamSended + out.length ≤ stream.length := by
    have hout := hfront.length_le
    rw [List.length_drop] at hout
    have := h.sended_le
    omega
  have hadd : sizeAdd resp.iStreamSended out.length = resp.iStreamSended + out.length :=
    sizeAdd_of_lt (by omega)
  have hmore : wire ++ out = stream.take (resp.iStreamSended + out.length) := by
    rw [h.wire_eq, List.take_add, ← List.prefix_iff_eq_take.mp hfront]
  simp only [hraw, hadd]
  split_ifs with hstop hend
  · exact ⟨_, _, _, rfl, hsame, fun hnone => absurd hnone hstop.1, rfl, rfl⟩
  · exact ⟨_, _, _, rfl, ⟨h.stream_eq, hle, hmore⟩,
      fun _ => hend.symm.trans (congrArg _ h.stream_eq), rfl, rfl⟩
  · exact ⟨_, _, _, rfl, ⟨h.stream_eq, hle, hmore⟩, by simp, rfl, rfl⟩

/-! ## The file -/

theorem sendBuffer_ne_none {fbuf : Bytes} {t : Turn}
    (h : resp.sendBuffer fbuf t = some (ret, resp', out)) : ret ≠ none := by
  unfold sendBuffer at h
  simp only at h
  split at h
  · cases h
  · obtain ⟨rfl, -⟩ := Prod.mk.inj (Option.some.inj h)
    split_ifs with hnone
    · exact retval_ne_none _
    · exact hnone

theorem sendFile_ne_none {t : Turn} (h : resp.sendFile s t = some (ret, resp', out)) :
    ret ≠ none := by
  unfold sendFile at h
  split at h
  · obtain ⟨rfl, -⟩ := Prod.mk.inj (Option.some.inj h)
    exact retval_ne_none _
  split at h
  · obtain ⟨rfl, -⟩ := Prod.mk.inj (Option.some.inj h)
    exact Option.some_ne_none _
  split at h
  · simp only at h
    split at h
    · obtain ⟨rfl, -⟩ := Prod.mk.inj (Option.some.inj h)
      exact retval_ne_none _
    split at h
    · obtain ⟨rfl, -⟩ := Prod.mk.inj (Option.some.inj h)
      exact Option.some_ne_none _
    split_ifs at h with hread
    · obtain ⟨rfl, -⟩ := Prod.mk.inj (Option.some.inj h)
      exact retval_ne_none _
    split at h
    · obtain ⟨buffer, -, hrest⟩ := Option.bind_eq_some_iff.mp h
      obtain ⟨rfl, -⟩ := Prod.mk.inj (Option.some.inj hrest)
      exact Option.some_ne_none _
    · exact sendBuffer_ne_none h
  · obtain ⟨fbuf, -, hrest⟩ := Option.bind_eq_some_iff.mp h
    exact sendBuffer_ne_none hrest

/-- `NULL` is answered in status 3 only, and the call sends nothing. -/
theorem sendLocalFile_none {t : Turn} (h : resp.sendLocalFile s t = some (none, resp', out)) :
    resp.iFileStatus = 3 ∧ resp' = resp ∧ out = [] := by
  unfold sendLocalFile at h
  split at h
  · cases h
  split at h
  · split at h
    · cases h
    · cases h
  · split at h
    · cases h
    · cases h
  · exact absurd rfl (sendFile_ne_none h)
  next hstatus =>
    split at h
    · cases h
    · obtain ⟨-, hrest⟩ := Prod.mk.inj (Option.some.inj h)
      obtain ⟨rfl, rfl⟩ := Prod.mk.inj hrest
      exact ⟨hstatus, rfl, rfl⟩
  · cases h

/-- What every call keeps: nothing has been sent, the response is on its way, or all of it has been
sent. With `HEAD` no byte of the file is on its way. -/
inductive Kept (s : FileRange) (resp : FileResponse) (wire : Bytes) : Prop
  | unsent (h : Unsent resp) (hwire : wire = [])
  | sending (hstatus : resp.iFileStatus ≠ 3) (h : SendInv s resp wire)
      (hhead : s.head → resp.iFileSended = 0)
  | sent (hstatus : resp.iFileStatus = 3) (hwire : wire = s.whole)

/-- The first call that gets as far as the header has sent nothing of the file. -/
theorem ready_sended {t : Turn} (h : Unsent resp) (hrun : resp.sendLocalFileReady s t = (ret, resp', out)) :
    Unsent resp' ∨ resp'.iFileStatus ≠ 3 ∧ resp'.iFileSended = 0 := by
  unfold sendLocalFileReady at hrun
  split at hrun
  · obtain ⟨-, hrest⟩ := Prod.mk.inj hrun
    obtain ⟨rfl, -⟩ := Prod.mk.inj hrest
    exact .inl h
  · simp only at hrun
    set begun : FileResponse := { resp with
      originFs := some (.opened s.content)
      iBufferLen := 0
      iFileSendLength := s.length
      iFileOffset := s.start
      iFileSended := 0
      sStream := s.header
      iStreamSended := 0
      iSendedSize := 0 } with hbegun
    have hsent : StreamSent s.header begun [] := ⟨rfl, Nat.zero_le _, rfl⟩
    have hlt : s.header.length < 2 ^ 63 := by
      have := s.header_lt
      omega
    obtain ⟨ret₀, resp₀, out₀, hstream, -, -, -, hsended⟩ := sendStream_spec hlt hsent t
    rw [hstream] at hrun
    rcases ret₀ with _ | r
    · obtain ⟨-, hrest⟩ := Prod.mk.inj hrun
      obtain ⟨rfl, -⟩ := Prod.mk.inj hrest
      exact .inr ⟨(by decide : 2 ≠ 3), hsended⟩
    · obtain ⟨-, hrest⟩ := Prod.mk.inj hrun
      obtain ⟨rfl, -⟩ := Prod.mk.inj hrest
      exact .inr ⟨(by decide : 1 ≠ 3), hsended⟩

theorem not_sendInv_of_unsent (h : Unsent resp) : ¬ SendInv s resp wire := by
  intro hinv
  have hstatus := h.status
  cases hinv <;> omega

/-- Status 2 is left for status 3 with all of the range sent. -/
theorem kept_of_sendInv (h : SendInv s resp wire) (hhead : s.head = false) : Kept s resp wire := by
  cases h with
  | header status phase =>
    exact .sending (by omega) (.header status phase) fun htrue => absurd htrue (by simp [hhead])
  | file held status phase buffer =>
    exact .sending (by omega) (.file held status phase buffer) fun htrue =>
      absurd htrue (by simp [hhead])
  | done status phase =>
    refine .sent status ?_
    rw [FileRange.whole, hhead, phase.wire_eq]
    rfl

/-- What has been sent behind the header of a `HEAD`. -/
theorem wire_of_head (h : SendInv s resp wire) (hhead : s.head) (hsended : resp.iFileSended = 0)
    (hstatus : resp.iFileStatus = 2) : wire = s.whole := by
  cases h with
  | header status phase => omega
  | file held status phase buffer =>
    rw [FileRange.whole, if_pos hhead, phase.wire_eq, hsended, List.take_zero, List.append_nil]
  | done status phase => omega

/-- A call keeps what has been sent in step with the response, and answers `NULL` only when all of it
has been sent. -/
theorem Kept.step (h : Kept s resp wire) (t : Turn) :
    ∃ ret resp' out, resp.sendLocalFile s t = some (ret, resp', out) ∧ Kept s resp' (wire ++ out) ∧
      (ret = none → wire ++ out = s.whole) := by
  have hsame : ∀ {w : Bytes}, Kept s resp w → Kept s resp (w ++ []) := fun hw =>
    (List.append_nil _).symm ▸ hw
  have hnone : ∀ {ret resp' out}, resp.sendLocalFile s t = some (ret, resp', out) → ret = none →
      wire ++ out = s.whole := by
    rintro ret resp' out hrun rfl
    obtain ⟨hstatus, -, rfl⟩ := sendLocalFile_none hrun
    cases h with
    | unsent h => exact absurd (h.status.symm.trans hstatus) (by decide)
    | sending hne => exact absurd hstatus hne
    | sent _ hwire => rw [List.append_nil, hwire]
  suffices hstep : ∃ ret resp' out, resp.sendLocalFile s t = some (ret, resp', out) ∧
      Kept s resp' (wire ++ out) by
    obtain ⟨ret, resp', out, hrun, hkept⟩ := hstep
    exact ⟨ret, resp', out, hrun, hkept, hnone hrun⟩
  cases h with
  | sent hstatus hwire =>
    rw [sendLocalFile]
    split
    · exact ⟨_, _, _, rfl, hsame (.sent hstatus hwire)⟩
    · simp only [hstatus]
      split
      · exact ⟨_, _, _, rfl, hsame (.sent hstatus hwire)⟩
      · exact ⟨_, _, _, rfl, hsame (.sent hstatus hwire)⟩
  | unsent hunsent hwire =>
    subst hwire
    rw [sendLocalFile]
    split
    · exact ⟨_, _, _, rfl, hsame (.unsent hunsent rfl)⟩
    simp only [hunsent.status]
    obtain ⟨ret, resp', out, hrun, hor⟩ := ready_sends (s := s) t hunsent
    have hkept : Kept s resp' ([] ++ out) := by
      rcases hor with ⟨-, rfl, hunsent'⟩ | hinv
      · exact .unsent hunsent' rfl
      · rcases ready_sended hunsent hrun with hunsent' | ⟨hne, hzero⟩
        · exact absurd hinv (not_sendInv_of_unsent hunsent')
        · exact .sending hne hinv fun _ => hzero
    rw [hrun]
    rcases ret with _ | r
    · exact ⟨_, _, _, rfl, hkept⟩
    · exact ⟨_, _, _, rfl, hkept⟩
  | sending hne hinv hhead =>
    by_cases hmethod : s.head
    · have hzero := hhead hmethod
      rw [sendLocalFile]
      split
      · exact ⟨_, _, _, rfl, hsame (.sending hne hinv hhead)⟩
      cases hinv with
      | header status phase =>
        obtain ⟨ret, resp', out, hrun, hphase, hstatus, hall⟩ := sendStream_header t phase
        simp only [status, hrun]
        rcases ret with _ | r
        · exact ⟨_, _, _, rfl, .sending (by decide : 2 ≠ 3) (sendInv_of_header hphase (hall rfl))
            fun _ => hphase.sended⟩
        · exact ⟨_, _, _, rfl, .sending (by omega) (.header (hstatus.trans status) hphase)
            fun _ => hphase.sended⟩
      | file held status phase buffer =>
        have hwire := wire_of_head (.file held status phase buffer) hmethod hzero status
        simp only [status, sendFile, hmethod, if_true]
        exact ⟨_, _, _, rfl, .sent rfl (by rw [List.append_nil, hwire])⟩
      | done status phase => exact absurd status hne
    · rw [Bool.not_eq_true] at hmethod
      obtain ⟨ret, resp', out, hrun, hor⟩ := sendLocalFile_step hmethod (.inr hinv) t
      refine ⟨ret, resp', out, hrun, ?_⟩
      rcases hor with ⟨hunsent, hwire⟩ | hinv'
      · exact .unsent hunsent hwire
      · exact kept_of_sendInv hinv' hmethod

/-- What has been sent is the front of what is sent for the file. -/
theorem Kept.isPrefix (h : Kept s resp wire) : wire <+: s.whole := by
  cases h with
  | unsent _ hwire => exact hwire ▸ List.nil_prefix
  | sent _ hwire => exact hwire ▸ List.prefix_refl _
  | sending _ hinv hhead =>
    have hsent := hinv.rangeSent
    rw [FileRange.whole, hsent.wire_eq]
    split_ifs with hmethod
    · rw [hhead hmethod, List.take_zero, List.append_nil]
      exact List.take_prefix _ _
    · rcases Nat.eq_zero_or_pos resp.iFileSended with hzero | hpos
      · rw [hzero, List.take_zero, List.append_nil]
        exact (List.take_prefix _ _).trans (List.prefix_append _ _)
      · rw [hsent.header_first hpos, List.take_length]
        exact (List.prefix_append_right_inj _).mpr (List.take_prefix_take_left hsent.sended_le)

end FileResponse

/-! ## The loops -/

namespace HttpdClient

open FileResponse

variable {handle : Int} {lateMessage : String} {again : Retno → Bool}
  {call : FileResponse → Turn → Option (Retval × FileResponse × Bytes)}
  {I : FileResponse → Bytes → Prop} {resp : FileResponse} {wire whole : Bytes}

/-- What a loop has sent when it ends: the front of all, and all of it with `NULL`. -/
def Sent (whole : Bytes) (ret : Retval × FileResponse) (wire : Bytes) : Prop :=
  wire <+: whole ∧ (ret.1 = none → wire = whole)

/-- A pass keeps what a call keeps. -/
theorem sendPass_keeps (hwhole : ∀ {resp wire}, I resp wire → wire <+: whole)
    (hcall : ∀ {resp wire} (t : Turn), I resp wire → ∃ ret resp' out,
      call resp t = some (ret, resp', out) ∧ I resp' (wire ++ out) ∧
        (ret = none → wire ++ out = whole))
    (resp : FileResponse) (wire : Bytes) (p : LoopPass) (h : I resp wire) :
    ∃ x out, sendPass handle lateMessage again call resp p = some (x, out) ∧
      x.Holds I (Sent whole) (wire ++ out) := by
  have hstop : ∀ ret : Ret, (Step.done (some ret, resp) : Step FileResponse (Retval × FileResponse)).Holds
      I (Sent whole) (wire ++ []) := fun ret => by
    rw [List.append_nil]
    exact ⟨hwhole h, fun hnone => absurd hnone (Option.some_ne_none ret)⟩
  rw [sendPass]
  split_ifs with hs hl
  · exact ⟨_, _, rfl, hstop _⟩
  · exact ⟨_, _, rfl, hstop _⟩
  obtain ⟨ret, resp', out, hrun, hkept, hnone⟩ := hcall p.turn h
  rw [hrun]
  rcases ret with _ | r
  · exact ⟨_, _, rfl, hwhole hkept, fun _ => hnone rfl⟩
  · simp only
    split_ifs with hagain
    · exact ⟨_, _, rfl, hkept⟩
    · exact ⟨_, _, rfl, hwhole hkept, fun hnull => absurd hnull (Option.some_ne_none r)⟩

theorem filePass_keeps (s : FileRange) (handle : Int) (resp : FileResponse) (wire : Bytes) (p : LoopPass)
    (h : Kept s resp wire) :
    ∃ x out, filePass s handle resp p = some (x, out) ∧ x.Holds (Kept s) (Sent s.whole) (wire ++ out) :=
  sendPass_keeps Kept.isPrefix (fun t h => h.step t) resp wire p h

theorem statusPass_keeps {stream : Bytes} (hlen : stream.length < 2 ^ 63) (handle : Int)
    (resp : FileResponse) (wire : Bytes) (p : LoopPass) (h : StreamSent stream resp wire) :
    ∃ x out, statusPass handle resp p = some (x, out) ∧
      x.Holds (StreamSent stream) (Sent stream) (wire ++ out) := by
  refine sendPass_keeps StreamSent.isPrefix (fun {resp wire} t h => ?_) resp wire p h
  obtain ⟨ret, resp', out, hrun, hsent, hall, -⟩ := sendStream_spec hlen h t
  refine ⟨ret, resp', out, by rw [hrun], hsent, fun hnone => ?_⟩
  rw [hsent.wire_eq, hall hnone, List.take_length]

/-- What has been sent when a loop waits, or ends. -/
def SentSoFar (whole : Bytes) (e : End FileResponse (Retval × FileResponse)) (wire : Bytes) : Prop :=
  e.Holds (fun _ wire => wire <+: whole) (Sent whole) wire

/-- In every run of the thread mode what has been sent is the front of the response to the request, and
the caller is told `NULL` only when all of it has been sent. -/
theorem sendResponse_sends (s : FileRange) (handle : Int) (check : Retval) {stream : Bytes}
    (hstream : stream.length < 2 ^ 31) {resp : FileResponse} (h : Unsent resp) (passes : List LoopPass) :
    ∃ e wire, sendResponse s handle check stream resp passes = some (e, wire) ∧
      SentSoFar (wholeResponse s check stream) e wire := by
  rcases check with _ | r
  · obtain ⟨e, wire, hrun, he⟩ := drive_invariant (filePass_keeps s handle) (.unsent h rfl) passes
    refine ⟨e, wire, hrun, ?_⟩
    cases e with
    | waiting resp' => exact Kept.isPrefix he
    | ended ret => exact he
  · have hlen : stream.length < 2 ^ 63 := by omega
    obtain ⟨e, wire, hrun, he⟩ := drive_invariant (statusPass_keeps hlen handle)
      (streamSent_withStream stream resp) passes
    refine ⟨_, wire, by rw [sendResponse, hrun]; rfl, ?_⟩
    cases e with
    | waiting resp' => exact StreamSent.isPrefix he
    | ended ret =>
      rcases ret with ⟨_ | r', resp'⟩
      · exact ⟨he.1, fun _ => he.2 rfl⟩
      · exact ⟨he.1, fun hnull => absurd hnull (Option.some_ne_none r')⟩

end HttpdClient

/-! ## A connection that goes on -/

/-- The system takes something of what it is offered, and nothing is in the way. -/
structure Turn.Good (t : Turn) : Prop where
  stop : t.stop = false
  ready : t.ready = none
  wait : t.wait = none
  hook : t.hook = none
  left : t.left = (none, 0)
  sends_ne_nil : t.sends ≠ []
  taken : ∀ x ∈ t.sends, ∃ n, x = .taken (n + 1)
  reading : ∃ n, t.reading = .got (n + 1)

structure LoopPass.Good (p : LoopPass) : Prop where
  stop : p.stop = false
  late : p.late = false
  turn : p.turn.Good

/-- Something of the data is taken, and the only report is that there is no more room. -/
theorem sendRaw_good {data : Bytes} (hdata : data ≠ []) {sends : List Sending} (hne : sends ≠ [])
    (htaken : ∀ x ∈ sends, ∃ n, x = .taken (n + 1)) :
    (sendRaw data sends).1 ≠ [] ∧
      ((sendRaw data sends).2 = none ∨ (sendRaw data sends).2 = retval .eAgain) := by
  have hret : ∀ data, (sendRaw data sends).2 = none ∨ (sendRaw data sends).2 = retval .eAgain := by
    clear hne hdata
    induction sends with
    | nil =>
      rintro (_ | ⟨b, bs⟩)
      · exact .inl rfl
      · exact .inr rfl
    | cons x sends ih =>
      obtain ⟨⟨n, rfl⟩, hrest⟩ := List.forall_mem_cons.mp htaken
      rintro (_ | ⟨b, bs⟩)
      · exact .inl rfl
      · rw [sendRaw, if_neg (Nat.succ_ne_zero n)]
        exact ih hrest _
  refine ⟨?_, hret data⟩
  obtain ⟨x, sends, rfl⟩ := List.exists_cons_of_ne_nil hne
  obtain ⟨b, bs, rfl⟩ := List.exists_cons_of_ne_nil hdata
  obtain ⟨⟨n, rfl⟩, -⟩ := List.forall_mem_cons.mp htaken
  rw [sendRaw, if_neg (Nat.succ_ne_zero n)]
  exact List.cons_ne_nil _ _

/-- A read inside a file of less than `2 ^ 32` bytes. -/
theorem File.read_good {f : File} {o size n : Nat} (h : f.Ready o) (ho : o < f.content.length)
    (hlen : f.content.length < 2 ^ 32) (hsize : 0 < size) (errno : Retno) :
    ∃ out f', f.read size o errno (.got (n + 1)) = (out, none, f') ∧ out ≠ [] := by
  have hseek : ∃ f', f.seek o errno = (none, f') ∧ f'.content = f.content ∧ f'.position = o := by
    rw [File.seek]
    split_ifs with hne
    · have hlseek : File.lseek 0 o = some o := by
        rw [File.lseek_zero, if_pos (by omega)]
      have hnot : ¬ File.Refused o := by
        rw [File.Refused, Nat.mod_eq_of_lt (by omega)]
        omega
      rw [File.seekFrom, hlseek]
      simp only [if_neg hnot]
      exact ⟨_, rfl, rfl, rfl⟩
    · exact ⟨_, rfl, rfl, h (not_not.mp hne).symm⟩
  obtain ⟨f', hrun, hcontent, hpos⟩ := hseek
  rw [File.read, hrun]
  refine ⟨_, _, rfl, ?_⟩
  rw [hcontent, hpos]
  have hdrop : f.content.drop o ≠ [] := by simpa using ho
  simp [hdrop, hsize.ne']

namespace FileResponse

variable {resp resp' : FileResponse} {stream wire out fbuf held : Bytes} {s : FileRange} {ret : Retval}
  {t : Turn}

/-- The answers of a call behind which the loop goes on, with some progress. -/
def Progress (ret : Retval) (status status' : Nat) (out : Bytes) : Prop :=
  (ret = retval .eAgain ∨ ret = retval .tContinue) ∧ status ≤ status' ∧ (out = [] → status < status')

theorem sendStream_good (ht : t.Good) (hrun : resp.sendStream t = (ret, resp', out))
    (hle : resp.iStreamSended ≤ resp.sStream.length) :
    ret = none ∨ ret = retval .eAgain ∧ out ≠ [] := by
  rw [sendStream] at hrun
  split_ifs at hrun with hall
  · exact .inl (Prod.mk.inj hrun).1.symm
  have hdata : resp.sStream.drop resp.iStreamSended ≠ [] := by
    rw [ne_eq, List.drop_eq_nil_iff]
    omega
  obtain ⟨hout, hret⟩ := sendRaw_good hdata ht.sends_ne_nil ht.taken
  simp only [ht.wait] at hrun
  split_ifs at hrun with hstop hend
  · exact absurd hstop.2 hout
  · exact .inl (Prod.mk.inj hrun).1.symm
  · obtain ⟨rfl, hrest⟩ := Prod.mk.inj hrun
    obtain ⟨-, rfl⟩ := Prod.mk.inj hrest
    exact .inr ⟨rfl, hout⟩

theorem sendBuffer_good (ht : t.Good) (hfbuf : fbuf ≠ []) (hstatus : resp.iFileStatus = 2)
    (hrun : resp.sendBuffer fbuf t = some (ret, resp', out)) : Progress ret 2 resp'.iFileStatus out := by
  obtain ⟨hout, hret⟩ := sendRaw_good hfbuf ht.sends_ne_nil ht.taken
  have haccount : ∀ n k, (resp.account n k).iFileStatus = 2 := by
    intro n k
    rw [account]
    split_ifs
    · exact hstatus
    · exact hstatus
  rw [sendBuffer] at hrun
  simp only at hrun
  split at hrun
  · cases hrun
  · obtain ⟨rfl, hrest⟩ := Prod.mk.inj (Option.some.inj hrun)
    obtain ⟨rfl, rfl⟩ := Prod.mk.inj hrest
    refine ⟨?_, ?_, fun hnil => absurd hnil hout⟩
    · rcases hret with hret | hret <;> simp [hret]
    · show 2 ≤ if _ then _ else 3
      split_ifs
      · rw [haccount]
      · decide

theorem sendFile_good (ht : t.Good) (hsmall : s.content.length < 2 ^ 32)
    (hstatus : resp.iFileStatus = 2) (h : FilePhase s resp wire held) (hheld : Held resp held)
    (hrun : resp.sendFile s t = some (ret, resp', out)) : Progress ret 2 resp'.iFileStatus out := by
  obtain ⟨hbuffer, hlen⟩ := hheld
  rw [sendFile] at hrun
  split at hrun
  · obtain ⟨rfl, hrest⟩ := Prod.mk.inj (Option.some.inj hrun)
    obtain ⟨rfl, rfl⟩ := Prod.mk.inj hrest
    exact ⟨.inr rfl, (by decide : 2 ≤ 3), fun _ => (by decide : 2 < 3)⟩
  simp only [ht.wait] at hrun
  by_cases hempty : resp.iBufferLen = 0
  · -- the file is read, and there is more of it
    obtain ⟨fs, hfs, hcontent, hready⟩ := h.file
    have hlt := h.sended_lt
    have hinside := s.inside
    have hsub : sizeSub resp.iFileSendLength resp.iFileSended = s.length - resp.iFileSended := by
      rw [h.sendLength, sizeSub_of_le hlt.le]
    have hoffset : resp.iFileOffset < fs.content.length := by
      rw [h.offset_eq, hcontent, ← hlen, hempty]
      omega
    have hsize : 0 < min httpdBuffer (s.length - resp.iFileSended) := by
      rw [httpdBuffer]
      omega
    obtain ⟨n, hn⟩ := ht.reading
    obtain ⟨fbuf, fs', hread, hne⟩ :=
      File.read_good (n := n) hready hoffset (hcontent ▸ hsmall) hsize t.errno
    rw [← hn] at hread
    simp only [hempty, if_true, hfs, hsub, hread, hne, if_false, ht.hook] at hrun
    refine sendBuffer_good ht hne ?_ hrun
    exact hstatus
  · rw [if_neg hempty] at hrun
    obtain ⟨fbuf, hread, hrest⟩ := Option.bind_eq_some_iff.mp hrun
    have hroom : 0 + resp.iBufferLen ≤ resp.buffer.length := by
      have := h.room
      have := h.fits
      omega
    rw [read_of_le hroom, List.drop_zero, ← hbuffer] at hread
    obtain rfl := Option.some.inj hread
    refine sendBuffer_good ht ?_ hstatus hrest
    rintro rfl
    exact hempty hlen

/-- A call on a good turn ends the response, or it gets on with it. -/
theorem Kept.good (h : Kept s resp wire) (ht : t.Good) (hsmall : s.content.length < 2 ^ 32)
    (hrun : resp.sendLocalFile s t = some (ret, resp', out)) :
    ret = none ∨ Progress ret (max resp.iFileStatus 1) (max resp'.iFileStatus 1) out := by
  rw [sendLocalFile, if_neg (by simp [ht.stop])] at hrun
  cases h with
  | unsent hunsent hwire =>
    simp only [hunsent.status, sendLocalFileReady, ht.ready] at hrun
    set begun : FileResponse := { resp with
      iFileStatus := 0
      originFs := some (.opened s.content)
      iBufferLen := 0
      iFileSendLength := s.length
      iFileOffset := s.start
      iFileSended := 0
      sStream := s.header
      iStreamSended := 0
      iSendedSize := 0 } with hbegun
    rcases hcall : begun.sendStream t with ⟨ret₁, resp₁, out₁⟩
    have hanswer := sendStream_good ht hcall (Nat.zero_le _)
    rw [hcall] at hrun
    rw [hunsent.status]
    rcases ret₁ with _ | r
    · obtain ⟨rfl, hrest⟩ := Prod.mk.inj (Option.some.inj hrun)
      obtain ⟨rfl, rfl⟩ := Prod.mk.inj hrest
      exact .inr ⟨.inr rfl, (by decide : max 0 1 ≤ max 2 1), fun _ => (by decide : max 0 1 < max 2 1)⟩
    · obtain ⟨rfl, hrest⟩ := Prod.mk.inj (Option.some.inj hrun)
      obtain ⟨rfl, rfl⟩ := Prod.mk.inj hrest
      obtain ⟨hagain, hout⟩ := hanswer.resolve_left (Option.some_ne_none r)
      exact .inr ⟨.inl hagain, (by decide : max 0 1 ≤ max 1 1), fun hnil => absurd hnil hout⟩
  | sending hne hinv hhead =>
    cases hinv with
    | header status phase =>
      rcases hcall : resp.sendStream t with ⟨ret₁, resp₁, out₁⟩
      have hanswer := sendStream_good ht hcall (phase.stream ▸ phase.streamSended_le)
      obtain ⟨ret₂, resp₂, out₂, hcall₂, -, hstatus, -⟩ := sendStream_header t phase
      obtain ⟨rfl, hrest₂⟩ := Prod.mk.inj (hcall.symm.trans hcall₂)
      obtain ⟨rfl, rfl⟩ := Prod.mk.inj hrest₂
      simp only [status, hcall] at hrun
      rw [status] at hstatus ⊢
      rcases ret₁ with _ | r
      · obtain ⟨rfl, hrest⟩ := Prod.mk.inj (Option.some.inj hrun)
        obtain ⟨rfl, rfl⟩ := Prod.mk.inj hrest
        exact .inr ⟨.inr rfl, (by decide : max 1 1 ≤ max 2 1), fun _ => (by decide : max 1 1 < max 2 1)⟩
      · obtain ⟨rfl, hrest⟩ := Prod.mk.inj (Option.some.inj hrun)
        obtain ⟨rfl, rfl⟩ := Prod.mk.inj hrest
        obtain ⟨hagain, hout⟩ := hanswer.resolve_left (Option.some_ne_none r)
        exact .inr ⟨.inl hagain, max_le_max_right 1 hstatus.ge, fun hnil => absurd hnil hout⟩
    | file held status phase buffer =>
      simp only [status] at hrun
      rw [status]
      obtain ⟨hagain, hle, hlt⟩ := sendFile_good ht hsmall status phase buffer hrun
      exact .inr ⟨hagain, by omega, fun hnil => by have := hlt hnil; omega⟩
    | done status phase => exact absurd status hne
  | sent status hwire =>
    simp only [status, ht.left] at hrun
    obtain ⟨rfl, -⟩ := Prod.mk.inj (Option.some.inj hrun)
    exact .inl rfl

theorem Kept.status_le (h : Kept s resp wire) : resp.iFileStatus ≤ 3 := by
  cases h with
  | unsent hunsent => rw [hunsent.status]; decide
  | sending hne hinv => cases hinv <;> omega
  | sent hstatus => exact hstatus.le

end FileResponse

namespace HttpdClient

open FileResponse

/-- What is left to do: bytes to be sent, and statuses to go through. -/
def leftFile (s : FileRange) (resp : FileResponse) (wire : Bytes) : Nat :=
  s.whole.length - wire.length + (3 - max resp.iFileStatus 1)

theorem filePass_good (s : FileRange) (hsmall : s.content.length < 2 ^ 32) (handle : Int)
    (resp : FileResponse) (wire : Bytes) (p : LoopPass) (h : Kept s resp wire) (hp : p.Good) :
    ∃ x out, filePass s handle resp p = some (x, out) ∧
      x.Holds (fun resp' wire' => Kept s resp' wire' ∧ leftFile s resp' wire' < leftFile s resp wire)
        (fun ret wire' => ret.1 = none ∧ wire' = s.whole) (wire ++ out) := by
  obtain ⟨ret, resp', out, hrun, hkept, hnone⟩ := h.step p.turn
  rw [filePass, sendPass, if_neg (by simp [hp.stop]), if_neg (by simp [hp.late])]
  simp only [hrun]
  rcases ret with _ | r
  · exact ⟨_, _, rfl, rfl, hnone rfl⟩
  obtain ⟨hagain, hle, hmore⟩ := (h.good hp.turn hsmall hrun).resolve_left (Option.some_ne_none r)
  have hgo : r.value = .eAgain ∨ r.value = .eTimeout ∨ r.value = .tContinue := by
    rcases hagain with hr | hr
    · exact .inl (congrArg Ret.value (Option.some.inj hr))
    · exact .inr (.inr (congrArg Ret.value (Option.some.inj hr)))
  simp only [hgo, decide_true, if_true]
  refine ⟨_, _, rfl, hkept, ?_⟩
  have hfront := hkept.isPrefix.length_le
  have hstatus := hkept.status_le
  rw [List.length_append] at hfront
  rw [leftFile, leftFile, List.length_append]
  by_cases hout : out = []
  · have := hmore hout
    omega
  · have := List.length_pos_of_ne_nil hout
    omega

theorem statusPass_good {stream : Bytes} (hlen : stream.length < 2 ^ 63) (handle : Int)
    (resp : FileResponse) (wire : Bytes) (p : LoopPass) (h : StreamSent stream resp wire) (hp : p.Good) :
    ∃ x out, statusPass handle resp p = some (x, out) ∧
      x.Holds (fun resp' wire' => StreamSent stream resp' wire' ∧
          stream.length - wire'.length < stream.length - wire.length)
        (fun ret wire' => ret.1 = none ∧ wire' = stream) (wire ++ out) := by
  obtain ⟨ret, resp', out, hrun, hsent, hall, -⟩ := sendStream_spec hlen h p.turn
  rw [statusPass, sendPass, if_neg (by simp [hp.stop]), if_neg (by simp [hp.late])]
  simp only [hrun]
  rcases ret with _ | r
  · refine ⟨_, _, rfl, rfl, ?_⟩
    rw [hsent.wire_eq, hall rfl, List.take_length]
  obtain ⟨hr, hout⟩ := (sendStream_good hp.turn hrun (h.stream_eq ▸ h.sended_le)).resolve_left
    (Option.some_ne_none r)
  have hgo : r.value = .eAgain := congrArg Ret.value (Option.some.inj hr)
  simp only [hgo, true_or, decide_true, if_true]
  refine ⟨_, _, rfl, hsent, ?_⟩
  have hfront := hsent.isPrefix.length_le
  have hpos := List.length_pos_of_ne_nil hout
  rw [List.length_append] at hfront ⊢
  omega

/-- On a connection that takes something at each pass the loop ends, after at most as many passes as
there are bytes and three more, and the whole response has been sent. The file is smaller than 4 GB: a
seek to the offset `2 ^ 32 - 1` is taken for a failure. -/
theorem sendResponse_ends (s : FileRange) (hsmall : s.content.length < 2 ^ 32) (handle : Int)
    (check : Retval) {stream : Bytes} (hstream : stream.length < 2 ^ 31) {resp : FileResponse}
    (h : Unsent resp) {passes : List LoopPass} (hgood : ∀ p ∈ passes, p.Good)
    (hlen : (wholeResponse s check stream).length + 2 < passes.length) :
    ∃ resp', sendResponse s handle check stream resp passes =
      some (.ended (check.bind fun r => if r.value = .ok then none else some r, resp'),
        wholeResponse s check stream) := by
  rcases check with _ | r
  · obtain ⟨ret, wire, hrun, hnone, hwire⟩ := drive_ends (leftFile s) (filePass_good s hsmall handle)
      (.unsent h rfl) hgood (by rw [leftFile, h.status]; exact hlen)
    rw [List.nil_append] at hwire
    refine ⟨ret.2, ?_⟩
    rw [sendResponse, hrun, hwire, ← Prod.eta ret, hnone]
    rfl
  · have hlong : stream.length < 2 ^ 63 := by omega
    obtain ⟨ret, wire, hrun, hnone, hwire⟩ := drive_ends
      (fun (_ : FileResponse) (wire : Bytes) => stream.length - wire.length)
      (statusPass_good hlong handle) (streamSent_withStream stream resp) hgood (by
        have : stream.length + 2 < passes.length := hlen
        simp only [List.length_nil]
        omega)
    rw [List.nil_append] at hwire
    refine ⟨ret.2, ?_⟩
    rw [sendResponse, hrun, hwire, ← Prod.eta ret, hnone]
    rfl

def exLoopPass : LoopPass :=
  { turn := { sends := [.taken 1] } }

theorem exLoopPass_good : exLoopPass.Good :=
  ⟨rfl, rfl, rfl, rfl, rfl, rfl, rfl, List.cons_ne_nil _ _,
    List.forall_mem_singleton.mpr ⟨0, rfl⟩, httpdBuffer - 1, rfl⟩

theorem exUnsent_unsent : Unsent exUnsent :=
  ⟨rfl, List.length_replicate⟩

theorem sendResponse_sends_abc :
    ∃ e wire, sendResponse exRange 7 none [] exUnsent [exLoopPass, { late := true }] = some (e, wire) ∧
      SentSoFar (wholeResponse exRange none []) e wire :=
  sendResponse_sends exRange 7 none (by decide) exUnsent_unsent _

theorem sendResponse_ends_abc :
    ∃ resp', sendResponse exRange 7 none [] exUnsent (List.replicate 8 exLoopPass) =
      some (.ended (none, resp'), CRLF ++ bytes "abc") :=
  sendResponse_ends exRange (by decide) 7 none (by decide) exUnsent_unsent
    (fun _ hp => List.eq_of_mem_replicate hp ▸ exLoopPass_good) (by decide)

end HttpdClient

end Dframework
