import Mathlib
import Dframework.Httpd.SendResponse

/-!
# The senders of the poll mode

`sendPackets` of a sender looks at each client of its poll set again and again. A client stays for the
answer `DFW_E_AGAIN`, and it is taken out for any other one. `HttpdSendLocalFile` takes
`DFW_T_CONTINUE` for such an answer, which `sendLocalFile` gives when the header has been sent and
there is more to come: no byte of a file is ever sent in the poll mode.

Results:
1. `streamLooks_sends`: a client of the stream sender completes exactly when all of its stream has been
   sent.
2. `localFileLooks_header`: a client of the file sender never completes, and of its response the header
   is sent at most.
-/

namespace Dframework

open CLib Driven FileResponse

/-- What a look at a client meets: `pollErr` and `pollOut` are what the poll reports. -/
structure SenderLook where
  pollErr : Bool := false
  pollOut : Bool := true
  turn : Turn := {}

/-- How a client leaves the poll set of a sender. -/
inductive Leave where
  | failed
  | complete
  deriving DecidableEq

/-- A look of a sender whose `call` goes on with the response. -/
def senderLook (call : FileResponse → Turn → Option (Retval × FileResponse × Bytes))
    (resp : FileResponse) (l : SenderLook) :
    Option (Step FileResponse (Leave × FileResponse) × Bytes) :=
  if l.pollErr then some (.done (.failed, resp), [])
  else if !l.pollOut then some (.next resp, [])
  else
    match call resp l.turn with
    | none => none
    | some (none, resp, out) => some (.done (.complete, resp), out)
    | some (some r, resp, out) =>
      if r.value = .eAgain then some (.next resp, out) else some (.done (.failed, resp), out)

namespace HttpdSendStream

/-- A look of `HttpdSendStream::sendPackets`. `sendStream` completes when it answers `NULL`. -/
def look : FileResponse → SenderLook → Option (Step FileResponse (Leave × FileResponse) × Bytes) :=
  senderLook fun resp t => some (resp.sendStream t)

end HttpdSendStream

namespace HttpdSendLocalFile

def look (s : FileRange) :
    FileResponse → SenderLook → Option (Step FileResponse (Leave × FileResponse) × Bytes) :=
  senderLook fun resp t => resp.sendLocalFile s t

end HttpdSendLocalFile

/-- A look keeps what a call keeps. -/
theorem senderLook_keeps {call : FileResponse → Turn → Option (Retval × FileResponse × Bytes)}
    {I : FileResponse → Bytes → Prop} {Q : Leave × FileResponse → Bytes → Prop}
    (hfail : ∀ {resp wire}, I resp wire → Q (.failed, resp) wire)
    (hcall : ∀ {resp wire} (t : Turn), I resp wire → ∃ ret resp' out,
      call resp t = some (ret, resp', out) ∧ (ret = none → Q (.complete, resp') (wire ++ out)) ∧
        ∀ r, ret = some r → (r.value = .eAgain → I resp' (wire ++ out)) ∧
          (r.value ≠ .eAgain → Q (.failed, resp') (wire ++ out)))
    (resp : FileResponse) (wire : Bytes) (l : SenderLook) (h : I resp wire) :
    ∃ x out, senderLook call resp l = some (x, out) ∧ x.Holds I Q (wire ++ out) := by
  rw [senderLook]
  split_ifs with herr hout
  · exact ⟨_, _, rfl, (List.append_nil wire).symm ▸ hfail h⟩
  · exact ⟨_, _, rfl, (List.append_nil wire).symm ▸ h⟩
  obtain ⟨ret, resp', out, hrun, hnone, hsome⟩ := hcall l.turn h
  rw [hrun]
  rcases ret with _ | r
  · exact ⟨_, _, rfl, hnone rfl⟩
  · obtain ⟨hagain, hother⟩ := hsome r rfl
    simp only
    split_ifs with hvalue
    · exact ⟨_, _, rfl, hagain hvalue⟩
    · exact ⟨_, _, rfl, hother hvalue⟩

/-! ## The stream sender -/

theorem sendStream_some {resp resp' : FileResponse} {t : Turn} {r : Ret} {out : Bytes}
    (h : resp.sendStream t = (some r, resp', out)) : resp'.sStream.length ≠ resp'.iStreamSended := by
  rw [sendStream] at h
  split_ifs at h with hall
  · cases h
  split at h
  · obtain ⟨-, hrest⟩ := Prod.mk.inj h
    obtain ⟨rfl, -⟩ := Prod.mk.inj hrest
    exact hall
  · simp only at h
    split_ifs at h with hstop hend
    · obtain ⟨-, hrest⟩ := Prod.mk.inj h
      obtain ⟨rfl, -⟩ := Prod.mk.inj hrest
      exact hall
    · cases h
    · obtain ⟨-, hrest⟩ := Prod.mk.inj h
      obtain ⟨rfl, -⟩ := Prod.mk.inj hrest
      exact hend

namespace HttpdSendStream

def Sending (stream : Bytes) (resp : FileResponse) (wire : Bytes) : Prop :=
  StreamSent stream resp wire ∧ resp.iStreamSended ≠ stream.length

def Left (stream : Bytes) (x : Leave × FileResponse) (wire : Bytes) : Prop :=
  wire <+: stream ∧ (x.1 = .complete ↔ wire = stream)

theorem Sending.wire_ne {stream wire : Bytes} {resp : FileResponse} (h : Sending stream resp wire) :
    wire ≠ stream := by
  intro heq
  have hlen := congrArg List.length (heq.symm.trans h.1.wire_eq)
  rw [List.length_take] at hlen
  have hle := h.1.sended_le
  have hne := h.2
  omega

theorem look_keeps {stream : Bytes} (hlen : stream.length < 2 ^ 63) (resp : FileResponse)
    (wire : Bytes) (l : SenderLook) (h : Sending stream resp wire) :
    ∃ x out, look resp l = some (x, out) ∧ x.Holds (Sending stream) (Left stream) (wire ++ out) := by
  have hfail : ∀ {resp wire}, Sending stream resp wire → Left stream (.failed, resp) wire :=
    fun h => ⟨h.1.isPrefix, iff_of_false (fun hcomplete => by cases hcomplete) h.wire_ne⟩
  refine senderLook_keeps hfail (fun {resp wire} t h => ?_) resp wire l h
  obtain ⟨ret, resp', out, hrun, hsent, hall, -⟩ := sendStream_spec hlen h.1 t
  refine ⟨ret, resp', out, by rw [hrun], fun hnone => ?_, fun r hr => ?_⟩
  · have hwire : wire ++ out = stream := by rw [hsent.wire_eq, hall hnone, List.take_length]
    exact ⟨hsent.isPrefix, iff_of_true rfl hwire⟩
  · subst hr
    have hmore := sendStream_some hrun
    have hsending : Sending stream resp' (wire ++ out) :=
      ⟨hsent, fun heq => hmore ((congrArg _ hsent.stream_eq).trans heq.symm)⟩
    exact ⟨fun _ => hsending, fun _ => hfail hsending⟩

/-- In every run of looks at a client with a stream, what has been sent is the front of the stream. The
client completes exactly when all of it has been sent, and a client that stays has more to send. -/
theorem streamLooks_sends {stream : Bytes} (hne : stream ≠ []) (hlen : stream.length < 2 ^ 31)
    (resp : FileResponse) (looks : List SenderLook) :
    ∃ e wire, drive look (HttpdClient.withStream stream resp) looks = some (e, wire) ∧
      wire <+: stream ∧ ((∃ resp', e = .ended (.complete, resp')) ↔ wire = stream) := by
  have hlong : stream.length < 2 ^ 63 := by omega
  have hstart : Sending stream (HttpdClient.withStream stream resp) [] :=
    ⟨streamSent_withStream stream resp, (List.length_pos_of_ne_nil hne).ne⟩
  obtain ⟨e, wire, hrun, he⟩ := drive_invariant (look_keeps hlong) hstart looks
  refine ⟨e, wire, hrun, ?_⟩
  cases e with
  | waiting resp' =>
    have hsending : Sending stream resp' wire := he
    refine ⟨hsending.1.isPrefix, iff_of_false ?_ hsending.wire_ne⟩
    rintro ⟨resp'', hend⟩
    cases hend
  | ended x =>
    obtain ⟨leave, resp'⟩ := x
    have hleft : Left stream (leave, resp') wire := he
    refine ⟨hleft.1, Iff.trans ?_ hleft.2⟩
    constructor
    · rintro ⟨resp'', hend⟩
      cases hend
      rfl
    · intro hcomplete
      obtain rfl : leave = .complete := hcomplete
      exact ⟨resp', rfl⟩

/-- A stream of two bytes, of which one is taken at each look. -/
theorem streamLooks_sends_crlf :
    ∃ e wire, drive look (HttpdClient.withStream CRLF exUnsent)
        [{ turn := { sends := [.taken 1] } }, { pollOut := false },
          { turn := { sends := [.taken 1] } }] = some (e, wire) ∧
      wire <+: CRLF ∧ ((∃ resp', e = .ended (.complete, resp')) ↔ wire = CRLF) :=
  streamLooks_sends (by decide) (by decide) exUnsent _

end HttpdSendStream

/-! ## The file sender -/

namespace HttpdSendLocalFile

/-- The response has not been begun, or its header is on its way. -/
inductive OnHeader (s : FileRange) (resp : FileResponse) (wire : Bytes) : Prop
  | unsent (h : Unsent resp) (hwire : wire = [])
  | header (status : resp.iFileStatus = 1) (phase : HeaderPhase s resp wire)

/-- The client has left without an answer, with a part of its header at most. -/
def Dropped (s : FileRange) (x : Leave × FileResponse) (wire : Bytes) : Prop :=
  x.1 = .failed ∧ wire <+: s.header

variable {s : FileRange} {resp : FileResponse} {wire : Bytes}

theorem isPrefix_of_headerPhase (h : HeaderPhase s resp wire) : wire <+: s.header := by
  rw [h.wire_eq]
  exact List.take_prefix _ _

theorem OnHeader.isPrefix (h : OnHeader s resp wire) : wire <+: s.header := by
  cases h with
  | unsent _ hwire => exact hwire ▸ List.nil_prefix
  | header _ phase => exact isPrefix_of_headerPhase phase

/-- The first call that gets as far as the header goes on with it, or it has sent it. -/
theorem ready_header (t : Turn) (h : Unsent resp) :
    ∃ ret resp' out, resp.sendLocalFileReady s t = (ret, resp', out) ∧ out <+: s.header ∧
      ((∃ r, ret = some r) → OnHeader s resp' out) := by
  rw [sendLocalFileReady]
  rcases t.ready with _ | r
  swap
  · exact ⟨_, _, _, rfl, List.nil_prefix, fun _ => .unsent h rfl⟩
  set begun : FileResponse := { resp with
    originFs := some (.opened s.content)
    iBufferLen := 0
    iFileSendLength := s.length
    iFileOffset := s.start
    iFileSended := 0
    sStream := s.header
    iStreamSended := 0
    iSendedSize := 0 } with hbegun
  have hphase : HeaderPhase s begun [] :=
    ⟨⟨rfl, h.room, _, rfl, rfl, File.opened_ready _ _⟩, rfl, Nat.zero_le _, List.take_zero.symm,
      rfl, rfl, rfl⟩
  obtain ⟨ret, resp', out, hrun, hheader, -, -⟩ := sendStream_header t hphase
  have hfront : out <+: s.header := isPrefix_of_headerPhase hheader
  simp only [hrun]
  rcases ret with _ | r
  · refine ⟨_, _, _, rfl, hfront, ?_⟩
    rintro ⟨r, hr⟩
    cases hr
  · refine ⟨_, _, _, rfl, hfront, fun _ => .header rfl ?_⟩
    exact ⟨⟨hheader.sendLength, hheader.room, hheader.file⟩, hheader.stream,
      hheader.streamSended_le, hheader.wire_eq, hheader.sended, hheader.bufferLen, hheader.offset⟩

/-- A call that is answered with `NULL` is never made, and the one behind which the file would come is
answered with `DFW_T_CONTINUE`. -/
theorem sendLocalFile_header (t : Turn) (h : OnHeader s resp wire) :
    ∃ ret resp' out, resp.sendLocalFile s t = some (ret, resp', out) ∧ wire ++ out <+: s.header ∧
      ∃ r, ret = some r ∧ (r.value = .eAgain → OnHeader s resp' (wire ++ out)) := by
  rw [sendLocalFile]
  split
  · refine ⟨_, _, _, rfl, ?_, _, rfl, fun hagain => by cases hagain⟩
    rw [List.append_nil]
    exact h.isPrefix
  cases h with
  | unsent hunsent hwire =>
    subst hwire
    simp only [hunsent.status]
    obtain ⟨ret, resp', out, hrun, hfront, hheader⟩ := ready_header (s := s) t hunsent
    rw [hrun]
    rcases ret with _ | r
    · exact ⟨_, _, _, rfl, hfront, _, rfl, fun hagain => by cases hagain⟩
    · exact ⟨_, _, _, rfl, hfront, r, rfl, fun _ => hheader ⟨r, rfl⟩⟩
  | header status phase =>
    obtain ⟨ret, resp', out, hrun, hheader, hstatus, -⟩ := sendStream_header t phase
    have hfront := isPrefix_of_headerPhase hheader
    simp only [status, hrun]
    rcases ret with _ | r
    · exact ⟨_, _, _, rfl, hfront, _, rfl, fun hagain => by cases hagain⟩
    · exact ⟨_, _, _, rfl, hfront, r, rfl, fun _ => .header (hstatus.trans status) hheader⟩

theorem look_keeps (s : FileRange) (resp : FileResponse) (wire : Bytes) (l : SenderLook)
    (h : OnHeader s resp wire) :
    ∃ x out, look s resp l = some (x, out) ∧ x.Holds (OnHeader s) (Dropped s) (wire ++ out) := by
  refine senderLook_keeps (fun h => ⟨rfl, h.isPrefix⟩) (fun {resp wire} t h => ?_) resp wire l h
  obtain ⟨ret, resp', out, hrun, hfront, r, rfl, hagain⟩ := sendLocalFile_header t h
  refine ⟨_, resp', out, hrun, fun hnone => absurd hnone (Option.some_ne_none r), ?_⟩
  rintro r' ⟨rfl⟩
  exact ⟨hagain, fun _ => ⟨rfl, hfront⟩⟩

/-- In every run of looks at a client with a file, what has been sent is a part of the header, and the
client never completes: it stays, or it is taken out as failed. -/
theorem localFileLooks_header (s : FileRange) {resp : FileResponse} (h : Unsent resp)
    (looks : List SenderLook) :
    ∃ e wire, drive (look s) resp looks = some (e, wire) ∧ wire <+: s.header ∧
      ∀ resp', e ≠ .ended (.complete, resp') := by
  obtain ⟨e, wire, hrun, he⟩ := drive_invariant (look_keeps s) (.unsent h rfl) looks
  refine ⟨e, wire, hrun, ?_⟩
  cases e with
  | waiting resp' => exact ⟨OnHeader.isPrefix he, fun resp'' hend => by cases hend⟩
  | ended x =>
    obtain ⟨hfailed, hfront⟩ : Dropped s x wire := he
    refine ⟨hfront, fun resp'' hend => ?_⟩
    cases hend
    cases hfailed

/-- A file of three bytes on a connection that takes all it is offered. -/
theorem localFileLooks_header_abc :
    ∃ e wire, drive (look exRange) exUnsent
        [{ turn := { sends := [.taken 2] } }, { turn := { sends := [.taken 3] } }] = some (e, wire) ∧
      wire <+: CRLF ∧ ∀ resp', e ≠ .ended (.complete, resp') :=
  localFileLooks_header exRange HttpdClient.exUnsent_unsent _

end HttpdSendLocalFile

end Dframework
