import Mathlib
import Dframework.Io.File
import Dframework.Library.Cells
import Dframework.Net.Sending

/-!
# Sending a file

`HttpdClient::sendLocalFile` is called again and again until it answers `NULL`. In between,
all it knows is in the response: how much of the header has been sent, the three counters of
the file, and the bytes that have been read and not sent yet.

A call is given what it meets (`Turn`): how far the kernel goes along with it, and what the
parts of the server that are not modelled here answer.

Results:
1. `sendLocalFile_step`: a call keeps the counters, the buffer and what has been sent in step.
2. `sendLocalFile_sends`: so does a run of calls, and every call stays inside the buffer.
-/

namespace Dframework

open CLib Cells Relation

/-- `DFW_HTTPD_BUFFER` and `MAX_BUFFER`. -/
def httpdBuffer : Nat := 102400

/-- The file of a request, the header made for it and the range it asks for, which
`sendLocalFile_ready` has accepted. `head` says that the method is `HEAD`. The header is a
`String`, and the size of the file is an `off_t`. -/
structure FileRange where
  content : Bytes
  header : Bytes
  start : Nat
  length : Nat
  head : Bool
  header_lt : header.length < 2 ^ 31
  length_pos : 0 < length
  inside : start + length ≤ content.length
  size_lt : content.length < 2 ^ 63
  deriving Repr

/-- The fields of `HttpResponse` for `HttpdSendLocalFile` and `HttpdSendStream`. -/
structure FileResponse where
  iFileStatus : Nat
  sStream : Bytes
  iStreamSended : Nat
  iSendedSize : Nat
  buffer : Bytes
  iBufferLen : Nat
  iFileSendLength : Nat
  iFileOffset : Nat
  iFileSended : Nat
  originFs : Option File
  deriving DecidableEq, Repr

/-- What a call meets: `stop` is `m_bStop`, `ready` what comes in the way of the response
before its header is made, `wait` what `wait_send` answers, `hook` what the host or a module
has against the bytes that have been read, and `left` what `getSendBufferLeftSize` answers. -/
structure Turn where
  stop : Bool := false
  ready : Retval := none
  wait : Retval := none
  sends : List Sending := []
  errno : Retno := .error
  reading : Reading := .got httpdBuffer
  hook : Retval := none
  left : Retval × Nat := (none, 0)

namespace FileResponse

/-- `HttpdClient::sendStream`: what it answers, and what it hands over. -/
def sendStream (resp : FileResponse) (t : Turn) : Retval × FileResponse × Bytes :=
  if resp.sStream.length = resp.iStreamSended then (none, resp, [])
  else
    match t.wait with
    | some r => (some r, resp, [])
    | none =>
      let (out, ret) := sendRaw (resp.sStream.drop resp.iStreamSended) t.sends
      if ret ≠ none ∧ out = [] then (ret, resp, [])
      else
        let resp := { resp with
          iSendedSize := sizeAdd resp.iSendedSize out.length
          iStreamSended := sizeAdd resp.iStreamSended out.length }
        if resp.sStream.length = resp.iStreamSended then (none, resp, out)
        else (retval .eAgain, resp, out)

/-- `HttpdClient::sendLocalFile_ready`, from where the range is known. -/
def sendLocalFileReady (s : FileRange) (resp : FileResponse) (t : Turn) :
    Retval × FileResponse × Bytes :=
  match t.ready with
  | some r => (some r, resp, [])
  | none =>
    let resp := { resp with
      originFs := some (.opened s.content)
      iBufferLen := 0
      iFileSendLength := s.length
      iFileOffset := s.start
      iFileSended := 0
      sStream := s.header
      iStreamSended := 0
      iSendedSize := 0 }
    match resp.sendStream t with
    | (some r, resp, out) => (some r, { resp with iFileStatus := 1 }, out)
    | (none, resp, out) => (none, { resp with iFileStatus := 2 }, out)

/-- The counters behind a `send` of `size` bytes, of which `osize` have been taken. -/
def account (resp : FileResponse) (size osize : Nat) : FileResponse :=
  if 0 < osize then { resp with
    iSendedSize := sizeAdd resp.iSendedSize osize
    iFileSended := sizeAdd resp.iFileSended osize
    iBufferLen := size - osize }
  else { resp with iBufferLen := size }

/-- The buffer with what is left of `fbuf`. -/
def keep (resp : FileResponse) (rest : Bytes) : Option Bytes :=
  if 0 < resp.iBufferLen then write resp.buffer 0 rest else some resp.buffer

/-- The end of status 2: `fbuf` is sent, and what is left of it goes to the buffer. -/
def sendBuffer (resp : FileResponse) (fbuf : Bytes) (t : Turn) :
    Option (Retval × FileResponse × Bytes) :=
  let (out, ret) := sendRaw fbuf t.sends
  let resp := resp.account fbuf.length out.length
  match resp.keep (fbuf.drop out.length) with
  | none => none
  | some buffer =>
    let iFileStatus := if resp.iFileSended < resp.iFileSendLength then resp.iFileStatus else 3
    some (if ret = none then retval .tContinue else ret, { resp with buffer, iFileStatus }, out)

/-- Status 2 of `HttpdClient::sendLocalFile`. -/
def sendFile (s : FileRange) (resp : FileResponse) (t : Turn) :
    Option (Retval × FileResponse × Bytes) :=
  if s.head then some (retval .tContinue, { resp with iFileStatus := 3 }, [])
  else
    match t.wait with
    | some r => some (some r, resp, [])
    | none =>
      if resp.iBufferLen = 0 then
        let thizLength := sizeSub resp.iFileSendLength resp.iFileSended
        match resp.originFs with
        | none => some (retval .error, resp, [])
        | some fs =>
          match fs.read (min httpdBuffer thizLength) resp.iFileOffset t.errno t.reading with
          | (_, some r, fs) => some (some r, { resp with originFs := some fs }, [])
          | (fbuf, none, fs) =>
            let resp := { resp with originFs := some fs }
            if fbuf = [] then some (retval .error, resp, [])
            else
              let resp := { resp with
                iBufferLen := fbuf.length
                iFileOffset := sizeAdd resp.iFileOffset fbuf.length }
              match t.hook with
              | some r => do
                let buffer ← write resp.buffer 0 fbuf
                some (some r, { resp with buffer }, [])
              | none => resp.sendBuffer fbuf t
      else do
        let fbuf ← read resp.buffer 0 resp.iBufferLen
        resp.sendBuffer fbuf t

/-- `HttpdClient::sendLocalFile`. Without a result, memory outside the buffer is touched. -/
def sendLocalFile (s : FileRange) (resp : FileResponse) (t : Turn) :
    Option (Retval × FileResponse × Bytes) :=
  if t.stop then some (retval .error, resp, [])
  else
    match resp.iFileStatus with
    | 0 =>
      match resp.sendLocalFileReady s t with
      | (some r, resp, out) => some (some r, resp, out)
      | (none, resp, out) => some (retval .tContinue, resp, out)
    | 1 =>
      match resp.sendStream t with
      | (some r, resp, out) => some (some r, resp, out)
      | (none, resp, out) => some (retval .tContinue, { resp with iFileStatus := 2 }, out)
    | 2 => resp.sendFile s t
    | 3 =>
      match t.left with
      | (some r, _) => some (some r, resp, [])
      | (none, leftsize) => some (if 0 < leftsize then retval .eAgain else none, resp, [])
    | _ => some (retval .error, resp, [])

end FileResponse

/-! ## What has been sent -/

/-- What has been handed to the socket is the header and then the front of the range, and the
counters say how far. -/
structure RangeSent (s : FileRange) (resp : FileResponse) (wire : Bytes) : Prop where
  wire_eq : wire = s.header.take resp.iStreamSended ++
    (s.content.drop s.start).take resp.iFileSended
  header_first : 0 < resp.iFileSended → resp.iStreamSended = s.header.length
  sended_le : resp.iFileSended ≤ s.length
  offset_eq : resp.iFileOffset = s.start + resp.iFileSended + resp.iBufferLen
  held : resp.buffer.take resp.iBufferLen =
    (s.content.drop (s.start + resp.iFileSended)).take resp.iBufferLen
  finished_iff : resp.iFileStatus = 3 ↔ resp.iFileSended = s.length

/-- One call, and what it adds to the bytes handed over. -/
def SendStep (s : FileRange) (a b : FileResponse × Bytes) : Prop :=
  ∃ t ret out, a.1.sendLocalFile s t = some (ret, b.1, out) ∧ b.2 = a.2 ++ out

/-- The response `se_checkLocalFile` leaves behind. -/
structure Unsent (resp : FileResponse) : Prop where
  status : resp.iFileStatus = 0
  room : resp.buffer.length = httpdBuffer

/-- The file is as it was opened, and ready for the next read. -/
structure FileOpen (s : FileRange) (resp : FileResponse) : Prop where
  sendLength : resp.iFileSendLength = s.length
  room : resp.buffer.length = httpdBuffer
  file : ∃ fs, resp.originFs = some fs ∧ fs.content = s.content ∧ fs.Ready resp.iFileOffset

structure HeaderPhase (s : FileRange) (resp : FileResponse) (wire : Bytes) : Prop
    extends FileOpen s resp where
  stream : resp.sStream = s.header
  streamSended_le : resp.iStreamSended ≤ s.header.length
  wire_eq : wire = s.header.take resp.iStreamSended
  sended : resp.iFileSended = 0
  bufferLen : resp.iBufferLen = 0
  offset : resp.iFileOffset = s.start

/-- The file is on its way, and `held` has been read and not been sent. -/
structure FilePhase (s : FileRange) (resp : FileResponse) (wire held : Bytes) : Prop
    extends FileOpen s resp where
  header_sent : resp.iStreamSended = s.header.length
  wire_eq : wire = s.header ++ (s.content.drop s.start).take resp.iFileSended
  sended_lt : resp.iFileSended < s.length
  offset_eq : resp.iFileOffset = s.start + resp.iFileSended + held.length
  held_eq : held = (s.content.drop (s.start + resp.iFileSended)).take held.length
  held_le : resp.iFileSended + held.length ≤ s.length
  fits : held.length ≤ httpdBuffer

structure DonePhase (s : FileRange) (resp : FileResponse) (wire : Bytes) : Prop where
  header_sent : resp.iStreamSended = s.header.length
  wire_eq : wire = s.header ++ (s.content.drop s.start).take s.length
  sended : resp.iFileSended = s.length
  bufferLen : resp.iBufferLen = 0
  offset : resp.iFileOffset = s.start + s.length

/-- What the bytes in the buffer are. -/
def Held (resp : FileResponse) (held : Bytes) : Prop :=
  held = resp.buffer.take resp.iBufferLen ∧ resp.iBufferLen = held.length

/-- The phase is that of `m_iFileStatus`. -/
inductive SendInv (s : FileRange) (resp : FileResponse) (wire : Bytes) : Prop
  | header (status : resp.iFileStatus = 1) (phase : HeaderPhase s resp wire)
  | file (held : Bytes) (status : resp.iFileStatus = 2) (phase : FilePhase s resp wire held)
      (buffer : Held resp held)
  | done (status : resp.iFileStatus = 3) (phase : DonePhase s resp wire)

namespace FileResponse

variable {s : FileRange} {resp resp' : FileResponse} {wire out fbuf held : Bytes} {ret : Retval}

/-- The header goes on where it stopped. -/
theorem sendStream_header (t : Turn) (h : HeaderPhase s resp wire) :
    ∃ ret resp' out, resp.sendStream t = (ret, resp', out) ∧ HeaderPhase s resp' (wire ++ out) ∧
      resp'.iFileStatus = resp.iFileStatus ∧
      (ret = none → resp'.iStreamSended = s.header.length) := by
  have hle := h.streamSended_le
  have hlt := s.header_lt
  have hsame : HeaderPhase s resp (wire ++ []) := (List.append_nil wire).symm ▸ h
  rw [sendStream]
  split
  next hall => exact ⟨_, _, _, rfl, hsame, rfl, fun _ => hall.symm.trans (congrArg _ h.stream)⟩
  next hmore =>
    rcases t.wait with _ | r
    swap
    · exact ⟨_, _, _, rfl, hsame, rfl, by simp⟩
    obtain ⟨out, ret, hraw⟩ : ∃ out ret,
        sendRaw (resp.sStream.drop resp.iStreamSended) t.sends = (out, ret) := ⟨_, _, rfl⟩
    have hfront : out <+: s.header.drop resp.iStreamSended := by
      have := sendRaw_prefix (resp.sStream.drop resp.iStreamSended) t.sends
      rwa [hraw, h.stream] at this
    have hlen : resp.iStreamSended + out.length ≤ s.header.length := by
      have := hfront.length_le
      rw [List.length_drop] at this
      omega
    have hadd : sizeAdd resp.iStreamSended out.length = resp.iStreamSended + out.length :=
      sizeAdd_of_lt (by omega)
    simp only [hraw, hadd]
    have hphase : HeaderPhase s { resp with
        iSendedSize := sizeAdd resp.iSendedSize out.length
        iStreamSended := resp.iStreamSended + out.length } (wire ++ out) := by
      refine ⟨⟨h.sendLength, h.room, h.file⟩, h.stream, hlen, ?_, h.sended, h.bufferLen, h.offset⟩
      rw [h.wire_eq, List.take_add, ← List.prefix_iff_eq_take.mp hfront]
    split
    next hstop => exact ⟨_, _, _, rfl, hsame, rfl, fun hnone => absurd hnone hstop.1⟩
    next =>
      split
      next hend => exact ⟨_, _, _, rfl, hphase, rfl, fun _ => hend.symm.trans (congrArg _ h.stream)⟩
      next => exact ⟨_, _, _, rfl, hphase, rfl, by simp⟩

/-- The header has been sent, and the file comes next. -/
theorem filePhase_of_header (h : HeaderPhase s resp wire)
    (hsent : resp.iStreamSended = s.header.length) : FilePhase s resp wire [] := by
  have hwire := h.wire_eq
  refine ⟨h.toFileOpen, hsent, ?_, ?_, ?_, rfl, ?_, Nat.zero_le _⟩
  · rw [hwire, hsent, List.take_length, h.sended, List.take_zero, List.append_nil]
  · rw [h.sended]
    exact s.length_pos
  · rw [h.offset, h.sended]
    rfl
  · rw [h.sended]
    exact Nat.zero_le _

theorem sendInv_of_header (h : HeaderPhase s resp wire)
    (hsent : resp.iStreamSended = s.header.length) : SendInv s { resp with iFileStatus := 2 } wire := by
  have hfile := filePhase_of_header h hsent
  refine .file [] rfl ⟨⟨hfile.sendLength, hfile.room, hfile.file⟩, hfile.header_sent, hfile.wire_eq,
    hfile.sended_lt, hfile.offset_eq, rfl, hfile.held_le, hfile.fits⟩ ⟨?_, h.bufferLen⟩
  show [] = resp.buffer.take resp.iBufferLen
  rw [h.bufferLen, List.take_zero]

/-- Both cases of `s_osize > 0` count what has been sent and what is left. -/
theorem account_eq (resp : FileResponse) {size osize : Nat} (hle : osize ≤ size)
    (hlt : resp.iFileSended + osize < 2 ^ 64) :
    ∃ n, resp.account size osize = { resp with
      iSendedSize := n
      iFileSended := resp.iFileSended + osize
      iBufferLen := size - osize } := by
  rw [account]
  split
  next => exact ⟨_, by rw [sizeAdd_of_lt hlt]⟩
  next hnone =>
    obtain rfl : osize = 0 := Nat.eq_zero_of_not_pos hnone
    exact ⟨resp.iSendedSize, rfl⟩

/-- What has been read is sent, and what the kernel did not take stays in the buffer. -/
theorem sendBuffer_sends (t : Turn) (hstatus : resp.iFileStatus = 2)
    (h : FilePhase s resp wire fbuf) :
    ∃ ret resp' out, resp.sendBuffer fbuf t = some (ret, resp', out) ∧
      SendInv s resp' (wire ++ out) := by
  have hsize := s.size_lt
  have hinside := s.inside
  have hle := h.held_le
  have hlt := h.sended_lt
  obtain ⟨out, ret, hraw⟩ : ∃ out ret, sendRaw fbuf t.sends = (out, ret) := ⟨_, _, rfl⟩
  obtain ⟨left, hfbuf⟩ : out <+: fbuf := by
    have := sendRaw_prefix fbuf t.sends
    rwa [hraw] at this
  have hlen : fbuf.length = out.length + left.length := by rw [← hfbuf, List.length_append]
  have hdrop : fbuf.drop out.length = left := by rw [← hfbuf, List.drop_left]
  obtain ⟨n, haccount⟩ := account_eq resp (show out.length ≤ fbuf.length by omega) (by omega)
  rw [show fbuf.length - out.length = left.length by omega] at haccount
  have hroom := h.room
  have hfits := h.fits
  obtain ⟨buffer, hbuffer, hbufferLen, htake⟩ : ∃ buffer, keep { resp with
      iSendedSize := n
      iFileSended := resp.iFileSended + out.length
      iBufferLen := left.length } left = some buffer ∧
        buffer.length = httpdBuffer ∧ buffer.take left.length = left := by
    rw [keep]
    split
    next =>
      obtain ⟨buffer, hwrite⟩ : ∃ buffer, write resp.buffer 0 left = some buffer :=
        ⟨_, write_of_le (show 0 + left.length ≤ resp.buffer.length by omega)⟩
      have htake := take_write hwrite
      rw [Nat.zero_add, List.take_zero, List.nil_append] at htake
      exact ⟨buffer, hwrite, (write_length hwrite).trans hroom, htake⟩
    next hnil =>
      obtain rfl : left = [] := List.length_eq_zero_iff.mp (Nat.eq_zero_of_not_pos hnil)
      exact ⟨resp.buffer, rfl, hroom, rfl⟩
  have hwire : wire ++ out = s.header ++
      (s.content.drop s.start).take (resp.iFileSended + out.length) := by
    have hout : out = (s.content.drop (s.start + resp.iFileSended)).take out.length := by
      have hfront : fbuf <+: s.content.drop (s.start + resp.iFileSended) := by
        rw [List.prefix_iff_eq_take]
        exact h.held_eq
      exact List.prefix_iff_eq_take.mp (.trans ⟨left, hfbuf⟩ hfront)
    rw [h.wire_eq, List.append_assoc, List.take_add, List.drop_drop, ← hout]
  have hheld : left = (s.content.drop (s.start + (resp.iFileSended + out.length))).take left.length := by
    conv_lhs => rw [← hdrop, h.held_eq, List.drop_take, List.drop_drop]
    rw [Nat.add_assoc, show fbuf.length - out.length = left.length by omega]
  rw [sendBuffer]
  simp only [hraw, haccount, hdrop, hbuffer]
  have hsend := h.sendLength
  refine ⟨_, _, _, rfl, ?_⟩
  split
  next hmore =>
    refine .file left hstatus ⟨⟨hsend, hbufferLen, h.file⟩, h.header_sent, hwire, hsend ▸ hmore, ?_,
      hheld, ?_, ?_⟩ ⟨htake.symm, rfl⟩
    · show resp.iFileOffset = s.start + (resp.iFileSended + out.length) + left.length
      rw [h.offset_eq]
      omega
    · show resp.iFileSended + out.length + left.length ≤ s.length
      omega
    · omega
  next hend =>
    have hall : resp.iFileSended + out.length = s.length := by
      have : ¬ resp.iFileSended + out.length < s.length := hsend ▸ hend
      omega
    refine .done rfl ⟨h.header_sent, hall ▸ hwire, hall, ?_, ?_⟩
    · show left.length = 0
      omega
    · show resp.iFileOffset = _
      rw [h.offset_eq]
      omega

/-- A step of status 2. -/
theorem sendFile_sends (t : Turn) (hhead : s.head = false) (hstatus : resp.iFileStatus = 2)
    (h : FilePhase s resp wire held) (hheld : Held resp held) :
    ∃ ret resp' out, resp.sendFile s t = some (ret, resp', out) ∧ SendInv s resp' (wire ++ out) := by
  have hsame : SendInv s resp (wire ++ []) :=
    (List.append_nil wire).symm ▸ .file held hstatus h hheld
  rw [sendFile, hhead]
  simp only [Bool.false_eq_true, if_false]
  rcases t.wait with _ | r
  swap
  · exact ⟨_, _, _, rfl, hsame⟩
  obtain ⟨hbuffer, hlen⟩ := hheld
  obtain ⟨fs, hfs, hcontent, hready⟩ := h.file
  have hinside := s.inside
  have hsize := s.size_lt
  have hfits := h.fits
  have hroom := h.room
  simp only
  split
  next hempty =>
    -- nothing is left over: the file is read
    obtain rfl : held = [] := List.length_eq_zero_iff.mp (hlen.symm.trans hempty)
    have hlt := h.sended_lt
    have hoffset : resp.iFileOffset = s.start + resp.iFileSended := h.offset_eq
    have hsub : sizeSub resp.iFileSendLength resp.iFileSended = s.length - resp.iFileSended := by
      rw [h.sendLength, sizeSub_of_le hlt.le]
    simp only [hfs, hsub]
    obtain ⟨fbuf, ret, fs', hread, hcontent', hfbuf, hsmall, -, hready', hfail⟩ :=
      File.read_ready hready (min httpdBuffer (s.length - resp.iFileSended)) t.errno t.reading
    have hempty' : resp.buffer.take resp.iBufferLen = [] := by rw [hempty, List.take_zero]
    have hlen' : fbuf.length ≤ httpdBuffer ∧ fbuf.length ≤ s.length - resp.iFileSended :=
      le_min_iff.mp hsmall
    rw [hoffset] at hfbuf hready'
    -- a read that fails, or gives nothing, leaves the response as it was
    have hagain : fbuf = [] → SendInv s { resp with originFs := some fs' } (wire ++ []) := by
      rintro rfl
      rw [List.append_nil]
      refine .file [] hstatus ⟨⟨h.sendLength, hroom, fs', rfl, hcontent'.trans hcontent, ?_⟩,
        h.header_sent, h.wire_eq, hlt, h.offset_eq, rfl, h.held_le, hfits⟩ ⟨hempty'.symm, hempty⟩
      exact hoffset.symm ▸ hready'
    rcases ret with _ | r
    swap
    · simp only [hread]
      exact ⟨_, _, _, rfl, hagain (hfail (Option.some_ne_none r))⟩
    simp only [hread]
    split
    next hnone => exact ⟨_, _, _, rfl, hagain hnone⟩
    next hsome =>
      have hadd : sizeAdd resp.iFileOffset fbuf.length = s.start + resp.iFileSended + fbuf.length := by
        rw [hoffset]
        exact sizeAdd_of_lt (by omega)
      rw [hadd]
      have hphase : FilePhase s { resp with
          originFs := some fs'
          iBufferLen := fbuf.length
          iFileOffset := s.start + resp.iFileSended + fbuf.length } wire fbuf :=
        ⟨⟨h.sendLength, hroom, fs', rfl, hcontent'.trans hcontent, hready'⟩, h.header_sent, h.wire_eq,
          hlt, rfl, hcontent ▸ hfbuf, by show resp.iFileSended + _ ≤ _; omega, hlen'.1⟩
      rcases t.hook with _ | r
      · exact sendBuffer_sends t hstatus hphase
      · obtain ⟨buffer, hwrite⟩ : ∃ buffer, write resp.buffer 0 fbuf = some buffer :=
          ⟨_, write_of_le (by omega)⟩
        have htake := take_write hwrite
        rw [Nat.zero_add, List.take_zero, List.nil_append] at htake
        simp only [hwrite, Option.bind_eq_bind, Option.bind_some]
        refine ⟨_, _, _, rfl, ?_⟩
        rw [List.append_nil]
        exact .file fbuf hstatus ⟨⟨h.sendLength, (write_length hwrite).trans hroom, hphase.file⟩,
          h.header_sent, h.wire_eq, hlt, rfl, hphase.held_eq, hphase.held_le, hlen'.1⟩ ⟨htake.symm, rfl⟩
  next hmore =>
    have hread : read resp.buffer 0 resp.iBufferLen = some held := by
      rw [read_of_le (by omega), List.drop_zero, ← hbuffer]
    simp only [hread, Option.bind_eq_bind, Option.bind_some]
    exact sendBuffer_sends t hstatus h

/-- The first call that gets as far as the header. -/
theorem ready_sends (t : Turn) (h : Unsent resp) :
    ∃ ret resp' out, resp.sendLocalFileReady s t = (ret, resp', out) ∧
      (ret ≠ none ∧ out = [] ∧ Unsent resp' ∨ SendInv s resp' out) := by
  rw [sendLocalFileReady]
  rcases t.ready with _ | r
  swap
  · exact ⟨_, _, _, rfl, .inl ⟨by simp, rfl, h⟩⟩
  set begun : FileResponse := { resp with
    originFs := some (.opened s.content)
    iBufferLen := 0
    iFileSendLength := s.length
    iFileOffset := s.start
    iFileSended := 0
    sStream := s.header
    iStreamSended := 0
    iSendedSize := 0 } with hbegun
  have hphase : HeaderPhase s begun [] :=
    ⟨⟨rfl, h.room, _, rfl, rfl, File.opened_ready _ _⟩, rfl, Nat.zero_le _, List.take_zero.symm,
      rfl, rfl, rfl⟩
  obtain ⟨ret, resp', out, hrun, hheader, -, hall⟩ := sendStream_header t hphase
  simp only [hrun]
  rcases ret with _ | r
  · exact ⟨_, _, _, rfl, .inr (sendInv_of_header hheader (hall rfl))⟩
  · refine ⟨_, _, _, rfl, .inr ?_⟩
    exact .header rfl ⟨⟨hheader.sendLength, hheader.room, hheader.file⟩, hheader.stream,
      hheader.streamSended_le, hheader.wire_eq, hheader.sended, hheader.bufferLen, hheader.offset⟩

end FileResponse

open FileResponse in
/-- A call has a result, and what has been sent stays in step with the response. -/
theorem sendLocalFile_step {s : FileRange} {resp : FileResponse} {wire : Bytes} (hhead : s.head = false)
    (h : Unsent resp ∧ wire = [] ∨ SendInv s resp wire) (t : Turn) :
    ∃ ret resp' out, resp.sendLocalFile s t = some (ret, resp', out) ∧
      (Unsent resp' ∧ wire ++ out = [] ∨ SendInv s resp' (wire ++ out)) := by
  rw [sendLocalFile]
  split
  next => exact ⟨_, _, _, rfl, (List.append_nil wire).symm ▸ h⟩
  rcases h with ⟨hunsent, rfl⟩ | hinv
  · simp only [hunsent.status]
    obtain ⟨ret, resp', out, hrun, hor⟩ := ready_sends (s := s) t hunsent
    rw [hrun]
    rcases ret with _ | r
    · exact ⟨_, _, _, rfl, .inr (hor.resolve_left fun hne => hne.1 rfl)⟩
    · refine ⟨_, _, _, rfl, ?_⟩
      rcases hor with ⟨-, rfl, hunsent'⟩ | hinv'
      · exact .inl ⟨hunsent', rfl⟩
      · exact .inr hinv'
  · cases hinv with
    | header status phase =>
      obtain ⟨ret, resp', out, hrun, hheader, hstatus', hall⟩ := sendStream_header t phase
      simp only [status, hrun]
      rcases ret with _ | r
      · exact ⟨_, _, _, rfl, .inr (sendInv_of_header hheader (hall rfl))⟩
      · exact ⟨_, _, _, rfl, .inr (.header (hstatus'.trans status) hheader)⟩
    | file held status phase buffer =>
      obtain ⟨ret, resp', out, hrun, hinv'⟩ := sendFile_sends t hhead status phase buffer
      simp only [status, hrun]
      exact ⟨_, _, _, rfl, .inr hinv'⟩
    | done status phase =>
      simp only [status]
      have hsame : SendInv s resp (wire ++ []) :=
        (List.append_nil wire).symm ▸ .done status phase
      split
      · exact ⟨_, _, _, rfl, .inr hsame⟩
      · exact ⟨_, _, _, rfl, .inr hsame⟩

/-- What the invariant says about the counters. -/
theorem SendInv.rangeSent {s : FileRange} {resp : FileResponse} {wire : Bytes}
    (h : SendInv s resp wire) : RangeSent s resp wire := by
  have hpos := s.length_pos
  cases h with
  | header status phase =>
    refine ⟨?_, fun hp => absurd phase.sended hp.ne', ?_, ?_, ?_, ?_⟩
    · rw [phase.wire_eq, phase.sended, List.take_zero, List.append_nil]
    · rw [phase.sended]
      exact Nat.zero_le _
    · rw [phase.offset, phase.sended, phase.bufferLen]
      rfl
    · rw [phase.bufferLen, List.take_zero, List.take_zero]
    · rw [status, phase.sended]
      omega
  | file held status phase buffer =>
    have hlt := phase.sended_lt
    refine ⟨?_, fun _ => phase.header_sent, hlt.le, ?_, ?_, ?_⟩
    · rw [phase.header_sent, List.take_length, phase.wire_eq]
    · rw [buffer.2]
      exact phase.offset_eq
    · rw [← buffer.1, buffer.2]
      exact phase.held_eq
    · rw [status]
      omega
  | done status phase =>
    refine ⟨?_, fun _ => phase.header_sent, phase.sended.le, ?_, ?_, iff_of_true status phase.sended⟩
    · rw [phase.header_sent, List.take_length, phase.sended, phase.wire_eq]
    · rw [phase.offset, phase.sended, phase.bufferLen]
      rfl
    · rw [phase.bufferLen, List.take_zero, List.take_zero]

/-- In every run of calls, whatever they meet, nothing has been sent, or the header and then
the bytes of the range in their order, as far as the counters say. Every call ends without
leaving the buffer. -/
theorem sendLocalFile_sends (s : FileRange) (hhead : s.head = false) {resp₀ resp : FileResponse}
    {wire : Bytes} (h₀ : Unsent resp₀) (hrun : ReflTransGen (SendStep s) (resp₀, []) (resp, wire)) :
    (resp.iFileStatus = 0 ∧ wire = [] ∨ RangeSent s resp wire) ∧
      ∀ t, ∃ r, resp.sendLocalFile s t = some r := by
  have hinv : Unsent resp ∧ wire = [] ∨ SendInv s resp wire := by
    suffices h : ∀ b, ReflTransGen (SendStep s) (resp₀, []) b →
        Unsent b.1 ∧ b.2 = [] ∨ SendInv s b.1 b.2 from h _ hrun
    intro b hb
    induction hb with
    | refl => exact .inl ⟨h₀, rfl⟩
    | tail _ hstep ih =>
      obtain ⟨t, ret, out, hcall, hwire⟩ := hstep
      obtain ⟨ret', resp', out', hcall', hinv'⟩ := sendLocalFile_step hhead ih t
      obtain ⟨-, rfl, rfl⟩ := Prod.mk.inj (Option.some.inj (hcall.symm.trans hcall')) |>.imp_right
        Prod.mk.inj
      exact hwire ▸ hinv'
  refine ⟨hinv.imp (fun h => ⟨h.1.status, h.2⟩) SendInv.rangeSent, fun t => ?_⟩
  obtain ⟨ret, resp', out, hcall, -⟩ := sendLocalFile_step hhead hinv t
  exact ⟨_, hcall⟩

/-- Three bytes with a header of two, before and behind the two calls that send them. -/
def exRange : FileRange where
  content := bytes "abc"
  header := CRLF
  start := 0
  length := 3
  head := false
  header_lt := by decide
  length_pos := by decide
  inside := by decide
  size_lt := by decide

def exUnsent : FileResponse :=
  ⟨0, [], 0, 0, List.replicate httpdBuffer 0, 0, 0, 0, 0, none⟩

def exHeaderSent : FileResponse :=
  ⟨2, CRLF, 2, 2, List.replicate httpdBuffer 0, 0, 3, 0, 0, some (.opened (bytes "abc"))⟩

def exFinished : FileResponse :=
  ⟨3, CRLF, 2, 5, List.replicate httpdBuffer 0, 0, 3, 3, 3, some ⟨bytes "abc", 3, 0⟩⟩

theorem sendLocalFile_sends_abc :
    (exFinished.iFileStatus = 0 ∧ CRLF ++ bytes "abc" = [] ∨
        RangeSent exRange exFinished (CRLF ++ bytes "abc")) ∧
      ∀ t, ∃ r, exFinished.sendLocalFile exRange t = some r := by
  refine sendLocalFile_sends exRange rfl (show Unsent exUnsent from ⟨rfl, List.length_replicate⟩) ?_
  have hheader : SendStep exRange (exUnsent, []) (exHeaderSent, CRLF) :=
    ⟨{ sends := [.taken 2] }, retval .tContinue, CRLF, rfl, rfl⟩
  exact .tail (.single hheader)
    ⟨{ sends := [.taken 3] }, retval .tContinue, bytes "abc", rfl, rfl⟩

end Dframework
