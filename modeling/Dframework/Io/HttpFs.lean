import Mathlib
import Dframework.Http.LengthRead

/-!
# `HttpFs`

A remote file that is read at any offset. As long as a call goes on where the one before
ended, it takes the next bytes of the answer that is open; otherwise it opens the file
again and asks for the bytes from the offset on.

What the server answers is data. `request` asks for a range and takes an answer 200 as it takes
206: it reads what comes as the bytes from the offset on.

Results:
1. `HttpFs.read_eq`: what a call is given where the answers fit.
2. `http_reads_run`: any calls, where a call that opens an answer behind the start of the file
   is answered with 206.
-/

namespace Dframework

open CLib LengthReadLemmas

/-- What `HttpQuery::query` finds in the head of an answer: its status, the header
`Content-Length`, and whether there is a header `Last-Modified`. -/
structure HeadAnswer where
  status : Nat
  contentLength : Option Nat
  lastModified : Bool
  deriving DecidableEq, Repr

/-- What the server answers in a call, if it is asked: to `HEAD`, to the `GET` of `getattr_l2`, and
to the request of the range, as the status and the round behind the header. `none` is an error
of the connection. -/
structure Answers where
  head : Option HeadAnswer
  onlyHead : Option HeadAnswer
  request : Option (Nat × ReaderState)
  deriving DecidableEq, Repr

/-- The fields of `HttpFs`. `http` says whether `m_http` is there, and `stream` is the answer that
it reads. -/
structure HttpFs where
  http : Bool := false
  stream : Option ReaderState := none
  size : Nat := 0
  offset : Nat := 0
  step : Nat := 0
  useHead : Bool := true
  deriving DecidableEq, Repr

/-- What `getattr_l` finds: the size, `*isclosed`, and the status of the round. -/
structure Attr where
  st_size : Nat
  isclosed : Bool
  status : Nat
  deriving DecidableEq, Repr

/-- `getattr_l` behind its queries. -/
def getattrOf (path : Bytes) (isclosed : Bool) (answer : HeadAnswer) : Except Ret Attr :=
  let status :=
    if path.getLast? = some 47 ∧ answer.status = 200 then 301
    else if answer.status = 200 ∧ answer.contentLength = none then 301
    else answer.status
  if status = 200 then
    match answer.lastModified, answer.contentLength with
    | false, _ => .error { value := .error, message := "No getattr, Has not last-modified" }
    | true, none => .error { value := .error, message := "No getattr, Has not content-length" }
    | true, some st_size => .ok { st_size, isclosed, status := answer.status }
  else if status = 404 then .error { value := .eNoent, message := "Not found file or dir." }
  else .ok { st_size := 0, isclosed, status := answer.status }

namespace HttpFs

/-- `HttpFs::getattr_l`. -/
def getattr (fs : HttpFs) (path : Bytes) (ans : Answers) : Except Ret Attr :=
  let failed : Except Ret Attr := .error { value := .error }
  match (if fs.useHead then ans.head else none), ans.onlyHead with
  | some answer, _ => getattrOf path false answer
  | none, some answer => getattrOf path true answer
  | none, none => failed

/-- `HttpFs::open_l`. A query that replaces `m_http` has nothing to read yet. -/
def openL (fs : HttpFs) (path : Bytes) (ans : Answers) : Retval × HttpFs :=
  if path = [] then (retvalMsg .error "path is none.", fs)
  else
    let fs := { fs with http := true, stream := none }
    match fs.getattr path ans with
    | .error e => (some e, fs)
    | .ok attr =>
      if attr.status ≠ 200 then
        (retvalMsg .error s!"status is not 200. status={attr.status}", fs)
      else (none, { fs with size := attr.st_size, offset := 0, step := 1 })

def close (fs : HttpFs) : HttpFs :=
  { fs with step := 0, http := false, stream := none }

end HttpFs

/-- The result of a call: its value, the bytes it has stored, and what it leaves. -/
abbrev FsResult := Retval × Bytes × HttpFs

namespace HttpFs

/-- `m_http->read`, which comes to `HttpConnection::read`, with what the two steps of `request_l` do behind it. A query that has no answer
has nothing to read from. -/
def ReadStream (fs : HttpFs) (size : Nat) (r : FsResult) : Prop :=
  ∃ st ret out st', fs.stream = some st ∧ ConnectionRead st size (ret, out, st') ∧
    r = (ret, out, { fs with stream := some st', step := 2, offset := fs.offset + out.length })

def RequestL (fs : HttpFs) (path : Bytes) (size offset : Nat) (ans : Answers) (r : FsResult) : Prop :=
  if path = [] then r = (retvalMsg .error "path is none.", [], fs)
  else if fs.step = 2 then fs.ReadStream size r
  else
    let fs := { fs with offset }
    match ans.request with
    | none => r = (retval .error, [], fs)
    | some (status, st) =>
      let fs := { fs with stream := some st }
      if status = 200 ∨ status = 206 then fs.ReadStream size r
      else r = (retvalMsg .error s!"status={status}", [], fs)

/-- `HttpFs::read` behind its look at `m_offset`. The sizes of files are `off_t`, so that nothing
wraps. -/
def ReadOpen (fs : HttpFs) (path : Bytes) (size offset : Nat) (ans : Answers) (r : FsResult) : Prop :=
  if fs.size ≤ offset then r = (none, [], fs)
  else
    let nsize := if fs.size < offset + size then size - (offset + size - fs.size) else size
    fs.RequestL path nsize offset ans r

def Read (fs : HttpFs) (path : Bytes) (size offset : Nat) (ans : Answers) (r : FsResult) : Prop :=
  if fs.http = false ∨ fs.offset ≠ offset then
    match fs.openL path ans with
    | (some e, fs) => r = (some e, [], fs)
    | (none, fs) => fs.ReadOpen path size offset ans r
  else fs.ReadOpen path size offset ans r

end HttpFs

/-! ## One call -/

def IsFilePath (path : Bytes) : Prop :=
  path ≠ [] ∧ path.getLast? ≠ some 47

/-- What a server tells of the file in the head of an answer. -/
def wholeHead (file : Bytes) : HeadAnswer where
  status := 200
  contentLength := some file.length
  lastModified := true

/-- An answer with the given status and body, cut anywhere, and whatever follows it. -/
def Brought (status : Nat) (body : Bytes) (request : Option (Nat × ReaderState)) : Prop :=
  ∃ recvBuffer segs tail, recvBuffer ++ List.flatten segs = body ∧ (∀ s ∈ segs, s ≠ []) ∧
    request = some (status, readerInit recvBuffer body.length (segments segs ++ tail))

/-- The answers of a server that has the file, to a call at `offset`. `HEAD` may fail. -/
structure Serves (file : Bytes) (offset : Nat) (ans : Answers) : Prop where
  head : ans.head = none ∨ ans.head = some (wholeHead file)
  onlyHead : ans.onlyHead = some (wholeHead file)
  request : Brought 206 (file.drop offset) ans.request ∨ Brought 200 file ans.request

/-- Where the open answer goes on, if there is one. -/
def HttpFs.stands (fs : HttpFs) : Option Nat :=
  if fs.http = true ∧ fs.step = 2 then some fs.offset else none

/-- What holds between two calls: the open answer goes on with the bytes of the file from
`m_offset` on. -/
structure InFile (file : Bytes) (fs : HttpFs) : Prop where
  size_eq : fs.http = true → fs.size = file.length
  remains : fs.http = true → fs.step = 2 → ∃ st segs tail, fs.stream = some st ∧
    Remains (file.drop fs.offset) segs tail st

namespace HttpFs

variable {file path : Bytes} {fs : HttpFs} {ans : Answers} {size offset : Nat}

/-- A read that asks for no more than what is left of the answer. -/
theorem readStream_eq {body : Bytes} {segs : List Bytes} {tail : Socket} {st : ReaderState}
    (hstream : fs.stream = some st) (h : Remains body segs tail st.reset) (hne : body ≠ [])
    (hle : size ≤ body.length) :
    ∃ st' segs', Remains (body.drop size) segs' tail st' ∧ ∀ r, fs.ReadStream size r ↔
      r = (none, body.take size,
        { fs with stream := some st', step := 2, offset := fs.offset + size }) := by
  obtain ⟨segs', st', hread, hremains, -⟩ := read_fills h hle
  refine ⟨st', segs', hremains, fun r => ?_⟩
  -- a body that has bytes left has a length
  have hlength : st.contentLength ≠ 0 := by
    intro h0
    have hsum := h.received
    have hcl : st.reset.contentLength = st.contentLength := by
      rw [ReaderState.reset]
      split <;> rfl
    rw [hcl, h0] at hsum
    have hnone : segs.flatten = [] := List.length_eq_zero_iff.mp (by omega)
    have hbody := h.body_eq
    rw [hnone, h.reset_eq.2 (by omega)] at hbody
    exact hne hbody.symm
  have hconn : ∀ x, ConnectionRead st size x ↔ x = (none, body.take size, st') := by
    intro x
    rw [ConnectionRead, if_neg hlength]
    exact hread x
  have hlen : (body.take size).length = size := List.length_take_of_le hle
  constructor
  · rintro ⟨st₀, ret, out, st₁, hst, hr, rfl⟩
    obtain rfl := Option.some.inj (hstream.symm.trans hst)
    obtain ⟨rfl, rfl, rfl⟩ : ret = none ∧ out = body.take size ∧ st₁ = st' := by
      simpa using (hconn _).mp hr
    rw [hlen]
  · rintro rfl
    refine ⟨st, none, body.take size, st', hstream, (hconn _).mpr rfl, ?_⟩
    rw [hlen]

/-- The file is opened, whichever of the two queries tells of it. -/
theorem openL_eq (hpath : IsFilePath path) (hserves : Serves file offset ans) :
    fs.openL path ans = (none, { fs with
      http := true, stream := none, size := file.length, offset := 0, step := 1 }) := by
  have hwhole : ∀ isclosed, getattrOf path isclosed (wholeHead file) =
      .ok ⟨file.length, isclosed, 200⟩ := by
    intro isclosed
    simp [getattrOf, wholeHead, hpath.2]
  have hattr : ∀ fs : HttpFs, ∃ isclosed, fs.getattr path ans = .ok ⟨file.length, isclosed, 200⟩ := by
    intro fs
    rw [getattr, hserves.onlyHead]
    rcases hserves.head with hhead | hhead <;> rw [hhead] <;> cases fs.useHead <;>
      exact ⟨_, hwhole _⟩
  obtain ⟨isclosed, hok⟩ := hattr { fs with http := true, stream := none }
  simp only [openL, if_neg hpath.1, hok, ne_eq, not_true_eq_false, ↓reduceIte]

/-- A request that is answered with the bytes from its offset on. -/
def Fits (file : Bytes) (offset : Nat) (ans : Answers) : Prop :=
  ∃ status, (status = 200 ∨ status = 206) ∧ Brought status (file.drop offset) ans.request

/-- A call on an open file. Only one that finds no open answer there sends a request. -/
theorem readOpen_eq (size : Nat) (hpath : IsFilePath path) (hhttp : fs.http = true) (hin : InFile file fs)
    (hoffset : fs.step = 2 → fs.offset = offset)
    (hfits : offset < file.length → fs.step ≠ 2 → Fits file offset ans) :
    ∃ fs', (∀ r, fs.ReadOpen path size offset ans r ↔
      r = (none, (file.drop offset).take size, fs')) ∧ InFile file fs' ∧
      fs'.stands = if file.length ≤ offset then fs.stands
        else some (min (offset + size) file.length) := by
  have hsize := hin.size_eq hhttp
  by_cases hpast : fs.size ≤ offset
  · refine ⟨fs, fun r => ?_, hin, (if_pos (hsize ▸ hpast)).symm⟩
    rw [ReadOpen, if_pos hpast, List.drop_eq_nil_of_le (hsize ▸ hpast), List.take_nil]
  set nsize := if fs.size < offset + size then size - (offset + size - fs.size) else size with hn
  have hlen : (file.drop offset).length = fs.size - offset := by rw [List.length_drop, hsize]
  have hle : nsize ≤ (file.drop offset).length := by
    rw [hn, hlen]
    split <;> omega
  have htake : (file.drop offset).take nsize = (file.drop offset).take size := by
    rw [hn]
    split
    next hlt => rw [List.take_of_length_le (by omega), List.take_of_length_le (by omega)]
    next => rfl
  have hbehind : offset + nsize = min (offset + size) file.length := by
    rw [hn, ← hsize]
    split <;> omega
  have hne : file.drop offset ≠ [] := List.ne_nil_of_length_pos (by omega)
  have hopen : ∀ r, fs.ReadOpen path size offset ans r ↔ fs.RequestL path nsize offset ans r := by
    intro r
    rw [ReadOpen, if_neg hpast]
  -- the answer that is open goes on, or the one to a new request begins
  have hdone : ∀ (fs₁ : HttpFs) {st segs tail}, fs₁.stream = some st →
      Remains (file.drop offset) segs tail st.reset → fs₁.offset = offset → fs₁.size = fs.size →
      fs₁.http = true → ∃ fs', (∀ r, fs₁.ReadStream nsize r ↔
        r = (none, (file.drop offset).take size, fs')) ∧ InFile file fs' ∧
        fs'.stands = if file.length ≤ offset then fs.stands
          else some (min (offset + size) file.length) := by
    intro fs₁ st segs tail hst hremains hoff₁ hsize₁ hhttp₁
    obtain ⟨st', segs', hleft, hread⟩ := readStream_eq hst hremains hne hle
    rw [htake] at hread
    refine ⟨_, hread, ⟨fun _ => hsize₁.trans hsize, fun _ _ => ⟨st', segs', tail, rfl, ?_⟩⟩, ?_⟩
    · show Remains (file.drop (fs₁.offset + nsize)) segs' tail st'
      rwa [hoff₁, ← List.drop_drop]
    · rw [stands, if_pos ⟨hhttp₁, rfl⟩, if_neg (hsize ▸ hpast), ← hbehind, hoff₁]
  by_cases hstep : fs.step = 2
  · obtain ⟨st, segs, tail, hst, hremains⟩ := hin.remains hhttp hstep
    rw [hoffset hstep] at hremains
    obtain ⟨fs', hread, hin'⟩ := hdone _ hst ((Remains.reset hremains).symm ▸ hremains)
      (hoffset hstep) rfl hhttp
    refine ⟨fs', fun r => ?_, hin'⟩
    rw [hopen, RequestL, if_neg hpath.1, if_pos hstep, hread]
  · obtain ⟨status, hstatus, recvBuffer, segs, tail, hsplit, hsegs, hreq⟩ :=
      hfits (by omega) hstep
    obtain ⟨fs', hread, hin'⟩ := hdone { fs with
      offset, stream := some (readerInit recvBuffer (file.drop offset).length (segments segs ++ tail)) }
      rfl (remains_init tail hsegs hsplit) rfl rfl hhttp
    refine ⟨fs', fun r => ?_, hin'⟩
    rw [hopen, RequestL, if_neg hpath.1, if_neg hstep, hreq]
    simp only [if_pos hstatus]
    exact hread r

/-- A call at any offset is given the bytes of the file from there on, and leaves the answer open
behind them. -/
theorem read_eq (hpath : IsFilePath path) (hin : InFile file fs) (hserves : Serves file offset ans)
    (hfits : offset < file.length → fs.stands ≠ some offset → Fits file offset ans) (size : Nat) :
    ∃ fs', (∀ r, fs.Read path size offset ans r ↔
      r = (none, (file.drop offset).take size, fs')) ∧ InFile file fs' ∧
      fs'.stands = if file.length ≤ offset then (if fs.stands = some offset then fs.stands else none)
        else some (min (offset + size) file.length) := by
  by_cases hnew : fs.http = false ∨ fs.offset ≠ offset
  · have hin₁ : InFile file { fs with
        http := true, stream := none, size := file.length, offset := 0, step := 1 } :=
      ⟨fun _ => rfl, fun _ hstep => by cases hstep⟩
    have hgone : fs.stands ≠ some offset := by
      rw [stands]
      split
      next hopen =>
        simp only [hopen.1, Bool.true_eq_false, false_or] at hnew
        simpa using hnew
      next => simp
    obtain ⟨fs', hread, hin', hstands⟩ := readOpen_eq size hpath rfl hin₁
      (fun hstep => by cases hstep) (fun hlt _ => hfits hlt hgone)
    refine ⟨fs', fun r => ?_, hin', by rw [if_neg hgone]; exact hstands⟩
    rw [Read, if_pos hnew, openL_eq hpath hserves]
    exact hread r
  · rw [not_or, ne_eq, not_not, Bool.not_eq_false] at hnew
    have hstands : ∀ x, fs.stands = some x → fs.step = 2 ∧ fs.offset = x := by
      intro x hx
      rw [stands] at hx
      split at hx
      next hopen => exact ⟨hopen.2, Option.some.inj hx⟩
      next => cases hx
    obtain ⟨fs', hread, hin', hafter⟩ := readOpen_eq size hpath hnew.1 hin (fun _ => hnew.2)
      (fun hlt hstep => hfits hlt fun hopen => hstep (hstands _ hopen).1)
    refine ⟨fs', fun r => ?_, hin', ?_⟩
    · rw [Read, if_neg (by simp [hnew.1, hnew.2])]
      exact hread r
    · rw [hafter]
      split
      next =>
        split
        next => rfl
        next hgone =>
          cases hopen : fs.stands with
          | none => rfl
          | some x => exact absurd (hopen.trans (by rw [← (hstands x hopen).2, hnew.2])) hgone
      next => rfl

end HttpFs

/-! ## Any calls -/

inductive FsOp where
  | open (ans : Answers)
  | close
  | read (size offset : Nat) (ans : Answers)
  deriving Repr

def FsOp.Exec (path : Bytes) (fs : HttpFs) (op : FsOp) (r : FsResult) : Prop :=
  match op with
  | .open ans => r = ((fs.openL path ans).1, [], (fs.openL path ans).2)
  | .close => r = (none, [], fs.close)
  | .read size offset ans => fs.Read path size offset ans r

/-- Calls one after another, with their values and the bytes they are given. -/
inductive FsRun (path : Bytes) : HttpFs → List FsOp → List (Retval × Bytes) → Prop
  | nil (fs : HttpFs) : FsRun path fs [] []
  | cons {fs fs' : HttpFs} {op : FsOp} {ops : List FsOp} {ret : Retval} {out : Bytes}
      {outs : List (Retval × Bytes)} (hop : op.Exec path fs (ret, out, fs'))
      (hrest : FsRun path fs' ops outs) : FsRun path fs (op :: ops) ((ret, out) :: outs)

/-- The answers in a call are those of a server that has the file. -/
def FsOp.Served (file : Bytes) : FsOp → Prop
  | .open ans => Serves file 0 ans
  | .close => True
  | .read _ offset ans => Serves file offset ans

/-- Where the open answer goes on behind a call, when it went on at `pos` before it. A call at the
end of the file reads nothing. -/
def FsOp.stands (file : Bytes) (pos : Option Nat) : FsOp → Option Nat
  | .read size offset _ =>
    if file.length ≤ offset then (if pos = some offset then pos else none)
    else some (min (offset + size) file.length)
  | _ => none

/-- A call that opens an answer behind the start of the file is given the part it asked for. -/
def FsOp.Ranged (file : Bytes) (pos : Option Nat) : FsOp → Prop
  | .read _ offset ans => offset = 0 ∨ file.length ≤ offset ∨ pos = some offset ∨
      ∃ st, ans.request = some (206, st)
  | _ => True

/-- Calls one after another, each of them `Ranged` where the ones before it leave the answer. -/
def RangedRun (file : Bytes) : Option Nat → List FsOp → Prop
  | _, [] => True
  | pos, op :: ops => op.Ranged file pos ∧ RangedRun file (op.stands file pos) ops

/-- What a call should be given: the bytes of the file from the offset on. -/
def FsOp.wanted (file : Bytes) : FsOp → Retval × Bytes
  | .read size offset _ => (none, (file.drop offset).take size)
  | _ => (none, [])

variable {file path : Bytes}

theorem fits_of_ranged {offset : Nat} {ans : Answers} (hserves : Serves file offset ans)
    {pos : Option Nat} {size : Nat} (hranged : (FsOp.read size offset ans).Ranged file pos)
    (hlt : offset < file.length) (hgone : pos ≠ some offset) : HttpFs.Fits file offset ans := by
  rcases hserves.request with h206 | h200
  · exact ⟨206, .inr rfl, h206⟩
  rcases hranged with rfl | hpast | hopen | ⟨st, hst⟩
  · exact ⟨200, .inl rfl, h200⟩
  · exact absurd hlt (not_lt.mpr hpast)
  · exact absurd hopen hgone
  · obtain ⟨_, _, _, _, _, hreq⟩ := h200
    rw [hreq] at hst
    cases hst

theorem FsOp.exec_eq (hpath : IsFilePath path) {fs : HttpFs} (hin : InFile file fs) {op : FsOp}
    (hserved : op.Served file) (hranged : op.Ranged file fs.stands) :
    ∃ fs', (∀ r, op.Exec path fs r ↔ r = ((op.wanted file).1, (op.wanted file).2, fs')) ∧
      InFile file fs' ∧ fs'.stands = op.stands file fs.stands := by
  cases op with
  | «open» ans =>
    refine ⟨{ fs with http := true, stream := none, size := file.length, offset := 0, step := 1 },
      fun r => ?_, ⟨fun _ => rfl, fun _ hstep => (by cases hstep)⟩, rfl⟩
    rw [Exec, HttpFs.openL_eq hpath hserved]
    rfl
  | close =>
    exact ⟨fs.close, fun r => Iff.rfl, ⟨fun h => (by cases h), fun h => (by cases h)⟩, rfl⟩
  | read size offset ans =>
    exact HttpFs.read_eq hpath hin hserved (fits_of_ranged hserved hranged) size

/-- Any calls on a file: each ends, and is given the bytes of the file from its offset on, where
a call that opens an answer behind the start of the file is answered with 206. -/
theorem http_reads_run {ops : List FsOp} (hpath : IsFilePath path)
    (hserved : ∀ op ∈ ops, op.Served file) (hranged : RangedRun file none ops) (useHead : Bool) :
    ∀ outs, FsRun path { useHead } ops outs ↔ outs = ops.map (FsOp.wanted file) := by
  suffices h : ∀ fs, InFile file fs → RangedRun file fs.stands ops → ∀ outs,
      FsRun path fs ops outs ↔ outs = ops.map (FsOp.wanted file) from
    h _ ⟨fun h => (by cases h), fun h => (by cases h)⟩ hranged
  clear hranged
  induction ops with
  | nil =>
    intro fs _ _ outs
    constructor
    · rintro ⟨⟩
      rfl
    · rintro rfl
      exact .nil fs
  | cons op ops ih =>
    intro fs hin hranged outs
    obtain ⟨fs', hexec, hin', hstands⟩ := FsOp.exec_eq hpath hin (hserved op List.mem_cons_self)
      hranged.1
    have hrest := ih (fun o ho => hserved o (List.mem_cons_of_mem op ho)) fs' hin'
      (hstands ▸ hranged.2)
    constructor
    · intro hrun
      cases hrun with
      | cons hop hrun =>
        cases (hexec _).mp hop
        rw [List.map_cons, ← (hrest _).mp hrun]
    · rintro rfl
      exact .cons ((hexec _).mpr rfl) ((hrest _).mpr rfl)

/-- What a server that always sends the whole file answers. -/
def wholeFile (file : Bytes) : Answers where
  head := some (wholeHead file)
  onlyHead := some (wholeHead file)
  request := some (200, readerInit file file.length [])

/-- What a server that sends the part answers. -/
def partOfFile (file : Bytes) (offset : Nat) : Answers where
  head := some (wholeHead file)
  onlyHead := some (wholeHead file)
  request := some (206, readerInit (file.drop offset) (file.drop offset).length [])

theorem served_wholeFile (file : Bytes) (offset : Nat) : Serves file offset (wholeFile file) :=
  ⟨.inr rfl, rfl, .inr ⟨file, [], [], List.append_nil file, fun _ hs => (by cases hs), rfl⟩⟩

theorem served_partOfFile (file : Bytes) (offset : Nat) :
    Serves file offset (partOfFile file offset) :=
  ⟨.inr rfl, rfl, .inl ⟨file.drop offset, [], [], List.append_nil _, fun _ hs => (by cases hs), rfl⟩⟩

/-- Two calls from the start on, on a server that never sends a part, and one that goes back behind
them. -/
def backAndForth : List FsOp :=
  [.read 2 0 (wholeFile [1, 2, 3, 4]), .read 1 2 (wholeFile [1, 2, 3, 4]),
    .read 9 1 (partOfFile [1, 2, 3, 4] 1)]

theorem http_reads_run_back : {outs | FsRun [102] {} backAndForth outs} =
    {[(none, [1, 2]), (none, [3]), (none, [2, 3, 4])]} := by
  refine Set.ext (@http_reads_run [1, 2, 3, 4] [102] backAndForth ⟨by decide, by decide⟩ ?_ ?_ true)
  · simp only [backAndForth, List.forall_mem_cons]
    exact ⟨served_wholeFile _ 0, served_wholeFile _ 2, served_partOfFile _ 1, fun _ h => (by cases h)⟩
  · exact ⟨.inl rfl, .inr (.inr (.inl rfl)), .inr (.inr (.inr ⟨_, rfl⟩)), trivial⟩

/-- What is left when a server sent the whole file and one byte of it was read at offset 1. -/
def afterWhole : HttpFs where
  http := true
  stream := some ⟨[], [2], 2, 2, []⟩
  size := 2
  offset := 2
  step := 2

/-- A server that always sends the whole file is asked for the bytes from offset 1 on: the call is
given the first byte of the file. -/
theorem not_http_reads_run : (FsOp.read 1 1 (wholeFile [1, 2])).Served [1, 2] ∧
    FsRun [102] {} [.read 1 1 (wholeFile [1, 2])] [(none, [1])] ∧
    (FsOp.read 1 1 (wholeFile [1, 2])).wanted [1, 2] = (none, [2]) := by
  refine ⟨served_wholeFile _ 1, @FsRun.cons _ _ afterWhole _ _ _ _ _ ?_ (.nil _), rfl⟩
  simp [FsOp.Exec, HttpFs.Read, HttpFs.openL, HttpFs.getattr, getattrOf, wholeFile, wholeHead,
    HttpFs.ReadOpen, HttpFs.RequestL, HttpFs.ReadStream, ConnectionRead, readerInit,
    ReaderState.reset, ReaderRead, afterWhole]

end Dframework
