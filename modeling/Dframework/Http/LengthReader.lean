import Mathlib
import Dframework.Http.ChunkedBlocks

/-!
# `IHttpReader::readBlocks`

The reader of a body with `Content-Length`. It cuts the payload into blocks with
a loop of its own, which keeps the bytes of an unfinished block in
`m_sReaderBuffer`, the same string that holds the body bytes received together
with the header.

`none` as a result stands for a run that leaves the memory of a buffer or does
not come back from `procBlocks`.
-/

namespace Dframework

open CLib Loop

/-- The state of the reader: the fields of its round it uses, the socket, and the
calls of `onResponse` made so far. -/
structure LengthState where
  readerBuffer : Bytes
  recvContentLength : Nat
  contentLength : Nat
  sock : Socket
  calls : List Block
  deriving DecidableEq, Repr

/-- `HttpConnection::onResponse`. -/
def LengthState.onResponse (st : LengthState) (q : HttpQuery) (ptr : Option Bytes) (size : Nat) :
    LengthState × Retval :=
  let calls := st.calls ++ [⟨ptr, size⟩]
  ({ st with calls }, q.onResponse calls)

/-- Hands over the pending bytes. -/
def LengthState.onPending (st : LengthState) (q : HttpQuery) : LengthState × Retval :=
  st.onResponse q (toChars st.readerBuffer) st.readerBuffer.length

/-- The loop of `procBlocks`, with `mem` the memory at `buffer+offset`. Unlike
`procLoop` it does not announce the end of the body. -/
def procBlocksLoop (q : HttpQuery) :
    Nat → LengthState → Bytes → Nat → Bool → Option (LengthState × Retval)
  | 0, _, _, _, _ => none
  | fuel + 1, st, mem, size, isended =>
    let s_size := sizeSub q.blockSize st.readerBuffer.length
    if s_size > size then
      if isended then
        match st.onPending q with
        | (st, some e) => some (st, some e)
        | (st, none) => some ({ st with readerBuffer := [] }, none)
      else if size ≤ mem.length then
        some ({ st with readerBuffer := st.readerBuffer ++ mem.take size }, none)
      else none
    else if s_size ≤ mem.length then
      match ({ st with readerBuffer := st.readerBuffer ++ mem.take s_size } : LengthState).onPending q with
      | (st, some e) => some (st, some e)
      | (st, none) =>
        procBlocksLoop q fuel { st with readerBuffer := [] } (mem.drop s_size) (size - s_size) isended
    else none

def procBlocks (q : HttpQuery) (st : LengthState) (buffer : Option Bytes) (size : Nat)
    (isended : Bool) : Option (LengthState × Retval) :=
  let st := { st with recvContentLength := st.recvContentLength + size }
  if q.blockSize = 0 then some (st.onResponse q buffer size)
  else procBlocksLoop q ((buffer.getD []).length + 2) st (buffer.getD []) size isended

def readLastBlocks (q : HttpQuery) (st : LengthState) : Option (LengthState × Retval) :=
  if st.recvContentLength = st.contentLength then procBlocks q st none 0 true
  else some (st, retval .error)

/-- The result of `IHttpReader::readBlocks`. -/
abbrev LengthResult := Option (LengthState × Retval)

/-- One pass of the loop of `IHttpReader::readBlocks`. The value of `recv` is
overwritten by that of `readLastBlocks` when bytes came with it. -/
def readLengthRound (q : HttpQuery) (st : LengthState) : Round LengthState LengthResult :=
  match waitRecv st.sock with
  | (some e, sock) => .done (some ({ st with sock }, some e))
  | (none, sock) =>
    let (r, ret, sock) := recvRaw DFW_HTTPSOCKET_MAX_SIZE sock
    let st := { st with sock }
    let status := ret.map Ret.value
    if ret.isSome ∧ status ≠ some .eAgain ∧ status ≠ some .eDisconnect then
      .done (readLastBlocks q st)
    else if r = [] ∧ status = some .eAgain then
      match readLastBlocks q st with
      | none => .done none
      | some (st, none) => .done (some (st, none))
      | some (st, some _) => .next st
    else if r ≠ [] then
      match procBlocks q st (some r) r.length false with
      | none => .done none
      | some (st, some e) => .done (some (st, some e))
      | some (st, none) =>
        match readLastBlocks q st with
        | none => .done none
        | some (st, none) => .done (some (st, none))
        | some (st, some e) =>
          if e.value = .eDisconnect then .done (some (st, some e)) else .next st
    else if status = some .eDisconnect then .done (some (st, ret))
    else .next st

/-- `IHttpReader::readBlocks` from the state `st` ends with `r`. -/
def ReadLength (q : HttpQuery) (st : LengthState) (r : LengthResult) : Prop :=
  match readLastBlocks q st with
  | none => r = none
  | some (st, none) => r = some (st, none)
  | some (st, some _) => Returns (readLengthRound q) st r

/-- The state after `IHttpReader::reset` for a round that has received
`recvBuffer` behind the header. -/
def lengthInit (recvBuffer : Bytes) (contentLength : Nat) (sock : Socket) : LengthState :=
  { readerBuffer := recvBuffer, recvContentLength := recvBuffer.length, contentLength, sock,
    calls := [] }

end Dframework
