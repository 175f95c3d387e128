import Mathlib
import Dframework.Lang.String
import Dframework.Library.Loop
import Dframework.Net.Socket
import Dframework.Http.Settle

/-!
# `HttpChunked::read`

The reader of a chunked body that fills a buffer of the caller. It has three
buffers: `m_sReaderBuffer`, what was received and not parsed; the array of
`readSub`, given as `data` below `buffer_len` and `stale` behind it; and
`m_sChunkedBuffer`, payload that did not fit into the caller's buffer. The
caller's buffer is the list of bytes written to it.

`none` as a result stands for a run that leaves the memory of a buffer or does
not end.
-/

namespace Dframework

open CLib Loop

/-- `HttpChunked::procChunkedRead` with room for `size` bytes: the bytes it
writes and the new `m_sChunkedBuffer`. -/
def procChunkedRead (chunkedBuffer : Bytes) (size : Nat) (ibuffer : Bytes) (isize : Nat) :
    Option (Bytes × Bytes) :=
  if isize = 0 then some ([], chunkedBuffer)
  else
    match append chunkedBuffer ibuffer isize with
    | none => none
    | some cb =>
      if size ≥ cb.length then some (cb, [])
      else some (cb.take size, cb.drop size)

/-- Where the loop of `parseChunkedRead` ends. -/
structure ReadStop where
  out : Bytes
  chunkedBuffer : Bytes
  rest : Bytes
  ret : Retval
  deriving DecidableEq, Repr

/-- The loop of `parseChunkedRead`: `rest` are the `l_size` bytes at `buf`, `room`
is `size-offset`. -/
def parseReadLoop (stale : Bytes) : Nat → Bytes → Nat → Bytes → Option ReadStop
  | 0, _, _, _ => none
  | fuel + 1, cb, room, rest =>
    if rest = [] then some ⟨[], cb, rest, none⟩
    else
      match chunkHead (rest ++ stale) with
      | .more => some ⟨[], cb, rest, none⟩
      | .last => some ⟨[], cb, rest, retval .tChunkedEnd⟩
      | .bad => some ⟨[], cb, rest, retval .eHttpChunked⟩
      | .chunk len val =>
        if savelen len val > rest.length then some ⟨[], cb, rest, none⟩
        else
          match procChunkedRead cb room ((rest ++ stale).drop len) val with
          | none => none
          | some (out, cb) =>
            match parseReadLoop stale fuel cb (room - out.length) (rest.drop (savelen len val)) with
            | none => none
            | some stop => some { stop with out := out ++ stop.out }

/-- What `parseChunkedRead` leaves: the bytes written, the memory at `ibuf` after
its `memmove`, and `*o_isize`. -/
structure ReadParsed where
  out : Bytes
  chunkedBuffer : Bytes
  ibuf : Bytes
  o_isize : Nat
  ret : Retval
  deriving DecidableEq, Repr

/-- `HttpChunked::parseChunkedRead` on the `data.length` bytes at `ibuf`, with
`stale` behind them. It moves what is left to the front on every way out. -/
def parseChunkedRead (chunkedBuffer : Bytes) (size : Nat) (data stale : Bytes) :
    Option ReadParsed :=
  match parseReadLoop stale (data.length + 1) chunkedBuffer size data with
  | none => none
  | some stop =>
    some ⟨stop.out, stop.chunkedBuffer, stop.rest ++ (data ++ stale).drop stop.rest.length,
      data.length - stop.rest.length, stop.ret⟩

def MAX_SIZE : Nat := 102400

/-- What a call of `read` finds and leaves: the two buffers of the round, and the
socket. -/
structure ReadState where
  readerBuffer : Bytes
  chunkedBuffer : Bytes
  sock : Socket
  deriving DecidableEq, Repr

/-- The result of a call: the bytes written, the state it leaves, its value. -/
abbrev ReadResult := Option (Bytes × ReadState × Retval)

/-- The state of `readSub` at the head of a pass of its loop. -/
structure ReadSubState where
  round : ReadState
  data : Bytes
  stale : Bytes
  out : Bytes
  deriving DecidableEq, Repr

def ReadSubState.leave (n : ReadSubState) (ret : Retval) : ReadResult :=
  some (n.out, { n.round with
    readerBuffer := if n.data ≠ [] then n.data else n.round.readerBuffer }, ret)

/-- `readSub` up to its loop. The reader buffer is parsed in place: the parse
moves what is left to its front, and then it is shifted by what was parsed. -/
def readSubEnter (s : Nat) (stack : Bytes) (st : ReadState) : Round ReadSubState ReadResult :=
  let max_s := max MAX_SIZE s
  if st.readerBuffer ≠ [] then
    match parseChunkedRead st.chunkedBuffer s st.readerBuffer [] with
    | none => .done none
    | some p =>
      let st' := { st with readerBuffer := p.ibuf.drop p.o_isize, chunkedBuffer := p.chunkedBuffer }
      if p.ret.isSome then .done (some (p.out, st', p.ret))
      else if p.out.length = s then .done (some (p.out, st', none))
      else if st'.readerBuffer.length < max_s then
        .done (some (p.out, st', retvalMsg .error "Not enouth buffer(1)."))
      else if st'.readerBuffer.length > max_s then .done none
      else .next ⟨st', st'.readerBuffer, stack.drop st'.readerBuffer.length, p.out⟩
  else .next ⟨st, [], stack, []⟩

/-- One pass of the loop of `readSub`. What the parse left at the front is moved
once more, by what was parsed. -/
def readSubRound (s : Nat) (n : ReadSubState) : Round ReadSubState ReadResult :=
  let max_s := max MAX_SIZE s
  if n.data.length ≥ max_s then .done (n.leave (retvalMsg .error "Not enouth buffer(2)."))
  else
    match waitRecv n.round.sock with
    | (some e, sock) => .done ({ n with round := { n.round with sock } }.leave (some e))
    | (none, sock) =>
      let (r, ret, sock) := recvRaw (max_s - n.data.length) sock
      if ret.isSome ∧ r = [] then .done ({ n with round := { n.round with sock } }.leave ret)
      else
        let data := n.data ++ r
        match parseChunkedRead n.round.chunkedBuffer (s - n.out.length) data
            (n.stale.drop r.length) with
        | none => .done none
        | some p =>
          let buffer_len := data.length - p.o_isize
          let n' : ReadSubState :=
            { round := { n.round with chunkedBuffer := p.chunkedBuffer, sock }
              data := (p.ibuf.drop p.o_isize).take buffer_len
              stale := p.ibuf.drop buffer_len
              out := n.out ++ p.out }
          if p.ret.isSome then .done (n'.leave p.ret)
          else if ret.isSome then .done (n'.leave ret)
          else if n'.out.length = s then .done (n'.leave none)
          else .next n'

/-- `HttpChunked::readSub` with a buffer of `s` bytes ends with `r`; `stack` is
what its array holds before anything is stored in it. -/
def ReadSub (s : Nat) (stack : Bytes) (st : ReadState) (r : ReadResult) : Prop :=
  match readSubEnter s stack st with
  | .done r' => r = r'
  | .next n => Returns (readSubRound s) n r

/-- `HttpChunked::read`: the end of the body is a success. -/
def Read (s : Nat) (stack : Bytes) (st : ReadState) (r : ReadResult) : Prop :=
  ∃ r', ReadSub s stack st r' ∧ r = r'.map fun (out, st, ret) =>
    (out, st, if ret.map Ret.value = some .tChunkedEnd then none else ret)

/-- The calls of `read` from the `i`-th on, with the given buffer sizes and stack
contents, none of which returns an error up to the first one that succeeds with
no bytes; `out` are the bytes they return. -/
inductive Reads (sizes : Nat → Nat) (garbage : Nat → Bytes) : Nat → ReadState → Bytes → Prop
  | last {i : Nat} {st st' : ReadState} :
      Read (sizes i) (garbage i) st (some ([], st', none)) → Reads sizes garbage i st []
  | more {i : Nat} {st st' : ReadState} {out outs : Bytes} :
      Read (sizes i) (garbage i) st (some (out, st', none)) → out ≠ [] →
      Reads sizes garbage (i + 1) st' outs → Reads sizes garbage i st (out ++ outs)

end Dframework
