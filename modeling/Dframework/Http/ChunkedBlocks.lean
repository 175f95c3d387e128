import Mathlib
import Dframework.Lang.String
import Dframework.Library.Loop
import Dframework.Net.Socket
import Dframework.Http.Settle

/-!
# `HttpChunked::readBlocks`

The reader of a chunked body that hands the payload to the query in blocks.
The network buffer is an array on the stack: `data` are the bytes of it below
`offset`, `stale` is the memory behind them, which `strstr` and `strtol` read
as well. At the start of the function `stale` is whatever the stack holds.

A round of `readBlocks` is one pass of its first loop, which empties
`m_sReaderBuffer`, and after that one pass of its second loop, which calls
`recv`. `none` as a result stands for a run that leaves the array or is still in
`procChunkedBlocks` when its passes are used up.
-/

namespace Dframework

open CLib Loop

/-- One call of `onResponse`: the memory at the pointer (`none` for `NULL`) and
the size. -/
structure Block where
  ptr : Option Bytes
  size : Nat
  deriving DecidableEq, Repr

/-- The bytes the call hands over. -/
def Block.data (b : Block) : Bytes :=
  (b.ptr.getD []).take b.size

/-- The query: its block size and what its `onResponse` answers to the last of
the calls made so far. -/
structure HttpQuery where
  blockSize : Nat
  onResponse : List Block → Retval

/-- The pending bytes of the reader and the calls of `onResponse` made so far. -/
structure HttpChunked where
  chunkedBuffer : Bytes
  calls : List Block
  deriving DecidableEq, Repr

/-- `HttpConnection::onResponse`. -/
def HttpChunked.onResponse (st : HttpChunked) (q : HttpQuery) (ptr : Option Bytes) (size : Nat) :
    HttpChunked × Retval :=
  let calls := st.calls ++ [⟨ptr, size⟩]
  ({ st with calls }, q.onResponse calls)

def HttpChunked.onPending (st : HttpChunked) (q : HttpQuery) : HttpChunked × Retval :=
  st.onResponse q (toChars st.chunkedBuffer) st.chunkedBuffer.length

/-- The loop of `procChunkedBlocks`, with `mem` the memory at `buffer+offset`. -/
def procLoop (q : HttpQuery) : Nat → HttpChunked → Bytes → Nat → Bool → Option (HttpChunked × Retval)
  | 0, _, _, _, _ => none
  | fuel + 1, st, mem, size, isended =>
    let s_size := sizeSub q.blockSize st.chunkedBuffer.length
    if s_size > size then
      if isended then
        match st.onPending q with
        | (st, some e) => some (st, some e)
        | (st, none) =>
          match st.onResponse q none 0 with
          | (st, some e) => some (st, some e)
          | (st, none) => some ({ st with chunkedBuffer := [] }, none)
      else if size ≤ mem.length then
        some ({ st with chunkedBuffer := st.chunkedBuffer ++ mem.take size }, none)
      else none
    else if s_size ≤ mem.length then
      match ({ st with chunkedBuffer := st.chunkedBuffer ++ mem.take s_size } : HttpChunked).onPending q with
      | (st, some e) => some (st, some e)
      | (st, none) =>
        procLoop q fuel { st with chunkedBuffer := [] } (mem.drop s_size) (size - s_size) isended
    else none

/-- `HttpChunked::procChunkedBlocks`. A pass that does not end the loop takes
bytes from the memory, except the first one, so the memory bounds the passes. The
exception is block size 0 at the end of the body: the loop then calls
`onResponse(NULL, 0)` until the query refuses it, and here it is followed for two
such calls. `proc_ends_iff` is about all of them. -/
def procChunkedBlocks (q : HttpQuery) (st : HttpChunked) (buffer : Option Bytes) (size : Nat)
    (isended : Bool) : Option (HttpChunked × Retval) :=
  if q.blockSize = 0 ∧ isended = false then some (st.onResponse q buffer size)
  else procLoop q ((buffer.getD []).length + 2) st (buffer.getD []) size isended

/-- The loop of `parseChunkedBlocks`: `rest` are the `l_size` bytes at `buf`. It
answers where it stopped, and `NULL` or the value the function returns. A chunk
whose `savelen` wraps to 0 is handed over again and again. -/
def parseBlocksLoop (q : HttpQuery) (stale : Bytes) :
    Nat → HttpChunked → Bytes → Option (HttpChunked × Bytes × Retval)
  | 0, _, _ => none
  | fuel + 1, st, rest =>
    if rest = [] then some (st, rest, none)
    else
      match chunkHead (rest ++ stale) with
      | .more => some (st, rest, none)
      | .last =>
        match procChunkedBlocks q st none 0 true with
        | none => none
        | some (st, some e) => some (st, rest, some e)
        | some (st, none) => some (st, rest, retval .tChunkedEnd)
      | .bad => some (st, rest, retval .eHttpChunked)
      | .chunk len val =>
        if savelen len val > rest.length then some (st, rest, none)
        else
          match procChunkedBlocks q st (some ((rest ++ stale).drop len)) val false with
          | none => none
          | some (st, some e) => some (st, rest, some e)
          | some (st, none) => parseBlocksLoop q stale fuel st (rest.drop (savelen len val))

/-- What `parseChunkedBlocks` leaves: the array after its `memmove` and `*o_size`. -/
structure Parsed where
  chunked : HttpChunked
  data : Bytes
  stale : Bytes
  o_size : Nat
  ret : Retval
  deriving DecidableEq, Repr

/-- `HttpChunked::parseChunkedBlocks` on the array `data`, `stale`. Only when it
answers `NULL` it moves what is left to the front and sets `*o_size`. -/
def parseChunkedBlocks (q : HttpQuery) (st : HttpChunked) (data stale : Bytes) : Option Parsed :=
  match parseBlocksLoop q stale (data.length + 1) st data with
  | none => none
  | some (st, _, some e) => some ⟨st, data, stale, 0, some e⟩
  | some (st, rest, none) =>
    some ⟨st, rest, (data ++ stale).drop rest.length, data.length - rest.length, none⟩

def DFW_HTTPSOCKET_MAX_SIZE : Nat := 61440

/-- `DFW_HTTPSOCKET_MAX_SIZE2`, the size of the array. -/
def DFW_HTTPSOCKET_MAX_SIZE2 : Nat := 61472

/-- The state of `readBlocks` at the head of a pass: `data.length` is `offset`. -/
structure BlocksState where
  readerBuffer : Bytes
  sock : Socket
  chunked : HttpChunked
  data : Bytes
  stale : Bytes
  size : Nat
  deriving DecidableEq, Repr

/-- The result of `readBlocks`: the state it leaves behind and its value. -/
abbrev BlocksResult := Option (BlocksState × Retval)

def BlocksState.store (s : BlocksState) (r : Bytes) : BlocksState :=
  { s with data := s.data ++ r, stale := s.stale.drop r.length }

def BlocksState.parsed (s : BlocksState) (p : Parsed) : BlocksState :=
  { s with chunked := p.chunked, data := p.data, stale := p.stale }

/-- One pass of the loop over `m_sReaderBuffer`. -/
def fillRound (q : HttpQuery) (s : BlocksState) : Round BlocksState BlocksResult :=
  let r_size := min s.size s.readerBuffer.length
  let s' := { s.store (s.readerBuffer.take r_size) with
    readerBuffer := s.readerBuffer.drop r_size }
  if s'.data.length > DFW_HTTPSOCKET_MAX_SIZE2 then .done none
  else
    match parseChunkedBlocks q s'.chunked s'.data s'.stale with
    | none => .done none
    | some p =>
      if p.ret.isSome then .done (some (s'.parsed p, p.ret))
      else .next { s'.parsed p with size := sizeSub DFW_HTTPSOCKET_MAX_SIZE p.data.length }

/-- One pass of the loop that calls `recv`. The last assignment subtracts
`o_size` where the first loop subtracts `offset`. -/
def recvRound (q : HttpQuery) (s : BlocksState) : Round BlocksState BlocksResult :=
  match waitRecv s.sock with
  | (some e, sock) => .done (some ({ s with sock }, some e))
  | (none, sock) =>
    let (r, ret, sock) := recvRaw s.size sock
    let status := ret.map Ret.value
    if ret.isSome ∧ status ≠ some .eAgain ∧ status ≠ some .eDisconnect then
      .done (some ({ s with sock }, ret))
    else if r = [] ∧ status = some .eAgain then .next { s with sock }
    else
      let s' := { s.store r with sock }
      if s'.data.length > DFW_HTTPSOCKET_MAX_SIZE2 then .done none
      else
        match parseChunkedBlocks q s'.chunked s'.data s'.stale with
        | none => .done none
        | some p =>
          if p.ret.isSome then .done (some (s'.parsed p, p.ret))
          else if status = some .eDisconnect then .done (some (s'.parsed p, ret))
          else .next { s'.parsed p with size := sizeSub DFW_HTTPSOCKET_MAX_SIZE p.o_size }

/-- One pass of `HttpChunked::readBlocks`. -/
def readBlocksRound (q : HttpQuery) (s : BlocksState) : Round BlocksState BlocksResult :=
  if s.readerBuffer ≠ [] then fillRound q s else recvRound q s

/-- The state in which `HttpChunked::readBlocks` starts its first loop, with
`stack` what the array holds before anything is stored in it. -/
def readBlocksInit (readerBuffer : Bytes) (sock : Socket) (stack : Bytes) : BlocksState :=
  { readerBuffer, sock, chunked := ⟨[], []⟩, data := [], stale := stack,
    size := DFW_HTTPSOCKET_MAX_SIZE }

/-- `HttpChunked::readBlocks` ends with the result `r`. -/
def ReadBlocks (q : HttpQuery) (readerBuffer : Bytes) (sock : Socket) (stack : Bytes)
    (r : BlocksResult) : Prop :=
  Returns (readBlocksRound q) (readBlocksInit readerBuffer sock stack) r

/-! ## The first loop as storing and parsing -/

/-- A pass of `readBlocks` behind the storing of its bytes; the two loops differ
in the size they set. -/
def parsePass (q : HttpQuery) (s : BlocksState) (nextSize : Parsed → Nat) :
    Round BlocksState BlocksResult :=
  if s.data.length > DFW_HTTPSOCKET_MAX_SIZE2 then .done none
  else
    match parseChunkedBlocks q s.chunked s.data s.stale with
    | none => .done none
    | some p =>
      if p.ret.isSome then .done (some (s.parsed p, p.ret))
      else .next { s.parsed p with size := nextSize p }

theorem fillRound_eq (q : HttpQuery) (s : BlocksState) : fillRound q s =
    parsePass q { s.store (s.readerBuffer.take s.size) with
      readerBuffer := s.readerBuffer.drop s.size }
      (fun p => sizeSub DFW_HTTPSOCKET_MAX_SIZE p.data.length) := by
  have htake : s.readerBuffer.take (min s.size s.readerBuffer.length) =
      s.readerBuffer.take s.size := by
    rcases le_total s.size s.readerBuffer.length with h | h
    · rw [min_eq_left h]
    · rw [min_eq_right h, List.take_length, List.take_of_length_le h]
  have hdrop : s.readerBuffer.drop (min s.size s.readerBuffer.length) =
      s.readerBuffer.drop s.size := by
    rcases le_total s.size s.readerBuffer.length with h | h
    · rw [min_eq_left h]
    · rw [min_eq_right h, List.drop_length, List.drop_of_length_le h]
  simp only [fillRound, parsePass, htake, hdrop]

/-! ## What the parses keep along a run -/

section
variable {q : HttpQuery} {I J : HttpChunked → Prop}

/-- A parse keeps `I` when it goes on, and gives `J` when it reports the end. -/
def ParseKeeps (q : HttpQuery) (I J : HttpChunked → Prop) : Prop :=
  ∀ st data stale p, I st → parseChunkedBlocks q st data stale = some p →
    (p.ret = retval .tChunkedEnd → J p.chunked) ∧ (p.ret = none → I p.chunked)

/-- A pass of `readBlocks` keeps `I`, and when it reports the end the parse has
given `J`: no other way out of the loops has this value. -/
theorem readBlocksRound_keeps (hparse : ParseKeeps q I J) {s : BlocksState} (h : I s.chunked) :
    (∀ s', readBlocksRound q s = .next s' → I s'.chunked) ∧
    ∀ s', readBlocksRound q s = .done (some (s', retval .tChunkedEnd)) → J s'.chunked := by
  unfold readBlocksRound
  split
  · rw [fillRound_eq]
    unfold parsePass
    split
    · exact ⟨by simp, by simp⟩
    · split
      · exact ⟨by simp, by simp⟩
      next p hp =>
        obtain ⟨hJ, hI⟩ := hparse _ _ _ _ h hp
        split
        · refine ⟨by simp, ?_⟩
          rintro s' he
          simp only [Round.done.injEq, Option.some.injEq, Prod.mk.injEq] at he
          exact he.1 ▸ hJ he.2
        next hret =>
          refine ⟨?_, by simp⟩
          rintro s' ⟨⟩
          exact hI (Option.not_isSome_iff_eq_none.mp hret)
  · unfold recvRound
    rcases hw : waitRecv s.sock with ⟨wait, sock⟩
    have hwait := waitRecv_ne_chunkedEnd s.sock
    rw [hw] at hwait
    cases wait with
    | some e =>
      refine ⟨by simp, fun s' he => absurd ?_ hwait⟩
      simp only [Round.done.injEq, Option.some.injEq, Prod.mk.injEq] at he
      exact he.2
    | none =>
      have hrecv := recvRaw_ne_chunkedEnd s.size sock
      rcases hr : recvRaw s.size sock with ⟨r, ret, sock'⟩
      rw [hr] at hrecv
      simp only [hr]
      split
      · refine ⟨by simp, fun s' he => absurd ?_ hrecv⟩
        simp only [Round.done.injEq, Option.some.injEq, Prod.mk.injEq] at he
        exact he.2
      · split
        · refine ⟨?_, by simp⟩
          rintro s' ⟨⟩
          exact h
        · split
          · exact ⟨by simp, by simp⟩
          · split
            · exact ⟨by simp, by simp⟩
            next p hp =>
              obtain ⟨hJ, hI⟩ := hparse _ _ _ _ h hp
              split
              · refine ⟨by simp, fun s' he => ?_⟩
                simp only [Round.done.injEq, Option.some.injEq, Prod.mk.injEq] at he
                exact he.1 ▸ hJ he.2
              next hret =>
                split
                · refine ⟨by simp, fun s' he => absurd ?_ hrecv⟩
                  simp only [Round.done.injEq, Option.some.injEq, Prod.mk.injEq] at he
                  exact he.2
                · refine ⟨?_, by simp⟩
                  rintro s' ⟨⟩
                  exact hI (Option.not_isSome_iff_eq_none.mp hret)

/-- A run that reports the end of the body, for any bytes of the server. -/
theorem ReadBlocks.ended_inv (hparse : ParseKeeps q I J) {reader stack : Bytes} {sock : Socket}
    {s : BlocksState} (h0 : I ⟨[], []⟩)
    (h : ReadBlocks q reader sock stack (some (s, retval .tChunkedEnd))) : J s.chunked := by
  refine h.induct (P := fun t => I t.chunked → J s.chunked) ?_ ?_ h0
  · exact fun t ht hI => (readBlocksRound_keeps hparse hI).2 s ht
  · exact fun t t' ht _ ih hI => ih ((readBlocksRound_keeps hparse hI).1 t' ht)

end

end Dframework
