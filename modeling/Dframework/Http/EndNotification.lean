import Mathlib
import Dframework.Http.BlocksParse
import Dframework.Http.LengthReader

/-!
# How the two readers announce the end of a body

`HttpChunked::procChunkedBlocks` ends a body with two calls of `onResponse`, the
pending bytes and `(NULL, 0)`; `IHttpReader::procBlocks` ends it with one, the
pending bytes. A full block is at least of the block size in both readers, and
the pending bytes of a chunked body are fewer, so the calls are never the same.

Results, for any bytes from the server:
1. `ended_of_readBlocks`: the calls of a chunked body that has ended.
2. `ended_of_readLength`: the calls of a body with `Content-Length` that has ended.
3. `calls_never_same`, and the calls for one payload in `calls_differ_hello`.
-/

namespace Dframework

open CLib Loop

/-! ## Chunked bodies -/

namespace EndNotificationLemmas

variable {B : Nat}

/-- The pending bytes stay below a block. -/
theorem procLoop_pending {fuel size : Nat} {mem : Bytes} {st st' : HttpChunked} {ret : Retval}
    (h : st.chunkedBuffer.length < B)
    (hrun : procLoop (.accepting B) fuel st mem size false = some (st', ret)) :
    ret = none ∧ st'.chunkedBuffer.length < B := by
  induction fuel generalizing st mem size with
  | zero => cases hrun
  | succ fuel ih =>
    have hsub : sizeSub B st.chunkedBuffer.length = B - st.chunkedBuffer.length :=
      sizeSub_of_le h.le
    simp only [procLoop, HttpQuery.accepting, hsub, HttpChunked.onPending,
      HttpChunked.onResponse, Bool.false_eq_true, ↓reduceIte] at hrun
    split at hrun
    next hgt =>
      split at hrun
      next =>
        cases hrun
        refine ⟨rfl, ?_⟩
        simp only [List.length_append, List.length_take]
        omega
      next => cases hrun
    next =>
      split at hrun
      next => exact ih (by simpa using Nat.zero_lt_of_lt h) hrun
      next => cases hrun

theorem procChunkedBlocks_pending {size : Nat} {mem : Bytes} {st st' : HttpChunked} {ret : Retval}
    (h : st.chunkedBuffer.length < B)
    (hrun : procChunkedBlocks (.accepting B) st (some mem) size false = some (st', ret)) :
    ret = none ∧ st'.chunkedBuffer.length < B := by
  have hB : B ≠ 0 := (Nat.zero_lt_of_lt h).ne'
  rw [procChunkedBlocks, if_neg (by simp [HttpQuery.accepting, hB])] at hrun
  exact procLoop_pending h hrun

theorem parseBlocksLoop_pending {stale : Bytes} {fuel : Nat} {st st' : HttpChunked}
    {rest rest' : Bytes} {ret : Retval} (h : st.chunkedBuffer.length < B)
    (hrun : parseBlocksLoop (.accepting B) stale fuel st rest = some (st', rest', ret)) :
    (ret = retval .tChunkedEnd → ∃ st₀ : HttpChunked, st₀.chunkedBuffer.length < B ∧
      st' = st₀.ended) ∧ (ret = none → st'.chunkedBuffer.length < B) := by
  induction fuel generalizing st rest with
  | zero => cases hrun
  | succ fuel ih =>
    rw [parseBlocksLoop] at hrun
    split at hrun
    next =>
      cases hrun
      exact ⟨by simp [retval], fun _ => h⟩
    next =>
      cases hc : chunkHead (rest ++ stale) with
      | more =>
        rw [hc] at hrun
        cases hrun
        exact ⟨by simp [retval], fun _ => h⟩
      | last =>
        simp only [hc, procChunkedBlocks_end h] at hrun
        cases hrun
        exact ⟨fun _ => ⟨st, h, rfl⟩, by simp⟩
      | bad =>
        rw [hc] at hrun
        cases hrun
        exact ⟨by simp, by simp⟩
      | chunk len val =>
        simp only [hc] at hrun
        split at hrun
        next =>
          cases hrun
          exact ⟨by simp [retval], fun _ => h⟩
        next =>
          cases hp : procChunkedBlocks (.accepting B) st (some ((rest ++ stale).drop len)) val
              false with
          | none => simp [hp] at hrun
          | some res =>
            obtain ⟨st₁, ret₁⟩ := res
            obtain ⟨rfl, h₁⟩ := procChunkedBlocks_pending h hp
            simp only [hp] at hrun
            exact ih h₁ hrun

theorem parseKeeps_pending : ParseKeeps (.accepting B) (fun st => st.chunkedBuffer.length < B)
    (fun st => ∃ st₀ : HttpChunked, st₀.chunkedBuffer.length < B ∧ st = st₀.ended) := by
  intro st data stale p h hp
  unfold parseChunkedBlocks at hp
  split at hp
  next => cases hp
  next heq =>
    cases hp
    exact ⟨(parseBlocksLoop_pending h heq).1, by simp⟩
  next heq =>
    cases hp
    exact ⟨by simp [retval], (parseBlocksLoop_pending h heq).2⟩

end EndNotificationLemmas

open EndNotificationLemmas

/-- The calls of a chunked body that has ended: at the end the pending bytes, fewer
than a block, and `(NULL, 0)`. -/
theorem ended_of_readBlocks {B : Nat} (hB : 0 < B) {reader stack : Bytes} {sock : Socket}
    {s : BlocksState}
    (h : ReadBlocks (.accepting B) reader sock stack (some (s, retval .tChunkedEnd))) :
    ∃ cs p, p.length < B ∧
      s.chunked.calls = cs ++ [⟨toChars p, p.length⟩, ⟨none, 0⟩] := by
  obtain ⟨st, hst, heq⟩ := ReadBlocks.ended_inv parseKeeps_pending hB h
  exact ⟨st.calls, st.chunkedBuffer, hst, heq ▸ rfl⟩

/-! ## Bodies with `Content-Length` -/

/-- Every call so far has handed over at least a block. -/
def LengthState.Full (B : Nat) (st : LengthState) : Prop :=
  ∀ b ∈ st.calls, B ≤ b.size

/-- The body has ended: every call but the last has handed over at least a block. -/
def LengthState.Ended (B : Nat) (st : LengthState) : Prop :=
  ∃ cs last, (∀ b ∈ cs, B ≤ b.size) ∧ st.calls = cs ++ [last]

namespace EndNotificationLemmas

variable {B : Nat}

/-- A block that is handed over before the end has the block size, or more when
the pending bytes were more than a block already. -/
theorem le_block_length {pending mem : Bytes} (h : sizeSub B pending.length ≤ mem.length) :
    B ≤ (pending ++ mem.take (sizeSub B pending.length)).length := by
  rw [List.length_append, List.length_take, Nat.min_eq_left h]
  unfold sizeSub
  split <;> omega

theorem full_push {st : LengthState} (h : st.Full B) {b : Block} (hb : B ≤ b.size)
    (rest : Bytes) : ({ st with readerBuffer := rest, calls := st.calls ++ [b] } : LengthState).Full B := by
  intro c hc
  rcases List.mem_append.mp hc with hc | hc
  · exact h c hc
  · exact List.mem_singleton.mp hc ▸ hb

theorem procBlocksLoop_full {q : HttpQuery} {fuel size : Nat} {mem : Bytes}
    {st st' : LengthState} {ret : Retval} {isended : Bool} (hq : ∀ cs, q.onResponse cs = none)
    (h : st.Full q.blockSize)
    (hrun : procBlocksLoop q fuel st mem size isended = some (st', ret)) :
    ret = none ∧ if isended then st'.Ended q.blockSize else st'.Full q.blockSize := by
  induction fuel generalizing st mem size with
  | zero => cases hrun
  | succ fuel ih =>
    simp only [procBlocksLoop, LengthState.onPending, LengthState.onResponse, hq] at hrun
    by_cases hgt : sizeSub q.blockSize st.readerBuffer.length > size
    · rw [if_pos hgt] at hrun
      cases isended with
      | true =>
        cases hrun
        exact ⟨rfl, st.calls, _, h, rfl⟩
      | false =>
        rw [if_neg (by simp)] at hrun
        split at hrun
        next =>
          cases hrun
          exact ⟨rfl, h⟩
        next => cases hrun
    · rw [if_neg hgt] at hrun
      split at hrun
      next hle => exact ih (full_push h (le_block_length hle) []) hrun
      next => cases hrun

theorem procBlocks_full {size : Nat} {mem : Bytes} {st st' : LengthState} {ret : Retval}
    (hB : 0 < B) (h : st.Full B)
    (hrun : procBlocks (.accepting B) st (some mem) size false = some (st', ret)) :
    ret = none ∧ st'.Full B := by
  rw [procBlocks, if_neg (by simpa [HttpQuery.accepting] using hB.ne')] at hrun
  have hst : ({ st with recvContentLength := st.recvContentLength + size } : LengthState).Full B := h
  exact procBlocksLoop_full (fun _ => rfl) hst hrun

/-- `readLastBlocks` either ends the body or changes nothing. -/
theorem readLastBlocks_full {st st' : LengthState} {ret : Retval} (hB : 0 < B) (h : st.Full B)
    (hrun : readLastBlocks (.accepting B) st = some (st', ret)) :
    (ret = none ∧ st'.Ended B) ∨ (ret ≠ none ∧ st' = st) := by
  unfold readLastBlocks at hrun
  split at hrun
  next =>
    rw [procBlocks, if_neg (by simpa [HttpQuery.accepting] using hB.ne')] at hrun
    have hst : ({ st with recvContentLength := st.recvContentLength + 0 } : LengthState).Full B := h
    exact .inl (procBlocksLoop_full (fun _ => rfl) hst hrun)
  next =>
    cases hrun
    exact .inr ⟨by simp, rfl⟩

theorem readLengthRound_full {st : LengthState} (hB : 0 < B) (h : st.Full B) :
    (∀ st', readLengthRound (.accepting B) st = .next st' → st'.Full B) ∧
    ∀ st', readLengthRound (.accepting B) st = .done (some (st', none)) → st'.Ended B := by
  have hlast : ∀ {s s' : LengthState} {ret : Retval}, s.Full B →
      readLastBlocks (.accepting B) s = some (s', ret) →
      (ret = none → s'.Ended B) ∧ (ret ≠ none → s'.Full B) := by
    intro s s' ret hs hrun
    rcases readLastBlocks_full hB hs hrun with ⟨rfl, he⟩ | ⟨hne, rfl⟩
    · exact ⟨fun _ => he, fun hne => absurd rfl hne⟩
    · exact ⟨fun he => absurd he hne, fun _ => hs⟩
  unfold readLengthRound
  rcases hw : waitRecv st.sock with ⟨wait, sock⟩
  cases wait with
  | some e => exact ⟨by simp, by simp⟩
  | none =>
    rcases hr : recvRaw DFW_HTTPSOCKET_MAX_SIZE sock with ⟨r, ret, sock'⟩
    have hst : ({ st with sock := sock' } : LengthState).Full B := h
    simp only [hr]
    split
    · refine ⟨by simp, fun st' he => ?_⟩
      exact (hlast hst (Round.done.inj he)).1 rfl
    · split
      · split
        · exact ⟨by simp, by simp⟩
        next heq =>
          refine ⟨by simp, ?_⟩
          rintro st' ⟨⟩
          exact (hlast hst heq).1 rfl
        next heq =>
          refine ⟨?_, by simp⟩
          rintro st' ⟨⟩
          exact (hlast hst heq).2 (by simp)
      · split
        · split
          · exact ⟨by simp, by simp⟩
          · exact ⟨by simp, by simp⟩
          next hproc =>
            have hfull := (procBlocks_full hB hst hproc).2
            split
            · exact ⟨by simp, by simp⟩
            next heq =>
              refine ⟨by simp, ?_⟩
              rintro st' ⟨⟩
              exact (hlast hfull heq).1 rfl
            next heq =>
              split
              · exact ⟨by simp, by simp⟩
              · refine ⟨?_, by simp⟩
                rintro st' ⟨⟩
                exact (hlast hfull heq).2 (by simp)
        · split
          next hstatus =>
            refine ⟨by simp, fun st' he => ?_⟩
            simp only [Round.done.injEq, Option.some.injEq, Prod.mk.injEq] at he
            rw [he.2] at hstatus
            cases hstatus
          next =>
            refine ⟨?_, by simp⟩
            rintro st' ⟨⟩
            exact hst

end EndNotificationLemmas

/-- The calls of a body with `Content-Length` that has ended: there is one behind
those that hand over at least a block. -/
theorem ended_of_readLength {B : Nat} (hB : 0 < B) {st st' : LengthState} (h0 : st.calls = [])
    (h : ReadLength (.accepting B) st (some (st', none))) : st'.Ended B := by
  have hfull : st.Full B := by
    intro b hb
    rw [h0] at hb
    cases hb
  unfold ReadLength at h
  split at h
  next => cases h
  next heq =>
    cases h
    rcases readLastBlocks_full hB hfull heq with ⟨-, he⟩ | ⟨hne, -⟩
    · exact he
    · exact absurd rfl hne
  next heq =>
    rcases readLastBlocks_full hB hfull heq with ⟨hn, -⟩ | ⟨-, rfl⟩
    · cases hn
    · refine h.induct (P := fun t => t.Full B → st'.Ended B) ?_ ?_ hfull
      · exact fun t ht hI => (readLengthRound_full hB hI).2 st' ht
      · exact fun t t' ht _ ih hI => ih ((readLengthRound_full hB hI).1 t' ht)

/-! ## The calls are never the same -/

/-- Whatever a server sends in the two forms, the two readers do not make the same
calls: only the chunked one has a short block before its last call. -/
theorem calls_never_same {B : Nat} (hB : 0 < B) (reader stack : Bytes) (sock : Socket)
    (recvBuffer : Bytes) (contentLength : Nat) (sock' : Socket) :
    ¬ ∃ calls,
      (∃ s, ReadBlocks (.accepting B) reader sock stack (some (s, retval .tChunkedEnd)) ∧
        s.chunked.calls = calls) ∧
      ∃ st, ReadLength (.accepting B) (lengthInit recvBuffer contentLength sock')
        (some (st, none)) ∧ st.calls = calls := by
  rintro ⟨calls, ⟨s, hs, rfl⟩, st, hst, heq⟩
  obtain ⟨cs, p, hp, hcalls⟩ := ended_of_readBlocks hB hs
  obtain ⟨ds, last, hfull, hends⟩ := ended_of_readLength hB rfl hst
  rw [hcalls, hends] at heq
  have hsplit : ds = cs ++ [⟨toChars p, p.length⟩] := by
    have hcons : cs ++ [⟨toChars p, p.length⟩, ⟨none, 0⟩] =
        (cs ++ [⟨toChars p, p.length⟩]) ++ [(⟨none, 0⟩ : Block)] := by simp
    rw [hcons] at heq
    exact (List.append_inj' heq rfl).1
  have := hfull ⟨toChars p, p.length⟩ (by simp [hsplit])
  exact absurd hp (not_lt.mpr this)

/-- The five bytes `hello` in blocks of four. -/
theorem calls_never_same_hello :
    ¬ ∃ calls,
      (∃ s, ReadBlocks (.accepting 4) [] (segments [bytes "5\r\nhello\r\n0\r\n\r\n"]) []
        (some (s, retval .tChunkedEnd)) ∧ s.chunked.calls = calls) ∧
      ∃ st, ReadLength (.accepting 4) (lengthInit [] 5 (segments [bytes "hello"])) (some (st, none)) ∧
        st.calls = calls :=
  calls_never_same (by decide) [] [] _ [] 5 _

/-- Both readers end well; the calls for the chunked body are `hell`, `o`, `(NULL, 0)`, those for
the other one `hell`, `o`. -/
theorem calls_differ_hello :
    ∃ s st,
      ReadBlocks (.accepting 4) [] (segments [bytes "5\r\nhello\r\n0\r\n\r\n"]) []
        (some (s, retval .tChunkedEnd)) ∧
      ReadLength (.accepting 4) (lengthInit [] 5 (segments [bytes "hello"])) (some (st, none)) ∧
      s.chunked.calls = st.calls ++ [⟨none, 0⟩] ∧
      st.calls = [.full (bytes "hell"), .full (bytes "o")] := by
  have hchunked : run (readBlocksRound (.accepting 4)) 1
      (readBlocksInit [] (segments [bytes "5\r\nhello\r\n0\r\n\r\n"]) []) =
      some (some ({ readBlocksInit [] [] [] with
        chunked := ⟨[], [.full (bytes "hell"), .full (bytes "o"), ⟨none, 0⟩]⟩
        data := bytes "5\r\nhello\r\n0\r\n\r\n" }, retval .tChunkedEnd)) := by
    rfl
  have hlength : run (readLengthRound (.accepting 4)) 1
      (lengthInit [] 5 (segments [bytes "hello"])) =
      some (some ({ lengthInit [] 5 [] with
        recvContentLength := 5
        calls := [.full (bytes "hell"), .full (bytes "o")] }, none)) := by
    rfl
  exact ⟨_, _, ⟨1, hchunked⟩, ⟨1, hlength⟩, rfl, rfl⟩

end Dframework
