import Mathlib
import Dframework.Http.BlocksLoop

/-!
# One parse of `readBlocks` on a well-formed body

For a query that accepts every block of a positive size, `procChunkedBlocks`
cuts the payload into full blocks and keeps the rest (`Filled`), and a parse of
what has arrived of a body takes the complete chunks and ends with the verdict on
the incomplete one.

Results:
1. `procChunkedBlocks_payload`, `procChunkedBlocks_end`: payload is neither lost
   nor duplicated, and the end hands over the rest and `(NULL, 0)`.
2. `parseChunkedBlocks_received`: what a parse leaves and what it answers.
3. `parseChunkedBlocks_zero`: with block size 0 the end of the body is
   never reported.
-/

namespace Dframework

open CLib

/-! ## `procChunkedBlocks` -/

/-- The payload of a chunk is taken. -/
theorem procChunkedBlocks_payload {B : Nat} {p mem : Bytes} {st : HttpChunked} {size : Nat}
    (h : Filled B p st) (hmem : size ≤ mem.length) :
    ∃ st', procChunkedBlocks (.accepting B) st (some mem) size false = some (st', none) ∧
      Filled B (p ++ mem.take size) st' := by
  have h' : Filled (HttpQuery.accepting B).blockSize p st := h
  obtain ⟨st', _ | e, hrun, htaken⟩ := procChunkedBlocks_taken h' hmem
  · exact ⟨st', hrun, htaken⟩
  · cases htaken.1

/-- The end of the body hands over the rest, `NULL` when there is none, and then
the end notification. -/
theorem procChunkedBlocks_end {B : Nat} {st : HttpChunked} (hlt : st.chunkedBuffer.length < B) :
    procChunkedBlocks (.accepting B) st none 0 true = some (st.ended, none) := by
  have hlt' : st.chunkedBuffer.length < (HttpQuery.accepting B).blockSize := hlt
  rw [procChunkedBlocks, if_neg (by simp), procLoop_eq_run, Loop.run,
    procRound_last _ hlt' (Nat.sub_pos_of_lt hlt)]
  rfl

/-! ## `parseChunkedBlocks` -/

theorem verdict_cases {held : Bytes} (stale : Bytes) (hne : held ≠ []) :
    (chunkHead (held ++ stale) = .bad ∧ verdict held stale = .bad) ∨
    (chunkHead (held ++ stale) = .last ∧ verdict held stale = .last) ∨
    (verdict held stale = .wait ∧ (chunkHead (held ++ stale) = .more ∨
      ∃ len val, chunkHead (held ++ stale) = .chunk len val)) := by
  rw [verdict, if_neg hne]
  cases chunkHead (held ++ stale) <;> simp

/-- The loop at an incomplete chunk: it stops, and the head decides how. -/
theorem parseBlocksLoop_settled {B zeros n : Nat} {p : Bytes} {cs : List Chunk}
    {st : HttpChunked} (fuel : Nat) (stale : Bytes) (h : Filled B p st) (hz : 0 < zeros)
    (hs : settle cs n = ([], cs, n)) :
    parseBlocksLoop (.accepting B) stale (fuel + 1) st (received cs zeros n) =
      match verdict (received cs zeros n) stale with
      | .wait => some (st, received cs zeros n, none)
      | .bad => some (st, received cs zeros n, retval .eHttpChunked)
      | .last => some (st.ended, received cs zeros n, retval .tChunkedEnd) := by
  rw [parseBlocksLoop]
  by_cases hne : received cs zeros n = []
  · simp [hne, verdict]
  · rw [if_neg hne]
    rcases verdict_cases stale hne with
      ⟨hc, hv⟩ | ⟨hc, hv⟩ | ⟨hv, hc | ⟨len, val, hc⟩⟩
    · simp only [hc, hv]
    · simp only [hc, hv, procChunkedBlocks_end h.pending_lt]
    · simp only [hc, hv]
    · simp only [hc, hv, if_pos (lt_savelen_of_settled hz hs hne hc)]

/-- The loop at a complete chunk: it takes the payload and goes on behind it. -/
theorem parseBlocksLoop_chunk {B : Nat} {p : Bytes} {c : Chunk} {st : HttpChunked}
    (fuel : Nat) (stale t : Bytes) (h : Filled B p st) (hline : c.line.length ≤ 4) :
    ∃ st', Filled B (p ++ c.payload) st' ∧
      parseBlocksLoop (.accepting B) stale (fuel + 1) st (c.enc ++ t) =
        parseBlocksLoop (.accepting B) stale fuel st' t := by
  obtain ⟨st', hproc, hfilled⟩ := procChunkedBlocks_payload h
    (show c.payload.length ≤ (c.payload ++ (CRLF ++ (t ++ stale))).length by simp)
  refine ⟨st', by simpa using hfilled, ?_⟩
  rw [parseBlocksLoop, if_neg (c.enc_append_ne_nil t), List.append_assoc, chunkHead_enc,
    if_pos hline]
  simp only [savelen_enc hline, Chunk.enc_drop, hproc]
  rw [if_neg (by simp), List.drop_left]

theorem parseBlocksLoop_long {B fuel : Nat} {t stale : Bytes} {c : Chunk} {st : HttpChunked}
    (hline : 4 < c.line.length) :
    parseBlocksLoop (.accepting B) stale (fuel + 1) st (c.enc ++ t) =
      some (st, c.enc ++ t, retval .eHttpChunked) := by
  rw [parseBlocksLoop, if_neg (c.enc_append_ne_nil t), List.append_assoc, chunkHead_enc,
    if_neg (by omega)]

/-- The loop on the first `n` bytes of a body. -/
theorem parseBlocksLoop_received {B zeros n fuel : Nat} {p : Bytes} {st : HttpChunked}
    (cs : List Chunk) (stale : Bytes) (h : Filled B p st) (hz : 0 < zeros) (hfuel : n < fuel) :
    match parseVerdict cs zeros n stale with
    | .wait => ∃ st', Filled B (p ++ payloads (settle cs n).1) st' ∧
        parseBlocksLoop (.accepting B) stale fuel st (received cs zeros n) =
          some (st', received (settle cs n).2.1 zeros (settle cs n).2.2, none)
    | .bad => ∃ st' rest, parseBlocksLoop (.accepting B) stale fuel st (received cs zeros n) =
        some (st', rest, retval .eHttpChunked)
    | .last => ∃ st', Filled B (p ++ payloads (settle cs n).1) st' ∧
        parseBlocksLoop (.accepting B) stale fuel st (received cs zeros n) =
          some (st'.ended, received (settle cs n).2.1 zeros (settle cs n).2.2,
            retval .tChunkedEnd) := by
  induction cs generalizing n fuel st p with
  | nil =>
    obtain ⟨fuel, rfl⟩ : ∃ k, fuel = k + 1 := ⟨fuel - 1, by omega⟩
    have hs : settle [] n = ([], [], n) := rfl
    have hrun := parseBlocksLoop_settled fuel stale h hz hs
    simp only [parseVerdict, hs, List.all_nil, ↓reduceIte, payloads_nil, List.append_nil] at hrun ⊢
    cases hv : verdict (received [] zeros n) stale <;> simp only [hv] at hrun ⊢
    · exact ⟨st, h, hrun⟩
    · exact ⟨_, _, hrun⟩
    · exact ⟨st, h, hrun⟩
  | cons c cs ih =>
    obtain ⟨fuel, rfl⟩ : ∃ k, fuel = k + 1 := ⟨fuel - 1, by omega⟩
    by_cases hn : c.enc.length ≤ n
    · have hlen := c.enc_length
      rw [received_cons_of_le hn]
      by_cases hline : c.line.length ≤ 4
      · obtain ⟨st₁, hfilled, hstep⟩ :=
          parseBlocksLoop_chunk fuel stale (received cs zeros (n - c.enc.length)) h hline
        have := ih (n := n - c.enc.length) hfilled (show n - c.enc.length < fuel by omega)
        have hverdict : parseVerdict (c :: cs) zeros n stale =
            parseVerdict cs zeros (n - c.enc.length) stale := by
          simp [parseVerdict, settle_cons_of_le hn, hline]
        simpa only [hverdict, hstep, settle_cons_of_le hn, payloads_cons, List.append_assoc]
          using this
      · have hverdict : parseVerdict (c :: cs) zeros n stale = .bad := by
          simp [parseVerdict, settle_cons_of_le hn, hline]
        simp only [hverdict]
        exact ⟨st, _, parseBlocksLoop_long (by omega)⟩
    · have hs := settle_cons_of_lt cs (show n < c.enc.length by omega)
      have hrun := parseBlocksLoop_settled fuel stale h hz hs
      simp only [parseVerdict, hs, List.all_nil, ↓reduceIte, payloads_nil,
        List.append_nil] at hrun ⊢
      cases hv : verdict (received (c :: cs) zeros n) stale <;> simp only [hv] at hrun ⊢
      · exact ⟨st, h, hrun⟩
      · exact ⟨_, _, hrun⟩
      · exact ⟨st, h, hrun⟩

/-- A parse of the first `n` bytes of a body: it takes the complete chunks, and
when it waits it moves the others to the front. -/
theorem parseChunkedBlocks_received {B zeros n : Nat} {p : Bytes} {cs : List Chunk}
    {st : HttpChunked} (stale : Bytes) (h : Filled B p st) (hz : 0 < zeros)
    (hn : (received cs zeros n).length = n) :
    match parseVerdict cs zeros n stale with
    | .wait => ∃ st', Filled B (p ++ payloads (settle cs n).1) st' ∧
        parseChunkedBlocks (.accepting B) st (received cs zeros n) stale =
          some ⟨st', received (settle cs n).2.1 zeros (settle cs n).2.2,
            (received cs zeros n ++ stale).drop (settle cs n).2.2, n - (settle cs n).2.2, none⟩
    | .bad => ∃ r, parseChunkedBlocks (.accepting B) st (received cs zeros n) stale = some r ∧
        r.ret = retval .eHttpChunked
    | .last => ∃ r, parseChunkedBlocks (.accepting B) st (received cs zeros n) stale = some r ∧
        r.ret = retval .tChunkedEnd ∧ ∃ st', Filled B (p ++ payloads (settle cs n).1) st' ∧
          r.chunked = st'.ended := by
  have hleft := received_settle_length hn
  have hrun := parseBlocksLoop_received cs stale h hz (Nat.lt_succ_self n)
  rw [parseChunkedBlocks, hn]
  cases hv : parseVerdict cs zeros n stale <;> simp only [hv] at hrun ⊢
  · obtain ⟨st', hfilled, hrun⟩ := hrun
    exact ⟨st', hfilled, by rw [hrun]; simp only [hleft]⟩
  · obtain ⟨st', rest, hrun⟩ := hrun
    exact ⟨_, by rw [hrun]; rfl, rfl⟩
  · obtain ⟨st', hfilled, hrun⟩ := hrun
    exact ⟨_, by rw [hrun]; rfl, rfl, st', hfilled, rfl⟩

/-! ## Block size 0 -/

/-- With block size 0 the loop of `procChunkedBlocks` is not left at the end of
the body. -/
theorem procLoop_zero {fuel : Nat} {mem : Bytes} {st : HttpChunked} (h : st.chunkedBuffer = []) :
    procLoop (.accepting 0) fuel st mem 0 true = none := by
  induction fuel generalizing st mem with
  | zero => rfl
  | succ fuel ih =>
    simp only [procLoop, HttpQuery.accepting, h, List.length_nil, sizeSub_of_le (Nat.le_refl 0),
      gt_iff_lt, lt_self_iff_false, ↓reduceIte, HttpChunked.onPending, HttpChunked.onResponse]
    exact ih rfl

theorem parseBlocksLoop_zero {stale : Bytes} {fuel : Nat} {st st' : HttpChunked}
    {rest rest' : Bytes} {ret : Retval} (h : st.chunkedBuffer = [])
    (hrun : parseBlocksLoop (.accepting 0) stale fuel st rest = some (st', rest', ret)) :
    ret ≠ retval .tChunkedEnd ∧ st'.chunkedBuffer = [] := by
  induction fuel generalizing st rest with
  | zero => cases hrun
  | succ fuel ih =>
    rw [parseBlocksLoop] at hrun
    split at hrun
    · cases hrun
      exact ⟨by simp [retval], h⟩
    · cases hc : chunkHead (rest ++ stale) with
      | more =>
        rw [hc] at hrun
        cases hrun
        exact ⟨by simp [retval], h⟩
      | last =>
        have hproc : procChunkedBlocks (.accepting 0) st none 0 true = none := by
          rw [procChunkedBlocks, if_neg (by simp)]
          exact procLoop_zero h
        simp [hc, hproc] at hrun
      | bad =>
        rw [hc] at hrun
        cases hrun
        exact ⟨by simp, h⟩
      | chunk len val =>
        simp only [hc] at hrun
        split at hrun
        · cases hrun
          exact ⟨by simp [retval], h⟩
        · simp only [procChunkedBlocks, HttpQuery.accepting, HttpChunked.onResponse,
            and_self, ↓reduceIte] at hrun
          refine ih ?_ hrun
          exact h

/-- With block size 0 a parse never reports the end of the body. -/
theorem parseChunkedBlocks_zero {st : HttpChunked} {data stale : Bytes} {r : Parsed}
    (h : st.chunkedBuffer = [])
    (hrun : parseChunkedBlocks (.accepting 0) st data stale = some r) :
    r.ret ≠ retval .tChunkedEnd ∧ r.chunked.chunkedBuffer = [] := by
  unfold parseChunkedBlocks at hrun
  split at hrun
  next => cases hrun
  next heq =>
    cases hrun
    exact parseBlocksLoop_zero h heq
  next heq =>
    cases hrun
    exact parseBlocksLoop_zero h heq

end Dframework
