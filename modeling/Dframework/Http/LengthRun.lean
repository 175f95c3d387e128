import Mathlib
import Dframework.Http.BlocksParse
import Dframework.Http.LengthReader

/-!
# Runs of `IHttpReader::readBlocks` on a complete body

Of the payload, the part that was handed over, the part that is pending and the part
that has not been received make up the whole before every pass, however the body is
cut, and the lengths the reader compares count the received part.

Results:
1. `procBlocks_data`, `procBlocks_end`: no byte is lost between the bytes that come in
   and the blocks that go out.
2. `readLength_delivers`: the payload is handed over, and nothing of it stays on the
   socket.
-/

namespace Dframework

open CLib Loop

namespace LengthRunLemmas

variable {B : Nat}

/-- The room for a block is never negative: past the block size it wraps around. -/
theorem sizeSub_gt {b len size : Nat} (h : b < len) (hlen : len + size < 2 ^ 64) :
    size < sizeSub b len := by
  rw [sizeSub, if_neg (by omega)]
  omega

/-- The loop of `procBlocks` on bytes that have come in. -/
theorem procBlocksLoop_data {fuel size : Nat} {mem : Bytes} {st : LengthState} (hB : 0 < B)
    (hmem : size ≤ mem.length) (hlen : st.readerBuffer.length + size < 2 ^ 64)
    (hfuel : size + (if st.readerBuffer.length = B then 1 else 0) < fuel) :
    ∃ cs buf, procBlocksLoop (.accepting B) fuel st mem size false =
        some ({ st with calls := cs, readerBuffer := buf }, none) ∧
      delivered cs ++ buf = delivered st.calls ++ st.readerBuffer ++ mem.take size := by
  induction fuel generalizing st mem size with
  | zero => omega
  | succ fuel ih =>
    by_cases hgt : sizeSub B st.readerBuffer.length > size
    · refine ⟨st.calls, st.readerBuffer ++ mem.take size, ?_, by rw [List.append_assoc]⟩
      simp [procBlocksLoop, HttpQuery.accepting, hgt, hmem]
    · have hle : st.readerBuffer.length ≤ B := by
        by_contra hlt
        exact hgt (sizeSub_gt (not_le.mp hlt) hlen)
      have hsub := sizeSub_of_le hle
      set d := mem.take (B - st.readerBuffer.length) with hd
      have hdlen : d.length = B - st.readerBuffer.length := by
        rw [hd, List.length_take]
        omega
      have hne : st.readerBuffer ++ d ≠ [] := by
        refine List.ne_nil_of_length_pos ?_
        rw [List.length_append]
        omega
      set st' : LengthState := { st with
        calls := st.calls ++ [Block.full (st.readerBuffer ++ d)], readerBuffer := [] } with hst'
      obtain ⟨cs, buf, hrun, htaken⟩ := ih
        (show size - (B - st.readerBuffer.length) ≤
          (mem.drop (B - st.readerBuffer.length)).length by rw [List.length_drop]; omega)
        (show st'.readerBuffer.length + (size - (B - st.readerBuffer.length)) < 2 ^ 64 by
          simp only [hst', List.length_nil]
          omega)
        (by
          simp only [hst', List.length_nil, if_neg hB.ne]
          split at hfuel <;> omega)
      refine ⟨cs, buf, ?_, ?_⟩
      · have hle' : B - st.readerBuffer.length ≤ mem.length := by omega
        have hngt : ¬ B - st.readerBuffer.length > size := by rwa [hsub] at hgt
        rw [procBlocksLoop]
        simp only [HttpQuery.accepting, hsub, if_neg hngt, if_pos hle', LengthState.onPending,
          LengthState.onResponse, ← hd, toChars_of_ne_nil hne]
        exact hrun
      · rw [htaken, hst']
        simp only [delivered_append, delivered_singleton, Block.full_data, List.append_nil,
          List.append_assoc, hd]
        rw [← List.take_add, show B - st.readerBuffer.length + (size - (B - st.readerBuffer.length)) =
          size by omega]

/-- Bytes that have come in are handed over or pending. -/
theorem procBlocks_data {st : LengthState} {r : Bytes}
    (hlen : st.readerBuffer.length + r.length < 2 ^ 64) (hzero : B = 0 → st.readerBuffer = []) :
    ∃ cs buf, procBlocks (.accepting B) st (some r) r.length false =
        some ({ st with
          calls := cs, readerBuffer := buf
          recvContentLength := st.recvContentLength + r.length }, none) ∧
      delivered cs ++ buf = delivered st.calls ++ st.readerBuffer ++ r ∧
      (B = 0 → buf = []) := by
  rcases Nat.eq_zero_or_pos B with rfl | hB
  · refine ⟨st.calls ++ [.full r], st.readerBuffer, rfl, ?_, hzero⟩
    simp [hzero rfl]
  · set st' : LengthState := { st with recvContentLength := st.recvContentLength + r.length }
    obtain ⟨cs, buf, hrun, htaken⟩ := procBlocksLoop_data hB (le_refl r.length)
      (show st'.readerBuffer.length + r.length < 2 ^ 64 from hlen)
      (show _ < r.length + 2 by split <;> omega)
    refine ⟨cs, buf, ?_, by rwa [List.take_length] at htaken, fun h => absurd h hB.ne'⟩
    rw [procBlocks, if_neg (by simp [HttpQuery.accepting, hB.ne']), Option.getD_some]
    exact hrun

/-- At the end what is pending is handed over. -/
theorem procBlocks_end {st : LengthState} (hlen : st.readerBuffer.length < 2 ^ 64)
    (hzero : B = 0 → st.readerBuffer = []) :
    ∃ st', procBlocks (.accepting B) st none 0 true = some (st', none) ∧
      delivered st'.calls = delivered st.calls ++ st.readerBuffer ∧ st'.sock = st.sock := by
  rcases Nat.eq_zero_or_pos B with rfl | hB
  · refine ⟨_, rfl, ?_, rfl⟩
    simp [hzero rfl, Block.data]
  · rw [procBlocks, if_neg (by simp [HttpQuery.accepting, hB.ne'])]
    simp only [Option.getD_none, List.length_nil, Nat.zero_add, Nat.add_zero]
    by_cases hfull : st.readerBuffer.length = B
    · -- the pending bytes are a full block: it goes out, and an empty one behind it
      have hzero' : sizeSub B st.readerBuffer.length = 0 := by simp [sizeSub, hfull]
      refine ⟨{ st with
        readerBuffer := []
        calls := st.calls ++ [⟨toChars st.readerBuffer, st.readerBuffer.length⟩] ++
          [⟨none, 0⟩] }, ?_, ?_, rfl⟩
      · have hempty : sizeSub B 0 = B := sizeSub_of_le (Nat.zero_le B)
        simp [procBlocksLoop, HttpQuery.accepting, hzero', hempty, LengthState.onPending,
          LengthState.onResponse, hB]
      · rw [delivered_append, delivered_append, delivered_singleton, delivered_singleton,
          toChars_block_data]
        exact List.append_nil _
    · have hpos : 0 < sizeSub B st.readerBuffer.length := by
        rcases Nat.lt_or_ge B st.readerBuffer.length with h | h
        · exact sizeSub_gt h (by omega)
        · rw [sizeSub_of_le h]
          omega
      refine ⟨{ st with
        readerBuffer := []
        calls := st.calls ++ [⟨toChars st.readerBuffer, st.readerBuffer.length⟩] }, ?_, ?_, rfl⟩
      · simp [procBlocksLoop, HttpQuery.accepting, hpos, LengthState.onPending,
          LengthState.onResponse]
      · simp [toChars_block_data]

end LengthRunLemmas

open LengthRunLemmas

/-- What holds before every pass: nothing of the payload is lost, and the lengths the
reader compares count what has been received. -/
structure LengthFollows (B : Nat) (payload : Bytes) (tail : Socket) (st : LengthState)
    (segs : List Bytes) : Prop where
  taken : delivered st.calls ++ st.readerBuffer ++ segs.flatten = payload
  received : st.recvContentLength + segs.flatten.length = payload.length
  length_eq : st.contentLength = payload.length
  buffer_zero : B = 0 → st.readerBuffer = []
  sock_brings : Brings st.sock segs tail
  segs_ne_nil : ∀ s ∈ segs, s ≠ []

namespace LengthRunLemmas

variable {B : Nat} {payload : Bytes} {tail : Socket} {st : LengthState} {segs : List Bytes}

theorem flatten_eq_nil_iff (h : ∀ s ∈ segs, s ≠ []) : segs.flatten.length = 0 ↔ segs = [] := by
  rw [List.length_eq_zero_iff, List.flatten_eq_nil_iff]
  constructor
  · intro hall
    cases segs with
    | nil => rfl
    | cons s ss => exact absurd (hall s List.mem_cons_self) (h s List.mem_cons_self)
  · rintro rfl
    simp

/-- `readLastBlocks` ends the body when all of it has been received, and only then. -/
theorem readLastBlocks_follows (h : LengthFollows B payload tail st segs)
    (hlen : payload.length < 2 ^ 64) :
    (segs = [] → ∃ st', readLastBlocks (.accepting B) st = some (st', none) ∧
      delivered st'.calls = payload ∧ Brings st'.sock [] tail) ∧
    (segs ≠ [] → readLastBlocks (.accepting B) st = some (st, retval .error)) := by
  have hrecv := h.received
  have htaken := congrArg List.length h.taken
  simp only [List.length_append] at htaken
  constructor
  · rintro rfl
    obtain ⟨st', hend, hcalls, hsock⟩ := procBlocks_end
      (show st.readerBuffer.length < 2 ^ 64 by omega) h.buffer_zero
    refine ⟨st', ?_, by simpa [hcalls] using h.taken, hsock ▸ h.sock_brings⟩
    rw [readLastBlocks, if_pos (by rw [h.length_eq]; simpa using hrecv)]
    exact hend
  · intro hne
    have hpos : segs.flatten.length ≠ 0 := fun h0 => hne ((flatten_eq_nil_iff h.segs_ne_nil).mp h0)
    rw [readLastBlocks, if_neg (by rw [h.length_eq]; omega)]

/-- A pass of the loop: it takes bytes of the next segment, and ends the body when they
were the last. -/
theorem readLengthRound_follows {s : Bytes} {ss : List Bytes}
    (h : LengthFollows B payload tail st (s :: ss)) (hlen : payload.length < 2 ^ 64) :
    ∃ st', LengthFollows B payload tail st' (behind DFW_HTTPSOCKET_MAX_SIZE s ss) ∧
      (∀ st'', readLastBlocks (.accepting B) st' = some (st'', none) →
        readLengthRound (.accepting B) st = .done (some (st'', none))) ∧
      (∀ st'', readLastBlocks (.accepting B) st' = some (st'', retval .error) →
        readLengthRound (.accepting B) st = .next st'') := by
  have hs : s ≠ [] := h.segs_ne_nil s List.mem_cons_self
  obtain ⟨ret, sock, hrecv, hsock, hret⟩ :=
    recvRaw_segment hs ss tail DFW_HTTPSOCKET_MAX_SIZE
  set r := s.take DFW_HTTPSOCKET_MAX_SIZE with hr
  have hrne : r ≠ [] := by
    refine List.ne_nil_of_length_pos ?_
    have := List.length_pos_of_ne_nil hs
    rw [hr, List.length_take, DFW_HTTPSOCKET_MAX_SIZE]
    omega
  have hsplit : r ++ (behind DFW_HTTPSOCKET_MAX_SIZE s ss).flatten = s ++ ss.flatten :=
    take_append_behind DFW_HTTPSOCKET_MAX_SIZE s ss
  have hsplit' := congrArg List.length hsplit
  have htaken := congrArg List.length h.taken
  have hrecvlen := h.received
  simp only [List.length_append, List.flatten_cons] at htaken hrecvlen hsplit'
  obtain ⟨cs, buf, hproc, hbytes, hzero⟩ := procBlocks_data
    (show ({ st with sock := sock } : LengthState).readerBuffer.length + r.length < 2 ^ 64 by
      simp only
      omega) h.buffer_zero
  have hwait := h.sock_brings.waitRecv_eq hs
  have hstatus : ¬ (ret.isSome ∧ ret.map Ret.value ≠ some .eAgain ∧
      ret.map Ret.value ≠ some .eDisconnect) := by
    rcases hret with rfl | ⟨rfl, -⟩ <;> simp [retval]
  refine ⟨{ st with
    calls := cs, readerBuffer := buf, sock := sock
    recvContentLength := st.recvContentLength + r.length }, ⟨?_, ?_, h.length_eq, hzero, hsock,
      behind_ne_nil h.segs_ne_nil⟩,
    fun st'' hlast => ?_, fun st'' hlast => ?_⟩
  · rw [hbytes, List.append_assoc _ r, hsplit, ← List.flatten_cons]
    exact h.taken
  · simp only
    omega
  all_goals
    simp only [readLengthRound, hwait, hrecv, if_neg hstatus, hrne, false_and, if_false, ne_eq,
      not_false_eq_true, if_true, hproc, hlast, retval, reduceCtorEq]

end LengthRunLemmas

/-- The payload of a body whose length is announced is handed over, whatever the cut,
and nothing of it stays on the socket. -/
theorem readLength_delivers {B : Nat} {payload recvBuffer : Bytes} {segs : List Bytes}
    (tail : Socket) (hsegs : ∀ s ∈ segs, s ≠ []) (hlen : payload.length < 2 ^ 64)
    (hsplit : recvBuffer ++ segs.flatten = payload) (hB : B = 0 → recvBuffer = []) :
    ∃ st, ReadLength (.accepting B)
        (lengthInit recvBuffer payload.length (segments segs ++ tail)) (some (st, none)) ∧
      delivered st.calls = payload ∧ Brings st.sock [] tail := by
  have hinit : LengthFollows B payload tail
      (lengthInit recvBuffer payload.length (segments segs ++ tail)) segs :=
    ⟨by simpa [lengthInit] using hsplit, by simp [lengthInit, ← hsplit], rfl, hB, .inl rfl, hsegs⟩
  -- from a state in which something is still to come the loop ends well
  have hrun : ∀ n st segs, segs.flatten.length = n → segs ≠ [] →
      LengthFollows B payload tail st segs →
      ∃ st', Returns (readLengthRound (.accepting B)) st (some (st', none)) ∧
        delivered st'.calls = payload ∧ Brings st'.sock [] tail := by
    intro n
    induction n using Nat.strongRecOn with
    | ind n ih =>
      intro st segs hn hne h
      obtain ⟨s, ss, rfl⟩ := List.exists_cons_of_ne_nil hne
      obtain ⟨st', hnext, hdone, hgo⟩ := readLengthRound_follows h hlen
      obtain ⟨hend, hmore⟩ := readLastBlocks_follows hnext hlen
      by_cases hlast : behind DFW_HTTPSOCKET_MAX_SIZE s ss = []
      · obtain ⟨st'', hlastBlocks, hpayload, hsock⟩ := hend hlast
        exact ⟨st'', returns_of_done (hdone st'' hlastBlocks), hpayload, hsock⟩
      · have hlt : (behind DFW_HTTPSOCKET_MAX_SIZE s ss).flatten.length < n := by
          have hsplit := congrArg List.length (take_append_behind DFW_HTTPSOCKET_MAX_SIZE s ss)
          have hpos := List.length_pos_of_ne_nil (h.segs_ne_nil s List.mem_cons_self)
          simp only [List.length_append, List.length_take, List.flatten_cons,
            DFW_HTTPSOCKET_MAX_SIZE] at hsplit hn ⊢
          omega
        obtain ⟨st'', hret, hdeliv⟩ := ih _ hlt _ _ rfl hlast hnext
        exact ⟨st'', (returns_next_iff (hgo st' (hmore hlast))).mpr hret, hdeliv⟩
  obtain ⟨hend, hmore⟩ := readLastBlocks_follows hinit hlen
  by_cases hlast : segs = []
  · obtain ⟨st', hdone, hdeliv⟩ := hend hlast
    exact ⟨st', by rw [ReadLength, hdone], hdeliv⟩
  · obtain ⟨st', hret, hdeliv⟩ := hrun _ _ _ rfl hlast hinit
    exact ⟨st', by rw [ReadLength, hmore hlast]; exact hret, hdeliv⟩

end Dframework
