import Mathlib
import Dframework.Http.Chunk

/-!
# A well-formed body that has arrived in part

The remaining bytes of a body are `encChunks cs ++ encLast zeros`; the first
`n` of them are `received cs zeros n`. `settle cs n` splits the chunks into
those that have arrived completely, the others, and the number of bytes that
have arrived of the others. A parser that stops there has still to look at the
head of the next chunk, and this head may be incomplete: `verdict` is what the
parser makes of it, and it depends on the bytes in memory behind those that
were received.
-/

namespace Dframework

open CLib

/-- The first `n` bytes of a body that still has the chunks `cs`. -/
def received (cs : List Chunk) (zeros n : Nat) : Bytes :=
  (encChunks cs ++ encLast zeros).take n

/-- The chunks complete in the first `n` bytes, the other chunks, and how many
of the `n` bytes are not in a complete chunk. -/
def settle : List Chunk → Nat → List Chunk × List Chunk × Nat
  | [], n => ([], [], n)
  | c :: cs, n =>
    if c.enc.length ≤ n then
      let (done, todo, left) := settle cs (n - c.enc.length)
      (c :: done, todo, left)
    else ([], c :: cs, n)

/-- What a parser makes of the head of a chunk of which only `held` has arrived. -/
inductive Verdict where
  /-- it waits for more bytes -/
  | wait
  /-- it answers `DFW_E_HTTP_CHUNKED` -/
  | bad
  /-- it answers `DFW_T_CHUNKED_END` -/
  | last
  deriving DecidableEq, Repr

/-- The verdict on the received bytes `held` with `stale` in memory behind them. -/
def verdict (held stale : Bytes) : Verdict :=
  if held = [] then .wait
  else
    match chunkHead (held ++ stale) with
    | .bad => .bad
    | .last => .last
    | _ => .wait

/-- The verdict on the first `n` bytes of a body: a complete chunk with a long
size line is refused, otherwise the incomplete head decides. -/
def parseVerdict (cs : List Chunk) (zeros n : Nat) (stale : Bytes) : Verdict :=
  if (settle cs n).1.all (·.line.length ≤ 4) then
    verdict (received (settle cs n).2.1 zeros (settle cs n).2.2) stale
  else .bad

/-! ## Complete chunks -/

theorem received_length {cs : List Chunk} {zeros n : Nat}
    (h : n ≤ (encChunks cs ++ encLast zeros).length) : (received cs zeros n).length = n := by
  rw [received, List.length_take, Nat.min_eq_left h]

theorem received_length_le (cs : List Chunk) (zeros n : Nat) : (received cs zeros n).length ≤ n :=
  List.length_take_le _ _

theorem received_cons_of_le {c : Chunk} {cs : List Chunk} {zeros n : Nat}
    (h : c.enc.length ≤ n) :
    received (c :: cs) zeros n = c.enc ++ received cs zeros (n - c.enc.length) := by
  rw [received, encChunks_cons, List.append_assoc, List.take_append, List.take_of_length_le h]
  rfl

theorem received_cons_of_lt {c : Chunk} {cs : List Chunk} {zeros n : Nat}
    (h : n < c.enc.length) : received (c :: cs) zeros n = c.enc.take n := by
  rw [received, encChunks_cons, List.append_assoc, List.take_append_of_le_length h.le]

theorem settle_cons_of_le {c : Chunk} {cs : List Chunk} {n : Nat} (h : c.enc.length ≤ n) :
    settle (c :: cs) n =
      (c :: (settle cs (n - c.enc.length)).1, (settle cs (n - c.enc.length)).2) := by
  rw [settle, if_pos h]

theorem settle_cons_of_lt {c : Chunk} {n : Nat} (cs : List Chunk) (h : n < c.enc.length) :
    settle (c :: cs) n = ([], c :: cs, n) := by
  rw [settle, if_neg (by omega)]

/-- Settling loses no chunk. -/
theorem settle_append (cs : List Chunk) (n : Nat) :
    (settle cs n).1 ++ (settle cs n).2.1 = cs := by
  induction cs generalizing n with
  | nil => rfl
  | cons c cs ih =>
    by_cases h : c.enc.length ≤ n
    · rw [settle_cons_of_le h, List.cons_append, ih]
    · rw [settle_cons_of_lt _ (by omega), List.nil_append]

/-- Settling loses no byte. -/
theorem settle_length (cs : List Chunk) (n : Nat) :
    (encChunks (settle cs n).1).length + (settle cs n).2.2 = n := by
  induction cs generalizing n with
  | nil => simp [settle]
  | cons c cs ih =>
    by_cases h : c.enc.length ≤ n
    · have := ih (n - c.enc.length)
      simp only [settle_cons_of_le h, encChunks_cons, List.length_append]
      omega
    · simp [settle_cons_of_lt cs (show n < c.enc.length by omega)]

/-- The received bytes are the complete chunks and the received bytes of the others. -/
theorem received_settle (cs : List Chunk) (zeros n : Nat) :
    received cs zeros n =
      encChunks (settle cs n).1 ++ received (settle cs n).2.1 zeros (settle cs n).2.2 := by
  induction cs generalizing n with
  | nil => simp [settle]
  | cons c cs ih =>
    by_cases h : c.enc.length ≤ n
    · rw [received_cons_of_le h, settle_cons_of_le h, ih, encChunks_cons, List.append_assoc]
    · rw [settle_cons_of_lt _ (by omega), encChunks_nil, List.nil_append]

theorem received_settle_length {cs : List Chunk} {zeros n : Nat}
    (hn : (received cs zeros n).length = n) :
    (received (settle cs n).2.1 zeros (settle cs n).2.2).length = (settle cs n).2.2 := by
  have hsplit := congrArg List.length (received_settle cs zeros n)
  have hlen := settle_length cs n
  rw [List.length_append] at hsplit
  omega

/-- What is settled stays settled. -/
theorem settle_settle (cs : List Chunk) (n : Nat) :
    settle (settle cs n).2.1 (settle cs n).2.2 = ([], (settle cs n).2.1, (settle cs n).2.2) := by
  induction cs generalizing n with
  | nil => rfl
  | cons c cs ih =>
    by_cases h : c.enc.length ≤ n
    · rw [settle_cons_of_le h, ih]
    · have hlt : n < c.enc.length := by omega
      rw [settle_cons_of_lt _ hlt, settle_cons_of_lt _ hlt]

/-! ## The head that has not arrived completely -/

/-- A parser does not take an incomplete chunk for a complete one, whatever
stands in memory behind the received bytes. -/
theorem lt_savelen_of_settled {cs : List Chunk} {zeros n len val : Nat} {stale : Bytes}
    (hz : 0 < zeros) (hs : settle cs n = ([], cs, n)) (hne : received cs zeros n ≠ [])
    (h : chunkHead (received cs zeros n ++ stale) = .chunk len val) :
    (received cs zeros n).length < savelen len val := by
  cases cs with
  | nil =>
    by_cases hn : n < zeros + 2
    · have hpre : received [] zeros n <+: List.replicate zeros 48 ++ CRLF := by
        have : received [] zeros n = (List.replicate zeros 48 ++ CRLF).take n := by
          rw [received, encChunks_nil, List.nil_append, encLast, List.take_append_of_le_length]
          simp [CRLF]
          omega
        exact this ▸ List.take_prefix _ _
      refine chunkHead_partial (by simpa using hz.ne') (ChunkLemmas.zeros_hex zeros) hne hpre ?_ h
      rw [List.length_replicate]
      exact (received_length_le _ _ _).trans_lt hn
    · have hfull : received [] zeros n =
          List.replicate zeros 48 ++ CRLF ++ CRLF.take (n - (zeros + 2)) := by
        rw [received, encChunks_nil, List.nil_append, encLast, List.take_append,
          List.take_of_length_le (by simp [CRLF]; omega)]
        simp [CRLF]
      rw [hfull, List.append_assoc, chunkHead_zeros hz] at h
      cases h
  | cons c cs =>
    have hlt : n < c.enc.length := by
      by_contra hge
      rw [settle_cons_of_le (by omega)] at hs
      simp at hs
    rw [received_cons_of_lt hlt] at hne h ⊢
    by_cases hn : n < c.line.length + 2
    · have htake : c.enc.take n = (c.line ++ CRLF).take n := by
        rw [Chunk.enc, List.append_assoc (c.line ++ CRLF), List.take_append_of_le_length]
        simp [CRLF]
        omega
      rw [htake] at hne h ⊢
      refine chunkHead_partial c.line_ne_nil c.line_hex hne (List.take_prefix _ _) ?_ h
      exact (List.length_take_le _ _).trans_lt hn
    · have htake : c.enc.take n =
          c.line ++ CRLF ++ (c.payload ++ CRLF).take (n - (c.line.length + 2)) := by
        rw [Chunk.enc, List.append_assoc (c.line ++ CRLF), List.take_append,
          List.take_of_length_le (by simp [CRLF]; omega)]
        simp [CRLF]
      rw [htake, List.append_assoc, chunkHead_line] at h
      split at h
      next =>
        simp only [ChunkHead.chunk.injEq] at h
        obtain ⟨rfl, rfl⟩ := h
        have hlen := c.enc_length
        have hle := c.payload_le
        rw [savelen, Nat.mod_eq_of_lt (by omega), List.length_take]
        omega
      next => cases h

/-- A parser that waits at an incomplete head has not received the whole body. -/
theorem lt_of_wait {cs : List Chunk} {zeros n : Nat} {stale : Bytes} (hz : 0 < zeros)
    (hs : settle cs n = ([], cs, n)) (hv : verdict (received cs zeros n) stale = .wait) :
    n < (encChunks cs ++ encLast zeros).length := by
  by_contra hge
  cases cs with
  | cons c cs =>
    by_cases hn : c.enc.length ≤ n
    · rw [settle_cons_of_le hn] at hs
      simp at hs
    · simp only [encChunks_cons, List.length_append] at hge
      omega
  | nil =>
    have hall : received [] zeros n = List.replicate zeros 48 ++ CRLF ++ CRLF := by
      rw [received, List.take_of_length_le (by omega)]
      rfl
    rw [hall, verdict, if_neg (by simp [CRLF]), List.append_assoc _ CRLF, chunkHead_zeros hz] at hv
    cases hv

end Dframework
