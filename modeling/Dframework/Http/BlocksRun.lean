import Mathlib
import Dframework.Http.BlocksParse

/-!
# Runs of `readBlocks` on a well-formed body

`ArrayState` is the network buffer told by the chunks of the body instead of by
its bytes: how much of the remaining body is held, what stands behind it, how
much room the next `recv` gets. A pass stores bytes, sets the complete chunks
aside and keeps the rest; whether it can go on is decided by two things only,
the room in the array and the verdict on the incomplete head (`ArrayState.Ok`).

Results:
1. `readBlocks_simulates`: `readBlocks` follows this machine pass by pass.
2. `readBlocks_delivers_iff`: it delivers the payload exactly when every pass of
   the machine is `Ok`.
3. `readBlocks_misread`: a cut inside a size line that is misread.
-/

namespace Dframework

open CLib Loop

/-! ## The abstract machine -/

/-- The network buffer at the head of a pass. Of the body that still has the
chunks `todo`, `held` bytes are in the array, with `stale` behind them; `reader`
and `segs` are the bytes that have not been stored yet. -/
structure ArrayState where
  todo : List Chunk
  held : Nat
  stale : Bytes
  size : Nat
  reader : Bytes
  segs : List Bytes

/-- The bytes a pass stores: of the reader buffer while it has any, then of the
next segment, never more than `size`. -/
def ArrayState.stored (a : ArrayState) : Bytes :=
  if a.reader ≠ [] then a.reader.take a.size else (a.segs.headD []).take a.size

/-- The reader buffer and the segments behind the bytes a pass stores. -/
def ArrayState.rest (a : ArrayState) : Bytes × List Bytes :=
  if a.reader ≠ [] then (a.reader.drop a.size, a.segs)
  else
    match a.segs with
    | [] => ([], [])
    | s :: ss => ([], behind a.size s ss)

/-- The bytes held once the pass has stored its bytes. -/
def ArrayState.filled (a : ArrayState) : Nat :=
  a.held + a.stored.length

/-- The verdict of the parse that follows. -/
def ArrayState.verdict (a : ArrayState) (zeros : Nat) : Verdict :=
  parseVerdict a.todo zeros a.filled (a.stale.drop a.stored.length)

/-- The room for the next `recv`: behind the loop over the reader buffer what is
free, behind a `recv` what the parse has not consumed of the whole. -/
def ArrayState.nextSize (a : ArrayState) : Nat :=
  let left := (settle a.todo a.filled).2.2
  sizeSub DFW_HTTPSOCKET_MAX_SIZE (if a.reader ≠ [] then left else a.filled - left)

/-- The array after a pass that goes on. -/
def ArrayState.next (a : ArrayState) (zeros : Nat) : ArrayState :=
  let left := (settle a.todo a.filled).2.2
  { todo := (settle a.todo a.filled).2.1
    held := left
    stale := (received a.todo zeros a.filled ++ a.stale.drop a.stored.length).drop left
    size := a.nextSize
    reader := a.rest.1
    segs := a.rest.2 }

/-- A pass goes well: the bytes have room in the array, and the parse neither
takes the incomplete head for a bad one nor, while chunks remain, for the last. -/
def ArrayState.Ok (zeros : Nat) (a : ArrayState) : Prop :=
  a.filled ≤ DFW_HTTPSOCKET_MAX_SIZE2 ∧ a.verdict zeros ≠ .bad ∧
    (a.verdict zeros = .last → (settle a.todo a.filled).2.1 = [])

instance (zeros : Nat) (a : ArrayState) : Decidable (a.Ok zeros) :=
  haveI : Decidable ((settle a.todo a.filled).2.1 = []) :=
    decidable_of_iff ((settle a.todo a.filled).2.1.isEmpty) List.isEmpty_iff
  inferInstanceAs (Decidable (_ ∧ _ ∧ (_ → _)))

/-- One pass: on to the next one, or the end, reached well or not. -/
def arrayRound (zeros : Nat) (a : ArrayState) : Round ArrayState Bool :=
  if ¬ a.Ok zeros then .done false
  else if a.verdict zeros = .last then .done true
  else .next (a.next zeros)

def arrayInit (b : Body) (reader : Bytes) (segs : List Bytes) (stack : Bytes) : ArrayState :=
  { todo := b.chunks, held := 0, stale := stack, size := DFW_HTTPSOCKET_MAX_SIZE, reader, segs }

/-- Every chunk of the body fits into the network buffer, the last one included. -/
def Body.Fits (b : Body) : Prop :=
  (∀ c ∈ b.chunks, c.enc.length ≤ DFW_HTTPSOCKET_MAX_SIZE) ∧
    (encLast b.zeros).length ≤ DFW_HTTPSOCKET_MAX_SIZE

/-! ## The invariant of the machine -/

/-- What holds before every pass: the bytes not stored yet are the rest of the
body, no complete chunk is held, and the body has not been received completely. -/
structure ArrayState.Inv (zeros : Nat) (a : ArrayState) : Prop where
  settled : settle a.todo a.held = ([], a.todo, a.held)
  segs_ne_nil : ∀ s ∈ a.segs, s ≠ []
  bytes : received a.todo zeros a.held ++ (a.reader ++ a.segs.flatten) =
    encChunks a.todo ++ encLast zeros
  held_lt : a.held < (encChunks a.todo ++ encLast zeros).length
  chunk_fits : ∀ c ∈ a.todo, c.enc.length ≤ DFW_HTTPSOCKET_MAX_SIZE
  last_fits : (encLast zeros).length ≤ DFW_HTTPSOCKET_MAX_SIZE
  size_eq : a.reader ≠ [] → a.size = DFW_HTTPSOCKET_MAX_SIZE - a.held

namespace BlocksRunLemmas

variable {zeros : Nat} {a : ArrayState}

/-- A pass stores the first of the bytes that have not been stored yet. -/
theorem stored_append_rest (a : ArrayState) :
    a.stored ++ (a.rest.1 ++ a.rest.2.flatten) = a.reader ++ a.segs.flatten := by
  unfold ArrayState.stored ArrayState.rest
  by_cases hr : a.reader = []
  · simp only [hr, ne_eq, not_true_eq_false, ↓reduceIte, List.nil_append]
    cases a.segs with
    | nil => simp
    | cons s ss =>
      exact take_append_behind a.size s ss
  · simp only [ne_eq, hr, not_false_eq_true, ↓reduceIte]
    rw [← List.append_assoc, List.take_append_drop]

theorem filled_le (h : a.Inv zeros) :
    a.filled ≤ (encChunks a.todo ++ encLast zeros).length := by
  have hbytes := congrArg List.length h.bytes
  have hheld := received_length h.held_lt.le
  rw [← stored_append_rest, List.length_append, List.length_append, hheld] at hbytes
  rw [ArrayState.filled]
  omega

/-- The bytes in the array after the pass has stored its bytes. -/
theorem received_filled (h : a.Inv zeros) :
    received a.todo zeros a.held ++ a.stored = received a.todo zeros a.filled := by
  have hheld := received_length h.held_lt.le
  have htotal := h.bytes
  rw [← stored_append_rest, ← List.append_assoc] at htotal
  have hlen : a.filled = (received a.todo zeros a.held ++ a.stored).length := by
    rw [List.length_append, hheld, ArrayState.filled]
  conv_rhs => rw [received, ← htotal, hlen, List.take_left]

theorem verdict_of_wait (hv : a.verdict zeros = .wait) :
    verdict (received (a.next zeros).todo zeros (a.next zeros).held)
      (a.stale.drop a.stored.length) = .wait := by
  rw [ArrayState.verdict, parseVerdict] at hv
  split at hv
  · exact hv
  · cases hv

theorem rest_segs_ne_nil (h : ∀ s ∈ a.segs, s ≠ []) : ∀ s ∈ a.rest.2, s ≠ [] := by
  unfold ArrayState.rest
  split
  · exact h
  · cases hs : a.segs with
    | nil => simp
    | cons s ss =>
      exact behind_ne_nil (hs ▸ h)

theorem left_le_of_settled {cs : List Chunk} {n : Nat} (hs : settle cs n = ([], cs, n))
    (hlt : n < (encChunks cs ++ encLast zeros).length)
    (hfit : ∀ c ∈ cs, c.enc.length ≤ DFW_HTTPSOCKET_MAX_SIZE)
    (hlast : (encLast zeros).length ≤ DFW_HTTPSOCKET_MAX_SIZE) :
    n < DFW_HTTPSOCKET_MAX_SIZE := by
  cases cs with
  | nil => simpa using hlt.trans_le (by simpa using hlast)
  | cons c cs =>
    by_cases hn : c.enc.length ≤ n
    · rw [settle_cons_of_le hn] at hs
      simp at hs
    · exact (not_le.mp hn).trans_le (hfit c (by simp))

/-- Every pass that goes on keeps the invariant. -/
theorem next_inv (h : a.Inv zeros) (hz : 0 < zeros) (hv : a.verdict zeros = .wait) :
    (a.next zeros).Inv zeros := by
  have hsplit := settle_append a.todo a.filled
  have hheld_lt := lt_of_wait hz (settle_settle a.todo a.filled) (verdict_of_wait hv)
  have hfits : ∀ c ∈ (a.next zeros).todo, c.enc.length ≤ DFW_HTTPSOCKET_MAX_SIZE := by
    intro c hc
    refine h.chunk_fits c ?_
    rw [← hsplit]
    exact List.mem_append_right _ hc
  have hleft := left_le_of_settled (settle_settle a.todo a.filled) hheld_lt hfits h.last_fits
  refine ⟨settle_settle _ _, rest_segs_ne_nil h.segs_ne_nil, ?_, hheld_lt, hfits,
    h.last_fits, ?_⟩
  · have htodo : encChunks a.todo = encChunks (settle a.todo a.filled).1 ++
        encChunks (settle a.todo a.filled).2.1 := by rw [← encChunks_append, hsplit]
    have htotal := h.bytes
    rw [← stored_append_rest, ← List.append_assoc, received_filled h, received_settle a.todo,
      htodo, List.append_assoc, List.append_assoc] at htotal
    exact List.append_cancel_left htotal
  · intro hr
    have hreader : a.reader ≠ [] := by
      rintro he
      refine hr ?_
      simp only [ArrayState.next, ArrayState.rest, he]
      split
      next hf => exact absurd rfl hf
      next => split <;> rfl
    simp only [ArrayState.next, ArrayState.nextSize, if_pos hreader]
    exact sizeSub_of_le hleft.le

/-- The bytes that have not been stored yet, with a pass that has no room to
store any counted in. -/
def work (a : ArrayState) : Nat :=
  2 * (a.reader ++ a.segs.flatten).length + if a.size = 0 then 1 else 0

theorem work_next (zeros : Nat) (a : ArrayState) : work (a.next zeros) =
    2 * (a.rest.1 ++ a.rest.2.flatten).length + if (a.next zeros).size = 0 then 1 else 0 :=
  rfl

theorem next_work (h : a.Inv zeros) (hz : 0 < zeros) (hv : a.verdict zeros = .wait) :
    work (a.next zeros) < work a := by
  have hinv := next_inv h hz hv
  have hlen := congrArg List.length (stored_append_rest a)
  have hbytes := congrArg List.length h.bytes
  have hheld := received_length h.held_lt.le
  have hlt := h.held_lt
  simp only [List.length_append, hheld] at hlen hbytes hlt
  by_cases hsize : a.size = 0
  · have hr : a.reader = [] := by
      by_contra hr
      have := h.size_eq hr
      have := left_le_of_settled h.settled h.held_lt h.chunk_fits h.last_fits
      omega
    have hstored : a.stored.length = 0 := by simp [ArrayState.stored, hr, hsize]
    have hfilled : a.filled = a.held := by rw [ArrayState.filled, hstored, Nat.add_zero]
    have hnz : (a.next zeros).size ≠ 0 := by
      simp only [ArrayState.next, ArrayState.nextSize, hr, hfilled, h.settled]
      simp [sizeSub, DFW_HTTPSOCKET_MAX_SIZE]
    rw [work_next, if_neg hnz, work, if_pos hsize, List.length_append, List.length_append]
    omega
  · have hstored : 0 < a.stored.length := by
      rw [ArrayState.stored]
      split
      next hr =>
        rw [List.length_take]
        have := List.length_pos_of_ne_nil hr
        omega
      next hr =>
        have hr : a.reader = [] := not_not.mp hr
        cases hsegs : a.segs with
        | nil =>
          simp [hr, hsegs] at hbytes
          omega
        | cons s ss =>
          have := List.length_pos_of_ne_nil (h.segs_ne_nil s (by simp [hsegs]))
          simp only [List.headD_cons, List.length_take]
          omega
    rw [work_next, work, if_neg hsize, List.length_append, List.length_append]
    split <;> omega

theorem arrayRound_next {a' : ArrayState} (h : arrayRound zeros a = .next a') :
    a.Ok zeros ∧ a.verdict zeros = .wait ∧ a' = a.next zeros := by
  unfold arrayRound at h
  split at h
  next => cases h
  next hok =>
    have hok := not_not.mp hok
    split at h
    next => cases h
    next hlast =>
      cases h
      refine ⟨hok, ?_, rfl⟩
      have := hok.2.1
      cases hv : a.verdict zeros <;> simp_all

/-- The machine comes to an end. -/
theorem array_returns (h : a.Inv zeros) (hz : 0 < zeros) :
    ∃ r, Returns (arrayRound zeros) a r := by
  refine returns_of_measure (I := ArrayState.Inv zeros) work h ?_
  intro a a' ha hstep
  obtain ⟨_, hv, rfl⟩ := arrayRound_next hstep
  exact ⟨next_inv ha hz hv, next_work ha hz hv⟩

end BlocksRunLemmas

/-! ## `readBlocks` follows the machine -/

/-- `readBlocks` ended well: the end of the body was reported, and the calls have
handed over the payload. -/
def Delivers (payload : Bytes) (r : BlocksResult) : Prop :=
  ∃ s, r = some (s, retval .tChunkedEnd) ∧ delivered s.chunked.calls = payload

/-- The state of `readBlocks` is that of the machine. -/
structure Follows (B zeros : Nat) (payload : Bytes) (tail : Socket) (s : BlocksState)
    (a : ArrayState) : Prop where
  reader_eq : s.readerBuffer = a.reader
  sock_brings : Brings s.sock a.segs tail
  data_eq : s.data = received a.todo zeros a.held
  stale_eq : s.stale = a.stale
  size_eq : s.size = a.size
  filled : ∃ p, Filled B p s.chunked ∧ p ++ payloads a.todo = payload
  inv : a.Inv zeros

/-- The state of `readBlocks` between storing the bytes of a pass and the parse. -/
structure Stored (B zeros : Nat) (payload : Bytes) (tail : Socket) (s : BlocksState)
    (a : ArrayState) : Prop where
  reader_eq : s.readerBuffer = a.rest.1
  sock_brings : Brings s.sock a.rest.2 tail
  data_eq : s.data = received a.todo zeros a.filled
  stale_eq : s.stale = a.stale.drop a.stored.length
  filled : ∃ p, Filled B p s.chunked ∧ p ++ payloads a.todo = payload
  inv : a.Inv zeros

namespace BlocksRunLemmas

variable {B zeros : Nat} {payload : Bytes} {tail : Socket} {s : BlocksState} {a : ArrayState}

/-- The outcome of the machine's pass, by the verdict. -/
theorem arrayRound_eq (zeros : Nat) (a : ArrayState) : arrayRound zeros a =
    if a.filled ≤ DFW_HTTPSOCKET_MAX_SIZE2 then
      match a.verdict zeros with
      | .bad => .done false
      | .last => .done (settle a.todo a.filled).2.1.isEmpty
      | .wait => .next (a.next zeros)
    else .done false := by
  unfold arrayRound ArrayState.Ok
  have hcases : a.verdict zeros = .wait ∨ a.verdict zeros = .bad ∨ a.verdict zeros = .last := by
    cases a.verdict zeros <;> simp
  by_cases hf : a.filled ≤ DFW_HTTPSOCKET_MAX_SIZE2
  · rcases hcases with hv | hv | hv
    · simp [hf, hv]
    · simp [hf, hv]
    · by_cases hs : (settle a.todo a.filled).2.1 = []
      · simp [hf, hv, hs]
      · simp [hf, hv, hs]
  · simp [hf]

theorem parsePass_follows (hz : 0 < zeros) {nextSize : Parsed → Nat}
    (h : Stored B zeros payload tail s a)
    (hsize : ∀ p : Parsed, p.data.length = (settle a.todo a.filled).2.2 →
      p.o_size = a.filled - (settle a.todo a.filled).2.2 → nextSize p = a.nextSize) :
    (∀ a', arrayRound zeros a = .next a' →
      ∃ s', parsePass (.accepting B) s nextSize = .next s' ∧ Follows B zeros payload tail s' a') ∧
    (∀ v, arrayRound zeros a = .done v →
      ∃ r, parsePass (.accepting B) s nextSize = .done r ∧ (Delivers payload r ↔ v = true) ∧
        ∀ s' ret, r = some (s', ret) → Brings s'.sock a.rest.2 tail) := by
  obtain ⟨p, hp, hpayload⟩ := h.filled
  have hlen : (received a.todo zeros a.filled).length = a.filled :=
    received_length (filled_le h.inv)
  have htodo : payloads (settle a.todo a.filled).1 ++ payloads (settle a.todo a.filled).2.1 =
      payloads a.todo := by rw [← payloads_append, settle_append]
  have hparse := parseChunkedBlocks_received (a.stale.drop a.stored.length) hp hz hlen
  rw [arrayRound_eq, parsePass, h.data_eq, h.stale_eq, hlen]
  by_cases hfit : a.filled ≤ DFW_HTTPSOCKET_MAX_SIZE2
  · rw [if_pos hfit, if_neg (not_lt.mpr hfit)]
    have hverdict : parseVerdict a.todo zeros a.filled (a.stale.drop a.stored.length) =
        a.verdict zeros := rfl
    rw [hverdict] at hparse
    cases hv : a.verdict zeros with
    | wait =>
      simp only [hv] at hparse ⊢
      obtain ⟨st, hst, hrun⟩ := hparse
      refine ⟨?_, by simp⟩
      rintro a' ⟨⟩
      have hinv := next_inv h.inv hz hv
      have hleft : (received (settle a.todo a.filled).2.1 zeros
          (settle a.todo a.filled).2.2).length = (settle a.todo a.filled).2.2 :=
        received_length hinv.held_lt.le
      rw [hrun]
      refine ⟨_, rfl, h.reader_eq, h.sock_brings, rfl, rfl, hsize _ hleft rfl, ?_, hinv⟩
      exact ⟨_, hst, by rw [List.append_assoc]; exact (congrArg _ htodo).trans hpayload⟩
    | bad =>
      simp only [hv] at hparse ⊢
      obtain ⟨r, hrun, hret⟩ := hparse
      refine ⟨by simp, ?_⟩
      rintro v ⟨⟩
      rw [hrun]
      refine ⟨some (s.parsed r, r.ret), by simp [hret, retval], by simp [Delivers, hret], ?_⟩
      rintro s' ret ⟨⟩
      exact h.sock_brings
    | last =>
      simp only [hv] at hparse ⊢
      obtain ⟨r, hrun, hret, st, hst, hcalls⟩ := hparse
      refine ⟨by simp, ?_⟩
      rintro v ⟨⟩
      rw [hrun]
      refine ⟨some (s.parsed r, r.ret), by simp [hret, retval], ?_, by
        rintro s' ret ⟨⟩
        exact h.sock_brings⟩
      have hdelivered : delivered (s.parsed r).chunked.calls =
          p ++ payloads (settle a.todo a.filled).1 := by
        rw [BlocksState.parsed, hcalls]
        exact hst.delivered_ended
      have hiff : p ++ payloads (settle a.todo a.filled).1 = payload ↔
          payloads (settle a.todo a.filled).2.1 = [] := by
        rw [← hpayload, ← htodo, ← List.append_assoc]
        exact ⟨fun he => List.self_eq_append_right.mp he, fun he => by rw [he, List.append_nil]⟩
      simp only [Delivers, hret, Option.some.injEq, Prod.mk.injEq, and_true, exists_eq_left',
        hdelivered, hiff, payloads_eq_nil_iff, List.isEmpty_iff]
  · rw [if_neg hfit, if_pos (not_le.mp hfit)]
    refine ⟨by simp, ?_⟩
    rintro v ⟨⟩
    exact ⟨none, rfl, by simp [Delivers], by rintro s' ret ⟨⟩⟩

theorem recvRound_eq (q : HttpQuery) {s : BlocksState} {r : Bytes} {sock sock' : Socket}
    {ret : Retval} (hwait : waitRecv s.sock = (none, sock))
    (hrecv : recvRaw s.size sock = (r, ret, sock'))
    (hret : ret = none ∨ ret = retval .eAgain ∧ r ≠ []) :
    recvRound q s = parsePass q { s.store r with sock := sock' }
      (fun p => sizeSub DFW_HTTPSOCKET_MAX_SIZE p.o_size) := by
  simp only [recvRound, hwait, hrecv]
  rcases hret with rfl | ⟨rfl, hr⟩
  · rw [if_neg (by simp), if_neg (by simp)]
    rfl
  · rw [if_neg (by simp [retval]), if_neg (by simp [hr])]
    rfl

theorem stored_of_fill (h : Follows B zeros payload tail s a) (hr : a.reader ≠ []) :
    Stored B zeros payload tail { s.store (s.readerBuffer.take s.size) with
      readerBuffer := s.readerBuffer.drop s.size } a := by
  have hstored : a.stored = s.readerBuffer.take s.size := by
    rw [ArrayState.stored, if_pos hr, h.reader_eq, h.size_eq]
  have hrest : a.rest = (s.readerBuffer.drop s.size, a.segs) := by
    rw [ArrayState.rest, if_pos hr, h.reader_eq, h.size_eq]
  refine ⟨by rw [hrest], by rw [hrest]; exact h.sock_brings, ?_, ?_, h.filled, h.inv⟩
  · rw [← received_filled h.inv, hstored, ← h.data_eq]
    rfl
  · rw [hstored, ← h.stale_eq]
    rfl

theorem stored_of_recv {sock : Socket} {t : Bytes} {ts : List Bytes}
    (h : Follows B zeros payload tail s a)
    (hr : a.reader = []) (hsegs : a.segs = t :: ts)
    (hsock : Brings sock (behind s.size t ts) tail) :
    Stored B zeros payload tail { s.store (t.take s.size) with sock } a := by
  have hstored : a.stored = t.take s.size := by
    simp [ArrayState.stored, hr, hsegs, h.size_eq]
  have hrest : a.rest = ([], behind s.size t ts) := by
    simp [ArrayState.rest, hr, hsegs, h.size_eq]
  refine ⟨?_, by rw [hrest]; exact hsock, ?_, ?_, h.filled, h.inv⟩
  · rw [hrest]
    exact h.reader_eq.trans hr
  · rw [← received_filled h.inv, hstored, ← h.data_eq]
    rfl
  · rw [hstored, ← h.stale_eq]
    rfl

/-- One pass of `readBlocks` is one pass of the machine. -/
theorem round_follows (hz : 0 < zeros) (h : Follows B zeros payload tail s a) :
    (∀ a', arrayRound zeros a = .next a' →
      ∃ s', readBlocksRound (.accepting B) s = .next s' ∧ Follows B zeros payload tail s' a') ∧
    (∀ v, arrayRound zeros a = .done v →
      ∃ r, readBlocksRound (.accepting B) s = .done r ∧ (Delivers payload r ↔ v = true) ∧
        ∀ s' ret, r = some (s', ret) → Brings s'.sock a.rest.2 tail) := by
  by_cases hr : a.reader = []
  · have hsegs : a.segs ≠ [] := by
      intro hnil
      have hbytes := congrArg List.length h.inv.bytes
      have hlt := h.inv.held_lt
      rw [hr, hnil, List.flatten_nil, List.append_nil, List.append_nil,
        received_length hlt.le] at hbytes
      omega
    obtain ⟨t, ts, hts⟩ := List.exists_cons_of_ne_nil hsegs
    have ht : t ≠ [] := h.inv.segs_ne_nil t (by simp [hts])
    obtain ⟨ret, sock, hrecv, hsock, hret⟩ := recvRaw_segment ht ts tail s.size
    have hret' : ret = none ∨ ret = retval .eAgain ∧ t.take s.size ≠ [] := by
      refine hret.imp id fun hlt => ⟨hlt.1, ?_⟩
      rwa [List.take_of_length_le hlt.2.le]
    rw [readBlocksRound, if_neg (by simp [h.reader_eq, hr]),
      recvRound_eq _ (Brings.waitRecv_eq ht (hts ▸ h.sock_brings)) hrecv hret']
    refine parsePass_follows hz (stored_of_recv h hr hts hsock) fun p _ hsize => ?_
    simp only [hsize, ArrayState.nextSize, hr, ne_eq, not_true_eq_false, ↓reduceIte]
  · rw [readBlocksRound, if_pos (by simpa [h.reader_eq] using hr), fillRound_eq]
    refine parsePass_follows hz (stored_of_fill h hr) fun p hleft _ => ?_
    simp only [hleft, ArrayState.nextSize, ne_eq, hr, not_false_eq_true, ↓reduceIte]

theorem follows_init {b : Body} (hB : 0 < B) (hfits : b.Fits) {reader : Bytes}
    {segs : List Bytes} (hsegs : ∀ s ∈ segs, s ≠ []) (hsplit : reader ++ segs.flatten = b.enc)
    (tail : Socket) (stack : Bytes) :
    Follows B b.zeros b.payload tail (readBlocksInit reader (segments segs ++ tail) stack)
      (arrayInit b reader segs stack) := by
  have hreceived : received b.chunks b.zeros 0 = [] := by simp [received]
  refine ⟨rfl, .inl rfl, hreceived.symm, rfl, rfl, ⟨[], filled_init hB, rfl⟩, ?_⟩
  refine ⟨?_, hsegs, ?_, ?_, hfits.1, hfits.2, fun _ => rfl⟩
  · simp only [arrayInit]
    cases b.chunks with
    | nil => rfl
    | cons c cs => exact settle_cons_of_lt cs (by rw [c.enc_length]; omega)
  · simp only [arrayInit, hreceived, List.nil_append, hsplit, Body.enc]
  · simp only [arrayInit, List.length_append, encLast_length]
    omega

end BlocksRunLemmas

open BlocksRunLemmas

/-- `readBlocks` ends, and it ends well exactly when the machine does. -/
theorem readBlocks_simulates {b : Body} {B : Nat} (hB : 0 < B) (hfits : b.Fits)
    {reader : Bytes} {segs : List Bytes} (stack : Bytes) (tail : Socket)
    (hsegs : ∀ s ∈ segs, s ≠ []) (hsplit : reader ++ segs.flatten = b.enc) :
    ∃ r v, ReadBlocks (.accepting B) reader (segments segs ++ tail) stack r ∧
      Returns (arrayRound b.zeros) (arrayInit b reader segs stack) v ∧
      (Delivers b.payload r ↔ v = true) := by
  have hinit := follows_init hB hfits hsegs hsplit tail stack
  obtain ⟨v, hv⟩ := array_returns hinit.inv b.zeros_pos
  obtain ⟨r, hr, hiff⟩ : ∃ r, Returns (readBlocksRound (.accepting B))
      (readBlocksInit reader (segments segs ++ tail) stack) r ∧
      (Delivers b.payload r ↔ v = true) := hv.simulate
    (Q := fun r v => (Delivers b.payload r ↔ v = true))
    (fun s a a' h hstep => (round_follows b.zeros_pos h).1 a' hstep)
    (fun s a h hstep => by
      obtain ⟨r, hr, hiff, -⟩ := (round_follows b.zeros_pos h).2 v hstep
      exact ⟨r, hr, hiff⟩) hinit
  exact ⟨r, v, hr, hv, hiff⟩

/-- A run of the machine that ends well with nothing left to be received: `readBlocks`
hands the payload over and leaves nothing on the socket. -/
theorem readBlocks_consumes {b : Body} {B : Nat} (hB : 0 < B) (hfits : b.Fits)
    {reader : Bytes} {segs : List Bytes} (stack : Bytes) (tail : Socket)
    (hsegs : ∀ s ∈ segs, s ≠ []) (hsplit : reader ++ segs.flatten = b.enc)
    (hok : ∀ a, Reach (arrayRound b.zeros) (arrayInit b reader segs stack) a →
      a.Ok b.zeros ∧ (a.verdict b.zeros = .last → a.rest.2 = [])) :
    ∃ s, ReadBlocks (.accepting B) reader (segments segs ++ tail) stack
        (some (s, retval .tChunkedEnd)) ∧
      delivered s.chunked.calls = b.payload ∧ Brings s.sock [] tail := by
  have hinit := follows_init hB hfits hsegs hsplit tail stack
  obtain ⟨v, hv⟩ := array_returns hinit.inv b.zeros_pos
  -- the machine goes on while its passes are well, and the last one leaves nothing
  refine hv.induct (P := fun a => (∀ a', Reach (arrayRound b.zeros) a a' →
      a'.Ok b.zeros ∧ (a'.verdict b.zeros = .last → a'.rest.2 = [])) →
    ∀ s, Follows B b.zeros b.payload tail s a → ∃ s',
      Returns (readBlocksRound (.accepting B)) s (some (s', retval .tChunkedEnd)) ∧
      delivered s'.chunked.calls = b.payload ∧ Brings s'.sock [] tail) ?_ ?_ hok _ hinit
  · intro a ha hok s h
    obtain ⟨hokay, hlast⟩ := hok a (.refl a)
    have hverdict : a.verdict b.zeros = .last ∧ v = true := by
      unfold arrayRound at ha
      rw [if_neg (not_not.mpr hokay)] at ha
      split at ha
      next hl => exact ⟨hl, (Round.done.inj ha).symm⟩
      next => cases ha
    obtain ⟨r, hr, hiff, hsock⟩ := (round_follows b.zeros_pos h).2 v ha
    obtain ⟨s', rfl, hpayload⟩ := hiff.mpr hverdict.2
    exact ⟨s', returns_of_done hr, hpayload, hlast hverdict.1 ▸ hsock s' _ rfl⟩
  · intro a a' ha _ ih hok s h
    obtain ⟨s', hs', hfollows⟩ := (round_follows b.zeros_pos h).1 a' ha
    obtain ⟨t, ht, hrest⟩ := ih (fun t ht => hok t (.next ha ht)) s' hfollows
    exact ⟨t, (returns_next_iff hs').mpr ht, hrest⟩

/-! ## Block size 0 -/

namespace BlocksRunLemmas

/-- With block size 0 no body is ever delivered. -/
theorem not_delivers_zero {payload reader stack : Bytes} {sock : Socket} {r : BlocksResult}
    (h : ReadBlocks (.accepting 0) reader sock stack r) : ¬ Delivers payload r := by
  rintro ⟨s', rfl, -⟩
  refine ReadBlocks.ended_inv (I := fun st => st.chunkedBuffer = []) (J := fun _ => False) ?_ rfl h
  intro st data stale p h0 hp
  obtain ⟨hret, hbuf⟩ := parseChunkedBlocks_zero h0 hp
  exact ⟨fun he => hret he, fun _ => hbuf⟩

theorem arrayRound_eq_false_iff {zeros : Nat} {a : ArrayState} :
    arrayRound zeros a = .done false ↔ ¬ a.Ok zeros := by
  unfold arrayRound
  split <;> [skip; split] <;> simp_all

end BlocksRunLemmas

/-! ## When the payload is delivered -/

/-- `readBlocks` ends and has handed over the payload of the body exactly when
the blocks have a positive size and every pass goes well: the array has room for
the bytes it stores, and the size line of which only a part has arrived is not
misread with the bytes behind it. -/
theorem readBlocks_delivers_iff {b : Body} (hfits : b.Fits) (B : Nat) {reader : Bytes}
    {segs : List Bytes} (hsegs : ∀ s ∈ segs, s ≠ []) (hsplit : reader ++ segs.flatten = b.enc)
    (stack : Bytes) (tail : Socket) :
    (∃ r, ReadBlocks (.accepting B) reader (segments segs ++ tail) stack r ∧
      Delivers b.payload r) ↔
    0 < B ∧ ∀ a, Reach (arrayRound b.zeros) (arrayInit b reader segs stack) a → a.Ok b.zeros := by
  rcases Nat.eq_zero_or_pos B with rfl | hB
  · simp only [lt_self_iff_false, false_and, iff_false, not_exists, not_and]
    exact fun r hr => not_delivers_zero hr
  · obtain ⟨r, v, hr, hv, hiff⟩ := readBlocks_simulates hB hfits stack tail hsegs hsplit
    have hdelivers : (∃ r, ReadBlocks (.accepting B) reader (segments segs ++ tail) stack r ∧
        Delivers b.payload r) ↔ v = true := by
      rw [← hiff]
      exact ⟨fun ⟨r', hr', hd⟩ => hr.unique hr' ▸ hd, fun hd => ⟨r, hr, hd⟩⟩
    have hmachine := returns_true_iff ⟨v, hv⟩
    simp only [ne_eq, arrayRound_eq_false_iff, not_not] at hmachine
    rw [hdelivers, ← hmachine]
    simp only [hB, true_and]
    exact ⟨fun he => he ▸ hv, fun ht => hv.unique ht⟩

/-- Chunks of 10 and 16 bytes. -/
def exBody : Body where
  chunks :=
    [{ line := bytes "A", payload := bytes "0123456789", line_ne_nil := by decide,
       line_hex := by decide +kernel, line_val := by decide, payload_pos := by decide,
       payload_le := by decide },
     { line := bytes "10", payload := bytes "0123456789abcdef", line_ne_nil := by decide,
       line_hex := by decide +kernel, line_val := by decide, payload_pos := by decide,
       payload_le := by decide }]
  zeros := 1
  zeros_pos := Nat.one_pos

theorem exBody_fits : exBody.Fits := by
  unfold Body.Fits
  decide

theorem readBlocks_delivers_exBody :
    ∃ r, ReadBlocks (.accepting 10240) [] (segments [exBody.enc] ++ []) [] r ∧
      Delivers exBody.payload r := by
  refine (readBlocks_delivers_iff exBody_fits 10240 (by decide) (by decide) [] []).mpr
    ⟨by decide, fun a ha => ?_⟩
  cases ha with
  | refl => decide
  | next hstep _ =>
    have hlast : (arrayInit exBody [] [exBody.enc] []).verdict exBody.zeros = .last := by decide
    have hwait := (arrayRound_next hstep).2.1
    rw [hlast] at hwait
    cases hwait

/-- The cut between the two digits of `10`: `strstr` finds the CRLF of the first
chunk's payload, which is still in memory behind the digits, and the size line
is refused as too long. -/
def exMisread : List Bytes :=
  [bytes "A\r\n0123456789\r\n1", bytes "0", bytes "\r\n0123456789abcdef\r\n0\r\n\r\n"]

theorem readBlocks_misread :
    exBody.Fits ∧ (∀ s ∈ exMisread, s ≠ []) ∧ [] ++ exMisread.flatten = exBody.enc ∧
    ¬ ∃ r, ReadBlocks (.accepting 10240) [] (segments exMisread ++ []) [] r ∧
      Delivers exBody.payload r := by
  refine ⟨exBody_fits, by decide, by decide, ?_⟩
  rintro ⟨r, hr, s, rfl, -⟩
  have hrun : (run (readBlocksRound (.accepting 10240))
      2 (readBlocksInit [] (segments exMisread ++ []) [])).map (Option.map Prod.snd) =
      some (some (retval .eHttpChunked)) := by decide
  obtain ⟨r', hr', hret⟩ := Option.map_eq_some_iff.mp hrun
  have := hr.unique ⟨2, hr'⟩
  rw [← this] at hret
  simp [retval] at hret

end Dframework
