import Mathlib
import Dframework.Http.ChunkedBlocks

/-!
# Where `readBlocks` lets `recv` write

Every `recv` of `readBlocks` is given `size` bytes of room at `offset`. The
first loop keeps `offset + size` at the size of the array. The second loop sets
`size` from what the parse consumed, not from what it left, so the sum stays
within the array only as long as a parse leaves no more than it consumes.

Results, for any bytes the server sends, any query and any stack:
1. `recv_in_bounds_iff`: when every `recv` stays within 61440 bytes.
2. `recv_out_of_bounds`: one byte that is no chunk yet is enough to leave them.
-/

namespace Dframework

open CLib Loop

/-- In this pass `recv` is called: the reader buffer is empty, the wait has
succeeded and there is room. -/
def RecvIssued (s : BlocksState) : Prop :=
  s.readerBuffer = [] ∧ (waitRecv s.sock).1 = none ∧ 0 < s.size

instance (s : BlocksState) : Decidable (RecvIssued s) :=
  inferInstanceAs (Decidable (_ ∧ _ ∧ _))

/-- What the parser leaves of `rest`: the bytes from the first chunk on that has
not arrived completely. -/
def leftover (stale : Bytes) : Nat → Bytes → Bytes
  | 0, rest => rest
  | fuel + 1, rest =>
    if rest = [] then rest
    else
      match chunkHead (rest ++ stale) with
      | .chunk len val =>
        if savelen len val > rest.length then rest
        else leftover stale fuel (rest.drop (savelen len val))
      | _ => rest

/-- The bytes in the array once the pass has received. -/
def BlocksState.received (s : BlocksState) : Bytes :=
  s.data ++ (recvRaw s.size (waitRecv s.sock).2).1

/-- The parse of this pass leaves no more bytes than it consumes. -/
def ConsumesHalf (s : BlocksState) : Prop :=
  let r := (recvRaw s.size (waitRecv s.sock).2).1
  2 * (leftover (s.stale.drop r.length) (s.received.length + 1) s.received).length ≤
    s.received.length

namespace BlocksBoundsLemmas

theorem leftover_length_le (stale : Bytes) (fuel : Nat) (rest : Bytes) :
    (leftover stale fuel rest).length ≤ rest.length := by
  induction fuel generalizing rest with
  | zero => rfl
  | succ fuel ih =>
    rw [leftover]
    split
    · rfl
    · split
      next len val _ =>
        split
        · rfl
        · refine (ih _).trans ?_
          rw [List.length_drop]
          omega
      next => rfl

theorem parseBlocksLoop_leftover {q : HttpQuery} {stale rest rest' : Bytes} {fuel : Nat}
    {st st' : HttpChunked} (h : parseBlocksLoop q stale fuel st rest = some (st', rest', none)) :
    rest' = leftover stale fuel rest := by
  induction fuel generalizing st rest with
  | zero => cases h
  | succ fuel ih =>
    rw [parseBlocksLoop] at h
    rw [leftover]
    split at h
    next hnil =>
      cases h
      rw [if_pos hnil]
    next hne =>
      rw [if_neg hne]
      cases hc : chunkHead (rest ++ stale) with
      | more =>
        rw [hc] at h
        cases h
        rfl
      | last =>
        simp only [hc] at h
        split at h <;> simp [retval] at h
      | bad => simp [hc, retval] at h
      | chunk len val =>
        simp only [hc] at h ⊢
        split at h
        next hlt =>
          cases h
          rw [if_pos hlt]
        next hge =>
          rw [if_neg hge]
          split at h
          next => cases h
          next => cases h
          next => exact ih h

theorem parseChunkedBlocks_leftover {q : HttpQuery} {st : HttpChunked} {data stale : Bytes}
    {p : Parsed} (h : parseChunkedBlocks q st data stale = some p) (hret : p.ret = none) :
    p.data = leftover stale (data.length + 1) data ∧ p.o_size = data.length - p.data.length := by
  unfold parseChunkedBlocks at h
  split at h
  next => cases h
  next =>
    cases h
    cases hret
  next heq =>
    cases h
    exact ⟨parseBlocksLoop_leftover heq, rfl⟩

/-- After a wait that succeeded, `recv` finds something. -/
theorem recvRaw_after_wait {sock sock' : Socket} (h : waitRecv sock = (none, sock')) (size : Nat) :
    ¬ ((recvRaw size sock').1 = [] ∧ (recvRaw size sock').2.1.map Ret.value = some .eAgain) := by
  induction sock with
  | nil => simp [waitRecv, retval] at h
  | cons a sock ih =>
    cases a with
    | wouldBlock =>
      rw [waitRecv_wouldBlock] at h
      exact ih h
    | data b =>
      cases b with
      | nil =>
        rw [waitRecv] at h
        exact ih h
      | cons x xs =>
        simp only [waitRecv, Prod.mk.injEq, true_and] at h
        subst h
        cases size with
        | zero => simp
        | succ n =>
          rw [recvRaw]
          split <;> simp
    | closed =>
      simp only [waitRecv, Prod.mk.injEq, true_and] at h
      subst h
      cases size <;> simp [recvRaw, retval]
    | failed e =>
      simp only [waitRecv, Prod.mk.injEq, true_and] at h
      subst h
      cases size <;> cases e <;> simp [recvRaw, retval, Errno.retno]

/-- What a pass that calls `recv` does when it goes on. -/
theorem recvRound_next {q : HttpQuery} {s s' : BlocksState} (h : recvRound q s = .next s') :
    (waitRecv s.sock).1 = none ∧ s'.readerBuffer = s.readerBuffer ∧
    s.received.length ≤ DFW_HTTPSOCKET_MAX_SIZE2 ∧
    s'.data = leftover (s.stale.drop (recvRaw s.size (waitRecv s.sock).2).1.length)
      (s.received.length + 1) s.received ∧
    s'.size = sizeSub DFW_HTTPSOCKET_MAX_SIZE (s.received.length - s'.data.length) := by
  unfold recvRound at h
  unfold BlocksState.received
  rcases hw : waitRecv s.sock with ⟨wait, sock⟩
  rw [hw] at h
  cases wait with
  | some e => cases h
  | none =>
    have hfound := recvRaw_after_wait hw s.size
    rcases hr : recvRaw s.size sock with ⟨r, ret, sock'⟩
    rw [hr] at hfound
    simp only [hr] at h
    split at h
    next => cases h
    next =>
      split at h
      next => cases h
      next hfit =>
        split at h
        next => cases h
        next p hp =>
          split at h
          next => cases h
          next hret =>
            split at h
            next => cases h
            next =>
              cases h
              obtain ⟨hdata, hsize⟩ := parseChunkedBlocks_leftover hp (by simpa using hret)
              exact ⟨rfl, rfl, not_lt.mp hfit, hdata, congrArg (sizeSub _) hsize⟩

/-- What a pass over the reader buffer does when it goes on. -/
theorem fillRound_next {q : HttpQuery} {s s' : BlocksState} (h : fillRound q s = .next s') :
    s'.data.length ≤ s.data.length + s.size ∧
    s'.size = sizeSub DFW_HTTPSOCKET_MAX_SIZE s'.data.length := by
  rw [fillRound_eq, parsePass] at h
  split at h
  · cases h
  · split at h
    · cases h
    next p hp =>
      split at h
      · cases h
      next hret =>
        cases h
        obtain ⟨hdata, -⟩ := parseChunkedBlocks_leftover hp (by simpa using hret)
        refine ⟨?_, rfl⟩
        have hle := hdata ▸ leftover_length_le _ _ _
        refine hle.trans ?_
        simp only [BlocksState.store, List.length_append, List.length_take]
        omega

/-- What holds without any condition: the first loop uses the room that is
there, and the second one only runs out of room with at most a full array. -/
structure RoomInv (s : BlocksState) : Prop where
  filling : s.readerBuffer ≠ [] → s.data.length + s.size = DFW_HTTPSOCKET_MAX_SIZE
  no_room : s.size = 0 → s.data.length ≤ DFW_HTTPSOCKET_MAX_SIZE

theorem roomInv_step {q : HttpQuery} {s s' : BlocksState} (hi : RoomInv s)
    (h : readBlocksRound q s = .next s') : RoomInv s' := by
  unfold readBlocksRound at h
  split at h
  next hr =>
    obtain ⟨hlen, hsize⟩ := fillRound_next h
    have := hi.filling hr
    rw [sizeSub_of_le (by omega)] at hsize
    exact ⟨fun _ => by omega, fun _ => by omega⟩
  next hr =>
    obtain ⟨-, hreader, hfit, hdata, hsize⟩ := recvRound_next h
    have hleft := leftover_length_le (s.stale.drop (recvRaw s.size (waitRecv s.sock).2).1.length)
      (s.received.length + 1) s.received
    rw [← hdata] at hleft
    refine ⟨fun hne => absurd (hreader ▸ not_not.mp hr) hne, fun h0 => ?_⟩
    simp only [DFW_HTTPSOCKET_MAX_SIZE, DFW_HTTPSOCKET_MAX_SIZE2] at hsize hfit ⊢
    by_cases hle : s.received.length - s'.data.length ≤ 61440
    · rw [sizeSub_of_le hle] at hsize
      omega
    · rw [sizeSub, if_neg hle] at hsize
      omega

/-- As long as every `recv` is given no more room than there is, the array is not
overrun. -/
theorem received_le {s : BlocksState} (hi : RoomInv s) (hr : s.readerBuffer = [])
    (hw : (waitRecv s.sock).1 = none)
    (hb : RecvIssued s → s.data.length + s.size ≤ DFW_HTTPSOCKET_MAX_SIZE) :
    s.received.length ≤ DFW_HTTPSOCKET_MAX_SIZE := by
  have hle := recvRaw_length_le s.size (waitRecv s.sock).2
  rw [BlocksState.received, List.length_append]
  rcases Nat.eq_zero_or_pos s.size with h0 | hpos
  · have := hi.no_room h0
    omega
  · have := hb ⟨hr, hw, hpos⟩
    omega

/-- One pass that calls `recv`: the next `recv` stays within the array exactly
when the parse consumes half of what it is given. -/
theorem recv_step {q : HttpQuery} {s s' : BlocksState} (hi : RoomInv s)
    (hr : s.readerBuffer = []) (h : readBlocksRound q s = .next s')
    (hb : RecvIssued s → s.data.length + s.size ≤ DFW_HTTPSOCKET_MAX_SIZE) :
    s'.data.length + s'.size ≤ DFW_HTTPSOCKET_MAX_SIZE ↔ ConsumesHalf s := by
  rw [readBlocksRound, if_neg (not_not.mpr hr)] at h
  obtain ⟨hw, -, -, hdata, hsize⟩ := recvRound_next h
  have hrec := received_le hi hr hw hb
  have hleft := leftover_length_le (s.stale.drop (recvRaw s.size (waitRecv s.sock).2).1.length)
    (s.received.length + 1) s.received
  rw [ConsumesHalf, ← hdata]
  rw [← hdata] at hleft
  rw [sizeSub_of_le (by omega)] at hsize
  omega

end BlocksBoundsLemmas

open BlocksBoundsLemmas

/-- Every `recv` of a run stays within the 61440 bytes of the buffer exactly when
every parse that another `recv` follows leaves no more than it consumes. -/
theorem recv_in_bounds_iff (q : HttpQuery) (reader : Bytes) (sock : Socket) (stack : Bytes) :
    (∀ s, Reach (readBlocksRound q) (readBlocksInit reader sock stack) s → RecvIssued s →
      s.data.length + s.size ≤ DFW_HTTPSOCKET_MAX_SIZE) ↔
    (∀ s s', Reach (readBlocksRound q) (readBlocksInit reader sock stack) s →
      s.readerBuffer = [] → readBlocksRound q s = .next s' → RecvIssued s' → ConsumesHalf s) := by
  have hroom : ∀ s, Reach (readBlocksRound q) (readBlocksInit reader sock stack) s → RoomInv s :=
    fun s hs => hs.invariant ⟨fun _ => by simp [readBlocksInit], fun _ => by simp [readBlocksInit]⟩
      fun _ _ => roomInv_step
  constructor
  · intro hb s s' hs hr hstep hissued
    exact (recv_step (hroom s hs) hr hstep (hb s hs)).mp (hb s' (hs.tail hstep) hissued)
  · intro hc s hs
    -- the bound is carried along the run together with the room the first loop leaves
    refine (hs.invariant (I := fun s =>
      Reach (readBlocksRound q) (readBlocksInit reader sock stack) s ∧
        (RecvIssued s → s.data.length + s.size ≤ DFW_HTTPSOCKET_MAX_SIZE))
      ⟨.refl _, fun _ => by simp [readBlocksInit]⟩ ?_).2
    rintro s s' ⟨hs, hb⟩ hstep
    refine ⟨hs.tail hstep, fun hissued => ?_⟩
    by_cases hr : s.readerBuffer = []
    · exact (recv_step (hroom s hs) hr hstep hb).mpr (hc s s' hs hr hstep hissued)
    · have hroom' := (hroom s hs).filling hr
      rw [readBlocksRound, if_pos hr] at hstep
      obtain ⟨hlen, hsize⟩ := fillRound_next hstep
      rw [sizeSub_of_le (by omega)] at hsize
      omega

/-- A server that sends a digit and, a moment later, anything else. -/
def exDigit : Socket :=
  segments [bytes "5", bytes "\r\n"]

/-- The second `recv` is given 61440 bytes of room at offset 1. -/
theorem recv_out_of_bounds :
    ¬ ∀ s, Reach (readBlocksRound (.mk 10240 fun _ => none)) (readBlocksInit [] exDigit []) s →
      RecvIssued s → s.data.length + s.size ≤ DFW_HTTPSOCKET_MAX_SIZE := by
  intro h
  have hreach : Reach (readBlocksRound (.mk 10240 fun _ => none)) (readBlocksInit [] exDigit [])
      { readBlocksInit [] (segments [bytes "\r\n"]) [] with data := bytes "5" } :=
    .next rfl (.refl _)
  exact absurd (h _ hreach (by decide)) (by decide)

end Dframework
