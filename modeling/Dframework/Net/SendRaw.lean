import Mathlib
import Dframework.Library.Loop
import Dframework.Net.Sending

/-!
# `Socket::send_raw`

The loop offers what is left to `::send` until nothing is. Where the kernel has no room, the answer
is `EAGAIN`, and `Net::isInprogress` knows `EINPROGRESS` only: `wait_send` is not asked, in either
mode. The count of `::send` is kept as an `int`.

Results:
1. `sendRaw_returns`: with less than 2^31 bytes it does the same in both modes.
2. `sendRaw_sent_iff`: when everything is sent, once and in order.
-/

namespace Dframework

open CLib Loop

/-- The values of `errno` that are told apart. `other` has the number that `Retval::errno_short`
finds for it. `EWOULDBLOCK` is `EAGAIN`. -/
inductive SendErrno where
  | eagain
  | einprogress
  | other (e : Retno)
  deriving DecidableEq, Repr

def isInprogress (eno : SendErrno) : Bool :=
  eno = .einprogress

/-- What `Retval::errno_short` finds, and `DFW_E_WRITE` where it finds nothing. -/
def SendErrno.retno : SendErrno → Retno
  | .eagain => .eAgain
  | .einprogress => .eWrite
  | .other e => e

/-- What one round of the loop meets: `m_bStop`; how much room `::send` finds, where `none` is -1;
`errno` behind the call; and what `wait_send` answers when it is asked. -/
structure SendTurn where
  stop : Bool := false
  room : Option Nat
  eno : SendErrno := .eagain
  wait : Retval := none
  deriving DecidableEq, Repr

/-- The variables of `send_raw` at the head of a round, `turn` is its number. `wire` is what the
kernel has taken so far. -/
structure SendState where
  offset : Nat
  l_size : Nat
  wire : Bytes
  turn : Nat
  deriving DecidableEq, Repr

def SendState.start (data : Bytes) : SendState := ⟨0, data.length, [], 0⟩

/-- The loop of `send_raw`: what it answers, and where it stands then. -/
def sendRawRound (data : Bytes) (iswait : Bool) (turns : Nat → SendTurn) (t : SendState) :
    Round SendState (Retval × SendState) :=
  if t.l_size = 0 then .done (none, t)
  else
    let turn := turns t.turn
    if turn.stop then .done (retvalMsg .error "Socket is stop.", t)
    else
      let taken := turn.room.map fun n => min n t.l_size
      let wire := t.wire ++ (data.drop t.offset).take (taken.getD 0)
      let t := { t with wire, turn := t.turn + 1 }
      let s_size := Int.bmod ((taken.map Int.ofNat).getD (-1)) (2 ^ 32)
      if s_size = -1 then
        if isInprogress turn.eno then
          if !iswait then .done (retval .eTimeout, t)
          else
            match turn.wait with
            | none => .next t
            | some r => .done (some r, t)
        else .done (retval turn.eno.retno, t)
      else if 0 < s_size then
        .next { t with l_size := t.l_size - s_size.toNat, offset := t.offset + s_size.toNat }
      else .done (retval .eDisconnect, t)

section

variable {data : Bytes} {iswait : Bool} {turns : Nat → SendTurn} {t t' : SendState}

theorem sendRawRound_zero (h : t.l_size = 0) : sendRawRound data iswait turns t = .done (none, t) :=
  if_pos h

/-- A count that fits in an `int`. -/
theorem sendRawRound_taken {n : Nat} (h : t.l_size ≠ 0) (hstop : (turns t.turn).stop = false)
    (hroom : (turns t.turn).room = some n) (hn : 0 < n) (hint : min n t.l_size < 2 ^ 31) :
    sendRawRound data iswait turns t = .next
      ⟨t.offset + min n t.l_size, t.l_size - min n t.l_size,
        t.wire ++ (data.drop t.offset).take (min n t.l_size), t.turn + 1⟩ := by
  have hcount : Int.bmod (min n t.l_size : Nat) (2 ^ 32) = (min n t.l_size : Nat) :=
    Int.bmod_eq_of_le (by omega) (by omega)
  have hpos : 0 < min n t.l_size := by omega
  rw [sendRawRound, if_neg h]
  simp only [hstop, hroom, Option.map_some, Option.getD_some, Int.ofNat_eq_natCast, hcount]
  rw [if_neg Bool.false_ne_true, if_neg (by omega), if_pos (by omega), Int.toNat_natCast]

/-- `::send` fails, and not with what `Net::isInprogress` knows. -/
theorem sendRawRound_fails (h : t.l_size ≠ 0) (hstop : (turns t.turn).stop = false)
    (hroom : (turns t.turn).room = none) (heno : isInprogress (turns t.turn).eno = false) :
    ∃ t', sendRawRound data iswait turns t = .done (retval (turns t.turn).eno.retno, t') ∧
      t'.wire = t.wire := by
  rw [sendRawRound, if_neg h]
  simp only [hstop, hroom, heno]
  exact ⟨_, rfl, List.append_nil _⟩

/-- A round that goes on: the kernel has taken what it found room for, and as many bytes are counted
where that fits in an `int`. -/
theorem sendRawRound_next (h : sendRawRound data iswait turns t = .next t') :
    t.l_size ≠ 0 ∧ ∃ n c, n = min ((turns t.turn).room.getD 0) t.l_size ∧ c ≤ n ∧
      (2 ^ 31 ≤ n → c < n) ∧
      t' = ⟨t.offset + c, t.l_size - c, t.wire ++ (data.drop t.offset).take n, t.turn + 1⟩ := by
  rw [sendRawRound] at h
  split at h
  · cases h
  next hne =>
    simp only at h
    split at h
    · cases h
    refine ⟨hne, min ((turns t.turn).room.getD 0) t.l_size, ?_⟩
    have htaken : ((turns t.turn).room.map fun n => min n t.l_size).getD 0 =
        min ((turns t.turn).room.getD 0) t.l_size := by
      cases (turns t.turn).room <;> simp
    rw [htaken] at h
    split at h
    · -- nothing is counted for -1, not even where `::send` has taken 2^32 - 1 bytes
      refine ⟨0, rfl, Nat.zero_le _, fun hlong => (Nat.two_pow_pos 31).trans_le hlong, ?_⟩
      split at h
      · split at h
        · cases h
        · split at h
          · cases h
            rfl
          · cases h
      · cases h
    next hminus =>
      split at h
      next hpos =>
        rcases hroom : (turns t.turn).room with _ | n
        · simp only [hroom, Option.map_none, Option.getD_none] at hpos
          exact absurd hpos (by decide)
        simp only [hroom, Option.map_some, Option.getD_some, Int.ofNat_eq_natCast] at h hpos
        rw [Option.getD_some]
        refine ⟨_, rfl, ?_, ?_, (Round.next.inj h).symm⟩
        · rw [Int.bmod_def] at hpos ⊢
          split at hpos <;> omega
        · rw [Int.bmod_def] at hpos ⊢
          split at hpos <;> omega
      next => cases h

/-- Nothing is reported when nothing is left. -/
theorem sendRawRound_none (h : sendRawRound data iswait turns t = .done (none, t')) :
    t.l_size = 0 ∧ t' = t := by
  rw [sendRawRound] at h
  split at h
  next hzero =>
    cases h
    exact ⟨hzero, rfl⟩
  next =>
    simp only at h
    split at h
    · cases h
    split at h
    · split at h
      · split at h
        · cases h
        · split at h <;> cases h
      · cases h
    · split at h <;> cases h

/-! ## Both modes -/

/-- What a round meets where `::send` does this. -/
def Sending.turn : Sending → SendTurn
  | .taken n => { room := some n }
  | .wouldBlock => { room := none }
  | .failed e => { room := none, eno := .other e }

def turnsOf (sends : List Sending) (k : Nat) : SendTurn :=
  ((sends[k]?).getD .wouldBlock).turn

theorem sendRaw_nil (sends : List Sending) : sendRaw [] sends = ([], none) := by
  cases sends <;> rfl

theorem sendRaw_returns_drop (h : data.length < 2 ^ 31) (iswait : Bool) {sends rest : List Sending}
    {off k : Nat} (wire : Bytes) (hrest : sends.drop k = rest) :
    ∃ t, Returns (sendRawRound data iswait (turnsOf sends)) ⟨off, data.length - off, wire, k⟩
      ((sendRaw (data.drop off) rest).2, t) ∧
      t.wire = wire ++ (sendRaw (data.drop off) rest).1 := by
  have hturn : turnsOf sends k = ((rest.head?).getD .wouldBlock).turn := by
    rw [turnsOf, ← hrest, List.head?_drop]
  rcases hleft : data.drop off with _ | ⟨b, bs⟩
  · have hzero := List.drop_eq_nil_iff.mp hleft
    rw [sendRaw_nil]
    exact ⟨_, returns_of_done (sendRawRound_zero (Nat.sub_eq_zero_of_le hzero)),
      (List.append_nil wire).symm⟩
  have hlen : (b :: bs).length = data.length - off := by rw [← hleft, List.length_drop]
  have hne : data.length - off ≠ 0 := by
    rw [← hlen]
    exact Nat.succ_ne_zero _
  have hfails : ∀ e, turnsOf sends k = e → e.stop = false → e.room = none →
      isInprogress e.eno = false →
      ∃ t, Returns (sendRawRound data iswait (turnsOf sends)) ⟨off, data.length - off, wire, k⟩
        (retval e.eno.retno, t) ∧ t.wire = wire ++ [] := by
    rintro _ rfl hstop hroom heno
    obtain ⟨t, hdone, hwire⟩ : ∃ t, sendRawRound data iswait (turnsOf sends)
        ⟨off, data.length - off, wire, k⟩ = .done (_, t) ∧ t.wire = wire :=
      sendRawRound_fails hne hstop hroom heno
    exact ⟨t, returns_of_done hdone, hwire.trans (List.append_nil wire).symm⟩
  match rest with
  | [] => exact hfails _ hturn rfl rfl rfl
  | .wouldBlock :: rest => exact hfails _ hturn rfl rfl rfl
  | .failed e :: rest => exact hfails _ hturn rfl rfl rfl
  | .taken n :: rest =>
    have hnext : sends.drop (k + 1) = rest := by rw [← List.drop_drop, hrest, List.drop_one]; rfl
    rcases Nat.eq_zero_or_pos n with rfl | hn
    · have hdone : sendRawRound data iswait (turnsOf sends) ⟨off, data.length - off, wire, k⟩ =
          .done (retval .eDisconnect, ⟨off, data.length - off, wire ++ [], k + 1⟩) := by
        rw [sendRawRound, if_neg hne]
        simp only [hturn, List.head?_cons, Option.getD_some, Sending.turn, Option.map_some,
          Nat.zero_min]
        rfl
      exact ⟨_, returns_of_done hdone, rfl⟩
    · obtain ⟨m, hm⟩ : ∃ m, m = min n (data.length - off) := ⟨_, rfl⟩
      have hround : sendRawRound data iswait (turnsOf sends) ⟨off, data.length - off, wire, k⟩ =
          .next ⟨off + m, data.length - off - m, wire ++ (data.drop off).take m, k + 1⟩ := by
        rw [hm]
        exact sendRawRound_taken hne (by rw [hturn]; rfl) (by rw [hturn]; rfl) hn
          (Nat.lt_of_le_of_lt (Nat.min_le_right _ _) (Nat.lt_of_le_of_lt (Nat.sub_le _ _) h))
      obtain ⟨t, hret, hwire⟩ : ∃ t, Returns (sendRawRound data iswait (turnsOf sends))
          ⟨off + m, data.length - (off + m), wire ++ (data.drop off).take m, k + 1⟩
          ((sendRaw (data.drop (off + m)) rest).2, t) ∧
          t.wire = wire ++ (data.drop off).take m ++ (sendRaw (data.drop (off + m)) rest).1 :=
        sendRaw_returns_drop h iswait _ hnext
      have hdrop : data.drop (off + m) = (b :: bs).drop n := by
        rw [← hleft, List.drop_drop]
        by_cases hle : n ≤ data.length - off
        · rw [hm, Nat.min_eq_left hle]
        · rw [List.drop_eq_nil_of_le (by omega), List.drop_eq_nil_of_le (by omega)]
      have htake : (data.drop off).take m = (b :: bs).take n := by
        rw [hleft, hm, ← hlen]
        exact List.take_eq_take_min.symm
      rw [Nat.sub_sub] at hround
      rw [hdrop] at hret hwire
      refine ⟨t, (returns_next_iff hround).mpr ?_, ?_⟩
      · rw [sendRaw, if_neg hn.ne']
        exact hret
      · rw [hwire, htake, sendRaw, if_neg hn.ne', List.append_assoc]
termination_by rest

/-- In either mode it does what it does on a socket that does not block: a kernel without room is
not waited for. -/
theorem sendRaw_returns (h : data.length < 2 ^ 31) (iswait : Bool) (sends : List Sending) :
    ∃ t, Returns (sendRawRound data iswait (turnsOf sends)) (.start data)
      ((sendRaw data sends).2, t) ∧ t.wire = (sendRaw data sends).1 :=
  sendRaw_returns_drop h iswait [] (List.drop_zero)

end

/-! ## In waiting mode -/

/-- A round of a socket that is not stopped, with a kernel that finds some room, or finds none and
finds some later. -/
structure SendTurn.Quiet (turn : SendTurn) : Prop where
  stop : turn.stop = false
  wait : turn.wait = none
  answer : (∃ n, 0 < n ∧ turn.room = some n) ∨ turn.room = none ∧ turn.eno = .eagain

/-- What is left of `size` bytes before the `k`-th round, when each takes what it finds room for. -/
def leftToSend (turns : Nat → SendTurn) (size : Nat) : Nat → Nat
  | 0 => size
  | k + 1 => leftToSend turns size k - ((turns k).room).getD 0

/-- `send_raw` reports nothing, and the kernel has taken the bytes once and in order. -/
def SentAll (data : Bytes) (iswait : Bool) (turns : Nat → SendTurn) (t : SendState) : Prop :=
  ∃ t', Returns (sendRawRound data iswait turns) t (none, t') ∧ t'.wire = data

/-- Until nothing is left there is always room, and never for 2^31 bytes of what is left. -/
def RoomAlways (turns : Nat → SendTurn) (size : Nat) : Prop :=
  ∀ k, leftToSend turns size k ≠ 0 →
    ∃ n, (turns k).room = some n ∧ min n (leftToSend turns size k) < 2 ^ 31

section

variable {data : Bytes} {iswait : Bool} {turns : Nat → SendTurn} {t t' : SendState} {k : Nat}

/-- Where the loop stands before the `k`-th round when every count was right. -/
def sentState (data : Bytes) (turns : Nat → SendTurn) (k : Nat) : SendState :=
  ⟨data.length - leftToSend turns data.length k, leftToSend turns data.length k,
    data.take (data.length - leftToSend turns data.length k), k⟩

theorem leftToSend_le (turns : Nat → SendTurn) (size k : Nat) : leftToSend turns size k ≤ size := by
  induction k with
  | zero => exact le_rfl
  | succ k ih => exact (Nat.sub_le _ _).trans ih

theorem sentState_zero : sentState data turns 0 = .start data := by
  simp [sentState, leftToSend, SendState.start]

theorem sentState_next (hq : (turns k).Quiet) (hne : leftToSend turns data.length k ≠ 0) {n : Nat}
    (hroom : (turns k).room = some n) (hint : min n (leftToSend turns data.length k) < 2 ^ 31) :
    sendRawRound data iswait turns (sentState data turns k) =
      .next (sentState data turns (k + 1)) := by
  have hle := leftToSend_le turns data.length k
  obtain ⟨m, hm, hn⟩ | ⟨hnone, -⟩ := hq.answer
  · obtain rfl := Option.some.inj (hroom.symm.trans hn)
    have hround : sendRawRound data iswait turns (sentState data turns k) = .next _ :=
      sendRawRound_taken hne hq.stop hroom hm hint
    have hleft : leftToSend turns data.length (k + 1) = leftToSend turns data.length k - n := by
      rw [leftToSend, hroom, Option.getD_some]
    rw [hround, sentState, sentState, hleft]
    refine congrArg _ ?_
    simp only [SendState.mk.injEq, and_true]
    refine ⟨by omega, by omega, ?_⟩
    rw [← List.take_add]
    congr 1
    omega
  · rw [hnone] at hroom
    cases hroom

theorem sentAll_of_room (hq : ∀ k, (turns k).Quiet) (h : RoomAlways turns data.length) (k : Nat) :
    SentAll data iswait turns (sentState data turns k) := by
  by_cases hzero : leftToSend turns data.length k = 0
  · refine ⟨_, returns_of_done (sendRawRound_zero hzero), ?_⟩
    rw [sentState, hzero]
    exact List.take_length
  · obtain ⟨n, hroom, hint⟩ := h k hzero
    have hround : sendRawRound data iswait turns (sentState data turns k) = .next _ :=
      sentState_next (hq k) hzero hroom hint
    obtain ⟨t', hret, hwire⟩ := sentAll_of_room hq h (k + 1)
    exact ⟨t', (returns_next_iff hround).mpr hret, hwire⟩
termination_by leftToSend turns data.length k
decreasing_by
  obtain ⟨m, hm, hn⟩ | ⟨hnone, -⟩ := (hq k).answer
  · rw [leftToSend, hn, Option.getD_some]
    omega
  · rw [hnone] at hroom
    cases hroom

/-- Bytes that the kernel has taken and that are not counted are sent again. -/
theorem not_sentAll_of_excess (hsum : t.offset + t.l_size = data.length)
    (hexcess : t.offset < t.wire.length) : ¬ SentAll data iswait turns t := by
  rintro ⟨t', hret, hwire⟩
  obtain ⟨u, hreach, hdone⟩ := hret.exists_reach
  have hinv : u.offset + u.l_size = data.length ∧ u.offset < u.wire.length := by
    refine hreach.invariant
      (I := fun u => u.offset + u.l_size = data.length ∧ u.offset < u.wire.length)
      ⟨hsum, hexcess⟩ ?_
    rintro s s' ⟨hs, hlt⟩ hround
    obtain ⟨-, n, c, hn, hc, -, rfl⟩ := sendRawRound_next hround
    refine ⟨by simp only; omega, ?_⟩
    simp only [List.length_append, List.length_take, List.length_drop]
    omega
  obtain ⟨hzero, rfl⟩ := sendRawRound_none hdone
  rw [hwire] at hinv
  omega

/-- A round from which everything is sent finds room, and counts what it takes. -/
theorem SentAll.room (h : SentAll data iswait turns (sentState data turns k))
    (hq : (turns k).Quiet) (hne : leftToSend turns data.length k ≠ 0) :
    ∃ n, (turns k).room = some n ∧ min n (leftToSend turns data.length k) < 2 ^ 31 := by
  obtain ⟨t', hret, hwire⟩ := h
  obtain ⟨n, hpos, hroom⟩ | ⟨hnone, heno⟩ := hq.answer
  · refine ⟨n, hroom, Nat.lt_of_not_le fun hlong => ?_⟩
    have hle := leftToSend_le turns data.length k
    cases hround : sendRawRound data iswait turns (sentState data turns k) with
    | done r =>
      obtain rfl := (returns_done_iff hround).mp hret
      exact hne (sendRawRound_none hround).1
    | next s =>
      obtain ⟨-, m, c, hm, -, hlt, rfl⟩ := sendRawRound_next hround
      have hcount : m = min n (leftToSend turns data.length k) := by
        rw [hm]
        show min (((turns k).room).getD 0) (leftToSend turns data.length k) = _
        rw [hroom, Option.getD_some]
      have hc := hlt (hcount ▸ hlong)
      refine not_sentAll_of_excess ?_ ?_ ⟨t', (returns_next_iff hround).mp hret, hwire⟩
      · simp only [sentState]
        omega
      · simp only [sentState, List.length_append, List.length_take, List.length_drop]
        omega
  · obtain ⟨u, hdone, -⟩ : ∃ u, sendRawRound data iswait turns (sentState data turns k) =
        .done (_, u) ∧ u.wire = (sentState data turns k).wire :=
      sendRawRound_fails hne hq.stop hnone (by rw [sentState, heno]; rfl)
    cases (returns_done_iff hdone).mp hret

theorem SentAll.sentState (h : SentAll data iswait turns (.start data))
    (hq : ∀ k, (turns k).Quiet) (hne : leftToSend turns data.length k ≠ 0) :
    SentAll data iswait turns (sentState data turns k) := by
  induction k with
  | zero => rwa [sentState_zero]
  | succ k ih =>
    have hne' : leftToSend turns data.length k ≠ 0 := fun hzero =>
      hne (by rw [leftToSend, hzero, Nat.zero_sub])
    obtain ⟨n, hroom, hint⟩ := (ih hne').room (hq k) hne'
    obtain ⟨t', hret, hwire⟩ := ih hne'
    exact ⟨t', (returns_next_iff (sentState_next (hq k) hne' hroom hint)).mp hret, hwire⟩

/-- Everything is sent, once and in order, exactly when the kernel always finds room and never takes
2^31 bytes at once. -/
theorem sendRaw_sent_iff (data : Bytes) (turns : Nat → SendTurn) (hq : ∀ k, (turns k).Quiet) :
    SentAll data true turns (.start data) ↔ RoomAlways turns data.length := by
  constructor
  · exact fun hsent k hne => (hsent.sentState hq hne).room (hq k) hne
  · intro h
    have hsent : SentAll data true turns (sentState data turns 0) := sentAll_of_room hq h 0
    rwa [sentState_zero] at hsent

/-- A kernel with room for two bytes, and a kernel that has no room at first. -/
def twoBytes (_ : Nat) : SendTurn := { room := some 2 }

def fullAtFirst (k : Nat) : SendTurn := { room := if k = 0 then none else some 2 }

theorem sendRaw_sent_iff_twoBytes : SentAll (bytes "abc") true twoBytes (.start (bytes "abc")) :=
  (sendRaw_sent_iff _ twoBytes fun _ => ⟨rfl, rfl, .inl ⟨2, by decide, rfl⟩⟩).mpr
    fun _ _ => ⟨2, rfl, (Nat.min_le_left _ _).trans_lt (by decide)⟩

/-- `EAGAIN` ends the call, although there is room when it is asked again. -/
theorem not_sendRaw_sent : ¬ ∀ (data : Bytes) (turns : Nat → SendTurn), (∀ k, (turns k).Quiet) →
    SentAll data true turns (.start data) := by
  intro h
  have hq : ∀ k, (fullAtFirst k).Quiet := by
    intro k
    refine ⟨rfl, rfl, ?_⟩
    rcases Nat.eq_zero_or_pos k with rfl | hk
    · exact .inr ⟨rfl, rfl⟩
    · exact .inl ⟨2, by decide, if_neg hk.ne'⟩
  obtain ⟨t', hret, -⟩ := h (bytes "abc") fullAtFirst hq
  have hround : ∃ u, sendRawRound (bytes "abc") true fullAtFirst (.start (bytes "abc")) =
      .done (retval .eAgain, u) := ⟨_, rfl⟩
  obtain ⟨u, hdone⟩ := hround
  cases (returns_done_iff hdone).mp hret

end

end Dframework
