import Mathlib
import Dframework.Library.Loop
import Dframework.Net.Socket
import Dframework.Http.Round

/-!
# `HttpConnection`: reading the head of a response

`readLine` hands out the lines of a response: from the bytes that are already saved
in the round, and otherwise by `recv` into an array of its own. The two functions
that call it are relations, since they loop; a result `none` is a run that reads
through `NULL`. The lines `readLine` has handed out are kept as a history. No line is
longer than two fillings of the array, and so no `Location` is
(`ReadStatusAndHeader.location_length`).
-/

namespace Dframework

open CLib Loop

/-- The room `HttpConnection::readLine` has for one line. -/
def DFW_READLINE_SIZE : Nat := 51200

/-- The variables of the loop in `HttpConnection::readLine`: `data` is what stands in
`buf` below `offset`. -/
structure LineState where
  round : HttpRound
  sock : Socket
  data : Bytes
  size : Nat

/-- A pass of the loop in `HttpConnection::readLine`. A `recv` that fills the room
reports no status, which the loop takes for an error. -/
def lineRound (s : LineState) : Round LineState (Retval × HttpRound × Socket) :=
  match waitRecv s.sock with
  | (some e, sock) => .done (some e, s.round, sock)
  | (none, sock) =>
    match recvRaw s.size sock with
    | (_, none, sock) => .done (retvalMsg .error "Unknown status.", s.round, sock)
    | (r, some e, sock) =>
      if e.value ≠ .eAgain ∧ e.value ≠ .eDisconnect then
        .done (some e, s.round, sock)
      else if r = [] ∧ e.value = .eAgain then
        .next { s with sock := sock }
      else if e.value = .eDisconnect then
        .done (retvalMsg .eDisconnect
          "Disconnected for reading in HttpConnection's readLine.", s.round, sock)
      else
        let data := s.data ++ r
        match strstr data CRLF with
        | none => .next { s with sock := sock, data := data, size := s.size - r.length }
        | some _ =>
          let round := { s.round with recvBuffer := s.round.recvBuffer ++ data }
          .done (round.readLine.1, round.readLine.2, sock)

def ReadLine (round : HttpRound) (sock : Socket) (r : Retval × HttpRound × Socket) : Prop :=
  match round.readLine with
  | (none, round') => r = (none, round', sock)
  | (some _, round') => Returns lineRound ⟨round', sock, [], DFW_READLINE_SIZE⟩ r

/-- `HttpConnection::readResponseHeader`, with the lines that it is handed. What
`parseHeaderLine` answers is not looked at. -/
inductive ReadResponseHeader : HttpRound → Socket → List Bytes →
    Option (Retval × HttpRound × Socket) → Prop
  | failed {round round' : HttpRound} {sock sock' : Socket} {e : Ret}
      (hread : ReadLine round sock (some e, round', sock')) :
      ReadResponseHeader round sock [] (some (some e, round', sock'))
  | ended {round round' : HttpRound} {sock sock' : Socket}
      (hread : ReadLine round sock (none, round', sock')) (hline : round'.lineBuffer = []) :
      ReadResponseHeader round sock [round'.lineBuffer] (some (none, round', sock'))
  | crashed {round round' : HttpRound} {sock sock' : Socket}
      (hread : ReadLine round sock (none, round', sock')) (hline : round'.lineBuffer ≠ [])
      (hparse : round'.parseHeaderLine = none) :
      ReadResponseHeader round sock [round'.lineBuffer] none
  | line {round round' round'' : HttpRound} {sock sock' : Socket} {ret : Retval}
      {lines : List Bytes} {r : Option (Retval × HttpRound × Socket)}
      (hread : ReadLine round sock (none, round', sock')) (hline : round'.lineBuffer ≠ [])
      (hparse : round'.parseHeaderLine = some (ret, round''))
      (hrest : ReadResponseHeader round'' sock' lines r) :
      ReadResponseHeader round sock (round'.lineBuffer :: lines) r

/-- `HttpConnection::readStatusAndHeader`, with the lines that it is handed. -/
inductive ReadStatusAndHeader : HttpRound → Socket → List Bytes →
    Option (Retval × HttpRound × Socket) → Prop
  | failed {round round' : HttpRound} {sock sock' : Socket} {e : Ret}
      (hread : ReadLine round sock (some e, round', sock')) :
      ReadStatusAndHeader round sock [] (some (some e, round', sock'))
  | crashed {round round' : HttpRound} {sock sock' : Socket}
      (hread : ReadLine round sock (none, round', sock'))
      (hparse : round'.parseStatusLine = none) :
      ReadStatusAndHeader round sock [round'.lineBuffer] none
  | refused {round round' round'' : HttpRound} {sock sock' : Socket} {e : Ret}
      (hread : ReadLine round sock (none, round', sock'))
      (hparse : round'.parseStatusLine = some (some e, round'')) :
      ReadStatusAndHeader round sock [round'.lineBuffer] (some (some e, round'', sock'))
  | header {round round' round'' : HttpRound} {sock sock' : Socket} {lines : List Bytes}
      {r : Option (Retval × HttpRound × Socket)}
      (hread : ReadLine round sock (none, round', sock'))
      (hparse : round'.parseStatusLine = some (none, round''))
      (hrest : ReadResponseHeader round'' sock' lines r) :
      ReadStatusAndHeader round sock (round'.lineBuffer :: lines) r

/-- A call of `readLine` has one result. -/
theorem ReadLine.unique {round : HttpRound} {sock : Socket} {r r' : Retval × HttpRound × Socket}
    (h : ReadLine round sock r) (h' : ReadLine round sock r') : r = r' := by
  unfold ReadLine at h h'
  rcases hr : round.readLine with ⟨ret, round'⟩
  rw [hr] at h h'
  cases ret with
  | none => exact h.trans h'.symm
  | some e => exact h.unique h'

/-! ## How a stream ends -/

/-- What a peer does behind the last pause: nothing, it closes, or it sends a last
piece and closes right behind it. -/
inductive Ending where
  | silent
  | closed
  | closing (s : Bytes)
  deriving DecidableEq, Repr

/-- What the ending is on the socket. -/
def Ending.sock : Ending → Socket
  | .silent => []
  | .closed => [.closed]
  | .closing s => [.data s, .closed]

def Ending.bytes : Ending → Bytes
  | .silent => []
  | .closed => []
  | .closing s => s

/-! ## A pass of `readLine` -/

namespace ConnectionLemmas

/-- A segment that leaves room. -/
theorem lineRound_segment (round : HttpRound) (data : Bytes) {s : Bytes} {size : Nat} (hs : s ≠ [])
    (hlt : s.length < size) (sock : Socket) :
    lineRound ⟨round, segment s ++ sock, data, size⟩ =
      match strstr (data ++ s) CRLF with
      | none => .next ⟨round, sock, data ++ s, size - s.length⟩
      | some _ =>
        .done ((HttpRound.readLine { round with
          recvBuffer := round.recvBuffer ++ (data ++ s) }).1, (HttpRound.readLine { round with
          recvBuffer := round.recvBuffer ++ (data ++ s) }).2, sock) := by
  have hrecv : recvRaw size (.data s :: .wouldBlock :: sock) = (s, retval .eAgain, sock) :=
    recvRaw_lt hlt sock
  have hwait : waitRecv (segment s ++ sock) = (none, .data s :: .wouldBlock :: sock) :=
    waitRecv_data hs _
  simp only [lineRound, hwait, hrecv, retval, hs, if_false, ne_eq, not_true_eq_false,
    reduceCtorEq, not_false_eq_true, and_true]

/-- A pass in which `recv` answers something else than that it should be tried again. -/
theorem lineRound_failed {s : LineState}
    (h : (recvRaw s.size (waitRecv s.sock).2).2.1.map Ret.value ≠ some .eAgain) :
    ∃ e round sock, lineRound s = .done (some e, round, sock) := by
  rcases hwait : waitRecv s.sock with ⟨wait, sock⟩
  cases wait with
  | some e => exact ⟨e, s.round, sock, by simp only [lineRound, hwait]⟩
  | none =>
    rw [hwait] at h
    rcases hrecv : recvRaw s.size sock with ⟨r, ret, sock'⟩
    rw [hrecv] at h
    cases ret with
    | none => exact ⟨_, s.round, sock', by simp only [lineRound, hwait, hrecv, retvalMsg]; rfl⟩
    | some e =>
      have hne : e.value ≠ .eAgain := by simpa using h
      simp only [lineRound, hwait, hrecv, hne, ne_eq, not_false_eq_true, true_and, and_false,
        if_false, retvalMsg]
      split
      next => exact ⟨_, _, _, rfl⟩
      next hdis =>
        rw [if_pos (not_not.mp hdis)]
        exact ⟨_, _, _, rfl⟩

/-- A segment that fills the room. -/
theorem lineRound_full (round : HttpRound) (data : Bytes) {s : Bytes} {size : Nat} (hs : s ≠ [])
    (hge : size ≤ s.length) (sock : Socket) :
    ∃ e round' sock', lineRound ⟨round, segment s ++ sock, data, size⟩ =
      .done (some e, round', sock') := by
  refine lineRound_failed ?_
  have hwait : waitRecv (segment s ++ sock) = (none, .data s :: .wouldBlock :: sock) :=
    waitRecv_data hs _
  simp only [hwait]
  rcases Nat.eq_zero_or_pos size with rfl | hpos
  · simp
  · rcases hge.lt_or_eq with h | rfl
    · simp [recvRaw_gt h hpos]
    · simp [recvRaw_eq hs]

/-- The ending of a stream: no line is read from it. -/
theorem lineRound_ending (e : Ending) (round : HttpRound) (data : Bytes) (size : Nat) :
    ∃ err round' sock', lineRound ⟨round, e.sock, data, size⟩ =
      .done (some err, round', sock') := by
  have hclosed : ∀ size, (recvRaw size [.closed]).2.1.map Ret.value ≠ some .eAgain := by
    intro size
    cases size <;> simp [recvRaw, retval]
  cases e with
  | silent =>
    simp only [lineRound, Ending.sock, waitRecv, retval]
    exact ⟨_, _, _, rfl⟩
  | closed => exact lineRound_failed (hclosed size)
  | closing s =>
    refine lineRound_failed ?_
    cases s with
    | nil => exact hclosed size
    | cons x xs =>
      have hwait : waitRecv (.data (x :: xs) :: [.closed]) = (none, .data (x :: xs) :: [.closed]) :=
        waitRecv_data (List.cons_ne_nil x xs) _
      simp only [Ending.sock, hwait]
      cases size with
      | zero => simp
      | succ n =>
        rw [recvRaw]
        split
        · simp
        · exact hclosed _

end ConnectionLemmas

/-! ## How long a location can be -/

/-- What a round keeps below while a head is read into it: a line is at most what was saved and one
filling of the array. -/
structure HttpRound.Bounded (round : HttpRound) : Prop where
  saved : round.recvBuffer.length ≤ DFW_READLINE_SIZE
  location : round.location.length ≤ 2 * DFW_READLINE_SIZE

/-- In the loop of `readLine` the array has room for what is in it and for what may still come. -/
theorem lineRound_room {s s' : LineState} (h : lineRound s = .next s') :
    s'.round = s.round ∧ s'.data.length + s'.size = s.data.length + s.size := by
  have hle := recvRaw_length_le s.size (waitRecv s.sock).2
  unfold lineRound at h
  split at h
  next => cases h
  next sock hwait =>
    rw [hwait] at hle
    split at h
    next => cases h
    next r e sock' hrecv =>
      rw [hrecv] at hle
      split_ifs at h
      · cases h
        exact ⟨rfl, rfl⟩
      · dsimp only at h
        split at h
        next =>
          cases h
          refine ⟨rfl, ?_⟩
          simp only [List.length_append] at hle ⊢
          omega
        next => cases h

/-- The line that ends the loop of `readLine` is the first one of what was saved and what came. -/
theorem lineRound_line {s : LineState} {round' : HttpRound} {sock' : Socket}
    (h : lineRound s = .done (none, round', sock')) :
    ∃ r, r.length ≤ s.size ∧
      HttpRound.readLine { s.round with recvBuffer := s.round.recvBuffer ++ (s.data ++ r) } =
        (none, round') := by
  have hle := recvRaw_length_le s.size (waitRecv s.sock).2
  unfold lineRound at h
  split at h
  next => cases h
  next sock hwait =>
    rw [hwait] at hle
    split at h
    next => cases h
    next r e sock'' hrecv =>
      rw [hrecv] at hle
      split_ifs at h
      · cases h
      · cases h
      · dsimp only at h
        split at h
        next => cases h
        next =>
          obtain ⟨hret, hround, -⟩ := by simpa using h
          exact ⟨r, hle, Prod.ext hret hround⟩

/-- A line that is handed out leaves no more than one filling of the array. -/
theorem ReadLine.bounded {round round' : HttpRound} {sock sock' : Socket}
    (h : ReadLine round sock (none, round', sock')) (hb : round.Bounded) :
    round'.Bounded ∧ round'.lineBuffer.length ≤ 2 * DFW_READLINE_SIZE := by
  have hsaved := hb.saved
  unfold ReadLine at h
  split at h
  next first hread =>
    cases h
    obtain ⟨size, -, rfl⟩ := readLine_fields hread
    refine ⟨⟨?_, hb.location⟩, ?_⟩
    · exact (List.drop_sublist ..).length_le.trans hsaved
    · exact (List.take_sublist ..).length_le.trans (by omega)
  next e first hread =>
    obtain ⟨hnone, rfl⟩ := readLine_failed hread
    obtain ⟨s, hreach, hdone⟩ := h.exists_reach
    obtain ⟨hround, hroom⟩ := hreach.invariant
      (I := fun s => s.round = { round with lineBuffer := [] } ∧
        s.data.length + s.size = DFW_READLINE_SIZE) ⟨rfl, Nat.zero_add _⟩
      fun s s' hs hnext => (lineRound_room hnext).imp (·.trans hs.1) (·.trans hs.2)
    obtain ⟨r, hr, hread'⟩ := lineRound_line hdone
    rw [hround] at hread'
    obtain ⟨size, hsize, rfl⟩ := readLine_fields hread'
    -- the line ends in what came: it is no line of what was saved alone
    have hlong : round.recvBuffer.length < size + 2 := by
      by_contra hshort
      rw [strstr_of_append hsize (Nat.le_of_not_lt hshort)] at hnone
      cases hnone
    have hfit := strstr_add_length_le hsize
    simp only [List.length_append, CRLF, List.length_cons, List.length_nil] at hfit
    refine ⟨⟨?_, hb.location⟩, ?_⟩
    · simp only [List.length_drop, List.length_append]
      omega
    · simp only [List.length_take, List.length_append]
      omega

theorem ReadResponseHeader.bounded {round round' : HttpRound} {sock sock' : Socket}
    {lines : List Bytes} (h : ReadResponseHeader round sock lines (some (none, round', sock')))
    (hb : round.Bounded) : round'.Bounded := by
  generalize hr : some (none, round', sock') = r at h
  induction h with
  | failed => cases hr
  | ended hread =>
    cases hr
    exact (hread.bounded hb).1
  | crashed => cases hr
  | line hread _ hparse _ ih =>
    obtain ⟨hb', hline⟩ := hread.bounded hb
    refine ih ⟨parseHeaderLine_keeps hparse ▸ hb'.saved, ?_⟩ hr
    rcases parseHeaderLine_location hparse with h | h
    · exact h ▸ hb'.location
    · exact h.trans hline

theorem parseStatusLine_bounded {round round' : HttpRound} {ret : Retval}
    (h : round.parseStatusLine = some (ret, round')) (hb : round.Bounded) : round'.Bounded := by
  unfold HttpRound.parseStatusLine at h
  split at h
  next =>
    cases h
    exact hb
  next m _ =>
    obtain ⟨_, _, h⟩ := Option.bind_eq_some_iff.mp h
    obtain ⟨_, _, h⟩ := Option.bind_eq_some_iff.mp h
    obtain ⟨_, _, h⟩ := Option.bind_eq_some_iff.mp h
    cases h
    exact ⟨hb.saved, hb.location⟩

/-- The `Location` of a response that is read from a socket is at most two fillings of the array
long. -/
theorem ReadStatusAndHeader.location_length {round' : HttpRound} {sock sock' : Socket}
    {lines : List Bytes} (h : ReadStatusAndHeader {} sock lines (some (none, round', sock'))) :
    round'.location.length ≤ 102400 := by
  have hb : HttpRound.Bounded {} := ⟨Nat.zero_le _, Nat.zero_le _⟩
  cases h with
  | header hread hparse hrest =>
    exact (hrest.bounded (parseStatusLine_bounded hparse (hread.bounded hb).1)).location

end Dframework
