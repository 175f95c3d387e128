import Mathlib
import Dframework.Base.Retval
import Dframework.Library.CLib

/-!
# The receiving side of a socket

A socket is the list of what is still going to happen on it: bytes that come
in, moments at which nothing is there to be read, the end of the connection, an
error. `recvRaw` is `Socket::recv_raw` on a socket that does not block and
`waitRecv` is `Socket::wait_recv`. A socket on which nothing happens any more
stays silent: `recv` finds nothing and the wait for it times out.

A peer that sends `s` and then pauses is `segment s`; the lemmas say what one
wait and one `recv` make of such a segment.
-/

namespace Dframework

open CLib

/-- The errors of `::recv` that are told apart here. -/
inductive Errno where
  | eintr
  | econnreset
  | other
  deriving DecidableEq, Repr

/-- `Retval::errno_short` as `recv_raw` uses it: an unknown error is `DFW_E_RECV`. -/
def Errno.retno : Errno → Retno
  | .eintr => .eIntr
  | .econnreset => .eConnreset
  | .other => .eRecv

inductive Arrival where
  | data (b : Bytes)
  | wouldBlock
  | closed
  | failed (e : Errno)
  deriving DecidableEq, Repr

/-- What is still going to happen on a socket, the next event first. -/
abbrev Socket := List Arrival

/-- `Socket::recv_raw` with room for `size` bytes: the bytes it stores, its
return value, and the socket behind it. It reads until the room is full, and
then reports no status at all, or until `::recv` has nothing to give. A closed
connection stays closed. -/
def recvRaw : Nat → Socket → Bytes × Retval × Socket
  | 0, sock => ([], none, sock)
  | _ + 1, [] => ([], retval .eAgain, [])
  | _ + 1, .wouldBlock :: sock => ([], retval .eAgain, sock)
  | _ + 1, .closed :: sock => ([], retval .eDisconnect, .closed :: sock)
  | _ + 1, .failed e :: sock => ([], retval e.retno, sock)
  | size + 1, .data b :: sock =>
    if size + 1 < b.length then (b.take (size + 1), none, .data (b.drop (size + 1)) :: sock)
    else
      let (more, ret, sock') := recvRaw (size + 1 - b.length) sock
      (b ++ more, ret, sock')
termination_by structural _ sock => sock

/-- `Socket::wait_recv`: waits until `::recv` would return something, and fails
with a timeout when nothing happens any more. -/
def waitRecv : Socket → Retval × Socket
  | [] => (retval .eTimeout, [])
  | .wouldBlock :: sock => waitRecv sock
  | .data [] :: sock => waitRecv sock
  | sock => (none, sock)

/-- The peer sends `s`, and nothing more for a while. -/
def segment (s : Bytes) : Socket :=
  [.data s, .wouldBlock]

/-- The peer sends the segments one after another. -/
def segments (ss : List Bytes) : Socket :=
  ss.flatMap segment

@[simp] theorem segments_nil : segments [] = [] := rfl

@[simp] theorem segments_cons (s : Bytes) (ss : List Bytes) :
    segments (s :: ss) = .data s :: .wouldBlock :: segments ss := rfl

/-! ## Reading a segment -/

theorem waitRecv_data {b : Bytes} (hb : b ≠ []) (sock : Socket) :
    waitRecv (.data b :: sock) = (none, .data b :: sock) := by
  cases b with
  | nil => exact absurd rfl hb
  | cons => simp [waitRecv]

@[simp] theorem waitRecv_wouldBlock (sock : Socket) :
    waitRecv (.wouldBlock :: sock) = waitRecv sock := by
  simp [waitRecv]

@[simp] theorem recvRaw_zero (sock : Socket) : recvRaw 0 sock = ([], none, sock) := by
  simp [recvRaw]

/-- A segment smaller than the room: all of it, and the news that there is no
more. -/
theorem recvRaw_lt {b : Bytes} {size : Nat} (h : b.length < size) (sock : Socket) :
    recvRaw size (.data b :: .wouldBlock :: sock) = (b, retval .eAgain, sock) := by
  obtain ⟨n, rfl⟩ : ∃ n, size = n + 1 := ⟨size - 1, by omega⟩
  obtain ⟨k, hk⟩ : ∃ k, n + 1 - b.length = k + 1 := ⟨n - b.length, by omega⟩
  rw [recvRaw, if_neg (by omega), hk]
  simp [recvRaw]

/-- A segment that fills the room exactly: all of it, and no status. -/
theorem recvRaw_eq {b : Bytes} (hb : b ≠ []) (sock : Socket) :
    recvRaw b.length (.data b :: sock) = (b, none, sock) := by
  cases b with
  | nil => exact absurd rfl hb
  | cons x xs => rw [List.length_cons, recvRaw, if_neg (by simp)]; simp

/-- A segment larger than the room: its first part, and no status. -/
theorem recvRaw_gt {b : Bytes} {size : Nat} (h : size < b.length) (hs : 0 < size)
    (sock : Socket) :
    recvRaw size (.data b :: sock) = (b.take size, none, .data (b.drop size) :: sock) := by
  obtain ⟨n, rfl⟩ : ∃ n, size = n + 1 := ⟨size - 1, by omega⟩
  rw [recvRaw, if_pos h]

/-- A call never stores more bytes than there is room for. -/
theorem recvRaw_length_le (size : Nat) (sock : Socket) :
    (recvRaw size sock).1.length ≤ size := by
  induction sock generalizing size with
  | nil => cases size <;> simp [recvRaw]
  | cons a sock ih =>
    cases size with
    | zero => simp
    | succ n =>
      cases a with
      | data b =>
        rw [recvRaw]
        split
        · simp
        next h =>
          have := ih (n + 1 - b.length)
          simp only [List.length_append]
          omega
      | _ => simp [recvRaw]

/-- The socket still brings the segments, and after them what `tail` says. A
segment that was read to its end may have left the pause behind it. -/
def Brings (sock : Socket) (segs : List Bytes) (tail : Socket) : Prop :=
  sock = segments segs ++ tail ∨ sock = .wouldBlock :: (segments segs ++ tail)

theorem Brings.waitRecv_eq {sock tail : Socket} {s : Bytes} {ss : List Bytes} (hs : s ≠ [])
    (h : Brings sock (s :: ss) tail) : waitRecv sock = (none, segments (s :: ss) ++ tail) := by
  rcases h with rfl | rfl
  · exact waitRecv_data hs _
  · rw [waitRecv_wouldBlock]
    exact waitRecv_data hs _

/-- What is left of the segments `t :: ts` when `size` bytes are read from the first. -/
def behind (size : Nat) (t : Bytes) (ts : List Bytes) : List Bytes :=
  if t.length ≤ size then ts else t.drop size :: ts

theorem take_append_behind (size : Nat) (t : Bytes) (ts : List Bytes) :
    t.take size ++ (behind size t ts).flatten = t ++ ts.flatten := by
  unfold behind
  split
  next h => rw [List.take_of_length_le h]
  next => rw [List.flatten_cons, ← List.append_assoc, List.take_append_drop]

theorem behind_ne_nil {size : Nat} {t : Bytes} {ts : List Bytes} (h : ∀ x ∈ t :: ts, x ≠ []) :
    ∀ x ∈ behind size t ts, x ≠ [] := by
  unfold behind
  intro x hx
  split at hx
  next => exact h x (List.mem_cons_of_mem _ hx)
  next hlt =>
    rcases List.mem_cons.mp hx with rfl | hx
    · exact List.ne_nil_of_length_pos (by rw [List.length_drop]; omega)
    · exact h x (List.mem_cons_of_mem _ hx)

/-- One `recv` on a segment: its first bytes, up to the room there is. Without
room nothing is read, and the status is that of a full room. -/
theorem recvRaw_segment {s : Bytes} (hs : s ≠ []) (ss : List Bytes) (tail : Socket) (size : Nat) :
    ∃ ret sock, recvRaw size (segments (s :: ss) ++ tail) = (s.take size, ret, sock) ∧
      Brings sock (behind size s ss) tail ∧
      (ret = none ∨ ret = retval .eAgain ∧ s.length < size) := by
  simp only [segments_cons, List.cons_append]
  rcases Nat.lt_trichotomy s.length size with h | h | h
  · refine ⟨_, segments ss ++ tail, ?_, ?_, .inr ⟨rfl, h⟩⟩
    · rw [List.take_of_length_le h.le]
      exact recvRaw_lt h _
    · rw [behind, if_pos h.le]
      exact .inl rfl
  · subst h
    refine ⟨_, .wouldBlock :: (segments ss ++ tail), ?_, ?_, .inl rfl⟩
    · rw [List.take_length]
      exact recvRaw_eq hs _
    · rw [behind, if_pos le_rfl]
      exact .inr rfl
  · cases size with
    | zero =>
      refine ⟨_, segments (s :: ss) ++ tail, recvRaw_zero _, ?_, .inl rfl⟩
      rw [behind, if_neg (Nat.not_le.mpr h)]
      exact .inl rfl
    | succ n =>
      refine ⟨_, _, recvRaw_gt h (Nat.succ_pos n) _, ?_, .inl rfl⟩
      rw [behind, if_neg (Nat.not_le.mpr h)]
      exact .inl rfl

/-- No socket operation answers the end of a chunked body. -/
theorem recvRaw_ne_chunkedEnd (size : Nat) (sock : Socket) :
    (recvRaw size sock).2.1 ≠ retval .tChunkedEnd := by
  induction sock generalizing size with
  | nil => cases size <;> simp [recvRaw, retval]
  | cons a sock ih =>
    cases size with
    | zero => simp [retval]
    | succ n =>
      cases a with
      | data b =>
        rw [recvRaw]
        split
        · simp [retval]
        · exact ih _
      | failed e => cases e <;> simp [recvRaw, retval, Errno.retno]
      | _ => simp [recvRaw, retval]

theorem waitRecv_ne_chunkedEnd (sock : Socket) : (waitRecv sock).1 ≠ retval .tChunkedEnd := by
  fun_induction waitRecv sock <;> simp_all [retval]

end Dframework
