import Mathlib
import Dframework.Http.LengthRun

/-!
# `IHttpReader::read` and `HttpConnection::read`

The reader of a body with `Content-Length` that fills a buffer of the caller. It takes
what has come with the header first and then reads from the socket until the buffer is
full: only a call that finds less than the buffer holds in `m_sReaderBuffer` looks at the
length of the body.

Results:
1. `readerRound_full`: a run that ends without an error has filled the buffer.
2. `read_fills`: a call that asks for no more than what is left is given it.
3. `read_past`: a call that asks for more is given what is left only when all of it has
   come with the header.
4. `reads_empty`: a body of no bytes never comes to the reader.
5. `reads_faithful_iff`: which calls are given the body and nothing else.
-/

namespace Dframework

open CLib Loop

/-- The fields of the round that the reader uses, and the socket. -/
structure ReaderState where
  recvBuffer : Bytes
  readerBuffer : Bytes
  recvContentLength : Nat
  contentLength : Nat
  sock : Socket
  deriving DecidableEq, Repr

def ReaderState.reset (st : ReaderState) : ReaderState :=
  if st.recvContentLength = 0 then
    { st with
      recvContentLength := st.recvBuffer.length
      readerBuffer := st.recvBuffer
      recvBuffer := [] }
  else st

/-- A call on its way: the state, the bytes stored so far, and `b_size`. -/
structure Filling where
  st : ReaderState
  out : Bytes
  b_size : Nat
  deriving DecidableEq, Repr

/-- The result of a call: its value, the bytes it has stored, and the state behind it. -/
abbrev LengthReadResult := Retval × Bytes × ReaderState

/-- One pass of the loop of `IHttpReader::read`. -/
def readerRound (f : Filling) : Round Filling LengthReadResult :=
  if f.b_size = 0 then .done (none, f.out, f.st)
  else
    match waitRecv f.st.sock with
    | (some e, sock) => .done (some e, f.out, { f.st with sock })
    | (none, sock) =>
      let (r, ret, sock) := recvRaw f.b_size sock
      let st := { f.st with sock }
      if ret.isSome ∧ r = [] then .done (ret, f.out, st)
      else if r ≠ [] then
        .next ⟨{ st with recvContentLength := st.recvContentLength + r.length }, f.out ++ r,
          f.b_size - r.length⟩
      else .done (none, f.out, st)

/-- `IHttpReader::read` of `s` bytes ends with `r`. -/
def ReaderRead (st : ReaderState) (s : Nat) (r : LengthReadResult) : Prop :=
  if st.readerBuffer = [] then Returns readerRound ⟨st, [], s⟩ r
  else if s ≤ st.readerBuffer.length then
    r = (none, st.readerBuffer.take s, { st with readerBuffer := st.readerBuffer.drop s })
  else if st.recvContentLength = st.contentLength then
    r = (none, st.readerBuffer, { st with readerBuffer := [] })
  else
    Returns readerRound
      ⟨{ st with readerBuffer := [] }, st.readerBuffer, s - st.readerBuffer.length⟩ r

/-- `HttpConnection::read` of a body with `Content-Length`. A body of no bytes never comes to the
reader. -/
def ConnectionRead (st : ReaderState) (size : Nat) (r : LengthReadResult) : Prop :=
  if st.contentLength = 0 then r = (none, [], st) else ReaderRead st.reset size r

/-- A call as the caller sees it, with the socket before and after it. -/
structure Call where
  ret : Retval
  out : Bytes
  before : Socket
  after : Socket

/-- Calls one after another. -/
inductive LengthReads : ReaderState → List Nat → List Call → Prop
  | nil (st : ReaderState) : LengthReads st [] []
  | cons {st st' : ReaderState} {s : Nat} {ss : List Nat} {ret : Retval} {out : Bytes}
      {cs : List Call} (hread : ConnectionRead st s (ret, out, st')) (hrest : LengthReads st' ss cs) :
      LengthReads st (s :: ss) (⟨ret, out, st.sock, st'.sock⟩ :: cs)

/-- The state of a round that has received `recvBuffer` behind the header. -/
def readerInit (recvBuffer : Bytes) (contentLength : Nat) (sock : Socket) : ReaderState where
  recvBuffer := recvBuffer
  readerBuffer := []
  recvContentLength := 0
  contentLength := contentLength
  sock := sock

/-- The calls are given the bytes of the body in order and nothing else. Once all of them
have been given, a call answers the end of the body and leaves the socket alone. -/
structure Faithful (body : Bytes) (cs : List Call) : Prop where
  answered : ∀ c ∈ cs, c.ret = none
  in_order : (cs.map Call.out).flatten <+: body
  at_end : ∀ i (hi : i < cs.length), ((cs.take i).map Call.out).flatten = body →
    cs[i].out = [] ∧ cs[i].after = cs[i].before

namespace LengthReadLemmas

/-- `recv` answers no status exactly when it has filled the room. -/
theorem recvRaw_full {size : Nat} {sock sock' : Socket} {r : Bytes}
    (h : recvRaw size sock = (r, none, sock')) : r.length = size := by
  induction sock generalizing size r with
  | nil =>
    cases size with
    | zero => cases h; rfl
    | succ n => cases h
  | cons a sock ih =>
    cases size with
    | zero =>
      rw [recvRaw_zero] at h
      cases h
      rfl
    | succ n =>
      cases a with
      | data b =>
        rw [recvRaw] at h
        split at h
        next hlt =>
          cases h
          rw [List.length_take]
          omega
        next hge =>
          rcases hmore : recvRaw (n + 1 - b.length) sock with ⟨more, ret, sock₁⟩
          rw [hmore] at h
          cases h
          rw [List.length_append, ih hmore]
          omega
      | wouldBlock | closed | failed e => cases h

/-- One pass: it ends with an error or a full buffer, or stores what `recv` gives. -/
theorem readerRound_cases (f : Filling) :
    (∀ out st, readerRound f = .done (none, out, st) → f.b_size = 0 ∧ out = f.out) ∧
    (∀ f', readerRound f = .next f' →
      f'.out.length + f'.b_size = f.out.length + f.b_size) := by
  rw [readerRound]
  split
  next h0 =>
    refine ⟨fun out st h => ?_, by simp⟩
    obtain ⟨-, hout⟩ := Prod.mk.inj (Round.done.inj h)
    exact ⟨h0, (Prod.mk.inj hout).1.symm⟩
  next h0 =>
    rcases waitRecv f.st.sock with ⟨_ | e, sock⟩
    · rcases hrecv : recvRaw f.b_size sock with ⟨r, ret, sock'⟩
      have hle := recvRaw_length_le f.b_size sock
      rw [hrecv] at hle
      simp only [hrecv]
      split
      next hfail =>
        refine ⟨fun out st h => ?_, by simp⟩
        rw [(Prod.mk.inj (Round.done.inj h)).1] at hfail
        exact absurd hfail.1 (by simp)
      next hok =>
        split
        next hne =>
          refine ⟨by simp, fun f' h => ?_⟩
          obtain rfl := Round.next.inj h
          simp only [List.length_append]
          simp only at hle
          omega
        next hempty =>
          -- without a status the room is full, so there were bytes
          have hnil : r = [] := not_not.mp hempty
          have hret : ret = none := by
            by_contra hsome
            exact hok ⟨Option.isSome_iff_ne_none.mpr hsome, hnil⟩
          subst hret hnil
          exact absurd (recvRaw_full hrecv).symm h0
    · simp

theorem readerRound_contentLength (f : Filling) :
    (∀ r, readerRound f = .done r → r.2.2.contentLength = f.st.contentLength) ∧
    (∀ f', readerRound f = .next f' → f'.st.contentLength = f.st.contentLength) := by
  rw [readerRound]
  split
  · exact ⟨fun r h => Round.done.inj h ▸ rfl, by simp⟩
  rcases waitRecv f.st.sock with ⟨_ | e, sock⟩
  · rcases recvRaw f.b_size sock with ⟨r, ret, sock'⟩
    simp only
    split
    · exact ⟨fun r h => Round.done.inj h ▸ rfl, by simp⟩
    split
    · exact ⟨by simp, fun f' h => Round.next.inj h ▸ rfl⟩
    · exact ⟨fun r h => Round.done.inj h ▸ rfl, by simp⟩
  · exact ⟨fun r h => Round.done.inj h ▸ rfl, by simp⟩

/-- A call leaves the length of the body alone. -/
theorem read_contentLength {st : ReaderState} {s : Nat} {r : LengthReadResult}
    (h : ReaderRead st s r) : r.2.2.contentLength = st.contentLength := by
  have hrun : ∀ {f : Filling}, Returns readerRound f r →
      r.2.2.contentLength = f.st.contentLength := by
    intro f hr
    refine hr.induct (P := fun f => r.2.2.contentLength = f.st.contentLength) ?_ ?_
    · exact fun f hdone => (readerRound_contentLength f).1 r hdone
    · exact fun f f' hnext _ ih => ih.trans ((readerRound_contentLength f).2 f' hnext)
  rw [ReaderRead] at h
  split at h
  · exact hrun h
  split at h
  · rw [h]
  split at h
  · rw [h]
  · exact hrun h

/-- A run that ends without an error has filled the buffer. -/
theorem readerRound_full {f : Filling} {out : Bytes} {st : ReaderState}
    (h : Returns readerRound f (none, out, st)) : out.length = f.out.length + f.b_size := by
  refine h.induct (P := fun f => out.length = f.out.length + f.b_size) ?_ ?_
  · intro f hdone
    obtain ⟨h0, rfl⟩ := (readerRound_cases f).1 out st hdone
    rw [h0, Nat.add_zero]
  · intro f f' hnext _ ih
    rw [ih, (readerRound_cases f).2 f' hnext]

end LengthReadLemmas

open LengthReadLemmas

/-- What holds between two calls: `body` is still to be given, what of it has come with
the header stands in `m_sReaderBuffer`, and `segs` are still to come. -/
structure Remains (body : Bytes) (segs : List Bytes) (tail : Socket) (st : ReaderState) :
    Prop where
  body_eq : st.readerBuffer ++ segs.flatten = body
  received : st.recvContentLength + segs.flatten.length = st.contentLength
  reset_eq : st.recvBuffer = [] ∧ (st.recvContentLength = 0 → st.readerBuffer = [])
  sock_brings : Brings st.sock segs tail
  segs_ne_nil : ∀ s ∈ segs, s ≠ []

namespace LengthReadLemmas

variable {body : Bytes} {segs : List Bytes} {tail : Socket} {st : ReaderState}

theorem Remains.reset (h : Remains body segs tail st) : st.reset = st := by
  obtain ⟨hrecv, hzero⟩ := h.reset_eq
  unfold ReaderState.reset
  split
  next h0 =>
    obtain ⟨recvBuffer, readerBuffer, recvContentLength, contentLength, sock⟩ := st
    simp only at hrecv hzero h0
    simp [hrecv, h0, hzero h0]
  next => rfl

/-- One pass takes bytes of the next segment. -/
theorem readerRound_segment {s : Bytes} {ss : List Bytes} {out : Bytes} {b : Nat}
    (hbuf : st.readerBuffer = []) (h : Remains body (s :: ss) tail st) (hb : 0 < b) :
    ∃ r rest st', body = r ++ rest ∧ r ≠ [] ∧ r.length ≤ b ∧
      readerRound ⟨st, out, b⟩ = .next ⟨st', out ++ r, b - r.length⟩ ∧
      Remains rest (behind b s ss) tail st' ∧ st'.readerBuffer = [] := by
  have hs : s ≠ [] := h.segs_ne_nil s List.mem_cons_self
  obtain ⟨ret, sock, hrecv, hsock, hret⟩ := recvRaw_segment hs ss tail b
  have hwait := h.sock_brings.waitRecv_eq hs
  have hsplit := take_append_behind b s ss
  have hbody : body = s.take b ++ (behind b s ss).flatten := by
    rw [← h.body_eq, hbuf, hsplit]
    rfl
  have hne : s.take b ≠ [] := by
    refine List.ne_nil_of_length_pos ?_
    have := List.length_pos_of_ne_nil hs
    rw [List.length_take]
    omega
  have hlen := congrArg List.length hsplit
  have hcount := h.received
  simp only [List.flatten_cons, List.length_append] at hlen hcount
  refine ⟨s.take b, (behind b s ss).flatten, { st with
    sock := sock, recvContentLength := st.recvContentLength + (s.take b).length },
    hbody, hne, by rw [List.length_take]; omega, ?_, ⟨?_, ?_, ?_, hsock, ?_⟩, hbuf⟩
  · have hfail : ¬ (ret.isSome = true ∧ s.take b = []) := fun hf => hne hf.2
    simp only [readerRound, if_neg hb.ne', hwait, hrecv, if_neg hfail, if_pos hne]
  · rw [hbuf, List.nil_append]
  · simp only
    omega
  · exact ⟨h.reset_eq.1, fun _ => hbuf⟩
  · exact behind_ne_nil h.segs_ne_nil

/-- The loop stores what the segments bring, as long as the room is not larger. -/
theorem readerRound_fills (out : Bytes) {b : Nat} (hbuf : st.readerBuffer = [])
    (h : Remains body segs tail st) (hb : b ≤ body.length) :
    ∃ segs' st', Returns readerRound ⟨st, out, b⟩ (none, out ++ body.take b, st') ∧
      Remains (body.drop b) segs' tail st' ∧ st'.readerBuffer = [] := by
  induction hn : b using Nat.strongRecOn generalizing st segs body out b with
  | ind n ih =>
    subst hn
    rcases Nat.eq_zero_or_pos b with rfl | hpos
    · refine ⟨segs, st, returns_of_done ?_, by simpa using h, hbuf⟩
      simp [readerRound]
    · have hne : segs ≠ [] := by
        rintro rfl
        have hbody := h.body_eq
        rw [hbuf] at hbody
        rw [← hbody] at hb
        exact absurd hb (not_le.mpr hpos)
      obtain ⟨s, ss, rfl⟩ := List.exists_cons_of_ne_nil hne
      obtain ⟨r, rest, st', rfl, hrne, hrle, hnext, hremains, hbuf'⟩ :=
        readerRound_segment hbuf h hpos
      have hrpos := List.length_pos_of_ne_nil hrne
      rw [List.length_append] at hb
      obtain ⟨segs', st'', hrun, hend, hbuf''⟩ := ih (b - r.length) (by omega) (out ++ r) hbuf' hremains
        (show b - r.length ≤ rest.length by omega) rfl
      refine ⟨segs', st'', (returns_next_iff hnext).mpr ?_, ?_, hbuf''⟩
      · rw [List.take_append, List.take_of_length_le hrle, ← List.append_assoc]
        exact hrun
      · rwa [List.drop_append, List.drop_eq_nil_of_le hrle, List.nil_append]

end LengthReadLemmas

/-- A call that asks for no more than what is left is given it. -/
theorem read_fills {body : Bytes} {segs : List Bytes} {tail : Socket} {st : ReaderState} {s : Nat}
    (h : Remains body segs tail st) (hle : s ≤ body.length) :
    ∃ segs' st', (∀ r, ReaderRead st s r ↔ r = (none, body.take s, st')) ∧
      Remains (body.drop s) segs' tail st' ∧ (s < body.length → (segs' = [] ↔ segs = [])) := by
  -- bytes that are left and do not stand in the buffer are still to come
  have hcome : ∀ {body segs st}, Remains body segs tail st → st.readerBuffer.length < body.length →
      segs ≠ [] := by
    rintro body segs st h hlt rfl
    have hbody := congrArg List.length h.body_eq
    simp only [List.flatten_nil, List.append_nil] at hbody
    omega
  by_cases hbuf : st.readerBuffer = []
  · obtain ⟨segs', st', hrun, hremains, hbuf'⟩ := readerRound_fills [] hbuf h hle
    refine ⟨segs', st', fun r => ?_, hremains, fun hlt => iff_of_false ?_ ?_⟩
    · rw [ReaderRead, if_pos hbuf]
      exact ⟨fun hr => hr.unique hrun, fun hr => hr ▸ hrun⟩
    · refine hcome hremains ?_
      rw [hbuf', List.length_drop, List.length_nil]
      omega
    · exact hcome h (by rw [hbuf, List.length_nil]; omega)
  have hlen := congrArg List.length h.body_eq
  rw [List.length_append] at hlen
  by_cases hshort : s ≤ st.readerBuffer.length
  · refine ⟨segs, { st with readerBuffer := st.readerBuffer.drop s }, fun r => ?_, ⟨?_, h.received,
      ⟨h.reset_eq.1, fun h0 => ?_⟩, h.sock_brings, h.segs_ne_nil⟩, fun _ => Iff.rfl⟩
    · rw [ReaderRead, if_neg hbuf, if_pos hshort, ← h.body_eq, List.take_append_of_le_length hshort]
    · rw [← h.body_eq, List.drop_append_of_le_length hshort]
    · simp only [h.reset_eq.2 h0, List.drop_nil]
  · have hlong : st.readerBuffer.length < s := not_le.mp hshort
    have hmore : ¬ st.recvContentLength = st.contentLength := by
      have := h.received
      omega
    have hrest : Remains segs.flatten segs tail { st with readerBuffer := [] } :=
      ⟨rfl, h.received, ⟨h.reset_eq.1, fun _ => rfl⟩, h.sock_brings, h.segs_ne_nil⟩
    obtain ⟨segs', st', hrun, hremains, hbuf'⟩ := readerRound_fills st.readerBuffer rfl hrest
      (show s - st.readerBuffer.length ≤ segs.flatten.length by omega)
    have htake : st.readerBuffer ++ segs.flatten.take (s - st.readerBuffer.length) = body.take s := by
      rw [← h.body_eq, List.take_append, List.take_of_length_le hlong.le]
    have hdrop : segs.flatten.drop (s - st.readerBuffer.length) = body.drop s := by
      rw [← h.body_eq, List.drop_append, List.drop_eq_nil_of_le hlong.le, List.nil_append]
    rw [htake] at hrun
    rw [hdrop] at hremains
    refine ⟨segs', st', fun r => ?_, hremains, fun hlt => iff_of_false ?_ ?_⟩
    · rw [ReaderRead, if_neg hbuf, if_neg hshort, if_neg hmore]
      exact ⟨fun hr => hr.unique hrun, fun hr => hr ▸ hrun⟩
    · refine hcome hremains ?_
      rw [hbuf', List.length_drop, List.length_nil]
      omega
    · exact hcome h (by omega)

/-- A call that asks for more than what is left is given what is left when all of it has
come with the header. Otherwise it does not end well before the buffer is full. -/
theorem read_past {body : Bytes} {segs : List Bytes} {tail : Socket} {st : ReaderState} {s : Nat}
    (h : Remains body segs tail st) (hlt : body.length < s) :
    (segs = [] → body ≠ [] → ∃ st', (∀ r, ReaderRead st s r ↔ r = (none, body, st')) ∧
      Remains [] [] tail st') ∧
    (segs ≠ [] ∨ body = [] → ∀ out st', ReaderRead st s (none, out, st') → out.length = s) := by
  have hlen := congrArg List.length h.body_eq
  have hreceived := h.received
  rw [List.length_append] at hlen
  have hlong : ¬ s ≤ st.readerBuffer.length := by omega
  constructor
  · rintro rfl hne
    have hbody : st.readerBuffer = body := by simpa using h.body_eq
    have hall : st.recvContentLength = st.contentLength := by simpa using hreceived
    refine ⟨{ st with readerBuffer := [] }, fun r => ?_, ⟨rfl, hreceived,
      ⟨h.reset_eq.1, fun _ => rfl⟩, h.sock_brings, h.segs_ne_nil⟩⟩
    rw [ReaderRead, if_neg (hbody ▸ hne), if_neg hlong, if_pos hall, hbody]
  · intro hor out st' hread
    by_cases hbuf : st.readerBuffer = []
    · rw [ReaderRead, if_pos hbuf] at hread
      rw [readerRound_full hread]
      exact Nat.zero_add s
    · have hsegs : segs ≠ [] := by
        rcases hor with hsegs | rfl
        · exact hsegs
        · exact absurd (List.append_eq_nil_iff.mp h.body_eq).1 hbuf
      have hpos : segs.flatten.length ≠ 0 :=
        (LengthRunLemmas.flatten_eq_nil_iff h.segs_ne_nil).not.mpr hsegs
      have hmore : ¬ st.recvContentLength = st.contentLength := by omega
      rw [ReaderRead, if_neg hbuf, if_neg hlong, if_neg hmore] at hread
      have hout := readerRound_full hread
      simp only at hout
      omega

namespace LengthReadLemmas

/-- The first of several calls. -/
theorem faithful_cons {o rest : Bytes} {b a : Socket} {cs : List Call} :
    Faithful (o ++ rest) (⟨none, o, b, a⟩ :: cs) ↔
      (o ++ rest = [] → a = b) ∧ Faithful rest cs := by
  constructor
  · rintro ⟨hanswered, horder, hend⟩
    refine ⟨fun hnil => ?_, ⟨fun c hc => hanswered c (List.mem_cons_of_mem _ hc), ?_, ?_⟩⟩
    · exact (hend 0 (Nat.succ_pos _) (by simpa using hnil.symm)).2
    · simpa using horder
    · intro i hi hall
      refine hend (i + 1) (Nat.succ_lt_succ hi) ?_
      simpa using hall
  · rintro ⟨hfirst, hanswered, horder, hend⟩
    refine ⟨?_, by simpa using horder, ?_⟩
    · intro c hc
      rcases List.mem_cons.mp hc with rfl | hc
      · rfl
      · exact hanswered c hc
    · intro i hi hall
      cases i with
      | zero =>
        have hnil : o ++ rest = [] := by simpa using hall.symm
        exact ⟨(List.append_eq_nil_iff.mp hnil).1, hfirst hnil⟩
      | succ i => exact hend i (Nat.lt_of_succ_lt_succ hi) (by simpa using hall)

/-- A first call that is given more than there is of the body. -/
theorem not_faithful_of_length {body : Bytes} {c : Call} {cs : List Call}
    (h : body.length < c.out.length) : ¬ Faithful body (c :: cs) := by
  rintro ⟨-, horder, -⟩
  have hle := horder.length_le
  simp only [List.map_cons, List.flatten_cons, List.length_append] at hle
  omega

/-- Several calls, when the first one is given `o`. -/
theorem reads_first_iff {o rest : Bytes} {s : Nat} {ss : List Nat} {st st' : ReaderState}
    (hread : ∀ r, ConnectionRead st s r ↔ r = (none, o, st')) (hne : o ++ rest ≠ []) :
    (∃ cs, LengthReads st (s :: ss) cs ∧ Faithful (o ++ rest) cs) ↔
      ∃ cs, LengthReads st' ss cs ∧ Faithful rest cs := by
  constructor
  · rintro ⟨cs, hreads, hfaithful⟩
    cases hreads with
    | cons hfirst hrest =>
      rw [hread] at hfirst
      cases hfirst
      exact ⟨_, hrest, (faithful_cons.mp hfaithful).2⟩
  · rintro ⟨cs, hrest, hfaithful⟩
    refine ⟨_, .cons ((hread _).mpr rfl) hrest, faithful_cons.mpr ⟨fun h => ?_, hfaithful⟩⟩
    exact absurd h hne

/-- The calls of a body that has bytes come to the reader. -/
theorem connectionRead_iff {body : Bytes} {segs : List Bytes} {tail : Socket} {st : ReaderState}
    (h : Remains body segs tail st) (hlength : st.contentLength ≠ 0) (s : Nat)
    (r : LengthReadResult) : ConnectionRead st s r ↔ ReaderRead st s r := by
  rw [ConnectionRead, if_neg hlength, Remains.reset h]

/-- Every call of a body of no bytes answers its end. -/
theorem reads_empty {st : ReaderState} (h0 : st.contentLength = 0) (sizes : List Nat) :
    ∃ cs, LengthReads st sizes cs ∧ Faithful [] cs := by
  induction sizes with
  | nil => exact ⟨[], .nil st, by simp, by simp, by simp⟩
  | cons s ss ih =>
    obtain ⟨cs, hreads, hfaithful⟩ := ih
    have hread : ConnectionRead st s (none, [], st) := by rw [ConnectionRead, if_pos h0]
    exact ⟨_, .cons hread hreads, (faithful_cons (o := [])).mpr ⟨fun _ => rfl, hfaithful⟩⟩

end LengthReadLemmas

/-- The calls are given the body and nothing else exactly when they ask for no more than
the body has, or when all of it has come with the header and the last call is the first
one to come to the end. -/
theorem reads_remains_iff {body : Bytes} {segs : List Bytes} {tail : Socket} {st : ReaderState}
    {sizes : List Nat} (h : Remains body segs tail st) (hlength : st.contentLength ≠ 0)
    (hpos : ∀ s ∈ sizes, 0 < s) :
    (∃ cs, LengthReads st sizes cs ∧ Faithful body cs) ↔
      sizes.sum ≤ body.length ∨ segs = [] ∧ sizes.dropLast.sum < body.length := by
  induction sizes generalizing body segs st with
  | nil =>
    refine iff_of_true ⟨[], .nil st, ?_, ?_, ?_⟩ (.inl (Nat.zero_le _)) <;> simp
  | cons s ss ih =>
    have hs := hpos s List.mem_cons_self
    have hss : ∀ x ∈ ss, 0 < x := fun x hx => hpos x (List.mem_cons_of_mem _ hx)
    have hconn := connectionRead_iff h hlength s
    have hkeep : ∀ {o st'}, (∀ r, ReaderRead st s r ↔ r = (none, o, st')) →
        st'.contentLength ≠ 0 := fun hread => by
      rwa [← read_contentLength ((hread _).mpr rfl)] at hlength
    rw [List.sum_cons]
    rcases Nat.lt_or_ge body.length s with hlt | hle
    · obtain ⟨hwhole, hfull⟩ := read_past h hlt
      by_cases hall : segs = [] ∧ body ≠ []
      · -- this call comes to the end, and a further one does not end well
        obtain ⟨st', hread, hremains⟩ := hwhole hall.1 hall.2
        rw [← List.append_nil body,
          reads_first_iff (fun r => (hconn r).trans (hread r)) (by simpa using hall.2),
          ih hremains (hkeep hread) hss, List.append_nil]
        cases ss with
        | nil => simp [hall, List.length_pos_of_ne_nil]
        | cons t ts =>
          have ht := hss t List.mem_cons_self
          rw [List.dropLast_cons_cons, List.sum_cons, List.sum_cons, List.length_nil]
          omega
      · refine iff_of_false ?_ ?_
        · rintro ⟨cs, hreads, hfaithful⟩
          cases hreads with
          | @cons _ _ _ _ ret out _ hfirst hrest =>
            have hret : ret = none := hfaithful.answered _ List.mem_cons_self
            rw [hret, hconn] at hfirst
            have hout := hfull (by tauto) out _ hfirst
            exact not_faithful_of_length (by simp only; omega) hfaithful
        · rintro (hsum | ⟨hsegs, hsum⟩)
          · omega
          · have hnil : body = [] := not_not.mp fun hne => hall ⟨hsegs, hne⟩
            rw [hnil] at hsum
            exact absurd hsum (Nat.not_lt_zero _)
    · obtain ⟨segs', st', hread, hremains, hsame⟩ := read_fills h hle
      have hsplit := List.take_append_drop s body
      have hne : body.take s ++ body.drop s ≠ [] := by
        rw [hsplit]
        exact List.ne_nil_of_length_pos (by omega)
      have hih := ih hremains (hkeep hread) hss
      rw [← reads_first_iff (fun r => (hconn r).trans (hread r)) hne, hsplit,
        List.length_drop] at hih
      rw [hih]
      cases ss with
      | nil => simp [hle]
      | cons t ts =>
        have ht := hss t List.mem_cons_self
        have hdrop : (s :: t :: ts).dropLast.sum = s + (t :: ts).dropLast.sum := by
          rw [List.dropLast_cons_cons, List.sum_cons]
        have hsum : (t :: ts).sum = t + ts.sum := List.sum_cons
        rw [hdrop]
        rcases Nat.lt_or_ge s body.length with hlt | hge
        · rw [hsame hlt]
          exact or_congr (by omega) (and_congr Iff.rfl (by omega))
        · omega

/-- The first reset of a body: all of it is still to be given. -/
theorem remains_init {recvBuffer body : Bytes} {segs : List Bytes} (tail : Socket)
    (hsegs : ∀ s ∈ segs, s ≠ []) (hsplit : recvBuffer ++ segs.flatten = body) :
    Remains body segs tail (readerInit recvBuffer body.length (segments segs ++ tail)).reset := by
  refine ⟨hsplit, ?_, ⟨rfl, fun h0 => List.length_eq_zero_iff.mp h0⟩, .inl rfl, hsegs⟩
  have hlen := congrArg List.length hsplit
  rw [List.length_append] at hlen
  exact hlen

/-- The calls of a round that has received `recvBuffer` behind its header. -/
theorem reads_faithful_iff {recvBuffer body : Bytes} {segs : List Bytes} (tail : Socket)
    {sizes : List Nat} (hsegs : ∀ s ∈ segs, s ≠ []) (hsplit : recvBuffer ++ segs.flatten = body)
    (hpos : ∀ s ∈ sizes, 0 < s) :
    (∃ cs, LengthReads (readerInit recvBuffer body.length (segments segs ++ tail)) sizes cs ∧
      Faithful body cs) ↔
      body = [] ∨ sizes.sum ≤ body.length ∨ segs = [] ∧ sizes.dropLast.sum < body.length := by
  set st := readerInit recvBuffer body.length (segments segs ++ tail) with hst
  have hcl : st.contentLength = body.length := rfl
  rcases eq_or_ne body [] with rfl | hne
  · exact iff_of_true (reads_empty hcl sizes) (.inl rfl)
  have hlength : st.contentLength ≠ 0 := by
    rw [hcl]
    exact (List.length_pos_of_ne_nil hne).ne'
  have hremains : Remains body segs tail st.reset := remains_init tail hsegs hsplit
  have hlength' : st.reset.contentLength ≠ 0 := hlength
  have hreads : ∀ cs, LengthReads st sizes cs ↔ LengthReads st.reset sizes cs := by
    intro cs
    have hsock : st.reset.sock = st.sock := rfl
    have hconn : ∀ s r, ConnectionRead st s r ↔ ConnectionRead st.reset s r := by
      intro s r
      rw [connectionRead_iff hremains hlength', ConnectionRead, if_neg hlength]
    constructor
    · intro h
      cases h with
      | nil => exact .nil _
      | cons hread hrest => exact hsock ▸ .cons ((hconn _ _).mp hread) hrest
    · intro h
      cases h with
      | nil => exact .nil _
      | cons hread hrest => exact hsock ▸ .cons ((hconn _ _).mpr hread) hrest
  simp only [hreads, hne, false_or]
  exact reads_remains_iff hremains hlength' hpos

theorem reads_faithful_hello :
    ∃ cs, LengthReads (readerInit (bytes "he") (bytes "hello").length (segments [bytes "llo"] ++ []))
      [2, 3] cs ∧ Faithful (bytes "hello") cs :=
  (reads_faithful_iff [] (by decide) (by decide) (by decide)).mpr (.inr (.inl (by decide)))

/-- The second call comes after the whole body: it waits for the socket. -/
theorem reads_faithful_waits : ¬ ∃ cs,
    LengthReads (readerInit (bytes "hello") (bytes "hello").length (segments [])) [5, 1] cs ∧
      Faithful (bytes "hello") cs := by
  rintro ⟨cs, hreads, hfaithful⟩
  cases hreads with
  | cons hfirst hrest =>
    -- the first call empties `m_sReaderBuffer`, so that the second one asks the socket
    rw [ConnectionRead, if_neg (by decide),
      show (readerInit (bytes "hello") (bytes "hello").length (segments [])).reset =
        ⟨[], bytes "hello", 5, 5, []⟩ by decide] at hfirst
    rw [ReaderRead, if_neg (by decide), if_pos (by decide)] at hfirst
    cases hfirst
    cases hrest with
    | cons hsecond hrest =>
      have hret := hfaithful.answered _ (List.mem_cons_of_mem _ List.mem_cons_self)
      simp only at hret
      subst hret
      rw [ConnectionRead, if_neg (by decide), ReaderState.reset, if_neg (by decide), ReaderRead,
        if_pos (by decide)] at hsecond
      have hwaits : ∃ r, run readerRound 2 ⟨⟨[], [], 5, 5, []⟩, [], 1⟩ = some r ∧
          r.1 ≠ none := ⟨_, rfl, by decide⟩
      obtain ⟨r, hrun, hr⟩ := hwaits
      exact hr (congrArg Prod.fst (Returns.unique ⟨2, hrun⟩ hsecond))

end Dframework
