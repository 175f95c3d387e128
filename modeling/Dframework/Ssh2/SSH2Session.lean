import Mathlib
import Dframework.Library.CLib
import Dframework.Library.Loop

/-!
# `SSH2Session`: reading a file

`ftp_read` moves the library only when the offset it is asked for is not the one it has
moved the library to before, and remembers that offset, not where the read has ended. The
size it answers is stored with the bytes that come in, so that nothing is stored when none do.

Results:
1. `SSH2Session.ftpRead_right`: one read from the right position.
2. `SSH2Session.ftpReads_right`: a sequence of reads of which no two neighbours ask for one
   offset.
-/

namespace Dframework

open CLib Loop

namespace SSH2Session

/-- The open handle: the offset `ftp_read` remembers, and the position of the library. -/
structure Handle where
  m_sftp_offset : Nat
  pos : Nat
  deriving DecidableEq, Repr

/-- What `libssh2_sftp_read` answers: nothing yet, after which `wait_read` ends well; a
failure, of itself or of `wait_read`; or bytes, `n + 1` at most. -/
inductive Answer where
  | again
  | failed
  | bytes (n : Nat)
  deriving DecidableEq, Repr

/-- `SSH2Session::ftp_open`: the handle it leaves. -/
def ftpOpen : Handle := ⟨0, 0⟩

def ftpSeek (offset : Nat) : Handle := ⟨offset, offset⟩

/-- A call of `ftp_read`: its arguments, what `*outsize` holds before, and what the library
answers in turn. -/
structure Call where
  outsize : Nat
  size : Nat
  offset : Nat
  lib : Nat → Answer

/-- What goes on in `ftp_read`: the position of the library, `n_off`, `*outsize`, the bytes in
`buf`, and how often the library has been asked. -/
structure Reading where
  pos : Nat
  n_off : Nat
  outsize : Nat
  buf : Bytes
  asked : Nat
  deriving DecidableEq, Repr

/-- How many bytes come in: no more than there is room for, and no more than there are. -/
def rsize (file : Bytes) (size n : Nat) (r : Reading) : Nat :=
  min (n + 1) (min (size - r.n_off) (file.length - r.pos))

/-- One pass of the loop of `SSH2Session::ftp_read`. It ends well or not. -/
def readRound (file : Bytes) (c : Call) (r : Reading) : Round Reading (Bool × Reading) :=
  match c.lib r.asked with
  | .again => .next { r with asked := r.asked + 1 }
  | .failed => .done (false, r)
  | .bytes n =>
    let got := rsize file c.size n r
    if got = 0 then .done (true, r)
    else
      let r' : Reading := ⟨r.pos + got, r.n_off + got, r.n_off + got,
        r.buf ++ (file.drop r.pos).take got, r.asked + 1⟩
      if r'.n_off = c.size then .done (true, r') else .next r'

def Handle.sought (h : Handle) (offset : Nat) : Handle :=
  if h.m_sftp_offset ≠ offset then ftpSeek offset else h

/-- `SSH2Session::ftp_read` ends with `res`. -/
def FtpRead (file : Bytes) (h : Handle) (c : Call) (res : Bool × Reading) : Prop :=
  Returns (readRound file c) ⟨(h.sought c.offset).pos, 0, c.outsize, [], 0⟩ res

def Handle.behind (h : Handle) (c : Call) (res : Bool × Reading) : Handle :=
  ⟨(h.sought c.offset).m_sftp_offset, res.2.pos⟩

/-- The library does not put the call off forever. -/
def Call.Fair (c : Call) : Prop :=
  ∀ k, ∃ j, c.lib (k + j) ≠ .again

def Call.Nothing (file : Bytes) (c : Call) : Prop :=
  c.size = 0 ∨ file.length ≤ c.offset

instance (file : Bytes) (c : Call) : Decidable (c.Nothing file) :=
  inferInstanceAs (Decidable (_ ∨ _))

/-- The library fails before any byte has come in. -/
def Call.Fails (c : Call) : Prop :=
  ∃ k, c.lib k = .failed ∧ ∀ j < k, c.lib j = .again

/-- A call that ends well has the bytes at its offset, and says how many. -/
def Call.Right (file : Bytes) (c : Call) (res : Bool × Reading) : Prop :=
  res.1 = true →
    res.2.buf = (file.drop c.offset).take c.size ∧ res.2.outsize = res.2.buf.length

variable {file : Bytes} {c : Call} {r : Reading} {res : Bool × Reading}

theorem sought_offset (h : Handle) (offset : Nat) : (h.sought offset).m_sftp_offset = offset := by
  rw [Handle.sought]
  split
  next => rfl
  next heq => exact not_not.mp heq

/-! ## One read -/

/-- The cases of a pass. -/
theorem readRound_cases (file : Bytes) (c : Call) (r : Reading) :
    (c.lib r.asked = .again ∧ readRound file c r = .next { r with asked := r.asked + 1 }) ∨
      (c.lib r.asked = .failed ∧ readRound file c r = .done (false, r)) ∨
      ∃ n, c.lib r.asked = .bytes n ∧
        ((rsize file c.size n r = 0 ∧ readRound file c r = .done (true, r)) ∨
          ∃ r' : Reading, r' = ⟨r.pos + rsize file c.size n r, r.n_off + rsize file c.size n r,
              r.n_off + rsize file c.size n r,
              r.buf ++ (file.drop r.pos).take (rsize file c.size n r), r.asked + 1⟩ ∧
            rsize file c.size n r ≠ 0 ∧
            ((r'.n_off = c.size ∧ readRound file c r = .done (true, r')) ∨
              (r'.n_off ≠ c.size ∧ readRound file c r = .next r'))) := by
  rw [readRound]
  cases hlib : c.lib r.asked with
  | again => exact .inl ⟨rfl, rfl⟩
  | failed => exact .inr (.inl ⟨rfl, rfl⟩)
  | bytes n =>
    refine .inr (.inr ⟨n, rfl, ?_⟩)
    by_cases h0 : rsize file c.size n r = 0
    · exact .inl ⟨h0, if_pos h0⟩
    · refine .inr ⟨_, rfl, h0, ?_⟩
      by_cases hend : r.n_off + rsize file c.size n r = c.size
      · exact .inl ⟨hend, by simp only [if_neg h0, if_pos hend]⟩
      · exact .inr ⟨hend, by simp only [if_neg h0, if_neg hend]⟩

/-- What holds in front of every pass of a read from the right position. -/
structure Reads (file : Bytes) (c : Call) (r : Reading) : Prop where
  pos_eq : r.pos = c.offset + r.n_off
  n_off_le : r.n_off ≤ c.size
  buf_eq : r.buf = (file.drop c.offset).take r.n_off
  length_buf : r.buf.length = r.n_off
  outsize_eq : r.outsize = if r.n_off = 0 then c.outsize else r.n_off

/-- Bytes that come in are the next ones of the file. -/
theorem Reads.next {n : Nat} (h : Reads file c r) (h0 : rsize file c.size n r ≠ 0) :
    Reads file c ⟨r.pos + rsize file c.size n r, r.n_off + rsize file c.size n r,
      r.n_off + rsize file c.size n r,
      r.buf ++ (file.drop r.pos).take (rsize file c.size n r), r.asked + 1⟩ := by
  have hsize : rsize file c.size n r ≤ c.size - r.n_off := by
    rw [rsize]
    omega
  have hfile : rsize file c.size n r ≤ file.length - r.pos := by
    rw [rsize]
    omega
  generalize rsize file c.size n r = got at *
  have hle := h.n_off_le
  refine ⟨?_, ?_, ?_, ?_, (if_neg (by show ¬ r.n_off + got = 0; omega)).symm⟩
  · show r.pos + got = c.offset + (r.n_off + got)
    rw [h.pos_eq, Nat.add_assoc]
  · show r.n_off + got ≤ c.size
    omega
  · show r.buf ++ (file.drop r.pos).take got = (file.drop c.offset).take (r.n_off + got)
    rw [List.take_add, h.buf_eq, List.drop_drop, h.pos_eq]
  · show (r.buf ++ (file.drop r.pos).take got).length = r.n_off + got
    rw [List.length_append, h.length_buf, List.length_take, List.length_drop, min_eq_left hfile]

/-- A read that gets no more has all there is. -/
theorem Reads.right_of_none {n : Nat} (h : Reads file c r) (h0 : rsize file c.size n r = 0)
    (hout : c.Nothing file → c.outsize = 0) : c.Right file (true, r) := by
  have hle := h.n_off_le
  have hend : c.size = r.n_off ∨ file.length ≤ r.pos := by
    rw [rsize] at h0
    omega
  have hpos := h.pos_eq
  refine fun _ => ⟨?_, ?_⟩
  · show r.buf = (file.drop c.offset).take c.size
    rw [h.buf_eq]
    rcases hend with hend | hend
    · rw [hend]
    · rw [List.take_of_length_le (by rw [List.length_drop]; omega),
        List.take_of_length_le (by rw [List.length_drop]; omega)]
  · show r.outsize = r.buf.length
    rw [h.outsize_eq, h.length_buf]
    split
    next hzero =>
      rw [hzero]
      refine hout ?_
      rcases hend with hend | hend
      · exact .inl (by omega)
      · exact .inr (by omega)
    next => rfl

theorem Reads.right_of_size (h : Reads file c r) (hsize : r.n_off = c.size) (h0 : r.n_off ≠ 0) :
    c.Right file (true, r) := by
  refine fun _ => ⟨?_, ?_⟩
  · show r.buf = (file.drop c.offset).take c.size
    rw [h.buf_eq, hsize]
  · show r.outsize = r.buf.length
    rw [h.outsize_eq, if_neg h0, h.length_buf]

theorem Reads.right (hout : c.Nothing file → c.outsize = 0)
    (hret : Returns (readRound file c) r res) (h : Reads file c r) : c.Right file res := by
  refine hret.induct (P := fun r => Reads file c r → c.Right file res) ?_ ?_ h
  · intro r hdone h
    rcases readRound_cases file c r with ⟨-, hr⟩ | ⟨-, hr⟩ |
      ⟨n, -, ⟨h0, hr⟩ | ⟨r', rfl, h0, ⟨hsize, hr⟩ | ⟨-, hr⟩⟩⟩
    · rw [hr] at hdone
      cases hdone
    · obtain rfl := Round.done.inj (hr.symm.trans hdone)
      rintro ⟨⟩
    · obtain rfl := Round.done.inj (hr.symm.trans hdone)
      exact h.right_of_none h0 hout
    · obtain rfl := Round.done.inj (hr.symm.trans hdone)
      exact (h.next h0).right_of_size hsize (by show ¬ r.n_off + _ = 0; omega)
    · rw [hr] at hdone
      cases hdone
  · intro r r' hnext _ ih h
    refine ih ?_
    rcases readRound_cases file c r with ⟨-, hr⟩ | ⟨-, hr⟩ |
      ⟨n, -, ⟨h0, hr⟩ | ⟨r₁, rfl, h0, ⟨hsize, hr⟩ | ⟨-, hr⟩⟩⟩
    · obtain rfl := Round.next.inj (hr.symm.trans hnext)
      exact ⟨h.pos_eq, h.n_off_le, h.buf_eq, h.length_buf, h.outsize_eq⟩
    · rw [hr] at hnext
      cases hnext
    · rw [hr] at hnext
      cases hnext
    · rw [hr] at hnext
      cases hnext
    · obtain rfl := Round.next.inj (hr.symm.trans hnext)
      exact h.next h0

/-- A pass that is not put off ends the call, or leaves less to read. -/
theorem readRound_of_ne_again (h : c.lib r.asked ≠ .again) :
    (∃ res, readRound file c r = .done res) ∨
      ∃ r', readRound file c r = .next r' ∧ c.size - r'.n_off < c.size - r.n_off := by
  rcases readRound_cases file c r with ⟨hagain, -⟩ | ⟨-, hr⟩ |
    ⟨n, -, ⟨-, hr⟩ | ⟨r', rfl, h0, ⟨-, hr⟩ | ⟨-, hr⟩⟩⟩
  · exact absurd hagain h
  · exact .inl ⟨_, hr⟩
  · exact .inl ⟨_, hr⟩
  · exact .inl ⟨_, hr⟩
  · refine .inr ⟨_, hr, ?_⟩
    have hsize : rsize file c.size n r ≤ c.size - r.n_off := by
      rw [rsize]
      omega
    show c.size - (r.n_off + rsize file c.size n r) < c.size - r.n_off
    omega

/-- A call that is not put off forever ends. -/
theorem exists_returns (hfair : c.Fair) (r : Reading) :
    ∃ res, Returns (readRound file c) r res := by
  induction hk : c.size - r.n_off using Nat.strong_induction_on generalizing r with
  | _ k ih =>
    -- up to the answer that is not put off nothing is read
    obtain ⟨j, hj⟩ := hfair r.asked
    induction j generalizing r with
    | zero =>
      rcases readRound_of_ne_again hj with ⟨res, hr⟩ | ⟨r', hr, hlt⟩
      · exact ⟨res, returns_of_done hr⟩
      · obtain ⟨res, hres⟩ := ih _ (hk ▸ hlt) r' rfl
        exact ⟨res, (returns_next_iff hr).mpr hres⟩
    | succ j ihj =>
      by_cases hagain : c.lib r.asked = .again
      · have hr : readRound file c r = .next { r with asked := r.asked + 1 } := by
          rw [readRound, hagain]
        obtain ⟨res, hres⟩ := ihj { r with asked := r.asked + 1 } hk (by
          rwa [← Nat.add_right_comm, Nat.add_assoc])
        exact ⟨res, (returns_next_iff hr).mpr hres⟩
      · rcases readRound_of_ne_again hagain with ⟨res, hr⟩ | ⟨r', hr, hlt⟩
        · exact ⟨res, returns_of_done hr⟩
        · obtain ⟨res, hres⟩ := ih _ (hk ▸ hlt) r' rfl
          exact ⟨res, (returns_next_iff hr).mpr hres⟩

/-- One read, when the library is where the read is to start. -/
theorem ftpRead_right {h : Handle} (hpos : (h.sought c.offset).pos = c.offset)
    (hout : c.Nothing file → c.outsize = 0) (hret : FtpRead file h c res) : c.Right file res := by
  refine Reads.right hout hret ⟨?_, Nat.zero_le _, ?_, rfl, ?_⟩
  · rw [hpos, Nat.add_zero]
  · rw [List.take_zero]
  · exact (if_pos rfl).symm

/-- A read that finds nothing leaves the library where it is. -/
theorem pos_of_nothing {h : Handle} (hnothing : c.Nothing file)
    (hpos : (h.sought c.offset).pos = c.offset) (hret : FtpRead file h c res) :
    res.2.pos = c.offset := by
  have hnone : ∀ n r, r.pos = c.offset → rsize file c.size n r = 0 := by
    intro n r hr
    rw [rsize]
    rcases hnothing with h0 | hend <;> omega
  refine hret.induct (P := fun r => r.pos = c.offset → res.2.pos = c.offset) ?_ ?_ hpos
  · intro r hdone hr
    rcases readRound_cases file c r with ⟨-, hr'⟩ | ⟨-, hr'⟩ | ⟨n, -, ⟨-, hr'⟩ | ⟨_, -, h0, -⟩⟩
    · rw [hr'] at hdone
      cases hdone
    · obtain rfl := Round.done.inj (hr'.symm.trans hdone)
      exact hr
    · obtain rfl := Round.done.inj (hr'.symm.trans hdone)
      exact hr
    · exact absurd (hnone n r hr) h0
  · intro r r' hnext _ ih hr
    rcases readRound_cases file c r with ⟨-, hr'⟩ | ⟨-, hr'⟩ | ⟨n, -, ⟨-, hr'⟩ | ⟨_, -, h0, -⟩⟩
    · obtain rfl := Round.next.inj (hr'.symm.trans hnext)
      exact ih hr
    · rw [hr'] at hnext
      cases hnext
    · rw [hr'] at hnext
      cases hnext
    · exact absurd (hnone n r hr) h0

/-- A read that fails at once leaves it there as well. -/
theorem pos_of_fails {h : Handle} (hfails : c.Fails) (hret : FtpRead file h c res) :
    res.1 = false ∧ res.2.pos = (h.sought c.offset).pos := by
  obtain ⟨k, hk, hagain⟩ := hfails
  refine hret.induct (P := fun r => r.asked ≤ k → r.pos = (h.sought c.offset).pos →
    res.1 = false ∧ res.2.pos = (h.sought c.offset).pos) ?_ ?_ (Nat.zero_le k) rfl
  · intro r hdone hle hpos
    rcases hle.eq_or_lt with rfl | hlt
    · rw [readRound, hk] at hdone
      obtain rfl := Round.done.inj hdone
      exact ⟨rfl, hpos⟩
    · rw [readRound, hagain _ hlt] at hdone
      cases hdone
  · intro r r' hnext _ ih hle hpos
    rcases hle.eq_or_lt with rfl | hlt
    · rw [readRound, hk] at hnext
      cases hnext
    · rw [readRound, hagain _ hlt] at hnext
      obtain rfl := Round.next.inj hnext
      exact ih hlt hpos

/-! ## Many reads -/

/-- The calls, one after another, all end and are all right. -/
def AllRight (file : Bytes) : Handle → List Call → Prop
  | _, [] => True
  | h, c :: calls =>
    ∃ res, FtpRead file h c res ∧ c.Right file res ∧ AllRight file (h.behind c res) calls

/-- The second call asks for another offset, unless the first has read nothing. -/
def Fresh (file : Bytes) (c c' : Call) : Prop :=
  c.offset ≠ c'.offset ∨ c.Nothing file ∨ c.Fails

def Ready (h : Handle) (c : Call) : Prop :=
  (h.sought c.offset).pos = c.offset

theorem ready_of_ne {h : Handle} (hne : h.m_sftp_offset ≠ c.offset) : Ready h c := by
  rw [Ready, Handle.sought, if_pos hne]
  rfl

/-- A read leaves the handle ready for a call that is fresh. -/
theorem ready_behind {h : Handle} {c' : Call} (hready : Ready h c) (hret : FtpRead file h c res)
    (hfresh : Fresh file c c') : Ready (h.behind c res) c' := by
  have hoffset : (h.behind c res).m_sftp_offset = c.offset := sought_offset h c.offset
  by_cases hne : c.offset = c'.offset
  · rw [Ready, Handle.sought, hoffset, if_neg (not_not.mpr hne), ← hne]
    rcases hfresh.resolve_left (not_not.mpr hne) with hnothing | hfails
    · exact pos_of_nothing hnothing hready hret
    · exact (pos_of_fails hfails hret).2.trans hready
  · exact ready_of_ne (hoffset ▸ hne)

theorem allRight_of_ready {calls : List Call} {h : Handle} (hfair : ∀ c ∈ calls, c.Fair)
    (hout : ∀ c ∈ calls, c.Nothing file → c.Fails ∨ c.outsize = 0)
    (hfresh : calls.IsChain (Fresh file))
    (hready : ∀ c, calls.head? = some c → Ready h c) : AllRight file h calls := by
  induction calls generalizing h with
  | nil => exact trivial
  | cons c calls ih =>
    rw [List.forall_mem_cons] at hfair hout
    have hc := hready c rfl
    obtain ⟨res, hret⟩ := exists_returns hfair.1 ⟨(h.sought c.offset).pos, 0, c.outsize, [], 0⟩
    have hright : c.Right file res := by
      by_cases hfails : c.Fails
      · intro hwell
        rw [(pos_of_fails hfails hret).1] at hwell
        cases hwell
      · exact ftpRead_right hc (fun hnothing => (hout.1 hnothing).resolve_left hfails) hret
    refine ⟨res, hret, hright, ih hfair.2 hout.2 hfresh.tail ?_⟩
    intro c' hc'
    cases calls with
    | nil => cases hc'
    | cons c'' calls =>
      cases hc'
      exact ready_behind hc hret (List.isChain_cons_cons.mp hfresh).1

/-- Every read of an open handle is right, when no two neighbours ask for one offset unless the first
one reads nothing, and where there is nothing to read 0 stands in `*outsize` already. -/
theorem ftpReads_right (file : Bytes) (calls : List Call) (hfair : ∀ c ∈ calls, c.Fair)
    (hfresh : calls.IsChain (Fresh file))
    (hout : ∀ c ∈ calls, c.Nothing file → c.Fails ∨ c.outsize = 0) :
    AllRight file ftpOpen calls := by
  refine allRight_of_ready hfair hout hfresh fun c _ => ?_
  by_cases h0 : c.offset = 0
  · rw [Ready, h0]
    rfl
  · exact ready_of_ne (Ne.symm h0)

/-- A library that delivers one byte at a time. -/
def exCall (outsize size offset : Nat) : Call :=
  ⟨outsize, size, offset, fun _ => .bytes 0⟩

theorem exCall_fair (outsize size offset : Nat) : (exCall outsize size offset).Fair :=
  fun _ => ⟨0, fun h => Answer.noConfusion h⟩

def exFailure : Call :=
  ⟨1, 2, 0, fun _ => .failed⟩

theorem exFailure_fails : exFailure.Fails :=
  ⟨0, rfl, fun j hj => absurd hj (Nat.not_lt_zero j)⟩

/-- A second time behind a failure, forward, backward, and twice at the end of the file. -/
theorem ftpReads_right_abc : AllRight (bytes "abc") ftpOpen
    [exFailure, exCall 0 2 0, exCall 2 2 2, exCall 1 1 0, exCall 0 4 3, exCall 0 4 3] := by
  refine ftpReads_right _ _ ?_ ?_ ?_
  · have hfailure : exFailure.Fair := fun _ => ⟨0, fun h => Answer.noConfusion h⟩
    simp [exCall_fair, hfailure]
  · exact .cons_cons (.inr (.inr exFailure_fails)) (.cons_cons (.inl (by decide))
      (.cons_cons (.inl (by decide)) (.cons_cons (.inl (by decide))
        (.cons_cons (.inr (.inl (by decide))) (.singleton _)))))
  · simp only [List.forall_mem_cons]
    exact ⟨fun _ => .inl exFailure_fails, fun _ => .inr rfl, fun h => absurd h (by decide),
      fun h => absurd h (by decide), fun _ => .inr rfl, fun _ => .inr rfl, List.forall_mem_nil _⟩

/-- The second of two reads at one offset gets the bytes behind the first. -/
theorem not_ftpReads_right : ¬ ∀ (file : Bytes) (calls : List Call), (∀ c ∈ calls, c.Fair) →
    AllRight file ftpOpen calls := by
  intro h
  obtain ⟨res, hret, -, res', hret', hright, -⟩ := h (bytes "ab") [exCall 0 1 0, exCall 0 1 0]
    (by simp [exCall_fair])
  have hfirst : FtpRead (bytes "ab") ftpOpen (exCall 0 1 0) (true, ⟨1, 1, 1, bytes "a", 1⟩) :=
    returns_of_done rfl
  obtain rfl := hret.unique hfirst
  have hsecond : FtpRead (bytes "ab") ⟨0, 1⟩ (exCall 0 1 0) (true, ⟨2, 1, 1, bytes "b", 1⟩) :=
    returns_of_done rfl
  obtain rfl := hret'.unique hsecond
  exact absurd (hright rfl).1 (by decide)

end SSH2Session

end Dframework
