import Mathlib
import Dframework.Http.LengthRun

/-!
# `IHttpReader::readBlocks` on a body that is followed by other bytes

A run that ends well is a sequence of passes, each of which takes what one `recv` gives,
and of a last hand-over that is made when exactly the announced number of bytes has been
received. What the passes keep decides which bodies are delivered.

Results:
1. `passes_of_readLength`: a run that ends well, as a sequence of passes.
2. `passes_blocks`: blocks are full while the pending bytes fit into one.
3. `passes_oversize`: a pending block that is too large only grows.
4. `readLength_split_iff`: when the body is delivered, in its blocks.
-/

namespace Dframework

open CLib Loop Relation

/-! ## Passes -/

/-- One pass of the loop: nothing is taken, when `recv` fails or has nothing to give, or
`procBlocks` takes the bytes. -/
inductive Pass (B : Nat) (st : LengthState) : LengthState → Prop
  | idle {sock sock' : Socket} {r : Bytes} {ret : Retval} (hwait : waitRecv st.sock = (none, sock))
      (hrecv : recvRaw DFW_HTTPSOCKET_MAX_SIZE sock = (r, ret, sock'))
      (hnone : r = [] ∨ ret ≠ none ∧ ret.map Ret.value ≠ some .eAgain) :
      Pass B st { st with sock := sock' }
  | bytes {sock sock' : Socket} {r : Bytes} {ret : Retval} {st' : LengthState}
      (hwait : waitRecv st.sock = (none, sock))
      (hrecv : recvRaw DFW_HTTPSOCKET_MAX_SIZE sock = (r, ret, sock'))
      (hproc : procBlocks (.accepting B) { st with sock := sock' } (some r) r.length false =
        some (st', none)) : Pass B st st'

/-- The last hand-over: all announced bytes have been received, and what is pending goes
out. -/
structure Last (B : Nat) (st st' : LengthState) : Prop where
  received : st.recvContentLength = st.contentLength
  handed : procBlocks (.accepting B) st none 0 true = some (st', none)

namespace LengthSplitLemmas

variable {B : Nat} {st st' st'' : LengthState} {e : Ret}

theorem onPending_accepting (st : LengthState) :
    st.onPending (.accepting B) =
      ({ st with calls := st.calls ++ [⟨toChars st.readerBuffer, st.readerBuffer.length⟩] }, none) :=
  rfl

/-- A consumer that takes every block never makes `procBlocks` fail, and `procBlocks`
counts the bytes it is given. -/
theorem procBlocksLoop_keeps {fuel size : Nat} {mem : Bytes} {isended : Bool} {ret : Retval}
    (h : procBlocksLoop (.accepting B) fuel st mem size isended = some (st', ret)) :
    ret = none ∧ st'.recvContentLength = st.recvContentLength ∧
      st'.contentLength = st.contentLength ∧ st'.sock = st.sock := by
  induction fuel generalizing st mem size with
  | zero => cases h
  | succ fuel ih =>
    simp only [procBlocksLoop, onPending_accepting] at h
    split at h
    next =>
      split at h
      next =>
        obtain ⟨rfl, rfl⟩ := Prod.mk.inj (Option.some.inj h)
        exact ⟨rfl, rfl, rfl, rfl⟩
      next =>
        split at h
        next =>
          obtain ⟨rfl, rfl⟩ := Prod.mk.inj (Option.some.inj h)
          exact ⟨rfl, rfl, rfl, rfl⟩
        next => cases h
    next =>
      split at h
      next =>
        have hrest := ih h
        exact hrest
      next => cases h

theorem procBlocks_keeps {buffer : Option Bytes} {size : Nat} {isended : Bool} {ret : Retval}
    (h : procBlocks (.accepting B) st buffer size isended = some (st', ret)) :
    ret = none ∧ st'.recvContentLength = st.recvContentLength + size ∧
      st'.contentLength = st.contentLength ∧ st'.sock = st.sock := by
  rw [procBlocks] at h
  split at h
  next =>
    obtain ⟨rfl, rfl⟩ := Prod.mk.inj (Option.some.inj h)
    exact ⟨rfl, rfl, rfl, rfl⟩
  next => exact procBlocksLoop_keeps h

theorem readLastBlocks_last (h : readLastBlocks (.accepting B) st = some (st', none)) :
    Last B st st' := by
  rw [readLastBlocks] at h
  split at h
  next heq => exact ⟨heq, h⟩
  next => cases h

theorem readLastBlocks_error (h : readLastBlocks (.accepting B) st = some (st', some e)) :
    st' = st := by
  rw [readLastBlocks] at h
  split at h
  next => cases (procBlocks_keeps h).1
  next => exact (Prod.mk.inj (Option.some.inj h)).1.symm

/-- What a pass of the loop does, for a consumer that takes every block. -/
theorem readLengthRound_cases (B : Nat) (st : LengthState) :
    (∀ st', readLengthRound (.accepting B) st = .next st' → Pass B st st') ∧
    (∀ st', readLengthRound (.accepting B) st = .done (some (st', none)) →
      ∃ st₁, Pass B st st₁ ∧ Last B st₁ st') := by
  rw [readLengthRound]
  rcases hwait : waitRecv st.sock with ⟨_ | e, sock⟩
  · rcases hrecv : recvRaw DFW_HTTPSOCKET_MAX_SIZE sock with ⟨r, ret, sock'⟩
    have hidle := @Pass.idle B st _ _ _ _ hwait hrecv
    simp only [hrecv]
    split
    next hfail =>
      -- the bytes that came with the failure are not looked at
      refine ⟨by simp, fun st' h => ?_⟩
      refine ⟨_, hidle (.inr ⟨Option.isSome_iff_ne_none.mp hfail.1, hfail.2.1⟩), ?_⟩
      exact readLastBlocks_last (Round.done.inj h)
    next =>
      split
      next hempty =>
        rcases hlast : readLastBlocks (.accepting B) { st with sock := sock' } with _ | ⟨st₁, _ | e⟩
        · simp
        · refine ⟨by simp, fun st' h => ⟨_, hidle (.inl hempty.1), ?_⟩⟩
          obtain ⟨rfl, -⟩ := Prod.mk.inj (Option.some.inj (Round.done.inj h))
          exact readLastBlocks_last hlast
        · refine ⟨fun st' h => ?_, by simp⟩
          obtain rfl := Round.next.inj h
          rw [readLastBlocks_error hlast]
          exact hidle (.inl hempty.1)
      next =>
        split
        next hne =>
          rcases hproc : procBlocks (.accepting B) { st with sock := sock' } (some r) r.length false
            with _ | ⟨st₁, _ | e⟩
          · simp
          · have hpass := Pass.bytes hwait hrecv hproc
            dsimp only
            rcases hlast : readLastBlocks (.accepting B) st₁ with _ | ⟨st₂, _ | e⟩
            · simp
            · refine ⟨by simp, fun st' h => ⟨_, hpass, ?_⟩⟩
              obtain ⟨rfl, -⟩ := Prod.mk.inj (Option.some.inj (Round.done.inj h))
              exact readLastBlocks_last hlast
            · obtain rfl := readLastBlocks_error hlast
              dsimp only
              split
              · simp
              · refine ⟨fun st' h => ?_, by simp⟩
                obtain rfl := Round.next.inj h
                exact hpass
          · simp
        next hempty =>
          have hnil : r = [] := not_not.mp hempty
          split
          next hclosed =>
            refine ⟨by simp, fun st' h => ?_⟩
            obtain ⟨-, rfl⟩ := Prod.mk.inj (Option.some.inj (Round.done.inj h))
            cases hclosed
          next =>
            refine ⟨fun st' h => ?_, by simp⟩
            obtain rfl := Round.next.inj h
            exact hidle (.inl hnil)
  · simp

end LengthSplitLemmas

open LengthSplitLemmas

/-- A run that ends well is a sequence of passes and the last hand-over. -/
theorem passes_of_readLength {B : Nat} {st st' : LengthState}
    (h : ReadLength (.accepting B) st (some (st', none))) :
    ∃ st₁, ReflTransGen (Pass B) st st₁ ∧ Last B st₁ st' := by
  have hloop : ∀ st, Returns (readLengthRound (.accepting B)) st (some (st', none)) →
      ∃ st₁, ReflTransGen (Pass B) st st₁ ∧ Last B st₁ st' := by
    intro st hret
    refine hret.induct (P := fun st => ∃ st₁, ReflTransGen (Pass B) st st₁ ∧ Last B st₁ st') ?_ ?_
    · intro st hdone
      obtain ⟨st₁, hpass, hlast⟩ := (readLengthRound_cases B st).2 st' hdone
      exact ⟨st₁, .single hpass, hlast⟩
    · rintro st st₂ hnext - ⟨st₁, hpasses, hlast⟩
      exact ⟨st₁, .head ((readLengthRound_cases B st).1 st₂ hnext) hpasses, hlast⟩
  unfold ReadLength at h
  rcases hlast : readLastBlocks (.accepting B) st with _ | ⟨st₁, _ | e⟩ <;> rw [hlast] at h
  · cases h
  · obtain ⟨rfl, -⟩ := Prod.mk.inj (Option.some.inj h)
    exact ⟨st, .refl, readLastBlocks_last hlast⟩
  · obtain rfl := readLastBlocks_error hlast
    exact hloop _ h

/-! ## Blocks -/

/-- The blocks have `B` bytes, the last one at most. Without a block size they may have any
number. -/
def InBlocks (B : Nat) (calls : List Block) : Prop :=
  0 < B → (∀ c ∈ calls.dropLast, c.size = B) ∧ ∀ c ∈ calls.getLast?, c.size ≤ B

/-- The blocks so far are full, and what is pending fits into one. -/
structure BlocksFull (B : Nat) (st : LengthState) : Prop where
  calls_full : ∀ c ∈ st.calls, c.size = B
  pending_le : st.readerBuffer.length ≤ B

/-- Nothing has gone out, and what is pending is all that has been received: more than a
block. -/
structure Oversize (B : Nat) (st : LengthState) : Prop where
  calls_nil : st.calls = []
  pending_gt : B < st.readerBuffer.length
  pending_all : st.readerBuffer.length = st.recvContentLength

/-- Without a block size the bytes that came with the header stay where they are. -/
structure Stuck (st : LengthState) : Prop where
  pending_ne : st.readerBuffer ≠ []
  received : st.readerBuffer.length + (delivered st.calls).length = st.recvContentLength

/-- More than the announced number of bytes has been received. -/
def Overshot (st : LengthState) : Prop :=
  st.contentLength < st.recvContentLength

namespace LengthSplitLemmas

variable {B : Nat} {st st' : LengthState}

theorem procBlocksLoop_full {fuel size : Nat} {mem : Bytes} {ret : Retval} (h : BlocksFull B st)
    (hrun : procBlocksLoop (.accepting B) fuel st mem size false = some (st', ret)) :
    BlocksFull B st' := by
  induction fuel generalizing st mem size with
  | zero => cases hrun
  | succ fuel ih =>
    have hsub : sizeSub (HttpQuery.accepting B).blockSize st.readerBuffer.length =
        B - st.readerBuffer.length := sizeSub_of_le h.pending_le
    simp only [procBlocksLoop, onPending_accepting, hsub] at hrun
    split at hrun
    next hgt =>
      rw [if_neg Bool.false_ne_true] at hrun
      split at hrun
      next hle =>
        obtain ⟨rfl, -⟩ := Prod.mk.inj (Option.some.inj hrun)
        refine ⟨h.calls_full, ?_⟩
        have := h.pending_le
        simp only [List.length_append, List.length_take]
        omega
      next => cases hrun
    next =>
      split at hrun
      next hle =>
        refine ih ?_ hrun
        refine ⟨fun c hc => ?_, Nat.zero_le B⟩
        rcases List.mem_append.mp hc with hc | hc
        · exact h.calls_full c hc
        · have := h.pending_le
          rw [List.mem_singleton.mp hc]
          simp only [List.length_append, List.length_take]
          omega
      next => cases hrun

theorem procBlocks_full {buffer : Option Bytes} {size : Nat} {ret : Retval} (hB : 0 < B)
    (h : BlocksFull B st)
    (hrun : procBlocks (.accepting B) st buffer size false = some (st', ret)) :
    BlocksFull B st' := by
  rw [procBlocks, if_neg (show ¬ (HttpQuery.accepting B).blockSize = 0 from hB.ne')] at hrun
  refine procBlocksLoop_full ?_ hrun
  exact ⟨h.calls_full, h.pending_le⟩

/-- A pending block that is too large takes whatever comes. -/
theorem procBlocks_oversize {buffer : Bytes} {ret : Retval} (hB : 0 < B) (h : Oversize B st)
    (hlen : st.recvContentLength + buffer.length < 2 ^ 64)
    (hrun : procBlocks (.accepting B) st (some buffer) buffer.length false = some (st', ret)) :
    Oversize B st' := by
  rw [procBlocks, if_neg (show ¬ (HttpQuery.accepting B).blockSize = 0 from hB.ne')] at hrun
  have hgt : sizeSub (HttpQuery.accepting B).blockSize st.readerBuffer.length > buffer.length := by
    have := h.pending_all
    exact LengthRunLemmas.sizeSub_gt h.pending_gt (by omega)
  simp only [procBlocksLoop, Option.getD_some, if_pos hgt, if_neg Bool.false_ne_true,
    if_pos le_rfl, List.take_length] at hrun
  obtain ⟨rfl, -⟩ := Prod.mk.inj (Option.some.inj hrun)
  have hall := h.pending_all
  have hpending := h.pending_gt
  refine ⟨h.calls_nil, ?_, ?_⟩ <;> simp only [List.length_append] <;> omega

theorem procBlocks_stuck {buffer : Bytes} {ret : Retval} (h : Stuck st)
    (hrun : procBlocks (.accepting 0) st (some buffer) buffer.length false = some (st', ret)) :
    Stuck st' := by
  obtain ⟨rfl, -⟩ := Prod.mk.inj (Option.some.inj hrun)
  refine ⟨h.pending_ne, ?_⟩
  have := h.received
  simp only [delivered_append, delivered_singleton, List.length_append,
    Block.data, Option.getD_some, List.take_length]
  omega

end LengthSplitLemmas

/-- The blocks stay full over a run, while what came with the header fits into one. -/
theorem passes_blocks {B : Nat} {st st' : LengthState} (hB : 0 < B) (h : BlocksFull B st)
    (hrun : ReflTransGen (Pass B) st st') : BlocksFull B st' := by
  induction hrun with
  | refl => exact h
  | tail _ hpass ih =>
    cases hpass with
    | idle => exact ⟨ih.calls_full, ih.pending_le⟩
    | bytes _ _ hproc =>
      refine procBlocks_full hB ?_ hproc
      exact ⟨ih.calls_full, ih.pending_le⟩

/-- What has been received past the announced number stays past it. -/
theorem passes_overshot {B : Nat} {st st' : LengthState} (h : Overshot st)
    (hrun : ReflTransGen (Pass B) st st') : Overshot st' := by
  induction hrun with
  | refl => exact h
  | tail _ hpass ih =>
    cases hpass with
    | idle => exact ih
    | bytes _ _ hproc =>
      obtain ⟨-, hrecv, hcontent, -⟩ := procBlocks_keeps hproc
      unfold Overshot at ih ⊢
      simp only at hrecv hcontent
      omega

/-- The announced number stays as it is. -/
theorem passes_content {B : Nat} {st st' : LengthState} (hrun : ReflTransGen (Pass B) st st') :
    st'.contentLength = st.contentLength := by
  induction hrun with
  | refl => rfl
  | tail _ hpass ih =>
    cases hpass with
    | idle => exact ih
    | bytes _ _ hproc => exact (procBlocks_keeps hproc).2.2.1.trans ih

/-- A pending block that is too large only grows, until the announced number of bytes is
passed. -/
theorem passes_oversize {B : Nat} {st st' : LengthState} (hB : 0 < B) (h : Oversize B st)
    (hlen : st.contentLength < 2 ^ 64) (hrun : ReflTransGen (Pass B) st st') :
    Oversize B st' ∨ Overshot st' := by
  induction hrun with
  | refl => exact .inl h
  | @tail st₁ st₂ hpasses hpass ih =>
    rcases ih with ih | ih
    · cases hpass with
      | idle => exact .inl ⟨ih.calls_nil, ih.pending_gt, ih.pending_all⟩
      | @bytes sock sock' r ret _ _ _ hproc =>
        obtain ⟨-, hrecv, hcontent, -⟩ := procBlocks_keeps hproc
        have hsame := passes_content hpasses
        simp only at hrecv hcontent
        by_cases hover : st₁.contentLength < st₁.recvContentLength + r.length
        · refine .inr ?_
          unfold Overshot
          omega
        · refine .inl (procBlocks_oversize hB ?_ ?_ hproc)
          · exact ⟨ih.calls_nil, ih.pending_gt, ih.pending_all⟩
          · simp only
            omega
    · exact .inr (passes_overshot ih (.single hpass))

theorem passes_stuck {st st' : LengthState} (h : Stuck st)
    (hrun : ReflTransGen (Pass 0) st st') : Stuck st' := by
  induction hrun with
  | refl => exact h
  | tail _ hpass ih =>
    cases hpass with
    | idle => exact ⟨ih.pending_ne, ih.received⟩
    | bytes _ _ hproc =>
      refine procBlocks_stuck ?_ hproc
      exact ⟨ih.pending_ne, ih.received⟩

/-- The announced number of bytes is never reached at the end of a `recv`: `segs` are still
to come, and they go past it. -/
structure Skips (st : LengthState) (segs : List Bytes) (tail : Socket) : Prop where
  sock_brings : Brings st.sock segs tail
  segs_fit : ∀ s ∈ segs, s ≠ [] ∧ s.length ≤ DFW_HTTPSOCKET_MAX_SIZE
  skips : ∀ k, st.recvContentLength + (segs.take k).flatten.length ≠ st.contentLength
  passes : st.contentLength ≤ st.recvContentLength + segs.flatten.length

namespace LengthSplitLemmas

variable {B : Nat} {st st' : LengthState}

/-- A pass takes the next segment. -/
theorem pass_skips {segs : List Bytes} {tail : Socket} (h : Skips st segs tail)
    (hpass : Pass B st st') : (∃ segs', Skips st' segs' tail) ∨ Overshot st' := by
  cases segs with
  | nil =>
    have hover : Overshot st := by
      have hne := h.skips 0
      have hle := h.passes
      simp only [List.take_nil, List.flatten_nil, List.length_nil, Nat.add_zero] at hne hle
      unfold Overshot
      omega
    exact .inr (passes_overshot hover (.single hpass))
  | cons s ss =>
    obtain ⟨hs, hfit⟩ := h.segs_fit s List.mem_cons_self
    obtain ⟨ret, sock', hrecv, hsock, hret⟩ :=
      recvRaw_segment hs ss tail DFW_HTTPSOCKET_MAX_SIZE
    rw [List.take_of_length_le hfit] at hrecv
    rw [behind, if_pos hfit] at hsock
    have hwait := h.sock_brings.waitRecv_eq hs
    have hfit' : ∀ t ∈ ss, t ≠ [] ∧ t.length ≤ DFW_HTTPSOCKET_MAX_SIZE := fun t ht =>
      h.segs_fit t (List.mem_cons_of_mem _ ht)
    cases hpass with
    | idle hwait' hrecv' hnone =>
      -- a segment is neither empty nor comes with a failure
      cases hwait.symm.trans hwait'
      cases hrecv.symm.trans hrecv'
      rcases hret with rfl | ⟨rfl, -⟩ <;> rcases hnone with hnil | ⟨hne, hagain⟩
      · exact absurd hnil hs
      · exact absurd rfl hne
      · exact absurd hnil hs
      · exact absurd rfl hagain
    | bytes hwait' hrecv' hproc =>
      cases hwait.symm.trans hwait'
      cases hrecv.symm.trans hrecv'
      obtain ⟨-, hcount, hcontent, hsame⟩ := procBlocks_keeps hproc
      simp only at hcount hcontent hsame
      refine .inl ⟨ss, hsame ▸ hsock, hfit', fun k hk => ?_, ?_⟩
      · refine h.skips (k + 1) ?_
        rw [List.take_succ_cons, List.flatten_cons, List.length_append]
        omega
      · have hle := h.passes
        rw [List.flatten_cons, List.length_append] at hle
        omega

theorem passes_skips {segs : List Bytes} {tail : Socket} (h : Skips st segs tail)
    (hrun : ReflTransGen (Pass B) st st') : (∃ segs', Skips st' segs' tail) ∨ Overshot st' := by
  induction hrun with
  | refl => exact .inl ⟨segs, h⟩
  | tail _ hpass ih =>
    rcases ih with ⟨segs', ih⟩ | ih
    · exact pass_skips ih hpass
    · exact .inr (passes_overshot ih (.single hpass))

theorem last_not_overshot (h : Last B st st') : ¬ Overshot st := by
  have := h.received
  unfold Overshot
  omega

/-- The last hand-over makes the last block. -/
theorem last_blocks (hB : 0 < B) (h : BlocksFull B st) (hlast : Last B st st') :
    InBlocks B st'.calls := by
  have hrun := hlast.handed
  have hsub : sizeSub (HttpQuery.accepting B).blockSize st.readerBuffer.length =
      B - st.readerBuffer.length := sizeSub_of_le h.pending_le
  rw [procBlocks, if_neg (show ¬ (HttpQuery.accepting B).blockSize = 0 from hB.ne')] at hrun
  simp only [Option.getD_none, List.length_nil, Nat.zero_add, Nat.add_zero] at hrun
  rw [procBlocksLoop] at hrun
  simp only [hsub, onPending_accepting] at hrun
  intro _
  split at hrun
  next hgt =>
    obtain ⟨rfl, -⟩ := Prod.mk.inj (Option.some.inj hrun)
    refine ⟨fun c hc => ?_, fun c hc => ?_⟩
    · rw [List.dropLast_concat] at hc
      exact h.calls_full c hc
    · rw [List.getLast?_concat, Option.mem_some] at hc
      rw [← hc]
      exact h.pending_le
  next hle =>
    have hfull : st.readerBuffer.length = B := by
      have := h.pending_le
      omega
    have hempty : sizeSub (HttpQuery.accepting B).blockSize 0 = B := sizeSub_of_le (Nat.zero_le B)
    simp only [hfull, Nat.sub_self, Nat.zero_le, if_true, procBlocksLoop, List.take_zero,
      List.append_nil, List.drop_zero, List.length_nil, hempty, if_pos hB,
      onPending_accepting] at hrun
    obtain ⟨rfl, -⟩ := Prod.mk.inj (Option.some.inj hrun)
    refine ⟨fun c hc => ?_, fun c hc => ?_⟩
    · rw [List.dropLast_concat] at hc
      rcases List.mem_append.mp hc with hc | hc
      · exact h.calls_full c hc
      · rw [List.mem_singleton.mp hc]
    · rw [List.getLast?_concat, Option.mem_some] at hc
      rw [← hc]
      exact Nat.zero_le B

/-- A pending block that is too large goes out as it is. -/
theorem last_oversize (hB : 0 < B) (h : Oversize B st) (hlen : st.contentLength < 2 ^ 64)
    (hlast : Last B st st') : ¬ InBlocks B st'.calls := by
  have hrun := hlast.handed
  have hreceived := hlast.received
  have hall := h.pending_all
  have hgt : sizeSub (HttpQuery.accepting B).blockSize st.readerBuffer.length > 0 :=
    LengthRunLemmas.sizeSub_gt h.pending_gt (by omega)
  rw [procBlocks, if_neg (show ¬ (HttpQuery.accepting B).blockSize = 0 from hB.ne')] at hrun
  simp only [Option.getD_none, List.length_nil, Nat.zero_add, Nat.add_zero] at hrun
  rw [procBlocksLoop] at hrun
  simp only [if_pos hgt, onPending_accepting, if_true] at hrun
  obtain ⟨rfl, -⟩ := Prod.mk.inj (Option.some.inj hrun)
  intro hblocks
  have hle := (hblocks hB).2 _ (by rw [List.getLast?_concat]; rfl)
  exact absurd hle (not_le.mpr h.pending_gt)

/-- What stays where it is is missing in the end. -/
theorem last_stuck (h : Stuck st) (hlast : Last 0 st st') :
    (delivered st'.calls).length < st.contentLength := by
  obtain ⟨rfl, -⟩ := Prod.mk.inj (Option.some.inj hlast.handed)
  have hpos := List.length_pos_of_ne_nil h.pending_ne
  have hcount := h.received
  have hreceived := hlast.received
  simp only [delivered_append, delivered_singleton, Block.data, Option.getD_none, List.take_nil,
    List.append_nil]
  omega

end LengthSplitLemmas

/-- The body is handed over in its blocks exactly when what came with the header fits into
one block and the body ends where a `recv` ends. -/
theorem readLength_split_iff {B : Nat} {recvBuffer payload extra : Bytes} {segs : List Bytes}
    (tail : Socket) (hsegs : ∀ s ∈ segs, s ≠ [] ∧ s.length ≤ DFW_HTTPSOCKET_MAX_SIZE)
    (hlen : payload.length < 2 ^ 64) (hsplit : recvBuffer ++ segs.flatten = payload ++ extra) :
    (∃ st, ReadLength (.accepting B)
        (lengthInit recvBuffer payload.length (segments segs ++ tail)) (some (st, none)) ∧
      delivered st.calls = payload ∧ InBlocks B st.calls) ↔
    recvBuffer.length ≤ B ∧
      ∃ k, recvBuffer.length + (segs.take k).flatten.length = payload.length := by
  have htotal := congrArg List.length hsplit
  simp only [List.length_append] at htotal
  constructor
  · rintro ⟨st, hread, hpayload, hblocks⟩
    obtain ⟨st₁, hrun, hlast⟩ := passes_of_readLength hread
    constructor
    · by_contra hgt
      rcases Nat.eq_zero_or_pos B with rfl | hB
      · have hne : recvBuffer ≠ [] := List.ne_nil_of_length_pos (not_le.mp hgt)
        have hmissing := last_stuck (passes_stuck ⟨hne, Nat.add_zero _⟩ hrun) hlast
        rw [hpayload, passes_content hrun] at hmissing
        exact absurd hmissing (lt_irrefl _)
      · rcases passes_oversize hB ⟨rfl, not_le.mp hgt, rfl⟩ hlen hrun with hover | hover
        · exact last_oversize hB hover (by rw [passes_content hrun]; exact hlen) hlast hblocks
        · exact last_not_overshot hlast hover
    · by_contra hnone
      have hskips : Skips (lengthInit recvBuffer payload.length (segments segs ++ tail)) segs tail :=
        ⟨.inl rfl, hsegs, fun k hk => hnone ⟨k, hk⟩, by simp only [lengthInit]; omega⟩
      rcases passes_skips hskips hrun with ⟨segs', hskips'⟩ | hover
      · exact hskips'.skips 0 (by simpa using hlast.received)
      · exact last_not_overshot hlast hover
  · rintro ⟨hfits, k, hk⟩
    have hpayload : recvBuffer ++ (segs.take k).flatten = payload := by
      have hcut : recvBuffer ++ (segs.take k).flatten ++ (segs.drop k).flatten = payload ++ extra := by
        rw [List.append_assoc, ← List.flatten_append, List.take_append_drop, hsplit]
      exact (List.append_inj hcut (by rw [List.length_append, hk])).1
    have hsegments : segments segs ++ tail =
        segments (segs.take k) ++ (segments (segs.drop k) ++ tail) := by
      rw [← List.append_assoc, segments, segments, segments, ← List.flatMap_append,
        List.take_append_drop]
    obtain ⟨st, hread, hdelivered, -⟩ := readLength_delivers (B := B) (segments (segs.drop k) ++ tail)
      (fun s hs => (hsegs s (List.mem_of_mem_take hs)).1) hlen hpayload
      (fun h0 => List.length_eq_zero_iff.mp (by omega))
    rw [← hsegments] at hread
    refine ⟨st, hread, hdelivered, fun hB => ?_⟩
    obtain ⟨st₁, hrun, hlast⟩ := passes_of_readLength hread
    have hinit : BlocksFull B (lengthInit recvBuffer payload.length (segments segs ++ tail)) :=
      ⟨fun c hc => absurd hc List.not_mem_nil, hfits⟩
    exact last_blocks hB (passes_blocks hB hinit hrun) hlast hB

theorem readLength_split_hello :
    (∃ st, ReadLength (.accepting 4)
        (lengthInit (bytes "he") (bytes "hello").length (segments [bytes "llo", bytes "x"] ++ []))
        (some (st, none)) ∧
      delivered st.calls = bytes "hello" ∧ InBlocks 4 st.calls) ↔
    (bytes "he").length ≤ 4 ∧ ∃ k, (bytes "he").length +
      (([bytes "llo", bytes "x"] : List Bytes).take k).flatten.length = (bytes "hello").length :=
  readLength_split_iff [] (by decide) (by decide)
    (show bytes "he" ++ _ = bytes "hello" ++ bytes "x" by decide)

/-- Six bytes come where five were announced: the reader waits for more. -/
theorem readLength_split_overshot : ¬ ∃ st, ReadLength (.accepting 4)
      (lengthInit [] (bytes "hello").length (segments [bytes "hello!"])) (some (st, none)) ∧
    delivered st.calls = bytes "hello" ∧ InBlocks 4 st.calls := by
  rintro ⟨st, hread, -⟩
  have hwaits : (run (readLengthRound (.accepting 4)) 2
      (lengthInit [] (bytes "hello").length (segments [bytes "hello!"]))).map
        (Option.map Prod.snd) = some (some (retval .eTimeout)) := by decide
  obtain ⟨r, hrun, hr⟩ := Option.map_eq_some_iff.mp hwaits
  have hloop : Returns (readLengthRound (.accepting 4))
      (lengthInit [] (bytes "hello").length (segments [bytes "hello!"])) (some (st, none)) := hread
  obtain rfl := hloop.unique ⟨2, hrun⟩
  cases hr

end Dframework
