import Mathlib
import Dframework.Http.ChunkedBlocks

/-!
# The loop of `procChunkedBlocks`

The loop fills the pending bytes up to a block, hands the block over and goes on, until what is left
does not fill one. With block size 0 nothing is ever missing from a block, and at the end of a body the
loop hands over empty blocks until one of them is refused.

Results:
1. `procLoop_eq_run`: `procLoop` is the loop of `procRound`.
2. `proc_ends_iff`: the calls that end.
3. `pushAll_blocks`: the blocks that the pieces of a payload are cut into.
-/

namespace Dframework

open CLib Loop

/-! ## What has been taken -/

def HttpQuery.accepting (blockSize : Nat) : HttpQuery :=
  { blockSize, onResponse := fun _ => none }

/-- The bytes handed over by the calls. -/
def delivered (calls : List Block) : Bytes :=
  calls.flatMap Block.data

def Block.full (d : Bytes) : Block :=
  ⟨some d, d.length⟩

/-- The payload `p` has been taken: all calls had full blocks, and what does not
fill a block is pending. -/
structure Filled (blockSize : Nat) (p : Bytes) (st : HttpChunked) : Prop where
  taken : delivered st.calls ++ st.chunkedBuffer = p
  pending_lt : st.chunkedBuffer.length < blockSize
  calls_full : ∀ b ∈ st.calls, ∃ d : Bytes, d.length = blockSize ∧ b = .full d

/-- The calls after the end of the body: the rest, and the end notification. -/
def HttpChunked.ended (st : HttpChunked) : HttpChunked :=
  { chunkedBuffer := [],
    calls := st.calls ++ [⟨toChars st.chunkedBuffer, st.chunkedBuffer.length⟩, ⟨none, 0⟩] }

@[simp] theorem Block.full_data (d : Bytes) : (Block.full d).data = d := by
  simp [Block.full, Block.data]

@[simp] theorem delivered_nil : delivered [] = [] := rfl

@[simp] theorem delivered_append (cs ds : List Block) :
    delivered (cs ++ ds) = delivered cs ++ delivered ds :=
  List.flatMap_append

@[simp] theorem delivered_singleton (b : Block) : delivered [b] = b.data := by
  simp [delivered]

theorem toChars_block_data (s : Bytes) : (⟨toChars s, s.length⟩ : Block).data = s := by
  simp [Block.data]

/-- At the end everything that was taken has been delivered. -/
theorem Filled.delivered_ended {B : Nat} {p : Bytes} {st : HttpChunked} (h : Filled B p st) :
    delivered st.ended.calls = p := by
  rw [HttpChunked.ended, delivered_append, ← h.taken]
  simp [delivered, Block.data]

theorem filled_init {B : Nat} (hB : 0 < B) : Filled B [] ⟨[], []⟩ :=
  ⟨rfl, hB, by simp⟩

/-- The rest is filled up to a block and handed over. -/
theorem Filled.push {B : Nat} {p d : Bytes} {st : HttpChunked} (h : Filled B p st)
    (hd : st.chunkedBuffer.length + d.length = B) :
    Filled B (p ++ d) ⟨[], st.calls ++ [.full (st.chunkedBuffer ++ d)]⟩ := by
  refine ⟨?_, ?_, ?_⟩
  · simp [← h.taken]
  · exact Nat.zero_lt_of_lt h.pending_lt
  · intro b hb
    rcases List.mem_append.mp hb with hb | hb
    · exact h.calls_full b hb
    · exact ⟨_, by simp [hd], List.mem_singleton.mp hb⟩

/-- The rest stays below a block. -/
theorem Filled.keep {B : Nat} {p d : Bytes} {st : HttpChunked} (h : Filled B p st)
    (hd : st.chunkedBuffer.length + d.length < B) :
    Filled B (p ++ d) { st with chunkedBuffer := st.chunkedBuffer ++ d } := by
  refine ⟨?_, ?_, h.calls_full⟩
  · simp [← h.taken]
  · simpa using hd

/-! ## The blocks of a payload -/

def dataBlocks (calls : List Block) : List Bytes :=
  (calls.map Block.data).filter (· ≠ [])

/-- `p` cut into blocks of `B` bytes, of which only the last one may be shorter. -/
structure Cut (B : Nat) (p : Bytes) (blocks : List Bytes) : Prop where
  flatten : blocks.flatten = p
  full : ∀ b ∈ blocks.dropLast, b.length = B
  some_data : ∀ b ∈ blocks, b ≠ [] ∧ b.length ≤ B

/-- The first block, and the cut of what follows it. -/
theorem Cut.uncons {B : Nat} {p b : Bytes} {blocks : List Bytes} (h : Cut B p (b :: blocks)) :
    b = p.take B ∧ Cut B (p.drop B) blocks := by
  obtain ⟨hflat, hfull, hdata⟩ := h
  rw [List.flatten_cons] at hflat
  cases blocks with
  | nil =>
    have hle := (hdata b List.mem_cons_self).2
    rw [← hflat, List.flatten_nil, List.append_nil, List.take_of_length_le hle,
      List.drop_of_length_le hle]
    exact ⟨rfl, rfl, by simp, by simp⟩
  | cons c blocks =>
    have hlen : b.length = B := hfull b (by simp)
    rw [← hflat, List.take_left' hlen, List.drop_left' hlen]
    exact ⟨rfl, rfl, fun b' hb' => hfull b' (List.mem_cons_of_mem b hb'),
      fun b' hb' => hdata b' (List.mem_cons_of_mem b hb')⟩

/-- There is one way to cut a payload. -/
theorem Cut.unique {B : Nat} {p : Bytes} {bs cs : List Bytes} (h : Cut B p bs)
    (h' : Cut B p cs) : bs = cs := by
  induction bs generalizing p cs with
  | nil =>
    cases cs with
    | nil => rfl
    | cons c cs =>
      have hp : c ++ cs.flatten = [] := h'.flatten.trans h.flatten.symm
      exact absurd (List.append_eq_nil_iff.mp hp).1 (h'.some_data c List.mem_cons_self).1
  | cons b bs ih =>
    cases cs with
    | nil =>
      have hp : b ++ bs.flatten = [] := h.flatten.trans h'.flatten.symm
      exact absurd (List.append_eq_nil_iff.mp hp).1 (h.some_data b List.mem_cons_self).1
    | cons c cs =>
      obtain ⟨rfl, hbs⟩ := h.uncons
      obtain ⟨rfl, hcs⟩ := h'.uncons
      rw [ih hbs hcs]

theorem dataBlocks_append (cs ds : List Block) :
    dataBlocks (cs ++ ds) = dataBlocks cs ++ dataBlocks ds := by
  simp [dataBlocks]

theorem flatten_dataBlocks (calls : List Block) : (dataBlocks calls).flatten = delivered calls := by
  rw [dataBlocks, List.flatten_filter_ne_nil, delivered, List.flatMap_def]

/-- Full blocks and one that may be shorter. -/
theorem cut_dataBlocks {B : Nat} {calls : List Block} {b : Block}
    (hcalls : ∀ b ∈ calls, ∃ d : Bytes, d.length = B ∧ b = .full d) (hb : b.data.length ≤ B) :
    Cut B (delivered (calls ++ [b])) (dataBlocks (calls ++ [b])) := by
  have hmem : ∀ d ∈ dataBlocks calls, d ≠ [] ∧ d.length = B := by
    intro d hd
    obtain ⟨hd, hne⟩ := List.mem_filter.mp hd
    obtain ⟨b', hb', rfl⟩ := List.mem_map.mp hd
    obtain ⟨d, hlen, rfl⟩ := hcalls b' hb'
    exact ⟨of_decide_eq_true hne, by simpa using hlen⟩
  refine ⟨flatten_dataBlocks _, ?_, ?_⟩
  · rw [dataBlocks_append]
    rcases eq_or_ne b.data [] with he | he
    · have hnil : dataBlocks [b] = [] := by simp [dataBlocks, he]
      rw [hnil, List.append_nil]
      exact fun d hd => (hmem d (List.dropLast_subset _ hd)).2
    · have hone : dataBlocks [b] = [b.data] := by simp [dataBlocks, he]
      rw [hone, List.dropLast_concat]
      exact fun d hd => (hmem d hd).2
  · intro d hd
    rw [dataBlocks_append] at hd
    rcases List.mem_append.mp hd with hd | hd
    · exact ⟨(hmem d hd).1, (hmem d hd).2.le⟩
    · obtain ⟨hd, hne⟩ := List.mem_filter.mp hd
      rw [List.map_singleton, List.mem_singleton] at hd
      exact ⟨of_decide_eq_true hne, hd ▸ hb⟩

/-- Blocks of the payload `p` have been handed over, and nothing else. -/
structure Handed (B : Nat) (p : Bytes) (st : HttpChunked) : Prop where
  cut : Cut B (delivered st.calls) (dataBlocks st.calls)
  start : delivered st.calls <+: p

theorem Handed.mono {B : Nat} {p d : Bytes} {st : HttpChunked} (h : Handed B p st) :
    Handed B (p ++ d) st :=
  ⟨h.cut, h.start.trans (List.prefix_append _ _)⟩

/-! ## One pass -/

/-- The locals of `procChunkedBlocks`: the reader, and the memory and the size that are left. -/
structure ProcState where
  chunked : HttpChunked
  mem : Bytes
  size : Nat
  deriving DecidableEq, Repr

/-- One pass of the loop of `procChunkedBlocks`. -/
def procRound (q : HttpQuery) (isended : Bool) (s : ProcState) :
    Round ProcState (Option (HttpChunked × Retval)) :=
  let st := s.chunked
  let s_size := sizeSub q.blockSize st.chunkedBuffer.length
  if s_size > s.size then
    if isended then
      match st.onPending q with
      | (st, some e) => .done (some (st, some e))
      | (st, none) =>
        match st.onResponse q none 0 with
        | (st, some e) => .done (some (st, some e))
        | (st, none) => .done (some ({ st with chunkedBuffer := [] }, none))
    else if s.size ≤ s.mem.length then
      .done (some ({ st with chunkedBuffer := st.chunkedBuffer ++ s.mem.take s.size }, none))
    else .done none
  else if s_size ≤ s.mem.length then
    match ({ st with chunkedBuffer := st.chunkedBuffer ++ s.mem.take s_size } :
        HttpChunked).onPending q with
    | (st, some e) => .done (some (st, some e))
    | (st, none) => .next ⟨{ st with chunkedBuffer := [] }, s.mem.drop s_size, s.size - s_size⟩
  else .done none

variable {q : HttpQuery} {st : HttpChunked} {mem : Bytes} {size : Nat} {isended : Bool}

theorem procLoop_eq_run (fuel : Nat) (st : HttpChunked) (mem : Bytes) (size : Nat) :
    procLoop q fuel st mem size isended = (run (procRound q isended) fuel ⟨st, mem, size⟩).join := by
  induction fuel generalizing st mem size with
  | zero => rfl
  | succ fuel ih =>
    simp only [procLoop, run, procRound]
    split_ifs
    · rcases st.onPending q with ⟨st₁, _ | e⟩
      · rcases h₂ : st₁.onResponse q none 0 with ⟨st₂, _ | e⟩ <;> simp only [h₂] <;> rfl
      · rfl
    · rfl
    · rfl
    · rcases HttpChunked.onPending _ q with ⟨st₁, _ | e⟩
      · exact ih _ _ _
      · rfl
    · rfl

/-- A pass that does not fill the block keeps what is left. -/
theorem procRound_keep (hlt : st.chunkedBuffer.length < q.blockSize)
    (hs : size < q.blockSize - st.chunkedBuffer.length) (hmem : size ≤ mem.length) :
    procRound q false ⟨st, mem, size⟩ =
      .done (some ({ st with chunkedBuffer := st.chunkedBuffer ++ mem.take size }, none)) := by
  simp only [procRound, sizeSub_of_le hlt.le, gt_iff_lt, hs, if_true, Bool.false_eq_true,
    if_false, hmem]

/-- A pass that fills the block hands it over, and goes on when it is taken. -/
theorem procRound_full (isended : Bool) (hlt : st.chunkedBuffer.length < q.blockSize)
    (hs : q.blockSize - st.chunkedBuffer.length ≤ size) (hmem : size ≤ mem.length) {d : Bytes}
    (hd : d = mem.take (q.blockSize - st.chunkedBuffer.length)) :
    procRound q isended ⟨st, mem, size⟩ =
      match q.onResponse (st.calls ++ [.full (st.chunkedBuffer ++ d)]) with
      | some e => .done (some
          (⟨st.chunkedBuffer ++ d, st.calls ++ [.full (st.chunkedBuffer ++ d)]⟩, some e))
      | none => .next ⟨⟨[], st.calls ++ [.full (st.chunkedBuffer ++ d)]⟩, mem.drop d.length,
          size - d.length⟩ := by
  have hlen : d.length = q.blockSize - st.chunkedBuffer.length := by
    rw [hd, List.length_take]
    omega
  have hne : st.chunkedBuffer ++ d ≠ [] :=
    List.ne_nil_of_length_pos (by rw [List.length_append]; omega)
  simp only [procRound, sizeSub_of_le hlt.le, gt_iff_lt, hs.not_gt, if_false, hs.trans hmem,
    if_true, ← hd, HttpChunked.onPending, HttpChunked.onResponse, toChars_of_ne_nil hne,
    Block.full, hlen]
  cases q.onResponse _ <;> rfl

/-- A pass that does not fill the block at the end of the body: the rest and the end
notification are handed over. -/
theorem procRound_last (mem : Bytes) (hlt : st.chunkedBuffer.length < q.blockSize)
    (hs : size < q.blockSize - st.chunkedBuffer.length) :
    procRound q true ⟨st, mem, size⟩ =
      match q.onResponse (st.calls ++ [⟨toChars st.chunkedBuffer, st.chunkedBuffer.length⟩]) with
      | some e => .done (some (⟨st.chunkedBuffer,
          st.calls ++ [⟨toChars st.chunkedBuffer, st.chunkedBuffer.length⟩]⟩, some e))
      | none => match q.onResponse st.ended.calls with
        | some e => .done (some (⟨st.chunkedBuffer, st.ended.calls⟩, some e))
        | none => .done (some (st.ended, none)) := by
  simp only [procRound, sizeSub_of_le hlt.le, gt_iff_lt, hs, if_true, HttpChunked.onPending,
    HttpChunked.onResponse]
  cases h₁ : q.onResponse (st.calls ++ [⟨toChars st.chunkedBuffer, st.chunkedBuffer.length⟩]) with
  | some e => rfl
  | none =>
    simp only [HttpChunked.ended, List.append_assoc, List.singleton_append]
    cases q.onResponse _ <;> rfl

/-! ## The calls that end -/

/-- `procChunkedBlocks` comes back, and nothing is read behind the buffer. -/
def ProcEnds (q : HttpQuery) (st : HttpChunked) (mem : Bytes) (size : Nat) (isended : Bool) : Prop :=
  q.blockSize = 0 ∧ isended = false ∨
    ∃ r, Returns (procRound q isended) ⟨st, mem, size⟩ (some r)

/-- With a block size every pass takes bytes from the buffer. -/
theorem procRound_returns (hlt : st.chunkedBuffer.length < q.blockSize)
    (hmem : size ≤ mem.length) :
    ∃ r, Returns (procRound q isended) ⟨st, mem, size⟩ (some r) := by
  induction hn : size using Nat.strongRecOn generalizing st mem size with
  | ind n ih =>
    subst hn
    rcases Nat.lt_or_ge size (q.blockSize - st.chunkedBuffer.length) with hs | hs
    · cases isended with
      | true =>
        have hround := procRound_last mem hlt hs
        split at hround
        · exact ⟨_, returns_of_done hround⟩
        · split at hround
          · exact ⟨_, returns_of_done hround⟩
          · exact ⟨_, returns_of_done hround⟩
      | false => exact ⟨_, returns_of_done (procRound_keep hlt hs hmem)⟩
    · have hround := procRound_full isended hlt hs hmem rfl
      split at hround
      · exact ⟨_, returns_of_done hround⟩
      · have hd := List.length_take_of_le (hs.trans hmem)
        simp only [returns_next_iff hround]
        refine ih _ ?_ ?_ ?_ rfl
        · omega
        · exact Nat.zero_lt_of_lt hlt
        · rw [List.length_drop]
          omega

/-- The state of the loop with block size 0 at the end of a body. -/
theorem procRound_zero (mem : Bytes) (size : Nat) (hB : q.blockSize = 0) (hst : st.chunkedBuffer = []) :
    procRound q true ⟨st, mem, size⟩ =
      match q.onResponse (st.calls ++ [⟨none, 0⟩]) with
      | some e => .done (some (⟨[], st.calls ++ [⟨none, 0⟩]⟩, some e))
      | none => .next ⟨⟨[], st.calls ++ [⟨none, 0⟩]⟩, mem, size⟩ := by
  simp only [procRound, hB, hst, List.length_nil, sizeSub_of_le (Nat.le_refl 0), gt_iff_lt,
    Nat.not_lt_zero, if_false, Nat.zero_le, if_true, List.take_zero, List.append_nil,
    HttpChunked.onPending, HttpChunked.onResponse, List.drop_zero, Nat.sub_zero]
  cases h : q.onResponse (st.calls ++ [⟨none, 0⟩]) <;> simp [h]

/-- With block size 0 the loop ends with the first empty block that is refused. -/
theorem returns_zero_iff (hB : q.blockSize = 0) (hst : st.chunkedBuffer = []) :
    (∃ r, Returns (procRound q true) ⟨st, mem, size⟩ (some r)) ↔
      ∃ n, q.onResponse (st.calls ++ List.replicate (n + 1) ⟨none, 0⟩) ≠ none := by
  constructor
  · rintro ⟨r, hr⟩
    refine hr.induct (P := fun s => s.chunked.chunkedBuffer = [] →
      ∃ n, q.onResponse (s.chunked.calls ++ List.replicate (n + 1) ⟨none, 0⟩) ≠ none) ?_ ?_ hst
    · rintro ⟨st, mem, size⟩ hdone hst
      rw [procRound_zero _ _ hB hst] at hdone
      refine ⟨0, fun hnone => ?_⟩
      simp only [Nat.zero_add, List.replicate_one] at hnone
      simp only [hnone] at hdone
      cases hdone
    · rintro ⟨st, mem, size⟩ s' hnext _ ih hst
      rw [procRound_zero _ _ hB hst] at hnext
      split at hnext
      · cases hnext
      · cases hnext
        obtain ⟨n, hn⟩ := ih rfl
        exact ⟨n + 1, by simpa [List.replicate_succ] using hn⟩
  · rintro ⟨n, hn⟩
    induction n generalizing st with
    | zero =>
      obtain ⟨e, he⟩ := Option.ne_none_iff_exists'.mp hn
      have hround := procRound_zero mem size hB hst
      simp only [Nat.zero_add, List.replicate_one] at he
      simp only [he] at hround
      exact ⟨_, returns_of_done hround⟩
    | succ n ih =>
      have hround := procRound_zero mem size hB hst
      split at hround
      · exact ⟨_, returns_of_done hround⟩
      · simp only [returns_next_iff hround]
        exact ih rfl (by simpa [List.replicate_succ] using hn)

/-- The calls that end: all of them but the end of a body with block size 0 whose empty
blocks are all accepted. -/
theorem proc_ends_iff (q : HttpQuery) (st : HttpChunked) (mem : Bytes) (size : Nat)
    (isended : Bool) (hst : st.chunkedBuffer.length < max q.blockSize 1)
    (hmem : size ≤ mem.length) :
    ProcEnds q st mem size isended ↔ 0 < q.blockSize ∨ isended = false ∨
      ∃ n, q.onResponse (st.calls ++ List.replicate (n + 1) ⟨none, 0⟩) ≠ none := by
  rcases Nat.eq_zero_or_pos q.blockSize with hB | hB
  · have hnil : st.chunkedBuffer = [] := by
      rw [← List.length_eq_zero_iff]
      omega
    cases isended with
    | false => simp [ProcEnds, hB]
    | true => simp [ProcEnds, hB, returns_zero_iff hB hnil]
  · have hlt : st.chunkedBuffer.length < q.blockSize := by omega
    exact iff_of_true (.inr (procRound_returns hlt hmem)) (.inl hB)

/-- A block size of 5 and three bytes pending. -/
theorem proc_ends_five : (bytes "abc").length < max 5 1 ∧ (4 : Nat) ≤ (bytes "defg").length ∧
    ProcEnds (.accepting 5) ⟨bytes "abc", []⟩ (bytes "defg") 4 false :=
  ⟨by decide, by decide, (proc_ends_iff (.accepting 5) ⟨bytes "abc", []⟩ (bytes "defg") 4 false
    (by decide) (by decide)).mpr (.inl (by decide))⟩

/-- The end of a body with block size 0, for a receiver that accepts everything. -/
theorem not_proc_ends : ¬ ∀ (q : HttpQuery) (st : HttpChunked) (mem : Bytes) (size : Nat)
    (isended : Bool), st.chunkedBuffer.length < max q.blockSize 1 → size ≤ mem.length →
      ProcEnds q st mem size isended := by
  intro h
  rcases h (.accepting 0) ⟨[], []⟩ [] 0 true (by decide) (by decide) with ⟨-, h⟩ | h
  · cases h
  · obtain ⟨n, hn⟩ := (returns_zero_iff rfl rfl).mp h
    exact hn rfl

/-! ## The pieces of a payload -/

/-- What a call has done with the payload `p`: it has taken it, or `onResponse` has refused a block
of it. -/
def Taken (q : HttpQuery) (p : Bytes) (st : HttpChunked) : Retval → Prop
  | none => Filled q.blockSize p st
  | some e => q.onResponse st.calls = some e ∧ Handed q.blockSize p st

theorem run_procRound_taken {p : Bytes} (fuel : Nat) (h : Filled q.blockSize p st)
    (hmem : size ≤ mem.length) (hfuel : size < fuel) :
    ∃ st' ret, run (procRound q false) fuel ⟨st, mem, size⟩ = some (some (st', ret)) ∧
      Taken q (p ++ mem.take size) st' ret := by
  induction fuel generalizing st p mem size with
  | zero => exact absurd hfuel (Nat.not_lt_zero size)
  | succ fuel ih =>
    have hlt := h.pending_lt
    rcases Nat.lt_or_ge size (q.blockSize - st.chunkedBuffer.length) with hs | hs
    · refine ⟨_, none, by rw [run, procRound_keep hlt hs hmem], h.keep ?_⟩
      rw [List.length_take]
      omega
    · obtain ⟨d, hd⟩ : ∃ d, d = mem.take (q.blockSize - st.chunkedBuffer.length) := ⟨_, rfl⟩
      have hlen : d.length = q.blockSize - st.chunkedBuffer.length := by
        rw [hd, List.length_take_of_le (hs.trans hmem)]
      have hblock : st.chunkedBuffer.length + d.length = q.blockSize := by omega
      have hsplit : p ++ mem.take size = p ++ d ++ (mem.drop d.length).take (size - d.length) := by
        rw [List.append_assoc, hlen, hd, ← List.take_add, Nat.add_sub_cancel' hs]
      have hround := procRound_full false hlt hs hmem hd
      rw [hsplit]
      split at hround
      next e he =>
        refine ⟨_, some e, by rw [run, hround], he, Handed.mono ⟨?_, ?_⟩⟩
        · refine cut_dataBlocks h.calls_full ?_
          rw [Block.full_data, List.length_append, hblock]
        · rw [delivered_append, delivered_singleton, Block.full_data, ← List.append_assoc, h.taken]
      next =>
        rw [run, hround]
        refine ih (h.push hblock) ?_ ?_
        · rw [List.length_drop]
          omega
        · omega

/-- A piece of the payload, for every receiver. -/
theorem procChunkedBlocks_taken {p : Bytes} (h : Filled q.blockSize p st)
    (hmem : size ≤ mem.length) :
    ∃ st' ret, procChunkedBlocks q st (some mem) size false = some (st', ret) ∧
      Taken q (p ++ mem.take size) st' ret := by
  obtain ⟨st', ret, hrun, htaken⟩ :=
    run_procRound_taken (mem.length + 2) h hmem (by omega)
  refine ⟨st', ret, ?_, htaken⟩
  have hB : q.blockSize ≠ 0 := (Nat.zero_lt_of_lt h.pending_lt).ne'
  rw [procChunkedBlocks, if_neg fun h => hB h.1, Option.getD_some, procLoop_eq_run, hrun]
  rfl

/-- The end of the body, for every receiver. -/
theorem procChunkedBlocks_last {p : Bytes} (h : Filled q.blockSize p st) :
    ∃ st' ret, procChunkedBlocks q st none 0 true = some (st', ret) ∧
      Handed q.blockSize p st' ∧ (ret = none → delivered st'.calls = p) ∧
      (ret ≠ none → q.onResponse st'.calls = ret) := by
  have hs : 0 < q.blockSize - st.chunkedBuffer.length := Nat.sub_pos_of_lt h.pending_lt
  have hlen : (⟨toChars st.chunkedBuffer, st.chunkedBuffer.length⟩ : Block).data.length ≤
      q.blockSize := by
    rw [toChars_block_data]
    exact h.pending_lt.le
  have hrest := cut_dataBlocks h.calls_full hlen
  have hdelivered : delivered (st.calls ++ [⟨toChars st.chunkedBuffer, st.chunkedBuffer.length⟩]) =
      p := by
    rw [delivered_append, delivered_singleton, toChars_block_data, h.taken]
  have hended : st.ended.calls =
      st.calls ++ [⟨toChars st.chunkedBuffer, st.chunkedBuffer.length⟩] ++ [⟨none, 0⟩] := by
    simp [HttpChunked.ended]
  have hcut : Cut q.blockSize (delivered st.ended.calls) (dataBlocks st.ended.calls) := by
    rw [hended, delivered_append, dataBlocks_append]
    simpa [dataBlocks, Block.data, delivered] using hrest
  have hround := procRound_last [] h.pending_lt hs
  rw [procChunkedBlocks, if_neg (by simp), procLoop_eq_run, run, Option.getD_none, hround]
  cases h₁ : q.onResponse (st.calls ++ [⟨toChars st.chunkedBuffer, st.chunkedBuffer.length⟩]) with
  | some e =>
    exact ⟨_, some e, rfl, ⟨hrest, hdelivered ▸ List.prefix_rfl⟩, by simp, fun _ => h₁⟩
  | none =>
    cases h₂ : q.onResponse st.ended.calls with
    | some e =>
      exact ⟨_, some e, rfl, ⟨hcut, h.delivered_ended ▸ List.prefix_rfl⟩, by simp, fun _ => h₂⟩
    | none =>
      exact ⟨_, none, rfl, ⟨hcut, h.delivered_ended ▸ List.prefix_rfl⟩,
        fun _ => h.delivered_ended, by simp⟩

/-- The pieces of a payload, one call for each, and the call at the end of the body. -/
def pushAll (q : HttpQuery) (st : HttpChunked) : List Bytes → Option (HttpChunked × Retval)
  | [] => procChunkedBlocks q st none 0 true
  | piece :: pieces =>
    match procChunkedBlocks q st (some piece) piece.length false with
    | some (st, none) => pushAll q st pieces
    | r => r

theorem pushAll_handed {p : Bytes} (h : Filled q.blockSize p st) (pieces : List Bytes) :
    ∃ st' ret, pushAll q st pieces = some (st', ret) ∧
      Handed q.blockSize (p ++ pieces.flatten) st' ∧
      (ret = none → delivered st'.calls = p ++ pieces.flatten) ∧
      (ret ≠ none → q.onResponse st'.calls = ret) := by
  induction pieces generalizing st p with
  | nil => simpa [pushAll] using procChunkedBlocks_last h
  | cons piece pieces ih =>
    obtain ⟨st₁, ret, hcall, htaken⟩ := procChunkedBlocks_taken h (Nat.le_refl piece.length)
    rw [List.take_length] at htaken
    rw [List.flatten_cons, ← List.append_assoc, pushAll, hcall]
    cases ret with
    | none => exact ih htaken
    | some e => exact ⟨st₁, some e, rfl, htaken.2.mono, by simp, fun _ => htaken.1⟩

/-- The blocks of a payload, for every way it comes in pieces: unless the receiver refuses one, all
of it is handed over, and the blocks do not depend on the pieces. -/
theorem pushAll_blocks (q : HttpQuery) (pieces : List Bytes) (hB : 0 < q.blockSize) :
    ∃ st ret, pushAll q ⟨[], []⟩ pieces = some (st, ret) ∧
      Cut q.blockSize (delivered st.calls) (dataBlocks st.calls) ∧
      delivered st.calls <+: pieces.flatten ∧
      (ret ≠ none → q.onResponse st.calls = ret) ∧
      (ret = none → delivered st.calls = pieces.flatten ∧
        ∀ pieces' st', pieces'.flatten = pieces.flatten →
          pushAll q ⟨[], []⟩ pieces' = some (st', none) →
          dataBlocks st'.calls = dataBlocks st.calls) := by
  obtain ⟨st, ret, hrun, hcut, hall, hrefused⟩ := pushAll_handed (filled_init hB) pieces
  rw [List.nil_append] at hcut hall
  refine ⟨st, ret, hrun, hcut.cut, hcut.start, hrefused, fun hret => ⟨hall hret, ?_⟩⟩
  intro pieces' st' hflat hrun'
  obtain ⟨st'', ret', hrun'', hcut', hall', -⟩ := pushAll_handed (filled_init hB) pieces'
  cases hrun'.symm.trans hrun''
  have heq : delivered st'.calls = delivered st.calls := by
    rw [hall' rfl, hall hret, List.nil_append, hflat]
  exact (heq ▸ hcut'.cut).unique hcut.cut

/-- Ten bytes in pieces of 3, 0 and 7, in blocks of 4. -/
theorem pushAll_blocks_ten : ∃ st ret,
    pushAll (.accepting 4) ⟨[], []⟩ [bytes "abc", [], bytes "defghij"] = some (st, ret) ∧
      Cut 4 (delivered st.calls) (dataBlocks st.calls) := by
  obtain ⟨st, ret, hrun, hcut, -⟩ := pushAll_blocks (.accepting 4) _ (by decide)
  exact ⟨st, ret, hrun, hcut⟩

end Dframework
