import Mathlib
import Dframework.Http.ChunkedRead

/-!
# What `readSub` keeps

`parseChunkedRead` moves what it has not consumed to the front of its buffer, and `readSub` moves
the buffer once more by as many bytes as were consumed. The second move finds the right bytes only
where the first one did not touch them, or wrote them over with the same ones.

Results:
1. `move_twice_iff`: the buffers that two moves leave as one move does.
2. `readSub_traces`: every call is the trace of its parses.
3. `readSub_kept_iff`: the calls that keep what was not consumed.
-/

namespace Dframework

open CLib Loop

/-! ## Two moves -/

/-- The bytes come again after `c` places. -/
def Repeats (c : Nat) (r : Bytes) : Prop :=
  r.drop c = r.take (r.length - c)

instance (c : Nat) (r : Bytes) : Decidable (Repeats c r) := inferInstanceAs (Decidable (_ = _))

/-- Moving a buffer twice by `c` bytes does no harm: nothing is moved, or the second move takes the
bytes from where they were at first, or finds the same ones. -/
def Harmless (c : Nat) (d : Bytes) : Prop :=
  c = 0 ∨ d.length ≤ 2 * c ∨ Repeats c (d.drop c)

instance (c : Nat) (d : Bytes) : Decidable (Harmless c d) := inferInstanceAs (Decidable (_ ∨ _))

/-- The buffer `d` behind both moves: the first one leaves what stands in the last places. -/
theorem move_twice_iff {c : Nat} {d : Bytes} (hc : c ≤ d.length) :
    (d.drop c ++ d.drop (d.length - c)).drop c = d.drop c ↔ Harmless c d := by
  rcases Nat.eq_zero_or_pos c with rfl | hpos
  · exact iff_of_true (by simp) (.inl rfl)
  rcases Nat.lt_or_ge (2 * c) d.length with hlt | hle
  · have hlast : (d.drop c).drop (d.length - c - c) = d.drop (d.length - c) := by
      rw [List.drop_drop]
      congr 1
      omega
    have hlen : (d.drop c).length = d.length - c := List.length_drop
    rw [List.drop_append_of_le_length (by omega), ← hlast, ← hlen]
    constructor
    · intro h
      refine .inr (.inr ?_)
      have hfront := congrArg (List.take ((d.drop c).length - c)) h
      rwa [List.take_left' (by rw [List.length_drop])] at hfront
    · rintro (h | h | h)
      · omega
      · omega
      · rw [h, List.take_append_drop]
  · -- what is kept stood behind the places that the first move writes to
    refine iff_of_true ?_ (.inr (.inl hle))
    rw [List.drop_append, List.drop_eq_nil_of_le (by rw [List.length_drop]; omega),
      List.nil_append, List.length_drop, List.drop_drop]
    congr 1
    omega

/-! ## One parse -/

/-- The length of the whole chunks at the front of `rest`, as `parseChunkedRead` takes them. -/
def wholeChunks (stale : Bytes) : Nat → Bytes → Nat
  | 0, _ => 0
  | fuel + 1, rest =>
    if rest = [] then 0
    else
      match chunkHead (rest ++ stale) with
      | .chunk len val =>
        if savelen len val > rest.length then 0
        else savelen len val + wholeChunks stale fuel (rest.drop (savelen len val))
      | _ => 0

theorem parseReadLoop_rest {stale cb rest : Bytes} {fuel room : Nat} {stop : ReadStop}
    (h : parseReadLoop stale fuel cb room rest = some stop) :
    stop.rest = rest.drop (wholeChunks stale fuel rest) ∧
      wholeChunks stale fuel rest ≤ rest.length := by
  induction fuel generalizing cb room rest stop with
  | zero => cases h
  | succ fuel ih =>
    rw [parseReadLoop] at h
    rw [wholeChunks]
    by_cases hnil : rest = []
    · rw [if_pos hnil] at h ⊢
      cases h
      exact ⟨rfl, Nat.zero_le _⟩
    rw [if_neg hnil] at h ⊢
    rcases hhead : chunkHead (rest ++ stale) with _ | _ | _ | ⟨len, val⟩
    all_goals simp only [hhead] at h ⊢
    · cases h
      exact ⟨rfl, Nat.zero_le _⟩
    · cases h
      exact ⟨rfl, Nat.zero_le _⟩
    · cases h
      exact ⟨rfl, Nat.zero_le _⟩
    split at h
    next hlong =>
      rw [if_pos hlong]
      cases h
      exact ⟨rfl, Nat.zero_le _⟩
    next hfits =>
      rw [if_neg hfits]
      split at h
      · cases h
      next out cb' _ =>
        split at h
        · cases h
        next stop' hloop =>
          obtain ⟨hrest, hle⟩ := ih hloop
          cases h
          rw [List.length_drop] at hle
          refine ⟨?_, by omega⟩
          show stop'.rest = _
          rw [hrest, List.drop_drop]

/-- The buffer behind a parse, and what the parse says it has consumed. -/
theorem parseChunkedRead_moved {cb data stale : Bytes} {size : Nat} {p : ReadParsed}
    (h : parseChunkedRead cb size data stale = some p) :
    p.o_isize = wholeChunks stale (data.length + 1) data ∧ p.o_isize ≤ data.length ∧
      p.ibuf.take data.length =
        data.drop p.o_isize ++ data.drop (data.length - p.o_isize) := by
  rw [parseChunkedRead] at h
  split at h
  · cases h
  next stop hloop =>
    obtain ⟨hrest, hle⟩ := parseReadLoop_rest hloop
    cases h
    have hlen : stop.rest.length = data.length - wholeChunks stale (data.length + 1) data := by
      rw [hrest, List.length_drop]
    have hcount : data.length - stop.rest.length = wholeChunks stale (data.length + 1) data := by
      omega
    refine ⟨hcount, Nat.sub_le _ _, ?_⟩
    show (stop.rest ++ (data ++ stale).drop stop.rest.length).take data.length = _
    have hbehind : ((data ++ stale).drop stop.rest.length).take (data.length - stop.rest.length) =
        data.drop stop.rest.length := by
      rw [List.drop_append_of_le_length (by omega)]
      exact List.take_left' List.length_drop
    rw [List.take_append, List.take_of_length_le (by omega), hbehind, hcount, hrest, ← hrest, hlen,
      hrest]

theorem parseChunkedRead_length {cb data stale : Bytes} {size : Nat} {p : ReadParsed}
    (h : parseChunkedRead cb size data stale = some p) :
    p.ibuf.length = data.length + stale.length := by
  rw [parseChunkedRead] at h
  split at h
  · cases h
  next stop hloop =>
    have hrest := (parseReadLoop_rest hloop).1
    cases h
    have hle : stop.rest.length ≤ data.length := by
      rw [hrest, List.length_drop]
      exact Nat.sub_le _ _
    show (stop.rest ++ (data ++ stale).drop stop.rest.length).length = _
    rw [List.length_append, List.length_drop, List.length_append]
    omega

/-- A parse, with the bytes that came in before it, those that it is offered, and those that lie
behind them. -/
structure ReadPass where
  received : Bytes
  data : Bytes
  stale : Bytes
  parsed : ReadParsed

namespace ReadPass

/-- The bytes that are kept behind the parse. -/
def kept (pass : ReadPass) : Bytes :=
  (pass.parsed.ibuf.drop pass.parsed.o_isize).take (pass.data.length - pass.parsed.o_isize)

/-- The bytes kept are those that the parse did not consume. -/
def KeptOnce (pass : ReadPass) : Prop :=
  pass.parsed.o_isize ≤ pass.data.length ∧ pass.kept = pass.data.drop pass.parsed.o_isize

/-- The second move does no harm, with as many bytes as the whole chunks at the front have. -/
def Harmless (pass : ReadPass) : Prop :=
  Dframework.Harmless (wholeChunks pass.stale (pass.data.length + 1) pass.data) pass.data

instance (pass : ReadPass) : Decidable pass.Harmless :=
  inferInstanceAs (Decidable (Dframework.Harmless _ _))

theorem keptOnce_iff {pass : ReadPass} {cb : Bytes} {size : Nat}
    (h : parseChunkedRead cb size pass.data pass.stale = some pass.parsed) :
    pass.KeptOnce ↔ pass.Harmless := by
  obtain ⟨hcount, hle, hmoved⟩ := parseChunkedRead_moved h
  have hkept : pass.kept = (pass.data.drop pass.parsed.o_isize ++
      pass.data.drop (pass.data.length - pass.parsed.o_isize)).drop pass.parsed.o_isize := by
    rw [kept, ← hmoved, List.drop_take]
  rw [KeptOnce, Harmless, ← hcount, hkept, move_twice_iff hle]
  exact and_iff_right hle

end ReadPass

/-! ## The parses of a call -/

/-- The parse of a round of `readSub`, when the round comes to one. -/
def ReadSubState.parse (s : Nat) (n : ReadSubState) : Option ReadPass :=
  if n.data.length ≥ max MAX_SIZE s then none
  else
    match waitRecv n.round.sock with
    | (some _, _) => none
    | (none, sock) =>
      let (received, ret, _) := recvRaw (max MAX_SIZE s - n.data.length) sock
      if ret.isSome ∧ received = [] then none
      else
        let data := n.data ++ received
        let stale := n.stale.drop received.length
        (parseChunkedRead n.round.chunkedBuffer (s - n.out.length) data stale).map
          fun parsed => { received, data, stale, parsed }

/-- The state behind a parse. -/
def ReadSubState.behind (n : ReadSubState) (pass : ReadPass) (sock : Socket) : ReadSubState where
  round := { n.round with chunkedBuffer := pass.parsed.chunkedBuffer, sock }
  data := pass.kept
  stale := pass.parsed.ibuf.drop (pass.data.length - pass.parsed.o_isize)
  out := n.out ++ pass.parsed.out

/-- The parse of the bytes that an earlier call kept. -/
def heldParse (s : Nat) (st : ReadState) : Option ReadPass :=
  if st.readerBuffer = [] then none
  else (parseChunkedRead st.chunkedBuffer s st.readerBuffer []).map
    fun parsed => { received := [], data := st.readerBuffer, stale := [], parsed }

/-- The loop of `readSub` ends with `r`, and these are its parses. -/
inductive LoopTrace (s : Nat) : ReadSubState → List ReadPass → ReadResult → Prop
  | idle {n : ReadSubState} {r : ReadResult} (hparse : n.parse s = none)
      (hround : readSubRound s n = .done r) : LoopTrace s n [] r
  | last {n : ReadSubState} {pass : ReadPass} {r : ReadResult} (hparse : n.parse s = some pass)
      (hround : readSubRound s n = .done r) : LoopTrace s n [pass] r
  | next {n n' : ReadSubState} {pass : ReadPass} {passes : List ReadPass} {r : ReadResult}
      (hparse : n.parse s = some pass) (hround : readSubRound s n = .next n')
      (h : LoopTrace s n' passes r) : LoopTrace s n (pass :: passes) r

/-- A call of `readSub` ends with `r`, and these are its parses. -/
inductive CallTrace (s : Nat) (stack : Bytes) (st : ReadState) : List ReadPass → ReadResult → Prop
  | enter {r : ReadResult} (henter : readSubEnter s stack st = .done r) :
      CallTrace s stack st (heldParse s st).toList r
  | loop {n : ReadSubState} {passes : List ReadPass} {r : ReadResult}
      (henter : readSubEnter s stack st = .next n) (h : LoopTrace s n passes r) :
      CallTrace s stack st ((heldParse s st).toList ++ passes) r

section

variable {s : Nat} {stack : Bytes} {st : ReadState} {n : ReadSubState} {pass : ReadPass}
  {passes : List ReadPass} {r : ReadResult}

/-- A round that comes to no parse ends the call, and keeps what there is. -/
theorem readSubRound_idle (h : n.parse s = none) :
    readSubRound s n = .done none ∨ ∃ sock ret,
      readSubRound s n = .done ({ n with round := { n.round with sock } }.leave ret) := by
  rw [ReadSubState.parse] at h
  rw [readSubRound]
  simp only
  split at h
  next hlong =>
    rw [if_pos hlong]
    exact .inr ⟨n.round.sock, _, rfl⟩
  next hroom =>
    rw [if_neg hroom]
    rcases hwait : waitRecv n.round.sock with ⟨_ | e, sock⟩
    · simp only [hwait] at h ⊢
      split at h
      next hempty =>
        rw [if_pos hempty]
        exact .inr ⟨_, _, rfl⟩
      next hgot =>
        rw [if_neg hgot, Option.map_eq_none_iff.mp h]
        exact .inl rfl
    · exact .inr ⟨sock, some e, rfl⟩

theorem readSubRound_parse (h : n.parse s = some pass) :
    ∃ sock, readSubRound s n = .next (n.behind pass sock) ∨
      ∃ ret, readSubRound s n = .done ((n.behind pass sock).leave ret) := by
  rw [ReadSubState.parse] at h
  rw [readSubRound]
  simp only
  split at h
  · cases h
  next hroom =>
    rw [if_neg hroom]
    rcases hwait : waitRecv n.round.sock with ⟨_ | e, sock⟩
    · simp only [hwait] at h ⊢
      split at h
      · cases h
      next hgot =>
        rw [if_neg hgot]
        obtain ⟨p, hp, rfl⟩ := Option.map_eq_some_iff.mp h
        rw [hp]
        simp only
        refine ⟨(recvRaw (max MAX_SIZE s - n.data.length) sock).2.2, ?_⟩
        split
        · exact .inr ⟨_, rfl⟩
        split
        · exact .inr ⟨_, rfl⟩
        split
        · exact .inr ⟨_, rfl⟩
        · exact .inl rfl
    · simp only [hwait] at h
      cases h

theorem parse_data (h : n.parse s = some pass) :
    pass.data = n.data ++ pass.received ∧ n.data.length < max MAX_SIZE s ∧
      ∃ cb size, parseChunkedRead cb size pass.data pass.stale = some pass.parsed := by
  rw [ReadSubState.parse] at h
  split at h
  · cases h
  next hroom =>
    split at h
    · cases h
    · simp only at h
      split at h
      · cases h
      · obtain ⟨p, hp, rfl⟩ := Option.map_eq_some_iff.mp h
        exact ⟨rfl, Nat.lt_of_not_le hroom, _, _, hp⟩

theorem heldParse_data (h : heldParse s st = some pass) :
    pass.received = [] ∧ pass.data = st.readerBuffer ∧ pass.stale = [] ∧
      parseChunkedRead st.chunkedBuffer s pass.data pass.stale = some pass.parsed := by
  rw [heldParse] at h
  split at h
  · cases h
  · obtain ⟨p, hp, rfl⟩ := Option.map_eq_some_iff.mp h
    exact ⟨rfl, rfl, rfl, hp⟩

/-- A loop that ends has a trace. -/
theorem loopTrace_exists (h : Returns (readSubRound s) n r) : ∃ passes, LoopTrace s n passes r := by
  refine h.induct (P := fun n => ∃ passes, LoopTrace s n passes r) ?_ ?_
  · intro n hround
    cases hparse : n.parse s with
    | none => exact ⟨[], .idle hparse hround⟩
    | some pass => exact ⟨[pass], .last hparse hround⟩
  · rintro n n' hround - ⟨passes, htrace⟩
    cases hparse : n.parse s with
    | none =>
      rcases readSubRound_idle hparse with hdone | ⟨sock, ret, hdone⟩
      · rw [hdone] at hround
        cases hround
      · rw [hdone] at hround
        cases hround
    | some pass => exact ⟨pass :: passes, .next hparse hround htrace⟩

theorem LoopTrace.returns (h : LoopTrace s n passes r) : Returns (readSubRound s) n r := by
  induction h with
  | idle _ hround => exact returns_of_done hround
  | last _ hround => exact returns_of_done hround
  | next _ hround _ ih => exact (returns_next_iff hround).mpr ih

/-- Every call has its trace. -/
theorem readSub_traces : ReadSub s stack st r ↔ ∃ passes, CallTrace s stack st passes r := by
  rw [ReadSub]
  constructor
  · intro h
    split at h
    next r' henter =>
      cases h
      exact ⟨_, .enter henter⟩
    next n henter =>
      obtain ⟨passes, htrace⟩ := loopTrace_exists h
      exact ⟨_, .loop henter htrace⟩
  · rintro ⟨passes, h⟩
    cases h with
    | enter henter => rw [henter]
    | loop henter htrace =>
      rw [henter]
      exact htrace.returns

end

/-! ## What a call keeps -/

/-- The bytes that come in during some parses. -/
def receivedBytes (passes : List ReadPass) : Bytes :=
  passes.flatMap (·.received)

/-- How many bytes some parses consume. -/
def consumedCount (passes : List ReadPass) : Nat :=
  (passes.map (·.parsed.o_isize)).sum

theorem receivedBytes_cons (pass : ReadPass) (passes : List ReadPass) :
    receivedBytes (pass :: passes) = pass.received ++ receivedBytes passes :=
  List.flatMap_cons

theorem consumedCount_cons (pass : ReadPass) (passes : List ReadPass) :
    consumedCount (pass :: passes) = pass.parsed.o_isize + consumedCount passes := by
  rw [consumedCount, List.map_cons, List.sum_cons]
  rfl

/-- Each parse of the call has its bytes removed once, and what is kept for the next call is what is
left of the bytes held before and those received. -/
structure KeepsRest (st : ReadState) (passes : List ReadPass) (r : ReadResult) : Prop where
  once : ∀ pass ∈ passes, pass.KeptOnce
  kept : ∀ out st' ret, r = some (out, st', ret) →
    consumedCount passes ≤ (st.readerBuffer ++ receivedBytes passes).length ∧
      st'.readerBuffer = (st.readerBuffer ++ receivedBytes passes).drop (consumedCount passes)

section

variable {s : Nat} {stack : Bytes} {st : ReadState} {n : ReadSubState} {pass : ReadPass}
  {passes : List ReadPass} {r : ReadResult}

theorem leave_readerBuffer (h : n.round.readerBuffer = [] ∨ n.data ≠ []) {ret ret' : Retval}
    {out : Bytes} {st' : ReadState} (hleave : n.leave ret = some (out, st', ret')) :
    st'.readerBuffer = n.data := by
  rw [ReadSubState.leave, Option.some.injEq] at hleave
  cases hleave
  show (if n.data ≠ [] then n.data else n.round.readerBuffer) = n.data
  split_ifs with hne
  · rfl
  · exact (h.resolve_right hne).trans (not_not.mp hne).symm

/-- What the loop keeps of the bytes in its array and those received. The reader buffer is empty, or
it stands in the array and fills it. -/
theorem LoopTrace.kept (h : LoopTrace s n passes r)
    (hn : n.round.readerBuffer = [] ∨ max MAX_SIZE s ≤ n.data.length)
    (honce : ∀ pass ∈ passes, pass.KeptOnce) {out : Bytes} {st' : ReadState} {ret : Retval}
    (hr : r = some (out, st', ret)) :
    consumedCount passes ≤ (n.data ++ receivedBytes passes).length ∧
      st'.readerBuffer = (n.data ++ receivedBytes passes).drop (consumedCount passes) := by
  induction h with
  | @idle n r hparse hround =>
    refine ⟨Nat.zero_le _, ?_⟩
    have hfull : n.round.readerBuffer = [] ∨ n.data ≠ [] := hn.imp_right fun hle hnil => by
      rw [hnil] at hle
      exact absurd hle (by simp [MAX_SIZE])
    rw [receivedBytes, consumedCount, List.flatMap_nil, List.append_nil]
    rcases readSubRound_idle hparse with hdone | ⟨sock, ret', hdone⟩
    · rw [hdone] at hround
      cases hround
      cases hr
    · rw [hdone] at hround
      cases hround
      exact leave_readerBuffer (n := { n with round := { n.round with sock } }) hfull hr
  | @last n pass r hparse hround =>
    obtain ⟨hdata, hlt, -⟩ := parse_data hparse
    have hempty := hn.resolve_right (Nat.not_le.mpr hlt)
    obtain ⟨hle, hkept⟩ := honce pass (List.mem_singleton_self pass)
    obtain ⟨sock, hnext | ⟨ret', hdone⟩⟩ := readSubRound_parse hparse
    · rw [hnext] at hround
      cases hround
    · rw [hdone] at hround
      cases hround
      have hbuf : st'.readerBuffer = pass.kept :=
        leave_readerBuffer (n := n.behind pass sock) (.inl hempty) hr
      rw [consumedCount_cons, receivedBytes_cons, ← List.append_assoc, ← hdata]
      exact ⟨by simpa [receivedBytes, consumedCount] using hle,
        by simpa [receivedBytes, consumedCount] using hbuf.trans hkept⟩
  | @next n n' pass passes r hparse hround htrace ih =>
    obtain ⟨hdata, hlt, -⟩ := parse_data hparse
    have hempty := hn.resolve_right (Nat.not_le.mpr hlt)
    obtain ⟨hle, hkept⟩ := honce pass List.mem_cons_self
    obtain ⟨sock, hnext | ⟨ret', hdone⟩⟩ := readSubRound_parse hparse
    · rw [hnext] at hround
      cases hround
      obtain ⟨hcount, hbuf⟩ := ih (.inl hempty) (fun p hp => honce p (List.mem_cons_of_mem _ hp)) hr
      have hrest : (n.behind pass sock).data ++ receivedBytes passes =
          (n.data ++ receivedBytes (pass :: passes)).drop pass.parsed.o_isize := by
        rw [receivedBytes_cons, ← List.append_assoc, ← hdata, List.drop_append_of_le_length hle]
        exact congrArg (· ++ _) hkept
      have hlong : pass.parsed.o_isize ≤ (n.data ++ receivedBytes (pass :: passes)).length := by
        rw [receivedBytes_cons, ← List.append_assoc, ← hdata, List.length_append]
        exact Nat.le_add_right_of_le hle
      rw [hrest] at hcount hbuf
      rw [List.length_drop] at hcount
      rw [List.drop_drop] at hbuf
      rw [consumedCount_cons]
      exact ⟨by omega, hbuf⟩
    · rw [hdone] at hround
      cases hround

variable (stack) in
/-- The parse of what was held: the call ends there, or its loop begins with an array that is empty
or full. -/
theorem readSubEnter_held (h : heldParse s st = some pass) :
    (∃ out st' ret, readSubEnter s stack st = .done (some (out, st', ret)) ∧
      st'.readerBuffer = pass.kept) ∨
    readSubEnter s stack st = .done none ∨
    ∃ n, readSubEnter s stack st = .next n ∧ n.data = pass.kept ∧
      max MAX_SIZE s ≤ n.data.length := by
  obtain ⟨-, hdata, hstale, hparse⟩ := heldParse_data h
  have hkept : pass.parsed.ibuf.drop pass.parsed.o_isize = pass.kept := by
    rw [ReadPass.kept, List.take_of_length_le]
    rw [List.length_drop, parseChunkedRead_length hparse, hstale]
    rfl
  have hne : st.readerBuffer ≠ [] := by
    intro hnil
    rw [heldParse, if_pos hnil] at h
    cases h
  rw [hdata, hstale] at hparse
  rw [readSubEnter]
  simp only
  rw [if_pos hne, hparse]
  simp only
  split
  · exact .inl ⟨_, _, _, rfl, hkept⟩
  split
  · exact .inl ⟨_, _, _, rfl, hkept⟩
  split
  · exact .inl ⟨_, _, _, rfl, hkept⟩
  next hfull =>
    split
    · exact .inr (.inl rfl)
    · exact .inr (.inr ⟨_, rfl, hkept, Nat.le_of_not_lt hfull⟩)

variable (stack) in
/-- Without a parse of what was held, the loop begins with an empty array. -/
theorem readSubEnter_none (h : heldParse s st = none) :
    readSubEnter s stack st = .done none ∨
    st.readerBuffer = [] ∧ readSubEnter s stack st = .next ⟨st, [], stack, []⟩ := by
  rw [heldParse] at h
  rw [readSubEnter]
  simp only
  split at h
  next hnil =>
    rw [if_neg (not_not_intro hnil)]
    exact .inr ⟨hnil, rfl⟩
  next hne =>
    rw [if_pos hne, Option.map_eq_none_iff.mp h]
    exact .inl rfl

/-- Where each parse has its bytes removed once, so has the call. -/
theorem CallTrace.kept (h : CallTrace s stack st passes r)
    (honce : ∀ pass ∈ passes, pass.KeptOnce) {out : Bytes} {st' : ReadState} {ret : Retval}
    (hr : r = some (out, st', ret)) :
    consumedCount passes ≤ (st.readerBuffer ++ receivedBytes passes).length ∧
      st'.readerBuffer = (st.readerBuffer ++ receivedBytes passes).drop (consumedCount passes) := by
  cases h with
  | @enter r henter =>
    cases hheld : heldParse s st with
    | none =>
      rcases readSubEnter_none stack hheld with hdone | ⟨-, hnext⟩
      · rw [hdone] at henter
        cases henter
        cases hr
      · rw [hnext] at henter
        cases henter
    | some pass =>
      rw [hheld] at honce
      obtain ⟨hle, hkept⟩ := honce pass (List.mem_singleton_self pass)
      obtain ⟨hnone, hdata, -⟩ := heldParse_data hheld
      have hpasses : receivedBytes [pass] = [] ∧ consumedCount [pass] = pass.parsed.o_isize := by
        rw [receivedBytes_cons, consumedCount_cons, hnone]
        exact ⟨rfl, Nat.add_zero _⟩
      rw [Option.toList_some, hpasses.1, hpasses.2, List.append_nil, ← hdata]
      refine ⟨hle, ?_⟩
      obtain ⟨out', st'', ret', hdone, hbuf⟩ | hdone | ⟨n, hnext, -⟩ :=
        readSubEnter_held stack hheld
      · rw [hdone] at henter
        cases henter
        cases hr
        exact hbuf.trans hkept
      · rw [hdone] at henter
        cases henter
        cases hr
      · rw [hnext] at henter
        cases henter
  | @loop n passes r henter htrace =>
    cases hheld : heldParse s st with
    | none =>
      rw [hheld] at honce
      rw [Option.toList_none, List.nil_append]
      rcases readSubEnter_none stack hheld with hdone | ⟨hnil, hnext⟩
      · rw [hdone] at henter
        cases henter
      · rw [hnext] at henter
        cases henter
        rw [hnil]
        exact htrace.kept (.inl hnil) honce hr
    | some pass =>
      rw [hheld] at honce
      obtain ⟨hle, hkept⟩ := honce pass List.mem_cons_self
      obtain ⟨hnone, hdata, -⟩ := heldParse_data hheld
      obtain ⟨out', st'', ret', hdone, -⟩ | hdone | ⟨n', hnext, hn, hfull⟩ :=
        readSubEnter_held stack hheld
      · rw [hdone] at henter
        cases henter
      · rw [hdone] at henter
        cases henter
      · rw [hnext] at henter
        cases henter
        obtain ⟨hcount, hbuf⟩ :=
          htrace.kept (.inr hfull) (fun p hp => honce p (List.mem_cons_of_mem _ hp)) hr
        rw [hn, hkept] at hcount hbuf
        rw [← List.drop_append_of_le_length hle] at hcount hbuf
        rw [List.length_drop, List.length_append] at hcount
        rw [List.drop_drop] at hbuf
        rw [Option.toList_some, List.singleton_append, receivedBytes_cons, consumedCount_cons,
          hnone, List.nil_append, ← hdata]
        rw [List.length_append]
        exact ⟨by omega, hbuf⟩

/-- The parses of a trace are parses of the code. -/
theorem LoopTrace.parsed (h : LoopTrace s n passes r) : ∀ pass ∈ passes, ∃ cb size,
    parseChunkedRead cb size pass.data pass.stale = some pass.parsed := by
  induction h with
  | idle => exact List.forall_mem_nil _
  | last hparse _ => exact List.forall_mem_singleton.mpr (parse_data hparse).2.2
  | next hparse _ _ ih => exact List.forall_mem_cons.mpr ⟨(parse_data hparse).2.2, ih⟩

theorem CallTrace.parsed (h : CallTrace s stack st passes r) : ∀ pass ∈ passes, ∃ cb size,
    parseChunkedRead cb size pass.data pass.stale = some pass.parsed := by
  have hheld : ∀ pass ∈ (heldParse s st).toList, ∃ cb size,
      parseChunkedRead cb size pass.data pass.stale = some pass.parsed := by
    intro pass hpass
    exact ⟨_, _, (heldParse_data (Option.mem_toList.mp hpass)).2.2.2⟩
  cases h with
  | enter => exact hheld
  | loop _ htrace => exact List.forall_mem_append.mpr ⟨hheld, htrace.parsed⟩

/-- A call keeps what was not consumed just where no second move does harm: the chunks that a parse
takes off the front are none, or half of the bytes at least, or what is behind them repeats with
their length. -/
theorem readSub_kept_iff (h : CallTrace s stack st passes r) :
    KeepsRest st passes r ↔ ∀ pass ∈ passes, pass.Harmless := by
  have honce : (∀ pass ∈ passes, pass.KeptOnce) ↔ ∀ pass ∈ passes, pass.Harmless := by
    refine forall₂_congr fun pass hpass => ?_
    obtain ⟨cb, size, hparse⟩ := h.parsed pass hpass
    exact ReadPass.keptOnce_iff hparse
  rw [← honce]
  exact ⟨KeepsRest.once, fun hall => ⟨hall, fun _ _ _ => h.kept hall⟩⟩

end

/-- A whole chunk and the front of a second one, and what a call that asks for one byte finds and
leaves. -/
def secondShort : ReadState := ⟨bytes "1\r\na\r\n5\r", [], []⟩

def secondLong : ReadState := ⟨bytes "1\r\na\r\n5\r\nhell", [], []⟩

theorem readSub_kept_iff_secondShort :
    KeepsRest secondShort (heldParse 1 secondShort).toList
      (some (bytes "a", { secondShort with readerBuffer := bytes "5\r" }, none)) :=
  (@readSub_kept_iff 1 [] _ _ _ (.enter rfl)).mpr (by decide)

/-- The seven bytes of the second chunk are kept as their last one and six that stood behind. -/
theorem not_readSub_kept :
    CallTrace 1 [] secondLong (heldParse 1 secondLong).toList
        (some (bytes "a", { secondLong with readerBuffer := bytes "l\r\nhell" }, none)) ∧
      consumedCount (heldParse 1 secondLong).toList = 6 ∧
      ¬ KeepsRest secondLong (heldParse 1 secondLong).toList
        (some (bytes "a", { secondLong with readerBuffer := bytes "l\r\nhell" }, none)) := by
  refine ⟨.enter rfl, by decide, fun h => ?_⟩
  exact absurd (h.kept _ _ _ rfl).2 (by decide)

end Dframework
