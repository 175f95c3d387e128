import Mathlib
import Dframework.Http.ChunkedRead

/-!
# Runs of `read` on a well-formed body

`Unread` is what a call of `read` finds, told by the chunks of the body: how much
of the remaining body is in `m_sReaderBuffer`, the decoded bytes that wait in
`m_sChunkedBuffer`, and the segments to come. `Unread.call` says when a call goes
well and what it then returns and leaves.

Results:
1. `parseChunkedRead_received`: a parse hands over the decoded bytes in order.
2. `call_follows`: a call that goes well is a call of `read` without an error.
3. `reads_payload`: when every call goes well, the calls return the payload.
4. `reads_short`: a call whose buffer is larger than the chunk that is there.
-/

namespace Dframework

open CLib Loop

/-! ## The abstract calls -/

/-- What a parse that has taken the chunks `done` writes into `room` bytes of the
caller's buffer, and what it keeps decoded. Only a chunk makes it write anything. -/
def flush (done : List Chunk) (chunked : Bytes) (room : Nat) : Bytes × Bytes :=
  if done = [] then ([], chunked)
  else ((chunked ++ payloads done).take room, (chunked ++ payloads done).drop room)

/-- The bytes a parse keeps are moved twice. The second move, by what was parsed,
finds them where it looks when nothing was parsed or at least as much as is kept. -/
def MoveOk (cs : List Chunk) (n : Nat) : Prop :=
  n = (settle cs n).2.2 ∨ (settle cs n).2.2 ≤ n - (settle cs n).2.2

instance (cs : List Chunk) (n : Nat) : Decidable (MoveOk cs n) :=
  inferInstanceAs (Decidable (_ ∨ _))

/-- What a call of `read` finds: the chunks still to be parsed, the bytes of them
in the reader buffer, the decoded bytes, the segments to come. -/
structure Unread where
  todo : List Chunk
  held : Nat
  chunked : Bytes
  segs : List Bytes

def Unread.payload (u : Unread) : Bytes :=
  u.chunked ++ payloads u.todo

/-- What a parse of the first `n` bytes of `todo` leaves. -/
def Unread.parsed (u : Unread) (n room : Nat) (segs : List Bytes) : Unread :=
  { todo := (settle u.todo n).2.1
    held := (settle u.todo n).2.2
    chunked := (flush (settle u.todo n).1 u.chunked room).2
    segs }

/-- The bytes a parse of the first `n` bytes of `todo` writes. -/
def Unread.out (u : Unread) (n room : Nat) : Bytes :=
  (flush (settle u.todo n).1 u.chunked room).1

/-- A call that finds bytes in the reader buffer. It never looks at the socket:
either the end of the body is there and nothing decoded stays behind, or the
caller's buffer is filled. -/
def Unread.callReader (zeros : Nat) (u : Unread) (s : Nat) : Option (Bytes × Unread) :=
  if ¬ MoveOk u.todo u.held then none
  else
    match parseVerdict u.todo zeros u.held [] with
    | .bad => none
    | .last =>
      if (settle u.todo u.held).2.1.isEmpty ∧ (u.parsed u.held s u.segs).chunked = [] then
        some (u.out u.held s, u.parsed u.held s u.segs)
      else none
    | .wait =>
      if (u.out u.held s).length = s then some (u.out u.held s, u.parsed u.held s u.segs)
      else none

/-- A call that finds the reader buffer empty, from a pass with `u.held` bytes in
the array, `stale` behind them, and `room` bytes left in the caller's buffer.
Every `recv` completes the body or fills the array; then the call goes on as long
as the caller's buffer is not full. -/
def Unread.callSocket (zeros max_s : Nat) : Nat → Unread → Bytes → Nat → Option (Bytes × Unread)
  | 0, _, _, _ => none
  | fuel + 1, u, stale, room =>
    match u.segs with
    | [] => none
    | t :: ts =>
      let r := t.take (max_s - u.held)
      let n := u.held + r.length
      let u' := u.parsed n room (behind (max_s - u.held) t ts)
      if ¬ MoveOk u.todo n then none
      else
        match parseVerdict u.todo zeros n (stale.drop r.length) with
        | .bad => none
        | .last =>
          if u'.todo.isEmpty ∧ u'.chunked = [] then some (u.out n room, u') else none
        | .wait =>
          if t.length < max_s - u.held then none
          else if (u.out n room).length = room then some (u.out n room, u')
          else if u'.held < max_s then
            (u'.callSocket zeros max_s fuel
                ((received u.todo zeros n ++ stale.drop r.length).drop u'.held)
                (room - (u.out n room).length)).map
              fun (out, u'') => (u.out n room ++ out, u'')
          else none

/-- A call with a buffer of `s` bytes goes well: the bytes it returns, and what
the next call finds. -/
def Unread.call (zeros : Nat) (u : Unread) (s : Nat) (stack : Bytes) : Option (Bytes × Unread) :=
  if u.held ≠ 0 then u.callReader zeros s
  else u.callSocket zeros (max MAX_SIZE s) (u.segs.flatten.length + 1) stack s

/-- The calls up to the `i`-th have gone well and have returned bytes, and the
`i`-th finds `u`. -/
inductive CallReach (zeros : Nat) (sizes : Nat → Nat) (garbage : Nat → Bytes) (u₀ : Unread) :
    Nat → Unread → Prop
  | init : CallReach zeros sizes garbage u₀ 0 u₀
  | step {i : Nat} {u u' : Unread} {out : Bytes} : CallReach zeros sizes garbage u₀ i u →
      u.call zeros (sizes i) (garbage i) = some (out, u') → out ≠ [] →
      CallReach zeros sizes garbage u₀ (i + 1) u'

/-- Before the first call. -/
def unreadInit (b : Body) (reader : Bytes) (segs : List Bytes) : Unread :=
  { todo := b.chunks, held := reader.length, chunked := [], segs }

/-! ## One parse -/

namespace ReadRunLemmas

variable {zeros : Nat}

/-- Taking one chunk and then the others is taking them all. -/
theorem flush_cons (c : Chunk) (done : List Chunk) (chunked : Bytes) (room : Nat) :
    let d := chunked ++ c.payload
    flush (c :: done) chunked room =
      (d.take room ++ (flush done (d.drop room) (room - (d.take room).length)).1,
        (flush done (d.drop room) (room - (d.take room).length)).2) := by
  intro d
  have hd : chunked ++ payloads (c :: done) = d ++ payloads done := by
    rw [payloads_cons, ← List.append_assoc]
  rw [flush, if_neg (List.cons_ne_nil _ _), hd]
  by_cases hnil : done = []
  · simp [hnil, flush]
  · rw [flush, if_neg hnil]
    rcases Nat.le_total d.length room with h | h
    · simp [List.take_append, List.drop_append, List.take_of_length_le h,
        List.drop_of_length_le h]
    · have hroom : room - (d.take room).length = 0 := by
        rw [List.length_take, Nat.min_eq_left h, Nat.sub_self]
      rw [hroom, List.take_append_of_le_length h, List.drop_append_of_le_length h]
      simp

theorem procChunkedRead_payload (c : Chunk) (chunked t : Bytes) (room : Nat) :
    procChunkedRead chunked room (c.payload ++ t) c.payload.length =
      some ((chunked ++ c.payload).take room, (chunked ++ c.payload).drop room) := by
  have hpos := c.payload_pos
  rw [procChunkedRead, if_neg (by omega), append_of_le (by simp)]
  simp only [List.take_left]
  split
  next h => rw [List.take_of_length_le h, List.drop_of_length_le h]
  next => rfl

/-- The loop of the parser at a complete chunk. -/
theorem parseReadLoop_chunk {c : Chunk} {fuel room : Nat} {cb t stale : Bytes}
    (hline : c.line.length ≤ 4) :
    let d := cb ++ c.payload
    parseReadLoop stale (fuel + 1) cb room (c.enc ++ t) =
      (parseReadLoop stale fuel (d.drop room) (room - (d.take room).length) t).map
        fun stop => { stop with out := d.take room ++ stop.out } := by
  intro d
  rw [parseReadLoop, if_neg (c.enc_append_ne_nil t), List.append_assoc, chunkHead_enc,
    if_pos hline]
  simp only [savelen_enc hline, Chunk.enc_drop, procChunkedRead_payload]
  rw [if_neg (by simp), List.drop_left]
  cases parseReadLoop stale fuel (d.drop room) (room - (d.take room).length) t <;> rfl

/-- The loop at an incomplete chunk. -/
theorem parseReadLoop_settled {cs : List Chunk} {n fuel room : Nat} {cb stale : Bytes}
    (hz : 0 < zeros) (hs : settle cs n = ([], cs, n)) :
    parseReadLoop stale (fuel + 1) cb room (received cs zeros n) =
      match verdict (received cs zeros n) stale with
      | .wait => some ⟨[], cb, received cs zeros n, none⟩
      | .bad => some ⟨[], cb, received cs zeros n, retval .eHttpChunked⟩
      | .last => some ⟨[], cb, received cs zeros n, retval .tChunkedEnd⟩ := by
  rw [parseReadLoop]
  by_cases hne : received cs zeros n = []
  · simp [hne, verdict]
  · rw [if_neg hne, verdict, if_neg hne]
    cases hc : chunkHead (received cs zeros n ++ stale) with
    | chunk len val => simp only [if_pos (lt_savelen_of_settled hz hs hne hc)]
    | _ => simp only

/-- What a parse answers by its verdict. -/
def verdictRet : Verdict → Retval
  | .wait => none
  | .bad => retval .eHttpChunked
  | .last => retval .tChunkedEnd

/-- The loop on the first `n` bytes of a body none of whose complete chunks has a
long size line. -/
theorem parseReadLoop_received {cs : List Chunk} {n fuel room : Nat} {cb stale : Bytes}
    (hz : 0 < zeros) (hfuel : n < fuel)
    (hlines : (settle cs n).1.all (·.line.length ≤ 4) = true) :
    parseReadLoop stale fuel cb room (received cs zeros n) =
      some ⟨(flush (settle cs n).1 cb room).1, (flush (settle cs n).1 cb room).2,
        received (settle cs n).2.1 zeros (settle cs n).2.2,
        verdictRet (verdict (received (settle cs n).2.1 zeros (settle cs n).2.2) stale)⟩ := by
  have hstop : ∀ {cs : List Chunk} {n fuel room : Nat} {cb : Bytes}, n < fuel →
      settle cs n = ([], cs, n) →
      parseReadLoop stale fuel cb room (received cs zeros n) =
        some ⟨[], cb, received cs zeros n, verdictRet (verdict (received cs zeros n) stale)⟩ := by
    intro cs n fuel room cb hfuel hs
    obtain ⟨fuel, rfl⟩ : ∃ k, fuel = k + 1 := ⟨fuel - 1, by omega⟩
    rw [parseReadLoop_settled hz hs]
    cases verdict (received cs zeros n) stale <;> rfl
  induction cs generalizing n fuel room cb with
  | nil => exact hstop hfuel rfl
  | cons c cs ih =>
    by_cases hn : c.enc.length ≤ n
    · obtain ⟨fuel, rfl⟩ : ∃ k, fuel = k + 1 := ⟨fuel - 1, by omega⟩
      have hlen := c.enc_length
      rw [settle_cons_of_le hn] at hlines ⊢
      simp only [List.all_cons, Bool.and_eq_true, decide_eq_true_eq] at hlines
      rw [received_cons_of_le hn, parseReadLoop_chunk hlines.1,
        ih (n := n - c.enc.length) (by omega) hlines.2, flush_cons]
      rfl
    · have hs := settle_cons_of_lt cs (show n < c.enc.length by omega)
      rw [hs]
      exact hstop hfuel hs

theorem parseVerdict_ne_bad {cs : List Chunk} {n : Nat} {stale : Bytes}
    (h : parseVerdict cs zeros n stale ≠ .bad) :
    (settle cs n).1.all (·.line.length ≤ 4) = true ∧
      verdict (received (settle cs n).2.1 zeros (settle cs n).2.2) stale =
        parseVerdict cs zeros n stale := by
  unfold parseVerdict at h ⊢
  split at h
  next hl => exact ⟨hl, by rw [if_pos hl]⟩
  next => exact absurd rfl h

end ReadRunLemmas

open ReadRunLemmas

/-- A parse of the first `n` bytes of a body: it hands over the decoded bytes in
order and keeps what did not fit. -/
theorem parseChunkedRead_received {zeros : Nat} {cs : List Chunk} {n : Nat} {stale : Bytes}
    (cb : Bytes) (room : Nat) (hz : 0 < zeros) (hn : n ≤ (encChunks cs ++ encLast zeros).length)
    (hv : parseVerdict cs zeros n stale ≠ .bad) :
    parseChunkedRead cb room (received cs zeros n) stale =
      some ⟨(flush (settle cs n).1 cb room).1, (flush (settle cs n).1 cb room).2,
        received (settle cs n).2.1 zeros (settle cs n).2.2 ++
          (received cs zeros n ++ stale).drop (settle cs n).2.2,
        n - (settle cs n).2.2, verdictRet (parseVerdict cs zeros n stale)⟩ := by
  obtain ⟨hlines, hverdict⟩ := parseVerdict_ne_bad hv
  have hlen : (received cs zeros n).length = n := received_length hn
  have hleft := received_settle_length hlen
  rw [parseChunkedRead, hlen, parseReadLoop_received hz (Nat.lt_succ_self n) hlines]
  simp only [hverdict, hleft]

/-! ## One call -/

/-- The state of `read` between two calls is that of the abstract calls. -/
structure ReadFollows (zeros : Nat) (tail : Socket) (st : ReadState) (u : Unread) : Prop where
  reader_eq : st.readerBuffer = received u.todo zeros u.held
  chunked_eq : st.chunkedBuffer = u.chunked
  sock_brings : Brings st.sock u.segs tail
  segs_ne_nil : ∀ t ∈ u.segs, t ≠ []
  bytes : received u.todo zeros u.held ++ u.segs.flatten = encChunks u.todo ++ encLast zeros
  held_le : u.held ≤ (encChunks u.todo ++ encLast zeros).length

namespace ReadRunLemmas

variable {zeros : Nat} {tail : Socket}

/-- A parse hands over decoded bytes and keeps decoded bytes; none is lost. -/
theorem flush_append (done : List Chunk) (chunked : Bytes) (room : Nat) :
    (flush done chunked room).1 ++ (flush done chunked room).2 = chunked ++ payloads done := by
  unfold flush
  split
  next h => simp [h]
  next => rw [List.take_append_drop]

theorem flush_length_le (done : List Chunk) (chunked : Bytes) (room : Nat) :
    (flush done chunked room).1.length ≤ room := by
  unfold flush
  split
  · simp
  · exact List.length_take_le _ _

theorem out_length_le (u : Unread) (n room : Nat) : (u.out n room).length ≤ room :=
  flush_length_le _ _ _

theorem parsed_payload (u : Unread) (n room : Nat) (segs : List Bytes) :
    u.out n room ++ (u.parsed n room segs).payload = u.payload := by
  simp only [Unread.out, Unread.payload, Unread.parsed]
  rw [← List.append_assoc, flush_append, List.append_assoc, ← payloads_append, settle_append]

/-- After the two moves the kept bytes stand at the front. -/
theorem moved_eq {cs : List Chunk} {n : Nat} (stale : Bytes)
    (hn : n ≤ (encChunks cs ++ encLast zeros).length) (hmove : MoveOk cs n) :
    ((received (settle cs n).2.1 zeros (settle cs n).2.2 ++
      (received cs zeros n ++ stale).drop (settle cs n).2.2).drop (n - (settle cs n).2.2)).take
        (settle cs n).2.2 = received (settle cs n).2.1 zeros (settle cs n).2.2 := by
  have hlen := received_length hn
  have hleft := received_settle_length hlen
  have hsplit := received_settle cs zeros n
  have hdone := settle_length cs n
  set left := (settle cs n).2.2 with hl
  set kept := received (settle cs n).2.1 zeros left with hk
  rcases hmove with h | h
  · rw [← hl] at h
    rw [h, Nat.sub_self, List.drop_zero, ← hleft, List.take_left]
  · rw [← hl] at h
    rw [List.drop_append, List.drop_of_length_le (by omega), List.nil_append, List.drop_drop,
      hsplit, List.append_assoc]
    have hskip : left + (n - left - kept.length) = (encChunks (settle cs n).1).length := by omega
    rw [hskip, List.drop_left, ← hleft, List.take_left]

/-- The bytes behind a parse: what it keeps, and the segments to come. -/
theorem parsed_bytes {cs : List Chunk} {n : Nat} {t : Bytes}
    (h : received cs zeros n ++ t = encChunks cs ++ encLast zeros) :
    received (settle cs n).2.1 zeros (settle cs n).2.2 ++ t =
      encChunks (settle cs n).2.1 ++ encLast zeros := by
  have htodo : encChunks cs = encChunks (settle cs n).1 ++ encChunks (settle cs n).2.1 := by
    rw [← encChunks_append, settle_append]
  rw [received_settle cs, htodo, List.append_assoc, List.append_assoc] at h
  exact List.append_cancel_left h

theorem parsed_held_le {cs : List Chunk} {n : Nat}
    (hn : n ≤ (encChunks cs ++ encLast zeros).length) :
    (settle cs n).2.2 ≤ (encChunks (settle cs n).2.1 ++ encLast zeros).length := by
  have htodo : encChunks cs = encChunks (settle cs n).1 ++ encChunks (settle cs n).2.1 := by
    rw [← encChunks_append, settle_append]
  have hdone := settle_length cs n
  rw [htodo] at hn
  simp only [List.length_append] at hn ⊢
  omega

/-- At the end of the body a call that keeps nothing decoded has returned all. -/
theorem payload_of_ended {u : Unread} (htodo : u.todo.isEmpty) (hchunked : u.chunked = []) :
    u.payload = [] := by
  rw [Unread.payload, hchunked, List.isEmpty_iff.mp htodo]
  rfl

/-- A parse that is not refused makes the call succeed. -/
theorem read_of_readSub {s : Nat} {stack out : Bytes} {st st' : ReadState} {v : Verdict}
    (hv : v ≠ .bad) (h : ReadSub s stack st (some (out, st', verdictRet v))) :
    Read s stack st (some (out, st', none)) := by
  refine ⟨_, h, ?_⟩
  cases v <;> simp_all [verdictRet, retval]

/-- What a call that goes well does: it returns bytes of the payload in order, and
when it returns none there are none left. -/
structure CallDone (u : Unread) (out : Bytes) (u' : Unread) : Prop where
  payload_eq : out ++ u'.payload = u.payload
  ended : out = [] → u'.payload = []

theorem readSub_of_enter {s : Nat} {stack : Bytes} {st : ReadState} {r : ReadResult}
    (h : readSubEnter s stack st = .done r) : ReadSub s stack st r := by
  rw [ReadSub, h]

theorem callReader_follows {s : Nat} {stack out : Bytes} {st : ReadState} {u u' : Unread}
    (hz : 0 < zeros) (hs : 0 < s) (h : ReadFollows zeros tail st u) (hheld : u.held ≠ 0)
    (hcall : u.callReader zeros s = some (out, u')) :
    CallDone u out u' ∧ ∃ st', Read s stack st (some (out, st', none)) ∧
      ReadFollows zeros tail st' u' := by
  have hlen := received_length h.held_le
  have hne : st.readerBuffer ≠ [] := by
    rw [h.reader_eq]
    exact List.ne_nil_of_length_pos (by omega)
  unfold Unread.callReader at hcall
  split at hcall
  next => cases hcall
  next hmove =>
    have hmove : MoveOk u.todo u.held := not_not.mp hmove
    have hmoved := moved_eq [] h.held_le hmove
    have hv : parseVerdict u.todo zeros u.held [] ≠ .bad := by
      intro hv
      rw [hv] at hcall
      cases hcall
    have hparse := parseChunkedRead_received u.chunked s hz h.held_le hv
    have hdone := settle_length u.todo u.held
    rw [List.append_nil, List.take_of_length_le] at hmoved
    · have hread : ∀ ret, verdictRet (parseVerdict u.todo zeros u.held []) = ret →
          (ret.isSome ∨ (u.out u.held s).length = s) →
          ReadSub s stack st (some (u.out u.held s,
            { st with
              readerBuffer := received (settle u.todo u.held).2.1 zeros (settle u.todo u.held).2.2
              chunkedBuffer := (u.parsed u.held s u.segs).chunked }, ret)) := by
        rintro ret rfl hor
        refine readSub_of_enter ?_
        rw [readSubEnter, if_pos hne, h.chunked_eq, h.reader_eq, hparse]
        simp only [List.append_nil, hmoved]
        split
        next => rfl
        next hret =>
          have hfull : (flush (settle u.todo u.held).1 u.chunked s).1.length = s :=
            hor.resolve_left hret
          rw [if_pos hfull, Option.not_isSome_iff_eq_none.mp hret]
          rfl
      have hfollows : ReadFollows zeros tail
          { st with
            readerBuffer := received (settle u.todo u.held).2.1 zeros (settle u.todo u.held).2.2
            chunkedBuffer := (u.parsed u.held s u.segs).chunked }
          (u.parsed u.held s u.segs) :=
        ⟨rfl, rfl, h.sock_brings, h.segs_ne_nil, parsed_bytes h.bytes, parsed_held_le h.held_le⟩
      cases hverdict : parseVerdict u.todo zeros u.held [] with
      | bad => exact absurd hverdict hv
      | last =>
        simp only [hverdict] at hcall
        split at hcall
        next hend =>
          cases hcall
          refine ⟨⟨parsed_payload .., fun _ => payload_of_ended hend.1 hend.2⟩, _,
            read_of_readSub hv (hread _ rfl (.inl ?_)), hfollows⟩
          rw [hverdict]
          rfl
        next => cases hcall
      | wait =>
        simp only [hverdict] at hcall
        split at hcall
        next hfull =>
          cases hcall
          refine ⟨⟨parsed_payload .., fun he => ?_⟩, _,
            read_of_readSub hv (hread _ rfl (.inr hfull)), hfollows⟩
          rw [he] at hfull
          simp only [List.length_nil] at hfull
          omega
        next => cases hcall
    · rw [List.length_drop, List.length_append, List.length_drop, hlen,
        received_settle_length hlen]
      omega

/-- The state of `readSub` in a pass is that of the abstract call. -/
structure SubFollows (zeros s : Nat) (tail : Socket) (n : ReadSubState) (u : Unread)
    (stale : Bytes) (room : Nat) : Prop where
  reader_eq : n.round.readerBuffer = []
  data_eq : n.data = received u.todo zeros u.held
  stale_eq : n.stale = stale
  out_length : n.out.length + room = s
  chunked_eq : n.round.chunkedBuffer = u.chunked
  sock_brings : Brings n.round.sock u.segs tail
  segs_ne_nil : ∀ t ∈ u.segs, t ≠ []
  bytes : received u.todo zeros u.held ++ u.segs.flatten = encChunks u.todo ++ encLast zeros
  held_le : u.held ≤ (encChunks u.todo ++ encLast zeros).length

/-- What `readSub` leaves behind its loop is what the next call finds. -/
theorem SubFollows.leave {s : Nat} {n : ReadSubState} {u : Unread} {stale : Bytes} {room : Nat}
    (h : SubFollows zeros s tail n u stale room) (ret : Retval) :
    ∃ st, n.leave ret = some (n.out, st, ret) ∧ ReadFollows zeros tail st u := by
  refine ⟨_, rfl, ?_, h.chunked_eq, h.sock_brings, h.segs_ne_nil, h.bytes, h.held_le⟩
  rw [h.data_eq]
  split
  next => rfl
  next hnil => rw [h.reader_eq, not_not.mp hnil]

/-- One pass: the parse of what is in the array after a `recv`, and the state
with which the pass leaves the loop or goes on. -/
theorem readSubRound_follows {s room : Nat} {n : ReadSubState} {u : Unread} {stale t : Bytes}
    {ts : List Bytes} (hz : 0 < zeros) (h : SubFollows zeros s tail n u stale room)
    (hheld : u.held < max MAX_SIZE s) (hsegs : u.segs = t :: ts) :
    let r := t.take (max MAX_SIZE s - u.held)
    let k := u.held + r.length
    let segs := behind (max MAX_SIZE s - u.held) t ts
    let v := parseVerdict u.todo zeros k (stale.drop r.length)
    MoveOk u.todo k → v ≠ .bad →
    ∃ n' ret, SubFollows zeros s tail n' (u.parsed k room segs)
        ((received u.todo zeros k ++ stale.drop r.length).drop (u.parsed k room segs).held)
        (room - (u.out k room).length) ∧
      n'.out = n.out ++ u.out k room ∧
      (max MAX_SIZE s - u.held ≤ t.length → ret = none) ∧
      readSubRound s n = if (verdictRet v).isSome then .done (n'.leave (verdictRet v))
        else if ret.isSome then .done (n'.leave ret)
        else if n'.out.length = s then .done (n'.leave none)
        else .next n' := by
  intro r k segs v hmove hv
  have ht : t ≠ [] := h.segs_ne_nil t (by simp [hsegs])
  have hdata := received_length h.held_le
  obtain ⟨ret, sock, hrecv, hsock, hret⟩ :=
    recvRaw_segment ht ts tail (max MAX_SIZE s - u.held)
  have hwait := Brings.waitRecv_eq ht (hsegs ▸ h.sock_brings)
  have hrpos : r ≠ [] := by
    refine List.ne_nil_of_length_pos ?_
    have := List.length_pos_of_ne_nil ht
    rw [List.length_take]
    omega
  have hflat : u.segs.flatten = r ++ segs.flatten := by
    rw [hsegs]
    exact (take_append_behind _ t ts).symm
  have hbytes := h.bytes
  rw [hflat, ← List.append_assoc] at hbytes
  have hk : k ≤ (encChunks u.todo ++ encLast zeros).length := by
    rw [← hbytes]
    simp only [List.length_append, hdata, k]
    omega
  have hfilled : received u.todo zeros u.held ++ r = received u.todo zeros k := by
    have hlen : k = (received u.todo zeros u.held ++ r).length := by
      rw [List.length_append, hdata]
    conv_rhs => rw [received, ← hbytes, hlen, List.take_left]
  have hparse := parseChunkedRead_received u.chunked room hz hk hv
  have hlen := received_length hk
  have hdone := settle_length u.todo k
  have hleft := received_settle_length hlen
  have hbuf : k - (k - (settle u.todo k).2.2) = (settle u.todo k).2.2 := by omega
  rw [hfilled] at hbytes
  refine ⟨{ round := { n.round with chunkedBuffer := (u.parsed k room segs).chunked, sock }
            data := received (settle u.todo k).2.1 zeros (settle u.todo k).2.2
            stale := (received u.todo zeros k ++ stale.drop r.length).drop (settle u.todo k).2.2
            out := n.out ++ u.out k room }, ret, ?_, rfl, ?_, ?_⟩
  · refine ⟨h.reader_eq, rfl, rfl, ?_, rfl, hsock, behind_ne_nil (hsegs ▸ h.segs_ne_nil),
      parsed_bytes hbytes, parsed_held_le hk⟩
    have hle := out_length_le u k room
    have hout := h.out_length
    rw [List.length_append]
    omega
  · intro hfull
    refine hret.resolve_right fun hlt => ?_
    omega
  · have hroom : s - n.out.length = room := by have := h.out_length; omega
    rw [readSubRound, h.data_eq, hdata, if_neg (by omega), hwait]
    simp only [hrecv]
    rw [if_neg (fun hc => hrpos hc.2), h.chunked_eq, hroom, h.stale_eq, hfilled, hparse]
    simp only [hlen, hbuf, moved_eq _ hk hmove, List.drop_left' hleft]
    rfl

theorem callSocket_follows {s : Nat} (hz : 0 < zeros) (hs : 0 < s) {fuel room : Nat}
    {n : ReadSubState} {u u' : Unread} {stale out : Bytes}
    (h : SubFollows zeros s tail n u stale room) (hheld : u.held < max MAX_SIZE s)
    (hcall : u.callSocket zeros (max MAX_SIZE s) fuel stale room = some (out, u')) :
    out ++ u'.payload = u.payload ∧ (n.out ++ out = [] → u'.payload = []) ∧
    ∃ st v, v ≠ .bad ∧ Returns (readSubRound s) n (some (n.out ++ out, st, verdictRet v)) ∧
      ReadFollows zeros tail st u' := by
  induction fuel generalizing n u stale room out with
  | zero => cases hcall
  | succ fuel ih =>
    rw [Unread.callSocket] at hcall
    split at hcall
    next => cases hcall
    next t ts hsegs =>
      simp only at hcall
      split at hcall
      next => cases hcall
      next hmove =>
        have hmove := not_not.mp hmove
        have hround := readSubRound_follows hz h hheld hsegs hmove
        split at hcall
        next => cases hcall
        next hv =>
          obtain ⟨n', ret, hn', hout, -, hstep⟩ := hround (by rw [hv]; simp)
          split at hcall
          next hend =>
            cases hcall
            obtain ⟨st, hleave, hst⟩ := hn'.leave (retval .tChunkedEnd)
            refine ⟨parsed_payload .., fun _ => payload_of_ended hend.1 hend.2, st, .last, by simp,
              returns_of_done ?_, hst⟩
            rw [hstep, hv, ← hout]
            exact congrArg Round.done hleave
          next => cases hcall
        next hv =>
          obtain ⟨n', ret, hn', hout, hret, hstep⟩ := hround (by rw [hv]; simp)
          split at hcall
          next => cases hcall
          next hfull =>
            have hret := hret (not_lt.mp hfull)
            rw [hv, hret] at hstep
            simp only [verdictRet, Option.isSome_none, Bool.false_eq_true, ↓reduceIte] at hstep
            have hlen := hn'.out_length
            have hlen' := h.out_length
            split at hcall
            next hroom =>
              cases hcall
              obtain ⟨st, hleave, hst⟩ := hn'.leave none
              have hs' : n'.out.length = s := by omega
              refine ⟨parsed_payload .., fun he => ?_, st, .wait, by simp, returns_of_done ?_, hst⟩
              · rw [← hout] at he
                simp only [he, List.length_nil] at hs'
                omega
              · rw [hstep, if_pos hs', ← hout]
                exact congrArg Round.done hleave
            next hroom =>
              split at hcall
              next hlt =>
                obtain ⟨⟨out', u''⟩, hrec, heq⟩ := Option.map_eq_some_iff.mp hcall
                cases heq
                obtain ⟨hpay, hend, st, v, hv', hrun, hst⟩ := ih hn' hlt hrec
                have hs' : ¬ n'.out.length = s := by
                  have hle := out_length_le u
                    (u.held + (t.take (max MAX_SIZE s - u.held)).length) room
                  rw [hout, List.length_append]
                  omega
                rw [hout, List.append_assoc] at hend hrun
                refine ⟨?_, hend, st, v, hv', (returns_next_iff ?_).mpr hrun, hst⟩
                · rw [List.append_assoc, hpay, parsed_payload]
                · rw [hstep, if_neg hs']
              next => cases hcall

end ReadRunLemmas

open ReadRunLemmas

/-- A call that goes well is a call of `read` without an error. -/
theorem call_follows {zeros s : Nat} {tail : Socket} {stack out : Bytes} {st : ReadState}
    {u u' : Unread} (hz : 0 < zeros) (hs : 0 < s) (h : ReadFollows zeros tail st u)
    (hcall : u.call zeros s stack = some (out, u')) :
    CallDone u out u' ∧ ∃ st', Read s stack st (some (out, st', none)) ∧
      ReadFollows zeros tail st' u' := by
  unfold Unread.call at hcall
  split at hcall
  next hheld => exact callReader_follows hz hs h hheld hcall
  next hheld =>
    have hheld : u.held = 0 := not_not.mp hheld
    have hnil : st.readerBuffer = [] := by
      rw [h.reader_eq, hheld]
      simp [received]
    have hsub : SubFollows zeros s tail ⟨st, [], stack, []⟩ u stack s :=
      ⟨hnil, by rw [← hnil, h.reader_eq], rfl, by simp, h.chunked_eq, h.sock_brings,
        h.segs_ne_nil, h.bytes, h.held_le⟩
    obtain ⟨hpay, hend, st', v, hv, hrun, hst⟩ := callSocket_follows hz hs hsub
      (by rw [hheld]; exact lt_max_of_lt_right hs) hcall
    refine ⟨⟨hpay, hend⟩, st', read_of_readSub hv ?_, hst⟩
    rw [ReadSub, readSubEnter, if_neg (not_not.mpr hnil)]
    exact hrun

theorem readFollows_init {b : Body} {reader : Bytes} {segs : List Bytes}
    (hsegs : ∀ t ∈ segs, t ≠ []) (hsplit : reader ++ segs.flatten = b.enc) (tail : Socket) :
    ReadFollows b.zeros tail ⟨reader, [], segments segs ++ tail⟩ (unreadInit b reader segs) := by
  have htake : received b.chunks b.zeros reader.length = reader := by
    rw [received, ← Body.enc, ← hsplit, List.take_left]
  refine ⟨htake.symm, rfl, .inl rfl, hsegs, ?_, ?_⟩
  · rw [unreadInit, htake, hsplit]
    rfl
  · change reader.length ≤ b.enc.length
    rw [← hsplit, List.length_append]
    omega

/-- When every call goes well, the calls of `read` return the payload and then
nothing, without an error. -/
theorem reads_payload {b : Body} {reader : Bytes} {segs : List Bytes} {sizes : Nat → Nat}
    {garbage : Nat → Bytes} (hsegs : ∀ t ∈ segs, t ≠ [])
    (hsplit : reader ++ segs.flatten = b.enc) (hsizes : ∀ i, 0 < sizes i)
    (hcalls : ∀ i u, CallReach b.zeros sizes garbage (unreadInit b reader segs) i u →
      (u.call b.zeros (sizes i) (garbage i)).isSome) (tail : Socket) :
    Reads sizes garbage 0 ⟨reader, [], segments segs ++ tail⟩ b.payload := by
  -- induction on the payload that is still to be returned
  have hrun : ∀ (k : Nat) (i : Nat) (u : Unread) (st : ReadState), u.payload.length = k →
      CallReach b.zeros sizes garbage (unreadInit b reader segs) i u →
      ReadFollows b.zeros tail st u → Reads sizes garbage i st u.payload := by
    intro k
    induction k using Nat.strongRecOn with
    | ind k ih =>
      rintro i u st rfl hreach hst
      obtain ⟨⟨out, u'⟩, hcall⟩ := Option.isSome_iff_exists.mp (hcalls i u hreach)
      obtain ⟨⟨hpay, hend⟩, st', hread, hst'⟩ := call_follows b.zeros_pos (hsizes i) hst hcall
      by_cases hout : out = []
      · subst hout
        rw [← hpay, hend rfl]
        exact .last hread
      · rw [← hpay]
        refine .more hread hout (ih _ ?_ _ u' st' rfl (hreach.step hcall hout) hst')
        rw [← hpay, List.length_append]
        have := List.length_pos_of_ne_nil hout
        omega
  exact hrun _ 0 _ _ rfl .init (readFollows_init hsegs hsplit tail)

theorem Reads.first_call {sizes : Nat → Nat} {garbage : Nat → Bytes} {i : Nat} {st : ReadState}
    {outs : Bytes} (h : Reads sizes garbage i st outs) :
    ∃ out st', Read (sizes i) (garbage i) st (some (out, st', none)) := by
  cases h with
  | last hread => exact ⟨_, _, hread⟩
  | more hread _ _ => exact ⟨_, _, hread⟩

def exHello : Body where
  chunks :=
    [{ line := bytes "5", payload := bytes "hello", line_ne_nil := by decide,
       line_hex := by decide +kernel, line_val := by decide, payload_pos := by decide,
       payload_le := by decide }]
  zeros := 1
  zeros_pos := Nat.one_pos

/-- The whole body in one segment, into a buffer of 100 bytes. -/
theorem reads_exHello :
    Reads (fun _ => 100) (fun _ => []) 0 ⟨[], [], segments [exHello.enc] ++ []⟩ (bytes "hello") := by
  refine reads_payload (b := exHello) (by decide) (by decide) (fun _ => by decide) ?_ []
  have hfirst : (unreadInit exHello [] [exHello.enc]).call 1 100 [] =
      some (bytes "hello", ⟨[], 5, [], []⟩) := by rfl
  have hsecond : (⟨[], 5, [], []⟩ : Unread).call 1 100 [] = some ([], ⟨[], 5, [], []⟩) := by rfl
  -- the calls that are made: one that returns the payload, one that returns nothing
  have hreach : ∀ i u, CallReach 1 (fun _ => 100) (fun _ => []) (unreadInit exHello [] [exHello.enc])
      i u → u = unreadInit exHello [] [exHello.enc] ∨ u = ⟨[], 5, [], []⟩ := by
    intro i u h
    induction h with
    | init => exact .inl rfl
    | step _ hcall hne ih =>
      rcases ih with rfl | rfl
      · exact .inr (congrArg Prod.snd (Option.some.inj (hcall.symm.trans hfirst)))
      · exact absurd (congrArg Prod.fst (Option.some.inj (hcall.symm.trans hsecond))) hne
  intro i u h
  rcases hreach i u h with rfl | rfl
  · exact Option.isSome_iff_exists.mpr ⟨_, hfirst⟩
  · exact Option.isSome_iff_exists.mpr ⟨_, hsecond⟩

/-- The chunk is in the reader buffer, the end of the body still to come, and the
caller's buffer is larger than the chunk: the call answers an error. -/
theorem reads_short :
    bytes "5\r\nhello\r\n" ++ [bytes "0\r\n\r\n"].flatten = exHello.enc ∧
    ¬ Reads (fun _ => 100) (fun _ => []) 0
      ⟨bytes "5\r\nhello\r\n", [], segments [bytes "0\r\n\r\n"] ++ []⟩ exHello.payload := by
  refine ⟨by decide, fun h => ?_⟩
  obtain ⟨out, st, r, hr, heq⟩ := h.first_call
  have henter : readSubEnter 100 [] ⟨bytes "5\r\nhello\r\n", [], segments [bytes "0\r\n\r\n"] ++ []⟩ =
      .done (some (bytes "hello", ⟨[], [], segments [bytes "0\r\n\r\n"]⟩,
        retvalMsg .error "Not enouth buffer(1).")) := by rfl
  rw [ReadSub, henter] at hr
  subst hr
  simp [retvalMsg] at heq

end Dframework
