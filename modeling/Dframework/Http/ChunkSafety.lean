import Mathlib
import Dframework.Http.ChunkedBlocks
import Dframework.Http.ChunkedRead

/-!
# The bounds of accepted chunks

Both parsers compare `savelen` with the bytes that were received. The number in a size line is read
with `strtol`, which takes a sign, blanks and what follows the digits, and `savelen` wraps around.
The parsers do not ask whether the line is one. Memory behind the received bytes is looked at too.

Results:
1. `safe_iff`: the size lines with which one round is safe.
2. `chunks_in_bounds_iff`: the calls in which every round is.
-/

namespace Dframework

open CLib

/-- The chunk at `rest` is accepted: it is handed over with `len` and `val`. -/
def Accepts (stale rest : Bytes) (len val : Nat) : Prop :=
  rest ≠ [] ∧ chunkHead (rest ++ stale) = .chunk len val ∧ savelen len val ≤ rest.length

/-- The rounds that a call of `parseChunkedBlocks` comes to. -/
inductive BlocksVisits (q : HttpQuery) (stale : Bytes) (st : HttpChunked) (data : Bytes) :
    HttpChunked → Bytes → Prop
  | start : BlocksVisits q stale st data st data
  | next {st₁ st₂ : HttpChunked} {rest : Bytes} {len val : Nat} :
    BlocksVisits q stale st data st₁ rest → Accepts stale rest len val →
    procChunkedBlocks q st₁ (some ((rest ++ stale).drop len)) val false = some (st₂, none) →
    BlocksVisits q stale st data st₂ (rest.drop (savelen len val))

/-- The rounds that a call of `parseChunkedRead` comes to, with the room that is left. -/
inductive ReadVisits (stale : Bytes) (cb : Bytes) (size : Nat) (data : Bytes) :
    Bytes → Nat → Bytes → Prop
  | start : ReadVisits stale cb size data cb size data
  | next {cb₁ cb₂ out rest : Bytes} {room len val : Nat} :
    ReadVisits stale cb size data cb₁ room rest → Accepts stale rest len val →
    procChunkedRead cb₁ room ((rest ++ stale).drop len) val = some (out, cb₂) →
    ReadVisits stale cb size data cb₂ (room - out.length) (rest.drop (savelen len val))

/-- What the loop does from a round it comes to is what it does from the start. -/
theorem BlocksVisits.loop_eq {q : HttpQuery} {stale data rest : Bytes} {st st' : HttpChunked}
    (h : BlocksVisits q stale st data st' rest) :
    ∃ n, ∀ fuel, parseBlocksLoop q stale (fuel + n) st data = parseBlocksLoop q stale fuel st' rest := by
  induction h with
  | start => exact ⟨0, fun fuel => rfl⟩
  | @next st₁ st₂ rest len val _ haccepts hproc ih =>
    obtain ⟨n, hn⟩ := ih
    obtain ⟨hne, hhead, hsave⟩ := haccepts
    refine ⟨n + 1, fun fuel => ?_⟩
    have hround : parseBlocksLoop q stale (fuel + 1) st₁ rest =
        parseBlocksLoop q stale fuel st₂ (rest.drop (savelen len val)) := by
      rw [parseBlocksLoop, if_neg hne]
      simp only [hhead, if_neg (Nat.not_lt_of_le hsave), hproc]
    rw [← hround, ← hn, Nat.add_right_comm, Nat.add_assoc]

theorem ReadVisits.loop_eq {stale cb data cb' rest : Bytes} {size room : Nat}
    (h : ReadVisits stale cb size data cb' room rest) :
    ∃ n out, ∀ fuel, parseReadLoop stale (fuel + n) cb size data =
      (parseReadLoop stale fuel cb' room rest).map fun stop => { stop with out := out ++ stop.out } := by
  induction h with
  | start => exact ⟨0, [], fun fuel => Option.map_id'.symm⟩
  | @next cb₁ cb₂ out rest room len val _ haccepts hproc ih =>
    obtain ⟨n, pre, hn⟩ := ih
    obtain ⟨hne, hhead, hsave⟩ := haccepts
    refine ⟨n + 1, pre ++ out, fun fuel => ?_⟩
    have hround : parseReadLoop stale (fuel + 1) cb₁ room rest =
        (parseReadLoop stale fuel cb₂ (room - out.length) (rest.drop (savelen len val))).map
          fun stop => { stop with out := out ++ stop.out } := by
      rw [parseReadLoop, if_neg hne]
      simp only [hhead, if_neg (Nat.not_lt_of_le hsave), hproc]
      cases parseReadLoop stale fuel cb₂ (room - out.length) (rest.drop (savelen len val)) <;> rfl
    have hnum : fuel + (n + 1) = fuel + 1 + n := by omega
    rw [hnum, hn, hround, Option.map_map]
    congr 1
    funext stop
    rw [Function.comp_apply, List.append_assoc]

/-- The size field of a line is what stands in front of an extension. -/
def HexField (line : Bytes) : Prop :=
  (line.takeWhile (· != 59)) ≠ [] ∧ ∀ c ∈ line.takeWhile (· != 59), isxdigit c

instance (line : Bytes) : Decidable (HexField line) := inferInstanceAs (Decidable (_ ∧ _))

/-- What a round has to do: a chunk that is accepted lies in the received bytes, and a received
size line without a size is refused. -/
structure SafeRound (stale rest : Bytes) : Prop where
  bounds : ∀ len val, Accepts stale rest len val → len + val + 2 ≤ rest.length
  refuses : ∀ pnt, strstr (rest ++ stale) CRLF = some pnt → pnt + 2 ≤ rest.length →
    ¬ HexField ((rest ++ stale).take pnt) → chunkHead (rest ++ stale) = .bad

/-- The size lines with which a round is safe: there is a size in the line; or the line is longer
than four bytes, and no zero; or it has not been received, and the end that its number tells does
not lie in the received bytes. -/
def SizeLine (stale rest : Bytes) : Prop :=
  rest ≠ [] → ∀ pnt, strstr (rest ++ stale) CRLF = some pnt →
    HexField ((rest ++ stale).take pnt) ∨
    (4 < pnt ∧ ¬ (strtol 16 (rest ++ stale) = 0 ∧ (rest ++ stale).head? = some 48)) ∨
    (rest.length < pnt + 2 ∧ (pnt + strtol 16 (rest ++ stale) + 4 < 0 ∨
      rest.length < pnt + strtol 16 (rest ++ stale) + 4))

namespace ChunkSafetyLemmas

theorem strtol_bounds (base : Nat) (m : Bytes) : -(2 ^ 63) ≤ strtol base m ∧ strtol base m < 2 ^ 63 := by
  simp only [strtol]
  split <;> omega

theorem toSizeT_eq_zero_iff {i : Int} (hlo : -(2 ^ 63) ≤ i) (hhi : i < 2 ^ 63) : toSizeT i = 0 ↔ i = 0 := by
  rw [toSizeT]
  omega

/-- What `chunkHead` makes of a line that is there. -/
theorem chunkHead_cases {buf : Bytes} {pnt : Nat} (h : strstr buf CRLF = some pnt) :
    chunkHead buf =
      if strtol 16 buf = 0 ∧ buf.head? = some 48 then .last
      else if 4 < pnt then .bad
      else .chunk (pnt + 2) (toSizeT (strtol 16 buf)) := by
  obtain ⟨hlo, hhi⟩ := strtol_bounds 16 buf
  have hlong : pnt + 2 > 6 ↔ 4 < pnt := by omega
  simp only [chunkHead, h, toSizeT_eq_zero_iff hlo hhi, hlong]

/-- The number that a line with a size begins with is not negative. -/
theorem strtol_hex {buf : Bytes} {pnt : Nat} (h : HexField (buf.take pnt)) : 0 ≤ strtol 16 buf := by
  obtain ⟨hne, hhex⟩ := h
  obtain ⟨c, cs, hc⟩ := List.exists_cons_of_ne_nil hne
  have hdigit := hhex c (hc ▸ List.mem_cons_self)
  obtain ⟨t, ht⟩ := (List.takeWhile_prefix (· != 59)).trans (List.take_prefix pnt buf)
  rw [hc, List.cons_append] at ht
  have hlt := ChunkLemmas.strtol_lt hdigit (cs ++ t)
  rw [ht] at hlt
  obtain ⟨hlo, -⟩ := strtol_bounds 16 buf
  rw [toSizeT] at hlt
  omega

/-- `savelen` of a short line, with a number that may be negative. -/
theorem savelen_toSizeT {pnt : Nat} {i : Int} (hpnt : pnt ≤ 4) (hlo : -(2 ^ 63) ≤ i) (hhi : i < 2 ^ 63) :
    (savelen (pnt + 2) (toSizeT i) : Int) = if pnt + i + 4 < 0 then pnt + i + 4 + 2 ^ 64 else pnt + i + 4 := by
  rw [savelen, toSizeT]
  split <;> omega

end ChunkSafetyLemmas

open ChunkSafetyLemmas

/-- A round is safe with these size lines and no others. -/
theorem safe_iff {stale rest : Bytes} : SafeRound stale rest ↔ SizeLine stale rest := by
  obtain ⟨hlo, hhi⟩ := strtol_bounds 16 (rest ++ stale)
  constructor
  · rintro ⟨hbounds, hrefuses⟩ hne pnt hpnt
    have hhead := chunkHead_cases hpnt
    by_cases hhex : HexField ((rest ++ stale).take pnt)
    · exact .inl hhex
    by_cases hzero : strtol 16 (rest ++ stale) = 0 ∧ (rest ++ stale).head? = some 48
    · -- a zero ends the body, so the line has not been received
      rw [if_pos hzero] at hhead
      have hlt : rest.length < pnt + 2 := by
        by_contra hge
        have hbad := hrefuses pnt hpnt (Nat.le_of_not_lt hge) hhex
        rw [hhead] at hbad
        cases hbad
      exact .inr (.inr ⟨hlt, .inr (by omega)⟩)
    rw [if_neg hzero] at hhead
    by_cases hlong : 4 < pnt
    · exact .inr (.inl ⟨hlong, hzero⟩)
    rw [if_neg hlong] at hhead
    have hlt : rest.length < pnt + 2 := by
      by_contra hge
      have hbad := hrefuses pnt hpnt (Nat.le_of_not_lt hge) hhex
      rw [hhead] at hbad
      cases hbad
    refine .inr (.inr ⟨hlt, ?_⟩)
    by_contra hend
    have hsave := savelen_toSizeT (Nat.le_of_not_lt hlong) hlo hhi
    rw [if_neg (by omega)] at hsave
    have hin := hbounds _ _ ⟨hne, hhead, by omega⟩
    omega
  · intro h
    constructor
    · rintro len val ⟨hne, hhead, hsave⟩
      obtain ⟨pnt, hpnt, rfl, hle, rfl⟩ := chunkHead_eq_chunk hhead
      have hint := savelen_toSizeT (Nat.le_of_add_le_add_right hle) hlo hhi
      rcases h hne pnt hpnt with hhex | ⟨hlong, -⟩ | ⟨hlt, hend⟩
      · have hnonneg := strtol_hex hhex
        rw [if_neg (by omega)] at hint
        have hval : (toSizeT (strtol 16 (rest ++ stale)) : Int) = strtol 16 (rest ++ stale) := by
          rw [toSizeT]
          omega
        omega
      · omega
      · split at hint <;> omega
    · intro pnt hpnt hreceived hhex
      have hne : rest ≠ [] := by
        rintro rfl
        exact absurd hreceived (by simp)
      rcases h hne pnt hpnt with hhex' | ⟨hlong, hzero⟩ | ⟨hlt, -⟩
      · exact absurd hhex' hhex
      · rw [chunkHead_cases hpnt, if_neg hzero, if_pos hlong]
      · exact absurd hreceived (Nat.not_le_of_lt hlt)

/-- In a call of either parser every accepted chunk lies in the received bytes and every received
line without a size is refused, when all the size lines it comes to are such lines. -/
theorem chunks_in_bounds_iff (q : HttpQuery) (st : HttpChunked) (cb : Bytes) (size : Nat)
    (data stale : Bytes) :
    ((∀ st' rest, BlocksVisits q stale st data st' rest → SafeRound stale rest) ↔
      ∀ st' rest, BlocksVisits q stale st data st' rest → SizeLine stale rest) ∧
    ((∀ cb' room rest, ReadVisits stale cb size data cb' room rest → SafeRound stale rest) ↔
      ∀ cb' room rest, ReadVisits stale cb size data cb' room rest → SizeLine stale rest) := by
  simp only [safe_iff, and_self]

/-- `-3`, CRLF. -/
def negativeLine : Bytes := [45, 51, 13, 10]

/-- A chunk of 2^64 - 3 bytes is accepted in four received bytes, and a line with the letter `g`
begins an empty chunk. -/
theorem not_chunks_in_bounds :
    Accepts [] negativeLine 4 18446744073709551613 ∧ ¬ SafeRound [] negativeLine ∧
      Accepts [] [103, 13, 10, 13, 10] 3 0 ∧ ¬ SafeRound [] [103, 13, 10, 13, 10] := by
  have hneg : Accepts [] negativeLine 4 18446744073709551613 := by
    refine ⟨by decide, ?_, by decide⟩
    decide
  have hjunk : Accepts [] [103, 13, 10, 13, 10] 3 0 := ⟨by decide, by decide, by decide⟩
  refine ⟨hneg, fun h => ?_, hjunk, fun h => ?_⟩
  · have hle := h.bounds _ _ hneg
    exact absurd hle (by decide)
  · have hbad := h.refuses 1 (by decide) (by decide) (by decide)
    rw [hjunk.2.1] at hbad
    cases hbad

end Dframework
