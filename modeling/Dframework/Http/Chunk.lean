import Mathlib
import Dframework.Library.CLib

/-!
# Chunks of a chunked body

Both readers of a chunked body (`parseChunkedBlocks`, `parseChunkedRead`) look
at the head of a chunk in the same way: they search CRLF in the memory at `buf`,
which goes on behind the bytes that were received, and read the size with
`strtol`. This is `chunkHead`. `Body` is a well-formed body as a server writes
it, and the lemmas say what `chunkHead` answers on one:

1. `chunkHead_line`, `chunkHead_zeros`: on a head that has arrived, the chunk or
   the end, if the size line has at most four digits.
2. `chunkHead_partial`: on a head that has not, no chunk that fits into what was
   received. What else it answers depends on the bytes behind.
-/

namespace Dframework

open CLib

/-! ## The head of a chunk -/

/-- What the loop body of both parsers finds at `buf`. -/
inductive ChunkHead where
  /-- there is no CRLF: `goto END` -/
  | more
  /-- the size is zero: `DFW_T_CHUNKED_END` -/
  | last
  /-- the size line is too long: `DFW_E_HTTP_CHUNKED` -/
  | bad
  /-- `len` bytes of size line, CRLF included, and the size -/
  | chunk (len val : Nat)
  deriving DecidableEq, Repr

/-- The head of the chunk at `buf`, from the memory that starts there. -/
def chunkHead (buf : Bytes) : ChunkHead :=
  match strstr buf CRLF with
  | none => .more
  | some pnt =>
    let val := toSizeT (strtol 16 buf)
    if val = 0 ∧ buf.head? = some 48 then .last
    else if pnt + 2 > 6 then .bad
    else .chunk (pnt + 2) val

/-- `savelen`, the length of the whole chunk, as a `size_t`. -/
def savelen (len val : Nat) : Nat :=
  (len + val + 2) % 2 ^ 64

/-! ## Well-formed bodies -/

/-- A chunk of `1..0xFFFF` payload bytes with its hexadecimal size line. -/
structure Chunk where
  line : Bytes
  payload : Bytes
  line_ne_nil : line ≠ []
  line_hex : ∀ c ∈ line, isxdigit c
  line_val : digitsVal 16 line = payload.length
  payload_pos : 0 < payload.length
  payload_le : payload.length ≤ 0xFFFF

def Chunk.enc (c : Chunk) : Bytes :=
  c.line ++ CRLF ++ c.payload ++ CRLF

def encChunks (cs : List Chunk) : Bytes :=
  cs.flatMap Chunk.enc

def payloads (cs : List Chunk) : Bytes :=
  cs.flatMap Chunk.payload

/-- The zero-size chunk, its size written with `zeros` digits. -/
def encLast (zeros : Nat) : Bytes :=
  List.replicate zeros 48 ++ CRLF ++ CRLF

/-- A well-formed chunked body: any chunks, closed by a zero-size chunk. -/
structure Body where
  chunks : List Chunk
  zeros : Nat
  zeros_pos : 0 < zeros

def Body.enc (b : Body) : Bytes :=
  encChunks b.chunks ++ encLast b.zeros

def Body.payload (b : Body) : Bytes :=
  payloads b.chunks

@[simp] theorem encChunks_nil : encChunks [] = [] := rfl

@[simp] theorem encChunks_cons (c : Chunk) (cs : List Chunk) :
    encChunks (c :: cs) = c.enc ++ encChunks cs := rfl

@[simp] theorem payloads_nil : payloads [] = [] := rfl

@[simp] theorem payloads_cons (c : Chunk) (cs : List Chunk) :
    payloads (c :: cs) = c.payload ++ payloads cs := rfl

theorem encChunks_append (cs ds : List Chunk) :
    encChunks (cs ++ ds) = encChunks cs ++ encChunks ds :=
  List.flatMap_append

theorem payloads_append (cs ds : List Chunk) : payloads (cs ++ ds) = payloads cs ++ payloads ds :=
  List.flatMap_append

theorem Chunk.enc_length (c : Chunk) : c.enc.length = c.line.length + 2 + c.payload.length + 2 := by
  simp [Chunk.enc, CRLF]
  omega

theorem Chunk.payload_ne_nil (c : Chunk) : c.payload ≠ [] :=
  List.ne_nil_of_length_pos c.payload_pos

theorem Chunk.enc_append_ne_nil (c : Chunk) (t : Bytes) : c.enc ++ t ≠ [] :=
  List.ne_nil_of_length_pos (by rw [List.length_append, c.enc_length]; omega)

theorem encLast_length (zeros : Nat) : (encLast zeros).length = zeros + 4 := by
  simp [encLast, CRLF]

theorem payloads_eq_nil_iff {cs : List Chunk} : payloads cs = [] ↔ cs = [] := by
  cases cs with
  | nil => simp
  | cons c cs => simp [c.payload_ne_nil]

/-! ## The head of a chunk of a well-formed body -/

namespace ChunkLemmas

variable {line : Bytes}

theorem hex_not_mem (hx : ∀ c ∈ line, isxdigit c) : (0 : UInt8) ∉ line ∧ (13 : UInt8) ∉ line :=
  ⟨fun h => (isxdigit_ne (hx 0 h)).1 rfl, fun h => (isxdigit_ne (hx 13 h)).2.1 rfl⟩

theorem zeros_hex (zeros : Nat) : ∀ c ∈ List.replicate zeros (48 : UInt8), isxdigit c := by
  intro c hc
  rw [List.eq_of_mem_replicate hc]
  decide

theorem strstr_line (hx : ∀ c ∈ line, isxdigit c) (t : Bytes) :
    strstr (line ++ CRLF ++ t) CRLF = some line.length :=
  strstr_crlf_line (hex_not_mem hx).1 (find_crlf_of_not_mem (hex_not_mem hx).2) t

/-- The number at a hexadecimal digit is not negative. -/
theorem strtol_lt {c : UInt8} (hc : isxdigit c) (m : Bytes) :
    toSizeT (strtol 16 (c :: m)) < 2 ^ 63 := by
  obtain ⟨-, -, -, hplus, hminus, -, -, hspace⟩ := isxdigit_ne hc
  have hskip : (c :: m).dropWhile isspace = c :: m := by simp [hspace]
  have hsign : (strtolSign (c :: m)).1 = false := by
    unfold strtolSign
    split
    next heq => exact absurd (List.cons.inj heq).1 hminus
    next => rfl
    next => rfl
  simp only [strtol, hskip, hsign, Bool.false_eq_true, ↓reduceIte, toSizeT]
  omega

/-- As long as the CRLF behind the size line is not complete, none is found in
what was received. -/
theorem strstr_partial {held stale : Bytes} {pnt : Nat} (hx : ∀ c ∈ line, isxdigit c)
    (hheld : held <+: line ++ CRLF) (hlen : held.length < line.length + 2)
    (h : strstr (held ++ stale) CRLF = some pnt) : held.length < pnt + 2 := by
  by_contra hge
  have hin : strstr held CRLF = some pnt := strstr_of_append h (by simpa [CRLF] using hge)
  obtain ⟨u, hu⟩ := hheld
  have hline : strstr (line ++ CRLF) CRLF = some pnt := hu ▸ strstr_append hin u
  rw [← List.append_nil (line ++ CRLF), strstr_line hx] at hline
  simp only [Option.some.injEq] at hline
  omega

end ChunkLemmas

open ChunkLemmas

theorem chunkHead_eq_chunk {buf : Bytes} {len val : Nat} (h : chunkHead buf = .chunk len val) :
    ∃ pnt, strstr buf CRLF = some pnt ∧ len = pnt + 2 ∧ len ≤ 6 ∧
      val = toSizeT (strtol 16 buf) := by
  unfold chunkHead at h
  split at h
  next => cases h
  next pnt hp =>
    simp only at h
    split at h
    next => cases h
    next =>
      split at h
      next => cases h
      next hle =>
        simp only [ChunkHead.chunk.injEq] at h
        exact ⟨pnt, hp, h.1.symm, by omega, h.2.symm⟩

/-- The head of a chunk, once its size line has arrived. -/
theorem chunkHead_line (c : Chunk) (t : Bytes) :
    chunkHead (c.line ++ CRLF ++ t) =
      if c.line.length ≤ 4 then .chunk (c.line.length + 2) c.payload.length else .bad := by
  have hval : strtol 16 (c.line ++ CRLF ++ t) = c.payload.length := by
    have hle := c.payload_le
    rw [List.append_assoc, CRLF, List.cons_append,
      strtol_digits c.line_ne_nil c.line_hex (by rw [c.line_val]; omega), c.line_val]
  have hsize : toSizeT (c.payload.length : Int) = c.payload.length :=
    toSizeT_natCast (by have := c.payload_le; omega)
  have hpos := c.payload_pos
  simp only [chunkHead, strstr_line c.line_hex, hval, hsize]
  rw [if_neg (by omega)]
  split <;> split <;> first | rfl | omega

/-- The head of a chunk that stands at the front. -/
theorem chunkHead_enc (c : Chunk) (t : Bytes) : chunkHead (c.enc ++ t) =
    if c.line.length ≤ 4 then .chunk (c.line.length + 2) c.payload.length else .bad := by
  have h := chunkHead_line c (c.payload ++ CRLF ++ t)
  simpa [Chunk.enc] using h

/-- `savelen` of a chunk with a short size line is its length. -/
theorem savelen_enc {c : Chunk} (h : c.line.length ≤ 4) :
    savelen (c.line.length + 2) c.payload.length = c.enc.length := by
  have hle := c.payload_le
  rw [savelen, c.enc_length, Nat.mod_eq_of_lt (by omega)]

/-- Behind the size line of a chunk stands its payload. -/
theorem Chunk.enc_drop (c : Chunk) (t : Bytes) :
    (c.enc ++ t).drop (c.line.length + 2) = c.payload ++ (CRLF ++ t) := by
  have h : c.enc ++ t = (c.line ++ CRLF) ++ (c.payload ++ (CRLF ++ t)) := by simp [Chunk.enc]
  rw [h, List.drop_left' (by simp [CRLF])]

/-- The head of the zero-size chunk, once its size line has arrived. -/
theorem chunkHead_zeros {zeros : Nat} (hz : 0 < zeros) (t : Bytes) :
    chunkHead (List.replicate zeros 48 ++ CRLF ++ t) = .last := by
  have hne : List.replicate zeros (48 : UInt8) ≠ [] := by simpa using hz.ne'
  have hdig : digitsVal 16 (List.replicate zeros (48 : UInt8)) = 0 := by
    simpa [digitsVal] using digitsVal_append_zero 16 zeros []
  have hval : strtol 16 (List.replicate zeros 48 ++ CRLF ++ t) = (0 : Nat) := by
    rw [List.append_assoc, CRLF, List.cons_append,
      strtol_digits hne (zeros_hex zeros) (by rw [hdig]; decide), hdig]
  obtain ⟨k, rfl⟩ : ∃ k, zeros = k + 1 := ⟨zeros - 1, by omega⟩
  simp only [chunkHead, strstr_line (zeros_hex _), hval, toSizeT_natCast (Nat.zero_lt_succ _)]
  rw [if_pos ⟨trivial, by simp [List.replicate_succ]⟩]

/-- A size line that has not arrived completely never makes a chunk that fits
into what was received, whatever stands behind it. -/
theorem chunkHead_partial {line held stale : Bytes} {len val : Nat} (hl : line ≠ [])
    (hx : ∀ c ∈ line, isxdigit c) (hne : held ≠ []) (hheld : held <+: line ++ CRLF)
    (hlen : held.length < line.length + 2)
    (h : chunkHead (held ++ stale) = .chunk len val) : held.length < savelen len val := by
  obtain ⟨pnt, hp, rfl, hle, rfl⟩ := chunkHead_eq_chunk h
  have hpnt := strstr_partial hx hheld hlen hp
  have hval : toSizeT (strtol 16 (held ++ stale)) < 2 ^ 63 := by
    match held, line, hne, hl with
    | c :: held, d :: line, _, _ =>
      obtain ⟨rfl, -⟩ := List.cons_prefix_cons.mp hheld
      exact strtol_lt (hx c (by simp)) _
  rw [savelen, Nat.mod_eq_of_lt (by omega)]
  omega

end Dframework
