import Mathlib
import Dframework.Lang.String
import Dframework.Library.Cells

/-!
# The memory of a `String`

A `String` owns a block of memory, knows how many bytes of text stand in it and how many
it can hold. Every operation that needs room goes through `___alloc`, which trusts
`m_iCapacity`. An access through `NULL` or outside the block has no result.

Results:
1. `StringRep.alloc_sound`: what `___alloc` leaves behind, and the text it stores unless an
   allocation fails.
2. `Sound.trim`, `Sound.replaceChar`, `Sound.shift`, `Sound.chuck`, `Sound.substring`:
   the operations that stay inside the block.
-/

namespace Dframework

open CLib Cells

structure StringRep where
  buffer : Option Bytes
  length : Nat
  capacity : Nat
  deriving DecidableEq, Repr

structure RepInv (st : StringRep) : Prop where
  length_le : st.length ≤ st.capacity
  buffer_holds : st.capacity ≠ 0 → ∃ b, st.buffer = some b ∧ st.capacity + 1 ≤ b.length
  ended : ∀ b, st.buffer = some b → b[st.length]? = some 0

namespace StringRep

/-- `String::___init`. -/
def init : StringRep := ⟨none, 0, 0⟩

def text (st : StringRep) : Bytes :=
  (st.buffer.getD []).take st.length

def toChars (st : StringRep) : Option Bytes :=
  if st.length = 0 then none else st.buffer

end StringRep

/-! ## Allocation -/

/-- The outcomes of the next calls of `malloc` and `realloc`. Behind the last one they
succeed. -/
abbrev Heap := List Bool

/-- `malloc`. No block has `2 ^ 63` bytes. The bytes it leaves open stand as NUL: none of
them is left when `___alloc` is done. -/
def malloc (size : Nat) (heap : Heap) : Option Bytes × Heap :=
  (if size < 2 ^ 63 ∧ heap.headD true then some (List.replicate size 0) else none, heap.tail)

def realloc (p : Option Bytes) (size : Nat) (heap : Heap) : Option Bytes × Heap :=
  (if size < 2 ^ 63 ∧ heap.headD true then some (resize (p.getD []) size 0) else none, heap.tail)

/-- What `___alloc` has before it copies: the fields it gives up with, or the pointer and
the capacity it goes on with. -/
inductive Room where
  | refused (st : StringRep)
  | granted (p : Option Bytes) (capacity : Nat)

namespace StringRep

/-- The first half of `String::___alloc`: room for `nlen` bytes. -/
def room (st : StringRep) (nlen curlen : Nat) (heap : Heap) : Option (Room × Heap) :=
  if st.capacity = 0 then
    match malloc (sizeAdd nlen 1) heap with
    | (none, heap) => some (.refused st, heap)
    | (some p, heap) => some (.granted (some p) nlen, heap)
  else if st.capacity < nlen then
    match realloc st.buffer (sizeAdd nlen 1) heap with
    | (some p, heap) => some (.granted (some p) nlen, heap)
    | (none, heap) =>
      match malloc (sizeAdd nlen 1) heap with
      | (none, heap) => do
        let buffer ← writePtr st.buffer 0 (List.replicate st.length 0)
        some (.refused { st with buffer, length := 0 }, heap)
      | (some np, heap) => do
        let cur ← readPtr st.buffer 0 curlen
        let p ← writePtr (some np) 0 cur
        some (.granted p nlen, heap)
  else if st.capacity - nlen ≠ 0 then do
    let p ← writePtr st.buffer nlen (List.replicate (st.capacity - nlen) 0)
    some (.granted p st.capacity, heap)
  else some (.granted st.buffer st.capacity, heap)

/-- `String::___alloc`. `str` stands for the bytes that `memcpy` finds at the pointer, also
when that points into the buffer of the string itself. -/
def alloc (st : StringRep) (str : Option Bytes) (len curlen : Nat) (heap : Heap) :
    Option (Bool × StringRep × Heap) :=
  let nlen := sizeAdd curlen len
  if nlen = 0 then
    if 0 < st.length then do
      let buffer ← writePtr st.buffer 0 (List.replicate st.length 0)
      some (true, { st with buffer, length := 0 }, heap)
    else some (true, st, heap)
  else do
    match ← st.room nlen curlen heap with
    | (.refused st, heap) => some (false, st, heap)
    | (.granted p capacity, heap) =>
      let src ← readPtr str 0 len
      let p ← writePtr p curlen src
      let p ← writePtr p nlen [0]
      some (true, ⟨p, nlen, capacity⟩, heap)

end StringRep

/-- The invariant the operations keep: besides `RepInv`, that a block is no larger than a
block can be. -/
structure Sound (st : StringRep) : Prop extends RepInv st where
  block_lt : ∀ b, st.buffer = some b → b.length < 2 ^ 63

namespace Sound

variable {st : StringRep}

theorem init : Sound StringRep.init :=
  ⟨⟨le_rfl, fun h => absurd rfl h, by rintro b ⟨⟩⟩, by rintro b ⟨⟩⟩

/-- A string with text has a buffer. -/
theorem exists_buffer (h : Sound st) (hc : st.capacity ≠ 0) :
    ∃ b, st.buffer = some b ∧ st.capacity + 1 ≤ b.length ∧ b.length < 2 ^ 63 := by
  obtain ⟨b, hb, hle⟩ := h.buffer_holds hc
  exact ⟨b, hb, hle, h.block_lt b hb⟩

theorem length_lt (h : Sound st) : st.length + 1 < 2 ^ 63 := by
  by_cases hc : st.capacity = 0
  · have := h.length_le
    omega
  · obtain ⟨b, hb, hle, hlt⟩ := h.exists_buffer hc
    have := h.length_le
    omega

end Sound

/-- `p` is a block for `capacity` bytes and a NUL. -/
structure Granted (p : Option Bytes) (capacity : Nat) (b : Bytes) : Prop where
  eq : p = some b
  capacity_le : capacity + 1 ≤ b.length
  block_lt : b.length < 2 ^ 63

namespace StringBufferLemmas

variable {st : StringRep} {nlen curlen : Nat} {heap : Heap}

/-- A string that gives up its text. -/
theorem cleared (h : Sound st) (hlen : 0 < st.length) :
    ∃ b, writePtr st.buffer 0 (List.replicate st.length 0) = some (some b) ∧
      Sound { st with buffer := some b, length := 0 } := by
  have hle := h.length_le
  obtain ⟨b, hb, hcap, hlt⟩ := h.exists_buffer (by omega)
  obtain ⟨b', hw, hp⟩ := writePtr_of_le (b := b) (i := 0) (List.replicate st.length 0)
    (by rw [List.length_replicate]; omega)
  have hblock := write_length hw
  have hfirst := getElem?_write_mem (j := 0) hw (by rwa [List.length_replicate])
  refine ⟨b', hb ▸ hp, ⟨⟨Nat.zero_le _, fun _ => ⟨b', rfl, ?_⟩, ?_⟩, ?_⟩⟩
  · show st.capacity + 1 ≤ b'.length
    omega
  · rintro _ ⟨⟩
    show b'[0]? = some 0
    rw [List.getElem?_replicate_of_lt hlen] at hfirst
    exact hfirst
  · rintro _ ⟨⟩
    omega

theorem malloc_cases (size : Nat) (heap : Heap) :
    malloc size heap = (none, heap.tail) ∨
      size < 2 ^ 63 ∧ malloc size heap = (some (List.replicate size 0), heap.tail) := by
  rw [malloc]
  split
  next h => exact .inr ⟨h.1, rfl⟩
  next => exact .inl rfl

theorem realloc_cases (p : Option Bytes) (size : Nat) (heap : Heap) :
    realloc p size heap = (none, heap.tail) ∨
      size < 2 ^ 63 ∧ realloc p size heap = (some (resize (p.getD []) size 0), heap.tail) := by
  rw [realloc]
  split
  next h => exact .inr ⟨h.1, rfl⟩
  next => exact .inl rfl

theorem take_text {b : Bytes} (hb : st.buffer = some b) (hcur : curlen ≤ st.length) :
    st.text.take curlen = b.take curlen := by
  rw [StringRep.text, hb, Option.getD_some, List.take_take, min_eq_left hcur]

/-- What the first half of `___alloc` may answer. The text up to `curlen` is kept. -/
inductive RoomOk (st : StringRep) (nlen curlen : Nat) : Option (Room × Heap) → Prop
  | refused {st' : StringRep} {heap : Heap} (h : Sound st') :
      RoomOk st nlen curlen (some (.refused st', heap))
  | granted {p : Option Bytes} {capacity : Nat} {heap : Heap} {b : Bytes}
      (hp : Granted p capacity b) (hle : nlen ≤ capacity)
      (hkeep : b.take curlen = st.text.take curlen) :
      RoomOk st nlen curlen (some (.granted p capacity, heap))

theorem room_ok (nlen : Nat) (heap : Heap) (h : Sound st) (hcur : curlen ≤ st.length) (hn : curlen ≤ nlen)
    (hlt : nlen + 1 < 2 ^ 64) : RoomOk st nlen curlen (st.room nlen curlen heap) := by
  have hle := h.length_le
  rw [StringRep.room, sizeAdd_of_lt hlt]
  split
  next hc =>
    have hzero : curlen = 0 := by omega
    rcases malloc_cases (nlen + 1) heap with hm | ⟨hsize, hm⟩
    · rw [hm]
      exact .refused h
    · rw [hm]
      refine .granted ⟨rfl, ?_, ?_⟩ le_rfl ?_
      · rw [List.length_replicate]
      · rwa [List.length_replicate]
      · rw [hzero, List.take_zero, List.take_zero]
  next hc =>
    obtain ⟨b, hb, hcap, hblock⟩ := h.exists_buffer hc
    split
    next hmore =>
      rcases realloc_cases st.buffer (nlen + 1) heap with hr | ⟨hsize, hr⟩
      · rcases malloc_cases (nlen + 1) heap.tail with hm | ⟨hsize, hm⟩
        · -- neither gives memory: the text is given up
          simp only [hr, hm]
          rcases Nat.eq_zero_or_pos st.length with h0 | hpos
          · rw [h0, List.replicate_zero, writePtr, if_pos rfl]
            refine .refused (show Sound { st with length := 0 } from ?_)
            rwa [← h0]
          · obtain ⟨b', hw, hs⟩ := cleared h hpos
            rw [hw]
            exact .refused hs
        · simp only [hr, hm]
          rw [hb, readPtr_of_le (by omega), List.drop_zero]
          obtain ⟨np, hw, hp⟩ := writePtr_of_le (b := List.replicate (nlen + 1) (0 : UInt8)) (i := 0)
            (b.take curlen) (by rw [List.length_replicate, List.length_take]; omega)
          simp only [Option.bind_eq_bind, Option.bind_some, hp]
          have hlen := write_length hw
          rw [List.length_replicate] at hlen
          refine .granted ⟨rfl, hlen.ge, by omega⟩ le_rfl ?_
          have htake := take_write hw
          rw [Nat.zero_add, List.length_take, min_eq_left (by omega), List.take_zero,
            List.nil_append] at htake
          rw [htake, take_text hb hcur]
      · rw [hr, hb]
        have hlen := resize_length b (nlen + 1) (0 : UInt8)
        refine .granted ⟨rfl, hlen.ge, ?_⟩ le_rfl ?_
        · rwa [Option.getD_some, hlen]
        rw [Option.getD_some, take_resize 0 (by omega) (by omega), take_text hb hcur]
    next hfit =>
      split
      next hrest =>
        obtain ⟨b', hw, hp⟩ := writePtr_of_le (b := b) (i := nlen)
          (List.replicate (st.capacity - nlen) 0) (by rw [List.length_replicate]; omega)
        have hlen := write_length hw
        rw [hb, hp]
        refine .granted ⟨rfl, by omega, by omega⟩ (by omega) ?_
        rw [take_write_of_le hw hn, take_text hb hcur]
      next => exact .granted ⟨hb, hcap, hblock⟩ (by omega) (take_text hb hcur).symm

/-- The second half of `___alloc`. -/
theorem copied {p : Option Bytes} {capacity len : Nat} {b src : Bytes} (hp : Granted p capacity b)
    (hsrc : src.length = len) (hle : curlen + len ≤ capacity) :
    ∃ p₁ b', writePtr p curlen src = some p₁ ∧ writePtr p₁ (curlen + len) [0] = some (some b') ∧
      Sound ⟨some b', curlen + len, capacity⟩ ∧ b'.take (curlen + len) = b.take curlen ++ src := by
  obtain ⟨rfl, hcap, hblock⟩ := hp
  obtain ⟨b₁, hw₁, hp₁⟩ := writePtr_of_le (b := b) (i := curlen) src (by omega)
  have hlen₁ := write_length hw₁
  obtain ⟨b₂, hw₂, hp₂⟩ := writePtr_of_le (b := b₁) (i := curlen + len) [0]
    (by rw [List.length_singleton]; omega)
  have hlen₂ := write_length hw₂
  refine ⟨some b₁, b₂, hp₁, hp₂, ⟨⟨hle, fun _ => ⟨b₂, rfl, ?_⟩, ?_⟩, ?_⟩, ?_⟩
  · show capacity + 1 ≤ b₂.length
    omega
  · rintro _ ⟨⟩
    exact getElem?_write_mem (j := 0) hw₂ Nat.one_pos
  · rintro _ ⟨⟩
    omega
  · rw [take_write_of_le hw₂ le_rfl, ← hsrc, take_write hw₁]

end StringBufferLemmas

open StringBufferLemmas

/-- A pointer given with a length: that many bytes can be read there. -/
def Readable (str : Option Bytes) (len : Nat) : Prop :=
  len < 2 ^ 63 ∧ (len = 0 ∨ ∃ m, str = some m ∧ len ≤ m.length)

instance (str : Option Bytes) (len : Nat) : Decidable (Readable str len) :=
  match str with
  | none => decidable_of_iff (len < 2 ^ 63 ∧ len = 0) (by simp [Readable])
  | some m => decidable_of_iff (len < 2 ^ 63 ∧ (len = 0 ∨ len ≤ m.length)) (by simp [Readable])

/-- `___alloc` keeps the invariant, and stores its bytes behind the text it keeps unless an
allocation fails. -/
theorem StringRep.alloc_sound {st : StringRep} {str : Option Bytes} {len curlen : Nat} (heap : Heap)
    (h : Sound st) (hcur : curlen ≤ st.length) (hstr : Readable str len) :
    ∃ ok st' heap', st.alloc str len curlen heap = some (ok, st', heap') ∧ Sound st' ∧
      (ok = true → st'.text = st.text.take curlen ++ (str.getD []).take len) := by
  have hlength := h.length_lt
  have hsum : sizeAdd curlen len = curlen + len := sizeAdd_of_lt (by have := hstr.1; omega)
  simp only [StringRep.alloc, hsum]
  split
  next h0 =>
    obtain ⟨rfl, rfl⟩ : curlen = 0 ∧ len = 0 := by omega
    split
    next hpos =>
      obtain ⟨b, hw, hs⟩ := cleared h hpos
      refine ⟨true, _, heap, by rw [hw]; rfl, hs, fun _ => ?_⟩
      simp [StringRep.text]
    next hnone =>
      refine ⟨true, st, heap, rfl, h, fun _ => ?_⟩
      have hzero : st.length = 0 := by omega
      simp [StringRep.text, hzero]
  next h0 =>
    have hroom := room_ok (curlen + len) heap h hcur (by omega)
      (by have := hstr.1; omega)
    obtain ⟨src, hsrc, hread, htake⟩ : ∃ src : Bytes, src.length = len ∧
        readPtr str 0 len = some src ∧ (str.getD []).take len = src := by
      rcases hstr.2 with rfl | ⟨m, rfl, hm⟩
      · exact ⟨[], rfl, rfl, List.take_zero⟩
      · refine ⟨m.take len, by rw [List.length_take]; omega, ?_, rfl⟩
        rw [readPtr_of_le (by omega), List.drop_zero]
    generalize st.room (curlen + len) curlen heap = r at hroom ⊢
    cases hroom with
    | refused hs => exact ⟨false, _, _, rfl, hs, by simp⟩
    | @granted p capacity heap' b hp hle hkeep =>
      obtain ⟨p₁, b', hw₁, hw₂, hs, htext⟩ := copied hp hsrc hle
      refine ⟨true, ⟨some b', curlen + len, capacity⟩, heap', ?_, hs, fun _ => ?_⟩
      · simp only [Option.bind_eq_bind, Option.bind_some, hread, hw₁, hw₂]
      · rw [htake, ← hkeep, ← htext]
        rfl

/-! ## The public operations -/

namespace StringRep

def strlen (str : Option Bytes) : Nat :=
  match str with
  | none => 0
  | some m => (cstr m).length

/-- `String::set`; without a length it takes the text up to the NUL. -/
def set (st : StringRep) (str : Option Bytes) (heap : Heap) : Option (Bool × StringRep × Heap) :=
  st.alloc str (strlen str) 0 heap

def setLen (st : StringRep) (str : Option Bytes) (len : Nat) (heap : Heap) :
    Option (Bool × StringRep × Heap) :=
  st.alloc str len 0 heap

/-- `String::append` of a pointer, with a length or without. -/
def append (st : StringRep) (str : Option Bytes) (heap : Heap) : Option (Bool × StringRep × Heap) :=
  st.alloc str (strlen str) st.length heap

def appendLen (st : StringRep) (str : Option Bytes) (len : Nat) (heap : Heap) :
    Option (Bool × StringRep × Heap) :=
  st.alloc str len st.length heap

/-- `String::append` of a `String`, which is given by its text. -/
def appendString (st : StringRep) (str : Bytes) (heap : Heap) : Option (Bool × StringRep × Heap) :=
  st.alloc (Dframework.toChars str) str.length st.length heap

def appendStringLen (st : StringRep) (str : Bytes) (len : Nat) (heap : Heap) :
    Option (Bool × StringRep × Heap) :=
  st.alloc (Dframework.toChars str) (if str.length < len then str.length else len) st.length heap

def trim (st : StringRep) : Option StringRep :=
  if st.length = 0 then some st
  else do
    let m ← readPtr st.buffer 0 st.length
    let i := (m.takeWhile isBlank).length
    let rest := (m.drop i).reverse.dropWhile isBlank
    let j := i + rest.length
    let moved ← readPtr st.buffer i (j - i)
    let buffer ← writePtr st.buffer 0 moved
    let buffer ← writePtr buffer (j - i) [0]
    some { st with buffer, length := j - i }

def replaceChar (st : StringRep) (a b : UInt8) : Option StringRep := do
  let m ← readPtr st.buffer 0 st.length
  let buffer ← writePtr st.buffer 0 (m.map fun c => if a = c then b else c)
  some { st with buffer }

def shift (st : StringRep) (offset : Nat) : Option StringRep :=
  if offset = 0 then some st
  else
    let offset := if st.length < offset then st.length else offset
    if st.length = offset then do
      let buffer ← if st.length ≠ 0 then writePtr st.buffer 0 [0] else some st.buffer
      some { st with buffer, length := 0 }
    else do
      let moved ← readPtr st.buffer offset (st.length - offset + 1)
      let buffer ← writePtr st.buffer 0 moved
      let buffer ← writePtr buffer (st.length - offset) [0]
      some { st with buffer, length := st.length - offset }

def chuck (st : StringRep) (offset : Nat) : Option StringRep :=
  if st.length < offset then some st
  else do
    let buffer ← writePtr st.buffer offset [0]
    some { st with buffer, length := offset }

/-- `String::substring` with a length. The capacity stays when the buffer is freed. -/
def substringLen (st : StringRep) (start length : Nat) : Option StringRep :=
  if st.length ≤ start then some { st with buffer := none, length := 0 }
  else do
    let length := if st.length < sizeAdd length start then st.length - start else length
    let moved ← readPtr st.buffer start length
    let buffer ← writePtr st.buffer 0 moved
    let buffer ← writePtr buffer length [0]
    some { st with buffer, length }

def substring (st : StringRep) (start : Nat) : Option StringRep :=
  st.substringLen start (sizeSub st.length start)

end StringRep

namespace StringBufferLemmas

variable {st : StringRep}

/-- What `trim`, `shift` and `substring` do: a part of the text moves to the front and is
ended there. -/
theorem moved_front {i n k : Nat} (h : Sound st) (hpos : 0 < st.length) (hi : i + k ≤ st.length + 1)
    (hn : n ≤ k) (hlen : n ≤ st.length) :
    ∃ m b, readPtr st.buffer i k = some m ∧
      (∃ p, writePtr st.buffer 0 m = some p ∧ writePtr p n [0] = some (some b)) ∧
      Sound { st with buffer := some b, length := n } ∧
      (i + n ≤ st.length → b.take n = (st.text.drop i).take n) := by
  have hle := h.length_le
  obtain ⟨b, hb, hcap, hlt⟩ := h.exists_buffer (by omega)
  have hread : readPtr st.buffer i k = some ((b.drop i).take k) := by
    rw [hb, readPtr_of_le (by omega)]
  have hmlen : ((b.drop i).take k).length = k := by
    rw [List.length_take, List.length_drop]
    omega
  obtain ⟨b₁, hw₁, hp₁⟩ := writePtr_of_le (b := b) (i := 0) ((b.drop i).take k) (by omega)
  have hlen₁ := write_length hw₁
  obtain ⟨b₂, hw₂, hp₂⟩ := writePtr_of_le (b := b₁) (i := n) [0]
    (by rw [List.length_singleton]; omega)
  have hlen₂ := write_length hw₂
  refine ⟨_, b₂, hread, ⟨some b₁, by rw [hb, hp₁], hp₂⟩, ⟨⟨by simp only; omega, fun _ => ⟨b₂, rfl, ?_⟩,
    ?_⟩, ?_⟩, fun hin => ?_⟩
  · show st.capacity + 1 ≤ b₂.length
    omega
  · rintro _ ⟨⟩
    exact getElem?_write_mem (j := 0) hw₂ Nat.one_pos
  · rintro _ ⟨⟩
    omega
  · have htake := take_write hw₁
    rw [Nat.zero_add, hmlen, List.take_zero, List.nil_append] at htake
    rw [take_write_of_le hw₂ le_rfl, ← min_eq_left hn, ← List.take_take, htake, List.take_take,
      min_eq_left hn, StringRep.text, hb, Option.getD_some, List.drop_take, List.take_take,
      min_eq_left (by omega)]

theorem text_of_length {st : StringRep} (h : st.length = 0) : st.text = [] := by
  rw [StringRep.text, h, List.take_zero]

theorem text_length (h : Sound st) : st.text.length = st.length := by
  by_cases hc : st.capacity = 0
  · have := h.length_le
    rw [text_of_length (by omega), List.length_nil]
    omega
  · obtain ⟨b, hb, hcap, -⟩ := h.exists_buffer hc
    have := h.length_le
    rw [StringRep.text, hb, Option.getD_some, List.length_take]
    omega

end StringBufferLemmas

namespace Sound

variable {st : StringRep}

theorem read_text (h : Sound st) : readPtr st.buffer 0 st.length = some st.text := by
  have hle := h.length_le
  rcases Nat.eq_zero_or_pos st.length with h0 | hpos
  · rw [text_of_length h0, h0]
    rfl
  · obtain ⟨b, hb, hcap, -⟩ := h.exists_buffer (by omega)
    rw [StringRep.text, hb, readPtr_of_le (by omega), List.drop_zero, Option.getD_some]

theorem trim (h : Sound st) :
    ∃ st', st.trim = some st' ∧ Sound st' ∧ st'.text = Dframework.trim st.text := by
  rw [StringRep.trim]
  split
  next h0 =>
    refine ⟨st, rfl, h, ?_⟩
    rw [text_of_length h0]
    rfl
  next hpos =>
    have hlen := text_length h
    set i := (st.text.takeWhile isBlank).length with hi
    set rest := (st.text.drop i).reverse.dropWhile isBlank with hrest
    have hsuffix : rest.length ≤ (st.text.drop i).length := by
      rw [← (List.length_reverse : (st.text.drop i).reverse.length = _)]
      exact (List.dropWhile_suffix _).length_le
    rw [List.length_drop] at hsuffix
    have hile : i ≤ st.text.length := (List.takeWhile_prefix _).length_le
    obtain ⟨m, b, hread, ⟨p, hw₁, hw₂⟩, hs, htext⟩ := moved_front (i := i) (n := rest.length)
      (k := rest.length) h (Nat.pos_of_ne_zero hpos) (by omega) le_rfl (by omega)
    refine ⟨_, ?_, hs, ?_⟩
    · simp only [h.read_text, Option.bind_eq_bind, Option.bind_some, ← hi, ← hrest,
        Nat.add_sub_cancel_left, hread, hw₁, hw₂]
    · -- what is left of the text is the reverse of `rest`
      have hsplit : st.text.takeWhile isBlank ++ st.text.dropWhile isBlank = st.text :=
        List.takeWhile_append_dropWhile
      have hdrop : st.text.drop i = st.text.dropWhile isBlank := by
        conv_lhs => rw [← hsplit]
        exact List.drop_left
      have hfront : rest.reverse <+: st.text.drop i := by
        have := List.reverse_prefix.mpr (List.dropWhile_suffix (l := (st.text.drop i).reverse) isBlank)
        rwa [List.reverse_reverse] at this
      show b.take rest.length = _
      rw [htext (by omega), Dframework.trim, ← hdrop, ← hrest, ← (List.length_reverse : rest.reverse.length = _)]
      exact (List.prefix_iff_eq_take.mp hfront).symm

theorem replaceChar (h : Sound st) (a b : UInt8) :
    ∃ st', st.replaceChar a b = some st' ∧ Sound st' ∧
      st'.text = st.text.map fun c => if a = c then b else c := by
  have hle := h.length_le
  rw [StringRep.replaceChar]
  simp only [h.read_text, Option.bind_eq_bind, Option.bind_some]
  rcases Nat.eq_zero_or_pos st.length with h0 | hpos
  · rw [text_of_length h0, List.map_nil, writePtr, if_pos rfl]
    exact ⟨st, rfl, h, text_of_length h0⟩
  · obtain ⟨m, hm, hcap, hlt⟩ := h.exists_buffer (by omega)
    set xs := st.text.map fun c => if a = c then b else c with hxs
    have hlen : xs.length = st.length := by rw [hxs, List.length_map, text_length h]
    obtain ⟨m', hw, hp⟩ := writePtr_of_le (b := m) (i := 0) xs (by omega)
    have hmlen := write_length hw
    rw [hm, hp]
    refine ⟨_, rfl, ⟨⟨hle, fun _ => ⟨m', rfl, ?_⟩, ?_⟩, ?_⟩, ?_⟩
    · show st.capacity + 1 ≤ m'.length
      omega
    · rintro _ ⟨⟩
      show m'[st.length]? = some 0
      rw [getElem?_write_ge hw (by omega)]
      exact h.ended m hm
    · rintro _ ⟨⟩
      omega
    · show m'.take st.length = xs
      have htake := take_write hw
      rwa [Nat.zero_add, hlen, List.take_zero, List.nil_append] at htake

theorem shift (h : Sound st) (offset : Nat) :
    ∃ st', st.shift offset = some st' ∧ Sound st' ∧ st'.text = st.text.drop offset := by
  have hlen := text_length h
  have hle := h.length_le
  rw [StringRep.shift]
  split
  next h0 => exact ⟨st, rfl, h, by rw [h0, List.drop_zero]⟩
  next h0 =>
    rcases Nat.lt_or_ge offset st.length with hlt | hge
    · simp only [if_neg (not_lt.mpr hlt.le), if_neg hlt.ne']
      obtain ⟨m, b, hread, ⟨p, hw₁, hw₂⟩, hs, htext⟩ := moved_front (i := offset)
        (n := st.length - offset) (k := st.length - offset + 1) h (by omega) (by omega) (by omega)
        (by omega)
      refine ⟨_, ?_, hs, ?_⟩
      · simp only [hread, hw₁, hw₂, Option.bind_eq_bind, Option.bind_some]
      · show b.take (st.length - offset) = _
        rw [htext (by omega), List.take_of_length_le]
        rw [List.length_drop]
        omega
    · have hall : (if st.length < offset then st.length else offset) = st.length := by
        split <;> omega
      have htext : st.text.drop offset = [] := List.drop_eq_nil_of_le (by omega)
      simp only [hall, if_true, htext]
      rcases Nat.eq_zero_or_pos st.length with hzero | hpos
      · refine ⟨st, ?_, h, text_of_length hzero⟩
        rw [if_neg (not_not.mpr hzero), Option.bind_eq_bind, Option.bind_some, ← hzero]
      · obtain ⟨b, hb, hcap, hlt⟩ := h.exists_buffer (by omega)
        obtain ⟨b', hw, hp⟩ := writePtr_of_le (b := b) (i := 0) [0]
          (by rw [List.length_singleton]; omega)
        have hblen := write_length hw
        refine ⟨_, by rw [if_pos hpos.ne', hb, hp]; rfl, ⟨⟨Nat.zero_le _, fun _ => ⟨b', rfl, ?_⟩,
          ?_⟩, ?_⟩, text_of_length rfl⟩
        · show st.capacity + 1 ≤ b'.length
          omega
        · rintro _ ⟨⟩
          exact getElem?_write_mem (j := 0) hw Nat.one_pos
        · rintro _ ⟨⟩
          omega

/-- `chuck` writes a NUL: the string has to have a buffer, unless `offset` is too large. -/
theorem chuck (h : Sound st) {offset : Nat} (hbuf : st.buffer ≠ none ∨ 0 < offset) :
    ∃ st', st.chuck offset = some st' ∧ Sound st' ∧ st'.text = st.text.take offset := by
  have hlen := text_length h
  have hle := h.length_le
  rw [StringRep.chuck]
  split
  next hgt => exact ⟨st, rfl, h, by rw [List.take_of_length_le (by omega)]⟩
  next hin =>
    obtain ⟨b, hb⟩ : ∃ b, st.buffer = some b := by
      rcases hbuf with hne | hpos
      · exact Option.ne_none_iff_exists'.mp hne
      · obtain ⟨b, hb, -⟩ := h.exists_buffer (by omega)
        exact ⟨b, hb⟩
    have hlast := List.getElem?_eq_some_iff.mp (h.ended b hb)
    obtain ⟨b', hw, hp⟩ := writePtr_of_le (b := b) (i := offset) [0]
      (by rw [List.length_singleton]; have := hlast.1; omega)
    have hblen := write_length hw
    refine ⟨{ st with buffer := some b', length := offset }, by rw [hb, hp]; rfl,
      ⟨⟨?_, fun hc => ⟨b', rfl, ?_⟩, ?_⟩, ?_⟩, ?_⟩
    · show offset ≤ st.capacity
      omega
    · obtain ⟨b₀, hb₀, hcap⟩ := h.buffer_holds hc
      obtain rfl := Option.some.inj (hb.symm.trans hb₀)
      show st.capacity + 1 ≤ b'.length
      omega
    · rintro _ ⟨⟩
      exact getElem?_write_mem (j := 0) hw Nat.one_pos
    · rintro _ ⟨⟩
      have := h.block_lt b hb
      omega
    · show b'.take offset = st.text.take offset
      rw [take_write_of_le hw le_rfl, take_text hb (by omega)]

/-- `substring` keeps the invariant when it starts inside the text and its end is a number. -/
theorem substringLen (h : Sound st) {start length : Nat}
    (hin : st.buffer = none ∨ start < st.length ∧ length + start < 2 ^ 64) :
    ∃ st', st.substringLen start length = some st' ∧ Sound st' ∧
      st'.text = (st.text.drop start).take length := by
  have hlen := text_length h
  have hle := h.length_le
  rw [StringRep.substringLen]
  split
  next hout =>
    rcases hin with hnone | hin
    · have hzero : st.length = 0 := by
        by_contra hne
        obtain ⟨b, hb, -⟩ := h.exists_buffer (by omega)
        rw [hnone] at hb
        cases hb
      refine ⟨st, ?_, h, ?_⟩
      · rw [← hnone, ← hzero]
      · rw [text_of_length hzero, List.drop_nil, List.take_nil]
    · omega
  next hstart =>
    obtain ⟨-, hnum⟩ : start < st.length ∧ length + start < 2 ^ 64 := by
      rcases hin with hnone | hin
      · obtain ⟨b, hb, -⟩ := h.exists_buffer (by omega)
        rw [hnone] at hb
        cases hb
      · exact hin
    rw [sizeAdd_of_lt hnum]
    set n := if st.length < length + start then st.length - start else length with hn
    have hnle : start + n ≤ st.length := by
      rw [hn]
      split <;> omega
    obtain ⟨m, b, hread, ⟨p, hw₁, hw₂⟩, hs, htext⟩ := moved_front (i := start) (n := n) (k := n) h
      (by omega) (by omega) le_rfl (by omega)
    refine ⟨_, ?_, hs, ?_⟩
    · simp only [hread, hw₁, hw₂, Option.bind_eq_bind, Option.bind_some]
    · show b.take n = _
      rw [htext hnle, hn]
      split
      next hlong =>
        rw [List.take_of_length_le (by rw [List.length_drop]; omega),
          List.take_of_length_le (by rw [List.length_drop]; omega)]
      next => rfl

end Sound

end Dframework
