import Mathlib
import Dframework.Lang.String

/-!
# `Base64`

Three bytes make four characters of six bits each. Encoder and decoder compute the size of
what they write before they write it, by formulas of their own.

Results:
1. `Base64.decodeBinary_spec`: the decoder writes as many bytes as it answers, less than it
   has allocated.
2. `Base64.decode_encode`: what is encoded is decoded again.
-/

namespace Dframework

open CLib

namespace Base64

def pr2sixTable : List UInt8 := [
  64, 64, 64, 64, 64, 64, 64, 64, 64, 64, 64, 64, 64, 64, 64, 64,
  64, 64, 64, 64, 64, 64, 64, 64, 64, 64, 64, 64, 64, 64, 64, 64,
  64, 64, 64, 64, 64, 64, 64, 64, 64, 64, 64, 62, 64, 64, 64, 63,
  52, 53, 54, 55, 56, 57, 58, 59, 60, 61, 64, 64, 64, 64, 64, 64,
  64,  0,  1,  2,  3,  4,  5,  6,  7,  8,  9, 10, 11, 12, 13, 14,
  15, 16, 17, 18, 19, 20, 21, 22, 23, 24, 25, 64, 64, 64, 64, 64,
  64, 26, 27, 28, 29, 30, 31, 32, 33, 34, 35, 36, 37, 38, 39, 40,
  41, 42, 43, 44, 45, 46, 47, 48, 49, 50, 51, 64, 64, 64, 64, 64,
  64, 64, 64, 64, 64, 64, 64, 64, 64, 64, 64, 64, 64, 64, 64, 64,
  64, 64, 64, 64, 64, 64, 64, 64, 64, 64, 64, 64, 64, 64, 64, 64,
  64, 64, 64, 64, 64, 64, 64, 64, 64, 64, 64, 64, 64, 64, 64, 64,
  64, 64, 64, 64, 64, 64, 64, 64, 64, 64, 64, 64, 64, 64, 64, 64,
  64, 64, 64, 64, 64, 64, 64, 64, 64, 64, 64, 64, 64, 64, 64, 64,
  64, 64, 64, 64, 64, 64, 64, 64, 64, 64, 64, 64, 64, 64, 64, 64,
  64, 64, 64, 64, 64, 64, 64, 64, 64, 64, 64, 64, 64, 64, 64, 64,
  64, 64, 64, 64, 64, 64, 64, 64, 64, 64, 64, 64, 64, 64, 64, 64]

def pr2six (c : UInt8) : UInt8 :=
  pr2sixTable.getD c.toNat 64

def alphabetTable : Bytes :=
  bytes "ABCDEFGHIJKLMNOPQRSTUVWXYZabcdefghijklmnopqrstuvwxyz0123456789+/="

def alphabet (i : UInt8) : UInt8 :=
  alphabetTable.getD i.toNat 0

/-! ## Encoding -/

/-- The four indices of three bytes. -/
def six1 (a : UInt8) : UInt8 := a >>> 2

def six2 (a b : UInt8) : UInt8 := a <<< 4 &&& (0x30 : UInt8) ||| b >>> 4

def six3 (b c : UInt8) : UInt8 := b <<< 2 &&& (0x3c : UInt8) ||| c >>> 6

def six4 (c : UInt8) : UInt8 := c &&& 0x3f

/-- What `Base64::encode` writes in front of the NUL: its loop, and the trailing bytes. -/
def encodeChars : Bytes → Bytes
  | a :: b :: c :: text =>
    alphabet (six1 a) :: alphabet (six2 a b) :: alphabet (six3 b c) :: alphabet (six4 c) ::
      encodeChars text
  | [a, b] => [alphabet (six1 a), alphabet (six2 a b), alphabet (b <<< 2 &&& 0x3c), 61]
  | [a] => [alphabet (six1 a), alphabet (a <<< 4 &&& 0x30 ||| 0), 61, 61]
  | [] => []

/-- `outlen` of `Base64::encode`. -/
def encodedLen (inlen : Int) : Int :=
  let outlen := (Int.bmod (inlen * 4) (2 ^ 32)).tdiv 3
  if inlen.tmod 3 > 0 then outlen + (4 - inlen.tmod 3) else outlen

/-- `Base64::encode`. Characters behind `outlen` have no place. -/
def encode (text : Bytes) : Option Bytes :=
  if (encodeChars text).length ≤ encodedLen text.length then some (cstr (encodeChars text)) else none

/-! ## Decoding -/

/-- How many characters are taken: those in front of the first that is not in the alphabet.
The NUL that ends the text is none. -/
def prBytes (bufcoded : Bytes) : Nat :=
  (bufcoded.takeWhile fun c => pr2six c ≤ 63).length

/-- `nbytesdecoded` as it is computed first. -/
def wholeGroups (nprbytes : Nat) : Int :=
  (Int.bmod (Int.bmod nprbytes (2 ^ 32) + 3) (2 ^ 32)).tdiv 4 * 3

def decodeLen (bufcoded : Bytes) : Int :=
  wholeGroups (prBytes bufcoded) + 1

/-- The three bytes of four characters. -/
def byte1 (a b : UInt8) : UInt8 := pr2six a <<< 2 ||| pr2six b >>> 4

def byte2 (b c : UInt8) : UInt8 := pr2six b <<< 4 ||| pr2six c >>> 2

def byte3 (c d : UInt8) : UInt8 := pr2six c <<< 6 ||| pr2six d

/-- What is written behind the loop. -/
def decodeTail (nprbytes : Nat) (bufin : Bytes) : Bytes :=
  (if nprbytes > 1 then [byte1 (bufin.getD 0 0) (bufin.getD 1 0)] else []) ++
  (if nprbytes > 2 then [byte2 (bufin.getD 1 0) (bufin.getD 2 0)] else []) ++
  (if nprbytes > 3 then [byte3 (bufin.getD 2 0) (bufin.getD 3 0)] else [])

/-- What `Base64::decodeBinary` writes, and the `nprbytes` it ends with. -/
def decodeGroups (nprbytes : Nat) : Bytes → Bytes × Nat
  | a :: b :: c :: d :: bufin =>
    if nprbytes > 4 then
      let (rest, left) := decodeGroups (nprbytes - 4) bufin
      (byte1 a b :: byte2 b c :: byte3 c d :: rest, left)
    else (decodeTail nprbytes (a :: b :: c :: d :: bufin), nprbytes)
  | bufin => (decodeTail nprbytes bufin, nprbytes)

/-- `Base64::decodeBinary`: the bytes it writes, and the number it answers. -/
def decodeBinary (bufcoded : Bytes) : Bytes × Int :=
  let nprbytes := prBytes bufcoded
  let (out, left) := decodeGroups nprbytes bufcoded
  (out, wholeGroups nprbytes - (4 - left : Int) % 4)

/-- `Base64::decode`. Bytes behind the allocated ones have no place. -/
def decode (buf : Bytes) : Option Bytes :=
  let len := decodeLen buf
  if 0 < len then
    let (result, n) := decodeBinary buf
    if result.length ≤ len then setChars (some result) (toSizeT n) else none
  else some []

/-! ## Six bits and eight -/

def IsSix (i : UInt8) : Prop :=
  i &&& 63 = i

set_option maxRecDepth 4000 in
theorem alphabet_six : ∀ i, i &&& 63 = i → pr2six (alphabet i) = i ∧ alphabet i ≠ 0 := by
  apply forall_byte
  decide

theorem pr2six_alphabet {i : UInt8} (h : IsSix i) : pr2six (alphabet i) = i :=
  (alphabet_six i h).1

theorem pr2six_alphabet_le {i : UInt8} (h : IsSix i) : pr2six (alphabet i) ≤ 63 := by
  rw [pr2six_alphabet h, ← h]
  exact UInt8.and_le_right

theorem or_and (x y z : UInt8) : (x ||| y) &&& z = (x &&& z) ||| (y &&& z) := by
  rw [← UInt8.toBitVec_inj]
  exact BitVec.and_or_distrib_right

theorem isSix_or {x y : UInt8} (hx : IsSix x) (hy : IsSix y) : IsSix (x ||| y) := by
  rw [IsSix, or_and, hx, hy]

instance (i : UInt8) : Decidable (IsSix i) :=
  inferInstanceAs (Decidable (_ = _))

set_option maxRecDepth 4000 in
/-- What the shifts of the encoder leave of one byte has six bits. -/
theorem isSix_shifts : ∀ a : UInt8, IsSix (a >>> 2) ∧ IsSix (a <<< 4 &&& (0x30 : UInt8)) ∧
    IsSix (a >>> 4) ∧ IsSix (a <<< 2 &&& (0x3c : UInt8)) ∧ IsSix (a >>> 6) ∧
    IsSix (a &&& (0x3f : UInt8)) := by
  apply forall_byte
  decide

theorem isSix_six1 (a : UInt8) : IsSix (six1 a) :=
  (isSix_shifts a).1

theorem isSix_six2 (a b : UInt8) : IsSix (six2 a b) :=
  isSix_or (isSix_shifts a).2.1 (isSix_shifts b).2.2.1

theorem isSix_six3 (b c : UInt8) : IsSix (six3 b c) :=
  isSix_or (isSix_shifts b).2.2.2.1 (isSix_shifts c).2.2.2.2.1

theorem isSix_six4 (c : UInt8) : IsSix (six4 c) :=
  (isSix_shifts c).2.2.2.2.2

set_option maxRecDepth 4000 in
/-- The two parts of a byte, shifted back. -/
theorem join_shifts : ∀ a : UInt8, (a >>> 2) <<< 2 ||| (a <<< 4 &&& (0x30 : UInt8)) >>> 4 = a ∧
    (a >>> 4) <<< 4 ||| (a <<< 2 &&& (0x3c : UInt8)) >>> 2 = a ∧
    (a >>> 6) <<< 6 ||| (a &&& (0x3f : UInt8)) = a := by
  apply forall_byte
  decide

set_option maxRecDepth 4000 in
/-- The bits of the neighbours are shifted out. -/
theorem gone_shifts : ∀ a : UInt8, (a <<< 4 &&& (0x30 : UInt8)) <<< 4 = 0 ∧
    (a >>> 4) >>> 4 = 0 ∧ (a <<< 2 &&& (0x3c : UInt8)) <<< 6 = 0 ∧ (a >>> 6) >>> 2 = 0 := by
  apply forall_byte
  decide

theorem join_first (a b : UInt8) : six1 a <<< 2 ||| six2 a b >>> 4 = a := by
  rw [six1, six2, UInt8.shiftRight_or, (gone_shifts b).2.1, UInt8.or_zero, (join_shifts a).1]

theorem join_second (a b c : UInt8) : six2 a b <<< 4 ||| six3 b c >>> 2 = b := by
  rw [six2, six3, UInt8.shiftLeft_or, UInt8.shiftRight_or, (gone_shifts a).1, UInt8.zero_or,
    (gone_shifts c).2.2.2, UInt8.or_zero, (join_shifts b).2.1]

theorem join_third (b c : UInt8) : six3 b c <<< 6 ||| six4 c = c := by
  rw [six3, six4, UInt8.shiftLeft_or, (gone_shifts b).2.2.1, UInt8.zero_or, (join_shifts c).2.2]

theorem byte1_alphabet (a b : UInt8) : byte1 (alphabet (six1 a)) (alphabet (six2 a b)) = a := by
  rw [byte1, pr2six_alphabet (isSix_six1 a), pr2six_alphabet (isSix_six2 a b), join_first]

theorem byte2_alphabet (a b c : UInt8) :
    byte2 (alphabet (six2 a b)) (alphabet (six3 b c)) = b := by
  rw [byte2, pr2six_alphabet (isSix_six2 a b), pr2six_alphabet (isSix_six3 b c), join_second]

theorem byte3_alphabet (b c : UInt8) : byte3 (alphabet (six3 b c)) (alphabet (six4 c)) = c := by
  rw [byte3, pr2six_alphabet (isSix_six3 b c), pr2six_alphabet (isSix_six4 c), join_third]

/-! ## What the encoder writes -/

/-- The indices of a text. The trailing bytes have zeros behind them. -/
def sixes : Bytes → Bytes
  | a :: b :: c :: text => six1 a :: six2 a b :: six3 b c :: six4 c :: sixes text
  | [a, b] => [six1 a, six2 a b, six3 b 0]
  | [a] => [six1 a, six2 a 0]
  | [] => []

def pads : Bytes → Bytes
  | _ :: _ :: _ :: text => pads text
  | [_, _] => [61]
  | [_] => [61, 61]
  | [] => []

theorem encodeChars_eq (text : Bytes) :
    encodeChars text = (sixes text).map alphabet ++ pads text := by
  fun_induction encodeChars text with
  | case1 a b c text ih => simp [sixes, pads, ih]
  | case2 a b => simp [sixes, pads, six3]
  | case3 a => simp [sixes, pads, six2]
  | case4 => rfl

theorem isSix_sixes (text : Bytes) : ∀ i ∈ sixes text, IsSix i := by
  fun_induction sixes text with
  | case1 a b c text ih =>
    simp only [List.forall_mem_cons]
    exact ⟨isSix_six1 a, isSix_six2 a b, isSix_six3 b c, isSix_six4 c, ih⟩
  | case2 a b =>
    simp only [List.forall_mem_cons]
    exact ⟨isSix_six1 a, isSix_six2 a b, isSix_six3 b 0, by simp⟩
  | case3 a =>
    simp only [List.forall_mem_cons]
    exact ⟨isSix_six1 a, isSix_six2 a 0, by simp⟩
  | case4 => simp

theorem pads_eq (text : Bytes) : ∀ c ∈ pads text, c = 61 := by
  fun_induction pads text with
  | case1 a b c text ih => exact ih
  | case2 a b => simp
  | case3 a => simp
  | case4 => simp

theorem length_sixes (text : Bytes) : (sixes text).length = (text.length * 4 + 2) / 3 := by
  fun_induction sixes text with
  | case1 a b c text ih =>
    simp only [List.length_cons, ih]
    omega
  | case2 a b => simp
  | case3 a => simp
  | case4 => rfl

theorem length_encodeChars (text : Bytes) :
    (encodeChars text).length = 4 * ((text.length + 2) / 3) := by
  fun_induction encodeChars text with
  | case1 a b c text ih =>
    simp only [List.length_cons, ih]
    omega
  | case2 a b => simp
  | case3 a => simp
  | case4 => rfl

/-- The decoder takes the characters in front of the padding. -/
theorem prBytes_encodeChars (text : Bytes) : prBytes (encodeChars text) = (sixes text).length := by
  have hall : ∀ c ∈ (sixes text).map alphabet, decide (pr2six c ≤ 63) = true := by
    intro c hc
    obtain ⟨i, hi, rfl⟩ := List.mem_map.mp hc
    exact decide_eq_true (pr2six_alphabet_le (isSix_sixes text i hi))
  have hpads : (pads text).takeWhile (fun c => decide (pr2six c ≤ 63)) = [] := by
    rcases hp : pads text with _ | ⟨c, cs⟩
    · rfl
    · have hc := pads_eq text c (hp ▸ List.mem_cons_self)
      rw [List.takeWhile_cons_of_neg]
      rw [hc]
      decide
  rw [prBytes, encodeChars_eq, List.takeWhile_append_of_pos hall, hpads, List.append_nil,
    List.length_map]

theorem not_mem_encodeChars (text : Bytes) : (0 : UInt8) ∉ encodeChars text := by
  rw [encodeChars_eq, List.mem_append, not_or]
  constructor
  · intro h
    obtain ⟨i, hi, h0⟩ := List.mem_map.mp h
    exact (alphabet_six i (isSix_sixes text i hi)).2 h0
  · exact fun h => absurd (pads_eq text 0 h) (by decide)

/-- The room is as large as what is written. -/
theorem encodedLen_eq {text : Bytes} (h : text.length < 2 ^ 29) :
    encodedLen text.length = (encodeChars text).length := by
  rw [length_encodeChars, encodedLen, Int.bmod_eq_of_le (by omega) (by omega),
    Int.tmod_eq_emod_of_nonneg (by omega), Int.tdiv_eq_ediv_of_nonneg (by omega)]
  generalize text.length = n
  -- by the length of the last group
  obtain ⟨k, rfl | rfl | rfl⟩ : ∃ k, n = 3 * k ∨ n = 3 * k + 1 ∨ n = 3 * k + 2 :=
    ⟨n / 3, by omega⟩
  all_goals
    push_cast
    split <;> omega

theorem encode_eq {text : Bytes} (h : text.length < 2 ^ 29) :
    encode text = some (encodeChars text) := by
  rw [encode, if_pos (encodedLen_eq h).ge, cstr_of_not_mem (not_mem_encodeChars text)]

/-! ## What the decoder writes -/

theorem length_decodeTail {n : Nat} (h : n ≤ 4) (bufin : Bytes) :
    ((decodeTail n bufin).length : Int) = ((n + 3) / 4 * 3 : Nat) - (4 - n : Int) % 4 := by
  have hn : n = 0 ∨ n = 1 ∨ n = 2 ∨ n = 3 ∨ n = 4 := by omega
  rcases hn with rfl | rfl | rfl | rfl | rfl <;> simp [decodeTail]

theorem decodeGroups_length {n : Nat} {bufin : Bytes} (h : n ≤ bufin.length) :
    ((decodeGroups n bufin).1.length : Int) =
      ((n + 3) / 4 * 3 : Nat) - (4 - (decodeGroups n bufin).2 : Int) % 4 := by
  fun_induction decodeGroups n bufin with
  | case1 n a b c d bufin hn rest left heq ih =>
    rw [heq] at ih
    simp only [List.length_cons] at h ⊢
    have hih := ih (by omega)
    push_cast at hih ⊢
    omega
  | case2 n a b c d bufin hn => exact length_decodeTail (by omega) _
  | case3 n bufin hshort =>
    refine length_decodeTail ?_ _
    rcases bufin with _ | ⟨a, _ | ⟨b, _ | ⟨c, _ | ⟨d, bufin⟩⟩⟩⟩
    all_goals first | exact absurd rfl (hshort a b c d bufin) | (simp at h; omega)

theorem prBytes_le (bufcoded : Bytes) : prBytes bufcoded ≤ bufcoded.length :=
  (List.takeWhile_prefix _).length_le

theorem tdiv_four (n : Nat) : ((n : Int) + 3).tdiv 4 * 3 = ((n + 3) / 4 * 3 : Nat) := by
  rw [Int.tdiv_eq_ediv_of_nonneg (by omega)]
  omega

theorem wholeGroups_eq {n : Nat} (h : n + 3 < 2 ^ 31) : wholeGroups n = ((n + 3) / 4 * 3 : Nat) := by
  have hsum := int_of_lt h
  rw [Nat.cast_add, Nat.cast_ofNat] at hsum
  have hn := int_of_lt ((Nat.le_add_right n 3).trans_lt h)
  show (Int.bmod (Int.bmod n (2 ^ 32) + 3) (2 ^ 32)).tdiv 4 * 3 = _
  rw [hn, hsum]
  exact tdiv_four n

/-- The decoder writes what it answers, and leaves the last allocated byte free. -/
theorem decodeBinary_spec {bufcoded : Bytes} (h : prBytes bufcoded + 3 < 2 ^ 31) :
    ((decodeBinary bufcoded).1.length : Int) = (decodeBinary bufcoded).2 ∧
      ((decodeBinary bufcoded).1.length : Int) < decodeLen bufcoded := by
  have hlen := decodeGroups_length (prBytes_le bufcoded)
  simp only [decodeBinary, decodeLen, wholeGroups_eq h]
  omega

/-- What is decoded is all that has been written. -/
theorem decode_eq {bufcoded : Bytes} (h : prBytes bufcoded + 3 < 2 ^ 31) :
    decode bufcoded = some (decodeBinary bufcoded).1 := by
  obtain ⟨hlen, hlt⟩ := decodeBinary_spec h
  have hsize : toSizeT (decodeBinary bufcoded).2 = (decodeBinary bufcoded).1.length := by
    rw [← hlen, toSizeT_natCast]
    have hle := hlt
    rw [decodeLen, wholeGroups_eq h] at hle
    omega
  simp only [decode]
  rw [if_pos (by omega), if_pos (by omega), hsize, setChars]
  split
  next h0 => rw [List.length_eq_zero_iff.mp h0]
  next => rw [if_pos le_rfl, List.take_length]

/-- The groups of what was encoded. -/
theorem decodeGroups_encodeChars (text : Bytes) :
    (decodeGroups (sixes text).length (encodeChars text)).1 = text := by
  fun_induction encodeChars text with
  | case1 a b c text ih =>
    rw [sixes, List.length_cons, List.length_cons, List.length_cons, List.length_cons, decodeGroups]
    by_cases h : (sixes text).length + 1 + 1 + 1 + 1 > 4
    · rw [if_pos h]
      have hleft : (sixes text).length + 1 + 1 + 1 + 1 - 4 = (sixes text).length := by omega
      simp only [byte1_alphabet, byte2_alphabet, byte3_alphabet, hleft, ih]
    · rw [if_neg h]
      have h0 : (sixes text).length = 0 := by omega
      have htext : text = [] := by
        rw [length_sixes] at h0
        exact List.length_eq_zero_iff.mp (by omega)
      subst htext
      simp [sixes, decodeTail, byte1_alphabet, byte2_alphabet, byte3_alphabet]
  | case2 a b =>
    have h3 : alphabet (b <<< 2 &&& (0x3c : UInt8)) = alphabet (six3 b 0) := by simp [six3]
    rw [h3]
    simp [sixes, decodeGroups, decodeTail, byte1_alphabet, byte2_alphabet]
  | case3 a =>
    have h2 : alphabet (a <<< 4 &&& (0x30 : UInt8) ||| 0) = alphabet (six2 a 0) := by simp [six2]
    rw [h2]
    simp [sixes, decodeGroups, decodeTail, byte1_alphabet]
  | case4 => rfl

/-- What is encoded comes back, and nobody writes more than fits. -/
theorem decode_encode (x : Bytes) (_hne : x ≠ []) (hlt : x.length < 2 ^ 29) :
    (∃ s, encode x = some s ∧ decode s = some x) ∧
      (encodeChars x).length = 4 * ((x.length + 2) / 3) ∧
      encodedLen x.length = (encodeChars x).length ∧
      ∀ s, prBytes s + 3 < 2 ^ 31 → ((decodeBinary s).1.length : Int) < decodeLen s := by
  refine ⟨⟨encodeChars x, encode_eq hlt, ?_⟩, length_encodeChars x, encodedLen_eq hlt,
    fun s hs => (decodeBinary_spec hs).2⟩
  have hpr : prBytes (encodeChars x) + 3 < 2 ^ 31 := by
    rw [prBytes_encodeChars, length_sixes]
    omega
  rw [decode_eq hpr, decodeBinary]
  simp only [prBytes_encodeChars, decodeGroups_encodeChars]

theorem decode_encode_man :
    (∃ s, encode (bytes "Man?") = some s ∧ decode s = some (bytes "Man?")) ∧
      (encodeChars (bytes "Man?")).length = 4 * ((4 + 2) / 3) ∧
      encodedLen 4 = (encodeChars (bytes "Man?")).length ∧
      ∀ s, prBytes s + 3 < 2 ^ 31 → ((decodeBinary s).1.length : Int) < decodeLen s :=
  decode_encode (bytes "Man?") (by decide) (by decide)

end Base64

end Dframework
