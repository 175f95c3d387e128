import Mathlib
import Dframework.Lang.StringBuffer
import Dframework.Library.Loop

/-!
# Runs of a `String`

What a `String` goes through between its construction and any later moment, under every
outcome of the allocations. `replace` of a text works on two further strings, and assigns
what it has built.

Results:
1. `replace_sound`: `replace` of a text ends and keeps the invariant.
2. `exec_sound`: so does every operation that meets its condition.
3. `string_rep_invariant`: the representation invariant, in every run of such operations.
-/

namespace Dframework

open CLib Cells Loop Relation

/-! ## `replace` -/

/-- The text at `m_pBuffer + base`. It has to end inside the block. -/
def textFrom (b : Bytes) (base : Int) : Option Bytes :=
  if 0 ≤ base ∧ (0 : UInt8) ∈ b.drop base.toNat then some (b.drop base.toNat) else none

/-- The locals of `String::replace`. -/
structure Replacing where
  base : Int
  sVal : StringRep
  sTest : StringRep
  heap : Heap

/-- The text before an occurrence, which `replace` appends by way of `sTest`. -/
def Replacing.before (r : Replacing) (p : Bytes) (pos : Int) :
    Option (StringRep × StringRep × Heap) :=
  if pos ≠ 0 then do
    let (_, sTest, heap) ← r.sTest.setLen (some p) (toSizeT pos) r.heap
    let (_, sVal, heap) ← r.sVal.alloc sTest.toChars sTest.length r.sVal.length heap
    some (sVal, sTest, heap)
  else some (r.sVal, r.sTest, r.heap)

/-- What `replace` appends for one occurrence: the text before it, and `into`. -/
def Replacing.join (r : Replacing) (p : Bytes) (pos : Int) (into : Option Bytes) :
    Option (StringRep × StringRep × Heap) := do
  let (sVal, sTest, heap) ← r.before p pos
  let (_, sVal, heap) ← sVal.append into heap
  some (sVal, sTest, heap)

/-- One pass of the loop of `String::replace`. -/
def replaceRound (b pat : Bytes) (into : Option Bytes) (r : Replacing) :
    Round Replacing (Option Replacing) :=
  match textFrom b r.base with
  | none => .done none
  | some p =>
    let pos := indexOf p pat
    if pos = -1 then .done (some r)
    else
      match r.join p pos into with
      | none => .done none
      | some (sVal, sTest, heap) =>
        .next ⟨Int.bmod (r.base + pos + (cstr pat).length) (2 ^ 32), sVal, sTest, heap⟩

/-- What `replace` does behind its loop: the rest of the text, and the assignment. -/
def Replacing.finish (r : Replacing) (st : StringRep) (b : Bytes) : Option StringRep := do
  let p ← textFrom b r.base
  let (_, sVal, heap) ← r.sVal.append (some p) r.heap
  let (_, st, _) ← st.alloc sVal.toChars sVal.length 0 heap
  some st

/-- `String::replace` of a text ends with `r`; `none` is an access that is not allowed. -/
def ReplaceText (st : StringRep) (pat into : Option Bytes) (heap : Heap) (r : Option StringRep) :
    Prop :=
  match pat, st.buffer with
  | none, _ => r = some st
  | some _, none => r = (st.alloc none 0 0 heap).map fun x => x.2.1
  | some pat, some b => ∃ e, Returns (replaceRound b pat into) ⟨0, .init, .init, heap⟩ e ∧
      r = e.bind fun e => e.finish st b

namespace StringRunsLemmas

variable {st : StringRep} {b pat : Bytes} {into : Option Bytes} {r : Replacing}

theorem readable_toChars (h : Sound st) : Readable st.toChars st.length := by
  have hlt := h.length_lt
  refine ⟨by omega, ?_⟩
  by_cases h0 : st.length = 0
  · exact .inl h0
  · have hle := h.length_le
    obtain ⟨b, hb, hcap, -⟩ := h.exists_buffer (by omega)
    refine .inr ⟨b, ?_, by omega⟩
    rw [StringRep.toChars, if_neg h0, hb]

theorem readable_strlen {str : Option Bytes} (h : StringRep.strlen str < 2 ^ 63) :
    Readable str (StringRep.strlen str) := by
  refine ⟨h, ?_⟩
  cases str with
  | none => exact .inl rfl
  | some m => exact .inr ⟨m, rfl, (cstr_isPrefix m).length_le⟩

theorem readable_text {str : Bytes} {len : Nat} (h : str.length < 2 ^ 63) (hle : len ≤ str.length) :
    Readable (toChars str) len := by
  refine ⟨by omega, ?_⟩
  by_cases h0 : str = []
  · rw [h0, List.length_nil] at hle
    exact .inl (by omega)
  · exact .inr ⟨str, toChars_of_ne_nil h0, hle⟩

/-- `___alloc` on strings of which only the fields matter afterwards. -/
theorem alloc_keeps (str : Option Bytes) (len : Nat) {curlen : Nat} (heap : Heap) (h : Sound st)
    (hcur : curlen ≤ st.length) (hstr : Readable str len) :
    ∃ ok st' heap', st.alloc str len curlen heap = some (ok, st', heap') ∧ Sound st' := by
  obtain ⟨ok, st', heap', heq, hs, -⟩ := StringRep.alloc_sound heap h hcur hstr
  exact ⟨ok, st', heap', heq, hs⟩

/-- Inside the text of a block that ends, the text goes on. -/
theorem textFrom_of_le {base : Nat} (hend : (0 : UInt8) ∈ b) (hle : base ≤ (cstr b).length) :
    textFrom b base = some (b.drop base) ∧ cstr (b.drop base) = (cstr b).drop base := by
  have hfront : (0 : UInt8) ∉ b.take base := by
    obtain ⟨t, ht⟩ := cstr_isPrefix b
    have htake : b.take base = (cstr b).take base := by
      conv_lhs => rw [← ht]
      exact List.take_append_of_le_length hle
    rw [htake]
    exact fun h => not_mem_cstr b (List.mem_of_mem_take h)
  have hlen : (b.take base).length = base := by
    have := (cstr_isPrefix b).length_le
    rw [List.length_take]
    omega
  have hsplit := List.take_append_drop base b
  refine ⟨?_, ?_⟩
  · have hrest : (0 : UInt8) ∈ b.drop base := by
      rw [← hsplit] at hend
      exact (List.mem_append.mp hend).resolve_left hfront
    exact if_pos ⟨Int.natCast_nonneg base, hrest⟩
  · have hcstr := cstr_append_of_not_mem (m := b.drop base) hfront
    rw [hsplit] at hcstr
    rw [hcstr, List.drop_append, List.drop_eq_nil_of_le hlen.le, hlen, Nat.sub_self,
      List.drop_zero, List.nil_append]

/-- What `indexOf` answers on a text that an `int` can count. -/
theorem indexOf_cases {p : Bytes} (pat : Bytes) (h : (cstr p).length < 2 ^ 31) :
    indexOf p pat = -1 ∨ ∃ i : Nat, indexOf p pat = i ∧ i + (cstr pat).length ≤ (cstr p).length := by
  rw [indexOf]
  rcases hfind : strstr p (cstr pat) with _ | i
  · exact .inl rfl
  · have hle := Search.find_add_length_le hfind
    exact .inr ⟨i, int_of_lt (by omega), hle⟩

/-- What holds of the locals of `replace` in front of every round. -/
structure Replaces (b : Bytes) (r : Replacing) : Prop where
  base_le : ∃ base : Nat, r.base = base ∧ base ≤ (cstr b).length
  val_sound : Sound r.sVal
  test_sound : Sound r.sTest

theorem join_keeps {p : Bytes} (pos : Nat) (h : Replaces b r) (hto : StringRep.strlen into < 2 ^ 63)
    (hpos : pos ≤ p.length) (hlt : pos < 2 ^ 31) :
    ∃ sVal sTest heap, r.join p pos into = some (sVal, sTest, heap) ∧ Sound sVal ∧ Sound sTest := by
  have hsize : toSizeT pos = pos := toSizeT_natCast (by omega)
  obtain ⟨sVal, sTest, heap, hfirst, hval, htest⟩ : ∃ sVal sTest heap,
      r.before p pos = some (sVal, sTest, heap) ∧ Sound sVal ∧ Sound sTest := by
    rw [Replacing.before]
    split
    next =>
      obtain ⟨_, sTest, heap, hset, htest⟩ := alloc_keeps (some p) pos r.heap
        h.test_sound (Nat.zero_le _) ⟨by omega, .inr ⟨p, rfl, hpos⟩⟩
      obtain ⟨_, sVal, heap', happend, hval⟩ := alloc_keeps _ _ heap h.val_sound le_rfl
        (readable_toChars htest)
      refine ⟨sVal, sTest, heap', ?_, hval, htest⟩
      rw [StringRep.setLen, hsize, hset]
      simp only [Option.bind_eq_bind, Option.bind_some, happend]
    next => exact ⟨_, _, _, rfl, h.val_sound, h.test_sound⟩
  obtain ⟨_, sVal', heap', happend, hval'⟩ := alloc_keeps _ _ heap hval le_rfl (readable_strlen hto)
  refine ⟨sVal', sTest, heap', ?_, hval', htest⟩
  rw [Replacing.join, hfirst]
  simp only [Option.bind_eq_bind, Option.bind_some, StringRep.append, happend]

/-- One round: it stops at the last occurrence, or goes on behind the one it has found. -/
theorem replaceRound_cases (pat : Bytes) (hend : (0 : UInt8) ∈ b) (hlt : (cstr b).length < 2 ^ 31)
    (hto : StringRep.strlen into < 2 ^ 63) (h : Replaces b r) :
    replaceRound b pat into r = .done (some r) ∨
      ∃ (r' : Replacing) (i : Nat), replaceRound b pat into r = .next r' ∧ Replaces b r' ∧
        r'.base = r.base + i + (cstr pat).length := by
  obtain ⟨base, hbase, hle⟩ := h.base_le
  obtain ⟨hfrom, hcstr⟩ := textFrom_of_le hend hle
  have hlen : (cstr (b.drop base)).length = (cstr b).length - base := by
    rw [hcstr, List.length_drop]
  rw [replaceRound, hbase, hfrom]
  rcases indexOf_cases (p := b.drop base) pat (by omega) with hnone | ⟨i, hi, hfits⟩
  · exact .inl (if_pos hnone)
  · obtain ⟨sVal, sTest, heap, hjoin, hval, htest⟩ := join_keeps (p := b.drop base) i h hto
      (by have := (cstr_isPrefix (b.drop base)).length_le; omega) (by omega)
    have hnext : Int.bmod (base + i + (cstr pat).length) (2 ^ 32) = base + i + (cstr pat).length := by
      rw [← Nat.cast_add, ← Nat.cast_add]
      exact int_of_lt (by omega)
    refine .inr ⟨⟨base + i + (cstr pat).length, sVal, sTest, heap⟩, i, ?_,
      ⟨⟨base + i + (cstr pat).length, by push_cast; rfl, by omega⟩, hval, htest⟩, rfl⟩
    simp only [hi, if_neg (show ¬ (i : Int) = -1 by omega), hjoin, hnext]

end StringRunsLemmas

open StringRunsLemmas

/-- `replace` of a text ends well, unless the text to replace is empty or an `int` cannot
count the text. -/
theorem replace_sound {st : StringRep} {pat into : Option Bytes} (heap : Heap) (h : Sound st)
    (hto : StringRep.strlen into < 2 ^ 63)
    (hmeets : pat = none ∨ st.buffer = none ∨
      StringRep.strlen pat ≠ 0 ∧ StringRep.strlen st.buffer < 2 ^ 31) :
    ∃ st', (∀ r, ReplaceText st pat into heap r ↔ r = some st') ∧ Sound st' := by
  rcases pat with _ | pat
  · exact ⟨st, fun r => Iff.rfl, h⟩
  rcases hb : st.buffer with _ | b
  · obtain ⟨_, st', _, halloc, hs⟩ := alloc_keeps none 0 heap h (Nat.zero_le _)
      ⟨by omega, .inl rfl⟩
    refine ⟨st', fun r => ?_, hs⟩
    simp only [ReplaceText, hb, halloc, Option.map_some]
  · obtain ⟨hpat, hlt⟩ : (cstr pat).length ≠ 0 ∧ (cstr b).length < 2 ^ 31 := by
      simpa [hb, StringRep.strlen] using hmeets
    have hend : (0 : UInt8) ∈ b := List.mem_of_getElem? (h.ended b hb)
    have h0 : Replaces b ⟨0, .init, .init, heap⟩ :=
      ⟨⟨0, rfl, Nat.zero_le _⟩, Sound.init, Sound.init⟩
    -- every round goes on behind the occurrence it has found
    obtain ⟨e, he⟩ : ∃ e, Returns (replaceRound b pat into) _ e := returns_of_measure
      (I := Replaces b) (fun r => (cstr b).length - r.base.toNat) h0 (by
        intro r r' hr hnext
        rcases replaceRound_cases pat hend hlt hto hr with hdone | ⟨r₁, i, hnext', hr', hbase⟩
        · rw [hdone] at hnext
          cases hnext
        · obtain rfl := Round.next.inj (hnext'.symm.trans hnext)
          obtain ⟨base, hb₁, hle⟩ := hr.base_le
          obtain ⟨base', hb₂, hle'⟩ := hr'.base_le
          refine ⟨hr', ?_⟩
          show (cstr b).length - _ < (cstr b).length - _
          rw [hb₂, hb₁] at hbase ⊢
          omega)
    obtain ⟨r, rfl, hr⟩ : ∃ r, e = some r ∧ Replaces b r := by
      refine he.induct (P := fun r => Replaces b r → ∃ r', e = some r' ∧ Replaces b r') ?_ ?_ h0
      · intro r hdone hr
        rcases replaceRound_cases pat hend hlt hto hr with hdone' | ⟨r₁, i, hnext, -⟩
        · exact ⟨r, (Round.done.inj (hdone'.symm.trans hdone)).symm, hr⟩
        · rw [hnext] at hdone
          cases hdone
      · intro r r' hnext _ ih hr
        rcases replaceRound_cases pat hend hlt hto hr with hdone | ⟨r₁, i, hnext', hr', -⟩
        · rw [hdone] at hnext
          cases hnext
        · obtain rfl := Round.next.inj (hnext'.symm.trans hnext)
          exact ih hr'
    obtain ⟨base, hbase, hle⟩ := hr.base_le
    obtain ⟨hfrom, hcstr⟩ := textFrom_of_le hend hle
    obtain ⟨_, sVal, heap₁, happend, hval⟩ := alloc_keeps (some (b.drop base)) _ r.heap
      hr.val_sound le_rfl (readable_strlen (by
        show (cstr (b.drop base)).length < 2 ^ 63
        rw [hcstr, List.length_drop]
        omega))
    obtain ⟨_, st', heap₂, hassign, hs⟩ := alloc_keeps _ _ heap₁ h (Nat.zero_le _)
      (readable_toChars hval)
    have hfinish : r.finish st b = some st' := by
      rw [Replacing.finish, hbase, hfrom]
      simp only [Option.bind_eq_bind, Option.bind_some, StringRep.append, happend, hassign]
    refine ⟨st', fun r' => ?_, hs⟩
    simp only [ReplaceText, hb]
    constructor
    · rintro ⟨e, he', rfl⟩
      rw [he'.unique he, Option.bind_some, hfinish]
    · rintro rfl
      exact ⟨_, he, hfinish.symm⟩

/-! ## Runs -/

/-- The operations of a `String`. A `String` argument is given by its text. -/
inductive StringOp where
  | set (str : Option Bytes)
  | setLen (str : Option Bytes) (len : Nat)
  | append (str : Option Bytes)
  | appendLen (str : Option Bytes) (len : Nat)
  | appendString (str : Bytes)
  | appendStringLen (str : Bytes) (len : Nat)
  | assign (str : Option Bytes)
  | assignString (str : Bytes)
  | trim
  | replaceChar (a b : UInt8)
  | replace (pat into : Option Bytes)
  | shift (offset : Nat)
  | chuck (offset : Nat)
  | substring (start : Nat)
  | substringLen (start length : Nat)
  deriving DecidableEq, Repr

/-- The operation ends with `r`; `none` is an access through `NULL` or outside the block. -/
def Exec (op : StringOp) (heap : Heap) (st : StringRep) (r : Option StringRep) : Prop :=
  match op with
  | .set str => r = (st.set str heap).map fun x => x.2.1
  | .setLen str len => r = (st.setLen str len heap).map fun x => x.2.1
  | .append str => r = (st.append str heap).map fun x => x.2.1
  | .appendLen str len => r = (st.appendLen str len heap).map fun x => x.2.1
  | .appendString str => r = (st.appendString str heap).map fun x => x.2.1
  | .appendStringLen str len => r = (st.appendStringLen str len heap).map fun x => x.2.1
  | .assign str => r = (st.set str heap).map fun x => x.2.1
  | .assignString str => r = (st.setLen (toChars str) str.length heap).map fun x => x.2.1
  | .trim => r = st.trim
  | .replaceChar a b => r = st.replaceChar a b
  | .replace pat into => ReplaceText st pat into heap r
  | .shift offset => r = st.shift offset
  | .chuck offset => r = st.chuck offset
  | .substring start => r = st.substring start
  | .substringLen start length => r = st.substringLen start length

/-- A pointer given with a length has that many bytes, and no text is larger than a block. -/
def StringOp.Valid : StringOp → Prop
  | .set str | .append str | .assign str => StringRep.strlen str < 2 ^ 63
  | .setLen str len | .appendLen str len => Readable str len
  | .appendString str | .appendStringLen str _ | .assignString str => str.length < 2 ^ 63
  | .replace _ into => StringRep.strlen into < 2 ^ 63
  | _ => True

/-- What an operation that trusts its argument needs of it. -/
def StringOp.Meets (st : StringRep) : StringOp → Prop
  | .replace pat _ => pat = none ∨ st.buffer = none ∨
      StringRep.strlen pat ≠ 0 ∧ StringRep.strlen st.buffer < 2 ^ 31
  | .chuck offset => st.buffer ≠ none ∨ 0 < offset
  | .substring start => st.buffer = none ∨ start < st.length
  | .substringLen start length => st.buffer = none ∨ start < st.length ∧ length + start < 2 ^ 64
  | _ => True

/-- One operation of a run, under some outcome of its allocations. -/
def StringStep (Allowed : StringRep → StringOp → Prop) (st st' : StringRep) : Prop :=
  ∃ op heap, op.Valid ∧ Allowed st op ∧ Exec op heap st (some st')

/-- Every operation that meets its condition ends, with one result, and keeps the invariant. -/
theorem exec_sound {st : StringRep} {op : StringOp} (heap : Heap) (h : Sound st) (hvalid : op.Valid)
    (hmeets : op.Meets st) : ∃ st', (∀ r, Exec op heap st r ↔ r = some st') ∧ Sound st' := by
  have halloc : ∀ {str : Option Bytes} {len curlen : Nat}, curlen ≤ st.length → Readable str len →
      ∃ st', (∀ r, (r = (st.alloc str len curlen heap).map fun x => x.2.1) ↔ r = some st') ∧
        Sound st' := by
    intro str len curlen hcur hstr
    obtain ⟨ok, st', heap', heq, hs⟩ := alloc_keeps _ _ heap h hcur hstr
    exact ⟨st', fun r => by rw [heq, Option.map_some], hs⟩
  have hpure : ∀ {o : Option StringRep} {text : Bytes},
      (∃ st', o = some st' ∧ Sound st' ∧ st'.text = text) →
        ∃ st', (∀ r, r = o ↔ r = some st') ∧ Sound st' := by
    rintro _ _ ⟨st', rfl, hs, -⟩
    exact ⟨st', fun r => Iff.rfl, hs⟩
  cases op with
  | set str | assign str => exact halloc (Nat.zero_le _) (readable_strlen hvalid)
  | setLen str len => exact halloc (Nat.zero_le _) hvalid
  | append str => exact halloc le_rfl (readable_strlen hvalid)
  | appendLen str len => exact halloc le_rfl hvalid
  | appendString str => exact halloc le_rfl (readable_text hvalid le_rfl)
  | appendStringLen str len =>
    refine halloc le_rfl (readable_text hvalid ?_)
    split <;> omega
  | assignString str => exact halloc (Nat.zero_le _) (readable_text hvalid le_rfl)
  | trim => exact hpure h.trim
  | replaceChar a b => exact hpure (h.replaceChar a b)
  | replace pat into => exact replace_sound heap h hvalid hmeets
  | shift offset => exact hpure (h.shift offset)
  | chuck offset => exact hpure (h.chuck hmeets)
  | substring start =>
    refine hpure (h.substringLen (hmeets.imp_right fun hlt => ⟨hlt, ?_⟩))
    have := h.length_lt
    rw [sizeSub_of_le hlt.le]
    omega
  | substringLen start length => exact hpure (h.substringLen hmeets)

theorem reach_sound {st : StringRep}
    (hrun : ReflTransGen (StringStep fun st op => op.Meets st) StringRep.init st) : Sound st := by
  induction hrun with
  | refl => exact Sound.init
  | tail _ hstep ih =>
    obtain ⟨op, heap, hvalid, hmeets, hexec⟩ := hstep
    obtain ⟨st', hiff, hs⟩ := exec_sound heap ih hvalid hmeets
    exact Option.some.inj ((hiff _).mp hexec) ▸ hs

/-- In every run whose operations meet their condition the representation invariant holds,
and the next such operation ends without an access that is not allowed. -/
theorem string_rep_invariant {st : StringRep}
    (hrun : ReflTransGen (StringStep fun st op => op.Meets st) StringRep.init st) :
    RepInv st ∧ ∀ op heap, op.Valid → op.Meets st →
      (∃ r, Exec op heap st r) ∧ ∀ r, Exec op heap st r → ∃ st', r = some st' ∧ RepInv st' := by
  have hs := reach_sound hrun
  refine ⟨hs.toRepInv, fun op heap hvalid hmeets => ?_⟩
  obtain ⟨st', hiff, hs'⟩ := exec_sound heap hs hvalid hmeets
  exact ⟨⟨_, (hiff _).mpr rfl⟩, fun r hr => ⟨st', (hiff r).mp hr, hs'.toRepInv⟩⟩

def exText : StringRep := ⟨some (bytes "ab" ++ [0]), 2, 2⟩

theorem string_rep_invariant_set :
    RepInv exText ∧ ∀ op heap, op.Valid → op.Meets exText →
      (∃ r, Exec op heap exText r) ∧
        ∀ r, Exec op heap exText r → ∃ st', r = some st' ∧ RepInv st' := by
  refine string_rep_invariant (.single ⟨.set (some (bytes "ab")), [], ?_, trivial, ?_⟩)
  · show StringRep.strlen _ < 2 ^ 63
    decide
  · show some exText = _
    decide

/-- `substring` behind the text frees the buffer, and the next `set` writes through `NULL`. -/
theorem string_rep_freed :
    ∃ st, ReflTransGen (StringStep fun _ _ => True) StringRep.init st ∧ ¬ RepInv st ∧
      Exec (.set (some (bytes "c"))) [] st none := by
  refine ⟨⟨none, 0, 2⟩, .tail (.single ⟨.set (some (bytes "ab")), [], ?_, trivial,
    (?_ : some exText = _)⟩) ⟨.substring 2, [], trivial, trivial, ?_⟩, ?_, ?_⟩
  · show StringRep.strlen _ < 2 ^ 63
    decide
  · decide
  · show _ = StringRep.substring _ _
    decide
  · rintro ⟨-, hbuf, -⟩
    obtain ⟨b, hb, -⟩ := hbuf (by decide)
    cases hb
  · show none = _
    decide

end Dframework
