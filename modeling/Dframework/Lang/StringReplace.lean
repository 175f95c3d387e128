import Mathlib
import Dframework.Lang.StringRuns
import Dframework.Library.Pieces

/-!
# What `replace` of a text leaves

Every occurrence that the loop of `String::replace` finds moves `base` behind it. The length
of the text to replace is computed before the loop and compared with nothing: the empty text
is found where `base` stands, and the loop stays there.

Results:
1. `StringRep.alloc_text`: `___alloc` stores its text when memory is there.
2. `replaceRound_some`: what one round appends.
3. `replace_correct`: when `replace` ends, and with which text.
-/

namespace Dframework

open CLib Cells Loop Search

/-! ## Allocations that succeed -/

namespace StringRep

/-- When memory is there `___alloc` does not fail. -/
theorem room_nil {st : StringRep} {nlen curlen : Nat} {o : Room × Heap} (hlt : nlen + 1 < 2 ^ 63)
    (h : st.room nlen curlen [] = some o) : ∃ p capacity, o = (.granted p capacity, []) := by
  have hsize : sizeAdd nlen 1 = nlen + 1 := sizeAdd_of_lt (by omega)
  have hmalloc : malloc (nlen + 1) [] = (some (List.replicate (nlen + 1) 0), []) := by
    rw [malloc, if_pos ⟨hlt, rfl⟩, List.tail_nil]
  have hrealloc : realloc st.buffer (nlen + 1) [] =
      (some (resize (st.buffer.getD []) (nlen + 1) 0), []) := by
    rw [realloc, if_pos ⟨hlt, rfl⟩, List.tail_nil]
  rw [room, hsize, hmalloc, hrealloc] at h
  split at h
  next => exact ⟨_, _, (Option.some.inj h).symm⟩
  next =>
    split at h
    next => exact ⟨_, _, (Option.some.inj h).symm⟩
    next =>
      split at h
      next =>
        cases hw : writePtr st.buffer nlen (List.replicate (st.capacity - nlen) 0) with
        | none =>
          rw [hw] at h
          cases h
        | some p =>
          rw [hw] at h
          exact ⟨_, _, (Option.some.inj h).symm⟩
      next => exact ⟨_, _, (Option.some.inj h).symm⟩

theorem alloc_text {st : StringRep} {str : Option Bytes} {len curlen : Nat} (h : Sound st)
    (hcur : curlen ≤ st.length) (hstr : Readable str len) (hlt : curlen + len + 1 < 2 ^ 63) :
    ∃ st', st.alloc str len curlen [] = some (true, st', []) ∧ Sound st' ∧
      st'.text = st.text.take curlen ++ (str.getD []).take len := by
  obtain ⟨ok, st', heap', heq, hs, htext⟩ := alloc_sound [] h hcur hstr
  obtain ⟨rfl, rfl⟩ : ok = true ∧ heap' = [] := by
    have hsum : sizeAdd curlen len = curlen + len := sizeAdd_of_lt (by omega)
    rw [alloc, hsum] at heq
    simp only [Option.bind_eq_bind] at heq
    split at heq
    next =>
      split at heq
      next =>
        cases hw : writePtr st.buffer 0 (List.replicate st.length 0) with
        | none =>
          rw [hw] at heq
          cases heq
        | some p =>
          rw [hw] at heq
          cases heq
          exact ⟨rfl, rfl⟩
      next =>
        cases heq
        exact ⟨rfl, rfl⟩
    next =>
      cases hr : st.room (curlen + len) curlen [] with
      | none =>
        rw [hr] at heq
        cases heq
      | some o =>
        obtain ⟨p, capacity, rfl⟩ := room_nil hlt hr
        rw [hr] at heq
        simp only [Option.bind_some, Option.bind_eq_some_iff, Option.some.injEq, Prod.mk.injEq] at heq
        obtain ⟨_, -, _, -, _, -, rfl, -, rfl⟩ := heq
        exact ⟨rfl, rfl⟩
  exact ⟨st', heq, hs, htext rfl⟩

end StringRep

/-! ## One round -/

open StringRunsLemmas StringBufferLemmas

variable {st : StringRep} {b p pat : Bytes} {into : Option Bytes} {r : Replacing} {base i : Nat}

/-- The text that is put in the place of an occurrence. -/
def intoText (into : Option Bytes) : Bytes :=
  cstr (into.getD [])

theorem take_strlen (str : Option Bytes) : (str.getD []).take (StringRep.strlen str) = intoText str := by
  cases str with
  | none => rfl
  | some m => exact (List.prefix_iff_eq_take.mp (cstr_isPrefix m)).symm

theorem toChars_text (st : StringRep) : (st.toChars.getD []).take st.length = st.text := by
  rw [StringRep.toChars]
  split
  next h0 => rw [text_of_length h0, h0, List.take_zero]
  next => rfl

/-- `append` behind the text, when memory is there. -/
theorem append_text (h : Sound st) {str : Option Bytes} {len : Nat} (hstr : Readable str len)
    (hlt : st.text.length + len + 1 < 2 ^ 63) :
    ∃ st', st.alloc str len st.length [] = some (true, st', []) ∧ Sound st' ∧
      st'.text = st.text ++ (str.getD []).take len := by
  rw [text_length h] at hlt
  obtain ⟨st', heq, hs, htext⟩ := StringRep.alloc_text h le_rfl hstr hlt
  refine ⟨st', heq, hs, ?_⟩
  rw [htext, ← text_length h, List.take_length]

theorem before_text (h : Replaces b r) (hheap : r.heap = []) (hi : i ≤ p.length) (hint : i < 2 ^ 31)
    (hlt : r.sVal.text.length + i + 1 < 2 ^ 63) :
    ∃ sVal sTest, r.before p i = some (sVal, sTest, []) ∧ Sound sVal ∧
      sVal.text = r.sVal.text ++ p.take i := by
  rw [Replacing.before, hheap]
  by_cases h0 : i = 0
  · subst h0
    exact ⟨r.sVal, r.sTest, by rw [if_neg (not_not_intro Nat.cast_zero)], h.val_sound, by simp⟩
  · obtain ⟨sTest, hset, htest, htext⟩ := StringRep.alloc_text h.test_sound
      (Nat.zero_le _) (show Readable (some p) i from ⟨by omega, .inr ⟨p, rfl, hi⟩⟩) (by omega)
    rw [List.take_zero, List.nil_append, Option.getD_some] at htext
    have hlen : sTest.length = i := by
      rw [← text_length htest, htext, List.length_take, min_eq_left hi]
    obtain ⟨sVal, happend, hval, hvtext⟩ := append_text h.val_sound (readable_toChars htest)
      (by omega)
    refine ⟨sVal, sTest, ?_, hval, ?_⟩
    · rw [if_pos (by omega), StringRep.setLen, toSizeT_natCast (by omega), hset]
      simp only [Option.bind_eq_bind, Option.bind_some, happend]
    · rw [hvtext, toChars_text sTest, htext]

/-- What is appended for one occurrence. -/
theorem join_text (h : Replaces b r) (hheap : r.heap = []) (hi : i ≤ p.length) (hint : i < 2 ^ 31)
    (hlt : r.sVal.text.length + i + StringRep.strlen into + 1 < 2 ^ 63) :
    ∃ sVal sTest, r.join p i into = some (sVal, sTest, []) ∧
      sVal.text = r.sVal.text ++ p.take i ++ intoText into := by
  obtain ⟨sVal, sTest, hbefore, hval, htext⟩ := before_text h hheap hi hint (by omega)
  have hlen : sVal.text.length = r.sVal.text.length + i := by
    rw [htext, List.length_append, List.length_take, min_eq_left hi]
  obtain ⟨sVal', happend, -, htext'⟩ := append_text hval
    (readable_strlen (show StringRep.strlen into < 2 ^ 63 by omega)) (by omega)
  refine ⟨sVal', sTest, ?_, ?_⟩
  · rw [Replacing.join, hbefore]
    simp only [Option.bind_eq_bind, Option.bind_some, StringRep.append, happend]
  · rw [htext', htext, take_strlen]

theorem replaceRound_none (hend : (0 : UInt8) ∈ b) (hbase : r.base = base)
    (hle : base ≤ (cstr b).length) (hf : find (cstr pat) ((cstr b).drop base) = none) :
    replaceRound b pat into r = .done (some r) := by
  obtain ⟨hfrom, hcstr⟩ := textFrom_of_le hend hle
  rw [replaceRound, hbase, hfrom]
  refine if_pos ?_
  rw [indexOf, strstr, hcstr, hf]

/-- A round that finds an occurrence goes on behind it, as long as an `int` can say where
that is. -/
theorem replaceRound_some (hend : (0 : UInt8) ∈ b) (hto : StringRep.strlen into < 2 ^ 63)
    (h : Replaces b r) (hbase : r.base = base) (hle : base ≤ (cstr b).length)
    (hf : find (cstr pat) ((cstr b).drop base) = some i)
    (hint : base + i + (cstr pat).length < 2 ^ 31) :
    ∃ r', replaceRound b pat into r = .next r' ∧ Replaces b r' ∧
      r'.base = (base + i + (cstr pat).length : Nat) ∧
      (r.heap = [] → r.sVal.text.length + i + StringRep.strlen into + 1 < 2 ^ 63 →
        r'.heap = [] ∧
          r'.sVal.text = r.sVal.text ++ ((cstr b).drop base).take i ++ intoText into) := by
  obtain ⟨hfrom, hcstr⟩ := textFrom_of_le hend hle
  have hfits := find_add_length_le hf
  rw [List.length_drop] at hfits
  have hbehind : base + i + (cstr pat).length ≤ (cstr b).length := by omega
  have hlt : i < 2 ^ 31 := by omega
  have hprefix : (cstr b).drop base <+: b.drop base := hcstr ▸ cstr_isPrefix _
  have hi : i ≤ ((cstr b).drop base).length := by
    rw [List.length_drop]
    omega
  have hlen : i ≤ (b.drop base).length := hi.trans hprefix.length_le
  have hindex : indexOf (b.drop base) pat = i := by
    rw [indexOf, strstr, hcstr, hf]
    exact int_of_lt hlt
  obtain ⟨sVal, sTest, heap, hjoin, hval, htest⟩ := join_keeps (p := b.drop base) i h hto
    hlen hlt
  have hnext : Int.bmod (base + i + (cstr pat).length) (2 ^ 32) =
      (base + i + (cstr pat).length : Nat) := by
    rw [← Nat.cast_add, ← Nat.cast_add]
    exact int_of_lt hint
  refine ⟨⟨(base + i + (cstr pat).length : Nat), sVal, sTest, heap⟩, ?_,
    ⟨⟨_, rfl, hbehind⟩, hval, htest⟩, rfl, fun hheap hfit => ?_⟩
  · rw [replaceRound, hbase, hfrom]
    simp only [hindex, if_neg (show ¬ (i : Int) = -1 by omega), hjoin, hnext]
  · obtain ⟨sVal', sTest', hjoin', htext⟩ := join_text h hheap hlen hlt hfit
    obtain ⟨rfl, rfl, rfl⟩ : sVal = sVal' ∧ sTest = sTest' ∧ heap = [] := by
      simpa only [Option.some.injEq, Prod.mk.injEq] using hjoin.symm.trans hjoin'
    refine ⟨rfl, ?_⟩
    have htake : ((cstr b).drop base).take i = (b.drop base).take i := by
      obtain ⟨t, ht⟩ := hprefix
      rw [← ht, List.take_append_of_le_length hi]
    rw [htext, htake]

/-! ## The loop -/

/-- The rest of the text, with its occurrences replaced. -/
def replaced (pat : Bytes) (into : Option Bytes) (s : Bytes) : Bytes :=
  List.intercalate (intoText into) (pieces (cstr pat) s)

/-- An `int` can say where the occurrences that are replaced end. -/
def Countable (pat s : Bytes) : Prop :=
  ∀ i ∈ places pat s, i + pat.length < 2 ^ 31

instance (pat s : Bytes) : Decidable (Countable pat s) :=
  inferInstanceAs (Decidable (∀ i ∈ places pat s, i + pat.length < 2 ^ 31))

/-- What stands in front of every round. Started with memory, with the occurrences before
`base` replaced. -/
structure Progress (b pat : Bytes) (into : Option Bytes) (heap : Heap) (r : Replacing) (base : Nat) :
    Prop where
  replaces : Replaces b r
  base_eq : r.base = base
  base_le : base ≤ (cstr b).length
  countable : ∀ i ∈ places (cstr pat) ((cstr b).drop base), base + i + (cstr pat).length < 2 ^ 31
  text : heap = [] → (replaced pat into (cstr b)).length + 1 < 2 ^ 63 →
    r.heap = [] ∧ r.sVal.text ++ replaced pat into ((cstr b).drop base) = replaced pat into (cstr b)

theorem length_intoText (into : Option Bytes) : (intoText into).length = StringRep.strlen into := by
  cases into <;> rfl

/-- One round, with a text to replace: the end of the loop, or progress. -/
theorem Progress.step {heap : Heap} (hend : (0 : UInt8) ∈ b) (hpat : cstr pat ≠ [])
    (hto : StringRep.strlen into < 2 ^ 63) (h : Progress b pat into heap r base) :
    (replaceRound b pat into r = .done (some r) ∧
        find (cstr pat) ((cstr b).drop base) = none) ∨
      ∃ r' base', replaceRound b pat into r = .next r' ∧ Progress b pat into heap r' base' ∧
        base < base' := by
  have hle := h.base_le
  cases hf : find (cstr pat) ((cstr b).drop base) with
  | none => exact .inl ⟨replaceRound_none hend h.base_eq hle hf, rfl⟩
  | some i =>
    have hplaces := h.countable
    rw [places_of_some hpat hf, List.forall_mem_cons, List.forall_mem_map] at hplaces
    obtain ⟨r', hnext, hr', hbase', htext'⟩ := replaceRound_some hend hto h.replaces h.base_eq
      hle hf hplaces.1
    have hfits := find_add_length_le hf
    rw [List.length_drop] at hfits
    have hpos := List.length_pos_iff.mpr hpat
    refine .inr ⟨r', base + i + (cstr pat).length, hnext, ⟨hr', hbase', by omega, ?_, ?_⟩, by omega⟩
    · intro j hj
      have hj' := hplaces.2 j (by rwa [List.drop_drop, ← Nat.add_assoc])
      omega
    · intro hheap hfit
      obtain ⟨hnil, htext⟩ := h.text hheap hfit
      have hcut := intercalate_pieces_of_some hpat hf (intoText into)
      rw [List.drop_drop, ← Nat.add_assoc] at hcut
      rw [replaced, hcut] at htext
      have hlen := congrArg List.length htext
      rw [List.length_append, List.length_append, List.length_append, length_intoText,
        List.length_take, List.length_drop, min_eq_left (by omega)] at hlen
      obtain ⟨hnil', hval⟩ := htext' hnil (by omega)
      refine ⟨hnil', ?_⟩
      rw [hval, replaced, ← htext]
      simp only [List.append_assoc]

/-- The loop ends, with the last piece of the text still to append. -/
theorem Progress.returns {heap : Heap} (hend : (0 : UInt8) ∈ b) (hpat : cstr pat ≠ [])
    (hto : StringRep.strlen into < 2 ^ 63) (h : Progress b pat into heap r base) :
    ∃ e base', Returns (replaceRound b pat into) r (some e) ∧ Progress b pat into heap e base' ∧
      find (cstr pat) ((cstr b).drop base') = none := by
  induction hn : (cstr b).length - base using Nat.strong_induction_on generalizing r base with
  | _ n ih =>
    rcases h.step hend hpat hto with ⟨hdone, hf⟩ | ⟨r', base', hnext, h', hlt⟩
    · exact ⟨r, base, returns_of_done hdone, h, hf⟩
    · have hle := h'.base_le
      obtain ⟨e, base₁, hret, he, hf⟩ := ih _ (by omega) h' rfl
      exact ⟨e, base₁, (returns_next_iff hnext).mpr hret, he, hf⟩

/-- Behind the loop the last piece is appended, and the whole assigned. -/
theorem Progress.finish {heap : Heap} (hend : (0 : UInt8) ∈ b) (hst : Sound st)
    (hb : b.length < 2 ^ 63) (h : Progress b pat into heap r base)
    (hf : find (cstr pat) ((cstr b).drop base) = none) :
    ∃ st', r.finish st b = some st' ∧
      (heap = [] → (replaced pat into (cstr b)).length + 1 < 2 ^ 63 →
        st'.text = replaced pat into (cstr b)) := by
  obtain ⟨hfrom, hcstr⟩ := textFrom_of_le hend h.base_le
  have hlen : StringRep.strlen (some (b.drop base)) = (cstr b).length - base := by
    show (cstr (b.drop base)).length = _
    rw [hcstr, List.length_drop]
  have hble := (cstr_isPrefix b).length_le
  have hread : Readable (some (b.drop base)) (StringRep.strlen (some (b.drop base))) :=
    readable_strlen (by omega)
  obtain ⟨_, sVal, heap₁, happend, hval⟩ := alloc_keeps _ _ r.heap h.replaces.val_sound le_rfl hread
  obtain ⟨_, st', heap₂, hassign, -⟩ := alloc_keeps _ _ heap₁ hst (Nat.zero_le _)
    (readable_toChars hval)
  have hfinish : r.finish st b = some st' := by
    rw [Replacing.finish, h.base_eq, hfrom]
    simp only [Option.bind_eq_bind, Option.bind_some, StringRep.append, happend, hassign]
  refine ⟨st', hfinish, fun hheap hfit => ?_⟩
  obtain ⟨hnil, htext⟩ := h.text hheap hfit
  rw [replaced, pieces_of_none hf, List.intercalate_singleton] at htext
  have hsum := congrArg List.length htext
  rw [List.length_append, List.length_drop] at hsum
  -- the same two allocations, known to succeed
  rw [hnil] at happend
  obtain ⟨sVal', happend', -, hvtext⟩ := append_text h.replaces.val_sound hread (by omega)
  obtain ⟨rfl, rfl⟩ : sVal = sVal' ∧ heap₁ = [] := by
    have := happend.symm.trans happend'
    simp only [Option.some.injEq, Prod.mk.injEq] at this
    exact ⟨this.2.1, this.2.2⟩
  rw [take_strlen, intoText, Option.getD_some, hcstr, htext] at hvtext
  obtain ⟨st'', hassign', -, hstext⟩ := StringRep.alloc_text hst (Nat.zero_le _)
    (readable_toChars hval) (by rw [← text_length hval, hvtext]; omega)
  obtain rfl : st' = st'' := by
    have := hassign.symm.trans hassign'
    simp only [Option.some.injEq, Prod.mk.injEq] at this
    exact this.2.1
  rw [hstext, List.take_zero, List.nil_append, toChars_text, hvtext]

/-- The empty text is found where `base` stands, in every round again. -/
theorem not_returns_nil {e : Option Replacing} (hend : (0 : UInt8) ∈ b) (hpat : cstr pat = [])
    (hto : StringRep.strlen into < 2 ^ 63) (h : Replaces b r) (hbase : r.base = 0) :
    ¬ Returns (replaceRound b pat into) r e := by
  have hround : ∀ r, Replaces b r → r.base = 0 →
      ∃ r', replaceRound b pat into r = .next r' ∧ Replaces b r' ∧ r'.base = 0 := by
    intro r hr hbase
    have hf : find (cstr pat) ((cstr b).drop 0) = some 0 := hpat ▸ find_of_starts List.nil_prefix
    obtain ⟨r', hnext, hr', hbase', -⟩ := replaceRound_some hend hto hr hbase (Nat.zero_le _) hf
      (by rw [hpat]; decide)
    exact ⟨r', hnext, hr', by rw [hbase', hpat]; rfl⟩
  intro hret
  refine hret.induct (P := fun r => Replaces b r → r.base = 0 → False) ?_ ?_ h hbase
  · intro r hdone hr hbase
    obtain ⟨r', hnext, -⟩ := hround r hr hbase
    rw [hnext] at hdone
    cases hdone
  · intro r r' hnext _ ih hr hbase
    obtain ⟨r₁, hnext', hr', hbase'⟩ := hround r hr hbase
    obtain rfl := Round.next.inj (hnext'.symm.trans hnext)
    exact ih hr' hbase'

/-! ## The whole -/

/-- The text of a buffer, when no NUL stands in it. -/
theorem cstr_buffer (h : Sound st) (hb : st.buffer = some b) (h0 : (0 : UInt8) ∉ st.text) :
    cstr b = st.text := by
  have htext : st.text = b.take st.length := by rw [StringRep.text, hb, Option.getD_some]
  have hend := h.ended b hb
  obtain ⟨hlt, hget⟩ := List.getElem?_eq_some_iff.mp hend
  have hsplit : b = st.text ++ (0 : UInt8) :: b.drop (st.length + 1) := by
    rw [htext, ← hget, ← List.drop_eq_getElem_cons hlt, List.take_append_drop]
  rw [hsplit, cstr_append_of_not_mem h0]
  simp [cstr]

/-- `replace` of the text `pat` by `into` ends, under every outcome of the allocations, and
when they succeed a text that is not empty is replaced everywhere. -/
def ReplaceCorrect (st : StringRep) (pat : Bytes) (into : Option Bytes) : Prop :=
  (∀ heap, ∃ st', ReplaceText st (some pat) into heap (some st')) ∧
    (cstr pat ≠ [] → (replaced pat into st.text).length + 1 < 2 ^ 63 →
      ∀ st', ReplaceText st (some pat) into [] (some st') → st'.text = replaced pat into st.text)

theorem replaceCorrect_none (h : Sound st) (hb : st.buffer = none) :
    ReplaceCorrect st pat into := by
  have hzero : st.length = 0 := by
    by_contra hne
    have hle := h.length_le
    obtain ⟨b, hb', -⟩ := h.exists_buffer (by omega)
    rw [hb] at hb'
    cases hb'
  have hread : Readable none 0 := ⟨by omega, .inl rfl⟩
  constructor
  · intro heap
    obtain ⟨_, st', _, halloc, -⟩ := alloc_keeps none 0 heap h (Nat.zero_le _) hread
    refine ⟨st', ?_⟩
    simp only [ReplaceText, hb, halloc, Option.map_some]
  · intro hpat _ st' hret
    obtain ⟨st'', halloc, -, htext⟩ := StringRep.alloc_text h (Nat.zero_le _) hread (by decide)
    simp only [ReplaceText, hb, halloc, Option.map_some, Option.some.injEq] at hret
    have hnone : find (cstr pat) [] = none := if_neg hpat
    rw [hret, htext, text_of_length hzero, replaced, pieces_of_none hnone,
      List.intercalate_singleton]
    rfl

theorem replaceCorrect_some (h : Sound st) (hb : st.buffer = some b) (h0 : (0 : UInt8) ∉ st.text)
    (hto : StringRep.strlen into < 2 ^ 63) (hpat : cstr pat ≠ [])
    (hint : Countable (cstr pat) st.text) : ReplaceCorrect st pat into := by
  have hend : (0 : UInt8) ∈ b := List.mem_of_getElem? (h.ended b hb)
  have hcstr := cstr_buffer h hb h0
  -- every outcome of the allocations
  have hrun : ∀ heap, ∃ e st', Returns (replaceRound b pat into) ⟨0, .init, .init, heap⟩ (some e) ∧
      e.finish st b = some st' ∧ (heap = [] → (replaced pat into st.text).length + 1 < 2 ^ 63 →
        st'.text = replaced pat into st.text) := by
    intro heap
    have hstart : Progress b pat into heap ⟨0, .init, .init, heap⟩ 0 := by
      refine ⟨⟨⟨0, rfl, Nat.zero_le _⟩, Sound.init, Sound.init⟩, rfl, Nat.zero_le _, ?_, ?_⟩
      · intro i hi
        rw [List.drop_zero, hcstr] at hi
        rw [Nat.zero_add]
        exact hint i hi
      · exact fun hheap _ => ⟨hheap, rfl⟩
    obtain ⟨e, base, hret, he, hf⟩ := hstart.returns hend hpat hto
    obtain ⟨st', hfinish, htext⟩ := he.finish hend h (h.block_lt b hb) hf
    exact ⟨e, st', hret, hfinish, hcstr ▸ htext⟩
  constructor
  · intro heap
    obtain ⟨e, st', hret, hfinish, -⟩ := hrun heap
    refine ⟨st', ?_⟩
    simp only [ReplaceText, hb]
    exact ⟨some e, hret, by rw [Option.bind_some, hfinish]⟩
  · intro _ hfit st' hst'
    obtain ⟨e, st'', hret, hfinish, htext⟩ := hrun []
    simp only [ReplaceText, hb] at hst'
    obtain ⟨e', hret', heq⟩ := hst'
    rw [hret'.unique hret, Option.bind_some, hfinish] at heq
    rw [Option.some.inj heq]
    exact htext rfl hfit

/-- `replace` does what it should when the text to replace is not empty and an `int` can say
where its occurrences end. With the empty text it never ends, unless there is no buffer. -/
theorem replace_correct (st : StringRep) (pat : Bytes) (into : Option Bytes) (h : Sound st)
    (h0 : (0 : UInt8) ∉ st.text) (hto : StringRep.strlen into < 2 ^ 63) :
    (st.buffer = none ∨ cstr pat ≠ [] ∧ Countable (cstr pat) st.text →
        ReplaceCorrect st pat into) ∧
      (ReplaceCorrect st pat into → st.buffer = none ∨ cstr pat ≠ []) := by
  constructor
  · rintro (hb | ⟨hpat, hint⟩)
    · exact replaceCorrect_none h hb
    · rcases hb : st.buffer with _ | b
      · exact replaceCorrect_none h hb
      · exact replaceCorrect_some h hb h0 hto hpat hint
  · rintro ⟨hends, -⟩
    rcases hb : st.buffer with _ | b
    · exact .inl rfl
    · refine .inr fun hpat => ?_
      obtain ⟨st', hret⟩ := hends []
      simp only [ReplaceText, hb] at hret
      obtain ⟨e, hret, -⟩ := hret
      exact not_returns_nil (List.mem_of_getElem? (h.ended b hb)) hpat hto
        ⟨⟨0, rfl, Nat.zero_le _⟩, Sound.init, Sound.init⟩ rfl hret

def exReplace : StringRep := ⟨some (bytes "aaa" ++ [0]), 3, 3⟩

theorem sound_exReplace : Sound exReplace := by
  refine ⟨⟨le_rfl, fun _ => ⟨_, rfl, le_rfl⟩, ?_⟩, ?_⟩
  · rintro _ ⟨⟩
    decide
  · rintro _ ⟨⟩
    decide

theorem replace_correct_overlapping :
    ReplaceCorrect exReplace (bytes "aa") (some (bytes "baab")) :=
  (replace_correct exReplace (bytes "aa") (some (bytes "baab")) sound_exReplace (by decide)
    (by decide)).1 (.inr ⟨by decide, by decide⟩)

example : replaced (bytes "aa") (some (bytes "baab")) exReplace.text = bytes "baaba" := by
  simp [replaced, show pieces (cstr (bytes "aa")) exReplace.text = [[], bytes "a"] by decide]
  decide

/-- `replace("", "b")` of a string with a buffer does not end. -/
theorem not_replace_correct : ¬ ∀ (st : StringRep) (pat : Bytes) (into : Option Bytes), Sound st →
    (0 : UInt8) ∉ st.text → StringRep.strlen into < 2 ^ 63 → ReplaceCorrect st pat into := by
  intro h
  obtain ⟨st', hret⟩ := (h exReplace [] (some (bytes "b")) sound_exReplace (by decide)
    (by decide)).1 []
  obtain ⟨e, hret, -⟩ := hret
  exact not_returns_nil (by decide) rfl (by decide)
    ⟨⟨0, rfl, Nat.zero_le _⟩, Sound.init, Sound.init⟩ rfl hret

end Dframework
