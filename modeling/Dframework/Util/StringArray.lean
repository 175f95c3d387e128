import Mathlib
import Dframework.Lang.String
import Dframework.Library.Loop
import Dframework.Library.Pieces

/-!
# `StringArray`

`split` cuts a text at a separator and drops the empty segments. At a separator it moves on
by one byte, whatever the length of the separator is.

Results:
1. `StringArray.split_joined`: segments that are not empty come back from the text they make.
2. `StringArray.splits_iff`: the loop stays in the buffer and ends, with the list of `split`.
3. `StringArray.split_correct_iff`: when that list is the pieces between the separators.
-/

namespace Dframework

open CLib Loop Search

namespace StringArray

/-- The loop of `StringArray::split`, from the pointer `buf` on. -/
def splitLoop (str : Bytes) : Nat → Bytes → List Bytes
  | 0, _ => []
  | fuel + 1, buf =>
    match strstr buf str with
    | none => if cstr buf = [] then [] else [cstr buf]
    | some 0 => splitLoop str fuel (buf.drop 1)
    | some size => buf.take size :: splitLoop str fuel (buf.drop size)

/-- `StringArray::split`, for a separator that is not empty. -/
def split (buffer : Option Bytes) (str : Bytes) : List Bytes :=
  match buffer with
  | none => []
  | some buf => splitLoop str (buf.length + 1) buf

variable {c : UInt8} {p : Bytes} {ps : List Bytes} {fuel : Nat}

/-- A text that can stand between two separators. -/
structure Segment (c : UInt8) (p : Bytes) : Prop where
  ne_nil : p ≠ []
  not_mem : c ∉ p
  not_nul : (0 : UInt8) ∉ p

/-- The segments in a row, each behind a separator but for the first. -/
def joined (c : UInt8) (p : Bytes) (ps : List Bytes) : Bytes :=
  p ++ (ps.map (c :: ·)).flatten

theorem joined_cons (q : Bytes) (qs : List Bytes) :
    joined c p (q :: qs) = p ++ c :: joined c q qs := by
  rw [joined, joined, List.map_cons, List.flatten_cons, List.cons_append]

/-- At a separator the loop moves on by one byte. -/
theorem splitLoop_separator (hc : c ≠ 0) (m : Bytes) :
    splitLoop [c] (fuel + 1) (c :: m) = splitLoop [c] fuel m := by
  have hat : strstr (c :: m) [c] = some 0 :=
    strstr_char (a := []) List.not_mem_nil List.not_mem_nil hc m
  rw [splitLoop, hat]
  rfl

theorem splitLoop_joined (hc : c ≠ 0) (hp : Segment c p) (hps : ∀ q ∈ ps, Segment c q)
    (hfuel : (joined c p ps).length < fuel) : splitLoop [c] fuel (joined c p ps) = p :: ps := by
  induction ps generalizing p fuel with
  | nil =>
    obtain ⟨fuel, rfl⟩ := Nat.exists_eq_succ_of_ne_zero (Nat.ne_of_gt (Nat.zero_lt_of_lt hfuel))
    rw [show joined c p [] = p from List.append_nil p, splitLoop, strstr_char_none hp.not_mem]
    simp only [cstr_of_not_mem hp.not_nul, if_neg hp.ne_nil]
  | cons q qs ih =>
    rw [joined_cons] at hfuel ⊢
    have hpos := List.length_pos_iff.mpr hp.ne_nil
    rw [List.length_append, List.length_cons] at hfuel
    -- one round for the segment, one for the separator behind it
    obtain ⟨fuel, rfl⟩ : ∃ k, fuel = k + 2 := ⟨fuel - 2, by omega⟩
    obtain ⟨n, hn⟩ := Nat.exists_eq_succ_of_ne_zero (Nat.ne_of_gt hpos)
    rw [splitLoop, strstr_char hp.not_nul hp.not_mem hc, hn]
    simp only [Nat.succ_eq_add_one]
    rw [← Nat.succ_eq_add_one, ← hn, List.take_left, List.drop_left, splitLoop_separator hc,
      ih (hps q List.mem_cons_self) (fun r hr => hps r (List.mem_cons_of_mem q hr)) (by omega)]

theorem split_joined (hc : c ≠ 0) (hp : Segment c p) (hps : ∀ q ∈ ps, Segment c q) :
    split (some (joined c p ps)) [c] = p :: ps :=
  splitLoop_joined hc hp hps (Nat.lt_succ_self _)

/-! ## Any separator -/

/-- The locals of `StringArray::split`: the index of `buf` in the buffer, and the list. -/
structure Splitting where
  buf : Nat
  list : List Bytes
  deriving DecidableEq, Repr

/-- One pass of the loop of `StringArray::split`, for any separator. Behind the terminator
there is nothing that `strstr` may read. -/
def splitRound (buffer str : Bytes) (r : Splitting) : Round Splitting (Option (List Bytes)) :=
  if (cstr buffer).length < r.buf then .done none
  else
    let buf := buffer.drop r.buf
    match strstr buf str with
    | none => .done (some (if cstr buf = [] then r.list else r.list ++ [cstr buf]))
    | some 0 => .next { r with buf := r.buf + 1 }
    | some size => .next ⟨r.buf + size, r.list ++ [buf.take size]⟩

/-- `StringArray::split` ends with the list `r`; `none` is a read behind the terminator. -/
def Splits (buffer : Option Bytes) (str : Bytes) (r : Option (List Bytes)) : Prop :=
  match buffer with
  | none => r = some []
  | some buf => Returns (splitRound buf str) ⟨0, []⟩ r

variable {buf buffer str : Bytes} {i n : Nat}

theorem strstr_of_not_mem (h : (0 : UInt8) ∉ buf) : strstr buf str = find str buf := by
  rw [strstr, cstr_of_not_mem h]

theorem not_mem_drop (h : (0 : UInt8) ∉ buf) (n : Nat) : (0 : UInt8) ∉ buf.drop n :=
  fun hm => h (List.mem_of_mem_drop hm)

/-- The loop with its index does what the one on the rest of the text does. -/
theorem returns_splitRound (hbuf : (0 : UInt8) ∉ buffer) (hstr : str ≠ []) {pos : Nat}
    (hpos : pos ≤ buffer.length) (hfuel : buffer.length - pos < fuel) (list : List Bytes) :
    Returns (splitRound buffer str) ⟨pos, list⟩
      (some (list ++ splitLoop str fuel (buffer.drop pos))) := by
  induction fuel generalizing pos list with
  | zero => exact absurd hfuel (Nat.not_lt_zero _)
  | succ fuel ih =>
    have hin : ¬ (cstr buffer).length < pos := by
      rw [cstr_of_not_mem hbuf]
      omega
    have hrest := not_mem_drop hbuf pos
    cases hf : find str (buffer.drop pos) with
    | none =>
      refine returns_of_done ?_
      rw [splitRound, if_neg hin, splitLoop]
      simp only [strstr_of_not_mem hrest, hf, cstr_of_not_mem hrest]
      split <;> simp
    | some size =>
      have hsize := find_add_length_le hf
      have hpat := List.length_pos_iff.mpr hstr
      rw [List.length_drop] at hsize
      cases size with
      | zero =>
        have hnext : splitRound buffer str ⟨pos, list⟩ = .next ⟨pos + 1, list⟩ := by
          rw [splitRound, if_neg hin]
          simp only [strstr_of_not_mem hrest, hf]
        rw [returns_next_iff hnext, splitLoop, strstr_of_not_mem hrest, hf]
        simp only [List.drop_drop]
        exact ih (by omega) (by omega) list
      | succ size =>
        have hnext : splitRound buffer str ⟨pos, list⟩ =
            .next ⟨pos + (size + 1), list ++ [(buffer.drop pos).take (size + 1)]⟩ := by
          rw [splitRound, if_neg hin]
          simp only [strstr_of_not_mem hrest, hf]
        have hih := ih (show pos + (size + 1) ≤ buffer.length by omega) (by omega)
          (list ++ [(buffer.drop pos).take (size + 1)])
        rw [returns_next_iff hnext, splitLoop, strstr_of_not_mem hrest, hf]
        simpa only [List.drop_drop, List.append_assoc, List.singleton_append] using hih

/-- With a separator the loop stays in front of the terminator and ends. -/
theorem splits_iff (hbuf : (0 : UInt8) ∉ buffer) (hstr : str ≠ []) {r : Option (List Bytes)} :
    Splits (some buffer) str r ↔ r = some (split (some buffer) str) := by
  have hret : Splits (some buffer) str (some (split (some buffer) str)) :=
    returns_splitRound hbuf hstr (Nat.zero_le _) (Nat.lt_add_one buffer.length) []
  constructor
  · exact fun h => h.unique hret
  · rintro rfl
    exact hret

/-- The empty separator is found everywhere: the loop runs past the terminator. -/
theorem splits_nil (hbuf : (0 : UInt8) ∉ buffer) : Splits (some buffer) [] none := by
  have hstep : ∀ k pos, buffer.length + 1 - pos = k → Returns (splitRound buffer []) ⟨pos, []⟩ none := by
    intro k
    induction k with
    | zero =>
      intro pos hk
      refine returns_of_done ?_
      rw [splitRound, cstr_of_not_mem hbuf, if_pos (show buffer.length < pos by omega)]
    | succ k ih =>
      intro pos hk
      have hnext : splitRound buffer [] ⟨pos, []⟩ = .next ⟨pos + 1, []⟩ := by
        rw [splitRound, cstr_of_not_mem hbuf, if_neg (show ¬ buffer.length < pos by omega)]
        simp only [strstr_of_not_mem (not_mem_drop hbuf pos), find_of_starts List.nil_prefix]
      exact (returns_next_iff hnext).mpr (ih (pos + 1) (by omega))
  exact hstep _ 0 rfl

/-! ## What is lost -/

/-- The loop drops one byte for each occurrence of the separator, overlapping ones included. -/
theorem total_splitLoop (hstr : str ≠ []) (hbuf : (0 : UInt8) ∉ buf) (hfuel : buf.length < fuel) :
    ((splitLoop str fuel buf).map List.length).sum + occurrences str buf = buf.length := by
  induction fuel generalizing buf with
  | zero => exact absurd hfuel (Nat.not_lt_zero _)
  | succ fuel ih =>
    rw [splitLoop, strstr_of_not_mem hbuf]
    cases hf : find str buf with
    | none =>
      rw [occurrences_of_none hf, cstr_of_not_mem hbuf]
      show ((if buf = [] then [] else [buf]).map List.length).sum + 0 = _
      by_cases h : buf = [] <;> simp [h]
    | some size =>
      have hsize := find_add_length_le hf
      have hpat := List.length_pos_iff.mpr hstr
      cases size with
      | zero =>
        have hone : occurrencesBefore str buf 1 = 1 := occurrencesBefore_eq_iff.mpr fun j hj => by
          obtain rfl : j = 0 := Nat.lt_one_iff.mp hj
          exact find_starts hf
        have hrest := ih (not_mem_drop hbuf 1) (by rw [List.length_drop]; omega)
        rw [List.length_drop] at hrest
        show ((splitLoop str fuel (buf.drop 1)).map List.length).sum + _ = _
        rw [occurrences_drop str buf (n := 1) (by omega), hone]
        omega
      | succ size =>
        have hnone : occurrencesBefore str buf (size + 1) = 0 :=
          List.countP_eq_zero.mpr fun j hj hp => (find_eq_some_iff.mp hf).2.2 j
            (List.mem_range.mp hj) (List.isPrefixOf_iff_prefix.mp hp)
        have hrest := ih (not_mem_drop hbuf (size + 1)) (by rw [List.length_drop]; omega)
        rw [List.length_drop] at hrest
        show ((buf.take (size + 1) :: splitLoop str fuel (buf.drop (size + 1))).map
          List.length).sum + _ = _
        rw [occurrences_drop str buf (n := size + 1) (by omega), hnone, List.map_cons,
          List.sum_cons, List.length_take, min_eq_left (by omega)]
        omega

/-- Where an occurrence starts at every byte, all of them are passed by. -/
theorem splitLoop_skip (hbuf : (0 : UInt8) ∉ buf) (hall : ∀ k < n, str <+: buf.drop k) :
    splitLoop str (fuel + n) buf = splitLoop str fuel (buf.drop n) := by
  induction n generalizing buf with
  | zero => rfl
  | succ n ih =>
    have hf : strstr buf str = some 0 := by
      rw [strstr_of_not_mem hbuf]
      exact find_of_starts (hall 0 (Nat.succ_pos n))
    have hrest : ∀ k < n, str <+: (buf.drop 1).drop k := by
      intro k hk
      rw [List.drop_drop, Nat.add_comm]
      exact hall (k + 1) (by omega)
    rw [← Nat.add_assoc, splitLoop, hf]
    show splitLoop str (fuel + n) (buf.drop 1) = _
    rw [ih (not_mem_drop hbuf 1) hrest, List.drop_drop, Nat.add_comm]

/-- Then the loop finds the pieces that are not empty. -/
theorem splitLoop_dense (hstr : str ≠ []) (hbuf : (0 : UInt8) ∉ buf) (hfuel : buf.length < fuel)
    (hdense : Dense str buf) :
    splitLoop str fuel buf = (pieces str buf).filter (· ≠ []) := by
  induction buf using cut_induction hstr generalizing fuel with
  | hlast buf hf =>
    obtain ⟨fuel, rfl⟩ := Nat.exists_eq_succ_of_ne_zero (Nat.ne_of_gt (Nat.zero_lt_of_lt hfuel))
    rw [splitLoop, strstr_of_not_mem hbuf, hf, pieces_of_none hf, cstr_of_not_mem hbuf]
    by_cases h : buf = [] <;> simp [h]
  | hcut buf i hf ih =>
    obtain ⟨hall, hrest⟩ := (dense_of_some hstr hf).mp hdense
    have hle := find_add_length_le hf
    have hpat := List.length_pos_iff.mpr hstr
    have hskip : ∀ fuel, splitLoop str (fuel + str.length) (buf.drop i) =
        splitLoop str fuel (buf.drop (i + str.length)) := by
      intro fuel
      rw [splitLoop_skip (not_mem_drop hbuf i), List.drop_drop]
      intro k hk
      rw [List.drop_drop]
      exact hall k hk
    rw [pieces_of_some hstr hf]
    cases i with
    | zero =>
      obtain ⟨fuel, rfl⟩ : ∃ f, fuel = f + str.length := ⟨fuel - str.length, by omega⟩
      have hfirst := hskip fuel
      rw [List.drop_zero] at hfirst
      rw [hfirst, ih (not_mem_drop hbuf _) (by rw [List.length_drop]; omega) hrest]
      rfl
    | succ i =>
      obtain ⟨fuel, rfl⟩ : ∃ f, fuel = f + str.length + 1 := ⟨fuel - str.length - 1, by omega⟩
      have hne : buf.take (i + 1) ≠ [] := by
        intro h
        have := congrArg List.length h
        rw [List.length_take, List.length_nil] at this
        omega
      rw [splitLoop, strstr_of_not_mem hbuf, hf]
      show buf.take (i + 1) :: splitLoop str (fuel + str.length) (buf.drop (i + 1)) = _
      rw [hskip, ih (not_mem_drop hbuf _) (by rw [List.length_drop]; omega) hrest,
        List.filter_cons_of_pos (by simpa using hne)]

theorem sum_filter_ne_nil (ps : List Bytes) :
    ((ps.filter (· ≠ [])).map List.length).sum = (ps.map List.length).sum := by
  induction ps with
  | nil => rfl
  | cons p ps ih =>
    by_cases hp : p = []
    · simpa [hp] using ih
    · rw [List.filter_cons_of_pos (by simpa using hp), List.map_cons, List.map_cons, List.sum_cons,
        List.sum_cons, ih]

/-- The list is the right one just when the separators leave no byte behind. -/
theorem split_eq_iff (hstr : str ≠ []) (hbuf : (0 : UInt8) ∉ buffer) :
    split (some buffer) str = (pieces str buffer).filter (· ≠ []) ↔ Dense str buffer := by
  constructor
  · intro h
    have hcode := total_splitLoop hstr hbuf (Nat.lt_add_one buffer.length)
    have hspec := length_pieces hstr buffer
    rw [← sum_filter_ne_nil, ← h, split] at hspec
    exact (occurrences_eq_iff hstr buffer).mp (by omega)
  · exact splitLoop_dense hstr hbuf (Nat.lt_succ_self _)

/-- `split` of a buffer ends without a read behind the terminator, and a separator that is
not empty gives the pieces that are not. -/
def SplitCorrect (buffer str : Bytes) : Prop :=
  ∃ list, Splits (some buffer) str (some list) ∧
    (str ≠ [] → list = (pieces str buffer).filter (· ≠ []))

theorem split_correct_iff (buffer str : Bytes) (hbuf : (0 : UInt8) ∉ buffer) :
    SplitCorrect buffer str ↔ str ≠ [] ∧ Dense str buffer := by
  by_cases hstr : str = []
  · subst hstr
    constructor
    · rintro ⟨list, h, -⟩
      cases h.unique (splits_nil hbuf)
    · exact fun h => absurd rfl h.1
  · rw [SplitCorrect, ← split_eq_iff hstr hbuf]
    constructor
    · rintro ⟨list, h, hlist⟩
      rw [← hlist hstr]
      exact ⟨hstr, (Option.some.inj ((splits_iff hbuf hstr).mp h)).symm⟩
    · exact fun h => ⟨_, (splits_iff hbuf hstr).mpr rfl, fun _ => h.2⟩

theorem split_correct_words : SplitCorrect (bytes "|a||b") (bytes "|") :=
  (split_correct_iff _ _ (by decide)).mpr ⟨by decide, by decide⟩

/-- `"a, b"` cut at `", "` keeps the blank. -/
theorem not_split_correct : ¬ ∀ buffer str : Bytes, (0 : UInt8) ∉ buffer → (0 : UInt8) ∉ str →
    SplitCorrect buffer str := by
  intro h
  obtain ⟨list, hret, hlist⟩ := h (bytes "a, b") (bytes ", ") (by decide) (by decide)
  have heq := Option.some.inj ((splits_iff (by decide) (by decide)).mp hret)
  rw [hlist (by decide)] at heq
  revert heq
  decide

end StringArray

end Dframework
