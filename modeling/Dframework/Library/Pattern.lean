import Mathlib

/-!
# Patterns that are read from left to right

A pattern is a list of pieces, each a class of elements with a number of
repetitions, greedy or lazy. It is matched at the start of a text, with
backtracking: the first pieces take as much (greedy) or as little (lazy) as the
rest lets them. A match is the list of the lengths the pieces take, so a group of
the pattern is an interval of pieces.

Results:
1. `matchPieces_one`: a piece for a single element takes that element.
2. `matchPieces_greedy`: a greedy piece takes the longest run when the rest
   matches behind it.
3. `matchPieces_lazy`: a lazy piece takes the shortest run behind which the rest
   matches.
4. `matchPieces_none`: a pattern fails where its rest fails behind every length its first piece
   can take.
5. `matchPieces_length`: a match has one length for each piece.
-/

namespace Pattern

variable {α : Type*}

/-- A class of elements, repeated `least` times or more, at most `most` times when
there is a bound. -/
structure Piece (α : Type*) where
  cls : α → Bool
  least : Nat
  most : Option Nat
  greedy : Bool

/-- One element of the class. -/
def one (cls : α → Bool) : Piece α := ⟨cls, 1, some 1, true⟩

/-- `cls*`, or `cls+` when `least` is 1. -/
def many (cls : α → Bool) (least : Nat) : Piece α := ⟨cls, least, none, true⟩

/-- `cls*?`, or `cls+?` when `least` is 1. -/
def few (cls : α → Bool) (least : Nat) : Piece α := ⟨cls, least, none, false⟩

/-- The length of the longest run the piece can take at the start of a text. -/
def Piece.longest (p : Piece α) (s : List α) : Nat :=
  match p.most with
  | none => (s.takeWhile p.cls).length
  | some m => min m (s.takeWhile p.cls).length

/-- The lengths the piece tries, the preferred one first. -/
def Piece.lengths (p : Piece α) (s : List α) : List Nat :=
  let ls := (List.range (p.longest s + 1)).filter (p.least ≤ ·)
  if p.greedy then ls.reverse else ls

/-- The first match in the order of preference. -/
def matchPieces : List (Piece α) → List α → Option (List Nat)
  | [], _ => some []
  | p :: ps, s =>
    (p.lengths s).findSome? fun n => (matchPieces ps (s.drop n)).map (n :: ·)

/-- The part of the text that the pieces from `i` up to `j` take. -/
def part (ls : List Nat) (s : List α) (i j : Nat) : List α :=
  (s.drop (ls.take i).sum).take ((ls.take j).drop i).sum

variable {p : Piece α} {ps : List (Piece α)} {s t : List α} {ls : List Nat} {n : Nat}

theorem matchPieces_length (h : matchPieces ps s = some ls) : ls.length = ps.length := by
  induction ps generalizing s ls with
  | nil =>
    simp only [matchPieces, Option.some.injEq] at h
    rw [← h]
    rfl
  | cons p ps ih =>
    obtain ⟨n, -, hn⟩ := List.exists_of_findSome?_eq_some h
    obtain ⟨ls', hls, rfl⟩ := Option.map_eq_some_iff.mp hn
    simp [ih hls]

theorem mem_lengths : n ∈ p.lengths s ↔ n ≤ p.longest s ∧ p.least ≤ n := by
  unfold Piece.lengths
  split <;> simp

/-- A pattern fails where its rest fails behind every length its first piece can take. -/
theorem matchPieces_none (h : ∀ n ≤ p.longest s, p.least ≤ n → matchPieces ps (s.drop n) = none) :
    matchPieces (p :: ps) s = none := by
  refine List.findSome?_eq_none_iff.mpr fun n hn => ?_
  obtain ⟨hle, hleast⟩ := mem_lengths.mp hn
  rw [h n hle hleast, Option.map_none]

/-- A piece that needs nothing never fails by itself. -/
theorem matchPieces_many {cls : α → Bool} (h : ∀ t, matchPieces ps t ≠ none) (s : List α) :
    matchPieces (many cls 0 :: ps) s ≠ none := by
  intro hnone
  have hzero := List.findSome?_eq_none_iff.mp hnone 0 (mem_lengths.mpr ⟨Nat.zero_le _, Nat.le_refl _⟩)
  exact h _ (Option.map_eq_none_iff.mp hzero)

/-- A piece takes nothing from an element on that is not in its class. -/
theorem longest_le (hs : ∀ x ∈ t.head?, p.cls x = false) : p.longest (s ++ t) ≤ s.length := by
  have hrun : ((s ++ t).takeWhile p.cls).length ≤ s.length := by
    rw [List.takeWhile_append]
    split
    · have ht : t.takeWhile p.cls = [] := by
        cases t with
        | nil => rfl
        | cons x t => exact List.takeWhile_cons_of_neg (by simp [hs x rfl])
      rw [ht, List.append_nil]
    · exact (List.takeWhile_prefix p.cls).length_le
  rw [Piece.longest]
  split
  · exact hrun
  · exact (min_le_right _ _).trans hrun

/-- Pieces that cannot pass an element leave it in front of the others. -/
theorem matchPieces_append_none {qs : List (Piece α)} (hstop : ∀ p ∈ ps, ∀ x ∈ t.head?, p.cls x = false)
    (hrest : ∀ n, matchPieces qs (s.drop n ++ t) = none) : matchPieces (ps ++ qs) (s ++ t) = none := by
  induction ps generalizing s with
  | nil => exact hrest 0
  | cons p ps ih =>
    refine matchPieces_none fun n hn _ => ?_
    have hle := hn.trans (longest_le (hstop p List.mem_cons_self))
    rw [List.drop_append_of_le_length hle]
    refine ih (fun q hq => hstop q (List.mem_cons_of_mem p hq)) fun m => ?_
    rw [List.drop_drop]
    exact hrest _

theorem findSome?_congr {β : Type*} {l : List α} {f g : α → Option β} (h : ∀ x ∈ l, f x = g x) :
    l.findSome? f = l.findSome? g := by
  induction l with
  | nil => rfl
  | cons x l ih =>
    rw [List.findSome?_cons, List.findSome?_cons, h x List.mem_cons_self,
      ih fun y hy => h y (List.mem_cons_of_mem x hy)]

/-- What stands behind an element that no piece can pass does not change the match. -/
theorem matchPieces_stop {x : α} (hstop : ∀ p ∈ ps, p.cls x = false) (t t' : List α) :
    matchPieces ps (s ++ x :: t) = matchPieces ps (s ++ x :: t') := by
  induction ps generalizing s with
  | nil => rfl
  | cons p ps ih =>
    have hx := hstop p List.mem_cons_self
    have htake : ∀ u, (s ++ x :: u).takeWhile p.cls = s.takeWhile p.cls := by
      intro u
      rw [List.takeWhile_append, List.takeWhile_cons_of_neg (by simp [hx]), List.append_nil]
      split
      next hall => exact ((List.takeWhile_prefix p.cls).eq_of_length hall).symm
      next => rfl
    have hlens : ∀ u, p.lengths (s ++ x :: u) = p.lengths s := by
      intro u
      simp only [Piece.lengths, Piece.longest, htake]
    rw [matchPieces, matchPieces, hlens, hlens]
    refine findSome?_congr fun n hn => ?_
    have hle : n ≤ s.length := by
      rw [← hlens t] at hn
      exact (mem_lengths.mp hn).1.trans
        (longest_le fun y hy => by obtain rfl := Option.some.inj hy; exact hx)
    rw [List.drop_append_of_le_length hle, List.drop_append_of_le_length hle,
      ih fun q hq => hstop q (List.mem_cons_of_mem p hq)]

/-- The match ends in front of an element that no piece can pass. -/
theorem matchPieces_sum_le (hstop : ∀ p ∈ ps, ∀ x ∈ t.head?, p.cls x = false)
    (h : matchPieces ps (s ++ t) = some ls) : ls.sum ≤ s.length := by
  induction ps generalizing s ls with
  | nil =>
    obtain rfl := Option.some.inj h
    exact Nat.zero_le _
  | cons p ps ih =>
    obtain ⟨n, hn, hmatch⟩ := List.exists_of_findSome?_eq_some h
    obtain ⟨ls', hls, rfl⟩ := Option.map_eq_some_iff.mp hmatch
    have hle := (mem_lengths.mp hn).1.trans (longest_le (hstop p List.mem_cons_self))
    rw [List.drop_append_of_le_length hle] at hls
    have hsum := ih (fun q hq => hstop q (List.mem_cons_of_mem p hq)) hls
    rw [List.length_drop] at hsum
    rw [List.sum_cons]
    omega

/-- The class does not hold of the element behind the run. -/
theorem longest_many {cls : α → Bool} {least : Nat} (hs : ∀ x ∈ s, cls x)
    (ht : t.takeWhile cls = []) : (many cls least).longest (s ++ t) = s.length := by
  simp [many, Piece.longest, List.takeWhile_append_of_pos hs, ht]

/-- A piece for one element, at an element of its class. -/
theorem matchPieces_one {cls : α → Bool} {x : α} (hx : cls x) :
    matchPieces (one cls :: ps) (x :: s) = (matchPieces ps s).map (1 :: ·) := by
  have hl : (one cls).lengths (x :: s) = [1] := by
    simp [one, Piece.lengths, Piece.longest, hx, List.range_succ]
  rw [matchPieces, hl]
  simp

/-- A piece for one element, anywhere else. -/
theorem matchPieces_one_none {cls : α → Bool} (h : ∀ x ∈ s.head?, cls x = false) :
    matchPieces (one cls :: ps) s = none := by
  have hl : (one cls).lengths s = [] := by
    cases s with
    | nil => simp [one, Piece.lengths, Piece.longest, List.range_succ]
    | cons x s =>
      simp [one, Piece.lengths, Piece.longest, List.range_succ, h x rfl]
  rw [matchPieces, hl]
  rfl

/-- A greedy piece takes the whole run of its class when the rest of the pattern
matches behind it. -/
theorem matchPieces_greedy {cls : α → Bool} {least : Nat} (hs : ∀ x ∈ s, cls x)
    (ht : t.takeWhile cls = []) (hleast : least ≤ s.length) (hrest : matchPieces ps t = some ls) :
    matchPieces (many cls least :: ps) (s ++ t) = some (s.length :: ls) := by
  have hl : ∃ l, (many cls least).lengths (s ++ t) = s.length :: l := by
    have hmin : (many cls least).least = least := rfl
    have hgreedy : (many cls least).greedy = true := rfl
    simp only [Piece.lengths, longest_many hs ht, hgreedy, if_true, hmin, List.range_succ,
      List.filter_append, List.reverse_append]
    simp [hleast]
  obtain ⟨l, hl⟩ := hl
  rw [matchPieces, hl]
  simp [hrest]

/-- What a lazy piece tries before a length it can take is shorter. -/
theorem few_lengths {cls : α → Bool} {least : Nat} (hleast : least ≤ n)
    (hn : n ≤ (few cls least).longest s) :
    ∃ l, (few cls least).lengths s = (List.range n).filter (least ≤ ·) ++ n :: l := by
  have hsplit : List.range ((few cls least).longest s + 1) =
      List.range n ++ n :: List.range' (n + 1) ((few cls least).longest s - n) := by
    have hnum : (few cls least).longest s + 1 = n + ((few cls least).longest s - n + 1) := by
      omega
    rw [hnum, List.range_eq_range', List.range_eq_range', ← List.range'_append_1,
      List.range'_succ]
    simp
  have hgreedy : (few cls least).greedy = false := rfl
  have hmin : (few cls least).least = least := rfl
  refine ⟨(List.range' (n + 1) ((few cls least).longest s - n)).filter (least ≤ ·), ?_⟩
  simp only [Piece.lengths, hgreedy, Bool.false_eq_true, if_false, hmin, hsplit,
    List.filter_append]
  rw [List.filter_cons_of_pos (by simpa using hleast)]

/-- A lazy piece takes the shortest run of its class behind which the rest of the
pattern matches. -/
theorem matchPieces_lazy {cls : α → Bool} {least : Nat} (hs : ∀ x ∈ s, cls x)
    (hleast : least ≤ s.length) (hrest : matchPieces ps t = some ls)
    (hmin : ∀ k, least ≤ k → k < s.length → matchPieces ps ((s ++ t).drop k) = none) :
    matchPieces (few cls least :: ps) (s ++ t) = some (s.length :: ls) := by
  have hlongest : s.length ≤ (few cls least).longest (s ++ t) := by
    simp [few, Piece.longest, List.takeWhile_append_of_pos hs]
  obtain ⟨l, hl⟩ := few_lengths hleast hlongest
  have hnone : ((List.range s.length).filter (least ≤ ·)).findSome?
      (fun n => (matchPieces ps ((s ++ t).drop n)).map (n :: ·)) = none := by
    refine List.findSome?_eq_none_iff.mpr fun k hk => ?_
    simp only [List.mem_filter, List.mem_range, decide_eq_true_eq] at hk
    rw [hmin k hk.2 hk.1]
    rfl
  rw [matchPieces, hl, List.findSome?_append, hnone]
  simp [hrest]

end Pattern
