import Mathlib

/-!
# Streams processed in blocks

A state takes in blocks of `n` elements. A stream of any length is cut in blocks, and what
is left at its end waits for more.

Results:
1. `absorb_append`: it does not matter where a stream is cut in two.
2. `length_absorb_snd`: how much is left.
-/

namespace BlockStream

variable {α σ : Type*} {process : σ → List α → σ} {n : Nat} {s : σ} {l t : List α}

/-- At most `fuel` blocks of the stream are taken in. -/
def absorbFrom (process : σ → List α → σ) (n : Nat) : Nat → σ → List α → σ × List α
  | 0, s, l => (s, l)
  | fuel + 1, s, l =>
    if n ≤ l.length then absorbFrom process n fuel (process s (l.take n)) (l.drop n) else (s, l)

/-- All complete blocks are taken in: the state behind them, and what is left. -/
def absorb (process : σ → List α → σ) (n : Nat) (s : σ) (l : List α) : σ × List α :=
  absorbFrom process n l.length s l

theorem absorbFrom_eq (hn : 0 < n) {fuel : Nat} (hfuel : l.length ≤ fuel) :
    absorbFrom process n fuel s l = absorb process n s l := by
  induction fuel using Nat.strong_induction_on generalizing s l with
  | _ fuel ih =>
    rcases Nat.lt_or_ge l.length fuel with hlt | hge
    · obtain ⟨fuel, rfl⟩ := Nat.exists_eq_succ_of_ne_zero (Nat.ne_of_gt (Nat.zero_lt_of_lt hlt))
      rw [absorbFrom, absorb]
      split
      next hle =>
        have hdrop : (l.drop n).length < l.length := by
          rw [List.length_drop]
          omega
        obtain ⟨k, hk⟩ := Nat.exists_eq_succ_of_ne_zero (show l.length ≠ 0 by omega)
        rw [hk, absorbFrom, if_pos (by omega), ih fuel (Nat.lt_succ_self _) (by omega),
          ih k (by omega) (by omega)]
      next hnot =>
        cases hl : l.length with
        | zero => rfl
        | succ k => rw [absorbFrom, if_neg hnot]
    · rw [absorb, Nat.le_antisymm hge hfuel]

theorem absorb_of_lt (h : l.length < n) : absorb process n s l = (s, l) := by
  rw [absorb]
  cases hl : l.length with
  | zero => rfl
  | succ k => rw [absorbFrom, if_neg (by omega)]

theorem absorb_of_le (hn : 0 < n) (h : n ≤ l.length) :
    absorb process n s l = absorb process n (process s (l.take n)) (l.drop n) := by
  obtain ⟨k, hk⟩ := Nat.exists_eq_succ_of_ne_zero (show l.length ≠ 0 by omega)
  rw [absorb, hk, absorbFrom, if_pos h]
  exact absorbFrom_eq hn (by rw [List.length_drop]; omega)

/-- A block by itself. -/
theorem absorb_block_append (hn : 0 < n) {b : List α} (hb : b.length = n) (l : List α) :
    absorb process n s (b ++ l) = absorb process n (process s b) l := by
  rw [absorb_of_le hn (by rw [List.length_append]; omega), ← hb, List.take_left, List.drop_left]

/-- Induction from block to block. -/
theorem block_induction (hn : 0 < n) {P : List α → Prop} (hlast : ∀ l, l.length < n → P l)
    (hblock : ∀ l, n ≤ l.length → P (l.drop n) → P l) (l : List α) : P l := by
  induction hk : l.length using Nat.strong_induction_on generalizing l with
  | _ k ih =>
    rcases Nat.lt_or_ge l.length n with hlt | hge
    · exact hlast l hlt
    · exact hblock l hge (ih _ (by rw [List.length_drop]; omega) _ rfl)

theorem absorb_append (hn : 0 < n) (s : σ) (l t : List α) :
    absorb process n s (l ++ t) =
      absorb process n (absorb process n s l).1 ((absorb process n s l).2 ++ t) := by
  induction l using block_induction hn generalizing s with
  | hlast l hlt => rw [absorb_of_lt hlt]
  | hblock l hle ih =>
    rw [absorb_of_le hn hle, ← ih, absorb_of_le hn (by rw [List.length_append]; omega),
      List.take_append_of_le_length hle, List.drop_append_of_le_length hle]

theorem length_absorb_snd (hn : 0 < n) (s : σ) (l : List α) :
    (absorb process n s l).2.length = l.length % n := by
  induction l using block_induction hn generalizing s with
  | hlast l hlt => rw [absorb_of_lt hlt, Nat.mod_eq_of_lt hlt]
  | hblock l hle ih => rw [absorb_of_le hn hle, ih, List.length_drop, Nat.mod_eq_sub_mod hle]

end BlockStream
