import Mathlib

/-!
# Blocks of memory

A block is the list of its cells. Every access names a range, and an access outside the
block has no result. A pointer to the start of a block may be null: nothing can be read
from it or written to it, but a range of no cells.

Results:
1. `write_of_le`, `write_length`: a write inside the block keeps its size.
2. `getElem?_write_lt`, `getElem?_write_mem`, `getElem?_write_ge`: the cells behind it.
3. `take_write`: what stands in a block up to the end of a write.
4. `readPtr_of_le`, `writePtr_of_le`: the same accesses through a pointer.
5. `insertIdx_of_moved`, `eraseIdx_of_moved`: cells that have been moved by one.
6. `perm_set_last`: the last cell in the place of another one.
-/

namespace Cells

variable {α : Type*}

def read (b : List α) (i len : Nat) : Option (List α) :=
  if i + len ≤ b.length then some ((b.drop i).take len) else none

def write (b : List α) (i : Nat) (xs : List α) : Option (List α) :=
  if i + xs.length ≤ b.length then some (b.take i ++ (xs ++ b.drop (i + xs.length))) else none

/-- The block that `realloc` makes of `b`: the cells that are new hold `a`. -/
def resize (b : List α) (n : Nat) (a : α) : List α :=
  b.take n ++ List.replicate (n - b.length) a

def readPtr (p : Option (List α)) (i len : Nat) : Option (List α) :=
  if len = 0 then some [] else p.bind (read · i len)

def writePtr (p : Option (List α)) (i : Nat) (xs : List α) : Option (Option (List α)) :=
  if xs = [] then some p else (p.bind (write · i xs)).map some

variable {b b' xs : List α} {i j len : Nat}

theorem read_of_le (h : i + len ≤ b.length) : read b i len = some ((b.drop i).take len) :=
  if_pos h

theorem write_of_le (h : i + xs.length ≤ b.length) :
    write b i xs = some (b.take i ++ (xs ++ b.drop (i + xs.length))) :=
  if_pos h

theorem write_eq_some (h : write b i xs = some b') :
    i + xs.length ≤ b.length ∧ b' = b.take i ++ (xs ++ b.drop (i + xs.length)) := by
  rw [write] at h
  split at h
  next hle => exact ⟨hle, (Option.some.inj h).symm⟩
  next => cases h

theorem write_length (h : write b i xs = some b') : b'.length = b.length := by
  obtain ⟨hle, rfl⟩ := write_eq_some h
  simp only [List.length_append, List.length_take, List.length_drop]
  omega

theorem getElem?_write_lt (h : write b i xs = some b') (hj : j < i) : b'[j]? = b[j]? := by
  obtain ⟨hle, rfl⟩ := write_eq_some h
  rw [List.getElem?_append_left (by rw [List.length_take]; omega), List.getElem?_take_of_lt hj]

theorem getElem?_write_mem (h : write b i xs = some b') (hj : j < xs.length) :
    b'[i + j]? = xs[j]? := by
  obtain ⟨hle, rfl⟩ := write_eq_some h
  have hi : (b.take i).length = i := by
    rw [List.length_take]
    omega
  rw [List.getElem?_append_right (by omega), hi, Nat.add_sub_cancel_left,
    List.getElem?_append_left hj]

theorem getElem?_write_ge (h : write b i xs = some b') (hj : i + xs.length ≤ j) :
    b'[j]? = b[j]? := by
  obtain ⟨hle, rfl⟩ := write_eq_some h
  have hi : (b.take i).length = i := by
    rw [List.length_take]
    omega
  rw [List.getElem?_append_right (by omega), hi, List.getElem?_append_right (by omega),
    List.getElem?_drop]
  congr 1
  omega

/-- Up to the end of a write, the block holds what it held before it and what is written. -/
theorem take_write (h : write b i xs = some b') : b'.take (i + xs.length) = b.take i ++ xs := by
  obtain ⟨hle, rfl⟩ := write_eq_some h
  have hi : (b.take i).length = i := by
    rw [List.length_take]
    omega
  rw [← List.append_assoc, List.take_append_of_le_length (by rw [List.length_append]; omega),
    List.take_of_length_le (by rw [List.length_append]; omega)]

/-- A write behind the first `n` cells does not touch them. -/
theorem take_write_of_le {n : Nat} (h : write b i xs = some b') (hn : n ≤ i) :
    b'.take n = b.take n := by
  obtain ⟨hle, rfl⟩ := write_eq_some h
  rw [List.take_append_of_le_length (by rw [List.length_take]; omega), List.take_take,
    min_eq_left hn]

theorem resize_length (b : List α) (n : Nat) (a : α) : (resize b n a).length = n := by
  simp only [resize, List.length_append, List.length_take, List.length_replicate]
  omega

theorem take_resize {n k : Nat} (a : α) (hk : k ≤ b.length) (hn : k ≤ n) :
    (resize b n a).take k = b.take k := by
  rw [resize, List.take_append_of_le_length (by rw [List.length_take]; omega), List.take_take,
    min_eq_left hn]

theorem readPtr_of_le (h : i + len ≤ b.length) :
    readPtr (some b) i len = some ((b.drop i).take len) := by
  rw [readPtr]
  split
  next h0 => rw [h0, List.take_zero]
  next => exact read_of_le h

theorem writePtr_of_le (xs : List α) (h : i + xs.length ≤ b.length) :
    ∃ b', write b i xs = some b' ∧ writePtr (some b) i xs = some (some b') := by
  refine ⟨_, write_of_le h, ?_⟩
  rw [writePtr]
  split
  next hnil => simp [hnil]
  next => rw [Option.bind_some, write_of_le h, Option.map_some]

/-- One cell is read. -/
theorem read_one (h : i < b.length) : read b i 1 = some [b[i]] := by
  rw [read_of_le (show i + 1 ≤ b.length from h), List.drop_eq_getElem_cons h]
  rfl

/-- One cell is written. -/
theorem write_one (h : i < b.length) (a : α) : write b i [a] = some (b.set i a) := by
  rw [write_of_le (show i + [a].length ≤ b.length from h), List.set_eq_take_append_cons_drop,
    if_pos h]
  rfl

/-- The first `n` cells, with one more among them: those from `i` on stand one further. -/
theorem insertIdx_of_moved {n : Nat} (a : α) (hi : i ≤ n) (hn : n ≤ b.length) (hn' : n < b'.length)
    (hbelow : ∀ j, j < i → b'[j]? = b[j]?) (habove : ∀ j, i ≤ j → j < n → b'[j + 1]? = b[j]?) :
    (b'.set i a).take (n + 1) = (b.take n).insertIdx i a := by
  refine List.ext_getElem? fun j => ?_
  have hlen : (b.take n).length = n := List.length_take_of_le hn
  rw [List.getElem?_take, List.getElem?_set, List.getElem?_insertIdx, hlen]
  rcases Nat.lt_trichotomy j i with hlt | rfl | hgt
  · have hjn : j < n := hlt.trans_le hi
    rw [if_pos (hjn.trans n.lt_succ_self), if_neg hlt.ne', if_pos hlt, hbelow j hlt,
      List.getElem?_take_of_lt hjn]
  · rw [if_pos (Nat.lt_succ_of_le hi), if_pos rfl, if_pos (hi.trans_lt hn'), if_neg (lt_irrefl j),
      if_pos rfl, if_pos hi]
  · rw [if_neg hgt.ne, if_neg hgt.not_gt, if_neg hgt.ne']
    split
    next hjn =>
      have hmoved := habove (j - 1) (by omega) (by omega)
      rw [Nat.sub_add_cancel (by omega)] at hmoved
      rw [hmoved, List.getElem?_take_of_lt (by omega)]
    next hjn => rw [List.getElem?_eq_none (by rw [hlen]; omega)]

/-- The first `n` cells, with one of them gone: those behind it stand one before. -/
theorem eraseIdx_of_moved {n : Nat} (hi : i < n) (hn : n ≤ b.length)
    (hbelow : ∀ j, j < i → b'[j]? = b[j]?) (habove : ∀ j, i ≤ j → j + 1 < n → b'[j]? = b[j + 1]?) :
    b'.take (n - 1) = (b.take n).eraseIdx i := by
  refine List.ext_getElem? fun j => ?_
  rw [List.getElem?_take, List.getElem?_eraseIdx]
  split
  next hjn =>
    split
    next hji => rw [hbelow j hji, List.getElem?_take_of_lt (by omega)]
    next hji => rw [habove j (by omega) (by omega), List.getElem?_take_of_lt (by omega)]
  next hjn =>
    have hlen : (b.take n).length = n := List.length_take_of_le hn
    rw [if_neg (by omega), List.getElem?_eq_none (by omega)]

/-- The last cell takes the place of the one that is left out. -/
theorem perm_set_last {l : List α} {a : α} {k : Nat} (hk : k < (l ++ [a]).length) :
    (l ++ [a]).Perm ((l ++ [a])[k] :: l.set k a) := by
  rcases Nat.lt_or_ge k l.length with hlt | hge
  · rw [List.getElem_append_left hlt]
    calc
      (l ++ [a]).Perm (a :: l) := List.perm_append_singleton a l
      List.Perm _ (a :: l[k] :: l.eraseIdx k) := (List.getElem_cons_eraseIdx_perm hlt).symm.cons a
      List.Perm _ (l[k] :: a :: l.eraseIdx k) := .swap _ _ _
      List.Perm _ (l[k] :: l.set k a) := (List.set_perm_cons_eraseIdx hlt a).symm.cons _
  · obtain rfl : k = l.length := by
      rw [List.length_append, List.length_singleton] at hk
      omega
    rw [List.getElem_append_right le_rfl, List.set_eq_of_length_le le_rfl]
    simp

end Cells
