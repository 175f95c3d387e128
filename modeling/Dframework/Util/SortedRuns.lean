import Mathlib
import Dframework.Util.ArrayRuns

/-!
# Runs of `ArraySorted`

The operations of one array on its block, without the counts of its objects. An element is
an object, and the elements compare as the class of the objects says. A slot with `NULL`
is below every element and equal to none.

Results:
1. `sorted_run`: the elements of an array, in every run, for an order of the elements.
2. `sorted_shift_inside_iff`: when the shifting stays inside the block.
-/

namespace Dframework

open Relation

def slotOrder (cmp : ObjId → ObjId → Ordering) : Option ObjId → Option ObjId → Ordering
  | some x, some y => cmp x y
  | some _, none => .gt
  | none, some _ => .lt
  | none, none => .eq

namespace ArrayBase

/-- `ArraySorted::insert` behind `insertId`. -/
def place (a : ArrayBase) (iid : Nat) (x : ObjId) (heap : Heap) : Option ArrayBase := do
  let a ← match a.get iid with
    | none => some a
    | some _ => do
      let (a, _) ← a.openGap iid heap
      some a
  let a ← a.store iid (some x)
  some { a with size := a.size + 1 }

/-- `ArraySorted::insert`, with the position it gives back. -/
def insertSorted (cmp : ObjId → ObjId → Ordering) (a : ArrayBase) (data : Option ObjId)
    (heap : Heap) : Option (Retval × Option Nat × ArrayBase) :=
  match data with
  | none => some (retval .eInval, none, a)
  | some x =>
    match a.grow heap with
    | (some e, a, _) => some (some e, none, a)
    | (none, a, heap) => do
      let iid := ArraySorted.insertId (slotOrder cmp) (some x) a.slots
      let a ← a.place iid x heap
      some (none, some iid, a)

def indexSorted (cmp : ObjId → ObjId → Ordering) (a : ArrayBase) : Option ObjId → Int
  | none => -1
  | some x => ((ArraySorted.index (slotOrder cmp) (some x) a.slots).map Int.ofNat).getD (-1)

/-- `ArraySorted::get` of an element that is equal to `data`. -/
def getSorted (cmp : ObjId → ObjId → Ordering) (a : ArrayBase) (data : Option ObjId) :
    Option ObjId :=
  a.get (a.indexSorted cmp data)

/-- `ArraySorted::remove` of a position, with what it returns. -/
def removeAt (a : ArrayBase) (position : Int) (behind : Option ObjId) (heap : Heap) :
    Option (Option ObjId × ArrayBase) :=
  match a.get position with
  | none => some (none, a)
  | some x => do
    let (a, _) ← a.closeGap position.toNat behind heap
    some (some x, { a with size := a.size - 1 })

/-- `ArraySorted::remove` of an element that is equal to `data`. -/
def removeSorted (cmp : ObjId → ObjId → Ordering) (a : ArrayBase) (data behind : Option ObjId)
    (heap : Heap) : Option (Option ObjId × ArrayBase) :=
  a.removeAt (a.indexSorted cmp data) behind heap

end ArrayBase

variable {cmp : ObjId → ObjId → Ordering} {a a' : ArrayBase} {x y : ObjId} {heap : Heap}
  {data : Option ObjId}

/-! ## Runs -/

inductive SortedOp where
  | insert (data : Option ObjId) (heap : Heap)
  | removeAt (position : Int) (behind : Option ObjId) (heap : Heap)
  | remove (data behind : Option ObjId) (heap : Heap)

/-- An array, with the elements that have gone into it and those that have come out. -/
structure Ledger where
  array : ArrayBase
  inserted : List ObjId
  removed : List ObjId
  deriving DecidableEq, Repr

namespace Ledger

def empty : Ledger := ⟨.empty, [], []⟩

def exec (cmp : ObjId → ObjId → Ordering) (s : Ledger) : SortedOp → Option Ledger
  | .insert data heap => do
    let (retval, _, array) ← s.array.insertSorted cmp data heap
    some { s with array, inserted := (if retval = none then data.toList else []) ++ s.inserted }
  | .removeAt position behind heap => do
    let (val, array) ← s.array.removeAt position behind heap
    some { s with array, removed := val.toList ++ s.removed }
  | .remove data behind heap => do
    let (val, array) ← s.array.removeSorted cmp data behind heap
    some { s with array, removed := val.toList ++ s.removed }

/-- The slots in use hold what has gone in and has not come out. -/
structure Holds (s : Ledger) (l : List ObjId) : Prop where
  ok : ArrayOk s.array
  slots : s.array.slots = l.map some
  balance : (s.removed ++ l).Perm s.inserted

end Ledger

/-! ## One operation -/

section

open Std

instance slotOrder_oriented [OrientedCmp cmp] : OrientedCmp (slotOrder cmp) where
  eq_swap {a b} := by
    rcases a with _ | x <;> rcases b with _ | y
    · rfl
    · rfl
    · rfl
    · show cmp x y = (cmp y x).swap
      exact OrientedCmp.eq_swap

instance slotOrder_trans [TransCmp cmp] : TransCmp (slotOrder cmp) where
  isLE_trans {a b c} hab hbc := by
    rcases a with _ | x
    · cases c <;> rfl
    rcases b with _ | y
    · cases hab
    rcases c with _ | z
    · cases hbc
    · show (cmp x z).isLE
      exact TransCmp.isLE_trans (show (cmp x y).isLE from hab) hbc

end

namespace ArrayBase

theorem slots_length (hok : ArrayOk a) : a.slots.length = a.size := WorldOk.slots_length hok

/-- An element comes into slot `iid`. -/
theorem place_slots (hok : ArrayOk a) (hfree : a.size < a.capacity) {iid : Nat} (hle : iid ≤ a.size)
    (x : ObjId) (heap : Heap) (hfull : ∀ p ∈ a.slots, p ≠ none) :
    ∃ a', a.place iid x heap = some a' ∧ ArrayOk a' ∧ a'.slots = a.slots.insertIdx iid (some x) := by
  rw [place]
  rcases Nat.eq_or_lt_of_le hle with rfl | hlt
  · have hnone : a.get a.size = none := if_neg fun h => absurd h.1 (lt_irrefl _)
    obtain ⟨a₂, hstore, hok₂, hslots₂⟩ := push_slots hok hfree (some x)
    simp only [hnone, Option.bind_eq_bind, Option.bind_some, hstore]
    refine ⟨_, rfl, hok₂, ?_⟩
    rw [hslots₂, ← slots_length hok, List.insertIdx_length_self]
  · obtain ⟨hget, hmem⟩ := WorldOk.get_nat hok hlt
    obtain ⟨y, hy⟩ := Option.ne_none_iff_exists'.mp (hfull _ hmem)
    obtain ⟨a₁, a₂, heap', hgap, -, hstore, hok₂, hslots₂⟩ := insertAt_slots hok hfree hle (some x) heap
    simp only [hget, hy, Option.bind_eq_bind, hgap, Option.bind_some, hstore]
    exact ⟨_, rfl, hok₂, hslots₂⟩

/-- An element comes out of slot `i`. -/
theorem removeAt_slots (hok : ArrayOk a) (position : Int) (behind : Option ObjId) (heap : Heap) :
    (a.get position = none ∧ a.removeAt position behind heap = some (none, a)) ∨
      ∃ (i : Nat) (p : Option ObjId) (a' : ArrayBase), position = i ∧ a.slots[i]? = some p ∧
        a.get position = p ∧ p ≠ none ∧ a.removeAt position behind heap = some (p, a') ∧
        ArrayOk a' ∧ a'.slots = a.slots.eraseIdx i := by
  rw [removeAt]
  rcases hp : a.get position with _ | x
  · exact .inl ⟨rfl, rfl⟩
  · rcases WorldOk.get_cases hok position with hnone | ⟨i, rfl, hi, hget, -⟩
    · rw [hnone] at hp
      cases hp
    · obtain ⟨a', heap', hclose, hok', hslots⟩ := closeGap_slots hok hi behind heap
      refine .inr ⟨i, some x, _, rfl, ?_, rfl, Option.some_ne_none x, ?_, hok', hslots⟩
      · rw [slot_eq hok hi, ← hget, hp]
      · simp only [Int.toNat_natCast, hclose, Option.bind_eq_bind, Option.bind_some]

end ArrayBase

namespace Ledger

variable {s : Ledger} {l : List ObjId}

open ArrayBase

theorem Holds.insert (h : Holds s l) (cmp : ObjId → ObjId → Ordering) (data : Option ObjId)
    (heap : Heap) : ∃ s' l', s.exec cmp (.insert data heap) = some s' ∧ Holds s' l' ∧
      (l' = l ∨ ∃ x, data = some x ∧
        l'.map some = ArraySorted.insert (slotOrder cmp) (some x) (l.map some)) := by
  rw [exec]
  rcases data with _ | x
  · exact ⟨_, l, rfl, ⟨h.ok, h.slots, h.balance⟩, .inl rfl⟩
  obtain ⟨r, a₁, heap₁, hgrow, hok₁, hslots₁, hsize₁, hfree⟩ := grow_ok h.ok heap
  rw [insertSorted]
  simp only [hgrow]
  rcases r with _ | r
  · have hle := ArraySorted.insertId_le (slotOrder cmp) (some x) a₁.slots
    rw [slots_length hok₁] at hle
    obtain ⟨a', hplace, hok', hslots'⟩ := place_slots hok₁ (hsize₁ ▸ hfree rfl) hle x heap₁ (by
      rw [hslots₁, h.slots]
      intro p hp
      obtain ⟨y, -, rfl⟩ := List.mem_map.mp hp
      exact Option.some_ne_none y)
    simp only [hplace, Option.bind_eq_bind, Option.bind_some]
    rw [hslots₁, h.slots] at hslots' hle
    set iid := ArraySorted.insertId (slotOrder cmp) (some x) (l.map some) with hiid
    have hlen : iid ≤ l.length := by
      have hlen₁ := slots_length hok₁
      rw [hslots₁, h.slots, List.length_map] at hlen₁
      rwa [hlen₁]
    refine ⟨_, l.insertIdx iid x, rfl, ⟨hok', ?_, ?_⟩, .inr ⟨x, rfl, ?_⟩⟩
    · rw [hslots', List.map_insertIdx]
    · refine ((List.perm_insertIdx x l hlen).append_left _).trans ?_
      exact List.perm_middle.trans (h.balance.cons x)
    · rw [ArraySorted.insert, List.map_insertIdx]
  · exact ⟨_, l, rfl, ⟨hok₁, hslots₁.trans h.slots, h.balance⟩, .inl rfl⟩

theorem Holds.removeAt (h : Holds s l) (cmp : ObjId → ObjId → Ordering) (position : Int)
    (behind : Option ObjId) (heap : Heap) :
    ∃ s' l', s.exec cmp (.removeAt position behind heap) = some s' ∧ Holds s' l' ∧
      ∃ i, l' = l ∨ l' = l.eraseIdx i := by
  rw [exec]
  rcases removeAt_slots h.ok position behind heap with
    ⟨-, hrun⟩ | ⟨i, p, a', rfl, hp, -, hne, hrun, hok', hslots'⟩
  · rw [hrun]
    exact ⟨_, l, rfl, ⟨h.ok, h.slots, h.balance⟩, 0, .inl rfl⟩
  · rw [h.slots, List.getElem?_map, Option.map_eq_some_iff] at hp
    obtain ⟨x, hx, rfl⟩ := hp
    rw [hrun]
    refine ⟨_, l.eraseIdx i, rfl, ⟨hok', ?_, ?_⟩, i, .inr rfl⟩
    · rw [hslots', h.slots, List.eraseIdx_map]
    · obtain ⟨hi, rfl⟩ := List.getElem?_eq_some_iff.mp hx
      -- the element goes from the list to those that have come out
      show (l[i] :: s.removed ++ l.eraseIdx i).Perm s.inserted
      refine .trans ?_ h.balance
      exact List.perm_middle.symm.trans ((List.getElem_cons_eraseIdx_perm hi).append_left s.removed)

/-- An operation ends, and with an order of the elements they stay sorted. -/
theorem Holds.exec (h : Holds s l) (cmp : ObjId → ObjId → Ordering) (op : SortedOp) :
    ∃ s' l', s.exec cmp op = some s' ∧ Holds s' l' ∧
      (Std.TransCmp cmp → ArraySorted.Sorted cmp l → ArraySorted.Sorted cmp l') := by
  have hremove : ∀ position behind heap, ∃ s' l',
      s.exec cmp (.removeAt position behind heap) = some s' ∧ Holds s' l' ∧
        (Std.TransCmp cmp → ArraySorted.Sorted cmp l → ArraySorted.Sorted cmp l') := by
    intro position behind heap
    obtain ⟨s', l', hrun, hs', i, hl'⟩ := h.removeAt cmp position behind heap
    refine ⟨s', l', hrun, hs', fun _ hsorted => ?_⟩
    rcases hl' with rfl | rfl
    · exact hsorted
    · exact hsorted.eraseIdx i
  cases op with
  | insert data heap =>
    obtain ⟨s', l', hrun, hs', hl'⟩ := h.insert cmp data heap
    refine ⟨s', l', hrun, hs', fun _ hsorted => ?_⟩
    rcases hl' with rfl | ⟨x, -, hmap⟩
    · exact hsorted
    · have hslots : ArraySorted.Sorted (slotOrder cmp) (l.map some) := List.pairwise_map.mpr hsorted
      exact List.pairwise_map.mp (hmap ▸ ArraySorted.insert_sorted hslots (some x))
  | removeAt position behind heap => exact hremove position behind heap
  | remove data behind heap => exact hremove (s.array.indexSorted cmp data) behind heap

theorem Holds.empty : Holds Ledger.empty [] := ⟨⟨le_rfl, rfl⟩, rfl, .refl _⟩

/-- What a search finds is equal to the key, and it finds something if there is something. -/
theorem Holds.finds [Std.TransCmp cmp] (h : Holds s l) (hsorted : ArraySorted.Sorted cmp l)
    (key : ObjId) :
    (∃ (i : Nat) (x : ObjId), s.array.indexSorted cmp (some key) = i ∧ l[i]? = some x ∧
      cmp key x = .eq ∧ s.array.getSorted cmp (some key) = some x) ∨
    (s.array.indexSorted cmp (some key) = -1 ∧ s.array.getSorted cmp (some key) = none ∧
      ∀ x ∈ l, cmp key x ≠ .eq) := by
  have hslots : ArraySorted.Sorted (slotOrder cmp) s.array.slots := by
    rw [h.slots]
    exact List.pairwise_map.mpr hsorted
  obtain ⟨hfound, hnone⟩ := ArraySorted.index_finds hslots (some key)
  rw [getSorted, indexSorted]
  rcases hi : ArraySorted.index (slotOrder cmp) (some key) s.array.slots with _ | i
  · refine .inr ⟨rfl, if_neg fun hin => absurd hin.2 (by decide), fun x hx => ?_⟩
    exact hnone hi (some x) (h.slots ▸ List.mem_map_of_mem hx)
  · obtain ⟨p, hp, heq⟩ := hfound i hi
    have hlt : i < s.array.size := slots_length h.ok ▸ (List.getElem?_eq_some_iff.mp hp).1
    have hget := (WorldOk.get_nat h.ok hlt).1
    obtain rfl : s.array.slot i = p := Option.some.inj ((slot_eq h.ok hlt).symm.trans hp)
    rw [h.slots, List.getElem?_map, Option.map_eq_some_iff] at hp
    obtain ⟨x, hx, hslot⟩ := hp
    rw [← hslot] at heq hget
    exact .inl ⟨i, x, rfl, hx, heq, hget⟩

end Ledger

/-- In every run of insertions and removals, the elements of an array are sorted, they are
those that have gone in and have not come out, and a search finds an element equal to its key
if there is one, and else nothing. -/
theorem sorted_run [Std.TransCmp cmp] (ops : List SortedOp) :
    ∃ s l, ops.foldlM (Ledger.exec cmp) Ledger.empty = some s ∧ s.array.slots = l.map some ∧
      ArraySorted.Sorted cmp l ∧ (s.removed ++ l).Perm s.inserted ∧
      ∀ key, (∃ x ∈ l, cmp key x = .eq) ∧
          (∃ (i : Nat) (x : ObjId), s.array.indexSorted cmp (some key) = i ∧ l[i]? = some x ∧
            cmp key x = .eq ∧ s.array.getSorted cmp (some key) = some x) ∨
        (∀ x ∈ l, cmp key x ≠ .eq) ∧
          s.array.indexSorted cmp (some key) = -1 ∧ s.array.getSorted cmp (some key) = none := by
  suffices h : ∀ s l, Ledger.Holds s l → ArraySorted.Sorted cmp l → ∃ s' l',
      ops.foldlM (Ledger.exec cmp) s = some s' ∧ Ledger.Holds s' l' ∧ ArraySorted.Sorted cmp l' by
    obtain ⟨s, l, hrun, hs, hsorted⟩ := h Ledger.empty [] .empty List.Pairwise.nil
    refine ⟨s, l, hrun, hs.slots, hsorted, hs.balance, fun key => ?_⟩
    rcases hs.finds hsorted key with ⟨i, x, hi, hx, heq, hget⟩ | ⟨hi, hget, hnone⟩
    · exact .inl ⟨⟨x, List.mem_of_getElem? hx, heq⟩, i, x, hi, hx, heq, hget⟩
    · exact .inr ⟨hnone, hi, hget⟩
  induction ops with
  | nil => exact fun s l hs hsorted => ⟨s, l, rfl, hs, hsorted⟩
  | cons op ops ih =>
    intro s l hs hsorted
    obtain ⟨s₁, l₁, hstep, hs₁, hsorted₁⟩ := hs.exec cmp op
    obtain ⟨s', l', hrun, hs'⟩ := ih s₁ l₁ hs₁ (hsorted₁ inferInstance hsorted)
    refine ⟨s', l', ?_, hs'⟩
    rw [List.foldlM_cons, hstep]
    exact hrun

theorem sorted_run_numbers : ∃ s l,
    [SortedOp.insert (some 2) [], .insert (some 1) [], .remove (some 2) none []].foldlM
      (Ledger.exec compare) Ledger.empty = some s ∧ s.array.slots = l.map some ∧
      ArraySorted.Sorted compare l ∧ (s.removed ++ l).Perm s.inserted ∧
      ∀ key, (∃ x ∈ l, compare key x = .eq) ∧
          (∃ (i : Nat) (x : ObjId), s.array.indexSorted compare (some key) = i ∧ l[i]? = some x ∧
            compare key x = .eq ∧ s.array.getSorted compare (some key) = some x) ∨
        (∀ x ∈ l, compare key x ≠ .eq) ∧
          s.array.indexSorted compare (some key) = -1 ∧ s.array.getSorted compare (some key) = none :=
  sorted_run _

/-! ## The slots the shifting touches -/

namespace ArrayBase

/-- The slots the loop of `ArraySorted::insert` reads and writes. -/
def shiftUpTouches (iid : Nat) : Nat → List Nat
  | 0 => []
  | n + 1 => (iid + n) :: (iid + n + 1) :: shiftUpTouches iid n

/-- The slots `openGap` reads and writes. -/
def openGapTouches (a : ArrayBase) (iid : Nat) (heap : Heap) : List Nat :=
  let len := a.size - iid
  if len = 0 then []
  else if heap.headD true then List.range' iid len ++ List.range' (iid + 1) len
  else shiftUpTouches iid len

/-- The slots the loop of `ArraySorted::remove` reads and writes. -/
def shiftDownTouches (k : Nat) : Nat → List Nat
  | 0 => []
  | n + 1 => (k + 1) :: k :: shiftDownTouches (k + 1) n

/-- The slots `closeGap` reads and writes to shift the others. -/
def closeGapTouches (a : ArrayBase) (position : Nat) (heap : Heap) : List Nat :=
  if position = a.size - 1 then []
  else
    let len := a.size - position
    if heap.headD true then List.range' (position + 1) len ++ List.range' position len
    else shiftDownTouches position len

/-- The slots `ArraySorted::remove` reads and writes to shift the others. -/
def removeTouches (a : ArrayBase) (position : Int) (heap : Heap) : List Nat :=
  if a.get position = none then [] else a.closeGapTouches position.toNat heap

/-- The removed element is the last one, or a slot is free. -/
def RoomAt (a : ArrayBase) (position : Int) : Prop :=
  a.get position = none ∨ position = a.size - 1 ∨ a.size < a.capacity

theorem mem_shiftUpTouches {iid n k : Nat} (hk : k ∈ shiftUpTouches iid n) : k ≤ iid + n := by
  induction n with
  | zero => cases hk
  | succ n ih =>
    rcases List.mem_cons.mp hk with rfl | hk
    · omega
    rcases List.mem_cons.mp hk with rfl | hk
    · omega
    · have := ih hk
      omega

/-- No slot behind those that will be in use. -/
theorem mem_openGapTouches {iid k : Nat} (hk : k ∈ a.openGapTouches iid heap) : k ≤ a.size := by
  simp only [openGapTouches] at hk
  split at hk
  · cases hk
  split at hk
  · simp only [List.mem_append, List.mem_range'_1] at hk
    omega
  · have := mem_shiftUpTouches hk
    omega

theorem mem_shiftDownTouches {k n i : Nat} : i ∈ shiftDownTouches k n ↔ n ≠ 0 ∧ k ≤ i ∧ i ≤ k + n := by
  induction n generalizing k with
  | zero => simp [shiftDownTouches]
  | succ n ih =>
    simp only [shiftDownTouches, List.mem_cons, ih]
    omega

/-- The shift goes from the slot that is given up to the one behind those in use. -/
theorem mem_closeGapTouches {position k : Nat} (hpos : position < a.size) :
    k ∈ a.closeGapTouches position heap ↔ position ≠ a.size - 1 ∧ position ≤ k ∧ k ≤ a.size := by
  simp only [closeGapTouches]
  split
  · simp_all
  split
  · simp only [List.mem_append, List.mem_range'_1]
    omega
  · rw [mem_shiftDownTouches]
    omega

theorem removeTouches_inside_iff (hok : ArrayOk a) (position : Int) (heap : Heap) :
    (∀ k ∈ a.removeTouches position heap, k < a.capacity) ↔ a.RoomAt position := by
  rw [removeTouches, RoomAt]
  rcases WorldOk.get_cases hok position with hnone | ⟨i, rfl, hi, -⟩
  · rw [if_pos hnone]
    exact iff_of_true (fun k hk => by cases hk) (.inl hnone)
  · by_cases hnone : a.get i = none
    · rw [if_pos hnone]
      exact iff_of_true (fun k hk => by cases hk) (.inl hnone)
    · rw [if_neg hnone, Int.toNat_natCast]
      constructor
      · intro hinside
        by_cases hlast : i = a.size - 1
        · exact .inr (.inl (by omega))
        · exact .inr (.inr (hinside a.size ((mem_closeGapTouches hi).mpr ⟨hlast, hi.le, le_rfl⟩)))
      · rintro hroom k hk
        obtain ⟨hne, -, hk⟩ := (mem_closeGapTouches hi).mp hk
        rcases hroom with h | h | h
        · exact absurd h hnone
        · exact absurd h (by omega)
        · exact hk.trans_lt h

end ArrayBase

/-- The array an operation shifts elements of, and the slots this reads and writes. -/
def SortedOp.shift (cmp : ObjId → ObjId → Ordering) (a : ArrayBase) : SortedOp → ArrayBase × List Nat
  | .insert none _ => (a, [])
  | .insert (some x) heap =>
    match a.grow heap with
    | (some _, a, _) => (a, [])
    | (none, a, heap) =>
      let iid := ArraySorted.insertId (slotOrder cmp) (some x) a.slots
      (a, if a.get iid = none then [] else a.openGapTouches iid heap)
  | .removeAt position _ heap => (a, a.removeTouches position heap)
  | .remove data _ heap => (a, a.removeTouches (a.indexSorted cmp data) heap)

/-- The shifting does not leave the block. -/
def SortedOp.Inside (cmp : ObjId → ObjId → Ordering) (a : ArrayBase) (op : SortedOp) : Prop :=
  ∀ k ∈ (op.shift cmp a).2, k < (op.shift cmp a).1.capacity

/-- A removal that shifts elements finds a free slot behind them. -/
def SortedOp.HasRoom (cmp : ObjId → ObjId → Ordering) (a : ArrayBase) : SortedOp → Prop
  | .insert _ _ => True
  | .removeAt position _ _ => a.RoomAt position
  | .remove data _ _ => a.RoomAt (a.indexSorted cmp data)

theorem SortedOp.inside_iff (hok : ArrayOk a) (cmp : ObjId → ObjId → Ordering) (op : SortedOp) :
    op.Inside cmp a ↔ op.HasRoom cmp a := by
  cases op with
  | insert data heap =>
    refine iff_of_true ?_ trivial
    rcases data with _ | x
    · exact fun k hk => by cases hk
    obtain ⟨r, a₁, heap₁, hgrow, -, -, hsize₁, hfree⟩ := ArrayBase.grow_ok hok heap
    rw [Inside, shift, hgrow]
    rcases r with _ | r
    · intro k hk
      dsimp only at hk ⊢
      split at hk
      · cases hk
      · exact (ArrayBase.mem_openGapTouches hk).trans_lt (hsize₁ ▸ hfree rfl)
    · exact fun k hk => by cases hk
  | removeAt position behind heap => exact ArrayBase.removeTouches_inside_iff hok position heap
  | remove data behind heap => exact ArrayBase.removeTouches_inside_iff hok _ heap

/-- Some operation, for some order of the elements. -/
def SortedStep (s s' : Ledger) : Prop :=
  ∃ cmp op, s.exec cmp op = some s'

/-- Behind every run of insertions and removals, the next operation touches slots of the block
only, if and only if it does not shift elements of a block that is full. An insertion never
leaves the block. -/
theorem sorted_shift_inside_iff {s : Ledger} (hrun : ReflTransGen SortedStep Ledger.empty s)
    (cmp : ObjId → ObjId → Ordering) (op : SortedOp) :
    op.Inside cmp s.array ↔ op.HasRoom cmp s.array := by
  have hs : ∃ l, s.Holds l := by
    induction hrun with
    | refl => exact ⟨[], .empty⟩
    | tail _ hstep ih =>
      obtain ⟨l, hl⟩ := ih
      obtain ⟨cmp, op, hexec⟩ := hstep
      obtain ⟨s', l', hs', hl', -⟩ := hl.exec cmp op
      exact ⟨l', Option.some.inj (hs'.symm.trans hexec) ▸ hl'⟩
  obtain ⟨l, hl⟩ := hs
  exact op.inside_iff hl.ok cmp

theorem steps_of_run (ops : List SortedOp) {s s' : Ledger} (hrun : ops.foldlM (Ledger.exec cmp) s = some s') :
    ReflTransGen SortedStep s s' := by
  induction ops generalizing s with
  | nil => exact Option.some.inj hrun ▸ .refl
  | cons op ops ih =>
    rw [List.foldlM_cons] at hrun
    obtain ⟨s₁, hstep, hrest⟩ := Option.bind_eq_some_iff.mp hrun
    exact .head ⟨cmp, op, hstep⟩ (ih hrest)

/-- A hundred elements fill the first block. -/
def exFull : Ledger :=
  ⟨⟨100, 100, some (List.replicate 100 (some 0))⟩, List.replicate 100 0, []⟩

theorem exFull_run : (List.replicate 100 (SortedOp.insert (some 0) [])).foldlM (Ledger.exec compare)
    Ledger.empty = some exFull := by
  decide +kernel

theorem sorted_shift_inside_iff_full :
    (SortedOp.removeAt 99 none []).Inside compare exFull.array ↔
      (SortedOp.removeAt 99 none []).HasRoom compare exFull.array :=
  sorted_shift_inside_iff (steps_of_run _ exFull_run) compare _

/-- The removal of the first of a hundred elements reads behind the block. -/
theorem not_sorted_shift_inside : ¬ ∀ s : Ledger, ReflTransGen SortedStep Ledger.empty s →
    ∀ cmp op, SortedOp.Inside cmp s.array op := by
  intro hinside
  have htouch : 100 ∈ (SortedOp.shift compare exFull.array (.removeAt 0 none [])).2 := by
    decide +kernel
  exact absurd (hinside exFull (steps_of_run _ exFull_run) compare (.removeAt 0 none []) 100 htouch)
    (by decide)

end Dframework
