import Mathlib
import Dframework.Base.Retval
import Dframework.Base.Sp
import Dframework.Lang.StringBuffer
import Dframework.Util.ArraySorted

/-!
# The slots of `Array` and `ArraySorted`

Both classes keep pointers in the block of `ArrayBase`, of which the slots below `m_iSize`
are in use. A pointer moves from slot to slot without its object being asked, so what
matters is which pointers stand in the slots in use.

Results:
1. `ArrayBase.grow_ok`: what `capacity` does, under every outcome of the allocations.
2. `ArrayBase.push_slots`, `ArrayBase.insertAt_slots`: the slots behind an insertion.
3. `ArrayBase.swapLast_slots`, `ArrayBase.closeGap_slots`: the slots behind a removal.
-/

namespace Dframework

open Cells

structure ArrayBase where
  capacity : Nat
  size : Nat
  data : Option (List (Option ObjId))
  deriving DecidableEq, Repr

/-- `malloc` of `n` slots. `n` is an `int`: behind its end it asks for more than there is. -/
def mallocSlots (n : Nat) (heap : Heap) : Option (List (Option ObjId)) × Heap :=
  (if n < 2 ^ 31 ∧ heap.headD true then some (List.replicate n none) else none, heap.tail)

def reallocSlots (d : List (Option ObjId)) (n : Nat) (heap : Heap) :
    Option (List (Option ObjId)) × Heap :=
  (if n < 2 ^ 31 ∧ heap.headD true then some (resize d n none) else none, heap.tail)

def getNewCapacity (current : Nat) : Nat :=
  let capa := current / 10
  if capa < 100 then 100 else if capa < 500 then 500 else 1000

namespace ArrayBase

def empty : ArrayBase := ⟨0, 0, none⟩

/-- `m_pData[k]`. -/
def slot (a : ArrayBase) (k : Nat) : Option ObjId :=
  ((a.data.getD [])[k]?).join

def slots (a : ArrayBase) : List (Option ObjId) :=
  (a.data.getD []).take a.size

/-- `ArrayBase::capacity`. -/
def grow (a : ArrayBase) (heap : Heap) : Retval × ArrayBase × Heap :=
  if a.size < a.capacity then (none, a, heap)
  else
    let newcapa := a.capacity + getNewCapacity a.capacity
    match a.data with
    | none =>
      match mallocSlots newcapa heap with
      | (none, heap) => (retval .eNomem, a, heap)
      | (some test, heap) => (none, { a with data := some test, capacity := newcapa }, heap)
    | some d =>
      match reallocSlots d newcapa heap with
      | (some test, heap) => (none, { a with data := some test, capacity := newcapa }, heap)
      | (none, heap) =>
        match mallocSlots newcapa heap with
        | (none, heap) => (retval .eNomem, a, heap)
        | (some _, heap) =>
          (none, { a with data := some (resize (d.take a.capacity) newcapa none),
                          capacity := newcapa }, heap)

def get (a : ArrayBase) (position : Int) : Option ObjId :=
  if position < a.size ∧ 0 ≤ position then a.slot position.toNat else none

/-- `m_pData[k] = p`. -/
def store (a : ArrayBase) (k : Nat) (p : Option ObjId) : Option ArrayBase := do
  let data ← writePtr a.data k [p]
  some { a with data }

/-- The loop of `ArraySorted::insert` for the case without memory: `k` goes down to
`iid + 1`, in `n` steps. -/
def shiftUp (iid : Nat) : Nat → List (Option ObjId) → Option (List (Option ObjId))
  | 0, d => some d
  | n + 1, d => do
    let x ← read d (iid + n) 1
    let d ← write d (iid + n + 1) x
    shiftUp iid n d

/-- The gap `ArraySorted::insert` makes at `iid`. -/
def openGap (a : ArrayBase) (iid : Nat) (heap : Heap) : Option (ArrayBase × Heap) :=
  let len := a.size - iid
  if len = 0 then some (a, heap)
  else do
    let d ← a.data
    let d ← if heap.headD true then do
        let p ← read d iid len
        write d (iid + 1) p
      else shiftUp iid len d
    some ({ a with data := some d }, heap.tail)

/-- The loop of `ArraySorted::remove` for the case without memory: `n` steps from `k` on.
`behind` is the word behind the block, which the last step may read. -/
def shiftDown (behind : Option ObjId) (k : Nat) : Nat → List (Option ObjId) →
    Option (List (Option ObjId))
  | 0, d => some d
  | n + 1, d => do
    let x ← read (d ++ [behind]) (k + 1) 1
    let d ← write d k x
    shiftDown behind (k + 1) n d

/-- How `ArraySorted::remove` closes the gap at `position`. It moves one slot more than are
in use. -/
def closeGap (a : ArrayBase) (position : Nat) (behind : Option ObjId) (heap : Heap) :
    Option (ArrayBase × Heap) :=
  if position = a.size - 1 then do
    let a ← a.store position none
    some (a, heap)
  else do
    let len := a.size - position
    let d ← a.data
    let d ← if heap.headD true then do
        let p ← read (d ++ [behind]) (position + 1) len
        write d position p
      else shiftDown behind position len d
    some ({ a with data := some d }, heap.tail)

/-- How `Array::remove` closes the gap at `position`: with the last pointer. -/
def swapLast (a : ArrayBase) (position : Nat) : Option ArrayBase := do
  let a ← a.store position (a.slot (a.size - 1))
  a.store (a.size - 1) none

end ArrayBase

/-- The capacity is that of the block, and no more slots are in use than there are. -/
structure ArrayOk (a : ArrayBase) : Prop where
  size_le : a.size ≤ a.capacity
  block : (a.data.getD []).length = a.capacity

namespace ArrayBase

variable {a a' : ArrayBase} {x : ObjId} {d d' : List (Option ObjId)} {heap heap' : Heap}

theorem mallocSlots_cases (n : Nat) (heap : Heap) :
    mallocSlots n heap = (none, heap.tail) ∨
      mallocSlots n heap = (some (List.replicate n none), heap.tail) := by
  rw [mallocSlots]
  split
  · exact .inr rfl
  · exact .inl rfl

theorem getNewCapacity_pos (n : Nat) : 0 < getNewCapacity n := by
  simp only [getNewCapacity]
  split
  · omega
  · split <;> omega

/-- `capacity` fails and leaves the array alone, or there is a free slot afterwards. The
slots in use stay what they are. -/
theorem grow_ok (h : ArrayOk a) (heap : Heap) :
    ∃ r a' heap', a.grow heap = (r, a', heap') ∧ ArrayOk a' ∧ a'.slots = a.slots ∧
      a'.size = a.size ∧ (r = none → a.size < a'.capacity) := by
  have hle := h.size_le
  have hpos := getNewCapacity_pos a.capacity
  have hblock := h.block
  rw [grow]
  split
  next hlt => exact ⟨_, _, _, rfl, h, rfl, rfl, fun _ => hlt⟩
  next hfull =>
    have hsize : a.size = a.capacity := by omega
    rcases hd : a.data with _ | d
    · rw [hd, Option.getD_none, List.length_nil] at hblock
      rcases mallocSlots_cases (a.capacity + getNewCapacity a.capacity) heap with hm | hm
      · simp only [hm]
        exact ⟨_, _, _, rfl, h, rfl, rfl, by simp⟩
      · simp only [hm]
        refine ⟨_, _, _, rfl, ⟨?_, ?_⟩, ?_, rfl, fun _ => ?_⟩
        · show a.size ≤ a.capacity + getNewCapacity a.capacity
          omega
        · exact List.length_replicate
        · rw [slots, slots, hsize, ← hblock, List.take_zero, List.take_zero]
        · show a.size < a.capacity + getNewCapacity a.capacity
          omega
    · rw [hd, Option.getD_some] at hblock
      have hgrown : ∀ d₁ : List (Option ObjId), d₁ = d → ArrayOk { a with
            data := some (resize d₁ (a.capacity + getNewCapacity a.capacity) none),
            capacity := a.capacity + getNewCapacity a.capacity } ∧
          slots { a with
            data := some (resize d₁ (a.capacity + getNewCapacity a.capacity) none),
            capacity := a.capacity + getNewCapacity a.capacity } = a.slots := by
        rintro d₁ rfl
        refine ⟨⟨?_, ?_⟩, ?_⟩
        · show a.size ≤ a.capacity + getNewCapacity a.capacity
          omega
        · exact resize_length _ _ _
        · rw [slots, slots, hd]
          exact take_resize none (show a.size ≤ d₁.length by omega)
            (show a.size ≤ a.capacity + _ by omega)
      simp only [reallocSlots]
      split
      next test heap₁ hr =>
        obtain ⟨htest, rfl⟩ := Prod.mk.inj hr
        obtain rfl : resize d (a.capacity + getNewCapacity a.capacity) none = test := by
          split at htest
          · exact Option.some.inj htest
          · cases htest
        obtain ⟨hok, hslots⟩ := hgrown d rfl
        exact ⟨_, _, _, rfl, hok, hslots, rfl, fun _ => by show a.size < a.capacity + _; omega⟩
      next heap₁ hr =>
        rcases mallocSlots_cases (a.capacity + getNewCapacity a.capacity) heap₁ with hm | hm
        · simp only [hm]
          exact ⟨_, _, _, rfl, h, rfl, rfl, by simp⟩
        · simp only [hm]
          obtain ⟨hok, hslots⟩ := hgrown (d.take a.capacity) (List.take_of_length_le hblock.le)
          exact ⟨_, _, _, rfl, hok, hslots, rfl, fun _ => by show a.size < a.capacity + _; omega⟩

/-! ## An insertion -/

theorem store_of_lt (h : ArrayOk a) {k : Nat} (hk : k < a.capacity) (p : Option ObjId) :
    ∃ d, a.data = some d ∧ d.length = a.capacity ∧
      a.store k p = some { a with data := some (d.set k p) } := by
  have hblock := h.block
  rcases hd : a.data with _ | d
  · rw [hd, Option.getD_none, List.length_nil] at hblock
    omega
  · rw [hd, Option.getD_some] at hblock
    have hk' : k < d.length := hblock ▸ hk
    obtain ⟨d', hwrite, hptr⟩ := writePtr_of_le (b := d) (i := k) [p] hk'
    obtain rfl := Option.some.inj ((write_one hk' p).symm.trans hwrite)
    refine ⟨d, rfl, hblock, ?_⟩
    rw [store, hd, hptr]
    rfl

/-- A pointer behind the slots in use: `Array::insert`. -/
theorem push_slots (h : ArrayOk a) (hfree : a.size < a.capacity) (p : Option ObjId) :
    ∃ a', a.store a.size p = some a' ∧ ArrayOk { a' with size := a'.size + 1 } ∧
      slots { a' with size := a'.size + 1 } = a.slots ++ [p] := by
  obtain ⟨d, hd, hlen, hstore⟩ := store_of_lt h hfree p
  refine ⟨_, hstore, ⟨hfree, ?_⟩, ?_⟩
  · rw [Option.getD_some, List.length_set, hlen]
  · rw [slots, slots, hd, Option.getD_some, Option.getD_some]
    show (d.set a.size p).take (a.size + 1) = d.take a.size ++ [p]
    rw [List.take_add_one, List.take_set_of_le le_rfl, List.getElem?_set_self (hlen ▸ hfree)]
    rfl

/-- The loop moves `n` slots from `iid` on up by one. -/
theorem shiftUp_moves {iid n : Nat} (hn : iid + n < d.length) :
    ∃ d', shiftUp iid n d = some d' ∧ d'.length = d.length ∧ (∀ j, j < iid → d'[j]? = d[j]?) ∧
      ∀ j, iid ≤ j → j < iid + n → d'[j + 1]? = d[j]? := by
  -- the slots behind the moved ones stay, so that a step does not undo those before it
  suffices h : ∃ d', shiftUp iid n d = some d' ∧ d'.length = d.length ∧
      (∀ j, j < iid ∨ iid + n < j → d'[j]? = d[j]?) ∧
      ∀ j, iid ≤ j → j < iid + n → d'[j + 1]? = d[j]? by
    obtain ⟨d', hrun, hlen, hkept, hmoved⟩ := h
    exact ⟨d', hrun, hlen, fun j hj => hkept j (.inl hj), hmoved⟩
  induction n generalizing d with
  | zero => exact ⟨d, rfl, rfl, fun _ _ => rfl, fun j hle hlt => absurd hlt (by omega)⟩
  | succ n ih =>
    have hread : iid + n < d.length := by omega
    obtain ⟨d', hrun, hlen, hkept, hmoved⟩ := ih (d := d.set (iid + n + 1) d[iid + n])
      (by rw [List.length_set]; omega)
    refine ⟨d', ?_, hlen.trans List.length_set, fun j hj => ?_, fun j hle hlt => ?_⟩
    · rw [shiftUp]
      simp only [Option.bind_eq_bind, read_one hread, Option.bind_some, write_one (show
        iid + n + 1 < d.length from hn), hrun]
    · rw [hkept j (by omega), List.getElem?_set_ne (by omega)]
    · rcases Nat.lt_or_ge j (iid + n) with hjn | hjn
      · rw [hmoved j hle hjn, List.getElem?_set_ne (by omega)]
      · obtain rfl : j = iid + n := by omega
        rw [hkept (iid + n + 1) (.inr (Nat.lt_succ_self _)),
          List.getElem?_set_self (show iid + n + 1 < d.length from hn),
          List.getElem?_eq_getElem hread]

/-- A pointer at `iid`, and those from there on one slot further: `ArraySorted::insert`. -/
theorem insertAt_slots (h : ArrayOk a) (hfree : a.size < a.capacity) {iid : Nat}
    (hiid : iid ≤ a.size) (p : Option ObjId) (heap : Heap) :
    ∃ a₁ a' heap', a.openGap iid heap = some (a₁, heap') ∧ a₁.size = a.size ∧
      a₁.store iid p = some a' ∧ ArrayOk { a' with size := a'.size + 1 } ∧
      slots { a' with size := a'.size + 1 } = a.slots.insertIdx iid p := by
  obtain ⟨d, hd, hlen, -⟩ := store_of_lt h hfree p
  suffices hgap : ∃ d₁ heap', a.openGap iid heap = some ({ a with data := some d₁ }, heap') ∧
      d₁.length = d.length ∧ (∀ j, j < iid → d₁[j]? = d[j]?) ∧
      ∀ j, iid ≤ j → j < a.size → d₁[j + 1]? = d[j]? by
    obtain ⟨d₁, heap', hrun, hlen₁, hbelow, habove⟩ := hgap
    have hok₁ : ArrayOk { a with data := some d₁ } := ⟨h.size_le, hlen₁.trans hlen⟩
    obtain ⟨d₂, hd₂, -, hstore⟩ := store_of_lt hok₁ (hiid.trans_lt hfree) p
    obtain rfl := Option.some.inj hd₂
    refine ⟨_, _, heap', hrun, rfl, hstore, ⟨hfree, ?_⟩, ?_⟩
    · rw [Option.getD_some, List.length_set, hlen₁, hlen]
    · rw [slots, slots, hd, Option.getD_some, Option.getD_some]
      exact insertIdx_of_moved (n := a.size) p hiid (by omega) (by omega) hbelow habove
  rw [openGap]
  simp only [hd]
  split
  next h0 => exact ⟨d, heap, by rw [← hd], rfl, fun _ _ => rfl, fun j _ _ => absurd h0 (by omega)⟩
  next =>
    simp only [Option.bind_eq_bind, Option.bind_some]
    split
    next =>
      -- the block for `p` could be allocated
      have hp : ((d.drop iid).take (a.size - iid)).length = a.size - iid := by
        rw [List.length_take, List.length_drop]
        omega
      rw [read_of_le (show iid + (a.size - iid) ≤ d.length by omega), Option.bind_some]
      obtain ⟨d₁, hwrite⟩ : ∃ d₁, write d (iid + 1) ((d.drop iid).take (a.size - iid)) = some d₁ :=
        ⟨_, write_of_le (by rw [hp]; omega)⟩
      refine ⟨d₁, _, by rw [hwrite]; rfl, write_length hwrite,
        fun j hj => getElem?_write_lt hwrite (by omega), fun j hle hlt => ?_⟩
      obtain ⟨t, rfl⟩ := Nat.exists_eq_add_of_le hle
      rw [show iid + t + 1 = iid + 1 + t by omega, getElem?_write_mem hwrite (by omega),
        List.getElem?_take_of_lt (by omega), List.getElem?_drop]
    next =>
      obtain ⟨d₁, hrun, hlen₁, hbelow, habove⟩ := shiftUp_moves
        (show iid + (a.size - iid) < d.length by omega)
      exact ⟨d₁, _, by rw [hrun]; rfl, hlen₁, hbelow, fun j hle hlt => habove j hle (by omega)⟩

/-! ## A removal -/

theorem slot_eq (h : ArrayOk a) {k : Nat} (hk : k < a.size) : a.slots[k]? = some (a.slot k) := by
  have hlt : k < (a.data.getD []).length := by
    rw [h.block]
    exact hk.trans_le h.size_le
  rw [slots, slot, List.getElem?_take_of_lt hk, List.getElem?_eq_getElem hlt]
  rfl

/-- The last pointer goes to the slot of the one that is removed: `Array::remove`. -/
theorem swapLast_slots (h : ArrayOk a) {k : Nat} (hk : k < a.size) :
    ∃ a', a.swapLast k = some a' ∧ ArrayOk { a' with size := a'.size - 1 } ∧
      a.slots.Perm (a.slot k :: slots { a' with size := a'.size - 1 }) := by
  have hle := h.size_le
  obtain ⟨d, hd, hlen, hstore⟩ := store_of_lt h (hk.trans_le hle) (a.slot (a.size - 1))
  have hok₁ : ArrayOk { a with data := some (d.set k (a.slot (a.size - 1))) } :=
    ⟨hle, List.length_set.trans hlen⟩
  obtain ⟨d₁, hd₁, hlen₁, hstore₁⟩ := store_of_lt hok₁ (show a.size - 1 < a.capacity by omega) none
  obtain rfl := Option.some.inj hd₁
  refine ⟨{ a with data := some ((d.set k (a.slot (a.size - 1))).set (a.size - 1) none) }, ?_,
    ⟨show a.size - 1 ≤ a.capacity by omega, List.length_set.trans hlen₁⟩, ?_⟩
  · rw [swapLast, hstore]
    exact hstore₁
  have hslots : slots ⟨a.capacity, a.size - 1, some ((d.set k (a.slot (a.size - 1))).set
      (a.size - 1) none)⟩ = (d.take (a.size - 1)).set k (a.slot (a.size - 1)) := by
    rw [slots, Option.getD_some, List.take_set_of_le le_rfl, List.take_set]
  have hall : a.slots = d.take (a.size - 1) ++ [a.slot (a.size - 1)] := by
    have hget : d[a.size - 1]? = some (a.slot (a.size - 1)) := by
      have := slot_eq h (show a.size - 1 < a.size by omega)
      rwa [slots, hd, Option.getD_some, List.getElem?_take_of_lt (by omega)] at this
    rw [slots, hd, Option.getD_some]
    conv_lhs => rw [show a.size = a.size - 1 + 1 by omega, List.take_add_one, hget]
    rfl
  show a.slots.Perm (a.slot k :: slots ⟨a.capacity, a.size - 1, _⟩)
  have hk' := slot_eq h hk
  rw [hslots]
  rw [hall] at hk' ⊢
  obtain ⟨hlt, hget⟩ := List.getElem?_eq_some_iff.mp hk'
  rw [← hget]
  exact perm_set_last hlt

/-- The loop moves `n` slots from `k + 1` on down by one. -/
theorem shiftDown_moves (behind : Option ObjId) {k n : Nat} (hn : k + n ≤ d.length) :
    ∃ d', shiftDown behind k n d = some d' ∧ d'.length = d.length ∧
      (∀ j, j < k ∨ k + n ≤ j → d'[j]? = d[j]?) ∧
      ∀ j, k ≤ j → j < k + n → d'[j]? = (d ++ [behind])[j + 1]? := by
  induction n generalizing d k with
  | zero => exact ⟨d, rfl, rfl, fun _ _ => rfl, fun j hle hlt => absurd hlt (by omega)⟩
  | succ n ih =>
    have hread : k + 1 < (d ++ [behind]).length := by
      rw [List.length_append, List.length_singleton]
      omega
    obtain ⟨d', hrun, hlen, hkept, hmoved⟩ := ih (k := k + 1) (d := d.set k (d ++ [behind])[k + 1])
      (by rw [List.length_set]; omega)
    refine ⟨d', ?_, hlen.trans List.length_set, fun j hj => ?_, fun j hle hlt => ?_⟩
    · rw [shiftDown]
      simp only [Option.bind_eq_bind, read_one hread, Option.bind_some, write_one (show
        k < d.length by omega), hrun]
    · rw [hkept j (by omega), List.getElem?_set_ne (by omega)]
    · rcases Nat.eq_or_lt_of_le hle with rfl | hlt'
      · rw [hkept k (.inl (Nat.lt_succ_self k)), List.getElem?_set_self (by omega),
          List.getElem?_eq_getElem hread]
      · rw [hmoved j hlt' (by omega), ← List.set_append_left _ _ (by omega),
          List.getElem?_set_ne (by omega)]

/-- The pointers behind `position` go one slot down, with what stands behind those in use. -/
theorem closeGap_moves (h : ArrayOk a) (hd : a.data = some d) {position : Nat}
    (hpos : position < a.size) (hne : position ≠ a.size - 1) (behind : Option ObjId) (heap : Heap) :
    ∃ d₁, a.closeGap position behind heap = some ({ a with data := some d₁ }, heap.tail) ∧
      d₁.length = d.length ∧ (∀ j, j < position ∨ a.size ≤ j → d₁[j]? = d[j]?) ∧
      ∀ j, position ≤ j → j < a.size → d₁[j]? = (d ++ [behind])[j + 1]? := by
  have hle := h.size_le
  have hlen : d.length = a.capacity := by rw [← h.block, hd, Option.getD_some]
  have hlen' : (d ++ [behind]).length = d.length + 1 := List.length_append
  rw [closeGap, if_neg hne]
  simp only [hd, Option.bind_eq_bind, Option.bind_some]
  split
  next =>
    rw [read_of_le (show position + 1 + (a.size - position) ≤ (d ++ [behind]).length by omega),
      Option.bind_some]
    have hp : (((d ++ [behind]).drop (position + 1)).take (a.size - position)).length =
        a.size - position := by
      rw [List.length_take, List.length_drop]
      omega
    obtain ⟨d₁, hwrite⟩ : ∃ d₁, write d position
        (((d ++ [behind]).drop (position + 1)).take (a.size - position)) = some d₁ :=
      ⟨_, write_of_le (by rw [hp]; omega)⟩
    refine ⟨d₁, by rw [hwrite]; rfl, write_length hwrite, fun j hj => ?_, fun j hle hlt => ?_⟩
    · rcases hj with hj | hj
      · exact getElem?_write_lt hwrite hj
      · exact getElem?_write_ge hwrite (by omega)
    · obtain ⟨t, rfl⟩ := Nat.exists_eq_add_of_le hle
      rw [getElem?_write_mem hwrite (by omega), List.getElem?_take_of_lt (by omega),
        List.getElem?_drop]
      congr 1
      omega
  next =>
    obtain ⟨d₁, hrun, hlen₁, hkept, hmoved⟩ := shiftDown_moves behind
      (show position + (a.size - position) ≤ d.length by omega)
    exact ⟨d₁, by rw [hrun]; rfl, hlen₁, fun j hj => hkept j (by omega),
      fun j hle hlt => hmoved j hle (by omega)⟩

/-- The pointers behind `position` go one slot down: `ArraySorted::remove`. What stands behind
the slots in use, or behind the block, comes into the slot that is given up. -/
theorem closeGap_slots (h : ArrayOk a) {position : Nat} (hpos : position < a.size)
    (behind : Option ObjId) (heap : Heap) :
    ∃ a' heap', a.closeGap position behind heap = some (a', heap') ∧
      ArrayOk { a' with size := a'.size - 1 } ∧
      slots { a' with size := a'.size - 1 } = a.slots.eraseIdx position := by
  have hle := h.size_le
  obtain ⟨d, hd, hlen, hstore⟩ := store_of_lt h (hpos.trans_le hle) none
  suffices hgap : ∃ d₁ heap', a.closeGap position behind heap =
        some ({ a with data := some d₁ }, heap') ∧ d₁.length = d.length ∧
      (∀ j, j < position → d₁[j]? = d[j]?) ∧
      ∀ j, position ≤ j → j + 1 < a.size → d₁[j]? = d[j + 1]? by
    obtain ⟨d₁, heap', hrun, hlen₁, hbelow, habove⟩ := hgap
    refine ⟨_, heap', hrun, ⟨show a.size - 1 ≤ a.capacity by omega, hlen₁.trans hlen⟩, ?_⟩
    rw [slots, slots, hd, Option.getD_some, Option.getD_some]
    exact eraseIdx_of_moved (n := a.size) hpos (by omega) hbelow habove
  by_cases hlast : position = a.size - 1
  · rw [closeGap, if_pos hlast, hstore]
    exact ⟨_, heap, rfl, List.length_set, fun j hj => List.getElem?_set_ne hj.ne',
      fun j hle hlt => absurd hlast (by omega)⟩
  · obtain ⟨d₁, hrun, hlen₁, hkept, hmoved⟩ := closeGap_moves h hd hpos hlast behind heap
    refine ⟨d₁, _, hrun, hlen₁, fun j hj => hkept j (.inl hj), fun j hle hlt => ?_⟩
    rw [hmoved j hle (by omega), List.getElem?_append_left (by omega)]

end ArrayBase

end Dframework
