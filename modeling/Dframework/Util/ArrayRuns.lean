import Mathlib
import Dframework.Base.SpRuns
import Dframework.Util.ArrayBase

/-!
# Runs of `Array` and `ArraySorted`

A pointer in a slot in use is an undocked reference: `insert` undocks it, and `remove`,
`clear` and the destructor dock it again, into a temporary handle. The slots in use of all
arrays together are the undocked references, and so the counts of `sp` are right for them.

How two elements compare is up to the elements, and it may be different for every
operation. An array grows as the allocations let it.

Results:
1. `Counted.dockTemp`, `dropSlots_ends`: references that are given back.
2. `array_exec`: one operation, which ends unless a count is at its limit.
3. `array_run_counted`: the counts, in every run.
-/

namespace Dframework

open Store Relation

/-! ## References of slots -/

namespace Memory

/-- `sp<T>::docking(p);`: the handle it returns goes at once. -/
def dockTemp (m : Memory) (p : Option ObjId) : Option Memory := do
  let newz := m.handles.length + 1
  let m ← m.docking p
  m.destroy newz

/-- `get(iid).has()`: the handle goes behind the test. -/
def probe (m : Memory) (p : Option ObjId) : Option Memory := do
  let tmp := m.handles.length
  let m ← m.construct p
  m.destroy tmp

def dropSlots : List (Option ObjId) → Memory → Option Memory
  | [], m => some m
  | none :: l, m => dropSlots l m
  | some x :: l, m => do
    let m ← m.dockTemp (some x)
    dropSlots l m

/-- No handle keeps its reference when it goes. -/
def Unflagged (m : Memory) : Prop :=
  ∀ j h, m.handle j = some h → h.undockingResponsibility = false

/-- References are given back, and none is new. -/
structure Shrinks (m m' : Memory) : Prop where
  origin : ∀ j h, m'.handle j = some h → m.handle j = some h
  roots : ∀ j h, m.handle j = some h → h.owner = none → m'.handle j = some h
  deletes : Deletes m m'
  size : m'.counts.length = m.counts.length
  sublist : m'.undocked.Sublist m.undocked

end Memory

variable {m m' m₁ : Memory} {i j : Loc} {x y : ObjId} {h s : Sp} {p : Option ObjId}

/-- Two parts of an operation, of which the first refers to nothing new. -/
theorem Deletes.trans (h₁ : Deletes m m₁) (h₂ : Deletes m₁ m') (hc' : Counted m')
    (hsize : m₁.counts.length = m.counts.length)
    (hpos : ∀ x, 0 < m₁.number x → 0 < m.number x) : Deletes m m' := by
  have honce : ∀ x, x < m.counts.length → m₁.refCount x = none → m'.refCount x = none :=
    fun x hlt hx => h₂.once x (hsize ▸ hlt) hx
  refine ⟨fun x c hx => ?_, fun x hlt hx => honce x hlt (h₁.once x hlt hx)⟩
  rcases hx₁ : m₁.refCount x with _ | c₁
  · have hnone := honce x (lt_of_get hx) hx₁
    exact iff_of_true hnone ⟨((h₁.deleted_iff x c hx).mp hx₁).1, hc'.number_eq_zero hnone⟩
  · rw [h₂.deleted_iff x c₁ hx₁]
    refine ⟨fun ⟨hp, h0⟩ => ⟨hpos x hp, h0⟩, fun ⟨hp, h0⟩ => ⟨?_, h0⟩⟩
    by_contra hzero
    have := (h₁.deleted_iff x c hx).mpr ⟨hp, by omega⟩
    rw [hx₁] at this
    cases this

namespace Memory.Shrinks

theorem refl (m : Memory) : Shrinks m m :=
  ⟨fun _ _ h => h, fun _ _ h _ => h, .refl m, rfl, List.Sublist.refl _⟩

theorem number_le (hs : Shrinks m m') (x : ObjId) : m'.number x ≤ m.number x := by
  refine Nat.add_le_add (Finset.card_le_card fun j hj => ?_) (hs.sublist.count_le x)
  obtain ⟨h, hj, hp⟩ := mem_holders.mp hj
  exact mem_holders.mpr ⟨h, hs.origin j h hj, hp⟩

theorem trans (h₁ : Shrinks m m₁) (h₂ : Shrinks m₁ m') (hc' : Counted m') : Shrinks m m' :=
  ⟨fun j h hj => h₁.origin j h (h₂.origin j h hj),
    fun j h hj ho => h₂.roots j h (h₁.roots j h hj ho) ho,
    h₁.deletes.trans h₂.deletes hc' h₁.size fun x hx => hx.trans_le (h₁.number_le x),
    h₂.size.trans h₁.size, h₂.sublist.trans h₁.sublist⟩

/-- No count is higher than before. -/
theorem before (hs : Shrinks m m') (hc : Counted m) (hc' : Counted m') {c : Int}
    (hx : m'.refCount x = some c) : ∃ c₀, m.refCount x = some c₀ ∧ c ≤ c₀ := by
  obtain ⟨c₀, hx₀⟩ : ∃ c₀, m.refCount x = some c₀ := by
    by_contra hne
    rw [not_exists] at hne
    have hlt : x < m.counts.length := hs.size ▸ lt_of_get hx
    rw [hs.deletes.once x hlt (Option.eq_none_iff_forall_ne_some.mpr hne)] at hx
    cases hx
  refine ⟨c₀, hx₀, ?_⟩
  rw [hc.count x c₀ hx₀, hc'.count x c hx]
  exact_mod_cast hs.number_le x

theorem unflagged (hs : Shrinks m m') (hu : m.Unflagged) : m'.Unflagged :=
  fun j h hj => hu j h (hs.origin j h hj)

end Memory.Shrinks

namespace Counted

/-- The reference of a slot is given back. -/
theorem dockTemp (hc : Counted m) (hu : m.Unflagged) (hx : x ∈ m.undocked)
    (hroom : HasRoom m (some x)) :
    ∃ m', m.dockTemp (some x) = some m' ∧ Counted m' ∧ m.Shrinks m' ∧
      m'.undocked = m.undocked.erase x := by
  obtain ⟨m₁, hrun₁, hc₁, hdel₁, hdock⟩ := hc.docking (p := some x)
    (fun y hy => Option.some.inj hy ▸ hx) hroom
  have hund₁ : m₁.undocked = m.undocked.erase x := by
    rw [hdock.undocked hu, Option.toList_some, List.diff_cons, List.diff_nil]
  obtain ⟨m₂, m', hr, hrun, hc', hdel, hm'⟩ := hc₁.destroy hdock.result rfl
  have horigin₁ : ∀ j h, m₁.handle j = some h → j ≠ m.handles.length + 1 → m.handle j = some h :=
    hdock.origin
  have hu₁ : m₁.Unflagged := by
    intro j h hj
    by_cases hjn : j = m.handles.length + 1
    · subst hjn
      obtain rfl := Option.some.inj (hdock.result.symm.trans hj)
      rfl
    · exact hu j h (horigin₁ j h hj hjn)
  have hund : m'.undocked = m.undocked.erase x := by
    rw [hm']
    exact (hr.same_undocked hu₁).trans hund₁
  -- the new handle is the only one that `docking` leaves behind
  have hpos : ∀ y, 0 < m₁.number y → 0 < m.number y := by
    intro y hy
    rcases eq_or_ne y x with rfl | hyx
    · exact Nat.add_pos_right _ (List.count_pos_iff.mpr hx)
    · refine hy.trans_le (Nat.add_le_add (Finset.card_le_card fun j hj => ?_) ?_)
      · obtain ⟨h, hj, hp⟩ := Memory.mem_holders.mp hj
        refine Memory.mem_holders.mpr ⟨h, horigin₁ j h hj ?_, hp⟩
        rintro rfl
        obtain rfl := Option.some.inj (hdock.result.symm.trans hj)
        exact hyx (Option.some.inj hp).symm
      · rw [hund₁]
        exact List.erase_sublist.count_le y
  have hlt : m.handles.length + 1 < m₂.handles.length := lt_of_get (hr.nulled _ hdock.result)
  refine ⟨m', ?_, hc', ⟨fun j h hj => ?_, fun j h hj ho => ?_,
    hdel₁.trans hdel hc' hdock.size hpos, ?_, ?_⟩, hund⟩
  · rw [Memory.dockTemp, hrun₁]
    exact hrun
  · rw [hm', Memory.handle, get_set hlt] at hj
    split at hj
    next => cases hj
    next hne => exact horigin₁ j h (hr.origin j h hj (Ne.symm hne)) (Ne.symm hne)
  · have hj₁ := hdock.roots j h hj ho
    have hne : j ≠ m.handles.length + 1 := ((lt_of_get hj).trans (Nat.lt_succ_self _)).ne
    rw [hm', Memory.handle, get_set_ne hne.symm]
    refine hr.kept j h hj₁ hne fun h' o hj' ho' => ?_
    obtain rfl := Option.some.inj (hj₁.symm.trans hj')
    rw [ho] at ho'
    cases ho'
  · rw [hm']
    exact hr.size.trans hdock.size
  · rw [hund]
    exact List.erase_sublist

/-- The test of a slot changes nothing: its own reference is left. -/
theorem probe (hc : Counted m) (hx : x ∈ m.undocked) (hroom : HasRoom m (some x)) :
    m.probe (some x) = some ⟨m.handles ++ [none], m.counts, m.undocked⟩ ∧
      Counted ⟨m.handles ++ [none], m.counts, m.undocked⟩ ∧
      Grows m ⟨m.handles ++ [none], m.counts, m.undocked⟩ := by
  have hend : ∀ v, (m.handles ++ [some (⟨none, false, none⟩ : Sp)]).set m.handles.length v =
      m.handles ++ [v] := fun v => by
    rw [List.set_append_right _ _ le_rfl, Nat.sub_self, List.set_cons_zero]
  have hc' : Counted ⟨(m.handles ++ [some (⟨none, false, none⟩ : Sp)]).set m.handles.length none, m.counts,
      m.undocked⟩ :=
    hc.append.drop (i := m.handles.length) (s := ⟨none, false, none⟩) (get_append_length _) rfl
  rw [hend] at hc'
  refine ⟨?_, hc', ⟨fun _ c hy => ⟨c, hy⟩, fun _ _ hy => hy, fun y => ?_⟩⟩
  swap
  · rw [Memory.number, Memory.number, Memory.holders, Memory.holders]
    dsimp only
    rw [places_append_none]
  obtain ⟨c, hcount⟩ := hc.undocked_live x hx
  have hpos : 0 < c := by
    rw [hc.count x c hcount]
    exact_mod_cast Nat.add_pos_right _ (List.count_pos_iff.mpr hx)
  have hlt : x < m.counts.length := lt_of_get hcount
  set n := m.handles.length with hn
  set h₁ : Memory := ⟨m.handles ++ [some ⟨some x, false, none⟩], m.counts.set x (some (c + 1)),
    m.undocked⟩ with hh₁
  have hrun₁ : m.construct (some x) = some h₁ := by
    rw [Memory.construct, Memory.incPtr, Memory.incRefCount, hcount]
    simp only [Option.bind_eq_bind, Option.bind_some, if_pos (hroom x c rfl hcount)]
    rfl
  have hcount₁ : h₁.refCount x = some (c + 1) := get_set_self hlt _
  have hnew : h₁.handle n = some ⟨some x, false, none⟩ := get_append_length _
  have hback : (m.counts.set x (some (c + 1))).set x (some c) = m.counts := by
    rw [List.set_set]
    exact set_get hcount
  have hdec : h₁.decRefCount x = some ⟨h₁.handles, m.counts, m.undocked⟩ := by
    rw [Memory.decRefCount, hcount₁]
    simp only [Option.bind_eq_bind, Option.bind_some, add_sub_cancel_right, if_neg hpos.not_gt, hh₁,
      hback]
  have hrel : ∀ dec, Memory.release dec h₁ ⟨some x, false, none⟩ =
      some ⟨h₁.handles, m.counts, m.undocked⟩ := by
    intro dec
    have hc0 : Memory.refCount ⟨h₁.handles, m.counts, m.undocked⟩ x ≠ some 0 := by
      rw [show Memory.refCount ⟨h₁.handles, m.counts, m.undocked⟩ x = some c from hcount]
      intro heq
      exact hpos.ne' (Option.some.inj heq)
    simp only [Memory.release, Bool.false_eq_true, if_false, Option.bind_eq_bind, hdec,
      Option.bind_some, if_neg hc0]
  have hset : ∀ v, h₁.handles.set n v = m.handles ++ [v] := by
    intro v
    rw [hh₁, List.set_append_right _ _ le_rfl, Nat.sub_self, List.set_cons_zero]
  have hnew₂ : Memory.handle ⟨h₁.handles, m.counts, m.undocked⟩ n = some ⟨some x, false, none⟩ := hnew
  rw [Memory.probe, hrun₁]
  simp only [Option.bind_eq_bind, Option.bind_some, Memory.destroy, Memory.dec, Memory.decFuel, hnew,
    hrel, Memory.setPtr, hnew₂, ← hn, hset]
  rw [Memory.drop, Memory.handle, get_append_length]
  simp only [Option.bind_eq_bind, Option.bind_some]
  rw [List.set_append_right _ _ le_rfl, Nat.sub_self, List.set_cons_zero]

end Counted

/-! ## References that are at their limit -/

/-- There is a result with the property `P`, or none, which has the reason `L`. -/
def Ends {β : Type*} (L : Prop) (r : Option β) (P : β → Prop) : Prop :=
  r = none ∧ L ∨ ∃ b, r = some b ∧ P b

/-- An object has as many references as `Object` can count, but one. -/
def AtLimit (m : Memory) : Prop :=
  ∃ x c, m.refCount x = some c ∧ 2 ^ 31 ≤ c + 2

namespace Ends

variable {β γ : Type*} {L L' : Prop} {r : Option β} {P : β → Prop} {Q : γ → Prop}

theorem bind {f : β → Option γ} (h : Ends L r P) (hf : ∀ b, P b → Ends L (f b) Q) :
    Ends L (r.bind f) Q := by
  rcases h with ⟨rfl, hL⟩ | ⟨b, rfl, hb⟩
  · exact .inl ⟨rfl, hL⟩
  · exact hf b hb

theorem imp (h : Ends L r P) (hL : L → L') : Ends L' r P :=
  Or.imp_left (fun ⟨hr, hl⟩ => ⟨hr, hL hl⟩) h

theorem intro {b : β} (hb : P b) : Ends L (some b) P :=
  .inr ⟨b, rfl, hb⟩

end Ends

theorem exists_of_not_hasRoom (h : ¬ HasRoom m p) :
    ∃ x c, p = some x ∧ m.refCount x = some c ∧ 2 ^ 31 ≤ c + 1 := by
  rw [HasRoom] at h
  push Not at h
  exact h

theorem AtLimit.of_not_hasRoom (h : ¬ HasRoom m p) : AtLimit m := by
  obtain ⟨x, c, -, hx, hge⟩ := exists_of_not_hasRoom h
  exact ⟨x, c, hx, by omega⟩

theorem construct_full (h : ¬ HasRoom m p) : m.construct p = none := by
  obtain ⟨x, c, rfl, hx, hge⟩ := exists_of_not_hasRoom h
  rw [Memory.construct, Memory.incPtr, Memory.incRefCount, hx]
  simp only [Option.bind_eq_bind, Option.bind_some, if_neg hge.not_gt, Option.bind_none]

theorem construct_ends (hc : Counted m) (hp : ∀ x, p = some x → ∃ c, m.refCount x = some c) :
    Ends (¬ HasRoom m p) (m.construct p) fun m' => Counted m' ∧ OneMore p m m' ∧
      m'.handles = m.handles ++ [some ⟨p, false, none⟩] := by
  by_cases hroom : HasRoom m p
  · exact .inr (hc.construct hp hroom)
  · exact .inl ⟨construct_full hroom, hroom⟩

theorem undocking_ends (hc : Counted m) (hp : ∀ x, p = some x → ∃ c, m.refCount x = some c) :
    Ends (¬ HasRoom m p) (m.undocking p) fun m' => Counted m' ∧ Grows m m' ∧
      m'.handles = m.handles ++ [none] ∧ m'.undocked = p.toList ++ m.undocked := by
  by_cases hroom : HasRoom m p
  · obtain ⟨m', hrun, hc', hgrows, hhandles, hundocked, -⟩ := hc.undocking hp hroom
    exact .inr ⟨m', hrun, hc', hgrows, hhandles, hundocked⟩
  · refine .inl ⟨?_, hroom⟩
    rw [Memory.undocking, construct_full hroom]
    rfl

theorem probe_ends (hc : Counted m) (hx : x ∈ m.undocked) :
    Ends (¬ HasRoom m (some x)) (m.probe (some x)) fun m' =>
      m' = ⟨m.handles ++ [none], m.counts, m.undocked⟩ ∧ Counted m' ∧ Grows m m' := by
  by_cases hroom : HasRoom m (some x)
  · obtain ⟨hrun, hc', hgrows⟩ := hc.probe hx hroom
    exact .inr ⟨_, hrun, rfl, hc', hgrows⟩
  · refine .inl ⟨?_, hroom⟩
    rw [Memory.probe, construct_full hroom]
    rfl

theorem dockTemp_ends (hc : Counted m) (hu : m.Unflagged) (hx : x ∈ m.undocked) :
    Ends (¬ HasRoom m (some x)) (m.dockTemp (some x)) fun m' =>
      Counted m' ∧ m.Shrinks m' ∧ m'.undocked = m.undocked.erase x := by
  by_cases hroom : HasRoom m (some x)
  · exact .inr (hc.dockTemp hu hx hroom)
  · refine .inl ⟨?_, hroom⟩
    have hfull : Memory.construct ⟨m.handles ++ [some ⟨none, false, none⟩], m.counts, m.undocked⟩
        (some x) = none := construct_full hroom
    rw [Memory.dockTemp, Memory.docking]
    show Option.bind (Option.bind (Memory.construct ⟨m.handles ++ [some ⟨none, false, none⟩], m.counts,
      m.undocked⟩ (some x)) _) _ = none
    rw [hfull]
    rfl

/-- The references of all slots are given back, those that are equal one after another. -/
theorem dropSlots_ends {l rest : List (Option ObjId)} (hc : Counted m) (hu : m.Unflagged)
    (hl : (m.undocked.map some).Perm (l ++ rest)) :
    Ends (AtLimit m) (m.dropSlots l) fun m' => Counted m' ∧ m.Shrinks m' ∧
      (m'.undocked.map some).Perm rest := by
  induction l generalizing m with
  | nil => exact .intro ⟨hc, .refl m, hl⟩
  | cons p l ih =>
    obtain ⟨x, hx, rfl⟩ : ∃ x ∈ m.undocked, some x = p :=
      List.mem_map.mp (hl.mem_iff.mpr List.mem_cons_self)
    refine ((dockTemp_ends hc hu hx).imp AtLimit.of_not_hasRoom).bind fun m₁ ⟨hc₁, hs₁, hund⟩ => ?_
    have hl₁ : (m₁.undocked.map some).Perm (l ++ rest) := by
      have hcons : (m.undocked.map some).Perm (some x :: m₁.undocked.map some) := by
        rw [hund]
        exact (List.perm_cons_erase hx).map some
      exact (hcons.symm.trans hl).cons_inv
    have hlimit : AtLimit m₁ → AtLimit m := fun ⟨y, c, hy, hge⟩ => by
      obtain ⟨c₀, hy₀, hle⟩ := hs₁.before hc hc₁ hy
      exact ⟨y, c₀, hy₀, by omega⟩
    rcases (ih hc₁ (hs₁.unflagged hu) hl₁).imp hlimit with hnone | ⟨m', hrun, hc', hs', hrest⟩
    · exact .inl hnone
    · exact .inr ⟨m', hrun, hc', hs₁.trans hs' hc', hrest⟩

/-! ## The operations -/

/-- The memory, and the arrays whose slots point into it. -/
structure World where
  mem : Memory
  arrays : List (Option ArrayBase)
  deriving DecidableEq, Repr

/-- How an element is named: by its position, by an element that is equal to it, or by one
that is equal to it in the order of `ArraySorted`. What the comparisons with the slots give
is part of the name. -/
inductive Key where
  | position (i : Int)
  | data (j : Loc) (eq : Option ObjId → Bool)
  | sorted (j : Loc) (cmp : Option ObjId → Ordering)

/-- `index` of both classes. -/
def ArrayBase.index (m : Memory) (a : ArrayBase) : Key → Option Int
  | .position i => some i
  | .data j eq => do
    let data ← m.handle j
    some (if data.ptr = none then -1 else ((a.slots.findIdx? eq).map Int.ofNat).getD (-1))
  | .sorted j cmp => do
    let data ← m.handle j
    some (if data.ptr = none then -1
      else ((ArraySorted.index (fun _ => cmp) data.ptr a.slots).map Int.ofNat).getD (-1))

namespace World

def empty : World := ⟨.empty, []⟩

/-- The slots in use, of all arrays. -/
def slots (w : World) : List (Option ObjId) :=
  w.arrays.flatMap fun a => (a.map ArrayBase.slots).getD []

def insert (w : World) (k : Nat) (j : Loc) (heap : Heap) : Option World := do
  let a ← get w.arrays k
  let data ← w.mem.handle j
  match data.ptr with
  | none => some w
  | some x =>
    match a.grow heap with
    | (some _, a, _) => some { w with arrays := w.arrays.set k (some a) }
    | (none, a, _) => do
      let m ← w.mem.undocking (some x)
      let a ← a.store a.size (some x)
      some ⟨m, w.arrays.set k (some { a with size := a.size + 1 })⟩

/-- The slots of `ArraySorted::insert` behind `insertId`. -/
def place (m : Memory) (a : ArrayBase) (iid : Nat) (x : ObjId) (heap : Heap) :
    Option (Memory × ArrayBase) := do
  let (m, a) ← match a.get iid with
    | none => some (m, a)
    | some y => do
      let m ← m.probe (some y)
      let (a, _) ← a.openGap iid heap
      some (m, a)
  let m ← m.undocking (some x)
  let a ← a.store iid (some x)
  some (m, { a with size := a.size + 1 })

def insertSorted (w : World) (k : Nat) (j : Loc) (cmp : Option ObjId → Ordering) (heap : Heap) :
    Option World := do
  let a ← get w.arrays k
  let data ← w.mem.handle j
  match data.ptr with
  | none => some w
  | some x =>
    match a.grow heap with
    | (some _, a, _) => some { w with arrays := w.arrays.set k (some a) }
    | (none, a, heap) => do
      let iid := ArraySorted.insertId (fun _ => cmp) (some x) a.slots
      let (m, a) ← place w.mem a iid x heap
      some ⟨m, w.arrays.set k (some a)⟩

/-- `get` of both classes. -/
def get (w : World) (k : Nat) (key : Key) : Option World := do
  let a ← Store.get w.arrays k
  let position ← a.index w.mem key
  let m ← w.mem.construct (a.get position)
  some { w with mem := m }

/-- `remove` of both classes. A handle to nothing is returned as it is. -/
def remove (close : ArrayBase → Nat → Option ArrayBase) (w : World) (k : Nat) (key : Key) :
    Option World := do
  let a ← Store.get w.arrays k
  let position ← a.index w.mem key
  let m ← w.mem.construct (a.get position)
  match a.get position with
  | none => some { w with mem := m }
  | some x => do
    let m ← m.dockTemp (some x)
    let a ← close a position.toNat
    some ⟨m, w.arrays.set k (some { a with size := a.size - 1 })⟩

/-- `ArrayBase::clear`. The `NULL` of every slot is that of `memset`. -/
def clear (w : World) (k : Nat) : Option World := do
  let a ← Store.get w.arrays k
  let m ← w.mem.dropSlots a.slots
  let data ← Cells.writePtr a.data 0 (List.replicate a.capacity none)
  some ⟨m, w.arrays.set k (some { a with data, size := 0 })⟩

def destroy (w : World) (k : Nat) : Option World := do
  let a ← Store.get w.arrays k
  let m ← w.mem.dropSlots a.slots
  some ⟨m, w.arrays.set k none⟩

end World

inductive ArrayOp where
  | new
  | insert (k : Nat) (j : Loc) (heap : Heap)
  | insertSorted (k : Nat) (j : Loc) (cmp : Option ObjId → Ordering) (heap : Heap)
  | get (k : Nat) (key : Key)
  | remove (k : Nat) (key : Key)
  | removeSorted (k : Nat) (key : Key) (behind : Option ObjId) (heap : Heap)
  | clear (k : Nat)
  | destroy (k : Nat)
  | handle (op : SpOp)

def World.exec (w : World) : ArrayOp → Option World
  | .new => some { w with arrays := w.arrays ++ [some .empty] }
  | .insert k j heap => w.insert k j heap
  | .insertSorted k j cmp heap => w.insertSorted k j cmp heap
  | .get k key => w.get k key
  | .remove k key => w.remove ArrayBase.swapLast k key
  | .removeSorted k key behind heap =>
    w.remove (fun a position => (a.closeGap position behind heap).map Prod.fst) k key
  | .clear k => w.clear k
  | .destroy k => w.destroy k
  | .handle op => do
    let m ← w.mem.exec op
    some { w with mem := m }

/-- Operations of the program on its own handles: what is undocked is left to the arrays. -/
def SpOp.Plain : SpOp → Prop
  | .create _ | .construct _ | .copy _ | .assign _ _ | .assignPtr _ _ | .destroy _ => True
  | _ => False

def Key.Valid (m : Memory) : Key → Prop
  | .position _ => True
  | .data j _ | .sorted j _ => ∃ h, m.handle j = some h

/-- The arrays and handles an operation names exist. -/
def ArrayOp.Valid (w : World) : ArrayOp → Prop
  | .new => True
  | .insert k j _ | .insertSorted k j _ _ =>
    (∃ a, Store.get w.arrays k = some a) ∧ ∃ h, w.mem.handle j = some h
  | .get k key | .remove k key | .removeSorted k key _ _ =>
    (∃ a, Store.get w.arrays k = some a) ∧ key.Valid w.mem
  | .clear k | .destroy k => ∃ a, Store.get w.arrays k = some a
  | .handle op => op.Plain ∧ op.Valid w.mem ∧ op.Meets w.mem

/-- What an operation does to the slots, and the handle it returns. -/
def Effect (w w' : World) : ArrayOp → Prop
  | .insert _ j _ | .insertSorted _ j _ _ =>
    w'.mem = w.mem ∧ w'.slots.Perm w.slots ∨
      ∃ x, w.mem.pointee j = some x ∧ w'.slots.Perm (some x :: w.slots)
  | .get k key =>
    ∃ a i, Store.get w.arrays k = some a ∧ a.index w.mem key = some i ∧ w'.arrays = w.arrays ∧
      w'.mem.handle w.mem.handles.length = some ⟨a.get i, false, none⟩
  | .remove k key | .removeSorted k key _ _ =>
    ∃ a i, Store.get w.arrays k = some a ∧ a.index w.mem key = some i ∧
      w.slots.Perm ((a.get i).toList.map some ++ w'.slots) ∧
      w'.mem.handle w.mem.handles.length = some ⟨a.get i, false, none⟩
  | .clear k | .destroy k =>
    ∃ a, Store.get w.arrays k = some a ∧ w.slots.Perm (a.slots ++ w'.slots)
  | .new | .handle _ => w'.slots = w.slots

/-- The slots in use are the undocked references. -/
structure WorldOk (w : World) : Prop where
  counted : Counted w.mem
  unflagged : w.mem.Unflagged
  arrays : ∀ k a, Store.get w.arrays k = some a → ArrayOk a
  slots : (w.mem.undocked.map some).Perm w.slots

/-- What an operation leaves behind. -/
def Good (w : World) (op : ArrayOp) (w' : World) : Prop :=
  WorldOk w' ∧ Deletes w.mem w'.mem ∧ Effect w w' op

/-! ## One operation -/

variable {w w' : World} {a a' : ArrayBase} {k : Nat} {heap : Heap}

theorem unflagged_append (hu : m.Unflagged) (hm : m'.handles = m.handles ++ [some ⟨p, false, none⟩]) :
    m'.Unflagged := by
  intro j h hj
  rw [Memory.handle, hm, get_append] at hj
  split at hj
  · obtain rfl := Option.some.inj hj
    rfl
  · exact hu j h hj

theorem unflagged_append_none (hu : m.Unflagged) (hm : m'.handles = m.handles ++ [none]) :
    m'.Unflagged := by
  intro j h hj
  rw [Memory.handle, hm, get_append] at hj
  split at hj
  · cases hj
  · exact hu j h hj

namespace WorldOk

/-- The slots of all arrays are those of one and those of the others. -/
theorem slots_set (hk : get w.arrays k = some a) :
    ∃ rest, w.slots.Perm (a.slots ++ rest) ∧ ∀ m v,
      (World.slots ⟨m, w.arrays.set k v⟩).Perm ((v.map ArrayBase.slots).getD [] ++ rest) := by
  obtain ⟨rest, hslots, hset⟩ := flatMap_set (fun a => (a.map ArrayBase.slots).getD []) hk
  exact ⟨rest, hslots, fun _ => hset⟩

theorem arrays_set (hw : WorldOk w) (hk : get w.arrays k = some a) {v : Option ArrayBase}
    (hv : ∀ a', v = some a' → ArrayOk a') :
    ∀ k' a', get (w.arrays.set k v) k' = some a' → ArrayOk a' := by
  intro k' a' hk'
  rw [get_set (lt_of_get hk)] at hk'
  split at hk'
  · exact hv a' hk'
  · exact hw.arrays k' a' hk'

/-- An array whose slots in use are the same. -/
theorem resized (hw : WorldOk w) (hk : get w.arrays k = some a) (hok : ArrayOk a')
    (hslots : a'.slots = a.slots) :
    WorldOk { w with arrays := w.arrays.set k (some a') } ∧
      (World.slots { w with arrays := w.arrays.set k (some a') }).Perm w.slots := by
  obtain ⟨rest, hall, hset⟩ := slots_set hk
  have hperm : (World.slots { w with arrays := w.arrays.set k (some a') }).Perm w.slots := by
    refine (hset w.mem (some a')).trans (.trans ?_ hall.symm)
    rw [Option.map_some, Option.getD_some, hslots]
  exact ⟨⟨hw.counted, hw.unflagged, hw.arrays_set hk fun b hb => Option.some.inj hb ▸ hok,
    hw.slots.trans hperm.symm⟩, hperm⟩

/-- A pointer is undocked and comes into one of the slots. -/
theorem inserted (hw : WorldOk w) (hk : get w.arrays k = some a) (hc : Counted m) (hu : m.Unflagged)
    (hgrows : Grows w.mem m) (hundocked : m.undocked = w.mem.undocked)
    (hsize : m.counts.length = w.mem.counts.length) (hx : ∃ c, m.refCount x = some c) :
    Ends (¬ HasRoom m (some x)) (m.undocking (some x)) fun m' => Deletes w.mem m' ∧
      ∀ a', ArrayOk a' → a'.slots.Perm (some x :: a.slots) →
        WorldOk ⟨m', w.arrays.set k (some a')⟩ ∧
          (World.slots ⟨m', w.arrays.set k (some a')⟩).Perm (some x :: w.slots) := by
  rcases undocking_ends hc fun y hy => Option.some.inj hy ▸ hx with
    hnone | ⟨m', hrun, hc', hgrows', hhandles, hundocked'⟩
  · exact .inl hnone
  refine .inr ⟨m', hrun, .of_grows hc' (hgrows.trans hgrows' hsize), fun a' hok hslots => ?_⟩
  obtain ⟨rest, hall, hset⟩ := slots_set hk
  have hperm : (World.slots ⟨m', w.arrays.set k (some a')⟩).Perm (some x :: w.slots) :=
    (hset m' (some a')).trans ((hslots.append_right rest).trans (hall.symm.cons (some x)))
  refine ⟨⟨hc', unflagged_append_none hu hhandles,
    hw.arrays_set hk fun b hb => Option.some.inj hb ▸ hok, ?_⟩, hperm⟩
  rw [hundocked', hundocked]
  exact (hw.slots.cons (some x)).trans hperm.symm

theorem insert (hw : WorldOk w) (hk : get w.arrays k = some a) (hj : w.mem.handle j = some h)
    (heap : Heap) : Ends (AtLimit w.mem) (w.insert k j heap) (Good w (.insert k j heap)) := by
  rw [World.insert]
  simp only [hk, hj, Option.bind_eq_bind, Option.bind_some]
  rcases hx : h.ptr with _ | x
  · exact .intro ⟨hw, .refl _, .inl ⟨rfl, .refl _⟩⟩
  obtain ⟨r, a₁, heap₁, hgrow, hok₁, hslots₁, hsize₁, hfree⟩ :=
    ArrayBase.grow_ok (hw.arrays k a hk) heap
  simp only [hgrow]
  rcases r with _ | r
  · refine ((hw.inserted hk hw.counted hw.unflagged (.refl _) rfl rfl
      (hw.counted.target j h x hj hx)).imp AtLimit.of_not_hasRoom).bind fun m' ⟨hdel, hput⟩ => ?_
    obtain ⟨a₂, hstore, hok₂, hslots₂⟩ := ArrayBase.push_slots hok₁ (hsize₁ ▸ hfree rfl) (some x)
    obtain ⟨hw', hperm⟩ := hput _ hok₂ (by
      rw [hslots₂, hslots₁]
      exact List.perm_append_singleton _ _)
    rw [hstore]
    exact .intro ⟨hw', hdel, .inr ⟨x, by rw [Memory.pointee, hj]; exact hx, hperm⟩⟩
  · obtain ⟨hw', hperm⟩ := hw.resized hk hok₁ hslots₁
    exact .intro ⟨hw', .refl _, .inl ⟨rfl, hperm⟩⟩

/-- Every slot in use points to an object that is there. -/
theorem slot_live (hw : WorldOk w) (hk : get w.arrays k = some a) {q : Option ObjId}
    (hq : q ∈ a.slots) : ∃ x ∈ w.mem.undocked, q = some x := by
  obtain ⟨rest, hall, -⟩ := slots_set hk
  have hmem : q ∈ w.mem.undocked.map some :=
    hw.slots.mem_iff.mpr (hall.mem_iff.mpr (List.mem_append_left _ hq))
  obtain ⟨x, hx, rfl⟩ := List.mem_map.mp hmem
  exact ⟨x, hx, rfl⟩

theorem get_nat (hok : ArrayOk a) {i : Nat} (hi : i < a.size) :
    a.get i = a.slot i ∧ a.slot i ∈ a.slots := by
  refine ⟨?_, List.mem_of_getElem? (ArrayBase.slot_eq hok hi)⟩
  rw [ArrayBase.get, if_pos ⟨by exact_mod_cast hi, Int.natCast_nonneg i⟩, Int.toNat_natCast]

/-- What a handle more does to the numbers of references. -/
theorem number_handed (hhandles : m'.handles = m.handles ++ [some ⟨p, false, none⟩])
    (hundocked : m'.undocked = m.undocked) (y : ObjId) :
    m'.number y = m.number y + if p = some y then 1 else 0 := by
  rw [Memory.number, Memory.number, Memory.holders, Memory.holders, hhandles, hundocked,
    places_append]
  by_cases hp : p = some y
  · have hnot : m.handles.length ∉ places m.handles fun h => decide (h.ptr = some y) := by
      rw [mem_places, get_of_le le_rfl]
      rintro ⟨h, hnone, -⟩
      cases hnone
    rw [if_pos (decide_eq_true hp), if_pos hp, Finset.card_insert_of_notMem hnot]
    omega
  · rw [if_neg (by simpa using hp), if_neg hp]
    rfl

/-- `get` finds nothing, or the pointer of a slot in use. -/
theorem get_cases (hok : ArrayOk a) (position : Int) :
    a.get position = none ∨ ∃ i : Nat, position = i ∧ i < a.size ∧ a.get position = a.slot i ∧
      a.slot i ∈ a.slots := by
  by_cases hin : position < a.size ∧ 0 ≤ position
  · obtain ⟨i, rfl⟩ := Int.eq_ofNat_of_zero_le hin.2
    have hi : i < a.size := by exact_mod_cast hin.1
    exact .inr ⟨i, rfl, hi, get_nat hok hi⟩
  · exact .inl (if_neg hin)

theorem slots_length (hok : ArrayOk a) : a.slots.length = a.size := by
  rw [ArrayBase.slots, List.length_take, hok.block, min_eq_left hok.size_le]

/-- A pointer comes into slot `iid`, and the ones from there on go one further. -/
theorem place (hw : WorldOk w) (hk : get w.arrays k = some a) (hok : ArrayOk a')
    (hfree : a'.size < a'.capacity) (hslots : a'.slots = a.slots) {iid : Nat} (hle : iid ≤ a'.size)
    (hx : ∃ c, w.mem.refCount x = some c) (heap : Heap) :
    Ends (AtLimit w.mem) (World.place w.mem a' iid x heap) fun (m', a₂) => Deletes w.mem m' ∧
      WorldOk ⟨m', w.arrays.set k (some a₂)⟩ ∧
      (World.slots ⟨m', w.arrays.set k (some a₂)⟩).Perm (some x :: w.slots) := by
  have hperm : ∀ {a₂ : ArrayBase}, a₂.slots = a'.slots.insertIdx iid (some x) →
      a₂.slots.Perm (some x :: a.slots) := by
    intro a₂ heq
    rw [heq, ← hslots]
    exact List.perm_insertIdx _ _ (by rwa [slots_length hok])
  rw [World.place]
  rcases Nat.eq_or_lt_of_le hle with rfl | hlt
  · have hnone : a'.get a'.size = none := if_neg fun h => absurd h.1 (lt_irrefl _)
    simp only [hnone, Option.bind_eq_bind, Option.bind_some]
    refine ((hw.inserted hk hw.counted hw.unflagged (.refl _) rfl rfl hx).imp
      AtLimit.of_not_hasRoom).bind fun m' ⟨hdel, hput⟩ => ?_
    obtain ⟨a₂, hstore, hok₂, hslots₂⟩ := ArrayBase.push_slots hok hfree (some x)
    rw [hstore]
    exact .intro ⟨hdel, hput _ hok₂ (hperm (by
      rw [hslots₂, ← slots_length hok, List.insertIdx_length_self]))⟩
  · obtain ⟨hget, hmem⟩ := get_nat hok hlt
    obtain ⟨y, hy, hslot⟩ := hw.slot_live hk (hslots ▸ hmem)
    obtain ⟨a₁, a₂, heap', hgap, -, hstore, hok₂, hslots₂⟩ :=
      ArrayBase.insertAt_slots hok hfree hle (some x) heap
    simp only [hget, hslot, Option.bind_eq_bind, hgap, Option.bind_some]
    refine ((probe_ends hw.counted hy).imp AtLimit.of_not_hasRoom).bind
      fun m₁ ⟨hm₁, hc₁, hgrows⟩ => ?_
    subst hm₁
    refine ((hw.inserted hk hc₁ (unflagged_append_none hw.unflagged rfl) hgrows rfl rfl hx).imp
      AtLimit.of_not_hasRoom).bind fun m' ⟨hdel, hput⟩ => ?_
    rw [hstore]
    exact .intro ⟨hdel, hput _ hok₂ (hperm hslots₂)⟩

theorem insertSorted (hw : WorldOk w) (hk : get w.arrays k = some a) (hj : w.mem.handle j = some h)
    (cmp : Option ObjId → Ordering) (heap : Heap) :
    Ends (AtLimit w.mem) (w.insertSorted k j cmp heap) (Good w (.insertSorted k j cmp heap)) := by
  rw [World.insertSorted]
  simp only [hk, hj, Option.bind_eq_bind, Option.bind_some]
  rcases hx : h.ptr with _ | x
  · exact .intro ⟨hw, .refl _, .inl ⟨rfl, .refl _⟩⟩
  obtain ⟨r, a₁, heap₁, hgrow, hok₁, hslots₁, hsize₁, hfree⟩ :=
    ArrayBase.grow_ok (hw.arrays k a hk) heap
  simp only [hgrow]
  rcases r with _ | r
  · have hle := (ArraySorted.insertId_le (fun _ => cmp) (some x) a₁.slots).trans_eq (slots_length hok₁)
    refine (hw.place hk hok₁ (hsize₁ ▸ hfree rfl) hslots₁ hle (hw.counted.target j h x hj hx)
      heap₁).bind fun (m', a₂) ⟨hdel, hw', hperm⟩ => ?_
    exact .intro ⟨hw', hdel, .inr ⟨x, by rw [Memory.pointee, hj]; exact hx, hperm⟩⟩
  · obtain ⟨hw', hperm⟩ := hw.resized hk hok₁ hslots₁
    exact .intro ⟨hw', .refl _, .inl ⟨rfl, hperm⟩⟩

theorem index_valid {key : Key} (hkey : key.Valid m) (a : ArrayBase) : ∃ i, a.index m key = some i := by
  cases key with
  | position i => exact ⟨i, rfl⟩
  | data j eq | sorted j cmp =>
    obtain ⟨h, hj⟩ := hkey
    rw [ArrayBase.index, hj]
    exact ⟨_, rfl⟩

/-- A handle to the pointer of a slot in use, or to nothing. -/
theorem handed (hw : WorldOk w) (hk : get w.arrays k = some a) (i : Int) :
    Ends (¬ HasRoom w.mem (a.get i)) (w.mem.construct (a.get i)) fun m' => Counted m' ∧
      OneMore (a.get i) w.mem m' ∧ m'.Unflagged ∧
      m'.handles = w.mem.handles ++ [some ⟨a.get i, false, none⟩] ∧
      m'.handle w.mem.handles.length = some ⟨a.get i, false, none⟩ := by
  have hlive : ∀ x, a.get i = some x → ∃ c, w.mem.refCount x = some c := by
    intro x hx
    rcases get_cases (hw.arrays k a hk) i with hnone | ⟨n, -, -, hget, hmem⟩
    · rw [hnone] at hx
      cases hx
    · obtain ⟨y, hy, hslot⟩ := hw.slot_live hk hmem
      obtain rfl := Option.some.inj (hslot.symm.trans (hget.symm.trans hx))
      exact hw.counted.undocked_live y hy
  rcases construct_ends hw.counted hlive with hnone | ⟨m', hrun, hc', hmore, hhandles⟩
  · exact .inl hnone
  · refine .inr ⟨m', hrun, hc', hmore, unflagged_append hw.unflagged hhandles, hhandles, ?_⟩
    rw [Memory.handle, hhandles, get_append_length]

theorem get_key (hw : WorldOk w) (hk : get w.arrays k = some a) {key : Key}
    (hkey : key.Valid w.mem) : Ends (AtLimit w.mem) (w.get k key) (Good w (.get k key)) := by
  obtain ⟨i, hi⟩ := index_valid hkey a
  rw [World.get, hk]
  simp only [Option.bind_eq_bind, Option.bind_some, hi]
  refine ((hw.handed hk i).imp AtLimit.of_not_hasRoom).bind fun m' ⟨hc', hmore, hu', _, hnew⟩ => ?_
  exact .intro ⟨⟨hc', hu', hw.arrays, hmore.undocked ▸ hw.slots⟩, .of_grows hc' hmore.toGrows,
    a, i, hk, hi, rfl, hnew⟩

/-- Both ways to close a gap leave the other pointers in use. -/
theorem remove (hw : WorldOk w) (hk : get w.arrays k = some a) {key : Key} (hkey : key.Valid w.mem)
    (close : ArrayBase → Nat → Option ArrayBase)
    (hclose : ∀ i, i < a.size → ∃ a', close a i = some a' ∧ ArrayOk { a' with size := a'.size - 1 } ∧
      a.slots.Perm (a.slot i :: ArrayBase.slots { a' with size := a'.size - 1 })) :
    Ends (AtLimit w.mem) (w.remove close k key) (Good w (.remove k key)) := by
  obtain ⟨i, hi⟩ := index_valid hkey a
  rw [World.remove, hk]
  simp only [Option.bind_eq_bind, Option.bind_some, hi]
  refine ((hw.handed hk i).imp AtLimit.of_not_hasRoom).bind
    fun m₁ ⟨hc₁, hmore, hu₁, hhandles, hnew⟩ => ?_
  rcases get_cases (hw.arrays k a hk) i with hnone | ⟨n, rfl, hn, hget, hmem⟩
  · simp only [hnone]
    refine .intro ⟨⟨hc₁, hu₁, hw.arrays, hmore.undocked ▸ hw.slots⟩, .of_grows hc₁ hmore.toGrows,
      a, i, hk, hi, ?_, hnew⟩
    rw [hnone]
    exact .refl _
  · obtain ⟨x, hx, hslot⟩ := hw.slot_live hk hmem
    have hgetx : a.get n = some x := hget.trans hslot
    obtain ⟨a', hrun_close, hok', hperm⟩ := hclose n hn
    simp only [hgetx, Int.toNat_natCast, hrun_close, Option.bind_some]
    -- the handle that is returned has taken one more reference
    have hlimit : ¬ HasRoom m₁ (some x) → AtLimit w.mem := by
      intro hfull
      obtain ⟨y, c, hy, hcount, hge⟩ := exists_of_not_hasRoom hfull
      obtain rfl := Option.some.inj hy
      obtain ⟨c₀, hx₀⟩ := hw.counted.undocked_live x hx
      have hnumber := number_handed hhandles hmore.undocked x
      rw [if_pos hgetx] at hnumber
      have h₁ := hc₁.count x c hcount
      have h₀ := hw.counted.count x c₀ hx₀
      exact ⟨x, c₀, hx₀, by omega⟩
    refine ((dockTemp_ends hc₁ hu₁ (hmore.undocked ▸ hx)).imp hlimit).bind
      fun m' ⟨hc', hs, hundocked⟩ => ?_
    obtain ⟨rest, hall, hset⟩ := slots_set hk
    have hslots' := hset m' (some { a' with size := a'.size - 1 })
    rw [Option.map_some, Option.getD_some] at hslots'
    have hsplit : w.slots.Perm (some x :: World.slots ⟨m', w.arrays.set k
        (some { a' with size := a'.size - 1 })⟩) := by
      refine hall.trans (.trans ?_ (hslots'.symm.cons (some x)))
      rw [← hslot]
      exact hperm.append_right rest
    refine .intro ⟨⟨hc', hs.unflagged hu₁,
      hw.arrays_set hk fun b hb => Option.some.inj hb ▸ hok', ?_⟩, ?_, a, n, hk, hi, ?_, ?_⟩
    · rw [hundocked, hmore.undocked]
      exact (((List.perm_cons_erase hx).map some).symm.trans (hw.slots.trans hsplit)).cons_inv
    · refine (Deletes.of_grows hc₁ hmore.toGrows).trans hs.deletes hc' hmore.size fun y hy => ?_
      rcases eq_or_ne y x with rfl | hyx
      · exact Nat.add_pos_right _ (List.count_pos_iff.mpr hx)
      · rwa [number_handed hhandles hmore.undocked, hgetx,
          if_neg fun heq => hyx (Option.some.inj heq).symm] at hy
    · rw [hgetx]
      exact hsplit
    · exact hs.roots _ _ hnew rfl

/-- The slots of one array are given back, and those of the others stay. -/
theorem emptied (hw : WorldOk w) (hk : get w.arrays k = some a) :
    Ends (AtLimit w.mem) (w.mem.dropSlots a.slots) fun m' => Deletes w.mem m' ∧
      ∀ v, (∀ a', v = some a' → ArrayOk a' ∧ a'.slots = []) →
        WorldOk ⟨m', w.arrays.set k v⟩ ∧
          w.slots.Perm (a.slots ++ World.slots ⟨m', w.arrays.set k v⟩) := by
  obtain ⟨rest, hall, hset⟩ := slots_set hk
  rcases dropSlots_ends hw.counted hw.unflagged (hw.slots.trans hall) with
    hnone | ⟨m', hrun, hc', hs, hrest⟩
  · exact .inl hnone
  refine .inr ⟨m', hrun, hs.deletes, fun v hv => ?_⟩
  have hslots' : (World.slots ⟨m', w.arrays.set k v⟩).Perm rest := by
    refine (hset m' v).trans ?_
    rcases v with _ | a'
    · exact .refl _
    · rw [Option.map_some, Option.getD_some, (hv a' rfl).2]
      exact .refl _
  exact ⟨⟨hc', hs.unflagged hw.unflagged, hw.arrays_set hk fun a' ha' => (hv a' ha').1,
    hrest.trans hslots'.symm⟩, hall.trans (hslots'.symm.append_left _)⟩

theorem clear (hw : WorldOk w) (hk : get w.arrays k = some a) :
    Ends (AtLimit w.mem) (w.clear k) (Good w (.clear k)) := by
  have hok := hw.arrays k a hk
  have hlen : (List.replicate a.capacity (none : Option ObjId)).length = a.capacity :=
    List.length_replicate
  -- `memset` on the whole block, which there is when it has a size
  obtain ⟨data, hwrite, hdata⟩ : ∃ data,
      Cells.writePtr a.data 0 (List.replicate a.capacity none) = some data ∧
        (data.getD []).length = a.capacity := by
    have hblock := hok.block
    rcases hd : a.data with _ | d
    · rw [hd, Option.getD_none, List.length_nil] at hblock
      exact ⟨none, by rw [← hblock]; rfl, hblock⟩
    · rw [hd, Option.getD_some] at hblock
      obtain ⟨d', hd', hptr⟩ := Cells.writePtr_of_le (b := d) (i := 0)
        (List.replicate a.capacity none) (by omega)
      exact ⟨some d', hptr, (Cells.write_length hd').trans hblock⟩
  rw [World.clear, hk]
  simp only [Option.bind_eq_bind, Option.bind_some, hwrite]
  refine (hw.emptied hk).bind fun m' ⟨hdel, hrest⟩ => ?_
  obtain ⟨hw', hperm⟩ := hrest (some { a with data, size := 0 }) fun a' ha' =>
    Option.some.inj ha' ▸ ⟨⟨Nat.zero_le _, hdata⟩, List.take_zero⟩
  exact .intro ⟨hw', hdel, a, hk, hperm⟩

theorem destroy (hw : WorldOk w) (hk : get w.arrays k = some a) :
    Ends (AtLimit w.mem) (w.destroy k) (Good w (.destroy k)) := by
  rw [World.destroy, hk]
  simp only [Option.bind_eq_bind, Option.bind_some]
  refine (hw.emptied hk).bind fun m' ⟨hdel, hrest⟩ => ?_
  obtain ⟨hw', hperm⟩ := hrest none fun _ ha' => by cases ha'
  exact .intro ⟨hw', hdel, a, hk, hperm⟩

theorem new (hw : WorldOk w) :
    WorldOk { w with arrays := w.arrays ++ [some .empty] } ∧
      World.slots { w with arrays := w.arrays ++ [some .empty] } = w.slots := by
  have hslots : World.slots { w with arrays := w.arrays ++ [some .empty] } = w.slots := by
    rw [World.slots, List.flatMap_append]
    exact List.append_nil _
  refine ⟨⟨hw.counted, hw.unflagged, fun k a hk => ?_, hslots ▸ hw.slots⟩, hslots⟩
  rw [get_append] at hk
  split at hk
  · obtain rfl := Option.some.inj hk
    exact ⟨le_rfl, rfl⟩
  · exact hw.arrays k a hk

/-- The program's own operations on handles leave the undocked references alone. -/
theorem exec_plain {op : SpOp} (hc : Counted m) (hu : m.Unflagged) (hplain : op.Plain)
    (hvalid : op.Valid m) (hmeets : op.Meets m) :
    ∃ m', m.exec op = some m' ∧ Counted m' ∧ Deletes m m' ∧ m'.Unflagged ∧
      m'.undocked = m.undocked := by
  obtain ⟨m', hrun, hok⟩ := exec_counted hc hvalid hmeets
  refine ⟨m', hrun, hok.counted, hok.deletes, ?_⟩
  -- what `dec` of an unflagged handle leaves
  have hreleased : ∀ {i s m₁}, m.handle i = some s → Released m i m₁ →
      m₁.Unflagged ∧ m₁.undocked = m.undocked := by
    intro i s m₁ hi hr
    refine ⟨fun j h hj => ?_, hr.same_undocked hu⟩
    by_cases hji : j = i
    · subst hji
      obtain rfl := Option.some.inj ((hr.nulled s hi).symm.trans hj)
      exact hu _ s hi
    · exact hu j h (hr.origin j h hj hji)
  have hassigned : ∀ {i : Loc} {s : Sp} {p} {m₁ m₂ : Memory}, m.handle i = some s → Released m i m₁ →
      m₂.undocked = m₁.undocked → m₂.handles = m₁.handles.set i (some { s with ptr := p }) →
        m₂.Unflagged ∧ m₂.undocked = m.undocked := by
    intro i s p m₁ m₂ hi hr hundocked hhandles
    obtain ⟨hu₁, hund₁⟩ := hreleased hi hr
    refine ⟨fun j h hj => ?_, hundocked.trans hund₁⟩
    rw [Memory.handle, hhandles, get_set (lt_of_get (hr.nulled s hi))] at hj
    split at hj
    · obtain rfl := Option.some.inj hj
      exact hu i s hi
    · exact hu₁ j h hj
  cases op with
  | create k =>
    obtain rfl := Option.some.inj hrun
    refine ⟨fun j h hj => ?_, rfl⟩
    rw [Memory.handle, Memory.create, Store.get, List.getElem?_append] at hj
    split at hj
    · exact hu j h hj
    · rw [List.getElem?_replicate] at hj
      split at hj
      · obtain rfl := Option.some.inj hj
        rfl
      · cases hj
  | construct p =>
    obtain ⟨m₁, hrun₁, -, hmore, hhandles⟩ := hc.construct hvalid hmeets
    obtain rfl := Option.some.inj (hrun₁.symm.trans hrun)
    exact ⟨unflagged_append hu hhandles, hmore.undocked⟩
  | copy j =>
    obtain ⟨h, hj⟩ := hvalid
    obtain ⟨m₁, hrun₁, -, hmore, hhandles⟩ :=
      hc.construct (fun x hx => hc.target j h x hj hx) (hmeets h hj)
    rw [Memory.exec, Memory.copy, hj] at hrun
    obtain rfl := Option.some.inj (hrun₁.symm.trans hrun)
    exact ⟨unflagged_append hu hhandles, hmore.undocked⟩
  | assign i j =>
    obtain ⟨⟨s, hi⟩, h, hj⟩ := hvalid
    obtain ⟨hself, hout, hsource, hroom⟩ := hmeets
    obtain ⟨m₁, m₂, hr, hrun₁, -, -, hundocked, hhandles⟩ :=
      hc.assign hi hj hself hout hsource (hroom h hj)
    obtain rfl := Option.some.inj (hrun₁.symm.trans hrun)
    exact hassigned hi hr hundocked hhandles
  | assignPtr i p =>
    obtain ⟨⟨s, hi⟩, hp⟩ := hvalid
    obtain ⟨hout, hstays, hroom⟩ := hmeets
    obtain ⟨m₁, m₂, hdec, hr, hrun₁, -, -, hundocked, hhandles⟩ := hc.assignPtr hi hp hout hstays hroom
    rw [Memory.exec, Memory.assignPtr, hdec] at hrun
    obtain rfl := Option.some.inj (hrun₁.symm.trans hrun)
    exact hassigned hi hr hundocked hhandles
  | destroy i =>
    obtain ⟨s, hi, hroot⟩ := hvalid
    obtain ⟨m₁, m₂, hr, hrun₁, -, -, hm₂⟩ := hc.destroy hi hroot
    obtain rfl := Option.some.inj (hrun₁.symm.trans hrun)
    obtain ⟨hu₁, hund₁⟩ := hreleased hi hr
    rw [hm₂]
    refine ⟨fun j h hj => ?_, hund₁⟩
    rw [Memory.handle, get_set (lt_of_get (hr.nulled s hi))] at hj
    split at hj
    · cases hj
    · exact hu₁ j h hj
  | undocking p | docking p | undockingResponsibility i | cancleUndockingResponsibility i =>
    exact hplain.elim

end WorldOk

/-- An operation on arrays or handles that exist ends, unless a count is at its limit. -/
theorem array_exec {op : ArrayOp} (hw : WorldOk w) (hvalid : op.Valid w) :
    Ends (AtLimit w.mem) (w.exec op) (Good w op) := by
  cases op with
  | new =>
    obtain ⟨hw', hslots⟩ := hw.new
    exact .intro ⟨hw', .refl _, hslots⟩
  | insert k j heap =>
    obtain ⟨⟨a, hk⟩, h, hj⟩ := hvalid
    exact hw.insert hk hj heap
  | insertSorted k j cmp heap =>
    obtain ⟨⟨a, hk⟩, h, hj⟩ := hvalid
    exact hw.insertSorted hk hj cmp heap
  | get k key =>
    obtain ⟨⟨a, hk⟩, hkey⟩ := hvalid
    exact hw.get_key hk hkey
  | remove k key =>
    obtain ⟨⟨a, hk⟩, hkey⟩ := hvalid
    exact hw.remove hk hkey _ fun i hi => ArrayBase.swapLast_slots (hw.arrays k a hk) hi
  | removeSorted k key behind heap =>
    obtain ⟨⟨a, hk⟩, hkey⟩ := hvalid
    have hok := hw.arrays k a hk
    refine hw.remove hk hkey (fun a position => (a.closeGap position behind heap).map Prod.fst)
      fun i hi => ?_
    obtain ⟨a', heap', hrun, hok', hslots⟩ := ArrayBase.closeGap_slots hok hi behind heap
    refine ⟨a', by rw [hrun]; rfl, hok', ?_⟩
    have hlt : i < a.slots.length := (WorldOk.slots_length hok).symm ▸ hi
    have hget := ArrayBase.slot_eq hok hi
    rw [List.getElem?_eq_getElem hlt] at hget
    rw [hslots, ← Option.some.inj hget]
    exact (List.getElem_cons_eraseIdx_perm hlt).symm
  | clear k =>
    obtain ⟨a, hk⟩ := hvalid
    exact hw.clear hk
  | destroy k =>
    obtain ⟨a, hk⟩ := hvalid
    exact hw.destroy hk
  | handle op =>
    obtain ⟨hplain, hop, hmeets⟩ := hvalid
    obtain ⟨m', hrun, hc', hdel, hu', hundocked⟩ :=
      WorldOk.exec_plain hw.counted hw.unflagged hplain hop hmeets
    refine .inr ⟨⟨m', w.arrays⟩, ?_, ⟨hc', hu', hw.arrays, hundocked ▸ hw.slots⟩, hdel, rfl⟩
    rw [World.exec, hrun]
    rfl

/-! ## Runs -/

def ArrayStep (w w' : World) : Prop :=
  ∃ op : ArrayOp, op.Valid w ∧ w.exec op = some w'

theorem WorldOk.empty : WorldOk World.empty :=
  ⟨.empty, (fun _ _ hj => by cases hj), (fun _ _ hk => by cases hk), .refl _⟩

/-- In every run the count of an object is the number of handles to it plus the number of
slots in use that hold it, so that what a handle or a slot points to is there, and without
arrays only handles count. The next operation ends, unless a count is at its limit: it
deletes exactly what has lost its last reference, and what it hands out and takes from the
slots is what `Effect` says. -/
theorem array_run_counted (hrun : ReflTransGen ArrayStep World.empty w) :
    (∀ x c, w.mem.refCount x = some c →
      c = (w.mem.holders x).card + w.slots.count (some x)) ∧
    (∀ i h x, w.mem.handle i = some h → h.ptr = some x → ∃ c, w.mem.refCount x = some c) ∧
    (∀ p ∈ w.slots, ∃ x c, p = some x ∧ w.mem.refCount x = some c) ∧
    ((∀ k, Store.get w.arrays k = none) → ∀ x c, w.mem.refCount x = some c →
      c = (w.mem.holders x).card) ∧
    ∀ op : ArrayOp, op.Valid w →
      Ends (AtLimit w.mem) (w.exec op) fun w' => Deletes w.mem w'.mem ∧ Effect w w' op := by
  have hw : WorldOk w := by
    induction hrun with
    | refl => exact WorldOk.empty
    | tail _ hstep ih =>
      obtain ⟨op, hvalid, hexec⟩ := hstep
      rcases array_exec ih hvalid with ⟨hnone, -⟩ | ⟨w', hw', hgood, -⟩
      · rw [hnone] at hexec
        cases hexec
      · exact Option.some.inj (hw'.symm.trans hexec) ▸ hgood
  have hcount : ∀ x c, w.mem.refCount x = some c →
      c = (w.mem.holders x).card + w.slots.count (some x) := by
    intro x c hx
    rw [hw.counted.count x c hx, Memory.number, ← hw.slots.count_eq,
      List.count_map_of_injective _ _ (Option.some_injective _)]
    push_cast
    rfl
  refine ⟨hcount, hw.counted.target, fun p hp => ?_, fun hnone x c hx => ?_, fun op hvalid => ?_⟩
  · obtain ⟨x, hx, rfl⟩ := List.mem_map.mp (hw.slots.mem_iff.mpr hp)
    obtain ⟨c, hx'⟩ := hw.counted.undocked_live x hx
    exact ⟨x, c, rfl, hx'⟩
  · have hslots : w.slots = [] := by
      refine List.flatMap_eq_nil_iff.mpr fun a ha => ?_
      obtain ⟨k, hk⟩ := List.mem_iff_getElem?.mp ha
      have hnone' := hnone k
      rw [Store.get, hk] at hnone'
      rw [show a = none from hnone']
      rfl
    rw [hcount x c hx, hslots]
    simp
  · rcases array_exec hw hvalid with hlimit | ⟨w', hrun, -, hdel, heffect⟩
    · exact .inl hlimit
    · exact .inr ⟨w', hrun, hdel, heffect⟩

/-- An object, a handle to it, and an array that holds it. -/
def exStored : World :=
  ⟨⟨[some ⟨some 0, false, none⟩, none], [some 2], [0]⟩,
    [some ⟨100, 1, some (some 0 :: List.replicate 99 none)⟩]⟩

theorem array_run_counted_stored :
    (∀ x c, exStored.mem.refCount x = some c →
      c = (exStored.mem.holders x).card + exStored.slots.count (some x)) ∧
    (∀ i h x, exStored.mem.handle i = some h → h.ptr = some x →
      ∃ c, exStored.mem.refCount x = some c) ∧
    (∀ p ∈ exStored.slots, ∃ x c, p = some x ∧ exStored.mem.refCount x = some c) ∧
    ((∀ k, Store.get exStored.arrays k = none) → ∀ x c, exStored.mem.refCount x = some c →
      c = (exStored.mem.holders x).card) ∧
    ∀ op : ArrayOp, op.Valid exStored →
      Ends (AtLimit exStored.mem) (exStored.exec op) fun w' =>
        Deletes exStored.mem w'.mem ∧ Effect exStored w' op := by
  refine array_run_counted (.tail (.tail (.tail (.single ⟨.handle (.create 0), ?_, rfl⟩)
    ⟨.handle (.construct (some 0)), ?_, rfl⟩) ⟨.new, trivial, rfl⟩)
    ⟨.insert 0 0 [], ⟨⟨_, rfl⟩, _, rfl⟩, by decide⟩)
  · exact ⟨trivial, trivial, trivial⟩
  · refine ⟨trivial, ?_, ?_⟩
    · rintro x ⟨⟩
      exact ⟨0, rfl⟩
    · rintro x c ⟨⟩ hc
      obtain rfl := Option.some.inj hc
      decide

end Dframework
