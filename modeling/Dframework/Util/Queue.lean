import Mathlib
import Dframework.Library.Linked

/-!
# `Queue`

A linked list of nodes, with pointers to its two ends and a count. A node is made by `push` and deleted
by the `pop` that takes its data. `none` as a result stands for an access to a node that is not there.

Results:
1. `push_spec`, `pop_spec`: what the operations do to the data in their order.
2. `run_fifo`: a run of operations is one of a list that grows at its end and is read at its front, and
   the nodes that are there are those of the data.
-/

namespace Dframework

open Linked

structure QueueNode (α : Type) where
  data : α
  next : Option Nat

/-- `Queue`, with the nodes by their addresses. -/
structure Queue (α : Type) where
  nodes : Nat → Option (QueueNode α)
  pFront : Option Nat
  pEnd : Option Nat
  iSize : UInt64

namespace Queue

variable {α : Type}

def new : Queue α :=
  ⟨fun _ => none, none, none, 0⟩

def empty (q : Queue α) : Bool :=
  !(0 < q.iSize)

/-- `m_pEnd->next = tmp`. -/
def linkEnd (nodes : Nat → Option (QueueNode α)) (pEnd : Option Nat) (tmp : Nat) :
    Option (Nat → Option (QueueNode α)) :=
  match pEnd with
  | none => some nodes
  | some e => (nodes e).map fun node => Function.update nodes e (some { node with next := some tmp })

/-- `Queue::push`. The address of the new node is `tmp`. -/
def push (q : Queue α) (tmp : Nat) (data : α) : Option (Queue α) :=
  let nodes := Function.update q.nodes tmp (some ⟨data, none⟩)
  if q.empty then some ⟨nodes, some tmp, some tmp, q.iSize + 1⟩
  else (linkEnd nodes q.pEnd tmp).map fun nodes => ⟨nodes, q.pFront, some tmp, q.iSize + 1⟩

def pop (q : Queue α) : Option (Option α × Queue α) :=
  if q.empty then some (none, q)
  else do
    let tmp ← q.pFront
    let node ← q.nodes tmp
    some (some node.data, {
      nodes := Function.update q.nodes tmp none
      pFront := node.next
      pEnd := if node.next.isNone then none else q.pEnd
      iSize := q.iSize - 1 })

/-- `Queue::~Queue`, for at most `fuel` nodes. -/
def destroy : Nat → Queue α → Option (Queue α)
  | 0, q => if q.empty then some q else none
  | fuel + 1, q => if q.empty then some q else q.pop.bind fun x => destroy fuel x.2

/-! ## What a queue holds -/

def next (q : Queue α) (a : Nat) : Option Nat :=
  (q.nodes a).bind QueueNode.next

/-- The nodes at `chain` hold the data, in their order, and there are no others. -/
structure Chained (q : Queue α) (chain : List Nat) (l : List α) : Prop where
  nodup : chain.Nodup
  address : ∀ a ∈ chain, 0 < a ∧ a < 2 ^ 64
  walk : Walk q.next q.pFront chain
  data : chain.map (fun a => (q.nodes a).map QueueNode.data) = l.map some
  live : ∀ a, q.nodes a ≠ none ↔ a ∈ chain
  last : q.pEnd = chain.getLast?
  size : q.iSize.toNat = l.length

def Holds (q : Queue α) (l : List α) : Prop :=
  ∃ chain, q.Chained chain l

structure Free (q : Queue α) (tmp : Nat) : Prop where
  pos : 0 < tmp
  lt : tmp < 2 ^ 64
  dead : q.nodes tmp = none

variable {q q' : Queue α} {chain : List Nat} {l : List α} {tmp : Nat} {data : α}

theorem new_holds : (new : Queue α).Holds [] :=
  ⟨[], List.nodup_nil, by simp, .nil, rfl, by simp [new], rfl, rfl⟩

theorem Chained.length_eq (h : q.Chained chain l) : chain.length = l.length := by
  have hlen := congrArg List.length h.data
  rwa [List.length_map, List.length_map] at hlen

theorem Chained.empty_iff (h : q.Chained chain l) : q.empty = true ↔ l = [] := by
  rw [empty, Bool.not_eq_true', decide_eq_false_iff_not, UInt64.lt_iff_toNat_lt, h.size]
  simp [List.length_eq_zero_iff]

/-- The nodes have addresses of their own, so the count does not come round. -/
theorem Chained.length_lt (h : q.Chained chain l) (hfree : q.Free tmp) : l.length + 1 < 2 ^ 64 := by
  have hmem : tmp ∉ chain := fun hin => (h.live tmp).mpr hin hfree.dead
  have hsub : (tmp :: chain).toFinset ⊆ (Finset.range (2 ^ 64)).erase 0 := by
    intro a ha
    rw [List.mem_toFinset, List.mem_cons] at ha
    rw [Finset.mem_erase, Finset.mem_range]
    rcases ha with rfl | ha
    · exact ⟨hfree.pos.ne', hfree.lt⟩
    · exact ⟨(h.address a ha).1.ne', (h.address a ha).2⟩
  have hcard := Finset.card_le_card hsub
  rw [List.toFinset_card_of_nodup (List.nodup_cons.mpr ⟨hmem, h.nodup⟩),
    Finset.card_erase_of_mem (by simp), Finset.card_range, List.length_cons, h.length_eq] at hcard
  omega

/-- The node of an address in the chain. -/
theorem Chained.exists_node (h : q.Chained chain l) {a : Nat} (ha : a ∈ chain) :
    ∃ node, q.nodes a = some node :=
  Option.ne_none_iff_exists'.mp ((h.live a).mpr ha)

theorem Chained.notMem (h : q.Chained chain l) (hfree : q.Free tmp) : tmp ∉ chain :=
  fun hin => (h.live tmp).mpr hin hfree.dead

theorem getLast?_ne_of_mem_dropLast {a : Nat} (hnodup : chain.Nodup) (ha : a ∈ chain.dropLast) :
    chain.getLast? ≠ some a := by
  obtain rfl | ⟨init, b, rfl⟩ := List.eq_nil_or_concat' chain
  · cases ha
  · rw [List.dropLast_concat] at ha
    rw [List.getLast?_concat]
    rintro ⟨rfl⟩
    exact List.disjoint_of_nodup_append hnodup ha List.mem_cons_self

/-- A chain with another node behind it, which its last node links to. -/
theorem Chained.snoc (h : q.Chained chain l) (hfree : q.Free tmp)
    (hfront : q'.pFront = if chain = [] then some tmp else q.pFront) (hend : q'.pEnd = some tmp)
    (hsize : q'.iSize = q.iSize + 1) (htmp : q'.nodes tmp = some ⟨data, none⟩)
    (hlast : ∀ e, chain.getLast? = some e → q'.nodes e = (q.nodes e).map ({ · with next := some tmp }))
    (hrest : ∀ a, a ≠ tmp → chain.getLast? ≠ some a → q'.nodes a = q.nodes a) :
    q'.Chained (chain ++ [tmp]) (l ++ [data]) := by
  have hnew := h.notMem hfree
  have hdata : ∀ a, a ≠ tmp → (q'.nodes a).map QueueNode.data = (q.nodes a).map QueueNode.data := by
    intro a ha
    by_cases hl : chain.getLast? = some a
    · rw [hlast a hl, Option.map_map]
      rfl
    · rw [hrest a ha hl]
  have hne : ∀ a ∈ chain, a ≠ tmp := fun a ha heq => hnew (heq ▸ ha)
  refine ⟨?_, ?_, ?_, ?_, ?_, ?_, ?_⟩
  · exact List.nodup_append.mpr ⟨h.nodup, List.nodup_singleton tmp, by simpa using hne⟩
  · simp only [List.mem_append, List.mem_singleton]
    rintro a (ha | rfl)
    · exact h.address a ha
    · exact ⟨hfree.pos, hfree.lt⟩
  · have htail : q'.next tmp = none := by rw [next, htmp]; rfl
    by_cases hnil : chain = []
    · rw [hfront, if_pos hnil, hnil]
      exact .cons (htail ▸ .nil)
    · rw [hfront, if_neg hnil]
      refine h.walk.snoc hnil (fun y hy => ?_) (fun e he => ?_) htail
      · have hin : y ∈ chain := List.mem_of_mem_dropLast hy
        rw [next, next, hrest y (hne y hin) (getLast?_ne_of_mem_dropLast h.nodup hy)]
      · obtain ⟨node, hnode⟩ := h.exists_node (List.mem_of_getLast? he)
        rw [next, hlast e he, hnode]
        rfl
  · rw [List.map_append, List.map_append, ← h.data, List.map_singleton, htmp]
    refine congrArg (· ++ _) (List.map_congr_left fun a ha => hdata a (hne a ha))
  · intro a
    by_cases ha : a = tmp
    · subst ha
      simp [htmp]
    · have hnone : q'.nodes a = none ↔ q.nodes a = none := by
        rw [← Option.map_eq_none_iff (f := QueueNode.data), hdata a ha, Option.map_eq_none_iff]
      rw [Ne, hnone, ← Ne, h.live, List.mem_append, List.mem_singleton]
      simp [ha]
  · rw [hend, List.getLast?_concat]
  · have hlt := h.length_lt hfree
    rw [hsize, UInt64.toNat_add, h.size, List.length_append]
    exact Nat.mod_eq_of_lt hlt

/-- `push` puts the data behind the others. -/
theorem push_spec (h : q.Holds l) (hfree : q.Free tmp) (data : α) :
    ∃ q', q.push tmp data = some q' ∧ q'.Holds (l ++ [data]) := by
  obtain ⟨chain, h⟩ := h
  have hnew := h.notMem hfree
  rw [push]
  by_cases hnil : chain = []
  · have hl : l = [] := List.eq_nil_of_length_eq_zero (h.length_eq ▸ by rw [hnil]; rfl)
    rw [if_pos (h.empty_iff.mpr hl)]
    refine ⟨_, rfl, _, h.snoc hfree (by rw [if_pos hnil]) rfl rfl (Function.update_self _ _ _) ?_ ?_⟩
    · rw [hnil]
      exact fun e he => by cases he
    · exact fun a ha _ => Function.update_of_ne ha _ _
  · have hl : l ≠ [] := by
      rintro rfl
      exact hnil (List.eq_nil_of_length_eq_zero h.length_eq)
    rw [if_neg (fun hemp => hl (h.empty_iff.mp hemp))]
    obtain ⟨e, he⟩ : ∃ e, chain.getLast? = some e := ⟨_, List.getLast?_eq_some_getLast hnil⟩
    have hin : e ∈ chain := List.mem_of_getLast? he
    have hetmp : e ≠ tmp := fun heq => hnew (heq ▸ hin)
    obtain ⟨node, hnode⟩ := h.exists_node hin
    rw [h.last, he, linkEnd, Function.update_of_ne hetmp, hnode]
    refine ⟨_, rfl, _, h.snoc hfree (by rw [if_neg hnil]) rfl rfl ?_ ?_ ?_⟩
    · exact (Function.update_of_ne hetmp.symm _ _).trans (Function.update_self _ _ _)
    · rintro e' he'
      obtain rfl : e = e' := Option.some.inj (he.symm.trans he')
      rw [hnode]
      exact Function.update_self _ _ _
    · intro a ha hlast
      exact (Function.update_of_ne (fun heq : a = e => hlast (heq ▸ he)) _ _).trans
        (Function.update_of_ne ha _ _)

/-- `pop` takes the data at the front and deletes its node. -/
theorem pop_spec (h : q.Holds l) : ∃ q', q.pop = some (l.head?, q') ∧ q'.Holds l.tail := by
  obtain ⟨chain, h⟩ := h
  rw [pop]
  rcases l with _ | ⟨data, l⟩
  · rw [if_pos (h.empty_iff.mpr rfl)]
    exact ⟨q, rfl, chain, h⟩
  rw [if_neg (fun hemp => List.cons_ne_nil _ _ (h.empty_iff.mp hemp))]
  rcases chain with _ | ⟨tmp, chain⟩
  · cases h.length_eq
  obtain ⟨node, hnode⟩ := h.exists_node List.mem_cons_self
  have hdata := h.data
  rw [List.map_cons, List.map_cons, hnode, List.cons.injEq] at hdata
  obtain ⟨hfirst, hrest⟩ := hdata
  have hnew : tmp ∉ chain := (List.nodup_cons.mp h.nodup).1
  have hkept : ∀ a ∈ chain, Function.update q.nodes tmp none a = q.nodes a := fun a ha =>
    Function.update_of_ne (fun heq : a = tmp => hnew (heq ▸ ha)) _ _
  have hwalk := h.walk
  obtain ⟨hfront, hwalk⟩ : q.pFront = some tmp ∧ Walk q.next (q.next tmp) chain := by
    generalize hstart : q.pFront = start at hwalk
    cases hwalk with
    | cons hwalk => exact ⟨rfl, hwalk⟩
  have hnext : q.next tmp = node.next := by rw [next, hnode]; rfl
  rw [hfront]
  simp only [Option.bind_eq_bind, Option.bind_some, hnode]
  refine ⟨_, by rw [Option.some.inj hfirst]; rfl, chain, (List.nodup_cons.mp h.nodup).2,
    fun a ha => h.address a (List.mem_cons_of_mem _ ha), ?_, ?_, fun a => ?_, ?_, ?_⟩
  · refine Walk.congr (hnext ▸ hwalk) fun a ha => ?_
    show (Function.update q.nodes tmp none a).bind _ = (q.nodes a).bind _
    rw [hkept a ha]
  · refine (List.map_congr_left fun a ha => ?_).trans hrest
    exact congrArg _ (hkept a ha)
  · by_cases ha : a = tmp
    · subst ha
      simpa using hnew
    · have hlive := h.live a
      rw [List.mem_cons, or_iff_right ha] at hlive
      rw [← hlive]
      have hsame : Function.update q.nodes tmp none a = q.nodes a := Function.update_of_ne ha _ _
      exact not_congr (Eq.congr hsame rfl)
  · have hlast := h.last
    rcases chain with _ | ⟨b, chain⟩
    · have hnone : node.next = none := by
        rw [← hnext]
        generalize q.next tmp = start at hwalk
        cases hwalk
        rfl
      simp [hnone]
    · have hsome : node.next = some b := by
        rw [← hnext]
        generalize q.next tmp = start at hwalk
        cases hwalk
        rfl
      rw [List.getLast?_cons_cons] at hlast
      simpa [hsome] using hlast
  · have hsize := h.size
    rw [List.length_cons] at hsize
    have hle : (1 : UInt64) ≤ q.iSize := by
      rw [UInt64.le_iff_toNat_le, hsize]
      exact Nat.le_add_left 1 l.length
    rw [UInt64.toNat_sub_of_le _ _ hle, hsize]
    rfl

/-- The destructor deletes every node. -/
theorem destroy_spec (h : q.Holds l) : ∃ q', destroy l.length q = some q' ∧ q'.Holds [] := by
  induction l generalizing q with
  | nil =>
    obtain ⟨chain, hc⟩ := h
    rw [List.length_nil, destroy, if_pos (hc.empty_iff.mpr rfl)]
    exact ⟨q, rfl, chain, hc⟩
  | cons data l ih =>
    obtain ⟨q₁, hpop, hq₁⟩ := pop_spec h
    obtain ⟨chain, hc⟩ := h
    rw [List.length_cons, destroy, if_neg (fun hemp => List.cons_ne_nil _ _ (hc.empty_iff.mp hemp)),
      hpop]
    exact ih hq₁

theorem Holds.nodes_nil (h : q.Holds ([] : List α)) : q.nodes = fun _ => none := by
  obtain ⟨chain, hc⟩ := h
  have hnil : chain = [] := List.eq_nil_of_length_eq_zero hc.length_eq
  funext a
  by_contra hne
  have hmem := (hc.live a).mp hne
  rw [hnil] at hmem
  cases hmem

/-! ## Runs -/

/-- The operations, with the address of the new node. -/
inductive QueueOp (α : Type) where
  | push (tmp : Nat) (data : α)
  | pop
  | size

inductive QueueAnswer (α : Type) where
  | pushed
  | popped (data : Option α)
  | size (n : Nat)

def exec : QueueOp α → Queue α → Option (QueueAnswer α × Queue α)
  | .push tmp data, q => (q.push tmp data).map fun q => (.pushed, q)
  | .pop, q => q.pop.map fun (data, q) => (.popped data, q)
  | .size, q => some (.size q.iSize.toNat, q)

/-- The operations one after the other, with their answers. -/
def run : List (QueueOp α) → Queue α → Option (List (QueueAnswer α) × Queue α)
  | [], q => some ([], q)
  | op :: ops, q => do
    let (answer, q) ← exec op q
    let (answers, q) ← run ops q
    some (answer :: answers, q)

/-- The address of a new node is none of a node that is there. -/
def QueueOp.Fits (q : Queue α) : QueueOp α → Prop
  | .push tmp _ => q.Free tmp
  | _ => True

instance (q : Queue α) (tmp : Nat) : Decidable (q.Free tmp) :=
  decidable_of_iff (0 < tmp ∧ tmp < 2 ^ 64 ∧ (q.nodes tmp).isNone = true)
    ⟨fun ⟨hpos, hlt, hdead⟩ => ⟨hpos, hlt, Option.isNone_iff_eq_none.mp hdead⟩,
      fun h => ⟨h.pos, h.lt, Option.isNone_iff_eq_none.mpr h.dead⟩⟩

instance (q : Queue α) : (op : QueueOp α) → Decidable (op.Fits q)
  | .push tmp _ => inferInstanceAs (Decidable (q.Free tmp))
  | .pop => inferInstanceAs (Decidable True)
  | .size => inferInstanceAs (Decidable True)

def Allocates : List (QueueOp α) → Queue α → Prop
  | [], _ => True
  | op :: ops, q => op.Fits q ∧ ∀ x ∈ exec op q, Allocates ops x.2

instance decidableAllocates : (ops : List (QueueOp α)) → (q : Queue α) → Decidable (Allocates ops q)
  | [], _ => inferInstanceAs (Decidable True)
  | op :: ops, q =>
    have := decidableAllocates ops
    inferInstanceAs (Decidable (op.Fits q ∧ ∀ x ∈ exec op q, Allocates ops x.2))

/-- An operation of a list that grows at its end and is read at its front. -/
def fifoExec : QueueOp α → List α → QueueAnswer α × List α
  | .push _ data, l => (.pushed, l ++ [data])
  | .pop, l => (.popped l.head?, l.tail)
  | .size, l => (.size l.length, l)

def fifoRun : List (QueueOp α) → List α → List (QueueAnswer α) × List α
  | [], l => ([], l)
  | op :: ops, l =>
    let (answer, l) := fifoExec op l
    let (answers, l) := fifoRun ops l
    (answer :: answers, l)

theorem exec_fifo {op : QueueOp α} (h : q.Holds l) (hfits : op.Fits q) :
    ∃ q', exec op q = some ((fifoExec op l).1, q') ∧ q'.Holds (fifoExec op l).2 := by
  cases op with
  | push tmp data =>
    obtain ⟨q', hpush, hq'⟩ := push_spec h hfits data
    exact ⟨q', by rw [exec, hpush]; rfl, hq'⟩
  | pop =>
    obtain ⟨q', hpop, hq'⟩ := pop_spec h
    exact ⟨q', by rw [exec, hpop]; rfl, hq'⟩
  | size =>
    have hsize : q.iSize.toNat = l.length := h.elim fun _ hc => hc.size
    exact ⟨q, by rw [exec, hsize]; rfl, h⟩

theorem run_holds {ops : List (QueueOp α)} (h : q.Holds l) (halloc : Allocates ops q) :
    ∃ q', run ops q = some ((fifoRun ops l).1, q') ∧ q'.Holds (fifoRun ops l).2 := by
  induction ops generalizing q l with
  | nil => exact ⟨q, rfl, h⟩
  | cons op ops ih =>
    obtain ⟨q₁, hexec, hq₁⟩ := exec_fifo h halloc.1
    obtain ⟨q', hrun, hq'⟩ := ih hq₁ (halloc.2 _ hexec)
    refine ⟨q', ?_, hq'⟩
    rw [run, hexec]
    simp only [Option.bind_eq_bind, Option.bind_some, hrun]
    rfl

/-- Every run of operations answers as a list does that grows at its end and is read at its front. No
node is used that is not there, there is a node for each data that is left, and the destructor deletes
them all. -/
theorem run_fifo {ops : List (QueueOp α)} (h : Allocates ops new) :
    ∃ q q', run ops new = some ((fifoRun ops []).1, q) ∧ q.Holds (fifoRun ops []).2 ∧
      destroy (fifoRun ops []).2.length q = some q' ∧ q'.nodes = fun _ => none := by
  obtain ⟨q, hrun, hq⟩ := run_holds new_holds h
  obtain ⟨q', hdestroy, hq'⟩ := destroy_spec hq
  exact ⟨q, q', hrun, hq, hdestroy, hq'.nodes_nil⟩

/-- A queue that is emptied and used again, with the address of a deleted node. -/
theorem run_fifo_again :
    ∃ q q' : Queue Nat, run [.push 16 3, .push 32 4, .pop, .push 16 5, .size, .pop, .pop, .pop] new =
        some ((fifoRun [.push 16 3, .push 32 4, .pop, .push 16 5, .size, .pop, .pop, .pop] []).1, q) ∧
      q.Holds [] ∧ destroy 0 q = some q' ∧ q'.nodes = fun _ => none := by
  exact run_fifo (by decide)

end Queue

end Dframework
