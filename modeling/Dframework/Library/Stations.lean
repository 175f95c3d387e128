import Mathlib
import Dframework.Library.Cells

/-!
# Stations that hand items to one another

A station has a shelf and an inbox. It looks at the items on its shelf from the last one to the first
one, and then puts what is in its inbox on the shelf. What a look comes to is its fate: an item stays, it
is dropped, or it goes to the inbox of another station. An item that is handed over is put into the other
inbox before it is taken off the shelf, and one that is handed back is taken off first. In between other
stations may act. A copy goes to another inbox and stays on the shelf as well.

Results:
1. `Station.move_held`: what a move of a station does to the items in its hands.
2. `exclusive_iff`: in a run each item is in one hand only exactly as long as nothing is copied.
3. `pass_looks`: a pass looks at each item on the shelf once, whatever is taken off on the way.
-/

namespace Stations

variable {ι α : Type*}

/-- The item at `k` is taken off, and the last one takes its place. -/
def swapRemove (l : List α) (k : ℕ) : List α :=
  match l.getLast? with
  | none => []
  | some a => if k < l.length then l.dropLast.set k a else l

inductive Place (ι α : Type*) where
  | idle
  | looking (k : ℕ)
  | leaving (k : ℕ)
  | returning (dest : ι) (a : α) (k : ℕ)
  | loading
  | holding (a : α)
  | stopped
  deriving DecidableEq

structure Station (ι α : Type*) where
  shelf : List α := []
  inbox : List α := []
  place : Place ι α := .idle

/-- What a look at an item comes to. -/
inductive Fate (ι : Type*) where
  | stay
  | drop
  | handOver (dest : ι)
  | handBack (dest : ι)
  | copy (dest : ι)

/-- What a station meets: whether there is something to look at, the fate of the item it looks at, and
whether there is room on its shelf. -/
structure Input (ι : Type*) where
  ready : Bool := true
  fate : Fate ι := .stay
  room : Bool := true

namespace Station

def look (st : Station ι α) (k : ℕ) (a : α) : Fate ι → Station ι α × Option (ι × α)
  | .stay => ({ st with place := .looking k }, none)
  | .drop => ({ st with shelf := swapRemove st.shelf k, place := .looking k }, none)
  | .handOver dest => ({ st with place := .leaving k }, some (dest, a))
  | .handBack dest => ({ st with shelf := swapRemove st.shelf k, place := .returning dest a k }, none)
  | .copy dest => ({ st with place := .looking k }, some (dest, a))

/-- The next move of a station, and what it puts into the inbox of another one. -/
def move (st : Station ι α) (x : Input ι) : Station ι α × Option (ι × α) :=
  match st.place with
  | .idle =>
    ({ st with place := if x.ready then .looking st.shelf.length else .loading }, none)
  | .looking 0 => ({ st with place := .loading }, none)
  | .looking (k + 1) =>
    match st.shelf[k]? with
    | none => ({ st with place := .looking k }, none)
    | some a => st.look k a x.fate
  | .leaving k => ({ st with shelf := swapRemove st.shelf k, place := .looking k }, none)
  | .returning dest a k => ({ st with place := .looking k }, some (dest, a))
  | .loading =>
    match st.inbox with
    | [] => ({ st with place := .idle }, none)
    | a :: rest => ({ st with inbox := rest, place := .holding a }, none)
  | .holding a =>
    ({ st with shelf := if x.room then st.shelf ++ [a] else st.shelf, place := .loading }, none)
  | .stopped => (st, none)

/-- The station stops, where it asks whether to go on. -/
def stop (st : Station ι α) : Station ι α :=
  match st.place with
  | .idle | .looking (_ + 1) | .loading => { st with place := .stopped }
  | _ => st

/-- What is on the shelf, but for an item that has been handed over. -/
def kept (st : Station ι α) : List α :=
  match st.place with
  | .leaving k => st.shelf.eraseIdx k
  | _ => st.shelf

def hand (st : Station ι α) : List α :=
  match st.place with
  | .returning _ a _ => [a]
  | .holding a => [a]
  | _ => []

def held (st : Station ι α) : Multiset α :=
  ↑st.kept + ↑st.inbox + ↑st.hand

end Station

def posted (p : Option (ι × α)) : Multiset α :=
  (p.map Prod.snd).elim 0 fun a => {a}

/-! ## Taking off -/

variable {l : List α} {k : ℕ} {st : Station ι α} {a : α}

theorem swapRemove_concat (l : List α) (b : α) (k : ℕ) :
    swapRemove (l ++ [b]) k = if k ≤ l.length then l.set k b else l ++ [b] := by
  simp [swapRemove]

theorem swapRemove_of_le (hk : l.length ≤ k) : swapRemove l k = l := by
  rw [swapRemove]
  split
  next h => rw [List.getLast?_eq_none_iff.mp h]
  · rw [if_neg (Nat.not_lt.mpr hk)]

theorem swapRemove_perm (hk : k < l.length) : l.Perm (l[k] :: swapRemove l k) := by
  obtain ⟨l, b, rfl⟩ : ∃ l' b, l = l' ++ [b] := by
    obtain ⟨l', b, hl⟩ := (List.eq_nil_or_concat l).resolve_left
      (List.ne_nil_of_length_pos (Nat.zero_lt_of_lt hk))
    exact ⟨l', b, hl.trans List.concat_eq_append⟩
  rw [swapRemove_concat, if_pos (by simpa using Nat.lt_succ_iff.mp (by simpa using hk))]
  exact Cells.perm_set_last hk

/-- What is left when an item is taken off, in whatever order it stands. -/
theorem coe_swapRemove (l : List α) (k : ℕ) :
    (swapRemove l k : Multiset α) = (l.eraseIdx k : Multiset α) := by
  by_cases hk : k < l.length
  · have hperm := (swapRemove_perm hk).symm.trans (List.getElem_cons_eraseIdx_perm hk).symm
    exact Multiset.coe_eq_coe.mpr (List.Perm.cons_inv hperm)
  · rw [List.eraseIdx_of_length_le (Nat.not_lt.mp hk), swapRemove_of_le (Nat.not_lt.mp hk)]

theorem cons_eraseIdx (h : l[k]? = some a) : (l : Multiset α) = (l.eraseIdx k : Multiset α) + {a} := by
  obtain ⟨hk, rfl⟩ := List.getElem?_eq_some_iff.mp h
  rw [add_comm]
  exact Multiset.coe_eq_coe.mpr (List.getElem_cons_eraseIdx_perm hk).symm

/-! ## One move -/

namespace Station

def Copies (st : Station ι α) (x : Input ι) (a : α) : Prop :=
  ∃ k dest, st.place = .looking (k + 1) ∧ st.shelf[k]? = some a ∧ x.fate = .copy dest

/-- What a look does that does not copy. -/
theorem look_held {f : Fate ι} (hplace : st.place = .looking (k + 1)) (hget : st.shelf[k]? = some a)
    (h : ∀ dest, f ≠ .copy dest) : (st.look k a f).1.held + posted (st.look k a f).2 ≤ st.held := by
  have hcons := cons_eraseIdx hget
  have hheld : st.held = ↑(st.shelf.eraseIdx k) + {a} + ↑st.inbox := by
    rw [← hcons]
    simp [held, kept, hand, hplace]
  rw [hheld]
  cases f with
  | stay => simp [look, held, kept, hand, posted, hcons]
  | drop =>
    simp only [look, held, kept, hand, posted, coe_swapRemove]
    simp only [Option.map_none, Option.elim_none, Multiset.coe_nil, add_zero]
    gcongr
    exact Multiset.le_add_right _ _
  | handOver dest =>
    simp only [look, held, kept, hand, posted, Option.map_some, Option.elim_some, Multiset.coe_nil,
      add_zero]
    rw [add_right_comm]
  | handBack dest =>
    simp only [look, held, kept, hand, posted, coe_swapRemove, Option.map_none, Option.elim_none,
      Multiset.coe_singleton, add_zero]
    rw [add_right_comm]
  | copy dest => exact absurd rfl (h dest)

/-- A move puts nothing into hands but what was in them, unless it copies. -/
theorem move_held {x : Input ι} (h : ∀ a, ¬ st.Copies x a) :
    (st.move x).1.held + posted (st.move x).2 ≤ st.held := by
  rcases hplace : st.place with _ | k | k | ⟨dest, a, k⟩ | _ | a | _
  · rw [move, hplace]
    split_ifs <;> simp [held, kept, hand, hplace, posted]
  · rcases k with _ | k
    · rw [move, hplace]
      simp [held, kept, hand, hplace, posted]
    rcases hget : st.shelf[k]? with _ | a
    · rw [move, hplace]
      simp only [hget]
      simp [held, kept, hand, hplace, posted]
    · rw [move, hplace]
      simp only [hget]
      exact look_held hplace hget fun dest hfate => h a ⟨k, dest, hplace, hget, hfate⟩
  · rw [move, hplace]
    simp [held, kept, hand, hplace, posted, coe_swapRemove]
  · rw [move, hplace]
    simp [held, kept, hand, hplace, posted]
  · rcases hbox : st.inbox with _ | ⟨a, rest⟩
    · rw [move, hplace]
      simp [held, kept, hand, hplace, posted, hbox]
    · rw [move, hplace]
      simp only [hbox]
      simp only [held, kept, hand, hplace, posted, hbox, Option.map_none, Option.elim_none,
        Multiset.coe_nil, add_zero]
      rw [add_assoc, add_comm (rest : Multiset α)]
      exact le_rfl
  · rw [move, hplace]
    simp only [held, kept, hand, hplace, posted, Option.map_none, Option.elim_none,
      Multiset.coe_nil, add_zero]
    split_ifs
    · rw [← Multiset.coe_add, Multiset.coe_singleton, add_right_comm]
    · exact Multiset.le_add_right _ _
  · rw [move, hplace]
    simp [posted]

theorem held_stop (st : Station ι α) : st.stop.held = st.held := by
  rw [stop]
  split <;> rename_i hplace <;> simp [held, kept, hand, hplace]

/-- A move that copies an item. -/
theorem move_copies {x : Input ι} (h : st.Copies x a) :
    a ∈ (st.move x).1.held ∧ ∃ dest, (st.move x).2 = some (dest, a) := by
  obtain ⟨k, dest, hplace, hget, hfate⟩ := h
  rw [move, hplace]
  simp only [hget, hfate, look]
  refine ⟨?_, dest, rfl⟩
  simp only [held, kept, hand, Multiset.mem_add, Multiset.mem_coe]
  exact .inl (.inl (List.mem_of_getElem? hget))

end Station

theorem held_inbox (st : Station ι α) (a : α) :
    ({ st with inbox := st.inbox ++ [a] } : Station ι α).held = st.held + {a} := by
  have hkept : ({ st with inbox := st.inbox ++ [a] } : Station ι α).kept = st.kept := rfl
  have hhand : ({ st with inbox := st.inbox ++ [a] } : Station ι α).hand = st.hand := rfl
  rw [Station.held, Station.held, hkept, hhand, ← Multiset.coe_add, Multiset.coe_singleton]
  abel

/-! ## Runs -/

section

variable [DecidableEq ι]

abbrev Net (ι α : Type*) := ι → Station ι α

def post (net : Net ι α) : Option (ι × α) → Net ι α
  | none => net
  | some (dest, a) =>
    Function.update net dest { net dest with inbox := (net dest).inbox ++ [a] }

/-- A new item comes to a station, a station moves, or it is told to stop. -/
inductive Event (ι α : Type*) where
  | arrive (dest : ι) (a : α)
  | act (i : ι) (x : Input ι)
  | stop (i : ι)

def step (net : Net ι α) : Event ι α → Net ι α
  | .arrive dest a => post net (some (dest, a))
  | .act i x => post (Function.update net i ((net i).move x).1) ((net i).move x).2
  | .stop i => Function.update net i (net i).stop

def run (net : Net ι α) (events : List (Event ι α)) : Net ι α :=
  events.foldl step net

def Event.arrived : Event ι α → Multiset α
  | .arrive _ a => {a}
  | .act _ _ => 0
  | .stop _ => 0

def Event.Copies (net : Net ι α) : Event ι α → Prop
  | .arrive _ _ => False
  | .act i x => ∃ a, (net i).Copies x a
  | .stop _ => False

def arrivals (events : List (Event ι α)) : Multiset α :=
  (events.map Event.arrived).sum

theorem run_concat (net : Net ι α) (events : List (Event ι α)) (e : Event ι α) :
    run net (events ++ [e]) = step (run net events) e := by
  rw [run, List.foldl_append]
  rfl

variable [Fintype ι] {net : Net ι α} {i : ι} {e : Event ι α}

/-- All items, each as often as it is in a hand. -/
def owned (net : Net ι α) : Multiset α :=
  ∑ i, (net i).held

/-- No item is in two hands. -/
def Exclusive (net : Net ι α) : Prop :=
  (owned net).Nodup

theorem owned_update (net : Net ι α) (i : ι) (st : Station ι α) :
    owned (Function.update net i st) + (net i).held = owned net + st.held := by
  have hrest : ∑ j ∈ Finset.univ.erase i, (Function.update net i st j).held =
      ∑ j ∈ Finset.univ.erase i, (net j).held := by
    refine Finset.sum_congr rfl fun j hj => ?_
    rw [Function.update_of_ne (Finset.ne_of_mem_erase hj)]
  rw [owned, owned, ← Finset.add_sum_erase _ _ (Finset.mem_univ i), hrest,
    ← Finset.add_sum_erase _ (fun j => (net j).held) (Finset.mem_univ i), Function.update_self]
  abel

theorem owned_post (net : Net ι α) (p : Option (ι × α)) :
    owned (post net p) = owned net + posted p := by
  rcases p with _ | ⟨dest, a⟩
  · exact (add_zero _).symm
  · have hupdate := owned_update net dest { net dest with inbox := (net dest).inbox ++ [a] }
    rw [held_inbox, ← add_assoc, add_right_comm] at hupdate
    exact add_right_cancel hupdate

/-- Nothing is in two hands because of an event that does not copy. -/
theorem owned_step (h : ¬ e.Copies net) : owned (step net e) ≤ owned net + e.arrived := by
  cases e with
  | arrive dest a => exact (owned_post net _).le
  | act i x =>
    have hmove : ((net i).move x).1.held + posted ((net i).move x).2 ≤ (net i).held :=
      Station.move_held fun a ha => h ⟨a, ha⟩
    have hupdate := owned_update net i ((net i).move x).1
    refine le_of_add_le_add_right (a := (net i).held) ?_
    calc owned (step net (.act i x)) + (net i).held
        = owned (Function.update net i ((net i).move x).1) + (net i).held +
            posted ((net i).move x).2 := by rw [step, owned_post, add_right_comm]
      _ = owned net + (((net i).move x).1.held + posted ((net i).move x).2) := by
          rw [hupdate, add_assoc]
      _ ≤ owned net + (net i).held := by gcongr
      _ = owned net + Event.arrived (.act i x) + (net i).held := by
          rw [Event.arrived, add_zero]
  | stop i =>
    have hupdate := owned_update net i (net i).stop
    rw [Station.held_stop] at hupdate
    exact ((add_right_cancel hupdate).trans (add_zero _).symm).le

/-- An item that is copied is in two hands. -/
theorem not_exclusive_of_copies (h : e.Copies net) : ¬ Exclusive (step net e) := by
  cases e with
  | arrive dest a => exact absurd h not_false
  | act i x =>
    obtain ⟨a, ha⟩ := h
    obtain ⟨hmem, dest, hpost⟩ := Station.move_copies ha
    rw [Exclusive, step, owned_post, hpost]
    intro hnodup
    have hin : a ∈ owned (Function.update net i ((net i).move x).1) := by
      refine Multiset.mem_sum.mpr ⟨i, Finset.mem_univ i, ?_⟩
      rwa [Function.update_self]
    exact Multiset.disjoint_left.mp (Multiset.disjoint_of_nodup_add hnodup) hin
      (Multiset.mem_singleton_self a)
  | stop i => exact absurd h not_false

def RunCopies (net : Net ι α) (events : List (Event ι α)) : Prop :=
  ∃ before e after, events = before ++ e :: after ∧ e.Copies (run net before)

theorem owned_run {events : List (Event ι α)} (h : ¬ RunCopies net events) :
    owned (run net events) ≤ owned net + arrivals events := by
  induction events using List.reverseRecOn with
  | nil => exact Multiset.le_add_right _ _
  | append_singleton events e ih =>
    have hstep : ¬ e.Copies (run net events) := fun he => h ⟨events, e, [], rfl, he⟩
    have hrun : ¬ RunCopies net events := by
      rintro ⟨before, e', after, rfl, he'⟩
      exact h ⟨before, e', after ++ [e], by simp, he'⟩
    rw [run_concat]
    calc owned (step (run net events) e)
        ≤ owned (run net events) + e.arrived := owned_step hstep
      _ ≤ owned net + arrivals events + e.arrived := by gcongr; exact ih hrun
      _ = owned net + arrivals (events ++ [e]) := by
          rw [arrivals, arrivals, List.map_append, List.sum_append, List.map_singleton,
            List.sum_singleton, add_assoc]

/-- In a run in which nothing comes twice each item is in one hand only, in every state on the way,
exactly as long as nothing is copied. -/
theorem exclusive_iff {events : List (Event ι α)} (h : (owned net + arrivals events).Nodup) :
    (∀ before after, events = before ++ after → Exclusive (run net before)) ↔
      ¬ RunCopies net events := by
  constructor
  · rintro hall ⟨before, e, after, rfl, he⟩
    refine not_exclusive_of_copies he ?_
    rw [← run_concat]
    exact hall (before ++ [e]) after (by simp)
  · rintro hno before after rfl
    have hbefore : ¬ RunCopies net before := by
      rintro ⟨b, e, a, rfl, he⟩
      exact hno ⟨b, e, a ++ after, by simp, he⟩
    refine Multiset.nodup_of_le ((owned_run hbefore).trans ?_) h
    gcongr
    rw [arrivals, arrivals, List.map_append, List.sum_append]
    exact Multiset.le_add_right _ _

end

/-! ## Passes -/

theorem take_swapRemove (l : List α) (k : ℕ) : (swapRemove l k).take k = l.take k := by
  obtain rfl | ⟨l, b, rfl⟩ := List.eq_nil_or_concat' l
  · rfl
  · rw [swapRemove_concat]
    split_ifs with hk
    · rw [List.take_set_of_le le_rfl, List.take_append_of_le_length hk]
    · rfl

theorem le_length_swapRemove (hk : k ≤ l.length) : k ≤ (swapRemove l k).length := by
  obtain rfl | ⟨l, b, rfl⟩ := List.eq_nil_or_concat' l
  · exact hk
  · rw [swapRemove_concat]
    split_ifs with hle
    · rwa [List.length_set]
    · exact hk

theorem take_succ_reverse (h : l[k]? = some a) :
    (l.take (k + 1)).reverse = a :: (l.take k).reverse := by
  rw [List.take_add_one, h]
  simp

namespace Station

/-- How far a pass has come, and how many moves it may still take. -/
def passAt (st : Station ι α) : Option (ℕ × ℕ) :=
  match st.place with
  | .looking k => some (k, 2 * k)
  | .leaving k => some (k, 2 * k + 1)
  | .returning _ _ k => some (k, 2 * k + 1)
  | _ => none

def looksAt (st : Station ι α) : List α :=
  match st.place with
  | .looking (k + 1) => st.shelf[k]?.toList
  | _ => []

/-- A pass over `items` that has seen `w` in `n` moves. -/
def Passing (items : List α) (st : Station ι α) (w : List α) (n : ℕ) : Prop :=
  ∃ k left, st.passAt = some (k, left) ∧ k ≤ st.shelf.length ∧ n + left ≤ 2 * items.length ∧
    w ++ (st.shelf.take k).reverse = items.reverse

/-- A look goes on with the pass, whatever it comes to. -/
theorem passing_look {items w : List α} {n : ℕ} (hget : st.shelf[k]? = some a)
    (hleft : n + 2 * (k + 1) ≤ 2 * items.length)
    (hsplit : w ++ (st.shelf.take (k + 1)).reverse = items.reverse) (f : Fate ι) :
    Passing items (st.look k a f).1 (w ++ [a]) (n + 1) := by
  have hk : k < st.shelf.length := (List.getElem?_eq_some_iff.mp hget).1
  have hrest : w ++ [a] ++ (st.shelf.take k).reverse = items.reverse := by
    rw [← hsplit, take_succ_reverse hget, List.append_assoc]
    rfl
  have hswap : w ++ [a] ++ ((swapRemove st.shelf k).take k).reverse = items.reverse := by
    rw [take_swapRemove, hrest]
  cases f with
  | stay => exact ⟨k, _, rfl, hk.le, by omega, hrest⟩
  | drop => exact ⟨k, _, rfl, le_length_swapRemove hk.le, by omega, hswap⟩
  | handOver dest => exact ⟨k, _, rfl, hk.le, by omega, hrest⟩
  | handBack dest => exact ⟨k, _, rfl, le_length_swapRemove hk.le, by omega, hswap⟩
  | copy dest => exact ⟨k, _, rfl, hk.le, by omega, hrest⟩

/-- A move that stays in the pass has looked at the next item, or at none. -/
theorem Passing.move {items w : List α} {n : ℕ} {x : Input ι} (h : Passing items st w n)
    (hin : (st.move x).1.passAt ≠ none) :
    Passing items (st.move x).1 (w ++ st.looksAt) (n + 1) := by
  obtain ⟨j, left, hat, hj, hleft, hsplit⟩ := h
  rcases hplace : st.place with _ | _ | k | ⟨dest, a, k⟩ | _ | _ | _ <;>
    simp only [passAt, hplace, Option.some.injEq, Prod.mk.injEq, reduceCtorEq] at hat
  case looking k =>
    obtain ⟨rfl, rfl⟩ := hat
    rcases k with _ | k
    · rw [Station.move, hplace] at hin
      exact absurd rfl hin
    have hget := List.getElem?_eq_getElem (Nat.lt_of_succ_le hj)
    have hlook := passing_look hget hleft hsplit x.fate
    rw [Station.move, looksAt, hplace]
    simpa only [hget, Option.toList_some] using hlook
  case leaving =>
    obtain ⟨rfl, rfl⟩ := hat
    rw [Station.move, looksAt, hplace, List.append_nil]
    refine ⟨k, 2 * k, rfl, le_length_swapRemove hj, by omega, ?_⟩
    rwa [take_swapRemove]
  case returning =>
    obtain ⟨rfl, rfl⟩ := hat
    rw [Station.move, looksAt, hplace, List.append_nil]
    exact ⟨k, 2 * k, rfl, hj, by omega, hsplit⟩

theorem passAt_look (st : Station ι α) (k : ℕ) (a : α) (f : Fate ι) :
    (st.look k a f).1.passAt ≠ none := by
  cases f <;> exact Option.some_ne_none _

/-- A pass is left behind its last item only. -/
theorem Passing.done {items w : List α} {n : ℕ} {x : Input ι} (h : Passing items st w n)
    (hout : (st.move x).1.passAt = none) : w = items.reverse ∧ n ≤ 2 * items.length := by
  obtain ⟨j, left, hat, hj, hleft, hsplit⟩ := h
  rcases hplace : st.place with _ | _ | k | ⟨dest, a, k⟩ | _ | _ | _ <;>
    simp only [passAt, hplace, Option.some.injEq, Prod.mk.injEq, reduceCtorEq] at hat
  case looking k =>
    obtain ⟨rfl, rfl⟩ := hat
    rcases k with _ | k
    · rw [List.take_zero, List.reverse_nil, List.append_nil] at hsplit
      exact ⟨hsplit, hleft⟩
    rw [Station.move, hplace] at hout
    simp only [List.getElem?_eq_getElem (Nat.lt_of_succ_le hj)] at hout
    exact absurd hout (passAt_look _ _ _ _)
  case leaving =>
    rw [Station.move, hplace] at hout
    cases hout
  case returning =>
    rw [Station.move, hplace] at hout
    cases hout

end Station

section

variable [DecidableEq ι] {net : Net ι α} {i : ι} {e : Event ι α}

def Event.looks (i : ι) (net : Net ι α) : Event ι α → List α
  | .act j _ => if j = i then (net i).looksAt else []
  | _ => []

/-- What the station `i` looks at in a run. -/
def seen (i : ι) : Net ι α → List (Event ι α) → List α
  | _, [] => []
  | net, e :: events => e.looks i net ++ seen i (step net e) events

def Event.isMove (i : ι) : Event ι α → Bool
  | .act j _ => j = i
  | _ => false

/-- The moves of the station `i` in a run. -/
def moves (i : ι) (events : List (Event ι α)) : ℕ :=
  events.countP (Event.isMove i)

/-- The run does not leave the pass of the station `i`. -/
def InPass (i : ι) (net : Net ι α) (events : List (Event ι α)) : Prop :=
  ∀ before after, events = before ++ after → (run net before i).passAt ≠ none

theorem post_station (net : Net ι α) (p : Option (ι × α)) (i : ι) :
    ∃ inbox, post net p i = { net i with inbox } := by
  rcases p with _ | ⟨dest, a⟩
  · exact ⟨_, rfl⟩
  · by_cases h : i = dest
    · subst h
      exact ⟨_, Function.update_self _ _ _⟩
    · exact ⟨_, Function.update_of_ne h _ _⟩

theorem post_passAt (net : Net ι α) (p : Option (ι × α)) (i : ι) :
    (post net p i).passAt = (net i).passAt := by
  obtain ⟨inbox, h⟩ := post_station net p i
  rw [h]
  rfl

theorem post_passing {items w : List α} {n : ℕ} (h : (net i).Passing items w n)
    (p : Option (ι × α)) : (post net p i).Passing items w n := by
  obtain ⟨inbox, hpost⟩ := post_station net p i
  rw [hpost]
  exact h

/-- One event in a pass. -/
theorem passing_step {items w : List α} {n : ℕ} (h : (net i).Passing items w n)
    (hin : (step net e i).passAt ≠ none) :
    (step net e i).Passing items (w ++ e.looks i net) (n + if e.isMove i then 1 else 0) := by
  cases e with
  | arrive dest a =>
    rw [show Event.looks i net (.arrive dest a) = [] from rfl, List.append_nil]
    exact post_passing h _
  | act j x =>
    rw [step, post_passAt] at hin
    rw [step, Event.looks, Event.isMove]
    refine post_passing ?_ _
    by_cases hj : j = i
    · subst hj
      rw [Function.update_self] at hin ⊢
      simpa using h.move hin
    · rw [Function.update_of_ne (Ne.symm hj)]
      simpa [hj] using h
  | stop j =>
    rw [show Event.looks i net (.stop j) = [] from rfl, List.append_nil]
    rw [step] at hin ⊢
    by_cases hj : j = i
    · subst hj
      rw [Function.update_self, Station.stop] at hin ⊢
      split at hin
      · exact absurd rfl hin
      · exact absurd rfl hin
      · exact absurd rfl hin
      · exact h
    · rwa [Function.update_of_ne (Ne.symm hj)]

theorem InPass.tail {events : List (Event ι α)} (h : InPass i net (e :: events)) :
    InPass i (step net e) events := by
  rintro before after rfl
  exact h (e :: before) after rfl

theorem passing_run {events : List (Event ι α)} {items w : List α} {n : ℕ}
    (h : (net i).Passing items w n) (hin : InPass i net events) :
    (run net events i).Passing items (w ++ seen i net events) (n + moves i events) := by
  induction events generalizing net w n with
  | nil =>
    rw [seen, List.append_nil]
    exact h
  | cons e events ih =>
    have hstep := passing_step h (hin [e] events rfl)
    have hrest := ih hstep hin.tail
    rw [List.append_assoc] at hrest
    rw [seen, moves, List.countP_cons, Nat.add_comm (List.countP _ _), ← Nat.add_assoc]
    exact hrest

/-- A pass of a station, with the others at work: when it is left, the station has looked at each item
that was on its shelf once, from the last one to the first one, in two moves for each at most. -/
theorem pass_looks {events : List (Event ι α)} {x : Input ι}
    (hstart : (net i).place = .looking (net i).shelf.length) (hin : InPass i net events)
    (hout : ((run net events i).move x).1.passAt = none) :
    seen i net events = (net i).shelf.reverse ∧ moves i events ≤ 2 * (net i).shelf.length := by
  have hfirst : (net i).Passing (net i).shelf [] 0 := by
    refine ⟨(net i).shelf.length, 2 * (net i).shelf.length, ?_, le_rfl, by omega, ?_⟩
    · rw [Station.passAt, hstart]
    · rw [List.nil_append, List.take_length]
  have hlast := (passing_run hfirst hin).done hout
  rwa [List.nil_append, Nat.zero_add] at hlast

end

end Stations
