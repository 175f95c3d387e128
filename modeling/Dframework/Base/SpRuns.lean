import Mathlib
import Dframework.Base.SpCascade

/-!
# Runs of `sp` handles

Every operation is made of a few moves of references between handles and the undocked ones,
and of `dec`. Each of them keeps every count right. An assignment is the one operation in
which `dec` comes before its other arguments are used: what it takes is read, or kept, only
when it does not go with the object the handle lets go of.

Results:
1. `exec_counted`: what an operation that meets its condition does.
2. `sp_run_counted`: the counts, in every run of such operations.
-/

namespace Dframework

open Store Relation

variable {m m' m₁ : Memory} {i j : Loc} {x y : ObjId} {h s : Sp} {p : Option ObjId}

/-! ## Moves of references -/

namespace Counted

/-- The references to `y`, when one handle has changed. -/
theorem number_set (hi : m.handle i = some s) (s' : Sp) (counts : List (Option Int))
    (undocked : List ObjId) (y : ObjId) :
    Memory.number ⟨m.handles.set i (some s'), counts, undocked⟩ y =
      (if s'.ptr = some y then insert i (m.holders y) else (m.holders y).erase i).card +
        undocked.count y := by
  rw [Memory.number, Memory.holders]
  dsimp only
  rw [places_set_some (lt_of_get hi)]
  simp only [decide_eq_true_eq]
  rfl

theorem number_append (counts : List (Option Int)) (undocked : List ObjId) (y : ObjId) :
    Memory.number ⟨m.handles ++ [some ⟨none, false, none⟩], counts, undocked⟩ y =
      (m.holders y).card + undocked.count y := by
  rw [Memory.number, Memory.holders]
  dsimp only
  rw [places_append, if_neg (by simp)]
  rfl

theorem number_drop (i : Loc) (counts : List (Option Int)) (undocked : List ObjId) (y : ObjId) :
    Memory.number ⟨m.handles.set i none, counts, undocked⟩ y =
      ((m.holders y).erase i).card + undocked.count y := by
  rw [Memory.number, Memory.holders]
  dsimp only
  rw [places_set_none]
  rfl

/-- A new reference, which no handle holds yet. -/
theorem ref (hc : Counted m) {c : Int} (hx : m.refCount x = some c) :
    Counted ⟨m.handles, m.counts.set x (some (c + 1)), x :: m.undocked⟩ := by
  have hlt : x < m.counts.length := lt_of_get hx
  have hlive : ∀ y, (∃ c, m.refCount y = some c) →
      ∃ c', get (m.counts.set x (some (c + 1))) y = some c' := by
    rintro y ⟨c', hy⟩
    rw [get_set hlt]
    split
    · exact ⟨_, rfl⟩
    · exact ⟨c', hy⟩
  refine ⟨fun y c' hy => ?_, fun k h y hk hp => hlive y (hc.target k h y hk hp), fun y hy => ?_,
    fun k h o hk ho => hlive o (hc.owned k h o hk ho)⟩
  · rw [Memory.refCount, get_set hlt] at hy
    split at hy
    next heq =>
      subst heq
      rw [← Option.some.inj hy, hc.count x c hx, Memory.number, Memory.number, List.count_cons_self]
      push_cast
      rw [add_assoc]
      rfl
    next hne =>
      rw [hc.count y c' hy, Memory.number, Memory.number, List.count_cons_of_ne hne]
      rfl
  · rcases List.mem_cons.mp hy with rfl | hy
    · exact hlive y ⟨c, hx⟩
    · exact hlive y (hc.undocked_live y hy)

/-- An undocked reference goes into a handle that holds none. -/
theorem put (hc : Counted m) (hi : m.handle i = some s) (hs : s.ptr = none) (hx : x ∈ m.undocked) :
    Counted ⟨m.handles.set i (some { s with ptr := some x }), m.counts, m.undocked.erase x⟩ := by
  have hnot : ∀ y, i ∉ m.holders y := by
    intro y hmem
    obtain ⟨h, hi', hp⟩ := Memory.mem_holders.mp hmem
    obtain rfl := Option.some.inj (hi.symm.trans hi')
    rw [hs] at hp
    cases hp
  refine ⟨fun y c hy => ?_, fun k h y hk hp => ?_, fun y hy => ?_, fun k h o hk ho => ?_⟩
  · rw [hc.count y c hy, number_set hi, Memory.number]
    by_cases hxy : x = y
    · subst hxy
      have hpos : 0 < m.undocked.count x := List.count_pos_iff.mpr hx
      rw [if_pos rfl, Finset.card_insert_of_notMem (hnot x), List.count_erase_self]
      omega
    · rw [if_neg fun heq => hxy (Option.some.inj heq), Finset.erase_eq_of_notMem (hnot y),
        List.count_erase_of_ne (Ne.symm hxy)]
  · rw [Memory.handle, get_set (lt_of_get hi)] at hk
    split at hk
    · obtain rfl := Option.some.inj hk
      obtain rfl := Option.some.inj hp
      exact hc.undocked_live x hx
    · exact hc.target k h y hk hp
  · exact hc.undocked_live y (List.mem_of_mem_erase hy)
  · rw [Memory.handle, get_set (lt_of_get hi)] at hk
    split at hk
    · obtain rfl := Option.some.inj hk
      exact hc.owned i s o hi ho
    · exact hc.owned k h o hk ho

/-- The reference of a handle is undocked. -/
theorem take (hc : Counted m) (hi : m.handle i = some s) (hs : s.ptr = some x) :
    Counted ⟨m.handles.set i (some { s with ptr := none }), m.counts, x :: m.undocked⟩ := by
  refine ⟨fun y c hy => ?_, fun k h y hk hp => ?_, fun y hy => ?_, fun k h o hk ho => ?_⟩
  · rw [hc.count y c hy, number_set hi, Memory.number, if_neg (by simp)]
    by_cases hxy : x = y
    · subst hxy
      rw [List.count_cons_self]
      have hmem : i ∈ m.holders x := Memory.mem_holders.mpr ⟨s, hi, hs⟩
      have := Finset.card_erase_add_one hmem
      omega
    · have hnot : i ∉ m.holders y := by
        intro hmem
        obtain ⟨h, hi', hp⟩ := Memory.mem_holders.mp hmem
        obtain rfl := Option.some.inj (hi.symm.trans hi')
        exact hxy (Option.some.inj (hs.symm.trans hp))
      rw [Finset.erase_eq_of_notMem hnot, List.count_cons_of_ne hxy]
  · rw [Memory.handle, get_set (lt_of_get hi)] at hk
    split at hk
    · obtain rfl := Option.some.inj hk
      cases hp
    · exact hc.target k h y hk hp
  · rcases List.mem_cons.mp hy with rfl | hy
    · exact hc.target i s y hi hs
    · exact hc.undocked_live y hy
  · rw [Memory.handle, get_set (lt_of_get hi)] at hk
    split at hk
    · obtain rfl := Option.some.inj hk
      exact hc.owned i s o hi ho
    · exact hc.owned k h o hk ho

/-- A new handle that holds nothing. -/
theorem append (hc : Counted m) :
    Counted ⟨m.handles ++ [some ⟨none, false, none⟩], m.counts, m.undocked⟩ := by
  refine ⟨fun y c hy => ?_, fun k h y hk hp => ?_, hc.undocked_live, fun k h o hk ho => ?_⟩
  · rw [hc.count y c hy, number_append, Memory.number]
  · rw [Memory.handle, get_append] at hk
    split at hk
    · obtain rfl := Option.some.inj hk
      cases hp
    · exact hc.target k h y hk hp
  · rw [Memory.handle, get_append] at hk
    split at hk
    · obtain rfl := Option.some.inj hk
      cases ho
    · exact hc.owned k h o hk ho

/-- A handle that holds nothing goes. -/
theorem drop (hc : Counted m) (hi : m.handle i = some s) (hs : s.ptr = none) :
    Counted ⟨m.handles.set i none, m.counts, m.undocked⟩ := by
  have hsome : ∀ {k h}, get (m.handles.set i none) k = some h → m.handle k = some h := by
    intro k h hk
    rw [get_set (lt_of_get hi)] at hk
    split at hk
    · cases hk
    · exact hk
  refine ⟨fun y c hy => ?_, fun k h y hk => hc.target k h y (hsome hk), hc.undocked_live,
    fun k h o hk => hc.owned k h o (hsome hk)⟩
  rw [hc.count y c hy, number_drop, Memory.number, Finset.erase_eq_of_notMem]
  intro hmem
  obtain ⟨h, hi', hp⟩ := Memory.mem_holders.mp hmem
  obtain rfl := Option.some.inj (hi.symm.trans hi')
  rw [hs] at hp
  cases hp

end Counted

/-! ## The operations -/

inductive SpOp where
  | create (k : Nat)
  | construct (p : Option ObjId)
  | copy (j : Loc)
  | assign (i j : Loc)
  | assignPtr (i : Loc) (p : Option ObjId)
  | destroy (i : Loc)
  | undocking (p : Option ObjId)
  | docking (p : Option ObjId)
  | undockingResponsibility (i : Loc)
  | cancleUndockingResponsibility (i : Loc)
  deriving DecidableEq, Repr

def Memory.exec (m : Memory) : SpOp → Option Memory
  | .create k => some (m.create k)
  | .construct p => m.construct p
  | .copy j => m.copy j
  | .assign i j => m.assign i j
  | .assignPtr i p => m.assignPtr i p
  | .destroy i => m.destroy i
  | .undocking p => m.undocking p
  | .docking p => m.docking p
  | .undockingResponsibility i => m.setResponsibility i true
  | .cancleUndockingResponsibility i => m.setResponsibility i false

/-- The handles an operation names exist, its pointer is `NULL` or points to an object, and
what is docked has been undocked. The members of an object are destroyed by that only. -/
def SpOp.Valid (m : Memory) : SpOp → Prop
  | .create _ => True
  | .construct p | .undocking p => ∀ x, p = some x → ∃ c, m.refCount x = some c
  | .copy j => ∃ h, m.handle j = some h
  | .assign i j => (∃ h, m.handle i = some h) ∧ ∃ h, m.handle j = some h
  | .assignPtr i p => (∃ h, m.handle i = some h) ∧ ∀ x, p = some x → ∃ c, m.refCount x = some c
  | .destroy i => ∃ h, m.handle i = some h ∧ h.owner = none
  | .docking p => ∀ x, p = some x → x ∈ m.undocked
  | .undockingResponsibility i | .cancleUndockingResponsibility i => ∃ h, m.handle i = some h

def HasRoom (m : Memory) (p : Option ObjId) : Prop :=
  ∀ x c, p = some x → m.refCount x = some c → c + 1 < 2 ^ 31

/-- What the operations that `dec` comes first in need. -/
def SpOp.Meets (m : Memory) : SpOp → Prop
  | .construct p | .undocking p | .docking p => HasRoom m p
  | .copy j => ∀ h, m.handle j = some h → HasRoom m h.ptr
  | .assign i j => (i = j → ∀ h, m.handle i = some h → h.ptr = none) ∧ Outside m i i ∧
      Outside m i j ∧ ∀ h, m.handle j = some h → HasRoom m h.ptr
  | .assignPtr i p => Outside m i i ∧ (∀ x, p = some x → ¬ Dies m i x) ∧ HasRoom m p
  | _ => True

/-- An object that is there is deleted exactly when its last reference goes, and an object
that is gone does not come back. -/
structure Deletes (m m' : Memory) : Prop where
  deleted_iff : ∀ x c, m.refCount x = some c →
    (m'.refCount x = none ↔ 0 < m.number x ∧ m'.number x = 0)
  once : ∀ x, x < m.counts.length → m.refCount x = none → m'.refCount x = none

def Memory.pointee (m : Memory) (i : Loc) : Option ObjId :=
  (m.handle i).bind Sp.ptr

theorem Memory.pointee_set (hi : m.handle i = some s) (hm : m'.handles = m.handles.set i (some h)) :
    m'.pointee i = h.ptr := by
  rw [Memory.pointee, Memory.handle, hm, get_set_self (lt_of_get hi)]
  rfl

/-- What an assignment makes of its destination. -/
def Assigns (m m' : Memory) : SpOp → Prop
  | .assign i j => m'.pointee i = m.pointee j
  | .assignPtr i p => m'.pointee i = p
  | _ => True

theorem Counted.number_eq_zero (hc : Counted m) (hx : m.refCount x = none) : m.number x = 0 := by
  have hheld : m.holders x = ∅ := by
    refine Finset.eq_empty_of_forall_notMem fun k hk => ?_
    obtain ⟨h, hk, hp⟩ := Memory.mem_holders.mp hk
    obtain ⟨c, hc'⟩ := hc.target k h x hk hp
    rw [hx] at hc'
    cases hc'
  have hundocked : m.undocked.count x = 0 := by
    refine List.count_eq_zero.mpr fun hmem => ?_
    obtain ⟨c, hc'⟩ := hc.undocked_live x hmem
    rw [hx] at hc'
    cases hc'
  rw [Memory.number, hheld, hundocked]
  rfl

/-- No reference is given back. -/
structure Grows (m m' : Memory) : Prop where
  live : ∀ x c, m.refCount x = some c → ∃ c', m'.refCount x = some c'
  once : ∀ x, x < m.counts.length → m.refCount x = none → m'.refCount x = none
  number_le : ∀ x, m.number x ≤ m'.number x

structure OneMore (p : Option ObjId) (m m' : Memory) : Prop extends Grows m m' where
  undocked : m'.undocked = m.undocked
  size : m'.counts.length = m.counts.length
  others : ∀ y, p ≠ some y → m'.refCount y = m.refCount y

namespace Grows

theorem refl (m : Memory) : Grows m m :=
  ⟨fun _ c hx => ⟨c, hx⟩, fun _ _ h => h, fun _ => le_rfl⟩

theorem trans (h₁ : Grows m m₁) (h₂ : Grows m₁ m') (hsize : m₁.counts.length = m.counts.length) :
    Grows m m' := by
  refine ⟨fun x c hx => ?_, fun x hlt hx => h₂.once x (hsize ▸ hlt) (h₁.once x hlt hx),
    fun x => (h₁.number_le x).trans (h₂.number_le x)⟩
  obtain ⟨c₁, hx₁⟩ := h₁.live x c hx
  exact h₂.live x c₁ hx₁

end Grows

namespace Deletes

theorem refl (m : Memory) : Deletes m m := by
  refine ⟨fun x c hx => iff_of_false ?_ ?_, fun _ _ h => h⟩
  · rw [hx]
    exact Option.some_ne_none c
  · rintro ⟨hpos, h0⟩
    exact hpos.ne' h0

theorem grow (hd : Deletes m m₁) (hc' : Counted m') (hg : Grows m₁ m')
    (hsize : m₁.counts.length = m.counts.length) : Deletes m m' := by
  refine ⟨fun x c hx => ⟨fun hnone => ?_, fun ⟨hpos, h0⟩ => ?_⟩, fun x hlt hx => ?_⟩
  · have hnone₁ : m₁.refCount x = none := by
      by_contra hne
      obtain ⟨c₁, hc₁⟩ := Option.ne_none_iff_exists'.mp hne
      obtain ⟨c', hc''⟩ := hg.live x c₁ hc₁
      rw [hnone] at hc''
      cases hc''
    exact ⟨((hd.deleted_iff x c hx).mp hnone₁).1, hc'.number_eq_zero hnone⟩
  · have hle := hg.number_le x
    have hnone₁ := (hd.deleted_iff x c hx).mpr ⟨hpos, by omega⟩
    exact hg.once x (hsize ▸ lt_of_get hx) hnone₁
  · exact hg.once x (hsize ▸ hlt) (hd.once x hlt hx)

/-- An operation whose references are given back behind a first part that gives back none. -/
theorem after (hd : Deletes m₁ m') (hlive : ∀ x c, m.refCount x = some c →
    ∃ c', m₁.refCount x = some c' ∧ (0 < m₁.number x ↔ 0 < m.number x))
    (honce : ∀ x, x < m.counts.length → m.refCount x = none → m₁.refCount x = none)
    (hsize : m₁.counts.length = m.counts.length) : Deletes m m' := by
  refine ⟨fun x c hx => ?_, fun x hlt hx => hd.once x (hsize ▸ hlt) (honce x hlt hx)⟩
  obtain ⟨c', hx', hpos⟩ := hlive x c hx
  rw [hd.deleted_iff x c' hx', hpos]

theorem of_grows (hc' : Counted m') (hg : Grows m m') : Deletes m m' :=
  (refl m).grow hc' hg rfl

theorem of_released (hc : Counted m) (hc' : Counted m') (hr : Released m i m') : Deletes m m' := by
  refine ⟨fun x c hx => ⟨fun hnone => ?_, fun ⟨hpos, h0⟩ => ?_⟩, fun x _ hx => ?_⟩
  · refine ⟨?_, hc'.number_eq_zero hnone⟩
    cases hr.deleted x c hx hnone with
    | intro held => exact Nat.add_pos_left (Finset.card_pos.mpr held) _
  · by_contra hne
    obtain ⟨c', hx'⟩ := Option.ne_none_iff_exists'.mp hne
    have hcount := hc'.count x c' hx'
    rw [h0] at hcount
    subst hcount
    have hzero := hc.count x 0 (hr.zero x hx')
    omega
  · by_contra hne
    obtain ⟨c', hx'⟩ := Option.ne_none_iff_exists'.mp hne
    obtain ⟨c, hc₀, -⟩ := hr.before x c' hx'
    rw [hx] at hc₀
    cases hc₀

end Deletes

namespace Counted

/-- A reference goes into a handle that holds none. -/
theorem fill (hc : Counted m) (hi : m.handle i = some s) (hs : s.ptr = none)
    (hp : ∀ x, p = some x → ∃ c, m.refCount x = some c) (hroom : HasRoom m p) :
    ∃ m', (do let m ← m.setPtr i p; m.incPtr p) = some m' ∧ Counted m' ∧ OneMore p m m' ∧
      m'.handles = m.handles.set i (some { s with ptr := p }) := by
  have hset : m.setPtr i p = some ⟨m.handles.set i (some { s with ptr := p }), m.counts, m.undocked⟩ := by
    rw [Memory.setPtr, hi]
    rfl
  simp only [hset, Option.bind_eq_bind, Option.bind_some]
  rcases p with _ | x
  · have hsame : m.handles.set i (some { s with ptr := none }) = m.handles := by
      rw [← hs]
      exact set_get hi
    refine ⟨m, ?_, hc, ⟨⟨fun x c hx => ⟨c, hx⟩, fun _ _ h => h, fun _ => le_rfl⟩, rfl, rfl,
      fun _ _ => rfl⟩, hsame.symm⟩
    rw [hsame]
    rfl
  · obtain ⟨c, hx⟩ := hp x rfl
    have hlt : x < m.counts.length := lt_of_get hx
    have hinc : Memory.incPtr ⟨m.handles.set i (some { s with ptr := some x }), m.counts, m.undocked⟩
        (some x) = some ⟨m.handles.set i (some { s with ptr := some x }),
          m.counts.set x (some (c + 1)), m.undocked⟩ := by
      rw [Memory.incPtr, Memory.incRefCount]
      rw [show Memory.refCount ⟨m.handles.set i (some { s with ptr := some x }), m.counts, m.undocked⟩ x
        = some c from hx]
      exact if_pos (hroom x c rfl hx)
    have hput := (hc.ref hx).put (i := i) (s := s) (x := x) hi hs List.mem_cons_self
    rw [List.erase_cons_head] at hput
    refine ⟨_, hinc, hput, ⟨⟨fun y c' hy => ?_, fun y _ hy => ?_, fun y => ?_⟩, rfl,
      List.length_set, fun y hy => get_set_ne (fun heq => hy (congrArg some heq)) _⟩, rfl⟩
    · rw [Memory.refCount, get_set hlt]
      split
      · exact ⟨_, rfl⟩
      · exact ⟨c', hy⟩
    · have hxy : x ≠ y := by
        rintro rfl
        rw [hx] at hy
        cases hy
      exact (get_set_ne hxy _).trans hy
    · rw [number_set hi]
      refine Nat.add_le_add_right ?_ _
      split
      · exact Finset.card_le_card (Finset.subset_insert _ _)
      · rw [Finset.erase_eq_of_notMem]
        intro hmem
        obtain ⟨h, hi', hp⟩ := Memory.mem_holders.mp hmem
        obtain rfl := Option.some.inj (hi.symm.trans hi')
        rw [hs] at hp
        cases hp

theorem grows_append (m : Memory) :
    Grows m ⟨m.handles ++ [some ⟨none, false, none⟩], m.counts, m.undocked⟩ :=
  ⟨fun _ c hx => ⟨c, hx⟩, fun _ _ h => h, fun y => by rw [number_append, Memory.number]⟩

/-- `sp::sp(T*)`. -/
theorem construct (hc : Counted m) (hp : ∀ x, p = some x → ∃ c, m.refCount x = some c)
    (hroom : HasRoom m p) :
    ∃ m', m.construct p = some m' ∧ Counted m' ∧ OneMore p m m' ∧
      m'.handles = m.handles ++ [some ⟨p, false, none⟩] := by
  set m₀ : Memory := ⟨m.handles ++ [some ⟨none, false, none⟩], m.counts, m.undocked⟩ with hm₀
  have hnew : m₀.handle m.handles.length = some ⟨none, false, none⟩ := get_append_length _
  obtain ⟨m', hrun, hc', hmore, hhandles⟩ := hc.append.fill hnew rfl hp hroom
  have hset : m₀.handles.set m.handles.length (some ⟨p, false, none⟩) =
      m.handles ++ [some ⟨p, false, none⟩] := by
    rw [hm₀, List.set_append_right _ _ le_rfl, Nat.sub_self, List.set_cons_zero]
  refine ⟨m', ?_, hc', ⟨⟨fun x c hx => hmore.live x c hx, fun x hlt hx => hmore.once x hlt hx,
    fun y => ((grows_append m).number_le y).trans (hmore.number_le y)⟩, hmore.undocked, hmore.size,
    hmore.others⟩, hhandles.trans hset⟩
  have hstep : m₀.setPtr m.handles.length p =
      some ⟨m.handles ++ [some ⟨p, false, none⟩], m.counts, m.undocked⟩ := by
    rw [Memory.setPtr, hnew, ← hset]
    rfl
  rw [hstep] at hrun
  simp only [Option.bind_eq_bind, Option.bind_some] at hrun
  rcases p with _ | x
  · exact hrun
  · -- the count is taken before or after the handle is made
    obtain ⟨c, hx⟩ := hp x rfl
    have hx' : Memory.refCount ⟨m.handles ++ [some ⟨some x, false, none⟩], m.counts, m.undocked⟩ x =
      some c := hx
    rw [Memory.incPtr, Memory.incRefCount, hx'] at hrun
    rw [Memory.construct, Memory.incPtr, Memory.incRefCount, hx]
    simp only [Option.bind_eq_bind, Option.bind_some, if_pos (hroom x c rfl hx)] at hrun ⊢
    exact hrun

/-- A handle that holds nothing gives nothing back. -/
theorem dec_null (hi : m.handle i = some s) (hs : s.ptr = none) : m.dec i = some m := by
  have hsame : m.setPtr i none = some m := by
    rw [Memory.setPtr, hi]
    simp only [Option.bind_eq_bind, Option.bind_some]
    rw [← hs, set_get hi]
  rw [Memory.dec, Memory.decFuel, hi]
  simp only [Option.bind_eq_bind, Option.bind_some, Memory.release, hs, hsame]

/-- `sp::~sp` of a handle that is no member. -/
theorem destroy (hc : Counted m) (hi : m.handle i = some s) (hroot : s.owner = none) :
    ∃ m₁ m', Released m i m₁ ∧ m.destroy i = some m' ∧ Counted m' ∧ Deletes m m' ∧
      m' = ⟨m₁.handles.set i none, m₁.counts, m₁.undocked⟩ := by
  have hout : Outside m i i := by
    intro h o hi' ho
    obtain rfl := Option.some.inj (hi.symm.trans hi')
    rw [hroot] at ho
    cases ho
  obtain ⟨m₁, hdec, hc₁, hr⟩ := dec_counted hc hi hout
  have hi₁ := hr.nulled s hi
  have hc' := hc₁.drop hi₁ rfl
  refine ⟨m₁, _, hr, ?_, hc', ?_, rfl⟩
  · rw [Memory.destroy, hdec]
    simp only [Option.bind_eq_bind, Option.bind_some, Memory.drop, hi₁]
  · refine (Deletes.of_released hc hc₁ hr).grow hc' ⟨fun x c hx => ⟨c, hx⟩, fun _ _ h => h,
      fun y => ?_⟩ hr.size
    have hnot : i ∉ m₁.holders y := by
      intro hmem
      obtain ⟨h, hi', hp⟩ := Memory.mem_holders.mp hmem
      obtain rfl := Option.some.inj (hi₁.symm.trans hi')
      cases hp
    rw [number_drop, Memory.number, Finset.erase_eq_of_notMem hnot]

/-- `sp::undocking`. -/
theorem undocking (hc : Counted m) (hp : ∀ x, p = some x → ∃ c, m.refCount x = some c)
    (hroom : HasRoom m p) :
    ∃ m', m.undocking p = some m' ∧ Counted m' ∧ Grows m m' ∧
      m'.handles = m.handles ++ [none] ∧ m'.undocked = p.toList ++ m.undocked ∧
      m'.counts.length = m.counts.length := by
  obtain ⟨m₁, hrun, hc₁, hmore, hhandles⟩ := hc.construct hp hroom
  have hnew : m₁.handle m.handles.length = some ⟨p, false, none⟩ := by
    rw [Memory.handle, hhandles]
    exact get_append_length _
  set m₂ : Memory := ⟨m₁.handles.set m.handles.length (some ⟨none, false, none⟩), m₁.counts,
    p.toList ++ m₁.undocked⟩ with hm₂
  have hc₂ : Counted m₂ := by
    rcases p with _ | x
    · rw [hm₂, set_get hnew]
      exact hc₁
    · exact hc₁.take hnew rfl
  have hdock : m₂.handle m.handles.length = some ⟨none, false, none⟩ :=
    get_set_self (lt_of_get hnew) _
  have hlast : m₂.handles.set m.handles.length none = m.handles ++ [none] := by
    rw [hm₂, hhandles, List.set_set, List.set_append_right _ _ le_rfl, Nat.sub_self,
      List.set_cons_zero]
  refine ⟨_, ?_, hc₂.drop hdock rfl, ⟨fun x c hx => hmore.live x c hx,
    fun x hlt hx => hmore.once x hlt hx, fun y => ?_⟩, hlast, by rw [hm₂, hmore.undocked], hmore.size⟩
  · rw [Memory.undocking, hrun]
    simp only [Option.bind_eq_bind, Option.bind_some, Memory.setPtr, hnew]
    rw [Memory.destroy, ← hm₂, dec_null hdock rfl]
    simp only [Option.bind_eq_bind, Option.bind_some, Memory.drop, hdock]
  · -- the reference has gone from the handle to the undocked ones
    rw [hlast, hm₂, hmore.undocked, Memory.number, Memory.number, Memory.holders, Memory.holders]
    dsimp only
    rw [places_append_none, List.count_append]
    omega

/-- What `docking` does to the handles: one is new, and an object that is deleted takes its
members with it. -/
structure Docked (p : Option ObjId) (m m' : Memory) : Prop where
  result : m'.handle (m.handles.length + 1) = some ⟨p, false, none⟩
  origin : ∀ j h, m'.handle j = some h → j ≠ m.handles.length + 1 → m.handle j = some h
  roots : ∀ j h, m.handle j = some h → h.owner = none → m'.handle j = some h
  undocked : (∀ j h, m.handle j = some h → h.undockingResponsibility = false) →
    m'.undocked = m.undocked.diff p.toList
  size : m'.counts.length = m.counts.length

/-- `sp::docking`: the reference goes through `dock`, and the new handle has one of its own. -/
theorem docking (hc : Counted m) (hp : ∀ x, p = some x → x ∈ m.undocked) (hroom : HasRoom m p) :
    ∃ m', m.docking p = some m' ∧ Counted m' ∧ Deletes m m' ∧ Docked p m m' := by
  set dock := m.handles.length with hdock
  set m₁ : Memory := ⟨m.handles ++ [some ⟨none, false, none⟩], m.counts, m.undocked⟩ with hm₁
  have hrun₁ : m.construct none = some m₁ := rfl
  have hlive : ∀ x, p = some x → ∃ c, m₁.refCount x = some c := fun x hx =>
    hc.undocked_live x (hp x hx)
  obtain ⟨m₂, hrun₂, hc₂, hmore, hhandles⟩ := hc.append.construct hlive hroom
  have hrun₂' : m₁.construct p = some m₂ := hrun₂
  have hlen : m₁.handles.length = dock + 1 := by
    rw [hm₁, List.length_append, List.length_singleton]
  have hd₁ : m₁.handle dock = some ⟨none, false, none⟩ := get_append_length _
  have hd₂ : m₂.handle dock = some ⟨none, false, none⟩ := by
    rw [Memory.handle, hhandles, get_append_lt (lt_of_get hd₁)]
    exact hd₁
  have hn₂ : m₂.handle (dock + 1) = some ⟨p, false, none⟩ := by
    rw [Memory.handle, hhandles, ← hlen]
    exact get_append_length _
  set m₃ : Memory := ⟨m₂.handles.set dock (some ⟨p, false, none⟩), m₂.counts,
    m₂.undocked.diff p.toList⟩ with hm₃
  have hc₃ : Counted m₃ := by
    rcases p with _ | x
    · rw [hm₃, set_get hd₂, Option.toList_none, List.diff_nil]
      exact hc₂
    · rw [hm₃, Option.toList_some, List.diff_cons, List.diff_nil]
      exact hc₂.put hd₂ rfl (hmore.undocked ▸ hp x rfl)
  have hd₃ : m₃.handle dock = some ⟨p, false, none⟩ := get_set_self (lt_of_get hd₂) _
  have hn₃ : m₃.handle (dock + 1) = some ⟨p, false, none⟩ :=
    (get_set_ne (Nat.succ_ne_self dock).symm _).trans hn₂
  obtain ⟨m₄, m', hr, hrun₃, hc', hdel, hm'⟩ := hc₃.destroy hd₃ rfl
  have hn₄ : m₄.handle (dock + 1) = some ⟨p, false, none⟩ := by
    refine hr.kept _ _ hn₃ (Nat.succ_ne_self dock) fun h o hj ho => ?_
    obtain rfl := Option.some.inj (hn₃.symm.trans hj)
    cases ho
  -- the handles of `m₃` but the two new ones are those of `m`
  have horigin₃ : ∀ j h, m₃.handle j = some h → j = dock ∨ j = dock + 1 ∨ m.handle j = some h := by
    intro j h hj
    rw [hm₃, Memory.handle, get_set (lt_of_get hd₂), hhandles] at hj
    split at hj
    next heq => exact .inl heq.symm
    next hjd =>
      rw [get_append] at hj
      split at hj
      next heq => exact .inr (.inl (heq.trans hlen))
      next =>
        dsimp only at hj
        rw [get_append, if_neg (Ne.symm hjd)] at hj
        exact .inr (.inr hj)
  have hkeeps₃ : ∀ j h, m.handle j = some h → m₃.handle j = some h ∧ j ≠ dock := by
    intro j h hj
    have hlt : j < dock := lt_of_get hj
    refine ⟨?_, hlt.ne⟩
    rw [hm₃, Memory.handle, get_set_ne hlt.ne', hhandles,
      get_append_lt (hlt.trans (hlen ▸ Nat.lt_succ_self dock))]
    exact (get_append_lt hlt _).trans hj
  refine ⟨m', ?_, hc', hdel.after ?_ ?_ hmore.size, ⟨?_, fun j h hj hjn => ?_, fun j h hj ho => ?_,
    ?_, ?_⟩⟩
  · rw [Memory.docking, hrun₁]
    have hset : Memory.setPtr ⟨m₂.handles, m₂.counts, m₂.undocked.diff p.toList⟩ dock p = some m₃ := by
      rw [Memory.setPtr, show Memory.handle ⟨m₂.handles, m₂.counts, m₂.undocked.diff p.toList⟩ dock =
        some ⟨none, false, none⟩ from hd₂]
      rfl
    simp only [Option.bind_eq_bind, Option.bind_some, ← hdock, hrun₂', dec_null hd₂ rfl, hset, hrun₃]
  · intro y c hy
    obtain ⟨c', hy₂⟩ := hmore.live y c hy
    have hsame : (m₃.number y : Int) = m₂.number y := by
      rw [← hc₃.count y c' hy₂, ← hc₂.count y c' hy₂]
    have hle := ((grows_append m).number_le y).trans (hmore.number_le y)
    refine ⟨c', hy₂, fun hpos => ?_, fun hpos => by omega⟩
    by_contra hzero
    have hnot : y ∉ m.undocked := by
      intro hmem
      have := List.count_pos_iff.mpr hmem
      rw [Memory.number] at hzero
      omega
    -- an object nothing refers to is not the one that is docked
    rw [hmore.others y fun heq => hnot (hp y heq)] at hy₂
    have hcount := hc.count y c' hy₂
    have hcount₃ := hc₃.count y c' ((hmore.others y fun heq => hnot (hp y heq)).trans hy₂)
    omega
  · intro y hlt hy
    exact hmore.once y hlt hy
  · rw [Memory.handle, hm', get_set_ne (Nat.succ_ne_self dock).symm]
    exact hn₄
  · rw [hm', Memory.handle, get_set (lt_of_get (hr.nulled _ hd₃))] at hj
    split at hj
    next => cases hj
    next hjd =>
      have horigin := horigin₃ j h (hr.origin j h hj (Ne.symm hjd))
      exact (horigin.resolve_left (Ne.symm hjd)).resolve_left hjn
  · obtain ⟨hj₃, hjd⟩ := hkeeps₃ j h hj
    rw [hm', Memory.handle, get_set_ne hjd.symm]
    refine hr.kept j h hj₃ hjd fun h' o hj' ho' => ?_
    obtain rfl := Option.some.inj (hj₃.symm.trans hj')
    rw [ho] at ho'
    cases ho'
  · intro hall
    rw [hm']
    refine (hr.same_undocked fun j h hj => ?_).trans (by rw [hm₃, hmore.undocked])
    rcases horigin₃ j h hj with rfl | rfl | hj'
    · obtain rfl := Option.some.inj (hd₃.symm.trans hj)
      rfl
    · obtain rfl := Option.some.inj (hn₃.symm.trans hj)
      rfl
    · exact hall j h hj'
  · rw [hm']
    exact hr.size.trans hmore.size

/-- `sp::operator=(T*)`. -/
theorem assignPtr (hc : Counted m) (hi : m.handle i = some s)
    (hp : ∀ x, p = some x → ∃ c, m.refCount x = some c) (hout : Outside m i i)
    (hstays : ∀ x, p = some x → ¬ Dies m i x) (hroom : HasRoom m p) :
    ∃ m₁ m', m.dec i = some m₁ ∧ Released m i m₁ ∧
      (do let m ← m₁.setPtr i p; m.incPtr p) = some m' ∧ Counted m' ∧ Deletes m m' ∧
      m'.undocked = m₁.undocked ∧ m'.handles = m₁.handles.set i (some { s with ptr := p }) := by
  obtain ⟨m₁, hdec, hc₁, hr⟩ := dec_counted hc hi hout
  have hi₁ := hr.nulled s hi
  obtain ⟨m', hrun, hc', hmore, hhandles⟩ := hc₁.fill (p := p) hi₁ rfl (fun x hx => by
      obtain ⟨c, hx'⟩ := hp x hx
      by_contra hnone
      refine hstays x hx (hr.deleted x c hx' ?_)
      by_contra hne
      exact hnone (Option.ne_none_iff_exists'.mp hne))
    (fun x c hx hx₁ => by
      obtain ⟨c₀, hx₀, hle⟩ := hr.before x c hx₁
      have := hroom x c₀ hx hx₀
      omega)
  refine ⟨m₁, m', hdec, hr, hrun, hc',
    (Deletes.of_released hc hc₁ hr).grow hc' hmore.toGrows hr.size, hmore.undocked, hhandles⟩

/-- `sp::operator=(const sp&)`. A handle that is assigned to itself must hold nothing. -/
theorem assign (hc : Counted m) (hi : m.handle i = some s) (hj : m.handle j = some h)
    (hself : i = j → ∀ h, m.handle i = some h → h.ptr = none) (hout : Outside m i i)
    (hsource : Outside m i j) (hroom : HasRoom m h.ptr) :
    ∃ m₁ m', Released m i m₁ ∧ m.assign i j = some m' ∧ Counted m' ∧ Deletes m m' ∧
      m'.undocked = m₁.undocked ∧ m'.handles = m₁.handles.set i (some { s with ptr := h.ptr }) := by
  have hnot : ∀ x, h.ptr = some x → ¬ Dies m i x := by
    intro x hx hdies
    cases hdies with
    | intro held docked given inner dies =>
      by_cases hji : j = i
      · subst hji
        rw [hself rfl h hj] at hx
        cases hx
      · obtain ⟨o, ho⟩ := Option.ne_none_iff_exists'.mp (inner j h hj hx hji)
        exact hsource h o hj ho (dies j h o hj hx hji ho)
  obtain ⟨m₁, m', hdec, hr, hrun, hc', hdel, hundocked, hhandles⟩ := hc.assignPtr hi
    (fun x hx => hc.target j h x hj hx) hout hnot hroom
  have hj₁ : m₁.handle j = some h := by
    by_cases hji : j = i
    · subst hji
      obtain rfl := Option.some.inj (hi.symm.trans hj)
      rw [hr.nulled s hi, ← hself rfl s hi]
    · exact hr.kept j h hj hji hsource
  refine ⟨m₁, m', hr, ?_, hc', hdel, hundocked, hhandles⟩
  rw [Memory.assign, hdec]
  simp only [Option.bind_eq_bind, Option.bind_some, hj₁]
  exact hrun

/-- `sp::undocking_responsibility` and its counterpart leave the pointer alone. -/
theorem setResponsibility (hc : Counted m) (hi : m.handle i = some s) (b : Bool) :
    ∃ m', m.setResponsibility i b = some m' ∧ Counted m' ∧ Grows m m' := by
  have hnumber : ∀ y, Memory.number ⟨m.handles.set i (some { s with undockingResponsibility := b }),
      m.counts, m.undocked⟩ y = m.number y := by
    intro y
    rw [number_set hi, Memory.number]
    split
    next hp => rw [Finset.insert_eq_of_mem (Memory.mem_holders.mpr ⟨s, hi, hp⟩)]
    next hp =>
      rw [Finset.erase_eq_of_notMem]
      intro hmem
      obtain ⟨h, hi', hp'⟩ := Memory.mem_holders.mp hmem
      obtain rfl := Option.some.inj (hi.symm.trans hi')
      exact hp hp'
  have hsome : ∀ k h, get (m.handles.set i (some { s with undockingResponsibility := b })) k = some h →
      ∃ h', m.handle k = some h' ∧ h'.ptr = h.ptr ∧ h'.owner = h.owner := by
    intro k h hk
    rw [get_set (lt_of_get hi)] at hk
    split at hk
    next heq =>
      obtain rfl := Option.some.inj hk
      exact ⟨s, heq ▸ hi, rfl, rfl⟩
    next => exact ⟨h, hk, rfl, rfl⟩
  refine ⟨⟨m.handles.set i (some { s with undockingResponsibility := b }), m.counts, m.undocked⟩,
    ?_, ⟨fun y c hy => ?_, fun k h y hk hp => ?_, hc.undocked_live, fun k h o hk ho => ?_⟩,
    ⟨fun x c hx => ⟨c, hx⟩, fun _ _ h => h, fun y => (hnumber y).ge⟩⟩
  · rw [Memory.setResponsibility, hi]
    rfl
  · rw [hnumber]
    exact hc.count y c hy
  · obtain ⟨h', hk', hp', -⟩ := hsome k h hk
    exact hc.target k h' y hk' (hp'.trans hp)
  · obtain ⟨h', hk', -, ho'⟩ := hsome k h hk
    exact hc.owned k h' o hk' (ho'.trans ho)

/-- `new T`: the members hold nothing, and nothing points to the object. -/
theorem create (hc : Counted m) (k : Nat) : Counted (m.create k) ∧ Grows m (m.create k) := by
  have hsome : ∀ {j h}, (m.create k).handle j = some h →
      m.handle j = some h ∨ h = ⟨none, false, some m.counts.length⟩ := by
    intro j h hj
    rw [Memory.handle, Memory.create, Store.get] at hj
    dsimp only at hj
    rw [List.getElem?_append] at hj
    split at hj
    · exact .inl hj
    · rw [List.getElem?_replicate] at hj
      split at hj
      · exact .inr (Option.some.inj hj).symm
      · cases hj
  have hholders : ∀ y, (m.create k).holders y = m.holders y := by
    intro y
    ext j
    rw [Memory.mem_holders, Memory.mem_holders]
    constructor
    · rintro ⟨h, hj, hp⟩
      rcases hsome hj with hj | rfl
      · exact ⟨h, hj, hp⟩
      · cases hp
    · rintro ⟨h, hj, hp⟩
      exact ⟨h, (get_append_lt (lt_of_get hj) _).trans hj, hp⟩
  have hnumber : ∀ y, (m.create k).number y = m.number y := fun y => by
    rw [Memory.number, hholders]
    rfl
  have hlive : ∀ y c, m.refCount y = some c → (m.create k).refCount y = some c := fun y c hy =>
    (get_append_lt (lt_of_get hy) _).trans hy
  refine ⟨⟨fun y c hy => ?_, fun j h y hj hp => ?_, fun y hy => ?_, fun j h o hj ho => ?_⟩,
    ⟨fun x c hx => ⟨c, hlive x c hx⟩, fun x hlt hx => (get_append_lt hlt _).trans hx,
      fun y => (hnumber y).ge⟩⟩
  · rw [hnumber]
    rw [Memory.refCount, Memory.create, get_append] at hy
    split at hy
    next heq =>
      rw [← Option.some.inj hy, hc.number_eq_zero (by rw [heq]; exact get_of_le le_rfl)]
      rfl
    next => exact hc.count y c hy
  · rcases hsome hj with hj | rfl
    · obtain ⟨c, hy⟩ := hc.target j h y hj hp
      exact ⟨c, hlive y c hy⟩
    · cases hp
  · obtain ⟨c, hy⟩ := hc.undocked_live y hy
    exact ⟨c, hlive y c hy⟩
  · rcases hsome hj with hj | rfl
    · obtain ⟨c, hy⟩ := hc.owned j h o hj ho
      exact ⟨c, hlive o c hy⟩
    · obtain rfl := Option.some.inj ho
      exact ⟨0, get_append_length _⟩

end Counted

/-! ## Runs -/

/-- What an operation does to the counts, and an assignment to its destination. -/
structure StepOk (m m' : Memory) (op : SpOp) : Prop where
  counted : Counted m'
  deletes : Deletes m m'
  assigns : Assigns m m' op

/-- Every operation that meets its condition ends, keeps every count right, deletes what has
lost its last reference and nothing else, and an assignment gives the destination what the
source pointed to. -/
theorem exec_counted {op : SpOp} (hc : Counted m) (hvalid : op.Valid m) (hmeets : op.Meets m) :
    ∃ m', m.exec op = some m' ∧ StepOk m m' op := by
  cases op with
  | create k =>
    obtain ⟨hc', hgrows⟩ := hc.create k
    exact ⟨_, rfl, hc', .of_grows hc' hgrows, trivial⟩
  | construct p =>
    obtain ⟨m', hrun, hc', hmore, -⟩ := hc.construct hvalid hmeets
    exact ⟨m', hrun, hc', .of_grows hc' hmore.toGrows, trivial⟩
  | copy j =>
    obtain ⟨h, hj⟩ := hvalid
    obtain ⟨m', hrun, hc', hmore, -⟩ := hc.construct (fun x hx => hc.target j h x hj hx) (hmeets h hj)
    refine ⟨m', ?_, hc', .of_grows hc' hmore.toGrows, trivial⟩
    rw [Memory.exec, Memory.copy, hj]
    exact hrun
  | assign i j =>
    obtain ⟨⟨s, hi⟩, h, hj⟩ := hvalid
    obtain ⟨hself, hout, hsource, hroom⟩ := hmeets
    obtain ⟨m₁, m', hr, hrun, hc', hdel, -, hhandles⟩ := hc.assign hi hj hself hout hsource (hroom h hj)
    refine ⟨m', hrun, hc', hdel, ?_⟩
    show m'.pointee i = m.pointee j
    rw [Memory.pointee_set (hr.nulled s hi) hhandles, Memory.pointee, hj]
    rfl
  | assignPtr i p =>
    obtain ⟨⟨s, hi⟩, hp⟩ := hvalid
    obtain ⟨hout, hstays, hroom⟩ := hmeets
    obtain ⟨m₁, m', hdec, hr, hrun, hc', hdel, -, hhandles⟩ := hc.assignPtr hi hp hout hstays hroom
    have hptr := Memory.pointee_set (hr.nulled s hi) hhandles
    refine ⟨m', ?_, hc', hdel, hptr⟩
    rw [Memory.exec, Memory.assignPtr, hdec]
    exact hrun
  | destroy i =>
    obtain ⟨s, hi, hroot⟩ := hvalid
    obtain ⟨m₁, m', hr, hrun, hc', hdel, -⟩ := hc.destroy hi hroot
    exact ⟨m', hrun, hc', hdel, trivial⟩
  | undocking p =>
    obtain ⟨m', hrun, hc', hgrows, -⟩ := hc.undocking hvalid hmeets
    exact ⟨m', hrun, hc', .of_grows hc' hgrows, trivial⟩
  | docking p =>
    obtain ⟨m', hrun, hc', hdel, -⟩ := hc.docking hvalid hmeets
    exact ⟨m', hrun, hc', hdel, trivial⟩
  | undockingResponsibility i | cancleUndockingResponsibility i =>
    obtain ⟨s, hi⟩ := hvalid
    obtain ⟨m', hrun, hc', hgrows⟩ := hc.setResponsibility hi _
    exact ⟨m', hrun, hc', .of_grows hc' hgrows, trivial⟩

theorem Counted.empty : Counted Memory.empty := by
  refine ⟨?_, ?_, ?_, ?_⟩ <;> simp [Memory.empty, Memory.refCount, Memory.handle, Store.get]

def SpStep (Allowed : Memory → SpOp → Prop) (m m' : Memory) : Prop :=
  ∃ op, SpOp.Valid m op ∧ Allowed m op ∧ m.exec op = some m'

/-- In every run whose operations meet their condition the count of every object is the
number of its references, and the next such operation ends, deletes exactly what has lost
its last reference, and assigns what its source pointed to. -/
theorem sp_run_counted
    (hrun : ReflTransGen (SpStep fun m op => op.Meets m) Memory.empty m) :
    Counted m ∧ ∀ op, SpOp.Valid m op → SpOp.Meets m op →
      ∃ m', m.exec op = some m' ∧ StepOk m m' op := by
  have hc : Counted m := by
    induction hrun with
    | refl => exact Counted.empty
    | tail _ hstep ih =>
      obtain ⟨op, hvalid, hmeets, hexec⟩ := hstep
      obtain ⟨m', hrun, hok⟩ := exec_counted ih hvalid hmeets
      exact Option.some.inj (hrun.symm.trans hexec) ▸ hok.counted
  exact ⟨hc, fun op hvalid hmeets => exec_counted hc hvalid hmeets⟩

def exHeld : Memory := ⟨[some ⟨some 0, false, none⟩], [some 1], []⟩

theorem sp_run_counted_held :
    Counted exHeld ∧ ∀ op, SpOp.Valid exHeld op → SpOp.Meets exHeld op →
      ∃ m', exHeld.exec op = some m' ∧ StepOk exHeld m' op := by
  refine sp_run_counted (.tail (.single ⟨.create 0, trivial, trivial, rfl⟩)
    ⟨.construct (some 0), ?_, ?_, by decide⟩)
  · rintro x ⟨⟩
    exact ⟨0, rfl⟩
  · rintro x c ⟨⟩ hc
    obtain rfl := Option.some.inj hc
    decide

/-- A handle is assigned to itself: it is `NULL` afterwards, and its object is gone. -/
theorem sp_assign_self :
    ∃ m m', ReflTransGen (SpStep fun _ _ => True) Memory.empty m ∧ SpOp.Valid m (.assign 0 0) ∧
      m.exec (.assign 0 0) = some m' ∧ m.pointee 0 = some 0 ∧ m'.pointee 0 = none ∧
        m'.refCount 0 = none := by
  refine ⟨exHeld, ⟨[some ⟨none, false, none⟩], [none], []⟩,
    .tail (.single ⟨.create 0, trivial, trivial, rfl⟩) ⟨.construct (some 0), ?_, trivial, by decide⟩,
    ⟨⟨_, rfl⟩, _, rfl⟩, by decide, by decide, by decide, by decide⟩
  rintro x ⟨⟩
  exact ⟨0, rfl⟩

end Dframework
