import Mathlib
import Dframework.Base.Sp

/-!
# Deleting an object

`sp::dec` on the last reference of an object starts a cascade: the members of the object
give back theirs, and so on. `Dies` says which objects go, from the memory before: those
that only the handle and the members of dying objects point to. `Cascade` is what holds at
every point on the way, with the handles whose `dec` has not come back yet and the objects
whose destructor has not.

Results:
1. `decFuel_cascade`: `dec` ends and keeps `Cascade`, for any nesting.
2. `dec_counted`: `dec` of a handle that is no member of a dying object keeps every count
   right and deletes exactly the objects whose count comes to zero.
-/

namespace Dframework

open Store

variable {m m' m₀ : Memory} {i i₀ j : Loc} {x o : ObjId} {h : Sp} {S : Finset Loc}
  {D : Finset ObjId}

theorem Memory.mem_holders : i ∈ m.holders x ↔ ∃ h, m.handle i = some h ∧ h.ptr = some x := by
  simp [Memory.holders, Memory.handle]

/-- What the counts and the pointers of the memory are between two operations. -/
structure Counted (m : Memory) : Prop where
  count : ∀ x c, m.refCount x = some c → c = m.number x
  target : ∀ i h x, m.handle i = some h → h.ptr = some x → ∃ c, m.refCount x = some c
  undocked_live : ∀ x ∈ m.undocked, ∃ c, m.refCount x = some c
  owned : ∀ i h o, m.handle i = some h → h.owner = some o → ∃ c, m.refCount o = some c

/-- The objects that lose their last reference when handle `i` gives back its own: every
reference to them is that of `i` or of a member of an object that goes, and is given back
with it. -/
inductive Dies (m : Memory) (i : Loc) : ObjId → Prop
  | intro {x : ObjId} (held : (m.holders x).Nonempty) (docked : x ∉ m.undocked)
      (given : ∀ j h, m.handle j = some h → h.ptr = some x → h.undockingResponsibility = false)
      (inner : ∀ j h, m.handle j = some h → h.ptr = some x → j ≠ i → h.owner ≠ none)
      (dies : ∀ j h o, m.handle j = some h → h.ptr = some x → j ≠ i → h.owner = some o →
        Dies m i o) : Dies m i x

/-- What holds on the way of `dec` on handle `i₀` of the memory `m₀`. `S` are the handles
whose `dec` is under way, which have given back their reference; `D` the objects whose
destructor is under way. -/
structure Cascade (m₀ : Memory) (i₀ : Loc) (S : Finset Loc) (D : Finset ObjId) (m : Memory) :
    Prop where
  kept : ∀ j h, m.handle j = some h → j ∉ S → m₀.handle j = some h
  inside : ∀ j ∈ S, ∃ h, m.handle j = some h ∧ (j = i₀ ∨ ∃ o ∈ D, h.owner = some o)
  owner_eq : ∀ j h, m.handle j = some h → ∃ h₀, m₀.handle j = some h₀ ∧ h₀.owner = h.owner
  gone : ∀ j h₀, m₀.handle j = some h₀ → m.handle j = none ∨ j ∈ S →
    j = i₀ ∨ ∃ o, h₀.owner = some o ∧ Dies m₀ i₀ o
  parked : ∀ j h₀ x, m₀.handle j = some h₀ → m.handle j = none ∨ j ∈ S → h₀.ptr = some x →
    h₀.undockingResponsibility = true → x ∈ m.undocked
  undocked_le : m₀.undocked ⊆ m.undocked
  count : ∀ x c, m.refCount x = some c → c = ((m.holders x \ S).card + m.undocked.count x : Nat)
  target : ∀ j h x, m.handle j = some h → j ∉ S → h.ptr = some x → ∃ c, m.refCount x = some c
  undocked_live : ∀ x ∈ m.undocked, ∃ c, m.refCount x = some c
  owned : ∀ j h o, m.handle j = some h → h.owner = some o → ∃ c, m.refCount o = some c
  deleted : ∀ x c, m₀.refCount x = some c → m.refCount x = none → Dies m₀ i₀ x
  before : ∀ x c, m.refCount x = some c → ∃ c₀, m₀.refCount x = some c₀ ∧ c ≤ c₀
  dying : ∀ x ∈ D, Dies m₀ i₀ x ∧ m.refCount x = some 0
  zero : ∀ x, m.refCount x = some 0 → x ∈ D ∨ m₀.refCount x = some 0
  size : m.counts.length = m₀.counts.length
  same_undocked : (∀ j h, m₀.handle j = some h → h.undockingResponsibility = false) →
    m.undocked = m₀.undocked

/-- How many objects can still be deleted. -/
def Memory.positive (m : Memory) : Nat :=
  (places m.counts fun c => 0 < c).card

/-- What `dec` of handle `i` leaves alone while the destructors of `D` are under way. -/
structure Frame (i₀ i : Loc) (D : Finset ObjId) (m m' : Memory) : Prop where
  nulled : ∀ h, m.handle i = some h → m'.handle i = some { h with ptr := none }
  keeps : ∀ j h, j ≠ i → m.handle j = some h → (j = i₀ ∨ ∃ o ∈ D, h.owner = some o) →
    m'.handle j = some h
  absent : ∀ j, m.handle j = none → m'.handle j = none
  positive_le : m'.positive ≤ m.positive

namespace Cascade

theorem start (h : Counted m) : Cascade m i₀ ∅ ∅ m where
  kept _ _ hj _ := hj
  inside _ hj := absurd hj (Finset.notMem_empty _)
  owner_eq _ h hj := ⟨h, hj, rfl⟩
  gone _ _ hj hor := by
    rcases hor with hnone | hmem
    · rw [hj] at hnone
      cases hnone
    · exact absurd hmem (Finset.notMem_empty _)
  parked _ _ _ hj hor := by
    rcases hor with hnone | hmem
    · rw [hj] at hnone
      cases hnone
    · exact absurd hmem (Finset.notMem_empty _)
  undocked_le := List.Subset.refl _
  count x c hc := by
    rw [Finset.sdiff_empty]
    exact h.count x c hc
  target j h' x hj _ hp := h.target j h' x hj hp
  undocked_live := h.undocked_live
  owned := h.owned
  deleted _ _ hc hn := by
    rw [hc] at hn
    cases hn
  before _ c hc := ⟨c, hc, le_rfl⟩
  dying _ hx := absurd hx (Finset.notMem_empty _)
  zero _ hx := .inr hx
  size := rfl
  same_undocked _ := rfl

/-- A handle gives back its reference, or has none: it belongs to the handles on their way
from here on. `m'` differs from `m` in the counts and the undocked references only. -/
theorem suspend {D' : Finset ObjId} (hc : Cascade m₀ i₀ S D m) (hi : m.handle i = some h)
    (hiS : i ∉ S) (hown : i = i₀ ∨ ∃ o ∈ D, h.owner = some o) (hhandles : m'.handles = m.handles)
    (hund : m.undocked ⊆ m'.undocked)
    (hparked : ∀ x, h.ptr = some x → h.undockingResponsibility = true → x ∈ m'.undocked)
    (hlive : ∀ x c, m.refCount x = some c → ∃ c', m'.refCount x = some c')
    (hle : ∀ x c', m'.refCount x = some c' → ∃ c, m.refCount x = some c ∧ c' ≤ c)
    (hcount : ∀ x c, m'.refCount x = some c →
      c = ((m.holders x \ insert i S).card + m'.undocked.count x : Nat))
    (hundocked : ∀ x ∈ m'.undocked, ∃ c, m'.refCount x = some c) (hD : D ⊆ D')
    (hdying : ∀ x ∈ D', Dies m₀ i₀ x ∧ m'.refCount x = some 0)
    (hzero : ∀ x, m'.refCount x = some 0 → x ∈ D' ∨ m₀.refCount x = some 0)
    (hsize : m'.counts.length = m.counts.length)
    (hsame : h.undockingResponsibility = false → m'.undocked = m.undocked) :
    Cascade m₀ i₀ (insert i S) D' m' := by
  have hhandle : ∀ j, m'.handle j = m.handle j := fun j => by
    rw [Memory.handle, hhandles]
    rfl
  have hi₀ : m₀.handle i = some h := hc.kept i h hi hiS
  constructor
  · intro j h' hj hjS
    rw [hhandle] at hj
    exact hc.kept j h' hj fun hmem => hjS (Finset.mem_insert_of_mem hmem)
  · intro j hj
    rw [hhandle]
    rcases Finset.mem_insert.mp hj with rfl | hj
    · exact ⟨h, hi, hown.imp_right fun ⟨o, ho, heq⟩ => ⟨o, hD ho, heq⟩⟩
    · obtain ⟨h', hj', hor⟩ := hc.inside j hj
      exact ⟨h', hj', hor.imp_right fun ⟨o, ho, heq⟩ => ⟨o, hD ho, heq⟩⟩
  · intro j h' hj
    rw [hhandle] at hj
    exact hc.owner_eq j h' hj
  · intro j h₀ hj hor
    rw [hhandle, Finset.mem_insert] at hor
    rcases hor with hnone | rfl | hjS
    · exact hc.gone j h₀ hj (.inl hnone)
    · obtain rfl := Option.some.inj (hi₀.symm.trans hj)
      exact hown.imp_right fun ⟨o, ho, heq⟩ => ⟨o, heq, (hc.dying o ho).1⟩
    · exact hc.gone j h₀ hj (.inr hjS)
  · intro j h₀ x hj hor hp hflag
    rw [hhandle, Finset.mem_insert] at hor
    rcases hor with hnone | rfl | hjS
    · exact hund (hc.parked j h₀ x hj (.inl hnone) hp hflag)
    · obtain rfl := Option.some.inj (hi₀.symm.trans hj)
      exact hparked x hp hflag
    · exact hund (hc.parked j h₀ x hj (.inr hjS) hp hflag)
  · exact List.Subset.trans hc.undocked_le hund
  · intro x c hx
    rw [Memory.holders, hhandles]
    exact hcount x c hx
  · intro j h' x hj hjS hp
    rw [hhandle] at hj
    obtain ⟨c, hx⟩ := hc.target j h' x hj (fun hmem => hjS (Finset.mem_insert_of_mem hmem)) hp
    exact hlive x c hx
  · exact hundocked
  · intro j h' o hj ho
    rw [hhandle] at hj
    obtain ⟨c, hx⟩ := hc.owned j h' o hj ho
    exact hlive o c hx
  · intro x c hx hnone
    refine hc.deleted x c hx ?_
    by_contra hne
    obtain ⟨c₁, hc₁⟩ := Option.ne_none_iff_exists'.mp hne
    obtain ⟨c', hc'⟩ := hlive x c₁ hc₁
    rw [hnone] at hc'
    cases hc'
  · intro x c hx
    obtain ⟨c', hc', hle'⟩ := hle x c hx
    obtain ⟨c₀, hc₀, hle₀⟩ := hc.before x c' hc'
    exact ⟨c₀, hc₀, hle'.trans hle₀⟩
  · exact hdying
  · exact hzero
  · exact hsize.trans hc.size
  · intro hall
    exact (hsame (hall i h hi₀)).trans (hc.same_undocked hall)

/-- The handle is done: its pointer is `NULL`. -/
theorem setPtr (hc : Cascade m₀ i₀ S D m) (hiS : i ∈ S) (hi : m.handle i = some h) :
    m.setPtr i none = some { m with handles := m.handles.set i (some { h with ptr := none }) } ∧
      Cascade m₀ i₀ S D { m with handles := m.handles.set i (some { h with ptr := none }) } := by
  have hlt : i < m.handles.length := lt_of_get hi
  set m' : Memory := { m with handles := m.handles.set i (some { h with ptr := none }) } with hm'
  have hne : ∀ j, j ≠ i → m'.handle j = m.handle j := fun j hj => get_set_ne hj.symm _
  have heq : m'.handle i = some { h with ptr := none } := get_set_self hlt _
  have hcases : ∀ j h', m'.handle j = some h' → ∃ h'', m.handle j = some h'' ∧ h''.owner = h'.owner := by
    intro j h' hj
    by_cases hji : j = i
    · subst hji
      rw [heq] at hj
      obtain rfl := Option.some.inj hj
      exact ⟨h, hi, rfl⟩
    · rw [hne j hji] at hj
      exact ⟨h', hj, rfl⟩
  have hout : ∀ j, j ∉ S → m'.handle j = m.handle j := fun j hj => hne j fun hji => hj (hji ▸ hiS)
  refine ⟨by rw [Memory.setPtr, hi]; rfl, ⟨?_, ?_, ?_, ?_, ?_, hc.undocked_le, ?_, ?_,
    hc.undocked_live, ?_, hc.deleted, hc.before, hc.dying, hc.zero, hc.size,
    hc.same_undocked⟩⟩
  · intro j h' hj hjS
    rw [hout j hjS] at hj
    exact hc.kept j h' hj hjS
  · intro j hj
    obtain ⟨h', hj', hor⟩ := hc.inside j hj
    by_cases hji : j = i
    · subst hji
      obtain rfl := Option.some.inj (hi.symm.trans hj')
      exact ⟨_, heq, hor⟩
    · exact ⟨h', (hne j hji).trans hj', hor⟩
  · intro j h' hj
    obtain ⟨h'', hj'', howner⟩ := hcases j h' hj
    obtain ⟨h₀, hj₀, howner₀⟩ := hc.owner_eq j h'' hj''
    exact ⟨h₀, hj₀, howner₀.trans howner⟩
  · intro j h₀ hj hor
    refine hc.gone j h₀ hj ?_
    by_cases hji : j = i
    · exact .inr (hji ▸ hiS)
    · rwa [hne j hji] at hor
  · intro j h₀ x hj hor
    refine hc.parked j h₀ x hj ?_
    by_cases hji : j = i
    · exact .inr (hji ▸ hiS)
    · rwa [hne j hji] at hor
  · intro x c hx
    have hholders : m'.holders x \ S = m.holders x \ S := by
      ext j
      simp only [Finset.mem_sdiff, Memory.mem_holders]
      exact and_congr_left fun hjS => by rw [hout j hjS]
    rw [hholders]
    exact hc.count x c hx
  · intro j h' x hj hjS
    rw [hout j hjS] at hj
    exact hc.target j h' x hj hjS
  · intro j h' o hj ho
    obtain ⟨h'', hj'', howner⟩ := hcases j h' hj
    exact hc.owned j h'' o hj'' (howner.trans ho)

/-- A member that is done goes. -/
theorem drop (hc : Cascade m₀ i₀ (insert i S) D m) (hiS : i ∉ S) (hi : m.handle i = some h) :
    m.drop i = some { m with handles := m.handles.set i none } ∧
      Cascade m₀ i₀ S D { m with handles := m.handles.set i none } := by
  have hlt : i < m.handles.length := lt_of_get hi
  set m' : Memory := { m with handles := m.handles.set i none } with hm'
  have hne : ∀ j, j ≠ i → m'.handle j = m.handle j := fun j hj => get_set_ne hj.symm _
  have heq : m'.handle i = none := get_set_self hlt _
  have hsome : ∀ j h', m'.handle j = some h' → j ≠ i ∧ m.handle j = some h' := by
    intro j h' hj
    have hji : j ≠ i := by
      rintro rfl
      rw [heq] at hj
      cases hj
    exact ⟨hji, by rwa [hne j hji] at hj⟩
  have hgone : ∀ j, m'.handle j = none ∨ j ∈ S → m.handle j = none ∨ j ∈ insert i S := by
    intro j hor
    by_cases hji : j = i
    · exact .inr (hji ▸ Finset.mem_insert_self _ _)
    · rw [hne j hji] at hor
      exact hor.imp_right Finset.mem_insert_of_mem
  have hout : ∀ {j}, j ≠ i → j ∉ S → j ∉ insert i S := fun hji hjS hmem =>
    (Finset.mem_insert.mp hmem).elim hji hjS
  refine ⟨by rw [Memory.drop, hi]; rfl, ⟨?_, ?_, ?_, fun j h₀ hj hor => hc.gone j h₀ hj (hgone j hor),
    fun j h₀ x hj hor => hc.parked j h₀ x hj (hgone j hor), hc.undocked_le, ?_, ?_,
    hc.undocked_live, ?_, hc.deleted, hc.before, hc.dying, hc.zero, hc.size,
    hc.same_undocked⟩⟩
  · intro j h' hj hjS
    obtain ⟨hji, hj⟩ := hsome j h' hj
    exact hc.kept j h' hj (hout hji hjS)
  · intro j hj
    obtain ⟨h', hj', hor⟩ := hc.inside j (Finset.mem_insert_of_mem hj)
    exact ⟨h', (hne j fun hji => hiS (hji ▸ hj)).trans hj', hor⟩
  · intro j h' hj
    exact hc.owner_eq j h' (hsome j h' hj).2
  · intro x c hx
    have hholders : m'.holders x \ S = m.holders x \ insert i S := by
      show (Store.places (m.handles.set i none) _) \ S = _
      rw [places_set_none, Finset.sdiff_insert, Finset.erase_sdiff_comm]
      rfl
    rw [hholders]
    exact hc.count x c hx
  · intro j h' x hj hjS
    obtain ⟨hji, hj⟩ := hsome j h' hj
    exact hc.target j h' x hj (hout hji hjS)
  · intro j h' o hj
    exact hc.owned j h' o (hsome j h' hj).2

/-- An object whose members are gone goes. -/
theorem free (hc : Cascade m₀ i₀ S (insert x D) m) (hx : x ∉ D)
    (hin : ∀ j ∈ S, ∀ h, m.handle j = some h → j = i₀ ∨ ∃ o ∈ D, h.owner = some o)
    (hmembers : ∀ j h, m.handle j = some h → h.owner ≠ some x) :
    Cascade m₀ i₀ S D (m.free x) := by
  obtain ⟨hdies, hzero⟩ := hc.dying x (Finset.mem_insert_self _ _)
  have hlt : x < m.counts.length := lt_of_get hzero
  have hne : ∀ y, y ≠ x → (m.free x).refCount y = m.refCount y := fun y hy => get_set_ne hy.symm _
  have heq : (m.free x).refCount x = none := get_set_self hlt _
  have hsome : ∀ y c, (m.free x).refCount y = some c → y ≠ x ∧ m.refCount y = some c := by
    intro y c hy
    have hyx : y ≠ x := by
      rintro rfl
      rw [heq] at hy
      cases hy
    exact ⟨hyx, by rwa [hne y hyx] at hy⟩
  -- nothing points to it any more
  have hnone := hc.count x 0 hzero
  have hcard : (m.holders x \ S).card = 0 := by omega
  have hundocked : m.undocked.count x = 0 := by omega
  refine ⟨hc.kept, fun j hj => ?_, hc.owner_eq, hc.gone, hc.parked, hc.undocked_le, ?_, ?_, ?_, ?_,
    ?_, ?_, ?_, ?_, List.length_set.trans hc.size, hc.same_undocked⟩
  · obtain ⟨h', hj', -⟩ := hc.inside j hj
    exact ⟨h', hj', hin j hj h' hj'⟩
  · intro y c hy
    exact hc.count y c (hsome y c hy).2
  · intro j h' y hj hjS hp
    have hyx : y ≠ x := by
      rintro rfl
      have hmem : j ∈ m.holders y \ S :=
        Finset.mem_sdiff.mpr ⟨Memory.mem_holders.mpr ⟨h', hj, hp⟩, hjS⟩
      rw [Finset.card_eq_zero.mp hcard] at hmem
      exact absurd hmem (Finset.notMem_empty _)
    rw [hne y hyx]
    exact hc.target j h' y hj hjS hp
  · intro y hy
    have hyx : y ≠ x := by
      rintro rfl
      exact absurd hy (List.count_eq_zero.mp hundocked)
    rw [hne y hyx]
    exact hc.undocked_live y hy
  · intro j h' o hj ho
    have hox : o ≠ x := by
      rintro rfl
      exact hmembers j h' hj ho
    rw [hne o hox]
    exact hc.owned j h' o hj ho
  · intro y c hy hnone
    by_cases hyx : y = x
    · exact hyx ▸ hdies
    · rw [hne y hyx] at hnone
      exact hc.deleted y c hy hnone
  · intro y c hy
    exact hc.before y c (hsome y c hy).2
  · intro y hy
    have hyx : y ≠ x := fun h => hx (h ▸ hy)
    rw [hne y hyx]
    exact hc.dying y (Finset.mem_insert_of_mem hy)
  · intro y hy
    obtain ⟨hyx, hy⟩ := hsome y 0 hy
    exact (hc.zero y hy).imp_left fun hmem => (Finset.mem_insert.mp hmem).resolve_left hyx

theorem positive_le (h : ∀ x c, m'.refCount x = some c → 0 < c →
    ∃ c₀, m.refCount x = some c₀ ∧ 0 < c₀) : m'.positive ≤ m.positive := by
  refine Finset.card_le_card fun x hx => ?_
  obtain ⟨c, hc, hpos⟩ := mem_places.mp hx
  obtain ⟨c₀, hc₀, hpos₀⟩ := h x c hc (of_decide_eq_true hpos)
  exact mem_places.mpr ⟨c₀, hc₀, decide_eq_true hpos₀⟩

/-- The references to `x` that are counted, when the one of handle `i` is not any more. -/
theorem holders_sdiff (hi : m.handle i = some h) (hiS : i ∉ S) (hp : h.ptr = some x) :
    (m.holders x \ S).card = (m.holders x \ insert i S).card + 1 ∧
      ∀ y, y ≠ x → m.holders y \ insert i S = m.holders y \ S := by
  constructor
  · have hmem : i ∈ m.holders x \ S :=
      Finset.mem_sdiff.mpr ⟨Memory.mem_holders.mpr ⟨h, hi, hp⟩, hiS⟩
    rw [Finset.sdiff_insert, Finset.card_erase_add_one hmem]
  · intro y hy
    rw [Finset.sdiff_insert]
    refine Finset.erase_eq_of_notMem fun hmem => ?_
    obtain ⟨h', hi', hp'⟩ := Memory.mem_holders.mp (Finset.mem_sdiff.mp hmem).1
    obtain rfl := Option.some.inj (hi.symm.trans hi')
    exact hy (Option.some.inj (hp'.symm.trans hp))

theorem notMem (hc : Cascade m₀ i₀ S D m) {c : Int} (hx : m.refCount x = some c)
    (hpos : 0 < c) : x ∉ D := by
  intro hmem
  rw [(hc.dying x hmem).2] at hx
  obtain rfl := Option.some.inj hx
  exact lt_irrefl _ hpos

/-- The object whose last reference is given back dies. -/
theorem dies (hc : Cascade m₀ i₀ S D m) (hi : m.handle i = some h) (hiS : i ∉ S)
    (hown : i = i₀ ∨ ∃ o ∈ D, h.owner = some o) (hp : h.ptr = some x)
    (hflag : h.undockingResponsibility = false) (hlast : m.holders x \ insert i S = ∅)
    (hundocked : x ∉ m.undocked) : Dies m₀ i₀ x := by
  have hi₀ := hc.kept i h hi hiS
  -- every reference of the memory before has been given back
  have hback : ∀ j h', m₀.handle j = some h' → h'.ptr = some x → j ≠ i →
      m.handle j = none ∨ j ∈ S := by
    intro j h' hj hp' hji
    by_contra hnot
    obtain ⟨hlive, hjS⟩ := not_or.mp hnot
    obtain ⟨h'', hj''⟩ := Option.ne_none_iff_exists'.mp hlive
    obtain rfl := Option.some.inj ((hc.kept j h'' hj'' hjS).symm.trans hj)
    have hmem : j ∈ m.holders x \ insert i S := by
      rw [Finset.mem_sdiff, Memory.mem_holders, Finset.mem_insert, not_or]
      exact ⟨⟨h'', hj'', hp'⟩, hji, hjS⟩
    rw [hlast] at hmem
    exact absurd hmem (Finset.notMem_empty _)
  have hdying : ∀ j h', m₀.handle j = some h' → h'.ptr = some x →
      j = i₀ ∨ ∃ o, h'.owner = some o ∧ Dies m₀ i₀ o := by
    intro j h' hj hp'
    by_cases hji : j = i
    · subst hji
      obtain rfl := Option.some.inj (hi₀.symm.trans hj)
      exact hown.imp_right fun ⟨o, ho, heq⟩ => ⟨o, heq, (hc.dying o ho).1⟩
    · exact hc.gone j h' hj (hback j h' hj hp' hji)
  refine .intro ⟨i, Memory.mem_holders.mpr ⟨h, hi₀, hp⟩⟩ (fun hmem => hundocked (hc.undocked_le hmem))
    ?_ ?_ ?_
  · intro j h' hj hp'
    by_cases hji : j = i
    · subst hji
      obtain rfl := Option.some.inj (hi₀.symm.trans hj)
      exact hflag
    · by_contra hset
      exact hundocked (hc.parked j h' x hj (hback j h' hj hp' hji) hp' (by simpa using hset))
  · intro j h' hj hp' hne
    obtain ⟨o, ho, -⟩ := (hdying j h' hj hp').resolve_left hne
    simp [ho]
  · intro j h' o hj hp' hne ho
    obtain ⟨o', ho', hdies⟩ := (hdying j h' hj hp').resolve_left hne
    exact Option.some.inj (ho'.symm.trans ho) ▸ hdies

/-- What `dec` does for `n` levels of nesting. -/
def DecKeeps (m₀ : Memory) (i₀ : Loc) (n : Nat) : Prop :=
  ∀ ⦃S : Finset Loc⦄ ⦃D : Finset ObjId⦄ ⦃m : Memory⦄ ⦃i : Loc⦄ ⦃h : Sp⦄,
    Cascade m₀ i₀ S D m → m.handle i = some h → i ∉ S → (i = i₀ ∨ ∃ o ∈ D, h.owner = some o) →
      m.positive < n →
        ∃ m', Memory.decFuel n m i = some m' ∧ Cascade m₀ i₀ (insert i S) D m' ∧ Frame i₀ i D m m'

/-- The destructor of `x` destroys its members, one after another. -/
theorem destroyAll_cascade {n : Nat} (hdec : DecKeeps m₀ i₀ n) (hx : x ∈ D) :
    ∀ {is : List Loc} {m : Memory}, Cascade m₀ i₀ S D m → is.Nodup →
      (∀ i ∈ is, i ∉ S ∧ ∃ h, m.handle i = some h ∧ h.owner = some x) → m.positive < n →
        ∃ m', Memory.destroyAll (Memory.decFuel n) is m = some m' ∧ Cascade m₀ i₀ S D m' ∧
          (∀ i ∈ is, m'.handle i = none) ∧
          (∀ j h, j ∉ is → m.handle j = some h → (j = i₀ ∨ ∃ o ∈ D, h.owner = some o) →
            m'.handle j = some h) ∧
          (∀ j, m.handle j = none → m'.handle j = none) ∧ m'.positive ≤ m.positive := by
  intro is
  induction is with
  | nil =>
    intro m hc _ _ _
    exact ⟨m, rfl, hc, fun _ h => absurd h List.not_mem_nil, fun _ _ _ h _ => h, fun _ h => h, le_rfl⟩
  | cons i is ih =>
    intro m hc hnodup his hlt
    obtain ⟨hnot, hnodup⟩ := List.nodup_cons.mp hnodup
    obtain ⟨hiS, h, hi, hox⟩ := his i List.mem_cons_self
    obtain ⟨m₁, hrun₁, hc₁, hframe⟩ := hdec hc hi hiS (.inr ⟨x, hx, hox⟩) hlt
    have hi₁ := hframe.nulled h hi
    obtain ⟨hrun₂, hc₂⟩ := hc₁.drop hiS hi₁
    set m₂ : Memory := { m₁ with handles := m₁.handles.set i none } with hm₂
    have hne : ∀ j, j ≠ i → m₂.handle j = m₁.handle j := fun j hj => get_set_ne hj.symm _
    have hi₂ : m₂.handle i = none := get_set_self (lt_of_get hi₁) _
    obtain ⟨m₃, hrun₃, hc₃, hgone, hkeeps, habsent, hle⟩ := ih hc₂ hnodup (by
      intro j hj
      obtain ⟨hjS, h', hj', hox'⟩ := his j (List.mem_cons_of_mem _ hj)
      have hji : j ≠ i := fun heq => hnot (heq ▸ hj)
      exact ⟨hjS, h', (hne j hji).trans (hframe.keeps j h' hji hj' (.inr ⟨x, hx, hox'⟩)), hox'⟩)
      (show m₁.positive < n from hframe.positive_le.trans_lt hlt)
    refine ⟨m₃, ?_, hc₃, ?_, ?_, ?_, hle.trans hframe.positive_le⟩
    · rw [Memory.destroyAll, hrun₁]
      simp only [Option.bind_eq_bind, Option.bind_some, hrun₂, hrun₃]
    · intro j hj
      rcases List.mem_cons.mp hj with rfl | hj
      · exact habsent j hi₂
      · exact hgone j hj
    · intro j h' hj hj' hown
      obtain ⟨hji, hjis⟩ := not_or.mp (fun hor => hj (List.mem_cons.mpr hor))
      exact hkeeps j h' hjis ((hne j hji).trans (hframe.keeps j h' hji hj' hown)) hown
    · intro j hj
      refine habsent j ?_
      by_cases hji : j = i
      · exact hji ▸ hi₂
      · rw [hne j hji]
        exact hframe.absent j hj

/-- The reference of handle `i` is taken off the count of `x`. -/
theorem decRefCount (hc : Cascade m₀ i₀ S D m) (hi : m.handle i = some h) (hiS : i ∉ S)
    (hown : i = i₀ ∨ ∃ o ∈ D, h.owner = some o) (hp : h.ptr = some x)
    (hflag : h.undockingResponsibility = false) :
    ∃ (c : Nat) (m₁ : Memory), m.decRefCount x = some m₁ ∧ m₁.handles = m.handles ∧
      m₁.refCount x = some (c : Int) ∧ m₁.positive ≤ m.positive ∧ x ∉ D ∧
      (c ≠ 0 → Cascade m₀ i₀ (insert i S) D m₁) ∧
      (c = 0 → m₁.positive < m.positive ∧ Dies m₀ i₀ x ∧
        Cascade m₀ i₀ (insert i S) (insert x D) m₁) := by
  obtain ⟨c₀, hx⟩ := hc.target i h x hi hiS hp
  obtain ⟨hcard, hother⟩ := holders_sdiff hi hiS hp
  have hcount := hc.count x c₀ hx
  set c := (m.holders x \ insert i S).card + m.undocked.count x with hcdef
  have hsum : c₀ = (c : Int) + 1 := by
    rw [hcount, hcard]
    push_cast [hcdef]
    omega
  have hlt : x < m.counts.length := lt_of_get hx
  set m₁ : Memory := { m with counts := m.counts.set x (some (c₀ - 1)) } with hm₁
  have hx₁ : m₁.refCount x = some (c : Int) := by
    rw [Memory.refCount, hm₁, get_set_self hlt, hsum, add_sub_cancel_right]
  have hne : ∀ y, y ≠ x → m₁.refCount y = m.refCount y := fun y hy => get_set_ne hy.symm _
  have hxD : x ∉ D := hc.notMem hx (by omega)
  have hpos : ∀ y c', m₁.refCount y = some c' → 0 < c' → ∃ c₀, m.refCount y = some c₀ ∧ 0 < c₀ := by
    intro y c' hy hc'
    by_cases hyx : y = x
    · exact ⟨c₀, hyx ▸ hx, by omega⟩
    · exact ⟨c', hne y hyx ▸ hy, hc'⟩
  have hsuspend : ∀ {D'}, D ⊆ D' → (∀ y ∈ D', Dies m₀ i₀ y ∧ m₁.refCount y = some 0) →
      (c = 0 → x ∈ D') → Cascade m₀ i₀ (insert i S) D' m₁ := by
    intro D' hD hdying hin
    refine hc.suspend hi hiS hown rfl (fun _ h => h) ?_ ?_ ?_ ?_ ?_ hD hdying ?_ List.length_set
      fun _ => rfl
    · intro y _ hset
      rw [hflag] at hset
      cases hset
    · intro y c' hy
      by_cases hyx : y = x
      · exact ⟨c, hyx ▸ hx₁⟩
      · exact ⟨c', (hne y hyx).trans hy⟩
    · intro y c' hy
      by_cases hyx : y = x
      · subst hyx
        rw [hx₁] at hy
        obtain rfl := Option.some.inj hy
        exact ⟨c₀, hx, by omega⟩
      · exact ⟨c', (hne y hyx).symm.trans hy, le_rfl⟩
    · intro y c' hy
      by_cases hyx : y = x
      · rw [hyx, hx₁] at hy
        rw [← Option.some.inj hy, hyx]
      · rw [hne y hyx] at hy
        rw [hother y hyx]
        exact hc.count y c' hy
    · intro y hy
      by_cases hyx : y = x
      · exact ⟨c, hyx ▸ hx₁⟩
      · rw [hne y hyx]
        exact hc.undocked_live y hy
    · intro y hy
      by_cases hyx : y = x
      · subst hyx
        rw [hx₁] at hy
        exact .inl (hin (by exact_mod_cast Option.some.inj hy))
      · rw [hne y hyx] at hy
        exact (hc.zero y hy).imp_left fun hmem => hD hmem
  refine ⟨c, m₁, ?_, rfl, hx₁, positive_le hpos, hxD, fun hc0 => ?_, fun hc0 => ?_⟩
  · rw [Memory.decRefCount, hx]
    simp only [Option.bind_eq_bind, Option.bind_some]
    rw [if_neg (by omega)]
  · refine hsuspend (fun _ h => h) (fun y hy => ?_) fun h0 => absurd h0 hc0
    rw [hne y fun hyx => hxD (hyx ▸ hy)]
    exact hc.dying y hy
  · have hempty : m.holders x \ insert i S = ∅ := Finset.card_eq_zero.mp (by omega)
    have hdies := hc.dies hi hiS hown hp hflag hempty (List.count_eq_zero.mp (by omega))
    refine ⟨Finset.card_lt_card (Finset.ssubset_iff_of_subset ?_ |>.mpr ⟨x, ?_, ?_⟩), hdies,
      hsuspend (Finset.subset_insert _ _) (fun y hy => ?_) fun _ => Finset.mem_insert_self _ _⟩
    · intro y hy
      obtain ⟨c', hy', hpos'⟩ := mem_places.mp hy
      obtain ⟨c₁, hc₁, hpos₁⟩ := hpos y c' hy' (of_decide_eq_true hpos')
      exact mem_places.mpr ⟨c₁, hc₁, decide_eq_true hpos₁⟩
    · exact mem_places.mpr ⟨c₀, hx, decide_eq_true (by omega)⟩
    · intro hmem
      obtain ⟨c', hc', hpos'⟩ := mem_places.mp hmem
      obtain rfl := Option.some.inj (hx₁.symm.trans hc')
      have := of_decide_eq_true hpos'
      omega
    · rcases Finset.mem_insert.mp hy with rfl | hy
      · exact ⟨hdies, by rw [hx₁, hc0]; rfl⟩
      · rw [hne y fun hyx => hxD (hyx ▸ hy)]
        exact hc.dying y hy

theorem mem_members : j ∈ m.members x ↔ ∃ h, m.handle j = some h ∧ h.owner = some x := by
  rw [Memory.members, List.mem_filter, List.mem_range, Option.any_eq_true]
  simp only [decide_eq_true_eq]
  exact ⟨fun h => h.2, fun ⟨h', hj, ho⟩ => ⟨lt_of_get hj, h', hj, ho⟩⟩

/-- The object goes with its members. The handles on their way are none of these. -/
theorem delete {n : Nat}
    (hi₀ : ∀ h o, m₀.handle i₀ = some h → h.owner = some o → ¬ Dies m₀ i₀ o)
    (hdec : DecKeeps m₀ i₀ n) (hc : Cascade m₀ i₀ S (insert x D) m) (hx : x ∉ D)
    (hin : ∀ j ∈ S, ∀ h, m.handle j = some h → j = i₀ ∨ ∃ o ∈ D, h.owner = some o)
    (hlt : m.positive < n) :
    ∃ m', Memory.destroyAll (Memory.decFuel n) (m.members x).reverse m = some m' ∧
      Cascade m₀ i₀ S D (m'.free x) ∧
      (∀ j h, m.handle j = some h → (j = i₀ ∨ ∃ o ∈ D, h.owner = some o) → m'.handle j = some h) ∧
      (∀ j, m.handle j = none → m'.handle j = none) ∧ (m'.free x).positive ≤ m.positive := by
  have hdies := (hc.dying x (Finset.mem_insert_self x D)).1
  -- what stays is no member of the object
  have hstays : ∀ j h, m.handle j = some h → (j = i₀ ∨ ∃ o ∈ D, h.owner = some o) →
      h.owner ≠ some x := by
    rintro j h hj (rfl | ⟨o, ho, heq⟩) hox
    · obtain ⟨h₀, hj₀, howner⟩ := hc.owner_eq j h hj
      exact hi₀ h₀ x hj₀ (howner.trans hox) hdies
    · obtain rfl := Option.some.inj (heq.symm.trans hox)
      exact hx ho
  obtain ⟨m', hrun, hc', hgone, hkeeps, habsent, hle⟩ := destroyAll_cascade hdec
    (Finset.mem_insert_self x D) hc (List.nodup_reverse.mpr (List.nodup_range.filter _)) (by
      intro j hj
      obtain ⟨h', hj', ho⟩ := mem_members.mp (List.mem_reverse.mp hj)
      exact ⟨fun hjS => hstays j h' hj' (hin j hjS h' hj') ho, h', hj', ho⟩) hlt
  have hkeeps' : ∀ j h, m.handle j = some h → (j = i₀ ∨ ∃ o ∈ D, h.owner = some o) →
      m'.handle j = some h := by
    intro j h hj hor
    refine hkeeps j h (fun hmem => ?_) hj
      (hor.imp_right fun ⟨o, ho, heq⟩ => ⟨o, Finset.mem_insert_of_mem ho, heq⟩)
    obtain ⟨h', hj', ho⟩ := mem_members.mp (List.mem_reverse.mp hmem)
    obtain rfl := Option.some.inj (hj.symm.trans hj')
    exact hstays j h hj hor ho
  have howner : ∀ j h', m'.handle j = some h' → ∃ h, m.handle j = some h ∧ h.owner = h'.owner := by
    intro j h' hj
    rcases hj₁ : m.handle j with _ | h
    · rw [habsent j hj₁] at hj
      cases hj
    · obtain ⟨h₀, hj₀, ho₀⟩ := hc'.owner_eq j h' hj
      obtain ⟨h₀', hj₀', ho₀'⟩ := hc.owner_eq j h hj₁
      obtain rfl := Option.some.inj (hj₀.symm.trans hj₀')
      exact ⟨h, rfl, ho₀'.symm.trans ho₀⟩
  refine ⟨m', hrun, hc'.free hx ?_ ?_, hkeeps', habsent, le_trans (positive_le ?_) hle⟩
  · intro j hjS h' hj
    obtain ⟨h, hj₁, ho⟩ := howner j h' hj
    rw [← ho]
    exact hin j hjS h hj₁
  · intro j h' hj hox
    obtain ⟨h, hj₁, ho⟩ := howner j h' hj
    rw [hgone j (List.mem_reverse.mpr (mem_members.mpr ⟨h, hj₁, ho.trans hox⟩))] at hj
    cases hj
  · intro y c hy hpos
    have hlt : x < m'.counts.length := lt_of_get (hc'.dying x (Finset.mem_insert_self x D)).2
    rw [Memory.refCount, Memory.free, get_set hlt] at hy
    split at hy
    next => cases hy
    next => exact ⟨c, hy, hpos⟩

/-- Before `m_ptr = NULL`, the handle is as it was, and its reference is given back with all
that goes with it. -/
theorem release {n : Nat}
    (hi₀ : ∀ h o, m₀.handle i₀ = some h → h.owner = some o → ¬ Dies m₀ i₀ o)
    (hdec : DecKeeps m₀ i₀ n) (hc : Cascade m₀ i₀ S D m) (hi : m.handle i = some h) (hiS : i ∉ S)
    (hown : i = i₀ ∨ ∃ o ∈ D, h.owner = some o) (hlt : m.positive < n + 1) :
    ∃ m', Memory.release (Memory.decFuel n) m h = some m' ∧ Cascade m₀ i₀ (insert i S) D m' ∧
      (∀ j h, m.handle j = some h → (j = i₀ ∨ ∃ o ∈ D, h.owner = some o) → m'.handle j = some h) ∧
      (∀ j, m.handle j = none → m'.handle j = none) ∧ m'.positive ≤ m.positive := by
  rcases hp : h.ptr with _ | x
  · -- `NULL` gives nothing back
    refine ⟨m, by rw [Memory.release, hp], ?_, fun _ _ hj _ => hj, fun _ hj => hj, le_rfl⟩
    refine hc.suspend hi hiS hown rfl (fun _ h => h) (by simp [hp]) (fun _ c hx => ⟨c, hx⟩)
      (fun _ c hx => ⟨c, hx, le_rfl⟩) ?_ hc.undocked_live (fun _ h => h) hc.dying hc.zero rfl
      fun _ => rfl
    intro y c hy
    rw [Finset.sdiff_insert, Finset.erase_eq_of_notMem]
    · exact hc.count y c hy
    · intro hmem
      obtain ⟨h', hi', hp'⟩ := Memory.mem_holders.mp (Finset.mem_sdiff.mp hmem).1
      obtain rfl := Option.some.inj (hi.symm.trans hi')
      rw [hp] at hp'
      cases hp'
  rcases hflag : h.undockingResponsibility with _ | _
  · obtain ⟨c, m₁, hrun₁, hhandles, hx₁, hle, hxD, hmore, hlast⟩ :=
      hc.decRefCount hi hiS hown hp hflag
    have hhandle : ∀ j, m₁.handle j = m.handle j := fun j => by
      rw [Memory.handle, hhandles]
      rfl
    by_cases hc0 : c = 0
    · obtain ⟨hlt₁, hdies, hc₁⟩ := hlast hc0
      have hin : ∀ j ∈ insert i S, ∀ h, m₁.handle j = some h → j = i₀ ∨ ∃ o ∈ D, h.owner = some o := by
        intro j hjS h' hj
        rw [hhandle] at hj
        rcases Finset.mem_insert.mp hjS with rfl | hjS
        · obtain rfl := Option.some.inj (hi.symm.trans hj)
          exact hown
        · obtain ⟨h'', hj'', hor⟩ := hc.inside j hjS
          obtain rfl := Option.some.inj (hj.symm.trans hj'')
          exact hor
      obtain ⟨m₂, hrun₂, hc₂, hkeeps, habsent, hle₂⟩ := delete hi₀ hdec hc₁ hxD hin (by omega)
      refine ⟨m₂.free x, ?_, hc₂, ?_, ?_, hle₂.trans hle⟩
      · rw [Memory.release, hp]
        simp only [hflag, Bool.false_eq_true, if_false, Option.bind_eq_bind, hrun₁,
          Option.bind_some, hx₁, hc0, Nat.cast_zero, if_true, hrun₂]
      · intro j h' hj hor
        exact hkeeps j h' ((hhandle j).trans hj) hor
      · intro j hj
        exact habsent j ((hhandle j).trans hj)
    · refine ⟨m₁, ?_, hmore hc0, fun j h' hj _ => (hhandle j).trans hj,
        fun j hj => (hhandle j).trans hj, hle⟩
      rw [Memory.release, hp]
      simp only [hflag, Bool.false_eq_true, if_false, Option.bind_eq_bind, hrun₁, Option.bind_some]
      rw [if_neg]
      rw [hx₁]
      exact fun h0 => hc0 (by exact_mod_cast Option.some.inj h0)
  · -- the reference stays behind without a handle
    obtain ⟨hcard, hother⟩ := holders_sdiff hi hiS hp
    refine ⟨{ m with undocked := x :: m.undocked }, by rw [Memory.release, hp]; simp [hflag], ?_,
      fun _ _ hj _ => hj, fun _ hj => hj, le_rfl⟩
    refine hc.suspend hi hiS hown rfl (fun _ h => List.mem_cons_of_mem _ h) ?_
      (fun _ c hx => ⟨c, hx⟩) (fun _ c hx => ⟨c, hx, le_rfl⟩) ?_ ?_ (fun _ h => h) hc.dying hc.zero
      rfl (by simp [hflag])
    · intro y hy _
      obtain rfl := Option.some.inj (hp.symm.trans hy)
      exact List.mem_cons_self
    · intro y c hy
      have hcount := hc.count y c hy
      by_cases hyx : y = x
      · subst hyx
        rw [hcount, hcard, List.count_cons_self]
        push_cast
        omega
      · rw [hother y hyx, List.count_cons_of_ne (Ne.symm hyx)]
        exact hcount
    · intro y hy
      rcases List.mem_cons.mp hy with rfl | hy
      · exact hc.target i h y hi hiS hp
      · exact hc.undocked_live y hy

end Cascade

/-- `dec` ends and keeps what holds on the way, for any nesting. -/
theorem decFuel_cascade
    (hi₀ : ∀ h o, m₀.handle i₀ = some h → h.owner = some o → ¬ Dies m₀ i₀ o) (n : Nat) :
    Cascade.DecKeeps m₀ i₀ n := by
  induction n with
  | zero =>
    intro S D m i h _ _ _ _ hlt
    exact absurd hlt (Nat.not_lt_zero _)
  | succ n ih =>
    intro S D m i h hc hi hiS hown hlt
    obtain ⟨m₁, hrun, hc₁, hkeeps, habsent, hle⟩ := hc.release hi₀ ih hi hiS hown hlt
    have hi₁ := hkeeps i h hi hown
    obtain ⟨hset, hc₂⟩ := hc₁.setPtr (Finset.mem_insert_self i S) hi₁
    refine ⟨_, ?_, hc₂, ⟨?_, ?_, ?_, hle⟩⟩
    · rw [Memory.decFuel, hi]
      simp only [Option.bind_eq_bind, Option.bind_some, hrun, hset]
    · intro h' hi'
      obtain rfl := Option.some.inj (hi.symm.trans hi')
      exact get_set_self (lt_of_get hi₁) _
    · intro j h' hji hj hor
      exact (get_set_ne (Ne.symm hji) _).trans (hkeeps j h' hj hor)
    · intro j hj
      have hji : i ≠ j := by
        rintro rfl
        rw [hi] at hj
        cases hj
      exact (get_set_ne hji _).trans (habsent j hj)

/-! ## The whole cascade -/

/-- Handle `j` is no member of an object that dies with the reference of handle `i`. -/
def Outside (m : Memory) (i j : Loc) : Prop :=
  ∀ h o, m.handle j = some h → h.owner = some o → ¬ Dies m i o

/-- What `dec` of handle `i` has done to the memory. -/
structure Released (m : Memory) (i : Loc) (m' : Memory) : Prop where
  nulled : ∀ h, m.handle i = some h → m'.handle i = some { h with ptr := none }
  kept : ∀ j h, m.handle j = some h → j ≠ i → Outside m i j → m'.handle j = some h
  origin : ∀ j h, m'.handle j = some h → j ≠ i → m.handle j = some h
  absent : ∀ j, m.handle j = none → m'.handle j = none
  deleted : ∀ x c, m.refCount x = some c → m'.refCount x = none → Dies m i x
  before : ∀ x c, m'.refCount x = some c → ∃ c₀, m.refCount x = some c₀ ∧ c ≤ c₀
  zero : ∀ x, m'.refCount x = some 0 → m.refCount x = some 0
  undocked_le : m.undocked ⊆ m'.undocked
  size : m'.counts.length = m.counts.length
  same_undocked : (∀ j h, m.handle j = some h → h.undockingResponsibility = false) →
    m'.undocked = m.undocked

/-- `dec` keeps every count right. The handle itself must not be a member of an object that
goes with it. -/
theorem dec_counted (hc : Counted m) (hi : m.handle i = some h) (hout : Outside m i i) :
    ∃ m', m.dec i = some m' ∧ Counted m' ∧ Released m i m' := by
  have hpos : m.positive ≤ m.counts.length := by
    have hsub := Finset.card_filter_le (Finset.range m.counts.length) fun x =>
      (get m.counts x).any fun c => decide (0 < c)
    rwa [Finset.card_range] at hsub
  obtain ⟨m', hrun, hc', hframe⟩ := decFuel_cascade hout (m.counts.length + 1) (Cascade.start hc) hi
    (Finset.notMem_empty i) (.inl rfl) (Nat.lt_succ_of_le hpos)
  have hi' := hframe.nulled h hi
  have hmem : ∀ j, j ∈ insert i (∅ : Finset Loc) ↔ j = i := by simp
  have hholders : ∀ x, m'.holders x \ insert i ∅ = m'.holders x := by
    intro x
    rw [Finset.sdiff_insert, Finset.sdiff_empty, Finset.erase_eq_of_notMem]
    intro hmem
    obtain ⟨h', hj, hp⟩ := Memory.mem_holders.mp hmem
    obtain rfl := Option.some.inj (hi'.symm.trans hj)
    cases hp
  refine ⟨m', hrun, ⟨fun x c hx => ?_, fun j h' x hj hp => ?_, hc'.undocked_live, hc'.owned⟩,
    ⟨hframe.nulled, fun j h' hj hji hj' => ?_,
      fun j h' hj hji => hc'.kept j h' hj fun hjS => hji ((hmem j).mp hjS), hframe.absent, hc'.deleted,
      hc'.before, fun x hx => ?_,
      hc'.undocked_le, hc'.size, hc'.same_undocked⟩⟩
  · rw [hc'.count x c hx, hholders]
    rfl
  · by_cases hji : j = i
    · subst hji
      obtain rfl := Option.some.inj (hi'.symm.trans hj)
      cases hp
    · exact hc'.target j h' x hj (fun hjS => hji ((hmem j).mp hjS)) hp
  · rcases hj₁ : m'.handle j with _ | h''
    · rcases hc'.gone j h' hj (.inl hj₁) with rfl | ⟨o, ho, hdies⟩
      · exact absurd rfl hji
      · exact absurd hdies (hj' h' o hj ho)
    · exact (hc'.kept j h'' hj₁ fun hjS => hji ((hmem j).mp hjS)).symm.trans hj
  · exact (hc'.zero x hx).resolve_left (Finset.notMem_empty x)

end Dframework
