import Mathlib
import Dframework.Lang.String

/-!
# `ArraySorted`

A sorted array is the list of the objects in its slots. `insertId` and `index`
are the two bisections of the class, over the order of the elements. A slot that
does not exist compares as a `NULL` pointer does: nothing is below or equal to it.

A header list is such an array of `NamedValue`, sorted by name.

Results:
1. `ArraySorted.insertId_fits`, `ArraySorted.insert_sorted`: where an element comes in.
2. `ArraySorted.index_finds`, `ArraySorted.index_isSome_iff`: which elements are found.
3. `ArraySorted.foldl_insert_sorted`: what a sorted list becomes when it is put in again.
-/

namespace Dframework

open CLib

namespace ArraySorted

variable {α : Type*}

/-- The loop of `ArraySorted::insertId`. -/
def insertIdLoop (cmp : α → α → Ordering) (data : α) (l : List α) : Nat → Nat → Nat → Nat
  | 0, _, ep => ep
  | fuel + 1, sp, ep =>
    let cp := (ep - sp) / 2 + sp
    if sp = cp ∨ ep = cp then
      match l[sp]? with
      | some x => if (cmp data x).isLE then sp else ep
      | none => ep
    else
      match (l[cp]?).map (cmp data) with
      | some .eq => cp
      | some .lt => insertIdLoop cmp data l fuel sp cp
      | _ => insertIdLoop cmp data l fuel cp ep

def insertId (cmp : α → α → Ordering) (data : α) (l : List α) : Nat :=
  match l.head?, l.getLast? with
  | some first, some last =>
    if (cmp data first).isLE then 0
    else if (cmp data last).isGE then l.length
    else insertIdLoop cmp data l (l.length + 1) 0 l.length
  | _, _ => 0

theorem insertIdLoop_le (cmp : α → α → Ordering) (data : α) (l : List α) {n fuel sp ep : Nat}
    (hsp : sp ≤ ep) (hep : ep ≤ n) : insertIdLoop cmp data l fuel sp ep ≤ n := by
  induction fuel generalizing sp ep with
  | zero => exact hep
  | succ fuel ih =>
    have hcp : sp ≤ (ep - sp) / 2 + sp ∧ (ep - sp) / 2 + sp ≤ ep := by omega
    simp only [insertIdLoop]
    split
    · split
      · split
        · exact hsp.trans hep
        · exact hep
      · exact hep
    · split
      · exact hcp.2.trans hep
      · exact ih hcp.1 (hcp.2.trans hep)
      · exact ih hcp.2 hep

/-- An element is inserted among the others or behind them, whatever their order is. -/
theorem insertId_le (cmp : α → α → Ordering) (data : α) (l : List α) :
    insertId cmp data l ≤ l.length := by
  rw [insertId]
  split
  · split
    · exact Nat.zero_le _
    · split
      · exact le_rfl
      · exact insertIdLoop_le cmp data l (Nat.zero_le _) le_rfl
  · exact Nat.zero_le _

/-- The loop of `ArraySorted::index`. -/
def indexLoop (cmp : α → α → Ordering) (data : α) (l : List α) : Nat → Nat → Nat → Option Nat
  | 0, _, _ => none
  | fuel + 1, sp, ep =>
    let cp := (ep - sp) / 2 + sp
    if sp = cp ∨ ep = cp then
      if (l[sp]?).map (cmp data) = some .eq then some sp
      else if (l[ep - 1]?).map (cmp data) = some .eq then some (ep - 1)
      else none
    else
      match (l[cp]?).map (cmp data) with
      | some .eq => some cp
      | some .lt => indexLoop cmp data l fuel sp cp
      | _ => indexLoop cmp data l fuel cp ep

/-- `ArraySorted::index`; `none` is -1. -/
def index (cmp : α → α → Ordering) (data : α) (l : List α) : Option Nat :=
  match l.head?, l.getLast? with
  | some first, some last =>
    if cmp data first = .lt ∨ cmp data last = .gt then none
    else indexLoop cmp data l (l.length + 1) 0 l.length
  | _, _ => none

def insert (cmp : α → α → Ordering) (data : α) (l : List α) : List α :=
  l.insertIdx (insertId cmp data l) data

/-- `ArraySorted::remove` of an element equal to `data`. -/
def remove (cmp : α → α → Ordering) (data : α) (l : List α) : List α :=
  match index cmp data l with
  | some i => l.eraseIdx i
  | none => l

/-! ## Sorted lists -/

/-- No element is above one that stands behind it. -/
def Sorted (cmp : α → α → Ordering) (l : List α) : Prop :=
  l.Pairwise fun a b => (cmp a b).isLE

/-- Where `data` may come in: nothing before `i` is above it, and nothing from `i` on below. -/
def Fits (cmp : α → α → Ordering) (data : α) (l : List α) (i : Nat) : Prop :=
  (∀ j x, j < i → l[j]? = some x → (cmp x data).isLE) ∧
    ∀ j x, i ≤ j → l[j]? = some x → (cmp data x).isLE

section

open Std

variable {cmp : α → α → Ordering} {data x y : α} {l : List α} {i j sp ep fuel : Nat}

/-- A list stays sorted when an element comes in where it may. -/
theorem Sorted.insertIdx (hs : Sorted cmp l) (hf : Fits cmp data l i) (hi : i ≤ l.length) :
    Sorted cmp (l.insertIdx i data) := by
  induction i generalizing l with
  | zero =>
    rw [List.insertIdx_zero]
    refine List.pairwise_cons.mpr ⟨fun x hx => ?_, hs⟩
    obtain ⟨j, hj⟩ := List.mem_iff_getElem?.mp hx
    exact hf.2 j x (Nat.zero_le j) hj
  | succ i ih =>
    rcases l with _ | ⟨a, l⟩
    · cases hi
    obtain ⟨ha, hl⟩ := List.pairwise_cons.mp hs
    rw [List.insertIdx_succ_cons]
    refine List.pairwise_cons.mpr ⟨fun x hx => ?_, ih hl ?_ (Nat.le_of_succ_le_succ hi)⟩
    · rcases List.eq_or_mem_of_mem_insertIdx hx with rfl | hx
      · exact hf.1 0 a (Nat.succ_pos i) rfl
      · exact ha x hx
    · exact ⟨fun j x hj hx => hf.1 (j + 1) x (Nat.succ_lt_succ hj) hx,
        fun j x hj hx => hf.2 (j + 1) x (Nat.succ_le_succ hj) hx⟩

theorem Sorted.eraseIdx (hs : Sorted cmp l) (i : Nat) : Sorted cmp (l.eraseIdx i) :=
  List.Pairwise.sublist (List.eraseIdx_sublist l i) hs

variable [TransCmp cmp]

theorem Sorted.le (hs : Sorted cmp l) (hij : i ≤ j) (hi : l[i]? = some x) (hj : l[j]? = some y) :
    (cmp x y).isLE := by
  rcases Nat.eq_or_lt_of_le hij with rfl | hlt
  · obtain rfl := Option.some.inj (hi.symm.trans hj)
    exact ReflCmp.isLE_rfl
  · obtain ⟨hi', rfl⟩ := List.getElem?_eq_some_iff.mp hi
    obtain ⟨hj', rfl⟩ := List.getElem?_eq_some_iff.mp hj
    exact List.pairwise_iff_getElem.mp hs i j hi' hj' hlt

theorem Sorted.fits_zero (hs : Sorted cmp l) (hfirst : ∀ x, l[0]? = some x → (cmp data x).isLE) :
    Fits cmp data l 0 := by
  refine ⟨fun j x hj => absurd hj (Nat.not_lt_zero j), fun j x _ hx => ?_⟩
  have h0 : 0 < l.length := (Nat.zero_le j).trans_lt (List.getElem?_eq_some_iff.mp hx).1
  have hget := List.getElem?_eq_getElem h0
  exact TransCmp.isLE_trans (hfirst _ hget) (hs.le (Nat.zero_le j) hget hx)

/-- It is enough to look at the two neighbours. -/
theorem Sorted.fits_succ (hs : Sorted cmp l) (hi : l[i]? = some x) (hbefore : (cmp x data).isLE)
    (hbehind : ∀ y, l[i + 1]? = some y → (cmp data y).isLE) : Fits cmp data l (i + 1) := by
  refine ⟨fun j y hj hy => ?_, fun j y hj hy => ?_⟩
  · exact TransCmp.isLE_trans (hs.le (Nat.le_of_lt_succ hj) hy hi) hbefore
  · have hlt : i + 1 < l.length := hj.trans_lt (List.getElem?_eq_some_iff.mp hy).1
    have hget := List.getElem?_eq_getElem hlt
    exact TransCmp.isLE_trans (hbehind _ hget) (hs.le hj hget hy)

/-- What stands at an element equal to `data` may be pushed back for it. -/
theorem Sorted.fits_eq (hs : Sorted cmp l) (hi : l[i]? = some x) (heq : cmp data x = .eq) :
    Fits cmp data l i := by
  refine ⟨fun j y hj hy => ?_, fun j y hj hy => ?_⟩
  · have hle := hs.le hj.le hy hi
    rwa [← TransCmp.congr_right (OrientedCmp.eq_symm heq)]
  · have hle := hs.le hj hi hy
    rwa [TransCmp.congr_left heq]

/-! ## The bisection of `insertId` -/

/-- Between `sp` and `ep` the order turns: the elements up to `sp` are below `data`, and
those from `ep` on above it. -/
theorem insertIdLoop_fits (hs : Sorted cmp l) (hlt : sp < ep) (hle : ep ≤ l.length)
    (hsp : ∀ x, l[sp]? = some x → cmp data x = .gt) (hep : ∀ x, l[ep]? = some x → cmp data x = .lt)
    (hfuel : ep - sp ≤ fuel) : Fits cmp data l (insertIdLoop cmp data l fuel sp ep) := by
  induction fuel generalizing sp ep with
  | zero => exact absurd hlt (by omega)
  | succ fuel ih =>
    have hcp : sp ≤ (ep - sp) / 2 + sp ∧ (ep - sp) / 2 + sp < ep := by omega
    simp only [insertIdLoop]
    split
    next hend =>
      -- the two ends are neighbours
      obtain rfl : ep = sp + 1 := by omega
      have hget := List.getElem?_eq_getElem (show sp < l.length from hle)
      have hgt := hsp _ hget
      rw [hget]
      simp only [hgt]
      exact hs.fits_succ hget (OrientedCmp.gt_iff_lt.mp hgt ▸ rfl) fun y hy => hep y hy ▸ rfl
    next hmid =>
      have hget := List.getElem?_eq_getElem (show (ep - sp) / 2 + sp < l.length by omega)
      rw [hget, Option.map_some]
      split
      next heq => exact hs.fits_eq hget (Option.some.inj heq)
      next hless =>
        refine ih (by omega) (by omega) hsp (fun x hx => ?_) (by omega)
        obtain rfl := Option.some.inj (hget.symm.trans hx)
        exact Option.some.inj hless
      next hne hnlt =>
        refine ih (by omega) (by omega) (fun x hx => ?_) hep (by omega)
        obtain rfl := Option.some.inj (hget.symm.trans hx)
        rcases hcmp : cmp data l[(ep - sp) / 2 + sp] with _ | _ | _
        · exact absurd (congrArg some hcmp) hnlt
        · exact absurd (congrArg some hcmp) hne
        · rfl

theorem insertId_fits (hs : Sorted cmp l) (data : α) : Fits cmp data l (insertId cmp data l) := by
  rw [insertId]
  split
  next first last hfirst hlast =>
    rw [List.head?_eq_getElem?] at hfirst
    rw [List.getLast?_eq_getElem?] at hlast
    have hpos : 0 < l.length := (List.getElem?_eq_some_iff.mp hfirst).1
    split
    next hle =>
      exact hs.fits_zero fun x hx => Option.some.inj (hfirst.symm.trans hx) ▸ hle
    next hgt =>
      split
      next hge =>
        rw [← Nat.sub_add_cancel hpos]
        refine hs.fits_succ hlast (OrientedCmp.isGE_iff_isLE.mp hge) fun y hy => ?_
        rw [Nat.sub_add_cancel hpos, List.getElem?_length] at hy
        cases hy
      next hlt =>
        refine insertIdLoop_fits hs hpos le_rfl (fun x hx => ?_) (fun x hx => ?_) (by omega)
        · obtain rfl := Option.some.inj (hfirst.symm.trans hx)
          exact Ordering.isLE_eq_false.mp (Bool.eq_false_iff.mpr hgt)
        · rw [List.getElem?_length] at hx
          cases hx
  next hnot =>
    rcases l with _ | ⟨a, l⟩
    · exact ⟨fun _ _ _ hx => (by cases hx), fun _ _ _ hx => (by cases hx)⟩
    · exact absurd (List.getLast?_eq_some_getLast (List.cons_ne_nil a l)) (hnot a _ rfl)

theorem insert_sorted (hs : Sorted cmp l) (data : α) : Sorted cmp (insert cmp data l) :=
  hs.insertIdx (insertId_fits hs data) (insertId_le cmp data l)

/-! ## A sorted list put in again -/

omit [TransCmp cmp] in
/-- An element that is not above the first one comes in front of it. -/
theorem insert_front (hle : (cmp data x).isLE) : insert cmp data (x :: l) = data :: x :: l := by
  have hlast := List.getLast?_eq_some_getLast (List.cons_ne_nil x l)
  rw [insert, insertId, List.head?_cons, hlast]
  simp only [hle, ↓reduceIte, List.insertIdx_zero]

/-- An element above the first one and not below the last one comes behind all. -/
theorem insert_back (hfirst : l.head? = some x) (hgt : cmp data x = .gt)
    (hlast : ∀ y ∈ l, (cmp y data).isLE) : insert cmp data l = l ++ [data] := by
  have hne : l ≠ [] := by
    rintro rfl
    cases hfirst
  have hge : (cmp data (l.getLast hne)).isGE :=
    OrientedCmp.isGE_iff_isLE.mpr (hlast _ (List.getLast_mem hne))
  have hnle : (cmp data x).isLE = false := by rw [hgt]; rfl
  rw [insert, insertId, hfirst, List.getLast?_eq_some_getLast hne]
  simp only [hnle, hge, Bool.false_eq_true, ↓reduceIte, List.insertIdx_length_self]

/-- The elements at the front that equal the first one. -/
def lead (cmp : α → α → Ordering) : List α → List α
  | [] => []
  | a :: l => a :: l.takeWhile fun x => cmp x a == .eq

theorem foldl_insert_front {a : α} {p : List α} (hl : ∀ y ∈ l, cmp y a = .eq) (hne : l ≠ [])
    (hp : ∀ x ∈ p, cmp x a = .eq) :
    p.foldl (fun acc x => insert cmp x acc) l = p.reverse ++ l := by
  induction p generalizing l with
  | nil => rfl
  | cons x p ih =>
    obtain ⟨b, m, rfl⟩ := List.exists_cons_of_ne_nil hne
    have hx := hp x List.mem_cons_self
    have hxb : (cmp x b).isLE := by
      rw [TransCmp.congr_left hx, OrientedCmp.eq_symm (hl b List.mem_cons_self)]
      rfl
    rw [List.foldl_cons, insert_front hxb, ih, List.reverse_cons, List.append_assoc]
    · rfl
    · rintro y (_ | ⟨_, hy⟩)
      · exact hx
      · exact hl y hy
    · exact List.cons_ne_nil _ _
    · exact fun y hy => hp y (List.mem_cons_of_mem x hy)

theorem foldl_insert_back {a : α} {q : List α} (hfirst : l.head? = some a)
    (hgt : ∀ x ∈ q, cmp x a = .gt) (hle : ∀ y ∈ l, ∀ x ∈ q, (cmp y x).isLE) (hs : Sorted cmp q) :
    q.foldl (fun acc x => insert cmp x acc) l = l ++ q := by
  induction q generalizing l with
  | nil => rw [List.foldl_nil, List.append_nil]
  | cons x q ih =>
    obtain ⟨hx, hq⟩ := List.pairwise_cons.mp hs
    rw [List.foldl_cons, insert_back hfirst (hgt x List.mem_cons_self) fun y hy =>
      hle y hy x List.mem_cons_self, ih]
    · rw [List.append_assoc]
      rfl
    · rw [List.head?_append, hfirst]
      rfl
    · exact fun y hy => hgt y (List.mem_cons_of_mem x hy)
    · intro y hy z hz
      rcases List.mem_append.mp hy with hy | hy
      · exact hle y hy z (List.mem_cons_of_mem x hz)
      · rw [List.mem_singleton.mp hy]
        exact hx z hz
    · exact hq

omit [TransCmp cmp] in
theorem eq_of_mem_lead {a : α} (hx : x ∈ l.takeWhile fun x => cmp x a == .eq) : cmp x a = .eq :=
  eq_of_beq (List.mem_takeWhile_imp (p := fun x => cmp x a == .eq) hx)

omit [TransCmp cmp] in
theorem lead_append_drop (cmp : α → α → Ordering) (l : List α) :
    lead cmp l ++ l.drop (lead cmp l).length = l := by
  have hpre : lead cmp l <+: l := by
    cases l with
    | nil => exact List.prefix_refl []
    | cons a l => exact List.cons_prefix_cons.mpr ⟨rfl, List.takeWhile_prefix _⟩
  exact List.prefix_iff_eq_append.mp hpre

/-- What follows the elements that equal the first one is above it. -/
theorem gt_of_mem_rest {a : α} (hs : Sorted cmp (a :: l))
    (hx : x ∈ l.dropWhile fun x => cmp x a == .eq) : cmp x a = .gt := by
  obtain ⟨ha, hl⟩ := List.pairwise_cons.mp hs
  rcases hd : l.dropWhile fun x => cmp x a == .eq with _ | ⟨b, m⟩
  · rw [hd] at hx
    cases hx
  have hsub : (b :: m).Sublist l := hd ▸ List.dropWhile_sublist _
  have hb : cmp b a = .gt := by
    have hne : cmp b a ≠ .eq := by
      have hhead := List.head?_dropWhile_not (fun x => cmp x a == .eq) l
      rw [hd] at hhead
      simpa using hhead
    have hle := ha b (hsub.subset List.mem_cons_self)
    rcases hcmp : cmp a b with _ | _ | _
    · exact OrientedCmp.gt_iff_lt.mpr hcmp
    · exact absurd (OrientedCmp.eq_symm hcmp) hne
    · rw [hcmp] at hle
      cases hle
  rw [hd] at hx
  rcases hx with _ | ⟨_, hx⟩
  · exact hb
  · have hbx := (List.pairwise_cons.mp (List.Pairwise.sublist hsub hl)).1 x hx
    exact TransCmp.gt_of_isGE_of_gt (OrientedCmp.isGE_of_isLE hbx) hb

/-- A sorted list put into an empty array, first element first, turns around the elements
that equal the first one, and nothing else. -/
theorem foldl_insert_sorted (hs : Sorted cmp l) :
    l.foldl (fun acc x => insert cmp x acc) [] =
      (lead cmp l).reverse ++ l.drop (lead cmp l).length := by
  rcases l with _ | ⟨a, l⟩
  · rfl
  obtain ⟨ha, hl⟩ := List.pairwise_cons.mp hs
  have hsplit := List.takeWhile_append_dropWhile (p := fun x => cmp x a == .eq) (l := l)
  have hdrop : (a :: l).drop (lead cmp (a :: l)).length = l.dropWhile fun x => cmp x a == .eq := by
    rw [lead, List.length_cons, List.drop_succ_cons]
    nth_rewrite 2 [← hsplit]
    exact List.drop_left
  have hlead : ∀ y ∈ (l.takeWhile fun x => cmp x a == .eq).reverse ++ [a], cmp y a = .eq := by
    intro y hy
    rcases List.mem_append.mp hy with hy | hy
    · exact eq_of_mem_lead (List.mem_reverse.mp hy)
    · rw [List.mem_singleton.mp hy]
      exact ReflCmp.compare_self
  obtain ⟨b, hb⟩ : ∃ b, ((l.takeWhile fun x => cmp x a == .eq).reverse ++ [a]).head? = some b :=
    ⟨_, List.head?_eq_some_head (by simp)⟩
  have hba := hlead b (List.mem_of_mem_head? hb)
  rw [hdrop, List.foldl_cons, show insert cmp a [] = [a] from rfl]
  nth_rewrite 1 [← hsplit]
  rw [List.foldl_append,
    foldl_insert_front (fun y hy => hlead y (List.mem_append_right _ hy)) (List.cons_ne_nil a [])
      fun x hx => eq_of_mem_lead hx,
    foldl_insert_back hb (fun x hx => ?_) (fun y hy x hx => ?_)
      (List.Pairwise.sublist (List.dropWhile_sublist _) hl), lead, List.reverse_cons]
  · rw [TransCmp.congr_right hba]
    exact gt_of_mem_rest hs hx
  · rw [TransCmp.congr_left (hlead y hy)]
    exact ha x ((List.dropWhile_sublist _).subset hx)

/-! ## The bisection of `index` -/

/-- An element equal to `data` stands between `sp` and `ep`, or nowhere. -/
theorem indexLoop_finds (hs : Sorted cmp l) (hlt : sp < ep) (hle : ep ≤ l.length)
    (hsp : ∀ j x, j < sp → l[j]? = some x → cmp data x ≠ .eq)
    (hep : ∀ j x, ep ≤ j → l[j]? = some x → cmp data x ≠ .eq) (hfuel : ep - sp ≤ fuel) :
    (∀ i, indexLoop cmp data l fuel sp ep = some i → ∃ x, l[i]? = some x ∧ cmp data x = .eq) ∧
      (indexLoop cmp data l fuel sp ep = none → ∀ x ∈ l, cmp data x ≠ .eq) := by
  induction fuel generalizing sp ep with
  | zero => exact absurd hlt (by omega)
  | succ fuel ih =>
    have hcp : sp ≤ (ep - sp) / 2 + sp ∧ (ep - sp) / 2 + sp < ep := by omega
    simp only [indexLoop]
    split
    next hend =>
      obtain rfl : ep = sp + 1 := by omega
      have hget := List.getElem?_eq_getElem (show sp < l.length from hle)
      simp only [Nat.add_sub_cancel, hget, Option.map_some, Option.some.injEq]
      split
      next heq =>
        refine ⟨fun i hi => ⟨_, ?_, heq⟩, fun hi => (by cases hi)⟩
        rw [← Option.some.inj hi, hget]
      next hne =>
        refine ⟨fun i hi => (by cases hi), fun _ x hx => ?_⟩
        obtain ⟨j, hj⟩ := List.mem_iff_getElem?.mp hx
        rcases Nat.lt_trichotomy j sp with hjs | rfl | hjs
        · exact hsp j x hjs hj
        · exact Option.some.inj (hget.symm.trans hj) ▸ hne
        · exact hep j x hjs hj
    next hmid =>
      have hget := List.getElem?_eq_getElem (show (ep - sp) / 2 + sp < l.length by omega)
      rw [hget, Option.map_some]
      split
      next heq =>
        refine ⟨fun i hi => ⟨_, ?_, Option.some.inj heq⟩, fun hi => (by cases hi)⟩
        rw [← Option.some.inj hi, hget]
      next hless =>
        refine ih (by omega) (by omega) hsp (fun j x hj hx => ?_) (by omega)
        -- what stands behind the middle is above `data` as well
        have hxlt := TransCmp.lt_of_lt_of_isLE (Option.some.inj hless) (hs.le hj hget hx)
        rw [hxlt]
        decide
      next hne hnlt =>
        refine ih (by omega) (by omega) (fun j x hj hx => ?_) hep (by omega)
        have hgt : cmp data l[(ep - sp) / 2 + sp] = .gt := by
          rcases hcmp : cmp data l[(ep - sp) / 2 + sp] with _ | _ | _
          · exact absurd (congrArg some hcmp) hnlt
          · exact absurd (congrArg some hcmp) hne
          · rfl
        have hxgt := TransCmp.gt_of_gt_of_isGE hgt (OrientedCmp.isGE_of_isLE (hs.le hj.le hx hget))
        rw [hxgt]
        decide

/-- `index` finds an element equal to `data`, if there is one. -/
theorem index_finds (hs : Sorted cmp l) (data : α) :
    (∀ i, index cmp data l = some i → ∃ x, l[i]? = some x ∧ cmp data x = .eq) ∧
      (index cmp data l = none → ∀ x ∈ l, cmp data x ≠ .eq) := by
  rw [index]
  split
  next first last hfirst hlast =>
    rw [List.head?_eq_getElem?] at hfirst
    rw [List.getLast?_eq_getElem?] at hlast
    have hpos : 0 < l.length := (List.getElem?_eq_some_iff.mp hfirst).1
    split
    next hout =>
      refine ⟨fun i hi => (by cases hi), fun _ x hx heq => ?_⟩
      obtain ⟨j, hj⟩ := List.mem_iff_getElem?.mp hx
      rcases hout with hlt | hgt
      · have hxlt := TransCmp.lt_of_lt_of_isLE hlt (hs.le (Nat.zero_le j) hfirst hj)
        rw [heq] at hxlt
        cases hxlt
      · have hjl := (List.getElem?_eq_some_iff.mp hj).1
        have hxgt := TransCmp.gt_of_gt_of_isGE hgt
          (OrientedCmp.isGE_of_isLE (hs.le (Nat.le_sub_one_of_lt hjl) hj hlast))
        rw [heq] at hxgt
        cases hxgt
    next hin =>
      refine indexLoop_finds hs hpos le_rfl (fun j _ hj => absurd hj (Nat.not_lt_zero j))
        (fun j x hj hx => ?_) (by omega)
      exact absurd (List.getElem?_eq_some_iff.mp hx).1 (by omega)
  next hnot =>
    rcases l with _ | ⟨a, l⟩
    · exact ⟨fun i hi => (by cases hi), fun _ x hx => (by cases hx)⟩
    · exact absurd (List.getLast?_eq_some_getLast (List.cons_ne_nil a l)) (hnot a _ rfl)

theorem index_isSome_iff (hs : Sorted cmp l) (data : α) :
    (index cmp data l).isSome ↔ ∃ x ∈ l, cmp data x = .eq := by
  obtain ⟨hfound, hnone⟩ := index_finds hs data
  rcases hi : index cmp data l with _ | i
  · exact iff_of_false (by simp) fun ⟨x, hx, heq⟩ => hnone hi x hx heq
  · obtain ⟨x, hx, heq⟩ := hfound i hi
    exact iff_of_true rfl ⟨x, List.mem_of_getElem? hx, heq⟩

end

end ArraySorted

structure NamedValue where
  name : Bytes
  value : Bytes
  deriving DecidableEq, Repr

/-- The order of `NamedValue`: that of the names. -/
def NamedValue.compare (a b : NamedValue) : Ordering :=
  compareChars a.name b.name

/-- `HttpHeader::appendHeader`. Name and value go through `const char *`, so they
end at their first NUL. -/
def appendHeader (l : List NamedValue) (name value : Bytes) : List NamedValue :=
  let nv : NamedValue := ⟨cstr name, cstr value⟩
  ArraySorted.insert NamedValue.compare nv (ArraySorted.remove NamedValue.compare nv l)

example : ([(bytes "b", bytes "1"), (bytes "a", bytes "2"), (bytes "b", bytes "3")].foldl
    (fun l h => appendHeader l h.1 h.2) []) =
      [⟨bytes "a", bytes "2"⟩, ⟨bytes "b", bytes "3"⟩] := by decide

end Dframework
