import Mathlib

/-!
# Trees that are searched step by step

An element of a tree is told by its position, the numbers of the childs on the way down to it, so
that the order of the document is the lexicographic one. A search goes down the tree with the
number of a step. Where a label fits the step, it goes on with the next one below; where the step
is not the first, or the label does not fit, it begins again below. So the childs of an element can
be gone through twice, and those of one that fits the first step are not begun at.

Results:
1. `mem_visit_zero_iff`: what is found, by the labels on the way down to it.
2. `pairwise_visit_iff`: when it is found in the order of the document, and once.
-/

/-- A label and the childs below it. -/
inductive Rose (α : Type*) where
  | node (a : α) (childs : List (Rose α))

namespace Rose

variable {α : Type*}

def label : Rose α → α
  | node a _ => a

/-- What holds of a node when it holds of its childs holds of all nodes. -/
theorem induct {P : Rose α → Prop} (h : ∀ a childs, (∀ c ∈ childs, P c) → P (node a childs)) :
    ∀ t, P t
  | node a childs => h a childs fun c _ => induct h c

abbrev Place := List Nat

def Before : Place → Place → Prop := List.Lex (· < ·)

section

variable (elem : α → Bool) (fits : Nat → α → Bool) (n : Nat)

/-- The labels on the way down to a position, those of its ends included. Childs that are no
elements are passed by. -/
def line : Rose α → Place → Option (List α)
  | node a _, [] => some [a]
  | node a childs, k :: p =>
    match childs[k]? with
    | some c => if elem c.label then (line c p).map (a :: ·) else none
    | none => none

mutual

/-- What a search finds that comes to a node with step `d` of `n`. -/
def visit : Rose α → Nat → List Place
  | node a childs, d =>
    (if fits d a ∧ d + 1 = n then [[]] else []) ++
      ((if fits d a ∧ d + 1 < n then visitChilds childs 0 (d + 1) else []) ++
        (if d ≠ 0 ∨ fits d a = false then visitChilds childs 0 0 else []))

/-- What it finds in the childs from the `k`-th on. -/
def visitChilds : List (Rose α) → Nat → Nat → List Place
  | [], _, _ => []
  | c :: cs, k, d =>
    (if elem c.label then (visit c d).map (k :: ·) else []) ++ visitChilds cs (k + 1) d

end

/-- Below a label that it comes to with step `d`, the search goes on with step `e`. -/
def Next (d : Nat) (a : α) (e : Nat) : Prop :=
  (fits d a ∧ d + 1 < n ∧ e = d + 1) ∨ ((d ≠ 0 ∨ fits d a = false) ∧ e = 0)

/-- Behind the labels the search comes to what follows with step `e`, when it has come to the first
of them with step `d`. -/
inductive Comes : Nat → List α → Nat → Prop
  | nil (d : Nat) : Comes d [] d
  | cons {d e f : Nat} {a : α} {l : List α} : Next fits n d a e → Comes e l f → Comes d (a :: l) f

/-- The search finds `y` below `p`, when it comes to the childs of `p` with step `e`. -/
def FoundBelow (t : Rose α) (p : Place) (e : Nat) (y : Place) : Prop :=
  p <+: y ∧ ∃ l m x, l.length = p.length + 1 ∧ t.line elem y = some (l ++ (m ++ [x])) ∧
    Comes fits n e m (n - 1) ∧ fits (n - 1) x

end

variable {elem : α → Bool} {fits : Nat → α → Bool} {n d e f k : Nat} {a x : α} {l m : List α}
  {t : Rose α} {childs : List (Rose α)} {p q : Place}

/-! ## The way down -/

theorem comes_nil_iff : Comes fits n d [] e ↔ d = e := by
  constructor
  · rintro ⟨⟩
    rfl
  · rintro rfl
    exact .nil d

theorem comes_cons_iff :
    Comes fits n d (a :: l) f ↔ ∃ e, Next fits n d a e ∧ Comes fits n e l f := by
  constructor
  · rintro (_ | ⟨hnext, hcomes⟩)
    exact ⟨_, hnext, hcomes⟩
  · rintro ⟨e, hnext, hcomes⟩
    exact .cons hnext hcomes

theorem comes_concat_iff :
    Comes fits n d (l ++ [a]) f ↔ ∃ e, Comes fits n d l e ∧ Next fits n e a f := by
  induction l generalizing d with
  | nil => simp [comes_cons_iff, comes_nil_iff]
  | cons b l ih =>
    simp only [List.cons_append, comes_cons_iff, ih]
    constructor
    · rintro ⟨e, hnext, e', hcomes, hlast⟩
      exact ⟨e', ⟨e, hnext, hcomes⟩, hlast⟩
    · rintro ⟨e', ⟨e, hnext, hcomes⟩, hlast⟩
      exact ⟨e, hnext, e', hcomes, hlast⟩

def FitsAll (fits : Nat → α → Bool) (l : List α) : Prop :=
  ∀ i x, l[i]? = some x → fits i x

theorem fitsAll_concat : FitsAll fits (l ++ [a]) ↔ FitsAll fits l ∧ fits l.length a := by
  constructor
  · intro h
    refine ⟨fun i x hx => h i x ?_, h l.length a List.getElem?_concat_length⟩
    rw [List.getElem?_append_left (List.getElem?_eq_some_iff.mp hx).1]
    exact hx
  · rintro ⟨hl, ha⟩ i x hx
    rw [List.getElem?_append] at hx
    split at hx
    · exact hl i x hx
    next hge =>
      rw [List.getElem?_singleton] at hx
      split at hx
      next hi =>
        obtain rfl := Option.some.inj hx
        obtain rfl : i = l.length := by omega
        exact ha
      next => cases hx

/-- The search has come to step `d` where the labels in front fit the steps before it, and it began
at the first of them. -/
theorem comes_zero_iff (hd : d < n) : Comes fits n 0 l d ↔
    ∃ l₁ l₂, l = l₁ ++ l₂ ∧ l₂.length = d ∧ Comes fits n 0 l₁ 0 ∧ FitsAll fits l₂ := by
  induction d generalizing l with
  | zero =>
    constructor
    · exact fun h => ⟨l, [], (List.append_nil l).symm, rfl, h, by simp [FitsAll]⟩
    · rintro ⟨l₁, l₂, rfl, hl₂, h, -⟩
      rw [List.length_eq_zero_iff.mp hl₂, List.append_nil]
      exact h
  | succ d ih =>
    have hd' : d < n := Nat.lt_of_succ_lt hd
    constructor
    · intro h
      rcases l.eq_nil_or_concat' with rfl | ⟨l, a, rfl⟩
      · exact absurd (comes_nil_iff.mp h) (Nat.succ_ne_zero d).symm
      obtain ⟨e, hcomes, hnext⟩ := comes_concat_iff.mp h
      rcases hnext with ⟨hfits, -, he⟩ | ⟨-, he⟩
      · obtain rfl := Nat.succ.inj he
        obtain ⟨l₁, l₂, rfl, rfl, hbegun, hall⟩ := (ih hd').mp hcomes
        exact ⟨l₁, l₂ ++ [a], List.append_assoc .., by simp, hbegun, fitsAll_concat.mpr ⟨hall, hfits⟩⟩
      · exact absurd he (Nat.succ_ne_zero d)
    · rintro ⟨l₁, l₂, rfl, hlen, hbegun, hall⟩
      rcases l₂.eq_nil_or_concat' with rfl | ⟨l₂, a, rfl⟩
      · exact absurd hlen (Nat.succ_ne_zero d).symm
      obtain rfl : l₂.length = d := by simpa using hlen
      obtain ⟨hall, ha⟩ := fitsAll_concat.mp hall
      rw [← List.append_assoc, comes_concat_iff]
      exact ⟨_, (ih hd').mpr ⟨l₁, l₂, rfl, rfl, hbegun, hall⟩, .inl ⟨ha, hd, rfl⟩⟩

/-! ## What is found -/

theorem mem_visitChilds_iff : q ∈ visitChilds elem fits n childs k d ↔
    ∃ i p c, q = (k + i) :: p ∧ childs[i]? = some c ∧ elem c.label ∧ p ∈ visit elem fits n c d := by
  induction childs generalizing k with
  | nil => simp [visitChilds]
  | cons c childs ih =>
    rw [visitChilds, List.mem_append, ih]
    constructor
    · rintro (h | ⟨i, p, c', rfl, hc, helem, hp⟩)
      · split at h
        next helem =>
          obtain ⟨p, hp, rfl⟩ := List.mem_map.mp h
          exact ⟨0, p, c, rfl, rfl, helem, hp⟩
        next => cases h
      · exact ⟨i + 1, p, c', by rw [Nat.add_right_comm, Nat.add_assoc], hc, helem, hp⟩
    · rintro ⟨_ | i, p, c', rfl, hc, helem, hp⟩
      · obtain rfl := Option.some.inj hc
        left
        rw [if_pos helem]
        exact List.mem_map_of_mem hp
      · exact .inr ⟨i, p, c', by rw [Nat.add_right_comm, Nat.add_assoc], hc, helem, hp⟩

theorem mem_visit_node_iff : q ∈ visit elem fits n (node a childs) d ↔
    (q = [] ∧ fits d a ∧ d + 1 = n) ∨
      ∃ e, Next fits n d a e ∧ q ∈ visitChilds elem fits n childs 0 e := by
  rw [visit, List.mem_append, List.mem_append]
  constructor
  · rintro (h | h | h)
    · split at h
      next hfits => exact .inl ⟨List.mem_singleton.mp h, hfits⟩
      next => cases h
    · split at h
      next hfits => exact .inr ⟨d + 1, .inl ⟨hfits.1, hfits.2, rfl⟩, h⟩
      next => cases h
    · split at h
      next hagain => exact .inr ⟨0, .inr ⟨hagain, rfl⟩, h⟩
      next => cases h
  · rintro (⟨rfl, hfits⟩ | ⟨e, ⟨hfits, hd, rfl⟩ | ⟨hagain, rfl⟩, h⟩)
    · exact .inl (by rw [if_pos hfits]; exact List.mem_cons_self)
    · exact .inr (.inl (by rw [if_pos ⟨hfits, hd⟩]; exact h))
    · exact .inr (.inr (by rw [if_pos hagain]; exact h))

theorem line_cons : (node a childs).line elem (k :: p) =
    (childs[k]?).bind fun c => if elem c.label then (c.line elem p).map (a :: ·) else none := by
  rw [line]
  cases childs[k]? <;> rfl

theorem line_cons_eq_some : (node a childs).line elem (k :: p) = some l ↔
    ∃ c m, childs[k]? = some c ∧ elem c.label ∧ c.line elem p = some m ∧ l = a :: m := by
  rw [line_cons]
  constructor
  · intro h
    obtain ⟨c, hc, h⟩ := Option.bind_eq_some_iff.mp h
    split at h
    next helem =>
      obtain ⟨m, hm, rfl⟩ := Option.map_eq_some_iff.mp h
      exact ⟨c, m, hc, helem, hm, rfl⟩
    next => cases h
  · rintro ⟨c, m, hc, helem, hm, rfl⟩
    rw [hc, Option.bind_some, if_pos helem, hm]
    rfl

theorem length_line (h : t.line elem p = some l) : l.length = p.length + 1 := by
  induction p generalizing t l with
  | nil =>
    obtain ⟨a, childs⟩ := t
    obtain rfl := Option.some.inj h
    rfl
  | cons k p ih =>
    obtain ⟨a, childs⟩ := t
    obtain ⟨c, m, -, -, hm, rfl⟩ := line_cons_eq_some.mp h
    rw [List.length_cons, ih hm, List.length_cons]

/-- A search that comes to a node with step `d` finds where it comes with the last step to a label
that fits it. -/
theorem mem_visit_iff (hd : d < n) : p ∈ visit elem fits n t d ↔
    ∃ l x, t.line elem p = some (l ++ [x]) ∧ Comes fits n d l (n - 1) ∧ fits (n - 1) x := by
  induction p generalizing t d with
  | nil =>
    obtain ⟨a, childs⟩ := t
    rw [mem_visit_node_iff]
    constructor
    · rintro (⟨-, hfits, hlast⟩ | ⟨e, -, h⟩)
      · obtain rfl : d = n - 1 := by omega
        exact ⟨[], a, rfl, .nil _, hfits⟩
      · obtain ⟨i, p, c, h, -⟩ := mem_visitChilds_iff.mp h
        cases h
    · rintro ⟨l, x, hline, hcomes, hfits⟩
      have hl : [] ++ [a] = l ++ [x] := Option.some.inj hline
      obtain ⟨rfl, hx⟩ := List.append_inj' hl rfl
      obtain rfl : a = x := List.singleton_injective hx
      obtain rfl := comes_nil_iff.mp hcomes
      exact .inl ⟨rfl, hfits, by omega⟩
  | cons k p ih =>
    obtain ⟨a, childs⟩ := t
    rw [mem_visit_node_iff]
    have hnextlt : ∀ {e}, Next fits n d a e → e < n := by
      rintro e (⟨-, hlt, rfl⟩ | ⟨-, rfl⟩)
      · exact hlt
      · exact Nat.zero_lt_of_lt hd
    constructor
    · rintro (⟨h, -⟩ | ⟨e, hnext, h⟩)
      · cases h
      obtain ⟨i, p', c, hkp, hc, helem, hp⟩ := mem_visitChilds_iff.mp h
      rw [Nat.zero_add] at hkp
      obtain ⟨rfl, rfl⟩ := List.cons.inj hkp
      obtain ⟨l, x, hline, hcomes, hfits⟩ := (ih (hnextlt hnext)).mp hp
      exact ⟨a :: l, x, line_cons_eq_some.mpr ⟨c, _, hc, helem, hline, rfl⟩, .cons hnext hcomes, hfits⟩
    · rintro ⟨l, x, hline, hcomes, hfits⟩
      obtain ⟨c, m, hc, helem, hm, hl⟩ := line_cons_eq_some.mp hline
      rcases l with _ | ⟨b, l⟩
      · have hlen := length_line hm
        rw [(List.cons.inj hl).2.symm] at hlen
        exact absurd hlen (Nat.succ_ne_zero _).symm
      obtain ⟨rfl, rfl⟩ := List.cons.inj hl
      obtain ⟨e, hnext, hcomes⟩ := comes_cons_iff.mp hcomes
      refine .inr ⟨e, hnext, mem_visitChilds_iff.mpr ⟨k, p, c, by rw [Nat.zero_add], hc, helem, ?_⟩⟩
      exact (ih (hnextlt hnext)).mpr ⟨l, x, hm, hcomes, hfits⟩

/-- A search from the root finds the ends of the lines whose last labels fit the steps, if it
begins at the first of these. -/
theorem mem_visit_zero_iff (hn : 0 < n) : p ∈ visit elem fits n t 0 ↔
    ∃ l₁ l₂, t.line elem p = some (l₁ ++ l₂) ∧ l₂.length = n ∧ Comes fits n 0 l₁ 0 ∧
      FitsAll fits l₂ := by
  rw [mem_visit_iff hn]
  constructor
  · rintro ⟨l, x, hline, hcomes, hfits⟩
    obtain ⟨l₁, l₂, rfl, hlen, hbegun, hall⟩ := (comes_zero_iff (by omega)).mp hcomes
    refine ⟨l₁, l₂ ++ [x], by rw [hline, List.append_assoc], ?_, hbegun, fitsAll_concat.mpr ⟨hall, ?_⟩⟩
    · rw [List.length_append, List.length_singleton]
      omega
    · rw [hlen]
      exact hfits
  · rintro ⟨l₁, l₂, hline, hlen, hbegun, hall⟩
    rcases l₂.eq_nil_or_concat' with rfl | ⟨l₂, x, rfl⟩
    · exact absurd hlen hn.ne
    obtain ⟨hall, hx⟩ := fitsAll_concat.mp hall
    have hlen' : l₂.length = n - 1 := by
      rw [List.length_append, List.length_singleton] at hlen
      omega
    rw [hlen'] at hx
    exact ⟨l₁ ++ l₂, x, by rw [hline, List.append_assoc], (comes_zero_iff (by omega)).mpr
      ⟨l₁, l₂, rfl, hlen', hbegun, hall⟩, hx⟩

/-! ## The order in which it is found -/

theorem foundBelow_cons_iff : FoundBelow elem fits n (node a childs) (k :: p) e q ↔
    ∃ c y, q = k :: y ∧ childs[k]? = some c ∧ elem c.label ∧ FoundBelow elem fits n c p e y := by
  constructor
  · rintro ⟨⟨w, rfl⟩, l, m, x, hlen, hline, hcomes, hfits⟩
    obtain ⟨c, m', hc, helem, hm, hl⟩ := line_cons_eq_some.mp hline
    rcases l with _ | ⟨b, l⟩
    · cases hlen
    obtain ⟨-, rfl⟩ := List.cons.inj hl
    exact ⟨c, p ++ w, rfl, hc, helem, List.prefix_append p w, l, m, x, Nat.succ.inj hlen, hm,
      hcomes, hfits⟩
  · rintro ⟨c, y, rfl, hc, helem, ⟨w, rfl⟩, l, m, x, hlen, hline, hcomes, hfits⟩
    exact ⟨⟨w, rfl⟩, a :: l, m, x, congrArg Nat.succ hlen,
      line_cons_eq_some.mpr ⟨c, _, hc, helem, hline, rfl⟩, hcomes, hfits⟩

theorem foundBelow_nil_iff (he : e < n) : FoundBelow elem fits n (node a childs) [] e q ↔
    q ∈ visitChilds elem fits n childs 0 e := by
  rw [mem_visitChilds_iff]
  constructor
  · rintro ⟨-, l, m, x, hlen, hline, hcomes, hfits⟩
    obtain ⟨b, rfl⟩ := List.length_eq_one_iff.mp hlen
    rcases q with _ | ⟨k, p⟩
    · have hl := length_line hline
      simp at hl
    · obtain ⟨c, m', hc, helem, hm, hl⟩ := line_cons_eq_some.mp hline
      obtain ⟨-, rfl⟩ := List.cons.inj hl
      exact ⟨k, p, c, by rw [Nat.zero_add], hc, helem, (mem_visit_iff he).mpr ⟨m, x, hm, hcomes, hfits⟩⟩
  · rintro ⟨k, p, c, rfl, hc, helem, hp⟩
    rw [Nat.zero_add]
    obtain ⟨m, x, hline, hcomes, hfits⟩ := (mem_visit_iff he).mp hp
    exact ⟨List.nil_prefix, [a], m, x, rfl, line_cons_eq_some.mpr ⟨c, _, hc, helem, hline, rfl⟩,
      hcomes, hfits⟩

theorem before_cons_iff : Before (k :: p) (k :: q) ↔ Before p q := by
  constructor
  · rintro (_ | h | h)
    · exact absurd h (lt_irrefl k)
    · exact h
  · exact .cons

/-- What is found in the childs is in order when it is in each of them. -/
theorem pairwise_visitChilds_iff : (visitChilds elem fits n childs k d).Pairwise Before ↔
    ∀ c ∈ childs, elem c.label → (visit elem fits n c d).Pairwise Before := by
  induction childs generalizing k with
  | nil => simp [visitChilds]
  | cons c childs ih =>
    rw [visitChilds, List.pairwise_append, ih, List.forall_mem_cons]
    -- the numbers of the childs keep them apart
    have hcross : ∀ x ∈ (if elem c.label then (visit elem fits n c d).map (k :: ·) else []),
        ∀ y ∈ visitChilds elem fits n childs (k + 1) d, Before x y := by
      intro x hx y hy
      split at hx
      next =>
        obtain ⟨p, -, rfl⟩ := List.mem_map.mp hx
        obtain ⟨i, q, c', rfl, -⟩ := mem_visitChilds_iff.mp hy
        exact .rel (by omega)
      next => cases hx
    have hfirst : (if elem c.label then (visit elem fits n c d).map (k :: ·) else []).Pairwise Before ↔
        (elem c.label → (visit elem fits n c d).Pairwise Before) := by
      by_cases helem : elem c.label
      · rw [if_pos helem, List.pairwise_map]
        simp only [before_cons_iff]
        exact ⟨fun h _ => h, fun h => h helem⟩
      · rw [if_neg helem]
        exact ⟨fun _ h => absurd h helem, fun _ => List.Pairwise.nil⟩
    rw [hfirst]
    exact ⟨fun h => ⟨h.1, h.2.1⟩, fun h => ⟨h.1, h.2, hcross⟩⟩

/-- Where the search goes through the childs of an element twice, it finds the more in the first
pass only in front of what it finds in the second. -/
def InTurn (elem : α → Bool) (fits : Nat → α → Bool) (n : Nat) (t : Rose α) (d : Nat) : Prop :=
  ∀ p l x e, t.line elem p = some (l ++ [x]) → Comes fits n d l e → e ≠ 0 → e + 1 < n → fits e x →
    ∀ y z, FoundBelow elem fits n t p (e + 1) y → FoundBelow elem fits n t p 0 z → Before y z

theorem inTurn_node_iff (hd : d < n) : InTurn elem fits n (node a childs) d ↔
    (d ≠ 0 → d + 1 < n → fits d a → ∀ y ∈ visitChilds elem fits n childs 0 (d + 1),
      ∀ z ∈ visitChilds elem fits n childs 0 0, Before y z) ∧
    ∀ e, Next fits n d a e → ∀ c ∈ childs, elem c.label → InTurn elem fits n c e := by
  have hn := Nat.zero_lt_of_lt hd
  constructor
  · intro h
    refine ⟨fun hd0 hlt hfits y hy z hz => ?_, fun e hnext c hc helem => ?_⟩
    · exact h [] [] a d rfl (.nil d) hd0 hlt hfits y z ((foundBelow_nil_iff hlt).mpr hy)
        ((foundBelow_nil_iff hn).mpr hz)
    · obtain ⟨k, hk⟩ := List.getElem?_of_mem hc
      intro p l x f hline hcomes hf hlt hfits y z hy hz
      rw [← before_cons_iff (k := k)]
      exact h (k :: p) (a :: l) x f (line_cons_eq_some.mpr ⟨c, _, hk, helem, hline, rfl⟩)
        (.cons hnext hcomes) hf hlt hfits _ _
        (foundBelow_cons_iff.mpr ⟨c, y, rfl, hk, helem, hy⟩)
        (foundBelow_cons_iff.mpr ⟨c, z, rfl, hk, helem, hz⟩)
  · rintro ⟨htop, hbelow⟩ p l x f hline hcomes hf hlt hfits y z hy hz
    rcases p with _ | ⟨k, p⟩
    · have hl : [] ++ [a] = l ++ [x] := Option.some.inj hline
      obtain ⟨rfl, hx⟩ := List.append_inj' hl rfl
      obtain rfl : a = x := List.singleton_injective hx
      obtain rfl := comes_nil_iff.mp hcomes
      exact htop hf hlt hfits y ((foundBelow_nil_iff hlt).mp hy) z ((foundBelow_nil_iff hn).mp hz)
    · obtain ⟨c, m, hc, helem, hm, hl⟩ := line_cons_eq_some.mp hline
      rcases l with _ | ⟨b, l⟩
      · have hlen := length_line hm
        rw [(List.cons.inj hl).2.symm] at hlen
        exact absurd hlen (Nat.succ_ne_zero _).symm
      obtain ⟨rfl, rfl⟩ := List.cons.inj hl
      obtain ⟨e, hnext, hcomes⟩ := comes_cons_iff.mp hcomes
      obtain ⟨c₁, y, rfl, hc₁, -, hy⟩ := foundBelow_cons_iff.mp hy
      obtain ⟨c₂, z, rfl, hc₂, -, hz⟩ := foundBelow_cons_iff.mp hz
      obtain rfl := Option.some.inj (hc.symm.trans hc₁)
      obtain rfl := Option.some.inj (hc.symm.trans hc₂)
      rw [before_cons_iff]
      exact hbelow e hnext c (List.mem_of_getElem? hc) helem p l x f hm hcomes hf hlt hfits y z hy hz

/-- The elements are found in the order of the document, and none twice, if and only if each pass
through childs comes behind the pass before it. -/
theorem pairwise_visit_iff (hd : d < n) :
    (visit elem fits n t d).Pairwise Before ↔ InTurn elem fits n t d := by
  induction t using induct generalizing d with
  | h a childs ih =>
    have hn := Nat.zero_lt_of_lt hd
    have hpart : ∀ {P : Prop} [Decidable P] {e : Nat}, (P → e < n) →
        ((if P then visitChilds elem fits n childs 0 e else []).Pairwise Before ↔
          (P → ∀ c ∈ childs, elem c.label → InTurn elem fits n c e)) := by
      intro P _ e he
      by_cases hP : P
      · have hchilds : (visitChilds elem fits n childs 0 e).Pairwise Before ↔
            ∀ c ∈ childs, elem c.label → InTurn elem fits n c e :=
          pairwise_visitChilds_iff.trans (forall₂_congr fun c hc =>
            imp_congr_right fun _ => ih c hc (he hP))
        rw [if_pos hP, hchilds]
        exact ⟨fun h _ => h, fun h => h hP⟩
      · rw [if_neg hP]
        exact ⟨fun _ h => absurd h hP, fun _ => List.Pairwise.nil⟩
    have hhere : (if fits d a ∧ d + 1 = n then [([] : Place)] else []).Pairwise Before := by
      split
      · exact List.pairwise_singleton _ _
      · exact List.Pairwise.nil
    -- the node itself stands in front of what is below it
    have hdown : ∀ x ∈ (if fits d a ∧ d + 1 = n then [([] : Place)] else []), ∀ y ∈
        (if fits d a ∧ d + 1 < n then visitChilds elem fits n childs 0 (d + 1) else []) ++
          (if d ≠ 0 ∨ fits d a = false then visitChilds elem fits n childs 0 0 else []),
        Before x y := by
      intro x hx y hy
      have hy' : ∃ e, y ∈ visitChilds elem fits n childs 0 e := by
        rcases List.mem_append.mp hy with hy | hy <;> split at hy
        · exact ⟨_, hy⟩
        · cases hy
        · exact ⟨_, hy⟩
        · cases hy
      obtain ⟨e, hy'⟩ := hy'
      obtain ⟨i, p, c, rfl, -⟩ := mem_visitChilds_iff.mp hy'
      split at hx
      · obtain rfl := List.mem_singleton.mp hx
        exact .nil
      · cases hx
    rw [visit, List.pairwise_append, List.pairwise_append, inTurn_node_iff hd,
      hpart fun h => h.2, hpart fun _ => hn]
    constructor
    · rintro ⟨-, ⟨hfirst, hagain, hcross⟩, -⟩
      refine ⟨fun hd0 hlt hfits y hy z hz => hcross y ?_ z ?_, ?_⟩
      · rw [if_pos ⟨hfits, hlt⟩]
        exact hy
      · rw [if_pos (.inl hd0)]
        exact hz
      · rintro e (⟨hfits, hlt, rfl⟩ | ⟨h, rfl⟩)
        · exact hfirst ⟨hfits, hlt⟩
        · exact hagain h
    · rintro ⟨htop, hbelow⟩
      refine ⟨hhere, ⟨fun h => hbelow _ (.inl ⟨h.1, h.2, rfl⟩), fun h => hbelow _ (.inr ⟨h, rfl⟩), ?_⟩,
        hdown⟩
      intro y hy z hz
      split at hy
      next hfits =>
        split at hz
        next hagain =>
          refine htop (hagain.resolve_right ?_) hfits.2 hfits.1 y hy z hz
          rw [hfits.1]
          exact Bool.noConfusion
        next => cases hz
      next => cases hy

end Rose
