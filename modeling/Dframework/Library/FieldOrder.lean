import Mathlib

/-!
# Orders from several fields

Elements with several fields, each with an order of its own. One element is `Below` another
when some field of it is smaller, `Above` it when some field is larger, and the `Same` when
all fields agree. A rank can stand in front of such an order.

Results:
1. `strictOn_iff`: the elements of a set are strictly ordered just when no two of them
   disagree in both directions.
2. `strictOn_ranked_iff`: with a rank in front, just when that holds in every rank.
-/

namespace FieldOrder

variable {ι α β : Type*}

def ExactlyOne (p q r : Prop) : Prop :=
  (p ∧ ¬ q ∧ ¬ r) ∨ (¬ p ∧ q ∧ ¬ r) ∨ (¬ p ∧ ¬ q ∧ r)

theorem exactlyOne_ordering (o : Ordering) : ExactlyOne (o = .lt) (o = .eq) (o = .gt) := by
  cases o <;> simp [ExactlyOne]

/-- Three relations are a strict total order of the elements of a set, the third the first
one turned around. -/
structure StrictOn (S : Set α) (lt eq gt : α → α → Prop) : Prop where
  exactlyOne : ∀ a ∈ S, ∀ b ∈ S, ExactlyOne (lt a b) (eq a b) (lt b a)
  gt_iff : ∀ a ∈ S, ∀ b ∈ S, (gt a b ↔ lt b a)
  trans : ∀ a ∈ S, ∀ b ∈ S, ∀ c ∈ S, lt a b → lt b c → lt a c

/-- An order carried back along a function. -/
theorem transCmp_comap {cmp : α → α → Ordering} (h : Std.TransCmp cmp) (g : β → α) :
    Std.TransCmp fun a b => cmp (g a) (g b) where
  eq_swap := h.eq_swap
  isLE_trans := h.isLE_trans

section Fields

variable (cmp : ι → α → α → Ordering)

def Below (a b : α) : Prop :=
  ∃ i, cmp i a b = .lt

def Above (a b : α) : Prop :=
  ∃ i, cmp i a b = .gt

def Same (a b : α) : Prop :=
  ∀ i, cmp i a b = .eq

/-- The fields do not disagree in both directions. -/
def OneWay (a b : α) : Prop :=
  (∀ i, cmp i a b ≠ .gt) ∨ (∀ i, cmp i a b ≠ .lt)

variable {cmp} {a b c : α}

theorem same_iff : Same cmp a b ↔ ¬ Below cmp a b ∧ ¬ Above cmp a b := by
  constructor
  · exact fun h => ⟨fun ⟨i, hi⟩ => by simp [h i] at hi, fun ⟨i, hi⟩ => by simp [h i] at hi⟩
  · rintro ⟨hlt, hgt⟩ i
    rcases hi : cmp i a b with _ | _ | _
    · exact absurd ⟨i, hi⟩ hlt
    · rfl
    · exact absurd ⟨i, hi⟩ hgt

theorem oneWay_iff : OneWay cmp a b ↔ ¬ (Below cmp a b ∧ Above cmp a b) := by
  rw [not_and_or, or_comm, OneWay, Below, Above, not_exists, not_exists]

variable [∀ i, Std.TransCmp (cmp i)]

theorem above_iff_below : Above cmp a b ↔ Below cmp b a :=
  exists_congr fun _ => Std.OrientedCmp.gt_iff_lt

/-- The only way to miss is to be below and above. -/
theorem exactlyOne_iff : ExactlyOne (Below cmp a b) (Same cmp a b) (Below cmp b a) ↔
    OneWay cmp a b := by
  rw [← above_iff_below (a := a) (b := b), ExactlyOne, same_iff, oneWay_iff]
  tauto

/-- Along elements that differ one way no field goes back. -/
theorem below_trans (hbc : OneWay cmp b c) (h : Below cmp a b)
    (h' : Below cmp b c) : Below cmp a c := by
  obtain ⟨i, hi⟩ := h
  refine ⟨i, ?_⟩
  have hle : cmp i b c ≠ .gt := by
    rcases hbc with hle | hge
    · exact hle i
    · obtain ⟨j, hj⟩ := h'
      exact absurd hj (hge j)
  exact Std.TransCmp.lt_of_lt_of_isLE hi (by revert hle; cases cmp i b c <;> decide)

theorem strictOn_iff (S : Set α) :
    StrictOn S (Below cmp) (Same cmp) (Above cmp) ↔ ∀ a ∈ S, ∀ b ∈ S, OneWay cmp a b := by
  constructor
  · exact fun h a ha b hb => exactlyOne_iff.mp (h.exactlyOne a ha b hb)
  · intro h
    refine ⟨fun a ha b hb => exactlyOne_iff.mpr (h a ha b hb), fun a _ b _ => above_iff_below, ?_⟩
    exact fun a ha b hb c hc => below_trans (h b hb c hc)

end Fields

section Rank

variable (rank : α → Nat) (lt eq gt : α → α → Prop)

/-- A relation behind a rank: elements of different rank are related by `below`. -/
def Ranked (below : Nat → Nat → Prop) (rel : α → α → Prop) (a b : α) : Prop :=
  below (rank a) (rank b) ∨ rank a = rank b ∧ rel a b

variable {rank lt eq gt}

theorem ranked_of_eq {below : Nat → Nat → Prop} {rel : α → α → Prop} {a b : α}
    (hirrefl : ∀ n, ¬ below n n) (h : rank a = rank b) : Ranked rank below rel a b ↔ rel a b := by
  rw [Ranked, h]
  simp [hirrefl]

theorem strictOn_ranked_iff (S : Set α) :
    StrictOn S (Ranked rank (· < ·) lt) (Ranked rank (fun _ _ => False) eq)
        (Ranked rank (· > ·) gt) ↔
      ∀ n, StrictOn {a | a ∈ S ∧ rank a = n} lt eq gt := by
  have hlt : ∀ {a b : α}, rank a = rank b → (Ranked rank (· < ·) lt a b ↔ lt a b) :=
    fun h => ranked_of_eq (fun n => Nat.lt_irrefl n) h
  have hgt : ∀ {a b : α}, rank a = rank b → (Ranked rank (· > ·) gt a b ↔ gt a b) :=
    fun h => ranked_of_eq (fun n => Nat.lt_irrefl n) h
  have heq : ∀ {a b : α}, rank a = rank b → (Ranked rank (fun _ _ => False) eq a b ↔ eq a b) :=
    fun h => ranked_of_eq (fun _ => not_false) h
  constructor
  · intro h n
    refine ⟨?_, ?_, ?_⟩
    · rintro a ⟨ha, rfl⟩ b ⟨hb, hab⟩
      have hone := h.exactlyOne a ha b hb
      rwa [hlt hab.symm, heq hab.symm, hlt hab] at hone
    · rintro a ⟨ha, rfl⟩ b ⟨hb, hab⟩
      rw [← hgt hab.symm, ← hlt hab]
      exact h.gt_iff a ha b hb
    · rintro a ⟨ha, rfl⟩ b ⟨hb, hab⟩ c ⟨hc, hac⟩ h₁ h₂
      rw [← hlt (hab.trans hac.symm)] at h₂
      rw [← hlt hab.symm] at h₁
      exact (hlt hac.symm).mp (h.trans a ha b hb c hc h₁ h₂)
  · intro h
    refine ⟨fun a ha b hb => ?_, fun a ha b hb => ?_, fun a ha b hb c hc h₁ h₂ => ?_⟩
    · rcases lt_trichotomy (rank a) (rank b) with hr | hr | hr
      · exact .inl ⟨.inl hr, by simp [Ranked, hr.ne], by simp [Ranked, hr.not_gt, hr.ne']⟩
      · rw [hlt hr, heq hr, hlt hr.symm]
        exact (h (rank b)).exactlyOne a ⟨ha, hr⟩ b ⟨hb, rfl⟩
      · exact .inr (.inr ⟨by simp [Ranked, hr.not_gt, hr.ne'], by simp [Ranked, hr.ne'], .inl hr⟩)
    · rcases eq_or_ne (rank a) (rank b) with hr | hr
      · rw [hgt hr, hlt hr.symm]
        exact (h (rank b)).gt_iff a ⟨ha, hr⟩ b ⟨hb, rfl⟩
      · simp [Ranked, hr, hr.symm]
    · rcases h₁ with hr | ⟨hr, h₁⟩ <;> rcases h₂ with hr' | ⟨hr', h₂⟩
      · exact .inl (hr.trans hr')
      · exact .inl (hr' ▸ hr)
      · exact .inl (hr ▸ hr')
      · exact .inr ⟨hr.trans hr', (h (rank c)).trans a ⟨ha, hr.trans hr'⟩ b ⟨hb, hr'⟩ c
          ⟨hc, rfl⟩ h₁ h₂⟩

end Rank

end FieldOrder
