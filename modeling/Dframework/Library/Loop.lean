import Mathlib

/-!
# Loops given by the body of one round

A loop is its body: from the state at the head of a round to the state at the
head of the next one, or to the result it leaves with. `Returns` is the meaning
of the whole loop, `Reach` the states at the head of its rounds.

Results:
1. `Returns.unique`: a loop has one result.
2. `Reach.invariant`: what a round preserves holds at the head of every round.
3. `Reach.returns_iff`: the result does not depend on the round one looks from.
4. `run_of_measure`: a loop whose rounds shrink a measure ends.
5. `Returns.simulate`: a loop that follows another one round by round ends with a
   related result.
6. `returns_true_iff`: a loop that ends, and only ever asks whether it may go on,
   answers yes when no round it comes to answers no.
7. `always_iff`: a condition that is exact for one round is exact for a run.
-/

namespace Loop

variable {σ ρ : Type*}

/-- What one round answers: the state of the next round, or the result. -/
inductive Round (σ ρ : Type*) where
  | next (s : σ)
  | done (r : ρ)

/-- The loop, for at most `fuel` rounds. -/
def run (body : σ → Round σ ρ) : Nat → σ → Option ρ
  | 0, _ => none
  | fuel + 1, s =>
    match body s with
    | .next s' => run body fuel s'
    | .done r => some r

/-- The loop started in `s` ends, with the result `r`. -/
def Returns (body : σ → Round σ ρ) (s : σ) (r : ρ) : Prop :=
  ∃ fuel, run body fuel s = some r

/-- `Reach body s t`: a run from `s` comes to the head of a round in `t`. -/
inductive Reach (body : σ → Round σ ρ) : σ → σ → Prop
  | refl (s : σ) : Reach body s s
  | next {s s' t : σ} : body s = .next s' → Reach body s' t → Reach body s t

variable {body : σ → Round σ ρ} {s s' t : σ} {r : ρ}

theorem returns_of_done (h : body s = .done r) : Returns body s r :=
  ⟨1, by simp [run, h]⟩

theorem returns_next_iff (h : body s = .next s') : Returns body s r ↔ Returns body s' r := by
  constructor
  · rintro ⟨fuel, hf⟩
    cases fuel with
    | zero => simp [run] at hf
    | succ fuel => exact ⟨fuel, by simpa [run, h] using hf⟩
  · rintro ⟨fuel, hf⟩
    exact ⟨fuel + 1, by simpa [run, h] using hf⟩

theorem returns_done_iff {r' : ρ} (h : body s = .done r) : Returns body s r' ↔ r' = r := by
  constructor
  · rintro ⟨fuel, hf⟩
    cases fuel with
    | zero => simp [run] at hf
    | succ fuel => simpa [run, h, eq_comm] using hf
  · rintro rfl
    exact returns_of_done h

/-- Induction over the rounds of a loop that ends. -/
theorem Returns.induct {P : σ → Prop} (hdone : ∀ s, body s = .done r → P s)
    (hnext : ∀ s s', body s = .next s' → Returns body s' r → P s' → P s)
    (h : Returns body s r) : P s := by
  obtain ⟨fuel, hf⟩ := h
  induction fuel generalizing s with
  | zero => simp [run] at hf
  | succ fuel ih =>
    cases hb : body s with
    | next s' =>
      rw [run, hb] at hf
      exact hnext s s' hb ⟨fuel, hf⟩ (ih hf)
    | done r' =>
      simp only [run, hb, Option.some.injEq] at hf
      exact hdone s (hf ▸ hb)

theorem Returns.unique {r' : ρ} (h : Returns body s r) (h' : Returns body s r') : r = r' := by
  refine h.induct (P := fun s => Returns body s r' → r = r') ?_ ?_ h'
  · exact fun s hb h' => ((returns_done_iff hb).mp h').symm
  · exact fun s s' hb _ ih h' => ih ((returns_next_iff hb).mp h')

theorem Reach.tail (h : Reach body s t) {t' : σ} (hb : body t = .next t') : Reach body s t' := by
  induction h with
  | refl s => exact .next hb (.refl _)
  | next hs _ ih => exact .next hs (ih hb)

/-- What holds at the start and is preserved by a round holds at the head of
every round. -/
theorem Reach.invariant {I : σ → Prop} (h : Reach body s t) (h0 : I s)
    (hstep : ∀ s s', I s → body s = .next s' → I s') : I t := by
  induction h with
  | refl => exact h0
  | next hb _ ih => exact ih (hstep _ _ h0 hb)

theorem Reach.returns_iff (h : Reach body s t) : Returns body s r ↔ Returns body t r := by
  induction h with
  | refl => rfl
  | next hb _ ih => rw [returns_next_iff hb, ih]

/-- A loop that ends comes to the round that ends it. -/
theorem Returns.exists_reach (h : Returns body s r) : ∃ t, Reach body s t ∧ body t = .done r := by
  refine h.induct (P := fun s => ∃ t, Reach body s t ∧ body t = .done r) ?_ ?_
  · exact fun s hs => ⟨s, .refl s, hs⟩
  · rintro s s' hb - ⟨t, ht, hdone⟩
    exact ⟨t, .next hb ht, hdone⟩

/-- A loop that keeps an invariant under which every round shrinks a measure ends
within as many rounds. -/
theorem run_of_measure {I : σ → Prop} (μ : σ → Nat) {fuel : Nat} (h0 : I s) (hfuel : μ s < fuel)
    (hstep : ∀ s s', I s → body s = .next s' → I s' ∧ μ s' < μ s) :
    ∃ r, run body fuel s = some r := by
  induction fuel generalizing s with
  | zero => exact absurd hfuel (Nat.not_lt_zero _)
  | succ fuel ih =>
    cases hb : body s with
    | done r => exact ⟨r, by rw [run, hb]⟩
    | next s' =>
      obtain ⟨hI, hlt⟩ := hstep s s' h0 hb
      obtain ⟨r, hr⟩ := ih hI (by omega)
      refine ⟨r, ?_⟩
      rw [run, hb]
      exact hr

theorem returns_of_measure {I : σ → Prop} (μ : σ → Nat) (h0 : I s)
    (hstep : ∀ s s', I s → body s = .next s' → I s' ∧ μ s' < μ s) :
    ∃ r, Returns body s r := by
  obtain ⟨r, hr⟩ := run_of_measure μ h0 (Nat.lt_succ_self _) hstep
  exact ⟨r, _, hr⟩

/-- A loop has no result when none of its rounds ends it. -/
theorem not_returns_of_next (h : ∀ s, ∃ s', body s = .next s') : ¬ Returns body s r := by
  intro hret
  refine hret.induct (P := fun _ => False) ?_ fun _ _ _ _ ih => ih
  intro s hs
  obtain ⟨s', hs'⟩ := h s
  rw [hs'] at hs
  cases hs

/-- A loop that follows another one round by round ends when that one does. -/
theorem Returns.simulate {τ ρ' : Type*} {spec : τ → Round τ ρ'} {R : σ → τ → Prop}
    {Q : ρ → ρ' → Prop} {a : τ} {r' : ρ'} (hret : Returns spec a r')
    (hnext : ∀ s a a', R s a → spec a = .next a' → ∃ s', body s = .next s' ∧ R s' a')
    (hdone : ∀ s a, R s a → spec a = .done r' → ∃ r, body s = .done r ∧ Q r r')
    (h : R s a) : ∃ r, Returns body s r ∧ Q r r' := by
  refine hret.induct (P := fun a => ∀ s, R s a → ∃ r, Returns body s r ∧ Q r r') ?_ ?_ s h
  · intro a ha s h
    obtain ⟨r, hr, hq⟩ := hdone s a h ha
    exact ⟨r, returns_of_done hr, hq⟩
  · intro a a' ha _ ih s h
    obtain ⟨s', hs, h'⟩ := hnext s a a' h ha
    obtain ⟨r, hr, hq⟩ := ih s' h'
    exact ⟨r, (returns_next_iff hs).mpr hr, hq⟩

/-- A loop of decisions that ends answers yes when no round it comes to answers no. -/
theorem returns_true_iff {body : σ → Round σ Bool} {s : σ} (hterm : ∃ r, Returns body s r) :
    Returns body s true ↔ ∀ t, Reach body s t → body t ≠ .done false := by
  constructor
  · intro h t ht hf
    exact Bool.noConfusion (((ht.returns_iff).mp h).unique (returns_of_done hf))
  · obtain ⟨r, hr⟩ := hterm
    intro h
    cases r with
    | true => exact hr
    | false =>
      refine absurd h (hr.induct (P := fun s => ¬ ∀ t, Reach body s t → body t ≠ .done false) ?_ ?_)
      · exact fun s hs h => h s (.refl s) hs
      · exact fun s s' hs _ ih h => ih fun t ht => h t (.next hs ht)

/-- A round that goes on leaves `I`, and one that ends leaves `Q`. -/
def Round.Meets (I : σ → Prop) (Q : ρ → Prop) : Round σ ρ → Prop
  | .next s => I s
  | .done r => Q r

/-- A loop keeps `I` and ends in `Q` when all its rounds meet the condition under which one does. -/
theorem always_iff {I : σ → Prop} {Q : ρ → Prop} {Ok : σ → Prop} (h0 : I s)
    (hterm : ∃ r, Returns body s r) (hok : ∀ t, I t → ((body t).Meets I Q ↔ Ok t)) :
    ((∃ r, Returns body s r ∧ Q r) ∧ ∀ t, Reach body s t → I t) ↔
      ∀ t, Reach body s t → Ok t := by
  constructor
  · rintro ⟨⟨r, hr, hq⟩, hinv⟩ t ht
    refine (hok t (hinv t ht)).mp ?_
    cases hb : body t with
    | next s' => exact hinv s' (ht.tail hb)
    | done r' =>
      have heq : r = r' := (ht.returns_iff.mp hr).unique (returns_of_done hb)
      exact heq ▸ hq
  · intro hall
    have hinv : ∀ t, Reach body s t → I t := by
      intro t ht
      -- the states are followed together with the rounds that lead to them
      have hboth : Reach body s t ∧ I t := by
        refine ht.invariant (I := fun t => Reach body s t ∧ I t) ⟨.refl s, h0⟩ ?_
        rintro a a' ⟨ha, hI⟩ hb
        have hm := (hok a hI).mpr (hall a ha)
        rw [hb] at hm
        exact ⟨ha.tail hb, hm⟩
      exact hboth.2
    obtain ⟨r, hr⟩ := hterm
    refine ⟨⟨r, hr, ?_⟩, hinv⟩
    refine hr.induct (P := fun t => Reach body s t → Q r) ?_ ?_ (.refl s)
    · intro t hb ht
      have hm := (hok t (hinv t ht)).mpr (hall t ht)
      rw [hb] at hm
      exact hm
    · exact fun t t' hb _ ih ht => ih (ht.tail hb)

end Loop
