import Mathlib

/-!
# Paths and the directories they lead to

The segments of a path are steps from a directory: an empty one and `.` stay, `..` goes up, and any other
one goes down. At the root going up stays. A directory is the list of the names on the way to it.

Results:
1. `walk_eq`: wherever a path starts, it goes up some levels and then down some names.
2. `climb_pos_iff`: it goes up exactly if somewhere on the way more steps have gone up than down.
3. `under_iff`: a path behind a root leads below the root exactly if it does not climb, or it comes back
   by the names it has left.
-/

namespace Paths

variable {α : Type*}

inductive Step (α : Type*) where
  | stay
  | up
  | down (name : List α)
  deriving DecidableEq

structure Syntax (α : Type*) where
  sep : α
  dot : α

namespace Syntax

variable [DecidableEq α]

def step (σ : Syntax α) (segment : List α) : Step α :=
  if segment = [] ∨ segment = [σ.dot] then .stay
  else if segment = [σ.dot, σ.dot] then .up
  else .down segment

def steps (σ : Syntax α) (path : List α) : List (Step α) :=
  (path.splitOn σ.sep).map σ.step

theorem steps_append (σ : Syntax α) (root rest : List α) :
    σ.steps (root ++ σ.sep :: rest) = σ.steps root ++ σ.steps rest := by
  rw [steps, List.splitOn_append_cons_self, List.map_append]
  rfl

end Syntax

/-- A step from a directory. -/
def move (dir : List (List α)) : Step α → List (List α)
  | .stay => dir
  | .up => dir.dropLast
  | .down name => dir ++ [name]

def walk (dir : List (List α)) (steps : List (Step α)) : List (List α) :=
  steps.foldl move dir

/-- A step behind some levels up and some names down. -/
def relativeStep (r : ℕ × List (List α)) : Step α → ℕ × List (List α)
  | .stay => r
  | .up => if r.2 = [] then (r.1 + 1, []) else (r.1, r.2.dropLast)
  | .down name => (r.1, r.2 ++ [name])

/-- How many levels the steps go up from where they start, and the names they go down from there. -/
def relative (steps : List (Step α)) : ℕ × List (List α) :=
  steps.foldl relativeStep (0, [])

theorem walk_append (dir : List (List α)) (l l' : List (Step α)) :
    walk dir (l ++ l') = walk (walk dir l) l' :=
  List.foldl_append

variable {dir root : List (List α)} {steps : List (Step α)}

theorem relative_concat (steps : List (Step α)) (step : Step α) :
    relative (steps ++ [step]) = relativeStep (relative steps) step := by
  rw [relative, List.foldl_append]
  rfl

/-- From wherever they start, the steps go up and then down. -/
theorem walk_eq (dir : List (List α)) (steps : List (Step α)) :
    walk dir steps = dir.take (dir.length - (relative steps).1) ++ (relative steps).2 := by
  induction steps using List.reverseRecOn with
  | nil => simp [walk, relative]
  | append_singleton steps step ih =>
    have hwalk : walk dir (steps ++ [step]) = move (walk dir steps) step := by
      rw [walk_append]
      rfl
    rw [hwalk, ih, relative_concat]
    cases step with
    | stay => rfl
    | up =>
      rw [move, relativeStep]
      split_ifs with hnil
      · rw [hnil, List.append_nil, List.append_nil, List.dropLast_eq_take, List.take_take,
          List.length_take]
        congr 1
        omega
      · rw [List.dropLast_append_of_ne_nil hnil]
    | down name => rw [move, relativeStep, List.append_assoc]

/-- The directory lies below the root, or it is the root. -/
def Under (root dir : List (List α)) : Prop :=
  root <+: dir

/-- The steps do not leave a root, or they come back by the names they have left. -/
def ComesBack (root : List (List α)) (r : ℕ × List (List α)) : Prop :=
  root.drop (root.length - r.1) <+: r.2

theorem under_walk_iff (root : List (List α)) (steps : List (Step α)) :
    Under root (walk root steps) ↔ ComesBack root (relative steps) := by
  rw [Under, ComesBack, walk_eq]
  set kept := root.take (root.length - (relative steps).1)
  have hroot : root = kept ++ root.drop (root.length - (relative steps).1) :=
    (List.take_append_drop _ _).symm
  constructor
  · intro h
    rw [hroot] at h
    rwa [List.prefix_append_right_inj] at h
  · intro h
    nth_rewrite 1 [hroot]
    exact (List.prefix_append_right_inj _).mpr h

theorem comesBack_zero {names : List (List α)} : ComesBack root (0, names) := by
  rw [ComesBack, Nat.sub_zero, List.drop_length]
  exact List.nil_prefix

/-! ## Going up -/

def Step.isUp : Step α → Bool
  | .up => true
  | _ => false

def Step.isDown : Step α → Bool
  | .down _ => true
  | _ => false

/-- The levels up and the names down make up for the steps. -/
theorem relative_balance (steps : List (Step α)) :
    (relative steps).2.length + steps.countP Step.isUp =
      (relative steps).1 + steps.countP Step.isDown := by
  induction steps using List.reverseRecOn with
  | nil => rfl
  | append_singleton steps step ih =>
    rw [List.countP_append, List.countP_append, relative_concat]
    cases step with
    | stay => exact ih
    | up =>
      rw [relativeStep]
      split_ifs with hnil
      · rw [hnil, List.length_nil] at ih
        simp only [List.length_nil, List.countP_singleton, Step.isUp, Step.isDown]
        simp
        omega
      · have hpos := List.length_pos_of_ne_nil hnil
        simp only [List.length_dropLast, List.countP_singleton, Step.isUp, Step.isDown]
        simp
        omega
    | down name =>
      simp only [relativeStep, List.length_append, List.countP_singleton, Step.isUp, Step.isDown]
      simp
      omega

theorem relativeStep_le (r : ℕ × List (List α)) (step : Step α) : r.1 ≤ (relativeStep r step).1 := by
  cases step with
  | stay => exact le_rfl
  | up =>
    rw [relativeStep]
    split_ifs
    · exact Nat.le_succ _
    · exact le_rfl
  | down name => exact le_rfl

/-- Where steps go up for the first time, there are no names left. -/
theorem relativeStep_names {r : ℕ × List (List α)} {step : Step α} (hzero : r.1 = 0)
    (h : 0 < (relativeStep r step).1) : (relativeStep r step).2 = [] := by
  cases step with
  | stay => exact absurd h (hzero ▸ Nat.lt_irrefl 0)
  | up =>
    rw [relativeStep] at h ⊢
    split_ifs at h ⊢
    · rfl
    · exact absurd h (hzero ▸ Nat.lt_irrefl 0)
  | down name => exact absurd h (hzero ▸ Nat.lt_irrefl 0)

theorem relative_le_append (l l' : List (Step α)) : (relative l).1 ≤ (relative (l ++ l')).1 := by
  induction l' using List.reverseRecOn with
  | nil => rw [List.append_nil]
  | append_singleton l' step ih =>
    rw [← List.append_assoc, relative_concat]
    exact ih.trans (relativeStep_le _ _)

/-- Somewhere on the way more steps have gone up than down. -/
def Climbs (steps : List (Step α)) : Prop :=
  ∃ l l', steps = l ++ l' ∧ l.countP Step.isDown < l.countP Step.isUp

theorem climb_pos_iff (steps : List (Step α)) : 0 < (relative steps).1 ↔ Climbs steps := by
  constructor
  · intro h
    induction steps using List.reverseRecOn with
    | nil => exact absurd h (Nat.lt_irrefl 0)
    | append_singleton steps step ih =>
      rcases Nat.eq_zero_or_pos (relative steps).1 with hzero | hpos
      · have hbalance := relative_balance (steps ++ [step])
        refine ⟨steps ++ [step], [], (List.append_nil _).symm, ?_⟩
        have hnames : (relative (steps ++ [step])).2 = [] := by
          rw [relative_concat] at h ⊢
          exact relativeStep_names hzero h
        rw [hnames, List.length_nil] at hbalance
        omega
      · obtain ⟨l, l', rfl, hl⟩ := ih hpos
        exact ⟨l, l' ++ [step], by rw [List.append_assoc], hl⟩
  · rintro ⟨l, l', rfl, hl⟩
    have hbalance := relative_balance l
    have hle := relative_le_append l l'
    omega

/-- Behind a root, a path leads below the root if it does not climb, or if it comes back. -/
theorem under_iff (root : List (List α)) (steps : List (Step α)) :
    Under root (walk root steps) ↔ ¬ Climbs steps ∨ ComesBack root (relative steps) := by
  rw [under_walk_iff, ← climb_pos_iff, Nat.pos_iff_ne_zero, not_not]
  refine ⟨.inr, fun h => h.elim (fun hzero => ?_) id⟩
  have hpair : relative steps = (0, (relative steps).2) := Prod.ext hzero rfl
  rw [hpair]
  exact comesBack_zero

end Paths
