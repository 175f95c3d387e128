import Mathlib

/-!
# Loops that are driven

What a round does depends on what it meets: a socket that is ready or not, a clock, a flag. `drive` is
such a loop over the inputs that come, with what it puts out. Without a result, a round has none.

Results:
1. `drive_invariant`: what a round keeps of the state and of all that has been put out holds at the end.
2. `drive_ends`: a loop whose rounds shrink a measure on good inputs ends when enough of them come.
-/

namespace Driven

variable {σ ι ρ α : Type*}

inductive Step (σ ρ : Type*) where
  | next (s : σ)
  | done (r : ρ)

/-- How far a loop has come: it waits for the next input, or it has ended. -/
inductive End (σ ρ : Type*) where
  | waiting (s : σ)
  | ended (r : ρ)

def drive (round : σ → ι → Option (Step σ ρ × List α)) :
    σ → List ι → Option (End σ ρ × List α)
  | s, [] => some (.waiting s, [])
  | s, i :: inputs =>
    match round s i with
    | none => none
    | some (.done r, out) => some (.ended r, out)
    | some (.next s, out) => (drive round s inputs).map (Prod.map id (out ++ ·))

/-- What holds of a state that waits, or of a result, with what has been put out. -/
def End.Holds (I : σ → List α → Prop) (Q : ρ → List α → Prop) (wire : List α) : End σ ρ → Prop
  | .waiting s => I s wire
  | .ended r => Q r wire

def Step.Holds (I : σ → List α → Prop) (Q : ρ → List α → Prop) (wire : List α) : Step σ ρ → Prop
  | .next s => I s wire
  | .done r => Q r wire

variable {round : σ → ι → Option (Step σ ρ × List α)} {I : σ → List α → Prop}
  {Q : ρ → List α → Prop} {s s' : σ} {i : ι} {inputs : List ι} {out wire : List α} {r : ρ}

theorem drive_done (h : round s i = some (.done r, out)) (inputs : List ι) :
    drive round s (i :: inputs) = some (.ended r, out) := by
  rw [drive, h]

theorem drive_next (h : round s i = some (.next s', out)) (inputs : List ι) :
    drive round s (i :: inputs) =
      (drive round s' inputs).map (Prod.map id (out ++ ·)) := by
  rw [drive, h]

/-- The state and what has been put out so far are kept in step by every round. -/
theorem drive_invariant
    (hround : ∀ s wire i, I s wire →
      ∃ x out, round s i = some (x, out) ∧ x.Holds I Q (wire ++ out))
    (h : I s wire) (inputs : List ι) :
    ∃ e out, drive round s inputs = some (e, out) ∧ e.Holds I Q (wire ++ out) := by
  induction inputs generalizing s wire with
  | nil => exact ⟨.waiting s, [], rfl, (List.append_nil wire).symm ▸ h⟩
  | cons i inputs ih =>
    obtain ⟨x, out, hrun, hx⟩ := hround s wire i h
    cases x with
    | done r => exact ⟨.ended r, out, drive_done hrun inputs, hx⟩
    | next s' =>
      obtain ⟨e, more, hdrive, he⟩ := ih hx
      refine ⟨e, out ++ more, ?_, (List.append_assoc wire out more) ▸ he⟩
      rw [drive_next hrun, hdrive]
      rfl

/-- A loop whose rounds on good inputs end it or shrink a measure of the state and of what has been put
out. -/
theorem drive_ends {good : ι → Prop} (μ : σ → List α → ℕ)
    (hround : ∀ s wire i, I s wire → good i →
      ∃ x out, round s i = some (x, out) ∧
        x.Holds (fun s' wire' => I s' wire' ∧ μ s' wire' < μ s wire) Q (wire ++ out))
    (h : I s wire) (hgood : ∀ i ∈ inputs, good i) (hlen : μ s wire < inputs.length) :
    ∃ r out, drive round s inputs = some (.ended r, out) ∧ Q r (wire ++ out) := by
  induction inputs generalizing s wire with
  | nil => exact absurd hlen (Nat.not_lt_zero _)
  | cons i inputs ih =>
    obtain ⟨hi, hrest⟩ := List.forall_mem_cons.mp hgood
    obtain ⟨x, out, hrun, hx⟩ := hround s wire i h hi
    cases x with
    | done r => exact ⟨r, out, drive_done hrun inputs, hx⟩
    | next s' =>
      obtain ⟨hI, hlt⟩ := hx
      have hlen' : μ s' (wire ++ out) < inputs.length := by
        rw [List.length_cons] at hlen
        omega
      obtain ⟨r, more, hdrive, hr⟩ := ih hI hrest hlen'
      refine ⟨r, out ++ more, ?_, (List.append_assoc wire out more) ▸ hr⟩
      rw [drive_next hrun, hdrive]
      rfl

end Driven
