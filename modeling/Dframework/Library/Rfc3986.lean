import Mathlib
import Dframework.Library.CLib

/-!
# References and their targets

The generic syntax of RFC 3986: a reference is its components, section 5.3 writes them as a text,
and section 5.2 says what a reference means where it stands, in a text with a base. The authority
is any type.

Results:
1. `dotSteps_done`: `removeDotSegments` takes its input to the end.
2. `length_removeDotSegments_le`: a path without its dot segments is no longer than before.
-/

namespace Rfc3986

open CLib

structure Reference (α : Type*) where
  scheme : Option Bytes
  authority : Option α
  path : Bytes
  query : Option Bytes
  fragment : Option Bytes
  deriving DecidableEq

variable {α β : Type*}

/-- A component with its delimiter in front, when it is there. -/
def marked (c : UInt8) : Option Bytes → Bytes
  | none => []
  | some s => c :: s

def Reference.recompose (text : α → Bytes) (r : Reference α) : Bytes :=
  (match r.scheme with
    | none => []
    | some s => s ++ [58]) ++
  (match r.authority with
    | none => []
    | some a => 47 :: 47 :: text a) ++
  r.path ++ marked 63 r.query ++ marked 35 r.fragment

/-- The same reference with another reading of its authority. -/
def Reference.map (f : α → β) (r : Reference α) : Reference β where
  scheme := r.scheme
  authority := r.authority.map f
  path := r.path
  query := r.query
  fragment := r.fragment

/-! ## Dot segments -/

/-- A path without its last segment and the slash in front of that. -/
def dropSegment (out : Bytes) : Bytes :=
  ((out.reverse.dropWhile (· ≠ 47)).drop 1).reverse

/-- One round of section 5.2.4, from the input and the output so far. -/
def dotStep (s : Bytes × Bytes) : Bytes × Bytes :=
  if [46, 46, 47] <+: s.1 then (s.1.drop 3, s.2)
  else if [46, 47] <+: s.1 then (s.1.drop 2, s.2)
  else if [47, 46, 47] <+: s.1 then (s.1.drop 2, s.2)
  else if s.1 = [47, 46] then ([47], s.2)
  else if [47, 46, 46, 47] <+: s.1 then (s.1.drop 3, dropSegment s.2)
  else if s.1 = [47, 46, 46] then ([47], dropSegment s.2)
  else if s.1 = [46] ∨ s.1 = [46, 46] then ([], s.2)
  else
    match s.1 with
    | [] => ([], s.2)
    | c :: t => (t.dropWhile (· ≠ 47), s.2 ++ c :: t.takeWhile (· ≠ 47))

/-- Section 5.2.4. A round shortens its input, so there are no more rounds than bytes. -/
def removeDotSegments (path : Bytes) : Bytes :=
  (dotStep^[path.length] (path, [])).2

theorem length_dropSegment_le (out : Bytes) : (dropSegment out).length ≤ out.length := by
  rw [dropSegment, List.length_reverse, List.length_drop]
  have h := List.length_dropWhile_le (· ≠ 47) out.reverse
  rw [List.length_reverse] at h
  omega

/-- A round shortens its input, and does not write more than it takes. -/
theorem length_dotStep (s : Bytes × Bytes) :
    (dotStep s).1.length ≤ s.1.length - 1 ∧
      (dotStep s).1.length + (dotStep s).2.length ≤ s.1.length + s.2.length := by
  obtain ⟨input, out⟩ := s
  have hdrop := length_dropSegment_le out
  unfold dotStep
  dsimp only
  split_ifs with h1 h2 h3 h4 h5 h6 h7
  · have hle := h1.length_le
    simp only [List.length_cons, List.length_nil, List.length_drop] at hle ⊢
    omega
  · have hle := h2.length_le
    simp only [List.length_cons, List.length_nil, List.length_drop] at hle ⊢
    omega
  · have hle := h3.length_le
    simp only [List.length_cons, List.length_nil, List.length_drop] at hle ⊢
    omega
  · simp only [h4, List.length_cons, List.length_nil]
    omega
  · have hle := h5.length_le
    simp only [List.length_cons, List.length_nil, List.length_drop] at hle ⊢
    omega
  · simp only [h6, List.length_cons, List.length_nil]
    omega
  · exact ⟨Nat.zero_le _, by simp⟩
  · cases input with
    | nil => exact ⟨le_rfl, le_rfl⟩
    | cons c t =>
      have hsplit := congrArg List.length (List.takeWhile_append_dropWhile (p := (· ≠ 47)) (l := t))
      simp only [List.length_append, List.length_cons] at hsplit ⊢
      omega

theorem length_dotSteps (k : Nat) (s : Bytes × Bytes) :
    (dotStep^[k] s).1.length ≤ s.1.length - k ∧
      (dotStep^[k] s).1.length + (dotStep^[k] s).2.length ≤ s.1.length + s.2.length := by
  induction k generalizing s with
  | zero => exact ⟨le_rfl, le_rfl⟩
  | succ k ih =>
    obtain ⟨h1, h2⟩ := length_dotStep s
    obtain ⟨ih1, ih2⟩ := ih (dotStep s)
    rw [Function.iterate_succ_apply]
    exact ⟨by omega, ih2.trans h2⟩

/-- The rounds of `removeDotSegments` take the whole path. -/
theorem dotSteps_done (path : Bytes) : (dotStep^[path.length] (path, [])).1 = [] := by
  have h := (length_dotSteps path.length (path, [])).1
  rw [Nat.sub_self] at h
  exact List.length_eq_zero_iff.mp (Nat.le_zero.mp h)

theorem length_removeDotSegments_le (path : Bytes) :
    (removeDotSegments path).length ≤ path.length := by
  have h := (length_dotSteps path.length (path, [])).2
  rwa [dotSteps_done, List.length_nil, Nat.zero_add] at h

/-! ## Resolution -/

/-- Section 5.2.3: the path of a reference behind the directory of the base. -/
def merge (base : Reference α) (path : Bytes) : Bytes :=
  if base.authority.isSome ∧ base.path = [] then 47 :: path
  else (base.path.reverse.dropWhile (· ≠ 47)).reverse ++ path

/-- Section 5.2.2: the target of a reference in a text with the base `base`. -/
def resolve (base r : Reference α) : Reference α :=
  match r.scheme, r.authority with
  | some scheme, authority =>
    ⟨some scheme, authority, removeDotSegments r.path, r.query, r.fragment⟩
  | none, some authority =>
    ⟨base.scheme, some authority, removeDotSegments r.path, r.query, r.fragment⟩
  | none, none =>
    if r.path = [] then
      ⟨base.scheme, base.authority, base.path, r.query.or base.query, r.fragment⟩
    else if r.path.head? = some 47 then
      ⟨base.scheme, base.authority, removeDotSegments r.path, r.query, r.fragment⟩
    else
      ⟨base.scheme, base.authority, removeDotSegments (merge base r.path), r.query, r.fragment⟩

example : removeDotSegments (bytes "/a/b/c/./../../g") = bytes "/a/g" := by decide

end Rfc3986
