import Mathlib

/-!
# Windows of a history

A history is a list of entries whose times grow. Its window is what is not older than a cut.

Results:
1. `Growing.dropWhile_eq_since`: dropping the old ones from the front leaves the window.
2. `Growing.length_le_of_dvd`: how many entries a window has when the times are multiples of a period.
-/

namespace Window

variable {α : Type*} {time : α → Nat} {h : List α} {cut cut' : Nat} {e : α}

def Growing (time : α → Nat) (h : List α) : Prop :=
  h.Pairwise fun a b => time a < time b

/-- What is not older than the cut. -/
def since (time : α → Nat) (cut : Nat) (h : List α) : List α :=
  h.filter fun e => cut ≤ time e

@[simp] theorem mem_since : e ∈ since time cut h ↔ e ∈ h ∧ cut ≤ time e := by
  rw [since, List.mem_filter, decide_eq_true_iff]

@[simp] theorem since_zero (time : α → Nat) (h : List α) : since time 0 h = h :=
  List.filter_eq_self.mpr fun _ _ => decide_eq_true (Nat.zero_le _)

/-- The later cut counts. -/
theorem since_since (hle : cut ≤ cut') :
    since time cut' (since time cut h) = since time cut' h := by
  rw [since, since, List.filter_filter]
  refine List.filter_congr fun x _ => ?_
  by_cases hx : cut' ≤ time x
  · simp [hx, hle.trans hx]
  · simp [hx]

theorem since_concat (hle : cut ≤ time e) :
    since time cut (h ++ [e]) = since time cut h ++ [e] := by
  have hlast : [e].filter (fun e => cut ≤ time e) = [e] :=
    List.filter_eq_self.mpr fun x hx => decide_eq_true (List.mem_singleton.mp hx ▸ hle)
  rw [since, List.filter_append, hlast]
  rfl

theorem Growing.since (hg : Growing time h) (cut : Nat) : Growing time (since time cut h) :=
  hg.filter _

theorem Growing.concat (hg : Growing time h) (hlast : ∀ x ∈ h, time x < time e) :
    Growing time (h ++ [e]) := by
  refine List.pairwise_append.mpr ⟨hg, List.pairwise_singleton _ _, fun x hx y hy => ?_⟩
  rw [List.mem_singleton.mp hy]
  exact hlast x hx

/-- The old ones stand in front. -/
theorem Growing.dropWhile_eq_since (hg : Growing time h) (cut : Nat) :
    h.dropWhile (fun e => time e < cut) = Window.since time cut h := by
  induction h with
  | nil => rfl
  | cons x h ih =>
    obtain ⟨hx, hh⟩ := List.pairwise_cons.mp hg
    by_cases hold : time x < cut
    · rw [List.dropWhile_cons, if_pos (decide_eq_true hold), ih hh, Window.since, Window.since,
        List.filter_cons, if_neg (by simpa using hold)]
    · rw [List.dropWhile_cons, if_neg (by simpa using hold)]
      refine (List.filter_eq_self.mpr fun y hy => decide_eq_true ?_).symm
      rcases List.mem_cons.mp hy with rfl | hy
      · exact Nat.le_of_not_lt hold
      · exact (Nat.le_of_not_lt hold).trans (hx y hy).le

/-- Between multiples of a period lies at least one period. -/
theorem Growing.add_le_of_dvd {S hi : Nat} {a : α} (hg : Growing time (a :: h))
    (hdvd : ∀ x ∈ a :: h, S ∣ time x) (hhi : ∀ x ∈ a :: h, time x < hi) :
    time a + h.length * S < hi := by
  induction h generalizing a with
  | nil =>
    rw [List.length_nil, Nat.zero_mul]
    exact hhi a List.mem_cons_self
  | cons b h ih =>
    obtain ⟨ha, hg'⟩ := List.pairwise_cons.mp hg
    have hab : time a < time b := ha b List.mem_cons_self
    have hdiff : S ∣ time b - time a :=
      Nat.dvd_sub (hdvd b (List.mem_cons_of_mem a List.mem_cons_self)) (hdvd a List.mem_cons_self)
    have hstep : S ≤ time b - time a := Nat.le_of_dvd (Nat.sub_pos_of_lt hab) hdiff
    have hrest := ih hg' (fun x hx => hdvd x (List.mem_cons_of_mem a hx)) fun x hx =>
      hhi x (List.mem_cons_of_mem a hx)
    rw [List.length_cons, Nat.succ_mul]
    omega

theorem Growing.length_le_of_dvd {S M lo hi : Nat} (hg : Growing time h) (hdvd : ∀ x ∈ h, S ∣ time x)
    (hlo : ∀ x ∈ h, lo ≤ time x) (hhi : ∀ x ∈ h, time x < hi) (hM : hi ≤ lo + M * S) :
    h.length ≤ M := by
  cases h with
  | nil => exact Nat.zero_le M
  | cons a h =>
    have hspan := hg.add_le_of_dvd hdvd hhi
    have hfirst := hlo a List.mem_cons_self
    have hlt : h.length * S < M * S := by omega
    exact Nat.lt_of_mul_lt_mul_right hlt

end Window
