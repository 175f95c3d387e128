import Mathlib
import Dframework.Library.CLib

/-!
# Percent-encoding

`decode` reads a text with escapes. An escape with something else than two hexadecimal digits is
taken as it is, together with the two bytes behind the sign. `Encodes x e` says that `e` is one of
the ways to write `x`.

Results:
1. `Encodes.decode_eq`: what was encoded is read back.
2. `decode_mark`, `decode_concat_mark`: a text is decoded piece by piece, but for an escape that is
   not finished at the end of a piece.
-/

namespace Percent

open CLib

/-- `'+'` stands for a blank. -/
def plus (c : UInt8) : UInt8 :=
  if c = 43 then 32 else c

/-- The byte of two hexadecimal digits. -/
def hexByte (a b : UInt8) : UInt8 :=
  UInt8.ofNat (16 * (digitVal a).getD 0 + (digitVal b).getD 0)

def decode : Bytes → Bytes
  | [] => []
  | [c] => [plus c]
  | [c, d] => [plus c, plus d]
  | c :: a :: b :: t =>
    if c = 37 then
      if isxdigit a ∧ isxdigit b then hexByte a b :: decode t else c :: a :: b :: decode t
    else plus c :: decode (a :: b :: t)

/-- `e` writes `x`, each byte as it is or as an escape. -/
inductive Encodes : Bytes → Bytes → Prop
  | nil : Encodes [] []
  | plain {c : UInt8} {x e : Bytes} : c ≠ 37 → c ≠ 43 → Encodes x e → Encodes (c :: x) (c :: e)
  | escape {a b : UInt8} {x e : Bytes} : isxdigit a → isxdigit b → Encodes x e →
      Encodes (hexByte a b :: x) (37 :: a :: b :: e)

theorem plus_of_ne {c : UInt8} (h : c ≠ 43) : plus c = c :=
  if_neg h

theorem xdigit_ne_zero {c : UInt8} (h : isxdigit c) : c ≠ 0 :=
  (isxdigit_ne h).1

theorem xdigit_ne_sign {c : UInt8} (h : isxdigit c) : c ≠ 37 := by
  rintro rfl
  revert h
  decide

/-! ## One byte of the text -/

@[simp] theorem decode_nil : decode [] = [] := rfl

theorem decode_cons {c : UInt8} (h : c ≠ 37) (t : Bytes) : decode (c :: t) = plus c :: decode t := by
  match t with
  | [] => rfl
  | [_] => rfl
  | _ :: _ :: _ => rw [decode, if_neg h]

theorem decode_escape {a b : UInt8} (ha : isxdigit a) (hb : isxdigit b) (t : Bytes) :
    decode (37 :: a :: b :: t) = hexByte a b :: decode t := by
  rw [decode, if_pos rfl, if_pos ⟨ha, hb⟩]

theorem decode_broken {a b : UInt8} (h : ¬ (isxdigit a ∧ isxdigit b)) (t : Bytes) :
    decode (37 :: a :: b :: t) = 37 :: a :: b :: decode t := by
  rw [decode, if_pos rfl, if_neg h]

/-- Induction over a text the way it is decoded. -/
theorem decode_induct {P : Bytes → Prop} (hnil : P []) (hplain : ∀ c t, c ≠ 37 → P t → P (c :: t))
    (hsign : P [37]) (hsign2 : ∀ a, P [37, a])
    (hescape : ∀ a b t, isxdigit a → isxdigit b → P t → P (37 :: a :: b :: t))
    (hbroken : ∀ a b t, ¬ (isxdigit a ∧ isxdigit b) → P t → P (37 :: a :: b :: t)) (u : Bytes) :
    P u := by
  induction hn : u.length using Nat.strongRecOn generalizing u with
  | ind n ih =>
    subst hn
    match u with
    | [] => exact hnil
    | c :: t =>
      by_cases hc : c = 37
      · subst hc
        match t with
        | [] => exact hsign
        | [a] => exact hsign2 a
        | a :: b :: t =>
          have ht : P t := ih t.length (by simp only [List.length_cons]; omega) t rfl
          by_cases hab : isxdigit a ∧ isxdigit b
          · exact hescape a b t hab.1 hab.2 ht
          · exact hbroken a b t hab ht
      · exact hplain c t hc (ih t.length (by simp) t rfl)

/-! ## Encodings -/

namespace Encodes

variable {x e v : Bytes}

theorem decode_eq (h : Encodes x e) : decode e = x := by
  induction h with
  | nil => rfl
  | plain hsign hplus _ ih => rw [decode_cons hsign, plus_of_ne hplus, ih]
  | escape ha hb _ ih => rw [decode_escape ha hb, ih]

theorem not_mem (h : Encodes x e) (hx : (0 : UInt8) ∉ x) : (0 : UInt8) ∉ e := by
  induction h with
  | nil => exact hx
  | plain _ _ _ ih =>
    rw [List.mem_cons, not_or] at hx ⊢
    exact ⟨hx.1, ih hx.2⟩
  | escape ha hb _ ih =>
    rw [List.mem_cons, not_or] at hx
    simp only [List.mem_cons, not_or]
    exact ⟨by decide, (xdigit_ne_zero ha).symm, (xdigit_ne_zero hb).symm, ih hx.2⟩

/-- A sign has two bytes behind it. -/
theorem sign_lt (h : Encodes x e) {i : Nat} (hi : e[i]? = some 37) : i + 2 < e.length := by
  induction h generalizing i with
  | nil => cases hi
  | @plain c x e hsign _ _ ih =>
    cases i with
    | zero =>
      rw [List.getElem?_cons_zero, Option.some.injEq] at hi
      exact absurd hi hsign
    | succ i =>
      rw [List.getElem?_cons_succ] at hi
      have := ih hi
      rw [List.length_cons]
      omega
  | @escape a b x e ha hb _ ih =>
    simp only [List.length_cons]
    match i with
    | 0 => omega
    | 1 => exact absurd (Option.some.inj hi) (xdigit_ne_sign ha)
    | 2 => exact absurd (Option.some.inj hi) (xdigit_ne_sign hb)
    | i + 3 =>
      simp only [List.getElem?_cons_succ] at hi
      have := ih hi
      omega

theorem self (h : ∀ c ∈ x, c ≠ 37 ∧ c ≠ 43) : Encodes x x := by
  induction x with
  | nil => exact .nil
  | cons c x ih =>
    obtain ⟨hc, hx⟩ := List.forall_mem_cons.mp h
    exact .plain hc.1 hc.2 (ih hx)

end Encodes

/-! ## Pieces of a text -/

/-- The escape at the end of a text that is not finished. -/
def unfinished : Bytes → Bytes
  | [] => []
  | [c] => if c = 37 then [c] else []
  | [c, d] => if c = 37 then [c, d] else if d = 37 then [d] else []
  | c :: a :: b :: t => if c = 37 then unfinished t else unfinished (a :: b :: t)

theorem unfinished_cons {c : UInt8} (h : c ≠ 37) (t : Bytes) :
    unfinished (c :: t) = unfinished t := by
  match t with
  | [] => exact if_neg h
  | [_] => exact if_neg h
  | _ :: _ :: _ => rw [unfinished, if_neg h]

@[simp] theorem unfinished_three (a b : UInt8) (t : Bytes) :
    unfinished (37 :: a :: b :: t) = unfinished t :=
  if_pos rfl

/-- What a text `q` behind the piece `p` and a mark is decoded to. -/
def decodeBehind (p q : Bytes) : Bytes :=
  if unfinished p = [37] then q.take 1 ++ decode (q.drop 1) else decode q

theorem decode_length_le (u : Bytes) : (decode u).length ≤ u.length := by
  induction u using decode_induct with
  | hnil => exact le_rfl
  | hplain c t hc ih => rw [decode_cons hc]; exact Nat.succ_le_succ ih
  | hsign => exact le_rfl
  | hsign2 a => exact le_rfl
  | hescape a b t ha hb ih =>
    rw [decode_escape ha hb]
    simp only [List.length_cons]
    omega
  | hbroken a b t hab ih =>
    rw [decode_broken hab]
    simp only [List.length_cons]
    omega

theorem decodeBehind_length_le (p q : Bytes) : (decodeBehind p q).length ≤ q.length := by
  unfold decodeBehind
  split_ifs
  · have := decode_length_le (q.drop 1)
    rw [List.length_drop] at this
    rw [List.length_append, List.length_take]
    omega
  · exact decode_length_le q

theorem decode_ne_nil {u : Bytes} (h : u ≠ []) : decode u ≠ [] := by
  induction u using decode_induct with
  | hnil => exact absurd rfl h
  | hplain c t hc _ => rw [decode_cons hc]; exact List.cons_ne_nil _ _
  | hsign => decide
  | hsign2 a => exact List.cons_ne_nil _ _
  | hescape a b t ha hb _ => rw [decode_escape ha hb]; exact List.cons_ne_nil _ _
  | hbroken a b t hab _ => rw [decode_broken hab]; exact List.cons_ne_nil _ _

variable {m : UInt8}

/-- Behind a mark that is no part of an escape the text goes on by itself. -/
theorem decode_mark (hsign : m ≠ 37) (hplus : m ≠ 43) (hdigit : isxdigit m = false) (p q : Bytes) :
    decode (p ++ m :: q) = decode (p ++ [m]) ++ decodeBehind p q := by
  have hleft : ∀ b, ¬ (isxdigit m ∧ isxdigit b) := fun b h => by rw [hdigit] at h; cases h.1
  have hright : ∀ a, ¬ (isxdigit a ∧ isxdigit m) := fun a h => by rw [hdigit] at h; cases h.2
  induction p using decode_induct with
  | hnil => rw [List.nil_append, List.nil_append, decode_cons hsign]; rfl
  | hplain c t hc ih =>
    rw [List.cons_append, List.cons_append, decode_cons hc, decode_cons hc, ih, decodeBehind,
      decodeBehind, unfinished_cons hc]
    rfl
  | hsign =>
    cases q with
    | nil => rfl
    | cons b q =>
      rw [List.singleton_append, decode_broken (hleft b)]
      show _ = [plus 37, plus m] ++ (b :: decode q)
      rw [plus_of_ne hplus]
      rfl
  | hsign2 a =>
    have hopen : unfinished [37, a] ≠ [37] := by simp [unfinished]
    rw [List.cons_append, List.singleton_append, decode_broken (hright a), decodeBehind,
      if_neg hopen, List.cons_append, List.singleton_append, decode_broken (hright a)]
    rfl
  | hescape a b t ha hb ih =>
    simp only [List.cons_append, decode_escape ha hb, ih, decodeBehind, unfinished_three]
  | hbroken a b t hab ih =>
    simp only [List.cons_append, decode_broken hab, ih, decodeBehind, unfinished_three]

/-- The piece in front of a mark, but for a sign and a `'+'` at its end. -/
theorem decode_concat_mark {p : Bytes} (hplus : m ≠ 43) (hdigit : isxdigit m = false)
    (hp : unfinished p ≠ [37, 43]) :
    decode (p ++ [m]) = decode p ++ [m] := by
  have hright : ∀ a, ¬ (isxdigit a ∧ isxdigit m) := fun a h => by rw [hdigit] at h; cases h.2
  induction p using decode_induct with
  | hnil => exact congrArg (fun c => [c]) (plus_of_ne hplus)
  | hplain c t hc ih =>
    rw [unfinished_cons hc] at hp
    rw [List.cons_append, decode_cons hc, decode_cons hc, ih hp, List.cons_append]
  | hsign =>
    show [plus 37, plus m] = [plus 37] ++ [m]
    rw [plus_of_ne hplus]
    rfl
  | hsign2 a =>
    have ha : a ≠ 43 := by
      rintro rfl
      exact hp rfl
    rw [List.cons_append, List.singleton_append, decode_broken (hright a)]
    show [37, a, m] = [plus 37, plus a] ++ [m]
    rw [plus_of_ne ha]
    rfl
  | hescape a b t ha hb ih =>
    rw [unfinished_three] at hp
    simp only [List.cons_append, decode_escape ha hb, ih hp]
  | hbroken a b t hab ih =>
    rw [unfinished_three] at hp
    simp only [List.cons_append, decode_broken hab, ih hp]

/-- A sign and a `'+'` in front of a mark: the blank that the `'+'` stands for is no blank any
more. -/
theorem decode_concat_mark_plus {p : Bytes} (hdigit : isxdigit m = false)
    (hp : unfinished p = [37, 43]) :
    ∃ w, decode p = w ++ [32] ∧ decode (p ++ [m]) = w ++ [43, m] := by
  have hright : ∀ a, ¬ (isxdigit a ∧ isxdigit m) := fun a h => by rw [hdigit] at h; cases h.2
  induction p using decode_induct with
  | hnil => cases hp
  | hplain c t hc ih =>
    rw [unfinished_cons hc] at hp
    obtain ⟨w, hw, hw'⟩ := ih hp
    exact ⟨plus c :: w, by rw [decode_cons hc, hw, List.cons_append],
      by rw [List.cons_append, decode_cons hc, hw', List.cons_append]⟩
  | hsign => cases hp
  | hsign2 a =>
    have ha : a = 43 := by simpa [unfinished] using hp
    subst ha
    exact ⟨[37], rfl, decode_broken (hright 43) []⟩
  | hescape a b t ha hb ih =>
    rw [unfinished_three] at hp
    obtain ⟨w, hw, hw'⟩ := ih hp
    exact ⟨hexByte a b :: w, by rw [decode_escape ha hb, hw, List.cons_append],
      by simp only [List.cons_append, decode_escape ha hb, hw']⟩
  | hbroken a b t hab ih =>
    rw [unfinished_three] at hp
    obtain ⟨w, hw, hw'⟩ := ih hp
    exact ⟨37 :: a :: b :: w, by rw [decode_broken hab, hw]; rfl,
      by simp only [List.cons_append, decode_broken hab, hw']⟩

end Percent
