import Mathlib
import Dframework.Library.CLib
import Dframework.Library.Pieces

/-!
# Lines of a head

A head is written line by line, and each line is closed by CR and LF. Whoever writes a line with a CR
or a LF of its own in it writes more lines than he counts. Whoever reads the head takes it to end at
the first empty line.

Results:
1. `unbroken_of_text_eq`: a text of as many lines as were written has the lines that were written.
2. `isHead_text_iff`: what was written is read as it was meant.
3. `text_broken`: a text is also that of the lines its own line ends make.
4. `cutHead_text`: what is read of a head, and what stands behind it.
-/

namespace Lines

open CLib

/-- A line without CR and LF. -/
def Unbroken (l : Bytes) : Prop :=
  (13 : UInt8) ∉ l ∧ (10 : UInt8) ∉ l

instance (l : Bytes) : Decidable (Unbroken l) := inferInstanceAs (Decidable (_ ∧ _))

def text (lines : List Bytes) : Bytes :=
  lines.flatMap (· ++ CRLF)

def IsHead (n : Nat) (head : Bytes) : Prop :=
  ∃ lines, (∀ l ∈ lines, Unbroken l) ∧ lines.length = n ∧ head = text lines

@[simp] theorem text_nil : text [] = [] := rfl

@[simp] theorem text_cons (l : Bytes) (lines : List Bytes) :
    text (l :: lines) = l ++ (CRLF ++ text lines) := by
  simp [text]

theorem text_append (a b : List Bytes) : text (a ++ b) = text a ++ text b :=
  List.flatMap_append

theorem unbroken_nil : Unbroken [] :=
  ⟨List.not_mem_nil, List.not_mem_nil⟩

theorem unbroken_append {a b : Bytes} : Unbroken (a ++ b) ↔ Unbroken a ∧ Unbroken b := by
  simp only [Unbroken, List.mem_append]
  tauto

theorem unbroken_cons {c : UInt8} {l : Bytes} :
    Unbroken (c :: l) ↔ (c ≠ 13 ∧ c ≠ 10) ∧ Unbroken l := by
  simp only [Unbroken, List.mem_cons, not_or]
  tauto

theorem unbroken_of_prefix {a b : Bytes} (h : Unbroken b) (hab : a <+: b) : Unbroken a :=
  ⟨fun hmem => h.1 (hab.subset hmem), fun hmem => h.2 (hab.subset hmem)⟩

/-- The lines of a text are counted by their ends, those of their own included. -/
theorem count_text {c : UInt8} (hc : CRLF.count c = 1) (lines : List Bytes) :
    (text lines).count c = (lines.map (List.count c)).sum + lines.length := by
  induction lines with
  | nil => rfl
  | cons l lines ih =>
    rw [text_cons, List.count_append, List.count_append, hc, ih, List.map_cons, List.sum_cons,
      List.length_cons]
    omega

theorem not_mem_of_count {c : UInt8} (hc : CRLF.count c = 1) {pieces lines : List Bytes}
    (hlen : lines.length = pieces.length) (hl : ∀ l ∈ lines, c ∉ l)
    (h : text pieces = text lines) : ∀ p ∈ pieces, c ∉ p := by
  have hcount := congrArg (List.count c) h
  rw [count_text hc, count_text hc] at hcount
  have hzero : (lines.map (List.count c)).sum = 0 := by
    rw [List.sum_eq_zero_iff]
    intro n hn
    obtain ⟨l, hmem, rfl⟩ := List.mem_map.mp hn
    exact List.count_eq_zero.mpr (hl l hmem)
  have hsum : (pieces.map (List.count c)).sum = 0 := by omega
  intro p hp
  exact List.count_eq_zero.mp (List.sum_eq_zero_iff.mp hsum _ (List.mem_map_of_mem hp))

theorem unbroken_of_text_eq {pieces lines : List Bytes} (hlen : lines.length = pieces.length)
    (hl : ∀ l ∈ lines, Unbroken l) (h : text pieces = text lines) :
    ∀ p ∈ pieces, Unbroken p := fun p hp =>
  ⟨not_mem_of_count (by decide) hlen (fun l hmem => (hl l hmem).1) h p hp,
    not_mem_of_count (by decide) hlen (fun l hmem => (hl l hmem).2) h p hp⟩

/-- A text is read as the lines that were written exactly when none of them is broken. -/
theorem isHead_text_iff (pieces : List Bytes) :
    IsHead pieces.length (text pieces) ↔ ∀ p ∈ pieces, Unbroken p := by
  constructor
  · rintro ⟨lines, hl, hlen, heq⟩
    exact unbroken_of_text_eq hlen hl heq
  · exact fun h => ⟨pieces, h, rfl, rfl⟩

/-! ## The end of a head -/

/-- The lines that some lines make when they are read. -/
def broken (lines : List Bytes) : List Bytes :=
  lines.flatMap (Search.pieces CRLF)

/-- The lines up to the first empty one, and what stands behind it. -/
def cutHead (s : Bytes) : Option (List Bytes × Bytes) :=
  (Search.find (CRLF ++ CRLF) s).map fun i => (Search.pieces CRLF (s.take i), s.drop (i + 4))

theorem CRLF_ne_nil : CRLF ≠ [] :=
  List.cons_ne_nil _ _

theorem pieces_of_unbroken {l : Bytes} (h : Unbroken l) : Search.pieces CRLF l = [l] :=
  Search.pieces_of_none (find_crlf_of_not_mem h.1)

theorem pieces_line {l : Bytes} (h : Search.find CRLF l = none) (t : Bytes) :
    Search.pieces CRLF (l ++ CRLF ++ t) = l :: Search.pieces CRLF t := by
  have hdrop : (l ++ CRLF ++ t).drop (l.length + CRLF.length) = t := by
    rw [← List.length_append, List.drop_left]
  rw [Search.pieces_of_some CRLF_ne_nil (find_crlf_line h t), hdrop, List.append_assoc, List.take_left]

theorem find_of_mem_pieces {l p : Bytes} (h : p ∈ Search.pieces CRLF l) :
    Search.find CRLF p = none := by
  induction l using Search.cut_induction CRLF_ne_nil with
  | hlast s hf =>
    rw [Search.pieces_of_none hf] at h
    exact List.mem_singleton.mp h ▸ hf
  | hcut s i hf ih =>
    rw [Search.pieces_of_some CRLF_ne_nil hf] at h
    rcases List.mem_cons.mp h with rfl | h
    · exact Search.find_take CRLF_ne_nil hf
    · exact ih h

theorem find_of_mem_broken {lines : List Bytes} {p : Bytes} (h : p ∈ broken lines) :
    Search.find CRLF p = none := by
  obtain ⟨l, -, hp⟩ := List.mem_flatMap.mp h
  exact find_of_mem_pieces hp

/-- The text of some lines is closed by a line end, and has one between any two of them. -/
theorem text_eq_intercalate {lines : List Bytes} (h : lines ≠ []) :
    text lines = List.intercalate CRLF lines ++ CRLF := by
  obtain ⟨l, ls, rfl⟩ := List.exists_cons_of_ne_nil h
  induction ls generalizing l with
  | nil => simp
  | cons l' ls ih =>
    rw [text_cons, ih l' (List.cons_ne_nil _ _),
      List.intercalate_cons_of_ne_nil (List.cons_ne_nil _ _)]
    simp only [List.append_assoc]

theorem text_broken (lines : List Bytes) : text (broken lines) = text lines := by
  induction lines with
  | nil => rfl
  | cons l lines ih =>
    have hl : text (Search.pieces CRLF l) = l ++ CRLF := by
      rw [text_eq_intercalate (Search.pieces_ne_nil _ _), Search.intercalate_pieces CRLF_ne_nil]
    rw [broken, List.flatMap_cons, text_append, hl, text_cons, List.append_assoc, ← broken, ih]

/-- The end of a head is the first empty line, and the lines in front of it are found again. -/
theorem find_head {line : Bytes} {lines : List Bytes} (rest : Bytes)
    (h : ∀ l ∈ line :: lines, Search.find CRLF l = none) (hne : [] ∉ lines) :
    Search.find (CRLF ++ CRLF) (text (line :: lines) ++ (CRLF ++ rest)) =
        some (List.intercalate CRLF (line :: lines)).length ∧
      Search.pieces CRLF (List.intercalate CRLF (line :: lines)) = line :: lines := by
  induction lines generalizing line with
  | nil =>
    have hline := h line List.mem_cons_self
    rw [text_cons, List.intercalate_singleton, Search.pieces_of_none hline]
    refine ⟨?_, rfl⟩
    rw [text_nil, List.append_nil, List.append_assoc, Search.find_skip fun j hj hp => ?_,
      Search.find_of_starts ⟨rest, List.append_assoc _ _ _⟩]
    · exact congrArg some (Nat.zero_add _)
    · rw [← List.append_assoc] at hp
      exact not_crlf_prefix_drop hline j hj ((List.prefix_append _ _).trans hp)
  | cons l ls ih =>
    have hline := h line List.mem_cons_self
    obtain ⟨ihfind, ihpieces⟩ := ih (fun x hx => h x (List.mem_cons_of_mem _ hx))
      (fun hmem => hne (List.mem_cons_of_mem _ hmem))
    have hnext : ¬ CRLF <+: text (l :: ls) ++ (CRLF ++ rest) := by
      intro hp
      have hzero := Search.find_of_starts hp
      rw [text_cons, ← List.append_assoc l, List.append_assoc,
        find_crlf_line (h l (List.mem_cons_of_mem _ List.mem_cons_self))] at hzero
      have hnil := List.length_eq_zero_iff.mp (Option.some.inj hzero)
      exact hne (hnil ▸ List.mem_cons_self)
    have hint : List.intercalate CRLF (line :: l :: ls) =
        line ++ CRLF ++ List.intercalate CRLF (l :: ls) :=
      List.intercalate_cons_of_ne_nil (List.cons_ne_nil _ _)
    rw [hint, pieces_line hline, ihpieces]
    refine ⟨?_, rfl⟩
    rw [text_cons, ← List.append_assoc line, List.append_assoc,
      Search.find_skip fun j hj hp => ?_, ihfind]
    · simp only [Option.map_some, List.length_append]
      exact congrArg some (by omega)
    · -- an empty line does not start in the line, nor at its end, as the next one is not empty
      have hcrlf := (List.prefix_append CRLF CRLF).trans hp
      rw [List.length_append] at hj
      rcases Nat.lt_or_ge j line.length with hlt | hge
      · exact not_crlf_prefix_drop hline j hlt hcrlf
      rw [List.append_assoc, List.drop_append, List.drop_eq_nil_of_le hge,
        List.nil_append] at hp hcrlf
      obtain hj0 | hj1 : j - line.length = 0 ∨ j - line.length = 1 := by
        have : CRLF.length = 2 := rfl
        omega
      · rw [hj0, List.drop_zero] at hp
        exact hnext ((List.prefix_append_right_inj CRLF).mp hp)
      · rw [hj1] at hcrlf
        exact absurd (List.cons_prefix_cons.mp hcrlf).1 (by decide)

/-- A head ends at the first empty line behind its first one. -/
theorem cutHead_text {line : Bytes} {lines : List Bytes} (rest : Bytes)
    (h : ∀ l ∈ line :: lines, Search.find CRLF l = none) (hne : [] ∉ lines) :
    cutHead (text (line :: lines) ++ (CRLF ++ rest)) = some (line :: lines, rest) := by
  have hsplit : text (line :: lines) ++ (CRLF ++ rest) =
      List.intercalate CRLF (line :: lines) ++ (CRLF ++ (CRLF ++ rest)) := by
    rw [text_eq_intercalate (List.cons_ne_nil _ _), List.append_assoc]
  obtain ⟨hfind, hpieces⟩ := find_head rest h hne
  rw [cutHead, hfind, Option.map_some, hsplit, List.take_left, hpieces]
  have hdrop : (List.intercalate CRLF (line :: lines) ++ (CRLF ++ (CRLF ++ rest))).drop
      ((List.intercalate CRLF (line :: lines)).length + 4) = rest := by
    rw [← List.drop_drop, List.drop_left]
    rfl
  rw [hdrop]

end Lines
