import Mathlib
import Dframework.Monitor.SaveRawData

/-!
# Loading the records of a monitor

`MonBase::loadRawData` reads the lines of a raw file, the newest record first, up to the current
slot. In front of the first record it puts in blank ones for the slots that have passed since. It
stops when it has more than `max_rows` of them. The file was named with `%lu` of the period, and is
looked for with `%d`.

Results:
1. `blankLoop_fill`, `loadLoop_fill`: what the loops put in.
2. `loadRawData_iff`: when what is loaded is what was saved, with the blanks.
-/

namespace Dframework

open CLib File

/-- What a class of devices does with the raw lines of its records. A blank one has the time it is
made for. -/
structure RawClass (α : Type) where
  sec : α → UInt64
  getRawString : α → Option Bytes
  loadData : Bytes → Except Ret α
  createBlank : UInt64 → α → α
  sec_blank : ∀ st m, sec (createBlank st m) = st

namespace RawClass

variable {α : Type} (c : RawClass α)

def time (m : α) : Nat :=
  (c.sec m).toNat

/-- The name of a raw file, with the period as a text. -/
def rawPath (path rawname number : Bytes) : Bytes :=
  path ++ bytes "/raw/" ++ rawname ++ bytes "-" ++ number ++ bytes ".raw"

/-- The file of the records `l` as `saveRawData` names and writes it. -/
def savedFile (path rawname : Bytes) (sec : UInt32) (l : List α) : Bytes → Option Bytes :=
  fun name =>
    if name = rawPath path rawname (decimal sec.toNat) then some (rawLines c.getRawString l).flatten
    else none

/-- The current slot. `dsec` is an `int`, and is subtracted in 32 bits. -/
def slot (now : UInt64) (sec : UInt32) : UInt64 :=
  let csec := now / 1000
  let dsec := (csec % sec.toUInt64).toUInt32.toInt32
  if dsec = 0 then csec else csec + (sec - dsec.toUInt32).toUInt64

/-- `inf->m_aLists.insert`. -/
def insert (m : α) (l : List α) : List α :=
  ArraySorted.insert (compareOn c.time) m l

/-- The loop over the slots behind the record `mb`, from `st` on, and whether there are too many
entries. -/
def blankLoop (sec : UInt32) (csec : UInt64) (maxRows : Int) (mb : α) :
    Nat → UInt64 → List α → Option (Bool × List α)
  | 0, _, _ => none
  | fuel + 1, st, l =>
    if st < csec then
      let l := c.insert (c.createBlank st mb) l
      if maxRows < l.length then some (true, l)
      else blankLoop sec csec maxRows mb fuel (st + sec.toUInt64) l
    else some (false, l)

/-- The loop over the lines of `p`. The length of a line is an `unsigned`. -/
def loadLoop (sec : UInt32) (csec : UInt64) (maxRows : Int) :
    Nat → Bytes → Bool → List α → Option (Retval × List α)
  | 0, _, _, _ => none
  | fuel + 1, p, isfirst, l =>
    match strstr p [10] with
    | none => some (none, l)
    | some i =>
      let len := i % 2 ^ 32
      if len = 0 then some (none, l)
      else
        let rest := p.drop ((len + 1) % 2 ^ 32)
        match c.loadData (p.take len) with
        | .error e => some (some e, l)
        | .ok mb =>
          if csec ≤ c.sec mb then loadLoop sec csec maxRows fuel rest isfirst l
          else do
            let (full, l) ←
              if isfirst then some (false, l)
              else c.blankLoop sec csec maxRows mb (csec.toNat + 1) (c.sec mb + sec.toUInt64) l
            if full then some (none, l)
            else
              let l := c.insert mb l
              if maxRows < l.length then some (none, l)
              else loadLoop sec csec maxRows fuel rest true l

/-- `MonBase::loadRawData` into the list `l`, with the files there are and what the system reads at
a time. It answers nothing where it divides by zero or does not return. -/
def loadRawData (files : Bytes → Option Bytes) (reads : Nat → Reading) (now : UInt64)
    (path rawname : Bytes) (sec : UInt32) (maxRows : Int) (l : List α) : Option (Retval × List α) :=
  match files (rawPath path rawname (decimal sec.toInt32.toInt)) with
  | none => some (none, l)
  | some file =>
    match contents none reads [] (some file) with
    | (some e, _) => some (some e, l)
    | (none, s) =>
      if s = [] then some (none, l)
      else if sec = 0 then none
      else c.loadLoop sec (slot now sec) maxRows (s.length + 1) s false l

/-! ## What is to be loaded -/

/-- The records before the current slot. -/
def kept (csec : UInt64) (l : List α) : List α :=
  l.filter fun m => c.sec m < csec

/-- A blank record for a slot behind the newest record, before the current slot. -/
def IsBlank (sec : UInt32) (csec : UInt64) (l : List α) (e : α) : Prop :=
  ∃ m ∈ (c.kept csec l).getLast?, ∃ st k, 0 < k ∧ st < csec ∧
    st.toNat = c.time m + k * sec.toNat ∧ e = c.createBlank st m

/-- The number of the slots between the newest record and the current slot. -/
def blankCount (sec : UInt32) (csec : UInt64) (l : List α) : Nat :=
  match (c.kept csec l).getLast? with
  | none => 0
  | some m => (csec.toNat - 1 - c.time m) / sec.toNat

/-- The number of the records and blanks that are to be loaded. -/
def total (sec : UInt32) (csec : UInt64) (l : List α) : Nat :=
  (c.kept csec l).length + c.blankCount sec csec l

/-- What `loadRawData` is to make of the records `l`. -/
structure Loaded (sec : UInt32) (csec : UInt64) (maxRows : Int) (l out : List α) : Prop where
  sorted : out.Pairwise fun a b => c.time a ≤ c.time b
  length_le : (out.length : Int) ≤ maxRows
  mem : ∀ e ∈ out, e ∈ c.kept csec l ∨ c.IsBlank sec csec l e
  all : (c.total sec csec l : Int) ≤ maxRows →
    ∀ e, e ∈ c.kept csec l ∨ c.IsBlank sec csec l e → e ∈ out

/-- A record comes back from its line, which ends with its only LF. -/
def RoundTrip (m : α) : Prop :=
  ∃ body, c.getRawString m = some (body ++ [10]) ∧ body ≠ [] ∧ (10 : UInt8) ∉ body ∧
    (0 : UInt8) ∉ body ∧ body.length + 1 < 2 ^ 32 ∧ c.loadData body = .ok m

/-! ## Putting in up to a limit -/

/-- The elements are put in one after another, until there are too many. -/
def fill (maxRows : Int) : List α → List α → Bool × List α
  | [], l => (false, l)
  | x :: xs, l =>
    if maxRows < (c.insert x l).length then (true, c.insert x l) else fill maxRows xs (c.insert x l)

variable {c} {maxRows : Int} {l l' xs ys : List α} {m : α} {sec : UInt32} {csec : UInt64}

theorem insert_perm (m : α) (l : List α) : (c.insert m l).Perm (m :: l) :=
  List.perm_insertIdx m l (ArraySorted.insertId_le _ m l)

theorem insert_sorted (h : ArraySorted.Sorted (compareOn c.time) l) (m : α) :
    ArraySorted.Sorted (compareOn c.time) (c.insert m l) :=
  ArraySorted.insert_sorted h m

theorem fill_append (xs ys l : List α) : c.fill maxRows (xs ++ ys) l =
    if (c.fill maxRows xs l).1 then c.fill maxRows xs l
    else c.fill maxRows ys (c.fill maxRows xs l).2 := by
  induction xs generalizing l with
  | nil => rfl
  | cons x xs ih =>
    rw [List.cons_append, fill, fill]
    by_cases hfull : maxRows < (c.insert x l).length
    · rw [if_pos hfull, if_pos hfull]
      rfl
    · rw [if_neg hfull, if_neg hfull]
      exact ih _

theorem fill_sorted (h : ArraySorted.Sorted (compareOn c.time) l) (xs : List α) :
    ArraySorted.Sorted (compareOn c.time) (c.fill maxRows xs l).2 := by
  induction xs generalizing l with
  | nil => exact h
  | cons x xs ih =>
    rw [fill]
    split_ifs
    · exact insert_sorted h x
    · exact ih (insert_sorted h x)

/-- What was put in, and that it is all where there were not too many. -/
structure Filled (maxRows : Int) (xs l : List α) (r : Bool × List α) : Prop where
  mem : ∀ e ∈ r.2, e ∈ xs ∨ e ∈ l
  length_le : r.2.length ≤ xs.length + l.length
  full : r.1 = true → maxRows < r.2.length
  perm : r.1 = false → r.2.Perm (xs ++ l)

theorem filled (xs l : List α) : Filled maxRows xs l (c.fill maxRows xs l) := by
  induction xs generalizing l with
  | nil =>
    exact ⟨fun _ => .inr, Nat.le_add_left _ _, (fun h => nomatch h), fun _ => List.Perm.refl _⟩
  | cons x xs ih =>
    have hperm := @insert_perm α c x l
    have hlen : (c.insert x l).length = l.length + 1 := hperm.length_eq
    have hmem : ∀ e ∈ c.insert x l, e ∈ x :: xs ∨ e ∈ l := by
      intro e he
      rcases List.mem_cons.mp (hperm.mem_iff.mp he) with rfl | he
      · exact .inl List.mem_cons_self
      · exact .inr he
    rw [fill]
    split_ifs with hfull
    · refine ⟨hmem, ?_, fun _ => hfull, fun h => nomatch h⟩
      rw [hlen, List.length_cons]
      omega
    · have hrest := ih (c.insert x l)
      refine ⟨fun e he => ?_, ?_, hrest.full, fun h => ?_⟩
      · rcases hrest.mem e he with he | he
        · exact .inl (List.mem_cons_of_mem x he)
        · exact hmem e he
      · have hle := hrest.length_le
        rw [hlen] at hle
        rw [List.length_cons]
        omega
      · exact (hrest.perm h).trans
          ((hperm.append_left xs).trans List.perm_middle)

/-- There is room for all exactly when there are not too many afterwards. -/
theorem fill_length_iff (xs : List α) :
    ((c.fill maxRows xs []).2.length : Int) ≤ maxRows ↔ (xs.length : Int) ≤ maxRows := by
  have h := @filled α c maxRows xs []
  have hle := h.length_le
  rw [List.length_nil, Nat.add_zero] at hle
  constructor
  · intro hrows
    have hroom : (c.fill maxRows xs []).1 = false := by
      rw [Bool.eq_false_iff]
      exact fun hfull => absurd (h.full hfull) (not_lt.mpr hrows)
    have hlen := (h.perm hroom).length_eq
    rw [List.append_nil] at hlen
    rwa [hlen] at hrows
  · omega

theorem mem_fill (hrows : (xs.length : Int) ≤ maxRows) {e : α} (he : e ∈ xs) :
    e ∈ (c.fill maxRows xs []).2 := by
  have h := @filled α c maxRows xs []
  have hroom : (c.fill maxRows xs []).1 = false := by
    rw [Bool.eq_false_iff]
    exact fun hfull => absurd (h.full hfull) (not_lt.mpr ((fill_length_iff xs).mpr hrows))
  rw [(h.perm hroom).mem_iff, List.append_nil]
  exact he

/-! ## The blanks -/

/-- The slots from `st` on. -/
def slots (sec : UInt64) : Nat → UInt64 → List UInt64
  | 0, _ => []
  | n + 1, st => st :: slots sec n (st + sec)

/-- The blanks behind the newest record. -/
def blanks (c : RawClass α) (sec : UInt32) (csec : UInt64) (newest : Option α) : List α :=
  match newest with
  | none => []
  | some m =>
    (slots sec.toUInt64 ((csec.toNat - 1 - c.time m) / sec.toNat) (c.sec m + sec.toUInt64)).map
      (c.createBlank · m)

theorem length_slots (sec : UInt64) (n : Nat) (st : UInt64) : (slots sec n st).length = n := by
  induction n generalizing st with
  | zero => rfl
  | succ n ih => rw [slots, List.length_cons, ih]

/-- The slots do not wrap before the current one. -/
theorem toNat_slot_add {st : UInt64} (hlt : st.toNat < csec.toNat)
    (hfit : csec.toNat + sec.toNat < 2 ^ 64) :
    (st + sec.toUInt64).toNat = st.toNat + sec.toNat := by
  rw [UInt64.toNat_add, UInt32.toNat_toUInt64, Nat.mod_eq_of_lt]
  omega

theorem mem_slots (hfit : csec.toNat + sec.toNat < 2 ^ 64) {n : Nat} {st t : UInt64}
    (hn : ∀ k < n, st.toNat + k * sec.toNat < csec.toNat) :
    t ∈ slots sec.toUInt64 n st ↔ ∃ k < n, t.toNat = st.toNat + k * sec.toNat := by
  induction n generalizing st with
  | zero => exact ⟨fun h => absurd h List.not_mem_nil, fun ⟨k, hk, _⟩ => absurd hk k.not_lt_zero⟩
  | succ n ih =>
    have hst : st.toNat < csec.toNat := by simpa using hn 0 n.succ_pos
    have hadd := toNat_slot_add hst hfit
    have hstep : ∀ k,
        (st + sec.toUInt64).toNat + k * sec.toNat = st.toNat + (k + 1) * sec.toNat := by
      intro k
      rw [hadd, Nat.succ_mul]
      omega
    rw [slots, List.mem_cons, ih fun k hk => hstep k ▸ hn (k + 1) (Nat.succ_lt_succ hk)]
    constructor
    · rintro (rfl | ⟨k, hk, ht⟩)
      · exact ⟨0, n.succ_pos, by rw [Nat.zero_mul, Nat.add_zero]⟩
      · exact ⟨k + 1, Nat.succ_lt_succ hk, ht.trans (hstep k)⟩
    · rintro ⟨k, hk, ht⟩
      cases k with
      | zero =>
        rw [Nat.zero_mul, Nat.add_zero] at ht
        exact .inl (UInt64.toNat_inj.mp ht)
      | succ k => exact .inr ⟨k, Nat.lt_of_succ_lt_succ hk, ht.trans (hstep k).symm⟩

/-- The loop of the blanks puts in as many as there are slots, or stops before. -/
theorem blankLoop_fill (hsec : sec ≠ 0) (hfit : csec.toNat + sec.toNat < 2 ^ 64) {fuel n : Nat}
    {st : UInt64} (hfuel : csec.toNat - st.toNat < fuel)
    (hn : ∀ k, k < n ↔ st.toNat + k * sec.toNat < csec.toNat) (l : List α) :
    c.blankLoop sec csec maxRows m fuel st l =
      some (c.fill maxRows ((slots sec.toUInt64 n st).map (c.createBlank · m)) l) := by
  have hpos : 0 < sec.toNat := Nat.pos_of_ne_zero fun h0 => hsec (UInt32.toNat_inj.mp h0)
  induction fuel generalizing st n l with
  | zero => exact absurd hfuel (Nat.not_lt_zero _)
  | succ fuel ih =>
    have hzero : 0 < n ↔ st < csec := by
      rw [hn 0, Nat.zero_mul, Nat.add_zero, UInt64.lt_iff_toNat_lt]
    rw [blankLoop]
    cases n with
    | zero =>
      rw [if_neg fun h => absurd (hzero.mpr h) (lt_irrefl 0)]
      rfl
    | succ n =>
      have hlt := hzero.mp n.succ_pos
      have hadd := toNat_slot_add (UInt64.lt_iff_toNat_lt.mp hlt) hfit
      rw [if_pos hlt, slots, List.map_cons, fill]
      simp only
      split_ifs
      · rfl
      · refine ih ?_ (fun k => ?_) _
        · have := UInt64.lt_iff_toNat_lt.mp hlt
          omega
        · rw [hadd, ← Nat.succ_lt_succ_iff, Nat.succ_eq_add_one, hn (k + 1), Nat.succ_mul]
          omega

/-- The number of the slots behind a record. -/
theorem lt_slotCount_iff (hsec : sec ≠ 0) {t : Nat} (ht : t < csec.toNat) (k : Nat) :
    k < (csec.toNat - 1 - t) / sec.toNat ↔ t + sec.toNat + k * sec.toNat < csec.toNat := by
  have hpos : 0 < sec.toNat := Nat.pos_of_ne_zero fun h0 => hsec (UInt32.toNat_inj.mp h0)
  rw [← Nat.succ_le_iff, Nat.le_div_iff_mul_le hpos, Nat.succ_mul]
  omega

/-! ## The loop over the lines -/

variable {fuel : Nat}

theorem length_flatten_lines {m : α} {body : Bytes} (hraw : c.getRawString m = some (body ++ [10]))
    (rs : List α) : ((m :: rs).filterMap c.getRawString).flatten =
      body ++ 10 :: (rs.filterMap c.getRawString).flatten := by
  rw [List.filterMap_cons_some hraw, List.flatten_cons, List.append_assoc]
  rfl

/-- One round, at the line of a record. -/
theorem loadLoop_line {body : Bytes} (hne : body ≠ []) (hlf : (10 : UInt8) ∉ body)
    (hnul : (0 : UInt8) ∉ body) (hlen : body.length + 1 < 2 ^ 32) (hload : c.loadData body = .ok m)
    (rest : Bytes) (isfirst : Bool) (l : List α) :
    c.loadLoop sec csec maxRows (fuel + 1) (body ++ 10 :: rest) isfirst l =
      if csec ≤ c.sec m then c.loadLoop sec csec maxRows fuel rest isfirst l
      else (if isfirst then some (false, l)
          else c.blankLoop sec csec maxRows m (csec.toNat + 1) (c.sec m + sec.toUInt64) l).bind
        fun r =>
          if r.1 then some (none, r.2)
          else if maxRows < (c.insert m r.2).length then some (none, c.insert m r.2)
          else c.loadLoop sec csec maxRows fuel rest true (c.insert m r.2) := by
  have hpos : body.length ≠ 0 := fun h0 => hne (List.length_eq_zero_iff.mp h0)
  have hmod : body.length % 2 ^ 32 = body.length := Nat.mod_eq_of_lt (by omega)
  have hdrop : (body ++ 10 :: rest).drop (body.length + 1) = rest := by
    rw [List.drop_append, List.drop_of_length_le (Nat.le_succ _), Nat.add_sub_cancel_left]
    rfl
  rw [loadLoop, strstr_char hnul hlf (by decide)]
  simp only [hmod, if_neg hpos, Nat.mod_eq_of_lt hlen, hdrop, List.take_left, hload]
  cases isfirst <;> rfl

/-- The lines behind the first record. -/
theorem loadLoop_behind {rs : List α} (hround : ∀ m ∈ rs, c.RoundTrip m)
    (hfuel : (rs.filterMap c.getRawString).flatten.length < fuel) (l : List α) :
    c.loadLoop sec csec maxRows fuel (rs.filterMap c.getRawString).flatten true l =
      some (none, (c.fill maxRows (c.kept csec rs) l).2) := by
  induction rs generalizing fuel l with
  | nil =>
    obtain ⟨fuel, rfl⟩ := Nat.exists_eq_succ_of_ne_zero (Nat.ne_of_gt (Nat.zero_lt_of_lt hfuel))
    rfl
  | cons m rs ih =>
    rw [List.forall_mem_cons] at hround
    obtain ⟨⟨body, hraw, hne, hlf, hnul, hlen, hload⟩, hrs⟩ := hround
    rw [length_flatten_lines hraw] at hfuel ⊢
    rw [List.length_append, List.length_cons] at hfuel
    obtain ⟨fuel, rfl⟩ := Nat.exists_eq_succ_of_ne_zero (Nat.ne_of_gt (Nat.zero_lt_of_lt hfuel))
    have hrest : (rs.filterMap c.getRawString).flatten.length < fuel := by omega
    rw [loadLoop_line hne hlf hnul hlen hload]
    by_cases hlate : csec ≤ c.sec m
    · have hkept : c.kept csec (m :: rs) = c.kept csec rs :=
        List.filter_cons_of_neg (by simpa using hlate)
      rw [if_pos hlate, hkept]
      exact ih hrs hrest l
    · have hkept : c.kept csec (m :: rs) = m :: c.kept csec rs :=
        List.filter_cons_of_pos (by simpa using hlate)
      rw [if_neg hlate, hkept, fill, if_pos rfl, Option.bind_some, if_neg Bool.false_ne_true]
      split_ifs
      · rfl
      · exact ih hrs hrest _

/-- All lines, from the newest record on. -/
theorem loadLoop_fill (hsec : sec ≠ 0) (hfit : csec.toNat + sec.toNat < 2 ^ 64) {rs : List α}
    (hround : ∀ m ∈ rs, c.RoundTrip m)
    (hfuel : (rs.filterMap c.getRawString).flatten.length < fuel) (l : List α) :
    c.loadLoop sec csec maxRows fuel (rs.filterMap c.getRawString).flatten false l =
      some (none, (c.fill maxRows
        (c.blanks sec csec (c.kept csec rs).head? ++ c.kept csec rs) l).2) := by
  induction rs generalizing fuel l with
  | nil =>
    obtain ⟨fuel, rfl⟩ := Nat.exists_eq_succ_of_ne_zero (Nat.ne_of_gt (Nat.zero_lt_of_lt hfuel))
    rfl
  | cons m rs ih =>
    rw [List.forall_mem_cons] at hround
    obtain ⟨⟨body, hraw, hne, hlf, hnul, hlen, hload⟩, hrs⟩ := hround
    rw [length_flatten_lines hraw] at hfuel ⊢
    rw [List.length_append, List.length_cons] at hfuel
    obtain ⟨fuel, rfl⟩ := Nat.exists_eq_succ_of_ne_zero (Nat.ne_of_gt (Nat.zero_lt_of_lt hfuel))
    have hrest : (rs.filterMap c.getRawString).flatten.length < fuel := by omega
    rw [loadLoop_line hne hlf hnul hlen hload]
    by_cases hlate : csec ≤ c.sec m
    · have hkept : c.kept csec (m :: rs) = c.kept csec rs :=
        List.filter_cons_of_neg (by simpa using hlate)
      rw [if_pos hlate, hkept]
      exact ih hrs hrest l
    · have hkept : c.kept csec (m :: rs) = m :: c.kept csec rs :=
        List.filter_cons_of_pos (by simpa using hlate)
      have hlt : (c.sec m).toNat < csec.toNat := by
        rw [UInt64.le_iff_toNat_le] at hlate
        omega
      have hadd := toNat_slot_add hlt hfit
      have hblanks : c.blankLoop sec csec maxRows m (csec.toNat + 1) (c.sec m + sec.toUInt64) l =
          some (c.fill maxRows (c.blanks sec csec (some m)) l) :=
        blankLoop_fill hsec hfit (by omega)
          (fun k => (lt_slotCount_iff hsec hlt k).trans (by rw [hadd])) l
      rw [if_neg hlate, hkept, List.head?_cons, if_neg Bool.false_ne_true, hblanks,
        Option.bind_some, fill_append]
      split_ifs with hfull hrow
      · rfl
      · rw [fill, if_pos hrow]
      · rw [fill, if_neg hrow]
        exact loadLoop_behind hrs hrest _

/-! ## What is loaded -/

/-- The current slot is the first multiple of the period from the current time on. -/
theorem slot_spec (now : UInt64) (hsec : sec ≠ 0) :
    sec.toNat ∣ (slot now sec).toNat ∧ now.toNat / 1000 ≤ (slot now sec).toNat ∧
      (slot now sec).toNat < now.toNat / 1000 + sec.toNat := by
  have hpos : 0 < sec.toNat := Nat.pos_of_ne_zero fun h0 => hsec (UInt32.toNat_inj.mp h0)
  have hnow : (now / 1000).toNat = now.toNat / 1000 := UInt64.toNat_div now 1000
  have hmod := Nat.mod_lt (now.toNat / 1000) hpos
  have hdiv := Nat.div_add_mod (now.toNat / 1000) sec.toNat
  have hnowlt := now.toNat_lt
  have hseclt := sec.toNat_lt
  have hrem : (now / 1000 % sec.toUInt64).toUInt32.toNat = now.toNat / 1000 % sec.toNat := by
    rw [UInt64.toNat_toUInt32, UInt64.toNat_mod, hnow, UInt32.toNat_toUInt64, Nat.mod_eq_of_lt]
    omega
  have hzero : (now / 1000 % sec.toUInt64).toUInt32.toInt32 = 0 ↔
      now.toNat / 1000 % sec.toNat = 0 := by
    rw [← hrem]
    constructor
    · intro h
      have hback := congrArg Int32.toUInt32 h
      rw [UInt32.toUInt32_toInt32] at hback
      rw [hback]
      rfl
    · intro h
      rw [show (now / 1000 % sec.toUInt64).toUInt32 = 0 from UInt32.toNat_inj.mp h]
      rfl
  rw [slot]
  split_ifs with hdsec
  · rw [hnow]
    exact ⟨Nat.dvd_of_mod_eq_zero (hzero.mp hdsec), le_rfl, Nat.lt_add_of_pos_right hpos⟩
  · have hdiff : (sec - (now / 1000 % sec.toUInt64).toUInt32.toInt32.toUInt32).toUInt64.toNat =
        sec.toNat - now.toNat / 1000 % sec.toNat := by
      rw [UInt32.toUInt32_toInt32, UInt32.toNat_toUInt64, UInt32.toNat_sub_of_le, hrem]
      rw [UInt32.le_iff_toNat_le, hrem]
      exact hmod.le
    have hne : now.toNat / 1000 % sec.toNat ≠ 0 := fun h => hdsec (hzero.mpr h)
    have hsum : (now / 1000 + (sec - (now / 1000 % sec.toUInt64).toUInt32.toInt32.toUInt32).toUInt64
        ).toNat = now.toNat / 1000 + (sec.toNat - now.toNat / 1000 % sec.toNat) := by
      rw [UInt64.toNat_add, hnow, hdiff, Nat.mod_eq_of_lt]
      omega
    rw [hsum]
    refine ⟨⟨now.toNat / 1000 / sec.toNat + 1, ?_⟩, Nat.le_add_right _ _, by omega⟩
    rw [Nat.mul_succ]
    omega

theorem slot_fits (now : UInt64) (hsec : sec ≠ 0) :
    (slot now sec).toNat + sec.toNat < 2 ^ 64 := by
  have hle := (slot_spec now hsec).2.2
  have hnowlt := now.toNat_lt
  have hseclt := sec.toNat_lt
  omega

theorem mem_kept {e : α} : e ∈ c.kept csec l ↔ e ∈ l ∧ c.sec e < csec := by
  rw [kept, List.mem_filter, decide_eq_true_iff]

theorem mem_blanks (hsec : sec ≠ 0) (hfit : csec.toNat + sec.toNat < 2 ^ 64) {e : α} :
    e ∈ c.blanks sec csec (c.kept csec l).getLast? ↔ c.IsBlank sec csec l e := by
  rw [IsBlank]
  cases hlast : (c.kept csec l).getLast? with
  | none => exact ⟨(fun h => nomatch h), fun ⟨_, h, _⟩ => nomatch h⟩
  | some m =>
    have hlt : (c.sec m).toNat < csec.toNat :=
      UInt64.lt_iff_toNat_lt.mp (mem_kept.mp (List.mem_of_getLast? hlast)).2
    have hadd := toNat_slot_add hlt hfit
    have hslots := @mem_slots sec csec hfit ((csec.toNat - 1 - c.time m) / sec.toNat)
      (c.sec m + sec.toUInt64)
    have hmem : ∀ st, st ∈ slots sec.toUInt64 ((csec.toNat - 1 - c.time m) / sec.toNat)
        (c.sec m + sec.toUInt64) ↔
          ∃ k, 0 < k ∧ st < csec ∧ st.toNat = c.time m + k * sec.toNat := by
      intro st
      rw [hslots fun k hk => hadd ▸ (lt_slotCount_iff hsec hlt k).mp hk, hadd]
      constructor
      · rintro ⟨k, hk, hst⟩
        refine ⟨k + 1, k.succ_pos, ?_, ?_⟩
        · rw [UInt64.lt_iff_toNat_lt, hst]
          exact (lt_slotCount_iff hsec hlt k).mp hk
        · rw [hst, Nat.succ_mul, Nat.add_assoc, Nat.add_comm sec.toNat]
          rfl
      · rintro ⟨k, hk, hst, heq⟩
        obtain ⟨k, rfl⟩ := Nat.exists_eq_succ_of_ne_zero hk.ne'
        have hsucc : st.toNat = (c.sec m).toNat + sec.toNat + k * sec.toNat := by
          rw [heq, Nat.succ_mul, Nat.add_assoc, Nat.add_comm sec.toNat]
          rfl
        refine ⟨k, (lt_slotCount_iff hsec hlt k).mpr ?_, hsucc⟩
        rw [← hsucc]
        exact UInt64.lt_iff_toNat_lt.mp hst
    rw [blanks, List.mem_map]
    constructor
    · rintro ⟨st, hst, rfl⟩
      obtain ⟨k, hk, hlt', heq⟩ := (hmem st).mp hst
      exact ⟨m, rfl, st, k, hk, hlt', heq, rfl⟩
    · rintro ⟨m', hm', st, k, hk, hlt', heq, rfl⟩
      obtain rfl := Option.some.inj hm'
      exact ⟨st, (hmem st).mpr ⟨k, hk, hlt', heq⟩, rfl⟩

theorem length_blanks (l : List α) :
    (c.blanks sec csec (c.kept csec l).getLast?).length = c.blankCount sec csec l := by
  rw [blankCount]
  cases (c.kept csec l).getLast? with
  | none => rfl
  | some m => exact (List.length_map _).trans (length_slots _ _ _)

/-- What is put in from an empty list is what is to be loaded exactly when there is room for it. -/
theorem loaded_fill_iff (hsec : sec ≠ 0) (hfit : csec.toNat + sec.toNat < 2 ^ 64) (l : List α) :
    c.Loaded sec csec maxRows l (c.fill maxRows (c.blanks sec csec (c.kept csec l).getLast? ++
        (c.kept csec l).reverse) []).2 ↔ (c.total sec csec l : Int) ≤ maxRows := by
  have hlen : (c.blanks sec csec (c.kept csec l).getLast? ++ (c.kept csec l).reverse).length =
      c.total sec csec l := by
    rw [List.length_append, length_blanks, List.length_reverse, total, Nat.add_comm]
  have hmem : ∀ e, e ∈ c.blanks sec csec (c.kept csec l).getLast? ++ (c.kept csec l).reverse ↔
      e ∈ c.kept csec l ∨ c.IsBlank sec csec l e := fun e => by
    rw [List.mem_append, mem_blanks hsec hfit, List.mem_reverse, or_comm]
  constructor
  · intro h
    rw [← hlen]
    exact (fill_length_iff _).mp h.length_le
  · intro htotal
    have hrows := hlen ▸ htotal
    refine ⟨?_, (fill_length_iff _).mpr hrows, fun e he => ?_, fun _ e he => ?_⟩
    · exact (fill_sorted List.Pairwise.nil _).imp fun h => Nat.isLE_compare.mp h
    · exact (hmem e).mp (((filled _ _).mem e he).resolve_right List.not_mem_nil)
    · exact mem_fill hrows ((hmem e).mpr he)

/-! ## The file -/

/-- A period that is printed as it is read is an `int`. -/
theorem decimal_eq_iff (sec : UInt32) :
    decimal sec.toInt32.toInt = decimal sec.toNat ↔ sec.toNat < 2 ^ 31 := by
  have hlt := sec.toNat_lt
  have hint : sec.toInt32.toInt =
      if 2 * sec.toNat < 2 ^ 32 then (sec.toNat : Int) else (sec.toNat : Int) - (2 ^ 32 : Nat) :=
    BitVec.toInt_eq_toNat_cond sec.toBitVec
  rw [hint]
  split_ifs with hhalf
  · exact ⟨fun _ => by omega, fun _ => rfl⟩
  · refine ⟨fun heq => ?_, fun h => absurd hhalf (not_not.mpr (by omega))⟩
    -- the sign is no digit
    have hneg : (sec.toNat : Int) - (2 ^ 32 : Nat) = -((2 ^ 32 - sec.toNat : Nat) : Int) := by omega
    rw [hneg, decimal_neg (by omega)] at heq
    have hminus : (45 : UInt8) ∈ decimal sec.toNat := heq ▸ List.mem_cons_self
    exact absurd (isDigit_of_mem_decimal hminus) (by decide)

theorem savedFile_eq (path rawname : Bytes) (sec : UInt32) (l : List α) :
    c.savedFile path rawname sec l (rawPath path rawname (decimal sec.toInt32.toInt)) =
      if sec.toNat < 2 ^ 31 then some (rawLines c.getRawString l).flatten else none := by
  have hname : rawPath path rawname (decimal sec.toInt32.toInt) =
      rawPath path rawname (decimal sec.toNat) ↔ sec.toNat < 2 ^ 31 := by
    rw [rawPath, rawPath, List.append_left_inj, List.append_right_inj, decimal_eq_iff]
  rw [savedFile]
  simp only [hname]

theorem rawLines_ne_nil (hround : ∀ m ∈ l, c.RoundTrip m) (hne : l ≠ []) :
    (rawLines c.getRawString l).flatten ≠ [] := by
  obtain ⟨m, hm⟩ := List.exists_mem_of_ne_nil l hne
  obtain ⟨body, hraw, -⟩ := hround m hm
  have hmem : body ++ [10] ∈ rawLines c.getRawString l :=
    List.mem_filterMap.mpr ⟨m, List.mem_reverse.mpr hm, hraw⟩
  intro hnil
  have hbody := List.flatten_eq_nil_iff.mp hnil _ hmem
  exact absurd (List.append_eq_nil_iff.mp hbody).2 (List.cons_ne_nil _ _)

/-- Without a record there is no blank. -/
theorem total_eq_zero_iff : c.total sec csec l = 0 ↔
    ∀ e, ¬ (e ∈ c.kept csec l ∨ c.IsBlank sec csec l e) := by
  constructor
  · intro h e he
    have hnil : c.kept csec l = [] := List.length_eq_zero_iff.mp (Nat.add_eq_zero_iff.mp h).1
    rw [IsBlank, hnil] at he
    rcases he with he | ⟨m, hm, -⟩
    · exact List.not_mem_nil he
    · nomatch hm
  · intro h
    have hnil : c.kept csec l = [] := List.eq_nil_iff_forall_not_mem.mpr fun e he => h e (.inl he)
    rw [total, blankCount, hnil]
    rfl

variable {reads : Nat → Reading} {now : UInt64} {path rawname : Bytes}

/-- What is loaded from the file that was saved. -/
theorem loadRawData_saved (hsec : sec ≠ 0) (hround : ∀ m ∈ l, c.RoundTrip m)
    (hreads : ∀ k, ∃ n, reads k = .got n) :
    c.loadRawData (c.savedFile path rawname sec l) reads now path rawname sec maxRows [] =
      some (none, if sec.toNat < 2 ^ 31 then
        (c.fill maxRows (c.blanks sec (slot now sec) (c.kept (slot now sec) l).getLast? ++
          (c.kept (slot now sec) l).reverse) []).2 else []) := by
  rw [loadRawData, savedFile_eq]
  split_ifs with hint
  · simp only [contents_eq hreads]
    by_cases hne : l = []
    · subst hne
      rfl
    · have hkept : c.kept (slot now sec) l.reverse = (c.kept (slot now sec) l).reverse :=
        List.filter_reverse
      rw [if_neg (rawLines_ne_nil hround hne), rawLines, loadLoop_fill hsec (slot_fits now hsec)
        (fun m hm => hround m (List.mem_reverse.mp hm)) (Nat.lt_succ_self _), hkept,
        List.head?_reverse]
  · rfl

/-- The period is an `int`, and all records and blanks have room; or the file is not found, and
nothing was to be loaded, or more than there is room for. -/
theorem loadRawData_iff (c : RawClass α) (hsec : sec ≠ 0) (hround : ∀ m ∈ l, c.RoundTrip m)
    (hreads : ∀ k, ∃ n, reads k = .got n) :
    (∃ ret out, c.loadRawData (c.savedFile path rawname sec l) reads now path rawname sec maxRows
        [] = some (ret, out) ∧ c.Loaded sec (slot now sec) maxRows l out) ↔
      if sec.toNat < 2 ^ 31 then (c.total sec (slot now sec) l : Int) ≤ maxRows
      else 0 ≤ maxRows ∧
        (c.total sec (slot now sec) l = 0 ∨ maxRows < c.total sec (slot now sec) l) := by
  have hfit := slot_fits now hsec
  rw [loadRawData_saved hsec hround hreads]
  split_ifs with hint
  · rw [← loaded_fill_iff hsec hfit l]
    constructor
    · rintro ⟨ret, out, heq, h⟩
      cases heq
      exact h
    · exact fun h => ⟨none, _, rfl, h⟩
  · constructor
    · rintro ⟨ret, out, heq, h⟩
      cases heq
      refine ⟨h.length_le, ?_⟩
      by_contra! hnot
      exact hnot.1 (total_eq_zero_iff.mpr fun e he => absurd (h.all hnot.2 e he) List.not_mem_nil)
    · rintro ⟨hrows, hnone⟩
      refine ⟨none, [], rfl, List.Pairwise.nil, hrows, fun e he => absurd he List.not_mem_nil,
        fun htotal e he => ?_⟩
      have hzero := hnone.resolve_right (not_lt.mpr htotal)
      exact absurd he (total_eq_zero_iff.mp hzero e)

end RawClass

/-! ## The class `MonPacket` -/

def MonPacket.rawClass : RawClass MonPacket where
  sec := MonPacket.sec
  getRawString m := some m.getRawString
  loadData := MonPacket.loadData
  createBlank st _ := { sec := st }
  sec_blank _ _ := rfl

namespace RawClass

set_option maxRecDepth 20000 in
theorem roundTrip_idle : ∀ m ∈ [({ sec := 5 } : MonPacket), { sec := 10 }],
    MonPacket.rawClass.RoundTrip m := by
  simp only [List.forall_mem_cons, List.not_mem_nil, false_imp_iff, implies_true, and_true]
  exact ⟨⟨MonPacket.getRawString { sec := 5 } |>.dropLast, rfl, by decide, by decide, by decide,
      by decide, rfl⟩,
    ⟨MonPacket.getRawString { sec := 10 } |>.dropLast, rfl, by decide, by decide, by decide,
      by decide, rfl⟩⟩

/-- Two records, the slots of 15 and 20 seconds, and room for four. -/
theorem loadRawData_iff_idle : ∃ ret out, MonPacket.rawClass.loadRawData
      (MonPacket.rawClass.savedFile (bytes "/var") (bytes "packet") 5 [{ sec := 5 }, { sec := 10 }])
      (fun _ => .got 0) 21000 (bytes "/var") (bytes "packet") 5 4 [] = some (ret, out) ∧
    MonPacket.rawClass.Loaded 5 (slot 21000 5) 4 [{ sec := 5 }, { sec := 10 }] out :=
  (loadRawData_iff MonPacket.rawClass (by decide) roundTrip_idle fun _ => ⟨0, rfl⟩).mpr (by decide)

/-- There is room for three. -/
theorem not_loadRawData : ¬ ∀ (sec : UInt32) (maxRows : Int) (now : UInt64) (path rawname : Bytes)
    (reads : Nat → Reading) (l : List MonPacket), sec ≠ 0 →
    l.Pairwise (fun a b => a.sec < b.sec) → (∀ m ∈ l, MonPacket.rawClass.RoundTrip m) →
    (∀ k, ∃ n, reads k = .got n) →
    ∃ ret out, MonPacket.rawClass.loadRawData (MonPacket.rawClass.savedFile path rawname sec l) reads
        now path rawname sec maxRows [] = some (ret, out) ∧
      MonPacket.rawClass.Loaded sec (slot now sec) maxRows l out := by
  intro hall
  obtain ⟨ret, out, heq, h⟩ := hall 5 3 21000 (bytes "/var") (bytes "packet") (fun _ => .got 0)
    [{ sec := 5 }, { sec := 10 }] (by decide) (by decide) roundTrip_idle fun _ => ⟨0, rfl⟩
  rw [loadRawData_saved (by decide) roundTrip_idle fun _ => ⟨0, rfl⟩, if_pos (by decide)] at heq
  cases heq
  exact absurd ((loaded_fill_iff (by decide) (slot_fits 21000 (by decide)) _).mp h) (by decide)

end RawClass

end Dframework
