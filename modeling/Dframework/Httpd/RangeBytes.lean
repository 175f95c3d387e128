import Mathlib
import Dframework.Lang.String
import Dframework.Base.Retval

/-!
# Range requests

`checkRangeBytes` takes the header `Range` apart, and `sendLocalFile_ready` makes the status, the
part of the file and its length out of what it found. The numbers are unsigned and have 64 bits.
The branch for the last bytes of a file looks at the start, which was not written, and takes the
whole file for nothing.

Results:
1. `ready_closed`, `ready_from`, `ready_suffix`, `ready_absent`: what each kind of request gets.
2. `range_answer_iff`: the requests that get what the standard says.
-/

namespace Dframework

open CLib

/-- What `checkRangeBytes` asks the request for: the headers, and `IsIfRange`. -/
structure RangeRequest where
  range : Option Bytes := none
  ifRange : Option Bytes := none
  acceptRange : Option Bytes := none
  isIfRange : Bool := false
  deriving DecidableEq, Repr

/-- `sStart`, `sEnd` and `*minus`. -/
structure RangeBytes where
  sStart : Bytes := []
  sEnd : Bytes := []
  minus : Nat
  deriving DecidableEq, Repr

/-- `DFW_RETVAL_NEW(DFW_ERROR, 0)`. -/
def rangeError : Ret := { value := .error }

/-- The part of `HttpdUtil::checkRangeBytes` behind `bytes=`. -/
def splitRange (p : Bytes) : Except Ret RangeBytes :=
  match cstr p with
  | [] => .error rangeError
  | 45 :: k => .ok { sEnd := k, minus := 2 }
  | c :: rest =>
    if c :: rest = bytes "0-0,-1" then .ok { minus := 3 }
    else
      match strstr rest [45] with
      | none => .error rangeError
      | some i =>
        let sStart := (c :: rest).take (i + 1)
        let p2 := rest.drop (i + 1)
        if p2 = [] then .ok { sStart, minus := 4 } else .ok { sStart, sEnd := p2, minus := 1 }

/-- `HttpdUtil::checkRangeBytes`. -/
def checkRangeBytes (request : RangeRequest) : Except Ret RangeBytes :=
  match request.range with
  | none => .ok { minus := 0 }
  | some sRange =>
    if request.ifRange.isSome && !request.isIfRange then .ok { minus := 0 }
    else if sRange = [] then .ok { minus := 0 }
    else
      let sAcceptRange := request.acceptRange.getD []
      if sAcceptRange ≠ [] ∧ ¬ equals sAcceptRange (bytes "bytes") ∧
          ¬ equals sAcceptRange (bytes "none") then .error rangeError
      else if ((cstr sRange).take 5).map tolower ≠ bytes "bytes" then .error rangeError
      else splitRange (sRange.drop 6)

/-- `atoll`, as a `uint64_t`. -/
def atoll (s : Bytes) : UInt64 := UInt64.ofInt (strtol 10 s)

/-- What `sendLocalFile_ready` makes of the range: the status, `iStart`, `iEnd` and `iLength`, which
is the value of `Content-Length`. -/
structure RangeAnswer where
  status : Nat
  iStart : UInt64
  iEnd : UInt64
  iLength : UInt64
  deriving DecidableEq, Repr

/-- The `switch` of `sendLocalFile_ready`, with the size of the file behind it. With `resizeable`,
which is `m_bEnableResizeableFile`, the size is asked for again, and `stat` is the answer. -/
def switchRange (range : RangeBytes) (iFileSize : UInt64) (resizeable : Bool)
    (stat : Except Ret UInt64) : Except Ret (RangeAnswer × UInt64) :=
  match range.minus with
  | 0 => .ok (⟨200, 0, iFileSize - 1, iFileSize⟩, iFileSize)
  | 1 =>
    let iStart := if range.sStart = [] then 0 else atoll range.sStart
    let iEnd := if range.sEnd = [] then iFileSize - 1 else atoll range.sEnd
    if iFileSize ≤ iEnd then
      if !resizeable then
        .ok (⟨206, iStart, iFileSize - 1, iFileSize - 1 - iStart + 1⟩, iFileSize)
      else
        match stat with
        | .error r => .error r
        | .ok size => .ok (⟨206, iStart, iEnd, iEnd - iStart + 1⟩, size)
    else .ok (⟨206, iStart, iEnd, iEnd - iStart + 1⟩, iFileSize)
  | 2 =>
    -- `sStart` is what the last bytes are known by, and nothing has written it
    let iStart := if range.sStart = [] then iFileSize else iFileSize - atoll range.sEnd
    .ok (⟨206, iStart, iFileSize - 1, iFileSize - 1 - iStart + 1⟩, iFileSize)
  | 4 =>
    let iStart := if range.sStart = [] then 0 else atoll range.sStart
    .ok (⟨206, iStart, iFileSize - 1, iFileSize - 1 - iStart + 1⟩, iFileSize)
  | _ => .error rangeError

/-- `sendLocalFile_ready`, from the check of the range to its response. -/
def readyRange (request : RangeRequest) (iFileSize : UInt64) (resizeable : Bool)
    (stat : Except Ret UInt64) : Except Ret RangeAnswer :=
  match checkRangeBytes request with
  | .error r => .error r
  | .ok range =>
    match switchRange range iFileSize resizeable stat with
    | .error r => .error r
    | .ok (answer, iFileSize) =>
      if answer.iEnd < answer.iStart then .error rangeError
      else if iFileSize ≤ answer.iStart then .error rangeError
      else .ok answer

/-! ## What the standard says -/

/-- A request for a part of a file, with its numbers as they are written. -/
inductive RangeText where
  | absent
  | closed (a b : Bytes)
  | from_ (a : Bytes)
  | suffix (k : Bytes)
  deriving DecidableEq, Repr

namespace RangeText

/-- A decimal number in the range of 64 bits with a sign. -/
def IsNumber (ds : Bytes) : Prop :=
  ds ≠ [] ∧ (∀ c ∈ ds, isDigit 10 c) ∧ digitsVal 10 ds < 2 ^ 63

instance (ds : Bytes) : Decidable (IsNumber ds) := inferInstanceAs (Decidable (_ ∧ _ ∧ _))

def WellFormed : RangeText → Prop
  | absent => True
  | closed a b => IsNumber a ∧ IsNumber b
  | from_ a => IsNumber a
  | suffix k => IsNumber k

def header : RangeText → Option Bytes
  | absent => none
  | closed a b => some (bytes "bytes=" ++ (a ++ 45 :: b))
  | from_ a => some (bytes "bytes=" ++ (a ++ [45]))
  | suffix k => some (bytes "bytes=" ++ 45 :: k)

/-- The status, the first byte and the number of bytes that a file of `n` bytes is answered with.
`none` is an error: the range is not satisfiable, or its ends are the wrong way round. -/
def answer (n : Nat) : RangeText → Option (Nat × Nat × Nat)
  | absent => some (200, 0, n)
  | closed a b =>
    let first := digitsVal 10 a
    let last := min (digitsVal 10 b) (n - 1)
    if first ≤ digitsVal 10 b ∧ first < n then some (206, first, last - first + 1) else none
  | from_ a =>
    let first := digitsVal 10 a
    if first < n then some (206, first, n - first) else none
  | suffix k =>
    let count := min (digitsVal 10 k) n
    if 0 < digitsVal 10 k then some (206, n - count, count) else none

end RangeText

/-- The server answers what the standard says. A success with a body has its last byte in the file,
and the length is that from the first byte to the last. -/
def AnswersRange (n : Nat) (text : RangeText) : Except Ret RangeAnswer → Prop
  | .error _ => text.answer n = none
  | .ok r =>
    text.answer n = some (r.status, r.iStart.toNat, r.iLength.toNat) ∧
      (r.iLength ≠ 0 → r.iStart ≤ r.iEnd ∧ r.iEnd.toNat < n ∧
        r.iLength.toNat = r.iEnd.toNat - r.iStart.toNat + 1)

/-- The header `Accept-Range` of the request is one the server knows. -/
def AcceptsBytes (request : RangeRequest) : Prop :=
  request.acceptRange.getD [] = [] ∨ equals (request.acceptRange.getD []) (bytes "bytes") ∨
    equals (request.acceptRange.getD []) (bytes "none")

/-! ## Numbers -/

section

variable {ds : Bytes}

theorem RangeText.IsNumber.not_mem (h : RangeText.IsNumber ds) {c : UInt8} (hc : isDigit 10 c = false) :
    c ∉ ds := by
  intro hmem
  rw [h.2.1 c hmem] at hc
  exact Bool.noConfusion hc

theorem atoll_number (h : RangeText.IsNumber ds) : (atoll ds).toNat = digitsVal 10 ds := by
  have hv := h.2.2
  rw [atoll, strtol_decimal h.2.1 hv]
  show (UInt64.ofInt (digitsVal 10 ds : Nat)).toNat = digitsVal 10 ds
  unfold UInt64.ofInt
  rw [UInt64.toNat_ofNat']
  omega

end

/-! ## Taking the header apart -/

/-- The part of a header with a first number. -/
theorem splitRange_number {a t : Bytes} (ha : RangeText.IsNumber a) (h0 : (0 : UInt8) ∉ t)
    (hcomma : (44 : UInt8) ∉ t) :
    splitRange (a ++ 45 :: t) =
      .ok (if t = [] then { sStart := a, minus := 4 } else { sStart := a, sEnd := t, minus := 1 }) := by
  obtain ⟨c, rest, rfl⟩ := List.exists_cons_of_ne_nil ha.1
  have hzero : (0 : UInt8) ∉ c :: rest ++ 45 :: t := by
    have : (0 : UInt8) ∉ c :: rest := ha.not_mem (by decide)
    simp_all
  have hminus : (45 : UInt8) ∉ c :: rest := ha.not_mem (by decide)
  have hc : c ≠ 45 := fun h => hminus (h ▸ List.mem_cons_self)
  have hmulti : c :: (rest ++ 45 :: t) ≠ bytes "0-0,-1" := by
    intro heq
    have hmem : (44 : UInt8) ∈ c :: rest ++ 45 :: t := by
      rw [List.cons_append, heq]
      decide
    rcases List.mem_append.mp hmem with h | h
    · exact ha.not_mem (by decide) h
    · exact hcomma (List.mem_of_ne_of_mem (by decide) h)
  have hfind : strstr (rest ++ 45 :: t) [45] = some rest.length := by
    refine strstr_char ?_ ?_ (by decide) t
    · exact fun h => hzero (by simp [h])
    · exact fun h => hminus (by simp [h])
  rw [splitRange, cstr_of_not_mem hzero, List.cons_append]
  split
  next heq => exact absurd heq (by simp)
  next heq => exact absurd (List.cons.inj heq).1 hc
  next heq =>
    obtain ⟨rfl, rfl⟩ := List.cons.inj heq
    rw [if_neg hmulti, hfind]
    split_ifs <;> simp_all

theorem splitRange_minus {k : Bytes} (hk : (0 : UInt8) ∉ k) :
    splitRange (45 :: k) = .ok { sEnd := k, minus := 2 } := by
  rw [splitRange, cstr_of_not_mem (by simp [hk])]
  rfl

section

variable {request : RangeRequest} {p : Bytes}

theorem checkRangeBytes_absent (hr : request.range = none) :
    checkRangeBytes request = .ok { minus := 0 } := by
  rw [checkRangeBytes, hr]

/-- A header that starts with `bytes=` is taken apart where the server knows `Accept-Range`. -/
theorem checkRangeBytes_bytes (hr : request.range = some (bytes "bytes=" ++ p))
    (hi : request.ifRange = none) (ha : AcceptsBytes request) :
    checkRangeBytes request = splitRange p := by
  have haccept : ¬ (request.acceptRange.getD [] ≠ [] ∧
      ¬ equals (request.acceptRange.getD []) (bytes "bytes") ∧
      ¬ equals (request.acceptRange.getD []) (bytes "none")) := by
    unfold AcceptsBytes at ha
    tauto
  have hword : ((cstr (bytes "bytes=" ++ p)).take 5).map tolower = bytes "bytes" := by
    rw [cstr_append_of_not_mem (by decide)]
    rfl
  have hrest : (bytes "bytes=" ++ p).drop 6 = p := List.drop_left' rfl
  simp only [checkRangeBytes, hr, hi, Option.isSome_none, Bool.false_and, Bool.false_eq_true,
    if_false, if_neg haccept, hword, ne_eq, not_true_eq_false, hrest]
  exact if_neg (by simp [bytes])

theorem checkRangeBytes_accept (hr : request.range = some (bytes "bytes=" ++ p))
    (hi : request.ifRange = none) (ha : ¬ AcceptsBytes request) :
    checkRangeBytes request = .error rangeError := by
  have haccept : request.acceptRange.getD [] ≠ [] ∧
      ¬ equals (request.acceptRange.getD []) (bytes "bytes") ∧
      ¬ equals (request.acceptRange.getD []) (bytes "none") := by
    unfold AcceptsBytes at ha
    tauto
  simp only [checkRangeBytes, hr, hi, Option.isSome_none, Bool.false_and, Bool.false_eq_true,
    if_false, if_pos haccept]
  exact if_neg (by simp [bytes])

end

/-! ## What each kind of request gets -/

section

variable {request : RangeRequest} {range : RangeBytes} {a b k : Bytes} {n : UInt64}
  {stat : Except Ret UInt64}

/-- The two checks behind the `switch`. -/
theorem ready_of_switch {r : RangeAnswer} (hc : checkRangeBytes request = .ok range)
    (hs : switchRange range n false stat = .ok (r, n)) :
    readyRange request n false stat =
      if r.iEnd < r.iStart ∨ n ≤ r.iStart then .error rangeError else .ok r := by
  simp only [readyRange, hc, hs]
  split_ifs <;> first | rfl | tauto

/-- Without a range the whole file is sent, but not a file that is empty. -/
theorem ready_absent (hr : request.range = none) :
    readyRange request n false stat =
      if n = 0 then .error rangeError else .ok ⟨200, 0, n - 1, n⟩ := by
  rw [ready_of_switch (checkRangeBytes_absent hr) rfl]
  simp

/-- A range with both ends gets them, the second one cut at the end of the file. -/
theorem ready_closed (hr : request.range = (RangeText.closed a b).header)
    (hi : request.ifRange = none) (hacc : AcceptsBytes request) (ha : RangeText.IsNumber a)
    (hb : RangeText.IsNumber b) :
    readyRange request n false stat =
      let iEnd := if n ≤ atoll b then n - 1 else atoll b
      if iEnd < atoll a ∨ n ≤ atoll a then .error rangeError
      else .ok ⟨206, atoll a, iEnd, iEnd - atoll a + 1⟩ := by
  have hsplit : checkRangeBytes request = .ok { sStart := a, sEnd := b, minus := 1 } := by
    rw [checkRangeBytes_bytes hr hi hacc,
      splitRange_number ha (hb.not_mem (by decide)) (hb.not_mem (by decide)), if_neg hb.1]
  have hswitch : switchRange { sStart := a, sEnd := b, minus := 1 } n false stat =
      .ok (⟨206, atoll a, if n ≤ atoll b then n - 1 else atoll b,
        (if n ≤ atoll b then n - 1 else atoll b) - atoll a + 1⟩, n) := by
    simp only [switchRange, if_neg ha.1, if_neg hb.1]
    split_ifs <;> simp_all
  exact ready_of_switch hsplit hswitch

/-- A range with a start gets the file from there. -/
theorem ready_from (hr : request.range = (RangeText.from_ a).header)
    (hi : request.ifRange = none) (hacc : AcceptsBytes request) (ha : RangeText.IsNumber a) :
    readyRange request n false stat =
      if n - 1 < atoll a ∨ n ≤ atoll a then .error rangeError
      else .ok ⟨206, atoll a, n - 1, n - 1 - atoll a + 1⟩ := by
  have hsplit : checkRangeBytes request = .ok { sStart := a, minus := 4 } := by
    rw [checkRangeBytes_bytes hr hi hacc, splitRange_number ha (by simp) (by simp), if_pos rfl]
  have hswitch : switchRange { sStart := a, minus := 4 } n false stat =
      .ok (⟨206, atoll a, n - 1, n - 1 - atoll a + 1⟩, n) := by
    simp only [switchRange, if_neg ha.1]
  exact ready_of_switch hsplit hswitch

/-- The last bytes of a file are never sent. -/
theorem ready_suffix (hr : request.range = (RangeText.suffix k).header)
    (hi : request.ifRange = none) (hk : RangeText.IsNumber k) :
    readyRange request n false stat = .error rangeError := by
  by_cases hacc : AcceptsBytes request
  · have hsplit : checkRangeBytes request = .ok { sEnd := k, minus := 2 } := by
      rw [checkRangeBytes_bytes hr hi hacc, splitRange_minus (hk.not_mem (by decide))]
    rw [ready_of_switch hsplit rfl]
    exact if_pos (Or.inr UInt64.le_rfl)
  · simp only [readyRange, checkRangeBytes_accept hr hi hacc]

/-- A header `Accept-Range` that is not known is an error for every range. -/
theorem ready_accept {p : Bytes} (hr : request.range = some (bytes "bytes=" ++ p))
    (hi : request.ifRange = none) (hacc : ¬ AcceptsBytes request) :
    readyRange request n false stat = .error rangeError := by
  simp only [readyRange, checkRangeBytes_accept hr hi hacc]

end

/-! ## The standard -/

def RangeText.Served (request : RangeRequest) (n : Nat) : RangeText → Prop
  | absent => 0 < n
  | closed a b =>
    AcceptsBytes request ∨ ¬ (digitsVal 10 a ≤ digitsVal 10 b ∧ digitsVal 10 a < n)
  | from_ a => AcceptsBytes request ∨ ¬ digitsVal 10 a < n
  | suffix k => digitsVal 10 k = 0

section

variable {request : RangeRequest} {a b k : Bytes} {n : UInt64}

theorem toNat_pred {n : UInt64} (h : 0 < n.toNat) : (n - 1).toNat = n.toNat - 1 :=
  UInt64.toNat_sub_of_le n 1 (UInt64.le_iff_toNat_le.mpr h)

/-- The length of a part of a file. -/
theorem toNat_partLength {first last : UInt64} (h : first.toNat ≤ last.toNat)
    (hn : last.toNat < n.toNat) :
    (last - first + 1).toNat = last.toNat - first.toNat + 1 := by
  have hsub : (last - first).toNat = last.toNat - first.toNat :=
    UInt64.toNat_sub_of_le last first (UInt64.le_iff_toNat_le.mpr h)
  have hlt := n.toNat_lt
  rw [UInt64.toNat_add, hsub]
  show (last.toNat - first.toNat + 1) % 2 ^ 64 = _
  omega

/-- A success with a part of the file that the standard names. -/
theorem answersRange_part {text : RangeText} {first last : UInt64}
    (h : first.toNat ≤ last.toNat) (hn : last.toNat < n.toNat)
    (ht : text.answer n.toNat = some (206, first.toNat, last.toNat - first.toNat + 1)) :
    AnswersRange n.toNat text (.ok ⟨206, first, last, last - first + 1⟩) := by
  have hlen := toNat_partLength h hn
  refine ⟨?_, fun _ => ⟨UInt64.le_iff_toNat_le.mpr h, hn, hlen⟩⟩
  rw [ht, hlen]

theorem answersRange_absent {stat : Except Ret UInt64} (hr : request.range = none) :
    AnswersRange n.toNat .absent (readyRange request n false stat) ↔ 0 < n.toNat := by
  rw [ready_absent hr]
  by_cases h0 : n = 0
  · subst h0
    rw [if_pos rfl]
    simp [AnswersRange, RangeText.answer]
  · have hpos : 0 < n.toNat := by
      rcases Nat.eq_zero_or_pos n.toNat with h | h
      · exact absurd (UInt64.toNat_inj.mp h) h0
      · exact h
    rw [if_neg h0]
    refine iff_of_true ⟨rfl, fun _ => ⟨by simp, ?_, ?_⟩⟩ hpos
    · show (n - 1).toNat < n.toNat
      rw [toNat_pred hpos]
      omega
    · show n.toNat = (n - 1).toNat - 0 + 1
      rw [toNat_pred hpos]
      omega

theorem answersRange_closed {stat : Except Ret UInt64}
    (hr : request.range = (RangeText.closed a b).header) (hi : request.ifRange = none)
    (hacc : AcceptsBytes request) (ha : RangeText.IsNumber a) (hb : RangeText.IsNumber b) :
    AnswersRange n.toNat (.closed a b) (readyRange request n false stat) := by
  have hA := atoll_number ha
  have hB := atoll_number hb
  rw [ready_closed hr hi hacc ha hb]
  by_cases hsat : digitsVal 10 a ≤ digitsVal 10 b ∧ digitsVal 10 a < n.toNat
  · -- the end is cut where the file ends
    have hend : (if n ≤ atoll b then n - 1 else atoll b).toNat =
        min (digitsVal 10 b) (n.toNat - 1) := by
      split_ifs with h <;> rw [UInt64.le_iff_toNat_le] at h
      · rw [toNat_pred (by omega)]
        omega
      · omega
    generalize (if n ≤ atoll b then n - 1 else atoll b) = iEnd at hend
    have hgood : ¬ (iEnd < atoll a ∨ n ≤ atoll a) := by
      rw [UInt64.lt_iff_toNat_lt, UInt64.le_iff_toNat_le]
      omega
    simp only [if_neg hgood]
    refine answersRange_part (by omega) (by omega) ?_
    rw [RangeText.answer, if_pos hsat, hA, hend]
  · have hbad : (if n ≤ atoll b then n - 1 else atoll b) < atoll a ∨ n ≤ atoll a := by
      by_cases hout : n ≤ atoll a
      · exact Or.inr hout
      · refine Or.inl ?_
        rw [UInt64.le_iff_toNat_le] at hout
        rw [if_neg (by rw [UInt64.le_iff_toNat_le]; omega), UInt64.lt_iff_toNat_lt]
        omega
    simp only [if_pos hbad]
    exact if_neg hsat

theorem answersRange_from {stat : Except Ret UInt64}
    (hr : request.range = (RangeText.from_ a).header) (hi : request.ifRange = none)
    (hacc : AcceptsBytes request) (ha : RangeText.IsNumber a) :
    AnswersRange n.toNat (.from_ a) (readyRange request n false stat) := by
  have hA := atoll_number ha
  rw [ready_from hr hi hacc ha]
  by_cases hsat : digitsVal 10 a < n.toNat
  · have hend := toNat_pred (n := n) (by omega)
    have hgood : ¬ (n - 1 < atoll a ∨ n ≤ atoll a) := by
      rw [UInt64.lt_iff_toNat_lt, UInt64.le_iff_toNat_le]
      omega
    rw [if_neg hgood]
    refine answersRange_part (by omega) (by omega) ?_
    rw [RangeText.answer, if_pos hsat, hA, hend]
    congr 3
    omega
  · rw [if_pos (Or.inr (UInt64.le_iff_toNat_le.mpr (by omega)))]
    exact if_neg hsat

theorem answersRange_suffix {stat : Except Ret UInt64}
    (hr : request.range = (RangeText.suffix k).header) (hi : request.ifRange = none)
    (hk : RangeText.IsNumber k) :
    AnswersRange n.toNat (.suffix k) (readyRange request n false stat) ↔ digitsVal 10 k = 0 := by
  rw [ready_suffix hr hi hk]
  show (if 0 < digitsVal 10 k then _ else none) = none ↔ _
  split_ifs <;> simp <;> omega

/-- Where the header `Accept-Range` is not known, only what cannot be satisfied is answered right. -/
theorem answersRange_accept {stat : Except Ret UInt64} {text : RangeText} {p : Bytes}
    (hr : request.range = some (bytes "bytes=" ++ p)) (hi : request.ifRange = none)
    (hacc : ¬ AcceptsBytes request) :
    AnswersRange n.toNat text (readyRange request n false stat) ↔ text.answer n.toNat = none := by
  rw [ready_accept hr hi hacc]
  rfl

end

/-- A file without a range is sent unless it is empty, a range with a start is answered as the
standard says where the server knows `Accept-Range`, and the last bytes of a file are answered only
where there are none to send. -/
theorem range_answer_iff {request : RangeRequest} {text : RangeText} (hw : text.WellFormed)
    (hr : request.range = text.header) (hi : request.ifRange = none) (n : UInt64)
    (stat : Except Ret UInt64) :
    AnswersRange n.toNat text (readyRange request n false stat) ↔ text.Served request n.toNat := by
  cases text with
  | absent => exact answersRange_absent hr
  | closed a b =>
    by_cases hacc : AcceptsBytes request
    · exact iff_of_true (answersRange_closed hr hi hacc hw.1 hw.2) (Or.inl hacc)
    · rw [answersRange_accept hr hi hacc]
      simp [RangeText.answer, RangeText.Served, hacc]
  | from_ a =>
    by_cases hacc : AcceptsBytes request
    · exact iff_of_true (answersRange_from hr hi hacc hw) (Or.inl hacc)
    · rw [answersRange_accept hr hi hacc]
      simp [RangeText.answer, RangeText.Served, hacc]
  | suffix k => exact answersRange_suffix hr hi hw

theorem range_answer_part :
    AnswersRange 10 (.closed (bytes "2") (bytes "99"))
      (readyRange { range := some (bytes "bytes=2-99") } 10 false (.ok 10)) ∧
    readyRange { range := some (bytes "bytes=2-99") } 10 false (.ok 10) =
      .ok ⟨206, 2, 9, 8⟩ :=
  have hw : (RangeText.closed (bytes "2") (bytes "99")).WellFormed := by
    simp [RangeText.WellFormed, RangeText.IsNumber, bytes, isDigit, digitVal, digitsVal]
  ⟨(range_answer_iff hw rfl rfl 10 (.ok 10)).mpr (Or.inl (Or.inl rfl)), by decide⟩

/-- The last five bytes of a file of ten are refused, and so is a file that is empty. -/
theorem not_range_answer :
    ¬ AnswersRange 10 (.suffix (bytes "5"))
      (readyRange { range := some (bytes "bytes=-5") } 10 false (.ok 10)) ∧
    ¬ AnswersRange 0 .absent (readyRange {} 0 false (.ok 0)) := by
  have hsuffix : readyRange { range := some (bytes "bytes=-5") } 10 false (.ok 10) =
      .error rangeError := by decide
  have hempty : readyRange {} 0 false (.ok 0) = .error rangeError := by decide
  rw [hsuffix, hempty]
  constructor
  · show ¬ (RangeText.suffix (bytes "5")).answer 10 = none
    decide
  · show ¬ RangeText.absent.answer 0 = none
    decide

end Dframework
