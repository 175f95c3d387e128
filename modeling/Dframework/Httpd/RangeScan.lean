import Mathlib
import Dframework.Httpd.RangeBytes

/-!
# What `checkRangeBytes` reads

`checkRangeBytes` of `RangeBytes` is what the scanner computes. Here its pointers are places of the
value of `Range`. A place behind the terminator has no C string, and a call that is given one reads
what does not belong to the value.

The scanner steps over the unit and one byte more, whatever stands there.

Results:
1. `scanRange_eq`: what it computes where it reads the value only.
2. `scanRange_reads_iff`: the requests in which it does.
-/

namespace Dframework

open CLib

/-- The C string at `s + i`, when the place is not behind the terminator. -/
def textAt (s : Bytes) (i : Nat) : Option Bytes :=
  if i ≤ s.length then some (s.drop i) else none

/-- `strcasestr(s, pat)`, for a pattern in small letters. -/
def strcasestr (s pat : Bytes) : Option Nat :=
  Search.find pat (s.map tolower)

/-- The scanner of `checkRangeBytes` on the value `s`: nothing, when it reads behind the
terminator. -/
def scanValue (s : Bytes) : Option (Except Ret RangeBytes) :=
  if strcasestr s (bytes "bytes") ≠ some 0 then some (.error rangeError)
  else do
    let p := (bytes "bytes").length + 1
    let text ← textAt s p
    match text.head? with
    | none => some (.error rangeError)
    | some c =>
      if c = 45 then
        let sEnd ← textAt s (p + 1)
        some (.ok { sEnd, minus := 2 })
      else if text = bytes "0-0,-1" then some (.ok { minus := 3 })
      else
        match strstr (← textAt s (p + 1)) [45] with
        | none => some (.error rangeError)
        | some i =>
          let p2 := p + 1 + i + 1
          let sEnd ← textAt s p2
          let sStart ← setChars (some text) (p2 - p - 1)
          if sEnd = [] then some (.ok { sStart, minus := 4 })
          else some (.ok { sStart, sEnd, minus := 1 })

/-- `HttpdUtil::checkRangeBytes`: nothing, when it reads behind the terminator. -/
def scanRange (request : RangeRequest) : Option (Except Ret RangeBytes) :=
  match request.range with
  | none => some (.ok { minus := 0 })
  | some sRange =>
    if request.ifRange.isSome && !request.isIfRange then some (.ok { minus := 0 })
    else if sRange = [] then some (.ok { minus := 0 })
    else
      let sAcceptRange := request.acceptRange.getD []
      if sAcceptRange ≠ [] ∧ ¬ equals sAcceptRange (bytes "bytes") ∧
          ¬ equals sAcceptRange (bytes "none") then some (.error rangeError)
      else scanValue (cstr sRange)

/-- `checkRangeBytes` comes to scan the value `sRange`. -/
structure RangeRequest.Scans (request : RangeRequest) (sRange : Bytes) : Prop where
  range : request.range = some sRange
  ifRange : (request.ifRange.isSome && !request.isIfRange) = false
  ne_nil : sRange ≠ []
  accept : request.acceptRange.getD [] = [] ∨
    equals (request.acceptRange.getD []) (bytes "bytes") ∨
      equals (request.acceptRange.getD []) (bytes "none")

/-- The name of the unit, and nothing behind it. -/
def BareUnit (s : Bytes) : Prop :=
  s.map tolower = bytes "bytes"

section

variable {s : Bytes} {i : Nat} {request : RangeRequest}

theorem textAt_of_le (h : i ≤ s.length) : textAt s i = some (s.drop i) :=
  if_pos h

theorem textAt_of_lt (h : s.length < i) : textAt s i = none :=
  if_neg (Nat.not_le.mpr h)

theorem strcasestr_eq_zero_iff :
    strcasestr s (bytes "bytes") = some 0 ↔ (s.take 5).map tolower = bytes "bytes" := by
  rw [strcasestr, Search.find_eq_some_iff, List.drop_zero, List.prefix_iff_eq_take, List.map_take,
    @eq_comm _ (bytes "bytes")]
  exact ⟨fun h => h.2.1, fun h => ⟨Nat.zero_le _, h, fun j hj => absurd hj (Nat.not_lt_zero j)⟩⟩

/-- The byte behind the unit is stepped over without a look at it. -/
theorem scanValue_bare (h : BareUnit s) : scanValue s = none := by
  have hlen : s.length = 5 := by
    rw [← @List.length_map _ _ s tolower, h]
    rfl
  have hunit : strcasestr s (bytes "bytes") = some 0 := by
    rw [strcasestr_eq_zero_iff, List.take_of_length_le hlen.le]
    exact h
  have hbehind : textAt s ((bytes "bytes").length + 1) = none :=
    textAt_of_lt (by rw [hlen]; decide)
  rw [scanValue, if_neg (not_not.mpr hunit)]
  simp only [hbehind, Option.bind_eq_bind, Option.bind_none]

theorem splitRange_of_ne {p rest : Bytes} {c : UInt8} (h : cstr p = c :: rest) (hc : c ≠ 45) :
    splitRange p =
      if c :: rest = bytes "0-0,-1" then .ok { minus := 3 }
      else
        match strstr rest [45] with
        | none => .error rangeError
        | some i =>
          if rest.drop (i + 1) = [] then .ok { sStart := (c :: rest).take (i + 1), minus := 4 }
          else .ok { sStart := (c :: rest).take (i + 1), sEnd := rest.drop (i + 1), minus := 1 } := by
  rw [splitRange, h]
  split
  next heq => cases heq
  next heq => exact absurd (List.cons.inj heq).1 hc
  next heq =>
    cases heq
    rfl

/-- With the unit in front and something behind it, the rest of the value is split. -/
theorem scanValue_split (h0 : (0 : UInt8) ∉ s) (hunit : (s.take 5).map tolower = bytes "bytes")
    (hlen : 6 ≤ s.length) : scanValue s = some (splitRange (s.drop 6)) := by
  have htext : textAt s ((bytes "bytes").length + 1) = some (s.drop 6) := textAt_of_le hlen
  have hcstr : cstr (s.drop 6) = s.drop 6 :=
    cstr_of_not_mem fun hmem => h0 (List.mem_of_mem_drop hmem)
  rw [scanValue, if_neg (not_not.mpr (strcasestr_eq_zero_iff.mpr hunit))]
  simp only [htext, Option.bind_eq_bind, Option.bind_some]
  rcases hdrop : s.drop 6 with _ | ⟨c, rest⟩
  · rw [splitRange]
    rfl
  have hlong : s.length = rest.length + 7 := by
    have hlen' := congrArg List.length hdrop
    rw [List.length_drop, List.length_cons] at hlen'
    omega
  have hbehind : ∀ k, textAt s ((bytes "bytes").length + 1 + 1 + k) =
      if k ≤ rest.length then some (rest.drop k) else none := by
    intro k
    have hplace : (bytes "bytes").length + 1 + 1 + k = 6 + (1 + k) := by
      rw [show (bytes "bytes").length = 5 from rfl]
      omega
    rw [hplace, textAt, ← List.drop_drop, hdrop, Nat.add_comm 1 k, List.drop_succ_cons]
    exact if_congr (by omega) rfl rfl
  have hfirst : textAt s ((bytes "bytes").length + 1 + 1) = some rest := hbehind 0
  simp only [List.head?_cons, hfirst, Option.bind_some]
  by_cases hc : c = 45
  · rw [if_pos hc, splitRange, ← hdrop, hcstr, hdrop, hc]
    rfl
  rw [if_neg hc, splitRange_of_ne (hdrop ▸ hcstr) hc]
  by_cases hmulti : c :: rest = bytes "0-0,-1"
  · rw [if_pos hmulti, if_pos hmulti]
  rw [if_neg hmulti, if_neg hmulti]
  rcases hfind : strstr rest [45] with _ | i
  · rfl
  have hi : i + 1 ≤ rest.length := strstr_add_length_le hfind
  have hstart : setChars (some (c :: rest)) (i + 1) = some ((c :: rest).take (i + 1)) := by
    rw [setChars, if_neg (Nat.succ_ne_zero i)]
    exact if_pos (Nat.le_succ_of_le hi)
  have hnum : (bytes "bytes").length + 1 + 1 + (i + 1) - ((bytes "bytes").length + 1) - 1 =
      i + 1 := by omega
  simp only [Nat.add_assoc _ i 1, hnum, hstart, hbehind, if_pos hi, Option.bind_some]
  split_ifs <;> rfl

/-- What the scanner computes, where it reads the value only. -/
theorem scanValue_eq {sRange : Bytes} (hbare : ¬ BareUnit (cstr sRange)) :
    scanValue (cstr sRange) = some (if ((cstr sRange).take 5).map tolower ≠ bytes "bytes" then
      .error rangeError else splitRange (sRange.drop 6)) := by
  by_cases hunit : ((cstr sRange).take 5).map tolower = bytes "bytes"
  · have hlen : 6 ≤ (cstr sRange).length := by
      refine Nat.lt_of_not_le fun hle => hbare ?_
      rwa [List.take_of_length_le hle] at hunit
    have hsame : splitRange ((cstr sRange).drop 6) = splitRange (sRange.drop 6) := by
      rw [splitRange, splitRange, cstr_drop hlen,
        cstr_of_not_mem fun hmem => not_mem_cstr sRange (List.mem_of_mem_drop hmem)]
    rw [if_neg (not_not.mpr hunit), ← hsame]
    exact scanValue_split (not_mem_cstr sRange) hunit hlen
  · rw [if_pos hunit, scanValue, if_pos (mt strcasestr_eq_zero_iff.mp hunit)]

theorem scanRange_of_scans {sRange : Bytes} (h : request.Scans sRange) :
    scanRange request = scanValue (cstr sRange) := by
  have haccept : ¬ (request.acceptRange.getD [] ≠ [] ∧
      ¬ equals (request.acceptRange.getD []) (bytes "bytes") ∧
        ¬ equals (request.acceptRange.getD []) (bytes "none")) := by
    rintro ⟨hne, hbytes, hnone⟩
    rcases h.accept with hnil | hname | hname
    · exact hne hnil
    · exact hbytes hname
    · exact hnone hname
  rw [scanRange, h.range]
  simp only [h.ifRange, Bool.false_eq_true, if_false, if_neg h.ne_nil, if_neg haccept]

/-- A value that is not scanned, or that is more than the unit, is read up to its terminator. -/
theorem scanRange_eq (h : ∀ sRange, request.Scans sRange → ¬ BareUnit (cstr sRange)) :
    scanRange request = some (checkRangeBytes request) := by
  rcases hrange : request.range with _ | sRange
  · rw [scanRange, checkRangeBytes, hrange]
  rw [scanRange, checkRangeBytes, hrange]
  simp only
  by_cases hif : request.ifRange.isSome && !request.isIfRange
  · rw [if_pos hif, if_pos hif]
  rw [if_neg hif, if_neg hif]
  by_cases hnil : sRange = []
  · rw [if_pos hnil, if_pos hnil]
  rw [if_neg hnil, if_neg hnil]
  by_cases haccept : request.acceptRange.getD [] ≠ [] ∧
      ¬ equals (request.acceptRange.getD []) (bytes "bytes") ∧
        ¬ equals (request.acceptRange.getD []) (bytes "none")
  · rw [if_pos haccept, if_pos haccept]
  rw [if_neg haccept, if_neg haccept]
  refine scanValue_eq (h sRange ⟨hrange, Bool.eq_false_iff.mpr hif, hnil, ?_⟩)
  by_contra hor
  rw [not_or, not_or] at hor
  exact haccept hor

/-- The requests whose value is read up to its terminator and no further. -/
theorem scanRange_reads_iff (request : RangeRequest) :
    (∃ answer, scanRange request = some answer) ↔
      ∀ sRange, request.Scans sRange → ¬ BareUnit (cstr sRange) := by
  constructor
  · rintro ⟨answer, hscan⟩ sRange hscans hbare
    rw [scanRange_of_scans hscans, scanValue_bare hbare] at hscan
    cases hscan
  · exact fun h => ⟨_, scanRange_eq h⟩

/-- The name of the unit alone. -/
theorem not_scanRange_reads : ¬ ∀ request : RangeRequest, ∃ answer,
    scanRange request = some answer := by
  intro h
  obtain ⟨answer, hscan⟩ := h { range := some (bytes "bytes") }
  have hbare : scanRange { range := some (bytes "bytes") } = none := by decide
  rw [hbare] at hscan
  cases hscan

end

end Dframework
