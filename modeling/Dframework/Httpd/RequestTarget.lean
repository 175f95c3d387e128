import Mathlib
import Dframework.Httpd.HttpRequest

/-!
# The target of a request

`parseRequestReady` decodes the target and then splits what comes out at its first `'?'`, so an
escaped `'?'` splits it as well, and the query is decoded. A target that decodes to the empty string
is followed as `NULL`.

Results:
1. `parseRequestReady_target`: what a request line makes of its target.
2. `requestTarget_iff`: when path and query are those of the target.
-/

namespace Dframework

open CLib Percent

structure RequestLine where
  method : Bytes
  target : Bytes
  protocol : Bytes
  version : Bytes
  method_ne_nil : method ≠ []
  protocol_ne_nil : protocol ≠ []
  no_blank : 32 ∉ method ∧ 32 ∉ target ∧ 32 ∉ protocol ∧ 32 ∉ version
  no_slash : 47 ∉ protocol

namespace RequestLine

def enc (l : RequestLine) : Bytes :=
  l.method ++ 32 :: (l.target ++ 32 :: (l.protocol ++ 47 :: l.version))

end RequestLine

namespace HttpRequest

variable {r : HttpRequest} {l : RequestLine} {p rest : Bytes} {q : Option Bytes}

/-- The part of a target in front of its first `'?'`. -/
def pathOf (t : Bytes) : Bytes :=
  t.takeWhile (· != 63)

/-- The part behind it. -/
def queryOf (t : Bytes) : Option Bytes :=
  if 63 ∈ t then some (t.drop ((pathOf t).length + 1)) else none

/-- Path and query are those of the target `t`, and `NULL` is not followed. The empty target is
refused. -/
def TargetMet (r : HttpRequest) (t : Bytes) : Prop :=
  ∃ ret r', r.parseRequestReady = some (ret, r') ∧
    (t ≠ [] → ret = none ∧ r'.sFile = decode (pathOf t) ∧ r'.sQuery = (queryOf t).getD [])

/-- The path has neither a NUL nor a mark when it is decoded, and decoding leaves the query as it
is. -/
structure TargetClean (p : Bytes) (q : Option Bytes) : Prop where
  path : 0 ∉ decode p ∧ 63 ∉ decode p
  query : ∀ x ∈ q, unfinished p ≠ [37, 43] ∧ decodeBehind p x = x

def targetOf (p : Bytes) (q : Option Bytes) : Bytes :=
  p ++ (q.map (63 :: ·)).getD []

theorem targetOf_parts (t : Bytes) : targetOf (pathOf t) (queryOf t) = t := by
  by_cases h : 63 ∈ t
  · obtain ⟨a, b, rfl, ha⟩ := List.eq_append_cons_of_mem h
    have hstop : (63 :: b).takeWhile (· != 63) = [] := by simp
    have hall : ∀ c ∈ a, (c != 63) = true := by
      intro c hc
      rw [bne_iff_ne]
      rintro rfl
      exact ha hc
    have hpath : pathOf (a ++ 63 :: b) = a := by
      rw [pathOf, List.takeWhile_append_of_pos hall, hstop, List.append_nil]
    have hquery : queryOf (a ++ 63 :: b) = some b := by
      rw [queryOf, if_pos h, hpath, ← List.drop_drop, List.drop_left]
      rfl
    rw [hpath, hquery]
    rfl
  · have hall : ∀ c ∈ t, (c != 63) = true := by
      intro c hc
      rw [bne_iff_ne]
      rintro rfl
      exact h hc
    rw [queryOf, if_neg h, pathOf, List.takeWhile_eq_self_iff.mpr hall]
    exact List.append_nil t

/-! ## The request line -/

/-- What is kept of the line before its target is decoded. -/
def withLine (r : HttpRequest) (l : RequestLine) : HttpRequest :=
  { r with sRequestLine := l.enc, sMethod := l.method }

theorem parseRequestReady_target (h : cstr r.sBuffer = l.enc ++ (CRLF ++ rest))
    (hl : Search.find CRLF l.enc = none) :
    r.parseRequestReady =
      if l.target = [] then some (wrong "Wrong request line : " l.enc, r.withLine l)
      else match HttpdUtil.urldecode (some l.target) with
        | none => none
        | some (.error e) => some (some e, r.withLine l)
        | some (.ok sQuery) =>
          match toChars sQuery with
          | none => none
          | some query => some ((((r.withLine l).setTarget query).setFileExt).parseVersion
              (l.protocol ++ 47 :: l.version) l.enc.length) := by
  obtain ⟨htest, htake, -⟩ := strstr_line hl h
  have h0 : (0 : UInt8) ∉ l.enc := fun hmem => not_mem_cstr r.sBuffer (by rw [h]; simp [hmem])
  obtain ⟨hm, ht, hp, hv⟩ := l.no_blank
  have hline : l.enc ≠ [] := by simp [RequestLine.enc]
  obtain ⟨n, hn⟩ : ∃ n, l.method.length = n + 1 :=
    Nat.exists_eq_succ_of_ne_zero (by simpa using l.method_ne_nil)
  have h0m : (0 : UInt8) ∉ l.method := fun hmem => h0 (by simp [RequestLine.enc, hmem])
  have hblank : strstr l.enc [32] = some l.method.length := strstr_char h0m hm (by decide) _
  have hmethod : l.enc.take l.method.length = l.method := List.take_left
  have hbuf : l.enc.drop (l.method.length + 1) =
      l.target ++ 32 :: (l.protocol ++ 47 :: l.version) := by
    rw [RequestLine.enc, ← List.drop_drop, List.drop_left]
    rfl
  have h0b : (0 : UInt8) ∉ l.target ++ 32 :: (l.protocol ++ 47 :: l.version) := by
    rw [← hbuf]
    exact fun hmem => h0 (List.mem_of_mem_drop hmem)
  have hlast : strrchr (l.target ++ 32 :: (l.protocol ++ 47 :: l.version)) 32 =
      some l.target.length := by
    refine strrchr_append h0b ?_
    simp [hp, hv]
  have hrest : (l.target ++ 32 :: (l.protocol ++ 47 :: l.version)).drop (l.target.length + 1) =
      l.protocol ++ 47 :: l.version := by
    rw [← List.drop_drop, List.drop_left]
    rfl
  rw [parseRequestReady, toChars_of_cstr h, Option.bind_some, htest]
  rw [hn] at hblank hmethod hbuf
  simp only [htake, hline, if_false, hblank, hmethod, hbuf, hlast]
  by_cases hnil : l.target = []
  · simp only [hnil, List.length_nil, if_true]
    rfl
  · obtain ⟨k, hk⟩ : ∃ k, l.target.length = k + 1 :=
      Nat.exists_eq_succ_of_ne_zero (by simpa using hnil)
    have htarget : (l.target ++ 32 :: (l.protocol ++ 47 :: l.version)).take (k + 1) = l.target := by
      rw [← hk, List.take_left]
    rw [hk] at hrest
    simp only [hk, hnil, if_false, htarget, hrest, toChars_of_ne_nil hnil]
    generalize HttpdUtil.urldecode (some l.target) = res
    rcases res with _ | e | sQuery
    · rfl
    · rfl
    · generalize toChars sQuery = query
      cases query <;> rfl

/-- The end of a request line is well formed. -/
theorem parseVersion_line (r : HttpRequest) (l : RequestLine) (h0 : (0 : UInt8) ∉ l.protocol)
    (test : Nat) :
    ∃ r', r.parseVersion (l.protocol ++ 47 :: l.version) test = (none, r') ∧
      r'.target = r.target ∧ r'.headers = r.headers ∧
      r'.sBuffer = r.sBuffer.drop (test + 2) := by
  obtain ⟨n, hn⟩ : ∃ n, l.protocol.length = n + 1 :=
    Nat.exists_eq_succ_of_ne_zero (by simpa using l.protocol_ne_nil)
  have hslash : strstr (l.protocol ++ 47 :: l.version) [47] = some (n + 1) := by
    rw [← hn]
    exact strstr_char h0 l.no_slash (by decide) _
  rw [parseVersion, hslash]
  exact ⟨_, rfl, rfl, rfl, rfl⟩

theorem setFileExt_kept (r : HttpRequest) : r.setFileExt.kept = r.kept := by
  simp only [setFileExt]
  split <;> rfl

/-- Only the target is set. -/
theorem setTarget_fields (r : HttpRequest) (d : Bytes) :
    (r.setTarget d).sMethod = r.sMethod ∧ (r.setTarget d).headers = r.headers ∧
      (r.setTarget d).sBuffer = r.sBuffer := by
  unfold setTarget
  split <;> exact ⟨rfl, rfl, rfl⟩

/-- The request line when its target decodes to something else than the empty string. -/
theorem parseRequestReady_decoded (h : cstr r.sBuffer = l.enc ++ (CRLF ++ rest))
    (hl : Search.find CRLF l.enc = none) (hne : l.target ≠ []) (hlen : l.target.length + 2 < 2 ^ 31) :
    (cstr (decode l.target) = [] → r.parseRequestReady = none) ∧
    (cstr (decode l.target) ≠ [] → ∃ r', r.parseRequestReady = some (none, r') ∧
      r'.target = (l.method, (r.setTarget (cstr (decode l.target))).sFile,
        (r.setTarget (cstr (decode l.target))).sQuery) ∧
      r'.headers = r.headers ∧ r'.sBuffer = r.sBuffer.drop (l.enc.length + 2)) := by
  have h0 : (0 : UInt8) ∉ l.enc := fun hmem => not_mem_cstr r.sBuffer (by rw [h]; simp [hmem])
  have h0t : (0 : UInt8) ∉ l.target := fun hmem => h0 (by simp [RequestLine.enc, hmem])
  have h0p : (0 : UInt8) ∉ l.protocol := fun hmem => h0 (by simp [RequestLine.enc, hmem])
  have ht := cstr_of_not_mem h0t
  have hdecoded : HttpdUtil.urldecode (some l.target) = some (.ok (cstr (decode l.target))) := by
    have hsigns : HttpdUtil.SignsFit l.target := by
      intro i hi hsign
      have hlt := (List.getElem?_eq_some_iff.mp hsign).1
      omega
    rw [HttpdUtil.urldecode_eq (by rw [ht]; omega) (by rw [ht]; exact hsigns), ht]
  rw [parseRequestReady_target h hl, if_neg hne, hdecoded]
  constructor
  · intro hnil
    rw [hnil]
    rfl
  · intro hsome
    simp only [toChars_of_ne_nil hsome]
    obtain ⟨r', hversion, htarget, hheaders, hbuf⟩ := parseVersion_line
      (((r.withLine l).setTarget (cstr (decode l.target))).setFileExt) l h0p l.enc.length
    have hkept := setFileExt_kept ((r.withLine l).setTarget (cstr (decode l.target)))
    obtain ⟨hmethod, hheaders', hbuf'⟩ := setTarget_fields (r.withLine l) (cstr (decode l.target))
    refine ⟨r', congrArg some hversion, ?_, ?_, ?_⟩
    · have hset := congrArg (·.2.2) hkept
      refine htarget.trans (hset.trans ?_)
      show (_, _, _) = _
      rw [hmethod]
      unfold setTarget
      split <;> rfl
    · exact hheaders.trans ((congrArg Prod.fst hkept).trans hheaders')
    · rw [hbuf]
      exact congrArg (List.drop _) ((congrArg (·.2.1) hkept).trans hbuf')

/-! ## Path and query -/

/-- Where the decoded target is split. -/
theorem setTarget_none {d : Bytes} (h : 63 ∉ d) :
    (r.setTarget d).sFile = d ∧ (r.setTarget d).sQuery = r.sQuery := by
  rw [setTarget, strstr_char_none h]
  exact ⟨rfl, rfl⟩

theorem setTarget_mark {a b : Bytes} (h0 : (0 : UInt8) ∉ a) (h : 63 ∉ a) :
    (r.setTarget (a ++ 63 :: b)).sFile = a ∧ (r.setTarget (a ++ 63 :: b)).sQuery = b := by
  rw [setTarget, strstr_char h0 h (by decide)]
  refine ⟨List.take_left, ?_⟩
  show (a ++ 63 :: b).drop (a.length + 1) = b
  rw [← List.drop_drop, List.drop_left]
  rfl

/-- The path never has a NUL or a mark. -/
theorem setTarget_sFile (r : HttpRequest) (d : Bytes) :
    63 ∉ (r.setTarget (cstr d)).sFile ∧ 0 ∉ (r.setTarget (cstr d)).sFile := by
  by_cases h : 63 ∈ cstr d
  · obtain ⟨a, b, hsplit, ha⟩ := List.eq_append_cons_of_mem h
    have h0 : (0 : UInt8) ∉ a := fun hmem => not_mem_cstr d (by rw [hsplit]; simp [hmem])
    rw [hsplit, (setTarget_mark h0 ha).1]
    exact ⟨ha, h0⟩
  · rw [(setTarget_none h).1]
    exact ⟨h, not_mem_cstr d⟩

/-- The decoding of a target with a query whose path is decoded by itself. -/
theorem cstr_decode_query {x : Bytes} (h0 : (0 : UInt8) ∉ decode p) (hopen : unfinished p ≠ [37, 43]) :
    cstr (decode (p ++ 63 :: x)) = decode p ++ 63 :: cstr (decodeBehind p x) := by
  have hmark : (0 : UInt8) ∉ decode p ++ [63] := by simp [h0]
  rw [decode_mark (by decide) (by decide) (by decide), decode_concat_mark (by decide) (by decide) hopen,
    cstr_append_of_not_mem hmark, List.append_assoc]
  rfl

/-- A query that comes out as it was has not been decoded. -/
theorem decodeBehind_eq_of_cstr {x : Bytes} (h : cstr (decodeBehind p x) = x) :
    decodeBehind p x = x := by
  have hle := decodeBehind_length_le p x
  have hpre := cstr_isPrefix (decodeBehind p x)
  have heq : (cstr (decodeBehind p x)).length = (decodeBehind p x).length := by
    have := hpre.length_le
    rw [h] at this ⊢
    omega
  exact (hpre.eq_of_length heq).symm.trans h

/-- What the query of the target must be for path and query to come out. -/
theorem targetClean_of_fields {d : Bytes} (hd : d = cstr (decode (targetOf p q)))
    (hfile : (r.setTarget d).sFile = decode p) (hquery : (r.setTarget d).sQuery = q.getD []) :
    TargetClean p q := by
  have hpath : (63 : UInt8) ∉ decode p ∧ (0 : UInt8) ∉ decode p := by
    rw [← hfile, hd]
    exact setTarget_sFile r _
  refine ⟨⟨hpath.2, hpath.1⟩, ?_⟩
  rintro x hx
  cases hx
  have hd' : d = cstr (decode (p ++ 63 :: x)) := hd
  have hopen : unfinished p ≠ [37, 43] := by
    intro hopen
    obtain ⟨w, hw, hw'⟩ := decode_concat_mark_plus (m := 63) (by decide) hopen
    have h0 : (0 : UInt8) ∉ w ++ [43] := by
      have := hpath.2
      rw [hw] at this
      simpa using this
    have h63 : (63 : UInt8) ∉ w ++ [43] := by
      have := hpath.1
      rw [hw] at this
      simpa using this
    have hsplit : d = (w ++ [43]) ++ 63 :: cstr (decodeBehind p x) := by
      rw [hd', decode_mark (by decide) (by decide) (by decide), hw',
        show w ++ [43, 63] = (w ++ [43]) ++ [63] by simp, List.append_assoc,
        cstr_append_of_not_mem h0]
      rfl
    -- the blank of the path alone is a `'+'` in the target
    rw [hsplit, (setTarget_mark h0 h63).1, hw] at hfile
    exact absurd (List.append_cancel_left hfile) (by decide)
  refine ⟨hopen, decodeBehind_eq_of_cstr ?_⟩
  rw [hd', cstr_decode_query hpath.2 hopen, (setTarget_mark hpath.2 hpath.1).2] at hquery
  exact hquery

theorem cstr_decode_of_clean (h0t : (0 : UInt8) ∉ targetOf p q) (h : TargetClean p q) :
    cstr (decode (targetOf p q)) = targetOf (decode p) q := by
  obtain ⟨⟨h0, -⟩, hquery⟩ := h
  cases q with
  | none =>
    have hnil : ∀ s : Bytes, targetOf s none = s := List.append_nil
    rw [hnil, hnil, cstr_of_not_mem h0]
  | some x =>
    obtain ⟨hopen, hbehind⟩ := hquery x rfl
    have h0x : (0 : UInt8) ∉ x := fun hmem => h0t (by simp [targetOf, hmem])
    show cstr (decode (p ++ 63 :: x)) = decode p ++ 63 :: x
    rw [cstr_decode_query h0 hopen, hbehind, cstr_of_not_mem h0x]

theorem fields_of_targetClean (hr : r.sQuery = []) (h : TargetClean p q) :
    (r.setTarget (targetOf (decode p) q)).sFile = decode p ∧
      (r.setTarget (targetOf (decode p) q)).sQuery = q.getD [] := by
  obtain ⟨⟨h0, h63⟩, -⟩ := h
  cases q with
  | none =>
    have hnil : targetOf (decode p) none = decode p := List.append_nil _
    rw [hnil, ← hr]
    exact setTarget_none h63
  | some x => exact setTarget_mark h0 h63

theorem targetOf_ne_nil (h : targetOf p q ≠ []) : targetOf (decode p) q ≠ [] := by
  cases q with
  | none =>
    have hnil : ∀ s : Bytes, targetOf s none = s := List.append_nil
    rw [hnil] at h ⊢
    exact decode_ne_nil h
  | some x => simp [targetOf]

/-- Path and query are those of the target exactly when nothing that is decoded touches the mark or
the query. The buffer of a client holds less than `2 ^ 31` bytes. -/
theorem requestTarget_iff (h : cstr r.sBuffer = l.enc ++ (CRLF ++ rest))
    (hl : Search.find CRLF l.enc = none) (hr : r.sQuery = [])
    (hlen : l.target.length + 2 < 2 ^ 31) :
    r.TargetMet l.target ↔
      l.target = [] ∨ TargetClean (pathOf l.target) (queryOf l.target) := by
  have h0t : (0 : UInt8) ∉ l.target :=
    fun hmem => not_mem_cstr r.sBuffer (by rw [h]; simp [RequestLine.enc, hmem])
  have hparts := targetOf_parts l.target
  by_cases hnil : l.target = []
  · have hready := parseRequestReady_target h hl
    rw [if_pos hnil] at hready
    exact iff_of_true ⟨_, _, hready, fun hne => absurd hnil hne⟩ (.inl hnil)
  · obtain ⟨hcrash, hrun⟩ := parseRequestReady_decoded h hl hnil hlen
    constructor
    · rintro ⟨ret, r', hready, hmet⟩
      obtain ⟨-, hfile, hquery⟩ := hmet hnil
      by_cases hd : cstr (decode l.target) = []
      · rw [hcrash hd] at hready
        cases hready
      · obtain ⟨r'', hready', htarget, -⟩ := hrun hd
        have hfile' := congrArg (·.2.1) htarget
        have hquery' := congrArg (·.2.2) htarget
        cases hready.symm.trans hready'
        exact .inr (targetClean_of_fields (by rw [hparts]) (hfile'.symm.trans hfile)
          (hquery'.symm.trans hquery))
    · rintro (h | hclean)
      · exact absurd h hnil
      · have hdecode : cstr (decode l.target) =
            targetOf (decode (pathOf l.target)) (queryOf l.target) := by
          rw [← cstr_decode_of_clean (hparts.symm ▸ h0t) hclean, hparts]
        rw [hdecode] at hrun
        obtain ⟨r', hready, htarget, -⟩ := hrun (targetOf_ne_nil (hparts.symm ▸ hnil))
        have hfile := congrArg (·.2.1) htarget
        have hquery := congrArg (·.2.2) htarget
        obtain ⟨hfile', hquery'⟩ := fields_of_targetClean hr hclean
        exact ⟨none, r', hready, fun _ => ⟨rfl, hfile.trans hfile', hquery.trans hquery'⟩⟩

/-- The line of a request for a target without a blank. -/
def getLine (target : Bytes) (h : 32 ∉ target) : RequestLine :=
  { method := bytes "GET", target, protocol := bytes "HTTP", version := bytes "1.1"
    method_ne_nil := by decide
    protocol_ne_nil := by decide
    no_blank := ⟨by decide, h, by decide, by decide⟩
    no_slash := by decide }

/-- A client that has sent a request line and the end of the head. -/
def received (l : RequestLine) : HttpRequest :=
  { sBuffer := l.enc ++ (CRLF ++ CRLF) }

theorem requestTarget_query :
    (received (getLine (bytes "/a?b") (by decide))).TargetMet (bytes "/a?b") :=
  (requestTarget_iff (show cstr (received (getLine (bytes "/a?b") (by decide))).sBuffer =
      (getLine (bytes "/a?b") (by decide)).enc ++ (CRLF ++ CRLF) by decide)
    (by decide) rfl (by decide)).mpr (.inr ⟨by decide, fun x hx => by cases hx; decide⟩)

/-- An escaped mark splits the target. -/
theorem not_requestTarget : ¬ ∀ (r : HttpRequest) (l : RequestLine) (rest : Bytes),
    cstr r.sBuffer = l.enc ++ (CRLF ++ rest) → Search.find CRLF l.enc = none → r.sQuery = [] →
      r.TargetMet l.target := by
  intro h
  let l := getLine (bytes "/a%3Fb") (by decide)
  have hsplit : cstr (received l).sBuffer = l.enc ++ (CRLF ++ CRLF) := by decide
  obtain ⟨ret, r', hready, hmet⟩ := h (received l) l CRLF hsplit (by decide) rfl
  obtain ⟨-, hfile, -⟩ := hmet (by decide)
  obtain ⟨-, hrun⟩ := parseRequestReady_decoded hsplit (by decide) (by decide) (by decide)
  obtain ⟨r'', hready', htarget, -⟩ := hrun (by decide)
  have hfile' := congrArg (·.2.1) htarget
  cases hready.symm.trans hready'
  exact absurd (hfile.symm.trans hfile') (by decide)

end HttpRequest

end Dframework
