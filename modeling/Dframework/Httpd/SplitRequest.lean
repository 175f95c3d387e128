import Mathlib
import Dframework.Httpd.RequestTarget

/-!
# A request in segments

The segments of a request are handed to `parseRequest` as they arrive. A call whose segment ends
inside a line leaves the rest of the line in the buffer, and the next call goes on there. A call whose
segment ends behind a line asks for the next line in an empty buffer, for which `toChars` is `NULL`.

Results:
1. `parseRequest_again`, `parseRequest_done`: the next call goes on where the one before it stopped.
2. `again_iff`: the cuts behind which the parser waits for more.
3. `splitRequest_iff`: the splits of a request that are read like the request in one piece.
-/

namespace Dframework

open CLib Loop

namespace HttpRequest

/-- The request with bytes that have been received. -/
def extend (t : Bytes) (r : HttpRequest) : HttpRequest :=
  { r with sBuffer := r.sBuffer ++ t, sRequestHeaders := r.sRequestHeaders ++ t }

/-- The `switch` of `parseRequest`. -/
def dispatch (r : HttpRequest) : Option (Retval × HttpRequest) :=
  match r.cstatus with
  | .ready =>
    match r.parseRequestReady with
    | some (none, r) => r.parseHeaderLines
    | res => res
  | .header => r.parseHeaderLines
  | .body => some (none, r)

/-- The segments, one after another: the answers and the last state. -/
def feed : HttpRequest → List Bytes → Option (List Retval × HttpRequest)
  | r, [] => some ([], r)
  | r, s :: segments => do
    let (answer, r) ← r.parseRequest s
    let (answers, r) ← feed r segments
    some (answer :: answers, r)

/-- `AGAIN` is answered for the segments that end before `n` bytes have come. -/
def Waits : Nat → List Bytes → List Retval → Prop
  | n, s :: segments, answer :: answers =>
    (s.length < n → answer = retval .eAgain) ∧ Waits (n - s.length) segments answers
  | _, segments, answers => segments = [] ∧ answers = []

/-- The head of a request that is accepted in one piece. -/
def Accepted (head : Bytes) : Prop :=
  (0 : UInt8) ∉ head ∧ ∃ r, parseRequest {} head = some (none, r) ∧ r.sBuffer = []

/-- The segments come to what the one piece comes to. -/
def SplitMet (head more : Bytes) (segments : List Bytes) : Prop :=
  ∃ answers r r₁, feed {} segments = some (answers, r) ∧ Waits head.length segments answers ∧
    parseRequest {} (head ++ more) = some (none, r₁) ∧ r.cstatus = .body ∧ r.kept = r₁.kept

/-- A part of the header lines that ends inside a line. A line that is whole has a colon, or there is
one behind it. -/
inductive Pending : Bytes → Prop
  | part {q : Bytes} (hne : q ≠ []) (h : Search.find CRLF q = none) : Pending q
  | line {l rest : Bytes} (hl : Search.find CRLF l = none) (hcolon : 58 ∈ l ++ (CRLF ++ rest))
      (h : Pending rest) : Pending (l ++ (CRLF ++ rest))

def InsideLine (p : Bytes) : Prop :=
  Search.find CRLF p = none ∨
    ∃ l q, p = l ++ (CRLF ++ q) ∧ Search.find CRLF l = none ∧ Pending q

variable {r r' : HttpRequest} {l rest t : Bytes}

/-! ## More in the buffer -/

theorem extend_extend (s t : Bytes) (r : HttpRequest) :
    extend t (extend s r) = extend (s ++ t) r := by
  simp only [extend, List.append_assoc]

theorem parseRequest_eq {buf : Bytes} (h : buf ≠ []) (r : HttpRequest) :
    parseRequest r buf = (extend buf r).dispatch := by
  rw [parseRequest, if_neg h]
  rfl

theorem toChars_append {m : Bytes} (h : m ≠ []) : toChars (m ++ t) = some (m ++ t) :=
  toChars_of_ne_nil (List.append_ne_nil_of_left_ne_nil h t)

theorem ne_nil_of_strstr {m : Bytes} {i : Nat} (h : strstr m CRLF = some i) : m ≠ [] := by
  rintro rfl
  have hlen := strstr_add_length_le h
  simp [CRLF] at hlen

theorem strstr_crlf_le {m : Bytes} {i : Nat} (h : strstr m CRLF = some i) : i + 2 ≤ m.length :=
  strstr_add_length_le h

theorem setTarget_extend (r : HttpRequest) (query : Bytes) :
    (extend t r).setTarget query = extend t (r.setTarget query) := by
  unfold setTarget
  cases strstr query [63] <;> rfl

theorem setFileExt_extend (r : HttpRequest) : (extend t r).setFileExt = extend t r.setFileExt := by
  have hfile : (extend t r).sFile = r.sFile := rfl
  unfold setFileExt
  rw [hfile]
  dsimp only
  split <;> rfl

theorem parseVersion_extend (buf : Bytes) {test : Nat} (h : test + 2 ≤ r.sBuffer.length) :
    (extend t r).parseVersion buf test = Prod.map id (extend t) (r.parseVersion buf test) := by
  unfold parseVersion
  rcases strstr buf [47] with _ | _ | slash
  · rfl
  · rfl
  · show (_, _) = (_, _)
    simp only [extend, id, List.drop_append_of_le_length h]

theorem readTarget_extend (query buf : Bytes) {test : Nat} (h : test + 2 ≤ r.sBuffer.length) :
    ((extend t r).setTarget query).setFileExt.parseVersion buf test =
      Prod.map id (extend t) ((r.setTarget query).setFileExt.parseVersion buf test) := by
  have hbuf : (r.setTarget query).setFileExt.sBuffer = r.sBuffer :=
    (congrArg (·.2.1) (setFileExt_kept _)).trans (setTarget_fields r query).2.2
  rw [setTarget_extend, setFileExt_extend]
  exact parseVersion_extend buf (hbuf ▸ h)

/-- The request line is read in the same way when more has been received. -/
theorem parseRequestReady_extend {test : Nat} (h : strstr r.sBuffer CRLF = some test) :
    (extend t r).parseRequestReady = r.parseRequestReady.map (Prod.map id (extend t)) := by
  have hne := ne_nil_of_strstr h
  have hle := strstr_crlf_le h
  have hfind : strstr (r.sBuffer ++ t) CRLF = some test := strstr_append h t
  have htake : (r.sBuffer ++ t).take test = r.sBuffer.take test :=
    List.take_append_of_le_length (by omega)
  have hbuf : (extend t r).sBuffer = r.sBuffer ++ t := rfl
  have hready : (toChars r.sBuffer).bind (strstr · CRLF) = some test := by
    rw [toChars_of_ne_nil hne, Option.bind_some, h]
  have hready' : (toChars (r.sBuffer ++ t)).bind (strstr · CRLF) = some test := by
    rw [toChars_append hne, Option.bind_some, hfind]
  unfold parseRequestReady
  rw [hbuf, hready, hready']
  simp only [htake]
  set line := r.sBuffer.take test
  by_cases hline : line = []
  · rw [if_pos hline, if_pos hline]
    rfl
  rw [if_neg hline, if_neg hline]
  rcases hblank : strstr line [32] with _ | _ | blank
  · rfl
  · rfl
  simp only
  rcases hblank' : strrchr (line.drop (blank + 1 + 1)) 32 with _ | _ | blank'
  · rfl
  · rfl
  simp only
  rcases hdecode : HttpdUtil.urldecode (toChars ((line.drop (blank + 1 + 1)).take (blank' + 1))) with
    _ | _ | sQuery
  · rfl
  · rfl
  simp only
  rcases toChars sQuery with _ | query
  · rfl
  set r₁ : HttpRequest := { r with sRequestLine := line, sMethod := line.take (blank + 1) } with hr₁
  have hread := @readTarget_extend r₁ t query ((line.drop (blank + 1 + 1)).drop (blank' + 1 + 1)) test hle
  exact congrArg some hread

theorem extend_ite {c : Prop} [Decidable c] {a b a' b' : HttpRequest} (ha : a' = extend t a)
    (hb : b' = extend t b) : (if c then a' else b') = extend t (if c then a else b) := by
  split_ifs
  · exact ha
  · exact hb

theorem setField_extend (r : HttpRequest) (sName sVal : Bytes) :
    (extend t r).setField sName sVal = extend t (r.setField sName sVal) := by
  unfold setField
  iterate 10 refine extend_ite rfl ?_
  rfl

theorem setField_cstatus (r : HttpRequest) (sName sVal : Bytes) :
    (r.setField sName sVal).cstatus = r.cstatus := by
  unfold setField
  iterate 10 refine frame_ite HttpRequest.cstatus rfl ?_
  rfl

theorem setNew_append {mem : Bytes} {len : Int} (h : len ≤ mem.length) :
    setNew (mem ++ t) len = setNew mem len := by
  unfold setNew
  split_ifs with hneg hone hle
  · rfl
  · rfl
  · rw [List.take_append_of_le_length (by omega)]
  · exact absurd (by rw [List.length_append]; omega) hle

/-- What `parseRequestHeaders` does: it waits, it comes to the end of the head, it refuses the line, or
it takes the line off. -/
theorem parseRequestHeaders_cases {e : Retval} (h : r.parseRequestHeaders = some (e, r')) :
    (e = retval .eAgain ∧ r' = r ∧ r.sBuffer ≠ [] ∧ strstr r.sBuffer CRLF = none) ∨
    (e = none ∧ strstr r.sBuffer CRLF = some 0 ∧
      r' = { r with sBuffer := r.sBuffer.drop 2, cstatus := .body }) ∨
    (∃ message line, e = wrong message line) ∨
    (∃ test, e = retval .ok ∧ strstr r.sBuffer CRLF = some (test + 1) ∧ 58 ∈ r.sBuffer ∧
      r'.sBuffer = r.sBuffer.drop (test + 1 + 2) ∧ r'.cstatus = r.cstatus) := by
  unfold parseRequestHeaders at h
  split at h
  · cases h
  next buf hbuf =>
    have hne : r.sBuffer ≠ [] := by
      intro hnil
      rw [hnil] at hbuf
      cases hbuf
    rw [toChars_of_ne_nil hne] at hbuf
    obtain rfl := Option.some.inj hbuf
    split at h
    next htest =>
      obtain ⟨rfl, rfl⟩ := Prod.mk.inj (Option.some.inj h)
      exact .inl ⟨rfl, rfl, hne, htest⟩
    next htest =>
      obtain ⟨rfl, rfl⟩ := Prod.mk.inj (Option.some.inj h)
      exact .inr (.inl ⟨rfl, htest, rfl⟩)
    next test hzero htest =>
      obtain ⟨n, rfl⟩ : ∃ n, test = n + 1 := Nat.exists_eq_succ_of_ne_zero hzero
      split at h
      · obtain ⟨rfl, -⟩ := Prod.mk.inj (Option.some.inj h)
        exact .inr (.inr (.inl ⟨_, _, rfl⟩))
      · obtain ⟨rfl, -⟩ := Prod.mk.inj (Option.some.inj h)
        exact .inr (.inr (.inl ⟨_, _, rfl⟩))
      next colon _ hcolon =>
        split at h
        · cases h
        · obtain ⟨rfl, rfl⟩ := Prod.mk.inj (Option.some.inj h)
          refine .inr (.inr (.inr ⟨n, rfl, htest, ?_, ?_, setField_cstatus ..⟩))
          · by_contra hno
            rw [strstr_char_none hno] at hcolon
            cases hcolon
          · rw [setField_sBuffer]

/-- A line is taken in the same way when more has been received, once its end and a colon are there. -/
theorem parseRequestHeaders_extend {test colon : Nat} (h : strstr r.sBuffer CRLF = some test)
    (hcolon : strstr r.sBuffer [58] = some colon) :
    (extend t r).parseRequestHeaders = r.parseRequestHeaders.map (Prod.map id (extend t)) := by
  have hne := ne_nil_of_strstr h
  have hle := strstr_crlf_le h
  have hbuf : toChars (extend t r).sBuffer = some (r.sBuffer ++ t) := toChars_append hne
  have hfind : strstr (r.sBuffer ++ t) CRLF = some test := strstr_append h t
  have hcolon' : strstr (r.sBuffer ++ t) [58] = some colon := strstr_append hcolon t
  have hcolonle : colon + 1 ≤ r.sBuffer.length := strstr_add_length_le hcolon
  unfold parseRequestHeaders
  rw [hbuf, toChars_of_ne_nil hne]
  simp only [h, hfind, hcolon, hcolon']
  rcases test with _ | test
  · show some (none, { extend t r with sBuffer := (r.sBuffer ++ t).drop 2, cstatus := .body }) = _
    rw [List.drop_append_of_le_length (by omega)]
    rfl
  rcases colon with _ | colon
  · show some (wrong _ ((r.sBuffer ++ t).take (test + 1)), extend t r) = _
    rw [List.take_append_of_le_length (by omega)]
    rfl
  simp only
  rw [List.drop_append_of_le_length hcolonle, List.take_append_of_le_length (by omega),
    List.drop_append_of_le_length (by omega)]
  have hlen : ((test + 1 : Nat) : Int) - ((colon + 1 : Nat) + 1) ≤
      (r.sBuffer.drop (colon + 1 + 1)).length := by
    rw [List.length_drop]
    omega
  rw [setNew_append hlen]
  rcases setNew (r.sBuffer.drop (colon + 1 + 1)) _ with _ | val
  · rfl
  · exact congrArg (fun r => some (retval .ok, r)) (@setField_extend t { r with
      sBuffer := r.sBuffer.drop (test + 1 + 2)
      headers := appendHeader r.headers (trim (r.sBuffer.take (colon + 1))) (trim val) }
      (trim (r.sBuffer.take (colon + 1))) (trim val))

/-! ## The header lines -/

theorem returns_headerLines (r : HttpRequest) : Returns headerRound r r.parseHeaderLines := by
  obtain ⟨x, hx⟩ : ∃ x, run headerRound (r.sBuffer.length + 1) r = some x := by
    refine run_of_measure (I := fun _ => True) (fun r => r.sBuffer.length) trivial (Nat.lt_succ_self _) ?_
    intro s s' _ hs
    obtain ⟨e, he, hok⟩ := headerRound_next_iff.mp hs
    refine ⟨trivial, ?_⟩
    rcases parseRequestHeaders_cases he with
      ⟨he', -⟩ | ⟨he', -⟩ | ⟨_, _, he'⟩ | ⟨test, -, htest, -, hbuf, -⟩
    · obtain rfl := Option.some.inj he'
      cases hok
    · cases he'
    · obtain rfl := Option.some.inj he'
      cases hok
    · have hle := strstr_crlf_le htest
      rw [hbuf, List.length_drop]
      omega
  refine ⟨r.sBuffer.length + 1, ?_⟩
  rw [parseHeaderLines, hx]
  rfl

theorem parseHeaderLines_done {x : Option (Retval × HttpRequest)} (h : headerRound r = .done x) :
    r.parseHeaderLines = x :=
  (returns_headerLines r).unique (returns_of_done h)

theorem parseHeaderLines_next (h : headerRound r = .next r') : r.parseHeaderLines = r'.parseHeaderLines :=
  ((returns_next_iff h).mp (returns_headerLines r)).unique (returns_headerLines r')

/-- The error of a line that is refused. -/
theorem wrong_ne (message : String) (line : Bytes) :
    wrong message line ≠ retval .eAgain ∧ wrong message line ≠ retval .ok := by
  constructor
  · intro h
    cases congrArg Ret.value (Option.some.inj h)
  · intro h
    cases congrArg Ret.value (Option.some.inj h)

/-- What one round does. -/
theorem headerRound_cases (r : HttpRequest) :
    (r.sBuffer = [] ∧ headerRound r = .done none) ∨
    (r.sBuffer ≠ [] ∧ strstr r.sBuffer CRLF = none ∧
      headerRound r = .done (some (retval .eAgain, r))) ∨
    (strstr r.sBuffer CRLF = some 0 ∧
      headerRound r = .done (some (none, { r with sBuffer := r.sBuffer.drop 2, cstatus := .body }))) ∨
    (∃ test, strstr r.sBuffer CRLF = some (test + 1) ∧
      (headerRound r = .done none ∨
        ∃ message line r', headerRound r = .done (some (wrong message line, r')))) ∨
    (∃ test r', strstr r.sBuffer CRLF = some (test + 1) ∧ 58 ∈ r.sBuffer ∧ headerRound r = .next r' ∧
      r'.sBuffer = r.sBuffer.drop (test + 1 + 2) ∧ r'.cstatus = r.cstatus) := by
  by_cases hne : r.sBuffer = []
  · refine .inl ⟨hne, ?_⟩
    rw [headerRound, parseRequestHeaders, hne]
    rfl
  have hbuf := toChars_of_ne_nil hne
  rcases hfind : strstr r.sBuffer CRLF with _ | _ | test
  · refine .inr (.inl ⟨hne, rfl, ?_⟩)
    rw [headerRound, parseRequestHeaders, hbuf]
    simp only [hfind]
    rfl
  · refine .inr (.inr (.inl ⟨rfl, ?_⟩))
    rw [headerRound, parseRequestHeaders, hbuf]
    simp only [hfind]
  · refine .inr (.inr (.inr ?_))
    rcases hparse : r.parseRequestHeaders with _ | ⟨e, r'⟩
    · exact .inl ⟨test, rfl, .inl (by rw [headerRound, hparse])⟩
    · rcases parseRequestHeaders_cases hparse with
        ⟨-, -, -, hno⟩ | ⟨-, h0, -⟩ | ⟨message, line, rfl⟩ | ⟨test', rfl, htest, hmem, hrest, hstatus⟩
      · cases hfind.symm.trans hno
      · cases hfind.symm.trans h0
      · refine .inl ⟨test, rfl, .inr ⟨message, line, r', ?_⟩⟩
        rw [headerRound, hparse]
        exact if_neg fun hok => by cases hok
      · cases hfind.symm.trans htest
        exact .inr ⟨test, r', rfl, hmem, headerRound_next_iff.mpr ⟨_, hparse, rfl⟩, hrest, hstatus⟩

theorem headerRound_of_next (h : headerRound r = .next r') :
    ∃ test, strstr r.sBuffer CRLF = some (test + 1) ∧ 58 ∈ r.sBuffer ∧
      r'.sBuffer = r.sBuffer.drop (test + 1 + 2) ∧ r'.cstatus = r.cstatus := by
  rcases headerRound_cases r with
    ⟨-, hd⟩ | ⟨-, -, hd⟩ | ⟨-, hd⟩ | ⟨_, -, hd | ⟨_, _, _, hd⟩⟩ | ⟨test, _, htest, hmem, hd, hrest⟩
  · cases h.symm.trans hd
  · cases h.symm.trans hd
  · cases h.symm.trans hd
  · cases h.symm.trans hd
  · cases h.symm.trans hd
  · cases h.symm.trans hd
    exact ⟨test, htest, hmem, hrest⟩

theorem headerRound_of_again (h : headerRound r = .done (some (retval .eAgain, r'))) : r' = r := by
  rcases headerRound_cases r with
    ⟨-, hd⟩ | ⟨-, -, hd⟩ | ⟨-, hd⟩ | ⟨_, -, hd | ⟨_, _, _, hd⟩⟩ | ⟨_, _, -, -, hd, -⟩
  · cases h.symm.trans hd
  · cases h.symm.trans hd
    rfl
  · cases h.symm.trans hd
  · cases h.symm.trans hd
  · cases h.symm.trans hd
  · cases h.symm.trans hd

theorem headerRound_of_end (h : headerRound r = .done (some (none, r'))) :
    strstr r.sBuffer CRLF = some 0 ∧ r' = { r with sBuffer := r.sBuffer.drop 2, cstatus := .body } := by
  rcases headerRound_cases r with
    ⟨-, hd⟩ | ⟨-, -, hd⟩ | ⟨hzero, hd⟩ | ⟨_, -, hd | ⟨_, _, _, hd⟩⟩ | ⟨_, _, -, -, hd, -⟩
  · cases h.symm.trans hd
  · cases h.symm.trans hd
  · cases h.symm.trans hd
    exact ⟨hzero, rfl⟩
  · cases h.symm.trans hd
  · cases h.symm.trans hd
  · cases h.symm.trans hd

/-- The empty line ends the loop. -/
theorem headerRound_zero (h : strstr r.sBuffer CRLF = some 0) :
    headerRound r = .done (some (none, { r with sBuffer := r.sBuffer.drop 2, cstatus := .body })) := by
  rcases headerRound_cases r with ⟨hnil, -⟩ | ⟨-, hno, -⟩ | ⟨-, hd⟩ | ⟨_, htest, -⟩ | ⟨_, _, htest, -⟩
  · exact absurd hnil (ne_nil_of_strstr h)
  · cases h.symm.trans hno
  · exact hd
  · cases h.symm.trans htest
  · cases h.symm.trans htest

/-- A round that goes on does so in the same way when more has been received. -/
theorem headerRound_extend (h : headerRound r = .next r') :
    headerRound (extend t r) = .next (extend t r') := by
  obtain ⟨e, hparse, he⟩ := headerRound_next_iff.mp h
  refine headerRound_next_iff.mpr ⟨e, ?_, he⟩
  obtain ⟨test, htest, -⟩ := headerRound_of_next h
  obtain ⟨colon, hcolon⟩ : ∃ colon, strstr r.sBuffer [58] = some colon := by
    rcases hfind : strstr r.sBuffer [58] with _ | colon
    · unfold parseRequestHeaders at hparse
      rw [toChars_of_ne_nil (ne_nil_of_strstr htest)] at hparse
      simp only [htest, hfind] at hparse
      cases hparse
      cases he
    · exact ⟨colon, rfl⟩
  rw [parseRequestHeaders_extend htest hcolon, hparse]
  rfl

/-- A call that waits goes on with the lines where it stopped. -/
theorem parseHeaderLines_again (h : r.parseHeaderLines = some (retval .eAgain, r')) :
    (extend t r).parseHeaderLines = (extend t r').parseHeaderLines ∧ r'.cstatus = r.cstatus := by
  obtain ⟨last, hreach, hdone⟩ := Returns.exists_reach (h ▸ returns_headerLines r)
  obtain rfl := headerRound_of_again hdone
  clear h hdone
  induction hreach with
  | refl s => exact ⟨rfl, rfl⟩
  | next hs _ ih =>
    obtain ⟨hlines, hstatus⟩ := ih
    obtain ⟨-, -, -, -, hkept⟩ := headerRound_of_next hs
    exact ⟨(parseHeaderLines_next (headerRound_extend hs)).trans hlines, hstatus.trans hkept⟩

theorem headerLines_length (h : r.parseHeaderLines = some (retval .eAgain, r')) :
    r'.sBuffer.length ≤ r.sBuffer.length := by
  obtain ⟨last, hreach, hdone⟩ := Returns.exists_reach (h ▸ returns_headerLines r)
  obtain rfl := headerRound_of_again hdone
  refine hreach.invariant (I := fun s => s.sBuffer.length ≤ r.sBuffer.length) le_rfl ?_
  intro s s' hs hnext
  obtain ⟨test, -, -, hdrop, -⟩ := headerRound_of_next hnext
  rw [hdrop, List.length_drop]
  exact (Nat.sub_le _ _).trans hs

/-- A head that is read to its end is read in the same way in front of more. -/
theorem parseHeaderLines_end (h : r.parseHeaderLines = some (none, r')) :
    (extend t r).parseHeaderLines = some (none, extend t r') ∧ r'.cstatus = .body := by
  obtain ⟨last, hreach, hdone⟩ := Returns.exists_reach (h ▸ returns_headerLines r)
  obtain ⟨hzero, rfl⟩ := headerRound_of_end hdone
  refine ⟨?_, rfl⟩
  clear h hdone
  induction hreach with
  | refl s =>
    have hle := strstr_crlf_le hzero
    have hzero' : strstr (extend t s).sBuffer CRLF = some 0 := strstr_append hzero t
    refine (parseHeaderLines_done (headerRound_zero hzero')).trans ?_
    show some (none, { extend t s with sBuffer := (s.sBuffer ++ t).drop 2, cstatus := .body }) = _
    rw [List.drop_append_of_le_length hle]
    rfl
  | next hs _ ih => exact (parseHeaderLines_next (headerRound_extend hs)).trans (ih hzero)

/-! ## The next call -/

theorem urldecode_ne {url : Option Bytes} {e : Ret} (h : HttpdUtil.urldecode url = some (.error e)) :
    some e ≠ retval .eAgain := by
  intro he
  obtain rfl := Option.some.inj he
  unfold HttpdUtil.urldecode at h
  split at h
  · cases h
  · simp only at h
    split_ifs at h
    · cases h
    · split at h
      · split_ifs at h
        cases h
      · cases h

/-- What `parseRequestReady` does: it waits for the end of the line, it takes the line off, or it
refuses it. -/
theorem parseRequestReady_cases {e : Retval} (h : r.parseRequestReady = some (e, r')) :
    (e = retval .eAgain ∧ r' = r ∧ (toChars r.sBuffer).bind (strstr · CRLF) = none) ∨
    ∃ test, strstr r.sBuffer CRLF = some test ∧
      ((e = none ∧ r'.cstatus = .header ∧ r'.sBuffer = r.sBuffer.drop (test + 2)) ∨
        (e ≠ none ∧ e ≠ retval .eAgain)) := by
  have hrefuse : ∀ message, retvalMsg .error message ≠ none ∧
      retvalMsg .error message ≠ retval .eAgain := fun message =>
    ⟨by rintro ⟨⟩, fun h => by cases congrArg Ret.value (Option.some.inj h)⟩
  unfold parseRequestReady at h
  split at h
  next hnone =>
    obtain ⟨rfl, rfl⟩ := Prod.mk.inj (Option.some.inj h)
    exact .inl ⟨rfl, rfl, hnone⟩
  next test htest =>
    have hfind : strstr r.sBuffer CRLF = some test := by
      obtain ⟨buf, hbuf, hfind⟩ := Option.bind_eq_some_iff.mp htest
      have hne : r.sBuffer ≠ [] := by
        intro hnil
        rw [hnil] at hbuf
        cases hbuf
      rw [toChars_of_ne_nil hne] at hbuf
      rwa [Option.some.inj hbuf]
    refine .inr ⟨test, hfind, ?_⟩
    simp only at h
    split at h
    · obtain ⟨rfl, -⟩ := Prod.mk.inj (Option.some.inj h)
      exact .inr (hrefuse _)
    split at h
    · obtain ⟨rfl, -⟩ := Prod.mk.inj (Option.some.inj h)
      exact .inr (hrefuse _)
    · obtain ⟨rfl, -⟩ := Prod.mk.inj (Option.some.inj h)
      exact .inr (hrefuse _)
    split at h
    · obtain ⟨rfl, -⟩ := Prod.mk.inj (Option.some.inj h)
      exact .inr (hrefuse _)
    · obtain ⟨rfl, -⟩ := Prod.mk.inj (Option.some.inj h)
      exact .inr (hrefuse _)
    split at h
    · cases h
    next e hdecode =>
      obtain ⟨rfl, -⟩ := Prod.mk.inj (Option.some.inj h)
      exact .inr ⟨by rintro ⟨⟩, urldecode_ne hdecode⟩
    split at h
    · cases h
    next query _ =>
      have hversion := Option.some.inj h
      unfold parseVersion at hversion
      split at hversion
      · obtain ⟨rfl, -⟩ := Prod.mk.inj hversion
        exact .inr (hrefuse _)
      · obtain ⟨rfl, -⟩ := Prod.mk.inj hversion
        exact .inr (hrefuse _)
      · obtain ⟨rfl, rfl⟩ := Prod.mk.inj hversion
        refine .inl ⟨rfl, rfl, ?_⟩
        have hbuf := fun r : HttpRequest => (congrArg (·.2.1) (setFileExt_kept (r.setTarget query))).trans
          (setTarget_fields r query).2.2
        exact congrArg (List.drop (test + 2)) (hbuf _)

theorem dispatch_taken (hstatus : r.cstatus = .ready) (h : r.parseRequestReady = some (none, r')) :
    r.dispatch = r'.parseHeaderLines := by
  rw [dispatch, hstatus, h]

theorem dispatch_stopped (hstatus : r.cstatus = .ready) {e : Ret}
    (h : r.parseRequestReady = some (some e, r')) : r.dispatch = some (some e, r') := by
  rw [dispatch, hstatus, h]

theorem dispatch_null (hstatus : r.cstatus = .ready) (h : r.parseRequestReady = none) :
    r.dispatch = none := by
  rw [dispatch, hstatus, h]

theorem dispatch_header (hstatus : r.cstatus = .header) : r.dispatch = r.parseHeaderLines := by
  rw [dispatch, hstatus]

theorem dispatch_body (hstatus : r.cstatus = .body) : r.dispatch = some (none, r) := by
  rw [dispatch, hstatus]

/-- The call behind one that waits goes on where that one stopped. -/
theorem dispatch_again (h : r.dispatch = some (retval .eAgain, r')) :
    (extend t r').dispatch = (extend t r).dispatch := by
  rcases hstatus : r.cstatus with _ | _ | _
  · rcases hready : r.parseRequestReady with _ | ⟨_ | e, r₁⟩
    · cases (dispatch_null hstatus hready).symm.trans h
    · -- the line has been taken off, and the header lines wait
      rw [dispatch_taken hstatus hready] at h
      obtain ⟨hlines, hkept⟩ := @parseHeaderLines_again _ _ t h
      rcases parseRequestReady_cases hready with ⟨he, -⟩ | ⟨test, htest, ⟨-, hheader, -⟩ | ⟨hne, -⟩⟩
      · cases he
      · have hready' : (extend t r).parseRequestReady = some (none, extend t r₁) := by
          rw [parseRequestReady_extend htest, hready]
          rfl
        rw [dispatch_taken (r := extend t r) hstatus hready', hlines]
        exact dispatch_header (r := extend t r') (hkept.trans hheader)
      · exact absurd rfl hne
    · rw [dispatch_stopped hstatus hready] at h
      obtain ⟨he, rfl⟩ := Prod.mk.inj (Option.some.inj h)
      rcases parseRequestReady_cases hready with ⟨-, rfl, -⟩ | ⟨_, -, ⟨hnone, -⟩ | ⟨-, hne⟩⟩
      · rfl
      · cases hnone
      · exact absurd he hne
  · rw [dispatch_header hstatus] at h
    obtain ⟨hlines, hkept⟩ := @parseHeaderLines_again _ _ t h
    rw [dispatch_header (r := extend t r) hstatus, hlines]
    exact dispatch_header (r := extend t r') (hkept.trans hstatus)
  · rw [dispatch_body hstatus] at h
    cases congrArg Prod.fst (Option.some.inj h)

/-- What stands behind a head is left in the buffer. -/
theorem dispatch_done (h : r.dispatch = some (none, r')) :
    (extend t r).dispatch = some (none, extend t r') ∧ r'.cstatus = .body := by
  rcases hstatus : r.cstatus with _ | _ | _
  · rcases hready : r.parseRequestReady with _ | ⟨_ | e, r₁⟩
    · cases (dispatch_null hstatus hready).symm.trans h
    · rw [dispatch_taken hstatus hready] at h
      rcases parseRequestReady_cases hready with ⟨he, -⟩ | ⟨test, htest, -⟩
      · cases he
      · have hready' : (extend t r).parseRequestReady = some (none, extend t r₁) := by
          rw [parseRequestReady_extend htest, hready]
          rfl
        rw [dispatch_taken (r := extend t r) hstatus hready']
        exact parseHeaderLines_end h
    · rw [dispatch_stopped hstatus hready] at h
      cases congrArg Prod.fst (Option.some.inj h)
  · rw [dispatch_header hstatus] at h
    rw [dispatch_header (r := extend t r) hstatus]
    exact parseHeaderLines_end h
  · rw [dispatch_body hstatus] at h
    obtain ⟨-, rfl⟩ := Prod.mk.inj (Option.some.inj h)
    exact ⟨dispatch_body (r := extend t r) hstatus, hstatus⟩

theorem parseRequest_again {s : Bytes} (hs : s ≠ []) (ht : t ≠ [])
    (h : r.parseRequest s = some (retval .eAgain, r')) : r'.parseRequest t = r.parseRequest (s ++ t) := by
  rw [parseRequest_eq hs] at h
  rw [parseRequest_eq ht, parseRequest_eq (List.append_ne_nil_of_left_ne_nil hs t), dispatch_again h,
    extend_extend]

/-- A call that waits has not kept more than it was given. -/
theorem again_length {p : Bytes} (hne : p ≠ []) (h : parseRequest {} p = some (retval .eAgain, r)) :
    r.sBuffer.length ≤ p.length := by
  set start : HttpRequest := extend p {} with hstart
  have hstatus : start.cstatus = .ready := rfl
  have hbuf : start.sBuffer = p := rfl
  rw [parseRequest_eq hne, ← hstart] at h
  rcases hready : start.parseRequestReady with _ | ⟨_ | e, r₁⟩
  · cases (dispatch_null hstatus hready).symm.trans h
  · rw [dispatch_taken hstatus hready] at h
    have hline : r₁.sBuffer.length ≤ p.length := by
      rcases parseRequestReady_cases hready with ⟨he, -⟩ | ⟨test, -, ⟨-, -, hdrop⟩ | ⟨hno, -⟩⟩
      · cases he
      · rw [hdrop, hbuf, List.length_drop]
        exact Nat.sub_le _ _
      · exact absurd rfl hno
    exact (headerLines_length h).trans hline
  · rw [dispatch_stopped hstatus hready] at h
    obtain ⟨he, rfl⟩ := Prod.mk.inj (Option.some.inj h)
    rcases parseRequestReady_cases hready with ⟨-, rfl, -⟩ | ⟨_, -, ⟨hnone, -⟩ | ⟨-, hno⟩⟩
    · exact le_rfl
    · cases hnone
    · exact absurd he hno

theorem parseRequest_done {s : Bytes} (hs : s ≠ []) (h : r.parseRequest s = some (none, r')) :
    r.parseRequest (s ++ t) = some (none, extend t r') ∧ r'.cstatus = .body := by
  rw [parseRequest_eq hs] at h
  rw [parseRequest_eq (List.append_ne_nil_of_left_ne_nil hs t), ← extend_extend]
  exact dispatch_done h

/-! ## Where the parser waits -/

/-- The first line of a text. -/
theorem line_inj {l l' q q' : Bytes} (hl : Search.find CRLF l = none) (hl' : Search.find CRLF l' = none)
    (h : l ++ (CRLF ++ q) = l' ++ (CRLF ++ q')) : l = l' ∧ q = q' := by
  have hfind : ∀ {a b : Bytes}, Search.find CRLF a = none →
      Search.find CRLF (a ++ (CRLF ++ b)) = some a.length := by
    intro a b ha
    rw [← List.append_assoc]
    exact find_crlf_line ha b
  have hlen : l.length = l'.length := Option.some.inj ((hfind hl).symm.trans (h ▸ hfind hl'))
  obtain ⟨rfl, hrest⟩ := List.append_inj h hlen
  exact ⟨rfl, List.append_cancel_left hrest⟩

theorem not_find_crlf_none (l q : Bytes) : Search.find CRLF (l ++ (CRLF ++ q)) ≠ none := by
  intro h
  refine Search.find_eq_none_iff.mp h l.length (by simp) ?_
  rw [List.drop_left]
  exact List.prefix_append CRLF q

theorem pending_line_iff {q : Bytes} (hl : Search.find CRLF l = none) :
    Pending (l ++ (CRLF ++ q)) ↔ 58 ∈ l ++ (CRLF ++ q) ∧ Pending q := by
  constructor
  · intro h
    generalize htext : l ++ (CRLF ++ q) = text at h
    cases h with
    | part hne hnone => exact absurd (htext ▸ hnone) (not_find_crlf_none l q)
    | line hl' hcolon hrest =>
      obtain ⟨rfl, rfl⟩ := line_inj hl hl' htext
      exact ⟨hcolon, hrest⟩
  · rintro ⟨hcolon, hrest⟩
    exact .line hl hcolon hrest

/-- The lines of a head that is accepted, cut off: the parser waits behind the part of a line when the
lines in front of it can be taken. -/
theorem pending_iff (h0 : (0 : UInt8) ∉ r.sBuffer) (ht : t ≠ [])
    (h : (extend t r).parseHeaderLines = some (none, r')) (hend : r'.sBuffer = []) :
    (∃ r₁, r.parseHeaderLines = some (retval .eAgain, r₁)) ↔ Pending r.sBuffer := by
  induction hn : r.sBuffer.length using Nat.strong_induction_on generalizing r with
  | _ n ih =>
  have hcstr := cstr_of_not_mem h0
  rcases headerRound_cases r with
    ⟨hnil, hd⟩ | ⟨hne, hno, hd⟩ | ⟨hzero, -⟩ | ⟨test, htest, hd⟩ | ⟨test, r₂, htest, hmem, hnext, hrest, -⟩
  · -- the buffer is empty
    rw [parseHeaderLines_done hd, hnil]
    constructor
    · rintro ⟨_, ⟨⟩⟩
    · intro hp
      generalize htext : ([] : Bytes) = text at hp
      cases hp with
      | part hne _ => exact absurd htext.symm hne
      | line _ _ _ => exact absurd (congrArg List.length htext) (by simp [CRLF])
  · rw [parseHeaderLines_done hd]
    rw [strstr, hcstr] at hno
    exact ⟨fun _ => .part hne hno, fun _ => ⟨r, rfl⟩⟩
  · -- the head would end here
    have hle := strstr_crlf_le hzero
    have hzero' : strstr (extend t r).sBuffer CRLF = some 0 := strstr_append hzero t
    rw [parseHeaderLines_done (headerRound_zero hzero')] at h
    obtain ⟨-, rfl⟩ := Prod.mk.inj (Option.some.inj h)
    have hdrop : (r.sBuffer ++ t).drop 2 = [] := hend
    rw [List.drop_append_of_le_length hle] at hdrop
    exact absurd (List.append_eq_nil_iff.mp hdrop).2 ht
  · have hnot : ¬ ∃ r₁, r.parseHeaderLines = some (retval .eAgain, r₁) := by
      rintro ⟨r₁, hr₁⟩
      rcases hd with hd | ⟨message, line, r₂, hd⟩
      · rw [parseHeaderLines_done hd] at hr₁
        cases hr₁
      · rw [parseHeaderLines_done hd] at hr₁
        exact (wrong_ne message line).1 (congrArg Prod.fst (Option.some.inj hr₁))
    refine ⟨fun hr => absurd hr hnot, fun hp => ?_⟩
    obtain ⟨l, q, hl, -, hsplit⟩ := exists_line htest
    rw [hcstr] at hsplit
    rw [hsplit, pending_line_iff hl, ← hsplit] at hp
    -- with a colon, the line would have been refused in the one piece too
    obtain ⟨colon, hcolon⟩ : ∃ colon, strstr r.sBuffer [58] = some colon := by
      obtain ⟨a, b, hab, ha⟩ := List.eq_append_cons_of_mem hp.1
      refine ⟨a.length, ?_⟩
      rw [strstr, hcstr, hab]
      exact Search.find_singleton ha b
    have hext := @parseRequestHeaders_extend r t _ _ htest hcolon
    rcases hparse : r.parseRequestHeaders with _ | ⟨_ | e, r₂⟩
    · have hdone : headerRound (extend t r) = .done none := by
        rw [headerRound, hext, hparse]
        rfl
      rw [parseHeaderLines_done hdone] at h
      cases h
    · have hdone : headerRound r = .done (some (none, r₂)) := by rw [headerRound, hparse]
      rcases hd with hd | ⟨_, _, _, hd⟩
      · cases hdone.symm.trans hd
      · cases hdone.symm.trans hd
    · by_cases he : e.value = .ok
      · have hnext := headerRound_next_iff.mpr ⟨e, hparse, he⟩
        rcases hd with hd | ⟨_, _, _, hd⟩
        · cases hnext.symm.trans hd
        · cases hnext.symm.trans hd
      · have hdone : headerRound (extend t r) = .done (some (some e, extend t r₂)) := by
          rw [headerRound, hext, hparse]
          exact if_neg he
        rw [parseHeaderLines_done hdone] at h
        cases congrArg Prod.fst (Option.some.inj h)
  · obtain ⟨l, q, hl, hlen, hsplit⟩ := exists_line htest
    rw [hcstr] at hsplit
    have hbuf : r₂.sBuffer = q := by
      have hdrop : test + 1 + 2 = (l ++ CRLF).length := by simp [CRLF, hlen]
      rw [hrest, hdrop, hsplit, ← List.append_assoc, List.drop_left]
    have hq : (0 : UInt8) ∉ r₂.sBuffer := fun hmem => h0 (by rw [hsplit]; simp [hbuf ▸ hmem])
    have hlt : r₂.sBuffer.length < n := by
      rw [← hn, hbuf, hsplit]
      simp [CRLF]
      omega
    rw [parseHeaderLines_next (headerRound_extend hnext)] at h
    rw [parseHeaderLines_next hnext, ih _ hlt hq h rfl, hbuf, hsplit, pending_line_iff hl, ← hsplit]
    exact ⟨fun hp => ⟨hmem, hp⟩, fun hp => hp.2⟩

/-- The parser waits behind a part of a head exactly when the part ends inside a line. -/
theorem again_iff {head p : Bytes} (hhead : Accepted head) (hp : p <+: head) (hne : p ≠ [])
    (hlt : p.length < head.length) :
    (∃ r, parseRequest {} p = some (retval .eAgain, r)) ↔ InsideLine p := by
  obtain ⟨h0, r, hrun, hend⟩ := hhead
  obtain ⟨t, rfl⟩ := hp
  have ht : t ≠ [] := by
    rintro rfl
    simp at hlt
  have h0p : (0 : UInt8) ∉ p := fun hmem => h0 (List.mem_append_left t hmem)
  have hcstr := cstr_of_not_mem h0p
  set start : HttpRequest := extend p {} with hstart
  have hbuf : start.sBuffer = p := rfl
  have hstatus : start.cstatus = .ready := rfl
  rw [parseRequest_eq (List.append_ne_nil_of_left_ne_nil hne t), ← extend_extend, ← hstart] at hrun
  rw [parseRequest_eq hne, ← hstart]
  rcases hfind : strstr p CRLF with _ | test
  · have hready : start.parseRequestReady = some (retval .eAgain, start) := by
      rw [parseRequestReady, hbuf, toChars_of_ne_nil hne, Option.bind_some, hfind]
    rw [strstr, hcstr] at hfind
    exact ⟨fun _ => .inl hfind, fun _ => ⟨start, dispatch_stopped hstatus hready⟩⟩
  · obtain ⟨l, q, hl, hlen, hsplit⟩ := exists_line (r := start) hfind
    rw [hbuf, hcstr] at hsplit
    -- the request line is taken in the part as it is in the whole head
    have hext := @parseRequestReady_extend start t test hfind
    rcases hready : start.parseRequestReady with _ | ⟨_ | e, r₁⟩
    · rw [hready] at hext
      cases (dispatch_null (r := extend t start) hstatus hext).symm.trans hrun
    · rw [hready] at hext
      rw [dispatch_taken (r := extend t start) hstatus hext] at hrun
      have hrest : r₁.sBuffer = q := by
        rcases parseRequestReady_cases hready with ⟨he, -⟩ | ⟨test', htest, ⟨-, -, hdrop⟩ | ⟨hne', -⟩⟩
        · cases he
        · cases hfind.symm.trans htest
          have hcut : test + 2 = (l ++ CRLF).length := by simp [CRLF, hlen]
          rw [hdrop, hbuf, hcut, hsplit, ← List.append_assoc, List.drop_left]
        · exact absurd rfl hne'
      have hq : (0 : UInt8) ∉ r₁.sBuffer := fun hmem => h0p (by rw [hsplit]; simp [hrest ▸ hmem])
      rw [dispatch_taken hstatus hready, pending_iff hq ht hrun hend, hrest]
      constructor
      · exact fun hpend => .inr ⟨l, q, hsplit, hl, hpend⟩
      · rintro (hno | ⟨l', q', hsplit', hl', hpend⟩)
        · exact absurd (hsplit ▸ hno) (not_find_crlf_none l q)
        · obtain ⟨-, rfl⟩ := line_inj hl hl' (hsplit.symm.trans hsplit')
          exact hpend
    · rw [hready] at hext
      rw [dispatch_stopped (r := extend t start) hstatus hext] at hrun
      cases congrArg Prod.fst (Option.some.inj hrun)

/-! ## The segments -/

/-- Behind the head, everything is left in the buffer. -/
theorem feed_body (h : r.cstatus = .body) {segments : List Bytes} (hne : ∀ s ∈ segments, s ≠ []) :
    feed r segments = some (List.replicate segments.length none, extend segments.flatten r) := by
  induction segments generalizing r with
  | nil =>
    show some ([], r) = some ([], extend [] r)
    simp [extend]
  | cons s segments ih =>
    obtain ⟨hs, hrest⟩ := List.forall_mem_cons.mp hne
    have hparse : r.parseRequest s = some (none, extend s r) := by
      rw [parseRequest_eq hs]
      exact dispatch_body (r := extend s r) h
    rw [feed, hparse, Option.bind_eq_bind, Option.bind_some]
    simp only
    rw [ih (r := extend s r) h hrest]
    simp only [Option.bind_eq_bind, Option.bind_some, extend_extend, List.flatten_cons,
      List.length_cons, List.replicate_succ]

theorem waits_zero {segments : List Bytes} {answers : List Retval} (h : answers.length = segments.length) :
    Waits 0 segments answers := by
  induction segments generalizing answers with
  | nil => exact ⟨rfl, List.length_eq_zero_iff.mp h⟩
  | cons s segments ih =>
    cases answers with
    | nil => cases h
    | cons answer answers =>
      refine ⟨fun hlt => absurd hlt (Nat.not_lt_zero _), ?_⟩
      rw [Nat.zero_sub]
      exact ih (Nat.succ.inj h)

/-- Every cut stands inside a line: what the state is behind the segments so far. -/
theorem feed_inside {head more p : Bytes} {segments : List Bytes} (hhead : Accepted head)
    {r₁ : HttpRequest} (hone : parseRequest {} (head ++ more) = some (none, r₁))
    (hgo : ∀ t, t ≠ [] → r.parseRequest t = parseRequest {} (p ++ t)) (hp : p.length < head.length)
    (hne : ∀ s ∈ segments, s ≠ []) (hcat : p ++ segments.flatten = head ++ more)
    (hinside : ∀ before after, segments = before ++ after → before ≠ [] →
      (p ++ before.flatten).length < head.length → InsideLine (p ++ before.flatten)) :
    ∃ answers, feed r segments = some (answers, r₁) ∧ Waits (head.length - p.length) segments answers := by
  induction segments generalizing p r with
  | nil =>
    have hlen := congrArg List.length hcat
    simp only [List.flatten_nil, List.append_nil, List.length_append] at hlen
    omega
  | cons s segments ih =>
    obtain ⟨hs, hrest⟩ := List.forall_mem_cons.mp hne
    rw [List.flatten_cons, ← List.append_assoc] at hcat
    by_cases hlt : (p ++ s).length < head.length
    · -- the cut behind `s` is in the head
      have hpre : p ++ s <+: head :=
        List.prefix_of_prefix_length_le ⟨_, hcat⟩ (List.prefix_append head more) hlt.le
      have hps : p ++ s ≠ [] := List.append_ne_nil_of_right_ne_nil p hs
      have hin : InsideLine (p ++ s) := by
        have hcut := hinside [s] segments rfl (List.cons_ne_nil _ _)
        rw [List.flatten_singleton] at hcut
        exact hcut hlt
      obtain ⟨r₂, hr₂⟩ := (again_iff hhead hpre hps hlt).mpr hin
      obtain ⟨answers, hfeed, hwaits⟩ := ih (p := p ++ s) (r := r₂)
        (fun t ht => parseRequest_again hps ht hr₂) hlt hrest hcat
        (fun before after hsplit hbefore hlen => by
          have hcut := hinside (s :: before) after (by rw [hsplit]; rfl) (List.cons_ne_nil _ _)
          rw [List.flatten_cons, ← List.append_assoc] at hcut
          exact hcut hlen)
      refine ⟨retval .eAgain :: answers, ?_, fun _ => rfl, ?_⟩
      · rw [feed, hgo s hs, hr₂, Option.bind_eq_bind, Option.bind_some]
        simp only
        rw [hfeed]
        rfl
      · rwa [Nat.sub_sub, ← List.length_append]
    · -- the head ends in `s`
      obtain ⟨m, hm⟩ : head <+: p ++ s :=
        List.prefix_of_prefix_length_le ⟨more, rfl⟩ ⟨_, hcat⟩ (not_lt.mp hlt)
      have hheadne : head ≠ [] := fun h => by simp [h] at hp
      obtain ⟨-, r₀, hr₀, -⟩ := hhead
      obtain ⟨hdone, hbody⟩ := @parseRequest_done {} r₀ m head hheadne hr₀
      have hmore : more = m ++ segments.flatten := by
        rw [← hm, List.append_assoc] at hcat
        exact (List.append_cancel_left hcat).symm
      have hr₁ : r₁ = extend segments.flatten (extend m r₀) := by
        have hall := (@parseRequest_done {} r₀ more head hheadne hr₀).1
        rw [extend_extend, ← hmore]
        exact congrArg Prod.snd (Option.some.inj (hone.symm.trans hall))
      refine ⟨none :: List.replicate segments.length none, ?_, fun h => ?_, ?_⟩
      · rw [feed, hgo s hs, ← hm, hdone, Option.bind_eq_bind, Option.bind_some]
        simp only
        rw [feed_body (r := extend m r₀) hbody hrest, hr₁]
        rfl
      · rw [List.length_append] at hlt
        omega
      · rw [List.length_append] at hlt
        rw [Nat.sub_sub, Nat.sub_eq_zero_of_le (not_lt.mp hlt)]
        exact waits_zero (List.length_replicate ..)

/-- Behind answers that are as they should be, every cut stands inside a line. -/
theorem inside_of_feed {head more p : Bytes} {segments : List Bytes} (hhead : Accepted head)
    {answers : List Retval} (hgo : ∀ t, t ≠ [] → r.parseRequest t = parseRequest {} (p ++ t))
    (hne : ∀ s ∈ segments, s ≠ []) (hcat : p ++ segments.flatten = head ++ more)
    (hfeed : feed r segments = some (answers, r')) (hwaits : Waits (head.length - p.length) segments answers)
    {before after : List Bytes} (hsplit : segments = before ++ after) (hbefore : before ≠ [])
    (hlen : (p ++ before.flatten).length < head.length) : InsideLine (p ++ before.flatten) := by
  induction segments generalizing p r answers before with
  | nil => exact absurd (List.append_eq_nil_iff.mp hsplit.symm).1 hbefore
  | cons s segments ih =>
    obtain ⟨hs, hrest⟩ := List.forall_mem_cons.mp hne
    rw [List.flatten_cons, ← List.append_assoc] at hcat
    cases before with
    | nil => exact absurd rfl hbefore
    | cons s' before =>
      obtain ⟨rfl, htail⟩ := List.cons.inj hsplit
      rw [List.flatten_cons, ← List.append_assoc] at hlen ⊢
      have hps : p ++ s ≠ [] := List.append_ne_nil_of_right_ne_nil p hs
      have hlt : (p ++ s).length < head.length := by
        rw [List.length_append] at hlen
        omega
      have hpre : p ++ s <+: head :=
        List.prefix_of_prefix_length_le ⟨_, hcat⟩ (List.prefix_append head more) hlt.le
      rw [feed, Option.bind_eq_bind] at hfeed
      obtain ⟨⟨answer, r₂⟩, hparse, hfeed⟩ := Option.bind_eq_some_iff.mp hfeed
      obtain ⟨⟨answers', r₃⟩, hfeed', hfeed⟩ := Option.bind_eq_some_iff.mp hfeed
      obtain ⟨rfl, rfl⟩ := Prod.mk.inj (Option.some.inj hfeed)
      obtain ⟨hanswer, hwaits⟩ := hwaits
      obtain rfl := hanswer (by rw [List.length_append] at hlt; omega)
      rw [hgo s hs] at hparse
      have hin : InsideLine (p ++ s) := (again_iff hhead hpre hps hlt).mp ⟨r₂, hparse⟩
      rcases before with _ | ⟨s', before⟩
      · rwa [List.flatten_nil, List.append_nil]
      · rw [Nat.sub_sub, ← List.length_append] at hwaits
        exact ih (fun t ht => parseRequest_again hps ht hparse) hrest hcat hfeed' hwaits htail
          (List.cons_ne_nil _ _) hlen

/-- A head in segments is read like the head in one piece exactly when every cut in it stands inside a
line, and the lines in front of the cut have their colons there. -/
theorem splitRequest_iff {head more : Bytes} {segments : List Bytes} (hhead : Accepted head)
    (hne : ∀ s ∈ segments, s ≠ []) (hcat : segments.flatten = head ++ more) :
    SplitMet head more segments ↔
      ∀ before after, segments = before ++ after → before ≠ [] →
        before.flatten.length < head.length → InsideLine before.flatten := by
  have hheadne : head ≠ [] := by
    rintro rfl
    obtain ⟨-, r, hr, -⟩ := hhead
    cases congrArg Prod.fst (Option.some.inj hr)
  have hgo : ∀ t, t ≠ [] → parseRequest {} t = parseRequest {} ([] ++ t) := fun _ _ => rfl
  constructor
  · rintro ⟨answers, r, -, hfeed, hwaits, -⟩ before after hsplit hbefore hlen
    exact inside_of_feed hhead hgo hne hcat hfeed hwaits hsplit hbefore hlen
  · intro hinside
    obtain ⟨-, r₀, hr₀, -⟩ := id hhead
    obtain ⟨hone, hbody⟩ := @parseRequest_done {} r₀ more head hheadne hr₀
    obtain ⟨answers, hfeed, hwaits⟩ :=
      feed_inside hhead hone hgo (List.length_pos_of_ne_nil hheadne) hne hcat hinside
    exact ⟨answers, _, _, hfeed, hwaits, hone, hbody, rfl⟩

def exHead : Bytes :=
  bytes "GET / HTTP/1.1" ++ (CRLF ++ (bytes "Host: h" ++ (CRLF ++ CRLF)))

set_option maxRecDepth 20000 in
theorem exHead_accepted : Accepted exHead :=
  ⟨by decide, _, rfl, rfl⟩

set_option maxRecDepth 20000 in
theorem splitRequest_three : SplitMet exHead (bytes "xy")
    [bytes "GE", bytes "T / HTTP/1.1" ++ (CRLF ++ bytes "Ho"), bytes "st: h" ++ (CRLF ++ (CRLF ++ bytes "xy"))] := by
  refine (splitRequest_iff exHead_accepted ?_ rfl).mpr fun before after hsplit hbefore hlen => ?_
  · exact List.forall_mem_cons.mpr ⟨by decide, List.forall_mem_cons.mpr ⟨by decide,
      List.forall_mem_singleton.mpr (by decide)⟩⟩
  rcases before with _ | ⟨a, _ | ⟨b, _ | ⟨c, before⟩⟩⟩
  · exact absurd rfl hbefore
  · obtain ⟨rfl, -⟩ := List.cons.inj hsplit
    exact .inl (by decide)
  · obtain ⟨rfl, hsplit'⟩ := List.cons.inj hsplit
    obtain ⟨rfl, -⟩ := List.cons.inj hsplit'
    exact .inr ⟨bytes "GET / HTTP/1.1", bytes "Ho", rfl, by decide, .part (by decide) (by decide)⟩
  · obtain ⟨rfl, hsplit₁⟩ := List.cons.inj hsplit
    obtain ⟨rfl, hsplit₂⟩ := List.cons.inj hsplit₁
    obtain ⟨rfl, -⟩ := List.cons.inj hsplit₂
    rw [List.flatten_cons, List.flatten_cons, List.flatten_cons, ← List.append_assoc,
      ← List.append_assoc, List.length_append] at hlen
    exact absurd (Nat.lt_of_add_right_lt hlen) (by decide)

set_option maxRecDepth 20000 in
/-- A cut behind the request line. -/
example : feed {} [bytes "GET / HTTP/1.1" ++ CRLF, bytes "Host: h" ++ (CRLF ++ CRLF)] = none := rfl

end HttpRequest

end Dframework
