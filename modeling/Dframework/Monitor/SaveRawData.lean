import Mathlib
import Dframework.Io.FileSave
import Dframework.Monitor.FixedRecords

/-!
# Saving the records of a monitor

`MonBase::saveRawData` writes the lines of the records, the last one first, into a temporary file,
and puts that in the place of the raw file. The temporary file is opened without being cut, and
the raw file is removed before the temporary one takes its name. Every state that the disc is in
on the way is one that a process which stops there leaves behind.

Results:
1. `saveLines_content`: what is in the temporary file behind all records.
2. `replaceTempFile_bare`, `replaceTempFile_removes`: what happens to the raw file when the
   temporary one is to take its place.
3. `saveRawData_safe_iff`: when a stop leaves the old or the new file.
-/

namespace Dframework

open CLib File

/-- The raw file and the temporary one, where they are. -/
structure RawDisc where
  raw : Option Bytes
  temp : Option Bytes
  deriving DecidableEq, Repr

/-- What the system answers to a `saveRawData`: to making the directory and opening the temporary
file, to each `::write`, to removing and to renaming. -/
structure RawAnswers where
  opening : Option Retno
  writes : Nat → Writing
  removed : Option Retno
  renamed : Option Retno

section

variable {α : Type} (getRawString : α → Option Bytes)

/-- The loop of `saveRawData`: the records in the order they are written. A size has 32 bits. -/
def saveLines (writes : Nat → Writing) (k : Nat) (f : File) : List α → Written
  | [] => ⟨none, k, f, []⟩
  | b :: rest =>
    match getRawString b with
    | none => ⟨retvalMsg .error "Has not raw string.", k, f, []⟩
    | some s =>
      let w := writeLoop writes k f (s.take (s.length % 2 ^ 32))
      match w.ret with
      | some e => { w with ret := some e }
      | none =>
        let r := saveLines writes w.next w.file rest
        { r with states := w.states ++ r.states }

/-- `MonBase::replaceTempFile`: what it answers, and the states of the disc. -/
def replaceTempFile (answers : RawAnswers) (d : RawDisc) : Retval × List RawDisc :=
  let rename (d : RawDisc) : Retval × List RawDisc :=
    match answers.renamed with
    | some e => (retval e, [])
    | none => (none, [{ raw := d.temp, temp := none }])
  if d.raw.isSome then
    match answers.removed with
    | some e => (retval e, [])
    | none =>
      let bare : RawDisc := { d with raw := none }
      ((rename bare).1, bare :: (rename bare).2)
  else rename d

/-- The states of the disc from the opening of the temporary file on, before it is renamed. -/
def tempStates (f : File) (w : Written) (d : RawDisc) : List RawDisc :=
  (f :: w.states).map fun f => { d with temp := some f.content }

/-- `MonBase::saveRawData` of the records `aLists`: what it answers, and the states of the disc. -/
def saveRawData (answers : RawAnswers) (aLists : List α) (d : RawDisc) : Retval × List RawDisc :=
  match answers.opening with
  | some e => (retval e, [])
  | none =>
    let f := opened (d.temp.getD [])
    let w := saveLines getRawString answers.writes 0 f aLists.reverse
    match w.ret with
    | some e => (some e, tempStates f w d)
    | none =>
      let r := replaceTempFile answers { d with temp := some w.file.content }
      (r.1, tempStates f w d ++ r.2)

/-! ## What is written -/

def rawLines (aLists : List α) : List Bytes :=
  aLists.reverse.filterMap getRawString

/-- The bytes of a line that `File::write` is given. -/
def sized (s : Bytes) : Bytes :=
  s.take (s.length % 2 ^ 32)

variable {getRawString}
variable {writes : Nat → Writing} {k : Nat} {f : File} {l aLists : List α}

/-- When all records are written, each has a line, and the lines stand one behind another. -/
theorem saveLines_content (h : f.position ≤ f.content.length)
    (hret : (saveLines getRawString writes k f l).ret = none) :
    (∀ b ∈ l, getRawString b ≠ none) ∧
      (saveLines getRawString writes k f l).file =
        f.put ((l.filterMap getRawString).map sized).flatten := by
  induction l generalizing k f with
  | nil => exact ⟨fun _ hb => (List.not_mem_nil hb).elim, rfl⟩
  | cons b l ih =>
    cases hline : getRawString b with
    | none =>
      rw [saveLines, hline] at hret
      cases hret
    | some s =>
      cases hw : (writeLoop writes k f (sized s)).ret with
      | some e =>
        simp only [saveLines, hline, sized] at hret hw
        rw [hw] at hret
        cases hret
      | none =>
        have hstep : saveLines getRawString writes k f (b :: l) =
            { saveLines getRawString writes (writeLoop writes k f (sized s)).next
                (writeLoop writes k f (sized s)).file l with
              states := (writeLoop writes k f (sized s)).states ++
                (saveLines getRawString writes (writeLoop writes k f (sized s)).next
                  (writeLoop writes k f (sized s)).file l).states } := by
          simp only [saveLines, hline, sized] at hw ⊢
          rw [hw]
        rw [hstep] at hret ⊢
        have hput := writeLoop_content h hw
        obtain ⟨hall, hfile⟩ := ih (hput ▸ put_bound h _) hret
        refine ⟨?_, ?_⟩
        · intro c hc
          rcases List.mem_cons.mp hc with rfl | hc
          · rw [hline]
            exact Option.some_ne_none s
          · exact hall c hc
        · rw [List.filterMap_cons_some hline, List.map_cons, List.flatten_cons, ← put_put h, ← hput]
          exact hfile

theorem saveLines_succeeds (hwrites : ∀ k, writes k = .wrote 0)
    (hlines : ∀ b ∈ l, getRawString b ≠ none) :
    (saveLines getRawString writes k f l).ret = none := by
  induction l generalizing k f with
  | nil => rfl
  | cons b l ih =>
    obtain ⟨s, hs⟩ := Option.ne_none_iff_exists'.mp (hlines b List.mem_cons_self)
    have hw : (writeLoop writes k f (s.take (s.length % 2 ^ 32))).ret = none :=
      writeLoop_succeeds hwrites
    simp only [saveLines, hs]
    rw [hw]
    exact ih fun b hb => hlines b (List.mem_cons_of_mem _ hb)

/-! ## What takes the place of the raw file -/

variable {answers : RawAnswers} {d d' : RawDisc}

/-- Without a raw file there is none until the temporary one has its name. -/
theorem replaceTempFile_bare (hraw : d.raw = none) :
    (∀ d' ∈ (replaceTempFile answers d).2, d'.raw = d.temp) ∧
      ((replaceTempFile answers d).1 = none →
        (replaceTempFile answers d).2.getLast? = some ⟨d.temp, none⟩) := by
  simp only [replaceTempFile, hraw]
  cases answers.renamed with
  | some e => exact ⟨fun d' hd' => (List.not_mem_nil hd').elim, fun hret => nomatch hret⟩
  | none =>
    refine ⟨fun d' hd' => ?_, fun _ => rfl⟩
    rw [List.mem_singleton.mp hd']

/-- With one there is a state without any. -/
theorem replaceTempFile_removes (hraw : d.raw ≠ none) (hremoved : answers.removed = none) :
    ∃ d' ∈ (replaceTempFile answers d).2, d'.raw = none := by
  have hsome : d.raw.isSome := Option.isSome_iff_ne_none.mpr hraw
  refine ⟨{ d with raw := none }, ?_, rfl⟩
  simp only [replaceTempFile, hsome, hremoved, if_true]
  exact List.mem_cons_self

/-- What is in the temporary file when the lines of all records are written over it. -/
def overTemp (getRawString : α → Option Bytes) (aLists : List α) (d : RawDisc) : Bytes :=
  ((rawLines getRawString aLists).map sized).flatten ++
    (d.temp.getD []).drop ((rawLines getRawString aLists).map sized).flatten.length

theorem sized_of_lt {s : Bytes} (h : s.length < 2 ^ 32) : sized s = s := by
  rw [sized, Nat.mod_eq_of_lt h, List.take_length]

/-- The lines cover the temporary file: it is not longer than all of them. Of a line of 2^32 bytes
and more only a part is written, and the file must have had what is missing. -/
def Covers (lines : List Bytes) (temp : Bytes) : Prop :=
  if ∀ s ∈ lines, s.length < 2 ^ 32 then temp.length ≤ lines.flatten.length
  else (lines.map sized).flatten ++ temp.drop (lines.map sized).flatten.length = lines.flatten

theorem overTemp_eq_iff :
    overTemp getRawString aLists d = (rawLines getRawString aLists).flatten ↔
      Covers (rawLines getRawString aLists) (d.temp.getD []) := by
  rw [overTemp, Covers]
  split_ifs with hlines
  · have hsized : (rawLines getRawString aLists).map sized = rawLines getRawString aLists :=
      (List.map_congr_left fun s hs => sized_of_lt (hlines s hs)).trans (List.map_id _)
    rw [hsized, List.append_right_eq_self, List.drop_eq_nil_iff]
  · rfl

theorem raw_of_mem_tempStates {w : Written} (hd' : d' ∈ tempStates f w d) : d'.raw = d.raw := by
  obtain ⟨f, _, rfl⟩ := List.mem_map.mp hd'
  rfl

theorem saveRawData_written {w : Written} (hopen : answers.opening = none)
    (hw : w = saveLines getRawString answers.writes 0 (opened (d.temp.getD [])) aLists.reverse)
    (hret : w.ret = none) :
    (∀ b ∈ aLists, getRawString b ≠ none) ∧
      saveRawData getRawString answers aLists d =
        ((replaceTempFile answers { d with temp := some (overTemp getRawString aLists d) }).1,
          tempStates (opened (d.temp.getD [])) w d ++
            (replaceTempFile answers { d with temp := some (overTemp getRawString aLists d) }).2) := by
  have hle : (opened (d.temp.getD [])).position ≤ (opened (d.temp.getD [])).content.length :=
    Nat.zero_le _
  obtain ⟨hall, hfile⟩ := saveLines_content hle (hw ▸ hret)
  rw [← hw] at hfile
  have hover : w.file.content = overTemp getRawString aLists d := by
    rw [hfile]
    show overwrite (d.temp.getD []) 0 _ = _
    rw [overwrite_inside (Nat.zero_le _), List.take_zero, List.nil_append, Nat.zero_add]
    rfl
  refine ⟨fun b hb => hall b (List.mem_reverse.mpr hb), ?_⟩
  simp only [saveRawData, hopen, ← hw, hret, hover]

/-- What a saving is for: every stop leaves the old raw file or all of the new lines, and one that
is not stopped leaves the new lines. -/
def SafelySaved (getRawString : α → Option Bytes) (aLists : List α) (d : RawDisc) : Prop :=
  ∀ answers,
    (∀ d' ∈ (saveRawData getRawString answers aLists d).2,
      d'.raw = d.raw ∨ d'.raw = some (rawLines getRawString aLists).flatten) ∧
    ((saveRawData getRawString answers aLists d).1 = none →
      ∃ d', (saveRawData getRawString answers aLists d).2.getLast? = some d' ∧
        d'.raw = some (rawLines getRawString aLists).flatten)

/-- A saving is safe exactly when some record has no line, so that the raw file is never touched, or
there was no raw file and the lines cover the temporary one. -/
theorem saveRawData_safe_iff (getRawString : α → Option Bytes) (aLists : List α) (d : RawDisc) :
    SafelySaved getRawString aLists d ↔
      (∃ b ∈ aLists, getRawString b = none) ∨
        d.raw = none ∧ Covers (rawLines getRawString aLists) (d.temp.getD []) := by
  rw [← overTemp_eq_iff]
  constructor
  · intro hsafe
    by_cases hmissing : ∃ b ∈ aLists, getRawString b = none
    · exact .inl hmissing
    right
    push Not at hmissing
    -- the system refuses nothing, and writes byte by byte
    let answers : RawAnswers := ⟨none, fun _ => .wrote 0, none, none⟩
    obtain ⟨_, hsaved⟩ := @saveRawData_written α getRawString aLists answers d _ rfl rfl
      (saveLines_succeeds (fun _ => rfl) fun b hb => hmissing b (List.mem_reverse.mp hb))
    obtain ⟨hstates, hdone⟩ := hsafe answers
    rw [hsaved] at hstates hdone
    have hraw : d.raw = none := by
      by_contra hraw
      obtain ⟨d', hd', hnone⟩ := @replaceTempFile_removes answers
        { d with temp := some (overTemp getRawString aLists d) } hraw rfl
      rcases hstates d' (List.mem_append_right _ hd') with hold | hnew
      · exact hraw (hold.symm.trans hnone)
      · rw [hnone] at hnew
        cases hnew
    refine ⟨hraw, ?_⟩
    have hret : (replaceTempFile answers { d with temp := some (overTemp getRawString aLists d) }).1 =
        none := by
      simp only [replaceTempFile, hraw, answers]
      rfl
    obtain ⟨d', hlast, hnew⟩ := hdone hret
    have hrenamed := (@replaceTempFile_bare answers
      { d with temp := some (overTemp getRawString aLists d) } hraw).2 hret
    rw [List.getLast?_append, hrenamed, Option.some_or] at hlast
    obtain rfl := Option.some.inj hlast
    exact Option.some.inj hnew
  · intro hcondition answers
    cases hopen : answers.opening with
    | some e =>
      simp only [saveRawData, hopen]
      exact ⟨fun d' hd' => (List.not_mem_nil hd').elim, fun hret => nomatch hret⟩
    | none =>
      generalize hw : saveLines getRawString answers.writes 0 (opened (d.temp.getD []))
        aLists.reverse = w
      cases hret : w.ret with
      | some e =>
        simp only [saveRawData, hopen, hw, hret]
        exact ⟨fun d' hd' => .inl (raw_of_mem_tempStates hd'), fun hnone => nomatch hnone⟩
      | none =>
        obtain ⟨hall, hsaved⟩ := saveRawData_written hopen hw.symm hret
        obtain ⟨hraw, hover⟩ := hcondition.resolve_left fun ⟨b, hb, hnone⟩ => hall b hb hnone
        obtain ⟨hbare, hlast⟩ := @replaceTempFile_bare answers
          { d with temp := some (overTemp getRawString aLists d) } hraw
        rw [hsaved]
        refine ⟨fun d' hd' => ?_, fun hdone => ?_⟩
        · rcases List.mem_append.mp hd' with hd' | hd'
          · exact .inl (raw_of_mem_tempStates hd')
          · exact .inr ((hbare d' hd').trans (congrArg some hover))
        · refine ⟨⟨some (overTemp getRawString aLists d), none⟩, ?_, congrArg some hover⟩
          rw [List.getLast?_append, hlast hdone]
          rfl

/-- A raw file is there, and one record to save: none is there between the removing and the
renaming. -/
theorem not_saveRawData_safe : ¬ ∀ (aLists : List MonPacket) (d : RawDisc),
    SafelySaved (fun m => some m.getRawString) aLists d := by
  intro hsafe
  let d : RawDisc := ⟨some (bytes "old\n"), none⟩
  let answers : RawAnswers := ⟨none, fun _ => .wrote 0, none, none⟩
  obtain ⟨_, hsaved⟩ := @saveRawData_written MonPacket (fun m => some m.getRawString)
    [{ sec := 5 }] answers d _ rfl rfl
    (saveLines_succeeds (fun _ => rfl) fun _ _ => Option.some_ne_none _)
  obtain ⟨hstates, _⟩ := hsafe [{ sec := 5 }] d answers
  obtain ⟨d', hd', hnone⟩ := @replaceTempFile_removes answers
    { d with temp := some (overTemp (fun m : MonPacket => some m.getRawString) [{ sec := 5 }] d) }
    (Option.some_ne_none _) rfl
  rw [hsaved] at hstates
  rcases hstates d' (List.mem_append_right _ hd') with hold | hnew
  · exact Option.some_ne_none _ (hold.symm.trans hnone)
  · exact Option.some_ne_none _ (hnew.symm.trans hnone)

end

end Dframework
