import Mathlib
import Dframework.Base.Retval
import Dframework.Library.CLib

/-!
# `File`

An open file has a position of its own, which every `::read` and `::write` moves. `m_offset`
is where `File` has last sought to: neither of them moves it, and `File` seeks only when it
is asked for another place than `m_offset`.

What `lseek` answers is looked at as 32 bits. A place whose lower half is all ones is taken
for an error: the position has been moved then, and `m_offset` has not. The number reported
is that of an `errno` which nobody has set.

Results:
1. `read_ready`: what a read does when the file is ready for its place.
2. `file_run_iff`: when the operations of a run do what they are asked for.
-/

namespace Dframework

open CLib

/-- An open file: what it holds, the position of its descriptor, and `m_offset`. -/
structure File where
  content : Bytes
  position : Nat
  offset : Nat
  deriving DecidableEq, Repr

/-- What one `::read` does: it reads up to `n` bytes, or fails. -/
inductive Reading where
  | got (n : Nat)
  | failed (e : Retno)
  deriving DecidableEq, Repr

namespace File

def opened (content : Bytes) : File := ⟨content, 0, 0⟩

/-- `(dfw_uint_t)-1 == res`. -/
def Refused (res : Nat) : Prop := res % 2 ^ 32 = 2 ^ 32 - 1

instance (res : Nat) : Decidable (Refused res) := inferInstanceAs (Decidable (_ = _))

/-- `lseek64` from `base`: the place it goes to. The upper half of the offsets is negative. No
place is behind the largest signed number. -/
def lseek (base o : Nat) : Option Nat :=
  if o < 2 ^ 63 then if base + o < 2 ^ 63 then some (base + o) else none
  else if o < 2 ^ 64 ∧ 2 ^ 64 ≤ base + o ∧ base + o < 2 ^ 64 + 2 ^ 63 then some (base + o - 2 ^ 64)
  else none

/-- The static `File::seek` and `File::lastSeek`, and `m_offset = offset` behind them. -/
def seekFrom (f : File) (base o : Nat) (errno : Retno) : Retval × File :=
  match lseek base o with
  | none => (retval errno, f)
  | some res =>
    if Refused res then (retval errno, { f with position := res })
    else (none, { f with position := res, offset := o })

def seek (f : File) (o : Nat) (errno : Retno) : Retval × File :=
  if o ≠ f.offset then f.seekFrom 0 o errno else (none, f)

/-- `File::lastSeek`: `SEEK_END`. -/
def lastSeek (f : File) (o : Nat) (errno : Retno) : Retval × File :=
  if o ≠ f.offset then f.seekFrom f.content.length o errno else (none, f)

/-- `File::read`: what has been read, what is reported, and the file behind it. -/
def read (f : File) (size o : Nat) (errno : Retno) (r : Reading) : Bytes × Retval × File :=
  match f.seek o errno with
  | (some e, f) => ([], some e, f)
  | (none, f) =>
    match r with
    | .failed e => ([], retval e, f)
    | .got n =>
      let out := ((f.content.drop f.position).take size).take n
      (out, none, { f with position := f.position + out.length })

/-- `data` over what stands from `o` on. What is skipped behind the end is filled with NUL. -/
def overwrite (content : Bytes) (o : Nat) (data : Bytes) : Bytes :=
  if data = [] then content
  else content.take o ++ List.replicate (o - content.length) 0 ++ data ++ content.drop (o + data.length)

def write (f : File) (data : Bytes) (o : Nat) (errno : Retno) : Retval × File :=
  match f.seek o errno with
  | (some e, f) => (some e, f)
  | (none, f) =>
    (none, { f with
      content := overwrite f.content f.position data, position := f.position + data.length })

/-- A read at `o` will find the file there. -/
def Ready (f : File) (o : Nat) : Prop :=
  f.offset = o → f.position = o

variable {f : File} {o : Nat}

theorem lseek_zero (o : Nat) : lseek 0 o = if o < 2 ^ 63 then some o else none := by
  rw [lseek, Nat.zero_add]
  split
  · rfl
  · exact if_neg fun h => absurd h.2.1 h.1.not_ge

theorem lseek_eq_self {base o : Nat} (h : lseek base o = some o) : base = 0 ∧ o < 2 ^ 63 := by
  rw [lseek] at h
  split at h
  next hlt =>
    split at h
    · have := Option.some.inj h
      exact ⟨by omega, hlt⟩
    · cases h
  next =>
    split at h
    · have := Option.some.inj h
      omega
    · cases h

/-- A seek in a file that is ready is refused, or it goes to its place. -/
theorem seek_ready (h : f.Ready o) (errno : Retno) :
    (∃ f', f.seek o errno = (retval errno, f') ∧ f'.content = f.content ∧ f'.Ready o) ∨
      ∃ f', f.seek o errno = (none, f') ∧ f'.content = f.content ∧ f'.position = o := by
  rw [seek]
  split
  next hne =>
    rw [seekFrom, lseek_zero]
    split
    next => exact .inl ⟨_, rfl, rfl, h⟩
    next res hres =>
      split at hres
      · obtain rfl := Option.some.inj hres
        split
        · exact .inl ⟨_, rfl, rfl, fun _ => rfl⟩
        · exact .inr ⟨_, rfl, rfl, rfl⟩
      · cases hres
  next heq => exact .inr ⟨_, rfl, rfl, h (not_not.mp heq).symm⟩

theorem opened_ready (content : Bytes) (o : Nat) : (opened content).Ready o :=
  id

/-- What `File::read` reads, and that it is ready for the bytes behind these. -/
theorem read_ready (h : f.Ready o) (size : Nat) (errno : Retno) (r : Reading) :
    ∃ out ret f', f.read size o errno r = (out, ret, f') ∧ f'.content = f.content ∧
      out = (f.content.drop o).take out.length ∧ out.length ≤ size ∧
      out.length ≤ f.content.length - o ∧ f'.Ready (o + out.length) ∧ (ret ≠ none → out = []) := by
  rcases seek_ready h errno with ⟨f', hseek, hcontent, hready⟩ | ⟨f', hseek, hcontent, hpos⟩
  · refine ⟨[], retval errno, f', ?_, hcontent, rfl, Nat.zero_le _, Nat.zero_le _, hready, fun _ => rfl⟩
    rw [read, hseek]
    rfl
  cases r with
  | failed e =>
    refine ⟨[], retval e, f', ?_, hcontent, rfl, Nat.zero_le _, Nat.zero_le _, fun _ => hpos,
      fun _ => rfl⟩
    rw [read, hseek]
  | got n =>
    have hfront : ((f.content.drop o).take size).take n <+: (f.content.drop o).take size :=
      List.take_prefix _ _
    refine ⟨((f.content.drop o).take size).take n, none, { f' with
      position := o + (((f.content.drop o).take size).take n).length }, ?_, hcontent,
      List.prefix_iff_eq_take.mp (hfront.trans (List.take_prefix _ _)),
      hfront.length_le.trans (List.length_take_le _ _), ?_, fun _ => rfl, fun hne => absurd rfl hne⟩
    · rw [read, hseek]
      simp only [hcontent, hpos]
    · rw [← List.length_drop]
      exact (hfront.trans (List.take_prefix _ _)).length_le

end File

/-! ## Runs -/

/-- The operations on an open file. The system reports no error: a read gets up to `n` bytes.
What `errno` holds is told when a result of `lseek` is taken for one. -/
inductive FileOp where
  | read (size o n : Nat) (errno : Retno)
  | write (data : Bytes) (o : Nat) (errno : Retno)
  | seek (o : Nat) (errno : Retno)
  | lastSeek (o : Nat) (errno : Retno)

namespace File

/-- What an operation reads, what it reports, and the file behind it. -/
def exec (f : File) : FileOp → Bytes × Retval × File
  | .read size o n errno => f.read size o errno (.got n)
  | .write data o errno => ([], f.write data o errno)
  | .seek o errno => ([], f.seek o errno)
  | .lastSeek o errno => ([], f.lastSeek o errno)

/-- What is read from, or written to, the place that is asked for. -/
def asked (f : File) : FileOp → Bytes × Bytes
  | .read size o n _ => (((f.content.drop o).take size).take n, f.content)
  | .write data o _ => ([], overwrite f.content o data)
  | .seek _ _ | .lastSeek _ _ => ([], f.content)

/-- An operation is not refused, it reads and writes at the place it is asked for, and
`m_offset` is the position of the descriptor behind it. -/
def Served (f : File) (op : FileOp) : Prop :=
  ∃ out f', f.exec op = (out, none, f') ∧ (out, f'.content) = f.asked op ∧ f'.offset = f'.position

/-- `File` need not seek to `o`, or `lseek` goes there and its answer is not taken for an error. -/
def Reaches (f : File) (o : Nat) : Prop :=
  o = f.offset ∨ o < 2 ^ 63 ∧ ¬ Refused o

/-- No byte is moved, no seek is refused, and there is no seek behind the end of a file that
holds something. -/
def Stays (f : File) : FileOp → Prop
  | .read size o n _ => f.Reaches o ∧ ((f.content.drop o).take size).take n = []
  | .write data o _ => f.Reaches o ∧ data = []
  | .seek o _ => f.Reaches o
  | .lastSeek o _ => o = f.offset ∨ f.content = [] ∧ o < 2 ^ 63 ∧ ¬ Refused o

/-- `P` holds of every operation of a run and the file it finds. -/
def Every (P : File → FileOp → Prop) (f : File) : List FileOp → Prop
  | [] => True
  | op :: ops => P f op ∧ Every P (f.exec op).2.2 ops

variable {f : File}

theorem seek_synced (h : f.offset = f.position) (o : Nat) (errno : Retno) :
    (f.Reaches o ∧ ∃ f', f.seek o errno = (none, f') ∧ f'.content = f.content ∧ f'.position = o ∧
      f'.offset = o) ∨ (¬ f.Reaches o ∧ ∃ e f', f.seek o errno = (some e, f')) := by
  rw [seek, Reaches]
  split
  next hne =>
    rw [seekFrom, lseek_zero]
    by_cases hlt : o < 2 ^ 63
    · rw [if_pos hlt]
      by_cases href : Refused o
      · exact .inr ⟨fun hr => hr.elim hne fun hr => hr.2 href, _, _, if_pos href⟩
      · exact .inl ⟨.inr ⟨hlt, href⟩, _, if_neg href, rfl, rfl, rfl⟩
    · rw [if_neg hlt]
      exact .inr ⟨fun hr => hr.elim hne fun hr => hlt hr.1, _, _, rfl⟩
  next heq =>
    obtain rfl := not_not.mp heq
    exact .inl ⟨.inl rfl, f, rfl, rfl, h.symm, rfl⟩

theorem not_served {op : FileOp} {out : Bytes} {e : Ret} {f' : File}
    (h : f.exec op = (out, some e, f')) : ¬ f.Served op := by
  rintro ⟨out₁, f₁, hexec, -⟩
  rw [hexec] at h
  cases (Prod.mk.inj (Prod.mk.inj h).2).1

theorem served_of_exec {op : FileOp} {out : Bytes} {f' : File} (h : f.exec op = (out, none, f')) :
    f.Served op ↔ (out, f'.content) = f.asked op ∧ f'.offset = f'.position := by
  constructor
  · rintro ⟨out₁, f₁, hexec, hserved⟩
    rw [hexec] at h
    obtain ⟨rfl, hrest⟩ := Prod.mk.inj h
    obtain rfl := (Prod.mk.inj hrest).2
    exact hserved
  · exact fun hserved => ⟨out, f', h, hserved⟩

/-- One operation, on a file whose `m_offset` is right. -/
theorem served_iff (h : f.offset = f.position) (op : FileOp) : f.Served op ↔ f.Stays op := by
  cases op with
  | read size o n errno =>
    rcases seek_synced h o errno with ⟨hr, f', hseek, hcontent, hpos, hoff⟩ | ⟨hr, e, f', hseek⟩
    · have hexec : f.exec (.read size o n errno) = (((f.content.drop o).take size).take n, none,
          { f' with position := o + (((f.content.drop o).take size).take n).length }) := by
        rw [exec, read, hseek]
        simp only [hcontent, hpos]
      rw [served_of_exec hexec, Stays, and_iff_right hr]
      have hasked : (((f.content.drop o).take size).take n, f'.content) =
          f.asked (.read size o n errno) := by rw [hcontent]; rfl
      rw [and_iff_right hasked]
      show f'.offset = o + _ ↔ _
      rw [hoff, ← List.length_eq_zero_iff]
      omega
    · have hexec : f.exec (.read size o n errno) = ([], some e, f') := by rw [exec, read, hseek]
      exact iff_of_false (not_served hexec) fun hs => hr hs.1
  | write data o errno =>
    rcases seek_synced h o errno with ⟨hr, f', hseek, hcontent, hpos, hoff⟩ | ⟨hr, e, f', hseek⟩
    · have hexec : f.exec (.write data o errno) = ([], none, { f' with
          content := overwrite f.content o data, position := o + data.length }) := by
        rw [exec, write, hseek]
        simp only [hcontent, hpos]
      rw [served_of_exec hexec, Stays, and_iff_right hr]
      show ([], overwrite f.content o data) = ([], overwrite f.content o data) ∧ f'.offset = o + _ ↔ _
      rw [and_iff_right rfl, hoff, ← List.length_eq_zero_iff]
      omega
    · have hexec : f.exec (.write data o errno) = ([], some e, f') := by rw [exec, write, hseek]
      exact iff_of_false (not_served hexec) fun hs => hr hs.1
  | seek o errno =>
    rcases seek_synced h o errno with ⟨hr, f', hseek, hcontent, hpos, hoff⟩ | ⟨hr, e, f', hseek⟩
    · have hexec : f.exec (.seek o errno) = ([], none, f') := by rw [exec, hseek]
      refine iff_of_true ((served_of_exec hexec).mpr ⟨?_, hoff.trans hpos.symm⟩) hr
      rw [hcontent]
      rfl
    · have hexec : f.exec (.seek o errno) = ([], some e, f') := by rw [exec, hseek]
      exact iff_of_false (not_served hexec) hr
  | lastSeek o errno =>
    by_cases heq : o = f.offset
    · have hexec : f.exec (.lastSeek o errno) = ([], none, f) := by
        rw [exec, lastSeek, if_neg (not_not.mpr heq)]
      exact iff_of_true ((served_of_exec hexec).mpr ⟨rfl, h⟩) (.inl heq)
    · have hseek : f.lastSeek o errno = f.seekFrom f.content.length o errno := if_pos heq
      rw [Stays, or_iff_right heq]
      rw [seekFrom] at hseek
      rcases hplace : lseek f.content.length o with _ | res
      · rw [hplace] at hseek
        have hexec : f.exec (.lastSeek o errno) = ([], retval errno, f) := by rw [exec, hseek]
        refine iff_of_false (not_served hexec) ?_
        rintro ⟨hnil, hlt, -⟩
        rw [hnil, List.length_nil, lseek_zero, if_pos hlt] at hplace
        cases hplace
      · simp only [hplace] at hseek
        by_cases href : Refused res
        · rw [if_pos href] at hseek
          have hexec : f.exec (.lastSeek o errno) = ([], retval errno, { f with position := res }) := by
            rw [exec, hseek]
          refine iff_of_false (not_served hexec) ?_
          rintro ⟨hnil, hlt, hok⟩
          rw [hnil, List.length_nil, lseek_zero, if_pos hlt] at hplace
          exact hok (Option.some.inj hplace ▸ href)
        · rw [if_neg href] at hseek
          have hexec : f.exec (.lastSeek o errno) =
              ([], none, { f with position := res, offset := o }) := by rw [exec, hseek]
          rw [served_of_exec hexec]
          show ([], f.content) = ([], f.content) ∧ o = res ↔ _
          rw [and_iff_right rfl]
          -- the end of the file is in front of `o` only when it is empty
          constructor
          · rintro rfl
            obtain ⟨hlen, hlt⟩ := lseek_eq_self hplace
            exact ⟨List.length_eq_zero_iff.mp hlen, hlt, href⟩
          · rintro ⟨hnil, hlt, -⟩
            rw [hnil, List.length_nil, lseek_zero, if_pos hlt] at hplace
            exact Option.some.inj hplace

end File

/-- In a run on a file that has just been opened, every operation does what it is asked for
and leaves `m_offset` right, if and only if no operation moves a byte, none seeks behind the end
of a file that is not empty, and no place sought to has a lower half of ones. -/
theorem file_run_iff (content : Bytes) (ops : List FileOp) :
    (File.opened content).Every File.Served ops ↔ (File.opened content).Every File.Stays ops := by
  suffices h : ∀ f : File, f.offset = f.position → (f.Every File.Served ops ↔ f.Every File.Stays ops)
    from h _ rfl
  induction ops with
  | nil => exact fun f _ => Iff.rfl
  | cons op ops ih =>
    intro f h
    rw [File.Every, File.Every, File.served_iff h]
    refine and_congr_right fun hstays => ih _ ?_
    obtain ⟨out, f', hexec, -, hsynced⟩ := (File.served_iff h op).mpr hstays
    rw [hexec]
    exact hsynced

/-- The first byte, read twice: what comes the second time is the second one. -/
theorem not_file_run : ¬ (File.opened (bytes "ab")).Every File.Served
    [.read 1 0 1 .ok, .read 1 0 1 .ok] := by
  rintro ⟨-, ⟨out, f', hexec, hasked, -⟩, -⟩
  obtain rfl : bytes "b" = out := (Prod.mk.inj hexec).1
  exact absurd (Prod.mk.inj hasked).1 (by decide)

end Dframework
