import Mathlib
import Dframework.Io.File

/-!
# Saving and reading a whole file

`File::save` opens the file for writing, which makes it where it was not and cuts nothing off where
it was, and writes until nothing is left. `File::contents` reads on until there is nothing more.
The system writes and reads as much as it likes at a time, one byte at least.

Results:
1. `saveLoop_content`, `writeLoop_content`: what is in the file when all has been written.
2. `contentsLoop_eq`: what is read from a file.
3. `save_contents_iff`: when what was saved is what is read.
-/

namespace Dframework

open CLib

/-- What one `::write` does: it writes `n + 1` bytes, or all when there are not so many, or it
fails. -/
inductive Writing where
  | wrote (n : Nat)
  | failed (e : Retno)
  deriving DecidableEq, Repr

namespace File

/-- The file behind a `::write` of `data` at its position. -/
def put (f : File) (data : Bytes) : File :=
  { f with content := overwrite f.content f.position data, position := f.position + data.length }

theorem length_drop_lt {left : Bytes} {n : Nat} (hmore : ¬ left.drop (n + 1) = []) :
    (left.drop (n + 1)).length < left.length := by
  have hpos := List.length_pos_of_ne_nil hmore
  rw [List.length_drop] at hpos ⊢
  omega

/-- The loop of `File::save`. As many bytes as make -1 of 32 bits are taken for an error, of which
nobody knows the number. -/
def saveLoop (writes : Nat → Writing) (k : Nat) (f : File) (left : Bytes) : Retval × File :=
  match writes k with
  | .failed e => (retval e, f)
  | .wrote n =>
    let send := left.take (n + 1)
    if send.length = 2 ^ 32 - 1 then (retval .error, f.put send)
    else if send = [] then (none, f)
    else if left.drop (n + 1) = [] then (none, f.put send)
    else saveLoop writes (k + 1) (f.put send) (left.drop (n + 1))
termination_by left.length
decreasing_by
  exact length_drop_lt ‹_›

/-- What `File::write` answers, the `::write` that comes next, the file behind it, and the states of
the file behind each `::write`. -/
structure Written where
  ret : Retval
  next : Nat
  file : File
  states : List File

/-- The loop of the static `File::write`, which writes where the descriptor stands. -/
def writeLoop (writes : Nat → Writing) (k : Nat) (f : File) (left : Bytes) : Written :=
  match writes k with
  | .failed e => ⟨retval e, k + 1, f, []⟩
  | .wrote n =>
    let send := left.take (n + 1)
    if send.length = 2 ^ 32 - 1 then ⟨retval .error, k + 1, f.put send, [f.put send]⟩
    else if left.drop (n + 1) = [] then ⟨none, k + 1, f.put send, [f.put send]⟩
    else
      let r := writeLoop writes (k + 1) (f.put send) (left.drop (n + 1))
      { r with states := f.put send :: r.states }
termination_by left.length
decreasing_by
  exact length_drop_lt ‹_›

/-- `File::save(const char*, unsigned, const char*)` of a file that need not be there: what it
answers, and the file behind it. The answer of `open` is `opening`. -/
def save (opening : Option Retno) (writes : Nat → Writing) (buf : Bytes) (size : UInt32)
    (file : Option Bytes) : Retval × Option Bytes :=
  match opening with
  | some e => (retval e, file)
  | none =>
    let r := saveLoop writes 0 (opened (file.getD [])) (buf.take size.toNat)
    (r.1, some r.2.content)

/-- `File::save(const String&, const char*)`. -/
def saveString (opening : Option Retno) (writes : Nat → Writing) (buf : Bytes)
    (file : Option Bytes) : Retval × Option Bytes :=
  save opening writes buf (UInt32.ofNat buf.length) file

/-- The loop of `File::contents`: `n + 1` bytes are read, if there are so many and they fit. -/
def contentsLoop (reads : Nat → Reading) (k : Nat) (f : File) (contents : Bytes) : Retval × Bytes :=
  match reads k with
  | .failed e => (retval e, contents)
  | .got n =>
    let recv := ((f.content.drop f.position).take 4096).take (n + 1)
    if recv = [] then (none, contents)
    else contentsLoop reads (k + 1) { f with position := f.position + recv.length } (contents ++ recv)
termination_by f.content.length - f.position
decreasing_by
  rename_i hne
  have hpos := List.length_pos_of_ne_nil hne
  have hle : recv.length ≤ f.content.length - f.position := by
    rw [← List.length_drop]
    exact ((List.take_sublist _ _).trans (List.take_sublist _ _)).length_le
  show f.content.length - (f.position + recv.length) < _
  omega

/-- `File::contents` into a `String` that holds `contents`. -/
def contents (opening : Option Retno) (reads : Nat → Reading) (contents : Bytes)
    (file : Option Bytes) : Retval × Bytes :=
  match opening, file with
  | some e, _ => (retval e, contents)
  | none, none => (retval .eNoent, contents)
  | none, some content => contentsLoop reads 0 (opened content) contents

/-! ## Writing -/

section

variable {f f' : File} {a b left : Bytes} {k : Nat} {writes : Nat → Writing}

theorem overwrite_inside {content : Bytes} {o : Nat} (h : o ≤ content.length) (data : Bytes) :
    overwrite content o data = content.take o ++ data ++ content.drop (o + data.length) := by
  unfold overwrite
  split
  next hempty =>
    rw [hempty, List.append_nil]
    exact (List.take_append_drop o content).symm
  next => rw [Nat.sub_eq_zero_of_le h, List.replicate_zero, List.append_nil]

theorem put_nil (f : File) : f.put [] = f :=
  rfl

theorem put_bound (h : f.position ≤ f.content.length) (a : Bytes) :
    (f.put a).position ≤ (f.put a).content.length := by
  show f.position + a.length ≤ (overwrite f.content f.position a).length
  rw [overwrite_inside h, List.length_append, List.length_append, List.length_take_of_le h]
  exact Nat.le_add_right _ _

/-- Two writes one after another are one write. -/
theorem put_put (h : f.position ≤ f.content.length) (a b : Bytes) :
    (f.put a).put b = f.put (a ++ b) := by
  have hlen : (f.content.take f.position ++ a).length = f.position + a.length := by
    rw [List.length_append, List.length_take_of_le h]
  have hput : (f.put a).content = f.content.take f.position ++ a ++
      f.content.drop (f.position + a.length) := overwrite_inside h a
  have htake : (f.put a).content.take (f.position + a.length) = f.content.take f.position ++ a := by
    rw [hput, ← hlen, List.take_left]
  have hdrop : (f.put a).content.drop (f.position + a.length + b.length) =
      f.content.drop (f.position + a.length + b.length) := by
    rw [hput, ← List.drop_drop, ← hlen, List.drop_left, List.drop_drop]
  have hcontent : overwrite (f.put a).content (f.put a).position b =
      overwrite f.content f.position (a ++ b) := by
    rw [overwrite_inside (put_bound h a), overwrite_inside h, List.length_append, ← Nat.add_assoc,
      ← List.append_assoc, ← htake, ← hdrop]
    rfl
  have hposition : (f.put a).position + b.length = f.position + (a ++ b).length := by
    rw [List.length_append, ← Nat.add_assoc]
    rfl
  show File.mk _ _ _ = File.mk _ _ _
  rw [hcontent, hposition]
  rfl

theorem take_of_drop_nil {n : Nat} (hall : left.drop n = []) : left.take n = left := by
  have := List.take_append_drop n left
  rwa [hall, List.append_nil] at this

/-- What has been written when the loop ends well. -/
theorem saveLoop_content (h : f.position ≤ f.content.length)
    (hsave : saveLoop writes k f left = (none, f')) : f' = f.put left := by
  induction hlen : left.length using Nat.strong_induction_on generalizing k f left with
  | _ len ih =>
  rw [saveLoop] at hsave
  cases hwrite : writes k with
  | failed e =>
    rw [hwrite] at hsave
    cases (Prod.mk.inj hsave).1
  | wrote n =>
    rw [hwrite] at hsave
    simp only at hsave
    split at hsave
    · cases (Prod.mk.inj hsave).1
    · split at hsave
      next hnil =>
        -- nothing was left at all
        have hleft : left = [] := by
          cases left with
          | nil => rfl
          | cons c left => cases hnil
        rw [← (Prod.mk.inj hsave).2, hleft, put_nil]
      next hne =>
        split at hsave
        next hall => rw [← (Prod.mk.inj hsave).2, take_of_drop_nil hall]
        next hmore =>
          have hshort : (left.drop (n + 1)).length < len := hlen ▸ length_drop_lt hmore
          rw [ih _ hshort (put_bound h _) hsave rfl, put_put h, List.take_append_drop]

/-- The loop ends well when the system writes byte by byte. -/
theorem saveLoop_succeeds (hwrites : ∀ k, writes k = .wrote 0) :
    (saveLoop writes k f left).1 = none := by
  induction left generalizing k f with
  | nil =>
    rw [saveLoop, hwrites]
    rfl
  | cons c left ih =>
    rw [saveLoop, hwrites]
    have hsend : (c :: left).take (0 + 1) = [c] := rfl
    simp only [hsend, List.length_singleton]
    rw [if_neg (by norm_num), if_neg (List.cons_ne_nil c [])]
    split
    · rfl
    · exact ih

/-- What has been written when `File::write` ends well. -/
theorem writeLoop_content (h : f.position ≤ f.content.length)
    (hwrite : (writeLoop writes k f left).ret = none) :
    (writeLoop writes k f left).file = f.put left := by
  induction hlen : left.length using Nat.strong_induction_on generalizing k f left with
  | _ len ih =>
  rw [writeLoop] at hwrite ⊢
  cases hk : writes k with
  | failed e =>
    rw [hk] at hwrite
    cases hwrite
  | wrote n =>
    rw [hk] at hwrite
    simp only at hwrite ⊢
    split at hwrite
    · cases hwrite
    next hshort =>
      rw [if_neg hshort]
      split at hwrite
      next hall => rw [if_pos hall, take_of_drop_nil hall]
      next hmore =>
        rw [if_neg hmore]
        have hless : (left.drop (n + 1)).length < len := hlen ▸ length_drop_lt hmore
        exact (ih _ hless (put_bound h _) hwrite rfl).trans
          (by rw [put_put h, List.take_append_drop])

theorem writeLoop_succeeds (hwrites : ∀ k, writes k = .wrote 0) :
    (writeLoop writes k f left).ret = none := by
  induction left generalizing k f with
  | nil =>
    rw [writeLoop, hwrites]
    rfl
  | cons c left ih =>
    rw [writeLoop, hwrites]
    have hsend : (c :: left).take (0 + 1) = [c] := rfl
    simp only [hsend, List.length_singleton]
    rw [if_neg (by norm_num)]
    split
    · rfl
    · exact ih

end

/-! ## Reading -/

section

variable {f : File} {k : Nat} {reads : Nat → Reading}

/-- A file is read to its end, when no read fails. -/
theorem contentsLoop_eq (hreads : ∀ k, ∃ n, reads k = .got n) (contents : Bytes) :
    contentsLoop reads k f contents = (none, contents ++ f.content.drop f.position) := by
  induction hlen : (f.content.drop f.position).length using Nat.strong_induction_on
    generalizing k f contents with
  | _ len ih =>
  obtain ⟨n, hn⟩ := hreads k
  rw [contentsLoop, hn]
  simp only
  split
  next hnil =>
    have hend : f.content.drop f.position = [] := by
      cases hdrop : f.content.drop f.position with
      | nil => rfl
      | cons c rest =>
        rw [hdrop] at hnil
        cases hnil
    rw [hend, List.append_nil]
  next hne =>
    let recv := ((f.content.drop f.position).take 4096).take (n + 1)
    have hpos : 0 < recv.length := List.length_pos_of_ne_nil hne
    have hrecv : recv <+: f.content.drop f.position :=
      (List.take_prefix _ _).trans (List.take_prefix _ _)
    have hrest : f.content.drop f.position = recv ++ f.content.drop (f.position + recv.length) := by
      obtain ⟨rest, hsplit⟩ := hrecv
      have hdrop : (f.content.drop f.position).drop recv.length = rest := by
        rw [← hsplit, List.drop_left]
      rw [List.drop_drop] at hdrop
      rw [hdrop, hsplit]
    have hshort : (f.content.drop (f.position + recv.length)).length < len := by
      rw [← hlen, hrest, List.length_append]
      omega
    have hnext := @ih _ hshort { f with position := f.position + recv.length } (k + 1)
      (contents ++ recv) rfl
    refine hnext.trans ?_
    show (none, contents ++ recv ++ f.content.drop (f.position + recv.length)) = _
    rw [List.append_assoc, ← hrest]

/-- A file that the system lets be read is read as it is. -/
theorem contents_eq (hreads : ∀ k, ∃ n, reads k = .got n) (content : Bytes) :
    contents none reads [] (some content) = (none, content) :=
  contentsLoop_eq hreads []

end

/-! ## What was saved is read -/

section

variable {opening : Option Retno} {writes : Nat → Writing} {buf : Bytes} {old file : Option Bytes}

/-- What is in the file when the saving succeeds: what is left of the old content comes behind. -/
theorem saveString_content (hsave : saveString opening writes buf old = (none, file)) :
    file = some (buf.take (buf.length % 2 ^ 32) ++ (old.getD []).drop (buf.length % 2 ^ 32)) := by
  cases opening with
  | some e => cases (Prod.mk.inj hsave).1
  | none =>
    obtain ⟨hret, hfile⟩ := Prod.mk.inj hsave
    have hle : (opened (old.getD [])).position ≤ (opened (old.getD [])).content.length :=
      Nat.zero_le _
    have hput := saveLoop_content hle (Prod.ext hret rfl)
    have hsize : (UInt32.ofNat buf.length).toNat = buf.length % 2 ^ 32 := UInt32.toNat_ofNat ..
    refine hfile.symm.trans ((congrArg (fun f => some f.content) hput).trans ?_)
    rw [hsize]
    show some (overwrite (old.getD []) 0 _) = _
    rw [overwrite_inside (Nat.zero_le _), List.take_zero, List.nil_append, Nat.zero_add,
      List.length_take_of_le (Nat.mod_le _ _)]

/-- What is saved can be read again, whatever the system does on the way. -/
def RoundTrips (old : Option Bytes) (buf : Bytes) : Prop :=
  ∀ opening writes reads file, saveString opening writes buf old = (none, file) →
    (∀ k, ∃ n, reads k = .got n) → contents none reads [] file = (none, buf)

/-- A saving that succeeds can be read again exactly when the old content, or no content of a file
that was absent, has behind the bytes that are saved what the new one has there: it is not longer
than a new one of less than 2^32 bytes. -/
theorem save_contents_iff (old : Option Bytes) (buf : Bytes) :
    RoundTrips old buf ↔
      (old.getD []).drop (buf.length % 2 ^ 32) = buf.drop (buf.length % 2 ^ 32) := by
  have hcut := List.take_append_drop (buf.length % 2 ^ 32) buf
  constructor
  · intro htrips
    -- a system that writes and reads byte by byte
    have hsave : saveString none (fun _ => .wrote 0) buf old =
        (none, (saveString none (fun _ => .wrote 0) buf old).2) :=
      Prod.ext (saveLoop_succeeds fun _ => rfl) rfl
    have hread := htrips none (fun _ => .wrote 0) (fun _ => .got 0) _ hsave fun _ => ⟨0, rfl⟩
    rw [saveString_content hsave, contents_eq fun _ => ⟨0, rfl⟩] at hread
    exact List.append_cancel_left ((Prod.mk.inj hread).2.trans hcut.symm)
  · intro hrest opening writes reads file hsave hreads
    rw [saveString_content hsave, hrest, hcut, contents_eq hreads]

/-- With less than 2^32 bytes to save, the old content must not be longer. -/
theorem roundTrips_iff_length (hlen : buf.length < 2 ^ 32) :
    RoundTrips old buf ↔ (old.getD []).length ≤ buf.length := by
  rw [save_contents_iff, Nat.mod_eq_of_lt hlen, List.drop_length, List.drop_eq_nil_iff]

/-- Of three old bytes two are left behind the new one. -/
theorem not_save_contents : ¬ ∀ old buf, RoundTrips old buf := by
  intro htrips
  have hsave : saveString none (fun _ => .wrote 0) (bytes "x") (some (bytes "abc")) =
      (none, (saveString none (fun _ => .wrote 0) (bytes "x") (some (bytes "abc"))).2) :=
    Prod.ext (saveLoop_succeeds fun _ => rfl) rfl
  have hread := htrips (some (bytes "abc")) (bytes "x") none _ (fun _ => .got 0) _ hsave
    fun _ => ⟨0, rfl⟩
  rw [saveString_content hsave, contents_eq fun _ => ⟨0, rfl⟩] at hread
  have hlen := congrArg List.length (Prod.mk.inj hread).2
  exact absurd hlen (by decide)

end

end File

end Dframework
