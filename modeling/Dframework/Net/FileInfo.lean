import Mathlib
import Dframework.Lang.String
import Dframework.Library.Escape

/-!
# `URI::FileInfo`

A path is cut at its last slash into directory and file name, and the file name at its last dot into
name and extension. The places are kept as numbers, and 0 stands for a slash that was not found, also
when the path starts with the slash.

Results:
1. `lastSlash_cases`: where the last slash stands.
2. `reassembled_iff`: the paths whose parts give the path again.
-/

namespace Dframework

open CLib Escape

namespace Uri

/-- The loop of `URI::FileInfo::parse`: where the last slash stands that no backslash is in front of. -/
def lastSlash : Bytes → Nat → Bool → Nat → Nat
  | [], _, _, last => last
  | c :: path, off, buslash, last =>
    if !buslash && c == 92 then lastSlash path (off + 1) true last
    else if buslash then lastSlash path (off + 1) false last
    else if c = 47 then lastSlash path (off + 1) false off
    else lastSlash path (off + 1) false last

structure FileInfo where
  bUse : Bool := true
  sDirname : Bytes := []
  sFilename : Bytes := []
  sName : Bytes := []
  sExtension : Bytes := []
  deriving DecidableEq, Repr

/-- The second half of `URI::FileInfo::parse`. `lidx` is an `int`; with a negative one a text in
front of the file name is read. -/
def FileInfo.parseName (sDirname sFilename : Bytes) : Option FileInfo :=
  match lastIndex 46 sFilename with
  | none => some { sDirname, sFilename, sName := sFilename }
  | some idx =>
    let lidx := Int.bmod idx (2 ^ 32)
    if lidx = -1 then some { sDirname, sFilename, sName := sFilename }
    else if lidx = 0 then some { sDirname, sFilename, sExtension := sFilename }
    else if lidx < 0 then none
    else some { sDirname, sFilename, sName := sFilename.take lidx.toNat,
                sExtension := sFilename.drop (lidx.toNat + 1) }

def FileInfo.parse (path : Option Bytes) : Option FileInfo :=
  match path with
  | none => some {}
  | some path =>
    let path := cstr path
    let last := lastSlash path 0 false 0
    if last = 0 then parseName [] path else parseName (path.take last) (path.drop (last + 1))

/-- Directory and file name give the path again, and name and extension the file name, unless it
starts with its last dot. -/
def FileInfo.Reassembled (fi : FileInfo) (path : Bytes) : Prop :=
  fi.sDirname ++ 47 :: fi.sFilename = path ∧
    match lastIndex 46 fi.sFilename with
    | none => fi.sName = fi.sFilename
    | some 0 => True
    | some (_ + 1) => fi.sName ++ 46 :: fi.sExtension = fi.sFilename

/-- The last dot, as an `int`, is the place of a dot behind the first byte. -/
def DotFits (name : Bytes) : Prop :=
  ∀ i, lastIndex 46 name = some (i + 1) →
    0 < Int.bmod (i + 1 : Nat) (2 ^ 32) ∧ name[(Int.bmod (i + 1 : Nat) (2 ^ 32)).toNat]? = some 46

/-! ## The last slash -/

theorem lastSlash_plain {c : UInt8} (hc : c ≠ 92) (hslash : c ≠ 47) (s : Bytes) (off last : Nat) :
    lastSlash (c :: s) off false last = lastSlash s (off + 1) false last := by
  simp [lastSlash, hc, hslash]

theorem lastSlash_slash (s : Bytes) (off last : Nat) :
    lastSlash (47 :: s) off false last = lastSlash s (off + 1) false off := by
  rfl

theorem lastSlash_escape (d : UInt8) (s : Bytes) (off last : Nat) :
    lastSlash (92 :: d :: s) off false last = lastSlash s (off + 1 + 1) false last := by
  simp [lastSlash]

/-- The last slash that is not escaped, or what was known of one before. -/
theorem lastSlash_cases (s : Bytes) (off last : Nat) :
    ([47] ∉ units 92 s ∧ lastSlash s off false last = last) ∨
      ([47] ∈ units 92 s ∧ ∃ i, lastSlash s off false last = off + i ∧ s[i]? = some 47) := by
  induction s using units_induct (92 : UInt8) generalizing off last with
  | hnil => exact .inl ⟨List.not_mem_nil, rfl⟩
  | hopen => exact .inl ⟨by decide, rfl⟩
  | hplain c t hc ih =>
    rw [units_cons hc, List.mem_cons]
    by_cases hslash : c = 47
    · subst hslash
      refine .inr ⟨.inl rfl, ?_⟩
      rw [lastSlash_slash]
      rcases ih (off + 1) off with ⟨-, h⟩ | ⟨-, i, h, hi⟩
      · exact ⟨0, h, rfl⟩
      · exact ⟨i + 1, by omega, hi⟩
    · rw [lastSlash_plain hc hslash]
      have hne : ([47] : Bytes) ≠ [c] := by simpa using Ne.symm hslash
      rcases ih (off + 1) last with ⟨hnot, h⟩ | ⟨hmem, i, h, hi⟩
      · exact .inl ⟨by simp [hne, hnot], h⟩
      · exact .inr ⟨.inr hmem, i + 1, by omega, hi⟩
  | hescape d t ih =>
    rw [units_escape, List.mem_cons, lastSlash_escape]
    rcases ih (off + 1 + 1) last with ⟨hnot, h⟩ | ⟨hmem, i, h, hi⟩
    · exact .inl ⟨by simp [hnot], h⟩
    · exact .inr ⟨.inr hmem, i + 1 + 1, by omega, hi⟩

/-- A path with a slash has its last one at 0 when that is its only one. -/
theorem lastSlash_eq_zero_iff {path : Bytes} (h : [47] ∈ units 92 path) :
    lastSlash path 0 false 0 = 0 ↔ path.head? = some 47 ∧ [47] ∉ units 92 path.tail := by
  rcases path with _ | ⟨c, t⟩
  · cases h
  by_cases hslash : c = 47
  · subst hslash
    rw [lastSlash_slash]
    rcases lastSlash_cases t (0 + 1) 0 with ⟨hnot, hlast⟩ | ⟨hmem, i, hlast, -⟩
    · exact iff_of_true hlast ⟨rfl, hnot⟩
    · exact iff_of_false (by omega) fun hcond => hcond.2 hmem
  · refine iff_of_false ?_ fun hcond => hslash (Option.some.inj hcond.1)
    by_cases hc : c = 92
    · subst hc
      cases t with
      | nil => exact absurd h (by decide)
      | cons d t =>
        rw [units_escape, List.mem_cons] at h
        rw [lastSlash_escape]
        rcases lastSlash_cases t (0 + 1 + 1) 0 with ⟨hnot, -⟩ | ⟨-, i, hlast, -⟩
        · exact absurd (h.resolve_left (by simp)) hnot
        · omega
    · rw [units_cons hc, List.mem_cons] at h
      rw [lastSlash_plain hc hslash]
      rcases lastSlash_cases t (0 + 1) 0 with ⟨hnot, -⟩ | ⟨-, i, hlast, -⟩
      · exact absurd (h.resolve_left (by simpa using Ne.symm hslash)) hnot
      · omega

/-! ## The parts -/

/-- A text cut at a byte gives the text again when it is the byte that stands there. -/
theorem take_cons_drop_iff {c : UInt8} {s : Bytes} {k : Nat} :
    s.take k ++ c :: s.drop (k + 1) = s ↔ s[k]? = some c := by
  constructor
  · intro h
    have hlen := congrArg List.length h
    simp only [List.length_append, List.length_take, List.length_cons, List.length_drop] at hlen
    have hk : (s.take k).length = k := by
      rw [List.length_take]
      omega
    rw [← h, List.getElem?_append_right (by omega), hk, Nat.sub_self, List.getElem?_cons_zero]
  · intro h
    obtain ⟨hk, hc⟩ := List.getElem?_eq_some_iff.mp h
    rw [← hc, ← List.drop_eq_getElem_cons hk, List.take_append_drop]

namespace FileInfo

/-- The names of a file name whose last dot is found. -/
theorem parseName_of_pos {d f : Bytes} {idx : Nat} (hdot : lastIndex 46 f = some idx)
    (hpos : 0 < Int.bmod idx (2 ^ 32)) :
    parseName d f = some { sDirname := d, sFilename := f,
                           sName := f.take (Int.bmod idx (2 ^ 32)).toNat,
                           sExtension := f.drop ((Int.bmod idx (2 ^ 32)).toNat + 1) } := by
  rw [parseName, hdot]
  simp only
  rw [if_neg (by omega), if_neg (by omega), if_neg (by omega)]

/-- Directory and file name are kept whatever the names are. -/
theorem parseName_dir {d f : Bytes} {fi : FileInfo} (h : parseName d f = some fi) :
    fi.sDirname = d ∧ fi.sFilename = f := by
  rw [parseName] at h
  split at h
  · cases h
    exact ⟨rfl, rfl⟩
  · simp only at h
    split_ifs at h <;> cases h <;> exact ⟨rfl, rfl⟩

theorem parseName_iff (d f path : Bytes) :
    (∃ fi, parseName d f = some fi ∧ fi.Reassembled path) ↔ d ++ 47 :: f = path ∧ DotFits f := by
  constructor
  · rintro ⟨fi, hparse, hpath, hname⟩
    obtain ⟨hd, hf⟩ := parseName_dir hparse
    rw [hd, hf] at hpath
    refine ⟨hpath, fun i hdot => ?_⟩
    rw [hf, hdot] at hname
    rw [parseName, hdot] at hparse
    simp only at hparse hname
    generalize Int.bmod (i + 1 : Nat) (2 ^ 32) = lidx at hparse ⊢
    split_ifs at hparse with hminus hzero hneg
    · obtain rfl := Option.some.inj hparse
      have hlen := congrArg List.length hname
      simp at hlen
    · obtain rfl := Option.some.inj hparse
      have hlen := congrArg List.length hname
      simp at hlen
    · obtain rfl := Option.some.inj hparse
      exact ⟨by omega, take_cons_drop_iff.mp hname⟩
  · rintro ⟨hpath, hfits⟩
    rcases hdot : lastIndex 46 f with _ | _ | i
    · refine ⟨_, by rw [parseName, hdot], hpath, ?_⟩
      simp only [hdot]
    · refine ⟨{ sDirname := d, sFilename := f, sExtension := f }, ?_, hpath, ?_⟩
      · rw [parseName, hdot]
        rfl
      · simp only [hdot]
    · obtain ⟨hpos, hplace⟩ := hfits i hdot
      refine ⟨_, parseName_of_pos hdot hpos, hpath, ?_⟩
      simp only [hdot]
      exact take_cons_drop_iff.mpr hplace

end FileInfo

/-- The parts of a path with a slash give the path again exactly when another slash stands behind one
at its start, and the last dot of the file name is found as an `int`. -/
theorem reassembled_iff {path : Bytes} (h0 : 0 ∉ path) (h : [47] ∈ units 92 path) :
    (∃ fi, FileInfo.parse (some path) = some fi ∧ fi.Reassembled path) ↔
      (path.head? = some 47 → [47] ∈ units 92 path.tail) ∧
        DotFits (path.drop (lastSlash path 0 false 0 + 1)) := by
  have hzero := lastSlash_eq_zero_iff h
  rw [FileInfo.parse, cstr_of_not_mem h0]
  by_cases hlast : lastSlash path 0 false 0 = 0
  · obtain ⟨hhead, hnot⟩ := hzero.mp hlast
    rw [if_pos hlast, FileInfo.parseName_iff]
    refine iff_of_false (fun hcond => ?_) fun hcond => hnot (hcond.1 hhead)
    have hlen := congrArg List.length hcond.1
    simp at hlen
  · have hplace : path[lastSlash path 0 false 0]? = some 47 := by
      rcases lastSlash_cases path 0 0 with ⟨hnot, -⟩ | ⟨-, i, hi, hslash⟩
      · exact absurd h hnot
      · rw [hi, Nat.zero_add]
        exact hslash
    rw [if_neg hlast, FileInfo.parseName_iff, take_cons_drop_iff]
    refine and_congr_left' (iff_of_true hplace fun hhead => ?_)
    by_contra hnot
    exact hlast (hzero.mpr ⟨hhead, hnot⟩)

theorem reassembled_file :
    ∃ fi, FileInfo.parse (some (bytes "/a/b.tar.gz")) = some fi ∧
      fi.Reassembled (bytes "/a/b.tar.gz") := by
  have hlast : lastIndex 46 ((bytes "/a/b.tar.gz").drop
      (lastSlash (bytes "/a/b.tar.gz") 0 false 0 + 1)) = some 5 := by decide
  refine (reassembled_iff (by decide) (by decide)).mpr ⟨fun _ => by decide, fun i hi => ?_⟩
  cases hlast.symm.trans hi
  decide

/-- A file directly under the root. -/
theorem not_reassembled : ¬ ∀ path : Bytes, 0 ∉ path → [47] ∈ units 92 path →
    ∃ fi, FileInfo.parse (some path) = some fi ∧ fi.Reassembled path := by
  intro h
  obtain ⟨fi, hparse, hpath, -⟩ := h (bytes "/a") (by decide) (by decide)
  have hfi : FileInfo.parse (some (bytes "/a")) =
      some { sFilename := bytes "/a", sName := bytes "/a" } := by decide
  cases hparse.symm.trans hfi
  revert hpath
  decide

end Uri

end Dframework
