import Mathlib
import Dframework.Lang.String
import Dframework.Util.ArraySorted

/-!
# The headers of a message

`HttpHeader` keeps its headers in the order of their names. A header that is appended takes the place
of the one of the same name. Names are told apart with their case.

Results:
1. `mem_appendHeader`: nothing comes in but the header that is appended.
2. `Ordered.append`: the names stay in order, and each of them stands there once.
3. `getHeader_appendHeader`: the last header of a name is the one that is found.
4. `foldsCase_iff`: when the case of a name does not matter.
-/

namespace Dframework

open CLib

instance : Std.TransCmp NamedValue.compare where
  eq_swap {a b} := @Std.OrientedCmp.eq_swap _ compareChars _ a.name b.name
  isLE_trans {a b c} := @Std.TransCmp.isLE_trans _ compareChars _ a.name b.name c.name

theorem NamedValue.compare_eq_iff {a b : NamedValue} :
    NamedValue.compare a b = .eq ↔ a.name = b.name := by
  constructor
  · intro h
    have hname : compareChars a.name b.name = .eq := h
    exact Std.LawfulEqCmp.eq_of_compare hname
  · intro h
    show compareChars a.name b.name = .eq
    rw [h]
    exact Std.ReflCmp.compare_self

def getHeader (l : List NamedValue) (name : Bytes) : Option NamedValue :=
  (ArraySorted.index NamedValue.compare ⟨cstr name, []⟩ l).bind fun i => l[i]?

/-- What `appendHeader` keeps of the headers. -/
structure Ordered (l : List NamedValue) : Prop where
  sorted : ArraySorted.Sorted NamedValue.compare l
  nodup : (l.map NamedValue.name).Nodup

variable {l : List NamedValue} {nv x : NamedValue} {name value : Bytes}

theorem Ordered.nil : Ordered [] :=
  ⟨List.Pairwise.nil, List.nodup_nil⟩

theorem Ordered.eq_of_name (h : Ordered l) {a b : NamedValue} (ha : a ∈ l) (hb : b ∈ l)
    (hname : a.name = b.name) : a = b :=
  List.inj_on_of_nodup_map h.nodup ha hb hname

/-! ## Taking a name out -/

theorem remove_sublist (nv : NamedValue) (l : List NamedValue) :
    (ArraySorted.remove NamedValue.compare nv l).Sublist l := by
  rw [ArraySorted.remove]
  split
  · exact List.eraseIdx_sublist _ _
  · exact List.Sublist.refl _

theorem mem_remove_iff (h : Ordered l) :
    x ∈ ArraySorted.remove NamedValue.compare nv l ↔ x ∈ l ∧ x.name ≠ nv.name := by
  obtain ⟨hfound, hnone⟩ := ArraySorted.index_finds h.sorted nv
  rw [ArraySorted.remove]
  rcases hi : ArraySorted.index NamedValue.compare nv l with _ | i
  · exact ⟨fun hx => ⟨hx, fun heq => hnone hi x hx (NamedValue.compare_eq_iff.mpr heq.symm)⟩,
      fun hx => hx.1⟩
  · obtain ⟨y, hy, heq⟩ := hfound i hi
    have hname : nv.name = y.name := NamedValue.compare_eq_iff.mp heq
    rw [List.mem_eraseIdx_iff_getElem?, hname]
    constructor
    · rintro ⟨j, hj, hx⟩
      refine ⟨List.mem_of_getElem? hx, fun hsame => hj ?_⟩
      have hlt : j < (l.map NamedValue.name).length := by
        rw [List.length_map]
        exact (List.getElem?_eq_some_iff.mp hx).1
      refine (List.getElem?_inj hlt h.nodup).mp ?_
      rw [List.getElem?_map, List.getElem?_map, hx, hy]
      exact congrArg some hsame
    · rintro ⟨hx, hne⟩
      obtain ⟨j, hj⟩ := List.getElem?_of_mem hx
      refine ⟨j, fun hji => hne ?_, hj⟩
      rw [hji, hy] at hj
      exact congrArg NamedValue.name (Option.some.inj hj).symm

/-! ## Appending -/

theorem appendHeader_perm (l : List NamedValue) (name value : Bytes) :
    (appendHeader l name value).Perm
      (⟨cstr name, cstr value⟩ :: ArraySorted.remove NamedValue.compare ⟨cstr name, cstr value⟩ l) :=
  List.perm_insertIdx _ _ (ArraySorted.insertId_le _ _ _)

theorem mem_appendHeader (h : nv ∈ appendHeader l name value) :
    nv = ⟨cstr name, cstr value⟩ ∨ nv ∈ l := by
  rcases List.mem_cons.mp ((appendHeader_perm l name value).mem_iff.mp h) with rfl | h
  · exact .inl rfl
  · exact .inr ((remove_sublist _ l).subset h)

theorem mem_appendHeader_self (l : List NamedValue) (name value : Bytes) :
    ⟨cstr name, cstr value⟩ ∈ appendHeader l name value :=
  (appendHeader_perm l name value).mem_iff.mpr List.mem_cons_self

theorem mem_appendHeader_iff (h : Ordered l) :
    nv ∈ appendHeader l name value ↔
      nv = ⟨cstr name, cstr value⟩ ∨ nv ∈ l ∧ nv.name ≠ cstr name := by
  rw [(appendHeader_perm l name value).mem_iff, List.mem_cons, mem_remove_iff h]

theorem Ordered.append (h : Ordered l) (name value : Bytes) :
    Ordered (appendHeader l name value) := by
  have hsub := remove_sublist ⟨cstr name, cstr value⟩ l
  refine ⟨ArraySorted.insert_sorted (h.sorted.sublist hsub) _, ?_⟩
  rw [((appendHeader_perm l name value).map _).nodup_iff, List.map_cons, List.nodup_cons]
  refine ⟨fun hmem => ?_, h.nodup.sublist (hsub.map _)⟩
  obtain ⟨x, hx, hname⟩ := List.mem_map.mp hmem
  exact ((mem_remove_iff h).mp hx).2 hname

/-! ## Finding -/

/-- A header is found by its name. -/
theorem getHeader_eq_some_iff (h : Ordered l) :
    getHeader l name = some nv ↔ nv ∈ l ∧ nv.name = cstr name := by
  obtain ⟨hfound, hnone⟩ := ArraySorted.index_finds h.sorted ⟨cstr name, []⟩
  rw [getHeader]
  rcases hi : ArraySorted.index NamedValue.compare ⟨cstr name, []⟩ l with _ | i
  · refine iff_of_false (by simp) fun ⟨hmem, hname⟩ => hnone hi nv hmem ?_
    exact NamedValue.compare_eq_iff.mpr hname.symm
  · obtain ⟨y, hy, heq⟩ := hfound i hi
    have hname : cstr name = y.name := NamedValue.compare_eq_iff.mp heq
    rw [Option.bind_some, hy, Option.some.injEq]
    constructor
    · rintro rfl
      exact ⟨List.mem_of_getElem? hy, hname.symm⟩
    · rintro ⟨hmem, hnv⟩
      exact h.eq_of_name (List.mem_of_getElem? hy) hmem (hname.symm.trans hnv.symm)

/-- The header that was appended last is the one that is found. -/
theorem getHeader_appendHeader (h : Ordered l) (name value other : Bytes) :
    getHeader (appendHeader l name value) other =
      if cstr other = cstr name then some ⟨cstr name, cstr value⟩ else getHeader l other := by
  apply Option.ext
  intro nv
  rw [getHeader_eq_some_iff (h.append name value), mem_appendHeader_iff h]
  split_ifs with hname
  · rw [hname, Option.some.injEq, eq_comm (b := nv)]
    constructor
    · rintro ⟨h | ⟨-, hne⟩, heq⟩
      · exact h
      · exact absurd heq hne
    · rintro rfl
      exact ⟨.inl rfl, rfl⟩
  · rw [getHeader_eq_some_iff h]
    constructor
    · rintro ⟨rfl | ⟨hmem, -⟩, heq⟩
      · exact absurd heq.symm hname
      · exact ⟨hmem, heq⟩
    · rintro ⟨hmem, heq⟩
      exact ⟨.inr ⟨hmem, heq ▸ hname⟩, heq⟩

/-! ## The case of a name -/

/-- The headers after some calls of `appendHeader`. -/
def appendAll (hs : List (Bytes × Bytes)) : List NamedValue :=
  hs.foldl (fun l h => appendHeader l h.1 h.2) []

/-- Two names, as C strings, are the same up to the case of their letters. -/
def SameName (a b : Bytes) : Prop :=
  (cstr a).map tolower = (cstr b).map tolower

instance (a b : Bytes) : Decidable (SameName a b) := inferInstanceAs (Decidable (_ = _))

/-- The value that was appended last for a name, in any case. -/
def lastAppended (hs : List (Bytes × Bytes)) (name : Bytes) : Option Bytes :=
  (hs.reverse.find? fun h => SameName h.1 name).map fun h => cstr h.2

/-- One entry for each name, in any case, and each name is found in any case. -/
def FoldsCase (hs : List (Bytes × Bytes)) : Prop :=
  (appendAll hs).Pairwise (fun a b => ¬ SameName a.name b.name) ∧
    ∀ name, (getHeader (appendAll hs) name).map NamedValue.value = lastAppended hs name

def isAlpha (c : UInt8) : Bool :=
  (65 ≤ c && c ≤ 90) || (97 ≤ c && c ≤ 122)

theorem appendAll_concat (hs : List (Bytes × Bytes)) (h : Bytes × Bytes) :
    appendAll (hs ++ [h]) = appendHeader (appendAll hs) h.1 h.2 := by
  rw [appendAll, List.foldl_append]
  rfl

theorem Ordered.appendAll (hs : List (Bytes × Bytes)) : Ordered (appendAll hs) := by
  induction hs using List.reverseRecOn with
  | nil => exact .nil
  | append_singleton hs h ih =>
    rw [appendAll_concat]
    exact ih.append h.1 h.2

/-- Without case: what is found is what was appended last for the very name. -/
theorem getHeader_appendAll (hs : List (Bytes × Bytes)) (name : Bytes) :
    (getHeader (appendAll hs) name).map NamedValue.value =
      (hs.reverse.find? fun h => cstr h.1 = cstr name).map fun h => cstr h.2 := by
  induction hs using List.reverseRecOn with
  | nil => rfl
  | append_singleton hs h ih =>
    rw [appendAll_concat, getHeader_appendHeader (.appendAll hs), List.reverse_concat,
      List.find?_cons]
    by_cases hname : cstr name = cstr h.1
    · rw [if_pos hname]
      simp [hname]
    · rw [if_neg hname, ih]
      simp [eq_comm, hname]

/-- Every entry has the name of a header that was appended. -/
theorem mem_appendAll {hs : List (Bytes × Bytes)} (h : nv ∈ appendAll hs) :
    ∃ x ∈ hs, nv.name = cstr x.1 := by
  induction hs using List.reverseRecOn with
  | nil => cases h
  | append_singleton hs x ih =>
    rw [appendAll_concat] at h
    rcases mem_appendHeader h with rfl | h
    · exact ⟨x, by simp, rfl⟩
    · obtain ⟨y, hy, hname⟩ := ih h
      exact ⟨y, List.mem_append_left _ hy, hname⟩

/-- The other case of a letter. -/
def toggle (c : UInt8) : UInt8 :=
  if 65 ≤ c ∧ c ≤ 90 then c + 32 else if 97 ≤ c ∧ c ≤ 122 then c - 32 else c

section

set_option maxRecDepth 4000

theorem tolower_toggle (c : UInt8) : tolower (toggle c) = tolower c := by
  revert c
  apply forall_byte
  decide

theorem toggle_ne {c : UInt8} (h : isAlpha c) : toggle c ≠ c := by
  revert c
  apply forall_byte
  decide

theorem toggle_ne_zero {c : UInt8} (h : c ≠ 0) : toggle c ≠ 0 := by
  revert c
  apply forall_byte
  decide

theorem tolower_of_not_alpha {c : UInt8} (h : isAlpha c = false) : tolower c = c := by
  revert c
  apply forall_byte
  decide

theorem isAlpha_tolower (c : UInt8) : isAlpha (tolower c) = isAlpha c := by
  revert c
  apply forall_byte
  decide

end

theorem map_tolower {s : Bytes} (h : ∀ c ∈ s, isAlpha c = false) : s.map tolower = s := by
  rw [List.map_congr_left fun c hc => tolower_of_not_alpha (h c hc)]
  exact List.map_id s

/-- A name without letters has one case. -/
theorem sameName_iff {a b : Bytes} (h : ∀ c ∈ cstr a, isAlpha c = false) :
    SameName a b ↔ cstr a = cstr b := by
  constructor
  · intro heq
    have hb : ∀ c ∈ cstr b, isAlpha c = false := by
      intro c hc
      have hmem : tolower c ∈ (cstr a).map tolower := heq ▸ List.mem_map_of_mem hc
      rw [map_tolower h] at hmem
      rw [← isAlpha_tolower]
      exact h _ hmem
    rw [SameName, map_tolower h, map_tolower hb] at heq
    exact heq
  · intro heq
    rw [SameName, heq]

/-- A name with a letter has another case. -/
theorem exists_otherCase {a : Bytes} {c : UInt8} (hc : c ∈ cstr a) (h : isAlpha c) :
    ∃ b, SameName a b ∧ cstr a ≠ cstr b := by
  have h0 : (0 : UInt8) ∉ (cstr a).map toggle := by
    intro hmem
    obtain ⟨d, hd, heq⟩ := List.mem_map.mp hmem
    refine toggle_ne_zero ?_ heq
    rintro rfl
    exact not_mem_cstr a hd
  refine ⟨(cstr a).map toggle, ?_, ?_⟩
  · rw [SameName, cstr_of_not_mem h0, List.map_map]
    exact List.map_congr_left fun d _ => (tolower_toggle d).symm
  · rw [cstr_of_not_mem h0]
    intro heq
    have hfix : (cstr a).map id = (cstr a).map toggle := by rw [List.map_id]; exact heq
    exact toggle_ne h (List.map_inj_left.mp hfix c hc).symm

/-- The headers are kept without regard to the case of their names exactly when the names have no
letters. -/
theorem foldsCase_iff (hs : List (Bytes × Bytes)) :
    FoldsCase hs ↔ ∀ h ∈ hs, ∀ c ∈ cstr h.1, isAlpha c = false := by
  have hord := Ordered.appendAll hs
  constructor
  · rintro ⟨hone, hfind⟩ h hh c hc
    by_contra halpha
    obtain ⟨b, hsame, hne⟩ := exists_otherCase hc (Bool.not_eq_false _ ▸ halpha)
    -- both cases of the name are found, as two entries
    have hentry : ∀ n, SameName h.1 n → ∃ nv ∈ appendAll hs, nv.name = cstr n := by
      intro n hn
      have hsome : (lastAppended hs n).isSome := by
        rw [lastAppended, Option.isSome_map, List.find?_isSome]
        exact ⟨h, List.mem_reverse.mpr hh, decide_eq_true hn⟩
      rw [← hfind n, Option.isSome_map] at hsome
      obtain ⟨nv, hnv⟩ := Option.isSome_iff_exists.mp hsome
      exact ⟨nv, (getHeader_eq_some_iff hord).mp hnv⟩
    obtain ⟨x, hx, hxname⟩ := hentry h.1 rfl
    obtain ⟨y, hy, hyname⟩ := hentry b hsame
    have hxy : x ≠ y := by
      rintro rfl
      exact hne (hxname.symm.trans hyname)
    have hsymm : Std.Symm fun a b : NamedValue => ¬ SameName a.name b.name :=
      ⟨fun a b hab hba => hab hba.symm⟩
    refine hone.forall hx hy hxy ?_
    rw [SameName, hxname, hyname, cstr_cstr, cstr_cstr]
    exact hsame
  · intro hnames
    refine ⟨?_, fun name => ?_⟩
    · refine (List.pairwise_map.mp hord.nodup).imp_of_mem fun {a b} ha hb hne hsame => hne ?_
      obtain ⟨x, hx, hxname⟩ := mem_appendAll ha
      obtain ⟨y, -, hyname⟩ := mem_appendAll hb
      have halpha : ∀ c ∈ cstr a.name, isAlpha c = false := by
        rw [hxname, cstr_cstr]
        exact hnames x hx
      have hcstr := (sameName_iff halpha).mp hsame
      rwa [hxname, hyname, cstr_cstr, cstr_cstr, ← hxname, ← hyname] at hcstr
    · rw [getHeader_appendAll, lastAppended]
      congr 1
      refine List.find?_congr fun h hh => ?_
      rw [decide_eq_decide, sameName_iff (hnames h (List.mem_reverse.mp hh))]

/-- Two cases of a name are two headers. -/
theorem not_foldsCase : ¬ ∀ hs, FoldsCase hs := by
  intro h
  have hnames := (h [(bytes "Host", bytes "a"), (bytes "host", bytes "b")]).1
  revert hnames
  decide

end Dframework
