import Mathlib
import Dframework.Net.UriFront

/-!
# `LocalFs` and `Stat`

A local file system puts the path of a request behind the path of its root. `open` takes the text as it
is, and `getattr` has `Stat` read it as a URI again: blanks at the ends are cut off, `?` begins a query,
and what stands in front of `://` is a scheme.

Results:
1. `Stat.path_iff`: the path whose attributes are asked for.
2. `LocalFs.statPath_iff`: when it is the path that is opened.
-/

namespace Dframework

open CLib Pattern UriTextLemmas UriFrontLemmas

/-- `Stat::stat`: the path that `lstat` is asked for. -/
def Stat.path (rpath : Bytes) : Option (Except Ret Bytes) :=
  (Uri.parse rpath).map fun x =>
    if equals x.2.scheme (bytes "file") = false then .error { value := .eInval }
    else if x.2.path = [] then .error { value := .eInval }
    else .ok x.2.path

namespace LocalFs

/-- `rpath` of `getattr` and `open`. -/
def rpath (uri : Uri) (path : Bytes) : Bytes :=
  printed uri.path ++ path

/-- The path that `LocalFs::getattr` asks the attributes of. -/
def statPath (uri : Uri) (path : Bytes) : Option (Except Ret Bytes) :=
  Stat.path (rpath uri path)

end LocalFs

/-- The text has something in front of a `://` that is read as a scheme. -/
def SchemeLike (t : Bytes) : Prop :=
  ∃ a b, t = a ++ (58 :: 47 :: 47 :: b) ∧ a ≠ [] ∧ ∀ c ∈ a, nonSpace c

variable {t rest : Bytes}

/-! ## The scheme -/

theorem exists_of_lit {c : UInt8} {ps : List (Piece UInt8)} {s : Bytes}
    (h : matchPieces (lit c :: ps) s ≠ none) : ∃ s', s = c :: s' ∧ matchPieces ps s' ≠ none := by
  rcases s with _ | ⟨x, s⟩
  · exact absurd (matchPieces_lit_none (by simp)) h
  · by_cases hx : x = c
    · subst hx
      refine ⟨s, rfl, fun hnone => h ?_⟩
      rw [matchPieces_lit, hnone, Option.map_none]
    · exact absurd (matchPieces_lit_none fun y hy => by cases hy; exact hx) h

theorem take_nonSpace {n : Nat} (hn : n ≤ (few nonSpace 1).longest t) :
    ∀ c ∈ t.take n, nonSpace c := by
  intro c hc
  have hrun : n ≤ (t.takeWhile nonSpace).length := hn
  rw [← List.takeWhile_append_dropWhile (p := nonSpace) (l := t),
    List.take_append_of_le_length hrun] at hc
  exact List.mem_takeWhile_imp (List.mem_of_mem_take hc)

/-- What the expression for a scheme needs. -/
theorem schemeLike_of_match {n : Nat} (hn : n ≤ (few nonSpace 1).longest t) (hpos : 1 ≤ n)
    (h : matchPieces [lit 58, lit 47, lit 47, many (fun _ => true) 0] (t.drop n) ≠ none) :
    SchemeLike t := by
  obtain ⟨s₁, hs₁, h₁⟩ := exists_of_lit h
  obtain ⟨s₂, rfl, h₂⟩ := exists_of_lit h₁
  obtain ⟨s₃, rfl, -⟩ := exists_of_lit h₂
  refine ⟨t.take n, s₃, ?_, ?_, take_nonSpace hn⟩
  · rw [← hs₁, List.take_append_drop]
  · have hne : t.drop n ≠ [] := by rw [hs₁]; exact List.cons_ne_nil _ _
    have hlt : n < t.length := by
      by_contra hle
      exact hne (List.drop_eq_nil_of_le (Nat.not_lt.mp hle))
    exact List.ne_nil_of_length_pos (by rw [List.length_take]; omega)

theorem regexp_schemeExp_none (h0 : (0 : UInt8) ∉ t) (h : ¬ SchemeLike t) :
    ∃ r, schemeExp.regexp (toChars t) = .error r := by
  refine regexp_of_no_match h0 (matchPieces_none fun n hn hpos => ?_)
  by_contra hmatch
  exact h (schemeLike_of_match hn hpos hmatch)

theorem setChars_some {mem : Option Bytes} {len : Nat} {s : Bytes} (h : setChars mem len = some s)
    (hlen : len ≠ 0) : ∃ m, mem = some m ∧ len ≤ m.length ∧ s = m.take len := by
  cases mem with
  | none => simp [setChars, hlen] at h
  | some m =>
    simp only [setChars, if_neg hlen] at h
    split_ifs at h with hle
    exact ⟨m, rfl, hle, (Option.some.inj h).symm⟩

theorem getMatch_front {lens : List Nat} {b : Nat} {gs : List (Nat × Nat)} {g : Nat × Nat} {mem : Bytes}
    (h : (⟨t, lens, g :: (0, b) :: gs⟩ : Match).getMatch 1 = some mem) : mem = t := by
  rw [Match.getMatch] at h
  split_ifs at h
  simpa [Match.start] using h.symm

/-- The scheme of a text that is like one with a scheme starts as the text does. -/
theorem regexp_schemeExp_some (h0 : (0 : UInt8) ∉ t) (h : SchemeLike t) :
    ∃ m, schemeExp.regexp (toChars t) = .ok m ∧
      ∀ scheme, m.getMatchString 1 = some scheme → scheme ≠ [] ∧ scheme <+: t := by
  have hmatch : matchPieces schemeExp.pieces t ≠ none := by
    obtain ⟨a, b, rfl, hne, ha⟩ := h
    have hmem : a.length ∈ (few nonSpace 1).lengths (a ++ (58 :: 47 :: 47 :: b)) := by
      refine mem_lengths.mpr ⟨?_, List.length_pos_of_ne_nil hne⟩
      show a.length ≤ ((a ++ _).takeWhile nonSpace).length
      rw [List.takeWhile_append_of_pos ha, List.length_append]
      exact Nat.le_add_right _ _
    intro hnone
    have hrest := List.findSome?_eq_none_iff.mp hnone _ hmem
    rw [List.drop_left, Option.map_eq_none_iff, lit_cons, lit_cons, lit_cons, many_all] at hrest
    cases hrest
  obtain ⟨ls, hls⟩ := Option.ne_none_iff_exists'.mp hmatch
  have hne : t ≠ [] := by
    rintro rfl
    obtain ⟨a, b, heq, -⟩ := h
    simp at heq
  refine ⟨_, regexp_of_match h0 hne hls, fun scheme hscheme => ?_⟩
  obtain ⟨n, hn, hmap⟩ := List.exists_of_findSome?_eq_some hls
  obtain ⟨ls', hls', rfl⟩ := Option.map_eq_some_iff.mp hmap
  have hpos : 1 ≤ n := (mem_lengths.mp hn).2
  have hlen : (⟨t, n :: ls', (0, 5) :: schemeExp.groups⟩ : Match).getMatchLength 1 = n := by
    simp [Match.getMatchLength, schemeExp]
  have hchars : setChars ((⟨t, n :: ls', (0, 5) :: schemeExp.groups⟩ : Match).getMatch 1) n =
      some scheme := hlen ▸ hscheme
  obtain ⟨mem, hmem, hle, rfl⟩ := setChars_some hchars (by omega)
  obtain rfl := getMatch_front hmem
  refine ⟨List.ne_nil_of_length_pos ?_, List.take_prefix n _⟩
  rw [List.length_take]
  omega

/-! ## The path -/

/-- A text that starts with no blank loses the blanks at its end. -/
theorem trim_parts (h : t.head? = some 47) :
    ∃ blanks, t = trim t ++ blanks ∧ (∀ c ∈ blanks, isBlank c) ∧ (trim t).head? = some 47 := by
  have hdrop : t.dropWhile isBlank = t := by
    cases t with
    | nil => rfl
    | cons c t =>
      cases h
      rfl
  have hsplit : t = trim t ++ (t.reverse.takeWhile isBlank).reverse := by
    rw [trim, hdrop, ← List.reverse_append, List.takeWhile_append_dropWhile, List.reverse_reverse]
  have hblank : ∀ c ∈ (t.reverse.takeWhile isBlank).reverse, isBlank c := fun c hc =>
    List.mem_takeWhile_imp (List.mem_reverse.mp hc)
  refine ⟨_, hsplit, hblank, ?_⟩
  rcases htrim : trim t with _ | ⟨c, s⟩
  · rw [htrim, List.nil_append] at hsplit
    rw [hsplit] at h
    have hmem := hblank 47 (List.mem_of_head? h)
    cases hmem
  · rw [hsplit, htrim] at h
    exact h

theorem parseHp_scheme {v w : Uri} {m : Match} {str : Option Bytes} (h : v.parseHp m str = some w) :
    w.scheme = v.scheme := by
  rw [Uri.parseHp] at h
  obtain ⟨host, -, h⟩ := Option.bind_eq_some_iff.mp h
  obtain ⟨x, -, h⟩ := Option.bind_eq_some_iff.mp h
  obtain ⟨u, hu, h⟩ := Option.bind_eq_some_iff.mp h
  obtain ⟨host, port, rfl⟩ := parseHost_keeps hu
  exact (parsePath_keeps h).scheme_eq

theorem parseHostAndPath_scheme {v w : Uri} {hp : Option Bytes} {r : Retval}
    (h : v.parseHostAndPath hp = some (r, w)) : w.scheme = v.scheme := by
  rw [Uri.parseHostAndPath] at h
  split at h
  · obtain ⟨u, hu, hr⟩ := Option.map_eq_some_iff.mp h
    cases hr
    exact parseHp_scheme hu
  · split at h
    · obtain ⟨u, hu, hr⟩ := Option.map_eq_some_iff.mp h
      cases hr
      exact parseHp_scheme hu
    · cases h
      rfl

/-- A text that is read with a scheme has no attributes. -/
theorem Stat.path_scheme (h0 : (0 : UInt8) ∉ t) (hhead : t.head? = some 47)
    (h : SchemeLike (trim t)) (q : Bytes) : Stat.path t ≠ some (.ok q) := by
  obtain ⟨blanks, hsplit, -, hhead'⟩ := trim_parts hhead
  have h0' : (0 : UInt8) ∉ trim t := fun hmem => h0 (hsplit ▸ List.mem_append_left _ hmem)
  have hne : trim t ≠ [] := by
    intro hnil
    rw [hnil] at hhead'
    cases hhead'
  obtain ⟨m, hm, hscheme⟩ := regexp_schemeExp_some h0' h
  intro heq
  obtain ⟨⟨r, w⟩, hparse, hw⟩ := Option.map_eq_some_iff.mp heq
  rw [Uri.parse, cstr_of_not_mem h0] at hparse
  simp only [hm, if_neg hne] at hparse
  obtain ⟨scheme, hs, hparse⟩ := Option.bind_eq_some_iff.mp hparse
  obtain ⟨hp, -, hparse⟩ := Option.bind_eq_some_iff.mp hparse
  obtain ⟨hsne, hpre⟩ := hscheme scheme hs
  have hfield : w.scheme = scheme := parseHostAndPath_scheme hparse
  have hfile : equals w.scheme (bytes "file") = false := by
    rw [hfield]
    obtain ⟨c, s, rfl⟩ := List.exists_cons_of_ne_nil hsne
    obtain ⟨s', hs'⟩ := hpre
    rw [← hs'] at hhead'
    cases hhead'
    simp [equals, cstr, tolower, bytes]
  simp only [hfile, if_true] at hw
  cases hw

/-- The match of a text that starts with a slash. -/
theorem regexp_hostExp_slash (h0 : (0 : UInt8) ∉ rest) :
    hostExp.regexp (toChars (47 :: rest)) = .ok (hostMatch [] rest) := by
  refine regexp_of_match (by simpa using h0) (List.cons_ne_nil _ _) ?_
  refine matchPieces_lazy (s := []) (by simp) le_rfl ?_ fun k _ hk => absurd hk (Nat.not_lt_zero k)
  rw [lit_cons, many_all]
  rfl

theorem parseHostAndPath_slash (v : Uri) (h0 : (0 : UInt8) ∉ rest)
    (hfile : equals v.scheme (bytes "file") = true) :
    v.parseHostAndPath (toChars (47 :: rest)) =
      (({ v with host := [] } : Uri).parsePath (47 :: rest)).map (none, ·) := by
  have hslash : ¬ (hostMatch [] rest).getMatchLength 2 = 0 := by
    rw [hostMatch_slash]
    decide
  have hhost : (hostMatch [] rest).getMatchString 1 = some [] := by
    have hlen : (hostMatch [] rest).getMatchLength 1 = 0 := by simp [Match.getMatchLength]
    simp [Match.getMatchString, hlen, setChars]
  rw [Uri.parseHostAndPath, regexp_hostExp_slash h0]
  simp only [Uri.parseHp, hhost, Option.bind_eq_bind, Option.bind_some, if_neg hslash,
    toChars_of_ne_nil (List.cons_ne_nil 47 rest), parseHpFileScheme_file hfile h0]
  rfl

/-- The path whose attributes are asked for, for a text of less than 2 GB: the text without the blanks
at its end, up to the first `?`. There is none where something is read as a scheme, or where the fragment is read from outside. -/
theorem Stat.path_iff (h0 : (0 : UInt8) ∉ t) (hhead : t.head? = some 47) (hlen : t.length < 2 ^ 31)
    (q : Bytes) :
    Stat.path t = some (.ok q) ↔
      ¬ SchemeLike (trim t) ∧ FragmentFits (trim t) ∧ q = cutPath (trim t) := by
  by_cases hscheme : SchemeLike (trim t)
  · exact iff_of_false (Stat.path_scheme h0 hhead hscheme q) fun h => h.1 hscheme
  obtain ⟨blanks, hsplit, -, hhead'⟩ := trim_parts hhead
  have h0' : (0 : UInt8) ∉ trim t := fun hmem => h0 (hsplit ▸ List.mem_append_left _ hmem)
  obtain ⟨rest, hrest⟩ : ∃ rest, trim t = 47 :: rest := by
    rcases htrim : trim t with _ | ⟨c, s⟩
    · rw [htrim] at hhead'
      cases hhead'
    · rw [htrim] at hhead'
      cases hhead'
      exact ⟨s, rfl⟩
  obtain ⟨e, he⟩ := regexp_schemeExp_none h0' hscheme
  have hparse : Uri.parse t =
      (({ uri := trim t, scheme := bytes "file" } : Uri).parsePath (trim t)).map (none, ·) := by
    rw [Uri.parse, cstr_of_not_mem h0]
    simp only [he, if_neg (show trim t ≠ [] by rw [hrest]; exact List.cons_ne_nil _ _)]
    rw [hrest, parseHostAndPath_slash _ (fun hmem => h0' (hrest ▸ List.mem_cons_of_mem _ hmem)) rfl]
  have hne : cutPath (trim t) ≠ [] := by
    rw [hrest]
    exact List.cons_ne_nil _ _
  rw [Stat.path, hparse, Option.map_map]
  have hlen' : (trim t).length < 2 ^ 31 := by
    have hle := congrArg List.length hsplit
    rw [List.length_append] at hle
    omega
  rcases parsePath_cut h0' hlen' with ⟨hfits, hcut⟩ | ⟨hfits, hcut⟩
  · obtain ⟨fragment, hpath⟩ := hcut { uri := trim t, scheme := bytes "file" } rfl
    rw [hpath, Option.map_some]
    simp only [Function.comp_apply]
    rw [if_neg (by decide), if_neg hne]
    constructor
    · intro heq
      cases heq
      exact ⟨hscheme, hfits, rfl⟩
    · rintro ⟨-, -, rfl⟩
      rfl
  · rw [hcut, Option.map_none]
    exact iff_of_false (fun heq => by cases heq) fun h => hfits h.2.1

/-! ## The path that is opened -/

/-- The path of a root, as a document root is parsed: it starts with a slash and has no `?`. -/
structure Uri.Rooted (uri : Uri) : Prop where
  head_eq : uri.path.head? = some 47
  no_nul : 0 ∉ uri.path
  no_mark : 63 ∉ uri.path

theorem cutPath_trim (h : t.head? = some 47) :
    cutPath (trim t) = cutPath t ↔ 63 ∈ t ∨ trim t = t := by
  obtain ⟨blanks, hsplit, hblank, -⟩ := trim_parts h
  have hmark : (63 : UInt8) ∉ blanks := fun hmem => by cases hblank 63 hmem
  rcases cut_cases 63 (trim t) with hnot | ⟨a, p, ha, hna⟩
  · have hnone : (63 : UInt8) ∉ t := by
      rw [hsplit]
      simp [hnot, hmark]
    rw [(cut_plain hnot).1, (cut_plain hnone).1, or_iff_right hnone]
  · have hmem : (63 : UInt8) ∈ t := by
      rw [hsplit, ha]
      simp
    refine iff_of_true ?_ (.inl hmem)
    nth_rewrite 2 [hsplit]
    rw [ha, List.append_assoc, List.cons_append, (cut_query hna).1, (cut_query hna).1]

namespace LocalFs

variable {uri : Uri}

theorem rpath_eq (h : uri.Rooted) (path : Bytes) : rpath uri path = uri.path ++ path := by
  have hne : uri.path ≠ [] := by
    intro hnil
    have hhead := h.head_eq
    rw [hnil] at hhead
    cases hhead
  rw [rpath, printed_of_ne_nil hne, cstr_of_not_mem h.no_nul]

theorem head_rpath (h : uri.Rooted) (path : Bytes) : (rpath uri path).head? = some 47 := by
  rw [rpath_eq h, List.head?_append, h.head_eq]
  rfl

/-- The path whose attributes are asked for, for what stands in a request, is the one that is opened for
what stands there in front of the query. -/
theorem statPath_iff (h : uri.Rooted) (h0 : 0 ∉ rest) (hlen : (rpath uri rest).length < 2 ^ 31) :
    statPath uri rest = some (.ok (rpath uri (cutPath rest))) ↔
      ¬ SchemeLike (trim (rpath uri rest)) ∧ FragmentFits (trim (rpath uri rest)) ∧
        (63 ∈ rest ∨ trim (rpath uri rest) = rpath uri rest) := by
  have hno : 0 ∉ rpath uri rest := by
    rw [rpath_eq h, List.mem_append, not_or]
    exact ⟨h.no_nul, h0⟩
  have hcut : rpath uri (cutPath rest) = cutPath (rpath uri rest) := by
    rw [rpath_eq h, rpath_eq h, cutPath, cutPath, List.takeWhile_append_of_pos]
    intro c hc
    simp only [decide_eq_true_eq]
    rintro rfl
    exact h.no_mark hc
  have hmem : 63 ∈ rpath uri rest ↔ 63 ∈ rest := by
    rw [rpath_eq h, List.mem_append, or_iff_right h.no_mark]
  rw [statPath, Stat.path_iff hno (head_rpath h rest) hlen, hcut, eq_comm (a := cutPath _),
    cutPath_trim (head_rpath h rest), hmem]

end LocalFs

end Dframework
