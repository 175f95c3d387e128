import Mathlib
import Dframework.Net.UriText

/-!
# A URI by its first slash

Behind `://` `parse` takes all in front of the first slash for host and port, whether that slash
belongs to the path or not, and appends a slash where there is none. The host goes up to the last
colon in there, and behind the slash the query begins with the first question mark.

Results:
1. `Uri.parse_front`: what `parse` makes of the parts in front of the first slash and from it on.
2. `parsePath_cut`: what `___parse_path` makes of a path with what follows it.
-/

namespace Dframework

open CLib Pattern UriTextLemmas

/-- The groups of the match are found: `getMatch` compares twice their numbers with its length. -/
def LongEnough (front rest : Bytes) : Prop :=
  2 < (front ++ 47 :: rest).length ∧ (rest ≠ [] → 6 < (front ++ 47 :: rest).length)

instance (front rest : Bytes) : Decidable (LongEnough front rest) :=
  inferInstanceAs (Decidable (_ ∧ _))

/-- The path in `path[?query][#fragment]`, as `___parse_path` cuts it. -/
def cutPath (s : Bytes) : Bytes :=
  s.takeWhile (· ≠ 63)

/-- What it leaves behind the question mark. -/
def cutRest (s : Bytes) : Bytes :=
  (s.dropWhile (· ≠ 63)).drop 1

def cutQuery (s : Bytes) : Bytes :=
  (cutRest s).takeWhile (· ≠ 35)

/-- What `___parse_path` reads for the fragment is in memory. -/
def FragmentFits (s : Bytes) : Prop :=
  cutRest s = cutQuery s ∨ (cutQuery s).length ≤ ((cutRest s).drop (cutQuery s).length).length

namespace UriFrontLemmas

variable {front rest s : Bytes}

/-! ## In front of the slash -/

theorem regexp_hostExp_none (hf : ∀ c ∈ front, isText c ∧ c ≠ 47) :
    ∃ r, hostExp.regexp (toChars front) = .error r := by
  refine regexp_of_no_match (not_mem_zero fun c hc => (hf c hc).1) ?_
  refine matchPieces_none fun n _ _ => matchPieces_lit_none fun x hx => ?_
  rw [List.head?_drop] at hx
  exact (hf x (List.mem_of_getElem? hx)).2

/-- A text without a slash is read as if one stood behind it. -/
theorem parseHostAndPath_bare (v : Uri) (hne : front ≠ []) (hf : ∀ c ∈ front, isText c ∧ c ≠ 47) :
    v.parseHostAndPath (some front) =
      (v.parseHp (hostMatch front []) (some front)).map (none, ·) := by
  obtain ⟨r, hr⟩ := regexp_hostExp_none hf
  have h0 : (0 : UInt8) ∉ front := not_mem_zero fun c hc => (hf c hc).1
  have hslash : hostExp.regexp (some (front ++ [47])) = .ok (hostMatch front []) := by
    rw [← toChars_of_ne_nil (List.append_ne_nil_of_left_ne_nil hne _)]
    exact regexp_hostExp hf (fun c hc => absurd hc List.not_mem_nil)
  rw [toChars_of_ne_nil hne] at hr
  rw [Uri.parseHostAndPath, hr]
  simp only [Option.getD_some, cstr_of_not_mem h0, hslash]

/-- `___parse_HP`, when the groups are found. -/
theorem parseHp_front {v : Uri} (hfile : equals v.scheme (bytes "file") = false) (hne : front ≠ [])
    (rest : Bytes) (str : Option Bytes) :
    v.parseHp (hostMatch front rest) str =
      if LongEnough front rest then
        (v.parseHost (some front)).bind fun u => u.parsePath (if rest = [] then [] else 47 :: rest)
      else none := by
  have hslash : ¬ (hostMatch front rest).getMatchLength 2 = 0 := by
    rw [hostMatch_slash]
    decide
  by_cases h2 : 2 < (front ++ 47 :: rest).length
  · rw [Uri.parseHp, hostMatch_host h2]
    simp only [Option.bind_eq_bind, Option.bind_some, if_neg hslash]
    by_cases hrest : rest = []
    · subst hrest
      rw [if_pos ⟨h2, fun h => absurd rfl h⟩, if_pos rfl, parseHpFileScheme_bare hfile]
      simp only [Option.bind_some, toChars_of_ne_nil hne]
    · by_cases h6 : 6 < (front ++ 47 :: rest).length
      · rw [if_pos ⟨h2, fun _ => h6⟩, if_neg hrest, parseHpFileScheme_net hfile _ _ _ hrest h6]
        simp only [Option.bind_some, toChars_of_ne_nil hne]
      · rw [if_neg fun h => h6 (h.2 hrest),
          parseHpFileScheme_short hfile _ _ _ hrest (Nat.not_lt.mp h6)]
        rfl
  · have hnone : (hostMatch front rest).getMatchString 1 = none := by
      rw [Match.getMatchString, Match.getMatch, if_neg h2, setChars, if_neg ?_]
      simpa [Match.getMatchLength] using hne
    rw [if_neg fun h => h2 h.1, Uri.parseHp, hnone]
    rfl

/-- The last colon of a text has an index that an `int` can hold. -/
theorem parseHost_exists (v : Uri) (hlen : front.length < 2 ^ 31) :
    ∃ w, v.parseHost (some front) = some w := by
  have hindex : ¬ lastIndexOf front 58 < 0 ∨ lastIndexOf front 58 = -1 := by
    rw [lastIndexOf]
    rcases hfind : strrchr front 58 with _ | i
    · exact .inr rfl
    · obtain ⟨hlt, -⟩ := List.getElem?_eq_some_iff.mp (getElem?_lastIndex hfind)
      have hle := (cstr_isPrefix front).length_le
      have hint := int_of_lt (show i < 2 ^ 31 by omega)
      refine .inl ?_
      dsimp only
      omega
  rw [Uri.parseHost]
  by_cases h47 : front.head? = some 47
  · exact ⟨_, if_pos h47⟩
  · rw [if_neg h47]
    dsimp only
    split_ifs with hnone hneg
    · exact ⟨_, rfl⟩
    · exact absurd hneg (hindex.resolve_right hnone)
    · exact ⟨_, rfl⟩

/-! ## From the slash on -/

theorem takeWhile_ne_append {c : UInt8} {a : Bytes} (h : c ∉ a) (t : Bytes) :
    (a ++ c :: t).takeWhile (· ≠ c) = a ∧ (a ++ c :: t).dropWhile (· ≠ c) = c :: t := by
  have ha : ∀ x ∈ a, decide (x ≠ c) = true := fun x hx =>
    decide_eq_true fun heq => h (heq ▸ hx)
  constructor
  · rw [List.takeWhile_append_of_pos ha, List.takeWhile_cons_of_neg (by simp), List.append_nil]
  · rw [List.dropWhile_append_of_pos ha, List.dropWhile_cons_of_neg (by simp)]

theorem takeWhile_ne_self {c : UInt8} {a : Bytes} (h : c ∉ a) :
    a.takeWhile (· ≠ c) = a ∧ a.dropWhile (· ≠ c) = [] := by
  have ha : ∀ x ∈ a, decide (x ≠ c) = true := fun x hx =>
    decide_eq_true fun heq => h (heq ▸ hx)
  exact ⟨List.takeWhile_eq_self_iff.mpr ha, List.dropWhile_eq_nil_iff.mpr ha⟩

theorem cut_plain (h : (63 : UInt8) ∉ s) : cutPath s = s ∧ cutRest s = [] := by
  refine ⟨(takeWhile_ne_self h).1, ?_⟩
  rw [cutRest, (takeWhile_ne_self h).2]
  rfl

theorem cut_query {a p : Bytes} (h : (63 : UInt8) ∉ a) :
    cutPath (a ++ 63 :: p) = a ∧ cutRest (a ++ 63 :: p) = p := by
  refine ⟨(takeWhile_ne_append h p).1, ?_⟩
  rw [cutRest, (takeWhile_ne_append h p).2]
  rfl

end UriFrontLemmas

open UriFrontLemmas

/-- `___parse_path` cuts at the first `?`, and behind that at the first `#`, where their indexes are
those of an `int`. -/
theorem parsePath_cut {s : Bytes} (h0 : (0 : UInt8) ∉ s) (hlen : s.length < 2 ^ 31) :
    FragmentFits s ∧ (∀ v : Uri, v.query = [] → ∃ fragment, v.parsePath s =
        some { v with path := cutPath s, query := cutQuery s, fragment }) ∨
      ¬ FragmentFits s ∧ ∀ v : Uri, v.parsePath s = none := by
  rcases cut_cases 63 s with h63 | ⟨a, p, rfl, ha⟩
  · obtain ⟨hpath, hrest⟩ := cut_plain h63
    have hquery : cutQuery s = [] := by rw [cutQuery, hrest]; rfl
    refine .inl ⟨.inl (hrest.trans hquery.symm), fun v hv => ⟨v.fragment, ?_⟩⟩
    rw [parsePath_plain v h0 h63, hpath, hquery, ← hv]
  obtain ⟨hpath, hrest⟩ := cut_query (p := p) ha
  rw [List.length_append, List.length_cons] at hlen
  have h0a : (0 : UInt8) ∉ a := fun h => h0 (List.mem_append_left _ h)
  have h0p : (0 : UInt8) ∉ p := fun h => h0 (List.mem_append_right _ (List.mem_cons_of_mem _ h))
  have hcut : ∀ v : Uri, v.parsePath (a ++ 63 :: p) = ({ v with path := a } : Uri).parseQuery p :=
    fun v => parsePath_near v h0a ha (by omega) p
  rcases cut_cases 35 p with h35 | ⟨q, f, rfl, hq⟩
  · have hquery : cutQuery (a ++ 63 :: p) = p := by rw [cutQuery, hrest, (takeWhile_ne_self h35).1]
    refine .inl ⟨.inl (hrest.trans hquery.symm), fun v _ => ⟨v.fragment, ?_⟩⟩
    rw [hcut, parseQuery_plain _ h0p h35, hpath, hquery]
  · have hquery : cutQuery (a ++ 63 :: (q ++ 35 :: f)) = q := by
      rw [cutQuery, hrest, (takeWhile_ne_append hq f).1]
    have h0q : (0 : UInt8) ∉ q := fun h => h0p (List.mem_append_left _ h)
    rw [List.length_append] at hlen
    have hfits : FragmentFits (a ++ 63 :: (q ++ 35 :: f)) ↔ q.length ≤ f.length + 1 := by
      rw [FragmentFits, hrest, hquery, List.drop_left, List.length_cons, or_iff_right]
      simp
    by_cases hfit : q.length ≤ f.length + 1
    · refine .inl ⟨hfits.mpr hfit, fun v _ => ⟨q ++ 35 :: (f ++ [0]).take q.length, ?_⟩⟩
      rw [hcut, parseQuery_near _ h0q hq (by omega), if_pos hfit, hpath, hquery]
    · refine .inr ⟨fun h => hfit (hfits.mp h), fun v => ?_⟩
      rw [hcut, parseQuery_near _ h0q hq (by omega), if_neg hfit]

/-- `parse` of a text with a scheme, by the first slash behind `://`. -/
theorem Uri.parse_front {scheme front s : Bytes} (hscheme : scheme ≠ [])
    (hschemetext : ∀ c ∈ scheme, isText c ∧ c ≠ 58) (hfile : equals scheme (bytes "file") = false)
    (hne : front ≠ []) (hfront : ∀ c ∈ front, isText c ∧ c ≠ 47) (hs : ∀ c ∈ s, isText c)
    (hslash : s = [] ∨ s.head? = some 47) :
    Uri.parse (scheme ++ bytes "://" ++ (front ++ s)) =
      if LongEnough front s.tail then
        ((({ uri := scheme ++ bytes "://" ++ (front ++ s), scheme } : Uri).parseHost
          (some front)).bind fun u => u.parsePath (if s.tail = [] then [] else s)).map (none, ·)
      else none := by
  cases s with
  | nil =>
    rw [List.append_nil, parse_scheme_hp hscheme hschemetext hne (fun c hc => (hfront c hc).1),
      parseHostAndPath_bare _ hne hfront, parseHp_front hfile hne]
    rw [List.tail_nil, apply_ite (Option.map _)]
    rfl
  | cons c rest =>
    obtain rfl : c = 47 := by simpa using hslash
    rw [parse_scheme hscheme hschemetext hfront (fun c hc => hs c (List.mem_cons_of_mem _ hc)),
      parseHp_front hfile hne]
    rw [List.tail_cons, apply_ite (Option.map _)]
    rfl

end Dframework
