import Mathlib
import Dframework.Library.Rfc3986
import Dframework.Http.HttpLocation

/-!
# The target of a redirect

What the client asks for behind a redirect, compared with what the `Location` means: the target of
that reference against the URI of the request. Locations are references without user information,
and targets are compared as a server sees them, by scheme and host in any case of their letters, by
port, and by the path and the query that the request line puts together.

Results:
1. `Redirect.slash_iff`, `Redirect.http_iff`: the two kinds of references that can come out right.
2. `Redirect.redirect_right_iff`: the references that do.
-/

namespace Dframework

open CLib UriTextLemmas UriFrontLemmas
open Rfc3986 (Reference marked removeDotSegments resolve length_removeDotSegments_le)

namespace Redirect

/-- Host and port as a reference writes them. -/
structure Authority where
  host : Bytes
  port : Option Bytes
  deriving DecidableEq, Repr

def Authority.text (a : Authority) : Bytes :=
  a.host ++ marked 58 a.port

/-- Host and port as they are meant. -/
structure Server where
  host : Bytes
  port : Option Int
  deriving DecidableEq, Repr

/-- An empty port stands for none. -/
def Authority.server (a : Authority) : Server where
  host := a.host
  port := (a.port.filter (· ≠ [])).map fun p => (digitsVal 10 p : Int)

/-- A byte of a reference: ASCII, neither a blank nor a control character. -/
def isUriChar (c : UInt8) : Bool :=
  33 ≤ c && c ≤ 126

/-- The references a `Location` can have. A host with a colon is an address in brackets, and the
port is one of TCP. -/
structure ValidReference (r : Reference Authority) : Prop where
  scheme_chars : ∀ s ∈ r.scheme, s ≠ [] ∧ ∀ c ∈ s, isAlnum c ∨ c = 43 ∨ c = 45 ∨ c = 46
  host_ne : ∀ a ∈ r.authority, a.host ≠ []
  host_chars : ∀ a ∈ r.authority, ∀ c ∈ a.host, isUriChar c ∧ c ≠ 47 ∧ c ≠ 63 ∧ c ≠ 35 ∧ c ≠ 64
  host_literal : ∀ a ∈ r.authority, 58 ∈ a.host → a.host.head? = some 91 ∧ a.host.getLast? = some 93
  port_digits : ∀ a ∈ r.authority, ∀ p ∈ a.port, ∀ c ∈ p, isDigit 10 c
  port_range : ∀ a ∈ r.authority, ∀ p ∈ a.port, p = [] ∨ 1 ≤ digitsVal 10 p ∧ digitsVal 10 p ≤ 65535
  path_chars : ∀ c ∈ r.path, isUriChar c ∧ c ≠ 63 ∧ c ≠ 35
  query_chars : ∀ q ∈ r.query, ∀ c ∈ q, isUriChar c ∧ c ≠ 35
  fragment_chars : ∀ f ∈ r.fragment, ∀ c ∈ f, isUriChar c ∧ c ≠ 35
  path_abempty : r.authority ≠ none → r.path = [] ∨ r.path.head? = some 47
  path_noslashes : r.authority = none → ¬ [47, 47] <+: r.path
  path_noscheme : r.scheme = none → r.authority = none → 58 ∉ r.path.takeWhile (· ≠ 47)

def reference (u : Uri) : Reference Server where
  scheme := some u.scheme
  authority := some ⟨u.host, some u.getPort⟩
  path := u.path
  query := if u.query = [] then none else some u.query
  fragment := none

/-- Path and query as the request line has them. -/
def sentLine (u : Uri) : Bytes :=
  u.path ++ if u.query = [] then [] else 63 :: u.query

/-- The path of a target. An empty one is asked for as `/`. -/
def targetPath (path : Bytes) : Bytes :=
  if path = [] then [47] else path

/-- The request of a round with the URI `u` goes to the target `t`. -/
structure IsTarget (u : Uri) (t : Reference Server) : Prop where
  scheme_eq : t.scheme.map (List.map tolower) = some (u.scheme.map tolower)
  host_eq : t.authority.map (fun a => a.host.map tolower) = some (u.host.map tolower)
  port_eq : t.authority.map (fun a => a.port.getD (getDefaultPort (t.scheme.getD []))) =
    some u.getPort
  path_eq : cutPath (sentLine u) = targetPath t.path
  query_eq : cutRest (sentLine u) = t.query.getD []

/-- The client follows a `Location` to its target. Without a new connection it stays on that of
the request. -/
def Follows (lookup : HostLookup) (base : Uri) (r : Reference Authority) (orgip : Bytes) : Prop :=
  ∃ uri anew, redirect lookup base (r.recompose Authority.text) orgip = some (.ok (uri, anew)) ∧
    IsTarget uri (resolve (reference base) (r.map Authority.server)) ∧
    (anew = false → uri.host = base.host ∧ uri.getPort = base.getPort)

/-- What stands behind the authority. -/
def tailText (r : Reference Authority) : Bytes :=
  r.path ++ (marked 63 r.query ++ marked 35 r.fragment)

/-- The part of it in front of the first slash. -/
def behind (r : Reference Authority) : Bytes :=
  (tailText r).takeWhile (· ≠ 47)

/-- The part of it from the first slash on. -/
def fromSlash (r : Reference Authority) : Bytes :=
  (tailText r).dropWhile (· ≠ 47)

/-- Path, query and fragment that `URI::parse` cuts where they are to be cut: with a path, there is
no dot segment in it, and a fragment only behind a query that is not longer than it by more than
one byte; without a path, there is no query but an empty one, or the query stands once more in the
fragment, behind `/?`. -/
def TailLegible (r : Reference Authority) : Prop :=
  r.path ≠ [] ∧ removeDotSegments r.path = r.path ∧
      (∀ f ∈ r.fragment, ∃ q ∈ r.query, q.length ≤ f.length + 1) ∨
    r.path = [] ∧ 47 ∉ r.query.getD [] ∧
      ((fromSlash r).tail = [] ∧ r.query.getD [] = [] ∨
        fromSlash r = 47 :: 63 :: r.query.getD [])

/-- A reference that `URI::parse` cuts where it is to be cut.
- `long`: the groups of the match are found.
- `no_colon`, `port_given`: the last colon in front of the first slash is that of the port. -/
structure Legible (a : Authority) (r : Reference Authority) : Prop where
  long : LongEnough (a.text ++ behind r) (fromSlash r).tail
  no_colon : 58 ∉ behind r
  port_given : a.port = none → behind r = [] ∧ 58 ∉ a.host
  tail_legible : TailLegible r

/-- An absolute path that replaces all there is to replace. -/
structure PathOnly (base : Uri) (r : Reference Authority) : Prop where
  scheme_eq : r.scheme = none
  authority_eq : r.authority = none
  path_head : r.path.head? = some 47
  no_fragment : r.fragment = none
  no_query : base.query = []
  no_dots : removeDotSegments r.path = r.path

/-- A reference with the scheme `http`, which the request has too when the server is the same. -/
structure HttpUri (base : Uri) (r : Reference Authority) (a : Authority) : Prop where
  scheme_eq : r.scheme = some (bytes "http")
  authority_eq : r.authority = some a
  legible : Legible a r
  same_server : a.host.map tolower = base.host.map tolower → a.server.port.getD 80 = base.getPort →
    base.scheme.map tolower = bytes "http"

variable {r : Reference Authority} {a : Authority} {base : Uri}

/-! ## The text of a reference -/

set_option maxRecDepth 4000 in
theorem isText_of_isUriChar {c : UInt8} (h : isUriChar c) : isText c := by
  revert h
  revert c
  apply forall_byte
  decide

theorem recompose_eq (r : Reference Authority) : r.recompose Authority.text =
    (r.scheme.elim [] (· ++ [58])) ++ (r.authority.elim [] fun a => 47 :: 47 :: a.text) ++
      tailText r := by
  rw [Reference.recompose, tailText]
  cases r.scheme <;> cases r.authority <;> simp

theorem marked_text {c : UInt8} {o : Option Bytes} (hc : isText c)
    (h : ∀ s ∈ o, ∀ x ∈ s, isUriChar x ∧ x ≠ 35) : ∀ x ∈ marked c o, isText x := by
  intro x hx
  cases o with
  | none => cases hx
  | some s =>
    rcases List.mem_cons.mp hx with rfl | hx
    · exact hc
    · exact isText_of_isUriChar (h s rfl x hx).1

theorem tailText_text (h : ValidReference r) : ∀ c ∈ tailText r, isText c := by
  intro c hc
  simp only [tailText, List.mem_append] at hc
  rcases hc with hc | hc | hc
  · exact isText_of_isUriChar (h.path_chars c hc).1
  · exact marked_text (by decide) h.query_chars c hc
  · exact marked_text (by decide) h.fragment_chars c hc

theorem authority_chars (h : ValidReference r) (ha : a ∈ r.authority) :
    ∀ c ∈ a.text, isText c ∧ c ≠ 47 ∧ c ≠ 63 := by
  intro c hc
  rcases List.mem_append.mp hc with hc | hc
  · obtain ⟨htext, h47, h63, -⟩ := h.host_chars a ha c hc
    exact ⟨isText_of_isUriChar htext, h47, h63⟩
  · cases hp : a.port with
    | none => rw [hp] at hc; cases hc
    | some p =>
      rw [hp] at hc
      rcases List.mem_cons.mp hc with rfl | hc
      · decide
      · have hdigit := h.port_digits a ha p hp c hc
        obtain ⟨htext, -, h47⟩ := digit_text hdigit
        refine ⟨htext, h47, ?_⟩
        rintro rfl
        exact absurd hdigit (by decide)

set_option maxRecDepth 4000 in
theorem scheme_char_ne (h : ValidReference r) {s : Bytes} (hs : s ∈ r.scheme) :
    ∀ c ∈ s, isText c ∧ c ≠ 47 ∧ c ≠ 58 := by
  intro c hc
  have hchar := (h.scheme_chars s hs).2 c hc
  revert hchar
  clear hc
  revert c
  apply forall_byte
  decide

theorem recompose_text (h : ValidReference r) : ∀ c ∈ r.recompose Authority.text, isText c := by
  intro c hc
  simp only [recompose_eq, List.mem_append] at hc
  rcases hc with (hc | hc) | hc
  · cases hs : r.scheme with
    | none => rw [hs] at hc; cases hc
    | some s =>
      rw [hs] at hc
      rcases List.mem_append.mp hc with hc | hc
      · exact (scheme_char_ne h hs c hc).1
      · obtain rfl := List.mem_singleton.mp hc
        decide
  · cases ha : r.authority with
    | none => rw [ha] at hc; cases hc
    | some a =>
      rw [ha] at hc
      simp only [Option.elim, List.mem_cons] at hc
      rcases hc with rfl | rfl | hc
      · decide
      · decide
      · exact (authority_chars h ha c hc).1
  · exact tailText_text h c hc

theorem recompose_nul (h : ValidReference r) : (0 : UInt8) ∉ r.recompose Authority.text :=
  not_mem_zero (recompose_text h)

/-- What begins behind a path is a query or a fragment. -/
theorem marked_head (q f : Option Bytes) : ∀ c ∈ (marked 63 q ++ marked 35 f).head?, c = 63 ∨ c = 35 := by
  intro c hc
  cases q with
  | some q => exact .inl (Option.some.inj hc).symm
  | none =>
    cases f with
    | some f => exact .inr (Option.some.inj hc).symm
    | none => cases hc

/-- A text that has a byte behind two parts without it is cut there in one way. -/
theorem append_cons_inj {c : UInt8} {a b t u : Bytes} (ha : c ∉ a) (hb : c ∉ b)
    (h : a ++ c :: t = b ++ c :: u) : a = b ∧ t = u := by
  have hab : a = b := by
    rw [← (takeWhile_ne_append ha t).1, h, (takeWhile_ne_append hb u).1]
  subst hab
  exact ⟨rfl, (List.cons.inj (List.append_cancel_left h)).2⟩

/-- The references that begin with a slash. -/
theorem recompose_head (h : ValidReference r) :
    (r.recompose Authority.text).head? = some 47 ↔
      r.scheme = none ∧ (r.authority ≠ none ∨ r.path.head? = some 47) := by
  rw [recompose_eq]
  cases hs : r.scheme with
  | some s =>
    obtain ⟨c, cs, rfl⟩ := List.exists_cons_of_ne_nil (h.scheme_chars s hs).1
    have hc := (scheme_char_ne h hs c List.mem_cons_self).2.1
    simp [hc]
  | none =>
    cases ha : r.authority with
    | some a => simp
    | none =>
      cases hp : r.path with
      | nil =>
        have hmarked := marked_head r.query r.fragment 47
        simp only [tailText, hp, Option.elim, List.nil_append, List.head?_nil, reduceCtorEq,
          ne_eq, not_true_eq_false, or_self, and_false, iff_false]
        exact fun h47 => absurd (hmarked h47) (by decide)
      | cons c p => simp [tailText, hp]

/-- The references that begin with `http://`. -/
theorem recompose_http (h : ValidReference r) :
    bytes "http://" <+: r.recompose Authority.text ↔
      r.scheme = some (bytes "http") ∧ r.authority ≠ none := by
  have hhttp : bytes "http://" = bytes "http" ++ 58 :: [47, 47] := by decide
  rw [recompose_eq, hhttp]
  cases hs : r.scheme with
  | some s =>
    have h58 : (58 : UInt8) ∉ s := fun hc => (scheme_char_ne h hs 58 hc).2.2 rfl
    simp only [Option.elim, List.append_assoc, Option.some.injEq, List.singleton_append]
    constructor
    · rintro ⟨w, hw⟩
      rw [List.append_assoc, List.cons_append] at hw
      obtain ⟨hscheme, hrest⟩ := append_cons_inj (by decide) h58 hw
      refine ⟨hscheme.symm, fun ha => ?_⟩
      -- two slashes without an authority are no path
      have hpath := h.path_noslashes ha
      have hmarked := marked_head r.query r.fragment 47
      rw [ha, tailText] at hrest
      generalize marked 63 r.query ++ marked 35 r.fragment = m at hrest hmarked
      have hsplit : 47 :: 47 :: w = r.path ++ m := hrest
      match hp : r.path with
      | [] =>
        rw [hp, List.nil_append] at hsplit
        exact absurd (hmarked (by rw [← hsplit]; rfl)) (by decide)
      | [c] =>
        rw [hp, List.singleton_append] at hsplit
        exact absurd (hmarked (by rw [← (List.cons.inj hsplit).2]; rfl)) (by decide)
      | c :: d :: p =>
        rw [hp, List.cons_append, List.cons_append] at hsplit
        obtain ⟨hc, htail⟩ := List.cons.inj hsplit
        refine hpath ⟨p, ?_⟩
        rw [hp, ← hc, ← (List.cons.inj htail).1]
        rfl
    · rintro ⟨rfl, ha⟩
      obtain ⟨a, ha⟩ := Option.ne_none_iff_exists'.mp ha
      exact ⟨a.text ++ tailText r, by simp [ha]⟩
  | none =>
    refine iff_of_false ?_ (by simp)
    cases ha : r.authority with
    | some a =>
      rintro ⟨w, hw⟩
      exact absurd (List.cons.inj hw).1 (by decide)
    | none =>
      simp only [Option.elim, List.nil_append, tailText]
      intro hpre
      have hnone := h.path_noscheme hs ha
      have hmarked := marked_head r.query r.fragment
      generalize marked 63 r.query ++ marked 35 r.fragment = m at hpre hmarked
      have hpre' : bytes "http:" <+: r.path ++ m :=
        (show bytes "http:" <+: bytes "http" ++ 58 :: [47, 47] by decide).trans hpre
      obtain ⟨u, hu⟩ : bytes "http:" <+: r.path := by
        rcases List.prefix_or_prefix_of_prefix hpre' (List.prefix_append r.path m) with hp | ⟨u, hu⟩
        · exact hp
        · cases u with
          | nil => exact ⟨[], by rw [List.append_nil, ← hu, List.append_nil]⟩
          | cons c u =>
            -- the path would end within `http:`, and be followed by one of its bytes
            obtain ⟨w, hw⟩ := hpre'
            rw [← hu, List.append_assoc] at hw
            have hm := List.append_cancel_left hw
            have hc : c ∈ bytes "http:" := hu ▸ List.mem_append_right _ List.mem_cons_self
            have hc' := hmarked c (by rw [← hm]; rfl)
            rcases hc' with rfl | rfl
            · exact absurd hc (by decide)
            · exact absurd hc (by decide)
      refine hnone ?_
      have hslash : ∀ c ∈ bytes "http:", decide (c ≠ 47) = true := by simp [bytes]
      rw [← hu, List.takeWhile_append_of_pos hslash]
      exact List.mem_append_left _ (by decide)

theorem indexOf_http (h : ValidReference r) (hlen : (r.recompose Authority.text).length < 2 ^ 31) :
    indexOf (r.recompose Authority.text) (bytes "http://") = 0 ↔
      r.scheme = some (bytes "http") ∧ r.authority ≠ none := by
  have hneedle : cstr (bytes "http://") = bytes "http://" := by decide
  rw [← recompose_http h, indexOf, hneedle, strstr, cstr_of_not_mem (recompose_nul h)]
  rcases hfind : Search.find (bytes "http://") (r.recompose Authority.text) with _ | i
  · refine iff_of_false (by decide) fun hstart => ?_
    rw [Search.find_of_starts hstart] at hfind
    cases hfind
  · have hint := int_of_lt (show i < 2 ^ 31 by
      have := Search.find_add_length_le hfind
      omega)
    dsimp only
    rw [hint]
    constructor
    · intro h0
      obtain rfl : i = 0 := by omega
      exact Search.find_starts hfind
    · intro hstart
      rw [Search.find_of_starts hstart] at hfind
      rw [← Option.some.inj hfind]
      rfl

/-! ## The path of a target -/

theorem length_targetPath_le (path : Bytes) :
    (targetPath (removeDotSegments path)).length ≤ max 1 path.length := by
  rw [targetPath]
  split
  next => exact le_max_left _ _
  next => exact (length_removeDotSegments_le path).trans (le_max_right _ _)

theorem eq_targetPath_iff {path : Bytes} (hne : path ≠ []) :
    path = targetPath (removeDotSegments path) ↔ removeDotSegments path = path := by
  rw [targetPath]
  split
  next hnil =>
    rw [hnil]
    refine iff_of_false ?_ (Ne.symm hne)
    rintro rfl
    exact absurd hnil (by decide)
  next => exact eq_comm

/-! ## References with a slash in front -/

/-- An absolute path comes out right when it is all there is. -/
theorem slash_iff (h : ValidReference r) (hs : r.scheme = none) (ha : r.authority = none)
    (hp : r.path.head? = some 47) :
    IsTarget { base with path := tailText r }
        (resolve (reference base) (r.map Authority.server)) ↔
      r.fragment = none ∧ base.query = [] ∧ removeDotSegments r.path = r.path := by
  have hne : r.path ≠ [] := by
    intro hnil
    rw [hnil] at hp
    cases hp
  have h63 : (63 : UInt8) ∉ r.path := fun hc => (h.path_chars 63 hc).2.1 rfl
  have htarget : resolve (reference base) (r.map Authority.server) =
      ⟨some base.scheme, some ⟨base.host, some base.getPort⟩, removeDotSegments r.path, r.query,
        r.fragment⟩ := by
    simp only [resolve, Reference.map, reference, hs, ha, hp, hne, Option.map_none, if_false, if_true]
  have hiff : IsTarget { base with path := tailText r }
      (resolve (reference base) (r.map Authority.server)) ↔
        cutPath (sentLine { base with path := tailText r }) =
            targetPath (removeDotSegments r.path) ∧
          cutRest (sentLine { base with path := tailText r }) = r.query.getD [] := by
    rw [htarget]
    exact ⟨fun ht => ⟨ht.path_eq, ht.query_eq⟩, fun ht => ⟨rfl, rfl, rfl, ht.1, ht.2⟩⟩
  rw [hiff, sentLine, tailText]
  cases hq : r.query with
  | some q =>
    have hline : r.path ++ (marked 63 (some q) ++ marked 35 r.fragment) ++
        (if base.query = [] then [] else 63 :: base.query) =
        r.path ++ 63 :: (q ++ (marked 35 r.fragment ++
          (if base.query = [] then [] else 63 :: base.query))) := by
      simp [marked]
    obtain ⟨hpath, hrest⟩ := cut_query (p := q ++ (marked 35 r.fragment ++
      (if base.query = [] then [] else 63 :: base.query))) h63
    rw [hline, hpath, hrest, eq_targetPath_iff hne, Option.getD_some, List.append_right_eq_self,
      List.append_eq_nil_iff, and_comm, and_assoc]
    refine and_congr ?_ (and_congr ?_ Iff.rfl)
    · cases r.fragment <;> simp [marked]
    · by_cases hbq : base.query = [] <;> simp [hbq]
  | none =>
    cases hf : r.fragment with
    | none =>
      simp only [marked, List.append_nil, Option.getD_none, true_and]
      by_cases hbq : base.query = []
      · obtain ⟨hpath, hrest⟩ := cut_plain h63
        rw [if_pos hbq, List.append_nil, hpath, hrest, eq_targetPath_iff hne]
        simp [hbq]
      · obtain ⟨-, hrest⟩ := cut_query (p := base.query) h63
        rw [if_neg hbq, hrest]
        exact iff_of_false (fun hc => hbq hc.2) fun hc => hbq hc.1
    | some f =>
      refine iff_of_false (fun hc => ?_) (by simp)
      have hmark : ∀ x ∈ r.path ++ [35], decide (x ≠ 63) = true := by
        intro x hx
        refine decide_eq_true ?_
        rintro rfl
        rcases List.mem_append.mp hx with hx | hx
        · exact h63 hx
        · exact absurd hx (by decide)
      have hline : r.path ++ (marked 63 none ++ marked 35 (some f)) ++
          (if base.query = [] then [] else 63 :: base.query) =
          (r.path ++ [35]) ++ (f ++ if base.query = [] then [] else 63 :: base.query) := by
        simp [marked]
      -- the mark of the fragment is taken into the path
      have hlen := congrArg List.length hc.1
      rw [hline, cutPath, List.takeWhile_append_of_pos hmark, List.length_append,
        List.length_append, List.length_singleton] at hlen
      have hle := length_targetPath_le r.path
      have hpos := List.length_pos_of_ne_nil hne
      omega

/-- A reference with two slashes in front does not: it is taken for a path. -/
theorem not_target_network (h : ValidReference r) (hs : r.scheme = none)
    (ha : r.authority = some a) :
    ¬ IsTarget { base with path := 47 :: 47 :: a.text ++ tailText r }
      (resolve (reference base) (r.map Authority.server)) := by
  intro ht
  have hpath := ht.path_eq
  have htarget : (resolve (reference base) (r.map Authority.server)).path =
      removeDotSegments r.path := by
    simp only [resolve, Reference.map, hs, ha, Option.map_some]
  have hmark : ∀ x ∈ 47 :: 47 :: a.text ++ r.path, decide (x ≠ 63) = true := by
    intro x hx
    refine decide_eq_true ?_
    rintro rfl
    simp only [List.cons_append, List.mem_cons, List.mem_append] at hx
    rcases hx with hx | hx | hx | hx
    · exact absurd hx (by decide)
    · exact absurd hx (by decide)
    · exact (authority_chars h ha 63 hx).2.2 rfl
    · exact (h.path_chars 63 hx).2.1 rfl
  have hline : sentLine { base with path := 47 :: 47 :: a.text ++ tailText r } =
      (47 :: 47 :: a.text ++ r.path) ++ ((marked 63 r.query ++ marked 35 r.fragment) ++
        if base.query = [] then [] else 63 :: base.query) := by
    simp only [sentLine, tailText, List.append_assoc]
  have hlen := congrArg List.length hpath
  rw [hline, htarget, cutPath, List.takeWhile_append_of_pos hmark, List.length_append,
    List.length_append, List.length_cons, List.length_cons] at hlen
  have hle := length_targetPath_le r.path
  omega

/-! ## In front of the first slash -/

theorem tailText_nil (hp : r.path = []) : tailText r = marked 63 r.query ++ marked 35 r.fragment := by
  rw [tailText, hp, List.nil_append]

theorem cut_slash (hp : r.path.head? = some 47) : behind r = [] ∧ fromSlash r = tailText r := by
  obtain ⟨p, hp⟩ := List.head?_eq_some_iff.mp hp
  have htail : tailText r = 47 :: (p ++ (marked 63 r.query ++ marked 35 r.fragment)) := by
    rw [tailText, hp, List.cons_append]
  rw [behind, fromSlash, htail]
  exact ⟨List.takeWhile_cons_of_neg (by simp), List.dropWhile_cons_of_neg (by simp)⟩

theorem behind_head (hp : r.path = [] ∨ r.path.head? = some 47) :
    ∀ c ∈ (behind r).head?, c = 63 ∨ c = 35 := by
  intro c hc
  rcases hp with hp | hp
  · have hmarked := marked_head r.query r.fragment c
    rw [behind, tailText_nil hp] at hc
    generalize marked 63 r.query ++ marked 35 r.fragment = m at hc hmarked
    cases m with
    | nil => cases hc
    | cons x m =>
      rw [List.takeWhile_cons] at hc
      split at hc
      next => exact hmarked hc
      next => cases hc
  · rw [(cut_slash hp).1] at hc
    cases hc

theorem behind_text (h : ValidReference r) : ∀ c ∈ behind r, isText c ∧ c ≠ 47 := by
  intro c hc
  refine ⟨tailText_text h c (List.takeWhile_subset _ hc), ?_⟩
  exact of_decide_eq_true (List.mem_takeWhile_imp (p := fun x : UInt8 => decide (x ≠ 47)) hc)

/-- The number of a port in front of what follows it. -/
theorem parseInt_port {p b : Bytes} (hd : ∀ c ∈ p, isDigit 10 c)
    (hrange : p = [] ∨ 1 ≤ digitsVal 10 p ∧ digitsVal 10 p ≤ 65535)
    (hb : ∀ c ∈ b.head?, c = 63 ∨ c = 35) : parseInt (toChars (p ++ b)) = digitsVal 10 p := by
  have hstop : ∀ c ∈ b.head?, isDigit 10 c = false := by
    intro c hc
    rcases hb c hc with rfl | rfl
    · decide
    · decide
  by_cases hp : p = []
  · subst hp
    cases b with
    | nil => decide
    | cons c b =>
      rw [List.nil_append, toChars_of_ne_nil (List.cons_ne_nil c b), parseInt]
      rcases hb c rfl with rfl | rfl
      · simp [strtol, strtolSign, strtolPrefix_ten, isspace, hstop 63 rfl, digitsVal]
      · simp [strtol, strtolSign, strtolPrefix_ten, isspace, hstop 35 rfl, digitsVal]
  · have hle := (hrange.resolve_left hp).2
    rw [toChars_of_ne_nil (List.append_ne_nil_of_left_ne_nil hp b), parseInt]
    simp only [strtol_decimal_append hp hd hstop]
    have hmin : min (digitsVal 10 p : Int) (2 ^ 63 - 1) = digitsVal 10 p := by omega
    rw [hmin]
    exact Int.bmod_eq_of_le (by omega) (by omega)

theorem getPort_http {v : Uri} (hscheme : v.scheme = bytes "http") :
    v.getPort = if v.port = 0 then 80 else v.port := by
  have h80 : getDefaultPort (bytes "http") = 80 := by decide
  rw [Uri.getPort, hscheme, h80, ite_not]

/-- The number of the port, 0 when there is none. -/
def Authority.portValue (a : Authority) : Int :=
  ((a.port.map (digitsVal 10)).getD 0 : Nat)

theorem server_port (h : ValidReference r) (ha : r.authority = some a) :
    a.server.port.getD 80 = if a.portValue = 0 then 80 else a.portValue := by
  rw [Authority.portValue, Authority.server]
  cases hp : a.port with
  | none => rfl
  | some p =>
    rcases h.port_range a ha p hp with rfl | hrange
    · rfl
    · have hne : decide (p ≠ []) = true := by
        refine decide_eq_true ?_
        rintro rfl
        exact absurd hrange.1 (by decide)
      have h0 : ¬ ((digitsVal 10 p : Nat) : Int) = 0 := by omega
      have hfilter : (some p).filter (fun q => decide (q ≠ [])) = some p :=
        Option.filter_some_pos (p := fun q : Bytes => decide (q ≠ [])) hne
      simp only [hfilter, Option.map_some, Option.getD_some, if_neg h0]

/-- The text in front of the first slash behind the scheme. -/
theorem front_text (h : ValidReference r) (ha : r.authority = some a) :
    ∀ c ∈ a.text ++ behind r, isText c ∧ c ≠ 47 := by
  intro c hc
  rcases List.mem_append.mp hc with hc | hc
  · exact ⟨(authority_chars h ha c hc).1, (authority_chars h ha c hc).2.1⟩
  · exact behind_text h c hc

theorem zero_not_mem_front (h : ValidReference r) (ha : r.authority = some a) :
    (0 : UInt8) ∉ a.text ++ behind r :=
  not_mem_zero fun c hc => (front_text h ha c hc).1

theorem front_head (h : ValidReference r) (ha : r.authority = some a) :
    (a.text ++ behind r).head? ≠ some 47 := fun hc =>
  (front_text h ha 47 (List.mem_of_mem_head? hc)).2 rfl

/-- Without a port there is nothing to read for one: the last colon would be in the host or behind it,
and not between the two. -/
theorem parseHost_bare_iff (h : ValidReference r) (ha : r.authority = some a) (hp : a.port = none)
    {v w : Uri} (hscheme : v.scheme = bytes "http") (hport : v.port = 0)
    (hlen : (a.text ++ behind r).length < 2 ^ 31)
    (hw : v.parseHost (some (a.text ++ behind r)) = some w) :
    (w.host.map tolower = a.host.map tolower ∧
        w.getPort = if a.portValue = 0 then 80 else a.portValue) ↔
      58 ∉ behind r ∧ behind r = [] ∧ 58 ∉ a.host := by
  have hbehind := behind_head (h.path_abempty (by simp [ha]))
  have h0 := zero_not_mem_front h ha
  have h47 := front_head h ha
  have hfront : a.text ++ behind r = a.host ++ behind r := by
    rw [Authority.text, hp, marked, List.append_nil]
  rw [hfront] at h0 h47 hlen hw
  rcases cut_cases 58 (a.host ++ behind r).reverse with h58 | ⟨t, x, hx, ht⟩
  · rw [List.mem_reverse, List.mem_append, not_or] at h58
    rw [parseHost_plain v h0 h47 (by simp [h58])] at hw
    obtain rfl := Option.some.inj hw
    rw [getPort_http (v := { v with host := a.host ++ behind r }) hscheme]
    simp only [hport, Authority.portValue, hp, Option.map_none, Option.getD_none, List.map_append,
      List.append_right_eq_self, List.map_eq_nil_iff, h58, not_false_eq_true, true_and]
    simp
  · have hsplit : a.host ++ behind r = x.reverse ++ 58 :: t.reverse := by
      rw [← List.reverse_reverse (a.host ++ behind r), hx]
      simp
    have ht' : (58 : UInt8) ∉ t.reverse := by rwa [List.mem_reverse]
    rw [hsplit] at h0 h47 hw
    rw [parseHost_colon v h0 h47 ht' (by rw [hsplit, List.length_append] at hlen; omega)] at hw
    obtain rfl := Option.some.inj hw
    refine iff_of_false ?_ ?_
    · rintro ⟨hhost, -⟩
      have hlen : x.reverse.length = a.host.length := by
        simpa using congrArg List.length hhost
      have hcut := List.append_inj hsplit hlen.symm
      exact absurd (hbehind 58 (by rw [hcut.2]; rfl)) (by decide)
    · rintro ⟨-, hb, hcolon⟩
      rw [hb, List.append_nil] at hsplit
      exact hcolon (by rw [hsplit]; simp)

/-- A port is found when no colon stands behind it. -/
theorem parseHost_port_iff (h : ValidReference r) (ha : r.authority = some a) {p : Bytes}
    (hp : a.port = some p) {v w : Uri} (hscheme : v.scheme = bytes "http")
    (hlen : (a.text ++ behind r).length < 2 ^ 31)
    (hw : v.parseHost (some (a.text ++ behind r)) = some w) :
    (w.host.map tolower = a.host.map tolower ∧
        w.getPort = if a.portValue = 0 then 80 else a.portValue) ↔ 58 ∉ behind r := by
  have hbehind := behind_head (h.path_abempty (by simp [ha]))
  have h0 := zero_not_mem_front h ha
  have h47 := front_head h ha
  have hfront : a.text ++ behind r = a.host ++ 58 :: (p ++ behind r) := by
    rw [Authority.text, hp, marked, List.append_assoc, List.cons_append]
  have hp58 : (58 : UInt8) ∉ p := fun hc => (digit_text (h.port_digits a ha p hp 58 hc)).2.1 rfl
  rw [hfront] at h0 h47 hlen hw
  rcases cut_cases 58 (behind r).reverse with h58 | ⟨t, x, hx, ht⟩
  · rw [List.mem_reverse] at h58
    rw [parseHost_colon v h0 h47 (by simp [hp58, h58])
      (by rw [List.length_append] at hlen; omega)] at hw
    obtain rfl := Option.some.inj hw
    rw [getPort_http (v := { v with host := a.host, port := _ }) hscheme]
    have hvalue : a.portValue = digitsVal 10 p := by
      rw [Authority.portValue, hp]
      rfl
    simp only [parseInt_port (h.port_digits a ha p hp) (h.port_range a ha p hp) hbehind, h58,
      hvalue, not_false_eq_true, and_self]
  · have hsplit : a.host ++ 58 :: (p ++ behind r) =
        (a.host ++ 58 :: (p ++ x.reverse)) ++ 58 :: t.reverse := by
      rw [← List.reverse_reverse (behind r), hx]
      simp
    have ht' : (58 : UInt8) ∉ t.reverse := by rwa [List.mem_reverse]
    rw [hsplit] at h0 h47 hw
    rw [parseHost_colon v h0 h47 ht' (by rw [hsplit, List.length_append] at hlen; omega)] at hw
    obtain rfl := Option.some.inj hw
    refine iff_of_false ?_ ?_
    · rintro ⟨hhost, -⟩
      have hlen := congrArg List.length hhost
      simp at hlen
    · intro hcolon
      refine hcolon ?_
      rw [← List.mem_reverse, hx]
      simp

/-- `___parse_host` finds host and port when the last colon is that of the port. -/
theorem parseHost_iff (h : ValidReference r) (ha : r.authority = some a) {v w : Uri}
    (hscheme : v.scheme = bytes "http") (hport : v.port = 0)
    (hlen : (a.text ++ behind r).length < 2 ^ 31)
    (hw : v.parseHost (some (a.text ++ behind r)) = some w) :
    (w.host.map tolower = a.host.map tolower ∧ w.getPort = a.server.port.getD 80) ↔
      58 ∉ behind r ∧ (a.port = none → behind r = [] ∧ 58 ∉ a.host) := by
  rw [server_port h ha]
  cases hp : a.port with
  | none =>
    rw [parseHost_bare_iff h ha hp hscheme hport hlen hw]
    simp
  | some p =>
    rw [parseHost_port_iff h ha hp hscheme hlen hw]
    simp

/-! ## From the first slash on -/

/-- What `___parse_path` gets: a slash alone is dropped. -/
def readTail (r : Reference Authority) : Bytes :=
  if (fromSlash r).tail = [] then [] else fromSlash r

/-- `___parse_path` finds path and query. -/
def TailRead (r : Reference Authority) : Prop :=
  FragmentFits (readTail r) ∧
    targetPath (cutPath (readTail r)) = targetPath (removeDotSegments r.path) ∧
    cutQuery (readTail r) = r.query.getD []

theorem cut_cons_slash (l : Bytes) :
    cutPath (47 :: l) = 47 :: cutPath l ∧ cutRest (47 :: l) = cutRest l := by
  constructor
  · rw [cutPath, List.takeWhile_cons_of_pos (by decide), cutPath]
  · rw [cutRest, List.dropWhile_cons_of_pos (by decide), cutRest]

theorem cut_nil : FragmentFits [] ∧ cutPath [] = [] ∧ cutQuery [] = [] :=
  ⟨.inl rfl, rfl, rfl⟩

theorem not_mem_hash (h : ValidReference r) : ∀ q ∈ r.query, (35 : UInt8) ∉ q :=
  fun q hq hc => (h.query_chars q hq 35 hc).2 rfl

/-- With a path in it, the tail is cut behind the path. -/
theorem tailRead_iff_of_path (h : ValidReference r) (hp : r.path.head? = some 47) :
    TailRead r ↔ removeDotSegments r.path = r.path ∧
      ∀ f ∈ r.fragment, ∃ q ∈ r.query, q.length ≤ f.length + 1 := by
  have hne : r.path ≠ [] := by
    intro hnil
    rw [hnil] at hp
    cases hp
  have h63 : (63 : UInt8) ∉ r.path := fun hc => (h.path_chars 63 hc).2.1 rfl
  have htarget : targetPath r.path = r.path := if_neg hne
  rw [TailRead, readTail, (cut_slash hp).2]
  by_cases hslash : (tailText r).tail = []
  · -- the path is the slash alone
    obtain ⟨p, hp'⟩ := List.head?_eq_some_iff.mp hp
    have htail := hslash
    rw [tailText, hp', List.cons_append, List.tail_cons, List.append_eq_nil_iff,
      List.append_eq_nil_iff] at htail
    obtain ⟨rfl, hq, hf⟩ := htail
    have hquery : r.query = none := by
      cases hq' : r.query with
      | none => rfl
      | some q => rw [hq'] at hq; cases hq
    have hfragment : r.fragment = none := by
      cases hf' : r.fragment with
      | none => rfl
      | some f => rw [hf'] at hf; cases hf
    rw [if_pos hslash, hquery, hfragment, hp']
    refine iff_of_true ⟨cut_nil.1, by decide, rfl⟩ ⟨by decide, ?_⟩
    rintro f ⟨⟩
  rw [if_neg hslash, tailText]
  cases hq : r.query with
  | some q =>
    have h35 := not_mem_hash h q hq
    obtain ⟨hpath, hrest⟩ := cut_query (p := q ++ marked 35 r.fragment) h63
    have hline : r.path ++ (marked 63 (some q) ++ marked 35 r.fragment) =
        r.path ++ 63 :: (q ++ marked 35 r.fragment) := rfl
    rw [hline, hpath, htarget, eq_targetPath_iff hne, FragmentFits, cutQuery, hrest]
    cases hf : r.fragment with
    | none =>
      rw [marked, List.append_nil, (takeWhile_ne_self h35).1]
      simp
    | some f =>
      rw [marked, (takeWhile_ne_append h35 f).1, List.drop_left]
      simp [and_comm]
  | none =>
    cases hf : r.fragment with
    | none =>
      obtain ⟨hpath, hrest⟩ := cut_plain h63
      simp only [marked, List.append_nil]
      rw [hpath, htarget, eq_targetPath_iff hne, FragmentFits, cutQuery, hrest]
      simp
    | some f =>
      refine iff_of_false ?_ ?_
      · rintro ⟨-, hpath, -⟩
        have hmark : ∀ x ∈ r.path ++ [35], decide (x ≠ 63) = true := by
          intro x hx
          refine decide_eq_true ?_
          rintro rfl
          rcases List.mem_append.mp hx with hx | hx
          · exact h63 hx
          · exact absurd hx (by decide)
        have hline : r.path ++ (marked 63 none ++ marked 35 (some f)) = (r.path ++ [35]) ++ f := by
          simp [marked]
        rw [hline, cutPath, List.takeWhile_append_of_pos hmark, targetPath,
          if_neg (by simp)] at hpath
        have hlen := congrArg List.length hpath
        rw [List.length_append, List.length_append, List.length_singleton] at hlen
        have hle := length_targetPath_le r.path
        have hpos := List.length_pos_of_ne_nil hne
        omega
      · rintro ⟨-, hall⟩
        obtain ⟨q, ⟨⟩, -⟩ := hall f rfl

/-- The root and a query, cut out of a text that begins with a slash. -/
theorem cut_root_iff {l q : Bytes} (hne : l ≠ []) (h35 : (35 : UInt8) ∉ l) :
    (FragmentFits (47 :: l) ∧ targetPath (cutPath (47 :: l)) = [47] ∧ cutQuery (47 :: l) = q) ↔
      l = 63 :: q := by
  obtain ⟨hpath, hrest⟩ := cut_cons_slash l
  rw [FragmentFits, cutQuery, hpath, hrest, targetPath, if_neg (List.cons_ne_nil _ _)]
  obtain ⟨c, t, rfl⟩ := List.exists_cons_of_ne_nil hne
  by_cases hc : c = 63
  · subst hc
    have ht : (35 : UInt8) ∉ t := fun h => h35 (List.mem_cons_of_mem _ h)
    obtain ⟨hpath', hrest'⟩ := cut_query (a := []) (p := t) List.not_mem_nil
    rw [List.nil_append] at hpath' hrest'
    rw [hpath', hrest', (takeWhile_ne_self ht).1]
    simp
  · refine iff_of_false ?_ fun h => hc (List.cons.inj h).1
    rintro ⟨-, h, -⟩
    rw [cutPath, List.takeWhile_cons_of_pos (by simp [hc])] at h
    cases (List.cons.inj h).2

theorem marked_hash_takeWhile (f : Option Bytes) :
    (marked 35 f).takeWhile (· ≠ 35) = [] := by
  cases f with
  | none => rfl
  | some f => exact List.takeWhile_cons_of_neg (by simp)

/-- A query with a slash in it is not read. -/
theorem not_tailRead_of_slash {q x l : Bytes} {f : Option Bytes} (h35 : (35 : UInt8) ∉ q)
    (h47 : (47 : UInt8) ∈ q) (hne : l ≠ []) (hx : (47 : UInt8) ∉ x)
    (hcut : marked 63 (some q) ++ marked 35 f = x ++ 47 :: l)
    (hpath : targetPath (cutPath (47 :: l)) = [47]) (hquery : cutQuery (47 :: l) = q) : False := by
  obtain ⟨z, y, rfl, hz⟩ := List.eq_append_cons_of_mem h47
  have hsplit : (63 :: z) ++ 47 :: (y ++ marked 35 f) = x ++ 47 :: l := by
    rw [← hcut]
    simp [marked]
  obtain ⟨-, rfl⟩ := append_cons_inj (by simp [hz]) hx hsplit
  obtain ⟨hpath', hrest⟩ := cut_cons_slash (y ++ marked 35 f)
  rw [hpath', targetPath, if_neg (List.cons_ne_nil _ _)] at hpath
  rw [cutQuery, hrest] at hquery
  have hpath := (List.cons.inj hpath).2
  cases y with
  | nil =>
    cases f with
    | none => exact hne rfl
    | some f =>
      rw [List.nil_append, marked, cutPath, List.takeWhile_cons_of_pos (by decide)] at hpath
      cases hpath
  | cons c y =>
    by_cases hc : c = 63
    · subst hc
      have hy : (35 : UInt8) ∉ y := fun hm => h35 (by simp [hm])
      have hall : ∀ b ∈ y, decide (b ≠ 35) = true := fun b hb =>
        decide_eq_true fun heq => hy (heq ▸ hb)
      obtain ⟨-, hrest'⟩ := cut_query (a := []) (p := y ++ marked 35 f) List.not_mem_nil
      have hlen := congrArg List.length hquery
      rw [List.cons_append, ← List.nil_append (63 :: _), hrest',
        List.takeWhile_append_of_pos hall, marked_hash_takeWhile] at hlen
      simp only [List.length_append, List.length_nil, List.length_cons] at hlen
      omega
    · rw [List.cons_append, cutPath, List.takeWhile_cons_of_pos (by simp [hc])] at hpath
      cases hpath

/-- Without a slash in the query, the first slash is one of the fragment. -/
theorem not_mem_of_cut {q f : Option Bytes} {x l : Bytes} (h35 : ∀ s ∈ f, (35 : UInt8) ∉ s)
    (h47 : (47 : UInt8) ∉ q.getD []) (hx : (47 : UInt8) ∉ x)
    (hcut : marked 63 q ++ marked 35 f = x ++ 47 :: l) : (35 : UInt8) ∉ l := by
  have hq : (47 : UInt8) ∉ marked 63 q := by
    cases q with
    | none => exact List.not_mem_nil
    | some q => simpa [marked] using h47
  cases f with
  | none =>
    rw [marked, List.append_nil] at hcut
    exact absurd (show (47 : UInt8) ∈ marked 63 q by rw [hcut]; simp) hq
  | some f =>
    have hmem : (47 : UInt8) ∈ f := by
      have hall : (47 : UInt8) ∈ marked 63 q ++ marked 35 (some f) := by rw [hcut]; simp
      rcases List.mem_append.mp hall with hm | hm
      · exact absurd hm hq
      · exact (List.mem_cons.mp hm).resolve_left (by decide)
    obtain ⟨z, y, rfl, hz⟩ := List.eq_append_cons_of_mem hmem
    have hsplit : (marked 63 q ++ 35 :: z) ++ 47 :: y = x ++ 47 :: l := by
      rw [← hcut]
      simp [marked]
    obtain ⟨-, rfl⟩ := append_cons_inj (by simp [hq, hz]) hx hsplit
    exact fun hm => h35 _ rfl (by simp [hm])

/-- Without a path, the tail is cut somewhere in the query or in the fragment. -/
theorem tailRead_iff_of_nil (h : ValidReference r) (hp : r.path = []) :
    TailRead r ↔ 47 ∉ r.query.getD [] ∧
      ((fromSlash r).tail = [] ∧ r.query.getD [] = [] ∨
        fromSlash r = 47 :: 63 :: r.query.getD []) := by
  have hroot : targetPath (removeDotSegments r.path) = [47] := by
    rw [hp]
    decide
  rw [TailRead, hroot, readTail]
  by_cases hslash : (fromSlash r).tail = []
  · have hno : fromSlash r ≠ 47 :: 63 :: r.query.getD [] := by
      intro heq
      rw [heq] at hslash
      cases hslash
    rw [if_pos hslash, or_iff_left hno]
    refine ⟨fun hr => ?_, fun hr => ⟨cut_nil.1, rfl, hr.2.2.symm⟩⟩
    have hquery : r.query.getD [] = [] := hr.2.2.symm
    exact ⟨by rw [hquery]; exact List.not_mem_nil, hslash, hquery⟩
  rw [if_neg hslash]
  rcases cut_cases 47 (tailText r) with h47 | ⟨x, l, hcut, hx⟩
  · refine absurd ?_ hslash
    rw [fromSlash, (takeWhile_ne_self h47).2]
    rfl
  have hl : fromSlash r = 47 :: l := by rw [fromSlash, hcut, (takeWhile_ne_append hx l).2]
  rw [hl, List.tail_cons] at hslash
  rw [hl, List.tail_cons]
  rw [tailText_nil hp] at hcut
  by_cases h47 : 47 ∈ r.query.getD []
  · refine iff_of_false (fun hr => ?_) fun hr => hr.1 h47
    -- the query would be shorter than itself
    cases hq : r.query with
    | none => rw [hq] at h47; exact List.not_mem_nil h47
    | some q =>
      rw [hq] at h47 hr hcut
      exact not_tailRead_of_slash (not_mem_hash h q hq) h47 hslash hx hcut hr.2.1 hr.2.2
  · rw [cut_root_iff hslash (not_mem_of_cut (fun f hf hc => (h.fragment_chars f hf 35 hc).2 rfl) h47 hx hcut)]
    simp [h47, hslash]

theorem tailRead_iff (h : ValidReference r) (hpath : r.path = [] ∨ r.path.head? = some 47) :
    TailRead r ↔ TailLegible r := by
  rcases hpath with hnil | hslash
  · exact (tailRead_iff_of_nil h hnil).trans ⟨fun hr => .inr ⟨hnil, hr⟩,
      fun hr => (hr.resolve_left fun hl => hl.1 hnil).2⟩
  · have hne : r.path ≠ [] := by
      intro hnil
      rw [hnil] at hslash
      cases hslash
    exact (tailRead_iff_of_path h hslash).trans ⟨fun hr => .inl ⟨hne, hr⟩,
      fun hr => (hr.resolve_right fun hl => hne hl.1).2⟩

theorem zero_not_mem_readTail (h : ValidReference r) : (0 : UInt8) ∉ readTail r := by
  rw [readTail]
  split
  next => exact List.not_mem_nil
  next => exact fun hc => not_mem_zero (tailText_text h) (List.dropWhile_subset _ hc)

/-! ## References with a scheme -/

/-- The parts of a reference are no longer than it is. -/
theorem reference_lengths (hlen : (r.recompose Authority.text).length < 2 ^ 31)
    (hs : r.scheme = some (bytes "http")) (ha : r.authority = some a) :
    (a.text ++ behind r).length < 2 ^ 31 ∧ (readTail r).length < 2 ^ 31 := by
  have htail := congrArg List.length
    (List.takeWhile_append_dropWhile (p := fun x : UInt8 => x ≠ 47) (l := tailText r))
  have hle : (readTail r).length ≤ (fromSlash r).length := by
    rw [readTail]
    split_ifs
    · exact Nat.zero_le _
    · exact le_rfl
  rw [recompose_eq, hs, ha] at hlen
  simp only [Option.elim, List.length_append, List.length_cons, List.length_nil] at hlen htail
  rw [List.length_append]
  constructor
  · exact lt_of_le_of_lt (by rw [behind]; omega) hlen
  · exact lt_of_le_of_lt (by rw [fromSlash] at hle; omega) hlen

theorem equals_iff {s t : Bytes} (hs : (0 : UInt8) ∉ s) (ht : (0 : UInt8) ∉ t) :
    equals s t = true ↔ s.map tolower = t.map tolower := by
  rw [equals, cstr_of_not_mem hs, cstr_of_not_mem ht]
  split
  next hnil => simp [hnil, eq_comm]
  next => exact decide_eq_true_iff

/-- `___parse_host` leaves the other fields, and takes the host out of the text. -/
theorem parseHost_fields {v w : Uri} {s : Bytes} (hv : v.host = []) (h0 : (0 : UInt8) ∉ s)
    (hw : v.parseHost (some s) = some w) :
    w.scheme = v.scheme ∧ w.query = v.query ∧ (0 : UInt8) ∉ w.host := by
  obtain ⟨host, port, hkeep⟩ := parseHost_keeps hw
  refine ⟨by rw [hkeep], by rw [hkeep], ?_⟩
  rw [Uri.parseHost] at hw
  by_cases h47 : s.head? = some 47
  · rw [if_pos h47] at hw
    rw [← Option.some.inj hw, hv]
    exact List.not_mem_nil
  · rw [if_neg h47] at hw
    dsimp only at hw
    split_ifs at hw
    · rw [← Option.some.inj hw]
      exact not_mem_cstr s
    · rw [← Option.some.inj hw]
      exact fun hc => h0 (List.take_subset _ _ hc)

theorem not_mem_cutPath (s : Bytes) : (63 : UInt8) ∉ cutPath s := fun hc =>
  of_decide_eq_true (List.mem_takeWhile_imp (p := fun x : UInt8 => decide (x ≠ 63)) hc) rfl

/-- The request line of a path without a question mark is read again as it was put together. -/
theorem cut_sentLine {u : Uri} (h : (63 : UInt8) ∉ u.path) :
    cutPath (sentLine u) = u.path ∧ cutRest (sentLine u) = u.query := by
  rw [sentLine]
  by_cases hq : u.query = []
  · rw [if_pos hq, List.append_nil, hq]
    exact cut_plain h
  · rw [if_neg hq]
    exact cut_query h

/-- The target of a reference with the scheme `http`. -/
theorem isTarget_http_iff (hs : r.scheme = some (bytes "http")) (ha : r.authority = some a) {u : Uri}
    (h63 : (63 : UInt8) ∉ u.path) :
    IsTarget u (resolve (reference base) (r.map Authority.server)) ↔
      u.scheme.map tolower = bytes "http" ∧
        (u.host.map tolower = a.host.map tolower ∧ u.getPort = a.server.port.getD 80) ∧
        u.path = targetPath (removeDotSegments r.path) ∧ u.query = r.query.getD [] := by
  have htarget : resolve (reference base) (r.map Authority.server) =
      ⟨some (bytes "http"), some a.server, removeDotSegments r.path, r.query, r.fragment⟩ := by
    simp only [resolve, Reference.map, hs, ha, Option.map_some]
  have hlower : (bytes "http").map tolower = bytes "http" := by decide
  have h80 : getDefaultPort (bytes "http") = 80 := by decide
  obtain ⟨hpath, hquery⟩ := cut_sentLine h63
  rw [htarget]
  constructor
  · intro ht
    have hscheme := Option.some.inj ht.scheme_eq
    have hhost := Option.some.inj ht.host_eq
    have hport := Option.some.inj ht.port_eq
    simp only [Option.getD_some, h80] at hport
    rw [hlower] at hscheme
    exact ⟨hscheme.symm, ⟨hhost.symm, hport.symm⟩, hpath ▸ ht.path_eq, hquery ▸ ht.query_eq⟩
  · rintro ⟨hscheme, ⟨hhost, hport⟩, hpath', hquery'⟩
    refine ⟨?_, congrArg some hhost.symm, ?_, hpath.trans hpath', hquery.trans hquery'⟩
    · rw [hscheme, Option.map_some, hlower]
    · simp only [Option.map_some, Option.getD_some, h80, hport]

variable {lookup : HostLookup} {orgip : Bytes}

/-- What `parse` makes of a reference with the scheme `http`. -/
theorem parse_reference (h : ValidReference r) (hs : r.scheme = some (bytes "http"))
    (ha : r.authority = some a) : ∃ u : Uri, u.scheme = bytes "http" ∧ u.host = [] ∧ u.port = 0 ∧
      u.query = [] ∧ Uri.parse (r.recompose Authority.text) =
        if LongEnough (a.text ++ behind r) (fromSlash r).tail then
          ((u.parseHost (some (a.text ++ behind r))).bind
            fun v => v.parsePath (readTail r)).map (none, ·)
        else none := by
  have htext : r.recompose Authority.text =
      bytes "http" ++ bytes "://" ++ ((a.text ++ behind r) ++ fromSlash r) := by
    have hmark : bytes "://" = 58 :: 47 :: 47 :: [] := by decide
    rw [recompose_eq, hs, ha, hmark, behind, fromSlash, List.append_assoc a.text,
      List.takeWhile_append_dropWhile]
    simp
  have hne : a.text ++ behind r ≠ [] :=
    List.append_ne_nil_of_left_ne_nil (List.append_ne_nil_of_left_ne_nil (h.host_ne a ha) _) _
  have hslash : fromSlash r = [] ∨ (fromSlash r).head? = some 47 := by
    rcases cut_cases 47 (tailText r) with h47 | ⟨x, l, hcut, hx⟩
    · exact .inl (takeWhile_ne_self h47).2
    · rw [fromSlash, hcut, (takeWhile_ne_append hx l).2]
      exact .inr rfl
  refine ⟨{ uri := r.recompose Authority.text, scheme := bytes "http" }, rfl, rfl, rfl, rfl, ?_⟩
  rw [htext]
  exact Uri.parse_front (by decide)
    (fun c hc => ⟨(scheme_char_ne h hs c hc).1, (scheme_char_ne h hs c hc).2.2⟩) (by decide) hne
    (front_text h ha) (fun c hc => tailText_text h c (List.dropWhile_subset _ hc)) hslash

theorem follows_iff_of_redirect {u : Uri} {anew : Bool}
    (hredirect : redirect lookup base (r.recompose Authority.text) orgip = some (.ok (u, anew))) :
    Follows lookup base r orgip ↔
      IsTarget u (resolve (reference base) (r.map Authority.server)) ∧
        (anew = false → u.host = base.host ∧ u.getPort = base.getPort) := by
  constructor
  · rintro ⟨uri, anew', hr, ht⟩
    obtain ⟨rfl, rfl⟩ := Prod.mk.inj (Except.ok.inj (Option.some.inj (hredirect.symm.trans hr)))
    exact ht
  · exact fun ht => ⟨u, anew, hredirect, ht⟩

/-- What has been read is the target, but for the scheme. -/
def MeetsTarget (w : Uri) (r : Reference Authority) (a : Authority) : Prop :=
  (w.host.map tolower = a.host.map tolower ∧ w.getPort = a.server.port.getD 80) ∧
    targetPath w.path = targetPath (removeDotSegments r.path) ∧ w.query = r.query.getD []

theorem not_mem_targetPath {p : Bytes} (h : (63 : UInt8) ∉ p) :
    (63 : UInt8) ∉ (if p = [] then bytes "/" else p) := by
  split
  next => decide
  next => exact h

section

variable (hlookup : Resolves lookup) (hbase : RoundUri base) (h : ValidReference r)
  (hlen : (r.recompose Authority.text).length < 2 ^ 31) (hs : r.scheme = some (bytes "http"))
  (ha : r.authority = some a) {w : Uri}
  (hparse : Uri.parse (r.recompose Authority.text) = some (none, w)) (h63 : (63 : UInt8) ∉ w.path)

include h hlen hs ha

theorem http_head : (r.recompose Authority.text).head? ≠ some 47 ∧
    indexOf (r.recompose Authority.text) (bytes "http://") = 0 := by
  constructor
  · rw [Ne, recompose_head h, hs]
    simp
  · exact (indexOf_http h hlen).mpr ⟨hs, by simp [ha]⟩

include hlookup hbase hparse h63

/-- On the server of the request its URI gets path and query of the reference. -/
theorem follows_same_iff (hhost : equals w.host base.host = true) (hport : w.getPort = base.getPort)
    (hhost0 : (0 : UInt8) ∉ w.host) (hpath0 : (0 : UInt8) ∉ w.path) (hquery0 : (0 : UInt8) ∉ w.query) :
    Follows lookup base r orgip ↔ base.scheme.map tolower = bytes "http" ∧ MeetsTarget w r a := by
  obtain ⟨hhead, hhttp⟩ := http_head h hlen hs ha
  have hsame : w.host.map tolower = base.host.map tolower := (equals_iff hhost0 hbase.host_chars).mp hhost
  rw [follows_iff_of_redirect
    (redirect_same hhead hhttp hlookup hbase hparse hhost hport hpath0 hquery0),
    isTarget_http_iff hs ha (not_mem_targetPath h63), MeetsTarget, hsame, hport]
  exact ⟨fun ht => ht.1, fun ht => ⟨ht, fun _ => ⟨rfl, rfl⟩⟩⟩

/-- Elsewhere it is the URI of the reference. -/
theorem follows_other_iff (hother : ¬ (equals w.host base.host = true ∧ w.getPort = base.getPort))
    (hscheme : w.scheme = bytes "http") (hport : w.getPort ≠ 0) (hhost : w.host ≠ []) :
    Follows lookup base r orgip ↔ MeetsTarget w r a := by
  obtain ⟨hhead, hhttp⟩ := http_head h hlen hs ha
  have hne : w.scheme ≠ [] := by
    rw [hscheme]
    decide
  have hlower : w.scheme.map tolower = bytes "http" := by
    rw [hscheme]
    decide
  rw [follows_iff_of_redirect (redirect_other hhead hhttp hlookup hbase hparse hother hne hport hhost),
    isTarget_http_iff hs ha (not_mem_targetPath h63), MeetsTarget]
  exact ⟨fun ht => ht.1.2, fun ht => ⟨⟨hlower, ht⟩, fun htrue => Bool.noConfusion htrue⟩⟩

end

/-- A reference with the scheme `http` comes out right when it is legible, and when the request had
that scheme too or goes to another server. -/
theorem http_iff (hlookup : Resolves lookup) (hbase : RoundUri base) (h : ValidReference r)
    (hlen : (r.recompose Authority.text).length < 2 ^ 31) (hs : r.scheme = some (bytes "http"))
    (ha : r.authority = some a) :
    Follows lookup base r orgip ↔ Legible a r ∧
      (a.host.map tolower = base.host.map tolower → a.server.port.getD 80 = base.getPort →
        base.scheme.map tolower = bytes "http") := by
  obtain ⟨hhead, hhttp⟩ := http_head h hlen hs ha
  obtain ⟨u, huscheme, huhost, huport, huquery, hparse⟩ := parse_reference h hs ha
  have hread0 := zero_not_mem_readTail h
  obtain ⟨hfrontlen, hreadlen⟩ := reference_lengths hlen hs ha
  obtain ⟨v, hv⟩ := parseHost_exists u hfrontlen
  obtain ⟨hvscheme, hvquery, hvhost⟩ := parseHost_fields huhost (zero_not_mem_front h ha) hv
  have hfront := parseHost_iff h ha huscheme huport hfrontlen hv
  rw [hv, Option.bind_some] at hparse
  rw [huscheme] at hvscheme
  rw [huquery] at hvquery
  have hlegible : Legible a r ↔ LongEnough (a.text ++ behind r) (fromSlash r).tail ∧
      (v.host.map tolower = a.host.map tolower ∧ v.getPort = a.server.port.getD 80) ∧ TailRead r := by
    rw [hfront, tailRead_iff h (h.path_abempty (by simp [ha]))]
    exact ⟨fun hl => ⟨hl.long, ⟨hl.no_colon, hl.port_given⟩, hl.tail_legible⟩,
      fun hl => ⟨hl.1, hl.2.1.1, hl.2.1.2, hl.2.2⟩⟩
  -- a text that is not read leads nowhere
  have hunread : Uri.parse (r.recompose Authority.text) = none → ¬ Follows lookup base r orgip := by
    rintro hnone ⟨uri, anew, hredirect, -⟩
    rw [redirect_none hhead hhttp hnone] at hredirect
    cases hredirect
  by_cases hlong : LongEnough (a.text ++ behind r) (fromSlash r).tail
  swap
  · rw [if_neg hlong] at hparse
    exact iff_of_false (hunread hparse) fun hr => hlong (hlegible.mp hr.1).1
  rw [if_pos hlong] at hparse
  rcases parsePath_cut hread0 hreadlen with ⟨hfits, hsome⟩ | ⟨hfits, hnone⟩
  swap
  · rw [hnone v] at hparse
    exact iff_of_false (hunread hparse) fun hr => hfits (hlegible.mp hr.1).2.2.1
  obtain ⟨fragment, hw⟩ := hsome v hvquery
  set w : Uri := { v with
    path := cutPath (readTail r)
    query := cutQuery (readTail r)
    fragment } with hwdef
  have hparse' : Uri.parse (r.recompose Authority.text) = some (none, w) := by rw [hparse, hw]; rfl
  have hwpath0 : (0 : UInt8) ∉ w.path := fun hc => hread0 (List.takeWhile_subset _ hc)
  have hwquery0 : (0 : UInt8) ∉ w.query := fun hc =>
    hread0 (List.dropWhile_subset _ (List.drop_subset _ _ (List.takeWhile_subset _ hc)))
  have h63 : (63 : UInt8) ∉ w.path := not_mem_cutPath _
  have hlegible' : Legible a r ↔ MeetsTarget w r a :=
    hlegible.trans ⟨fun hl => ⟨hl.2.1, hl.2.2.2⟩, fun hl => ⟨hlong, hl.1, hfits, hl.2⟩⟩
  rw [hlegible']
  by_cases hsame : equals w.host base.host = true ∧ w.getPort = base.getPort
  · rw [follows_same_iff hlookup hbase h hlen hs ha hparse' h63 hsame.1 hsame.2 hvhost hwpath0 hwquery0]
    have hhost := (equals_iff hvhost hbase.host_chars).mp hsame.1
    constructor
    · exact fun ⟨hscheme, ht⟩ => ⟨ht, fun _ _ => hscheme⟩
    · exact fun ⟨ht, hscheme⟩ =>
        ⟨hscheme (ht.1.1.symm.trans hhost) (ht.1.2.symm.trans hsame.2), ht⟩
  by_cases hwhost : w.host = []
  · obtain ⟨e, he⟩ : ∃ e, redirect lookup base (r.recompose Authority.text) orgip = some (.error e) :=
      redirect_hostless hhead hhttp hlookup hbase hparse' hwhost
    refine iff_of_false ?_ ?_
    · rintro ⟨uri, anew, hr, -⟩
      rw [he] at hr
      cases hr
    · rintro ⟨⟨⟨hh, -⟩, -⟩, -⟩
      rw [hwhost, List.map_nil] at hh
      exact h.host_ne a ha (List.map_eq_nil_iff.mp hh.symm)
  have hwport : w.getPort ≠ 0 := by
    rw [getPort_http (v := w) hvscheme]
    split
    next => decide
    next h0 => exact h0
  rw [follows_other_iff hlookup hbase h hlen hs ha hparse' h63 hsame hvscheme hwport hwhost]
  refine ⟨fun ht => ⟨ht, fun hh hport => ?_⟩, And.left⟩
  exact absurd ⟨(equals_iff hvhost hbase.host_chars).mpr (ht.1.1.trans hh), ht.1.2.trans hport⟩ hsame

/-! ## All references -/

/-- A redirect is followed to the target of its `Location` exactly for an absolute path without a
fragment and dot segments that stands against a URI without a query, and for a legible reference
with the scheme `http` that does not take the same server away from another scheme. -/
theorem redirect_right_iff (lookup : HostLookup) (hlookup : Resolves lookup) (base : Uri)
    (hbase : RoundUri base) (r : Reference Authority) (h : ValidReference r)
    (hlen : (r.recompose Authority.text).length < 2 ^ 31) (orgip : Bytes) :
    Follows lookup base r orgip ↔ PathOnly base r ∨ ∃ a, HttpUri base r a := by
  by_cases hhead : (r.recompose Authority.text).head? = some 47
  · obtain ⟨hs, hslash⟩ := (recompose_head h).mp hhead
    have hredirect : redirect lookup base (r.recompose Authority.text) orgip = _ :=
      redirect_slash hlookup hbase hhead (recompose_nul h)
    have hnohttp : ¬ ∃ a, HttpUri base r a := by
      rintro ⟨a, ha⟩
      rw [ha.scheme_eq] at hs
      cases hs
    have hfollows : Follows lookup base r orgip ↔
        IsTarget { base with path := r.recompose Authority.text }
          (resolve (reference base) (r.map Authority.server)) := by
      constructor
      · rintro ⟨uri, anew, hr, ht, -⟩
        rw [hredirect] at hr
        obtain ⟨rfl, -⟩ := Prod.mk.inj (Except.ok.inj (Option.some.inj hr))
        exact ht
      · exact fun ht => ⟨_, _, hredirect, ht, fun _ => ⟨rfl, rfl⟩⟩
    rw [hfollows, or_iff_left hnohttp, recompose_eq, hs]
    cases ha : r.authority with
    | some a =>
      exact iff_of_false (not_target_network h hs ha) fun hp => by
        rw [hp.authority_eq] at ha
        cases ha
    | none =>
      have hp := hslash.resolve_left (not_not.mpr ha)
      refine (slash_iff h hs ha hp).trans ⟨fun hr => ⟨hs, ha, hp, hr.1, hr.2.1, hr.2.2⟩, ?_⟩
      exact fun hr => ⟨hr.no_fragment, hr.no_query, hr.no_dots⟩
  · have hnopath : ¬ PathOnly base r := fun hp =>
      hhead ((recompose_head h).mpr ⟨hp.scheme_eq, .inr hp.path_head⟩)
    rw [or_iff_right hnopath]
    by_cases hhttp : indexOf (r.recompose Authority.text) (bytes "http://") = 0
    · obtain ⟨hs, ha⟩ := (indexOf_http h hlen).mp hhttp
      obtain ⟨a, ha⟩ := Option.ne_none_iff_exists'.mp ha
      refine (http_iff hlookup hbase h hlen hs ha).trans ⟨fun hr => ⟨a, hs, ha, hr.1, hr.2⟩, ?_⟩
      rintro ⟨a', ha'⟩
      obtain rfl := Option.some.inj (ha.symm.trans ha'.authority_eq)
      exact ⟨ha'.legible, ha'.same_server⟩
    · have hrelative : redirect lookup base (r.recompose Authority.text) orgip = none ∨
          ∃ e, redirect lookup base (r.recompose Authority.text) orgip = some (.error e) :=
        redirect_relative hhead hhttp
      refine iff_of_false ?_ ?_
      · rintro ⟨uri, anew, hr, -⟩
        rcases hrelative with hnone | ⟨e, he⟩
        · rw [hnone] at hr
          cases hr
        · rw [he] at hr
          cases hr
      · rintro ⟨a, ha⟩
        exact hhttp ((indexOf_http h hlen).mpr ⟨ha.scheme_eq, by simp [ha.authority_eq]⟩)

/-- Every name has an address. -/
def exLookup : HostLookup := fun _ => .ok [bytes "192.0.2.1"]

theorem exLookup_resolves : Resolves exLookup := fun _ => ⟨_, _, rfl⟩

/-- `http://h.org/a`. -/
def exBase : Uri where
  scheme := bytes "http"
  host := bytes "h.org"
  path := bytes "/a"

theorem exBase_roundUri : RoundUri exBase :=
  have hready : HttpRound.ready exLookup exBase = .ok exBase := rfl
  HttpRound.ready_roundUri (by decide) hready

/-- `/b` and `b`, without scheme and host. -/
def exReference (path : Bytes) : Reference Authority :=
  ⟨none, none, path, none, none⟩

theorem exReference_valid {path : Bytes} (hchars : ∀ c ∈ path, isUriChar c ∧ c ≠ 63 ∧ c ≠ 35)
    (hslashes : ¬ [47, 47] <+: path) (hcolon : 58 ∉ path) : ValidReference (exReference path) where
  scheme_chars := by rintro s ⟨⟩
  host_ne := by rintro a ⟨⟩
  host_chars := by rintro a ⟨⟩
  host_literal := by rintro a ⟨⟩
  port_digits := by rintro a ⟨⟩
  port_range := by rintro a ⟨⟩
  path_chars := hchars
  query_chars := by rintro q ⟨⟩
  fragment_chars := by rintro f ⟨⟩
  path_abempty := fun ha => absurd rfl ha
  path_noslashes := fun _ => hslashes
  path_noscheme := fun _ _ hc => hcolon (List.takeWhile_subset _ hc)

set_option maxRecDepth 4000 in
/-- `/b` is followed from `http://h.org/a`. -/
theorem redirect_right_iff_path : Follows exLookup exBase (exReference (bytes "/b")) [] :=
  (redirect_right_iff exLookup exLookup_resolves exBase exBase_roundUri (exReference (bytes "/b"))
    (exReference_valid (by decide) (by decide) (by decide)) (by decide) []).mpr
      (.inl ⟨rfl, rfl, by decide, rfl, rfl, by decide⟩)

set_option maxRecDepth 4000 in
/-- `b` is not: the URI of the next round has a path and no host. -/
theorem not_redirect_right : ¬ ∀ (lookup : HostLookup), Resolves lookup → ∀ (base : Uri), RoundUri base →
    ∀ (r : Reference Authority), ValidReference r → ∀ orgip, Follows lookup base r orgip := by
  intro h
  obtain ⟨uri, anew, hr, -⟩ := h exLookup exLookup_resolves exBase exBase_roundUri
    (exReference (bytes "b")) (exReference_valid (by decide) (by decide) (by decide)) []
  have hrelative : redirect exLookup exBase
      ((exReference (bytes "b")).recompose Authority.text) [] = none ∨ ∃ e, redirect exLookup exBase
        ((exReference (bytes "b")).recompose Authority.text) [] = some (.error e) :=
    redirect_relative (by decide) (by decide)
  rcases hrelative with hnone | ⟨e, he⟩
  · rw [hnone] at hr
    cases hr
  · rw [he] at hr
    cases hr

end Redirect

end Dframework
