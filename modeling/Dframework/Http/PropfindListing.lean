import Mathlib
import Dframework.Http.Propfind

/-!
# The answer to a `PROPFIND`

A multistatus document lists resources, each in a response with its reference and, below
`D:propstat`, its status and its properties. They may stand in any order, and any text may stand
between them.

Entities are nowhere replaced, so a tag or a type arrives as it is written.

Results:
1. `propfindProp_eq`, `propfindStat_eq`, `propfindResponse_eq`: what each walk finds.
2. `lists_listing`: every list of resources has its document.
3. `propfind_listing`: the calls of the listener.
4. `not_propfind_listing`: a tag with an ampersand.
-/

namespace Dframework

open CLib Pattern

namespace HttpPropfind

/-- A resource, with its texts as they stand in the document. -/
structure Resource where
  href : Bytes
  collection : Bool
  status : Nat
  tag : Bytes
  length : Nat
  type : Bytes

def IsNumber (n : Nat) (digits : Bytes) : Prop :=
  digits ≠ [] ∧ (∀ c ∈ digits, isDigit 10 c) ∧ digitsVal 10 digits = n

/-- `HTTP/1.1 200 OK`, with any version and reason. -/
def IsStatusLine (status : Nat) (line : Bytes) : Prop :=
  ∃ major minor code reason majorNumber minorNumber,
    line = bytes "HTTP/" ++ (major ++ 46 :: (minor ++ 32 :: (code ++ 32 :: reason))) ∧
      IsNumber majorNumber major ∧ IsNumber minorNumber minor ∧ IsNumber status code ∧ status < 1000

/-- The reference is free of blanks, and begins with the path of the collection. -/
def IsHref (path href : Bytes) : Prop :=
  path <+: href ∧ ∀ c ∈ href, isBlank c = false

namespace Resource

/-- `lp1:resourcetype`. -/
def InResourcetype (r : Resource) (m : Markup) : Prop :=
  m.elements.map (fun e => e.1.name) = if r.collection then [bytes "D:collection"] else []

/-- `D:prop`. -/
def InProp (r : Resource) (m : Markup) : Prop :=
  ∃ resourcetype etag contentlength contenttype,
    m.elements.Perm [resourcetype, etag, contentlength, contenttype] ∧
      resourcetype.Is "lp1:resourcetype" r.InResourcetype ∧
      etag.Is "lp1:getetag" (· = .text r.tag) ∧
      contentlength.Is "lp1:getcontentlength" (fun m => ∃ digits, m = .text digits ∧ IsNumber r.length digits) ∧
      contenttype.Is "D:getcontenttype" (· = .text r.type)

/-- `D:propstat`. -/
def InPropstat (r : Resource) (m : Markup) : Prop :=
  ∃ status prop, m.elements.Perm [status, prop] ∧
    status.Is "D:status" (fun m => ∃ line, m = .text line ∧ IsStatusLine r.status line) ∧
    prop.Is "D:prop" r.InProp

/-- `D:response`, in the answer to a query of the path. -/
def InResponse (r : Resource) (path : Bytes) (m : Markup) : Prop :=
  ∃ href propstat, m.elements.Perm [href, propstat] ∧ IsHref path r.href ∧
    href.Is "D:href" (· = .text r.href) ∧ propstat.Is "D:propstat" r.InPropstat

/-- The reference without the path of the collection and without one slash at its end. -/
def name (r : Resource) (path : Bytes) : Bytes :=
  let rest := r.href.drop path.length
  let name := if rest.getLast? = some 47 then rest.dropLast else rest
  if name = [] then bytes "." else name

/-- What the listener is called with. -/
def prop (r : Resource) (path : Bytes) : PropfindProp :=
  { name := r.name path, contentType := r.type, etag := r.tag, httpStatus := r.status,
    dir := r.collection, contentLength := some (UInt64.ofNat r.length) }

end Resource

/-- `D:multistatus`. -/
def InMultistatus (rs : List Resource) (path : Bytes) (m : Markup) : Prop :=
  List.Forall₂ (fun e r => e.Is "D:response" (r.InResponse path)) m.elements rs

/-- The document lists the resources. Between two elements stands any text. -/
def Lists (path : Bytes) (rs : List Resource) (doc : Bytes) : Prop :=
  ∃ (declaration : Bytes) (m : Markup) (multistatus : Element), (Construct.declaration declaration).WellFormed ∧ m.WellFormed ∧
    doc = Construct.texts (m.document declaration) ∧
    m.elements = [multistatus] ∧ multistatus.Is "D:multistatus" (InMultistatus rs path)

variable {prop : PropfindProp} {path : Bytes} {e : Element} {t : XmlTree} {r : Resource}

/-! ## The walks over an element -/

theorem isDigitChar_of_isDigit {c : UInt8} (h : isDigit 10 c) : isDigitChar c := by
  obtain ⟨hlt, hc⟩ := digitVal_decimal h
  rw [← hc]
  generalize (digitVal c).getD 0 = d at hlt
  interval_cases d <;> rfl

theorem IsNumber.digits {n : Nat} {digits : Bytes} (h : IsNumber n digits) :
    ∀ c ∈ digits, isDigitChar c :=
  fun c hc => isDigitChar_of_isDigit (h.2.1 c hc)

theorem IsNumber.parse {n : Nat} {digits : Bytes} (h : IsNumber n digits) (hn : n < 2 ^ 63) :
    strtol 10 digits = n := by
  rw [strtol_decimal h.2.1 (by rw [h.2.2]; exact hn), h.2.2]

theorem IsStatusLine.read {status : Nat} {line : Bytes} (h : IsStatusLine status line)
    (h0 : (0 : UInt8) ∉ line) : readStatus line = some status := by
  obtain ⟨major, minor, code, reason, _, _, hline, hmajor, hminor, hcode, hstatus⟩ := h
  have hstop : ∀ (c : UInt8) (w : Bytes), isDigitChar c = false → (c :: w).takeWhile isDigitChar = [] :=
    fun c w hc => List.takeWhile_cons_of_neg (by simp [hc])
  set blanks := reason.takeWhile isspace with hblanks
  set rest := reason.dropWhile isspace with hrest
  have hreason : 32 :: reason = (32 :: blanks) ++ rest := by
    rw [List.cons_append, hblanks, hrest, List.takeWhile_append_dropWhile]
  have hmatch : matchPieces statusExp.pieces line = some [4, 1, major.length, 1, minor.length, 1,
      code.length, blanks.length + 1, rest.length] := by
    have hend : matchPieces [many anyChar 0] (rest ++ []) = some [rest.length] :=
      matchPieces_greedy (fun _ _ => rfl) rfl (Nat.zero_le _) rfl
    have htail : matchPieces [many isspace 1, many anyChar 0] (32 :: reason) =
        some [blanks.length + 1, rest.length] := by
      rw [hreason, ← List.append_nil ((32 :: blanks) ++ rest), List.append_assoc]
      refine matchPieces_greedy (fun c hc => ?_) ?_ (by simp) hend
      · rcases List.mem_cons.mp hc with rfl | hc
        · rfl
        · exact List.mem_takeWhile_imp hc
      · rw [List.append_nil]
        refine takeWhile_of_head fun c hc => ?_
        have hhead := List.head?_dropWhile_not isspace reason
        rw [← hrest, Option.mem_def.mp hc] at hhead
        simpa using hhead
    have hnumber := matchPieces_greedy hcode.digits (hstop 32 reason (by decide))
      (List.length_pos_of_ne_nil hcode.1) htail
    have hspace : matchPieces [many isspace 1, many isDigitChar 1, many isspace 1, many anyChar 0]
        ([32] ++ (code ++ 32 :: reason)) = some [1, code.length, blanks.length + 1, rest.length] := by
      refine matchPieces_greedy (fun c hc => by rw [List.mem_singleton.mp hc]; rfl) ?_ (by decide) hnumber
      exact takeWhile_isspace_name (fun c hc => by simp [isNameChar, isAlnum, hcode.digits c hc])
        fun h => absurd h hcode.1
    have hversion := matchPieces_greedy hminor.digits (hstop 32 (code ++ 32 :: reason) (by decide))
      (List.length_pos_of_ne_nil hminor.1) hspace
    have hdot : matchPieces (lit 46 :: [many isDigitChar 1, many isspace 1, many isDigitChar 1,
        many isspace 1, many anyChar 0]) (46 :: (minor ++ 32 :: (code ++ 32 :: reason))) =
        some [1, minor.length, 1, code.length, blanks.length + 1, rest.length] := by
      rw [matchPieces_lit]
      exact congrArg (Option.map _) hversion
    have hfirst := matchPieces_greedy hmajor.digits
      (hstop 46 (minor ++ 32 :: (code ++ 32 :: reason)) (by decide)) (List.length_pos_of_ne_nil hmajor.1) hdot
    have hslash : matchPieces (lit 47 :: statusExp.pieces.drop 2)
        (47 :: (major ++ 46 :: (minor ++ 32 :: (code ++ 32 :: reason)))) =
        some [1, major.length, 1, minor.length, 1, code.length, blanks.length + 1, rest.length] := by
      rw [matchPieces_lit]
      exact congrArg (Option.map _) hfirst
    have hsplit : line =
        [72, 84, 84, 80] ++ 47 :: (major ++ 46 :: (minor ++ 32 :: (code ++ 32 :: reason))) := by
      simp [hline, bytes]
    rw [hsplit]
    exact matchPieces_greedy (by simp [isAlphaChar]) (List.takeWhile_cons_of_neg (by decide)) (by decide)
      hslash
  have hne : line ≠ [] := by
    rw [hline]
    exact List.cons_ne_nil _ _
  set m : Match := ⟨line, [4, 1, major.length, 1, minor.length, 1, code.length, blanks.length + 1,
    rest.length], (0, statusExp.pieces.length) :: statusExp.groups⟩ with hm
  have hregexp : statusExp.regexp (toChars line) = .ok m := regexp_of_match h0 hne hmatch
  have hgroup : m.getMatchString 4 = some code := by
    have hmajorpos := List.length_pos_of_ne_nil hmajor.1
    have hminorpos := List.length_pos_of_ne_nil hminor.1
    refine getMatchString_eq (a := bytes "HTTP/" ++ (major ++ 46 :: (minor ++ [32]))) (b := code)
      (c := 32 :: reason) (g := (6, 7)) rfl ?_ ?_ ?_ ?_
    · show line = _
      rw [hline]
      simp only [List.append_assoc, List.cons_append, List.nil_append]
    · show 4 + (1 + (major.length + (1 + (minor.length + (1 + 0))))) = _
      simp only [List.length_append, List.length_cons, List.length_nil]
      show _ = 5 + _
      omega
    · exact Nat.add_zero _
    · show 2 * 4 < line.length
      rw [hline]
      simp only [List.length_append, List.length_cons]
      show 8 < 5 + _
      omega
  rw [readStatus, hregexp]
  simp only [hgroup, Option.bind_eq_bind, Option.bind_some]
  rw [toChars_of_ne_nil hcode.1, parseInt, hcode.parse (by omega), Int.bmod_eq_of_le (by omega) (by omega)]
  rfl

theorem hasNode_resourcetype (ht : Shows e t) (hr : r.InResourcetype e.2) :
    Xml.hasNode t (bytes "D:collection") = r.collection := by
  have hany : ∀ l : List XmlTree, (l.any fun chd => chd.isTag && equals chd.root.name (bytes "D:collection")) =
      (l.filter XmlTree.isTag).any fun chd => equals chd.root.name (bytes "D:collection") := by
    intro l
    rw [List.any_filter]
  have hshows := e.2.shows_elements
  rw [← ht.childs] at hshows
  rw [Xml.hasNode, hany]
  rw [Resource.InResourcetype] at hr
  rcases hcoll : r.collection with _ | _
  · rw [hcoll] at hr
    rw [List.map_eq_nil_iff.mp hr] at hshows
    rw [List.forall₂_nil_left_iff.mp hshows]
    rfl
  · rw [hcoll] at hr
    obtain ⟨c, cs, hcs, hname, hnil⟩ := List.map_eq_cons_iff.mp hr
    rw [List.map_eq_nil_iff] at hnil
    subst hnil
    rw [hcs] at hshows
    obtain ⟨u, us, hu, hus, htag⟩ := List.forall₂_cons_left_iff.mp hshows
    rw [htag, List.any_cons, hu.name, hname]
    rfl

theorem propfindPropRound_skip (prop : PropfindProp) (t : XmlTree) (h : t.isTag = false) :
    propfindPropRound prop t = some prop := by
  rw [propfindPropRound, h]
  rfl

theorem round_resourcetype (ht : Shows e t) (he : e.Is "lp1:resourcetype" r.InResourcetype)
    (prop : PropfindProp) :
    propfindPropRound prop t = some { prop with dir := r.collection || prop.dir } := by
  rw [propfindPropRound, ht.isTag, ht.named he, hasNode_resourcetype ht he.2]
  rfl

theorem round_getetag (ht : Shows e t) (he : e.Is "lp1:getetag" (· = .text r.tag)) (prop : PropfindProp) :
    propfindPropRound prop t = some { prop with etag := r.tag } := by
  rw [propfindPropRound, ht.isTag, ht.named he, ht.text _ he.2]
  rfl

theorem round_getcontenttype (ht : Shows e t) (he : e.Is "D:getcontenttype" (· = .text r.type))
    (prop : PropfindProp) : propfindPropRound prop t = some { prop with contentType := r.type } := by
  rw [propfindPropRound, ht.isTag, ht.named he, ht.text _ he.2]
  rfl

theorem round_getcontentlength (hlen : r.length < 2 ^ 63) (ht : Shows e t)
    (he : e.Is "lp1:getcontentlength" fun m => ∃ digits, m = .text digits ∧ IsNumber r.length digits)
    (prop : PropfindProp) :
    propfindPropRound prop t = some { prop with contentLength := some (UInt64.ofNat r.length) } := by
  obtain ⟨digits, htext, hdigits⟩ := he.2
  have hparse : parseLong (toChars digits) = r.length := by
    rw [toChars_of_ne_nil hdigits.1]
    exact hdigits.parse hlen
  have hword : UInt64.ofInt r.length = UInt64.ofNat r.length := by
    rw [UInt64.ofInt, Int.emod_eq_of_lt (by omega) (by omega), Int.toNat_natCast]
  rw [propfindPropRound, ht.isTag, ht.named he, ht.text _ htext, hparse, hword]
  rfl

/-- What the walk over `D:prop` finds. -/
theorem propfindProp_eq (hlen : r.length < 2 ^ 63) (ht : Shows e t) (hr : r.InProp e.2)
    (prop : PropfindProp) :
    propfindProp prop t = some { prop with
      dir := r.collection || prop.dir
      etag := r.tag
      contentLength := some (UInt64.ofNat r.length)
      contentType := r.type } := by
  obtain ⟨a, b, c, d, hperm, ha, hb, hc, hd⟩ := hr
  obtain ⟨ts, hts, hwalk⟩ := foldlM_shows ht hperm propfindPropRound_skip
  obtain ⟨ta, _, hta, hts₁, rfl⟩ := List.forall₂_cons_left_iff.mp hts
  obtain ⟨tb, _, htb, hts₂, rfl⟩ := List.forall₂_cons_left_iff.mp hts₁
  obtain ⟨tc, _, htc, hts₃, rfl⟩ := List.forall₂_cons_left_iff.mp hts₂
  obtain ⟨td, _, htd, hts₄, rfl⟩ := List.forall₂_cons_left_iff.mp hts₃
  obtain rfl := List.forall₂_nil_left_iff.mp hts₄
  have ha := round_resourcetype hta ha
  have hb := round_getetag htb hb
  have hc := round_getcontentlength hlen htc hc
  have hd := round_getcontenttype htd hd
  rw [propfindProp, hwalk]
  · simp only [List.foldlM_cons, List.foldlM_nil, ha, hb, hc, hd]
    rfl
  -- the four rounds set different fields
  · intro x hx y hy s
    simp only [List.mem_cons, List.not_mem_nil, or_false] at hx hy
    rcases hx with rfl | rfl | rfl | rfl <;> rcases hy with rfl | rfl | rfl | rfl <;>
      simp [ha, hb, hc, hd]

/-! ## The walks over a response -/

theorem propfindStatRound_skip (prop : PropfindProp) (t : XmlTree) (h : t.isTag = false) :
    propfindStatRound prop t = some prop := by
  rw [propfindStatRound, h]
  rfl

theorem round_status (hwf : e.2.WellFormed) (ht : Shows e t)
    (he : e.Is "D:status" fun m => ∃ line, m = .text line ∧ IsStatusLine r.status line)
    (prop : PropfindProp) : propfindStatRound prop t = some { prop with httpStatus := r.status } := by
  obtain ⟨line, htext, hline⟩ := he.2
  rw [htext] at hwf
  rw [propfindStatRound, ht.isTag, ht.named he, ht.text _ htext, hline.read hwf.1]
  rfl

theorem round_prop (hlen : r.length < 2 ^ 63) (ht : Shows e t) (he : e.Is "D:prop" r.InProp)
    (prop : PropfindProp) :
    propfindStatRound prop t = some { prop with
      dir := r.collection || prop.dir
      etag := r.tag
      contentLength := some (UInt64.ofNat r.length)
      contentType := r.type } := by
  rw [propfindStatRound, ht.isTag, ht.named he]
  exact propfindProp_eq hlen ht he.2 prop

/-- What the walk over `D:propstat` finds. -/
theorem propfindStat_eq (hlen : r.length < 2 ^ 63) (hwf : e.2.WellFormed) (ht : Shows e t)
    (hr : r.InPropstat e.2) (prop : PropfindProp) :
    propfindStat prop t = some { prop with
      httpStatus := r.status
      dir := r.collection || prop.dir
      etag := r.tag
      contentLength := some (UInt64.ofNat r.length)
      contentType := r.type } := by
  obtain ⟨a, b, hperm, ha, hb⟩ := hr
  have hwfa : a.2.WellFormed := hwf.elements a (hperm.mem_iff.mpr List.mem_cons_self)
  obtain ⟨ts, hts, hwalk⟩ := foldlM_shows ht hperm propfindStatRound_skip
  obtain ⟨ta, _, hta, hts₁, rfl⟩ := List.forall₂_cons_left_iff.mp hts
  obtain ⟨tb, _, htb, hts₂, rfl⟩ := List.forall₂_cons_left_iff.mp hts₁
  obtain rfl := List.forall₂_nil_left_iff.mp hts₂
  have ha := round_status hwfa hta ha
  have hb := round_prop hlen htb hb
  rw [propfindStat, hwalk]
  · simp only [List.foldlM_cons, List.foldlM_nil, ha, hb]
    rfl
  · intro x hx y hy s
    simp only [List.mem_cons, List.not_mem_nil, or_false] at hx hy
    rcases hx with rfl | rfl <;> rcases hy with rfl | rfl <;> simp [ha, hb]

theorem trim_of_no_blank {s : Bytes} (h : ∀ c ∈ s, isBlank c = false) : trim s = s := by
  have hdrop : ∀ l : Bytes, (∀ c ∈ l, isBlank c = false) → l.dropWhile isBlank = l := by
    intro l hl
    cases l with
    | nil => rfl
    | cons c l => exact List.dropWhile_cons_of_neg (by simp [hl c List.mem_cons_self])
  rw [trim, hdrop s h, hdrop s.reverse fun c hc => h c (List.mem_reverse.mp hc), List.reverse_reverse]

/-- The path is taken off the front of the reference, and one slash off its end. -/
theorem hrefName_eq (hhref : IsHref path r.href) (h0 : (0 : UInt8) ∉ r.href) :
    hrefName path r.href = r.name path := by
  obtain ⟨rest, hrest⟩ := hhref.1
  have hshift : (if path ≠ [] ∧ indexOf r.href path = 0 then r.href.drop path.length else r.href) =
      r.href.drop path.length := by
    rcases eq_or_ne path [] with rfl | hne
    · rw [if_neg fun h => h.1 rfl]
      rfl
    have hpath : (0 : UInt8) ∉ path := fun h => h0 (hrest ▸ List.mem_append_left _ h)
    have hindex : indexOf r.href path = 0 := by
      have hfind : Search.find path r.href = some 0 := Search.find_of_starts hhref.1
      rw [indexOf, strstr, cstr_of_not_mem h0, cstr_of_not_mem hpath, hfind]
      rfl
    rw [if_pos ⟨hne, hindex⟩]
  rw [hrefName, trim_of_no_blank hhref.2]
  simp only [hshift, ← List.dropLast_eq_take]
  rfl

theorem propfindResponseRound_skip (prop : PropfindProp) (t : XmlTree) (h : t.isTag = false) :
    propfindResponseRound path prop t = some prop := by
  rw [propfindResponseRound, h]
  rfl

/-- What the listener is called with for a response. -/
theorem propfindResponse_eq (hlen : r.length < 2 ^ 63) (hwf : e.2.WellFormed) (ht : Shows e t)
    (hr : r.InResponse path e.2) : propfindResponse path t.childs = some (r.prop path) := by
  obtain ⟨a, b, hperm, hhref, ha, hb⟩ := hr
  have hwfa : a.2.WellFormed := hwf.elements a (hperm.mem_iff.mpr List.mem_cons_self)
  have hwfb : b.2.WellFormed :=
    hwf.elements b (hperm.mem_iff.mpr (List.mem_cons_of_mem a List.mem_cons_self))
  obtain ⟨ts, hts, hwalk⟩ := foldlM_shows ht hperm (@propfindResponseRound_skip path)
  obtain ⟨ta, _, hta, hts₁, rfl⟩ := List.forall₂_cons_left_iff.mp hts
  obtain ⟨tb, _, htb, hts₂, rfl⟩ := List.forall₂_cons_left_iff.mp hts₁
  obtain rfl := List.forall₂_nil_left_iff.mp hts₂
  have hname : ∀ prop, propfindResponseRound path prop ta = some { prop with name := r.name path } := by
    intro prop
    rw [ha.2] at hwfa
    rw [propfindResponseRound, hta.isTag, hta.named ha, hta.text _ ha.2, hrefName_eq hhref hwfa.1]
    rfl
  have hstat : ∀ prop, propfindResponseRound path prop tb = some { prop with
      httpStatus := r.status
      dir := r.collection || prop.dir
      etag := r.tag
      contentLength := some (UInt64.ofNat r.length)
      contentType := r.type } := by
    intro prop
    rw [propfindResponseRound, htb.isTag, htb.named hb]
    exact propfindStat_eq hlen hwfb htb hb.2 prop
  rw [propfindResponse, hwalk]
  · simp [hname, hstat, Resource.prop]
  · intro x hx y hy s
    simp only [List.mem_cons, List.not_mem_nil, or_false] at hx hy
    rcases hx with rfl | rfl <;> rcases hy with rfl | rfl <;> simp [hname, hstat]

/-! ## The walk over the document -/

theorem propfindNode_skip (h : t.isTag = false) : propfindNode path t = some [] := by
  cases t with
  | node n childs =>
    have htag : n.isTag = false := h
    rw [propfindNode, htag]
    rfl

theorem propfindComplete_filter (list : List XmlTree) :
    propfindComplete path list = propfindComplete path (list.filter XmlTree.isTag) := by
  induction list with
  | nil => rfl
  | cons t list ih =>
    rcases htag : t.isTag with _ | _
    · rw [List.filter_cons_of_neg (by simp [htag]), propfindComplete, propfindNode_skip htag, ← ih]
      cases propfindComplete path list <;> rfl
    · rw [List.filter_cons_of_pos htag, propfindComplete, propfindComplete, ih]

/-- A call for each response, in their order. -/
theorem propfindComplete_responses {es : List Element} {rs : List Resource} {ts : List XmlTree}
    (hes : List.Forall₂ (fun e r => e.Is "D:response" (r.InResponse path)) es rs)
    (hts : List.Forall₂ Shows es ts) (hwf : ∀ e ∈ es, e.2.WellFormed)
    (hlen : ∀ r ∈ rs, r.length < 2 ^ 63) :
    propfindComplete path ts = some (rs.map fun r => r.prop path) := by
  induction hes generalizing ts with
  | nil =>
    obtain rfl := List.forall₂_nil_left_iff.mp hts
    rfl
  | @cons e r es rs he _ ih =>
    obtain ⟨t, ts, ht, htail, rfl⟩ := List.forall₂_cons_left_iff.mp hts
    have hrest := ih htail (fun e' he' => hwf e' (List.mem_cons_of_mem e he'))
      fun r' hr' => hlen r' (List.mem_cons_of_mem r hr')
    have hcall := propfindResponse_eq (hlen r List.mem_cons_self) (hwf e List.mem_cons_self) ht he.2
    have hnode : propfindNode path t = some [r.prop path] := by
      have hname := ht.named he
      have htag := ht.isTag
      cases t with
      | node n childs =>
        change propfindResponse path childs = _ at hcall
        change n.name = _ at hname
        change n.isTag = true at htag
        rw [propfindNode, htag, hname, hcall]
        rfl
    rw [propfindComplete, hnode, hrest]
    rfl

theorem propfindComplete_multistatus {rs : List Resource} (ht : Shows e t) (hwf : e.2.WellFormed)
    (he : e.Is "D:multistatus" (InMultistatus rs path)) (hlen : ∀ r ∈ rs, r.length < 2 ^ 63) :
    propfindNode path t = some (rs.map fun r => r.prop path) := by
  have hname := ht.named he
  have htag := ht.isTag
  have hshows := e.2.shows_elements
  have hcalls := propfindComplete_responses he.2 hshows hwf.elements hlen
  rw [← ht.childs, ← propfindComplete_filter] at hcalls
  cases t with
  | node n childs =>
    change propfindComplete path childs = _ at hcalls
    change n.name = _ at hname
    change n.isTag = true at htag
    rw [propfindNode, htag, hname]
    exact hcalls

/-- The block answers nothing yet, and the end calls the listener for each resource. -/
theorem onResponse_lists {p : HttpPropfind} {rs : List Resource} {doc : Bytes}
    (hlist : Lists p.path rs doc) (hlen : ∀ r ∈ rs, r.length < 2 ^ 63) :
    ∃ q, p.onRequest.onResponse (some doc) doc.length = some ([], none, q) ∧
      q.onResponse none 0 = some (rs.map fun r => r.prop p.path, none, q) := by
  obtain ⟨declaration, m, multistatus, hdecl, hm, rfl, hroot, he⟩ := hlist
  obtain ⟨parser, node, hparse, htype, hresult⟩ := parseBuffer_markup hdecl hm
  refine ⟨{ p with xmlParser := parser }, ?_, ?_⟩
  · have hblock : (p.onRequest).xmlParser.parseBuffer (Construct.texts (m.document declaration))
        (Construct.texts (m.document declaration)).length = some (.ok, parser) := hparse
    rw [onResponse, hblock]
    rfl
  · have hshows := m.shows_elements
    rw [hroot] at hshows
    obtain ⟨t, ts, ht, hts, htags⟩ := List.forall₂_cons_left_iff.mp hshows
    obtain rfl := List.forall₂_nil_left_iff.mp hts
    have hwf := hm.elements multistatus (by rw [hroot]; exact List.mem_cons_self)
    have hskip : (XmlTree.node node []).isTag = false := by
      show (node.type == .tag) = false
      rw [htype]
      rfl
    have hcalls : propfindComplete p.path (.node node [] :: m.trees) =
        some (rs.map fun r => r.prop p.path) := by
      rw [propfindComplete_filter, List.filter_cons_of_neg (by simp [hskip]), htags, propfindComplete,
        propfindComplete_multistatus ht hwf he hlen]
      exact congrArg some (List.append_nil _)
    have hget : parser.getResult = some (.node node [] :: m.trees) := hresult
    simp only [onResponse, hget, hcalls, ↓reduceIte, Option.map_some]

/-! ## A document for every list -/

def child (name : String) (inner next : Markup) : Markup :=
  .element [10] ⟨bytes name, [], []⟩ inner [] next

def Resource.markup (r : Resource) (next : Markup) : Markup :=
  child "D:response"
    (child "D:href" (.text r.href)
      (child "D:propstat"
        (child "D:prop"
          (child "lp1:resourcetype"
            (if r.collection then .empty [] ⟨bytes "D:collection", [], []⟩ (.text []) else .text [])
            (child "lp1:getcontentlength" (.text (decimal r.length))
              (child "lp1:getetag" (.text r.tag)
                (child "D:getcontenttype" (.text r.type) (.text [10])))))
          (child "D:status" (.text (bytes "HTTP/1.1 " ++ (decimal r.status ++ bytes " OK"))) (.text [10])))
        (.text [10])))
    next

def listing (rs : List Resource) : List Construct :=
  (child "D:multistatus" (rs.foldr Resource.markup (.text [10])) (.text [10])).document
    (bytes "xml version='1.0'")

/-- The resource can be listed in the answer to a query of the path. -/
structure Resource.Writable (path : Bytes) (r : Resource) : Prop where
  isHref : IsHref path r.href
  href : IsCharData r.href
  tag : IsCharData r.tag
  type : IsCharData r.type
  status : r.status < 1000

theorem child_wellFormed {name : String} (hne : bytes name ≠ []) (hname : (bytes name).all isNameChar)
    {inner next : Markup} (hinner : inner.WellFormed) (hnext : next.WellFormed) :
    (child name inner next).WellFormed :=
  ⟨⟨by decide, by decide⟩,
    ⟨hne, List.all_eq_true.mp hname, List.forall_mem_nil _, List.forall_mem_nil _⟩, hinner,
    List.forall_mem_nil _, hnext⟩

theorem isNumber_decimal (n : Nat) : IsNumber n (decimal n) :=
  ⟨decimal_ne_nil n, fun _ hc => isDigit_of_mem_decimal hc, digitsVal_printed n⟩

theorem isCharData_decimal (n : Nat) : IsCharData (decimal n) :=
  ⟨fun h => absurd (isDigit_of_mem_decimal h) (by decide),
    fun h => absurd (isDigit_of_mem_decimal h) (by decide)⟩

theorem isCharData_append {a b : Bytes} (ha : IsCharData a) (hb : IsCharData b) : IsCharData (a ++ b) :=
  ⟨fun h => (List.mem_append.mp h).elim ha.1 hb.1, fun h => (List.mem_append.mp h).elim ha.2 hb.2⟩

theorem Resource.Writable.markup_wellFormed (h : r.Writable path) {next : Markup}
    (hnext : next.WellFormed) : (r.markup next).WellFormed := by
  have hline : (Markup.text [10]).WellFormed := ⟨by decide, by decide⟩
  have htype : Markup.WellFormed
      (if r.collection then .empty [] ⟨bytes "D:collection", [], []⟩ (.text []) else .text []) := by
    split
    · exact ⟨⟨by decide, by decide⟩, ⟨by decide, List.all_eq_true.mp (by decide), List.forall_mem_nil _,
        List.forall_mem_nil _⟩, by decide, by decide⟩
    · exact ⟨by decide, by decide⟩
  have hstatus : (Markup.text (bytes "HTTP/1.1 " ++ (decimal r.status ++ bytes " OK"))).WellFormed :=
    isCharData_append ⟨by decide, by decide⟩
      (isCharData_append (isCharData_decimal _) ⟨by decide, by decide⟩)
  refine child_wellFormed (by decide) (by decide) ?_ hnext
  refine child_wellFormed (by decide) (by decide) h.href ?_
  refine child_wellFormed (by decide) (by decide) ?_ hline
  refine child_wellFormed (by decide) (by decide) ?_
    (child_wellFormed (by decide) (by decide) hstatus hline)
  refine child_wellFormed (by decide) (by decide) htype ?_
  refine child_wellFormed (by decide) (by decide) (isCharData_decimal _) ?_
  refine child_wellFormed (by decide) (by decide) h.tag ?_
  exact child_wellFormed (by decide) (by decide) h.type hline

theorem Resource.Writable.inResponse (h : r.Writable path) (next : Markup) :
    ∃ e, (r.markup next).elements = e :: next.elements ∧ e.Is "D:response" (r.InResponse path) := by
  refine ⟨_, rfl, rfl, ?_⟩
  refine ⟨_, _, .refl _, h.isHref, ⟨rfl, rfl⟩, rfl, ?_⟩
  -- the status stands behind the properties
  refine ⟨_, _, .swap _ _ [], ⟨rfl, _, rfl, ?_⟩, rfl, ?_⟩
  · exact ⟨decimal (1 : Nat), decimal (1 : Nat), decimal r.status, bytes "OK", 1, 1,
      by simp [bytes, decimal], isNumber_decimal 1, isNumber_decimal 1, isNumber_decimal _, h.status⟩
  · refine ⟨_, _, _, _, .cons _ (.swap _ _ _), ⟨rfl, ?_⟩, ⟨rfl, rfl⟩,
      ⟨rfl, _, rfl, isNumber_decimal _⟩, rfl, rfl⟩
    rw [Resource.InResourcetype]
    cases r.collection <;> rfl

theorem lists_listing {rs : List Resource} (h : ∀ r ∈ rs, r.Writable path) :
    Lists path rs (Construct.texts (listing rs)) := by
  have hline : (Markup.text [10]).WellFormed := ⟨by decide, by decide⟩
  have hinner : (rs.foldr Resource.markup (.text [10])).WellFormed := by
    induction rs with
    | nil => exact hline
    | cons r rs ih =>
      exact (h r List.mem_cons_self).markup_wellFormed (ih fun s hs => h s (List.mem_cons_of_mem r hs))
  refine ⟨bytes "xml version='1.0'", _, _, ⟨by decide, ?_⟩,
    child_wellFormed (by decide) (by decide) hinner hline, rfl, rfl, rfl, ?_⟩
  · show ∀ j < (bytes "xml version='1.0'").length, ¬ [63, 62] <+: (bytes "xml version='1.0'" ++ [63, 62]).drop j
    decide
  · show InMultistatus rs path _
    induction rs with
    | nil => exact .nil
    | cons r rs ih =>
      obtain ⟨e, he, hr⟩ := (h r List.mem_cons_self).inResponse (rs.foldr Resource.markup (.text [10]))
      have hrest := ih (fun s hs => h s (List.mem_cons_of_mem r hs)) hinner.2.2.2.2
      rw [InMultistatus] at hrest ⊢
      rw [List.foldr_cons, he]
      exact .cons hr hrest

/-! ## The calls -/

/-- Whatever stands between the elements, and whatever their order in a response is, the listener is
called once for each resource, in the order of the document. -/
theorem propfind_listing (p : HttpPropfind) {uri : Uri} (hpath : uri.path ≠ []) {rs : List Resource}
    {doc : Bytes} (hlist : Lists (collectionPath uri) rs doc) (hlen : ∀ r ∈ rs, r.length < 2 ^ 63) :
    ∃ q q', p.query uri = .ok q ∧
      q.onRequest.onResponse (some doc) doc.length = some ([], none, q') ∧
      q'.onResponse none 0 = some (rs.map fun r => r.prop (collectionPath uri), none, q') := by
  obtain ⟨q', hblock, hend⟩ := @onResponse_lists { p with path := collectionPath uri } _ _ hlist hlen
  exact ⟨_, q', if_neg hpath, hblock, hend⟩

def exCollection : Resource := ⟨bytes "/dav/", true, 200, bytes "e1", 4096, bytes "directory"⟩

def exFile : Resource := ⟨bytes "/dav/a.txt", false, 200, bytes "e2", 5, bytes "text/plain"⟩

def exUri : Uri := { path := bytes "/dav" }

theorem isHref_of_all {path href : Bytes} (hpath : path <+: href)
    (hhref : href.all fun c => !isBlank c) : IsHref path href :=
  ⟨hpath, fun c hc => by simpa using List.all_eq_true.mp hhref c hc⟩

theorem exCollection_writable : exCollection.Writable (collectionPath exUri) :=
  ⟨isHref_of_all (by decide) (by decide), ⟨by decide, by decide⟩, ⟨by decide, by decide⟩,
    ⟨by decide, by decide⟩, by decide⟩

theorem exFile_writable {tag : Bytes} (htag : IsCharData tag) :
    { exFile with tag := tag }.Writable (collectionPath exUri) := by
  have hisHref : IsHref (collectionPath exUri) exFile.href := isHref_of_all (by decide) (by decide)
  have hhref : IsCharData exFile.href := ⟨by decide, by decide⟩
  have htype : IsCharData exFile.type := ⟨by decide, by decide⟩
  have hstatus : exFile.status < 1000 := by decide
  exact ⟨hisHref, hhref, htag, htype, hstatus⟩

theorem propfind_listing_two : ∃ q q', ({} : HttpPropfind).query exUri = .ok q ∧
    q.onRequest.onResponse (some (Construct.texts (listing [exCollection, exFile])))
        (Construct.texts (listing [exCollection, exFile])).length = some ([], none, q') ∧
      q'.onResponse none 0 =
        some ([exCollection, exFile].map fun r => r.prop (collectionPath exUri), none, q') :=
  propfind_listing {} (by decide)
    (lists_listing (List.forall_mem_cons.mpr ⟨exCollection_writable,
      List.forall_mem_cons.mpr ⟨exFile_writable ⟨by decide, by decide⟩, List.forall_mem_nil _⟩⟩))
    (by decide)

/-- Character data with its markup characters replaced. -/
def escape (s : Bytes) : Bytes :=
  s.flatMap fun c =>
    if c = 38 then bytes "&amp;" else if c = 60 then bytes "&lt;" else if c = 62 then bytes "&gt;" else [c]

/-- The resource as a document lists it. -/
def Resource.escaped (r : Resource) : Resource := { r with tag := escape r.tag, type := escape r.type }

/-- The tag `a&b` arrives as `a&amp;b`. -/
theorem not_propfind_listing : ¬ ∀ (p : HttpPropfind) (uri : Uri) (rs : List Resource) (doc : Bytes),
    uri.path ≠ [] → Lists (collectionPath uri) (rs.map Resource.escaped) doc →
    (∀ r ∈ rs, r.length < 2 ^ 63) →
    ∃ q q', p.query uri = .ok q ∧
      q.onRequest.onResponse (some doc) doc.length = some ([], none, q') ∧
      q'.onResponse none 0 = some (rs.map fun r => r.prop (collectionPath uri), none, q') := by
  intro h
  set r : Resource := { exFile with tag := bytes "a&b" } with hr
  have hwritable : r.escaped.Writable (collectionPath exUri) := exFile_writable ⟨by decide, by decide⟩
  have hlist : Lists (collectionPath exUri) ([r].map Resource.escaped)
      (Construct.texts (listing [r.escaped])) :=
    lists_listing (List.forall_mem_cons.mpr ⟨hwritable, List.forall_mem_nil _⟩)
  obtain ⟨q, q', hquery, hblock, hend⟩ := h {} exUri [r] _ (by decide) hlist (by decide)
  obtain ⟨q'', hblock', hend'⟩ := @onResponse_lists { path := collectionPath exUri } _ _ hlist (by decide)
  have hq : q = { path := collectionPath exUri } := by
    have hnew : ({} : HttpPropfind).query exUri = .ok { path := collectionPath exUri } := if_neg (by decide)
    exact Except.ok.inj (hquery.symm.trans hnew)
  subst hq
  obtain rfl : q' = q'' := congrArg (fun x => x.2.2) (Option.some.inj (hblock.symm.trans hblock'))
  have heq : [bytes "a&b"] = [escape (bytes "a&b")] :=
    congrArg (fun x => x.1.map PropfindProp.etag) (Option.some.inj (hend.symm.trans hend'))
  exact absurd heq (by decide)

end HttpPropfind

end Dframework
