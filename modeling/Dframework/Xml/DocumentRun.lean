import Mathlib
import Dframework.Xml.Constructs

/-!
# A document in one call

What is taken off the front of a buffer that begins with a whole construct, and what the loop of
`parseBuffer` comes to where one construct stands behind the other. A text has to be followed by a
construct of another kind, or by nothing.

A declaration is read with its attributes. They are looked for in all that follows, but nothing in
the two expressions passes its `?`.

Results:
1. `parseNode_construct`: what one construct becomes.
2. `parseLoop_prefix`, `parseBuffer_constructs`: what a sequence of them becomes, in front of a rest
   and as a whole.
-/

namespace Dframework

open CLib Pattern Search

/-! ## The expressions -/

/-- A mark at the start of a text. -/
theorem matchPieces_mark (mark s : Bytes) :
    matchPieces (mark.map lit) (mark ++ s) = some (mark.map fun _ => 1) := by
  induction mark with
  | nil => rfl
  | cons c mark ih => rw [List.map_cons, List.cons_append, matchPieces_lit, ih]; rfl

/-- A text that begins with something else. -/
theorem matchPieces_mark_none {mark s : Bytes} (h : ¬ mark <+: s) :
    matchPieces (mark.map lit) s = none := by
  induction mark generalizing s with
  | nil => exact absurd s.nil_prefix h
  | cons c mark ih =>
    rw [List.map_cons]
    by_cases hc : ∀ x ∈ s.head?, x ≠ c
    · exact matchPieces_lit_none hc
    · push Not at hc
      obtain ⟨x, hx, rfl⟩ := hc
      obtain ⟨s', rfl⟩ : ∃ s', s = x :: s' := ⟨_, List.eq_cons_of_mem_head? hx⟩
      rw [matchPieces_lit, ih fun hp => h (List.cons_prefix_cons.mpr ⟨rfl, hp⟩)]
      rfl

namespace Construct

theorem EndsWith.suffix {mark a b : Bytes} (h : EndsWith mark (a ++ b)) : EndsWith mark b := by
  intro j hj
  have hdrop : (a ++ b ++ mark).drop (a.length + j) = (b ++ mark).drop j := by
    rw [List.append_assoc, List.drop_append, Nat.add_sub_cancel_left,
      List.drop_of_length_le (Nat.le_add_right _ _), List.nil_append]
  rw [← hdrop]
  exact h _ (by rw [List.length_append]; omega)

/-- The mark is not found before the end of the body, whatever follows. -/
theorem EndsWith.not_prefix {mark body : Bytes} (h : EndsWith mark body) (rest : Bytes) {k : Nat}
    (hk : k < body.length) : ¬ mark <+: (body ++ (mark ++ rest)).drop k := by
  intro hp
  have hcut : (body ++ mark).drop k <+: (body ++ (mark ++ rest)).drop k :=
    List.IsPrefix.drop ⟨rest, List.append_assoc ..⟩ k
  refine h k hk (List.prefix_of_prefix_length_le hp hcut ?_)
  rw [List.length_drop, List.length_append]
  omega

end Construct

open Construct (EndsWith)

/-- Anything up to the mark that ends it. -/
theorem matchPieces_body {mark body : Bytes} (h : EndsWith mark body) (rest : Bytes) :
    matchPieces (few anyChar 0 :: mark.map lit) (body ++ (mark ++ rest)) =
      some (body.length :: mark.map fun _ => 1) :=
  matchPieces_lazy (fun _ _ => rfl) (Nat.zero_le _) (matchPieces_mark mark rest)
    fun _ _ hk => matchPieces_mark_none (h.not_prefix rest hk)

/-! ## The attributes of a declaration -/

theorem bareExp_matches (s : Bytes) : ∃ ls, matchPieces bareExp.pieces s = some ls := by
  have hname : ∀ t, matchPieces [many isNameChar 0] t ≠ none :=
    matchPieces_many fun _ => by rw [matchPieces]; exact Option.some_ne_none _
  exact Option.ne_none_iff_exists'.mp (matchPieces_many hname s)

section

variable {x y : Bytes} (hy : y ≠ []) (h0 : (0 : UInt8) ∉ x ++ 63 :: y)

include hy h0

/-- What the two expressions of an attribute take ends in front of a `?`. -/
theorem regexp_before {e : Regexp} (he : ∀ p ∈ e.pieces, p.cls 63 = false) (hx : x ≠ []) {g : Nat × Nat}
    (hg : e.groups[0]? = some g) (hle : g.1 ≤ g.2) {ls : List Nat}
    (hmatch : matchPieces e.pieces (x ++ 63 :: y) = some ls) :
    ∃ m name, e.regexp (some (x ++ 63 :: y)) = .ok m ∧ m.getMatchString 1 = some name ∧
      m.getMatchLength 0 ≤ x.length := by
  have hne : x ++ 63 :: y ≠ [] := by simp
  have hsum : ls.sum ≤ x.length := by
    refine matchPieces_sum_le (fun p hp c hc => ?_) hmatch
    obtain rfl := Option.some.inj hc
    exact he p hp
  have hregexp := regexp_of_match h0 hne hmatch
  rw [toChars_of_ne_nil hne] at hregexp
  have hlong : 2 * 1 < (x ++ 63 :: y).length := by
    have := List.length_pos_of_ne_nil hx
    have := List.length_pos_of_ne_nil hy
    rw [List.length_append, List.length_cons]
    omega
  obtain ⟨name, hname⟩ := @getMatchString_isSome ⟨_, ls, (0, e.pieces.length) :: e.groups⟩ 1 g
    (by rw [List.getElem?_cons_succ, hg]) hle (hsum.trans (by simp)) hlong
  refine ⟨_, name, hregexp, hname, ?_⟩
  show ((ls.take e.pieces.length).drop 0).sum ≤ _
  rw [List.drop_zero, ← matchPieces_length hmatch, List.take_length]
  exact hsum

theorem parseAttributesReal_before (hx : x ≠ []) :
    ∃ attr n, parseAttributesReal (some (x ++ 63 :: y)) x.length = some (attr, n) ∧ n ≤ x.length := by
  have hne : x ++ 63 :: y ≠ [] := by simp
  rcases hmatch : matchPieces attrExp.pieces (x ++ 63 :: y) with _ | ls
  · obtain ⟨r, hr⟩ := regexp_of_no_match h0 hmatch
    rw [toChars_of_ne_nil hne] at hr
    obtain ⟨ls, hls⟩ := bareExp_matches (x ++ 63 :: y)
    obtain ⟨m, name, hregexp, hname, hlen⟩ := regexp_before hy h0 (by decide) hx rfl (by decide) hls
    refine ⟨⟨name, []⟩, m.getMatchLength 0, ?_, hlen⟩
    simp only [parseAttributesReal, hr, hregexp, hname, Option.bind_eq_bind, Option.bind_some]
  · obtain ⟨m, name, hregexp, hname, hlen⟩ := regexp_before hy h0 (by decide) hx rfl (by decide) hmatch
    rcases eq_or_lt_of_le hlen with heq | hlt
    · refine ⟨⟨name, []⟩, m.getMatchLength 0, ?_, hlen⟩
      simp only [parseAttributesReal, hregexp, if_neg hlen.not_gt, if_pos heq.symm, hname,
        Option.bind_eq_bind, Option.bind_some]
    -- a value, of which the loop takes no more than there is
    set val := (x ++ 63 :: y).drop (m.getMatchLength 0) with hval
    set toff := if (startQuote val).isSome then 1 else 0 with htoff
    set last := x.length - m.getMatchLength 0 with hlast
    have hvlen : last < val.length := by
      rw [hval, List.length_drop, List.length_append, List.length_cons]
      omega
    have hone : toff ≤ 1 := by
      rw [htoff]
      split <;> omega
    obtain ⟨k, lastQ, hloop⟩ : ∃ k lastQ, valueLoop (x ++ 63 :: y) x.length (startQuote val) false toff
        ((val.take last).drop toff) = (k, lastQ) := ⟨_, _, rfl⟩
    obtain ⟨-, hk, -⟩ := valueLoop_bounds _ _ _ _ _ _ hloop
    rw [List.length_drop, List.length_take, min_eq_left hvlen.le] at hk
    have hset : ∃ v, setChars (some (val.drop toff)) (k - toff - lastQ) = some v := by
      rw [setChars]
      split
      · exact ⟨_, rfl⟩
      · exact ⟨_, if_pos (by rw [List.length_drop]; omega)⟩
    obtain ⟨v, hv⟩ := hset
    refine ⟨⟨name, v⟩, m.getMatchLength 0 + k, ?_, by omega⟩
    simp only [parseAttributesReal, hregexp, if_neg hlen.not_gt, if_neg hlt.ne', ← hval, ← htoff,
      ← hlast, hloop, hv, hname, Option.bind_eq_bind, Option.bind_some]

end

/-- The loop over the attributes of a declaration has a result. -/
theorem attributesLoop_before {x y : Bytes} (hy : y ≠ []) (h0 : (0 : UInt8) ∉ x ++ 63 :: y) (fuel : Nat) :
    ∃ r, attributesLoop fuel (some (x ++ 63 :: y)) x.length = some r := by
  induction fuel generalizing x with
  | zero => exact ⟨_, rfl⟩
  | succ fuel ih =>
    rcases eq_or_ne x [] with rfl | hx
    · exact ⟨_, rfl⟩
    obtain ⟨attr, n, hread, hn⟩ := parseAttributesReal_before hy h0 hx
    have hdrop : (x ++ 63 :: y).drop n = x.drop n ++ 63 :: y := List.drop_append_of_le_length hn
    obtain ⟨r, hr⟩ := ih (x := x.drop n) fun h => h0 (by
      rw [← hdrop] at h
      exact List.mem_of_mem_drop h)
    rw [attributesLoop, if_neg (List.length_pos_of_ne_nil hx).ne', hread]
    simp only [Option.bind_eq_bind, Option.bind_some, Option.map_some, hdrop, ← List.length_drop, hr]
    split <;> exact ⟨_, rfl⟩

/-! ## What is taken off the buffer -/

def Construct.node : Construct → Option XmlNode
  | declaration _ => none
  | tag name attrs _ selfClosed =>
    some { type := .tag, name, closeNode := selfClosed, attributes := attrs.map AttrText.toAttribute }
  | closeTag name _ => some { type := .closeTag, name }
  | noneTag _ => none
  | comment body =>
    some { type := .comment, name := CLib.bytes "#comment", text := (Construct.comment body).bytes }
  | text body => some (textNode body)

/-- What a construct becomes: its node, or some declaration. -/
inductive Construct.Makes : Construct → XmlNode → Prop
  | declaration {body : Bytes} {node : XmlNode} : node.type = .declaration → Makes (.declaration body) node
  | told {c : Construct} {node : XmlNode} : c.node = some node → Makes c node

theorem Construct.nodes_eq {cs : List Construct} {seq seq' : List XmlNode}
    (h : List.Forall₂ Construct.Makes cs seq) (htold : cs.map Construct.node = seq'.map some) :
    seq = seq' := by
  induction h generalizing seq' with
  | nil =>
    rw [List.map_nil, eq_comm, List.map_eq_nil_iff] at htold
    exact htold.symm
  | @cons c node cs seq hmakes _ ih =>
    cases seq' with
    | nil => cases htold
    | cons node' seq' =>
      rw [List.map_cons, List.map_cons] at htold
      obtain ⟨hnode, hrest⟩ := List.cons.inj htold
      obtain rfl : node = node' := by
        cases hmakes with
        | declaration _ => cases hnode
        | told heq => exact Option.some.inj (heq.symm.trans hnode)
      rw [ih hrest]

theorem takeWhile_stop {cls : UInt8 → Bool} (s : Bytes) {c : UInt8} (hc : cls c = false) (t : Bytes) :
    (s.dropWhile cls ++ c :: t).takeWhile cls = [] := by
  refine takeWhile_of_head fun x hx => ?_
  rcases hs : s.dropWhile cls with _ | ⟨y, ys⟩
  · rw [hs] at hx
    obtain rfl := Option.some.inj hx
    exact hc
  · rw [hs] at hx
    obtain rfl := Option.some.inj hx
    have hhead := List.head?_dropWhile_not cls s
    rw [hs] at hhead
    simpa using hhead

theorem parseNode_declaration {body rest : Bytes} (hbody : EndsWith [63, 62] body)
    (h0 : (0 : UInt8) ∉ (Construct.declaration body).bytes ++ rest) :
    ∃ node, node.type = .declaration ∧ parseNode ((Construct.declaration body).bytes ++ rest) =
      some ⟨.findNode, some node, (Construct.declaration body).bytes.length⟩ := by
  set name := body.takeWhile isNameChar with hname
  set left := body.dropWhile isNameChar with hleft
  set blanks := left.takeWhile isspace with hblanks
  set value := left.dropWhile isspace with hvalue
  have hleftsplit : left = blanks ++ value := List.takeWhile_append_dropWhile.symm
  have hsplit : body = name ++ (blanks ++ value) := by
    rw [← hleftsplit, hname, hleft, List.takeWhile_append_dropWhile]
  set buf := (Construct.declaration body).bytes ++ rest with hbuf
  have hwhole : buf = [60, 63] ++ (name ++ (blanks ++ (value ++ ([63, 62] ++ rest)))) := by
    rw [hbuf, Construct.bytes, hsplit]
    simp only [List.append_assoc]
  have hmatch : matchPieces declarationExp.pieces buf =
      some [1, 1, name.length, blanks.length, value.length, 1, 1] := by
    have hend : EndsWith [63, 62] value := by
      rw [hsplit, ← List.append_assoc] at hbody
      exact hbody.suffix
    have hvalues : matchPieces (many isspace 0 :: few anyChar 0 :: [63, 62].map lit)
        (blanks ++ (value ++ ([63, 62] ++ rest))) = some [blanks.length, value.length, 1, 1] :=
      matchPieces_greedy (fun c hc => List.mem_takeWhile_imp hc) (takeWhile_stop left (by decide) _)
        (Nat.zero_le _) (matchPieces_body hend rest)
    have hstop : (blanks ++ (value ++ ([63, 62] ++ rest))).takeWhile isNameChar = [] := by
      rw [← List.append_assoc blanks, ← hleftsplit]
      exact takeWhile_stop body (by decide) _
    have hchars : ∀ c ∈ name, isNameChar c := fun c hc => List.mem_takeWhile_imp hc
    have hnames := matchPieces_greedy hchars hstop (Nat.zero_le _) hvalues
    rw [hwhole]
    show matchPieces (lit 60 :: lit 63 :: many isNameChar 0 :: many isspace 0 :: few anyChar 0 ::
      [63, 62].map lit) (60 :: 63 :: (name ++ (blanks ++ (value ++ ([63, 62] ++ rest))))) = _
    rw [matchPieces_lit, matchPieces_lit, hnames]
    rfl
  have hregexp := regexp_of_match h0 (by simp [hwhole]) hmatch
  set m : Match := ⟨buf, [1, 1, name.length, blanks.length, value.length, 1, 1],
    (0, declarationExp.pieces.length) :: declarationExp.groups⟩ with hm
  have hsize : m.getMatchLength 0 = (Construct.declaration body).bytes.length := by
    show 1 + (1 + (name.length + (blanks.length + (value.length + (1 + (1 + 0)))))) = _
    rw [Construct.bytes, hsplit]
    simp only [List.length_append, List.length_cons, List.length_nil]
    omega
  have hlong : 4 ≤ buf.length := by
    rw [hwhole]
    simp only [List.length_append, List.length_cons, List.length_nil]
    omega
  have hsum : m.lens.sum ≤ m.value.length := by
    show 1 + (1 + (name.length + (blanks.length + (value.length + (1 + (1 + 0)))))) ≤ buf.length
    rw [hwhole]
    simp only [List.length_append, List.length_cons, List.length_nil]
    omega
  obtain ⟨text, htext⟩ := @getMatchString_isSome m 0 (0, 7) rfl (by decide) hsum (by show 0 < buf.length; omega)
  obtain ⟨nodeName, hnodeName⟩ := @getMatchString_isSome m 1 (2, 3) rfl (by decide) hsum
    (by show 2 < buf.length; omega)
  have hattrs : ∃ attrs, parseEndedAttributes (m.getMatch 2) (m.getMatchLength 2) = some attrs := by
    have hlen : m.getMatchLength 2 = (blanks ++ value).length := by
      show blanks.length + (value.length + 0) = _
      rw [List.length_append, Nat.add_zero]
    rw [parseEndedAttributes, Match.getMatch, hlen]
    split
    · have hdrop : m.value.drop (1 + (1 + (name.length + 0))) = (blanks ++ value) ++ 63 :: (62 :: rest) := by
        show buf.drop _ = _
        rw [hwhole, ← List.append_assoc [60, 63], List.append_assoc blanks]
        exact List.drop_left' (by simp only [List.length_append, List.length_cons, List.length_nil]; omega)
      have h0' : (0 : UInt8) ∉ (blanks ++ value) ++ 63 :: (62 :: rest) := fun h => h0 (by
        rw [← hdrop] at h
        exact List.mem_of_mem_drop h)
      obtain ⟨r, hr⟩ := attributesLoop_before (List.cons_ne_nil 62 rest) h0' (blanks ++ value).length
      have hstart : (m.start 2).map (fun o => m.value.drop o) =
          some ((blanks ++ value) ++ 63 :: (62 :: rest)) := by
        rw [← hdrop]
        rfl
      rw [hstart, hr]
      exact ⟨_, rfl⟩
    next hshort =>
      -- `<??>` and nothing behind it
      have hnil : blanks ++ value = [] := by
        refine List.length_eq_zero_iff.mp ?_
        have hlength : m.value.length = buf.length := rfl
        rw [hlength, hwhole] at hshort
        simp only [List.length_append, List.length_cons, List.length_nil] at hshort ⊢
        omega
      rw [hnil]
      exact ⟨_, rfl⟩
  obtain ⟨attrs, hattrs⟩ := hattrs
  have hfound : parseDeclaration buf = some ⟨.findNode,
      some { type := .declaration, name := nodeName, text, attributes := attrs },
      (Construct.declaration body).bytes.length⟩ := by
    simp only [parseDeclaration, hregexp, htext, hnodeName, hattrs, hsize, Option.bind_eq_bind,
      Option.bind_some]
  refine ⟨{ type := .declaration, name := nodeName, text, attributes := attrs }, rfl, ?_⟩
  rw [parseNode, firstFound_found hfound (by simp)]

theorem parseNode_comment {body rest : Bytes} (hbody : EndsWith [45, 45, 62] body)
    (h0 : (0 : UInt8) ∉ (Construct.comment body).bytes ++ rest) :
    parseNode ((Construct.comment body).bytes ++ rest) =
      some ⟨.findNode, some { type := .comment, name := bytes "#comment",
                              text := (Construct.comment body).bytes },
        (Construct.comment body).bytes.length⟩ := by
  set buf := (Construct.comment body).bytes ++ rest with hbuf
  have hwhole : buf = 60 :: 33 :: 45 :: 45 :: (body ++ ([45, 45, 62] ++ rest)) := by
    rw [hbuf, Construct.bytes]
    simp
  have hbang : ∀ c ∈ (33 :: 45 :: 45 :: (body ++ ([45, 45, 62] ++ rest))).head?, c = (33 : UInt8) :=
    fun c hc => (Option.some.inj hc).symm
  have hdecl : matchPieces declarationExp.pieces buf = none := by
    rw [hwhole]
    exact second_none fun c hc => hbang c hc ▸ by decide
  have htag : matchPieces tagExp.pieces buf = none := by
    rw [hwhole]
    exact tagExp_none fun c hc => hbang c hc ▸ by decide
  have hclose : matchPieces closeTagExp.pieces buf = none := by
    rw [hwhole]
    exact second_none fun c hc => hbang c hc ▸ by decide
  have hmatch : matchPieces commentExp.pieces buf = some [1, 1, 1, 1, body.length, 1, 1, 1] := by
    rw [hwhole]
    show matchPieces (lit 60 :: lit 33 :: lit 45 :: lit 45 :: few anyChar 0 :: [45, 45, 62].map lit) _ = _
    rw [matchPieces_lit, matchPieces_lit, matchPieces_lit, matchPieces_lit, matchPieces_body hbody]
    rfl
  have hregexp := regexp_of_match h0 (by simp [hwhole]) hmatch
  have hsize : 1 + (1 + (1 + (1 + (body.length + (1 + (1 + (1 + 0))))))) =
      (Construct.comment body).bytes.length := by
    simp only [Construct.bytes, List.length_append, List.length_cons, List.length_nil]
    omega
  have hfound : parseCommentTag buf = some ⟨.findNode,
      some { type := .comment, name := bytes "#comment", text := (Construct.comment body).bytes },
      (Construct.comment body).bytes.length⟩ := by
    set m : Match := ⟨buf, [1, 1, 1, 1, body.length, 1, 1, 1],
      (0, commentExp.pieces.length) :: commentExp.groups⟩ with hm
    have htext : m.getMatchString 0 = some (Construct.comment body).bytes :=
      getMatchString_eq (a := []) (b := (Construct.comment body).bytes) (c := rest) (g := (0, 8)) rfl rfl rfl
        hsize (by show 0 < buf.length; simp [hwhole])
    have hlen : m.getMatchLength 0 = (Construct.comment body).bytes.length := hsize
    simp only [parseCommentTag, hregexp, htext, hlen, Option.bind_eq_bind, Option.bind_some]
  have htagpass : parseTag buf = _ := parseTagOf_pass h0 htag
  have hclosepass : parseCloseTag buf = _ := parseTagOf_pass h0 hclose
  rw [parseNode, firstFound_pass (parseDeclaration_pass h0 hdecl), firstFound_pass htagpass,
    firstFound_pass hclosepass, firstFound_found hfound (by simp)]

theorem parseNode_text {body rest : Bytes} (hne : body ≠ []) (hbody : 60 ∉ body)
    (hrest : rest = [] ∨ rest.head? = some 60) (h0 : (0 : UInt8) ∉ body ++ rest) :
    parseNode (body ++ rest) = some ⟨.findNode, some (textNode body), body.length⟩ := by
  obtain ⟨x, xs, hx⟩ := List.exists_cons_of_ne_nil hne
  have hpass : ∀ ps, matchPieces (lit 60 :: ps) (body ++ rest) = none := by
    refine fun ps => matchPieces_lit_none fun c hc => ?_
    rw [hx] at hc
    obtain rfl := Option.some.inj hc
    rintro rfl
    exact hbody (hx ▸ List.mem_cons_self)
  have hfound : parseText (body ++ rest) = some ⟨.findNode, some (textNode body), body.length⟩ := by
    rcases hrest with rfl | hrest
    · rw [List.append_nil] at h0 ⊢
      rw [parseText, strstr, cstr_of_not_mem h0, find_singleton_none hbody]
    · obtain ⟨w, rfl⟩ : ∃ w, rest = 60 :: w := ⟨_, List.eq_cons_of_mem_head? hrest⟩
      have hfind : strstr (body ++ 60 :: w) [60] = some (xs.length + 1) := by
        rw [strstr, cstr_of_not_mem h0, find_singleton hbody, hx]
        rfl
      have hlen : body.length = xs.length + 1 := by rw [hx]; rfl
      rw [parseText, hfind]
      show some (XmlFound.mk .findNode (some (textNode ((body ++ 60 :: w).take (xs.length + 1))))
        (xs.length + 1)) = _
      rw [← hlen, List.take_left]
  have htagpass : parseTag (body ++ rest) = _ := parseTagOf_pass h0 (hpass _)
  have hclosepass : parseCloseTag (body ++ rest) = _ := parseTagOf_pass h0 (hpass _)
  rw [parseNode, firstFound_pass (parseDeclaration_pass h0 (hpass _)), firstFound_pass htagpass,
    firstFound_pass hclosepass, firstFound_pass (parseCommentTag_pass h0 (hpass _)),
    firstFound_pass (parseNoneTag_pass h0 (hpass _)), firstFound_found hfound (by simp)]

namespace Construct

/-- A construct that is read, however the document goes on. -/
structure Plain (c : Construct) : Prop where
  wellFormed : c.WellFormed
  names : c.PlainNames
  escaped : c.Escaped
  notNone : ¬ c.IsNoneTag

/-- A text is followed by another construct, or by nothing. -/
def Follows (c : Construct) (rest : Bytes) : Prop :=
  c.IsText → rest = [] ∨ rest.head? = some 60

variable {c : Construct} {rest : Bytes}

theorem WellFormed.bytes_ne (h : c.WellFormed) : c.bytes ≠ [] := by
  cases c with
  | text body => exact h.1
  | _ => simp [bytes]

end Construct

/-- A construct is taken off the front of the buffer, whatever follows. -/
theorem parseNode_construct {c : Construct} {rest : Bytes} (h : c.Plain) (hfollows : c.Follows rest)
    (h0 : (0 : UInt8) ∉ rest) :
    ∃ node, c.Makes node ∧ parseNode (c.bytes ++ rest) =
      some ⟨.findNode, some node, c.bytes.length⟩ := by
  have hnul : (0 : UInt8) ∉ c.bytes ++ rest := fun hmem =>
    (List.mem_append.mp hmem).elim h.wellFormed.zero_not_mem h0
  cases c with
  | declaration body =>
    obtain ⟨node, htype, hparse⟩ := parseNode_declaration h.wellFormed.2 hnul
    exact ⟨node, .declaration htype, hparse⟩
  | tag name attrs tail selfClosed =>
    obtain ⟨hne, -, hattrs, htail⟩ := h.wellFormed
    exact ⟨_, .told rfl, parseNode_tag hne h.names.1
      (fun a ha => ⟨hattrs a ha, h.names.2 a ha, h.escaped a ha⟩) htail hnul⟩
  | closeTag name tail =>
    exact ⟨_, .told rfl, parseNode_closeTag h.wellFormed.1 h.names h.wellFormed.2.2 hnul⟩
  | noneTag body => exact absurd trivial h.notNone
  | comment body => exact ⟨_, .told rfl, parseNode_comment h.wellFormed.2 hnul⟩
  | text body =>
    exact ⟨_, .told rfl, parseNode_text h.wellFormed.1 h.wellFormed.2.2 (hfollows trivial) hnul⟩

/-! ## The loop -/

def Construct.texts (cs : List Construct) : Bytes := (cs.map Construct.bytes).flatten

theorem Construct.texts_cons (c : Construct) (cs : List Construct) :
    Construct.texts (c :: cs) = c.bytes ++ Construct.texts cs := by
  rw [Construct.texts, Construct.texts, List.map_cons, List.flatten_cons]

def Construct.Apart (cs : List Construct) : Prop :=
  cs.IsChain fun c d => ¬ (c.IsText ∧ d.IsText)

theorem Construct.zero_not_mem_texts {cs : List Construct} (h : ∀ c ∈ cs, c.WellFormed) :
    (0 : UInt8) ∉ Construct.texts cs := by
  intro hmem
  obtain ⟨_, hl, hmem⟩ := List.mem_flatten.mp hmem
  obtain ⟨c, hc, rfl⟩ := List.mem_map.mp hl
  exact (h c hc).zero_not_mem hmem

/-- What is no text begins with `<`. -/
theorem Construct.head_of_not_isText {c : Construct} (h : ¬ c.IsText) (rest : Bytes) :
    (c.bytes ++ rest).head? = some 60 := by
  cases c with
  | text body => exact absurd trivial h
  | _ => rfl

/-- What the last construct is followed by. -/
def Construct.Ends (cs : List Construct) (rest : Bytes) : Prop :=
  ∀ c ∈ cs.getLast?, c.Follows rest

theorem Construct.Apart.follows {c : Construct} {cs : List Construct} {rest : Bytes}
    (h : Construct.Apart (c :: cs)) (hends : Construct.Ends (c :: cs) rest) :
    c.Follows (Construct.texts cs ++ rest) := by
  intro hc
  cases cs with
  | nil => exact hends c rfl hc
  | cons d cs =>
    rw [Construct.texts_cons, List.append_assoc]
    exact .inr (head_of_not_isText (fun hd => (List.isChain_cons_cons.mp h).1 ⟨hc, hd⟩) _)

theorem Construct.Ends.tail {c d : Construct} {cs : List Construct} {rest : Bytes}
    (h : Construct.Ends (c :: d :: cs) rest) : Construct.Ends (d :: cs) rest := by
  intro x hx
  exact h x (by rwa [List.getLast?_cons_cons])

/-- The constructs in front of the rest become their nodes, in order. -/
theorem parseLoop_prefix {cs : List Construct} {rest : Bytes} (hplain : ∀ c ∈ cs, c.Plain)
    (hapart : Construct.Apart cs) (hends : Construct.Ends cs rest) (h0 : (0 : UInt8) ∉ rest) {fuel : Nat}
    (hfuel : (Construct.texts cs ++ rest).length ≤ fuel) (xml : Xml) :
    ∃ nodes f, List.Forall₂ Construct.Makes cs nodes ∧ rest.length ≤ f ∧
      parseLoop fuel (Construct.texts cs ++ rest) xml = parseLoop f rest (nodes.foldl Xml.append xml) := by
  induction cs generalizing fuel xml with
  | nil => exact ⟨[], fuel, .nil, hfuel, rfl⟩
  | cons c cs ih =>
    have hc := hplain c List.mem_cons_self
    have hrest : ∀ d ∈ cs, d.Plain := fun d hd => hplain d (List.mem_cons_of_mem c hd)
    have hpos := List.length_pos_of_ne_nil hc.wellFormed.bytes_ne
    have hnul : (0 : UInt8) ∉ Construct.texts cs ++ rest := fun h => (List.mem_append.mp h).elim
      (Construct.zero_not_mem_texts fun d hd => (hrest d hd).wellFormed) h0
    have hends' : Construct.Ends cs rest := by
      cases cs with
      | nil => exact fun x hx => by cases hx
      | cons d cs => exact hends.tail
    obtain ⟨node, hmakes, hparse⟩ := parseNode_construct hc (hapart.follows hends) hnul
    rw [Construct.texts_cons, List.append_assoc, List.length_append] at hfuel
    obtain ⟨fuel, rfl⟩ : ∃ f, fuel = f + 1 := ⟨fuel - 1, by omega⟩
    have hle : (Construct.texts cs ++ rest).length ≤ fuel := by omega
    obtain ⟨nodes, f, hnodes, hf, hloop⟩ := ih hrest hapart.tail hends' hle (xml.append node)
    refine ⟨node :: nodes, f, .cons hmakes hnodes, hf, ?_⟩
    have hne : c.bytes ++ (Construct.texts cs ++ rest) ≠ [] := fun h =>
      hc.wellFormed.bytes_ne (List.append_eq_nil_iff.mp h).1
    rw [Construct.texts_cons, List.append_assoc, parseLoop, if_neg hne, hparse]
    simp only [Option.bind_eq_bind, Option.bind_some, ne_eq, not_true_eq_false, if_false, if_neg hpos.ne',
      List.drop_left]
    exact hloop

/-- Each construct becomes its node, and nothing is left. -/
theorem parseLoop_constructs {cs : List Construct} (hplain : ∀ c ∈ cs, c.Plain)
    (hapart : Construct.Apart cs) {fuel : Nat} (hfuel : (Construct.texts cs).length ≤ fuel) (xml : Xml) :
    ∃ nodes, List.Forall₂ Construct.Makes cs nodes ∧
      parseLoop fuel (Construct.texts cs) xml = some (.ok, [], nodes.foldl Xml.append xml) := by
  have hends : Construct.Ends cs [] := fun _ _ _ => .inl rfl
  have hle : (Construct.texts cs ++ []).length ≤ fuel := by rwa [List.append_nil]
  obtain ⟨nodes, f, hnodes, -, hloop⟩ :=
    parseLoop_prefix hplain hapart hends List.not_mem_nil hle xml
  refine ⟨nodes, hnodes, ?_⟩
  rw [List.append_nil] at hloop
  rw [hloop]
  cases f <;> rfl

/-- The document is taken off whole, and the tree is the one of its nodes. -/
theorem parseBuffer_constructs {cs : List Construct} (hplain : ∀ c ∈ cs, c.Plain)
    (hapart : Construct.Apart cs) (hne : cs ≠ []) :
    ∃ nodes, List.Forall₂ Construct.Makes cs nodes ∧
      XmlParser.parseBuffer {} (Construct.texts cs) (Construct.texts cs).length =
        some (.ok, { buffer := [], result := some (nodes.foldl Xml.append Xml.empty) }) := by
  obtain ⟨nodes, hnodes, hloop⟩ := parseLoop_constructs hplain hapart le_rfl Xml.empty
  refine ⟨nodes, hnodes, ?_⟩
  have happend : append [] (Construct.texts cs) (Construct.texts cs).length =
      some (Construct.texts cs) := by
    rw [append_of_le le_rfl, List.nil_append, List.take_length]
  obtain ⟨c, rest, rfl⟩ := List.exists_cons_of_ne_nil hne
  have htexts : Construct.texts (c :: rest) ≠ [] := by
    rw [Construct.texts_cons]
    exact fun h => (hplain c List.mem_cons_self).wellFormed.bytes_ne (List.append_eq_nil_iff.mp h).1
  rw [XmlParser.parseBuffer]
  simp only [happend, Option.bind_eq_bind, Option.bind_some]
  rw [XmlParser.parseOwnBuffer, if_neg htexts]
  show (parseLoop _ _ Xml.empty).map _ = _
  rw [hloop]
  rfl

end Dframework
