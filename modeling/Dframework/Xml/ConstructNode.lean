import Mathlib
import Dframework.Xml.DocumentRun

/-!
# The node of a construct

The node that is made of a construct does not depend on what stands behind it in the buffer. For a
declaration this takes an argument, since its attributes are looked for in all that follows.

Results:
1. `attributesLoop_stop`: the attributes in front of a `?>`.
2. `parseNode_parsed`: what is taken off the front of the buffer.
-/

namespace Dframework

open CLib Pattern Search
open Construct (EndsWith)

/-! ## The node of a declaration -/

/-- A group that stands in front of what follows. -/
theorem getMatchString_append {v r : Bytes} {lens : List Nat} {groups : List (Nat × Nat)} {i : Nat}
    {g : Nat × Nat} (hg : groups[i]? = some g) (hle : g.1 ≤ g.2) (hsum : lens.sum ≤ v.length)
    (hlong : 2 * i < v.length) :
    Match.getMatchString ⟨v ++ r, lens, groups⟩ i = Match.getMatchString ⟨v, lens, groups⟩ i := by
  set start := (lens.take g.1).sum with hstart
  set len := ((lens.take g.2).drop g.1).sum with hlen
  have hstop : start + len ≤ v.length := by
    have hsplit := List.sum_take_add_sum_drop (lens.take g.2) g.1
    rw [List.take_take, min_eq_left hle] at hsplit
    have hall := List.sum_take_add_sum_drop lens g.2
    omega
  have hof : ∀ w : Bytes, 2 * i < w.length → start + len ≤ w.length →
      Match.getMatchString ⟨w, lens, groups⟩ i = some ((w.drop start).take len) := by
    intro w hw hws
    rw [Match.getMatchString, Match.getMatch, if_pos hw, Match.start, Match.getMatchLength, hg,
      Option.map_some, Option.map_some, Option.map_some, Option.getD_some, ← hstart, ← hlen, setChars]
    split
    next h => rw [h, List.take_zero]
    next h =>
      refine if_pos ?_
      show len ≤ (w.drop start).length
      rw [List.length_drop]
      omega
  rw [hof v hlong hstop, hof (v ++ r) (by rw [List.length_append]; omega) (by rw [List.length_append]; omega),
    List.drop_append_of_le_length (by omega), List.take_append_of_le_length (by rw [List.length_drop]; omega)]

/-- The loop over a value looks at no more than it is told. -/
theorem valueLoop_congr {buf buf' : Bytes} {size : Nat} (hbuf : ∀ j < size, buf[j]? = buf'[j]?)
    (startQ : Option UInt8) (h : Bool) (k : Nat) (val : Bytes) :
    valueLoop buf size startQ h k val = valueLoop buf' size startQ h k val := by
  induction val generalizing h k with
  | nil => cases h <;> rfl
  | cons c val ih =>
    cases h with
    | true =>
      rw [valueLoop, valueLoop]
      exact ih false (k + 1)
    | false =>
      have hlook : (c = 47 ∧ k < size - 1 ∧ buf[k + 1]? = some 62) ↔
          c = 47 ∧ k < size - 1 ∧ buf'[k + 1]? = some 62 :=
        and_congr_right fun _ => and_congr_right fun hk => by rw [hbuf (k + 1) (by omega)]
      rcases startQ with _ | q
      · rw [valueLoop, valueLoop, ih, ih]
        simp only [hlook]
      · rw [valueLoop, valueLoop, ih, ih]

section

variable {x : Bytes} (hx : x ≠ []) {r : Bytes} (h0 : (0 : UInt8) ∉ x ++ [63, 62] ++ r)

include h0 in
theorem zero_not_mem_front : (0 : UInt8) ∉ x ++ [63, 62] := fun h => h0 (List.mem_append_left r h)

include hx h0

/-- The expressions of an attribute take the same in front of a `?>`, whatever follows. -/
theorem regexp_stop {e : Regexp} (he : ∀ p ∈ e.pieces, p.cls 63 = false) {g : Nat × Nat}
    (hg : e.groups[0]? = some g) (hle : g.1 ≤ g.2) :
    (∃ err err', e.regexp (some (x ++ [63, 62] ++ r)) = .error err ∧
        e.regexp (some (x ++ [63, 62])) = .error err') ∨
      ∃ m m', e.regexp (some (x ++ [63, 62] ++ r)) = .ok m ∧ e.regexp (some (x ++ [63, 62])) = .ok m' ∧
        m.getMatchString 1 = m'.getMatchString 1 ∧ m.getMatchLength 0 = m'.getMatchLength 0 ∧
        m.getMatchLength 0 ≤ x.length := by
  have hshape : x ++ [63, 62] ++ r = x ++ 63 :: (62 :: r) := by simp
  have hne : x ++ [63, 62] ++ r ≠ [] := by simp
  have hne' : x ++ [63, 62] ≠ [] := by simp
  have hsame : matchPieces e.pieces (x ++ [63, 62] ++ r) = matchPieces e.pieces (x ++ [63, 62]) := by
    rw [hshape]
    exact matchPieces_stop he _ _
  rcases hmatch : matchPieces e.pieces (x ++ [63, 62] ++ r) with _ | ls
  · obtain ⟨err, herr⟩ := regexp_of_no_match h0 hmatch
    obtain ⟨err', herr'⟩ := regexp_of_no_match (zero_not_mem_front h0) (hsame ▸ hmatch)
    rw [toChars_of_ne_nil hne] at herr
    rw [toChars_of_ne_nil hne'] at herr'
    exact .inl ⟨err, err', herr, herr'⟩
  · have hok := regexp_of_match h0 hne hmatch
    have hok' := regexp_of_match (zero_not_mem_front h0) hne' (hsame ▸ hmatch)
    rw [toChars_of_ne_nil hne] at hok
    rw [toChars_of_ne_nil hne'] at hok'
    have hsum : ls.sum ≤ x.length := by
      rw [hshape] at hmatch
      refine matchPieces_sum_le (fun p hp c hc => ?_) hmatch
      obtain rfl := Option.some.inj hc
      exact he p hp
    have hpos := List.length_pos_of_ne_nil hx
    refine .inr ⟨_, _, hok, hok', ?_, rfl, ?_⟩
    · refine getMatchString_append (g := g) (by rw [List.getElem?_cons_succ, hg]) hle ?_ ?_
      · rw [List.length_append]
        omega
      · simp only [List.length_append, List.length_cons, List.length_nil]
        omega
    · show ((ls.take e.pieces.length).drop 0).sum ≤ _
      rw [List.drop_zero, ← matchPieces_length hmatch, List.take_length]
      exact hsum

theorem parseAttributesReal_stop :
    parseAttributesReal (some (x ++ [63, 62] ++ r)) x.length =
      parseAttributesReal (some (x ++ [63, 62])) x.length := by
  rcases regexp_stop hx h0 (e := attrExp) (by decide) rfl (by decide) with
    ⟨err, err', herr, herr'⟩ | ⟨m, m', hok, hok', hname, hlen, hle⟩
  · rcases regexp_stop hx h0 (e := bareExp) (by decide) rfl (by decide) with
      ⟨err, err', hbare, hbare'⟩ | ⟨m, m', hbare, hbare', hname, hlen, -⟩
    · simp only [parseAttributesReal, herr, herr', hbare, hbare']
    · simp only [parseAttributesReal, herr, herr', hbare, hbare', hname, hlen]
  · obtain ⟨n, hn⟩ : ∃ n, m.getMatchLength 0 = n := ⟨_, rfl⟩
    rw [hn] at hle
    have hn' : m'.getMatchLength 0 = n := hlen.symm.trans hn
    have hval : ∀ t : Bytes, (x ++ t).drop n = x.drop n ++ t := fun t =>
      List.drop_append_of_le_length hle
    have hlast : ∀ t : Bytes, ((x ++ t).drop n).take (x.length - n) = x.drop n := fun t => by
      rw [hval, ← List.length_drop, List.take_left]
    rcases eq_or_lt_of_le hle with heq | hlt
    · simp only [parseAttributesReal, hok, hok', hname, hn, hn', if_neg hle.not_gt, if_pos heq.symm]
    obtain ⟨c, u, hcu⟩ : ∃ c u, x.drop n = c :: u :=
      List.exists_cons_of_ne_nil fun h => by
        have := congrArg List.length h
        rw [List.length_drop, List.length_nil] at this
        omega
    have hquote : ∀ t : Bytes, startQuote ((x ++ t).drop n) = startQuote (c :: u) := by
      intro t
      rw [hval, hcu, List.cons_append]
      by_cases h34 : c = 34
      · rw [h34]
        rfl
      by_cases h39 : c = 39
      · rw [h39]
        rfl
      · have hother : ∀ w : Bytes, startQuote (c :: w) = none := by
          intro w
          rw [startQuote]
          · exact fun _ h => h34 (List.cons.inj h).1
          · exact fun _ h => h39 (List.cons.inj h).1
        rw [hother, hother]
    have hloop : ∀ (q : Option UInt8) (k : Nat) (val : Bytes),
        valueLoop (x ++ [63, 62] ++ r) x.length q false k val =
          valueLoop (x ++ [63, 62]) x.length q false k val := by
      refine fun q k val => valueLoop_congr (fun j hj => ?_) q false k val
      rw [List.append_assoc, List.getElem?_append_left hj, List.getElem?_append_left hj]
    set q := startQuote (c :: u) with hq
    set toff := if q.isSome then 1 else 0 with htoff
    obtain ⟨k, lastQ, hk⟩ : ∃ k lastQ,
        valueLoop (x ++ [63, 62]) x.length q false toff ((x.drop n).drop toff) = (k, lastQ) := ⟨_, _, rfl⟩
    have hbounds := (valueLoop_bounds _ _ _ _ _ _ hk).2.1
    have hone : toff ≤ 1 := by
      rw [htoff]
      split <;> omega
    have hfit : k - toff - lastQ ≤ (x.drop n).length - toff := by
      rw [List.length_drop] at hbounds
      omega
    have hset : ∀ t : Bytes, setChars (some (((x ++ t).drop n).drop toff)) (k - toff - lastQ) =
        some (((x.drop n).drop toff).take (k - toff - lastQ)) := by
      intro t
      have hpos : toff ≤ (x.drop n).length := by
        rw [List.length_drop]
        omega
      rw [hval, List.drop_append_of_le_length hpos, setChars]
      split
      next h => rw [h, List.take_zero]
      next h =>
        refine (if_pos ?_).trans (congrArg some (List.take_append_of_le_length ?_))
        · rw [List.length_append, List.length_drop]
          omega
        · rw [List.length_drop]
          omega
    have hset' := hset ([63, 62] ++ r)
    have hlast' := hlast ([63, 62] ++ r)
    have hquote' := hquote ([63, 62] ++ r)
    rw [← List.append_assoc] at hset' hlast' hquote'
    simp only [parseAttributesReal, hok, hok', hname, hn, hn', if_neg hle.not_gt, if_neg hlt.ne',
      hquote', hquote, hlast, hlast', ← htoff, hloop, hk, hset, hset']

end

/-- The attributes of a declaration do not depend on what follows it. -/
theorem attributesLoop_stop {x r : Bytes} (h0 : (0 : UInt8) ∉ x ++ [63, 62] ++ r) (fuel : Nat) :
    (attributesLoop fuel (some (x ++ [63, 62] ++ r)) x.length).map Prod.fst =
      (attributesLoop fuel (some (x ++ [63, 62])) x.length).map Prod.fst := by
  induction fuel generalizing x with
  | zero => rfl
  | succ fuel ih =>
    rcases eq_or_ne x [] with rfl | hx
    · rfl
    have hpos := List.length_pos_of_ne_nil hx
    rw [attributesLoop, attributesLoop, if_neg hpos.ne', if_neg hpos.ne', parseAttributesReal_stop hx h0]
    obtain ⟨attr, n, hread, hn⟩ := @parseAttributesReal_before x [62] (List.cons_ne_nil _ _)
      (zero_not_mem_front h0) hx
    rw [hread]
    have hdrop : ∀ t : Bytes, (x ++ t).drop n = x.drop n ++ t := fun t => List.drop_append_of_le_length hn
    have hdrop' := hdrop ([63, 62] ++ r)
    rw [← List.append_assoc, ← List.append_assoc] at hdrop'
    have h0' : (0 : UInt8) ∉ x.drop n ++ [63, 62] ++ r := fun h => h0 (by
      rw [← hdrop'] at h
      exact List.mem_of_mem_drop h)
    have hrec := ih h0'
    rw [List.length_drop] at hrec
    simp only [Option.bind_eq_bind, Option.bind_some, Option.map_some, hdrop, hdrop']
    split
    · rfl
    · rcases hl : attributesLoop fuel (some (x.drop n ++ [63, 62] ++ r)) (x.length - n) with _ | a <;>
        rcases hl' : attributesLoop fuel (some (x.drop n ++ [63, 62])) (x.length - n) with _ | b <;>
        rw [hl, hl'] at hrec <;> simp_all

/-- The parts of a declaration, whatever follows it. -/
theorem declarationExp_match {body : Bytes} (hbody : EndsWith [63, 62] body) (rest : Bytes) :
    matchPieces declarationExp.pieces ((Construct.declaration body).bytes ++ rest) =
      some [1, 1, (body.takeWhile isNameChar).length, ((body.dropWhile isNameChar).takeWhile isspace).length,
        ((body.dropWhile isNameChar).dropWhile isspace).length, 1, 1] := by
  set name := body.takeWhile isNameChar with hname
  set left := body.dropWhile isNameChar with hleft
  set blanks := left.takeWhile isspace with hblanks
  set value := left.dropWhile isspace with hvalue
  have hleftsplit : left = blanks ++ value := List.takeWhile_append_dropWhile.symm
  have hsplit : body = name ++ (blanks ++ value) := by
    rw [← hleftsplit, hname, hleft, List.takeWhile_append_dropWhile]
  have hend : EndsWith [63, 62] value := by
    rw [hsplit, ← List.append_assoc] at hbody
    exact hbody.suffix
  have hvalues : matchPieces (many isspace 0 :: few anyChar 0 :: [63, 62].map lit)
      (blanks ++ (value ++ ([63, 62] ++ rest))) = some [blanks.length, value.length, 1, 1] :=
    matchPieces_greedy (fun c hc => List.mem_takeWhile_imp hc) (takeWhile_stop left (by decide) _)
      (Nat.zero_le _) (matchPieces_body hend rest)
  have hstop : (blanks ++ (value ++ ([63, 62] ++ rest))).takeWhile isNameChar = [] := by
    rw [← List.append_assoc blanks, ← hleftsplit]
    exact takeWhile_stop body (by decide) _
  have hchars : ∀ c ∈ name, isNameChar c := fun c hc => List.mem_takeWhile_imp hc
  have hnames := matchPieces_greedy hchars hstop (Nat.zero_le _) hvalues
  have hwhole : (Construct.declaration body).bytes ++ rest =
      60 :: 63 :: (name ++ (blanks ++ (value ++ ([63, 62] ++ rest)))) := by
    rw [Construct.bytes, hsplit]
    simp only [List.append_assoc]
    rfl
  have hpieces : declarationExp.pieces =
      lit 60 :: lit 63 :: many isNameChar 0 :: many isspace 0 :: few anyChar 0 :: [63, 62].map lit := rfl
  rw [hwhole, hpieces, matchPieces_lit, matchPieces_lit, hnames]
  rfl

/-- A declaration becomes one node, whatever follows it. -/
theorem parseDeclaration_whole {body : Bytes} (hc : (Construct.declaration body).WellFormed) :
    ∃ found, found.status = .findNode ∧ ∀ rest, (0 : UInt8) ∉ rest →
      parseDeclaration ((Construct.declaration body).bytes ++ rest) = some found := by
  set name := body.takeWhile isNameChar with hname
  set blanks := (body.dropWhile isNameChar).takeWhile isspace with hblanks
  set value := (body.dropWhile isNameChar).dropWhile isspace with hvalue
  set v := (Construct.declaration body).bytes with hv
  set lens := [1, 1, name.length, blanks.length, value.length, 1, 1] with hlens
  have hsplit : body = name ++ (blanks ++ value) := by
    rw [hblanks, hvalue, List.takeWhile_append_dropWhile, hname, List.takeWhile_append_dropWhile]
  have hbytes : v = ([60, 63] ++ name) ++ ((blanks ++ value) ++ [63, 62]) := by
    rw [hv, Construct.bytes, hsplit]
    simp only [List.append_assoc]
  have hlength : v.length = 4 + (name.length + (blanks ++ value).length) := by
    rw [hbytes]
    simp only [List.length_append, List.length_cons, List.length_nil]
    omega
  have hsum : lens.sum ≤ v.length := by
    rw [hlength, List.length_append]
    simp only [hlens, List.sum_cons, List.sum_nil]
    omega
  let m : Bytes → Match := fun w => ⟨w, lens, (0, declarationExp.pieces.length) :: declarationExp.groups⟩
  have h0v : (0 : UInt8) ∉ v := hc.zero_not_mem
  have hregexp : ∀ rest, (0 : UInt8) ∉ rest →
      declarationExp.regexp (toChars (v ++ rest)) = .ok (m (v ++ rest)) := by
    intro rest h0
    refine regexp_of_match (fun h => (List.mem_append.mp h).elim h0v h0) ?_ (declarationExp_match hc.2 rest)
    exact fun h => absurd (congrArg List.length h) (by rw [List.length_append, hlength, List.length_nil]; omega)
  have htext : ∀ rest, (m (v ++ rest)).getMatchString 0 = (m v).getMatchString 0 := fun rest =>
    getMatchString_append (g := (0, 7)) rfl (by decide) hsum (by omega)
  have hgroup : ∀ rest, (m (v ++ rest)).getMatchString 1 = (m v).getMatchString 1 := fun rest =>
    getMatchString_append (g := (2, 3)) rfl (by decide) hsum (by omega)
  obtain ⟨text, ht⟩ := @getMatchString_isSome (m v) 0 (0, 7) rfl (by decide) hsum
    (show 0 < v.length by omega)
  obtain ⟨nodeName, hn⟩ := @getMatchString_isSome (m v) 1 (2, 3) rfl (by decide) hsum
    (show 2 < v.length by omega)
  have hsize : ∀ rest, (m (v ++ rest)).getMatchLength 2 = (blanks ++ value).length := by
    intro rest
    show blanks.length + (value.length + 0) = _
    rw [List.length_append, Nat.add_zero]
  have hattrs : ∃ attrs, ∀ rest, (0 : UInt8) ∉ rest →
      parseEndedAttributes ((m (v ++ rest)).getMatch 2) ((m (v ++ rest)).getMatchLength 2) = some attrs := by
    rcases eq_or_ne (blanks ++ value) [] with hnil | hne
    · -- nothing behind the name
      refine ⟨[], fun rest _ => ?_⟩
      rw [hsize, hnil]
      rfl
    have hpos := List.length_pos_of_ne_nil hne
    have hstart : ∀ rest, (m (v ++ rest)).getMatch 2 = some ((blanks ++ value) ++ [63, 62] ++ rest) := by
      intro rest
      have hdrop : (v ++ rest).drop (1 + (1 + (name.length + 0))) = (blanks ++ value) ++ [63, 62] ++ rest := by
        rw [hbytes, List.append_assoc]
        exact List.drop_left' (by simp only [List.length_append, List.length_cons, List.length_nil]; omega)
      rw [Match.getMatch, if_pos (show 2 * 2 < (v ++ rest).length by rw [List.length_append]; omega), ← hdrop]
      rfl
    have h0y : (0 : UInt8) ∉ (blanks ++ value) ++ [63, 62] := fun h => h0v (by
      rw [hbytes]
      exact List.mem_append_right _ h)
    obtain ⟨r, hr⟩ := attributesLoop_before (List.cons_ne_nil 62 []) h0y (blanks ++ value).length
    refine ⟨r.1, fun rest h0 => ?_⟩
    have hloop := attributesLoop_stop (r := rest) (fun h => (List.mem_append.mp h).elim h0y h0)
      (blanks ++ value).length
    rw [hr] at hloop
    obtain ⟨r', hr', hfst⟩ := Option.map_eq_some_iff.mp (hloop : _ = some r.1)
    rw [parseEndedAttributes, hstart, hsize, hr']
    exact congrArg some hfst
  obtain ⟨attributes, hattrs⟩ := hattrs
  refine ⟨⟨.findNode, some { type := .declaration, name := nodeName, text, attributes }, lens.sum⟩, rfl,
    fun rest h0 => ?_⟩
  have hlen : (m (v ++ rest)).getMatchLength 0 = lens.sum := rfl
  rw [parseDeclaration, hregexp rest h0]
  simp only [htext, hgroup, ht, hn, hattrs rest h0, hlen, Option.bind_eq_bind, Option.bind_some]

/-! ## The node of a construct -/

def Construct.parsed (c : Construct) : XmlNode :=
  ((parseNode c.bytes).bind XmlFound.node).getD (textNode [])

/-- A construct is taken off the buffer as its node, whatever follows. -/
theorem parseNode_parsed {c : Construct} {rest : Bytes} (h : c.Plain) (hfollows : c.Follows rest)
    (h0 : (0 : UInt8) ∉ rest) :
    parseNode (c.bytes ++ rest) = some ⟨.findNode, some c.parsed, c.bytes.length⟩ := by
  obtain ⟨node, hmakes, hparse⟩ := parseNode_construct h hfollows h0
  obtain ⟨node', hmakes', hparse'⟩ := @parseNode_construct c [] h (fun _ => .inl rfl) List.not_mem_nil
  rw [List.append_nil] at hparse'
  have hparsed : c.parsed = node' := by
    rw [Construct.parsed, hparse']
    rfl
  suffices hsame : node = node' by rw [hparse, hparsed, hsame]
  cases c with
  | declaration body =>
    obtain ⟨found, hstatus, hwhole⟩ := parseDeclaration_whole h.wellFormed
    have hfound : ∀ rest, (0 : UInt8) ∉ rest →
        parseNode ((Construct.declaration body).bytes ++ rest) = some found := fun rest h0 => by
      rw [parseNode, firstFound_found (hwhole rest h0) (by rw [hstatus]; decide)]
    have hnil := hfound [] List.not_mem_nil
    rw [List.append_nil, hparse'] at hnil
    rw [hfound rest h0] at hparse
    have hboth := (Option.some.inj hparse).symm.trans (Option.some.inj hnil).symm
    exact Option.some.inj (congrArg XmlFound.node hboth)
  | _ =>
    obtain _ | hnode := hmakes
    obtain _ | hnode' := hmakes'
    exact Option.some.inj (hnode.symm.trans hnode')

end Dframework
