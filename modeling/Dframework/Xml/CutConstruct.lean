import Mathlib
import Dframework.Xml.WholeDocument

/-!
# A construct that is cut

What the loop of `parseBuffer` comes to where the buffer ends inside a construct. The construct stays in
the buffer, so that nothing is lost, but only a tag that has begun with its name is known as one that
waits for more: the other constructs are errors of syntax until their end has come.

A group is handed out only where the value is longer than twice the number of the group. Behind `<` and
one byte of a name, and behind one blank and one byte of the name of an attribute, it is not, and the name
is copied from `NULL`.

Results:
1. `AttrText.loop_texts_cut`: attributes that are cut.
2. `parseLoop_cut`: what is answered to a construct that is cut.
-/

namespace Dframework

open CLib Pattern

/-- A part of two texts ends in the first one, or goes on into the second. -/
theorem prefix_append_cases {p a b : Bytes} (h : p <+: a ++ b) :
    (p <+: a ∧ p ≠ a) ∨ ∃ r, p = a ++ r ∧ r <+: b := by
  rcases List.prefix_or_prefix_of_prefix h (List.prefix_append a b) with hp | ⟨r, rfl⟩
  · rcases eq_or_ne p a with rfl | hne
    · exact .inr ⟨[], (List.append_nil p).symm, b.nil_prefix⟩
    · exact .inl ⟨hp, hne⟩
  · exact .inr ⟨r, rfl, (List.prefix_append_right_inj a).mp h⟩

/-! ## An attribute that is cut -/

theorem attributesLoop_all {p : Bytes} {attr : XmlAttribute} (hne : p ≠ [])
    (hread : parseAttributesReal (some p) p.length = some (attr, p.length)) :
    ∃ attrs, attributesLoop p.length (some p) p.length = some (attrs, some [], 0) := by
  have hpos := (List.length_pos_of_ne_nil hne).ne'
  refine ⟨if attr.name = [] then [] else [attr], ?_⟩
  rw [attributesLoop_step hread hpos hpos, Nat.sub_self, List.drop_length]
  exact congrArg some (Prod.ext (List.append_nil _) rfl)

theorem attributesLoop_none {p : Bytes} (hne : p ≠ [])
    (hread : parseAttributesReal (some p) p.length = none) :
    attributesLoop p.length (some p) p.length = none := by
  obtain ⟨n, hn⟩ := Nat.exists_eq_succ_of_ne_zero (List.length_pos_of_ne_nil hne).ne'
  rw [hn] at hread ⊢
  rw [attributesLoop, if_neg (Nat.succ_ne_zero n), hread]
  rfl

/-- Of a blank and a byte there is no second group. -/
theorem parseAttributesReal_short {b c : UInt8} (hb : isspace b) (hc : isNameChar c) (size : Nat) :
    parseAttributesReal (some [b, c]) size = none := by
  have hs : ∀ x ∈ [b], isspace x := List.forall_mem_singleton.mpr hb
  have hn : ∀ x ∈ [c], isNameChar x := List.forall_mem_singleton.mpr hc
  have hnone : matchPieces attrExp.pieces ([b, c] ++ []) = none := by
    refine attrExp_none (fun x hx => ?_) (fun x hx => by cases hx)
    rcases List.mem_cons.mp hx with rfl | hx
    · exact .inl hb
    · exact .inr (hn x hx)
  have hmatch := @bareExp_match [b] [c] [] hs hn (fun x hx => by cases hx) (fun _ x hx => by cases hx)
  have h0 : (0 : UInt8) ∉ [b, c] := by
    simp only [List.mem_cons, List.not_mem_nil, or_false, not_or]
    exact ⟨fun h => zero_not_mem_isspace hs (h ▸ List.mem_cons_self),
      fun h => zero_not_mem_isNameChar hn (h ▸ List.mem_cons_self)⟩
  obtain ⟨r, hr⟩ := regexp_of_no_match h0 hnone
  have hbare := regexp_of_match h0 (List.cons_ne_nil b [c]) hmatch
  rw [toChars_of_ne_nil (List.cons_ne_nil b [c])] at hr hbare
  simp only [parseAttributesReal, hr, hbare, Option.bind_eq_bind]
  rfl

/-- What is read where nothing follows the `=` and its blanks. -/
theorem parse_noValue {s n l r : Bytes} (hs : ∀ c ∈ s, isspace c) (hs' : s ≠ [])
    (hn : ∀ c ∈ n, isNameChar c) (hn' : n ≠ []) (hl : ∀ c ∈ l, isspace c) (hr : ∀ c ∈ r, isspace c)
    {b : Bytes} (hb : b = s ++ (n ++ (l ++ 61 :: r))) :
    parseAttributesReal (some b) b.length = some (⟨n, []⟩, b.length) := by
  have hb' : b = s ++ (n ++ (l ++ 61 :: (r ++ []))) := by rw [hb, List.append_nil]
  have h0 : (0 : UInt8) ∉ b := by
    simp only [hb, List.mem_append, List.mem_cons, not_or]
    exact ⟨zero_not_mem_isspace hs, zero_not_mem_isNameChar hn, zero_not_mem_isspace hl, by decide,
      zero_not_mem_isspace hr⟩
  have hne : b ≠ [] := by simp [hb]
  have hmatch := @attrExp_match s n l r [] hs hn' hn hl hr (fun c hc => by cases hc)
  rw [← hb'] at hmatch
  have hregexp := regexp_of_match h0 hne hmatch
  rw [toChars_of_ne_nil hne] at hregexp
  set m : Match := ⟨b, [s.length, n.length, l.length, 1, r.length],
    (0, attrExp.pieces.length) :: attrExp.groups⟩ with hm
  have hlength : m.getMatchLength 0 = b.length := by
    simp [hm, Match.getMatchLength, attrExp, hb]
    omega
  have hlong : 2 * 1 < m.value.length := by
    have := List.length_pos_of_ne_nil hs'
    have := List.length_pos_of_ne_nil hn'
    simp [hm, hb]
    omega
  have hname : m.getMatchString 1 = some n := by
    refine getMatchString_eq (a := s) (b := n) (c := l ++ 61 :: r) (g := (1, 2)) rfl ?_ (Nat.add_zero _)
      (Nat.add_zero _) hlong
    rw [List.append_assoc]
    exact hb
  simp only [parseAttributesReal, hregexp, hlength, if_neg (Nat.lt_irrefl _), if_true, hname,
    Option.bind_eq_bind, Option.bind_some]

namespace AttrText

variable {a : AttrText} {p : Bytes}

/-- The parts an attribute can be cut into. -/
theorem cut_cases (hp : p <+: a.text) (hne : p ≠ a.text) :
    (p <+: a.before) ∨ (∃ n, p = a.before ++ n ∧ n <+: a.name ∧ n ≠ []) ∨
      (∃ l, p = a.before ++ (a.name ++ l) ∧ l <+: a.left ∧ l ≠ []) ∨
      (∃ r, p = a.before ++ (a.name ++ (a.left ++ 61 :: r)) ∧ r <+: a.right) ∨
      ∃ v, p = a.before ++ (a.name ++ (a.left ++ 61 :: (a.right ++ a.quote :: v))) ∧ v <+: a.value := by
  have htext : a.text =
      a.before ++ (a.name ++ (a.left ++ 61 :: (a.right ++ a.quote :: (a.value ++ [a.quote])))) := by
    simp [text]
  rw [htext] at hp hne
  have hname : ∀ n, n <+: a.name → (a.before ++ n <+: a.before) ∨
      ∃ m, a.before ++ n = a.before ++ m ∧ m <+: a.name ∧ m ≠ [] := by
    intro n hn
    rcases eq_or_ne n [] with rfl | hn'
    · exact .inl (by rw [List.append_nil])
    · exact .inr ⟨n, rfl, hn, hn'⟩
  rcases prefix_append_cases hp with ⟨hp, -⟩ | ⟨n, hpn, hn⟩
  · exact .inl hp
  rcases prefix_append_cases hn with ⟨hn, -⟩ | ⟨l, hnl, hl⟩
  · rw [hpn]
    exact (hname n hn).imp id .inl
  rw [hnl] at hpn
  have hleft : ∀ m, m <+: a.left → (a.before ++ (a.name ++ m) <+: a.before) ∨
      (∃ n, a.before ++ (a.name ++ m) = a.before ++ n ∧ n <+: a.name ∧ n ≠ []) ∨
      ∃ k, a.before ++ (a.name ++ m) = a.before ++ (a.name ++ k) ∧ k <+: a.left ∧ k ≠ [] := by
    intro m hm
    rcases eq_or_ne m [] with rfl | hm'
    · rw [List.append_nil]
      exact (hname a.name List.prefix_rfl).imp id .inl
    · exact .inr (.inr ⟨m, rfl, hm, hm'⟩)
  rcases prefix_append_cases hl with ⟨hl, -⟩ | ⟨e, hle, he⟩
  · rw [hpn]
    exact (hleft l hl).imp id (.imp id .inl)
  rw [hle] at hpn
  rcases e with _ | ⟨x, r⟩
  · rw [hpn, List.append_nil]
    exact (hleft a.left List.prefix_rfl).imp id (.imp id .inl)
  obtain ⟨rfl, hr⟩ := List.cons_prefix_cons.mp he
  rcases prefix_append_cases hr with ⟨hr, -⟩ | ⟨q, hrq, hq⟩
  · exact .inr (.inr (.inr (.inl ⟨r, hpn, hr⟩)))
  rw [hrq] at hpn
  rcases q with _ | ⟨x, v⟩
  · exact .inr (.inr (.inr (.inl ⟨a.right, by rw [hpn, List.append_nil], List.prefix_rfl⟩)))
  obtain ⟨rfl, hv⟩ := List.cons_prefix_cons.mp hq
  rcases List.prefix_concat_iff.mp hv with rfl | hv
  · exact absurd hpn hne
  · exact .inr (.inr (.inr (.inr ⟨v, hpn, hv⟩)))

variable (ha : a.Readable)

include ha

/-- An attribute that is cut one byte into its name, with one blank in front of it. -/
theorem loop_short (hp : p <+: a.text) (hbefore : a.before.length = 1) (hlen : p.length = 2) :
    attributesLoop p.length (some p) p.length = none := by
  obtain ⟨b, hb⟩ := List.length_eq_one_iff.mp hbefore
  obtain ⟨c, n, hn⟩ := List.exists_cons_of_ne_nil ha.wellFormed.name_ne
  obtain rfl : p = [b, c] := by
    refine List.IsPrefix.eq_of_length (List.prefix_of_prefix_length_le hp ?_ hlen.le) hlen
    exact ⟨n ++ a.left ++ 61 :: (a.right ++ a.quote :: (a.value ++ [a.quote])), by simp [text, hb, hn]⟩
  refine attributesLoop_none (List.cons_ne_nil b [c]) (parseAttributesReal_short ?_ ?_ _)
  · exact isspace_of_isBlank (ha.wellFormed.before b (by rw [hb]; exact List.mem_singleton_self b))
  · exact ha.plain c (by rw [hn]; exact List.mem_cons_self)

/-- Anywhere else it is read to the end of what is there. -/
theorem loop_cut (hp : p <+: a.text) (hne : p ≠ a.text) (hlong : ¬ (a.before.length = 1 ∧ p.length = 2)) :
    ∃ attrs, attributesLoop p.length (some p) p.length = some (attrs, some [], 0) := by
  have hwf := ha.wellFormed
  have hspaces : ∀ {s t : Bytes}, s <+: t → (∀ c ∈ t, isBlank c) → ∀ c ∈ s, isspace c :=
    fun hst ht c hc => isspace_of_isBlank (ht c (hst.subset hc))
  have hbefore := hspaces List.prefix_rfl hwf.before
  have hstops : Stops [] := fun c hc => by cases hc
  have hblanks : ∀ {s : Bytes}, (∀ c ∈ s, isspace c) →
      attributesLoop s.length (some s) s.length = some ([], some [], 0) := by
    intro s hs
    have h := attributesLoop_blanks hs hstops
    rwa [List.append_nil] at h
  have hpos := List.length_pos_of_ne_nil hwf.before_ne
  have hnpos := List.length_pos_of_ne_nil hwf.name_ne
  rcases cut_cases hp hne with hb | ⟨n, rfl, hn, hn'⟩ | ⟨l, rfl, hl, hl'⟩ | ⟨r, rfl, hr⟩ | ⟨v, rfl, hv⟩
  · exact ⟨[], hblanks (hspaces hb hwf.before)⟩
  · have hchar : ∀ c ∈ n, isNameChar c := fun c hc => ha.plain c (hn.subset hc)
    have hlen := List.length_pos_of_ne_nil hn'
    have hnone : matchPieces attrExp.pieces (a.before ++ (n ++ [])) = none := by
      rw [← List.append_assoc]
      exact attrExp_none (fun c hc => (List.mem_append.mp hc).imp (hbefore c) (hchar c))
        fun c hc => by cases hc
    have hread := @parse_bare a.before n [] hbefore hchar (fun c hc => by cases hc)
      (fun _ c hc => by cases hc) (.inr ?_) hnone (a.before ++ n).length
    · rw [List.append_nil, ← List.length_append] at hread
      exact attributesLoop_all (fun h => hn' (List.append_eq_nil_iff.mp h).2) hread
    · rw [List.length_append] at hlong
      have hcstr : cstr ([] : Bytes) = [] := rfl
      rw [hcstr, List.append_nil, List.length_append]
      omega
  · -- the name alone, and the blanks behind it
    have hleft := hspaces hl hwf.left
    have hstop : ∀ c ∈ l.head?, isNameChar c = false := fun c hc =>
      isNameChar_of_isBlank (hwf.left c (hl.subset (List.mem_of_mem_head? hc)))
    have h0 : (0 : UInt8) ∉ l := zero_not_mem_isspace hleft
    have hlpos := List.length_pos_of_ne_nil hl'
    have hnone : matchPieces attrExp.pieces (a.before ++ (a.name ++ cstr l)) = none := by
      rw [cstr_of_not_mem h0]
      have h := @attrExp_none (a.before ++ (a.name ++ l)) [] (fun c hc => ?_) fun c hc => by cases hc
      · rwa [List.append_nil] at h
      · simp only [List.mem_append] at hc
        rcases hc with hc | hc | hc
        · exact .inl (hbefore c hc)
        · exact .inr (ha.plain c hc)
        · exact .inl (hleft c hc)
    have hlong' : 2 < (a.before ++ (a.name ++ cstr l)).length := by
      rw [cstr_of_not_mem h0]
      simp only [List.length_append]
      omega
    have hread := parse_bare hbefore ha.plain hstop (fun h => absurd h hwf.name_ne) (.inr hlong') hnone
      (a.before ++ (a.name ++ l)).length
    have hlen : (a.before ++ (a.name ++ l)).length - (a.before.length + a.name.length) = l.length := by
      simp only [List.length_append]
      omega
    have hdrop : (a.before ++ (a.name ++ l)).drop (a.before.length + a.name.length) = l := by
      rw [← List.append_assoc, ← List.length_append, List.drop_left]
    refine ⟨[⟨a.name, []⟩], ?_⟩
    rw [attributesLoop_step hread (by omega) (by simp only [List.length_append]; omega), hdrop, hlen,
      hblanks hleft, Option.map_some, if_neg hwf.name_ne]
    rfl
  · exact attributesLoop_all (by simp) (parse_noValue hbefore hwf.before_ne ha.plain hwf.name_ne
      (hspaces List.prefix_rfl hwf.left) (hspaces hr hwf.right) rfl)
  · have hquote : startQuote (a.quote :: v) = some a.quote := by
      rcases hwf.quote with h | h <;> rw [h] <;> rfl
    have hqspace : ∀ c ∈ (a.quote :: v).head?, isspace c = false := by
      rintro c ⟨⟩
      rcases hwf.quote with h | h <;> rw [h] <;> rfl
    set b := a.before ++ (a.name ++ (a.left ++ 61 :: (a.right ++ a.quote :: v))) with hb
    have hgoes : ∀ c ∈ v, TagAttr.Goes (some a.quote) c := fun c hc heq =>
      hwf.value (heq ▸ hv.subset hc)
    have hloop : valueLoop b b.length (startQuote (a.quote :: v)) false 1 ((a.quote :: v).drop 1) =
        (1 + v.length, 0) := by
      have hpass := valueLoop_pass b b.length hgoes false 1 [] fun h => nomatch h
      rw [hquote]
      rw [List.append_nil] at hpass
      refine hpass.trans ?_
      cases hasQ false v <;> rfl
    have hread := parse_value hbefore hwf.before_ne ha.plain hwf.name_ne
      (hspaces List.prefix_rfl hwf.left) (hspaces List.prefix_rfl hwf.right) hqspace
      (List.cons_ne_nil a.quote v) hb (by rw [hquote]; rfl) hloop
    have hlen : (a.before ++ a.name ++ a.left ++ 61 :: a.right).length + (1 + v.length) = b.length := by
      simp only [hb, List.length_append, List.length_cons]
      omega
    rw [hlen] at hread
    exact attributesLoop_all (by simp [hb]) hread

omit ha in
/-- Attributes between quotes are read in front of whatever follows. -/
theorem loop_quoted {attrs : List AttrText} (hattrs : ∀ a ∈ attrs, a.Readable) (p : Bytes) :
    attributesLoop (texts attrs ++ p).length (some (texts attrs ++ p)) (texts attrs ++ p).length =
      (attributesLoop p.length (some p) p.length).map fun r => (attrs.map toAttribute ++ r.1, r.2) := by
  induction attrs with
  | nil => exact Option.map_id'.symm
  | cons a attrs ih =>
    have ha := hattrs a List.mem_cons_self
    have hquote : a.toTag.quote ≠ none := Option.some_ne_none _
    have htext : a.toTag.text = a.text := by simp [toTag, TagAttr.text, TagAttr.head, text]
    have hread : a.toTag.ReadBefore (texts attrs ++ p) :=
      ⟨ha.plain, ha.escaped, fun h => absurd h hquote⟩
    have hstep := ha.wellFormed.toTag.loop_cons hread fun h => absurd h hquote
    rw [htext] at hstep
    rw [texts_cons, List.append_assoc, hstep, ih fun b hb => hattrs b (List.mem_cons_of_mem a hb),
      Option.map_map]
    rfl

/-- How far a call may not have come: one byte into the name of an attribute with one blank in front of
it. -/
def nullCuts : Nat → List AttrText → List Nat
  | _, [] => []
  | n, a :: attrs => (if a.before.length = 1 then [n + 2] else []) ++ nullCuts (n + a.text.length) attrs

omit ha in
theorem nullCuts_bounds {attrs : List AttrText} (hattrs : ∀ a ∈ attrs, a.Readable) {n k : Nat}
    (hk : k ∈ nullCuts n attrs) : n + 2 ≤ k ∧ k < n + (texts attrs).length := by
  induction attrs generalizing n with
  | nil => cases hk
  | cons a attrs ih =>
    have hlen : 2 < a.text.length := by
      have hwf := (hattrs a List.mem_cons_self).wellFormed
      have := List.length_pos_of_ne_nil hwf.before_ne
      simp only [text, List.length_append, List.length_cons]
      omega
    rw [texts_cons, List.length_append]
    rcases List.mem_append.mp hk with hk | hk
    · split at hk
      · rw [List.mem_singleton] at hk
        omega
      · cases hk
    · have := ih (fun b hb => hattrs b (List.mem_cons_of_mem a hb)) hk
      omega

omit ha in
theorem loop_texts_cut {attrs : List AttrText} (hattrs : ∀ a ∈ attrs, a.Readable) {p : Bytes}
    (hp : p <+: texts attrs) (hne : p ≠ texts attrs) (n : Nat) :
    (n + p.length ∈ nullCuts n attrs → attributesLoop p.length (some p) p.length = none) ∧
      (n + p.length ∉ nullCuts n attrs →
        ∃ found, attributesLoop p.length (some p) p.length = some (found, some [], 0)) := by
  induction attrs generalizing p n with
  | nil => exact absurd (List.prefix_nil.mp hp) hne
  | cons a attrs ih =>
    have ha := hattrs a List.mem_cons_self
    have hattrs' : ∀ b ∈ attrs, b.Readable := fun b hb => hattrs b (List.mem_cons_of_mem a hb)
    rw [texts_cons] at hp hne
    have hmem : n + p.length ∈ nullCuts n (a :: attrs) ↔
        a.before.length = 1 ∧ p.length = 2 ∨ n + p.length ∈ nullCuts (n + a.text.length) attrs := by
      rw [nullCuts, List.mem_append]
      refine or_congr_left ?_
      split
      next h => simp [h]
      next h => simp [h]
    rw [hmem]
    rcases prefix_append_cases hp with ⟨hp, hcut⟩ | ⟨r, rfl, hr⟩
    · have hshort : p.length < a.text.length :=
        lt_of_le_of_ne hp.length_le fun h => hcut (hp.eq_of_length h)
      have hnot : n + p.length ∉ nullCuts (n + a.text.length) attrs := fun h => by
        have := nullCuts_bounds hattrs' h
        omega
      rw [or_iff_left hnot]
      exact ⟨fun h => loop_short ha hp h.1 h.2, loop_cut ha hp hcut⟩
    · have hlen : (a.text ++ r).length ≠ 2 := by
        have := List.length_pos_of_ne_nil ha.wellFormed.before_ne
        simp only [text, List.length_append, List.length_cons]
        omega
      have hloop := loop_quoted (List.forall_mem_singleton.mpr ha) r
      have htext : texts [a] = a.text := by rw [texts, List.map_singleton, List.flatten_singleton]
      rw [htext] at hloop
      have hr' : r ≠ texts attrs := fun h => hne (by rw [h])
      obtain ⟨hnull, hread⟩ := ih hattrs' hr hr' (n + a.text.length)
      rw [or_iff_right fun h => hlen h.2, hloop, List.length_append, ← Nat.add_assoc]
      refine ⟨fun h => by rw [hnull h]; rfl, fun h => ?_⟩
      obtain ⟨found, hfound⟩ := hread h
      exact ⟨_, by rw [hfound]; rfl⟩

end AttrText

/-! ## A tag that is cut -/

theorem parseUnknownAttributes_none {p : Bytes} (h : attributesLoop p.length (some p) p.length = none) :
    parseUnknownAttributes p p.length = none := by
  rw [parseUnknownAttributes, testAttributes, h]
  rfl

/-- Where no end of the tag is found, the tag waits for it. -/
theorem parseUnknownAttributes_waits {p u : Bytes} {found : List XmlAttribute}
    (h : attributesLoop p.length (some p) p.length = some (found, some u, u.length))
    (hend : findCloseTag 0 u = none) : parseUnknownAttributes p p.length = some none := by
  have htest : testAttributes p p.length = some none := by
    rw [testAttributes, h]
    simp only [Option.bind_eq_bind, Option.bind_some, Option.getD_some, List.take_length, hend,
      Option.map_none]
  rw [parseUnknownAttributes, htest]
  rfl

/-- At most the slash of an end that is cut is there. -/
theorem tagEnd_cut {selfClosed : Bool} {e : Bytes} (he : e <+: tagEnd selfClosed)
    (hne : e ≠ tagEnd selfClosed) :
    Stops e ∧ findCloseTag 0 e = none := by
  have hcases : e = [] ∨ e = [47] := by
    rcases e with _ | ⟨x, _ | ⟨y, e⟩⟩
    · exact .inl rfl
    · cases selfClosed <;> simp_all [tagEnd, List.cons_prefix_cons]
    · cases selfClosed <;> simp_all [tagEnd, List.cons_prefix_cons]
  rcases hcases with rfl | rfl
  · exact ⟨fun c hc => (by cases hc), rfl⟩
  · refine ⟨?_, by decide⟩
    rintro c ⟨⟩
    decide

/-- The rest of a tag that is cut, behind its name. -/
theorem parseUnknownAttributes_cut {attrs : List AttrText} (hattrs : ∀ a ∈ attrs, a.Readable)
    {tail : Bytes} (htail : ∀ c ∈ tail, isBlank c) (selfClosed : Bool) {p : Bytes}
    (hp : p <+: AttrText.texts attrs ++ (tail ++ tagEnd selfClosed))
    (hne : p ≠ AttrText.texts attrs ++ (tail ++ tagEnd selfClosed)) (n : Nat) :
    parseUnknownAttributes p p.length =
      if n + p.length ∈ AttrText.nullCuts n attrs then none else some none := by
  rcases prefix_append_cases hp with ⟨hp, hcut⟩ | ⟨r, rfl, hr⟩
  · obtain ⟨hnull, hread⟩ := AttrText.loop_texts_cut hattrs hp hcut n
    split
    next h => exact parseUnknownAttributes_none (hnull h)
    next h =>
      obtain ⟨found, hfound⟩ := hread h
      exact parseUnknownAttributes_waits hfound rfl
  · rw [if_neg fun h => by
      have := (AttrText.nullCuts_bounds hattrs h).2
      rw [List.length_append] at this
      omega]
    -- the tail, and at most the slash of the end
    obtain ⟨s, u, hsu, hs, hu, hend⟩ : ∃ s u, r = s ++ u ∧ (∀ c ∈ s, isBlank c) ∧ Stops u ∧
        findCloseTag 0 u = none := by
      have hblank : ∀ s : Bytes, s <+: tail → ∃ s' u, s = s' ++ u ∧ (∀ c ∈ s', isBlank c) ∧ Stops u ∧
          findCloseTag 0 u = none := fun s hs =>
        ⟨s, [], (List.append_nil s).symm, fun c hc => htail c (hs.subset hc), fun c hc => (by cases hc), rfl⟩
      rcases prefix_append_cases hr with ⟨hr, -⟩ | ⟨e, rfl, he⟩
      · exact hblank r hr
      · exact ⟨tail, e, rfl, htail, tagEnd_cut he fun h => hne (by rw [h])⟩
    have hloop := AttrText.loop_quoted hattrs r
    rw [hsu, attributesLoop_blanks (fun c hc => isspace_of_isBlank (hs c hc)) hu, Option.map_some,
      List.append_nil, ← hsu] at hloop
    exact parseUnknownAttributes_waits hloop hend

/-! ## The expressions -/

/-- No match, where what has to stand at the end stands nowhere. -/
theorem matchPieces_no_mark (ps : List (Piece UInt8)) {mark s : Bytes} (h : ∀ n, ¬ mark <+: s.drop n) :
    matchPieces (ps ++ mark.map lit) s = none := by
  induction ps generalizing s with
  | nil => exact matchPieces_mark_none (h 0)
  | cons p ps ih =>
    refine matchPieces_none fun n _ _ => ih fun m => ?_
    rw [List.drop_drop]
    exact h (n + m)

theorem not_mark_singleton {c : UInt8} {s : Bytes} (h : c ∉ s) (n : Nat) : ¬ [c] <+: s.drop n :=
  fun hp => h (List.mem_of_mem_drop (hp.subset List.mem_cons_self))

namespace Construct

/-- A body that is cut does not have its mark. -/
theorem EndsWith.cut {mark body : Bytes} (h : EndsWith mark body) (hmark : mark ≠ []) {b : Bytes}
    (hb : b <+: body ++ mark) (hne : b ≠ body ++ mark) (n : Nat) : ¬ mark <+: b.drop n := by
  intro hp
  have hlen := hp.length_le
  have hpos := List.length_pos_of_ne_nil hmark
  have hlt : b.length < (body ++ mark).length :=
    lt_of_le_of_ne hb.length_le fun heq => hne (hb.eq_of_length heq)
  rw [List.length_drop] at hlen
  rw [List.length_append] at hlt
  exact h n (by omega) (hp.trans (hb.drop n))

end Construct

open Construct (EndsWith)

/-- A `<!` with a `>` behind it. -/
theorem noneExp_matches {s : Bytes} (h : 62 ∈ s) :
    ∃ ls, matchPieces noneExp.pieces (60 :: 33 :: s) = some ls := by
  obtain ⟨a, t, rfl⟩ := List.append_of_mem h
  have hfew : ∀ u : Bytes, 62 ∈ u → matchPieces [few anyChar 0, lit 62] u ≠ none := by
    intro u hu hnone
    obtain ⟨a, t, rfl⟩ := List.append_of_mem hu
    have hlen : a.length ∈ (few anyChar 0).lengths (a ++ 62 :: t) := by
      have hall : (a ++ 62 :: t).takeWhile anyChar = a ++ 62 :: t :=
        List.takeWhile_eq_self_iff.mpr fun _ _ => rfl
      refine mem_lengths.mpr ⟨?_, Nat.zero_le _⟩
      show a.length ≤ ((a ++ 62 :: t).takeWhile anyChar).length
      rw [hall, List.length_append]
      exact Nat.le_add_right _ _
    have h := List.findSome?_eq_none_iff.mp hnone _ hlen
    rw [List.drop_left, matchPieces_lit] at h
    cases h
  have hname : matchPieces [many isNoneChar 0, few anyChar 0, lit 62] (a ++ 62 :: t) ≠ none := by
    intro hnone
    have hzero := List.findSome?_eq_none_iff.mp hnone 0 (mem_lengths.mpr ⟨Nat.zero_le _, Nat.le_refl _⟩)
    exact hfew _ h (Option.map_eq_none_iff.mp hzero)
  obtain ⟨ls, hls⟩ := Option.ne_none_iff_exists'.mp hname
  refine ⟨1 :: 1 :: ls, ?_⟩
  show matchPieces (lit 60 :: lit 33 :: [many isNoneChar 0, few anyChar 0, lit 62]) _ = _
  rw [matchPieces_lit, matchPieces_lit, hls]
  rfl

/-! ## A construct that is cut -/

namespace Construct

/-- Where a call that ends there reads from `NULL`, in bytes from the start of the construct. -/
def nullCuts : Construct → List Nat
  | tag name attrs _ _ => 2 :: AttrText.nullCuts (1 + name.length) attrs
  | _ => []

/-- What is answered to a construct of which the first `k` bytes have come. -/
def answer (c : Construct) (k : Nat) : Option XmlStatus :=
  if k ∈ c.nullCuts then none
  else
    match c with
    | text _ => some .ok
    | tag .. => some (if k = 1 then .syntaxError else .needBuffer)
    | closeTag .. => some (if k ≤ 2 then .syntaxError else .needBuffer)
    | comment _ => some (if 62 ∈ c.bytes.take k then .error else .syntaxError)
    | declaration _ | noneTag _ => some .syntaxError

end Construct

section

variable {buf s : Bytes} (h0 : (0 : UInt8) ∉ buf) (hbuf : buf = 60 :: s)

include h0 hbuf

/-- What no sub-parser knows. -/
theorem parseNode_syntaxError (hdecl : matchPieces declarationExp.pieces buf = none)
    (htag : matchPieces tagExp.pieces buf = none) (hclose : matchPieces closeTagExp.pieces buf = none)
    (hcomment : matchPieces commentExp.pieces buf = none)
    (hnone : matchPieces noneExp.pieces buf = none) : parseNode buf = some { status := .syntaxError } := by
  have htag' : parseTag buf = _ := parseTagOf_pass h0 htag
  have hclose' : parseCloseTag buf = _ := parseTagOf_pass h0 hclose
  have htext : parseText buf = some { status := .ok } := by
    rw [hbuf]
    exact parseText_pass s
  rw [parseNode, firstFound_pass (parseDeclaration_pass h0 hdecl), firstFound_pass htag',
    firstFound_pass hclose', firstFound_pass (parseCommentTag_pass h0 hcomment),
    firstFound_pass (parseNoneTag_pass h0 hnone), firstFound_pass htext]
  rfl

end

/-- The loop stops where no node is handed out. -/
theorem parseLoop_status {fuel : Nat} (hfuel : 0 < fuel) {buf : Bytes} (hne : buf ≠ []) {st : XmlStatus}
    (h : parseNode buf = some { status := st }) (hst : st ≠ .findNode) (xml : Xml) :
    parseLoop fuel buf xml = some (st, buf, xml) := by
  obtain ⟨fuel, rfl⟩ := Nat.exists_eq_succ_of_ne_zero hfuel.ne'
  rw [parseLoop, if_neg hne, h]
  simp only [Option.bind_eq_bind, Option.bind_some, ne_eq, hst, not_false_eq_true, if_true]

theorem parseLoop_none {fuel : Nat} (hfuel : 0 < fuel) {buf : Bytes} (hne : buf ≠ [])
    (h : parseNode buf = none) (xml : Xml) : parseLoop fuel buf xml = none := by
  obtain ⟨fuel, rfl⟩ := Nat.exists_eq_succ_of_ne_zero hfuel.ne'
  rw [parseLoop, if_neg hne, h]
  rfl

/-- `<` alone. -/
theorem parseNode_open : parseNode [60] = some { status := .syntaxError } :=
  parseNode_syntaxError (s := []) (by decide) rfl (second_none fun c hc => by cases hc)
    (tagExp_none fun c hc => by cases hc) (second_none fun c hc => by cases hc)
    (second_none fun c hc => by cases hc) (second_none fun c hc => by cases hc)

theorem not_mem_of_prefix {q : Bytes} {c : Construct} (hc : c.Plain) (hq : q <+: c.bytes) : (0 : UInt8) ∉ q :=
  fun h => hc.wellFormed.zero_not_mem (hq.subset h)

section

variable {q : Bytes} {fuel : Nat} (hne : q ≠ []) (hfuel : 0 < fuel) (xml : Xml)

include hne hfuel

theorem parseLoop_cut_declaration {body : Bytes} (hc : (Construct.declaration body).Plain)
    (hq : q <+: (Construct.declaration body).bytes) (hcut : q ≠ (Construct.declaration body).bytes) :
    parseLoop fuel q xml = some (.syntaxError, q, xml) := by
  have h0 := not_mem_of_prefix hc hq
  refine parseLoop_status hfuel hne ?_ (by decide) xml
  rcases prefix_append_cases hq with ⟨hq, hq'⟩ | ⟨b, rfl, hb⟩
  · obtain rfl : q = [60] := by
      rcases q with _ | ⟨x, _ | ⟨y, q⟩⟩ <;> simp_all [List.cons_prefix_cons]
    exact parseNode_open
  · have hmark := hc.wellFormed.2.cut (by decide) hb fun h => hcut (by rw [h]; rfl)
    have hdecl : matchPieces declarationExp.pieces ([60, 63] ++ b) = none := by
      show matchPieces (lit 60 :: lit 63 :: ([many isNameChar 0, many isspace 0, few anyChar 0] ++
        [63, 62].map lit)) (60 :: 63 :: b) = none
      rw [matchPieces_lit, matchPieces_lit, matchPieces_no_mark _ hmark]
      rfl
    have hsecond : ∀ c ∈ (63 :: b).head?, c = (63 : UInt8) := fun c hc => (Option.some.inj hc).symm
    exact parseNode_syntaxError (s := 63 :: b) h0 rfl hdecl
      (tagExp_none fun c hc => hsecond c hc ▸ by decide) (second_none fun c hc => hsecond c hc ▸ by decide)
      (second_none fun c hc => hsecond c hc ▸ by decide) (second_none fun c hc => hsecond c hc ▸ by decide)

theorem parseLoop_cut_comment {body : Bytes} (hc : (Construct.comment body).Plain)
    (hq : q <+: (Construct.comment body).bytes) (hcut : q ≠ (Construct.comment body).bytes) :
    parseLoop fuel q xml = some (if 62 ∈ q then .error else .syntaxError, q, xml) := by
  have h0 := not_mem_of_prefix hc hq
  -- no comment, as its end is not there
  have hcomment : matchPieces commentExp.pieces q = none := by
    rcases prefix_append_cases hq with ⟨hq, hq'⟩ | ⟨b, rfl, hb⟩
    · rcases q with _ | ⟨w, _ | ⟨x, _ | ⟨y, _ | ⟨z, q⟩⟩⟩⟩
      · rfl
      all_goals simp only [List.cons_prefix_cons, List.prefix_nil, List.nil_prefix, and_true] at hq
      · obtain rfl := hq
        rfl
      · obtain ⟨rfl, rfl⟩ := hq
        rfl
      · obtain ⟨rfl, rfl, rfl⟩ := hq
        rfl
      · obtain ⟨rfl, rfl, rfl, rfl, rfl⟩ := hq
        exact absurd rfl hq'
    · have hmark := hc.wellFormed.2.cut (by decide) hb fun h => hcut (by rw [h]; rfl)
      show matchPieces (lit 60 :: lit 33 :: lit 45 :: lit 45 :: ([few anyChar 0] ++ [45, 45, 62].map lit))
        (60 :: 33 :: 45 :: 45 :: b) = none
      rw [matchPieces_lit, matchPieces_lit, matchPieces_lit, matchPieces_lit, matchPieces_no_mark _ hmark]
      rfl
  rcases q with _ | ⟨x, q⟩
  · exact absurd rfl hne
  obtain ⟨rfl, hq1⟩ := List.cons_prefix_cons.mp hq
  rcases q with _ | ⟨y, t⟩
  · exact parseLoop_status hfuel hne parseNode_open (by decide) xml
  obtain ⟨rfl, hq2⟩ := List.cons_prefix_cons.mp hq1
  have ht : t <+: 45 :: 45 :: (body ++ [45, 45, 62]) := hq2
  have hsecond : ∀ c ∈ (33 :: t).head?, c = (33 : UInt8) := fun c hc => (Option.some.inj hc).symm
  have hdecl : matchPieces declarationExp.pieces (60 :: 33 :: t) = none :=
    second_none fun c hc => hsecond c hc ▸ by decide
  have htag : matchPieces tagExp.pieces (60 :: 33 :: t) = none :=
    tagExp_none fun c hc => hsecond c hc ▸ by decide
  have hclose : matchPieces closeTagExp.pieces (60 :: 33 :: t) = none :=
    second_none fun c hc => hsecond c hc ▸ by decide
  split
  next hmem =>
    -- some other `<!...>`, whose node is not handed out
    have hmem' : 62 ∈ t := by simpa using hmem
    have hlong : 4 < (60 :: 33 :: t).length := by
      rcases t with _ | ⟨a, _ | ⟨b, _ | ⟨c, t⟩⟩⟩
      · cases hmem'
      all_goals simp only [List.cons_prefix_cons] at ht
      · obtain ⟨rfl, -⟩ := ht
        simp at hmem'
      · obtain ⟨rfl, rfl, -⟩ := ht
        simp at hmem'
      · simp
    obtain ⟨ls, hls⟩ := noneExp_matches hmem'
    have hregexp := regexp_of_match h0 hne hls
    have hsum : ls.sum ≤ (60 :: 33 :: t).length := by
      have h := @matchPieces_sum_le _ noneExp.pieces (60 :: 33 :: t) [] ls (fun _ _ c hc => by cases hc)
      rw [List.append_nil] at h
      exact h hls
    set m : Match := ⟨60 :: 33 :: t, ls, (0, noneExp.pieces.length) :: noneExp.groups⟩ with hm
    obtain ⟨name, hname⟩ := @getMatchString_isSome m 1 (2, 3) rfl (by decide) hsum
      (show 2 < (60 :: 33 :: t).length by omega)
    obtain ⟨text, htext⟩ := @getMatchString_isSome m 2 (3, 4) rfl (by decide) hsum hlong
    have hfound : parseNoneTag (60 :: 33 :: t) = some ⟨.findNode, none, m.getMatchLength 0⟩ := by
      rw [parseNoneTag, hregexp]
      simp only [hname, htext, Option.bind_eq_bind, Option.bind_some]
    have htag' : parseTag (60 :: 33 :: t) = _ := parseTagOf_pass h0 htag
    have hclose' : parseCloseTag (60 :: 33 :: t) = _ := parseTagOf_pass h0 hclose
    obtain ⟨fuel, rfl⟩ := Nat.exists_eq_succ_of_ne_zero hfuel.ne'
    rw [parseLoop, if_neg hne, parseNode, firstFound_pass (parseDeclaration_pass h0 hdecl),
      firstFound_pass htag', firstFound_pass hclose', firstFound_pass (parseCommentTag_pass h0 hcomment),
      firstFound_found hfound (by simp)]
    rfl
  next hmem =>
    have hpieces : noneExp.pieces =
        [lit 60, lit 33, many isNoneChar 0, few anyChar 0] ++ [62].map lit := rfl
    have hnone : matchPieces noneExp.pieces (60 :: 33 :: t) = none := by
      rw [hpieces]
      exact matchPieces_no_mark _ (not_mark_singleton hmem)
    have hparse := parseNode_syntaxError h0 rfl hdecl htag hclose hcomment hnone
    exact parseLoop_status hfuel hne hparse (by decide) xml

end

/-- A tag with one byte of its name has no group that `getMatch` hands out. -/
theorem parseTag_short {c : UInt8} (hc : isNameChar c) : parseTag [60, c] = none := by
  have hn : ∀ x ∈ [c], isNameChar x := List.forall_mem_singleton.mpr hc
  have h0 : (0 : UInt8) ∉ [60, c] := by
    rw [← List.singleton_append, List.mem_append, not_or]
    exact ⟨by decide, zero_not_mem_isNameChar hn⟩
  have hname : matchPieces [many isNameChar 1] ([c] ++ []) = some [1] :=
    matchPieces_greedy hn rfl le_rfl rfl
  rw [List.append_nil] at hname
  have hmatch : matchPieces tagExp.pieces [60, c] = some [1, 1] := by
    have hlit := @matchPieces_lit 60 [many isNameChar 1] [c]
    rw [hname] at hlit
    exact hlit
  have hregexp := regexp_of_match h0 (List.cons_ne_nil 60 [c]) hmatch
  have hgroup :
      Match.getMatchString ⟨[60, c], [1, 1], (0, tagExp.pieces.length) :: tagExp.groups⟩ 1 = none := rfl
  simp only [parseTag, parseTagOf, hregexp, hgroup, Option.bind_eq_bind, Option.bind_none]

section

variable {exp : Regexp} {pre : Bytes} (hexp : Begins exp pre) (type : XmlNodeType) {name more : Bytes}
  (hne : name ≠ []) (hname : ∀ c ∈ name, isNameChar c) (hmore : ∀ c ∈ more.head?, isNameChar c = false)
  (h0 : (0 : UInt8) ∉ pre ++ (name ++ more)) (hlong : 2 < (pre ++ (name ++ more)).length)

include hexp hne hname hmore h0 hlong

theorem parseTagOf_waits (h : parseUnknownAttributes more more.length = some none) :
    parseTagOf exp type (pre ++ (name ++ more)) = some { status := .needBuffer } := by
  rw [parseTagOf_eq hexp type hne hname hmore h0 hlong, h]
  rfl

theorem parseTagOf_none (h : parseUnknownAttributes more more.length = none) :
    parseTagOf exp type (pre ++ (name ++ more)) = none := by
  rw [parseTagOf_eq hexp type hne hname hmore h0 hlong, h]
  rfl

end

theorem head?_of_front {p s : Bytes} {c : UInt8} (hp : p <+: s) (hc : c ∈ p.head?) : c ∈ s.head? := by
  obtain ⟨t, rfl⟩ := hp
  cases p with
  | nil => cases hc
  | cons x p => exact hc

/-- What the parts of a tag that is cut come to, from its name on. -/
theorem begun_cases {name rest r : Bytes} (hr : r <+: name ++ rest) (hr' : r ≠ []) :
    (r <+: name ∧ r ≠ name ∧ r ≠ []) ∨ ∃ m, r = name ++ m ∧ m <+: rest := by
  rcases prefix_append_cases hr with ⟨hr, hne⟩ | h
  · exact .inl ⟨hr, hne, hr'⟩
  · exact .inr h

section

variable {q : Bytes} {fuel : Nat} (hne : q ≠ []) (hfuel : 0 < fuel) (xml : Xml)

include hne hfuel

theorem parseLoop_cut_tag {name tail : Bytes} {attrs : List AttrText} {selfClosed : Bool}
    (hc : (Construct.tag name attrs tail selfClosed).Plain)
    (hq : q <+: (Construct.tag name attrs tail selfClosed).bytes)
    (hcut : q ≠ (Construct.tag name attrs tail selfClosed).bytes) :
    parseLoop fuel q xml =
      ((Construct.tag name attrs tail selfClosed).answer q.length).map fun st => (st, q, xml) := by
  have h0 := not_mem_of_prefix hc hq
  obtain ⟨hname, -, hattrs, htail⟩ := hc.wellFormed
  have hchar : ∀ c ∈ name, isNameChar c := hc.names.1
  have hread : ∀ a ∈ attrs, a.Readable := fun a ha => ⟨hattrs a ha, hc.names.2 a ha, hc.escaped a ha⟩
  have hpos := List.length_pos_of_ne_nil hname
  have hbounds : ∀ {k}, k ∈ AttrText.nullCuts (1 + name.length) attrs → 1 + name.length + 2 ≤ k :=
    fun hk => (AttrText.nullCuts_bounds hread hk).1
  rcases q with _ | ⟨x, r⟩
  · exact absurd rfl hne
  obtain rfl : x = 60 := (List.cons_prefix_cons.mp hq).1
  have hr : r <+: name ++ (AttrText.texts attrs ++ (tail ++ tagEnd selfClosed)) :=
    (List.cons_prefix_cons.mp hq).2
  rcases eq_or_ne r [] with rfl | hr'
  · have hnot : 1 ∉ (Construct.tag name attrs tail selfClosed).nullCuts := by
      rw [Construct.nullCuts, List.mem_cons, not_or]
      exact ⟨by decide, fun h => by have := hbounds h; omega⟩
    have hanswer : (Construct.tag name attrs tail selfClosed).answer 1 = some .syntaxError := if_neg hnot
    rw [List.length_singleton, hanswer]
    exact parseLoop_status hfuel hne parseNode_open (by decide) xml
  have hfirst : ∀ c ∈ r.head?, isNameChar c := fun c hc => by
    have hc' := head?_of_front hr hc
    rw [List.head?_append_of_ne_nil _ hname] at hc'
    exact hchar c (List.mem_of_mem_head? hc')
  have hdecl : matchPieces declarationExp.pieces (60 :: r) = none := by
    refine second_none fun c hc => ?_
    rintro rfl
    exact absurd (hfirst 63 hc) (by decide)
  have hpass := parseDeclaration_pass h0 hdecl
  -- a tag that waits for its end
  have hwaits : parseTag (60 :: r) = some { status := .needBuffer } →
      parseLoop fuel (60 :: r) xml = some (.needBuffer, 60 :: r, xml) := by
    intro htag
    refine parseLoop_status hfuel hne ?_ (by decide) xml
    rw [parseNode, firstFound_pass hpass, firstFound_found htag (by simp)]
  have hnull : parseTag (60 :: r) = none → parseLoop fuel (60 :: r) xml = none := by
    intro htag
    refine parseLoop_none hfuel hne ?_ xml
    rw [parseNode, firstFound_pass hpass, firstFound, htag]
    rfl
  have hanswer : (60 :: r).length ∉ (Construct.tag name attrs tail selfClosed).nullCuts →
      (Construct.tag name attrs tail selfClosed).answer (60 :: r).length = some .needBuffer := by
    intro hnot
    have hone : (60 :: r).length ≠ 1 := by
      have := List.length_pos_of_ne_nil hr'
      rw [List.length_cons]
      omega
    rw [Construct.answer, if_neg hnot]
    exact congrArg some (if_neg hone)
  rcases eq_or_ne (60 :: r).length 2 with hlen | hlen
  · obtain ⟨c, rfl⟩ := List.length_eq_one_iff.mp (Nat.succ.inj hlen)
    rw [hnull (parseTag_short (hfirst c rfl))]
    rfl
  have hlong : 2 < (60 :: r).length := by
    have := List.length_pos_of_ne_nil hr'
    rw [List.length_cons] at hlen ⊢
    omega
  have hmem : (60 :: r).length ∈ (Construct.tag name attrs tail selfClosed).nullCuts ↔
      (60 :: r).length ∈ AttrText.nullCuts (1 + name.length) attrs := by
    rw [Construct.nullCuts, List.mem_cons, or_iff_right hlen]
  rcases begun_cases hr hr' with ⟨hrn, hrne, -⟩ | ⟨m, rfl, hm⟩
  · have hlt : r.length < name.length := lt_of_le_of_ne hrn.length_le fun h => hrne (hrn.eq_of_length h)
    have hnot : (60 :: r).length ∉ (Construct.tag name attrs tail selfClosed).nullCuts := by
      rw [hmem]
      intro h
      have := hbounds h
      rw [List.length_cons] at this
      omega
    have hwait := @parseTagOf_waits _ _ begins_tag .tag r [] hr' (fun c hc => hchar c (hrn.subset hc))
      (fun c hc => by cases hc) (by rwa [List.append_nil]) (by rwa [List.append_nil]) rfl
    rw [List.append_nil] at hwait
    rw [hanswer hnot, hwaits hwait]
    rfl
  · have hmne : m ≠ AttrText.texts attrs ++ (tail ++ tagEnd selfClosed) := fun h => hcut (by rw [h]; rfl)
    have hhead : ∀ c ∈ m.head?, isNameChar c = false := fun c hc => by
      have h := head_behind_name hattrs htail (stops_head (stops_tagEnd selfClosed []))
      rw [List.append_nil] at h
      exact h c (head?_of_front hm hc)
    have hrest := parseUnknownAttributes_cut hread htail selfClosed hm hmne (1 + name.length)
    have hlength : (60 :: (name ++ m)).length = 1 + name.length + m.length := by
      rw [List.length_cons, List.length_append]
      omega
    rw [← hlength] at hrest
    split at hrest
    next hin =>
      rw [← hmem] at hin
      have hnone := parseTagOf_none begins_tag .tag hname hchar hhead h0 hlong hrest
      rw [hnull hnone, Construct.answer, if_pos hin]
      rfl
    next hin =>
      rw [← hmem] at hin
      have hwait := parseTagOf_waits begins_tag .tag hname hchar hhead h0 hlong hrest
      rw [hanswer hin, hwaits hwait]
      rfl

theorem parseLoop_cut_closeTag {name tail : Bytes} (hc : (Construct.closeTag name tail).Plain)
    (hq : q <+: (Construct.closeTag name tail).bytes) (hcut : q ≠ (Construct.closeTag name tail).bytes) :
    parseLoop fuel q xml = some (if q.length ≤ 2 then .syntaxError else .needBuffer, q, xml) := by
  have h0 := not_mem_of_prefix hc hq
  obtain ⟨hname, -, htail⟩ := hc.wellFormed
  have hchar : ∀ c ∈ name, isNameChar c := hc.names
  have hbytes : (Construct.closeTag name tail).bytes = 60 :: 47 :: (name ++ (tail ++ [62])) := rfl
  rw [hbytes] at hq hcut
  rcases q with _ | ⟨x, _ | ⟨y, r⟩⟩
  · exact absurd rfl hne
  · obtain ⟨rfl, -⟩ := List.cons_prefix_cons.mp hq
    exact parseLoop_status hfuel hne parseNode_open (by decide) xml
  rw [List.cons_prefix_cons, List.cons_prefix_cons] at hq
  obtain ⟨rfl, rfl, hr⟩ := hq
  have hsecond : ∀ c ∈ (47 :: r).head?, c = (47 : UInt8) := fun c hc => (Option.some.inj hc).symm
  have hdecl : matchPieces declarationExp.pieces (60 :: 47 :: r) = none :=
    second_none fun c hc => hsecond c hc ▸ by decide
  have htag : matchPieces tagExp.pieces (60 :: 47 :: r) = none :=
    tagExp_none fun c hc => hsecond c hc ▸ by decide
  rcases eq_or_ne r [] with rfl | hr'
  · have hclose : matchPieces closeTagExp.pieces [60, 47] = none := rfl
    exact parseLoop_status hfuel hne (parseNode_syntaxError h0 rfl hdecl htag hclose
      (second_none fun c hc => hsecond c hc ▸ by decide) (second_none fun c hc => hsecond c hc ▸ by decide))
      (by decide) xml
  have hlong : 2 < (60 :: 47 :: r).length := by
    have := List.length_pos_of_ne_nil hr'
    simp only [List.length_cons]
    omega
  have hwait : parseCloseTag (60 :: 47 :: r) = some { status := .needBuffer } := by
    rcases begun_cases hr hr' with ⟨hrn, -, -⟩ | ⟨m, rfl, hm⟩
    · have h := @parseTagOf_waits _ _ begins_closeTag .closeTag r [] hr'
        (fun c hc => hchar c (hrn.subset hc)) (fun c hc => by cases hc) (by rwa [List.append_nil])
        (by rwa [List.append_nil]) rfl
      rw [List.append_nil] at h
      exact h
    · have hm' : m <+: AttrText.texts [] ++ (tail ++ tagEnd false) := hm
      have hmne : m ≠ AttrText.texts [] ++ (tail ++ tagEnd false) := fun h => hcut (by rw [h]; rfl)
      have hhead : ∀ c ∈ m.head?, isNameChar c = false := fun c hc => by
        have h := @head_behind_name [] (List.forall_mem_nil _) _ _ htail (stops_head (stops_tagEnd false []))
        rw [List.append_nil] at h
        exact h c (head?_of_front hm' hc)
      have hrest := parseUnknownAttributes_cut (List.forall_mem_nil _) htail false hm' hmne 0
      exact parseTagOf_waits begins_closeTag .closeTag hname hchar hhead h0 hlong hrest
  have htag' : parseTag (60 :: 47 :: r) = _ := parseTagOf_pass h0 htag
  rw [if_neg hlong.not_ge]
  refine parseLoop_status hfuel hne ?_ (by decide) xml
  rw [parseNode, firstFound_pass (parseDeclaration_pass h0 hdecl), firstFound_pass htag',
    firstFound_found hwait (by simp)]

end

/-- A construct that is cut stays in the buffer, whatever is answered. -/
theorem parseLoop_cut {c : Construct} (hc : c.Plain) (htext : ¬ c.IsText) {q : Bytes} (hq : q <+: c.bytes)
    (hne : q ≠ []) (hcut : q ≠ c.bytes) {fuel : Nat} (hfuel : 0 < fuel) (xml : Xml) :
    parseLoop fuel q xml = (c.answer q.length).map fun st => (st, q, xml) := by
  cases c with
  | declaration body => exact parseLoop_cut_declaration hne hfuel xml hc hq hcut
  | tag name attrs tail selfClosed => exact parseLoop_cut_tag hne hfuel xml hc hq hcut
  | closeTag name tail => exact parseLoop_cut_closeTag hne hfuel xml hc hq hcut
  | noneTag body => exact absurd trivial hc.notNone
  | comment body =>
    have htake : (Construct.comment body).bytes.take q.length = q := (List.prefix_iff_eq_take.mp hq).symm
    have hanswer : (Construct.comment body).answer q.length =
        some (if 62 ∈ q then .error else .syntaxError) := by
      show some (if 62 ∈ (Construct.comment body).bytes.take q.length then _ else _) = _
      rw [htake]
    rw [hanswer]
    exact parseLoop_cut_comment hne hfuel xml hc hq hcut
  | text body => exact absurd trivial htext

end Dframework
