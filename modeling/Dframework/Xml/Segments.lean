import Mathlib
import Dframework.Xml.CutConstruct
import Dframework.Xml.ConstructNode
import Dframework.Xml.Markup

/-!
# A document in pieces

The bytes of a document come in as many calls of `parseBuffer` as there are blocks. What a call takes off
the buffer are whole constructs and whatever is there of a text; a construct that is cut stays for the
next call. So the tree comes out the same, with the texts cut, and a cut shows only in what the call
answers. What is answered depends on the place of the cut alone.

Results:
1. `calls_run`: what the calls answer, and the nodes that they append.
2. `Nested.joined`: the trees of a sequence whose texts are cut.
3. `parseBuffer_segments`: a document in pieces against the document as a whole.
-/

namespace Dframework

open CLib Pattern Search

namespace XmlParser

/-- The calls of `parseBuffer` with one piece after the other: what they answer, and the parser behind
them. -/
def calls (p : XmlParser) : List Bytes → Option (List XmlStatus × XmlParser)
  | [] => some ([], p)
  | w :: ws => do
    let (status, p) ← p.parseBuffer w w.length
    let (statuses, p) ← calls p ws
    some (status :: statuses, p)

end XmlParser

/-- Where the pieces end, in bytes from the start, when the first one begins at `n`. -/
def cuts : Nat → List Bytes → List Nat
  | _, [] => []
  | n, w :: ws => (n + w.length) :: cuts (n + w.length) ws

namespace Construct

/-- What is answered when the first `k` bytes of the constructs have come. -/
def answerAt : List Construct → Nat → Option XmlStatus
  | [], _ => some .ok
  | c :: cs, k =>
    if c.bytes.length ≤ k then answerAt cs (k - c.bytes.length)
    else if k = 0 then some .ok
    else c.answer k

/-- What the buffer holds is the start of the next construct, which is no text. -/
def Waits (q : Bytes) (cs : List Construct) : Prop :=
  q = [] ∨ ∃ c cs', cs = c :: cs' ∧ ¬ c.IsText ∧ q <+: c.bytes ∧ q ≠ c.bytes

/-- The constructs with texts cut. -/
inductive TextsCut : List Construct → List Construct → Prop
  | nil : TextsCut [] []
  | same {c : Construct} {cs cs' : List Construct} : TextsCut cs cs' → TextsCut (c :: cs) (c :: cs')
  | text {a b : Bytes} {cs cs' : List Construct} : (Construct.text a).Plain → (Construct.text b).Plain →
    TextsCut (.text b :: cs) cs' → TextsCut (.text (a ++ b) :: cs) (.text a :: cs')

/-- Of the bytes `b`, with which the constructs begin, `done` is taken off the buffer, `q` stays in it, and
the constructs go on with `rest`. -/
structure Consumed (cs : List Construct) (b : Bytes) (done : List Construct) (q : Bytes)
    (rest : List Construct) : Prop where
  bytes : b = texts done ++ q
  texts : texts cs = texts done ++ texts rest
  waits : Waits q rest
  donePlain : ∀ c ∈ done, c.Plain
  doneApart : Apart done
  restPlain : ∀ c ∈ rest, c.Plain
  restApart : Apart rest
  head : ∀ d ∈ done.head?, d.IsText → ∀ c ∈ cs.head?, c.IsText
  cut : ∀ cs', TextsCut rest cs' → TextsCut cs (done ++ cs')
  answer : ∀ k, answerAt cs ((Construct.texts done).length + k) = answerAt rest k

theorem texts_nil : texts [] = [] := rfl

theorem texts_singleton (c : Construct) : texts [c] = c.bytes := by
  rw [texts, List.map_singleton, List.flatten_singleton]

/-- The part of a text. -/
theorem Plain.text_part {s : Bytes} (h : (Construct.text s).Plain) {t : Bytes} (hne : t ≠ []) (ht : t ⊆ s) :
    (Construct.text t).Plain :=
  ⟨⟨hne, fun hmem => h.wellFormed.2.1 (ht hmem), fun hmem => h.wellFormed.2.2 (ht hmem)⟩, trivial,
    trivial, id⟩

theorem Apart.replace {c d : Construct} {cs : List Construct} (h : Apart (c :: cs))
    (hd : d.IsText → c.IsText) : Apart (d :: cs) := by
  cases cs with
  | nil => exact List.isChain_singleton _
  | cons x cs =>
    obtain ⟨hcx, hcs⟩ := List.isChain_cons_cons.mp h
    exact List.isChain_cons_cons.mpr ⟨fun hboth => hcx ⟨hd hboth.1, hboth.2⟩, hcs⟩

theorem answerAt_zero {cs : List Construct} (hplain : ∀ c ∈ cs, c.Plain) : answerAt cs 0 = some .ok := by
  cases cs with
  | nil => rfl
  | cons c cs =>
    have hpos := List.length_pos_of_ne_nil (hplain c List.mem_cons_self).wellFormed.bytes_ne
    rw [answerAt, if_neg hpos.not_ge, if_pos rfl]

/-- Where the text is cut does not matter to the rest of the document. -/
theorem answerAt_text {a b : Bytes} (ha : a ≠ []) (cs : List Construct) (k : Nat) :
    answerAt (.text (a ++ b) :: cs) (a.length + k) = answerAt (.text b :: cs) k := by
  have hpos := List.length_pos_of_ne_nil ha
  have hlen : (Construct.text (a ++ b)).bytes.length = a.length + b.length := List.length_append
  have hlen' : (Construct.text b).bytes.length = b.length := rfl
  rw [answerAt, answerAt, hlen, hlen']
  by_cases hle : b.length ≤ k
  · rw [if_pos (by omega), if_pos hle]
    congr 1
    omega
  · rw [if_neg (by omega), if_neg hle, if_neg (by omega)]
    split <;> rfl

theorem taken_nothing {cs : List Construct} (hplain : ∀ c ∈ cs, c.Plain) (hapart : Apart cs) {q : Bytes}
    (hwaits : Waits q cs) : Consumed cs q [] q cs where
  bytes := rfl
  texts := rfl
  waits := hwaits
  donePlain := List.forall_mem_nil _
  doneApart := List.isChain_nil
  restPlain := hplain
  restApart := hapart
  head d hd := by cases hd
  cut _ h := h
  answer k := congrArg _ (Nat.zero_add k)

/-- What is taken of the bytes that have come. -/
theorem exists_taken {cs : List Construct} (hplain : ∀ c ∈ cs, c.Plain) (hapart : Apart cs) {b : Bytes}
    (hb : b <+: texts cs) : ∃ done q rest, Consumed cs b done q rest := by
  induction cs generalizing b with
  | nil =>
    rw [List.prefix_nil.mp hb]
    exact ⟨[], [], [], taken_nothing hplain hapart (.inl rfl)⟩
  | cons c cs ih =>
    have hc := hplain c List.mem_cons_self
    have hcs : ∀ d ∈ cs, d.Plain := fun d hd => hplain d (List.mem_cons_of_mem c hd)
    rw [texts_cons] at hb
    rcases prefix_append_cases hb with ⟨hb, hcut⟩ | ⟨r, rfl, hr⟩
    · rcases eq_or_ne b [] with rfl | hne
      · exact ⟨[], [], c :: cs, taken_nothing hplain hapart (.inl rfl)⟩
      by_cases htext : c.IsText
      · -- whatever is there of a text
        cases c with
        | text body =>
          obtain ⟨b', rfl⟩ : b <+: body := hb
          have hne' : b' ≠ [] := by
            rintro rfl
            exact hcut (List.append_nil b).symm
          have ha := hc.text_part hne (List.subset_append_left b b')
          have hb' := hc.text_part hne' (List.subset_append_right b b')
          refine ⟨[.text b], [], .text b' :: cs, ?_, ?_, .inl rfl, ?_, List.isChain_singleton _, ?_, ?_,
            ?_, ?_, ?_⟩
          · rw [texts_singleton, List.append_nil]
            rfl
          · rw [texts_singleton, texts_cons, texts_cons, ← List.append_assoc]
            rfl
          · exact List.forall_mem_singleton.mpr ha
          · exact List.forall_mem_cons.mpr ⟨hb', hcs⟩
          · exact hapart.replace fun _ => trivial
          · rintro d - - x ⟨⟩
            exact trivial
          · exact fun cs' h => .text ha hb' h
          · intro k
            rw [texts_singleton]
            exact answerAt_text hne cs k
        | _ => exact absurd htext id
      · exact ⟨[], b, c :: cs, taken_nothing hplain hapart (.inr ⟨c, cs, rfl, htext, hb, hcut⟩)⟩
    · obtain ⟨done, q, rest, h⟩ := ih hcs hapart.tail hr
      refine ⟨c :: done, q, rest, ?_, ?_, h.waits, ?_, ?_, h.restPlain, h.restApart, ?_, ?_, ?_⟩
      · rw [texts_cons, h.bytes, List.append_assoc]
      · rw [texts_cons, texts_cons, h.texts, List.append_assoc]
      · exact List.forall_mem_cons.mpr ⟨hc, h.donePlain⟩
      · cases hdone : done with
        | nil => exact List.isChain_singleton _
        | cons d done =>
          refine List.isChain_cons_cons.mpr ⟨fun hboth => ?_, hdone ▸ h.doneApart⟩
          cases cs with
          | nil =>
            have hnil := h.texts
            rw [texts_nil, hdone, texts_cons, List.append_assoc] at hnil
            have hd := h.donePlain d (by rw [hdone]; exact List.mem_cons_self)
            exact hd.wellFormed.bytes_ne (List.append_eq_nil_iff.mp hnil.symm).1
          | cons x cs =>
            have hx := h.head d (by rw [hdone]; rfl) hboth.2 x rfl
            exact (List.isChain_cons_cons.mp hapart).1 ⟨hboth.1, hx⟩
      · rintro d ⟨⟩ hd x ⟨⟩
        exact hd
      · exact fun cs' hcs' => .same (h.cut cs' hcs')
      · intro k
        rw [texts_cons, List.length_append, answerAt, if_pos (by omega), ← h.answer k]
        congr 1
        omega

/-- What stays in the buffer is nothing, or begins with `<`. -/
theorem Waits.follows {q : Bytes} {cs : List Construct} (h : Waits q cs) (c : Construct) : c.Follows q := by
  rintro -
  rcases h with rfl | ⟨d, cs', -, htext, hq, -⟩
  · exact .inl rfl
  · rcases q with _ | ⟨x, q⟩
    · exact .inl rfl
    · have hhead := head_of_not_isText htext []
      rw [List.append_nil] at hhead
      have hx := head?_of_front hq (c := x) rfl
      rw [hhead] at hx
      exact .inr (Eq.symm hx)

theorem Waits.zero_not_mem {q : Bytes} {cs : List Construct} (h : Waits q cs) (hplain : ∀ c ∈ cs, c.Plain) :
    (0 : UInt8) ∉ q := by
  rcases h with rfl | ⟨c, cs', rfl, -, hq, -⟩
  · exact List.not_mem_nil
  · exact not_mem_of_prefix (hplain c List.mem_cons_self) hq

/-- The pieces that are left, when `m` bytes of the document have been taken off the buffer. -/
structure Left (doc : List Construct) (m : Nat) (q : Bytes) (ws : List Bytes) (cs : List Construct) : Prop where
  plain : ∀ c ∈ cs, c.Plain
  apart : Apart cs
  waits : Waits q cs
  pieces : ∀ w ∈ ws, w ≠ []
  flat : q ++ ws.flatten = Construct.texts cs
  answer : ∀ k, answerAt doc (m + k) = answerAt cs k

variable {doc cs : List Construct} {m : Nat} {q w : Bytes} {ws : List Bytes}

theorem Left.step (h : Left doc m q (w :: ws) cs) :
    ∃ done q' rest, Consumed cs (q ++ w) done q' rest ∧
      Left doc (m + (texts done).length) q' ws rest ∧
      m + q.length + w.length = m + (texts done).length + q'.length := by
  have hb : q ++ w <+: texts cs :=
    ⟨ws.flatten, by rw [← h.flat, List.flatten_cons, List.append_assoc]⟩
  obtain ⟨done, q', rest, htaken⟩ := exists_taken h.plain h.apart hb
  have hlen := congrArg List.length htaken.bytes
  rw [List.length_append, List.length_append] at hlen
  refine ⟨done, q', rest, htaken, ⟨htaken.restPlain, htaken.restApart, htaken.waits,
    fun v hv => h.pieces v (List.mem_cons_of_mem w hv), ?_, fun k => ?_⟩, by omega⟩
  · have hall : texts done ++ (q' ++ ws.flatten) =
        texts done ++ texts rest := by
      rw [← htaken.texts, ← h.flat, List.flatten_cons, ← List.append_assoc, ← htaken.bytes,
        List.append_assoc]
    exact List.append_cancel_left hall
  · rw [Nat.add_assoc, h.answer, htaken.answer]

theorem Left.done (h : Left doc m q [] cs) : q = [] ∧ cs = [] := by
  have hflat := h.flat
  rw [List.flatten_nil, List.append_nil] at hflat
  rcases cs with _ | ⟨c, cs⟩
  · exact ⟨hflat, rfl⟩
  have hpos := List.length_pos_of_ne_nil (h.plain c List.mem_cons_self).wellFormed.bytes_ne
  have hlen := congrArg List.length hflat
  rw [texts_cons, List.length_append] at hlen
  rcases h.waits with rfl | ⟨d, cs', heq, -, hq, hcut⟩
  · rw [List.length_nil] at hlen
    omega
  · obtain ⟨rfl, rfl⟩ := List.cons.inj heq
    exact absurd (hq.eq_of_length (by have := hq.length_le; omega)) hcut

/-- A document has bytes. -/
theorem texts_ne_nil (hplain : ∀ c ∈ cs, c.Plain) (hne : cs ≠ []) : texts cs ≠ [] := by
  obtain ⟨c, cs, rfl⟩ := List.exists_cons_of_ne_nil hne
  rw [texts_cons]
  exact fun h => (hplain c List.mem_cons_self).wellFormed.bytes_ne (List.append_eq_nil_iff.mp h).1

end Construct

open Construct (answerAt Waits TextsCut Consumed Left)

/-! ## The loop -/

/-- The constructs in front of the rest become their nodes. -/
theorem parseLoop_parsed {cs : List Construct} {rest : Bytes} (hplain : ∀ c ∈ cs, c.Plain)
    (hapart : Construct.Apart cs) (hfollows : ∀ c : Construct, c.Follows rest) (h0 : (0 : UInt8) ∉ rest)
    {fuel : Nat} (hfuel : (Construct.texts cs ++ rest).length ≤ fuel) (xml : Xml) :
    ∃ f, rest.length ≤ f ∧ parseLoop fuel (Construct.texts cs ++ rest) xml =
      parseLoop f rest ((cs.map Construct.parsed).foldl Xml.append xml) := by
  induction cs generalizing fuel xml with
  | nil => exact ⟨fuel, hfuel, rfl⟩
  | cons c cs ih =>
    have hc := hplain c List.mem_cons_self
    have hcs : ∀ d ∈ cs, d.Plain := fun d hd => hplain d (List.mem_cons_of_mem c hd)
    have hpos := List.length_pos_of_ne_nil hc.wellFormed.bytes_ne
    have hnul : (0 : UInt8) ∉ Construct.texts cs ++ rest := fun h => (List.mem_append.mp h).elim
      (Construct.zero_not_mem_texts fun d hd => (hcs d hd).wellFormed) h0
    have hnode := parseNode_parsed hc (hapart.follows fun d _ => hfollows d) hnul
    rw [Construct.texts_cons, List.append_assoc, List.length_append] at hfuel
    obtain ⟨fuel, rfl⟩ : ∃ f, fuel = f + 1 := ⟨fuel - 1, by omega⟩
    have hleft : (Construct.texts cs ++ rest).length ≤ fuel := by omega
    obtain ⟨f, hf, hloop⟩ := ih hcs hapart.tail hleft (xml.append c.parsed)
    refine ⟨f, hf, ?_⟩
    have hne : c.bytes ++ (Construct.texts cs ++ rest) ≠ [] := fun h =>
      hc.wellFormed.bytes_ne (List.append_eq_nil_iff.mp h).1
    rw [Construct.texts_cons, List.append_assoc, parseLoop, if_neg hne, hnode]
    simp only [Option.bind_eq_bind, Option.bind_some, ne_eq, not_true_eq_false, if_false, if_neg hpos.ne',
      List.drop_left]
    exact hloop

/-- What the loop comes to with what stays in the buffer. -/
theorem parseLoop_waits {q : Bytes} {cs : List Construct} (hwaits : Waits q cs) (hplain : ∀ c ∈ cs, c.Plain)
    {fuel : Nat} (hfuel : q.length ≤ fuel) (xml : Xml) :
    parseLoop fuel q xml = (answerAt cs q.length).map fun st => (st, q, xml) := by
  rcases eq_or_ne q [] with rfl | hne
  · rw [List.length_nil, Construct.answerAt_zero hplain]
    cases fuel <;> rfl
  rcases hwaits with hnil | ⟨c, cs', rfl, htext, hq, hcut⟩
  · exact absurd hnil hne
  have hpos := List.length_pos_of_ne_nil hne
  have hlt : q.length < c.bytes.length := lt_of_le_of_ne hq.length_le fun h => hcut (hq.eq_of_length h)
  rw [answerAt, if_neg hlt.not_ge, if_neg hpos.ne']
  exact parseLoop_cut (hplain c List.mem_cons_self) htext hq hne hcut (by omega) xml

theorem append_piece (q w : Bytes) : append q w w.length = some (q ++ w) := by
  rw [append_of_le le_rfl, List.take_length]

/-- One call: what it answers, and what it leaves. -/
theorem parseBuffer_taken {cs done rest : List Construct} {q q' w : Bytes} (h : Consumed cs (q ++ w) done q' rest)
    (hw : w ≠ []) (xml : Xml) :
    XmlParser.parseBuffer ⟨q, some xml⟩ w w.length = (answerAt cs (q.length + w.length)).map fun st =>
      (st, ⟨q', some ((done.map Construct.parsed).foldl Xml.append xml)⟩) := by
  have hne : q ++ w ≠ [] := fun h => hw (List.append_eq_nil_iff.mp h).2
  have hlen : (Construct.texts done).length + q'.length = q.length + w.length := by
    rw [← List.length_append, ← h.bytes, List.length_append]
  obtain ⟨f, hf, hloop⟩ := parseLoop_parsed h.donePlain h.doneApart h.waits.follows
    (h.waits.zero_not_mem h.restPlain) (le_of_eq (congrArg List.length h.bytes.symm)) xml
  rw [← h.bytes, parseLoop_waits h.waits h.restPlain hf, ← h.answer, hlen] at hloop
  rw [XmlParser.parseBuffer, append_piece]
  show XmlParser.parseOwnBuffer ⟨q ++ w, some xml⟩ = _
  rw [XmlParser.parseOwnBuffer, if_neg hne]
  show (parseLoop (q ++ w).length (q ++ w) xml).map _ = _
  rw [hloop, Option.map_map]
  rfl

/-- The calls answer by where the pieces end, and the nodes are those of the constructs, with texts cut. -/
theorem calls_run {doc cs : List Construct} {m : Nat} {q : Bytes} {ws : List Bytes} (h : Left doc m q ws cs)
    (xml : Xml) :
    ∃ cs', TextsCut cs cs' ∧ XmlParser.calls ⟨q, some xml⟩ ws =
      ((cuts (m + q.length) ws).mapM (answerAt doc)).map fun statuses =>
        (statuses, ⟨[], some ((cs'.map Construct.parsed).foldl Xml.append xml)⟩) := by
  induction ws generalizing m q cs xml with
  | nil =>
    obtain ⟨rfl, rfl⟩ := h.done
    exact ⟨[], .nil, rfl⟩
  | cons w ws ih =>
    obtain ⟨done, q', rest, htaken, hleft, hlen⟩ := h.step
    obtain ⟨cs', hcut, hcalls⟩ := ih hleft ((done.map Construct.parsed).foldl Xml.append xml)
    refine ⟨done ++ cs', htaken.cut cs' hcut, ?_⟩
    rw [XmlParser.calls, parseBuffer_taken htaken (h.pieces w List.mem_cons_self), cuts, List.mapM_cons,
      ← h.answer, ← Nat.add_assoc, hlen]
    rcases answerAt doc (m + (Construct.texts done).length + q'.length) with _ | st
    · rfl
    · show (do let (statuses, p) ← XmlParser.calls _ ws; some (st :: statuses, p)) = _
      rw [hcalls, List.map_append, List.foldl_append]
      cases (cuts (m + (Construct.texts done).length + q'.length) ws).mapM (answerAt doc) <;> rfl

/-! ## The trees -/

/-- A node in front of its siblings, with neighbouring texts made one. -/
def joinText (t : XmlTree) : List XmlTree → List XmlTree
  | [] => [t]
  | s :: ts =>
    if t.root.type = .text ∧ s.root.type = .text then
      .node (textNode (t.root.text ++ s.root.text)) [] :: ts
    else t :: s :: ts

mutual

/-- Siblings with neighbouring texts made one, all the way down. -/
def mergeTrees : List XmlTree → List XmlTree
  | [] => []
  | t :: ts => joinText (mergeTree t) (mergeTrees ts)

def mergeTree : XmlTree → XmlTree
  | .node n childs => .node n (mergeTrees childs)

end

/-- A sequence of nodes, and the sequence with its texts cut. -/
inductive TextsJoined : List XmlNode → List XmlNode → Prop
  | nil : TextsJoined [] []
  | same {n : XmlNode} {seq seq' : List XmlNode} : TextsJoined seq seq' → TextsJoined (n :: seq) (n :: seq')
  | text {a b : Bytes} {seq seq' : List XmlNode} : TextsJoined (textNode b :: seq) seq' →
    TextsJoined (textNode (a ++ b) :: seq) (textNode a :: seq')

theorem Construct.parsed_text {s : Bytes} (h : (Construct.text s).Plain) :
    (Construct.text s).parsed = textNode s := by
  have hparse := @parseNode_text s [] h.wellFormed.1 h.wellFormed.2.2 (.inl rfl)
    (by rw [List.append_nil]; exact h.wellFormed.2.1)
  rw [List.append_nil] at hparse
  have hbytes : (Construct.text s).bytes = s := rfl
  rw [Construct.parsed, hbytes, hparse]
  rfl

theorem Construct.TextsCut.joined {cs cs' : List Construct} (hplain : ∀ c ∈ cs, c.Plain)
    (h : TextsCut cs cs') : TextsJoined (cs.map Construct.parsed) (cs'.map Construct.parsed) := by
  induction h with
  | nil => exact .nil
  | same _ ih => exact .same (ih fun d hd => hplain d (List.mem_cons_of_mem _ hd))
  | @text a b cs cs' ha hb _ ih =>
    have hwhole := hplain _ List.mem_cons_self
    have hrest := ih (List.forall_mem_cons.mpr ⟨hb, fun d hd => hplain d (List.mem_cons_of_mem _ hd)⟩)
    rw [List.map_cons, parsed_text hb] at hrest
    rw [List.map_cons, List.map_cons, parsed_text ha, parsed_text hwhole]
    exact .text hrest

theorem TextsJoined.append_split {xs ys seq : List XmlNode} (h : TextsJoined (xs ++ ys) seq) :
    ∃ xs' ys', seq = xs' ++ ys' ∧ TextsJoined xs xs' ∧ TextsJoined ys ys' := by
  generalize hall : xs ++ ys = all at h
  induction h generalizing xs with
  | nil =>
    obtain ⟨rfl, rfl⟩ := List.append_eq_nil_iff.mp hall
    exact ⟨[], [], rfl, .nil, .nil⟩
  | @same n seq seq' h ih =>
    rcases xs with _ | ⟨x, xs⟩
    · obtain rfl : ys = n :: seq := hall
      exact ⟨[], n :: seq', rfl, .nil, .same h⟩
    · obtain ⟨rfl, hrest⟩ := List.cons.inj hall
      obtain ⟨xs', ys', rfl, hxs, hys⟩ := ih hrest
      exact ⟨x :: xs', ys', rfl, .same hxs, hys⟩
  | @text a b seq seq' h ih =>
    rcases xs with _ | ⟨x, xs⟩
    · obtain rfl : ys = textNode (a ++ b) :: seq := hall
      exact ⟨[], textNode a :: seq', rfl, .nil, .text h⟩
    · obtain ⟨rfl, hrest⟩ := List.cons.inj hall
      have hrest' : (textNode b :: xs) ++ ys = textNode b :: seq := congrArg _ hrest
      obtain ⟨xs', ys', rfl, hxs, hys⟩ := ih hrest'
      exact ⟨textNode a :: xs', ys', rfl, .text hxs, hys⟩

theorem joinText_text (a b : Bytes) (ts : List XmlTree) :
    joinText (.node (textNode a) []) (joinText (.node (textNode b) []) ts) =
      joinText (.node (textNode (a ++ b)) []) ts := by
  have htype : ∀ s, (XmlTree.node (textNode s) []).root.type = .text := fun _ => rfl
  have htext : ∀ s, (XmlTree.node (textNode s) []).root.text = s := fun _ => rfl
  rcases ts with _ | ⟨s, ts⟩
  · simp [joinText, htype, htext]
  · by_cases hs : s.root.type = .text
    · simp [joinText, htype, htext, hs]
    · simp [joinText, htype, htext, hs]

theorem joinText_concat {c : XmlTree} (hc : c.root.type ≠ .text) (t : XmlTree) (ts : List XmlTree) :
    joinText t (ts ++ [c]) = joinText t ts ++ [c] := by
  rcases ts with _ | ⟨s, ts⟩
  · exact if_neg fun h => hc h.2
  · show (if _ then _ else _) = (if _ then _ else _) ++ [c]
    split <;> rfl

theorem mergeTrees_concat {c : XmlTree} (hc : c.root.type ≠ .text) (ts : List XmlTree) :
    mergeTrees (ts ++ [c]) = mergeTrees ts ++ [mergeTree c] := by
  have hc' : (mergeTree c).root.type ≠ .text := by
    cases c
    rw [mergeTree]
    exact hc
  induction ts with
  | nil => rw [List.nil_append, mergeTrees, mergeTrees, List.nil_append]; rfl
  | cons t ts ih => rw [List.cons_append, mergeTrees, mergeTrees, ih, joinText_concat hc']

/-- The pieces of a text are leaves, and become one again. -/
theorem nested_text {b : Bytes} {seq seq' : List XmlNode} {ts : List XmlTree}
    (h : TextsJoined (textNode b :: seq) seq')
    (hrest : ∀ s, TextsJoined seq s → ∃ ts', Nested s ts' ∧ mergeTrees ts' = mergeTrees ts) :
    ∃ ts', Nested seq' ts' ∧ mergeTrees ts' = joinText (.node (textNode b) []) (mergeTrees ts) := by
  have hopens : ∀ s, ¬ (textNode s).Opens := fun s h => by cases h.1
  have hclose : ∀ s, (textNode s).type ≠ .closeTag := fun s h => by cases h
  have hleaf : ∀ s, mergeTree (.node (textNode s) []) = .node (textNode s) [] := fun s => by
    rw [mergeTree, mergeTrees]
  generalize hall : textNode b :: seq = all at h
  induction h generalizing b with
  | nil => cases hall
  | @same n seq₁ seq₁' h _ =>
    obtain ⟨rfl, rfl⟩ := List.cons.inj hall
    obtain ⟨ts', hts', hmerge⟩ := hrest _ h
    refine ⟨_, .leaf (hopens b) (hclose b) hts', ?_⟩
    rw [mergeTrees, hleaf, hmerge]
  | @text a b' seq₁ seq₁' h ih =>
    obtain ⟨hnode, rfl⟩ := List.cons.inj hall
    obtain ⟨ts', hts', hmerge⟩ := ih rfl
    refine ⟨_, .leaf (hopens a) (hclose a) hts', ?_⟩
    rw [mergeTrees, hleaf, hmerge, joinText_text, hnode]

/-- The trees of a sequence whose texts are cut are its trees, when neighbouring texts are made one. -/
theorem Nested.joined {seq seq' : List XmlNode} {ts : List XmlTree} (h : Nested seq ts)
    (hjoin : TextsJoined seq seq') : ∃ ts', Nested seq' ts' ∧ mergeTrees ts' = mergeTrees ts := by
  induction h generalizing seq' with
  | nil =>
    cases hjoin
    exact ⟨[], .nil, rfl⟩
  | @leaf n seq ts hopens hclose _ ih =>
    rcases hjoin with _ | hrest | hrest
    · obtain ⟨ts', hts', hmerge⟩ := ih hrest
      refine ⟨_, .leaf hopens hclose hts', ?_⟩
      rw [mergeTrees, mergeTrees, hmerge]
    · obtain ⟨ts', hts', hmerge⟩ := nested_text (TextsJoined.text hrest) fun s hs => ih hs
      refine ⟨ts', hts', ?_⟩
      rw [hmerge, mergeTrees, mergeTree, mergeTrees]
  | @element o c inner seq childs ts hopens hclose hname _ _ ihinner ih =>
    rcases hjoin with _ | hrest | hrest
    · obtain ⟨inner', seq₁, rfl, hinner, htail⟩ := hrest.append_split
      rcases htail with _ | hseq | hseq
      · obtain ⟨childs', hchilds', hmergechilds⟩ := ihinner hinner
        obtain ⟨ts', hts', hmerge⟩ := ih hseq
        have hleaf : (XmlTree.node c []).root.type ≠ .text := by
          show c.type ≠ .text
          rw [hclose]
          decide
        refine ⟨_, .element hopens hclose hname hchilds' hts', ?_⟩
        rw [mergeTrees, mergeTrees, mergeTree, mergeTree, mergeTrees_concat hleaf, mergeTrees_concat hleaf,
          hmergechilds, hmerge]
      · cases hclose
    · cases hopens.1

/-! ## The documents -/

theorem parseBuffer_start (w : Bytes) :
    XmlParser.parseBuffer {} w w.length = XmlParser.parseBuffer ⟨[], some Xml.empty⟩ w w.length := by
  rw [XmlParser.parseBuffer, XmlParser.parseBuffer, append_piece]
  rfl

/-- A well-formed document that comes in pieces, against the document in one piece: each call answers what
stands at its end, `NULL` is read exactly where a piece ends there, and otherwise nothing is left in the
buffer and the tree is the same, up to texts that have been cut. -/
theorem parseBuffer_segments {cs : List Construct} (hplain : ∀ c ∈ cs, c.Plain)
    (hapart : Construct.Apart cs) (hne : cs ≠ []) {ts : List XmlTree}
    (hnested : Nested (cs.map Construct.parsed) ts) {ws : List Bytes}
    (hws : ∀ w ∈ ws, w ≠ []) (hflat : ws.flatten = Construct.texts cs) :
    ∃ whole p ts',
      XmlParser.parseBuffer {} (Construct.texts cs) (Construct.texts cs).length = some (.ok, whole) ∧
      whole.getResult = some ts ∧
      XmlParser.calls {} ws = ((cuts 0 ws).mapM (answerAt cs)).map (fun statuses => (statuses, p)) ∧
      p.buffer = [] ∧ p.getResult = some ts' ∧ mergeTrees ts' = mergeTrees ts := by
  have hdoc := Construct.texts_ne_nil hplain hne
  have hleft : Left cs 0 [] ws cs :=
    ⟨hplain, hapart, .inl rfl, hws, hflat, fun k => congrArg _ (Nat.zero_add k)⟩
  obtain ⟨cs', hcut, hcalls⟩ := calls_run hleft Xml.empty
  obtain ⟨ts', hts', hmerge⟩ := hnested.joined (hcut.joined hplain)
  have hwhole : XmlParser.parseBuffer {} (Construct.texts cs) (Construct.texts cs).length =
      some (.ok, ⟨[], some ((cs.map Construct.parsed).foldl Xml.append Xml.empty)⟩) := by
    obtain ⟨f, -, hloop⟩ := parseLoop_parsed hplain hapart (fun c _ => .inl rfl) List.not_mem_nil
      (le_of_eq (congrArg List.length (List.append_nil (Construct.texts cs)))) Xml.empty
    rw [List.append_nil] at hloop
    have hend : ∀ xml, parseLoop f [] xml = some (.ok, [], xml) := fun xml => by cases f <;> rfl
    rw [hend] at hloop
    rw [XmlParser.parseBuffer, append_piece]
    show XmlParser.parseOwnBuffer ⟨Construct.texts cs, none⟩ = _
    rw [XmlParser.parseOwnBuffer, if_neg hdoc]
    show (parseLoop _ _ Xml.empty).map _ = _
    rw [hloop]
    rfl
  refine ⟨_, ⟨[], some ((cs'.map Construct.parsed).foldl Xml.append Xml.empty)⟩, ts', hwhole,
    congrArg some hnested.getRoot_eq, ?_, rfl, congrArg some hts'.getRoot_eq, hmerge⟩
  obtain ⟨w, vs, rfl⟩ := List.exists_cons_of_ne_nil (show ws ≠ [] by rintro rfl; exact hdoc hflat.symm)
  rw [XmlParser.calls, parseBuffer_start]
  exact hcalls

/-! ## Elements -/

theorem Construct.parsed_eq {c : Construct} (h : c.Plain) {node : XmlNode} (hnode : c.node = some node) :
    c.parsed = node := by
  obtain ⟨node', hmakes, hparse⟩ := @parseNode_construct c [] h (fun _ => .inl rfl) List.not_mem_nil
  rw [List.append_nil] at hparse
  have hsame : node' = node := by
    cases hmakes with
    | declaration _ => cases hnode
    | told heq => exact Option.some.inj (heq.symm.trans hnode)
  rw [Construct.parsed, hparse, ← hsame]
  rfl

/-- The nodes of elements are the brackets of their trees. -/
theorem Markup.nested_parsed {m : Markup} (h : m.WellFormed) :
    Nested (m.constructs.map Construct.parsed) m.trees := by
  have hnodes : m.constructs.map Construct.parsed = m.nodes := by
    have hsome : (m.constructs.map Construct.parsed).map some = m.nodes.map some := by
      rw [← m.constructs_node, List.map_map]
      refine List.map_congr_left fun c hc => ?_
      have hmem : c.node ∈ m.constructs.map Construct.node := List.mem_map_of_mem hc
      rw [m.constructs_node] at hmem
      obtain ⟨node, -, hnode⟩ := List.mem_map.mp hmem
      rw [← hnode]
      exact congrArg some (Construct.parsed_eq (h.plain c hc) hnode.symm)
    exact List.map_injective_iff.mpr (Option.some_injective _) hsome
  rw [hnodes]
  exact m.nested

/-- `<a>xy</a>`. -/
def exPair : Markup :=
  .element [] ⟨bytes "a", [], []⟩ (.text (bytes "xy")) [] (.text [])

theorem exPair_wellFormed : exPair.WellFormed := by
  have hname : ∀ c ∈ bytes "a", isNameChar c := List.all_eq_true.mp (by decide)
  refine ⟨⟨List.not_mem_nil, List.not_mem_nil⟩,
    ⟨by decide, hname, List.forall_mem_nil _, List.forall_mem_nil _⟩, ⟨by decide, by decide⟩,
    List.forall_mem_nil _, ⟨List.not_mem_nil, List.not_mem_nil⟩⟩

/-- `<a>x` and `y</a>`. -/
theorem parseBuffer_segments_pair :
    ∃ whole p ts', XmlParser.parseBuffer {} (Construct.texts exPair.constructs)
        (Construct.texts exPair.constructs).length = some (.ok, whole) ∧
      whole.getResult = some exPair.trees ∧
      XmlParser.calls {} [bytes "<a>x", bytes "y</a>"] =
        ((cuts 0 [bytes "<a>x", bytes "y</a>"]).mapM (answerAt exPair.constructs)).map
          (fun statuses => (statuses, p)) ∧
      p.buffer = [] ∧ p.getResult = some ts' ∧ mergeTrees ts' = mergeTrees exPair.trees := by
  have hapart : Construct.Apart exPair.constructs := by
    have h := @Markup.apart_constructs exPair [] (fun c hc => by cases hc) List.isChain_nil
    rwa [List.append_nil] at h
  refine parseBuffer_segments exPair_wellFormed.plain hapart (List.cons_ne_nil _ _)
    (Markup.nested_parsed exPair_wellFormed) ?_ (by decide)
  exact List.forall_mem_cons.mpr ⟨by decide, List.forall_mem_singleton.mpr (by decide)⟩

end Dframework
