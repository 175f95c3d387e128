import Mathlib
import Dframework.Http.PropfindListing
import Dframework.Xml.Segments

/-!
# A `PROPFIND` that is answered in blocks

The blocks of an answer go to the parser one by one, the end notification behind them, and the listener is
called at the end. A text that has been cut is several nodes, which no walk over the tree can see. So it
depends on the ends of the blocks alone whether the listener gets what it would have got of the answer in
one block: an end inside a declaration or a comment, or right behind the `<` or `</` of a tag, is answered
with an error, and the reader gives up.

Results:
1. `propfindComplete_mergeTrees`: the walks do not see where a text has been cut.
2. `receive_blocks`: what an answer in blocks comes to.
-/

namespace Dframework

open CLib Construct

/-! ## What does not see where a text has been cut -/

theorem mergeTree_root (t : XmlTree) : (mergeTree t).root = t.root := by
  cases t
  rw [mergeTree]
  rfl

theorem mergeTree_isTag (t : XmlTree) : (mergeTree t).isTag = t.isTag := by
  rw [XmlTree.isTag, XmlTree.isTag, mergeTree_root]

theorem mergeTree_childs (t : XmlTree) : (mergeTree t).childs = mergeTrees t.childs := by
  cases t
  rw [mergeTree]
  rfl

theorem isTag_of_text {t : XmlTree} (h : t.root.type = .text) : t.isTag = false := by
  rw [XmlTree.isTag, XmlNode.isTag, h]
  rfl

theorem joinText_filter (t : XmlTree) (ts : List XmlTree) :
    (joinText t ts).filter XmlTree.isTag = (t :: ts).filter XmlTree.isTag := by
  rcases ts with _ | ⟨s, ts⟩
  · rfl
  · rw [joinText]
    split
    next h =>
      have hskip : ∀ (u : XmlTree) (us : List XmlTree), u.isTag = false →
          (u :: us).filter XmlTree.isTag = us.filter XmlTree.isTag := fun u us hu =>
        List.filter_cons_of_neg (by simp [hu])
      rw [hskip _ _ (isTag_of_text rfl), hskip t _ (isTag_of_text h.1), hskip s _ (isTag_of_text h.2)]
    next => rfl

/-- The elements are the same. -/
theorem mergeTrees_filter (ts : List XmlTree) :
    (mergeTrees ts).filter XmlTree.isTag = (ts.filter XmlTree.isTag).map mergeTree := by
  induction ts with
  | nil => rfl
  | cons t ts ih =>
    rw [mergeTrees, joinText_filter]
    rcases htag : t.isTag with _ | _
    · rw [List.filter_cons_of_neg (by simp [mergeTree_isTag, htag]),
        List.filter_cons_of_neg (by simp [htag]), ih]
    · rw [List.filter_cons_of_pos (by rw [mergeTree_isTag, htag]), List.filter_cons_of_pos htag, ih,
        List.map_cons]

namespace Xml

theorem texts_joinText (t : XmlTree) (ts : List XmlTree) : texts (joinText t ts) = texts (t :: ts) := by
  rcases ts with _ | ⟨s, ts⟩
  · rfl
  · rw [joinText]
    split
    next h =>
      rw [texts, texts, texts]
      simp only [h.1, h.2]
      exact List.append_assoc ..
    next => rfl

mutual

theorem text_mergeTree : ∀ t : XmlTree, text (mergeTree t) = text t
  | .node n childs => by
    rw [mergeTree, text, text, texts_mergeTrees childs]

theorem texts_mergeTrees : ∀ ts : List XmlTree, texts (mergeTrees ts) = texts ts
  | [] => by rw [mergeTrees]
  | t :: ts => by
    rw [mergeTrees, texts_joinText, texts, texts, mergeTree_root, text_mergeTree t, texts_mergeTrees ts]

end

theorem hasNode_mergeTree (t : XmlTree) (name : Bytes) : hasNode (mergeTree t) name = hasNode t name := by
  have hany : ∀ t : XmlTree, hasNode t name =
      (t.childs.filter XmlTree.isTag).any fun chd => equals chd.root.name name := fun t => by
    rw [hasNode, List.any_filter]
  rw [hany, hany, mergeTree_childs, mergeTrees_filter, List.any_map]
  refine congrArg (fun f => List.any _ f) (funext fun chd => ?_)
  rw [Function.comp_apply, mergeTree_root]

end Xml

namespace HttpPropfind

/-- A walk that passes by what is no element does not see where a text has been cut. -/
theorem foldlM_mergeTrees {α : Type} {f : α → XmlTree → Option α}
    (hskip : ∀ s t, t.isTag = false → f s t = some s) (hsame : ∀ s t, f s (mergeTree t) = f s t)
    (ts : List XmlTree) (s : α) : (mergeTrees ts).foldlM f s = ts.foldlM f s := by
  rw [foldlM_elements hskip, mergeTrees_filter, foldlM_elements hskip ts]
  induction ts.filter XmlTree.isTag generalizing s with
  | nil => rfl
  | cons t ts ih =>
    rw [List.map_cons, List.foldlM_cons, List.foldlM_cons, hsame]
    exact congrArg _ (funext ih)

theorem supportedlockLoop_skip {t : XmlTree} (h : t.isTag = false) (prop : PropfindProp)
    (ple : Option LockEntry) (ts : List XmlTree) :
    supportedlockLoop prop ple (t :: ts) = supportedlockLoop prop ple ts := by
  rw [supportedlockLoop, h]
  rfl

theorem supportedlockLoop_joinText (prop : PropfindProp) (ple : Option LockEntry) (t : XmlTree)
    (ts : List XmlTree) :
    supportedlockLoop prop ple (joinText t ts) = supportedlockLoop prop ple (t :: ts) := by
  rcases ts with _ | ⟨s, ts⟩
  · rfl
  · rw [joinText]
    split
    next h =>
      rw [supportedlockLoop_skip (isTag_of_text rfl), supportedlockLoop_skip (isTag_of_text h.1),
        supportedlockLoop_skip (isTag_of_text h.2)]
    next => rfl

mutual

theorem propfindSupportedlock_mergeTree (prop : PropfindProp) (ple : Option LockEntry) :
    ∀ t : XmlTree, propfindSupportedlock prop ple (mergeTree t) = propfindSupportedlock prop ple t
  | .node n childs => by
    rw [mergeTree, propfindSupportedlock, propfindSupportedlock, supportedlockLoop_mergeTrees prop ple childs]

theorem supportedlockLoop_mergeTrees (prop : PropfindProp) (ple : Option LockEntry) :
    ∀ ts : List XmlTree, supportedlockLoop prop ple (mergeTrees ts) = supportedlockLoop prop ple ts
  | [] => by rw [mergeTrees]
  | t :: ts => by
    rw [mergeTrees, supportedlockLoop_joinText, supportedlockLoop, supportedlockLoop, mergeTree_root,
      mergeTree_isTag]
    simp only [Xml.hasNode_mergeTree, propfindSupportedlock_mergeTree prop _ t,
      supportedlockLoop_mergeTrees _ _ ts]

end

theorem propfindPropRound_mergeTree (prop : PropfindProp) (t : XmlTree) :
    propfindPropRound prop (mergeTree t) = propfindPropRound prop t := by
  simp only [propfindPropRound, mergeTree_root, mergeTree_isTag, Xml.text_mergeTree, Xml.hasNode_mergeTree,
    propfindSupportedlock_mergeTree]

theorem propfindProp_mergeTree (prop : PropfindProp) (t : XmlTree) :
    propfindProp prop (mergeTree t) = propfindProp prop t := by
  rw [propfindProp, propfindProp, mergeTree_childs]
  refine foldlM_mergeTrees (fun s t h => ?_) propfindPropRound_mergeTree _ _
  simp [propfindPropRound, h]

theorem propfindStat_mergeTree (prop : PropfindProp) (t : XmlTree) :
    propfindStat prop (mergeTree t) = propfindStat prop t := by
  rw [propfindStat, propfindStat, mergeTree_childs]
  refine foldlM_mergeTrees (fun s t h => ?_) (fun s t => ?_) _ _
  · simp [propfindStatRound, h]
  · simp only [propfindStatRound, mergeTree_root, mergeTree_isTag, Xml.text_mergeTree, propfindProp_mergeTree]

theorem propfindResponse_mergeTrees (path : Bytes) (ts : List XmlTree) :
    propfindResponse path (mergeTrees ts) = propfindResponse path ts := by
  rw [propfindResponse, propfindResponse]
  refine foldlM_mergeTrees (fun s t h => ?_) (fun s t => ?_) _ _
  · simp [propfindResponseRound, h]
  · simp only [propfindResponseRound, mergeTree_root, mergeTree_isTag, Xml.text_mergeTree,
      propfindStat_mergeTree]

theorem propfindComplete_joinText (path : Bytes) (t : XmlTree) (ts : List XmlTree) :
    propfindComplete path (joinText t ts) = propfindComplete path (t :: ts) := by
  rw [propfindComplete_filter, joinText_filter, ← propfindComplete_filter]

mutual

/-- The walk over the document does not see where a text has been cut. -/
theorem propfindComplete_mergeTrees (path : Bytes) :
    ∀ ts : List XmlTree, propfindComplete path (mergeTrees ts) = propfindComplete path ts
  | [] => by rw [mergeTrees]
  | t :: ts => by
    rw [mergeTrees, propfindComplete_joinText, propfindComplete, propfindComplete,
      propfindNode_mergeTree path t, propfindComplete_mergeTrees path ts]

theorem propfindNode_mergeTree (path : Bytes) :
    ∀ t : XmlTree, propfindNode path (mergeTree t) = propfindNode path t
  | .node n childs => by
    rw [mergeTree, propfindNode, propfindNode, propfindResponse_mergeTrees,
      propfindComplete_mergeTrees path childs]

end

/-! ## The blocks -/

/-- The blocks of an answer, and the end notification behind them: the calls of `onPropfind`, and what is
answered at last. Behind an error the reader gives up. -/
def receive (p : HttpPropfind) : List Bytes → Option (List PropfindProp × Retval)
  | [] => (p.onResponse none 0).map fun r => (r.1, r.2.1)
  | b :: bs => do
    let (calls, value, p) ← p.onResponse (some b) b.length
    if value.isSome then some (calls, value)
    else
      let (rest, value) ← receive p bs
      some (calls ++ rest, value)

end HttpPropfind

/-- An answer of the parser that is no error to `onResponse`. -/
def XmlStatus.goesOn : XmlStatus → Bool
  | .ok | .emptyBuffer | .needBuffer => true
  | .error | .syntaxError | .findNode => false

/-- A block may end behind the first `k` bytes. -/
def Construct.GoesOn (cs : List Construct) (k : Nat) : Prop :=
  ∃ st, answerAt cs k = some st ∧ st.goesOn

/-- The last byte of the document has come. -/
theorem Construct.answerAt_end {cs : List Construct} (hplain : ∀ c ∈ cs, c.Plain) :
    answerAt cs (texts cs).length = some .ok := by
  induction cs with
  | nil => rfl
  | cons c cs ih =>
    rw [texts_cons, List.length_append, answerAt, if_pos (Nat.le_add_right _ _), Nat.add_sub_cancel_left]
    exact ih fun d hd => hplain d (List.mem_cons_of_mem c hd)

namespace HttpPropfind

/-- One block. -/
theorem receive_step {cs done rest : List Construct} {q q' w : Bytes} (h : Consumed cs (q ++ w) done q' rest)
    (hw : w ≠ []) (xml : Xml) (path : Bytes) (ws : List Bytes) :
    receive ⟨⟨q, some xml⟩, path⟩ (w :: ws) = (answerAt cs (q.length + w.length)).bind fun st =>
      if st.goesOn then
        receive ⟨⟨q', some ((done.map Construct.parsed).foldl Xml.append xml)⟩, path⟩ ws
      else some ([], retval .error) := by
  rw [receive, onResponse]
  simp only [parseBuffer_taken h hw xml]
  rcases hst : answerAt cs (q.length + w.length) with _ | st
  · rfl
  have hnext : ∀ r : Option (List PropfindProp × Retval),
      (r.bind fun x => some (([] : List PropfindProp) ++ x.1, x.2)) = r := by
    intro r
    cases r <;> rfl
  cases st with
  | ok => exact hnext _
  | emptyBuffer => exact hnext _
  | needBuffer => exact hnext _
  | error => rfl
  | syntaxError => rfl
  | findNode => rfl

/-- What the blocks come to when the reader has not given up. -/
theorem receive_nil (p : HttpPropfind) (xml : Xml) (h : p.xmlParser.result = some xml) :
    p.receive [] = (propfindComplete p.path xml.getRoot).map fun calls => (calls, none) := by
  have hresult : p.xmlParser.getResult = some xml.getRoot := by rw [XmlParser.getResult, h, Option.map_some]
  rw [receive, onResponse, if_pos rfl]
  simp only [hresult, Option.map_map]
  rfl

variable {doc cs : List Construct} {m : Nat} {q w : Bytes} {ws : List Bytes}

/-- Blocks behind which the document goes on. -/
theorem receive_goesOn (h : Left doc m q ws cs) (path : Bytes) (xml : Xml)
    (hgood : ∀ k ∈ cuts (m + q.length) ws, GoesOn doc k) :
    ∃ cs', TextsCut cs cs' ∧ receive ⟨⟨q, some xml⟩, path⟩ ws =
      receive ⟨⟨[], some ((cs'.map Construct.parsed).foldl Xml.append xml)⟩, path⟩ [] := by
  induction ws generalizing m q cs xml with
  | nil =>
    obtain ⟨rfl, rfl⟩ := h.done
    exact ⟨[], .nil, rfl⟩
  | cons w ws ih =>
    obtain ⟨done, q', rest, htaken, hleft, hlen⟩ := h.step
    obtain ⟨st, hst, hgo⟩ := hgood _ List.mem_cons_self
    obtain ⟨cs', hcut, hrest⟩ := ih hleft ((done.map Construct.parsed).foldl Xml.append xml) fun k hk =>
      hgood k (List.mem_cons_of_mem _ (hlen ▸ hk))
    refine ⟨done ++ cs', htaken.cut cs' hcut, ?_⟩
    rw [Nat.add_assoc, h.answer] at hst
    rw [receive_step htaken (h.pieces w List.mem_cons_self), hst, Option.bind_some, if_pos hgo, hrest,
      List.map_append, List.foldl_append]

/-- The first block behind which it does not. -/
theorem receive_stops (h : Left doc m q ws cs) (path : Bytes) (xml : Xml) {ks₁ ks₂ : List Nat} {k : Nat}
    (hcuts : cuts (m + q.length) ws = ks₁ ++ k :: ks₂) (hgood : ∀ j ∈ ks₁, GoesOn doc j)
    (hbad : ¬ GoesOn doc k) :
    receive ⟨⟨q, some xml⟩, path⟩ ws = (answerAt doc k).map fun _ => ([], retval .error) := by
  induction ws generalizing m q cs xml ks₁ with
  | nil => exact absurd hcuts.symm (by simp [cuts])
  | cons w ws ih =>
    obtain ⟨done, q', rest, htaken, hleft, hlen⟩ := h.step
    rw [receive_step htaken (h.pieces w List.mem_cons_self), ← h.answer, ← Nat.add_assoc]
    rw [cuts] at hcuts
    rcases ks₁ with _ | ⟨j, ks₁⟩
    · obtain ⟨rfl, -⟩ := List.cons.inj hcuts
      rcases hst : answerAt doc (m + q.length + w.length) with _ | st
      · rfl
      · have hno : st.goesOn = false := Bool.eq_false_iff.mpr fun hgo => hbad ⟨st, hst, hgo⟩
        rw [Option.bind_some, hno]
        rfl
    · obtain ⟨rfl, hrest⟩ := List.cons.inj hcuts
      obtain ⟨st, hst, hgo⟩ := hgood _ List.mem_cons_self
      rw [hst, Option.bind_some, if_pos hgo]
      rw [hlen] at hrest
      exact ih hleft _ hrest fun j hj => hgood j (List.mem_cons_of_mem _ hj)

/-- An answer in blocks. When the document goes on behind every block, the listener gets what it gets of the
answer in one block. Otherwise the reader gives up behind the first block behind which it does not, and the
listener gets nothing; or `NULL` is read there. -/
theorem receive_blocks (hplain : ∀ c ∈ cs, c.Plain) (hapart : Construct.Apart cs) (hne : cs ≠ [])
    {ts : List XmlTree} (hnested : Nested (cs.map Construct.parsed) ts) (hws : ∀ w ∈ ws, w ≠ [])
    (hflat : ws.flatten = Construct.texts cs) (p : HttpPropfind) :
    ((∀ k ∈ cuts 0 ws, GoesOn cs k) →
        p.onRequest.receive ws = p.onRequest.receive [Construct.texts cs] ∧
        p.onRequest.receive ws = (propfindComplete p.path ts).map fun calls => (calls, none)) ∧
      ∀ ks₁ k ks₂, cuts 0 ws = ks₁ ++ k :: ks₂ → (∀ j ∈ ks₁, GoesOn cs j) → ¬ GoesOn cs k →
        p.onRequest.receive ws = (answerAt cs k).map fun _ => ([], retval .error) := by
  have hdoc : Construct.texts cs ≠ [] := Construct.texts_ne_nil hplain hne
  have hleft : ∀ {vs : List Bytes}, (∀ v ∈ vs, v ≠ []) → vs.flatten = Construct.texts cs →
      Left cs 0 [] vs cs := fun hvs hflat =>
    ⟨hplain, hapart, .inl rfl, hvs, hflat, fun k => congrArg _ (Nat.zero_add k)⟩
  have hstart : ∀ {vs : List Bytes}, vs ≠ [] →
      p.onRequest.receive vs = receive ⟨⟨[], some Xml.empty⟩, p.path⟩ vs := by
    intro vs hvs
    obtain ⟨v, vs, rfl⟩ := List.exists_cons_of_ne_nil hvs
    rw [receive, receive, onResponse, onResponse]
    simp only [onRequest, parseBuffer_start]
  have hwhole : ∀ {vs : List Bytes}, (∀ v ∈ vs, v ≠ []) → vs.flatten = Construct.texts cs →
      (∀ k ∈ cuts 0 vs, GoesOn cs k) →
      p.onRequest.receive vs = (propfindComplete p.path ts).map fun calls => (calls, none) := by
    intro vs hvs hflat hgood
    have hvsne : vs ≠ [] := by
      rintro rfl
      exact hdoc hflat.symm
    obtain ⟨cs', hcut, hrun⟩ := receive_goesOn (hleft hvs hflat) p.path Xml.empty hgood
    obtain ⟨ts', hts', hmerge⟩ := hnested.joined (hcut.joined hplain)
    rw [hstart hvsne, hrun, receive_nil _ _ rfl, hts'.getRoot_eq, ← propfindComplete_mergeTrees, hmerge,
      propfindComplete_mergeTrees]
  have hwsne : ws ≠ [] := by
    rintro rfl
    exact hdoc hflat.symm
  refine ⟨fun hgood => ?_, fun ks₁ k ks₂ hcuts hgood hbad => ?_⟩
  · have hone := hwhole (List.forall_mem_singleton.mpr hdoc) List.flatten_singleton fun k hk => by
      obtain rfl : k = 0 + (Construct.texts cs).length := List.mem_singleton.mp hk
      rw [Nat.zero_add]
      exact ⟨.ok, Construct.answerAt_end hplain, rfl⟩
    have hall := hwhole hws hflat hgood
    exact ⟨hall.trans hone.symm, hall⟩
  · rw [hstart hwsne]
    exact receive_stops (hleft hws hflat) p.path Xml.empty hcuts hgood hbad

def exListing : Markup :=
  let element (name : Bytes) (inner : Markup) : Markup := .element [] ⟨name, [], []⟩ inner [] (.text [])
  element (bytes "D:multistatus") (element (bytes "D:response")
    (element (bytes "D:href") (.text (bytes "/a"))))

theorem exListing_wellFormed : exListing.WellFormed := by
  have htag : ∀ name, name ≠ [] → name.all isNameChar = true →
      OpenTag.WellFormed ⟨name, [], []⟩ := fun name hne hname =>
    ⟨hne, List.all_eq_true.mp hname, List.forall_mem_nil _, List.forall_mem_nil _⟩
  have hempty : IsCharData [] := ⟨List.not_mem_nil, List.not_mem_nil⟩
  have hnone := List.forall_mem_nil fun c => isBlank c = true
  exact ⟨hempty, htag _ (by decide) (by decide),
    ⟨hempty, htag _ (by decide) (by decide),
      ⟨hempty, htag _ (by decide) (by decide), ⟨by decide, by decide⟩, hnone, hempty⟩, hnone, hempty⟩,
    hnone, hempty⟩

/-- The listing in two blocks, cut in the name of the resource. -/
def exBlocks : List Bytes :=
  [bytes "<D:multistatus><D:response><D:href>/", bytes "a</D:href></D:response></D:multistatus>"]

set_option maxRecDepth 8000 in
/-- The listener is called for the resource. -/
theorem receive_blocks_listing :
    (onRequest {}).receive exBlocks = some ([{ name := bytes "/a" }], none) := by
  have hapart : Construct.Apart exListing.constructs := by
    have h := @Markup.apart_constructs exListing [] (fun c hc => by cases hc) List.isChain_nil
    rwa [List.append_nil] at h
  have hws : ∀ w ∈ exBlocks, w ≠ [] := by decide
  obtain ⟨hreceive, -⟩ := receive_blocks exListing_wellFormed.plain hapart (List.cons_ne_nil _ _)
    (Markup.nested_parsed exListing_wellFormed) hws (by decide) {}
  have hgood : ∀ k ∈ cuts 0 exBlocks, GoesOn exListing.constructs k := by
    have hcuts : cuts 0 exBlocks = [36, 75] := by decide
    rw [hcuts, List.forall_mem_cons, List.forall_mem_singleton]
    exact ⟨⟨.ok, by decide, rfl⟩, ⟨.ok, by decide, rfl⟩⟩
  exact (hreceive hgood).2.trans (by decide)

end HttpPropfind

end Dframework
