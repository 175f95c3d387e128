import Mathlib
import Dframework.Httpd.HttpRequest
import Dframework.Net.Uri

/-!
# `HttpdHost`

A host of the server: where it listens, its document root and the aliases of other roots. A root is
the URIs its files are taken from. The base has the empty name and is not in the list of the
aliases, whose names are C strings that are not empty.

Results:
1. `exists_requestPath`: what the parser takes for path and request are C strings of an `int`'s
   length.
2. `getAliasUri_alias` and `getAliasUri_base`: what `getAliasUri` answers.
3. `Ok.addDocumentRoot`: the current indices stay in range when a root is added.
-/

namespace Dframework

open CLib

/-! ## The paths of requests -/

/-- The path of a request that starts with a slash. -/
structure RequestPath where
  path : Bytes
  head_eq : path.head? = some 47
  no_nul : 0 ∉ path
  length_lt : path.length < 2 ^ 31
  deriving DecidableEq, Repr

namespace RequestPath

/-- The path is as the target of the request was decoded, or what stands there in front of its
query. -/
theorem exists_requestPath {r : HttpRequest} {url : Option Bytes} {query : Bytes}
    (hurl : HttpdUtil.urldecode url = some (.ok query)) :
    (∀ s, s = (r.setTarget query).sRequest ∨ s = (r.setTarget query).sFile →
      s.head? = some 47 → ∃ p : RequestPath, p.path = s) := by
  obtain ⟨hlen, h0⟩ := HttpdUtil.urldecode_answer hurl
  intro s hs hhead
  have hpre : s <+: query := by
    rw [HttpRequest.setTarget] at hs
    cases hfind : strstr query [63] with
    | none =>
      rw [hfind] at hs
      rw [hs.elim id id]
    | some i =>
      rw [hfind] at hs
      rcases hs with rfl | rfl
      · exact List.prefix_rfl
      · exact List.take_prefix i query
  exact ⟨⟨s, hhead, fun hmem => h0 (hpre.subset hmem), hpre.length_le.trans_lt hlen⟩, rfl⟩

theorem path_eq (p : RequestPath) : ∃ rest, p.path = 47 :: rest := by
  obtain ⟨path, hhead, -, -⟩ := p
  cases path with
  | nil => cases hhead
  | cons c rest => exact ⟨rest, by cases hhead; rfl⟩

end RequestPath

/-! ## The roots -/

structure AliasUri where
  current : Int := 0
  sAliasName : Bytes := []
  aUris : List Uri := []
  deriving DecidableEq, Repr

namespace AliasUri

/-- `m_aUris.get`. -/
def getUri (a : AliasUri) (k : Int) : Option Uri :=
  if k < a.aUris.length ∧ 0 ≤ k then a.aUris[k.toNat]? else none

/-- Whether the loop of `getAliasUri` answers this alias. -/
def answers (a : AliasUri) (path : Bytes) : Bool :=
  if a.sAliasName = [] then false
  else if path.length < a.sAliasName.length + 1 then false
  else if strstr (path.drop 1) a.sAliasName = some 0 then
    if a.sAliasName.length + 1 = path.length then true
    else path[a.sAliasName.length + 1]? = some 47
  else false

/-- The path is the name, or one below it. -/
def Covers (a : AliasUri) (path : Bytes) : Prop :=
  path = 47 :: a.sAliasName ∨ 47 :: (a.sAliasName ++ [47]) <+: path

/-- The current index is one of the URIs, or 0 as long as there is none. -/
def InRange (a : AliasUri) : Prop :=
  0 ≤ a.current ∧ a.current < max a.aUris.length 1

end AliasUri

/-- `HttpdHost`. `serverSocket` is the port of the socket, when there is one. -/
structure HttpdHost where
  serverSocket : Option Int := none
  sHost : Bytes := []
  aBaseDocumentRoot : AliasUri := {}
  aAliasDocumentRoot : List AliasUri := []
  base_name : aBaseDocumentRoot.sAliasName = [] := by rfl
  alias_name : ∀ a ∈ aAliasDocumentRoot, a.sAliasName ≠ [] ∧ 0 ∉ a.sAliasName := by simp

/-- The object that `getAliasUri` answers. -/
inductive AliasRef where
  | base
  | named (k : Nat)
  deriving DecidableEq, Repr

namespace HttpdHost

def getPort (h : HttpdHost) : Int :=
  h.serverSocket.getD 0

def getAliasUri (h : HttpdHost) (path : Bytes) : AliasRef :=
  if (cstr path).length = 1 then .base
  else match h.aAliasDocumentRoot.findIdx? (·.answers (cstr path)) with
    | some k => .named k
    | none => .base

/-- The root behind a reference. -/
def uris (h : HttpdHost) : AliasRef → Option AliasUri
  | .base => some h.aBaseDocumentRoot
  | .named k => h.aAliasDocumentRoot[k]?

/-- A change to one root that keeps its name. -/
def modifyRoot (h : HttpdHost) (ref : AliasRef) (f : AliasUri → AliasUri)
    (hf : ∀ a, (f a).sAliasName = a.sAliasName) : HttpdHost :=
  match ref with
  | .base =>
    { h with
      aBaseDocumentRoot := f h.aBaseDocumentRoot
      base_name := by rw [hf, h.base_name] }
  | .named k =>
    { h with
      aAliasDocumentRoot := h.aAliasDocumentRoot.modify k f
      alias_name := by
        intro a ha
        obtain ⟨i, hi⟩ := List.mem_iff_getElem?.mp ha
        rw [List.getElem?_modify] at hi
        obtain ⟨b, hb, rfl⟩ := Option.map_eq_some_iff.mp hi
        have hname := h.alias_name b (List.mem_of_getElem? hb)
        split_ifs
        · rw [hf]
          exact hname
        · exact hname }

/-- `AliasUri::setCurrent` of a root of the host. -/
def setCurrent (h : HttpdHost) (ref : AliasRef) (cur : Int) : HttpdHost :=
  h.modifyRoot ref (fun a => { a with current := cur }) fun _ => rfl

/-- The root that `addDocumentRoot` adds to: the base, an alias of that name up to case, or a new
alias. -/
def rootFor (h : HttpdHost) (palias : Option Bytes) : HttpdHost × AliasRef :=
  match palias with
  | none => (h, .base)
  | some name =>
    if hname : cstr name = [] then (h, .base)
    else match h.aAliasDocumentRoot.findIdx? fun a =>
        a.sAliasName ≠ [] ∧ equals a.sAliasName (cstr name) with
      | some k => (h, .named k)
      | none =>
        ({ h with
          aAliasDocumentRoot := h.aAliasDocumentRoot ++ [{ sAliasName := cstr name }]
          alias_name := by
            intro a ha
            rcases List.mem_append.mp ha with ha | ha
            · exact h.alias_name a ha
            · rw [List.mem_singleton.mp ha]
              exact ⟨hname, not_mem_cstr name⟩ }, .named h.aAliasDocumentRoot.length)

def addDocumentRoot (h : HttpdHost) (document : Bytes) (palias : Option Bytes) :
    Option HttpdHost := do
  let (h, ref) := h.rootFor palias
  let (_, uri) ← Uri.parse document
  some (h.modifyRoot ref (fun a => { a with aUris := a.aUris ++ [uri] }) fun _ => rfl)

def Ok (h : HttpdHost) : Prop :=
  ∀ ref a, h.uris ref = some a → a.InRange

end HttpdHost

/-! ## What is answered -/

variable {h : HttpdHost} {ref ref' : AliasRef} {a : AliasUri}

theorem AliasUri.answers_lead_iff {rest : Bytes} (hname : a.sAliasName ≠ []) (h0 : 0 ∉ rest) :
    a.answers (47 :: rest) = true ↔ a.Covers (47 :: rest) := by
  rw [answers, if_neg hname]
  split_ifs with hlong hstarts hend
  · -- the name is longer than the path
    simp only [Covers, false_iff, not_or]
    constructor
    · intro heq
      rw [heq] at hlong
      exact absurd hlong (by simp)
    · intro hpre
      have hle := hpre.length_le
      simp only [List.length_cons, List.length_append, List.length_nil] at hle hlong
      omega
  · -- the name ends the path
    have hpre : a.sAliasName <+: rest := by
      have := Search.find_starts hstarts
      rwa [List.drop_zero, List.drop_one, List.tail_cons, cstr_of_not_mem h0] at this
    have heq : a.sAliasName = rest := hpre.eq_of_length (by simpa using hend)
    simp only [Covers, heq, true_or]
  · -- a byte follows the name
    have hpre : a.sAliasName <+: rest := by
      have := Search.find_starts hstarts
      rwa [List.drop_zero, List.drop_one, List.tail_cons, cstr_of_not_mem h0] at this
    obtain ⟨t, rfl⟩ := hpre
    have hget : (47 :: (a.sAliasName ++ t))[a.sAliasName.length + 1]? = t.head? := by
      rw [List.getElem?_cons_succ, List.getElem?_append_right le_rfl, Nat.sub_self,
        List.head?_eq_getElem?]
    rw [hget, decide_eq_true_iff]
    constructor
    · intro hhead
      obtain ⟨t', rfl⟩ : ∃ t', t = 47 :: t' := by
        cases t with
        | nil => cases hhead
        | cons c t' => exact ⟨t', by cases hhead; rfl⟩
      exact .inr ⟨t', by simp⟩
    · rintro (heq | ⟨u, heq⟩)
      · rw [List.cons_inj_right] at heq
        rw [List.append_right_eq_self.mp heq] at hend
        exact absurd (by simp) hend
      · rw [List.cons_append, List.cons_inj_right, List.append_assoc,
          List.append_cancel_left_eq] at heq
        rw [← heq]
        rfl
  · -- another name
    have hnot : ¬ a.sAliasName <+: rest := by
      intro hpre
      refine hstarts ?_
      rw [strstr, List.drop_one, List.tail_cons, cstr_of_not_mem h0]
      exact Search.find_of_starts hpre
    simp only [Covers, false_iff, not_or]
    constructor
    · rintro heq
      exact hnot (List.cons_inj_right _ |>.mp heq ▸ List.prefix_rfl)
    · rintro ⟨u, heq⟩
      rw [List.cons_append, List.cons_inj_right, List.append_assoc] at heq
      exact hnot ⟨_, heq⟩

namespace HttpdHost

variable {p : RequestPath}

theorem answers_request (ha : a ∈ h.aAliasDocumentRoot) (p : RequestPath) :
    a.answers p.path = true ↔ a.Covers p.path := by
  obtain ⟨rest, hrest⟩ := p.path_eq
  have h0 := p.no_nul
  rw [hrest] at h0 ⊢
  exact AliasUri.answers_lead_iff (h.alias_name a ha).1 fun hmem => h0 (List.mem_cons_of_mem _ hmem)

theorem getAliasUri_alias {k : Nat} (hk : h.getAliasUri p.path = .named k) :
    ∃ a ∈ h.aAliasDocumentRoot, h.uris (.named k) = some a ∧ a.Covers p.path := by
  rw [getAliasUri, cstr_of_not_mem p.no_nul] at hk
  split_ifs at hk
  split at hk
  case h_2 => cases hk
  case h_1 i hfind =>
    cases hk
    obtain ⟨hlt, hans, -⟩ := List.findIdx?_eq_some_iff_getElem.mp hfind
    have hmem := List.getElem_mem hlt
    exact ⟨_, hmem, List.getElem?_eq_getElem hlt, (answers_request hmem p).mp hans⟩

theorem getAliasUri_base (hb : h.getAliasUri p.path = .base) :
    ∀ a ∈ h.aAliasDocumentRoot, ¬ a.Covers p.path := by
  intro a ha hcov
  rw [getAliasUri, cstr_of_not_mem p.no_nul] at hb
  split_ifs at hb with hone
  · -- a path of one byte is under no name
    have hpos := List.length_pos_iff.mpr (h.alias_name a ha).1
    rcases hcov with heq | hpre
    · rw [heq, List.length_cons] at hone
      omega
    · have hle := hpre.length_le
      simp only [List.length_cons, List.length_append, List.length_nil] at hle
      omega
  · split at hb
    case h_1 => cases hb
    case h_2 hfind =>
      have hno := List.findIdx?_eq_none_iff.mp hfind a ha
      exact Bool.false_ne_true (hno ▸ (answers_request ha p).mpr hcov)

/-! ## The current URIs -/

theorem ok_new (serverSocket : Option Int) (sHost : Bytes) :
    Ok { serverSocket, sHost } := by
  intro ref a ha
  cases ref with
  | base =>
    cases ha
    exact ⟨le_rfl, Int.zero_lt_one⟩
  | named k => cases ha

theorem uris_modifyRoot (h : HttpdHost) (ref ref' : AliasRef) (f : AliasUri → AliasUri)
    (hf : ∀ a, (f a).sAliasName = a.sAliasName) :
    (h.modifyRoot ref f hf).uris ref' = if ref = ref' then (h.uris ref').map f else h.uris ref' := by
  cases ref with
  | base => cases ref' <;> rfl
  | named k =>
    cases ref' with
    | base => rfl
    | named j =>
      show (h.aAliasDocumentRoot.modify k f)[j]? = _
      rw [List.getElem?_modify]
      by_cases hkj : k = j
      · subst hkj
        rw [if_pos rfl]
        simp [uris]
      · have hne : AliasRef.named k ≠ .named j := fun heq => hkj (by cases heq; rfl)
        rw [if_neg hne]
        simp [hkj, uris]

theorem Ok.modifyRoot (hok : h.Ok) {f : AliasUri → AliasUri}
    (hf : ∀ a, (f a).sAliasName = a.sAliasName)
    (hrange : ∀ a, h.uris ref = some a → (f a).InRange) : (h.modifyRoot ref f hf).Ok := by
  intro ref' a ha
  rw [uris_modifyRoot] at ha
  split_ifs at ha with heq
  · subst heq
    obtain ⟨b, hb, rfl⟩ := Option.map_eq_some_iff.mp ha
    exact hrange b hb
  · exact hok ref' a ha

theorem Ok.rootFor (hok : h.Ok) (palias : Option Bytes) : (h.rootFor palias).1.Ok := by
  unfold HttpdHost.rootFor
  split
  · exact hok
  · split_ifs
    · exact hok
    · split
      · exact hok
      · intro ref a ha
        cases ref with
        | base => exact hok .base a ha
        | named k =>
          rcases List.mem_append.mp (List.mem_of_getElem? ha) with hmem | hmem
          · obtain ⟨i, hi⟩ := List.mem_iff_getElem?.mp hmem
            exact hok (.named i) a hi
          · rw [List.mem_singleton.mp hmem]
            exact ⟨le_rfl, Int.zero_lt_one⟩

/-- A root that is added to keeps its current URI. -/
theorem Ok.addDocumentRoot {document : Bytes} {palias : Option Bytes} {h' : HttpdHost}
    (hok : h.Ok) (hadd : h.addDocumentRoot document palias = some h') : h'.Ok := by
  have hroot := hok.rootFor palias
  rw [HttpdHost.addDocumentRoot] at hadd
  generalize h.rootFor palias = root at hroot hadd
  obtain ⟨h₁, ref⟩ := root
  obtain ⟨⟨ret, uri⟩, -, hadd⟩ := Option.bind_eq_some_iff.mp hadd
  cases hadd
  refine hroot.modifyRoot _ fun a ha => ?_
  have := hroot _ a ha
  refine ⟨this.1, this.2.trans_le ?_⟩
  rw [List.length_append]
  omega

end HttpdHost

end Dframework
