import Mathlib
import Dframework.Httpd.HttpdHost

/-!
# `OriginFs`

The files of a root are taken from its origins in turn: each operation starts behind the origin that
answered last. What an origin does is a parameter. `none` as a result stands for a run that leaves
the path or does not end.

Results:
1. `getAliasUri_separates`: which root is answered for a path, and what is left of the path.
2. `run_origins`: what the loop over the origins ends with.
3. `operations_searched`: every operation asks the origins once around.
-/

namespace Dframework

open CLib Loop

/-- What the origins answer by their index: `UriFs::ready` of the URI, and the call on the file
system behind it. -/
structure Origins (α : Type*) where
  ready : Nat → Uri → Retval
  call : Nat → Uri → Bytes → Except Ret α

namespace AliasUri

def pathoff (a : AliasUri) : Int :=
  let pathoff := Int.bmod a.sAliasName.length (2 ^ 32)
  if pathoff ≠ 0 then pathoff + 1 else pathoff

/-- `path + pathoff`. -/
def behindAlias (a : AliasUri) (path : Bytes) : Option Bytes :=
  if 0 ≤ a.pathoff ∧ a.pathoff ≤ path.length then some (path.drop a.pathoff.toNat) else none

/-- `if( cur >= size ) cur = 0`. -/
def wrap (a : AliasUri) (cur : Int) : Int :=
  if a.aUris.length ≤ cur then 0 else cur

end AliasUri

/-- The state of the loop over the origins. `tried` keeps which of them were asked. -/
structure OriginSearch where
  cur : Int
  retval : Retval
  tried : List Nat

/-- What the loop over the origins ends with: the index and the answer of the one that succeeded, or
an error. -/
structure OriginEnd (α : Type*) where
  answer : Except Ret (Nat × α)
  tried : List Nat

/-- "No enable orgin uris." -/
def noOrigin (path : Bytes) (size : Nat) : Ret where
  value := .error
  message := "No enable orgin uris. path=" ++ HttpRequest.chars path ++ ", uri-size=" ++
    toString size

section Loop

variable {α : Type*} (a : AliasUri) (path : Bytes) (os : Origins α)

/-- The end of a pass: the index goes on unless it has come around. -/
def originNext (cur : Int) (retval : Retval) (tried : List Nat) :
    Round OriginSearch (Option (OriginEnd α)) :=
  if cur + 1 = a.current + 1 then
    .done (some ⟨.error (retval.getD (noOrigin path a.aUris.length)), tried⟩)
  else .next ⟨cur + 1, retval, tried⟩

/-- One pass of the loop of `getattr_l`, `readdir` and `open`. -/
def originRound (s : OriginSearch) : Round OriginSearch (Option (OriginEnd α)) :=
  let cur := a.wrap s.cur
  match a.getUri cur with
  | none => originNext a path cur s.retval s.tried
  | some uri =>
    let tried := s.tried ++ [cur.toNat]
    match os.ready cur.toNat uri with
    | some e => originNext a path cur (some e) tried
    | none =>
      match a.behindAlias path with
      | none => .done none
      | some rest =>
        match os.call cur.toNat uri rest with
        | .error e => originNext a path cur (some e) tried
        | .ok x => .done (some ⟨.ok (cur.toNat, x), tried⟩)

/-- The loop. An index that is in range comes around in as many passes as there are URIs. -/
def searchOrigins : Option (OriginEnd α) :=
  (run (originRound a path os) (max a.aUris.length 1) ⟨a.current + 1, none, []⟩).join

end Loop

/-- `OriginFs`. The file system that `open` keeps is one of `φ`. -/
structure OriginFs (φ : Type*) where
  bInit : Bool := false
  host : Option HttpdHost := none
  fs : Option φ := none
  poff : Int := 0

/-- What an operation answers, with the origins it asked and the state it leaves. -/
structure OriginResult (φ α : Type*) where
  answer : Except Ret α
  tried : List Nat
  fs : OriginFs φ

namespace OriginFs

variable {φ α σ δ : Type*}

def ready (o : OriginFs φ) (host : Option HttpdHost) : Retval × OriginFs φ :=
  match host with
  | none => (retvalMsg .error "Not has host.", { o with bInit := false })
  | some host => (none, { o with bInit := true, host := some host })

/-- What the operations share. On success `keep` says what else is kept of the answer. -/
def search (o : OriginFs φ) (path : Bytes) (os : Origins α)
    (keep : α → Int → OriginFs φ → OriginFs φ) : Option (OriginResult φ α) :=
  if o.bInit = false then some ⟨.error { value := .error, message := "Has not ready." }, [], o⟩
  else match o.host with
    | none => none
    | some host =>
      match host.uris (host.getAliasUri path) with
      | none =>
        some ⟨.error { value := .error, message := "No enable orgin uris. path=" ++
          HttpRequest.chars path }, [], o⟩
      | some a =>
        match searchOrigins a path os with
        | none => none
        | some ⟨.error e, tried⟩ => some ⟨.error e, tried, o⟩
        | some ⟨.ok (cur, x), tried⟩ =>
          let o := { o with host := some (host.setCurrent (host.getAliasUri path) cur) }
          some ⟨.ok x, tried, keep x a.pathoff o⟩

def getattr (o : OriginFs φ) (path : Bytes) (os : Origins σ) : Option (OriginResult φ σ) :=
  o.search path os fun _ _ o => o

def readdir (o : OriginFs φ) (path : Bytes) (os : Origins δ) : Option (OriginResult φ δ) :=
  o.search path os fun _ _ o => o

/-- `OriginFs::open`. The file system is kept for `read` and `close`. -/
def «open» (o : OriginFs φ) (path : Bytes) (os : Origins φ) : Option (OriginResult φ φ) :=
  o.search path os fun fs poff o => { o with fs := some fs, poff := poff }

end OriginFs

/-! ## What is left of a path -/

namespace AliasUri

variable {a : AliasUri} {path rest : Bytes}

/-- What stands in front of the part that is left. -/
def lead (a : AliasUri) : Bytes :=
  if a.sAliasName = [] then [] else 47 :: a.sAliasName

theorem length_lead (a : AliasUri) :
    (a.lead.length : Int) = if (a.sAliasName.length : Int) ≠ 0 then (a.sAliasName.length : Int) + 1
      else a.sAliasName.length := by
  by_cases hname : a.sAliasName = []
  · rw [lead, if_pos hname, hname, if_neg (by simp)]
  · have hpos := List.length_pos_iff.mpr hname
    rw [lead, if_neg hname, if_pos (by omega), List.length_cons, Nat.cast_succ]

theorem pathoff_eq (h : a.lead.length < 2 ^ 31) : a.pathoff = a.lead.length := by
  have hint : Int.bmod a.sAliasName.length (2 ^ 32) = a.sAliasName.length := by
    have hlead := a.length_lead
    exact int_of_lt (by split_ifs at hlead <;> omega)
  rw [length_lead, ← hint]
  rfl

theorem behindAlias_lead (h : (a.lead ++ rest).length < 2 ^ 31) :
    a.behindAlias (a.lead ++ rest) = some rest := by
  have hle : a.lead.length ≤ (a.lead ++ rest).length := by
    rw [List.length_append]
    exact Nat.le_add_right _ _
  rw [behindAlias, pathoff_eq (hle.trans_lt h), if_pos ⟨Int.natCast_nonneg _, Int.ofNat_le.mpr hle⟩,
    Int.toNat_natCast, List.drop_left]

theorem Covers.exists_rest (h : a.Covers path) (hname : a.sAliasName ≠ []) :
    ∃ rest, path = a.lead ++ rest ∧ (rest = [] ∨ rest.head? = some 47) := by
  rw [lead, if_neg hname]
  rcases h with rfl | ⟨t, rfl⟩
  · exact ⟨[], (List.append_nil _).symm, .inl rfl⟩
  · exact ⟨47 :: t, by simp, .inr rfl⟩

end AliasUri

/-- An alias is answered for its name and what is below it, the base for everything else, and what
is left of the path starts at a slash. -/
theorem getAliasUri_separates (h : HttpdHost) (p : RequestPath) :
    (∀ k, h.getAliasUri p.path = .named k →
      ∃ a ∈ h.aAliasDocumentRoot, h.uris (.named k) = some a ∧ a.Covers p.path) ∧
    (h.getAliasUri p.path = .base → ∀ a ∈ h.aAliasDocumentRoot, ¬ a.Covers p.path) ∧
    ∃ a rest, h.uris (h.getAliasUri p.path) = some a ∧ p.path = a.lead ++ rest ∧
      a.behindAlias p.path = some rest ∧ (rest = [] ∨ rest.head? = some 47) := by
  refine ⟨fun k => HttpdHost.getAliasUri_alias, HttpdHost.getAliasUri_base, ?_⟩
  obtain ⟨a, rest, huris, hpath, hrest⟩ : ∃ a rest, h.uris (h.getAliasUri p.path) = some a ∧
      p.path = a.lead ++ rest ∧ (rest = [] ∨ rest.head? = some 47) := by
    cases hroot : h.getAliasUri p.path with
    | base =>
      have hlead : h.aBaseDocumentRoot.lead = [] := if_pos h.base_name
      exact ⟨h.aBaseDocumentRoot, p.path, rfl, by rw [hlead]; rfl, .inr p.head_eq⟩
    | named k =>
      obtain ⟨a, hmem, huris, hcov⟩ := HttpdHost.getAliasUri_alias hroot
      obtain ⟨rest, hpath, hrest⟩ := hcov.exists_rest (h.alias_name a hmem).1
      exact ⟨a, rest, huris, hpath, hrest⟩
  refine ⟨a, rest, huris, hpath, ?_, hrest⟩
  rw [hpath]
  exact AliasUri.behindAlias_lead (hpath ▸ p.length_lt)

/-! ## Once around -/

namespace AliasUri

variable {a : AliasUri} {j k : Nat} {cur : Int}

/-- The indices from the one behind the current one around to the current one. -/
def order (a : AliasUri) : List Nat :=
  (List.range a.aUris.length).rotate (a.current.toNat + 1)

theorem length_order (a : AliasUri) : a.order.length = a.aUris.length := by
  rw [order, List.length_rotate, List.length_range]

theorem mem_order : k ∈ a.order ↔ k < a.aUris.length := by
  rw [order, List.mem_rotate, List.mem_range]

theorem nodup_order (a : AliasUri) : a.order.Nodup :=
  List.nodup_rotate.mpr List.nodup_range

/-- The index at a position has been wrapped at most once. -/
theorem getElem_order (h : a.InRange) (hj : j < a.order.length) :
    (a.order[j] : Int) = if j + a.current + 1 < a.aUris.length then j + a.current + 1
      else j + a.current + 1 - a.aUris.length := by
  obtain ⟨hpos, hlt⟩ := h
  rw [length_order] at hj
  have hget : a.order[j] = (j + (a.current.toNat + 1)) % a.aUris.length := by
    simp only [order, List.getElem_rotate, List.getElem_range, List.length_range]
  rw [hget]
  split_ifs with hx
  · rw [Nat.mod_eq_of_lt (by omega)]
    omega
  · rw [Nat.mod_eq_sub_mod (by omega), Nat.mod_eq_of_lt (by omega)]
    omega

theorem wrap_start (h : a.InRange) (hpos : 0 < a.order.length) :
    a.wrap (a.current + 1) = a.order[0] := by
  rw [getElem_order h, wrap]
  have := h.2
  rw [length_order] at hpos
  split_ifs <;> omega

/-- The pass behind the one for an index comes to the next one. -/
theorem wrap_order (h : a.InRange) (hnext : j + 1 < a.order.length) :
    a.wrap (a.order[j] + 1) = a.order[j + 1] := by
  rw [getElem_order h, getElem_order h, wrap]
  have := h.1
  have := h.2
  rw [length_order] at hnext
  split_ifs <;> omega

/-- The index has come around behind the last one. -/
theorem order_last (h : a.InRange) (hj : j < a.order.length) :
    (a.order[j] : Int) + 1 = a.current + 1 ↔ j + 1 = a.order.length := by
  rw [getElem_order h, length_order]
  have := h.1
  have := h.2
  rw [length_order] at hj
  split_ifs <;> omega

end AliasUri

/-- What the origin with an index gives, when it succeeds. -/
def Origins.answer {α : Type*} (os : Origins α) (a : AliasUri) (rest : Bytes) (k : Nat) :
    Option α :=
  match a.aUris[k]? with
  | none => none
  | some uri => if os.ready k uri = none then (os.call k uri rest).toOption else none

section Loop

variable {α : Type*} {a : AliasUri} {path rest : Bytes} {s : OriginSearch} {k : Nat}
  (os : Origins α)

/-- What a pass does: the origin it comes to succeeds, or the end of the pass is reached. -/
theorem originRound_cases (hrest : a.behindAlias path = some rest) (hk : k < a.aUris.length)
    (hcur : a.wrap s.cur = k) :
    (∃ x, os.answer a rest k = some x ∧
      originRound a path os s = .done (some ⟨.ok (k, x), s.tried ++ [k]⟩)) ∨
    (os.answer a rest k = none ∧
      ∃ retval, originRound a path os s = originNext a path k retval (s.tried ++ [k])) := by
  have huri : a.getUri k = a.aUris[k]? := by
    rw [AliasUri.getUri, if_pos ⟨Int.ofNat_lt.mpr hk, Int.natCast_nonneg k⟩, Int.toNat_natCast]
  simp only [originRound, hcur, huri, Int.toNat_natCast, hrest, Origins.answer]
  rw [List.getElem?_eq_getElem hk]
  dsimp only
  cases hready : os.ready k a.aUris[k] with
  | some e => exact .inr ⟨if_neg (by simp), some e, rfl⟩
  | none =>
    dsimp only
    rw [if_pos rfl]
    cases os.call k a.aUris[k] rest with
    | error e => exact .inr ⟨rfl, some e, rfl⟩
    | ok x => exact .inl ⟨x, rfl, rfl⟩

/-- A pass, by what is left of the order: it ends the loop with the origin's answer or behind the
last index, or the next pass comes to the next index. -/
theorem originRound_order (hr : a.InRange) (hrest : a.behindAlias path = some rest)
    {l tried : List Nat} (horder : a.order = tried ++ k :: l) (hcur : a.wrap s.cur = k)
    (hs : s.tried = tried) :
    (∃ x, os.answer a rest k = some x ∧
      originRound a path os s = .done (some ⟨.ok (k, x), tried ++ [k]⟩)) ∨
    (os.answer a rest k = none ∧
      match l with
      | [] => ∃ err, originRound a path os s = .done (some ⟨.error err, tried ++ [k]⟩)
      | k' :: _ => ∃ s', originRound a path os s = .next s' ∧ a.wrap s'.cur = k' ∧
          s'.tried = tried ++ [k]) := by
  have hlen : a.order.length = tried.length + 1 + l.length := by
    rw [horder, List.length_append, List.length_cons]
    omega
  have hget : a.order[tried.length] = k := by simp [horder]
  have hlast := AliasUri.order_last hr (show tried.length < a.order.length by omega)
  have hmem : k ∈ a.order := by simp [horder]
  rw [hget] at hlast
  refine (originRound_cases os hrest (AliasUri.mem_order.mp hmem) hcur).imp ?_ ?_
  · rintro ⟨x, hx, hround⟩
    exact ⟨x, hx, by rw [hround, hs]⟩
  · rintro ⟨hnone, retval, hround⟩
    rw [hround, originNext, hs]
    refine ⟨hnone, ?_⟩
    cases l with
    | nil => exact ⟨_, by rw [if_pos (hlast.mpr hlen.symm)]⟩
    | cons k' l =>
      rw [List.length_cons] at hlen
      have hnext : tried.length + 1 < a.order.length := by omega
      have hget' : a.order[tried.length + 1] = k' := by simp [horder]
      have hwrap := AliasUri.wrap_order hr hnext
      rw [hget, hget'] at hwrap
      rw [if_neg fun heq => Nat.ne_of_lt hnext (hlast.mp heq)]
      exact ⟨_, rfl, hwrap, rfl⟩

/-- What the loop ends with, when only the indices `l` are left. -/
structure EndMet (a : AliasUri) (rest : Bytes) (os : Origins α) (l : List Nat) (e : OriginEnd α) :
    Prop where
  tried_order : e.tried <+: a.order
  succeeded : ∀ k x, e.answer = .ok (k, x) → k ∈ a.order ∧ os.answer a rest k = some x
  failed : ∀ err, e.answer = .error err → e.tried = a.order ∧ ∀ k ∈ l, os.answer a rest k = none

theorem EndMet.ok {l tried : List Nat} (horder : a.order = tried ++ k :: l) {x : α}
    (hx : os.answer a rest k = some x) :
    EndMet a rest os (k :: l) ⟨.ok (k, x), tried ++ [k]⟩ := by
  refine ⟨⟨l, by rw [horder]; simp⟩, ?_, ?_⟩
  · rintro _ _ ⟨⟩
    exact ⟨by simp [horder], hx⟩
  · rintro _ ⟨⟩

theorem run_origins (hr : a.InRange) (hrest : a.behindAlias path = some rest) {l tried : List Nat}
    (horder : a.order = tried ++ k :: l) (hcur : a.wrap s.cur = k) (hs : s.tried = tried)
    {fuel : Nat} (hfuel : l.length < fuel) :
    ∃ e, run (originRound a path os) fuel s = some (some e) ∧ EndMet a rest os (k :: l) e := by
  induction l generalizing k s tried fuel with
  | nil =>
    obtain ⟨fuel, rfl⟩ := Nat.exists_eq_succ_of_ne_zero (Nat.ne_of_gt hfuel)
    rcases originRound_order os hr hrest horder hcur hs with
      ⟨x, hx, hround⟩ | ⟨hnone, err, hround⟩
    · exact ⟨_, by rw [run, hround], .ok os horder hx⟩
    · refine ⟨_, by rw [run, hround], by rw [horder], ?_, ?_⟩
      · rintro _ _ ⟨⟩
      · rintro _ ⟨⟩
        exact ⟨horder.symm, by simpa using hnone⟩
  | cons k' l ih =>
    obtain ⟨fuel, rfl⟩ := Nat.exists_eq_succ_of_ne_zero (Nat.ne_of_gt (Nat.zero_lt_of_lt hfuel))
    rcases originRound_order os hr hrest horder hcur hs with
      ⟨x, hx, hround⟩ | ⟨hnone, s', hround, hcur', hs'⟩
    · exact ⟨_, by rw [run, hround], .ok os horder hx⟩
    · obtain ⟨e, hrun, he⟩ := ih (by rw [horder]; simp) hcur' hs' (Nat.lt_of_succ_lt_succ hfuel)
      refine ⟨e, by rw [run, hround]; exact hrun, he.tried_order, he.succeeded, ?_⟩
      intro err herr
      obtain ⟨htried, hall⟩ := he.failed err herr
      exact ⟨htried, List.forall_mem_cons.mpr ⟨hnone, hall⟩⟩

/-- The loop ends, after every index at most once. -/
theorem searchOrigins_met (hr : a.InRange) (hrest : a.behindAlias path = some rest) :
    ∃ e, searchOrigins a path os = some e ∧ EndMet a rest os a.order e := by
  cases horder : a.order with
  | nil =>
    -- there is no URI, and the index comes around in the first pass
    have hnil : a.aUris = [] := by
      rw [← List.length_eq_zero_iff, ← a.length_order, horder, List.length_nil]
    have hcur : a.current = 0 := by
      obtain ⟨h0, h1⟩ := hr
      rw [hnil] at h1
      simp at h1
      omega
    refine ⟨⟨.error (noOrigin path 0), []⟩, ?_, by simp [horder], ?_, ?_⟩
    · simp [searchOrigins, originRound, originNext, AliasUri.wrap, AliasUri.getUri, run, hnil, hcur]
    · rintro _ _ ⟨⟩
    · rintro _ ⟨⟩
      exact ⟨horder.symm, by simp⟩
  | cons k l =>
    have hlen := a.length_order
    rw [horder, List.length_cons] at hlen
    have hpos : 0 < a.order.length := by
      rw [horder]
      exact Nat.zero_lt_succ _
    have hcur := AliasUri.wrap_start hr hpos
    have hget : a.order[0] = k := by simp [horder]
    rw [hget] at hcur
    obtain ⟨e, hrun, he⟩ : ∃ e, run (originRound a path os) (max a.aUris.length 1)
        ⟨a.current + 1, none, []⟩ = some (some e) ∧ EndMet a rest os (k :: l) e :=
      run_origins os hr hrest (show a.order = [] ++ k :: l from horder) hcur rfl (by omega)
    refine ⟨e, ?_, he⟩
    rw [searchOrigins, hrun]
    rfl

end Loop

/-! ## The operations -/

/-- An operation on the root `a` asks the origins once around for the path `rest`, and leaves the
root `a'`. -/
structure Searched {φ α : Type*} (a : AliasUri) (rest : Bytes) (os : Origins α)
    (r : OriginResult φ α) (a' : AliasUri) : Prop where
  in_order : r.tried <+: a.order
  once : r.tried.Nodup
  succeeds : (∃ x, r.answer = .ok x) ↔ ∃ k x, os.answer a rest k = some x
  in_range : a'.InRange
  current : ∀ x, r.answer = .ok x →
    ∃ k : Nat, os.answer a rest k = some x ∧ a' = { a with current := k }
  failed : ∀ e, r.answer = .error e → r.tried = a.order ∧ a' = a

namespace OriginFs

variable {φ α σ δ : Type*} {o : OriginFs φ} {h : HttpdHost}

/-- The result of an operation that can be asked for a path. -/
def Meets (h : HttpdHost) (path : Bytes) (os : Origins α) (r : Option (OriginResult φ α)) : Prop :=
  ∃ a rest a' h' r', h.uris (h.getAliasUri path) = some a ∧ a.behindAlias path = some rest ∧
    r = some r' ∧ r'.fs.host = some h' ∧ h'.uris (h.getAliasUri path) = some a' ∧
    Searched a rest os r' a'

theorem search_meets (hinit : o.bInit = true) (hhost : o.host = some h) (p : RequestPath)
    (hr : ∀ a, h.uris (h.getAliasUri p.path) = some a → a.InRange) (os : Origins α)
    {keep : α → Int → OriginFs φ → OriginFs φ} (hkeep : ∀ x n o, (keep x n o).host = o.host) :
    Meets h p.path os (o.search p.path os keep) := by
  obtain ⟨a, rest, ha, -, hrest, -⟩ := (getAliasUri_separates h p).2.2
  have hin := hr a ha
  obtain ⟨⟨answer, tried⟩, hsearch, he⟩ := searchOrigins_met os hin hrest
  have honce : tried.Nodup := a.nodup_order.sublist he.tried_order.sublist
  rw [search, if_neg (by rw [hinit]; exact Bool.noConfusion)]
  simp only [hhost, ha, hsearch]
  cases answer with
  | error err =>
    obtain ⟨htried, hall⟩ := he.failed err rfl
    refine ⟨a, rest, a, h, _, ha, hrest, rfl, hhost, ha, he.tried_order, honce, ?_, hin, ?_, ?_⟩
    · refine ⟨(by rintro ⟨x, ⟨⟩⟩), fun ⟨k, x, hx⟩ => ?_⟩
      -- an index that is not in the order has no URI
      by_cases hk : k ∈ a.order
      · rw [hall k hk] at hx
        cases hx
      · rw [AliasUri.mem_order, not_lt] at hk
        rw [Origins.answer, List.getElem?_eq_none hk] at hx
        cases hx
    · rintro _ ⟨⟩
    · exact fun _ _ => ⟨htried, rfl⟩
  | ok answer =>
    obtain ⟨k, x⟩ := answer
    obtain ⟨hk, hx⟩ := he.succeeded k x rfl
    rw [AliasUri.mem_order] at hk
    refine ⟨a, rest, { a with current := k }, _, _, ha, hrest, rfl, hkeep _ _ _, ?_,
      he.tried_order, honce, ⟨fun _ => ⟨k, x, hx⟩, fun _ => ⟨x, rfl⟩⟩, ?_, ?_, ?_⟩
    · rw [HttpdHost.setCurrent, HttpdHost.uris_modifyRoot, if_pos rfl, ha]
      rfl
    · exact ⟨Int.natCast_nonneg k, Int.ofNat_lt.mpr (lt_max_of_lt_left hk)⟩
    · rintro _ ⟨⟩
      exact ⟨k, hx, rfl⟩
    · rintro _ ⟨⟩

/-- Every operation ends, asks the origins once around, succeeds when one of them does, and leaves
the current index in range, at the origin that succeeded. -/
theorem operations_searched (hinit : o.bInit = true) (hhost : o.host = some h) (p : RequestPath)
    (hr : ∀ a, h.uris (h.getAliasUri p.path) = some a → a.InRange) :
    (∀ os : Origins σ, Meets h p.path os (o.getattr p.path os)) ∧
    (∀ os : Origins δ, Meets h p.path os (o.readdir p.path os)) ∧
    ∀ os : Origins φ, Meets h p.path os (o.open p.path os) :=
  ⟨fun os => search_meets hinit hhost p hr os fun _ _ _ => rfl,
    fun os => search_meets hinit hhost p hr os fun _ _ _ => rfl,
    fun os => search_meets hinit hhost p hr os fun _ _ _ => rfl⟩

/-- The document root that a host is made with has no name. -/
theorem base_unnamed : ({} : AliasUri).sAliasName = [] := rfl

def docsHost : HttpdHost where
  aAliasDocumentRoot := [{ current := 1, sAliasName := bytes "docs", aUris := [{}, {}] }]
  base_name := base_unnamed
  alias_name := by
    intro a ha
    rw [List.mem_singleton.mp ha]
    decide

def docsPath : RequestPath where
  path := bytes "/docs/a"
  head_eq := by decide
  no_nul := by decide
  length_lt := by decide

theorem operations_searched_docs :
    let o : OriginFs Nat := { bInit := true, host := some docsHost }
    (∀ os : Origins Nat, Meets docsHost docsPath.path os (o.getattr docsPath.path os)) ∧
    (∀ os : Origins Nat, Meets docsHost docsPath.path os (o.readdir docsPath.path os)) ∧
    ∀ os : Origins Nat, Meets docsHost docsPath.path os (o.open docsPath.path os) := by
  refine operations_searched rfl rfl docsPath fun a ha => ?_
  have hroot : docsHost.getAliasUri docsPath.path = .named 0 := by decide
  rw [hroot] at ha
  cases ha
  exact ⟨Int.one_nonneg, by decide⟩

end OriginFs

end Dframework
