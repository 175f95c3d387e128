import Mathlib
import Dframework.Httpd.HttpdHost
import Dframework.Lang.StringCompare
import Dframework.Lang.StringRuns

/-!
# `HttpdConfigure`

The hosts of the server, and how one is chosen. `getHost` of a text takes name and port out of the
text itself: it is cut at its colon, and the port is looked for in what is left. The server passes
the header as it stands, next to the port it listens on.

Results:
1. `chosen_iff`: what is chosen for a name and a port.
2. `chosen_same_iff`: when two names choose the same.
3. `getHost_iff`: when a text chooses for its name and its port and is left alone, and when a name
   with the port is the same header as the name.
-/

namespace Dframework

open CLib StringCompare

/-- On texts without NUL `equals` leaves out the case of letters only. -/
theorem sameName_eq {s t : Bytes} (hs : 0 ∉ s) (ht : 0 ∉ t) : sameName s t = sameLetters s t := by
  rw [sameName, equals, cstr_of_not_mem hs, cstr_of_not_mem ht]
  by_cases hlen : s.length = t.length
  · simp only [hlen, true_and]
    split_ifs with hnil
    · rw [hnil, sameLetters_nil_left, Bool.decide_eq_true]
    · rw [sameLetters, Bool.decide_eq_true]
  · have hsame : ¬ sameLetters s t = true := fun h => hlen (length_eq_of_sameLetters h)
    rw [Bool.eq_false_iff.mpr hsame]
    simp only [hlen, false_and, decide_false]

theorem length_eq_of_sameName {s t : Bytes} (h : sameName s t = true) : s.length = t.length :=
  (of_decide_eq_true h).1

/-- What `String::substring` leaves of a text. -/
def substringText (s : Bytes) (start length : Nat) : Bytes :=
  if s.length ≤ start then []
  else (s.drop start).take (if s.length < sizeAdd length start then s.length - start else length)

/-- The object holds that text. -/
theorem substringLen_text {st : StringRep} (h : Sound st) {start length : Nat}
    (hin : st.length ≤ start ∨ length + start < 2 ^ 64) :
    ∃ st', st.substringLen start length = some st' ∧
      st'.text = substringText st.text start length := by
  have hlen := StringBufferLemmas.text_length h
  rw [substringText, hlen]
  rcases Nat.lt_or_ge start st.length with hlt | hge
  · have hnum := hin.resolve_left (Nat.not_le.mpr hlt)
    obtain ⟨st', hst', -, htext⟩ := h.substringLen (.inr ⟨hlt, hnum⟩)
    refine ⟨st', hst', ?_⟩
    rw [htext, if_neg (Nat.not_le.mpr hlt), sizeAdd_of_lt hnum]
    split_ifs with hlong
    · have hdrop : (st.text.drop start).length = st.length - start := by
        rw [List.length_drop, hlen]
      rw [List.take_of_length_le (by omega), List.take_of_length_le (by omega)]
    · rfl
  · rw [if_pos hge, StringRep.substringLen, if_pos hge]
    exact ⟨_, rfl, rfl⟩

theorem length_substringText_le (s : Bytes) (start length : Nat) :
    (substringText s start length).length ≤ s.length - start := by
  rw [substringText]
  split_ifs
  · exact Nat.zero_le _
  all_goals
    rw [List.length_take, List.length_drop]
    exact Nat.min_le_right _ _

structure HttpdConfigure where
  aHosts : List HttpdHost := []

namespace HttpdConfigure

def addHost (c : HttpdConfigure) (host : HttpdHost) : HttpdConfigure :=
  { c with aHosts := c.aHosts ++ [host] }

/-- `HttpdConfigure::getHost` of a name and a port: the index of the host. -/
def getHostPort (c : HttpdConfigure) (sHost : Bytes) (port : Int) : Option Nat :=
  match c.aHosts.findIdx? fun host => port = host.getPort ∧ sameName sHost host.sHost with
  | some k => some k
  | none =>
    match c.aHosts.findIdx? fun host => sameName sHost host.sHost with
    | some k => some k
    | none => c.aHosts.findIdx? fun host => port = host.getPort

/-- `HttpdConfigure::getHost` of a text, and what it leaves of the text. `index + 1` is an `int`. -/
def getHost (c : HttpdConfigure) (sAlias : Bytes) : Option (Option Nat × Bytes) :=
  let index := indexOf sAlias [58]
  if index = -1 then some (c.getHostPort sAlias 80, sAlias)
  else if index = 2 ^ 31 - 1 then none
  else
    let sAlias := substringText sAlias 0 (toSizeT index)
    let sHost := sAlias
    let start := toSizeT (index + 1)
    let sAlias := substringText sAlias start (sizeSub sAlias.length start)
    let sPort := sAlias
    let port := parseInt (toChars sPort)
    some (c.getHostPort sHost port, sAlias)

end HttpdConfigure

/-- `HttpdClient::readyRequest`: the host for a request that came in on the port `serverPort`. -/
def readyRequest (c : HttpdConfigure) (r : HttpRequest) (serverPort : Int) : Except Ret Nat :=
  match c.getHostPort r.sHost serverPort with
  | none =>
    .error {
      value := .error
      message := "Not found host. host=" ++ HttpRequest.chars (printed r.sHost) ++ ":" ++
        toString serverPort }
  | some k => .ok k

/-! ## The choice -/

/-- The host has that name, up to the case of letters. -/
def HttpdHost.Bears (h : HttpdHost) (name : Bytes) : Prop :=
  sameName name h.sHost = true

namespace HttpdConfigure

variable {c : HttpdConfigure} {P Q : HttpdHost → Prop} {name other t : Bytes} {port : Int}
  {k k' : Nat} {r r' : Option Nat}

def First (c : HttpdConfigure) (P : HttpdHost → Prop) (k : Nat) : Prop :=
  (∃ host, c.aHosts[k]? = some host ∧ P host) ∧
    ∀ j < k, ∀ host, c.aHosts[j]? = some host → ¬ P host

def Nobody (c : HttpdConfigure) (P : HttpdHost → Prop) : Prop :=
  ∀ host ∈ c.aHosts, ¬ P host

/-- The first host with that name and port, else the first with that name, else the first with that
port. -/
inductive Chosen (c : HttpdConfigure) (name : Bytes) (port : Int) : Option Nat → Prop
  | both {k : Nat} : c.First (fun h => port = h.getPort ∧ h.Bears name) k → Chosen c name port (some k)
  | name {k : Nat} : c.Nobody (fun h => port = h.getPort ∧ h.Bears name) → c.First (·.Bears name) k →
      Chosen c name port (some k)
  | port {k : Nat} : c.Nobody (·.Bears name) → c.First (port = ·.getPort) k →
      Chosen c name port (some k)
  | none : c.Nobody (·.Bears name) → c.Nobody (port = ·.getPort) → Chosen c name port none

theorem findIdx?_eq_some_iff {p : HttpdHost → Bool} :
    c.aHosts.findIdx? p = some k ↔ c.First (fun h => p h = true) k := by
  rw [List.findIdx?_eq_some_iff_getElem]
  constructor
  · rintro ⟨hlt, hp, hbefore⟩
    refine ⟨⟨_, List.getElem?_eq_getElem hlt, hp⟩, fun j hj host hhost => ?_⟩
    obtain ⟨_, rfl⟩ := List.getElem?_eq_some_iff.mp hhost
    exact hbefore j hj
  · rintro ⟨⟨host, hk, hp⟩, hbefore⟩
    obtain ⟨hlt, rfl⟩ := List.getElem?_eq_some_iff.mp hk
    exact ⟨hlt, hp, fun j hj => hbefore j hj _ (List.getElem?_eq_getElem (hj.trans hlt))⟩

theorem findIdx?_eq_none_iff {p : HttpdHost → Bool} :
    c.aHosts.findIdx? p = none ↔ c.Nobody fun h => p h = true := by
  rw [List.findIdx?_eq_none_iff]
  exact forall₂_congr fun host _ => Bool.eq_false_iff

theorem nobody_both (h : c.Nobody (·.Bears name)) :
    c.Nobody fun h => port = h.getPort ∧ h.Bears name :=
  fun host hmem hboth => h host hmem hboth.2

/-- `getHost` of a name and a port answers the choice, and there is no other. -/
theorem chosen_iff : Chosen c name port r ↔ c.getHostPort name port = r := by
  have hboth : ∀ {k}, c.aHosts.findIdx? (fun h => port = h.getPort ∧ sameName name h.sHost) =
      some k ↔ c.First (fun h => port = h.getPort ∧ h.Bears name) k := by
    intro k
    simp only [findIdx?_eq_some_iff, decide_eq_true_eq]
    rfl
  have hnoboth : c.aHosts.findIdx? (fun h => port = h.getPort ∧ sameName name h.sHost) =
      none ↔ c.Nobody fun h => port = h.getPort ∧ h.Bears name := by
    simp only [findIdx?_eq_none_iff, decide_eq_true_eq]
    rfl
  have hport : ∀ {k}, c.aHosts.findIdx? (fun h => port = h.getPort) = some k ↔
      c.First (port = ·.getPort) k := by
    intro k
    simp only [findIdx?_eq_some_iff, decide_eq_true_eq]
  have hnoport : c.aHosts.findIdx? (fun h => port = h.getPort) = none ↔
      c.Nobody (port = ·.getPort) := by
    simp only [findIdx?_eq_none_iff, decide_eq_true_eq]
  constructor
  · intro h
    rw [getHostPort]
    cases h with
    | both hf => rw [hboth.mpr hf]
    | name hno hf => rw [hnoboth.mpr hno, findIdx?_eq_some_iff.mpr hf]
    | port hno hf =>
      rw [hnoboth.mpr (nobody_both hno), findIdx?_eq_none_iff.mpr hno, hport.mpr hf]
    | none hno hno' =>
      rw [hnoboth.mpr (nobody_both hno), findIdx?_eq_none_iff.mpr hno, hnoport.mpr hno']
  · rintro rfl
    rw [getHostPort]
    split
    · next hfind => exact .both (hboth.mp hfind)
    · next hfind =>
      split
      · next hname => exact .name (hnoboth.mp hfind) (findIdx?_eq_some_iff.mp hname)
      · next hname =>
        have hno := findIdx?_eq_none_iff.mp hname
        cases hlast : c.aHosts.findIdx? fun h => port = h.getPort with
        | some k => exact .port hno (hport.mp hlast)
        | none => exact .none hno (hnoport.mp hlast)

/-! ## The text -/

/-- The part of a text in front of its first colon. -/
def nameOf (t : Bytes) : Bytes :=
  t.takeWhile (· != 58)

/-- The number behind the first colon. -/
def portOf (t : Bytes) : Int :=
  if 58 ∈ t then parseInt (toChars (t.drop ((nameOf t).length + 1))) else 80

/-- A text chooses for its name and its port, and is left alone. -/
def TextMet (c : HttpdConfigure) (t : Bytes) : Prop :=
  ∃ r t', c.getHost t = some (r, t') ∧ Chosen c (nameOf t) (portOf t) r ∧ t' = t

theorem nameOf_of_not_mem (h : 58 ∉ t) : nameOf t = t := by
  rw [nameOf, List.takeWhile_eq_self_iff]
  intro x hx
  rw [bne_iff_ne]
  rintro rfl
  exact h hx

/-- Where the colon is found. -/
theorem indexOf_colon (h0 : 0 ∉ t) :
    indexOf t [58] = if 58 ∈ t then Int.bmod (nameOf t).length (2 ^ 32) else -1 := by
  have hneedle : cstr [58] = [58] := by decide
  rw [indexOf, hneedle]
  split_ifs with hmem
  · obtain ⟨a, b, rfl, ha⟩ := List.eq_append_cons_of_mem hmem
    have h0a : 0 ∉ a := fun h => h0 (List.mem_append_left _ h)
    have hname : nameOf (a ++ 58 :: b) = a := by
      have hall : ∀ x ∈ a, (x != 58) = true := by
        intro x hx
        rw [bne_iff_ne]
        rintro rfl
        exact ha hx
      rw [nameOf, List.takeWhile_append_of_pos hall, List.takeWhile_cons_of_neg (by decide),
        List.append_nil]
    rw [strstr_char h0a ha (by decide), hname]
  · rw [strstr_char_none hmem]

theorem indexOf_range (hay needle : Bytes) :
    -(2 ^ 31) ≤ indexOf hay needle ∧ indexOf hay needle < 2 ^ 31 := by
  rw [indexOf]
  cases strstr hay (cstr needle) with
  | none => decide
  | some i => exact ⟨Int.le_bmod (by decide), Int.bmod_lt (by decide)⟩

/-- A text with a colon that is found is changed. -/
theorem getHost_changes (hnil : t ≠ []) (h : indexOf t [58] ≠ -1) {t' : Bytes}
    (hget : c.getHost t = some (r, t')) : t' ≠ t := by
  rw [getHost] at hget
  simp only [h, if_false] at hget
  split_ifs at hget with hmax
  cases hget
  have hpos := List.length_pos_iff.mpr hnil
  have hfirst := length_substringText_le t 0 (toSizeT (indexOf t [58]))
  generalize substringText t 0 (toSizeT (indexOf t [58])) = s at hfirst ⊢
  have hsecond := length_substringText_le s (toSizeT (indexOf t [58] + 1))
    (sizeSub s.length (toSizeT (indexOf t [58] + 1)))
  have hstart : 0 < toSizeT (indexOf t [58] + 1) := by
    have hrange := indexOf_range t [58]
    unfold toSizeT
    omega
  intro heq
  rw [heq] at hsecond
  omega

/-- A text is met when it has no colon. The place of a colon that is 1 below a multiple of `2 ^ 32`
is read as the answer for none. -/
theorem textMet_iff (h0 : 0 ∉ t) :
    TextMet c t ↔ 58 ∉ t ∨ Int.bmod (nameOf t).length (2 ^ 32) = -1 ∧
      ∃ r, Chosen c t 80 r ∧ Chosen c (nameOf t) (portOf t) r := by
  have hindex := indexOf_colon h0
  by_cases hmem : 58 ∈ t
  · rw [if_pos hmem] at hindex
    rw [← hindex]
    constructor
    · rintro ⟨r, t', hget, hchosen, rfl⟩
      have hfound : indexOf t' [58] = -1 := by
        by_contra hne
        exact getHost_changes (List.ne_nil_of_mem hmem) hne hget rfl
      rw [getHost] at hget
      simp only [hfound, if_true, Option.some.injEq, Prod.mk.injEq] at hget
      exact .inr ⟨hfound, r, chosen_iff.mpr hget.1, hchosen⟩
    · rintro (hno | ⟨hfound, r, h80, hchosen⟩)
      · exact absurd hmem hno
      · refine ⟨r, t, ?_, hchosen, rfl⟩
        rw [getHost]
        simp only [hfound, if_true, chosen_iff.mp h80]
  · rw [if_neg hmem] at hindex
    refine iff_of_true ⟨_, t, ?_, chosen_iff.mpr rfl, rfl⟩ (.inl hmem)
    rw [getHost, nameOf_of_not_mem hmem, portOf, if_neg hmem]
    simp only [hindex, if_true]

/-! ## The header -/

/-- The requests with the name, and with the name and the port, are served by the same host. -/
def HeaderMet (c : HttpdConfigure) (name : Bytes) (port : Int) : Prop :=
  ∀ r : HttpRequest,
    (readyRequest c (r.setField (bytes "Host") (name ++ 58 :: decimal port)) port).toOption =
      (readyRequest c (r.setField (bytes "Host") name) port).toOption

theorem readyRequest_toOption (c : HttpdConfigure) (r : HttpRequest) (port : Int) :
    (readyRequest c r port).toOption = c.getHostPort r.sHost port := by
  rw [readyRequest]
  cases c.getHostPort r.sHost port <;> rfl

/-- The first host on the port has the name, and none has the other one. -/
def FirstBears (c : HttpdConfigure) (port : Int) (name other : Bytes) : Prop :=
  (∃ k host, c.First (port = ·.getPort) k ∧ c.aHosts[k]? = some host ∧ host.Bears name) ∧
    c.Nobody (·.Bears other)

theorem not_nobody_of_bears {host : HttpdHost} (hk : c.aHosts[k]? = some host)
    (h : host.Bears name) : ¬ c.Nobody (·.Bears name) :=
  fun hno => hno host (List.mem_of_getElem? hk) h

/-- The choice for a name that nobody has is the first host on the port. -/
theorem getHostPort_of_nobody (h : c.Nobody (·.Bears name)) :
    c.getHostPort name port = some k ↔ c.First (port = ·.getPort) k := by
  rw [← chosen_iff]
  constructor
  · intro hc
    cases hc with
    | both hf =>
      obtain ⟨⟨host, hk, -, hb⟩, -⟩ := hf
      exact absurd h (not_nobody_of_bears hk hb)
    | name _ hf =>
      obtain ⟨⟨host, hk, hb⟩, -⟩ := hf
      exact absurd h (not_nobody_of_bears hk hb)
    | port _ hf => exact hf
  · exact .port h

/-- A name that somebody has chooses one of those. -/
theorem getHostPort_of_somebody (port : Int) (h : ¬ c.Nobody (·.Bears name)) :
    ∃ k host, c.getHostPort name port = some k ∧ c.aHosts[k]? = some host ∧ host.Bears name := by
  have hc := chosen_iff.mpr (rfl : c.getHostPort name port = c.getHostPort name port)
  revert hc
  cases c.getHostPort name port with
  | none =>
    intro hc
    cases hc with
    | none hno => exact absurd hno h
  | some k =>
    intro hc
    cases hc with
    | both hf =>
      obtain ⟨⟨host, hk, -, hb⟩, -⟩ := hf
      exact ⟨k, host, rfl, hk, hb⟩
    | name _ hf =>
      obtain ⟨⟨host, hk, hb⟩, -⟩ := hf
      exact ⟨k, host, rfl, hk, hb⟩
    | port hno => exact absurd hno h

/-- One of two names is had by somebody: they choose the same when that is the first on the port. -/
theorem getHostPort_eq_iff (h : ¬ c.Nobody (·.Bears name)) (ho : c.Nobody (·.Bears other)) :
    c.getHostPort other port = c.getHostPort name port ↔ c.FirstBears port name other := by
  obtain ⟨k, host, hget, hk, hb⟩ := getHostPort_of_somebody port h
  constructor
  · intro heq
    rw [hget, getHostPort_of_nobody ho] at heq
    exact ⟨⟨k, host, heq, hk, hb⟩, ho⟩
  · rintro ⟨⟨k', host', hf, hk', hb'⟩, -⟩
    rw [(getHostPort_of_nobody ho).mpr hf, eq_comm, ← chosen_iff]
    obtain ⟨⟨host'', hk'', hport⟩, hbefore⟩ := hf
    refine .both ⟨⟨host', hk', ?_, hb'⟩, fun j hj host hhost hboth => ?_⟩
    · rw [Option.some.inj (hk'.symm.trans hk'')]
      exact hport
    · exact hbefore j hj host hhost hboth.1

/-- Two names of different lengths choose the same when neither is had by somebody, or one of them
is and the first host on the port is its. -/
theorem chosen_same_iff (hlen : name.length ≠ other.length) :
    c.getHostPort other port = c.getHostPort name port ↔
      (c.Nobody (·.Bears name) ∧ c.Nobody (·.Bears other)) ∨ c.FirstBears port name other ∨
        c.FirstBears port other name := by
  have hsome : ∀ {a b}, c.FirstBears port a b → ¬ c.Nobody (·.Bears a) := by
    rintro a b ⟨⟨k, host, -, hk, hb⟩, -⟩
    exact not_nobody_of_bears hk hb
  by_cases hn : c.Nobody (·.Bears name) <;> by_cases ho : c.Nobody (·.Bears other)
  · -- the port decides for both
    refine iff_of_true (Option.ext fun k => ?_) (.inl ⟨hn, ho⟩)
    rw [getHostPort_of_nobody hn, getHostPort_of_nobody ho]
  · rw [eq_comm, getHostPort_eq_iff ho hn]
    exact ⟨fun h => .inr (.inr h), fun h => h.elim (fun h => absurd h.2 ho)
      fun h => h.resolve_left fun h => hsome h hn⟩
  · rw [getHostPort_eq_iff hn ho]
    exact ⟨fun h => .inr (.inl h), fun h => h.elim (fun h => absurd h.1 hn)
      fun h => h.resolve_right fun h => hsome h ho⟩
  · -- no host has both names
    refine iff_of_false ?_ ?_
    · obtain ⟨k, host, hget, hk, hb⟩ := getHostPort_of_somebody port hn
      obtain ⟨k', host', hget', hk', hb'⟩ := getHostPort_of_somebody port ho
      rw [hget, hget']
      rintro ⟨⟩
      cases hk.symm.trans hk'
      exact hlen ((length_eq_of_sameName hb).trans (length_eq_of_sameName hb').symm)
    · rintro (⟨h, -⟩ | h | h)
      · exact hn h
      · exact ho h.2
      · exact hn h.2

theorem headerMet_iff :
    HeaderMet c name port ↔
      (c.Nobody (·.Bears name) ∧ c.Nobody (·.Bears (name ++ 58 :: decimal port))) ∨
        c.FirstBears port name (name ++ 58 :: decimal port) ∨
          c.FirstBears port (name ++ 58 :: decimal port) name := by
  have hlen : name.length ≠ (name ++ 58 :: decimal port).length := by
    rw [List.length_append, List.length_cons]
    omega
  have hfield : ∀ (r : HttpRequest) v, (r.setField (bytes "Host") v).sHost = v := fun _ _ => rfl
  rw [← chosen_same_iff hlen]
  simp only [HeaderMet, readyRequest_toOption, hfield]
  exact ⟨fun h => h {}, fun h _ => h⟩

/-- When a text is met, and when a header with the port is one without. -/
theorem getHost_iff (c : HttpdConfigure) (h0 : 0 ∉ t) (name : Bytes) (port : Int) :
    (TextMet c t ↔ 58 ∉ t ∨ Int.bmod (nameOf t).length (2 ^ 32) = -1 ∧
      ∃ r, Chosen c t 80 r ∧ Chosen c (nameOf t) (portOf t) r) ∧
    (HeaderMet c name port ↔
      (c.Nobody (·.Bears name) ∧ c.Nobody (·.Bears (name ++ 58 :: decimal port))) ∨
        c.FirstBears port name (name ++ 58 :: decimal port) ∨
          c.FirstBears port (name ++ 58 :: decimal port) name) :=
  ⟨textMet_iff h0, headerMet_iff⟩

def twoHosts : HttpdConfigure where
  aHosts := [{ serverSocket := some 8080, sHost := bytes "a.org" },
    { serverSocket := some 8080, sHost := bytes "b.org" }]

/-- The text without a colon is met, and the header of the first host. -/
theorem getHost_iff_twoHosts :
    TextMet twoHosts (bytes "b.org") ∧ HeaderMet twoHosts (bytes "a.org") 8080 := by
  obtain ⟨htext, hheader⟩ := getHost_iff twoHosts (by decide : 0 ∉ bytes "b.org") (bytes "a.org") 8080
  have hnobody : twoHosts.Nobody (·.Bears (bytes "a.org" ++ 58 :: decimal 8080)) := by
    simp only [Nobody, twoHosts, List.forall_mem_cons, HttpdHost.Bears]
    decide
  have hfirst : twoHosts.First ((8080 : Int) = ·.getPort) 0 :=
    ⟨⟨_, rfl, rfl⟩, fun j hj => absurd hj (Nat.not_lt_zero j)⟩
  exact ⟨htext.mpr (.inl (by decide)), hheader.mpr (.inr (.inl ⟨⟨0, _, hfirst, rfl, rfl⟩, hnobody⟩))⟩

/-- The text is emptied, and the header with the port is served by the other host. -/
theorem not_getHost :
    ¬ TextMet twoHosts (bytes "b.org:8080") ∧ ¬ HeaderMet twoHosts (bytes "b.org") 8080 := by
  constructor
  · rintro ⟨r, t', hget, -, rfl⟩
    have hempty : twoHosts.getHost (bytes "b.org:8080") = some (some 1, []) := by decide
    rw [hempty] at hget
    cases hget
  · intro h
    have hport : decimal 8080 = bytes "8080" := by decide
    have hsame := h {}
    rw [readyRequest_toOption, readyRequest_toOption, hport] at hsame
    revert hsame
    decide

end HttpdConfigure

end Dframework
