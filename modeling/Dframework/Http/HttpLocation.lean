import Mathlib
import Dframework.Net.UriFront
import Dframework.Http.MakeClientBuffer

/-!
# Following a `Location`

`HttpLocation::parse` makes the URI of the next request out of the one before and the text of the
header field, `HttpRound::ready` takes it over, and `request_real` connects anew when the host or
the port is another one. `Hostname::get` is a parameter.

Results:
1. `HttpRound.ready_roundUri`: what a round can rely on of its URI.
2. `redirect_slash`, `redirect_same`, `redirect_other`, `redirect_relative`: what the three kinds
   of texts lead to, one with `http://` to the same server or to another one.
-/

namespace Dframework

open CLib

/-- `Hostname::get`: the addresses of the host of a URI. -/
abbrev HostLookup := Uri → Except Ret (List Bytes)

/-- `HttpLocation::parse`: its value, and `outUri`, which the caller hands over empty. `orgip` is
the address the connection goes to. -/
def HttpLocation.parse (lookup : HostLookup) (orgUri : Uri) (sLocation orgip : Bytes) :
    Option (Retval × Uri) :=
  if sLocation = [] then some (retval .eNotfindlocation, {})
  else if sLocation.head? = some 47 then some (none, { orgUri with path := cstr sLocation })
  else if indexOf sLocation (bytes "http://") = 0 then do
    let (_, test) ← Uri.parse sLocation
    let sameHost ← equalsChars test.host (toChars orgUri.host)
    if sameHost && decide (test.getPort = orgUri.getPort) then
      some (none, { orgUri with
        path := cstr test.path
        query := cstr test.query
        fragment := cstr test.fragment })
    else
      match lookup test with
      | .error r => some (some r, {})
      | .ok [] => some (retval .eHostNotFound, {})
      | .ok ips =>
        let samip := ips.any fun ip => equals ip orgip
        if !samip || decide (test.getPort ≠ orgUri.getPort) then
          some (retval .tReconnect, test)
        else some (none, test)
  else
    let index := lastIndexOf orgUri.path 47
    if index = -1 then some (retval .error, {})
    else do
      let npath ← append [] orgUri.path (toSizeT (index + 1))
      some (none, { path := cstr (npath ++ sLocation) })

/-- The defaults that `HttpRound::parseUri` puts in. -/
def HttpRound.withDefaults (uri : Uri) : Uri :=
  let uri := { uri with scheme := if uri.scheme = [] then bytes "http" else uri.scheme }
  let uri := { uri with port := if uri.getPort = 0 then 80 else uri.port }
  { uri with path := if uri.path = [] then bytes "/" else uri.path }

/-- `HttpRound::ready`: `m_oUri` of the round, or the failure. -/
def HttpRound.ready (lookup : HostLookup) (uri : Uri) : Except Ret Uri :=
  if uri.host = [] then .error { value := .eHostname }
  else
    match lookup (HttpRound.withDefaults uri) with
    | .error r => .error r
    | .ok [] => .error { value := .eHostNotFound }
    | .ok _ => .ok (HttpRound.withDefaults uri)

/-- The port that `request_real` compares. -/
def Uri.comparedPort (u : Uri) : Int :=
  if u.getPort = 0 then 80 else u.getPort

/-- The branch of `HttpConnection::request_real` for a redirect: the URI of the next round, and
whether it is connected anew. -/
def redirect (lookup : HostLookup) (orgUri : Uri) (sLocation orgip : Bytes) :
    Option (Except Ret (Uri × Bool)) := do
  let (value, reUri) ← HttpLocation.parse lookup orgUri sLocation orgip
  match value.filter fun r => decide (r.value ≠ .tReconnect) with
  | some r => some (.error r)
  | none =>
    some ((HttpRound.ready lookup reUri).map fun uri =>
      (uri, !equals reUri.host orgUri.host || decide (reUri.comparedPort ≠ orgUri.comparedPort)))

/-- What `HttpRound::ready` sees to, with the strings that C strings can be. -/
structure RoundUri (u : Uri) : Prop where
  scheme_ne : u.scheme ≠ []
  host_ne : u.host ≠ []
  path_ne : u.path ≠ []
  port_ne : u.getPort ≠ 0
  host_chars : (0 : UInt8) ∉ u.host

def Resolves (lookup : HostLookup) : Prop :=
  ∀ u, ∃ ip ips, lookup u = .ok (ip :: ips)

variable {lookup : HostLookup} {base u : Uri} {loc orgip : Bytes}

/-! ## The round -/

/-- The defaults of a URI with scheme, host and port. -/
theorem withDefaults_of_ne (hscheme : u.scheme ≠ []) (hport : u.getPort ≠ 0) :
    HttpRound.withDefaults u = { u with path := if u.path = [] then bytes "/" else u.path } := by
  have hport' : ¬ ({ u with scheme := u.scheme } : Uri).getPort = 0 := hport
  rw [HttpRound.withDefaults]
  simp only [if_neg hscheme, if_neg hport']

theorem withDefaults_port (u : Uri) : (HttpRound.withDefaults u).getPort ≠ 0 := by
  have hport : ∀ v : Uri, Uri.getPort { v with port := if v.getPort = 0 then 80 else v.port } ≠ 0 := by
    intro v
    by_cases h : v.getPort = 0
    · have h80 : Uri.getPort { v with port := 80 } = 80 := rfl
      rw [if_pos h, h80]
      decide
    · rw [if_neg h]
      exact h
  exact hport { u with scheme := if u.scheme = [] then bytes "http" else u.scheme }

theorem ready_of_host (hlookup : Resolves lookup) (hhost : u.host ≠ []) :
    HttpRound.ready lookup u = .ok (HttpRound.withDefaults u) := by
  obtain ⟨ip, ips, h⟩ := hlookup (HttpRound.withDefaults u)
  rw [HttpRound.ready, if_neg hhost, h]

theorem HttpRound.ready_roundUri {v : Uri} (hchars : (0 : UInt8) ∉ u.host)
    (h : HttpRound.ready lookup u = .ok v) : RoundUri v := by
  rw [HttpRound.ready] at h
  split at h
  next => cases h
  next hhost =>
    obtain rfl : HttpRound.withDefaults u = v := by
      split at h
      next => cases h
      next => cases h
      next => exact Except.ok.inj h
    refine ⟨?_, hhost, ?_, ?_, hchars⟩
    · show (if u.scheme = [] then bytes "http" else u.scheme) ≠ []
      split
      next => decide
      next h => exact h
    · show (if u.path = [] then bytes "/" else u.path) ≠ []
      split
      next => decide
      next h => exact h
    · exact withDefaults_port u

theorem comparedPort_of_ne (h : u.getPort ≠ 0) : u.comparedPort = u.getPort :=
  if_neg h

/-! ## The three kinds of texts -/

theorem redirect_nil : redirect lookup base [] orgip = some (.error ⟨.eNotfindlocation, ""⟩) := rfl

/-- A text with a slash in front replaces the path, and nothing else. -/
theorem redirect_slash (hlookup : Resolves lookup) (hbase : RoundUri base)
    (hloc : loc.head? = some 47) (h0 : (0 : UInt8) ∉ loc) :
    redirect lookup base loc orgip = some (.ok ({ base with path := loc }, false)) := by
  have hne : loc ≠ [] := by
    rintro rfl
    cases hloc
  have hparse : HttpLocation.parse lookup base loc orgip =
      some (none, { base with path := loc }) := by
    rw [HttpLocation.parse, if_neg hne, if_pos hloc, cstr_of_not_mem h0]
  have hready : HttpRound.ready lookup { base with path := loc } =
      .ok { base with path := loc } := by
    have hdefaults : HttpRound.withDefaults { base with path := loc } = { base with path := loc } := by
      rw [withDefaults_of_ne (u := { base with path := loc }) hbase.scheme_ne hbase.port_ne]
      simp only [if_neg hne]
    rw [ready_of_host (u := { base with path := loc }) hlookup hbase.host_ne, hdefaults]
  have hhost : equals base.host base.host = true := by
    rw [equals, if_neg hbase.host_ne]
    exact decide_eq_true rfl
  have hport : ({ base with path := loc } : Uri).comparedPort = base.comparedPort := rfl
  rw [redirect, hparse]
  simp only [Option.bind_eq_bind, Option.bind_some, Option.filter_none, hready, Except.map, hhost,
    hport]
  simp

section Http

variable {test : Uri} {r : Retval} (hslash : loc.head? ≠ some 47)
  (hhttp : indexOf loc (bytes "http://") = 0)

include hslash hhttp

theorem redirect_none (hparse : Uri.parse loc = none) : redirect lookup base loc orgip = none := by
  have hne : loc ≠ [] := by
    rintro rfl
    exact absurd hhttp (by decide)
  rw [redirect, HttpLocation.parse, if_neg hne, if_neg hslash, if_pos hhttp, hparse]
  rfl

/-- On the same host and port only path, query and fragment are taken. -/
theorem redirect_same (hlookup : Resolves lookup) (hbase : RoundUri base)
    (hparse : Uri.parse loc = some (r, test)) (hhost : equals test.host base.host = true)
    (hport : test.getPort = base.getPort) (hpath : (0 : UInt8) ∉ test.path)
    (hquery : (0 : UInt8) ∉ test.query) :
    redirect lookup base loc orgip = some (.ok ({ base with
      path := if test.path = [] then bytes "/" else test.path
      query := test.query
      fragment := cstr test.fragment }, false)) := by
  have hne : loc ≠ [] := by
    rintro rfl
    exact absurd hhttp (by decide)
  have hlocation : HttpLocation.parse lookup base loc orgip = some (none, { base with
      path := test.path
      query := test.query
      fragment := cstr test.fragment }) := by
    rw [HttpLocation.parse, if_neg hne, if_neg hslash, if_pos hhttp, hparse]
    simp only [Option.bind_eq_bind, Option.bind_some, toChars_of_ne_nil hbase.host_ne, equalsChars,
      hhost, hport, cstr_of_not_mem hpath, cstr_of_not_mem hquery, decide_true, Bool.and_self,
      if_true]
  set reUri : Uri := { base with
    path := test.path
    query := test.query
    fragment := cstr test.fragment } with hre
  have hready : HttpRound.ready lookup reUri = .ok { reUri with
      path := if test.path = [] then bytes "/" else test.path } := by
    rw [ready_of_host (u := reUri) hlookup hbase.host_ne,
      withDefaults_of_ne (u := reUri) hbase.scheme_ne hbase.port_ne]
  have hsame : equals reUri.host base.host = true := by
    rw [equals, if_neg (show reUri.host ≠ [] from hbase.host_ne)]
    exact decide_eq_true rfl
  have hcompared : reUri.comparedPort = base.comparedPort := rfl
  rw [redirect, hlocation]
  simp only [Option.bind_eq_bind, Option.bind_some, Option.filter_none, hready, Except.map, hsame,
    hcompared]
  simp [hre]

/-- Another host or port is taken with all the rest, and connected anew. -/
theorem redirect_other (hlookup : Resolves lookup) (hbase : RoundUri base)
    (hparse : Uri.parse loc = some (r, test))
    (hother : ¬ (equals test.host base.host = true ∧ test.getPort = base.getPort))
    (hscheme : test.scheme ≠ []) (hport : test.getPort ≠ 0) (hhost : test.host ≠ []) :
    redirect lookup base loc orgip = some (.ok ({ test with
      path := if test.path = [] then bytes "/" else test.path }, true)) := by
  have hne : loc ≠ [] := by
    rintro rfl
    exact absurd hhttp (by decide)
  obtain ⟨ip, ips, hips⟩ := hlookup test
  have hsame : (equals test.host base.host && decide (test.getPort = base.getPort)) = false := by
    simpa [Bool.and_eq_false_iff, ← not_and_or] using hother
  obtain ⟨value, hlocation, hvalue⟩ : ∃ value,
      HttpLocation.parse lookup base loc orgip = some (value, test) ∧
        (value.filter fun r => decide (r.value ≠ .tReconnect)) = none := by
    rw [HttpLocation.parse, if_neg hne, if_neg hslash, if_pos hhttp, hparse]
    simp only [Option.bind_eq_bind, Option.bind_some, toChars_of_ne_nil hbase.host_ne, equalsChars,
      hsame, Bool.false_eq_true, if_false, hips]
    split
    next => exact ⟨_, rfl, rfl⟩
    next => exact ⟨_, rfl, rfl⟩
  have hready : HttpRound.ready lookup test = .ok { test with
      path := if test.path = [] then bytes "/" else test.path } := by
    rw [ready_of_host hlookup hhost, withDefaults_of_ne hscheme hport]
  have hanew : (!equals test.host base.host ||
      decide (test.comparedPort ≠ base.comparedPort)) = true := by
    rw [comparedPort_of_ne hport, comparedPort_of_ne hbase.port_ne]
    simpa [← Bool.not_eq_true, imp_iff_not_or] using fun h => hother h
  rw [redirect, hlocation]
  simp only [Option.bind_eq_bind, Option.bind_some, hvalue, hready, Except.map, hanew]

/-- Without a host there is no round. -/
theorem redirect_hostless (hlookup : Resolves lookup) (hbase : RoundUri base)
    (hparse : Uri.parse loc = some (r, test)) (hhost : test.host = []) :
    ∃ e, redirect lookup base loc orgip = some (.error e) := by
  have hne : loc ≠ [] := by
    rintro rfl
    exact absurd hhttp (by decide)
  obtain ⟨ip, ips, hips⟩ := hlookup test
  have hsame : equals test.host base.host = false := by
    rw [hhost, equals, if_pos rfl]
    exact decide_eq_false hbase.host_ne
  have hready : HttpRound.ready lookup test = .error ⟨.eHostname, ""⟩ := if_pos hhost
  rw [redirect, HttpLocation.parse, if_neg hne, if_neg hslash, if_pos hhttp, hparse]
  simp only [Option.bind_eq_bind, Option.bind_some, toChars_of_ne_nil hbase.host_ne, equalsChars,
    hsame, Bool.false_and, Bool.false_eq_true, if_false, hips]
  split
  next => exact ⟨_, by simp [retval, hready, Except.map]; rfl⟩
  next => exact ⟨_, by simp [hready, Except.map]; rfl⟩

end Http

/-- A text with neither a slash nor `http://` in front leads nowhere. -/
theorem redirect_relative (hloc : loc.head? ≠ some 47)
    (hhttp : indexOf loc (bytes "http://") ≠ 0) :
    redirect lookup base loc orgip = none ∨
      ∃ r, redirect lookup base loc orgip = some (.error r) := by
  by_cases hnil : loc = []
  · exact .inr ⟨_, hnil ▸ redirect_nil⟩
  rw [redirect, HttpLocation.parse, if_neg hnil, if_neg hloc, if_neg hhttp]
  by_cases hnone : lastIndexOf base.path 47 = -1
  · simp only [hnone, if_true]
    exact .inr ⟨_, rfl⟩
  · simp only [if_neg hnone]
    cases append [] base.path (toSizeT (lastIndexOf base.path 47 + 1)) with
    | none => exact .inl rfl
    | some npath => exact .inr ⟨_, rfl⟩

end Dframework
