import Mathlib
import Dframework.Lang.Number
import Dframework.Util.Regexp

/-!
# `URI`

`parse` splits a text with two expressions, takes the groups out of the match with
index arithmetic, and cuts host and path by hand. `toString` puts the fields
together again.

`none` as a result stands for a read or a copy outside the memory of a string. The indexes of
separators are `int`s, so those of texts of 2 GB may be wrong, or negative.
-/

namespace Dframework

open CLib Pattern

structure Uri where
  uri : Bytes := []
  scheme : Bytes := []
  host : Bytes := []
  port : Int := 0
  user : Bytes := []
  pass : Bytes := []
  path : Bytes := []
  query : Bytes := []
  fragment : Bytes := []
  deriving DecidableEq, Repr

/-- `\S`. -/
def nonSpace (c : UInt8) : Bool := !isspace c

/-- `^([\S]+?)://([\s\S]*)$`. -/
def schemeExp : Regexp where
  pieces := [few nonSpace 1, lit 58, lit 47, lit 47, many (fun _ => true) 0]
  groups := [(0, 1), (4, 5)]

/-- `^([\S]*?)([/]{1})([\s\S]*)`. -/
def hostExp : Regexp where
  pieces := [few nonSpace 0, lit 47, many (fun _ => true) 0]
  groups := [(0, 1), (1, 2), (2, 3)]

/-- `URI::___parse_HP_FileScheme`: the host and the path it leaves. The path of a
network scheme is taken together with the byte in front of the group. -/
def Uri.parseHpFileScheme (u : Uri) (m : Match) (last : Nat) (str : Option Bytes)
    (host slash : Bytes) : Option (Bytes × Bytes) :=
  let len := m.getMatchLength last
  if equals u.scheme (bytes "file") then do
    let path ←
      if len = 0 then some []
      else
        match m.getMatch last, str, m.getOffset 3 with
        | some p, _, _ => setChars (some p) len
        | none, some str, some off =>
          let off := if slash = [] then off else off + 1
          if off ≤ str.length then some (cstr (str.drop off)) else none
        | none, _, _ => none
    some ([], cstr host ++ cstr slash ++ cstr path)
  else if len = 0 then some (host, [])
  else
    match m.getMatch last, m.start last with
    | some _, some (o + 1) => (setChars (some (m.value.drop o)) (len + 1)).map (host, ·)
    | _, _ => none

/-- `URI::___parse_host`. A negative index is in front of the string, where the port is read. -/
def Uri.parseHost (u : Uri) (str : Option Bytes) : Option Uri :=
  match str with
  | none => some { u with host := [] }
  | some s =>
    if s.head? = some 47 then some u
    else
      let index := lastIndexOf s 58
      if index = -1 then some { u with host := cstr s }
      else if index < 0 then none
      else
        some { u with
          host := s.take index.toNat
          port := parseInt (toChars (cstr (s.drop (index.toNat + 1)))) }

/-- What `URI::___parse_path` makes of the string `p` behind the `?`. The memory goes on to the NUL
that ends the string. A negative index is a length that no allocation can hold, so that query and
fragment stay empty. -/
def Uri.parseQuery (u : Uri) (p : Bytes) : Option Uri :=
  let index2 := indexOf p [35]
  if index2 = -1 then some { u with query := cstr p }
  else if index2 < 0 then some { u with query := [], fragment := [] }
  else do
    let fragment ← setChars (some (p ++ [0])) (index2.toNat + index2.toNat + 1)
    some { u with query := p.take index2.toNat, fragment }

/-- `URI::___parse_path` of a string. A negative index is in front of the string, where the query
is read. -/
def Uri.parsePath (u : Uri) (str : Bytes) : Option Uri :=
  let index := indexOf str [63]
  if index = -1 then some { u with path := cstr str }
  else if index < 0 then none
  else ({ u with path := str.take index.toNat } : Uri).parseQuery (str.drop (index.toNat + 1))

def Uri.parseHp (u : Uri) (m : Match) (str : Option Bytes) : Option Uri := do
  let host ← m.getMatchString 1
  let slash := if m.getMatchLength 2 = 0 then [] else [47]
  let (host, path) ← u.parseHpFileScheme m 3 str host slash
  let u ← u.parseHost (toChars host)
  u.parsePath path

/-- `URI::___parseHostAndPath`: a text without `/` is tried again with one behind it. -/
def Uri.parseHostAndPath (u : Uri) (hp : Option Bytes) : Option (Retval × Uri) :=
  match hostExp.regexp hp with
  | .ok m => (u.parseHp m hp).map (none, ·)
  | .error _ =>
    match hostExp.regexp (some (cstr (hp.getD []) ++ [47])) with
    | .ok m => (u.parseHp m hp).map (none, ·)
    | .error e => some (some e, u)

def Uri.parse (uri : Bytes) : Option (Retval × Uri) :=
  let u : Uri := { uri := trim (cstr uri) }
  if u.uri = [] then some (retval .eInval, u)
  else
    match schemeExp.regexp (toChars u.uri) with
    | .ok m => do
      let scheme ← m.getMatchString 1
      let hp ← m.getMatchString 2
      ({ u with scheme }).parseHostAndPath (toChars hp)
    | .error _ => ({ u with scheme := bytes "file" }).parseHostAndPath (toChars u.uri)

def Uri.toString (u : Uri) : Bytes :=
  (if u.scheme = [] then [] else cstr u.scheme ++ bytes "://") ++
  u.user ++
  (if u.pass = [] then [] else bytes ":****") ++
  (if u.user = [] ∧ u.pass = [] then [] else [64]) ++
  u.host ++
  (if u.port = 0 then [] else 58 :: decimal u.port) ++
  u.path ++
  (if u.query = [] then [] else 63 :: cstr u.query) ++
  (if u.fragment = [] then [] else 35 :: cstr u.fragment)

end Dframework
