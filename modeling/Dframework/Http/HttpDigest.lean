import Mathlib
import Dframework.Base.Retval
import Dframework.Http.Header
import Dframework.Library.Loop
import Dframework.Util.MD5

/-!
# `HttpDigest` and the loop of `HttpBasic`

A challenge is a list of directives `name="value"`. Three loops look for the ones they know: that of
`HttpDigest::makeAuthorization`, that of `HttpDigest::getAuthenticationInfo` and that of
`HttpBasic::makeAuthorization`. They differ in the names alone.

A position is an offset into the C string the loop starts from. `none` stands for a run that reads
behind the terminator, has a length that is no `int`, follows `NULL` or hashes memory that nothing
has written.
-/

namespace Dframework

namespace HttpDigest

open CLib Loop

/-! ## The loops -/

def asInt (n : Nat) : Option Nat :=
  if n < 2 ^ 31 then some n else none

/-- `test`: what `out` is set to, and `*o_len`. A negative length is a size that no memory has. -/
def test (text : Bytes) (str slen pre : Nat) : Option (Bytes × Nat) := do
  guard (str + pre ≤ text.length)
  let len ← asInt (text.length - (str + pre))
  guard (pre ≤ slen)
  let v := (text.drop (str + pre)).take (min len (slen - pre))
  if v.length ≤ 2 then return (v, pre + v.length)
  else if v.head? ≠ some 34 ∨ v.getLast? ≠ some 34 then return (v, pre + v.length)
  else
    let o_len ← asInt (pre + v.length + 2)
    return ((v.drop 1).take (v.length - 2), o_len)

/-- `0 == strncasecmp(name, temp, n)`, for a lower case name of `n` bytes. -/
def startsName (name temp : Bytes) : Bool :=
  (temp.take name.length).map tolower = name

/-- The blanks a loop skips. -/
def isBlankOrTab (c : UInt8) : Bool :=
  c == 32 || c == 9

/-- The pointer of a loop, and what was found so far under each name. -/
structure Scan where
  pos : Nat
  fields : Bytes → Bytes

/-- One pass of a loop that looks for `names`. Behind a name stands one more byte. -/
def scanRound (names : List Bytes) (text : Bytes) (s : Scan) : Round Scan (Option Scan) :=
  if text.length < s.pos then .done none
  else
    let rest := text.drop s.pos
    let comma := Search.find [44] rest
    let templen := comma.getD rest.length
    let temp := s.pos + (rest.takeWhile isBlankOrTab).length
    match names.find? fun name => startsName name (text.drop temp) with
    | some name =>
      match asInt templen >>= fun templen => test text temp templen (name.length + 1) with
      | none => .done none
      | some (v, olen) =>
        let s' : Scan := ⟨s.pos + olen, Function.update s.fields name v⟩
        if comma = none ∨ olen = 0 then .done (some s') else .next s'
    | none =>
      match comma with
      | none => .done (some s)
      | some templen =>
        match asInt (templen + 2) with
        | none => .done none
        | some olen => .next { s with pos := s.pos + olen }

/-- A loop from the start of its text. -/
def scan (names : List Bytes) (text : Bytes) (fields : Bytes → Bytes) : Option Scan :=
  match run (scanRound names text) (text.length + 2) ⟨0, fields⟩ with
  | some (some s) => some s
  | _ => none

/-- `strcasestr`, and the text behind what it found. -/
def behindScheme (scheme value : Bytes) : Option Bytes :=
  (Search.find (scheme.map tolower) ((cstr value).map tolower)).map fun i =>
    (cstr value).drop (i + scheme.length)

/-- The names `HttpDigest::makeAuthorization` looks for. -/
def names : List Bytes :=
  [bytes "realm", bytes "nonce", bytes "algorithm", bytes "qop"]

/-- The names `HttpDigest::getAuthenticationInfo` looks for. -/
def infoNames : List Bytes :=
  [bytes "rspauth", bytes "cnonce", bytes "nc", bytes "qop"]

/-- The fields of `dfw_httpdigest_t` that the loop fills and the answer is made from. -/
structure Challenge where
  realm : Bytes
  nonce : Bytes
  algorithm : Bytes
  qop : Bytes
  deriving DecidableEq, Repr

/-- The challenge a loop of `HttpDigest::makeAuthorization` leaves. -/
def Scan.challenge (s : Scan) : Challenge where
  realm := s.fields (bytes "realm")
  nonce := s.fields (bytes "nonce")
  algorithm := s.fields (bytes "algorithm")
  qop := s.fields (bytes "qop")

/-- `dfw_httpauth_t`. -/
structure AuthInfo where
  rspauth : Bytes
  cnonce : Bytes
  nc : Bytes
  qop : Bytes
  unc : Nat
  deriving DecidableEq, Repr

/-- What `ctx` holds under each name. -/
def AuthInfo.fields (ctx : AuthInfo) (name : Bytes) : Bytes :=
  if name = bytes "rspauth" then ctx.rspauth
  else if name = bytes "cnonce" then ctx.cnonce
  else if name = bytes "nc" then ctx.nc
  else if name = bytes "qop" then ctx.qop
  else []

def getAuthenticationInfo (value : Bytes) (ctx : AuthInfo) : Option AuthInfo := do
  let s ← scan infoNames (cstr value) ctx.fields
  return {
    rspauth := s.fields (bytes "rspauth")
    cnonce := s.fields (bytes "cnonce")
    nc := s.fields (bytes "nc")
    qop := s.fields (bytes "qop")
    unc := toSizeT (parseLong (toChars (s.fields (bytes "nc")))) }

/-! ## The answer -/

/-- `MD5::init`, `MD5::update` of some chunks and `MD5::finalization`. `block` is what the buffer of
the context holds. -/
def md5 (block : Bytes) (chunks : List Bytes) : Option Bytes :=
  (chunks.foldlM MD5.update (MD5.init block)).bind MD5.finalization

def hexDigit (j : UInt8) : UInt8 :=
  if j ≤ 9 then j + 48 else j + 97 - 10

def cvtHex (bin : Bytes) : Bytes :=
  bin.flatMap fun (b : UInt8) => [hexDigit ((b >>> 4) &&& 0xf), hexDigit (b &&& 0xf)]

/-- `DigestCalcHA1`. The buffers are taken by the order in which contexts are started. -/
def digestCalcHA1 (block : Nat → Bytes)
    (pszAlg pszUserName pszRealm pszPassword pszNonce pszCNonce : Option Bytes) :
    Option Bytes := do
  let user ← pszUserName
  let realm ← pszRealm
  let password ← pszPassword
  let HA1 ← md5 (block 0) [cstr user, [58], cstr realm, [58], cstr password]
  let alg ← pszAlg
  if cstr alg = bytes "md5-sess" then
    let nonce ← pszNonce
    let cnonce ← pszCNonce
    let HA1 ← md5 (block 1) [HA1, [58], cstr nonce, [58], cstr cnonce]
    return cvtHex HA1
  else
    return cvtHex HA1

/-- `DigestCalcResponse`. The hash of the entity is `none` where nothing has written it. -/
def digestCalcResponse (block : Nat → Bytes) (HA1 : Bytes)
    (pszNonce pszNonceCount pszCNonce pszQop pszMethod pszDigestUri HEntity : Option Bytes) :
    Option Bytes := do
  let method ← pszMethod
  let uri ← pszDigestUri
  let qop ← pszQop
  let A2 := [cstr method, [58], cstr uri]
  let HA2 ← if cstr qop = bytes "auth-int" then
      HEntity.bind fun entity => md5 (block 2) (A2 ++ [[58], entity])
    else md5 (block 2) A2
  let nonce ← pszNonce
  if cstr qop ≠ [] then
    let nc ← pszNonceCount
    let cnonce ← pszCNonce
    let RespHash ← md5 (block 3) [HA1, [58], cstr nonce, [58], cstr nc, [58], cstr cnonce, [58],
      cstr qop, [58], cvtHex HA2]
    return cvtHex RespHash
  else
    let RespHash ← md5 (block 3) [HA1, [58], cstr nonce, [58], cvtHex HA2]
    return cvtHex RespHash

/-- The values of an `Authorization` header. -/
structure Authorization where
  username : Bytes
  realm : Bytes
  qop : Bytes
  algorithm : Bytes
  uri : Bytes
  nonce : Bytes
  nc : Bytes
  cnonce : Bytes
  response : Bytes
  deriving DecidableEq, Repr

def Authorization.text (a : Authorization) : Bytes :=
  bytes "Digest " ++
  bytes "username=\"" ++ a.username ++ bytes "\", " ++
  bytes "realm=\"" ++ a.realm ++ bytes "\", " ++
  bytes "qop=\"" ++ a.qop ++ bytes "\", " ++
  bytes "algorithm=\"" ++ a.algorithm ++ bytes "\", " ++
  bytes "uri=\"" ++ a.uri ++ bytes "\", " ++
  bytes "nonce=\"" ++ a.nonce ++ bytes "\", " ++
  bytes "nc=" ++ a.nc ++ bytes ", " ++
  bytes "cnonce=\"" ++ a.cnonce ++ bytes "\", " ++
  bytes "response=\"" ++ a.response ++ bytes "\""

/-- What `makeAuthorization` makes of a challenge. -/
def authorization (block : Nat → Bytes) (ctx : Challenge) (sUser sPass m_sMethod m_sPath : Bytes) :
    Option Authorization := do
  -- `String::format("%08d", 1)`
  let nc := bytes "00000001"
  let cnonce := bytes "0a4f113b"
  let HA1 ← digestCalcHA1 block (toChars ctx.algorithm) (toChars sUser) (toChars ctx.realm)
    (toChars sPass) (toChars ctx.nonce) (toChars cnonce)
  let response ← digestCalcResponse block HA1 (toChars ctx.nonce) (toChars nc) (toChars cnonce)
    (toChars ctx.qop) (toChars m_sMethod) (toChars m_sPath) none
  return {
    username := printed sUser
    realm := printed ctx.realm
    qop := printed ctx.qop
    algorithm := bytes "MD5"
    uri := printed m_sPath
    nonce := printed ctx.nonce
    nc := printed nc
    cnonce := printed cnonce
    response := response }

/-- `HttpQuery::onAuth`: the user and the password the listener gives, and those of the first URI
when one of them is missing. -/
def onAuth (listener : Option (Retval × Bytes × Bytes)) (uri : Option (Bytes × Bytes)) :
    Except Ret (Bytes × Bytes) :=
  match listener with
  | some (some r, _) => .error r
  | _ =>
    let given := (listener.map Prod.snd).getD ([], [])
    let given := if given.1 = [] ∨ given.2 = [] then uri.getD given else given
    if given.1 = [] ∨ given.2 = [] then .error { value := .eHttpauth } else .ok given

/-- `makeAuthorization`: the headers of the request afterwards. -/
def makeAuthorization (block : Nat → Bytes) (responseHeader requestHeader : List NamedValue)
    (auth : Except Ret (Bytes × Bytes)) (m_sMethod m_sPath : Bytes) :
    Option (Retval × List NamedValue) :=
  match getHeader responseHeader (bytes "WWW-Authenticate") with
  | none => some (retval .eNoWwwAuthenticate, requestHeader)
  | some nv => do
    let value ← toChars nv.value
    match behindScheme (bytes "Digest ") value with
    | none => some (retval .eNoHttpAuthType, requestHeader)
    | some digest =>
      match auth with
      | .error r => some (some r, requestHeader)
      | .ok (sUser, sPass) =>
        let s ← scan names digest fun _ => []
        let a ← authorization block s.challenge sUser sPass m_sMethod m_sPath
        return (none, appendHeader requestHeader (bytes "Authorization") a.text)

end HttpDigest

/-- The names the loop of `HttpBasic::makeAuthorization` looks for. Its `test` is that of
`HttpDigest`. -/
def HttpBasic.names : List CLib.Bytes :=
  [CLib.bytes "realm"]

end Dframework
