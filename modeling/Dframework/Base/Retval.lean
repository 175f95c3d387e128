import Mathlib

/-!
# Return values

A function of the source answers `NULL` when all went well and otherwise a
`Retval` with the number of what happened and a text.
-/

namespace Dframework

/-- The numbers of `dfw_retno_t` that the modelled functions answer or test. -/
inductive Retno where
  | ok
  | tChunkedEnd
  | tContinue
  | tReconnect
  | error
  | eIntr
  | eAgain
  | ePipe
  | eTimeout
  | eInval
  | eNomem
  | eNoent
  | eIsdir
  | eNosupport
  | eStat
  | eOpen
  | eHttpChunked
  | eDisconnect
  | eHttpRequest
  | eRecv
  | eWrite
  | eConnreset
  | eRegexpNotPattern
  | eRegexpNotMatch
  | eNotCacheHost
  | eNoHttpAuthType
  | eNoWwwAuthenticate
  | eHttpauth
  | eHostname
  | eHostNotFound
  | eMaxRequestcount
  | eNotfindlocation
  deriving DecidableEq, Repr

/-- The object behind a `sp<Retval>` that is not `NULL`. -/
structure Ret where
  value : Retno
  message : String := ""
  deriving DecidableEq, Repr

/-- `sp<Retval>`: `none` is `NULL`. -/
abbrev Retval := Option Ret

/-- `DFW_RETVAL_NEW(value, 0)`. -/
def retval (value : Retno) : Retval :=
  some { value }

/-- `DFW_RETVAL_NEW_MSG(value, 0, message)`. -/
def retvalMsg (value : Retno) (message : String) : Retval :=
  some { value, message }

@[simp] theorem retval_ne_none (v : Retno) : retval v ≠ none :=
  Option.some_ne_none _

@[simp] theorem retvalMsg_ne_none (v : Retno) (m : String) : retvalMsg v m ≠ none :=
  Option.some_ne_none _

@[simp] theorem retval_inj {v w : Retno} : retval v = retval w ↔ v = w := by
  simp [retval]

end Dframework
