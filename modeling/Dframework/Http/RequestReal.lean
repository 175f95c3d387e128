import Mathlib
import Dframework.Base.Retval
import Dframework.Library.Loop

/-!
# `HttpConnection::request_real`

One loop sends the request of a round, and sends that of a new round when the server asks for
another address or for authorization, and that of the same round again when the connection was
lost. What the functions it calls answer in a pass are its `Replies`; a run is given by its replies,
which are any.

Results:
1. `RequestReal.requestRound_cases`: what a pass can do.
2. `RequestReal.requestReal_bounded_iff`: for which maximum every run is bounded.
-/

namespace Dframework

open Loop

namespace RequestReal

/-- The status numbers after which the loop goes on. -/
def retryStatuses : List Int := [300, 301, 302, 303, 305, 307, 308, 401]

/-- What the called functions answer in one pass.
- `raw` is `request_raw`: the status it has read, or its failure and whether that came after
  the request was sent.
- `connect`, `response`, `auth`, `createRound`, `location` and `connectReal` are the values of
  the functions of that name.
- `bReconnect` tells whether the new address has another host or port. -/
structure Replies where
  raw : Except (Bool × Ret) Int
  connect : Retval := none
  response : Retval := none
  auth : Retval := none
  location : Retval := none
  createRound : Retval := none
  bReconnect : Bool := false
  connectReal : Retval := none

def Replies.sent (rep : Replies) : Bool :=
  match rep.raw with
  | .ok _ => true
  | .error (sent, _) => sent

/-- The counters of the loop, with how many passes were begun and requests sent. -/
structure Attempt where
  retry_count : Int
  retry_auth : Int
  passes : Nat
  requests : Nat
  deriving DecidableEq, Repr

/-- `n++` of an `int`, which goes on behind the greatest one with the least. -/
def inc (n : Int) : Int := Int.bmod (n + 1) (2 ^ 32)

/-- The counters behind the call of `request_raw`. -/
def Attempt.counted (a : Attempt) (rep : Replies) : Attempt :=
  { a with
    retry_count := inc a.retry_count
    passes := a.passes + 1
    requests := if rep.sent then a.requests + 1 else a.requests }

/-- The branch for a challenge. -/
def authRound (rep : Replies) (a : Attempt) : Round Attempt (Retval × Attempt) :=
  if a.retry_auth > 0 then .done (retval .eHttpauth, a)
  else
    match rep.auth, rep.createRound with
    | some r, _ => .done (some r, a)
    | none, some r => .done (some r, a)
    | none, none => .next { a with retry_auth := inc a.retry_auth }

/-- The branch for a redirect, behind `HttpLocation::parse`. -/
def redirectRound (rep : Replies) (a : Attempt) : Round Attempt (Retval × Attempt) :=
  match rep.createRound with
  | some r => .done (some r, a)
  | none =>
    match rep.bReconnect, rep.connectReal with
    | true, some r => .done (some r, a)
    | _, _ => .next a

/-- The pass behind the `switch`. -/
def retryRound (max status : Int) (rep : Replies) (a : Attempt) :
    Round Attempt (Retval × Attempt) :=
  match rep.response with
  | some r => .done (some r, a)
  | none =>
    if a.retry_count > max then .done (retval .eMaxRequestcount, a)
    else if status = 401 then authRound rep a
    else if 300 ≤ status ∧ status < 400 then
      match rep.location with
      | some r => if r.value ≠ .tReconnect then .done (some r, a) else redirectRound rep a
      | none => redirectRound rep a
    else .done (retval .eHttpRequest, a)

/-- One pass of the loop of `HttpConnection::request_real`. `max` is
`m_iMaxRetryRequestCount`. -/
def requestRound (max : Int) (onlyHead : Bool) (env : Nat → Replies) (a : Attempt) :
    Round Attempt (Retval × Attempt) :=
  let rep := env a.passes
  let a := a.counted rep
  match rep.raw with
  | .error (_, r) =>
    if a.retry_count > max then .done (some r, a)
    else if r.value = .ePipe then
      match rep.connect with
      | some _ => .done (some r, a)
      | none => .next a
    else .done (some r, a)
  | .ok status =>
    if status ∈ retryStatuses then
      if onlyHead then .done (none, a)
      else retryRound max status rep a
    else .done (none, a)

/-- The counters in front of the loop. -/
def Attempt.init : Attempt := ⟨0, 0, 0, 0⟩

/-- `HttpConnection::request_real` ends with `res`. -/
def Ends (max : Int) (onlyHead : Bool) (env : Nat → Replies) (res : Retval × Attempt) :
    Prop :=
  Returns (requestRound max onlyHead env) .init res

/-- The reply is neither a redirect that is followed nor a challenge. -/
def Replies.Settled (rep : Replies) : Prop :=
  ∃ status, rep.raw = .ok status ∧ status ∉ retryStatuses

/-- What a run is to keep to: the requests sent, the answers to challenges, and a success only
after a reply that settles the query. -/
structure Bounded (max : Int) (onlyHead : Bool) (env : Nat → Replies) (res : Retval × Attempt) :
    Prop where
  requests_le : (res.2.requests : Int) ≤ max + 1
  retry_auth_le : res.2.retry_auth ≤ 1
  settled : res.1 = none → onlyHead = true ∨ (env (res.2.passes - 1)).Settled

/-- Every run ends and keeps to it. -/
def AlwaysBounded (max : Int) : Prop :=
  ∀ env onlyHead, ∃ res, Ends max onlyHead env res ∧ Bounded max onlyHead env res

variable {max : Int} {onlyHead : Bool} {env : Nat → Replies} {a a' : Attempt}
  {res : Retval × Attempt}

/-! ## One pass -/

/-- A pass behind the `switch` ends with an error, or goes on with the maximum not passed, and
then answers no second challenge. -/
theorem retryRound_cases (max status : Int) (rep : Replies) (a : Attempt) :
    (∃ r, retryRound max status rep a = .done (some r, a)) ∨
      a.retry_count ≤ max ∧ (retryRound max status rep a = .next a ∨ a.retry_auth ≤ 0 ∧
        retryRound max status rep a = .next { a with retry_auth := inc a.retry_auth }) := by
  have hredirect : (∃ r, redirectRound rep a = .done (some r, a)) ∨
      redirectRound rep a = .next a := by
    rw [redirectRound]
    split
    next => exact .inl ⟨_, rfl⟩
    next =>
      split
      next => exact .inl ⟨_, rfl⟩
      next => exact .inr rfl
  rw [retryRound]
  split
  next => exact .inl ⟨_, rfl⟩
  next =>
    by_cases hmax : a.retry_count > max
    · exact .inl ⟨_, if_pos hmax⟩
    have hle := Int.not_lt.mp hmax
    rw [if_neg hmax]
    by_cases h401 : status = 401
    · rw [if_pos h401, authRound]
      by_cases hauth : a.retry_auth > 0
      · exact .inl ⟨_, if_pos hauth⟩
      · rw [if_neg hauth]
        split
        next => exact .inl ⟨_, rfl⟩
        next => exact .inl ⟨_, rfl⟩
        next => exact .inr ⟨hle, .inr ⟨Int.not_lt.mp hauth, rfl⟩⟩
    rw [if_neg h401]
    by_cases h300 : 300 ≤ status ∧ status < 400
    · rw [if_pos h300]
      split
      next r hloc =>
        by_cases hr : r.value ≠ .tReconnect
        · exact .inl ⟨_, if_pos hr⟩
        · rw [if_neg hr]
          exact hredirect.imp_right fun h => ⟨hle, .inl h⟩
      next => exact hredirect.imp_right fun h => ⟨hle, .inl h⟩
    · exact .inl ⟨_, if_neg h300⟩

/-- What a pass can do. -/
theorem requestRound_cases (max : Int) (onlyHead : Bool) (env : Nat → Replies) (a : Attempt) :
    (∃ r, requestRound max onlyHead env a = .done (r, a.counted (env a.passes)) ∧
        (r = none → onlyHead = true ∨ (env a.passes).Settled)) ∨
      (a.counted (env a.passes)).retry_count ≤ max ∧
        (requestRound max onlyHead env a = .next (a.counted (env a.passes)) ∨
          a.retry_auth ≤ 0 ∧ requestRound max onlyHead env a =
            .next { a.counted (env a.passes) with retry_auth := inc a.retry_auth }) := by
  rw [requestRound]
  split
  next sent r hraw =>
    by_cases hmax : (a.counted (env a.passes)).retry_count > max
    · exact .inl ⟨some r, if_pos hmax, by simp⟩
    rw [if_neg hmax]
    by_cases hpipe : r.value = .ePipe
    · rw [if_pos hpipe]
      split
      next => exact .inl ⟨some r, rfl, by simp⟩
      next => exact .inr ⟨Int.not_lt.mp hmax, .inl rfl⟩
    · exact .inl ⟨some r, if_neg hpipe, by simp⟩
  next status hraw =>
    by_cases hstatus : status ∈ retryStatuses
    · rw [if_pos hstatus]
      cases onlyHead with
      | true => exact .inl ⟨none, rfl, fun _ => .inl rfl⟩
      | false =>
        rcases retryRound_cases max status (env a.passes) (a.counted (env a.passes)) with
          ⟨r, hr⟩ | hnext
        · exact .inl ⟨some r, hr, by simp⟩
        · exact .inr hnext
    · exact .inl ⟨none, if_neg hstatus, fun _ => .inr ⟨status, hraw, hstatus⟩⟩

/-! ## All passes -/

/-- What holds in front of every pass: `retry_count` is the number of passes, and no more
requests were sent. -/
structure Counts (max : Int) (a : Attempt) : Prop where
  retry_count_eq : a.retry_count = a.passes
  passes_le : (a.passes : Int) ≤ max
  requests_le : a.requests ≤ a.passes
  retry_auth_nonneg : 0 ≤ a.retry_auth
  retry_auth_le : a.retry_auth ≤ 1

theorem Replies.requests_le (rep : Replies) (a : Attempt) :
    (a.counted rep).requests ≤ a.requests + 1 := by
  rw [Attempt.counted]
  split
  next => exact le_rfl
  next => exact Nat.le_succ _

theorem inc_of_lt {n : Int} (h0 : 0 ≤ n) (h : n < 2 ^ 31 - 1) : inc n = n + 1 :=
  Int.bmod_eq_of_le (by omega) (by omega)

/-- No counter overflows while the maximum is below the greatest `int`. -/
theorem Counts.counted (h : Counts max a) (hmax : max < 2 ^ 31 - 1) (rep : Replies) :
    (a.counted rep).retry_count = a.passes + 1 := by
  have hle := h.passes_le
  show inc a.retry_count = a.passes + 1
  rw [h.retry_count_eq, inc_of_lt (by omega) (by omega)]

theorem Counts.step (h : Counts max a) (hmax : max < 2 ^ 31 - 1)
    (hnext : requestRound max onlyHead env a = .next a') :
    Counts max a' ∧ a'.passes = a.passes + 1 := by
  have hcount := h.counted hmax (env a.passes)
  have hreq : (a.counted (env a.passes)).requests ≤ a.passes + 1 :=
    ((env a.passes).requests_le a).trans (Nat.succ_le_succ h.requests_le)
  rcases requestRound_cases max onlyHead env a with ⟨r, hr, -⟩ | ⟨hmax', hr | ⟨hauth, hr⟩⟩
  · rw [hr] at hnext
    cases hnext
  · obtain rfl := Round.next.inj (hr.symm.trans hnext)
    rw [hcount] at hmax'
    exact ⟨⟨hcount, hmax', hreq, h.retry_auth_nonneg, h.retry_auth_le⟩, rfl⟩
  · obtain rfl := Round.next.inj (hr.symm.trans hnext)
    rw [hcount] at hmax'
    have h0 : a.retry_auth = 0 := le_antisymm hauth h.retry_auth_nonneg
    refine ⟨⟨hcount, hmax', hreq, ?_, ?_⟩, rfl⟩
    · show 0 ≤ inc a.retry_auth
      rw [h0]
      decide
    · show inc a.retry_auth ≤ 1
      rw [h0]
      decide

theorem Counts.bounded (h : Counts max a) (hdone : requestRound max onlyHead env a = .done res) :
    Bounded max onlyHead env res := by
  rcases requestRound_cases max onlyHead env a with ⟨r, hr, hsettled⟩ | ⟨-, hr | ⟨-, hr⟩⟩
  · obtain rfl := Round.done.inj (hr.symm.trans hdone)
    refine ⟨?_, h.retry_auth_le, hsettled⟩
    have hreq := (env a.passes).requests_le a
    have hle := h.requests_le
    have hpasses := h.passes_le
    show ((a.counted (env a.passes)).requests : Int) ≤ max + 1
    omega
  · rw [hr] at hdone
    cases hdone
  · rw [hr] at hdone
    cases hdone

/-- With a maximum that is not negative, and not the greatest `int`, every run is bounded. -/
theorem alwaysBounded (h0 : 0 ≤ max) (hmax : max < 2 ^ 31 - 1) : AlwaysBounded max := by
  intro env onlyHead
  have hinit : Counts max .init := ⟨rfl, h0, le_rfl, le_rfl, by decide⟩
  have hends : ∃ res, Ends max onlyHead env res := by
    refine returns_of_measure (I := Counts max) (fun a => max.toNat - a.passes) hinit ?_
    intro a a' h hnext
    obtain ⟨h', hpasses⟩ := h.step hmax hnext
    have hle := h'.passes_le
    exact ⟨h', by omega⟩
  obtain ⟨res, hret⟩ := hends
  refine ⟨res, hret, ?_⟩
  refine hret.induct (P := fun a => Counts max a → Bounded max onlyHead env res) ?_ ?_ hinit
  · exact fun a hdone h => h.bounded hdone
  · exact fun a a' hnext _ ih h => ih (h.step hmax hnext).1

/-! ## The other maxima -/

/-- A server that always redirects, to where it is. -/
def redirects : Replies where
  raw := .ok 302

/-- No `int` is behind the greatest one, so that the endless redirects are followed. -/
theorem not_returns_of_intMax (hmax : 2 ^ 31 - 1 ≤ max) :
    ¬ Ends max false (fun _ => redirects) res := by
  refine not_returns_of_next fun a => ⟨a.counted redirects, ?_⟩
  have hlt : inc a.retry_count < 2 ^ 31 := Int.bmod_lt (by decide)
  have hle : ¬ (a.counted redirects).retry_count > max := by
    show ¬ inc a.retry_count > max
    omega
  show retryRound max 302 redirects (a.counted redirects) = _
  rw [retryRound]
  show ite _ _ _ = _
  rw [if_neg hle]
  rfl

/-- The first request is sent whatever the maximum. -/
theorem ends_of_ok (max : Int) :
    Ends max false (fun _ => ⟨.ok 200, none, none, none, none, none, false, none⟩)
      (none, ⟨1, 0, 1, 1⟩) :=
  returns_of_done rfl

/-- Every run of `request_real` is bounded exactly with a maximum that is not negative and not
the greatest `int`. -/
theorem requestReal_bounded_iff (max : Int) :
    AlwaysBounded max ↔ 0 ≤ max ∧ max < 2 ^ 31 - 1 := by
  constructor
  · intro h
    constructor
    · obtain ⟨res, hret, hbounded⟩ := h _ false
      obtain rfl := hret.unique (ends_of_ok max)
      have hle : (1 : Int) ≤ max + 1 := hbounded.requests_le
      omega
    · by_contra hmax
      obtain ⟨res, hret, -⟩ := h (fun _ => redirects) false
      exact not_returns_of_intMax (Int.not_lt.mp hmax) hret
  · exact fun h => alwaysBounded h.1 h.2

/-- With the greatest `int` as the maximum a run against a server that always redirects does
not end. -/
theorem not_requestReal_bounded : ¬ AlwaysBounded 2147483647 := by
  intro h
  obtain ⟨res, hret, -⟩ := h (fun _ => redirects) false
  exact not_returns_of_intMax le_rfl hret

end RequestReal

end Dframework
