import Mathlib
import Dframework.Base.Retval
import Dframework.Library.CLib

/-!
# The sending side of a socket

What a socket takes is up to the kernel: every `::send` takes some of the bytes it is
offered, has no room for any, or fails. `sendRaw` is `Socket::send_raw` on a socket that does
not block. What it hands over is the front of what it is given, and it reports nothing only
when that is all of it.
-/

namespace Dframework

open CLib

/-- What one `::send` does. An error has the number `Retval::errno_short` finds for it. -/
inductive Sending where
  | taken (n : Nat)
  | wouldBlock
  | failed (e : Retno)
  deriving DecidableEq, Repr

/-- `Socket::send_raw` of `data`: what has been handed over, and what is reported. A kernel
of which nothing more is known has no room. -/
def sendRaw : Bytes → List Sending → Bytes × Retval
  | [], _ => ([], none)
  | _ :: _, [] | _ :: _, .wouldBlock :: _ => ([], retval .eAgain)
  | _ :: _, .failed e :: _ => ([], retval e)
  | b :: bs, .taken n :: sends =>
    if n = 0 then ([], retval .eDisconnect)
    else
      let (more, ret) := sendRaw ((b :: bs).drop n) sends
      ((b :: bs).take n ++ more, ret)
termination_by structural _ sends => sends

/-- The bytes handed over are the front of the data. -/
theorem sendRaw_prefix (data : Bytes) (sends : List Sending) : (sendRaw data sends).1 <+: data := by
  induction sends generalizing data with
  | nil => cases data <;> exact List.nil_prefix
  | cons s sends ih =>
    rcases data with _ | ⟨b, bs⟩
    · exact List.nil_prefix
    cases s with
    | wouldBlock | failed e => exact List.nil_prefix
    | taken n =>
      rw [sendRaw]
      split
      · exact List.nil_prefix
      · obtain ⟨rest, hrest⟩ := ih ((b :: bs).drop n)
        refine ⟨rest, ?_⟩
        show (b :: bs).take n ++ (sendRaw ((b :: bs).drop n) sends).1 ++ rest = b :: bs
        rw [List.append_assoc, hrest, List.take_append_drop]

end Dframework
