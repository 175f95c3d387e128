import Mathlib
import Dframework.Lang.StringCompare
import Dframework.Net.Uri

/-!
# The order of `URI` and of `Stat`

`>=` of a `URI` is refused by any smaller field and `<=` by any larger one, so that `<` and
`>` each ask for one field only. A `Stat` has the directories in front and compares its
`URI`s behind that.

Results:
1. `Uri.strictOn_iff`, `Stat.strictOn_iff`: on which sets the operators are an order.
2. `order_strict_iff`: both together.
-/

namespace Dframework

open CLib FieldOrder

/-! ## `URI` -/

/-- The fields that the operators compare, in their order. -/
inductive UriField where
  | scheme | host | port | path | query | fragment | user | pass
  deriving DecidableEq, Repr

namespace Uri

/-- The order of one field. -/
def compareField : UriField → Uri → Uri → Ordering
  | .scheme, u, v => compareChars u.scheme v.scheme
  | .host, u, v => compareChars u.host v.host
  | .port, u, v => compare u.port v.port
  | .path, u, v => compareChars u.path v.path
  | .query, u, v => compareChars u.query v.query
  | .fragment, u, v => compareChars u.fragment v.fragment
  | .user, u, v => compareChars u.user v.user
  | .pass, u, v => compareChars u.pass v.pass

def ne (u v : Uri) : Bool :=
  if StringCompare.eq u.scheme v.scheme && StringCompare.eq u.host v.host && u.port == v.port &&
      StringCompare.eq u.path v.path && StringCompare.eq u.query v.query &&
      StringCompare.eq u.fragment v.fragment && StringCompare.eq u.user v.user &&
      StringCompare.eq u.pass v.pass then false
  else true

def eq (u v : Uri) : Bool :=
  !ne u v

def ge (u v : Uri) : Bool :=
  if StringCompare.lt u.scheme v.scheme then false
  else if StringCompare.lt u.host v.host then false
  else if u.port < v.port then false
  else if StringCompare.lt u.path v.path then false
  else if StringCompare.lt u.query v.query then false
  else if StringCompare.lt u.fragment v.fragment then false
  else if StringCompare.lt u.user v.user then false
  else if StringCompare.lt u.pass v.pass then false
  else true

def le (u v : Uri) : Bool :=
  if StringCompare.gt u.scheme v.scheme then false
  else if StringCompare.gt u.host v.host then false
  else if u.port > v.port then false
  else if StringCompare.gt u.path v.path then false
  else if StringCompare.gt u.query v.query then false
  else if StringCompare.gt u.fragment v.fragment then false
  else if StringCompare.gt u.user v.user then false
  else if StringCompare.gt u.pass v.pass then false
  else true

def gt (u v : Uri) : Bool :=
  !le u v

def lt (u v : Uri) : Bool :=
  !ge u v

instance (f : UriField) : Std.TransCmp (compareField f) := by
  have hchars : Std.TransCmp compareChars := inferInstance
  have hint : Std.TransCmp (compare : Int → Int → Ordering) := inferInstance
  cases f
  case scheme => exact transCmp_comap hchars Uri.scheme
  case host => exact transCmp_comap hchars Uri.host
  case port => exact transCmp_comap hint Uri.port
  case path => exact transCmp_comap hchars Uri.path
  case query => exact transCmp_comap hchars Uri.query
  case fragment => exact transCmp_comap hchars Uri.fragment
  case user => exact transCmp_comap hchars Uri.user
  case pass => exact transCmp_comap hchars Uri.pass

theorem forall_field {P : UriField → Prop} :
    (∀ f, P f) ↔ P .scheme ∧ P .host ∧ P .port ∧ P .path ∧ P .query ∧ P .fragment ∧ P .user ∧
      P .pass := by
  constructor
  · exact fun h => ⟨h _, h _, h _, h _, h _, h _, h _, h _⟩
  · rintro ⟨h₁, h₂, h₃, h₄, h₅, h₆, h₇, h₈⟩ f
    cases f <;> assumption

theorem eq_iff {u v : Uri} : eq u v = true ↔ Same compareField u v := by
  rw [Same, forall_field]
  simp only [eq, ne, compareField, Bool.not_eq_true', ite_eq_left_iff, Bool.and_eq_true,
    StringCompare.eq_iff, beq_iff_eq, compare_eq_iff_eq, Bool.true_eq_false, imp_false, not_not,
    and_assoc]

theorem ge_iff {u v : Uri} : ge u v = true ↔ ¬ Below compareField u v := by
  rw [Below, not_exists, forall_field]
  simp only [ge, compareField, ← StringCompare.lt_iff, compare_lt_iff_lt]
  split_ifs <;> simp_all

theorem le_iff {u v : Uri} : le u v = true ↔ ¬ Above compareField u v := by
  rw [Above, not_exists, forall_field]
  simp only [le, compareField, ← StringCompare.gt_iff, compare_gt_iff_gt]
  split_ifs <;> simp_all

theorem lt_iff {u v : Uri} : lt u v = true ↔ Below compareField u v := by
  rw [lt, Bool.not_eq_true', ← Bool.not_eq_true, ge_iff, not_not]

theorem gt_iff {u v : Uri} : gt u v = true ↔ Above compareField u v := by
  rw [gt, Bool.not_eq_true', ← Bool.not_eq_true, le_iff, not_not]

abbrev Strict (S : Set Uri) : Prop :=
  StrictOn S (fun u v => lt u v = true) (fun u v => eq u v = true) (fun u v => gt u v = true)

/-- No two `URI`s of the set disagree in one field one way and in another the other way. -/
def OneWayOn (S : Set Uri) : Prop :=
  ∀ u ∈ S, ∀ v ∈ S, OneWay compareField u v

theorem strictOn_iff (S : Set Uri) : Strict S ↔ OneWayOn S := by
  rw [Strict]
  simp only [lt_iff, eq_iff, gt_iff]
  exact FieldOrder.strictOn_iff S

end Uri

/-! ## `Stat` -/

/-- The fields of a `Stat` that the operators read. -/
structure Stat where
  uri : Uri
  mode : Nat
  deriving DecidableEq, Repr

namespace Stat

/-- `Stat::isDir`: `DFW_S_MODE` with `S_IFDIR`. -/
def isDir (s : Stat) : Bool :=
  s.mode &&& 0o170000 == 0o40000

def eq (s t : Stat) : Bool :=
  if s.isDir && !t.isDir then false
  else if !s.isDir && t.isDir then false
  else Uri.eq s.uri t.uri

def gt (s t : Stat) : Bool :=
  if s.isDir && !t.isDir then false
  else if !s.isDir && t.isDir then true
  else Uri.gt s.uri t.uri

def lt (s t : Stat) : Bool :=
  if s.isDir && !t.isDir then true
  else if !s.isDir && t.isDir then false
  else Uri.lt s.uri t.uri

def ne (s t : Stat) : Bool :=
  if s.isDir && !t.isDir then true
  else if !s.isDir && t.isDir then true
  else Uri.ne s.uri t.uri

def ge (s t : Stat) : Bool :=
  if s.isDir && !t.isDir then false
  else if !s.isDir && t.isDir then true
  else Uri.ge s.uri t.uri

def le (s t : Stat) : Bool :=
  if s.isDir && !t.isDir then true
  else if !s.isDir && t.isDir then false
  else Uri.le s.uri t.uri

/-- The operators that are written out a second time answer the opposite of the others. -/
theorem ne_ge_le_eq (s t : Stat) : ne s t = !eq s t ∧ ge s t = !lt s t ∧ le s t = !gt s t := by
  rw [ne, eq, ge, lt, le, gt, Uri.eq, Uri.lt, Uri.gt]
  cases s.isDir <;> cases t.isDir <;> simp

/-- Directories stand in front. -/
def rank (s : Stat) : Nat :=
  if s.isDir then 0 else 1

theorem lt_iff {s t : Stat} :
    lt s t = true ↔ Ranked rank (· < ·) (fun s t => Uri.lt s.uri t.uri = true) s t := by
  rw [lt, Ranked, rank, rank]
  cases s.isDir <;> cases t.isDir <;> simp

theorem eq_iff {s t : Stat} :
    eq s t = true ↔ Ranked rank (fun _ _ => False) (fun s t => Uri.eq s.uri t.uri = true) s t := by
  rw [eq, Ranked, rank, rank]
  cases s.isDir <;> cases t.isDir <;> simp

theorem gt_iff {s t : Stat} :
    gt s t = true ↔ Ranked rank (· > ·) (fun s t => Uri.gt s.uri t.uri = true) s t := by
  rw [gt, Ranked, rank, rank]
  cases s.isDir <;> cases t.isDir <;> simp

abbrev Strict (S : Set Stat) : Prop :=
  StrictOn S (fun s t => lt s t = true) (fun s t => eq s t = true) (fun s t => gt s t = true)

/-- The same of the directories of a set, and of what is none. -/
def OneWayOn (S : Set Stat) : Prop :=
  ∀ s ∈ S, ∀ t ∈ S, s.isDir = t.isDir → OneWay Uri.compareField s.uri t.uri

theorem rank_eq_iff {s t : Stat} : rank s = rank t ↔ s.isDir = t.isDir := by
  rw [rank, rank]
  cases s.isDir <;> cases t.isDir <;> decide

theorem strictOn_iff (S : Set Stat) : Strict S ↔ OneWayOn S := by
  have hcmp : ∀ f, Std.TransCmp fun s t : Stat => Uri.compareField f s.uri t.uri :=
    fun f => transCmp_comap inferInstance Stat.uri
  have hrank : ∀ n, StrictOn {s | s ∈ S ∧ rank s = n} (fun s t => Uri.lt s.uri t.uri = true)
      (fun s t => Uri.eq s.uri t.uri = true) (fun s t => Uri.gt s.uri t.uri = true) ↔
        ∀ s, (s ∈ S ∧ rank s = n) → ∀ t, (t ∈ S ∧ rank t = n) →
          OneWay Uri.compareField s.uri t.uri := by
    intro n
    simp only [Uri.lt_iff, Uri.eq_iff, Uri.gt_iff]
    exact FieldOrder.strictOn_iff _
  rw [Strict]
  simp only [lt_iff, eq_iff, gt_iff]
  rw [strictOn_ranked_iff, forall_congr' hrank, OneWayOn]
  constructor
  · exact fun h s hs t ht hst => h (rank s) s ⟨hs, rfl⟩ t ⟨ht, (rank_eq_iff.mpr hst).symm⟩
  · rintro h n s ⟨hs, rfl⟩ t ⟨ht, hst⟩
    exact h s hs t ht (rank_eq_iff.mp hst.symm)

end Stat

/-- The operators of `URI` and of `Stat` are a strict total order of those sets in which no
two elements disagree in both directions. -/
theorem order_strict_iff (S : Set Uri) (T : Set Stat) :
    (Uri.Strict S ↔ Uri.OneWayOn S) ∧ (Stat.Strict T ↔ Stat.OneWayOn T) :=
  ⟨Uri.strictOn_iff S, Stat.strictOn_iff T⟩

/-- Two files: the host of one is smaller, the path of the other. -/
def exUris : Uri × Uri :=
  ({ scheme := bytes "http", host := bytes "a", path := bytes "/z" },
    { scheme := bytes "http", host := bytes "b", path := bytes "/y" })

/-- Each is below the other, as a `URI` and as the `URI` of a file. -/
theorem not_order_strict :
    (¬ ∀ S : Set Uri, Uri.Strict S) ∧ ¬ ∀ T : Set Stat, Stat.Strict T := by
  constructor
  · intro h
    have hone := (h Set.univ).exactlyOne exUris.1 trivial exUris.2 trivial
    revert hone
    rw [ExactlyOne]
    decide
  · intro h
    have hone := (h Set.univ).exactlyOne ⟨exUris.1, 0o100644⟩ trivial ⟨exUris.2, 0o100644⟩ trivial
    revert hone
    rw [ExactlyOne]
    decide

end Dframework
