import Mathlib
import Dframework.Library.Store

/-!
# `sp<T>` and the reference count of `Object`

The memory is made of handles (the `sp` of the program, also those that are members of an
object) and of objects. An object is deleted by the handle that takes its reference count
to zero, and its destructor destroys its members one after another, the last one first:
`dec` calls itself that way. An access to a handle or an object that is gone, and the
abort of `Object`, have no result.

The undocked references stand outside the handles. The code does not keep a list of them:
they are the pointers `undocking` has given out and `docking` has not taken back yet.
-/

namespace Dframework

open Store

/-- The place of a handle. -/
abbrev Loc := Nat

abbrev ObjId := Nat

/-- An `sp`. `owner` is the object it is a member of. -/
structure Sp where
  ptr : Option ObjId
  undockingResponsibility : Bool
  owner : Option ObjId
  deriving DecidableEq, Repr

/-- The handles, the reference counts of the objects, and the undocked references. -/
structure Memory where
  handles : List (Option Sp)
  counts : List (Option Int)
  undocked : List ObjId
  deriving DecidableEq, Repr

namespace Memory

def empty : Memory := ⟨[], [], []⟩

def handle (m : Memory) (i : Loc) : Option Sp :=
  get m.handles i

/-- `Object::getRefCount`. -/
def refCount (m : Memory) (x : ObjId) : Option Int :=
  get m.counts x

def holders (m : Memory) (x : ObjId) : Finset Loc :=
  places m.handles fun h => h.ptr = some x

/-- What the reference count of `x` has to be. -/
def number (m : Memory) (x : ObjId) : Nat :=
  (m.holders x).card + m.undocked.count x

/-- The members of `x`, in the order they are declared in. -/
def members (m : Memory) (x : ObjId) : List Loc :=
  (List.range m.handles.length).filter fun i => (m.handle i).any fun h => h.owner = some x

/-! ## `Object` -/

def incRefCount (m : Memory) (x : ObjId) : Option Memory := do
  let c ← m.refCount x
  if c + 1 < 2 ^ 31 then some { m with counts := m.counts.set x (some (c + 1)) } else none

def decRefCount (m : Memory) (x : ObjId) : Option Memory := do
  let c ← m.refCount x
  if c - 1 < 0 then none else some { m with counts := m.counts.set x (some (c - 1)) }

/-! ## `sp::dec` -/

def setPtr (m : Memory) (i : Loc) (p : Option ObjId) : Option Memory := do
  let h ← m.handle i
  some { m with handles := m.handles.set i (some { h with ptr := p }) }

def drop (m : Memory) (i : Loc) : Option Memory := do
  let _ ← m.handle i
  some { m with handles := m.handles.set i none }

def free (m : Memory) (x : ObjId) : Memory :=
  { m with counts := m.counts.set x none }

/-- `sp::~sp` for one handle after another. -/
def destroyAll (dec : Memory → Loc → Option Memory) : List Loc → Memory → Option Memory
  | [], m => some m
  | i :: is, m => do
    let m ← dec m i
    let m ← m.drop i
    destroyAll dec is m

/-- The part of `sp::dec` before `m_ptr = NULL`. A reference that is not given back is an
undocked one from here on. -/
def release (dec : Memory → Loc → Option Memory) (m : Memory) (h : Sp) : Option Memory :=
  match h.ptr with
  | none => some m
  | some x =>
    if h.undockingResponsibility then some { m with undocked := x :: m.undocked }
    else do
      let m ← m.decRefCount x
      if m.refCount x = some 0 then do
        let m ← destroyAll dec (m.members x).reverse m
        some (m.free x)
      else some m

/-- `sp::dec`, for destructors nested no deeper than `fuel`. -/
def decFuel : Nat → Memory → Loc → Option Memory
  | 0, _, _ => none
  | fuel + 1, m, i => do
    let h ← m.handle i
    let m ← release (decFuel fuel) m h
    m.setPtr i none

/-- `sp::dec`. Every nested destructor has taken another count to zero, so they are not
nested deeper than there are objects. -/
def dec (m : Memory) (i : Loc) : Option Memory :=
  decFuel (m.counts.length + 1) m i

/-! ## The operations of `sp` -/

/-- `if(m_ptr) m_ptr->incRefCount()`. -/
def incPtr (m : Memory) (p : Option ObjId) : Option Memory :=
  match p with
  | none => some m
  | some x => m.incRefCount x

/-- `sp::sp(T*)` and `sp::sp()`: the new handle is behind the others. -/
def construct (m : Memory) (p : Option ObjId) : Option Memory := do
  let m ← m.incPtr p
  some { m with handles := m.handles ++ [some ⟨p, false, none⟩] }

/-- `sp::sp(const sp&)`. -/
def copy (m : Memory) (j : Loc) : Option Memory := do
  let h ← m.handle j
  m.construct h.ptr

/-- `sp::~sp`. -/
def destroy (m : Memory) (i : Loc) : Option Memory := do
  let m ← m.dec i
  m.drop i

/-- `sp::operator=(T*)`. -/
def assignPtr (m : Memory) (i : Loc) (p : Option ObjId) : Option Memory := do
  let m ← m.dec i
  let m ← m.setPtr i p
  m.incPtr p

/-- `sp::operator=(const sp&)`: the source is read behind `dec`. -/
def assign (m : Memory) (i j : Loc) : Option Memory := do
  let m ← m.dec i
  let o ← m.handle j
  let m ← m.setPtr i o.ptr
  m.incPtr o.ptr

/-- `sp::undocking(T*)`. -/
def undocking (m : Memory) (p : Option ObjId) : Option Memory := do
  let dock := m.handles.length
  let m ← m.construct p
  let m ← m.setPtr dock none
  let m := { m with undocked := p.toList ++ m.undocked }
  m.destroy dock

/-- `sp::docking(T*)`: the result is the last handle. -/
def docking (m : Memory) (p : Option ObjId) : Option Memory := do
  let dock := m.handles.length
  let m ← m.construct none
  let m ← m.construct p
  let m ← m.dec dock
  let m := { m with undocked := m.undocked.diff p.toList }
  let m ← m.setPtr dock p
  m.destroy dock

/-- `sp::undocking_responsibility` and `sp::cancle_undocking_responsibility`. -/
def setResponsibility (m : Memory) (i : Loc) (b : Bool) : Option Memory := do
  let h ← m.handle i
  some { m with handles := m.handles.set i (some { h with undockingResponsibility := b }) }

/-- `new T`, for a class with `k` members that are `sp`. -/
def create (m : Memory) (k : Nat) : Memory where
  handles := m.handles ++ List.replicate k (some ⟨none, false, some m.counts.length⟩)
  counts := m.counts ++ [some 0]
  undocked := m.undocked

end Memory

end Dframework
