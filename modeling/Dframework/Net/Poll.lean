import Mathlib
import Dframework.Base.Retval
import Dframework.Base.Sp
import Dframework.Lang.StringBuffer

/-!
# `Poll`

The descriptors stand in one block and the objects they belong to in another one. A descriptor that
is taken out makes room for the last one. A count of bytes is an `int` where the descriptors are
allocated, and no block has `2 ^ 63` bytes. `none` as a result stands for an access outside a block.

Results:
1. `prepare_spec`, `append_spec`, `remove_spec`, `clear_spec`: what the operations do.
2. `run_paired`: what the blocks hold after any run.
-/

namespace Dframework

open CLib Cells

structure Pollfd where
  fd : Int
  events : Int
  revents : Int
  deriving DecidableEq, Repr

/-- A `struct pollfd` of bytes that are all `-1`. -/
def Pollfd.unset : Pollfd := ⟨-1, -1, -1⟩

structure Poll where
  events : Int
  used : Nat
  memsize : Nat
  polls : Option (List Pollfd)
  ppsocks : Option (List (Option ObjId))
  deriving DecidableEq, Repr

namespace Poll

def new (events : Int) : Poll := ⟨events, 0, 0, none, none⟩

section

variable {α : Type*}

/-- `malloc` of a block of cells of 8 bytes, which are all set to `a` afterwards. -/
def mallocCells (size : Nat) (a : α) (heap : Heap) : Option (List α) × Heap :=
  (if size < 2 ^ 63 ∧ heap.headD true then some (List.replicate (size / 8) a) else none, heap.tail)

/-- A cell of a block. -/
def cellAt (b : Option (List α)) (k : Nat) : Option α :=
  b.bind (·[k]?)

def setCell (b : Option (List α)) (k : Nat) (a : α) : Option (Option (List α)) :=
  writePtr b k [a]

end

/-- `pollsize*memsize`. -/
def pollBytes (memsize : Nat) : Nat :=
  toSizeT (Int.bmod (8 * memsize) (2 ^ 32))

def nextMemsize (p : Poll) : Nat :=
  if p.memsize = 0 then 1024 else p.memsize + 1024

/-- The end of `prepare`. -/
def setBlocks (p : Poll) (polls : List Pollfd) (ppsocks : List (Option ObjId)) : Poll :=
  { p with polls := some polls, ppsocks := some ppsocks, memsize := p.nextMemsize }

/-- `prepare` behind its first `malloc`. -/
def prepareFrom (p : Poll) : Option (List Pollfd) × Heap → Option (Retval × Poll × Heap)
  | (none, heap) => some (retval .eNomem, p, heap)
  | (some polls, heap) =>
    match mallocCells (8 * p.nextMemsize) none heap with
    | (none, heap) => some (retval .eNomem, p, heap)
    | (some ppsocks, heap) =>
      if p.memsize = 0 then some (none, p.setBlocks polls ppsocks, heap)
      else do
        let polls ← write polls 0 (← readPtr p.polls 0 p.memsize)
        let ppsocks ← write ppsocks 0 (← readPtr p.ppsocks 0 p.memsize)
        some (none, p.setBlocks polls ppsocks, heap)

/-- `Poll::prepare`. The blocks that are left behind are not given back. -/
def prepare (p : Poll) (heap : Heap) : Option (Retval × Poll × Heap) :=
  p.prepareFrom (mallocCells (pollBytes p.nextMemsize) Pollfd.unset heap)

/-- The growth in front of `append`. -/
def makeRoom (p : Poll) (heap : Heap) : Option (Retval × Poll × Heap) :=
  if p.memsize ≤ p.used + 1 then p.prepare heap else some (none, p, heap)

/-- `Poll::append`. The number is the one given out. -/
def append (p : Poll) (fd : Int) (obj : Option ObjId) (heap : Heap) :
    Option (Retval × Option Nat × Poll × Heap) := do
  let (ret, p, heap) ← p.makeRoom heap
  match ret with
  | some e => some (some e, none, p, heap)
  | none =>
    let polls ← setCell p.polls p.used ⟨fd, p.events, 0⟩
    let ppsocks ← setCell p.ppsocks p.used obj
    some (none, some p.used, { p with polls, ppsocks, used := p.used + 1 }, heap)

/-- `Poll::remove`, with the object whose last count is given back. -/
def remove (p : Poll) (position : Int) : Option (Option ObjId × Poll) :=
  if p.used = 0 ∨ position < 0 ∨ p.used ≤ position then some (none, p)
  else do
    let position := position.toNat
    let last := p.used - 1
    let pobj ← cellAt p.ppsocks position
    let polls ← setCell p.polls position (← cellAt p.polls last)
    let ppsocks ← setCell p.ppsocks position (← cellAt p.ppsocks last)
    let polls ← setCell polls last { (← cellAt polls last) with fd := -1 }
    let ppsocks ← setCell ppsocks last none
    some (pobj, { p with polls, ppsocks, used := p.used - 1 })

/-- The loop of `clear`: each descriptor but `-1` is closed, and each object but `NULL` is given
back. -/
def release (p : Poll) : Option (List (Int × Option ObjId)) :=
  (List.range p.used).mapM fun k => do
    some ((← cellAt p.polls k).fd, ← cellAt p.ppsocks k)

/-- `Poll::clear`, with the descriptors that are closed and the objects that are given back. -/
def clear (p : Poll) : Option (List (Int × Option ObjId) × Poll) := do
  let released ← p.release
  let polls ← writePtr p.polls 0 (List.replicate (pollBytes p.memsize / 8) Pollfd.unset)
  let ppsocks ← writePtr p.ppsocks 0 (List.replicate p.memsize none)
  some (released, { p with polls, ppsocks, used := 0 })

/-! ## The entries -/

/-- The pair at an index: cell for cell of the two blocks. -/
def pair (p : Poll) (k : Nat) : Int × Option ObjId :=
  (((cellAt p.polls k).map (·.fd)).getD (-1), (cellAt p.ppsocks k).join)

def entries (p : Poll) : List (Int × Option ObjId) :=
  (List.range p.used).map p.pair

/-- Both blocks have the allocated size, and no more cells are in use. -/
structure Ok (p : Poll) : Prop where
  polls_length : (p.polls.getD []).length = p.memsize
  ppsocks_length : (p.ppsocks.getD []).length = p.memsize
  used_le : p.used ≤ p.memsize
  memsize_lt : p.memsize < 2 ^ 28
  piece : 1024 ∣ p.memsize

/-! ## Cells -/

section

variable {α : Type*} {b : Option (List α)} {l xs : List α} {j k n : Nat} {a : α}

theorem cellAt_eq (b : Option (List α)) (k : Nat) : cellAt b k = (b.getD [])[k]? := by
  cases b <;> rfl

theorem setCell_of_lt (h : k < (b.getD []).length) (a : α) :
    setCell b k a = some (some ((b.getD []).set k a)) := by
  cases b with
  | none => exact absurd h (Nat.not_lt_zero k)
  | some l =>
    rw [setCell, writePtr, if_neg (List.cons_ne_nil a [])]
    have hlt : k < l.length := h
    show (write l k [a]).map some = some (some (l.set k a))
    rw [write_one hlt]
    rfl

theorem mallocCells_cases (size : Nat) (a : α) (heap : Heap) :
    mallocCells size a heap = (none, heap.tail) ∨ size < 2 ^ 63 ∧
      mallocCells size a heap = (some (List.replicate (size / 8) a), heap.tail) := by
  rw [mallocCells]
  split_ifs with h
  · exact .inr ⟨h.1, rfl⟩
  · exact .inl rfl

/-- `memcpy` of a whole block to the front of a new one. -/
theorem copy_block (hb : (b.getD []).length = n) (hl : n ≤ l.length) :
    ∃ m, (readPtr b 0 n).bind (write l 0) = some m ∧ m.length = l.length ∧
      ∀ k < n, m[k]? = (b.getD [])[k]? := by
  have hread : readPtr b 0 n = some (b.getD []) := by
    rw [readPtr]
    split_ifs with h0
    · rw [List.length_eq_zero_iff.mp (hb.trans h0)]
    · cases b with
      | none => exact absurd hb.symm h0
      | some d =>
        show read d 0 n = some d
        rw [read_of_le (by rw [Nat.zero_add]; exact hb.ge), List.drop_zero,
          List.take_of_length_le (show d.length ≤ n from hb.le)]
  have hfit : 0 + (b.getD []).length ≤ l.length := by rw [Nat.zero_add, hb]; exact hl
  obtain ⟨m, hm⟩ : ∃ m, write l 0 (b.getD []) = some m := ⟨_, write_of_le hfit⟩
  refine ⟨m, by rw [hread]; exact hm, write_length hm, fun k hk => ?_⟩
  have hget := getElem?_write_mem hm (hb.symm ▸ hk)
  rwa [Nat.zero_add] at hget

/-- `memset` of a whole block. -/
theorem fill_block (hb : (b.getD []).length = n) (a : α) :
    ∃ b', writePtr b 0 (List.replicate n a) = some b' ∧ (b'.getD []).length = n := by
  rw [writePtr]
  split_ifs with h0
  · exact ⟨b, rfl, hb⟩
  · cases b with
    | none =>
      subst hb
      exact absurd rfl h0
    | some l =>
      have hfit : 0 + (List.replicate n a).length ≤ l.length := by
        rw [Nat.zero_add, List.length_replicate]
        exact hb.ge
      obtain ⟨m, hm⟩ : ∃ m, write l 0 (List.replicate n a) = some m := ⟨_, write_of_le hfit⟩
      refine ⟨some m, ?_, (write_length hm).trans hb⟩
      show (write l 0 (List.replicate n a)).map some = _
      rw [hm]
      rfl

end

theorem pollBytes_of_lt {n : Nat} (h : n < 2 ^ 28) : pollBytes n = 8 * n := by
  have hint : Int.bmod (8 * n) (2 ^ 32) = (8 * n : Nat) := by
    have := int_of_lt (show 8 * n < 2 ^ 31 by omega)
    rwa [Nat.cast_mul] at this
  rw [pollBytes, hint, toSizeT_natCast (by omega)]

/-- A size that is no `int` asks for more than there is. -/
theorem pollBytes_max : 2 ^ 63 ≤ pollBytes (2 ^ 28) := by
  have hint : Int.bmod (8 * (2 ^ 28 : Nat)) (2 ^ 32) = -(2 ^ 31) := by norm_num [Int.bmod]
  rw [pollBytes, hint, toSizeT]
  norm_num

variable {p p' : Poll}

theorem pair_eq (p : Poll) (k : Nat) : p.pair k =
    ((((p.polls.getD [])[k]?).map (·.fd)).getD (-1), ((p.ppsocks.getD [])[k]?).join) := by
  rw [pair, cellAt_eq, cellAt_eq]

theorem pair_congr {k j : Nat} (hpolls : (p'.polls.getD [])[k]? = (p.polls.getD [])[j]?)
    (hsocks : (p'.ppsocks.getD [])[k]? = (p.ppsocks.getD [])[j]?) : p'.pair k = p.pair j := by
  rw [pair_eq, pair_eq, hpolls, hsocks]

/-! ## The operations -/

theorem new_ok (events : Int) : (new events).Ok :=
  ⟨rfl, rfl, le_rfl, Nat.two_pow_pos 28, dvd_zero 1024⟩

/-- The blocks have grown by a piece, or all stays as it was. -/
structure Prepared (p : Poll) (ret : Retval) (q : Poll) : Prop where
  ok : q.Ok
  used_eq : q.used = p.used
  events_eq : q.events = p.events
  pair_eq : ∀ k < p.memsize, q.pair k = p.pair k
  grown : ret = none → q.memsize = p.memsize + 1024
  same : ret ≠ none → q = p

theorem Prepared.refl (h : p.Ok) (e : Ret) : Prepared p (some e) p :=
  ⟨h, rfl, rfl, fun _ _ => rfl, fun hn => (nomatch hn), fun _ => rfl⟩

theorem nextMemsize_eq (p : Poll) : p.nextMemsize = p.memsize + 1024 := by
  rw [nextMemsize]
  split_ifs with h0
  · rw [h0]
  · rfl

/-- A size that is granted is an `int`. -/
theorem nextMemsize_lt (h : p.Ok) (hsize : pollBytes p.nextMemsize < 2 ^ 63) :
    p.nextMemsize < 2 ^ 28 := by
  obtain ⟨j, hj⟩ := h.piece
  have hmax := h.memsize_lt
  have hnext := p.nextMemsize_eq
  by_contra hge
  have heq : p.nextMemsize = 2 ^ 28 := by omega
  rw [heq] at hsize
  exact absurd pollBytes_max (Nat.not_le.mpr hsize)

theorem prepared_setBlocks (h : p.Ok) {polls : List Pollfd} {ppsocks : List (Option ObjId)}
    (hlt : p.nextMemsize < 2 ^ 28) (hpolls : polls.length = p.nextMemsize)
    (hsocks : ppsocks.length = p.nextMemsize)
    (hpair : ∀ k < p.memsize, (p.setBlocks polls ppsocks).pair k = p.pair k) :
    Prepared p none (p.setBlocks polls ppsocks) := by
  have hnext := p.nextMemsize_eq
  refine ⟨⟨hpolls, hsocks, ?_, hlt, ?_⟩, rfl, rfl, hpair, fun _ => hnext, fun hn => absurd rfl hn⟩
  · show p.used ≤ p.nextMemsize
    rw [hnext]
    exact h.used_le.trans (Nat.le_add_right _ _)
  · show 1024 ∣ p.nextMemsize
    rw [hnext]
    exact (Nat.dvd_add_right h.piece).mpr (dvd_refl 1024)

theorem prepare_spec (h : p.Ok) (heap : Heap) :
    ∃ ret q heap', p.prepare heap = some (ret, q, heap') ∧ Prepared p ret q := by
  rw [prepare]
  rcases mallocCells_cases (pollBytes p.nextMemsize) Pollfd.unset heap with
    hpolls | ⟨hsize, hpolls⟩
  · rw [hpolls]
    exact ⟨_, p, _, rfl, .refl h _⟩
  rw [hpolls, prepareFrom]
  rcases mallocCells_cases (8 * p.nextMemsize) (none : Option ObjId) heap.tail with
    hsocks | ⟨-, hsocks⟩
  · simp only [hsocks]
    exact ⟨_, p, _, rfl, .refl h _⟩
  simp only [hsocks]
  have hlt := nextMemsize_lt h hsize
  have hle : p.memsize ≤ p.nextMemsize := by
    rw [nextMemsize_eq]
    exact Nat.le_add_right _ _
  rw [pollBytes_of_lt hlt, Nat.mul_div_cancel_left _ (by decide)]
  split_ifs with h0
  · refine ⟨none, _, _, rfl, prepared_setBlocks h hlt List.length_replicate List.length_replicate
      fun k hk => ?_⟩
    rw [h0] at hk
    exact absurd hk (Nat.not_lt_zero k)
  · obtain ⟨polls, hcopy, hlen, hget⟩ := copy_block (l := List.replicate p.nextMemsize Pollfd.unset)
      h.polls_length (List.length_replicate ▸ hle)
    obtain ⟨socks, hcopy', hlen', hget'⟩ := copy_block (l := List.replicate p.nextMemsize none)
      h.ppsocks_length (List.length_replicate ▸ hle)
    rw [List.length_replicate] at hlen hlen'
    refine ⟨none, p.setBlocks polls socks, heap.tail.tail, ?_,
      prepared_setBlocks h hlt hlen hlen' fun k hk => pair_congr (hget k hk) (hget' k hk)⟩
    simp only [Option.bind_eq_bind, ← Option.bind_assoc, hcopy, hcopy', Option.bind_some]

/-- A pair is put behind the others, or all stays as it was. -/
structure Appended (p : Poll) (fd : Int) (obj : Option ObjId) (ret : Retval) (out : Option Nat)
    (q : Poll) : Prop where
  ok : q.Ok
  put : ret = none → out = some p.used ∧ q.entries = p.entries ++ [(fd, obj)]
  same : ret ≠ none → q = p

/-- There is a free cell afterwards, or all stays as it was. -/
theorem makeRoom_spec (h : p.Ok) (heap : Heap) :
    ∃ ret q heap', p.makeRoom heap = some (ret, q, heap') ∧ q.Ok ∧ q.used = p.used ∧
      (∀ k < p.used, q.pair k = p.pair k) ∧ (ret = none → q.used < q.memsize) ∧
      (ret ≠ none → q = p) := by
  have hle := h.used_le
  rw [makeRoom]
  split_ifs with hfull
  · obtain ⟨ret, q, heap', hprep, hq⟩ := prepare_spec h heap
    refine ⟨ret, q, heap', hprep, hq.ok, hq.used_eq, fun k hk => hq.pair_eq k (by omega), ?_,
      hq.same⟩
    intro hn
    rw [hq.used_eq, hq.grown hn]
    omega
  · exact ⟨none, p, heap, rfl, h, rfl, fun _ _ => rfl, fun _ => by omega, fun hn => absurd rfl hn⟩

def put (p : Poll) (k : Nat) (x : Pollfd) (o : Option ObjId) : Poll :=
  { p with polls := some ((p.polls.getD []).set k x), ppsocks := some ((p.ppsocks.getD []).set k o) }

theorem put_ok (h : p.Ok) (k : Nat) (x : Pollfd) (o : Option ObjId) : (p.put k x o).Ok :=
  ⟨List.length_set.trans h.polls_length, List.length_set.trans h.ppsocks_length, h.used_le,
    h.memsize_lt, h.piece⟩

theorem pair_put (h : p.Ok) {k : Nat} (hk : k < p.memsize) (x : Pollfd) (o : Option ObjId)
    (j : Nat) : (p.put k x o).pair j = if j = k then (x.fd, o) else p.pair j := by
  have hpolls : k < (p.polls.getD []).length := h.polls_length ▸ hk
  have hsocks : k < (p.ppsocks.getD []).length := h.ppsocks_length ▸ hk
  rw [pair_eq, pair_eq, put, Option.getD_some, Option.getD_some, List.getElem?_set,
    List.getElem?_set]
  by_cases hj : j = k
  · subst hj
    simp [hpolls, hsocks]
  · rw [if_neg hj, if_neg (Ne.symm hj), if_neg (Ne.symm hj)]

theorem setCell_polls (h : p.Ok) {k : Nat} (hk : k < p.memsize) (x : Pollfd) (o : Option ObjId) :
    setCell p.polls k x = some (p.put k x o).polls :=
  setCell_of_lt (h.polls_length ▸ hk) x

theorem setCell_ppsocks (h : p.Ok) {k : Nat} (hk : k < p.memsize) (x : Pollfd)
    (o : Option ObjId) : setCell p.ppsocks k o = some (p.put k x o).ppsocks :=
  setCell_of_lt (h.ppsocks_length ▸ hk) o

theorem exists_cells (h : p.Ok) {k : Nat} (hk : k < p.memsize) :
    ∃ x o, cellAt p.polls k = some x ∧ cellAt p.ppsocks k = some o ∧ p.pair k = (x.fd, o) := by
  have hpolls : k < (p.polls.getD []).length := h.polls_length ▸ hk
  have hsocks : k < (p.ppsocks.getD []).length := h.ppsocks_length ▸ hk
  refine ⟨_, _, (cellAt_eq _ k).trans (List.getElem?_eq_getElem hpolls),
    (cellAt_eq _ k).trans (List.getElem?_eq_getElem hsocks), ?_⟩
  rw [pair_eq, List.getElem?_eq_getElem hpolls, List.getElem?_eq_getElem hsocks]
  rfl

theorem entries_congr {q : Poll} (hused : q.used = p.used) (hpair : ∀ k < p.used, q.pair k = p.pair k) :
    q.entries = p.entries := by
  rw [entries, entries, hused]
  exact List.map_congr_left fun k hk => hpair k (List.mem_range.mp hk)

theorem append_spec (h : p.Ok) (fd : Int) (obj : Option ObjId) (heap : Heap) :
    ∃ ret out q heap', p.append fd obj heap = some (ret, out, q, heap') ∧
      Appended p fd obj ret out q := by
  obtain ⟨ret, q, heap', hgrow, hok, hused, hpair, hroom, hsame⟩ := makeRoom_spec h heap
  rw [append, hgrow]
  cases ret with
  | some e =>
    exact ⟨some e, none, q, heap', rfl, hok, fun hn => (nomatch hn), hsame⟩
  | none =>
    have hlt := hroom rfl
    have hput := put_ok hok q.used ⟨fd, q.events, 0⟩ obj
    simp only [Option.bind_eq_bind, Option.bind_some, setCell_polls hok hlt ⟨fd, q.events, 0⟩ obj,
      setCell_ppsocks hok hlt ⟨fd, q.events, 0⟩ obj]
    refine ⟨none, some q.used, { q.put q.used ⟨fd, q.events, 0⟩ obj with used := q.used + 1 },
      heap', rfl, ⟨hput.polls_length, hput.ppsocks_length, hlt, hok.memsize_lt, hok.piece⟩,
      fun _ => ⟨by rw [hused], ?_⟩, fun hn => absurd rfl hn⟩
    have hpairs := pair_put hok hlt ⟨fd, q.events, 0⟩ obj
    rw [← entries_congr hused hpair, entries, List.range_succ, List.map_append]
    refine congrArg₂ _ (List.map_congr_left fun k hk => ?_) ?_
    · exact (hpairs k).trans (if_neg (Nat.ne_of_lt (List.mem_range.mp hk)))
    · exact congrArg (fun x => [x]) ((hpairs q.used).trans (if_pos rfl))

/-- A pair is taken out and the last one put in its place. -/
structure Removed (p : Poll) (k : Nat) (out : Option ObjId) (q : Poll) : Prop where
  ok : q.Ok
  used_eq : q.used + 1 = p.used
  out_eq : out = (p.pair k).2
  pair_eq : ∀ j < q.used, q.pair j = if j = k then p.pair q.used else p.pair j

theorem remove_spec (h : p.Ok) {k : Nat} (hk : k < p.used) :
    ∃ out q, p.remove k = some (out, q) ∧ Removed p k out q := by
  have hkm : k < p.memsize := hk.trans_le h.used_le
  have hlast : p.used - 1 < p.memsize := by have := h.used_le; omega
  obtain ⟨x, o, -, ho, hpair⟩ := exists_cells h hkm
  obtain ⟨y, o', hy, ho', hpair'⟩ := exists_cells h hlast
  have hok₁ := put_ok h k y o'
  obtain ⟨z, -, hz, -, -⟩ := exists_cells hok₁ hlast
  rw [remove, if_neg (by omega)]
  simp only [Int.toNat_natCast, Option.bind_eq_bind, Option.bind_some, ho, hy, ho',
    setCell_polls h hkm y o', setCell_ppsocks h hkm y o', hz,
    setCell_polls hok₁ hlast { z with fd := -1 } none,
    setCell_ppsocks hok₁ hlast { z with fd := -1 } none]
  have hok₂ := put_ok hok₁ (p.used - 1) { z with fd := -1 } none
  refine ⟨o, { (p.put k y o').put (p.used - 1) { z with fd := -1 } none with used := p.used - 1 },
    rfl, ⟨hok₂.polls_length, hok₂.ppsocks_length, hlast.le, h.memsize_lt, h.piece⟩,
    Nat.sub_add_cancel (Nat.zero_lt_of_lt hk), by rw [hpair], fun j hj => ?_⟩
  have hne : j ≠ p.used - 1 := Nat.ne_of_lt hj
  calc
    _ = (p.put k y o').pair j := (pair_put hok₁ hlast _ _ j).trans (if_neg hne)
    _ = if j = k then (y.fd, o') else p.pair j := pair_put h hkm y o' j
    _ = if j = k then p.pair (p.used - 1) else p.pair j := by rw [hpair']

theorem remove_outside {position : Int} (h : ¬ (0 ≤ position ∧ position < p.used)) :
    p.remove position = some (none, p) := by
  rw [remove, if_pos]
  omega

theorem release_eq (h : p.Ok) : p.release = some p.entries := by
  have hall : ∀ l : List Nat, (∀ k ∈ l, k < p.memsize) → (l.mapM fun k => do
      some ((← cellAt p.polls k).fd, ← cellAt p.ppsocks k)) = some (l.map p.pair) := by
    intro l hl
    induction l with
    | nil => rfl
    | cons k l ih =>
      rw [List.forall_mem_cons] at hl
      obtain ⟨x, o, hx, ho, hpair⟩ := exists_cells h hl.1
      rw [List.mapM_cons, ih hl.2, hx, ho, List.map_cons, hpair]
      rfl
  exact hall _ fun k hk => (List.mem_range.mp hk).trans_le h.used_le

theorem clear_spec (h : p.Ok) : ∃ q, p.clear = some (p.entries, q) ∧ q.Ok ∧ q.used = 0 := by
  obtain ⟨polls, hpolls, hlen⟩ := fill_block h.polls_length Pollfd.unset
  obtain ⟨socks, hsocks, hlen'⟩ := fill_block h.ppsocks_length none
  rw [clear, release_eq h, pollBytes_of_lt h.memsize_lt, Nat.mul_div_cancel_left _ (by decide)]
  simp only [Option.bind_eq_bind, Option.bind_some, hpolls, hsocks]
  exact ⟨_, rfl, ⟨hlen, hlen', Nat.zero_le _, h.memsize_lt, h.piece⟩, rfl⟩

/-- The pair is gone, and every other one is still there. -/
theorem Removed.perm {q : Poll} {k : Nat} {out : Option ObjId} (h : Removed p k out q)
    (hk : k < p.used) : p.entries.Perm (p.pair k :: q.entries) := by
  have hall : p.entries = (List.range q.used).map p.pair ++ [p.pair q.used] := by
    rw [entries, ← h.used_eq, List.range_succ, List.map_append]
    rfl
  have hset : q.entries = ((List.range q.used).map p.pair).set k (p.pair q.used) := by
    refine List.ext_getElem? fun j => ?_
    rw [entries, List.getElem?_map, List.getElem?_set, List.getElem?_map, List.length_map,
      List.length_range]
    rcases Nat.lt_or_ge j q.used with hj | hj
    · rw [List.getElem?_range hj, Option.map_some, Option.map_some, h.pair_eq j hj]
      by_cases hjk : j = k
      · rw [if_pos hjk, if_pos hjk.symm, if_pos (hjk ▸ hj)]
      · rw [if_neg hjk, if_neg (Ne.symm hjk)]
    · rw [List.getElem?_eq_none (by rwa [List.length_range])]
      split_ifs with hkj hlt
      · omega
      · rfl
      · rfl
  have hlen : k < ((List.range q.used).map p.pair ++ [p.pair q.used]).length := by
    rw [← hall, entries, List.length_map, List.length_range]
    exact hk
  have hget : ((List.range q.used).map p.pair ++ [p.pair q.used])[k] = p.pair k := by
    simp only [← hall, entries, List.getElem_map, List.getElem_range]
  have hperm := perm_set_last hlen
  rwa [hget, ← hall, ← hset] at hperm

/-! ## Runs -/

/-- The operations, with what the allocations of `append` answer. -/
inductive PollOp where
  | append (fd : Int) (obj : Option ObjId) (heap : Heap)
  | remove (position : Int)
  | clear
  deriving DecidableEq, Repr

/-- An operation, next to the pairs that have been appended and not been removed since. -/
def exec : PollOp → Poll × Multiset (Int × Option ObjId) →
    Option (Poll × Multiset (Int × Option ObjId))
  | .append fd obj heap, (p, live) => do
    let (ret, _, q, _) ← p.append fd obj heap
    some (q, if ret = none then (fd, obj) ::ₘ live else live)
  | .remove position, (p, live) => do
    let (_, q) ← p.remove position
    some (q, if 0 ≤ position ∧ position < p.used then live.erase (p.pair position.toNat) else live)
  | .clear, (p, _) => do
    let (_, q) ← p.clear
    some (q, 0)

def run : List PollOp → Poll × Multiset (Int × Option ObjId) →
    Option (Poll × Multiset (Int × Option ObjId))
  | [], s => some s
  | op :: ops, s => (exec op s).bind (run ops)

/-- The blocks hold the pairs that are there, each once. -/
def Paired (s : Poll × Multiset (Int × Option ObjId)) : Prop :=
  s.1.Ok ∧ (s.1.entries : Multiset (Int × Option ObjId)) = s.2

theorem exec_paired {s : Poll × Multiset (Int × Option ObjId)} (h : Paired s) (op : PollOp) :
    ∃ s', exec op s = some s' ∧ Paired s' := by
  obtain ⟨p, live⟩ := s
  obtain ⟨hok, rfl⟩ : p.Ok ∧ (p.entries : Multiset (Int × Option ObjId)) = live := h
  cases op with
  | append fd obj heap =>
    obtain ⟨ret, out, q, heap', happ, hq⟩ := append_spec hok fd obj heap
    refine ⟨_, by rw [exec, happ]; rfl, hq.ok, ?_⟩
    cases ret with
    | none =>
      obtain ⟨-, hput⟩ := hq.put rfl
      rw [if_pos rfl, hput]
      exact Multiset.coe_eq_coe.mpr (List.perm_append_singleton _ _)
    | some e =>
      rw [hq.same (Option.some_ne_none e), if_neg (Option.some_ne_none e)]
  | remove position =>
    by_cases hin : 0 ≤ position ∧ position < p.used
    · obtain ⟨k, rfl⟩ := Int.eq_ofNat_of_zero_le hin.1
      have hk : k < p.used := Int.ofNat_lt.mp hin.2
      obtain ⟨out, q, hrem, hq⟩ := remove_spec hok hk
      refine ⟨_, by rw [exec, hrem]; rfl, hq.ok, ?_⟩
      rw [if_pos hin, Int.toNat_natCast, Multiset.coe_eq_coe.mpr (hq.perm hk)]
      exact (Multiset.erase_cons_head _ _).symm
    · refine ⟨_, by rw [exec, remove_outside hin]; rfl, hok, ?_⟩
      rw [if_neg hin]
  | clear =>
    obtain ⟨q, hclear, hq, hused⟩ := clear_spec hok
    refine ⟨_, by rw [exec, hclear]; rfl, hq, ?_⟩
    rw [entries, hused]
    rfl

/-- Every run goes through, with the blocks paired and no more cells in use than allocated. -/
theorem run_paired (events : Int) (ops : List PollOp) :
    ∃ p live, run ops (new events, 0) = some (p, live) ∧ p.Ok ∧
      (p.entries : Multiset (Int × Option ObjId)) = live := by
  have hall : ∀ ops s, Paired s → ∃ s', run ops s = some s' ∧ Paired s' := by
    intro ops
    induction ops with
    | nil => exact fun s hs => ⟨s, rfl, hs⟩
    | cons op ops ih =>
      intro s hs
      obtain ⟨s₁, hs₁, hp₁⟩ := exec_paired hs op
      obtain ⟨s', hrun, hp⟩ := ih s₁ hp₁
      exact ⟨s', by rw [run, hs₁]; exact hrun, hp⟩
  obtain ⟨⟨p, live⟩, hrun, hok, hlive⟩ := hall ops (new events, 0) ⟨new_ok events, rfl⟩
  exact ⟨p, live, hrun, hok, hlive⟩

end Poll

end Dframework
