import Mathlib
import Dframework.Base.Retval
import Dframework.Lang.String
import Dframework.Util.ArraySorted

/-!
# `RecentlyFiles`

The files of a server with the times of their last use, in two sorted arrays: `m_aNames`
by name, where a `Name` points to its `Time`, and `m_aTimes` by time. A time is looked for
in `m_aTimes` by bisection; from the place found, its entry is searched for downwards and
then upwards. The entry is told by the time and the name, and there the names are compared
without regard to case.

Results:
1. `RecentlyFiles.searchName_cases`: what is found in the name index.
2. `Recent.exec_iff`: which operations keep the two indexes in step.
3. `recent_run_iff`: the same for runs.
-/

namespace Dframework

open CLib

structure RecentTime where
  name : Bytes
  time : Nat
  deriving DecidableEq, Repr

/-- The `Time` objects there are, and the two arrays: `m_aNames` holds the name and the object
of a file, `m_aTimes` the objects. -/
structure RecentlyFiles where
  nodes : List RecentTime
  names : List (Bytes × Nat)
  times : List Nat
  deriving DecidableEq, Repr

namespace RecentlyFiles

def empty : RecentlyFiles := ⟨[], [], []⟩

def node (s : RecentlyFiles) (id : Nat) : RecentTime :=
  (s.nodes[id]?).getD ⟨[], 0⟩

def timeOf (s : RecentlyFiles) (id : Nat) : Nat :=
  (s.node id).time

def nameKeys (s : RecentlyFiles) : List Bytes :=
  s.names.map Prod.fst

def timeKeys (s : RecentlyFiles) : List Nat :=
  s.times.map s.timeOf

/-- `m_aNames.get`. -/
def searchName (s : RecentlyFiles) (name : Bytes) : Option (Bytes × Nat) :=
  (ArraySorted.index compareChars name s.nameKeys).bind fun i => s.names[i]?

/-- `m_aNames.insert`. -/
def insertName (s : RecentlyFiles) (name : Bytes) (id : Nat) : RecentlyFiles :=
  { s with names := s.names.insertIdx (ArraySorted.insertId compareChars name s.nameKeys) (name, id) }

/-- `m_aNames.remove`. -/
def removeName (s : RecentlyFiles) (name : Bytes) : RecentlyFiles :=
  match ArraySorted.index compareChars name s.nameKeys with
  | some i => { s with names := s.names.eraseIdx i }
  | none => s

/-- `m_aTimes.insert`. -/
def insertTime (s : RecentlyFiles) (id : Nat) : RecentlyFiles :=
  { s with times := s.times.insertIdx (ArraySorted.insertId compare (s.timeOf id) s.timeKeys) id }

/-- `m_aTimes.index`. -/
def indexTime (s : RecentlyFiles) (time : Nat) : Option Nat :=
  ArraySorted.index compare time s.timeKeys

/-- Whether the loops stop at an entry. The names are compared when the times are equal. -/
def isEntry (s : RecentlyFiles) (name : Bytes) (time id : Nat) : Option Bool :=
  if s.timeOf id ≠ time then some false
  else equalsChars (s.node id).name (toChars name)

/-- The positions of the two loops: from `index` down, and then from `index + 1` up. -/
def scanOrder (index size : Nat) : List Nat :=
  (List.range (index + 1)).reverse ++ List.range' (index + 1) (size - (index + 1))

/-- The two loops, which leave at an entry. -/
def scan (s : RecentlyFiles) (name : Bytes) (time : Nat) : List Nat → Option (Option Nat)
  | [] => some none
  | k :: ks =>
    match s.times[k]? with
    | none => s.scan name time ks
    | some id => do
      if ← s.isEntry name time id then some (some k) else s.scan name time ks

def removeTime (s : RecentlyFiles) (id : Nat) : Option (Retval × RecentlyFiles) :=
  let fTime := s.node id
  match s.indexTime fTime.time with
  | none => some (retval .error, s)
  | some index => do
    match ← s.scan fTime.name fTime.time (scanOrder index s.times.length) with
    | some k => some (none, { s with times := s.times.eraseIdx k })
    | none => some (retval .error, s)

/-- `temp->m_iTime = val` between `m_aTimes.remove(k)` and `m_aTimes.insert(temp)`. There is room
for what has just been taken out. -/
def moveTime (s : RecentlyFiles) (k id val : Nat) : RecentlyFiles :=
  insertTime { s with
    nodes := s.nodes.set id { s.node id with time := val }, times := s.times.eraseIdx k } id

def updateTime (s : RecentlyFiles) (name : Bytes) (old val : Nat) : Option (Retval × RecentlyFiles) :=
  match s.indexTime old with
  | none => some (retval .error, s)
  | some index => do
    match ← s.scan name old (scanOrder index s.times.length) with
    | some k => some (none, s.moveTime k ((s.times[k]?).getD 0) val)
    | none => some (none, s)

/-- `RecentlyFiles::add`. `nameRoom` and `timeRoom` tell whether the two arrays can take one more.
When the second cannot, a `String` is taken for a `Name`. -/
def add (s : RecentlyFiles) (name : Bytes) (time : Nat) (nameRoom timeRoom : Bool) :
    Option (Retval × RecentlyFiles) :=
  let name := cstr name
  match s.searchName name with
  | none =>
    if nameRoom then
      let id := s.nodes.length
      let s := insertName { s with nodes := s.nodes ++ [⟨name, time⟩] } name id
      if timeRoom then some (none, s.insertTime id) else none
    else some (retval .eNomem, s)
  | some n => s.updateTime name (s.timeOf n.2) time

def remove (s : RecentlyFiles) (name : Bytes) : Option (Retval × RecentlyFiles) :=
  match s.searchName (cstr name) with
  | none => some (none, s)
  | some n => (s.removeName n.1).removeTime n.2

/-! ## The two indexes -/

/-- Both indexes hold the same files, each of them once, and every file with the time last
given for it. -/
structure InStep (s : RecentlyFiles) (given : Bytes → Option Nat) : Prop where
  same : s.times.Perm (s.names.map Prod.snd)
  once : s.times.Nodup
  named : ∀ n ∈ s.names, (s.node n.2).name = n.1
  sorted : ArraySorted.Sorted compare s.timeKeys
  names : s.nameKeys.Nodup
  last : ∀ name time, given name = some time ↔ ∃ id, (name, id) ∈ s.names ∧ s.timeOf id = time

/-- What the searches need besides. -/
structure Kept (s : RecentlyFiles) (given : Bytes → Option Nat) : Prop extends InStep s given where
  ordered : ArraySorted.Sorted compareChars s.nameKeys
  bound : ∀ id ∈ s.times, id < s.nodes.length

variable {s : RecentlyFiles} {given : Bytes → Option Nat} {name : Bytes} {id id₀ k time old val : Nat}
  {n : Bytes × Nat} {ks : List Nat}

theorem Kept.empty : Kept empty fun _ => none := by
  refine ⟨⟨.refl _, List.nodup_nil, ?_, List.Pairwise.nil, List.nodup_nil, ?_⟩, List.Pairwise.nil, ?_⟩
  · exact fun n hn => absurd hn List.not_mem_nil
  · exact fun name time => iff_of_false (by simp) fun ⟨id, hmem, _⟩ => absurd hmem List.not_mem_nil
  · exact fun id hid => absurd hid List.not_mem_nil

/-- A name is found if it is there, and with its own entry. -/
theorem searchName_cases (h : ArraySorted.Sorted compareChars s.nameKeys) (name : Bytes) :
    (s.searchName name = none ∧ name ∉ s.nameKeys) ∨
      ∃ i n, s.searchName name = some n ∧ n.1 = name ∧ s.names[i]? = some n ∧
        s.removeName name = { s with names := s.names.eraseIdx i } := by
  obtain ⟨hfound, hnone⟩ := ArraySorted.index_finds h name
  rw [searchName, removeName]
  rcases hi : ArraySorted.index compareChars name s.nameKeys with _ | i
  · exact .inl ⟨rfl, fun hmem => hnone hi name hmem Std.ReflCmp.compare_self⟩
  · obtain ⟨key, hkey, heq⟩ := hfound i hi
    rw [nameKeys, List.getElem?_map, Option.map_eq_some_iff] at hkey
    obtain ⟨n, hn, rfl⟩ := hkey
    exact .inr ⟨i, n, by rw [Option.bind_some, hn], (Std.LawfulEqCmp.eq_of_compare heq).symm, hn, rfl⟩

theorem eq_of_mem_names (h : s.nameKeys.Nodup) (hn : n ∈ s.names) (hid : (n.1, id) ∈ s.names) :
    id = n.2 :=
  congrArg Prod.snd (List.inj_on_of_nodup_map h hid hn rfl)

/-! ## The loops -/

theorem scan_eq_some_iff : s.scan name time ks = some (some k) ↔
    ∃ pre post id, ks = pre ++ k :: post ∧
      (∀ j ∈ pre, ∀ id, s.times[j]? = some id → s.isEntry name time id = some false) ∧
      s.times[k]? = some id ∧ s.isEntry name time id = some true := by
  induction ks with
  | nil =>
    refine iff_of_false (by simp [scan]) ?_
    rintro ⟨pre, post, id, hks, -⟩
    exact List.append_ne_nil_of_right_ne_nil pre (List.cons_ne_nil k post) hks.symm
  | cons j ks ih =>
    -- the step to the rest, when the loop does not leave at `j`
    have hrest : (∀ id, s.times[j]? = some id → s.isEntry name time id = some false) →
        s.scan name time (j :: ks) = s.scan name time ks → (s.scan name time (j :: ks) = some (some k) ↔
          ∃ pre post id, j :: ks = pre ++ k :: post ∧
            (∀ j ∈ pre, ∀ id, s.times[j]? = some id → s.isEntry name time id = some false) ∧
            s.times[k]? = some id ∧ s.isEntry name time id = some true) := by
      intro hj hscan
      rw [hscan, ih]
      constructor
      · rintro ⟨pre, post, id, rfl, hpre, hid⟩
        exact ⟨j :: pre, post, id, rfl, List.forall_mem_cons.mpr ⟨hj, hpre⟩, hid⟩
      · rintro ⟨pre, post, id, hks, hpre, hid, hentry⟩
        rcases pre with _ | ⟨j', pre⟩
        · obtain ⟨rfl, -⟩ := List.cons.inj hks
          rw [hj id hid] at hentry
          cases hentry
        · obtain ⟨rfl, rfl⟩ := List.cons.inj hks
          exact ⟨pre, post, id, rfl, (List.forall_mem_cons.mp hpre).2, hid, hentry⟩
    rcases hid : s.times[j]? with _ | id
    · exact hrest (fun id h => by rw [hid] at h; cases h) (by rw [scan, hid])
    rcases hentry : s.isEntry name time id with _ | _ | _
    · refine iff_of_false (by rw [scan, hid]; simp [hentry]) ?_
      rintro ⟨pre, post, id', hks, hpre, hid', hentry'⟩
      rcases pre with _ | ⟨j', pre⟩
      · obtain ⟨rfl, -⟩ := List.cons.inj hks
        obtain rfl := Option.some.inj (hid.symm.trans hid')
        rw [hentry] at hentry'
        cases hentry'
      · obtain ⟨rfl, -⟩ := List.cons.inj hks
        have := hpre j List.mem_cons_self id hid
        rw [hentry] at this
        cases this
    · refine hrest (fun id' h => ?_) (by rw [scan, hid]; simp [hentry])
      obtain rfl := Option.some.inj (hid.symm.trans h)
      exact hentry
    · rw [scan, hid]
      simp only [hentry, Option.bind_eq_bind, Option.bind_some, if_true, Option.some.injEq]
      constructor
      · rintro rfl
        exact ⟨[], ks, id, rfl, fun _ h => absurd h List.not_mem_nil, hid, hentry⟩
      · rintro ⟨pre, post, id', hks, hpre, -⟩
        rcases pre with _ | ⟨j', pre⟩
        · exact (List.cons.inj hks).1
        · obtain ⟨rfl, -⟩ := List.cons.inj hks
          have := hpre j List.mem_cons_self id hid
          rw [hentry] at this
          cases this

/-- With an entry of the name among the positions, the loops leave at one, or read from `NULL`. -/
theorem scan_stops (hk : k ∈ ks) (hid : s.times[k]? = some id)
    (hentry : s.isEntry name time id = some true) :
    s.scan name time ks = none ∨ ∃ j, s.scan name time ks = some (some j) := by
  induction ks with
  | nil => exact absurd hk List.not_mem_nil
  | cons j ks ih =>
    rw [scan]
    rcases hj : s.times[j]? with _ | id'
    · rcases List.mem_cons.mp hk with rfl | hk
      · rw [hid] at hj
        cases hj
      · exact ih hk
    · rcases hentry' : s.isEntry name time id' with _ | _ | _
      · exact .inl (by simp [hentry'])
      · rcases List.mem_cons.mp hk with rfl | hk
        · obtain rfl := Option.some.inj (hid.symm.trans hj)
          rw [hentry] at hentry'
          cases hentry'
        · simpa [hentry'] using ih hk
      · exact .inr ⟨j, by simp [hentry']⟩

theorem mem_scanOrder {index size : Nat} (hk : k < size) : k ∈ scanOrder index size := by
  rw [scanOrder, List.mem_append, List.mem_reverse, List.mem_range, List.mem_range'_1]
  omega

/-- The first entry the loops stop at, and it has the property `P`. -/
def StopsAt (s : RecentlyFiles) (name : Bytes) (time : Nat) (P : Nat → Prop) : Prop :=
  ∃ index pre k post id, s.indexTime time = some index ∧
    scanOrder index s.times.length = pre ++ k :: post ∧
    (∀ j ∈ pre, ∀ id, s.times[j]? = some id → s.isEntry name time id = some false) ∧
    s.times[k]? = some id ∧ s.isEntry name time id = some true ∧ P id

theorem isEntry_own (h : InStep s given) (hn : n ∈ s.names) :
    s.isEntry n.1 (s.timeOf n.2) n.2 = some true := by
  rw [isEntry, if_neg (not_not.mpr rfl), h.named n hn]
  rcases hname : n.1 with _ | ⟨c, cs⟩
  · rfl
  · show some (equals (c :: cs) (c :: cs)) = some true
    simp [equals]

theorem timeOf_of_isEntry (h : s.isEntry name time id = some true) : s.timeOf id = time := by
  rw [isEntry] at h
  split at h
  · cases h
  next heq => exact not_not.mp heq

/-- The loops look for the entry of a name that is there. They read from `NULL`, or leave at an
entry of the time. -/
theorem search_own (h : InStep s given) (hn : n ∈ s.names) :
    ∃ index, s.indexTime (s.timeOf n.2) = some index ∧
      ((s.scan n.1 (s.timeOf n.2) (scanOrder index s.times.length) = none ∧
        ∀ P, ¬ s.StopsAt n.1 (s.timeOf n.2) P) ∨
      ∃ k id, s.scan n.1 (s.timeOf n.2) (scanOrder index s.times.length) = some (some k) ∧
        s.times[k]? = some id ∧ s.timeOf id = s.timeOf n.2 ∧
        ∀ P, s.StopsAt n.1 (s.timeOf n.2) P ↔ P id) := by
  have hmem : n.2 ∈ s.times := h.same.mem_iff.mpr (List.mem_map_of_mem hn)
  obtain ⟨p, hp⟩ := List.mem_iff_getElem?.mp hmem
  obtain ⟨index, hindex⟩ : ∃ index, s.indexTime (s.timeOf n.2) = some index := by
    refine Option.isSome_iff_exists.mp ((ArraySorted.index_isSome_iff h.sorted _).mpr ?_)
    exact ⟨_, List.mem_map_of_mem hmem, Std.ReflCmp.compare_self⟩
  refine ⟨index, hindex, ?_⟩
  have hstops : ∀ P, s.StopsAt n.1 (s.timeOf n.2) P →
      ∃ k id, s.scan n.1 (s.timeOf n.2) (scanOrder index s.times.length) = some (some k) ∧
        s.times[k]? = some id ∧ P id := by
    rintro P ⟨index', pre, k, post, id, hindex', hks, hpre, hid, hentry, hP⟩
    obtain rfl := Option.some.inj (hindex.symm.trans hindex')
    exact ⟨k, id, scan_eq_some_iff.mpr ⟨pre, post, id, hks, hpre, hid, hentry⟩, hid, hP⟩
  have hlt : p < s.times.length := (List.getElem?_eq_some_iff.mp hp).1
  rcases scan_stops (mem_scanOrder hlt) hp (isEntry_own h hn) with hnone | ⟨k, hscan⟩
  · refine .inl ⟨hnone, fun P hP => ?_⟩
    obtain ⟨k, id, hscan, -⟩ := hstops P hP
    rw [hnone] at hscan
    cases hscan
  · obtain ⟨pre, post, id, hks, hpre, hid, hentry⟩ := scan_eq_some_iff.mp hscan
    refine .inr ⟨k, id, hscan, hid, timeOf_of_isEntry hentry, fun P => ⟨fun hP => ?_, fun hP => ?_⟩⟩
    · obtain ⟨k', id', hscan', hid', hP'⟩ := hstops P hP
      obtain rfl := Option.some.inj (Option.some.inj (hscan.symm.trans hscan'))
      exact Option.some.inj (hid'.symm.trans hid) ▸ hP'
    · exact ⟨index, pre, k, post, id, hindex, hks, hpre, hid, hentry, hP⟩

/-! ## One operation -/

theorem insertTime_sorted (h : ArraySorted.Sorted compare s.timeKeys) (id : Nat) :
    ArraySorted.Sorted compare (s.insertTime id).timeKeys ∧ (s.insertTime id).times.Perm (id :: s.times) := by
  have hle := ArraySorted.insertId_le compare (s.timeOf id) s.timeKeys
  constructor
  · have hkeys : (s.insertTime id).timeKeys = ArraySorted.insert compare (s.timeOf id) s.timeKeys :=
      List.map_insertIdx _ _ _ _
    rw [hkeys]
    exact ArraySorted.insert_sorted h _
  · exact List.perm_insertIdx _ _ (by rwa [timeKeys, List.length_map] at hle)

theorem insertName_sorted (h : ArraySorted.Sorted compareChars s.nameKeys) (name : Bytes) (id : Nat) :
    ArraySorted.Sorted compareChars (s.insertName name id).nameKeys ∧
      (s.insertName name id).names.Perm ((name, id) :: s.names) := by
  have hle := ArraySorted.insertId_le compareChars name s.nameKeys
  constructor
  · have hkeys : (s.insertName name id).nameKeys = ArraySorted.insert compareChars name s.nameKeys :=
      List.map_insertIdx _ _ _ _
    rw [hkeys]
    exact ArraySorted.insert_sorted h _
  · exact List.perm_insertIdx _ _ (by rwa [nameKeys, List.length_map] at hle)

/-- A name that is new, with a `Time` of its own. -/
theorem Kept.insert (h : Kept s given) (hnew : name ∉ s.nameKeys) (time : Nat) :
    Kept ((insertName { s with nodes := s.nodes ++ [⟨name, time⟩] } name s.nodes.length).insertTime
      s.nodes.length) (Function.update given name (some time)) := by
  set s₁ := insertName { s with nodes := s.nodes ++ [⟨name, time⟩] } name s.nodes.length with hs₁
  have hold : ∀ id, id < s.nodes.length → s₁.node id = s.node id := fun id hid => by
    rw [node, node, show s₁.nodes = s.nodes ++ [⟨name, time⟩] from rfl, List.getElem?_append_left hid]
  have hnode : s₁.node s.nodes.length = ⟨name, time⟩ := by
    rw [node, show s₁.nodes = s.nodes ++ [⟨name, time⟩] from rfl, List.getElem?_concat_length]
    rfl
  have hbound : ∀ n ∈ s.names, n.2 < s.nodes.length := fun n hn =>
    h.bound _ (h.same.mem_iff.mpr (List.mem_map_of_mem hn))
  have hkeys : s₁.timeKeys = s.timeKeys :=
    List.map_congr_left fun id hid => congrArg RecentTime.time (hold id (h.bound id hid))
  obtain ⟨hordered, hnames⟩ := insertName_sorted (s := { s with nodes := s.nodes ++ [⟨name, time⟩] })
    h.ordered name s.nodes.length
  obtain ⟨hsorted, htimes⟩ := insertTime_sorted (hkeys ▸ h.sorted) s.nodes.length
  have hmem : ∀ n, n ∈ s₁.names ↔ n = (name, s.nodes.length) ∨ n ∈ s.names := fun n => by
    rw [hnames.mem_iff, List.mem_cons]
  refine ⟨⟨?_, ?_, ?_, hsorted, ?_, ?_⟩, hordered, ?_⟩
  · refine htimes.trans (.trans ?_ (hnames.map Prod.snd).symm)
    exact h.same.cons _
  · refine htimes.nodup_iff.mpr (List.nodup_cons.mpr ⟨fun hmem => ?_, h.once⟩)
    exact absurd (h.bound _ hmem) (lt_irrefl _)
  · intro n hn
    show (s₁.node n.2).name = n.1
    rcases (hmem n).mp hn with rfl | hn
    · rw [hnode]
    · rw [hold _ (hbound n hn), h.named n hn]
  · exact (hnames.map Prod.fst).nodup_iff.mpr (List.nodup_cons.mpr ⟨hnew, h.names⟩)
  · intro name' time'
    show _ ↔ ∃ id, (name', id) ∈ s₁.names ∧ s₁.timeOf id = time'
    rcases eq_or_ne name' name with rfl | hne
    · rw [Function.update_self]
      constructor
      · rintro ⟨⟩
        exact ⟨_, (hmem _).mpr (.inl rfl), congrArg RecentTime.time hnode⟩
      · rintro ⟨id, hid, rfl⟩
        rcases (hmem _).mp hid with heq | hid
        · rw [(Prod.mk.inj heq).2]
          exact congrArg some (congrArg RecentTime.time hnode).symm
        · exact absurd (List.mem_map_of_mem hid) hnew
    · rw [Function.update_of_ne hne, h.last]
      refine exists_congr fun id => ?_
      rw [hmem, or_iff_right fun heq => hne (Prod.mk.inj heq).1]
      refine and_congr_right fun hid => ?_
      rw [timeOf, timeOf, hold id (hbound _ hid)]
  · intro id hid
    show id < (s.nodes ++ [_]).length
    rw [List.length_append, List.length_singleton]
    rcases List.mem_cons.mp (htimes.mem_iff.mp hid) with rfl | hid
    · exact Nat.lt_succ_self _
    · exact (h.bound id hid).trans (Nat.lt_succ_self _)

theorem node_moveTime (h : Kept s given) (hk : s.times[k]? = some id) (val j : Nat) :
    (s.moveTime k id val).node j = if j = id then { s.node id with time := val } else s.node j := by
  have hlt : id < s.nodes.length := h.bound id (List.mem_of_getElem? hk)
  show (((s.nodes.set id { s.node id with time := val })[j]?).getD ⟨[], 0⟩) = _
  rw [List.getElem?_set]
  rcases eq_or_ne j id with rfl | hne
  · rw [if_pos rfl, if_pos hlt, if_pos rfl]
    rfl
  · rw [if_neg hne.symm, if_neg hne]
    rfl

/-- An entry goes to its new place in the time index. -/
theorem moveTime_times (h : Kept s given) (hk : s.times[k]? = some id) (val : Nat) :
    (s.moveTime k id val).times.Perm s.times ∧
      ArraySorted.Sorted compare (s.moveTime k id val).timeKeys := by
  obtain ⟨hlt, hget⟩ := List.getElem?_eq_some_iff.mp hk
  set s₁ : RecentlyFiles := { s with
    nodes := s.nodes.set id { s.node id with time := val }, times := s.times.eraseIdx k } with hs₁
  have herase : (id :: s.times.eraseIdx k).Perm s.times := hget ▸ List.getElem_cons_eraseIdx_perm hlt
  have hnot : id ∉ s.times.eraseIdx k := (List.nodup_cons.mp (herase.nodup_iff.mpr h.once)).1
  have hkeys : s₁.timeKeys = s.timeKeys.eraseIdx k := by
    rw [timeKeys, timeKeys, List.eraseIdx_map]
    refine List.map_congr_left fun j hj => ?_
    have hnode := node_moveTime h hk val j
    rw [if_neg fun heq : j = id => hnot (heq ▸ hj)] at hnode
    exact congrArg RecentTime.time hnode
  obtain ⟨hsorted, hperm⟩ := insertTime_sorted (s := s₁) (hkeys ▸ h.sorted.eraseIdx k) id
  exact ⟨hperm.trans herase, hsorted⟩

/-- The entry of another name, moved to another time, leaves the name with its old one. -/
theorem moveTime_iff (h : Kept s given) (hn : n ∈ s.names) (hk : s.times[k]? = some id)
    (htime : s.timeOf id = s.timeOf n.2) :
    InStep (s.moveTime k id val) (Function.update given n.1 (some val)) ↔
      id = n.2 ∨ val = s.timeOf n.2 := by
  have hnode := node_moveTime h hk val
  obtain ⟨hperm, hsorted⟩ := moveTime_times h hk val
  constructor
  · intro hstep
    by_contra hne
    rw [not_or] at hne
    obtain ⟨id', hid', hval⟩ := (hstep.last n.1 val).mp (Function.update_self ..)
    obtain rfl : id' = n.2 := eq_of_mem_names h.names hn hid'
    rw [timeOf, hnode, if_neg (Ne.symm hne.1)] at hval
    exact hne.2 hval.symm
  · intro hright
    refine ⟨hperm.trans h.same, hperm.nodup_iff.mpr h.once, fun m hm => ?_, hsorted, h.names, ?_⟩
    · rw [hnode]
      split
      next heq => rw [← h.named m hm, heq]
      next => exact h.named m hm
    · intro name time
      show _ ↔ ∃ j, (name, j) ∈ s.names ∧ (s.moveTime k id val).timeOf j = time
      have htimeOf : ∀ j, (s.moveTime k id val).timeOf j = if j = id then val else s.timeOf j := by
        intro j
        rw [timeOf, hnode]
        split <;> rfl
      rcases hright with rfl | rfl
      · rcases eq_or_ne name n.1 with rfl | hne
        · rw [Function.update_self]
          constructor
          · rintro ⟨⟩
            exact ⟨n.2, hn, by rw [htimeOf, if_pos rfl]⟩
          · rintro ⟨j, hj, rfl⟩
            rw [htimeOf, if_pos (eq_of_mem_names h.names hn hj)]
        · rw [Function.update_of_ne hne, h.last]
          refine exists_congr fun j => and_congr_right fun hj => ?_
          have hjn : j ≠ n.2 := fun heq => hne <| by
            rw [← h.named n hn, ← heq]
            exact (h.named _ hj).symm
          rw [htimeOf, if_neg hjn]
      · have hgiven : Function.update given n.1 (some (s.timeOf n.2)) = given := by
          rw [← (h.last n.1 _).mpr ⟨n.2, hn, rfl⟩, Function.update_eq_self]
        rw [hgiven, h.last]
        refine exists_congr fun j => and_congr_right fun _ => ?_
        rw [htimeOf]
        split
        next heq => rw [heq, htime]
        next => rfl

theorem moveTime_kept (h : Kept s given) (hk : s.times[k]? = some id) {given' : Bytes → Option Nat}
    (hstep : InStep (s.moveTime k id val) given') : Kept (s.moveTime k id val) given' := by
  refine ⟨hstep, h.ordered, fun j hj => ?_⟩
  show j < (s.nodes.set id _).length
  rw [List.length_set]
  exact h.bound j ((moveTime_times h hk val).1.mem_iff.mp hj)

/-- Without its name, an entry that is taken out has to be the name's own. -/
theorem removeTime_iff (h : Kept s given) {i : Nat} (hn : s.names[i]? = some n)
    (hk : s.times[k]? = some id) :
    InStep { s with names := s.names.eraseIdx i, times := s.times.eraseIdx k }
      (Function.update given n.1 none) ↔ id = n.2 := by
  obtain ⟨hlt, hget⟩ := List.getElem?_eq_some_iff.mp hk
  obtain ⟨hi, hgetn⟩ := List.getElem?_eq_some_iff.mp hn
  have htimes : (id :: s.times.eraseIdx k).Perm s.times := hget ▸ List.getElem_cons_eraseIdx_perm hlt
  have hnames : (n :: s.names.eraseIdx i).Perm s.names := hgetn ▸ List.getElem_cons_eraseIdx_perm hi
  have hboth : (id :: s.times.eraseIdx k).Perm (n.2 :: (s.names.eraseIdx i).map Prod.snd) :=
    htimes.trans (h.same.trans (hnames.map Prod.snd).symm)
  have honce : (id :: s.times.eraseIdx k).Nodup := htimes.nodup_iff.mpr h.once
  constructor
  · intro hstep
    by_contra hne
    -- the name's own entry is left in the time index
    have hmem : n.2 ∈ s.times.eraseIdx k :=
      List.mem_of_ne_of_mem (Ne.symm hne) (hboth.mem_iff.mpr List.mem_cons_self)
    exact (List.nodup_cons.mp (hboth.nodup_iff.mp honce)).1 (hstep.same.mem_iff.mp hmem)
  · rintro rfl
    have hkeys : (n.1 :: (s.names.eraseIdx i).map Prod.fst).Nodup :=
      (hnames.map Prod.fst).nodup_iff.mpr h.names
    obtain ⟨hnot, hkeys⟩ := List.nodup_cons.mp hkeys
    refine ⟨hboth.cons_inv, (List.nodup_cons.mp honce).2, fun m hm => ?_, ?_, hkeys, ?_⟩
    · exact h.named m (List.mem_of_mem_eraseIdx hm)
    · show ArraySorted.Sorted compare ((s.times.eraseIdx k).map s.timeOf)
      rw [← List.eraseIdx_map]
      exact h.sorted.eraseIdx k
    · intro name time
      show _ ↔ ∃ j, (name, j) ∈ s.names.eraseIdx i ∧ s.timeOf j = time
      rcases eq_or_ne name n.1 with rfl | hne
      · rw [Function.update_self]
        refine iff_of_false (by simp) ?_
        rintro ⟨j, hj, -⟩
        exact hnot (List.mem_map.mpr ⟨_, hj, rfl⟩)
      · rw [Function.update_of_ne hne, h.last]
        refine exists_congr fun j => and_congr_left fun _ => ?_
        rw [← hnames.mem_iff, List.mem_cons, or_iff_right fun heq => hne (congrArg Prod.fst heq)]

theorem removeTime_kept (h : Kept s given) {i : Nat} {given' : Bytes → Option Nat}
    (hstep : InStep { s with names := s.names.eraseIdx i, times := s.times.eraseIdx k } given') :
    Kept { s with names := s.names.eraseIdx i, times := s.times.eraseIdx k } given' := by
  refine ⟨hstep, ?_, fun j hj => h.bound j (List.mem_of_mem_eraseIdx hj)⟩
  show ArraySorted.Sorted compareChars ((s.names.eraseIdx i).map Prod.fst)
  rw [← List.eraseIdx_map]
  exact h.ordered.eraseIdx i

theorem scan_names (names : List (Bytes × Nat)) (ks : List Nat) :
    scan { s with names } name time ks = s.scan name time ks := by
  induction ks with
  | nil => rfl
  | cons k ks ih =>
    simp only [scan, ih]
    rfl

end RecentlyFiles

/-! ## Runs -/

inductive RecentOp where
  | add (name : Bytes) (time : Nat) (nameRoom timeRoom : Bool)
  | remove (name : Bytes)

/-- The files, and the time last given for each of them. -/
structure Recent where
  files : RecentlyFiles
  given : Bytes → Option Nat

namespace Recent

open RecentlyFiles

def empty : Recent := ⟨.empty, fun _ => none⟩

def exec (s : Recent) : RecentOp → Option Recent
  | .add name time nameRoom timeRoom => do
    let (retval, files) ← s.files.add name time nameRoom timeRoom
    some ⟨files, if retval = none then Function.update s.given (cstr name) (some time) else s.given⟩
  | .remove name => do
    let (_, files) ← s.files.remove name
    some ⟨files, Function.update s.given (cstr name) none⟩

/-- The loops leave at the entry of the file itself, when its time changes or it is removed. A
file that is new is taken by both arrays, or by none. -/
def Finds (s : RecentlyFiles) : RecentOp → Prop
  | .add name time nameRoom timeRoom =>
    match s.searchName (cstr name) with
    | none => nameRoom = true → timeRoom = true
    | some n => s.StopsAt n.1 (s.timeOf n.2) fun id => id = n.2 ∨ time = s.timeOf n.2
  | .remove name =>
    match s.searchName (cstr name) with
    | none => True
    | some n => s.StopsAt n.1 (s.timeOf n.2) fun id => id = n.2

/-- The operation has a result, which keeps the two indexes in step. -/
def Steps (s : Recent) (op : RecentOp) : Prop :=
  ∃ s', s.exec op = some s' ∧ InStep s'.files s'.given

variable {s s' : Recent} {n : Bytes × Nat}

theorem steps_of_exec {op : RecentOp} (h : s.exec op = some s') :
    s.Steps op ↔ InStep s'.files s'.given := by
  constructor
  · rintro ⟨s₁, hexec, hstep⟩
    exact Option.some.inj (hexec.symm.trans h) ▸ hstep
  · exact fun hstep => ⟨s', h, hstep⟩

theorem not_steps_of_exec {op : RecentOp} (h : s.exec op = none) : ¬ s.Steps op := by
  rintro ⟨s₁, hexec, -⟩
  rw [h] at hexec
  cases hexec

/-- The other invariants last as long as the indexes are in step. -/
def Lasts (s : Recent) (op : RecentOp) : Prop :=
  ∀ s', s.exec op = some s' → InStep s'.files s'.given → Kept s'.files s'.given

theorem lasts_of_exec {op : RecentOp} (h : s.exec op = some s')
    (hkept : InStep s'.files s'.given → Kept s'.files s'.given) : s.Lasts op :=
  fun _ hexec => Option.some.inj (h.symm.trans hexec) ▸ hkept

theorem lasts_of_none {op : RecentOp} (h : s.exec op = none) : s.Lasts op :=
  fun _ hexec => by rw [h] at hexec; cases hexec

theorem exec_add (h : Kept s.files s.given) (name : Bytes) (time : Nat) (nameRoom timeRoom : Bool) :
    (s.Steps (.add name time nameRoom timeRoom) ↔ Finds s.files (.add name time nameRoom timeRoom)) ∧
      s.Lasts (.add name time nameRoom timeRoom) := by
  rw [Finds]
  rcases searchName_cases h.ordered (cstr name) with ⟨hnone, hnew⟩ | ⟨i, n, hsome, hname, hi, -⟩
  · rw [hnone]
    cases nameRoom with
    | false =>
      have hexec : s.exec (.add name time false timeRoom) = some s := by
        rw [exec, add]
        simp only [hnone]
        rfl
      exact ⟨iff_of_true ((steps_of_exec hexec).mpr h.toInStep) (by simp),
        lasts_of_exec hexec fun _ => h⟩
    | true =>
      cases timeRoom with
      | false =>
        have hexec : s.exec (.add name time true false) = none := by
          rw [exec, add]
          simp only [hnone]
          rfl
        exact ⟨iff_of_false (not_steps_of_exec hexec) (by simp), lasts_of_none hexec⟩
      | true =>
        have hkept := h.insert hnew time
        have hexec : s.exec (.add name time true true) = some ⟨(insertName { s.files with
            nodes := s.files.nodes ++ [⟨cstr name, time⟩] } (cstr name)
              s.files.nodes.length).insertTime s.files.nodes.length,
            Function.update s.given (cstr name) (some time)⟩ := by
          rw [exec, add]
          simp only [hnone]
          rfl
        exact ⟨iff_of_true ((steps_of_exec hexec).mpr hkept.toInStep) fun _ => rfl,
          lasts_of_exec hexec fun _ => hkept⟩
  · have hn : n ∈ s.files.names := List.mem_of_getElem? hi
    obtain ⟨index, hindex, hscan⟩ := search_own h.toInStep hn
    have hadd : s.files.add name time nameRoom timeRoom =
        s.files.updateTime n.1 (s.files.timeOf n.2) time := by
      simp only [add, hsome, hname]
    rw [hsome]
    dsimp only
    rcases hscan with ⟨hscan, hstops⟩ | ⟨k, id, hscan, hk, htime, hstops⟩
    · have hexec : s.exec (.add name time nameRoom timeRoom) = none := by
        rw [exec, hadd, updateTime]
        simp only [hindex, hscan]
        rfl
      exact ⟨iff_of_false (not_steps_of_exec hexec) (hstops _), lasts_of_none hexec⟩
    · have hexec : s.exec (.add name time nameRoom timeRoom) =
          some ⟨s.files.moveTime k id time, Function.update s.given n.1 (some time)⟩ := by
        have hpicked : (s.files.times[k]?).getD 0 = id := by rw [hk, Option.getD_some]
        rw [exec, hadd, updateTime]
        simp only [hindex, hscan, ← hname, Option.bind_eq_bind, Option.bind_some, hpicked, if_true]
      refine ⟨?_, lasts_of_exec hexec (moveTime_kept h hk)⟩
      rw [steps_of_exec hexec, hstops]
      exact moveTime_iff h hn hk htime

theorem exec_remove (h : Kept s.files s.given) (name : Bytes) :
    (s.Steps (.remove name) ↔ Finds s.files (.remove name)) ∧ s.Lasts (.remove name) := by
  rw [Finds]
  rcases searchName_cases h.ordered (cstr name) with ⟨hnone, hnew⟩ | ⟨i, n, hsome, hname, hi, hremove⟩
  · have hgiven : Function.update s.given (cstr name) none = s.given := by
      have hnot : s.given (cstr name) = none := by
        refine Option.eq_none_iff_forall_ne_some.mpr fun time htime => ?_
        obtain ⟨id, hid, -⟩ := (h.last _ _).mp htime
        exact hnew (List.mem_map.mpr ⟨_, hid, rfl⟩)
      rw [← hnot, Function.update_eq_self]
    have hexec : s.exec (.remove name) = some s := by
      rw [exec, remove]
      simp only [hnone, hgiven]
      rfl
    rw [hnone]
    exact ⟨iff_of_true ((steps_of_exec hexec).mpr h.toInStep) trivial, lasts_of_exec hexec fun _ => h⟩
  · have hn : n ∈ s.files.names := List.mem_of_getElem? hi
    obtain ⟨index, hindex, hscan⟩ := search_own h.toInStep hn
    rw [← hname] at hremove
    set s₁ : RecentlyFiles := { s.files with names := s.files.names.eraseIdx i } with hs₁
    have hfile : s.files.remove name = s₁.removeTime n.2 := by
      simp only [remove, hsome, hremove, hs₁]
    have hnode : s₁.node n.2 = ⟨n.1, s.files.timeOf n.2⟩ := by
      rw [← h.named n hn]
      rfl
    have hindex₁ : s₁.indexTime (s.files.timeOf n.2) = some index := hindex
    have hscan₁ : ∀ ks, s₁.scan n.1 (s.files.timeOf n.2) ks =
        s.files.scan n.1 (s.files.timeOf n.2) ks := fun ks => scan_names _ ks
    rw [hsome]
    dsimp only
    rcases hscan with ⟨hscan, hstops⟩ | ⟨k, id, hscan, hk, htime, hstops⟩
    · have hexec : s.exec (.remove name) = none := by
        rw [exec, hfile, removeTime]
        simp only [hnode, hindex₁, hscan₁]
        simp only [show s₁.times = s.files.times from rfl, hscan]
        rfl
      exact ⟨iff_of_false (not_steps_of_exec hexec) (hstops _), lasts_of_none hexec⟩
    · have hexec : s.exec (.remove name) = some ⟨{ s.files with
          names := s.files.names.eraseIdx i, times := s.files.times.eraseIdx k },
          Function.update s.given n.1 none⟩ := by
        rw [exec, hfile, removeTime]
        simp only [hnode, hindex₁, hscan₁]
        simp only [show s₁.times = s.files.times from rfl, hscan, ← hname]
        rfl
      refine ⟨?_, lasts_of_exec hexec (removeTime_kept h)⟩
      rw [steps_of_exec hexec, hstops]
      exact removeTime_iff h hi hk

/-- An operation keeps the two indexes in step if its loops find what they look for. -/
theorem exec_iff (h : Kept s.files s.given) (op : RecentOp) :
    (s.Steps op ↔ Finds s.files op) ∧ s.Lasts op := by
  cases op with
  | add name time nameRoom timeRoom => exact exec_add h name time nameRoom timeRoom
  | remove name => exact exec_remove h name

/-- Every operation of a run has a result and keeps the two indexes in step. -/
def KeepsStep (s : Recent) : List RecentOp → Prop
  | [] => True
  | op :: ops => ∃ s', s.exec op = some s' ∧ InStep s'.files s'.given ∧ s'.KeepsStep ops

/-- Every operation of a run finds what its loops look for. -/
def AllFind (s : Recent) : List RecentOp → Prop
  | [] => True
  | op :: ops => Finds s.files op ∧ ∀ s', s.exec op = some s' → s'.AllFind ops

end Recent

/-- In a run of `add` and `remove`, the two indexes hold the same files, each of them once, by
name and by time, and each with the time last given for it, if and only if the loops leave at
the entry of the file they look for. -/
theorem recent_run_iff (ops : List RecentOp) : Recent.empty.KeepsStep ops ↔ Recent.empty.AllFind ops := by
  suffices h : ∀ s : Recent, s.files.Kept s.given → (s.KeepsStep ops ↔ s.AllFind ops) from
    h Recent.empty RecentlyFiles.Kept.empty
  induction ops with
  | nil => exact fun s _ => Iff.rfl
  | cons op ops ih =>
    intro s h
    obtain ⟨hiff, hlasts⟩ := Recent.exec_iff h op
    rw [Recent.KeepsStep, Recent.AllFind, ← hiff]
    constructor
    · rintro ⟨s', hexec, hstep, hrest⟩
      refine ⟨⟨s', hexec, hstep⟩, fun s₁ hexec₁ => ?_⟩
      obtain rfl := Option.some.inj (hexec.symm.trans hexec₁)
      exact (ih s' (hlasts s' hexec hstep)).mp hrest
    · rintro ⟨⟨s', hexec, hstep⟩, hrest⟩
      exact ⟨s', hexec, hstep, (ih s' (hlasts s' hexec hstep)).mpr (hrest s' hexec)⟩

/-- Two names that differ in case only, with one time: the removal of the one takes the time of
the other out. -/
theorem not_recent_run : ¬ Recent.empty.KeepsStep
    [.add (bytes "a") 5 true true, .add (bytes "A") 5 true true, .remove (bytes "A")] := by
  rintro ⟨s₁, h₁, -, s₂, h₂, -, s₃, h₃, hstep, -⟩
  have hrun : ((Recent.empty.exec (.add (bytes "a") 5 true true)).bind fun s =>
      (s.exec (.add (bytes "A") 5 true true)).bind fun s => s.exec (.remove (bytes "A"))).map
        Recent.files = some ⟨[⟨bytes "a", 5⟩, ⟨bytes "A", 5⟩], [(bytes "a", 0)], [1]⟩ := by
    decide
  rw [h₁, Option.bind_some, h₂, Option.bind_some, h₃, Option.map_some] at hrun
  have hsame := hstep.same
  rw [Option.some.inj hrun] at hsame
  exact absurd hsame (by decide)

end Dframework
