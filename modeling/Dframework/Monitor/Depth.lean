import Mathlib
import Dframework.Monitor.Devices

/-!
# What was counted of each device

On the lowest level `depth` takes from the counters of each row those of the row at the same
position of the record before. Both arrays are in the order of the devices, so that a device which
came or went moves all those behind it by one position.

Results:
1. `Componentwise.isDifference_iff`: the words whose difference is that of the numbers.
2. `ownDifferences_iff`: when the rows at the same positions give each device what it counted.
3. `depth_iff`: the same for `MonCpustat` and `MonDiskstats`.
-/

namespace Dframework

/-! ## Counters that are taken from each other one by one -/

section

variable {κ : Type} [Zero κ] [Sub κ]

/-- A record of counters, which `values` lists. -/
structure Componentwise (values : κ → List UInt64) : Prop where
  injective : ∀ {a b}, values a = values b → a = b
  sub : ∀ a b, values (a - b) = List.zipWith (· - ·) (values a) (values b)
  length : ∀ a b, (values a).length = (values b).length
  sub_zero : ∀ a : κ, a - 0 = a

/-- `d` is what is counted from `a` to `c`: as numbers, `d` and `a` together are `c`. -/
def IsDifference (values : κ → List UInt64) (d c a : κ) : Prop :=
  List.zipWith (fun d a => d.toNat + a.toNat) (values d) (values a) = (values c).map UInt64.toNat

/-- No counter of `a` is greater than that of `c`. -/
def NotAbove (values : κ → List UInt64) (a c : κ) : Prop :=
  List.Forall₂ (· ≤ ·) (values a) (values c)

theorem word_sub_iff (c w a : UInt64) :
    (c - w).toNat + a.toNat = c.toNat ↔ w = a ∧ a ≤ c := by
  have hc := c.toNat_lt
  have hw := w.toNat_lt
  have ha := a.toNat_lt
  rw [UInt64.toNat_sub, ← UInt64.toNat_inj, UInt64.le_iff_toNat_le]
  omega

theorem words_sub_iff {cs ws as : List UInt64} (hw : ws.length = cs.length)
    (ha : as.length = cs.length) :
    List.zipWith (fun d a => d.toNat + a.toNat) (List.zipWith (· - ·) cs ws) as =
        cs.map UInt64.toNat ↔
      ws = as ∧ List.Forall₂ (· ≤ ·) as cs := by
  induction cs generalizing ws as with
  | nil =>
    rw [List.length_eq_zero_iff.mp hw, List.length_eq_zero_iff.mp ha]
    simp
  | cons c cs ih =>
    obtain ⟨w, ws, rfl⟩ := List.exists_cons_of_length_eq_add_one hw
    obtain ⟨a, as, rfl⟩ := List.exists_cons_of_length_eq_add_one ha
    have hrest := @ih ws as (Nat.succ.inj hw) (Nat.succ.inj ha)
    simp only [List.zipWith_cons_cons, List.map_cons, List.cons.injEq, List.forall₂_cons,
      word_sub_iff, hrest]
    tauto

/-- The words of `w` may be taken from those of `c` for what is counted from `a` on. -/
theorem Componentwise.isDifference_iff {values : κ → List UInt64} (h : Componentwise values)
    (c w a : κ) : IsDifference values (c - w) c a ↔ w = a ∧ NotAbove values a c := by
  rw [IsDifference, h.sub, words_sub_iff (h.length w c) (h.length a c), NotAbove]
  exact and_congr_left' ⟨h.injective, congrArg values⟩

end

theorem CpuCounters.componentwise : Componentwise CpuCounters.values where
  injective := by
    rintro ⟨⟩ ⟨⟩ h
    cases h
    rfl
  sub _ _ := rfl
  length _ _ := rfl
  sub_zero a := by
    show (⟨a.total - 0, a.user - 0, a.nice - 0, a.system - 0, a.idle - 0, a.iowait - 0, a.irq - 0,
      a.softirq - 0⟩ : CpuCounters) = a
    simp only [UInt64.sub_zero]

theorem DiskCounters.componentwise : Componentwise DiskCounters.values where
  injective := by
    rintro ⟨⟩ ⟨⟩ h
    cases h
    rfl
  sub _ _ := rfl
  length _ _ := rfl
  sub_zero a := by
    show (⟨a.rcount - 0, a.rmerged - 0, a.rsector - 0, a.rtime - 0, a.wcount - 0, a.wmerged - 0,
      a.wsector - 0, a.wtime - 0, a.iocount - 0, a.iotime - 0, a.iowtime - 0⟩ : DiskCounters) = a
    simp only [UInt64.sub_zero]

/-! ## Rows -/

theorem foldl_insert_perm {α : Type} (cmp : α → α → Ordering) (l acc : List α) :
    (l.foldl (fun ret d => ArraySorted.insert cmp d ret) acc).Perm (l ++ acc) := by
  induction l generalizing acc with
  | nil => exact .refl _
  | cons d l ih =>
    have hinsert : (ArraySorted.insert cmp d acc).Perm (d :: acc) :=
      List.perm_insertIdx d acc (ArraySorted.insertId_le cmp d acc)
    exact (ih _).trans ((hinsert.append_left l).trans List.perm_middle)

section

variable {ι κ ν : Type} [Zero κ] [Sub κ] (key : ι → ν) (values : κ → List UInt64)

/-- `a` is what the device `n` had counted in the older record, and nothing where it was not
there. -/
def Had (old : List (Row ι κ)) (n : ν) (a : κ) : Prop :=
  (∃ o ∈ old, key o.device = n ∧ o.counters = a) ∨ (∀ o ∈ old, key o.device ≠ n) ∧ a = 0

/-- The rows `out` are about the devices of `rows`, and each has what its own device counted since
the older record. -/
structure OwnDifferences (rows old out : List (Row ι κ)) : Prop where
  devices : (out.map Row.device).Perm (rows.map Row.device)
  own : ∀ c ∈ rows, ∀ d ∈ out, key d.device = key c.device → ∀ a, Had key old (key c.device) a →
    IsDifference values d.counters c.counters a

def countersAt (old : List (Row ι κ)) (k : Nat) : κ :=
  (old[k]?.map Row.counters).getD 0

/-- Each row stands where the older record has the counters that its device had, and none of them
went down. -/
def Abreast (rows old : List (Row ι κ)) : Prop :=
  ∀ k c, rows[k]? = some c → ∀ a, Had key old (key c.device) a →
    countersAt old k = a ∧ NotAbove values a c.counters

variable {key values} {rows old : List (Row ι κ)}

/-- The row that `depth` makes at position `k`. -/
theorem depthL_eq (h : Componentwise values) (c : κ) (k : Nat) :
    depthL 0 c (old[k]?.map Row.counters) = c - countersAt old k := by
  unfold depthL countersAt
  cases old[k]? with
  | none => exact (h.sub_zero c).symm
  | some o => rfl

theorem depthRows_perm (cmp : Row ι κ → Row ι κ → Ordering) (h : Componentwise values) :
    (depthRows cmp 0 rows old).Perm
      (rows.mapIdx fun k c => ⟨c.device, c.counters - countersAt old k⟩) := by
  have hperm := foldl_insert_perm cmp
    (rows.mapIdx fun k c => (⟨c.device, c.counters - countersAt old k⟩ : Row ι κ)) []
  rw [List.append_nil] at hperm
  unfold depthRows
  simp only [depthL_eq h]
  exact hperm

/-- What stands in the new array: one row for each position. -/
theorem mem_depthRows (cmp : Row ι κ → Row ι κ → Ordering) (h : Componentwise values)
    {d : Row ι κ} :
    d ∈ depthRows cmp 0 rows old ↔
      ∃ k c, rows[k]? = some c ∧ d = ⟨c.device, c.counters - countersAt old k⟩ := by
  rw [(depthRows_perm cmp h).mem_iff, List.mem_iff_getElem?]
  simp only [List.getElem?_mapIdx, Option.map_eq_some_iff, @eq_comm _ d]

/-- The rows have what their devices counted exactly when they stand abreast of what these had. -/
theorem ownDifferences_iff (cmp : Row ι κ → Row ι κ → Ordering) (h : Componentwise values)
    (hunique : (rows.map fun c => key c.device).Nodup) :
    OwnDifferences key values rows old (depthRows cmp 0 rows old) ↔ Abreast key values rows old := by
  constructor
  · intro hown k c hc a ha
    have hd : (⟨c.device, c.counters - countersAt old k⟩ : Row ι κ) ∈ depthRows cmp 0 rows old :=
      (mem_depthRows cmp h).mpr ⟨k, c, hc, rfl⟩
    have hdiff := hown.own c (List.mem_of_getElem? hc) _ hd rfl a ha
    exact (h.isDifference_iff c.counters (countersAt old k) a).mp hdiff
  · intro habreast
    refine ⟨?_, fun c hc d hd hkey a ha => ?_⟩
    · have hdevices : (rows.mapIdx fun k c => (⟨c.device, c.counters - countersAt old k⟩ : Row ι κ)).map
          Row.device = rows.map Row.device := by
        refine List.ext_getElem? fun i => ?_
        rw [List.getElem?_map, List.getElem?_mapIdx, List.getElem?_map, Option.map_map]
        rfl
      rw [← hdevices]
      exact (depthRows_perm cmp h).map _
    · obtain ⟨k, c', hc', rfl⟩ := (mem_depthRows cmp h).mp hd
      obtain ⟨i, hi⟩ := List.mem_iff_getElem?.mp hc
      -- the devices are told apart, so the row is that of `c`
      have hplace : ∀ {j} {x : Row ι κ}, rows[j]? = some x →
          (rows.map fun c => key c.device)[j]? = some (key x.device) := fun hx => by
        rw [List.getElem?_map, hx]
        rfl
      have hlt : i < (rows.map fun c => key c.device).length :=
        (List.getElem?_eq_some_iff.mp (hplace hi)).1
      obtain rfl : i = k := (List.getElem?_inj hlt hunique).mp
        ((hplace hi).trans ((congrArg some hkey.symm).trans (hplace hc').symm))
      obtain rfl : c = c' := Option.some.inj (hi.symm.trans hc')
      exact (h.isDifference_iff c.counters (countersAt old i) a).mpr (habreast i c hi a ha)

omit [Sub κ] in
/-- Rows stand abreast where the same positions belong to the same devices, and new ones come behind. -/
theorem abreast_of_places (hunique : (old.map fun o => key o.device).Nodup)
    (h : ∀ (k : Nat) (c : Row ι κ), rows[k]? = some c →
      (∃ o : Row ι κ, old[k]? = some o ∧ key o.device = key c.device ∧
        NotAbove values o.counters c.counters) ∨
        old[k]? = none ∧ (∀ o ∈ old, key o.device ≠ key c.device) ∧ NotAbove values 0 c.counters) :
    Abreast key values rows old := by
  intro k c hc a ha
  rw [countersAt]
  rcases h k c hc with ⟨o, ho, hkey, habove⟩ | ⟨hnone, hnew, habove⟩
  · have hmem := List.mem_of_getElem? ho
    rcases ha with ⟨o', ho', hkey', rfl⟩ | ⟨hnot, -⟩
    · obtain rfl : o' = o := List.inj_on_of_nodup_map hunique ho' hmem (hkey'.trans hkey.symm)
      rw [ho]
      exact ⟨rfl, habove⟩
    · exact absurd hkey (hnot o hmem)
  · rcases ha with ⟨o', ho', hkey', -⟩ | ⟨-, rfl⟩
    · exact absurd hkey' (hnew o' ho')
    · rw [hnone]
      exact ⟨rfl, habove⟩

end

/-! ## The two records -/

/-- The rows of a `MonCpustat` have what their CPUs counted since `old`. -/
def MonCpustat.Pairs (m old out : MonCpustat) : Prop :=
  OwnDifferences id CpuCounters.values m.aLists old.aLists out.aLists

/-- The rows of a `MonDiskstats` have what their disks counted since `old`. -/
def MonDiskstats.Pairs (m old out : MonDiskstats) : Prop :=
  OwnDifferences Disk.sName DiskCounters.values m.aLists old.aLists out.aLists

/-- The rows of two records of the lowest level are paired by their devices exactly when each row
stands where the older record has the counters of its device, which none of its own is below. -/
theorem depth_iff (sec : UInt64) (cpu oldCpu : MonCpustat) (disk oldDisk : MonDiskstats)
    (hcpu : (cpu.aLists.map Row.device).Nodup)
    (hdisk : (disk.aLists.map fun d => d.device.sName).Nodup) :
    (cpu.Pairs oldCpu (cpu.depth 0 sec oldCpu) ↔
        Abreast id CpuCounters.values cpu.aLists oldCpu.aLists) ∧
      (disk.Pairs oldDisk (disk.depth 0 sec oldDisk) ↔
        Abreast Disk.sName DiskCounters.values disk.aLists oldDisk.aLists) :=
  ⟨ownDifferences_iff MonCpustat.compare CpuCounters.componentwise hcpu,
    ownDifferences_iff MonDiskstats.compare DiskCounters.componentwise hdisk⟩

/-- The first of two CPUs counted on, and a second disk has come. -/
theorem depth_iff_counted :
    let cpu : MonCpustat := { sec := 10, aLists := [⟨0, { user := 7 }⟩, ⟨1, { user := 9 }⟩] }
    let oldCpu : MonCpustat := { sec := 5, aLists := [⟨0, { user := 4 }⟩, ⟨1, { user := 9 }⟩] }
    let disk : MonDiskstats :=
      { sec := 10, aLists := [⟨⟨8, 0, [97]⟩, { rcount := 3 }⟩, ⟨⟨8, 16, [98]⟩, { rcount := 2 }⟩] }
    let oldDisk : MonDiskstats := { sec := 5, aLists := [⟨⟨8, 0, [97]⟩, { rcount := 1 }⟩] }
    cpu.Pairs oldCpu (cpu.depth 0 10 oldCpu) ∧ disk.Pairs oldDisk (disk.depth 0 10 oldDisk) := by
  intro cpu oldCpu disk oldDisk
  obtain ⟨hcpu, hdisk⟩ := depth_iff 10 cpu oldCpu disk oldDisk (by decide) (by decide)
  refine ⟨hcpu.mpr (abreast_of_places (by decide) fun k c hc => ?_),
    hdisk.mpr (abreast_of_places (by decide) fun k c hc => ?_)⟩
  · rcases k with _ | _ | k
    · obtain rfl := Option.some.inj hc
      exact .inl ⟨_, rfl, rfl, by unfold NotAbove; decide⟩
    · obtain rfl := Option.some.inj hc
      exact .inl ⟨_, rfl, rfl, by unfold NotAbove; decide⟩
    · cases hc
  · rcases k with _ | _ | k
    · obtain rfl := Option.some.inj hc
      exact .inl ⟨_, rfl, rfl, by unfold NotAbove; decide⟩
    · obtain rfl := Option.some.inj hc
      exact .inr ⟨rfl, by decide, by unfold NotAbove; decide⟩
    · cases hc

/-- The first of two CPUs has gone, and the other one gets the difference from it. -/
theorem not_depth : ¬ ∀ (sec : UInt64) (cpu oldCpu : MonCpustat) (disk oldDisk : MonDiskstats),
    (cpu.aLists.map Row.device).Nodup → (disk.aLists.map fun d => d.device.sName).Nodup →
    cpu.Pairs oldCpu (cpu.depth 0 sec oldCpu) ∧ disk.Pairs oldDisk (disk.depth 0 sec oldDisk) := by
  intro hpairs
  let cpu : MonCpustat := { sec := 10, aLists := [⟨1, { user := 12 }⟩] }
  let oldCpu : MonCpustat :=
    { sec := 5, aLists := [⟨0, { user := 4 }⟩, ⟨1, { user := 10 }⟩] }
  have hcpu := (hpairs 10 cpu oldCpu { sec := 10 } { sec := 5 } (by decide) (by decide)).1
  have hdifference := hcpu.own ⟨1, { user := 12 }⟩ (by decide) ⟨1, { user := 8 }⟩ (by decide) rfl
    { user := 10 } (.inl ⟨⟨1, { user := 10 }⟩, by decide, rfl, rfl⟩)
  exact absurd hdifference (by unfold IsDifference; decide)

end Dframework
