import Mathlib
import Dframework.Util.ArraySorted

/-!
# What is monitored

A record of a device holds counters of 64 bits that wrap. `MonPacket` and
`MonLoadavg` hold a fixed set of them, `MonCpustat` and `MonDiskstats` one set for
the whole machine and one row for each CPU or disk, in a sorted array.

The two classes with rows do the same with them, so `depthRows` and `plusRows` stand
for the loops of both. `plus` and `depth` pair the rows of two records by their
position, whatever devices they are about.

Results:
1. `plusRows_tally`: with the same devices at the same positions, the counters of each
   device are added up.
-/

namespace Dframework

/-! ## Counters -/

/-- The counters of `MonCpustat::Data`. -/
@[ext] structure CpuCounters where
  total : UInt64 := 0
  user : UInt64 := 0
  nice : UInt64 := 0
  system : UInt64 := 0
  idle : UInt64 := 0
  iowait : UInt64 := 0
  irq : UInt64 := 0
  softirq : UInt64 := 0
  deriving DecidableEq, Repr

/-- The counters of `MonDiskstats::Data`. -/
@[ext] structure DiskCounters where
  rcount : UInt64 := 0
  rmerged : UInt64 := 0
  rsector : UInt64 := 0
  rtime : UInt64 := 0
  wcount : UInt64 := 0
  wmerged : UInt64 := 0
  wsector : UInt64 := 0
  wtime : UInt64 := 0
  iocount : UInt64 := 0
  iotime : UInt64 := 0
  iowtime : UInt64 := 0
  deriving DecidableEq, Repr

/-- The counters of `MonPacket`. -/
structure PacketCounters where
  rbytes : UInt64 := 0
  rpackets : UInt64 := 0
  rerrs : UInt64 := 0
  tbytes : UInt64 := 0
  tpackets : UInt64 := 0
  terrs : UInt64 := 0
  deriving DecidableEq, Repr

namespace CpuCounters

instance : Zero CpuCounters := ⟨{}⟩

instance : Add CpuCounters where
  add a b :=
    ⟨a.total + b.total, a.user + b.user, a.nice + b.nice, a.system + b.system, a.idle + b.idle,
      a.iowait + b.iowait, a.irq + b.irq, a.softirq + b.softirq⟩

instance : Sub CpuCounters where
  sub a b :=
    ⟨a.total - b.total, a.user - b.user, a.nice - b.nice, a.system - b.system, a.idle - b.idle,
      a.iowait - b.iowait, a.irq - b.irq, a.softirq - b.softirq⟩

/-- The counters in the order they are written in. -/
def values (a : CpuCounters) : List UInt64 :=
  [a.total, a.user, a.nice, a.system, a.idle, a.iowait, a.irq, a.softirq]

instance : SMul Nat CpuCounters where
  smul n a :=
    ⟨n • a.total, n • a.user, n • a.nice, n • a.system, n • a.idle, n • a.iowait, n • a.irq,
      n • a.softirq⟩

/-- The counters as a tuple, where they add up as in the record. -/
def tuple (a : CpuCounters) : UInt64 × UInt64 × UInt64 × UInt64 × UInt64 × UInt64 × UInt64 × UInt64 :=
  (a.total, a.user, a.nice, a.system, a.idle, a.iowait, a.irq, a.softirq)

theorem tuple_injective : Function.Injective tuple := by
  rintro ⟨⟩ ⟨⟩ h
  cases h
  rfl

instance : AddCommMonoid CpuCounters :=
  tuple_injective.addCommMonoid tuple rfl (fun _ _ => rfl) fun _ _ => rfl

end CpuCounters

namespace DiskCounters

instance : Zero DiskCounters := ⟨{}⟩

instance : Add DiskCounters where
  add a b :=
    ⟨a.rcount + b.rcount, a.rmerged + b.rmerged, a.rsector + b.rsector, a.rtime + b.rtime,
      a.wcount + b.wcount, a.wmerged + b.wmerged, a.wsector + b.wsector, a.wtime + b.wtime,
      a.iocount + b.iocount, a.iotime + b.iotime, a.iowtime + b.iowtime⟩

instance : Sub DiskCounters where
  sub a b :=
    ⟨a.rcount - b.rcount, a.rmerged - b.rmerged, a.rsector - b.rsector, a.rtime - b.rtime,
      a.wcount - b.wcount, a.wmerged - b.wmerged, a.wsector - b.wsector, a.wtime - b.wtime,
      a.iocount - b.iocount, a.iotime - b.iotime, a.iowtime - b.iowtime⟩

/-- The counters in the order they are written in. -/
def values (a : DiskCounters) : List UInt64 :=
  [a.rcount, a.rmerged, a.rsector, a.rtime, a.wcount, a.wmerged, a.wsector, a.wtime, a.iocount,
    a.iotime, a.iowtime]

instance : SMul Nat DiskCounters where
  smul n a :=
    ⟨n • a.rcount, n • a.rmerged, n • a.rsector, n • a.rtime, n • a.wcount, n • a.wmerged,
      n • a.wsector, n • a.wtime, n • a.iocount, n • a.iotime, n • a.iowtime⟩

/-- The counters as a tuple, where they add up as in the record. -/
def tuple (a : DiskCounters) : UInt64 × UInt64 × UInt64 × UInt64 × UInt64 × UInt64 × UInt64 ×
    UInt64 × UInt64 × UInt64 × UInt64 :=
  (a.rcount, a.rmerged, a.rsector, a.rtime, a.wcount, a.wmerged, a.wsector, a.wtime, a.iocount,
    a.iotime, a.iowtime)

theorem tuple_injective : Function.Injective tuple := by
  rintro ⟨⟩ ⟨⟩ h
  cases h
  rfl

instance : AddCommMonoid DiskCounters :=
  tuple_injective.addCommMonoid tuple rfl (fun _ _ => rfl) fun _ _ => rfl

end DiskCounters

namespace PacketCounters

instance : Zero PacketCounters := ⟨{}⟩

instance : Add PacketCounters where
  add a b :=
    ⟨a.rbytes + b.rbytes, a.rpackets + b.rpackets, a.rerrs + b.rerrs, a.tbytes + b.tbytes,
      a.tpackets + b.tpackets, a.terrs + b.terrs⟩

instance : Sub PacketCounters where
  sub a b :=
    ⟨a.rbytes - b.rbytes, a.rpackets - b.rpackets, a.rerrs - b.rerrs, a.tbytes - b.tbytes,
      a.tpackets - b.tpackets, a.terrs - b.terrs⟩

instance : SMul Nat PacketCounters where
  smul n a :=
    ⟨n • a.rbytes, n • a.rpackets, n • a.rerrs, n • a.tbytes, n • a.tpackets, n • a.terrs⟩

/-- The counters as a tuple, where they add up as in the record. -/
def tuple (a : PacketCounters) : UInt64 × UInt64 × UInt64 × UInt64 × UInt64 × UInt64 :=
  (a.rbytes, a.rpackets, a.rerrs, a.tbytes, a.tpackets, a.terrs)

theorem tuple_injective : Function.Injective tuple := by
  rintro ⟨⟩ ⟨⟩ h
  cases h
  rfl

instance : AddCommMonoid PacketCounters :=
  tuple_injective.addCommMonoid tuple rfl (fun _ _ => rfl) fun _ _ => rfl

end PacketCounters

/-! ## Rows -/

/-- `Data` of `MonCpustat` and of `MonDiskstats`: which device it is about, and its
counters. -/
structure Row (ι κ : Type) where
  device : ι
  counters : κ
  deriving DecidableEq, Repr

section

variable {ι κ : Type} [Zero κ] [Add κ] [Sub κ]

/-- `depth_l`: what was counted since the older record, on the lowest level only. -/
def depthL (no : Nat) (c : κ) (o : Option κ) : κ :=
  match o with
  | some o => if no = 0 then c - o else c
  | none => c

/-- The loop of `depth`: a new array with what `depth_l` answers for each row and the row
at its position in the older record. -/
def depthRows (cmp : Row ι κ → Row ι κ → Ordering) (no : Nat) (rows old : List (Row ι κ)) :
    List (Row ι κ) :=
  (rows.mapIdx fun k c => ⟨c.device, depthL no c.counters (old[k]?.map Row.counters)⟩).foldl
    (fun ret d => ArraySorted.insert cmp d ret) []

/-- The loop of `plus`, from position `k` on. A row that is missing there is a new one, which
goes to its place in the order. -/
def plusRows (cmp : Row ι κ → Row ι κ → Ordering) : Nat → List (Row ι κ) → List (Row ι κ) →
    List (Row ι κ)
  | _, rows, [] => rows
  | k, rows, o :: old =>
    match rows[k]? with
    | some c => plusRows cmp (k + 1) (rows.set k ⟨c.device, c.counters + o.counters⟩) old
    | none => plusRows cmp (k + 1) (ArraySorted.insert cmp ⟨o.device, 0 + o.counters⟩ rows) old

end

/-! ## The counters of one device -/

section

variable {ι κ ν : Type} [DecidableEq ν] [AddCommMonoid κ] {key : ι → ν} {rows old : List (Row ι κ)}
  {k : Nat} {n : ν}

/-- What the rows say of each device together. -/
def tally (key : ι → ν) (rows : List (Row ι κ)) (n : ν) : κ :=
  ((rows.filter fun d => key d.device == n).map Row.counters).sum

/-- The rows from position `k` on and those of the other record are about the same devices,
position by position. -/
def PairedFrom (key : ι → ν) (k : Nat) (rows old : List (Row ι κ)) : Prop :=
  ∀ i c o, rows[k + i]? = some c → old[i]? = some o → key c.device = key o.device

theorem tally_append (l m : List (Row ι κ)) : tally key (l ++ m) n = tally key l n + tally key m n := by
  simp only [tally, List.filter_append, List.map_append, List.sum_append]

theorem tally_cons (d : Row ι κ) (l : List (Row ι κ)) :
    tally key (d :: l) n = (if key d.device = n then d.counters else 0) + tally key l n := by
  rw [tally, List.filter_cons]
  split
  next h =>
    rw [if_pos (eq_of_beq h), List.map_cons, List.sum_cons]
    rfl
  next h =>
    rw [if_neg (by simpa using h), zero_add]
    rfl

theorem tally_insert (cmp : Row ι κ → Row ι κ → Ordering) (d : Row ι κ) (l : List (Row ι κ)) :
    tally key (ArraySorted.insert cmp d l) n =
      (if key d.device = n then d.counters else 0) + tally key l n := by
  have hperm := List.perm_insertIdx d l (ArraySorted.insertId_le cmp d l)
  rw [← tally_cons, ArraySorted.insert]
  exact ((hperm.filter _).map _).sum_eq

theorem tally_set {c : Row ι κ} (hc : rows[k]? = some c) (a : κ) :
    tally key (rows.set k ⟨c.device, c.counters + a⟩) n =
      tally key rows n + if key c.device = n then a else 0 := by
  obtain ⟨hlt, hget⟩ := List.getElem?_eq_some_iff.mp hc
  have hrows : rows = rows.take k ++ c :: rows.drop (k + 1) := by
    rw [← hget, List.getElem_cons_drop, List.take_append_drop]
  rw [List.set_eq_take_append_cons_drop, if_pos hlt]
  nth_rewrite 3 [hrows]
  rw [tally_append, tally_append, tally_cons, tally_cons]
  split
  · simp only [add_assoc, add_comm a]
  · rw [add_zero]

/-- Where the rows are paired, the counters of each device are added up. -/
theorem plusRows_tally (cmp : Row ι κ → Row ι κ → Ordering) (h : PairedFrom key k rows old) :
    tally key (plusRows cmp k rows old) n = tally key rows n + tally key old n := by
  induction old generalizing k rows with
  | nil => exact (add_zero _).symm
  | cons o old ih =>
    rw [plusRows, tally_cons]
    split
    next c hc =>
      have hkey : key c.device = key o.device := h 0 c o hc rfl
      rw [ih fun i c' o' hc' ho' => ?_, tally_set hc, hkey, add_assoc]
      rw [List.getElem?_set_ne (by omega), show k + 1 + i = k + (i + 1) by omega] at hc'
      exact h (i + 1) c' o' hc' ho'
    next hnone =>
      have hlen := List.getElem?_eq_none_iff.mp hnone
      rw [ih fun i c' o' hc' _ => ?_, tally_insert, zero_add, add_left_comm, add_assoc]
      -- behind a row that was missing, all are missing
      have hlt := (List.getElem?_eq_some_iff.mp hc').1
      rw [ArraySorted.insert, List.length_insertIdx] at hlt
      split at hlt <;> omega

end

/-! ## The records -/

structure MonPacket where
  sec : UInt64
  counters : PacketCounters := 0
  deriving DecidableEq, Repr

def MonPacket.depth (no : Nat) (sec : UInt64) (m old : MonPacket) : MonPacket :=
  { sec, counters := if no = 0 then m.counters - old.counters else m.counters }

def MonPacket.plus (m old : MonPacket) : MonPacket :=
  { m with counters := m.counters + old.counters }

structure MonLoadavg where
  sec : UInt64
  m1 : UInt64 := 0
  m5 : UInt64 := 0
  m15 : UInt64 := 0
  deriving DecidableEq, Repr

def MonLoadavg.depth (_no : Nat) (sec : UInt64) (m _old : MonLoadavg) : MonLoadavg :=
  { m with sec }

def MonLoadavg.plus (m old : MonLoadavg) : MonLoadavg :=
  { m with m1 := m.m1 + old.m1, m5 := m.m5 + old.m5, m15 := m.m15 + old.m15 }

def MonLoadavg.avg (m : MonLoadavg) (count : Nat) : MonLoadavg :=
  if count = 0 then m
  else
    let n := UInt64.ofNat count
    { m with m1 := m.m1 / n, m5 := m.m5 / n, m15 := m.m15 / n }

/-- `MonCpustat`. The device of a row is the number of the CPU. -/
structure MonCpustat where
  sec : UInt64
  aLists : List (Row Int32 CpuCounters) := []
  all : CpuCounters := 0
  processes : UInt32 := 0
  running : UInt32 := 0
  blocked : UInt32 := 0
  deriving DecidableEq, Repr

/-- The order of `MonCpustat::Data`: that of the numbers. -/
def MonCpustat.compare (a b : Row Int32 CpuCounters) : Ordering :=
  compareOn Int32.toInt a.device b.device

def MonCpustat.depth (no : Nat) (sec : UInt64) (m old : MonCpustat) : MonCpustat where
  sec
  aLists := depthRows MonCpustat.compare no m.aLists old.aLists
  all := depthL no m.all (some old.all)
  processes := if no = 0 then m.processes - old.processes else m.processes
  running := m.running
  blocked := m.blocked

def MonCpustat.plus (m old : MonCpustat) : MonCpustat :=
  { m with
    aLists := plusRows MonCpustat.compare 0 m.aLists old.aLists
    all := m.all + old.all
    processes := m.processes + old.processes
    running := m.running + old.running
    blocked := m.blocked + old.blocked }

/-- What a row of `MonDiskstats` says about the disk: `m_type`, `m_devtype` and `m_sName`. -/
structure Disk where
  type : Int32
  devtype : Int32
  sName : CLib.Bytes
  deriving DecidableEq, Repr

structure MonDiskstats where
  sec : UInt64
  aLists : List (Row Disk DiskCounters) := []
  all : DiskCounters := 0
  deriving DecidableEq, Repr

/-- The order of `MonDiskstats::Data`: that of the names. -/
def MonDiskstats.compare (a b : Row Disk DiskCounters) : Ordering :=
  compareChars a.device.sName b.device.sName

def MonDiskstats.depth (no : Nat) (sec : UInt64) (m old : MonDiskstats) : MonDiskstats where
  sec
  aLists := depthRows MonDiskstats.compare no m.aLists old.aLists
  all := depthL no m.all (some old.all)

def MonDiskstats.plus (m old : MonDiskstats) : MonDiskstats :=
  { m with
    aLists := plusRows MonDiskstats.compare 0 m.aLists old.aLists
    all := m.all + old.all }

instance : Std.TransCmp MonCpustat.compare where
  eq_swap := @fun a b => by
    have h : Std.TransCmp (compareOn Int32.toInt) := inferInstance
    exact h.eq_swap
  isLE_trans := @fun a b c hab hbc => by
    have h : Std.TransCmp (compareOn Int32.toInt) := inferInstance
    exact h.isLE_trans hab hbc

instance : Std.TransCmp MonDiskstats.compare where
  eq_swap := @fun a b => by
    have h : Std.TransCmp compareChars := inferInstance
    exact h.eq_swap
  isLE_trans := @fun a b c hab hbc => by
    have h : Std.TransCmp compareChars := inferInstance
    exact h.isLE_trans hab hbc

end Dframework
