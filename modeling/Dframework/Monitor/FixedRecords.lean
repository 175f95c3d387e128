import Mathlib
import Dframework.Monitor.RawData

/-!
# Saving and loading records of a fixed layout

`MonPacket`, `MonMemory` and `MonSocket` have a fixed number of counters. `getRawString` prints
them as unsigned numbers, and `loadData` puts the fields of the line back one by one. A field is
read as a signed number. `MonMemory` has two counters that `readData` works out, and that are not
in the line.

Results:
1. `MonPacket.loadData_raw`, `MonMemory.loadData_raw`, `MonSocket.loadData_raw`: what is read back
   from any line.
2. `fixed_restores_iff`: which records come back.
-/

namespace Dframework

open CLib

/-! ## The records -/

/-- The counters of `MonMemory` that are written. -/
@[ext]
structure MemoryCounters where
  total : UInt64 := 0
  free : UInt64 := 0
  available : UInt64 := 0
  buffers : UInt64 := 0
  cached : UInt64 := 0
  swapTotal : UInt64 := 0
  swapFree : UInt64 := 0
  swapCached : UInt64 := 0
  vmallocTotal : UInt64 := 0
  vmallocUsed : UInt64 := 0
  vmallocChunk : UInt64 := 0
  active : UInt64 := 0
  inActive : UInt64 := 0
  deriving DecidableEq, Repr

structure MonMemory where
  sec : UInt64
  kernelUsed : UInt64 := 0
  swapUsed : UInt64 := 0
  counters : MemoryCounters := {}
  deriving DecidableEq, Repr

@[ext]
structure SocketCounters where
  total : UInt64 := 0
  est : UInt64 := 0
  synSent : UInt64 := 0
  synRecv : UInt64 := 0
  finWait1 : UInt64 := 0
  finWait2 : UInt64 := 0
  timeWait : UInt64 := 0
  close : UInt64 := 0
  closeWait : UInt64 := 0
  lastAck : UInt64 := 0
  listen : UInt64 := 0
  closing : UInt64 := 0
  deriving DecidableEq, Repr

structure MonSocket where
  sec : UInt64
  all : SocketCounters := {}
  deriving DecidableEq, Repr

/-! ## Writing and reading -/

/-- `DFW_RETVAL_NEW_MSG(DFW_ERROR, 0, "Unknown format …")`. -/
def unknownFormat (sLine : Bytes) : Ret :=
  { value := .error, message := "Unknown format " ++ textOf sLine }

def MonPacket.getRawString (m : MonPacket) : Bytes :=
  decimal m.sec.toNat ++ [9, 124] ++
    spaced [m.counters.rbytes, m.counters.rpackets, m.counters.rerrs] ++ [9, 124] ++
    spaced [m.counters.tbytes, m.counters.tpackets, m.counters.terrs] ++ [10]

def MonPacket.loadData (sLine : Bytes) : Except Ret MonPacket :=
  match StringArray.split (toChars sLine) [124] with
  | [sa1, sa2, sa3] =>
    match rowFields sa2, rowFields sa3 with
    | [rbytes, rpackets, rerrs], [tbytes, tpackets, terrs] =>
      .ok ⟨readCounter sa1, readCounter rbytes, readCounter rpackets, readCounter rerrs,
        readCounter tbytes, readCounter tpackets, readCounter terrs⟩
    | _, _ => .error (unknownFormat sLine)
  | _ => .error { value := .error, message := "Unknown format : " ++ textOf sLine }

def MonMemory.getRawString (m : MonMemory) : Bytes :=
  let c := m.counters
  decimal m.sec.toNat ++ [9] ++
    spaced [c.total, c.free, c.available, c.buffers, c.cached] ++ [32] ++
    spaced [c.swapTotal, c.swapFree, c.swapCached] ++ [32] ++
    spaced [c.vmallocTotal, c.vmallocUsed, c.vmallocChunk] ++ [32] ++
    spaced [c.active, c.inActive] ++ [10]

/-- `MonMemory::loadData`, which reads through the pointer to an empty line. -/
def MonMemory.loadData (sLine : Bytes) : Option (Except Ret MonMemory) :=
  (toChars sLine).map fun p =>
    match rowFields p with
    | [sec, total, free, avail, buffers, cached, swapTotal, swapFree, swapCached, vmTotal, vmUsed,
        vmChunk, active, inactive] =>
      .ok { sec := readCounter sec, counters := ⟨readCounter total, readCounter free,
        readCounter avail, readCounter buffers, readCounter cached, readCounter swapTotal,
        readCounter swapFree, readCounter swapCached, readCounter vmTotal, readCounter vmUsed,
        readCounter vmChunk, readCounter active, readCounter inactive⟩ }
    | _ => .error (unknownFormat sLine)

def MonSocket.getRawString (m : MonSocket) : Bytes :=
  let d := m.all
  decimal m.sec.toNat ++ [9] ++
    spaced [d.total, d.est] ++ [32] ++
    spaced [d.synSent, d.synRecv] ++ [32] ++
    spaced [d.finWait1, d.finWait2] ++ [32] ++
    spaced [d.timeWait] ++ [32] ++
    spaced [d.close, d.closeWait] ++ [32] ++
    spaced [d.lastAck, d.listen, d.closing] ++ [10]

/-- `MonSocket::loadData`, which reads through the pointer to an empty line. -/
def MonSocket.loadData (sLine : Bytes) : Option (Except Ret MonSocket) :=
  (toChars sLine).map fun p =>
    match rowFields p with
    | [sec, total, est, synSent, synRecv, finWait1, finWait2, timeWait, close, closeWait, lastAck,
        listen, closing] =>
      .ok { sec := readCounter sec, all := ⟨readCounter total, readCounter est, readCounter synSent,
        readCounter synRecv, readCounter finWait1, readCounter finWait2, readCounter timeWait,
        readCounter close, readCounter closeWait, readCounter lastAck, readCounter listen,
        readCounter closing⟩ }
    | _ => .error (unknownFormat sLine)

/-! ## What is read back -/

/-- What a record is when it went through the text. -/
def MonPacket.saved (m : MonPacket) : MonPacket :=
  ⟨throughLong m.sec, throughLong m.counters.rbytes, throughLong m.counters.rpackets,
    throughLong m.counters.rerrs, throughLong m.counters.tbytes, throughLong m.counters.tpackets,
    throughLong m.counters.terrs⟩

/-- What a record is when it went through the text. -/
def MonMemory.saved (m : MonMemory) : MonMemory where
  sec := throughLong m.sec
  counters := ⟨throughLong m.counters.total, throughLong m.counters.free,
    throughLong m.counters.available, throughLong m.counters.buffers, throughLong m.counters.cached,
    throughLong m.counters.swapTotal, throughLong m.counters.swapFree,
    throughLong m.counters.swapCached, throughLong m.counters.vmallocTotal,
    throughLong m.counters.vmallocUsed, throughLong m.counters.vmallocChunk,
    throughLong m.counters.active, throughLong m.counters.inActive⟩

/-- What a record is when it went through the text. -/
def MonSocket.saved (m : MonSocket) : MonSocket where
  sec := throughLong m.sec
  all := ⟨throughLong m.all.total, throughLong m.all.est, throughLong m.all.synSent,
    throughLong m.all.synRecv, throughLong m.all.finWait1, throughLong m.all.finWait2,
    throughLong m.all.timeWait, throughLong m.all.close, throughLong m.all.closeWait,
    throughLong m.all.lastAck, throughLong m.all.listen, throughLong m.all.closing⟩

/-- Three printed counters, with the byte behind them. -/
theorem three_chained (a b c : UInt64) (e : Bytes) :
    spaced [a, b, c] ++ e =
      chained (decimal a.toNat) [(32, decimal b.toNat), (32, decimal c.toNat ++ e)] := by
  simp [spaced, chained, List.intercalate, List.intersperse]

theorem three_separated (b c : UInt64) {e : Bytes} (he : e = [] ∨ e = [10]) :
    Separated [(32, decimal b.toNat), (32, decimal c.toNat ++ e)] := by
  simp only [Separated, List.forall_mem_cons, decimal_field', decimal_field _ he, List.not_mem_nil,
    false_imp_iff, implies_true]
  decide

theorem MonPacket.loadData_raw (m : MonPacket) : MonPacket.loadData m.getRawString = .ok m.saved := by
  set c := m.counters with hc
  set sa2 := spaced [c.rbytes, c.rpackets, c.rerrs] ++ [] ++ [9] with hsa2
  set sa3 := spaced [c.tbytes, c.tpackets, c.terrs] ++ [10] ++ [] with hsa3
  have hne : m.getRawString ≠ [] := fun h => absurd (List.append_eq_nil_iff.mp h).2 (List.cons_ne_nil 10 [])
  have hraw : m.getRawString = StringArray.joined 124 (decimal m.sec.toNat ++ [9]) [sa2, sa3] := by
    simp [MonPacket.getRawString, StringArray.joined, hsa2, hsa3, ← hc]
  have hseg : ∀ p ∈ [sa2, sa3], StringArray.Segment 124 p := by
    simp only [List.forall_mem_cons, hsa2, hsa3, three_chained, List.not_mem_nil, false_imp_iff,
      implies_true, and_true]
    exact ⟨segment_chained (decimal_field' _) (three_separated _ _ (.inl rfl)) (.inr rfl),
      segment_chained (decimal_field' _) (three_separated _ _ (.inr rfl)) (.inl rfl)⟩
  have hsplit : StringArray.split (toChars m.getRawString) [124] =
      [decimal m.sec.toNat ++ [9], sa2, sa3] := by
    rw [toChars_of_ne_nil hne, hraw, StringArray.split_joined (by decide) (secPiece m.sec) hseg]
  have hfields₂ : rowFields sa2 = [decimal c.rbytes.toNat, decimal c.rpackets.toNat,
      decimal c.rerrs.toNat ++ []] := by
    rw [hsa2, three_chained, rowFields_chained (decimal_field' _) (three_separated _ _ (.inl rfl))
      (.inr rfl)]
    rfl
  have hfields₃ : rowFields sa3 = [decimal c.tbytes.toNat, decimal c.tpackets.toNat,
      decimal c.terrs.toNat ++ [10]] := by
    rw [hsa3, three_chained, rowFields_chained (decimal_field' _) (three_separated _ _ (.inr rfl))
      (.inl rfl)]
    rfl
  rw [MonPacket.loadData, hsplit]
  simp only [hfields₂, hfields₃, readCounter_printed', readCounter_sec, MonPacket.saved, ← hc,
    readCounter_printed _ (.inl rfl), readCounter_printed _ (.inr (.inl rfl))]

/-- The fields of a line of `MonMemory` behind the first. -/
def MemoryCounters.tail (c : MemoryCounters) : List (UInt8 × Bytes) :=
  [(9, decimal c.total.toNat), (32, decimal c.free.toNat), (32, decimal c.available.toNat),
    (32, decimal c.buffers.toNat), (32, decimal c.cached.toNat), (32, decimal c.swapTotal.toNat),
    (32, decimal c.swapFree.toNat), (32, decimal c.swapCached.toNat),
    (32, decimal c.vmallocTotal.toNat), (32, decimal c.vmallocUsed.toNat),
    (32, decimal c.vmallocChunk.toNat), (32, decimal c.active.toNat),
    (32, decimal c.inActive.toNat ++ [10])]

/-- The fields of a line of `MonSocket` behind the first. -/
def SocketCounters.tail (c : SocketCounters) : List (UInt8 × Bytes) :=
  [(9, decimal c.total.toNat), (32, decimal c.est.toNat), (32, decimal c.synSent.toNat),
    (32, decimal c.synRecv.toNat), (32, decimal c.finWait1.toNat), (32, decimal c.finWait2.toNat),
    (32, decimal c.timeWait.toNat), (32, decimal c.close.toNat), (32, decimal c.closeWait.toNat),
    (32, decimal c.lastAck.toNat), (32, decimal c.listen.toNat),
    (32, decimal c.closing.toNat ++ [10])]

theorem MemoryCounters.separated (c : MemoryCounters) : Separated c.tail := by
  simp only [Separated, MemoryCounters.tail, List.forall_mem_cons, decimal_field',
    decimal_field _ (.inr rfl), List.not_mem_nil, false_imp_iff, implies_true]
  decide

theorem SocketCounters.separated (c : SocketCounters) : Separated c.tail := by
  simp only [Separated, SocketCounters.tail, List.forall_mem_cons, decimal_field',
    decimal_field _ (.inr rfl), List.not_mem_nil, false_imp_iff, implies_true]
  decide

/-- The fields of a line that has no other separators than blanks and tabs. -/
theorem rowFields_line {sec : UInt64} {ts : List (UInt8 × Bytes)} (hts : Separated ts) :
    rowFields (chained (decimal sec.toNat) ts) = decimal sec.toNat :: ts.map Prod.snd := by
  have h := rowFields_chained (decimal_field' sec.toNat) hts (.inl rfl)
  rwa [List.append_nil] at h

theorem chained_ne_nil (sec : UInt64) (ts : List (UInt8 × Bytes)) :
    chained (decimal sec.toNat) ts ≠ [] :=
  fun h => decimal_ne_nil sec.toNat (List.append_eq_nil_iff.mp h).1

theorem MonMemory.loadData_raw (m : MonMemory) :
    MonMemory.loadData m.getRawString = some (.ok m.saved) := by
  have hraw : m.getRawString = chained (decimal m.sec.toNat) m.counters.tail := by
    simp [MonMemory.getRawString, MemoryCounters.tail, spaced, chained, List.intercalate,
      List.intersperse]
  rw [MonMemory.loadData, hraw, toChars_of_ne_nil (chained_ne_nil _ _), Option.map_some,
    rowFields_line m.counters.separated]
  simp only [MemoryCounters.tail, List.map_cons, List.map_nil, readCounter_printed',
    readCounter_printed _ (.inr (.inl rfl)), MonMemory.saved]

theorem MonSocket.loadData_raw (m : MonSocket) :
    MonSocket.loadData m.getRawString = some (.ok m.saved) := by
  have hraw : m.getRawString = chained (decimal m.sec.toNat) m.all.tail := by
    simp [MonSocket.getRawString, SocketCounters.tail, spaced, chained, List.intercalate,
      List.intersperse]
  rw [MonSocket.loadData, hraw, toChars_of_ne_nil (chained_ne_nil _ _), Option.map_some,
    rowFields_line m.all.separated]
  simp only [SocketCounters.tail, List.map_cons, List.map_nil, readCounter_printed',
    readCounter_printed _ (.inr (.inl rfl)), MonSocket.saved]

/-! ## Records that come back -/

/-- The counters of a record that are written. -/
def MonPacket.values (m : MonPacket) : List UInt64 :=
  [m.counters.rbytes, m.counters.rpackets, m.counters.rerrs, m.counters.tbytes,
    m.counters.tpackets, m.counters.terrs]

def MonMemory.values (m : MonMemory) : List UInt64 :=
  [m.counters.total, m.counters.free, m.counters.available, m.counters.buffers, m.counters.cached,
    m.counters.swapTotal, m.counters.swapFree, m.counters.swapCached, m.counters.vmallocTotal,
    m.counters.vmallocUsed, m.counters.vmallocChunk, m.counters.active, m.counters.inActive]

def MonSocket.values (m : MonSocket) : List UInt64 :=
  [m.all.total, m.all.est, m.all.synSent, m.all.synRecv, m.all.finWait1, m.all.finWait2,
    m.all.timeWait, m.all.close, m.all.closeWait, m.all.lastAck, m.all.listen, m.all.closing]

/-- The numbers fit a `long`. -/
def AllFitLong (values : List UInt64) : Prop :=
  ∀ v ∈ values, v.toNat < 2 ^ 63

instance (values : List UInt64) : Decidable (AllFitLong values) :=
  inferInstanceAs (Decidable (∀ v ∈ values, v.toNat < 2 ^ 63))

theorem MonPacket.saved_eq_iff {m : MonPacket} : m.saved = m ↔ AllFitLong (m.sec :: m.values) := by
  obtain ⟨sec, c⟩ := m
  obtain ⟨rbytes, rpackets, rerrs, tbytes, tpackets, terrs⟩ := c
  simp only [MonPacket.saved, MonPacket.values, AllFitLong, MonPacket.mk.injEq,
    PacketCounters.mk.injEq, throughLong_eq_iff, List.forall_mem_cons, List.not_mem_nil,
    false_imp_iff, implies_true, and_true]

theorem MonMemory.saved_eq_iff {m : MonMemory} :
    m.saved = m ↔ AllFitLong (m.sec :: m.values) ∧ m.kernelUsed = 0 ∧ m.swapUsed = 0 := by
  obtain ⟨sec, kernelUsed, swapUsed, c⟩ := m
  simp only [MonMemory.saved, MonMemory.values, AllFitLong, MonMemory.mk.injEq,
    MemoryCounters.ext_iff, throughLong_eq_iff, List.forall_mem_cons, List.not_mem_nil,
    false_imp_iff, implies_true, and_true]
  rw [@eq_comm _ 0 kernelUsed, @eq_comm _ 0 swapUsed]
  tauto

theorem MonSocket.saved_eq_iff {m : MonSocket} : m.saved = m ↔ AllFitLong (m.sec :: m.values) := by
  obtain ⟨sec, c⟩ := m
  simp only [MonSocket.saved, MonSocket.values, AllFitLong, MonSocket.mk.injEq,
    SocketCounters.ext_iff, throughLong_eq_iff, List.forall_mem_cons, List.not_mem_nil,
    false_imp_iff, implies_true, and_true]

/-- A record comes back when its time and its counters fit a `long`; of `MonMemory` the two
counters that are not written have to be zero. -/
theorem fixed_restores_iff (packet : MonPacket) (memory : MonMemory) (socket : MonSocket) :
    (MonPacket.loadData packet.getRawString = .ok packet ↔ AllFitLong (packet.sec :: packet.values)) ∧
    (MonMemory.loadData memory.getRawString = some (.ok memory) ↔
      AllFitLong (memory.sec :: memory.values) ∧ memory.kernelUsed = 0 ∧ memory.swapUsed = 0) ∧
    (MonSocket.loadData socket.getRawString = some (.ok socket) ↔
      AllFitLong (socket.sec :: socket.values)) := by
  rw [packet.loadData_raw, memory.loadData_raw, socket.loadData_raw, Except.ok.injEq, Option.some.injEq,
    Option.some.injEq, Except.ok.injEq, Except.ok.injEq]
  exact ⟨MonPacket.saved_eq_iff, MonMemory.saved_eq_iff, MonSocket.saved_eq_iff⟩

/-- A counter of 2^63 comes back as 2^63 - 1, and the memory that `readData` works out as used
comes back as zero. -/
theorem not_fixed_restores :
    MonPacket.loadData (MonPacket.getRawString ⟨5, { rbytes := 9223372036854775808 }⟩) =
        .ok ⟨5, { rbytes := 9223372036854775807 }⟩ ∧
      MonMemory.loadData (MonMemory.getRawString { sec := 5, kernelUsed := 1 }) =
        some (.ok { sec := 5 }) := by
  rw [MonPacket.loadData_raw, MonMemory.loadData_raw]
  decide

end Dframework
