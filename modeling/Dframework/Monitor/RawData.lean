import Mathlib
import Dframework.Lang.Number
import Dframework.Util.StringArray
import Dframework.Base.Retval
import Dframework.Monitor.Devices

/-!
# Saving and loading records with rows

`getRawString` writes the time of a record and its rows, `loadData` reads such a line.
A counter is printed as an unsigned number and read as a signed one. The counters of
the whole machine are not written: `MonCpustat` takes those of a row with the number
-1, and `MonDiskstats` adds up the rows of whole disks.

Results:
1. `loadLine_rawLine`: what is read back from any line.
2. `restores_iff`: which records come back.
-/

namespace Dframework

open CLib

/-! ## Rows as text -/

/-- The bytes that end a field in `loadData`. -/
def isFieldEnd (c : UInt8) : Bool :=
  c == 32 || c == 9 || c == 124

/-- The loop of `loadData` over the bytes of a row. `v` is what stands between the pointer
of this name and `p`; the pointer is `NULL` when that is nothing. -/
def fieldsLoop : Bytes → Bytes → List Bytes
  | v, [] => if v = [] then [] else [v]
  | v, c :: p =>
    if isFieldEnd c then if v = [] then fieldsLoop [] p else v :: fieldsLoop [] p
    else fieldsLoop (v ++ [c]) p

/-- The fields of a row. `round` is their number. -/
def rowFields (arx : Bytes) : List Bytes :=
  fieldsLoop [] (cstr arx)

def textOf (s : Bytes) : String :=
  String.ofList (s.map fun c => Char.ofNat c.toNat)

/-- `%lu %lu …`. -/
def spaced (values : List UInt64) : Bytes :=
  ([32] : Bytes).intercalate (values.map fun v => decimal v.toNat)

/-- What `Long::parseLong` makes of a field, in a counter. -/
def readCounter (s : Bytes) : UInt64 :=
  UInt64.ofInt (parseLong (toChars s))

/-- What `Integer::parseInt` makes of a field. -/
def readInt (s : Bytes) : Int32 :=
  Int32.ofInt (parseInt (toChars s))

section

variable {ι κ : Type}

/-- `getRawString`, with the format `body` of a row. -/
def rawLine (body : Row ι κ → Bytes) (sec : UInt64) (rows : List (Row ι κ)) : Bytes :=
  decimal sec.toNat ++ (rows.map fun d => [9, 124] ++ body d).flatten ++ [10]

/-- The loop of `loadData` over the pieces of the line. `count` is what a row does to the
counters of the whole machine. -/
def loadRows (cmp : Row ι κ → Row ι κ → Ordering) (loadRow : Bytes → Option (Row ι κ))
    (count : κ → Row ι κ → κ) (sLine : Bytes) :
    List Bytes → List (Row ι κ) → κ → Except Ret (List (Row ι κ) × κ)
  | [], rows, all => .ok (rows, all)
  | arx :: ar, rows, all =>
    match loadRow arx with
    | none => .error { value := .error, message := "Unknown format " ++ textOf sLine }
    | some d => loadRows cmp loadRow count sLine ar (ArraySorted.insert cmp d rows) (count all d)

/-- `loadData`: the time, the rows and the counters of the whole machine. -/
def loadLine [Zero κ] (cmp : Row ι κ → Row ι κ → Ordering) (loadRow : Bytes → Option (Row ι κ))
    (count : κ → Row ι κ → κ) (sLine : Bytes) : Except Ret (UInt64 × List (Row ι κ) × κ) :=
  let ar := StringArray.split (toChars sLine) [124]
  match ar with
  | ar1 :: arx :: ars =>
    (loadRows cmp loadRow count sLine (arx :: ars) [] 0).map fun r => (readCounter ar1, r)
  | _ => .error { value := .error, message := s!"Unknown format. ground-size={ar.length}" }

end

/-- The row format of `MonCpustat::getRawString`, behind the separator. -/
def MonCpustat.body (d : Row Int32 CpuCounters) : Bytes :=
  decimal d.device.toInt ++ [32] ++
    spaced [d.counters.total, d.counters.user, d.counters.nice, d.counters.system] ++ [32] ++
    spaced [d.counters.idle, d.counters.iowait, d.counters.irq, d.counters.softirq]

/-- A row of `MonCpustat::loadData`; it has nine fields. -/
def MonCpustat.loadRow (arx : Bytes) : Option (Row Int32 CpuCounters) :=
  match rowFields arx with
  | [no, total, user, nice, system, idle, iowait, irq, softirq] =>
    some ⟨readInt no, readCounter total, readCounter user, readCounter nice, readCounter system,
      readCounter idle, readCounter iowait, readCounter irq, readCounter softirq⟩
  | _ => none

def MonCpustat.getRawString (m : MonCpustat) : Bytes :=
  rawLine MonCpustat.body m.sec m.aLists

/-- What a row does to `m_all` in `MonCpustat::loadData`. -/
def MonCpustat.count (all : CpuCounters) (d : Row Int32 CpuCounters) : CpuCounters :=
  if d.device = -1 then d.counters else all

def MonCpustat.loadData (sLine : Bytes) : Except Ret MonCpustat :=
  (loadLine MonCpustat.compare MonCpustat.loadRow MonCpustat.count sLine).map
    fun (sec, aLists, all) => { sec, aLists, all }

/-- The row format of `MonDiskstats::getRawString`, behind the separator. -/
def MonDiskstats.body (d : Row Disk DiskCounters) : Bytes :=
  decimal d.device.type.toInt ++ [32] ++ decimal d.device.devtype.toInt ++ [32] ++
    cstr d.device.sName ++ [9] ++
    spaced [d.counters.rcount, d.counters.rmerged, d.counters.rsector, d.counters.rtime] ++ [9] ++
    spaced [d.counters.wcount, d.counters.wmerged, d.counters.wsector, d.counters.wtime] ++ [9] ++
    spaced [d.counters.iocount, d.counters.iotime, d.counters.iowtime]

/-- A row of `MonDiskstats::loadData`; it has fourteen fields. -/
def MonDiskstats.loadRow (arx : Bytes) : Option (Row Disk DiskCounters) :=
  match rowFields arx with
  | [type, devtype, name, rcount, rmerged, rsector, rtime, wcount, wmerged, wsector, wtime,
      iocount, iotime, iowtime] =>
    some ⟨⟨readInt type, readInt devtype, name⟩, readCounter rcount, readCounter rmerged,
      readCounter rsector, readCounter rtime, readCounter wcount, readCounter wmerged,
      readCounter wsector, readCounter wtime, readCounter iocount, readCounter iotime,
      readCounter iowtime⟩
  | _ => none

def MonDiskstats.getRawString (m : MonDiskstats) : Bytes :=
  rawLine MonDiskstats.body m.sec m.aLists

/-- What a row does to `m_all` in `MonDiskstats::loadData`. -/
def MonDiskstats.count (all : DiskCounters) (d : Row Disk DiskCounters) : DiskCounters :=
  if d.device.devtype = 0 then all + d.counters else all

def MonDiskstats.loadData (sLine : Bytes) : Except Ret MonDiskstats :=
  (loadLine MonDiskstats.compare MonDiskstats.loadRow MonDiskstats.count sLine).map
    fun (sec, aLists, all) => { sec, aLists, all }

/-! ## Fields -/

/-- A text that no byte ends. -/
structure RowField (t : Bytes) : Prop where
  ne_nil : t ≠ []
  not_end : ∀ c ∈ t, isFieldEnd c = false
  not_nul : (0 : UInt8) ∉ t

theorem fieldsLoop_append {v t : Bytes} (ht : ∀ c ∈ t, isFieldEnd c = false) (m : Bytes) :
    fieldsLoop v (t ++ m) = fieldsLoop (v ++ t) m := by
  induction t generalizing v with
  | nil => rw [List.nil_append, List.append_nil]
  | cons c t ih =>
    rw [List.cons_append, fieldsLoop, ht c List.mem_cons_self]
    simp only [Bool.false_eq_true, ↓reduceIte]
    rw [ih fun x hx => ht x (List.mem_cons_of_mem c hx), List.append_assoc]
    rfl

/-- Fields, each behind the blank or tab that separates it from the one before. -/
def Separated (ts : List (UInt8 × Bytes)) : Prop :=
  ∀ x ∈ ts, (x.1 = 32 ∨ x.1 = 9) ∧ RowField x.2

/-- A field, and others behind the bytes that separate them. -/
def chained (t : Bytes) (ts : List (UInt8 × Bytes)) : Bytes :=
  t ++ (ts.map fun x => x.1 :: x.2).flatten

theorem fieldsLoop_chained {t : Bytes} {ts : List (UInt8 × Bytes)} {e : Bytes} (ht : RowField t)
    (hts : Separated ts) (he : e = [] ∨ e = [9]) :
    fieldsLoop [] (chained t ts ++ e) = t :: ts.map Prod.snd := by
  induction ts generalizing t with
  | nil =>
    rw [chained, List.map_nil, List.flatten_nil, List.append_nil, fieldsLoop_append ht.not_end,
      List.nil_append]
    rcases he with rfl | rfl
    · rw [fieldsLoop, if_neg ht.ne_nil]
      rfl
    · simp [fieldsLoop, isFieldEnd, ht.ne_nil]
  | cons x ts ih =>
    obtain ⟨hsep, hx⟩ := hts x List.mem_cons_self
    have hend : isFieldEnd x.1 = true := by rcases hsep with h | h <;> rw [h] <;> rfl
    have hnext := ih hx fun y hy => hts y (List.mem_cons_of_mem x hy)
    rw [chained, List.append_assoc, fieldsLoop_append ht.not_end, List.nil_append, List.map_cons,
      List.flatten_cons, List.cons_append, List.cons_append, fieldsLoop, if_pos hend,
      if_neg ht.ne_nil, List.map_cons, ← hnext, chained]

/-- What stands in a row of fields: the separators and the bytes of the fields. -/
theorem mem_chained {t : Bytes} {ts : List (UInt8 × Bytes)} {c : UInt8} (ht : RowField t)
    (hts : Separated ts) (hc : c ∈ chained t ts) : c = 32 ∨ c = 9 ∨ isFieldEnd c = false ∧ c ≠ 0 := by
  have hfield : ∀ {f : Bytes}, RowField f → c ∈ f → isFieldEnd c = false ∧ c ≠ 0 := fun hf hmem =>
    ⟨hf.not_end c hmem, fun h0 => hf.not_nul (h0 ▸ hmem)⟩
  rcases List.mem_append.mp hc with hc | hc
  · exact .inr (.inr (hfield ht hc))
  obtain ⟨l, hl, hc⟩ := List.mem_flatten.mp hc
  obtain ⟨x, hx, rfl⟩ := List.mem_map.mp hl
  rcases List.mem_cons.mp hc with rfl | hc
  · exact (hts x hx).1.imp_right .inl
  · exact .inr (.inr (hfield (hts x hx).2 hc))

/-- A row is one piece of the line, with the tab that may stand behind it. -/
theorem segment_chained {t : Bytes} {ts : List (UInt8 × Bytes)} {s : Bytes} (ht : RowField t)
    (hts : Separated ts) (hs : s = [] ∨ s = [9]) :
    StringArray.Segment 124 (chained t ts ++ s) := by
  have hmem : ∀ c ∈ chained t ts ++ s, c ≠ 124 ∧ c ≠ 0 := by
    intro c hc
    have hcases : c = 32 ∨ c = 9 ∨ isFieldEnd c = false ∧ c ≠ 0 := by
      rcases List.mem_append.mp hc with hc | hc
      · exact mem_chained ht hts hc
      · rcases hs with rfl | rfl
        · cases hc
        · exact .inr (.inl (List.mem_singleton.mp hc))
    rcases hcases with rfl | rfl | ⟨hend, h0⟩
    · decide
    · decide
    · refine ⟨?_, h0⟩
      rintro rfl
      cases hend
  refine ⟨fun hnil => ht.ne_nil ?_, fun h => (hmem 124 h).1 rfl, fun h => (hmem 0 h).2 rfl⟩
  exact (List.append_eq_nil_iff.mp (List.append_eq_nil_iff.mp hnil).1).1

theorem rowFields_chained {t : Bytes} {ts : List (UInt8 × Bytes)} {e : Bytes} (ht : RowField t)
    (hts : Separated ts) (he : e = [] ∨ e = [9]) :
    rowFields (chained t ts ++ e) = t :: ts.map Prod.snd := by
  rw [rowFields, cstr_of_not_mem (segment_chained ht hts he).not_nul, fieldsLoop_chained ht hts he]

/-! ## Numbers -/

/-- A printed number does not end a field, nor does the line break that may follow it. -/
theorem decimal_field (i : Int) {e : Bytes} (he : e = [] ∨ e = [10]) : RowField (decimal i ++ e) := by
  have hmem : ∀ c ∈ decimal i ++ e, isFieldEnd c = false ∧ c ≠ 0 := by
    intro c hc
    rcases List.mem_append.mp hc with hc | hc
    · rcases decimal_mem hc with hd | rfl
      · have hspace := (decimalDigit_ne hd).1
        refine ⟨?_, ?_⟩
        · simp only [isFieldEnd, Bool.or_eq_false_iff, beq_eq_false_iff_ne]
          refine ⟨⟨?_, ?_⟩, ?_⟩ <;> rintro rfl
          · cases hspace
          · cases hspace
          · cases hd
        · rintro rfl
          cases hd
      · decide
    · rcases he with rfl | rfl
      · cases hc
      · rw [List.mem_singleton.mp hc]
        decide
  refine ⟨?_, fun c hc => (hmem c hc).1, fun h0 => (hmem 0 h0).2 rfl⟩
  exact fun hnil => decimal_ne_nil i (List.append_eq_nil_iff.mp hnil).1

theorem decimal_field' (i : Int) : RowField (decimal i) := by
  have h := decimal_field i (.inl rfl)
  rwa [List.append_nil] at h

theorem head_not_digit {e : Bytes} (he : e = [] ∨ e = [10] ∨ e = [9]) :
    ∀ c ∈ e.head?, isDigit 10 c = false := by
  rintro c hc
  rcases he with rfl | rfl | rfl
  · cases hc
  · cases hc
    rfl
  · cases hc
    rfl

theorem readCounter_printed (n : UInt64) {e : Bytes} (he : e = [] ∨ e = [10] ∨ e = [9]) :
    readCounter (decimal n.toNat ++ e) = throughLong n := by
  have hne : decimal n.toNat ++ e ≠ [] := fun h =>
    decimal_ne_nil n.toNat (List.append_eq_nil_iff.mp h).1
  rw [readCounter, toChars_of_ne_nil hne, parseLong_printed n (head_not_digit he)]

theorem readInt_printed (i : Int32) : readInt (decimal i.toInt) = i := by
  have h := parseInt_printed i (t := []) (head_not_digit (.inl rfl))
  rw [List.append_nil] at h
  rw [readInt, toChars_of_ne_nil (decimal_ne_nil _), h]

/-! ## Rows -/

/-- What the counters are when they went through the text. -/
def CpuCounters.saved (a : CpuCounters) : CpuCounters :=
  ⟨throughLong a.total, throughLong a.user, throughLong a.nice, throughLong a.system,
    throughLong a.idle, throughLong a.iowait, throughLong a.irq, throughLong a.softirq⟩

/-- What the counters are when they went through the text. -/
def DiskCounters.saved (a : DiskCounters) : DiskCounters :=
  ⟨throughLong a.rcount, throughLong a.rmerged, throughLong a.rsector, throughLong a.rtime,
    throughLong a.wcount, throughLong a.wmerged, throughLong a.wsector, throughLong a.wtime,
    throughLong a.iocount, throughLong a.iotime, throughLong a.iowtime⟩

theorem CpuCounters.saved_eq_iff {a : CpuCounters} :
    a.saved = a ↔ ∀ v ∈ a.values, v.toNat < 2 ^ 63 := by
  simp only [CpuCounters.saved, CpuCounters.ext_iff, CpuCounters.values, throughLong_eq_iff,
    List.forall_mem_cons, List.not_mem_nil, false_imp_iff, implies_true, and_true]

theorem DiskCounters.saved_eq_iff {a : DiskCounters} :
    a.saved = a ↔ ∀ v ∈ a.values, v.toNat < 2 ^ 63 := by
  simp only [DiskCounters.saved, DiskCounters.ext_iff, DiskCounters.values, throughLong_eq_iff,
    List.forall_mem_cons, List.not_mem_nil, false_imp_iff, implies_true, and_true]

/-- A device name: not empty and without a byte that ends a field. -/
abbrev IsName (t : Bytes) : Prop := RowField t

theorem readCounter_printed' (n : UInt64) : readCounter (decimal n.toNat) = throughLong n := by
  have h := readCounter_printed n (.inl rfl)
  rwa [List.append_nil] at h

/-- The fields of a row of `MonCpustat` behind the first, with what follows them. -/
def MonCpustat.tail (a : CpuCounters) (e : Bytes) : List (UInt8 × Bytes) :=
  [(32, decimal a.total.toNat), (32, decimal a.user.toNat), (32, decimal a.nice.toNat),
    (32, decimal a.system.toNat), (32, decimal a.idle.toNat), (32, decimal a.iowait.toNat),
    (32, decimal a.irq.toNat), (32, decimal a.softirq.toNat ++ e)]

/-- The fields of a row of `MonDiskstats` behind the first, with what follows them. -/
def MonDiskstats.tail (d : Disk) (a : DiskCounters) (e : Bytes) : List (UInt8 × Bytes) :=
  [(32, decimal d.devtype.toInt), (32, cstr d.sName),
    (9, decimal a.rcount.toNat), (32, decimal a.rmerged.toNat), (32, decimal a.rsector.toNat),
    (32, decimal a.rtime.toNat), (9, decimal a.wcount.toNat), (32, decimal a.wmerged.toNat),
    (32, decimal a.wsector.toNat), (32, decimal a.wtime.toNat), (9, decimal a.iocount.toNat),
    (32, decimal a.iotime.toNat), (32, decimal a.iowtime.toNat ++ e)]

theorem MonCpustat.body_append (d : Row Int32 CpuCounters) (e : Bytes) :
    MonCpustat.body d ++ e = chained (decimal d.device.toInt) (MonCpustat.tail d.counters e) := by
  simp [MonCpustat.body, MonCpustat.tail, spaced, chained, List.intercalate, List.intersperse]

theorem MonDiskstats.body_append (d : Row Disk DiskCounters) (e : Bytes) :
    MonDiskstats.body d ++ e =
      chained (decimal d.device.type.toInt) (MonDiskstats.tail d.device d.counters e) := by
  simp [MonDiskstats.body, MonDiskstats.tail, spaced, chained, List.intercalate, List.intersperse]

theorem MonCpustat.separated (a : CpuCounters) {e : Bytes} (he : e = [] ∨ e = [10]) :
    Separated (MonCpustat.tail a e) := by
  simp only [Separated, MonCpustat.tail, List.forall_mem_cons, decimal_field', decimal_field _ he,
    List.not_mem_nil, false_imp_iff, implies_true]
  decide

theorem MonDiskstats.separated {d : Disk} (hname : IsName d.sName) (a : DiskCounters) {e : Bytes}
    (he : e = [] ∨ e = [10]) : Separated (MonDiskstats.tail d a e) := by
  have hcstr : cstr d.sName = d.sName := cstr_of_not_mem hname.not_nul
  simp only [Separated, MonDiskstats.tail, List.forall_mem_cons, decimal_field', decimal_field _ he,
    hcstr, hname, List.not_mem_nil, false_imp_iff, implies_true]
  decide

theorem MonCpustat.loadRow_body (d : Row Int32 CpuCounters) {e s : Bytes} (he : e = [] ∨ e = [10])
    (hs : s = [] ∨ s = [9]) :
    MonCpustat.loadRow (MonCpustat.body d ++ e ++ s) = some ⟨d.device, d.counters.saved⟩ := by
  have he' : e = [] ∨ e = [10] ∨ e = [9] := he.imp_right .inl
  rw [MonCpustat.body_append, MonCpustat.loadRow,
    rowFields_chained (decimal_field' _) (MonCpustat.separated _ he) hs]
  simp only [MonCpustat.tail, List.map_cons, List.map_nil, readInt_printed, readCounter_printed',
    readCounter_printed _ he', CpuCounters.saved]

theorem MonDiskstats.loadRow_body {d : Row Disk DiskCounters} (hname : IsName d.device.sName)
    {e s : Bytes} (he : e = [] ∨ e = [10]) (hs : s = [] ∨ s = [9]) :
    MonDiskstats.loadRow (MonDiskstats.body d ++ e ++ s) = some ⟨d.device, d.counters.saved⟩ := by
  have he' : e = [] ∨ e = [10] ∨ e = [9] := he.imp_right .inl
  rw [MonDiskstats.body_append, MonDiskstats.loadRow,
    rowFields_chained (decimal_field' _) (MonDiskstats.separated hname _ he) hs]
  simp only [MonDiskstats.tail, List.map_cons, List.map_nil, readInt_printed, readCounter_printed',
    readCounter_printed _ he', DiskCounters.saved, cstr_of_not_mem hname.not_nul]

/-! ## Lines -/

section

variable {ι κ : Type} {body : Row ι κ → Bytes} {loadRow : Bytes → Option (Row ι κ)}
  {saved : Row ι κ → Row ι κ} {cmp : Row ι κ → Row ι κ → Ordering} {count : κ → Row ι κ → κ}
  {rows : List (Row ι κ)}

/-- The rows in their pieces of the line: a tab stands behind each of them, and the line
break behind the last one. -/
def rowPieces (body : Row ι κ → Bytes) : List (Row ι κ) → List Bytes
  | [] => []
  | [d] => [body d ++ [10] ++ []]
  | d :: ds => (body d ++ [] ++ [9]) :: rowPieces body ds

/-- The text of a row is read as the row `saved`, wherever it stands in the line. -/
structure ReadsRow (body : Row ι κ → Bytes) (loadRow : Bytes → Option (Row ι κ))
    (saved : Row ι κ → Row ι κ) (d : Row ι κ) : Prop where
  read : ∀ {e s : Bytes}, (e = [] ∨ e = [10]) → (s = [] ∨ s = [9]) →
    loadRow (body d ++ e ++ s) = some (saved d)
  segment : ∀ {e s : Bytes}, (e = [] ∨ e = [10]) → (s = [] ∨ s = [9]) →
    StringArray.Segment 124 (body d ++ e ++ s)

theorem rawLine_cons (sec : UInt64) (d : Row ι κ) (ds : List (Row ι κ)) :
    rawLine body sec (d :: ds) =
      StringArray.joined 124 (decimal sec.toNat ++ [9]) (rowPieces body (d :: ds)) := by
  suffices h : ∀ d, ((d :: ds).map fun d => [9, 124] ++ body d).flatten ++ [10] =
      9 :: ((rowPieces body (d :: ds)).map (124 :: ·)).flatten by
    rw [rawLine, List.append_assoc, h, StringArray.joined, List.append_assoc]
    rfl
  induction ds with
  | nil => intro d; simp [rowPieces]
  | cons d' ds ih =>
    intro d
    rw [List.map_cons, List.flatten_cons, List.append_assoc, ih d']
    simp [rowPieces]

theorem mem_rowPieces {p : Bytes} (hreads : ∀ d ∈ rows, ReadsRow body loadRow saved d)
    (hp : p ∈ rowPieces body rows) : StringArray.Segment 124 p := by
  induction rows with
  | nil => cases hp
  | cons d ds ih =>
    have hd := hreads d List.mem_cons_self
    cases ds with
    | nil =>
      rw [List.mem_singleton.mp hp]
      exact hd.segment (.inr rfl) (.inl rfl)
    | cons d' ds =>
      rcases List.mem_cons.mp hp with rfl | hp
      · exact hd.segment (.inl rfl) (.inr rfl)
      · exact ih (fun x hx => hreads x (List.mem_cons_of_mem d hx)) hp

theorem loadRows_rowPieces (hreads : ∀ d ∈ rows, ReadsRow body loadRow saved d) (sLine : Bytes)
    (acc : List (Row ι κ)) (all : κ) :
    loadRows cmp loadRow count sLine (rowPieces body rows) acc all =
      .ok ((rows.map saved).foldl (fun l d => ArraySorted.insert cmp d l) acc,
        (rows.map saved).foldl count all) := by
  induction rows generalizing acc all with
  | nil => rfl
  | cons d ds ih =>
    have hd := hreads d List.mem_cons_self
    cases ds with
    | nil => rw [rowPieces, loadRows, hd.read (.inr rfl) (.inl rfl)]; rfl
    | cons d' ds =>
      rw [rowPieces, loadRows, hd.read (.inl rfl) (.inr rfl), List.map_cons, List.foldl_cons,
        List.foldl_cons]
      · exact ih (fun x hx => hreads x (List.mem_cons_of_mem d hx)) _ _
      · exact List.cons_ne_nil d' ds

theorem secPiece (sec : UInt64) : StringArray.Segment 124 (decimal sec.toNat ++ [9]) := by
  have h := segment_chained (decimal_field' sec.toNat) (fun _ (hx : _ ∈ []) => by cases hx) (.inr rfl)
  rwa [chained, List.map_nil, List.flatten_nil, List.append_nil] at h

theorem rawLine_ne_nil (sec : UInt64) (rows : List (Row ι κ)) : rawLine body sec rows ≠ [] :=
  fun h => absurd (List.append_eq_nil_iff.mp h).2 (List.cons_ne_nil 10 [])

theorem readCounter_sec (sec : UInt64) : readCounter (decimal sec.toNat ++ [9]) = throughLong sec :=
  readCounter_printed sec (.inr (.inr rfl))

variable [Zero κ]

/-- What is read back from the line of a record. -/
theorem loadLine_rawLine (hreads : ∀ d ∈ rows, ReadsRow body loadRow saved d) (hne : rows ≠ [])
    (sec : UInt64) :
    loadLine cmp loadRow count (rawLine body sec rows) =
      .ok (throughLong sec, (rows.map saved).foldl (fun l d => ArraySorted.insert cmp d l) [],
        (rows.map saved).foldl count 0) := by
  obtain ⟨d, ds, rfl⟩ := List.exists_cons_of_ne_nil hne
  have hsplit : StringArray.split (toChars (rawLine body sec (d :: ds))) [124] =
      (decimal sec.toNat ++ [9]) :: rowPieces body (d :: ds) := by
    rw [toChars_of_ne_nil (rawLine_ne_nil sec _), rawLine_cons,
      StringArray.split_joined (by decide) (secPiece sec) fun p hp => mem_rowPieces hreads hp]
  obtain ⟨q, qs, hq⟩ : ∃ q qs, rowPieces body (d :: ds) = q :: qs := by
    cases ds <;> exact ⟨_, _, rfl⟩
  rw [loadLine, hsplit, hq]
  simp only
  rw [← hq, loadRows_rowPieces hreads, readCounter_sec]
  rfl

/-- The line of a record without rows is refused. -/
theorem loadLine_rawLine_nil (body : Row ι κ → Bytes) (cmp : Row ι κ → Row ι κ → Ordering)
    (loadRow : Bytes → Option (Row ι κ)) (count : κ → Row ι κ → κ) (sec : UInt64) :
    ∃ e, loadLine cmp loadRow count (rawLine body sec []) = .error e := by
  have hline : rawLine body sec [] = StringArray.joined 124 (decimal sec.toNat ++ [10]) [] := by
    simp [rawLine, StringArray.joined]
  have hseg : StringArray.Segment 124 (decimal sec.toNat ++ [10]) := by
    have h := segment_chained (decimal_field sec.toNat (.inr rfl))
      (fun _ (hx : _ ∈ []) => by cases hx) (.inl rfl)
    rwa [chained, List.map_nil, List.flatten_nil, List.append_nil, List.append_nil] at h
  rw [loadLine, toChars_of_ne_nil (rawLine_ne_nil sec _), hline,
    StringArray.split_joined (by decide) hseg fun _ hp => by cases hp]
  exact ⟨_, rfl⟩

end

/-! ## Records that come back -/

/-- The rows of the first device of a sorted array read the same from both ends. Where each
device has one row, there is only one of them. -/
def LeadSymmetric {α : Type} (cmp : α → α → Ordering) (rows : List α) : Prop :=
  (ArraySorted.lead cmp rows).reverse = ArraySorted.lead cmp rows

section

variable {ι κ : Type} {saved : Row ι κ → Row ι κ} {cmp : Row ι κ → Row ι κ → Ordering}
  {rows : List (Row ι κ)}

/-- The rows come back when none of them changes in the text, and those of the first device
read the same from both ends. -/
theorem insert_saved_iff [Std.TransCmp cmp] (hs : ArraySorted.Sorted cmp rows)
    (hcmp : ∀ a b, cmp (saved a) (saved b) = cmp a b) (hidem : ∀ d, saved (saved d) = saved d) :
    (rows.map saved).foldl (fun l d => ArraySorted.insert cmp d l) [] = rows ↔
      (∀ d ∈ rows, saved d = d) ∧ LeadSymmetric cmp rows := by
  have hsaved : ArraySorted.Sorted cmp (rows.map saved) :=
    List.pairwise_map.mpr (hs.imp fun hle => (hcmp _ _).symm ▸ hle)
  have hlead := ArraySorted.lead_append_drop cmp rows
  constructor
  · intro heq
    have hself : ∀ d ∈ rows, saved d = d := by
      intro d hd
      rw [← heq, ArraySorted.foldl_insert_sorted hsaved] at hd
      have hmem : d ∈ rows.map saved := by
        rw [← ArraySorted.lead_append_drop cmp (rows.map saved)]
        rcases List.mem_append.mp hd with hd | hd
        · exact List.mem_append_left _ (List.mem_reverse.mp hd)
        · exact List.mem_append_right _ hd
      obtain ⟨x, -, rfl⟩ := List.mem_map.mp hmem
      exact hidem x
    have hmap : rows.map saved = rows := (List.map_congr_left hself).trans (List.map_id _)
    rw [hmap, ArraySorted.foldl_insert_sorted hs] at heq
    exact ⟨hself, List.append_cancel_right (heq.trans hlead.symm)⟩
  · rintro ⟨hself, hrev⟩
    have hmap : rows.map saved = rows := (List.map_congr_left hself).trans (List.map_id _)
    rw [hmap, ArraySorted.foldl_insert_sorted hs, hrev, hlead]

/-- The line of a record is read as the record itself. -/
theorem loadLine_eq_iff [Std.TransCmp cmp] [Zero κ] {body : Row ι κ → Bytes}
    {loadRow : Bytes → Option (Row ι κ)} (count : κ → Row ι κ → κ) (sec : UInt64) (all : κ)
    (hreads : ∀ d ∈ rows, ReadsRow body loadRow saved d) (hs : ArraySorted.Sorted cmp rows)
    (hcmp : ∀ a b, cmp (saved a) (saved b) = cmp a b) (hidem : ∀ d, saved (saved d) = saved d) :
    loadLine cmp loadRow count (rawLine body sec rows) = .ok (sec, rows, all) ↔
      rows ≠ [] ∧ sec.toNat < 2 ^ 63 ∧ (∀ d ∈ rows, saved d = d) ∧ LeadSymmetric cmp rows ∧
        all = rows.foldl count 0 := by
  rcases eq_or_ne rows [] with rfl | hne
  · obtain ⟨e, he⟩ := loadLine_rawLine_nil body cmp loadRow count sec
    rw [he]
    exact iff_of_false (fun h => by cases h) fun h => h.1 rfl
  rw [loadLine_rawLine hreads hne, Except.ok.injEq, Prod.mk.injEq, Prod.mk.injEq,
    throughLong_eq_iff, insert_saved_iff hs hcmp hidem]
  constructor
  · rintro ⟨hsec, ⟨hself, hlead⟩, hall⟩
    rw [(List.map_congr_left hself).trans (List.map_id _)] at hall
    exact ⟨hne, hsec, hself, hlead, hall.symm⟩
  · rintro ⟨-, hsec, hself, hlead, rfl⟩
    rw [(List.map_congr_left hself).trans (List.map_id _)]
    exact ⟨hsec, ⟨hself, hlead⟩, rfl⟩

end

/-- The counters of the last row with the number -1, or none counted. -/
def MonCpustat.totalRow (rows : List (Row Int32 CpuCounters)) : CpuCounters :=
  ((rows.filter fun d => d.device == -1).getLast?.map Row.counters).getD 0

/-- The counters of the whole disks together. -/
def MonDiskstats.wholeDisks (rows : List (Row Disk DiskCounters)) : DiskCounters :=
  ((rows.filter fun d => d.device.devtype == 0).map Row.counters).sum

theorem MonCpustat.foldl_count (rows : List (Row Int32 CpuCounters)) :
    rows.foldl MonCpustat.count 0 = MonCpustat.totalRow rows := by
  induction rows using List.reverseRecOn with
  | nil => rfl
  | append_singleton rows d ih =>
    rw [List.foldl_concat, ih, MonCpustat.count, MonCpustat.totalRow, MonCpustat.totalRow,
      List.filter_append]
    split
    next h => simp [h]
    next h => simp [h]

theorem MonDiskstats.foldl_count (rows : List (Row Disk DiskCounters)) :
    rows.foldl MonDiskstats.count 0 = MonDiskstats.wholeDisks rows := by
  induction rows using List.reverseRecOn with
  | nil => rfl
  | append_singleton rows d ih =>
    rw [List.foldl_concat, ih, MonDiskstats.count, MonDiskstats.wholeDisks,
      MonDiskstats.wholeDisks, List.filter_append]
    split
    next h => simp [h]
    next h => simp [h]

/-- `loadData` makes the record again from the line of `getRawString`: its time, its rows
and the counters of the whole machine. -/
def MonCpustat.Restores (m : MonCpustat) : Prop :=
  ∃ out, MonCpustat.loadData m.getRawString = .ok out ∧
    out.sec = m.sec ∧ out.all = m.all ∧ out.aLists = m.aLists

def MonDiskstats.Restores (m : MonDiskstats) : Prop :=
  ∃ out, MonDiskstats.loadData m.getRawString = .ok out ∧
    out.sec = m.sec ∧ out.all = m.all ∧ out.aLists = m.aLists

def FitsLong {ι κ : Type} (values : κ → List UInt64) (sec : UInt64) (rows : List (Row ι κ)) : Prop :=
  sec.toNat < 2 ^ 63 ∧ ∀ d ∈ rows, ∀ v ∈ values d.counters, v.toNat < 2 ^ 63

theorem CpuCounters.saved_idem (a : CpuCounters) : a.saved.saved = a.saved := by
  simp only [CpuCounters.saved, throughLong_idem]

theorem DiskCounters.saved_idem (a : DiskCounters) : a.saved.saved = a.saved := by
  simp only [DiskCounters.saved, throughLong_idem]

theorem MonCpustat.readsRow (d : Row Int32 CpuCounters) :
    ReadsRow MonCpustat.body MonCpustat.loadRow (fun d => ⟨d.device, d.counters.saved⟩) d where
  read he hs := MonCpustat.loadRow_body d he hs
  segment he hs := by
    rw [MonCpustat.body_append]
    exact segment_chained (decimal_field' _) (MonCpustat.separated _ he) hs

theorem MonDiskstats.readsRow {d : Row Disk DiskCounters} (hname : IsName d.device.sName) :
    ReadsRow MonDiskstats.body MonDiskstats.loadRow (fun d => ⟨d.device, d.counters.saved⟩) d where
  read he hs := MonDiskstats.loadRow_body hname he hs
  segment he hs := by
    rw [MonDiskstats.body_append]
    exact segment_chained (decimal_field' _) (MonDiskstats.separated hname _ he) hs

theorem row_eq_iff {ι κ : Type} {d : Row ι κ} {a : κ} : (⟨d.device, a⟩ : Row ι κ) = d ↔ a = d.counters :=
  ⟨fun h => congrArg Row.counters h, fun h => h ▸ rfl⟩

theorem exists_map_ok {ε α β : Type} {r : Except ε α} {f : α → β} {P : β → Prop} :
    (∃ b, r.map f = .ok b ∧ P b) ↔ ∃ a, r = .ok a ∧ P (f a) := by
  rcases r with e | a
  · exact ⟨fun ⟨_, h, _⟩ => (by cases h), fun ⟨_, h, _⟩ => (by cases h)⟩
  · exact ⟨fun ⟨_, h, hp⟩ => ⟨a, rfl, (by cases h; exact hp)⟩,
      fun ⟨_, h, hp⟩ => ⟨f a, rfl, (by cases h; exact hp)⟩⟩

theorem MonCpustat.restores_iff {m : MonCpustat}
    (hs : ArraySorted.Sorted MonCpustat.compare m.aLists) :
    m.Restores ↔ m.aLists ≠ [] ∧ FitsLong CpuCounters.values m.sec m.aLists ∧
      LeadSymmetric MonCpustat.compare m.aLists ∧ m.all = MonCpustat.totalRow m.aLists := by
  have hiff := loadLine_eq_iff MonCpustat.count m.sec m.all
    (fun d _ => MonCpustat.readsRow d) hs (fun _ _ => rfl)
    (fun d => congrArg (Row.mk d.device) d.counters.saved_idem)
  simp only [row_eq_iff, CpuCounters.saved_eq_iff, MonCpustat.foldl_count] at hiff
  rw [FitsLong, and_assoc, ← hiff, MonCpustat.Restores, MonCpustat.loadData, MonCpustat.getRawString]
  rw [exists_map_ok]
  constructor
  · rintro ⟨⟨sec, rows, all⟩, hr, rfl, rfl, rfl⟩
    exact hr
  · intro hr
    exact ⟨_, hr, rfl, rfl, rfl⟩

theorem MonDiskstats.restores_iff {m : MonDiskstats}
    (hs : ArraySorted.Sorted MonDiskstats.compare m.aLists)
    (hnames : ∀ d ∈ m.aLists, IsName d.device.sName) :
    m.Restores ↔ m.aLists ≠ [] ∧ FitsLong DiskCounters.values m.sec m.aLists ∧
      LeadSymmetric MonDiskstats.compare m.aLists ∧ m.all = MonDiskstats.wholeDisks m.aLists := by
  have hiff := loadLine_eq_iff MonDiskstats.count m.sec m.all
    (fun d hd => MonDiskstats.readsRow (hnames d hd)) hs (fun _ _ => rfl)
    (fun d => congrArg (Row.mk d.device) d.counters.saved_idem)
  simp only [row_eq_iff, DiskCounters.saved_eq_iff, MonDiskstats.foldl_count] at hiff
  rw [FitsLong, and_assoc, ← hiff, MonDiskstats.Restores, MonDiskstats.loadData,
    MonDiskstats.getRawString]
  rw [exists_map_ok]
  constructor
  · rintro ⟨⟨sec, rows, all⟩, hr, rfl, rfl, rfl⟩
    exact hr
  · intro hr
    exact ⟨_, hr, rfl, rfl, rfl⟩

/-- A record comes back when it has rows, its numbers fit a `long`, the rows of its first device
read the same from both ends, and the counters of the whole machine are those the rows tell. -/
theorem raw_restores_iff {cpu : MonCpustat} {disk : MonDiskstats}
    (hcpu : ArraySorted.Sorted MonCpustat.compare cpu.aLists)
    (hdisk : ArraySorted.Sorted MonDiskstats.compare disk.aLists)
    (hnames : ∀ d ∈ disk.aLists, IsName d.device.sName) :
    (cpu.Restores ↔ cpu.aLists ≠ [] ∧ FitsLong CpuCounters.values cpu.sec cpu.aLists ∧
      LeadSymmetric MonCpustat.compare cpu.aLists ∧ cpu.all = MonCpustat.totalRow cpu.aLists) ∧
    (disk.Restores ↔ disk.aLists ≠ [] ∧ FitsLong DiskCounters.values disk.sec disk.aLists ∧
      LeadSymmetric MonDiskstats.compare disk.aLists ∧
        disk.all = MonDiskstats.wholeDisks disk.aLists) :=
  ⟨MonCpustat.restores_iff hcpu, MonDiskstats.restores_iff hdisk hnames⟩

/-- A disk and its partition, with the totals of the disk. -/
def oneDisk : MonDiskstats where
  sec := 5
  -- sda and sda1
  aLists :=
    [⟨⟨8, 0, [115, 100, 97]⟩, { rcount := 7 }⟩, ⟨⟨8, 1, [115, 100, 97, 49]⟩, { rcount := 4 }⟩]
  all := { rcount := 7 }

/-- Two CPUs that were not used, as were the others. -/
def idleCpus : MonCpustat where
  sec := 5
  aLists := [⟨0, {}⟩, ⟨1, {}⟩]

theorem raw_restores_iff_idle : idleCpus.Restores ∧ oneDisk.Restores := by
  have hcpu : ArraySorted.Sorted MonCpustat.compare idleCpus.aLists :=
    List.pairwise_pair.mpr (by decide)
  have hdisk : ArraySorted.Sorted MonDiskstats.compare oneDisk.aLists :=
    List.pairwise_pair.mpr (by decide)
  have hnames : ∀ d ∈ oneDisk.aLists, IsName d.device.sName := by
    intro d hd
    rcases List.mem_pair.mp hd with rfl | rfl
    · show RowField [115, 100, 97]
      exact ⟨by decide, by simp [isFieldEnd], by decide⟩
    · show RowField [115, 100, 97, 49]
      exact ⟨by decide, by simp [isFieldEnd], by decide⟩
  have hiff := raw_restores_iff hcpu hdisk hnames
  refine ⟨hiff.1.mpr ?_, hiff.2.mpr ?_⟩
  · exact ⟨by decide, ⟨by decide, by simp [idleCpus, CpuCounters.values]⟩,
      by unfold LeadSymmetric; decide, by decide⟩
  · exact ⟨by decide, ⟨by decide, by simp [oneDisk, DiskCounters.values]⟩,
      by unfold LeadSymmetric; decide, by decide⟩

/-- One CPU with the totals of the machine, as `readData` reads them. -/
def busyCpu : MonCpustat where
  sec := 5
  aLists := [⟨0, { total := 3, user := 3 }⟩]
  all := { total := 3, user := 3 }

/-- A CPU whose counter of idle time is 2^63. -/
def longIdle : MonCpustat where
  sec := 5
  aLists := [⟨0, { idle := 9223372036854775808 }⟩]

/-- A record without rows is refused, the totals of the CPUs are not written, and a counter from
2^63 on is not read back. -/
theorem not_raw_restores :
    ¬ MonCpustat.Restores { sec := 5 } ∧ ¬ MonDiskstats.Restores { sec := 5 } ∧
      ¬ busyCpu.Restores ∧ ¬ longIdle.Restores := by
  have hsingle : ∀ d, ArraySorted.Sorted MonCpustat.compare [d] := List.pairwise_singleton _
  refine ⟨fun h => ?_, fun h => ?_, fun h => ?_, fun h => ?_⟩
  · exact ((MonCpustat.restores_iff (m := { sec := 5 }) List.Pairwise.nil).mp h).1 rfl
  · have hnames : ∀ d ∈ ([] : List (Row Disk DiskCounters)), IsName d.device.sName :=
      fun _ hd => by cases hd
    exact ((MonDiskstats.restores_iff (m := { sec := 5 }) List.Pairwise.nil hnames).mp h).1 rfl
  · have hall := ((MonCpustat.restores_iff (m := busyCpu) (hsingle _)).mp h).2.2.2
    exact absurd hall (by decide)
  · have hfits := ((MonCpustat.restores_iff (m := longIdle) (hsingle _)).mp h).2.1.2
    exact absurd hfits (by simp [longIdle, CpuCounters.values])

end Dframework
