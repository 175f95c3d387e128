import Mathlib
import Dframework.Library.Window
import Dframework.Monitor.Monitor

/-!
# The rows of a `Monitor`

Each level keeps the entries that were stored at it, up to `MAX_ROWS` of them. In front of a new one
`run_s_l` drops those that are older than `SECONDS[no] * MAX_ROWS` seconds, which it multiplies in 32
bits.

Results:
1. `runSL_lists`, `windows_step`: what a sample does to the entries of the levels.
2. `window_run`: the entries that a level has in the runs where the product fits in 32 bits.
-/

namespace Dframework

open Window

/-- A class of devices whose `depth` makes its record with `create(sec)`. -/
structure Dated (α : Type) extends Device α where
  sec_depth : ∀ no t m old, sec (depth no t m old) = t

def Device.time {α : Type} (dev : Device α) (e : α) : Nat :=
  (dev.sec e).toNat

/-- What the trace has stored at level `no`. -/
def storedAt {α : Type} (no : Nat) (tr : List (Event α)) : List α :=
  tr.filterMap fun
    | .stored k e => if k = no then some e else none
    | _ => none

/-- What was loaded at level `no` before the first sample. -/
def loadedAt {α : Type} (no : Nat) (periods : List (UInt32 × List α)) : List α :=
  ((periods[no]?).map (·.2)).getD []

/-- The divisor of the times of level `no`: an `int` above the lowest level. -/
def stride (no : Nat) (s : UInt32) : Nat :=
  if no = 0 then s.toNat else s.toInt32.toInt64.toUInt64.toNat

/-- The samples of a run over up to four periods: each one is later than the one before, at a multiple
of the first period, and not earlier than the span of any level. -/
structure Sampled {α : Type} (maxRows : UInt32) (periods : List (UInt32 × List α))
    (samples : List (Device.Sample α)) : Prop where
  terminated : Terminated periods
  increasing : samples.Pairwise fun x y => x.sec.toNat < y.sec.toNat
  multiple : ∀ p ∈ periods.head?, ∀ x ∈ samples, p.1.toNat ∣ x.sec.toNat
  late : ∀ p ∈ periods, ∀ x ∈ samples, p.1.toNat * maxRows.toNat ≤ x.sec.toNat

/-- What was loaded is what earlier samples may have stored. -/
structure Regular {α : Type} (dev : Device α) (periods : List (UInt32 × List α))
    (samples : List (Device.Sample α)) : Prop where
  grows : ∀ p ∈ periods, Growing dev.time p.2
  multiple : ∀ no p, periods[no]? = some p → ∀ e ∈ p.2, stride no p.1 ∣ dev.time e
  before : ∀ p ∈ periods, ∀ e ∈ p.2, ∀ x ∈ samples, dev.time e < x.sec.toNat

/-- The entries `l` of a level at the time `t`, where `earlier` were stored before: they are sorted
by time, there are no more than `M`, and those are gone that are older than the span. -/
structure InWindow {α : Type} (dev : Device α) (M t : Nat) (s : UInt32) (earlier l : List α) :
    Prop where
  sorted : l.Pairwise fun a b => dev.time a ≤ dev.time b
  length_le : l.length ≤ M
  dropped_iff : ∀ e ∈ earlier, e ∉ l ↔ dev.time e + s.toNat * M ≤ t

/-! ## The entries of a step -/

section

variable {α : Type} {maxRows : UInt32} {sec : UInt64} {draw : Nat → Option Nat} {no : Nat}
  {s : UInt32} {inf : Info α} {rest : List (Level α)} {device : α}

/-- What is left of the entries of a level before one is stored. -/
def Device.pruned (dev : Device α) (maxRows : UInt32) (sec : UInt64) (s : UInt32) (l : List α) :
    List α :=
  l.dropWhile fun e => dev.sec e ≤ sec - (s * maxRows).toUInt64

/-- What a step makes of the entries of a level, and whether the level above is stepped. -/
inductive Device.Lists (dev : Device α) (maxRows : UInt32) (sec : UInt64)
    (draw : Nat → Option Nat) (no : Nat) (s : UInt32) (inf : Info α) (rest : List (Level α))
    (device : α) : Pushed α → Prop
  | idle (r : Pushed α) (hlevels : r.levels = (s, inf) :: rest) (htrace : r.trace = []) :
      Lists _ _ _ _ _ _ _ _ _ r
  | first (r : Pushed α) (inf' : Info α) (hs : s ≠ 0)
      (hlists : inf'.aLists = dev.pruned maxRows sec s inf.aLists)
      (hlevels : r.levels = (s, inf') :: rest) (htrace : r.trace = []) : Lists _ _ _ _ _ _ _ _ _ r
  | stored (r q : Pushed α) (inf' : Info α) (last : α) (front : List (Event α)) (hs : s ≠ 0)
      (hlists : inf'.aLists = ArraySorted.insert (compareOn dev.time)
        (dev.depth no sec device last) (dev.pruned maxRows sec s inf.aLists))
      (hlevels : r.levels = (s, inf') :: q.levels)
      (htrace : r.trace = .stored no (dev.depth no sec device last) :: front ++ q.trace)
      (hfront : ∀ e ∈ front, e.level = no ∧ ∀ k x, e ≠ .stored k x)
      (hq : (q.levels = rest ∧ q.trace = []) ∨ ∃ total, isBoundary sec (nextSeconds rest) = true ∧
        q = dev.runSL maxRows sec draw (no + 1) rest total) : Lists _ _ _ _ _ _ _ _ _ r

theorem Device.mem_made_append {e x : Event α}
    (he : e ∈ (if inf.total.isNone then [Event.created no] else []) ++ [x]) (hx : x.level = no)
    (hxs : ∀ k y, x ≠ .stored k y) : e.level = no ∧ ∀ k y, e ≠ .stored k y := by
  rcases List.mem_append.mp he with he | he
  · rw [Device.mem_made he]
    exact ⟨rfl, fun _ _ h => nomatch h⟩
  · rw [List.mem_singleton.mp he]
    exact ⟨hx, hxs⟩

theorem Device.runSL_lists (dev : Device α) (maxRows : UInt32) (sec : UInt64)
    (draw : Nat → Option Nat) (no : Nat) (s : UInt32) (inf : Info α) (rest : List (Level α))
    (device : α) : dev.Lists maxRows sec draw no s inf rest device
      (dev.runSL maxRows sec draw no ((s, inf) :: rest) device) := by
  rw [runSL]
  split
  next => exact .idle _ rfl rfl
  next hs =>
    simp only
    split
    next => exact .first _ _ hs rfl rfl rfl
    next last hlast =>
      split
      next =>
        exact .stored _ ⟨none, rest, []⟩ _ last [] hs rfl rfl rfl (List.forall_mem_nil _)
          (.inl ⟨rfl, rfl⟩)
      next =>
        split
        next hbound =>
          have hhanded := fun e he => @mem_made_append α no inf e (.handed no
            (dev.avg (inf.total.getD (dev.create sec)) inf.plusCount) inf.plusCount) he rfl
            fun _ _ h => by cases h
          split
          next =>
            exact .stored _ _ _ last _ hs rfl rfl (by rw [List.cons_append, List.append_cons]; rfl)
              hhanded (.inr ⟨_, hbound, rfl⟩)
          next =>
            exact .stored _ _ _ last _ hs rfl rfl (by rw [List.cons_append, List.append_cons]; rfl)
              hhanded (.inr ⟨_, hbound, rfl⟩)
        next =>
          exact .stored _ ⟨none, rest, []⟩ _ last _ hs rfl rfl (List.append_nil _).symm
            (fun e he => @mem_made_append α no inf e (.added no (dev.depth no sec device last)) he rfl
              fun _ _ h => by cases h) (.inl ⟨rfl, rfl⟩)

end

/-! ## One level -/

section

variable {α : Type} {time : α → Nat} {span S B t : Nat} {h l : List α}

/-- The entries `l` of a level are those of the history `h` from a cut on, that leaves a whole span
in front of `B`. -/
structure Rows (time : α → Nat) (span S B : Nat) (h l : List α) : Prop where
  grows : Growing time h
  multiple : ∀ e ∈ h, S ∣ time e
  before : ∀ e ∈ h, time e < B
  cut : ∃ cut, (cut = 0 ∨ cut + span ≤ B) ∧ l = since time cut h

theorem Rows.mono (hr : Rows time span S B h l) {B' : Nat} (hB : B ≤ B') :
    Rows time span S B' h l where
  grows := hr.grows
  multiple := hr.multiple
  before e he := (hr.before e he).trans_le hB
  cut := by
    obtain ⟨cut, hcut, hl⟩ := hr.cut
    exact ⟨cut, hcut.imp_right fun hle => hle.trans hB, hl⟩

/-- Dropping what is older than the span leaves a window of the whole history. -/
theorem Rows.dropWhile (hr : Rows time span S B h l) (hB : B ≤ t) :
    l.dropWhile (fun e => time e < t - span + 1) = since time (t - span + 1) h := by
  obtain ⟨cut, hcut, rfl⟩ := hr.cut
  have hle : cut ≤ t - span + 1 := by omega
  rw [(hr.grows.since cut).dropWhile_eq_since, since_since hle]

theorem insert_last {e : α} (hlast : ∀ x ∈ l, time x < time e) :
    ArraySorted.insert (compareOn time) e l = l ++ [e] := by
  cases l with
  | nil => rfl
  | cons x l =>
    have hcmp : ∀ y ∈ x :: l, compare (time y) (time e) = .lt := fun y hy =>
      Nat.compare_eq_lt.mpr (hlast y hy)
    refine ArraySorted.insert_back (x := x) rfl ?_ fun y hy => ?_
    · show compare (time e) (time x) = .gt
      exact Nat.compare_eq_gt.mpr (hlast x List.mem_cons_self)
    · show (compare (time y) (time e)).isLE
      rw [hcmp y hy]
      rfl

/-- The history with an entry of the time `t`. -/
theorem Rows.store (hr : Rows time span S B h l) (hB : B ≤ t) (hlate : span ≤ t) (hpos : 0 < span)
    {e : α} (he : time e = t) (hS : S ∣ t) :
    Rows time span S (t + 1) (h ++ [e]) (since time (t - span + 1) h ++ [e]) where
  grows := hr.grows.concat fun x hx => he ▸ (hr.before x hx).trans_le hB
  multiple x hx := by
    rcases List.mem_append.mp hx with hx | hx
    · exact hr.multiple x hx
    · rw [List.mem_singleton.mp hx, he]
      exact hS
  before x hx := by
    rcases List.mem_append.mp hx with hx | hx
    · have := hr.before x hx
      omega
    · rw [List.mem_singleton.mp hx, he]
      exact Nat.lt_succ_self t
  cut := ⟨t - span + 1, .inr (by omega), (since_concat (by omega)).symm⟩

/-- What is left when nothing is stored. -/
theorem Rows.prune (hr : Rows time span S B h l) (hB : B ≤ t) (hlate : span ≤ t) :
    Rows time span S (t + 1) h (since time (t - span + 1) h) where
  grows := hr.grows
  multiple := hr.multiple
  before x hx := ((hr.before x hx).trans_le hB).trans (Nat.lt_succ_self t)
  cut := ⟨t - span + 1, .inr (by omega), rfl⟩

end

section

variable {α : Type} {dev : Device α} {maxRows : UInt32} {sec : UInt64} {s : UInt32}
  {S B : Nat} {h l : List α}

/-- The span that `run_s_l` computes is the product, where that fits in 32 bits. -/
theorem Rows.pruned_eq (hr : Rows dev.time (s.toNat * maxRows.toNat) S B h l) (hB : B ≤ sec.toNat)
    (hlate : s.toNat * maxRows.toNat ≤ sec.toNat) (hrange : s.toNat * maxRows.toNat < 2 ^ 32) :
    dev.pruned maxRows sec s l =
      since dev.time (sec.toNat - s.toNat * maxRows.toNat + 1) h := by
  have hspan : (s * maxRows).toUInt64.toNat = s.toNat * maxRows.toNat := by
    rw [UInt32.toNat_toUInt64, UInt32.toNat_mul, Nat.mod_eq_of_lt hrange]
  have hcut : (sec - (s * maxRows).toUInt64).toNat = sec.toNat - s.toNat * maxRows.toNat := by
    rw [UInt64.toNat_sub_of_le _ _ (UInt64.le_iff_toNat_le.mpr (hspan ▸ hlate)), hspan]
  rw [← hr.dropWhile hB, Device.pruned]
  congr 1
  funext e
  rw [decide_eq_decide, UInt64.le_iff_toNat_le, hcut, Nat.lt_succ_iff]
  rfl

theorem span_pos (hs : s ≠ 0) (hrows : maxRows ≠ 0) : 0 < s.toNat * maxRows.toNat :=
  Nat.mul_pos (Nat.pos_of_ne_zero fun h0 => hs (UInt32.toNat_inj.mp h0))
    (Nat.pos_of_ne_zero fun h0 => hrows (UInt32.toNat_inj.mp h0))

/-- The entries behind a sample that stored one. -/
theorem Rows.inWindow (hr : Rows dev.time (s.toNat * maxRows.toNat) S B h l)
    (hB : B ≤ sec.toNat) (hlate : s.toNat * maxRows.toNat ≤ sec.toNat) (hs : s ≠ 0)
    (hrows : maxRows ≠ 0) (hle : s.toNat ≤ S) {e : α} (he : dev.time e = sec.toNat)
    (hS : S ∣ sec.toNat) :
    InWindow dev maxRows.toNat sec.toNat s h
      (since dev.time (sec.toNat - s.toNat * maxRows.toNat + 1) h ++ [e]) := by
  have hpos := span_pos hs hrows
  have hnew := hr.store hB hlate hpos he hS
  have hsub : ∀ x ∈ since dev.time (sec.toNat - s.toNat * maxRows.toNat + 1) h ++ [e],
      x ∈ h ++ [e] := by
    intro x hx
    rw [List.mem_append, mem_since] at hx
    exact List.mem_append.mpr (hx.imp_left And.left)
  have hgrows :
      Growing dev.time (since dev.time (sec.toNat - s.toNat * maxRows.toNat + 1) h ++ [e]) :=
    (hr.grows.since _).concat fun x hx =>
      he ▸ (hr.before x (mem_since.mp hx).1).trans_le hB
  refine ⟨hgrows.imp fun hlt => hlt.le, ?_, fun x hx => ?_⟩
  · have hlo : ∀ x ∈ since dev.time (sec.toNat - s.toNat * maxRows.toNat + 1) h ++ [e],
        sec.toNat - s.toNat * maxRows.toNat + 1 ≤ dev.time x := by
      intro x hx
      rcases List.mem_append.mp hx with hx | hx
      · exact (mem_since.mp hx).2
      · rw [List.mem_singleton.mp hx, he]
        omega
    have hmul : s.toNat * maxRows.toNat ≤ maxRows.toNat * S := by
      rw [Nat.mul_comm]
      exact Nat.mul_le_mul_left _ hle
    refine hgrows.length_le_of_dvd (fun x hx => hnew.multiple x (hsub x hx)) hlo
      (fun x hx => hnew.before x (hsub x hx)) ?_
    omega
  · have hx' := hr.before x hx
    have hne : x ≠ e := by
      rintro rfl
      omega
    rw [List.mem_append, mem_since, List.mem_singleton]
    simp only [hx, hne, true_and, or_false]
    omega

/-- What storing an entry makes of a level. -/
theorem Rows.stored (hr : Rows dev.time (s.toNat * maxRows.toNat) S B h l)
    (hrange : s.toNat * maxRows.toNat < 2 ^ 32) (hB : B ≤ sec.toNat)
    (hlate : s.toNat * maxRows.toNat ≤ sec.toNat) (hs : s ≠ 0) (hrows : maxRows ≠ 0)
    (hle : s.toNat ≤ S) {e : α} (he : dev.time e = sec.toNat) (hS : S ∣ sec.toNat) {l' : List α}
    (hl' : l' = ArraySorted.insert (compareOn dev.time) e (dev.pruned maxRows sec s l)) :
    Rows dev.time (s.toNat * maxRows.toNat) S (sec.toNat + 1) (h ++ [e]) l' ∧
      InWindow dev maxRows.toNat sec.toNat s h l' := by
  have hlast : l' = since dev.time (sec.toNat - s.toNat * maxRows.toNat + 1) h ++ [e] := by
    rw [hl', hr.pruned_eq hB hlate hrange]
    refine insert_last fun x hx => ?_
    rw [he]
    exact (hr.before x (mem_since.mp hx).1).trans_le hB
  rw [hlast]
  exact ⟨hr.store hB hlate (span_pos hs hrows) he hS, hr.inWindow hB hlate hs hrows hle he hS⟩

end

/-! ## All levels -/

section

variable {α : Type} {tr evs : List (Event α)} {no : Nat}

theorem le_stride (no : Nat) (s : UInt32) : s.toNat ≤ stride no s := by
  rw [stride]
  split_ifs
  · exact le_rfl
  · show s.toNat ≤ (BitVec.signExtend 64 s.toBitVec).toNat
    rw [BitVec.toNat_signExtend, BitVec.toNat_setWidth, Nat.mod_eq_of_lt]
    · exact Nat.le_add_right _ _
    · exact s.toNat_lt.trans (by decide)

theorem stride_dvd {sec : UInt64} {next : UInt32} (h : isBoundary sec next = true) (no : Nat) :
    stride (no + 1) next ∣ sec.toNat := by
  rw [isBoundary, beq_iff_eq] at h
  rw [stride, if_neg no.succ_ne_zero]
  refine Nat.dvd_of_mod_eq_zero ?_
  rw [← UInt64.toNat_mod, h]
  rfl

theorem storedAt_append (no : Nat) (tr evs : List (Event α)) :
    storedAt no (tr ++ evs) = storedAt no tr ++ storedAt no evs :=
  List.filterMap_append

theorem storedAt_eq_nil (h : ∀ e ∈ evs, ∀ x, e ≠ .stored no x) : storedAt no evs = [] := by
  refine List.filterMap_eq_nil_iff.mpr fun e he => ?_
  cases e with
  | stored k x => exact if_neg fun hk => h _ he x (congrArg (Event.stored · x) hk)
  | _ => rfl

/-- A level stores its entry, and nothing else is stored at it by the levels above. -/
theorem storedAt_self {dep : α} {front up : List (Event α)}
    (hfront : ∀ e ∈ front, e.level = no ∧ ∀ k x, e ≠ .stored k x)
    (hup : ∀ e ∈ up, no + 1 ≤ e.level) : storedAt no (.stored no dep :: front ++ up) = [dep] := by
  have hcons : storedAt no (.stored no dep :: front) = dep :: storedAt no front := by
    rw [storedAt, List.filterMap_cons]
    simp only [if_true]
    rfl
  have hnone : storedAt no up = [] := storedAt_eq_nil fun e he x hx => by
    have hle := hup e he
    rw [hx] at hle
    exact Nat.not_succ_le_self no hle
  rw [storedAt_append, hcons, hnone, storedAt_eq_nil fun e he x => (hfront e he).2 no x,
    List.append_nil]

theorem storedAt_above {dep : α} {front up : List (Event α)} {k : Nat}
    (hfront : ∀ e ∈ front, e.level = no ∧ ∀ k x, e ≠ .stored k x) (hk : no + 1 ≤ k) :
    storedAt k (.stored no dep :: front ++ up) = storedAt k up := by
  have hnone : storedAt k (.stored no dep :: front) = [] := storedAt_eq_nil fun e he x hx => by
    rcases List.mem_cons.mp he with rfl | he
    · cases hx
      exact Nat.not_succ_le_self _ hk
    · exact (hfront e he).2 k x hx
  rw [storedAt_append, hnone, List.nil_append]

variable {dev : Device α} {maxRows : UInt32} {hist hist' : Nat → List α} {levels : List (Level α)}
  {B : Nat}

/-- The entries of each level whose span fits in 32 bits are a window of its history. -/
def Windows (dev : Device α) (maxRows : UInt32) (B : Nat) (hist : Nat → List α) :
    Nat → List (Level α) → Prop
  | _, [] => True
  | no, (s, inf) :: rest =>
    (s.toNat * maxRows.toNat < 2 ^ 32 →
      Rows dev.time (s.toNat * maxRows.toNat) (stride no s) B (hist no) inf.aLists) ∧
        Windows dev maxRows B hist (no + 1) rest

/-- A later bound, and the same history from the level on. -/
theorem Windows.mono (hw : Windows dev maxRows B hist no levels) {B' : Nat} (hB : B ≤ B')
    (hhist : ∀ k, no ≤ k → hist' k = hist k) : Windows dev maxRows B' hist' no levels := by
  induction levels generalizing no with
  | nil => trivial
  | cons l rest ih =>
    refine ⟨fun hrange => ?_, ih hw.2 fun k hk => hhist k ((Nat.le_succ no).trans hk)⟩
    rw [hhist no le_rfl]
    exact (hw.1 hrange).mono hB

variable {sec : UInt64}

theorem map_fst_runSL (dev : Device α) (maxRows : UInt32) (sec : UInt64) (draw : Nat → Option Nat)
    (no : Nat) (levels : List (Level α)) (device : α) :
    (dev.runSL maxRows sec draw no levels device).levels.map Prod.fst = levels.map Prod.fst := by
  induction levels generalizing no device with
  | nil => rfl
  | cons l rest ih =>
    obtain ⟨s, inf⟩ := l
    cases dev.runSL_lists maxRows sec draw no s inf rest device with
    | idle hlevels => rw [hlevels]
    | first inf' hs hlists hlevels =>
      rw [hlevels]
      rfl
    | stored q inf' last front hs hlists hlevels htrace hfront hq =>
      have hrest : q.levels.map Prod.fst = rest.map Prod.fst := by
        rcases hq with ⟨h, -⟩ | ⟨total, -, h⟩
        · rw [h]
        · rw [h]
          exact ih (no + 1) total
      rw [hlevels, List.map_cons, hrest]
      rfl

/-- A step keeps the windows, and a level at which it stores holds no more than its window. -/
theorem windows_step (dev : Dated α) (hrows : maxRows ≠ 0) (draw : Nat → Option Nat) (device : α)
    (hw : Windows dev.toDevice maxRows B hist no levels) (hB : B ≤ sec.toNat)
    (hlate : ∀ l ∈ levels, l.1.toNat * maxRows.toNat ≤ sec.toNat)
    (hmul : ∀ l ∈ levels.head?, stride no l.1 ∣ sec.toNat) :
    Windows dev.toDevice maxRows (sec.toNat + 1)
        (fun k => hist k ++ storedAt k (dev.runSL maxRows sec draw no levels device).trace) no
        (dev.runSL maxRows sec draw no levels device).levels ∧
      ∀ i e, .stored (no + i) e ∈ (dev.runSL maxRows sec draw no levels device).trace →
        ∃ s inf, (dev.runSL maxRows sec draw no levels device).levels[i]? = some (s, inf) ∧
          (s.toNat * maxRows.toNat < 2 ^ 32 →
            InWindow dev.toDevice maxRows.toNat sec.toNat s (hist (no + i)) inf.aLists) := by
  induction levels generalizing no device with
  | nil => exact ⟨trivial, fun _ _ he => nomatch he⟩
  | cons l rest ih =>
    obtain ⟨s, inf⟩ := l
    obtain ⟨hlevel, hrest⟩ := hw
    rw [List.forall_mem_cons] at hlate
    obtain ⟨hspan, hlate⟩ := hlate
    have hnil : ∀ k, hist k ++ storedAt k ([] : List (Event α)) = hist k := fun k =>
      List.append_nil _
    have hBt : B ≤ sec.toNat + 1 := hB.trans (Nat.le_succ _)
    cases dev.runSL_lists maxRows sec draw no s inf rest device with
    | idle hlevels htrace =>
      rw [hlevels, htrace]
      refine ⟨⟨fun hrange => ?_, hrest.mono hBt fun k _ => hnil k⟩, fun _ _ he => nomatch he⟩
      show Rows _ _ _ _ (hist no ++ storedAt no []) _
      rw [hnil]
      exact (hlevel hrange).mono hBt
    | first inf' hs hlists hlevels htrace =>
      rw [hlevels, htrace]
      refine ⟨⟨fun hrange => ?_, hrest.mono hBt fun k _ => hnil k⟩, fun _ _ he => nomatch he⟩
      show Rows _ _ _ _ (hist no ++ storedAt no []) _
      rw [hnil, hlists, (hlevel hrange).pruned_eq hB hspan hrange]
      exact (hlevel hrange).prune hB hspan
    | stored q inf' last front hs hlists hlevels htrace hfront hq =>
      have habove : ∀ e ∈ q.trace, no + 1 ≤ e.level := by
        intro e he
        rcases hq with ⟨-, h⟩ | ⟨total, -, h⟩
        · rw [h] at he
          nomatch he
        · exact dev.level_of_mem_trace (h ▸ he)
      obtain ⟨hup, hin⟩ : Windows dev.toDevice maxRows (sec.toNat + 1)
            (fun k => hist k ++ storedAt k q.trace) (no + 1) q.levels ∧
          ∀ i e, .stored (no + 1 + i) e ∈ q.trace → ∃ s inf, q.levels[i]? = some (s, inf) ∧
            (s.toNat * maxRows.toNat < 2 ^ 32 →
              InWindow dev.toDevice maxRows.toNat sec.toNat s (hist (no + 1 + i)) inf.aLists) := by
        rcases hq with ⟨h, h'⟩ | ⟨total, hbound, h⟩
        · rw [h, h']
          exact ⟨hrest.mono hBt fun k _ => hnil k, fun _ _ he => nomatch he⟩
        · rw [h]
          refine ih total hrest hlate fun l hl => ?_
          have hnext : nextSeconds rest = l.1 := by
            cases rest with
            | nil => nomatch hl
            | cons l' rest => exact congrArg Prod.fst (Option.some.inj hl)
          exact hnext ▸ stride_dvd hbound no
      have htime : dev.time (dev.depth no sec device last) = sec.toNat :=
        congrArg UInt64.toNat (dev.sec_depth no sec device last)
      have hS : stride no s ∣ sec.toNat := hmul (s, inf) rfl
      have hself := fun hrange => (hlevel hrange).stored hrange hB hspan hs hrows (le_stride no s)
        htime hS hlists
      rw [hlevels, htrace]
      refine ⟨⟨fun hrange => ?_, hup.mono le_rfl fun k hk => ?_⟩, fun i e he => ?_⟩
      · show Rows _ _ _ _ (hist no ++ storedAt no (.stored no _ :: front ++ q.trace)) _
        rw [storedAt_self hfront habove]
        exact (hself hrange).1
      · show hist k ++ storedAt k (.stored no _ :: front ++ q.trace) = _
        rw [storedAt_above hfront hk]
      · cases i with
        | zero => exact ⟨s, inf', rfl, fun hrange => (hself hrange).2⟩
        | succ i =>
          have hmem : .stored (no + 1 + i) e ∈ q.trace := by
            rw [← Nat.add_assoc, Nat.add_right_comm] at he
            rcases List.mem_append.mp he with he | he
            · rcases List.mem_cons.mp he with he | he
              · injection he with hno
                omega
              · exact absurd rfl ((hfront _ he).2 _ e)
            · exact he
          have hres := hin i e hmem
          rw [Nat.add_right_comm] at hres
          exact hres

end

/-! ## Runs -/

section

variable {α : Type} {maxRows : UInt32} {periods : List (UInt32 × List α)}
  {samples : List (Device.Sample α)} {x : Device.Sample α}

theorem windows_fresh {dev : Device α} {hist : Nat → List α} {B no : Nat}
    (h : ∀ i p, periods[i]? = some p → hist (no + i) = p.2 ∧ Growing dev.time p.2 ∧
      (∀ e ∈ p.2, stride (no + i) p.1 ∣ dev.time e) ∧ ∀ e ∈ p.2, dev.time e < B) :
    Windows dev maxRows B hist no (fresh periods) := by
  induction periods generalizing no with
  | nil => trivial
  | cons p ps ih =>
    obtain ⟨hhist, hgrows, hmul, hbefore⟩ := h 0 p rfl
    refine ⟨fun _ => ?_, ih fun i q hq => ?_⟩
    · show Rows _ _ _ _ (hist (no + 0)) p.2
      rw [hhist]
      exact ⟨hgrows, hmul, hbefore, 0, .inl rfl, (since_zero _ _).symm⟩
    · rw [Nat.add_assoc, Nat.add_comm 1]
      exact h (i + 1) q hq

/-- A run keeps the windows. -/
theorem windows_run (dev : Dated α) (hrows : maxRows ≠ 0) {levels : List (Level α)}
    {tr : List (Event α)} {hist : Nat → List α} {B B' : Nat}
    (hw : Windows dev.toDevice maxRows B (fun k => hist k ++ storedAt k tr) 0 levels)
    (hincreasing : samples.Pairwise fun x y => x.sec.toNat < y.sec.toNat)
    (hB : ∀ x ∈ samples, B ≤ x.sec.toNat) (hB' : ∀ x ∈ samples, x.sec.toNat < B') (hle : B ≤ B')
    (hlate : ∀ l ∈ levels.map Prod.fst, ∀ x ∈ samples, l.toNat * maxRows.toNat ≤ x.sec.toNat)
    (hmul : ∀ l ∈ (levels.map Prod.fst).head?, ∀ x ∈ samples, l.toNat ∣ x.sec.toNat) :
    Windows dev.toDevice maxRows B'
      (fun k => hist k ++ storedAt k (dev.run maxRows samples levels tr).2)
        0 (dev.run maxRows samples levels tr).1 ∧
      (dev.run maxRows samples levels tr).1.map Prod.fst = levels.map Prod.fst := by
  induction samples generalizing levels tr B with
  | nil => exact ⟨hw.mono hle fun _ _ => rfl, rfl⟩
  | cons x xs ih =>
    rw [List.pairwise_cons] at hincreasing
    obtain ⟨hx, hxs⟩ := hincreasing
    rw [List.forall_mem_cons] at hB hB'
    have hfst := map_fst_runSL dev.toDevice maxRows x.sec x.draw 0 levels x.device
    have hstep := (windows_step dev hrows x.draw x.device hw hB.1
      (fun l hl => hlate l.1 (List.mem_map_of_mem hl) x List.mem_cons_self) fun l hl =>
        hmul l.1 (by rw [List.head?_map, hl]; rfl) x List.mem_cons_self).1
    rw [Device.run]
    obtain ⟨hrun, hperiods⟩ := ih
      (hstep.mono le_rfl fun k _ => by rw [storedAt_append, List.append_assoc]) hxs
      (fun y hy => hx y hy) hB'.2 hB'.1
      (hfst ▸ fun l hl y hy => hlate l hl y (List.mem_cons_of_mem x hy))
      (hfst ▸ fun l hl y hy => hmul l hl y (List.mem_cons_of_mem x hy))
    exact ⟨hrun, hperiods.trans hfst⟩

/-- In every run of a monitor with rows, each level at which a sample stores an entry holds no more
than its window behind it, where the span of the level fits in 32 bits. -/
theorem window_run (dev : Dated α) (hrows : maxRows ≠ 0)
    (hsampled : Sampled maxRows periods (samples ++ [x]))
    (hregular : Regular dev.toDevice periods (samples ++ [x])) {no : Nat} {e : α}
    (hrange : ∀ p ∈ periods[no]?, p.1.toNat * maxRows.toNat < 2 ^ 32)
    (hstored : .stored no e ∈ (dev.runSL maxRows x.sec x.draw 0
      (dev.run maxRows samples (fresh periods) []).1 x.device).trace) :
    ∃ s inf, (dev.runSL maxRows x.sec x.draw 0
        (dev.run maxRows samples (fresh periods) []).1 x.device).levels[no]? = some (s, inf) ∧
      InWindow dev.toDevice maxRows.toNat x.sec.toNat s
        (loadedAt no periods ++ storedAt no (dev.run maxRows samples (fresh periods) []).2)
        inf.aLists := by
  have hmem : ∀ y ∈ samples, y ∈ samples ++ [x] := fun y hy => List.mem_append_left _ hy
  have hx : x ∈ samples ++ [x] := List.mem_append_right _ (List.mem_singleton_self x)
  obtain ⟨hsorted, -, hlast⟩ := List.pairwise_append.mp hsampled.increasing
  have hlast : ∀ y ∈ samples, y.sec.toNat < x.sec.toNat := fun y hy =>
    hlast y hy x (List.mem_singleton_self x)
  -- everything loaded is older than the first sample
  obtain ⟨B, hB, hBx, hbefore⟩ : ∃ B, (∀ y ∈ samples, B ≤ y.sec.toNat) ∧ B ≤ x.sec.toNat ∧
      ∀ p ∈ periods, ∀ e ∈ p.2, dev.time e < B := by
    cases samples with
    | nil =>
      exact ⟨x.sec.toNat, fun _ hy => absurd hy List.not_mem_nil, le_rfl, fun p hp e he =>
        hregular.before p hp e he x hx⟩
    | cons y ys =>
      refine ⟨y.sec.toNat, fun z hz => ?_, (hlast y List.mem_cons_self).le, fun p hp e he =>
        hregular.before p hp e he y (hmem y List.mem_cons_self)⟩
      rcases List.mem_cons.mp hz with rfl | hz
      · exact le_rfl
      · exact ((List.pairwise_cons.mp hsorted).1 z hz).le
  have hfst : (fresh periods).map Prod.fst = periods.map Prod.fst := by
    rw [fresh, List.map_map]
    rfl
  have hlate : ∀ l ∈ (fresh periods).map Prod.fst, ∀ y ∈ samples ++ [x],
      l.toNat * maxRows.toNat ≤ y.sec.toNat := by
    rw [hfst]
    intro l hl y hy
    obtain ⟨p, hp, rfl⟩ := List.mem_map.mp hl
    exact hsampled.late p hp y hy
  have hmul : ∀ l ∈ ((fresh periods).map Prod.fst).head?, ∀ y ∈ samples ++ [x],
      l.toNat ∣ y.sec.toNat := by
    rw [hfst, List.head?_map]
    intro l hl y hy
    obtain ⟨p, hp, rfl⟩ := Option.map_eq_some_iff.mp hl
    exact hsampled.multiple p hp y hy
  have hfresh : Windows dev.toDevice maxRows B (fun k => loadedAt k periods ++ storedAt k []) 0
      (fresh periods) := by
    refine windows_fresh fun i p hp => ?_
    have hpmem : p ∈ periods := List.mem_of_getElem? hp
    rw [Nat.zero_add]
    refine ⟨?_, hregular.grows p hpmem, hregular.multiple i p hp, hbefore p hpmem⟩
    show loadedAt i periods ++ [] = p.2
    rw [List.append_nil, loadedAt, hp]
    rfl
  obtain ⟨hrun, hperiods⟩ := windows_run dev hrows hfresh hsorted hB hlast hBx
    (fun l hl y hy => hlate l hl y (hmem y hy)) fun l hl y hy => hmul l hl y (hmem y hy)
  have hlevel : ∀ l ∈ (dev.run maxRows samples (fresh periods) []).1,
      l.1.toNat * maxRows.toNat ≤ x.sec.toNat := fun l hl =>
    hlate l.1 (hperiods ▸ List.mem_map_of_mem hl) x hx
  have hhead : ∀ l ∈ (dev.run maxRows samples (fresh periods) []).1.head?,
      stride 0 l.1 ∣ x.sec.toNat := fun l hl =>
    hmul l.1 (by rw [← hperiods, List.head?_map, hl]; rfl) x hx
  have hstep := windows_step dev hrows x.draw x.device hrun le_rfl hlevel hhead
  obtain ⟨s, inf, hs, hin⟩ := hstep.2 no e (by rw [Nat.zero_add]; exact hstored)
  rw [Nat.zero_add] at hin
  refine ⟨s, inf, hs, hin ?_⟩
  have hp : (periods.map Prod.fst)[no]? = some s := by
    rw [← hfst, ← hperiods, ← map_fst_runSL dev.toDevice maxRows x.sec x.draw 0 _ x.device,
      List.getElem?_map, hs]
    rfl
  rw [List.getElem?_map] at hp
  obtain ⟨q, hq, rfl⟩ := Option.map_eq_some_iff.mp hp
  exact hrange q hq

end

/-! ## The four classes -/

def MonPacket.dated : Dated MonPacket where
  toDevice := MonPacket.dev
  sec_depth _ _ _ _ := rfl

def MonLoadavg.dated : Dated MonLoadavg where
  toDevice := MonLoadavg.dev
  sec_depth _ _ _ _ := rfl

def MonCpustat.dated : Dated MonCpustat where
  toDevice := MonCpustat.dev
  sec_depth _ _ _ _ := rfl

def MonDiskstats.dated : Dated MonDiskstats where
  toDevice := MonDiskstats.dev
  sec_depth _ _ _ _ := rfl

/-- Samples of a network device that reads nothing. -/
def idleSamples (times : List UInt64) : List (Device.Sample MonPacket) :=
  times.map fun t => { sec := t, device := { sec := t } }

/-- Nothing was loaded. -/
theorem regular_nil {α : Type} (dev : Device α) (periods : List UInt32)
    (samples : List (Device.Sample α)) : Regular dev (periods.map (·, [])) samples := by
  have hnil : ∀ p ∈ periods.map (·, ([] : List α)), p.2 = [] := by
    intro p hp
    obtain ⟨s, -, rfl⟩ := List.mem_map.mp hp
    rfl
  refine ⟨fun p hp => ?_, fun no p hp e he => ?_, fun p hp e he => ?_⟩
  · rw [hnil p hp]
    exact List.Pairwise.nil
  · rw [hnil p (List.mem_of_getElem? hp)] at he
    nomatch he
  · rw [hnil p hp] at he
    nomatch he

/-- Two rows, of five seconds and of ten. -/
theorem window_run_idle :
    ∃ s inf, (MonPacket.dev.runSL 2 35 (fun _ => none) 0 (MonPacket.dev.run 2
        (idleSamples [20, 25, 30]) (fresh [(5, []), (10, [])]) []).1 { sec := 35 }).levels[0]? =
          some (s, inf) ∧
      InWindow MonPacket.dev 2 35 s (loadedAt 0 [(5, []), (10, [])] ++
        storedAt 0 (MonPacket.dev.run 2 (idleSamples [20, 25, 30]) (fresh [(5, []), (10, [])]) []).2)
        inf.aLists := by
  have hsampled : Sampled 2 [(5, []), (10, [])]
      (idleSamples [20, 25, 30] ++ [{ sec := 35, device := { sec := 35 } }]) :=
    ⟨by decide, by decide, by decide, by decide⟩
  exact window_run MonPacket.dated (by decide) hsampled (regular_nil MonPacket.dev [5, 10] _)
    (e := { sec := 35 }) (by decide) (by decide)

/-- The span of 596524 rows of two hours is 5504 seconds. -/
theorem not_window_run :
    ¬ ∀ (maxRows : UInt32) (periods : List UInt32) (samples : List (Device.Sample MonPacket))
      (x : Device.Sample MonPacket), Sampled maxRows (periods.map (·, [])) (samples ++ [x]) →
      ∀ no e s inf, .stored no e ∈ (MonPacket.dev.runSL maxRows x.sec x.draw 0
        (MonPacket.dev.run maxRows samples (fresh (periods.map (·, []))) []).1 x.device).trace →
      (MonPacket.dev.runSL maxRows x.sec x.draw 0 (MonPacket.dev.run maxRows samples
        (fresh (periods.map (·, []))) []).1 x.device).levels[no]? = some (s, inf) →
      InWindow MonPacket.dev maxRows.toNat x.sec.toNat s (storedAt no
        (MonPacket.dev.run maxRows samples (fresh (periods.map (·, []))) []).2) inf.aLists := by
  intro hall
  have hsampled : Sampled 596524 ([7200].map (·, [])) (idleSamples [4294972800, 4294980000] ++
      [{ sec := 4294987200, device := { sec := 4294987200 } }]) :=
    ⟨by decide, by decide, by decide, by decide⟩
  have hin := hall 596524 [7200] _ _ hsampled 0 { sec := 4294987200 } 7200 _ (by decide) rfl
  have hiff := hin.dropped_iff { sec := 4294980000 } (by decide)
  exact absurd (hiff.mp (by decide)) (by decide)

end Dframework
