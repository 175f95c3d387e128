import Mathlib
import Dframework.Monitor.Devices

/-!
# `Monitor`

A sample goes through levels of growing periods. `run_s_l` stores what was counted since the
sample before, and at the end of the next level's period it hands a total to that level. What it
does on the way is told by a trace, so that totals and divisors can be compared with
the entries that were stored.

At the step that ends a period the entry is stored and not added to the total. The number that the
total is divided by is never set back. A total that the next level answers with an error
is kept, and added to in the next period.

Results:
1. `Counting.sumsUp`, `divides`: what holds of every run of one device.
2. `totals_run`: the runs in which each total is the sum of the entries, and each divisor
   their number.
-/

namespace Dframework

/-! ## One step -/

/-- A class of devices, as `MonBase` declares it. Above the lowest level `depth` does not look
at the older record, which may be the very object that is added to meanwhile. -/
structure Device (α : Type) where
  create : UInt64 → α
  sec : α → UInt64
  depth : Nat → UInt64 → α → α → α
  plus : α → α → α
  avg : α → Nat → α
  depth_upper : ∀ no sec m old old', no ≠ 0 → depth no sec m old = depth no sec m old'

/-- `MonBase::info`, without the period, which is that of the level. -/
structure Info (α : Type) where
  last : Option α := none
  total : Option α := none
  plusCount : Nat := 0
  aLists : List α := []
  deriving Repr

/-- What `run_s_l` does to the totals of the levels. -/
inductive Event (α : Type) where
  | created (no : Nat)
  | stored (no : Nat) (e : α)
  | added (no : Nat) (e : α)
  | handed (no : Nat) (total : α) (count : Nat)
  deriving DecidableEq, Repr

/-- A level: its period `SECONDS[no]` and its `info`. -/
abbrev Level (α : Type) := UInt32 × Info α

/-- What `run_s_l` answers (`none` is `NULL`, and a number is the `error()` of the `Retval`), what
it makes of the levels, and what it did. -/
structure Pushed (α : Type) where
  ret : Option Nat
  levels : List (Level α)
  trace : List (Event α)

/-- `SECONDS[no + 1]`: the period of the next level, or the zero behind the last one. -/
def nextSeconds {α : Type} : List (Level α) → UInt32
  | [] => 0
  | (s, _) :: _ => s

/-- The periods have a zero behind them in `SECONDS`. Behind a fifth one stands a word that nothing
initialises, and that `run_s_l` reads. -/
def Terminated {α : Type} (periods : List (UInt32 × List α)) : Prop :=
  periods.length ≤ 4

instance {α : Type} (periods : List (UInt32 × List α)) : Decidable (Terminated periods) :=
  inferInstanceAs (Decidable (_ ≤ 4))

/-- `(sec % next) == 0`, where `next` is an `int`. -/
def isBoundary (sec : UInt64) (next : UInt32) : Bool :=
  sec % next.toInt32.toInt64.toUInt64 == 0

namespace Device

variable {α : Type} (dev : Device α)

/-- `Monitor::run_s_l`, from level `no` on. `draw` is what drawing a level answers. -/
def runSL (maxRows : UInt32) (sec : UInt64) (draw : Nat → Option Nat) :
    Nat → List (Level α) → α → Pushed α
  | _, [], _ => ⟨some 0, [], []⟩
  | no, (s, inf) :: rest, device =>
    if s = 0 then ⟨some 0, (s, inf) :: rest, []⟩
    else
      let next := nextSeconds rest
      let range := (s * maxRows).toUInt64
      let aLists := inf.aLists.dropWhile fun e => dev.sec e ≤ sec - range
      match inf.last with
      | none => ⟨none, (s, { inf with last := some device, aLists }) :: rest, []⟩
      | some last =>
        let dep := dev.depth no sec device last
        let inf := { inf with
          last := some device
          aLists := ArraySorted.insert (compareOn fun e => (dev.sec e).toNat) dep aLists }
        if next = 0 then ⟨draw no, (s, inf) :: rest, [.stored no dep]⟩
        else
          let made := if inf.total.isNone then [.created no] else []
          let total := inf.total.getD (dev.create sec)
          if isBoundary sec next then
            let total := dev.avg total inf.plusCount
            let r := runSL maxRows sec draw (no + 1) rest total
            let trace := .stored no dep :: made ++ .handed no total inf.plusCount :: r.trace
            match r.ret with
            | some e => ⟨if e = 0 then none else some e, (s, { inf with total }) :: r.levels, trace⟩
            | none => ⟨draw no, (s, { inf with total := none }) :: r.levels, trace⟩
          else
            ⟨draw no, (s, { inf with total := dev.plus total dep, plusCount := inf.plusCount + 1 }) :: rest,
              .stored no dep :: made ++ [.added no dep]⟩

/-- A sample with its time, and what drawing the levels answers in that step. -/
structure Sample (α : Type) where
  sec : UInt64
  device : α
  draw : Nat → Option Nat := fun _ => none

/-- The samples that `Monitor::run_s` pushes, one after another, and the trace so far. -/
def run (maxRows : UInt32) : List (Sample α) → List (Level α) → List (Event α) →
    List (Level α) × List (Event α)
  | [], levels, tr => (levels, tr)
  | x :: xs, levels, tr =>
    let r := dev.runSL maxRows x.sec x.draw 0 levels x.device
    run maxRows xs r.levels (tr ++ r.trace)

end Device

/-- The levels before the first sample. What was loaded from files is in their arrays. -/
def fresh {α : Type} (periods : List (UInt32 × List α)) : List (Level α) :=
  periods.map fun p => (p.1, { aLists := p.2 })

/-! ## What the trace tells -/

section

variable {α : Type}

/-- The level an event belongs to. -/
def Event.level : Event α → Nat
  | .created no => no
  | .stored no _ => no
  | .added no _ => no
  | .handed no _ _ => no

/-- The entries stored at level `no` since its last hand-over, one event further. -/
def pendingStep (no : Nat) (acc : List α) : Event α → List α
  | .stored k e => if k = no then acc ++ [e] else acc
  | .handed k _ _ => if k = no then [] else acc
  | _ => acc

/-- The entries stored at level `no` since its last hand-over. -/
def pending (no : Nat) (tr : List (Event α)) : List α :=
  tr.foldl (pendingStep no) []

/-- The entries added at level `no` since its total was made, one event further. -/
def addedStep (no : Nat) (acc : List α) : Event α → List α
  | .created k => if k = no then [] else acc
  | .added k e => if k = no then acc ++ [e] else acc
  | _ => acc

/-- The entries added at level `no` since its total was made. -/
def addedTo (no : Nat) (tr : List (Event α)) : List α :=
  tr.foldl (addedStep no) []

/-- What `H` says of the event, if it is a hand-over. -/
def Event.Meets (H : Nat → α → Nat → Prop) : Event α → Prop
  | .handed no total count => H no total count
  | _ => True

/-- What `H` says of each hand-over in the trace behind `pre`, and of what came before it. -/
def EachHanded (H : List (Event α) → Nat → α → Nat → Prop) : List (Event α) → List (Event α) → Prop
  | _, [] => True
  | pre, e :: tr => e.Meets (H pre) ∧ EachHanded H (pre ++ [e]) tr

/-- The total is the sum of the entries stored since the hand-over before. -/
def Summed {M : Type} [AddCommMonoid M] (counters : α → M) (pre : List (Event α)) (no : Nat) (total : α)
    (_count : Nat) : Prop :=
  counters total = ((pending no pre).map counters).sum

/-- The divisor is the number of entries added to the total. -/
def Divided (pre : List (Event α)) (no : Nat) (_total : α) (count : Nat) : Prop :=
  count = (addedTo no pre).length

instance Event.Meets.decidable {H : Nat → α → Nat → Prop} [∀ no t c, Decidable (H no t c)]
    (e : Event α) : Decidable (e.Meets H) :=
  match e with
  | .handed no total count => inferInstanceAs (Decidable (H no total count))
  | .created _ | .stored _ _ | .added _ _ => isTrue trivial

instance EachHanded.decidable {H : List (Event α) → Nat → α → Nat → Prop}
    [∀ pre no t c, Decidable (H pre no t c)] :
    ∀ pre tr : List (Event α), Decidable (EachHanded H pre tr)
  | _, [] => isTrue trivial
  | pre, e :: tr =>
    have := EachHanded.decidable (H := H) (pre ++ [e]) tr
    have := Event.Meets.decidable (H := H pre) e
    inferInstanceAs (Decidable (e.Meets (H pre) ∧ EachHanded H (pre ++ [e]) tr))

theorem eachHanded_append {H : List (Event α) → Nat → α → Nat → Prop} {pre tr tr' : List (Event α)} :
    EachHanded H pre (tr ++ tr') ↔ EachHanded H pre tr ∧ EachHanded H (pre ++ tr) tr' := by
  induction tr generalizing pre with
  | nil => simp [EachHanded]
  | cons e tr ih =>
    rw [List.cons_append, EachHanded, EachHanded, ih, List.append_assoc, and_assoc]
    rfl

theorem foldl_frame {β : Type} {step : β → Event α → β} {evs : List (Event α)}
    (h : ∀ e ∈ evs, ∀ acc, step acc e = acc) (acc : β) : evs.foldl step acc = acc := by
  induction evs with
  | nil => rfl
  | cons e evs ih =>
    rw [List.foldl_cons, h e List.mem_cons_self]
    exact ih fun e' he' => h e' (List.mem_cons_of_mem e he')

/-- The events of other levels do not count. -/
theorem pending_frame {no : Nat} {evs : List (Event α)} (h : ∀ e ∈ evs, e.level ≠ no)
    (tr : List (Event α)) : pending no (tr ++ evs) = pending no tr := by
  rw [pending, List.foldl_append]
  refine foldl_frame (fun e he acc => ?_) _
  have hne := h e he
  cases e with
  | stored k e => exact if_neg hne
  | handed k t c => exact if_neg hne
  | _ => rfl

theorem addedTo_frame {no : Nat} {evs : List (Event α)} (h : ∀ e ∈ evs, e.level ≠ no)
    (tr : List (Event α)) : addedTo no (tr ++ evs) = addedTo no tr := by
  rw [addedTo, List.foldl_append]
  refine foldl_frame (fun e he acc => ?_) _
  have hne := h e he
  cases e with
  | created k => exact if_neg hne
  | added k e => exact if_neg hne
  | _ => rfl

end

/-! ## What a step does -/

namespace Device

section

variable {α : Type} (dev : Device α) {maxRows : UInt32} {sec : UInt64} {draw : Nat → Option Nat}
  {no : Nat} {s : UInt32} {inf : Info α} {rest : List (Level α)} {device : α}

/-- The total that a step works on, and the event when it has to be made. -/
def totalOf (sec : UInt64) (inf : Info α) : α :=
  inf.total.getD (dev.create sec)

/-- The event of a total that has to be made. -/
def made (no : Nat) (inf : Info α) : List (Event α) :=
  if inf.total.isNone then [.created no] else []

/-- The ways in which a step leaves a level: it stores nothing, or there is no level above, or the
entry is added to the total, or the total is handed to the level above. -/
inductive Left (maxRows : UInt32) (sec : UInt64) (draw : Nat → Option Nat) (no : Nat) (s : UInt32)
    (inf : Info α) (rest : List (Level α)) (device : α) : Pushed α → Prop
  | quiet (r : Pushed α) (inf' : Info α) (hlevels : r.levels = (s, inf') :: rest)
      (htotal : inf'.total = inf.total) (hcount : inf'.plusCount = inf.plusCount)
      (htrace : r.trace = []) (hret : s ≠ 0 → r.ret = none) : Left _ _ _ _ _ _ _ _ r
  | top (r : Pushed α) (inf' : Info α) (dep : α) (hnext : nextSeconds rest = 0)
      (hlevels : r.levels = (s, inf') :: rest) (htrace : r.trace = [.stored no dep])
      (hret : r.ret = draw no) : Left _ _ _ _ _ _ _ _ r
  | added (r : Pushed α) (inf' : Info α) (last dep : α) (hs : s ≠ 0) (hlast : inf.last = some last)
      (hdep : dep = dev.depth no sec device last) (hnext : nextSeconds rest ≠ 0)
      (hbound : isBoundary sec (nextSeconds rest) = false) (hlevels : r.levels = (s, inf') :: rest)
      (htotal : inf'.total = some (dev.plus (dev.totalOf sec inf) dep))
      (hcount : inf'.plusCount = inf.plusCount + 1)
      (htrace : r.trace = .stored no dep :: made no inf ++ [.added no dep])
      (hret : r.ret = draw no) : Left _ _ _ _ _ _ _ _ r
  | handed (r q : Pushed α) (inf' : Info α) (last dep total : α) (hs : s ≠ 0)
      (hlast : inf.last = some last) (hdep : dep = dev.depth no sec device last)
      (hnext : nextSeconds rest ≠ 0) (hbound : isBoundary sec (nextSeconds rest) = true)
      (htot : total = dev.avg (dev.totalOf sec inf) inf.plusCount)
      (hq : q = dev.runSL maxRows sec draw (no + 1) rest total)
      (hlevels : r.levels = (s, inf') :: q.levels) (hcount : inf'.plusCount = inf.plusCount)
      (htrace : r.trace = .stored no dep :: made no inf ++ .handed no total inf.plusCount :: q.trace)
      (hreset : q.ret = none → inf'.total = none ∧ r.ret = draw no)
      (hkept : q.ret ≠ none → inf'.total = some total) : Left _ _ _ _ _ _ _ _ r

theorem runSL_left (maxRows : UInt32) (sec : UInt64) (draw : Nat → Option Nat) (no : Nat) (s : UInt32)
    (inf : Info α) (rest : List (Level α)) (device : α) :
    dev.Left maxRows sec draw no s inf rest device
      (dev.runSL maxRows sec draw no ((s, inf) :: rest) device) := by
  rw [runSL]
  split
  next hs => exact .quiet _ inf rfl rfl rfl rfl fun h => absurd hs h
  next hs =>
    simp only
    split
    next hlast => exact .quiet _ _ rfl rfl rfl rfl fun _ => rfl
    next last hlast =>
      split
      next hnext => exact .top _ _ _ hnext rfl rfl rfl
      next hnext =>
        split
        next hbound =>
          split
          next e he =>
            exact .handed _ _ _ last _ _ hs hlast rfl hnext hbound rfl rfl rfl rfl rfl
              (fun h => absurd (he.symm.trans h) (Option.some_ne_none e)) fun _ => rfl
          next he =>
            exact .handed _ _ _ last _ _ hs hlast rfl hnext hbound rfl rfl rfl rfl rfl
              (fun _ => ⟨rfl, rfl⟩) fun h => absurd he h
        next hbound =>
          exact .added _ _ last _ hs hlast rfl hnext (Bool.eq_false_iff.mpr hbound) rfl rfl rfl rfl rfl

theorem mem_made {e : Event α} (he : e ∈ made no inf) : e = .created no := by
  rw [made] at he
  split at he
  · exact List.mem_singleton.mp he
  · cases he

/-- A step from level `no` on is about that level and those above it. -/
theorem level_of_mem_trace {levels : List (Level α)} {e : Event α}
    (he : e ∈ (dev.runSL maxRows sec draw no levels device).trace) : no ≤ e.level := by
  induction levels generalizing no device with
  | nil => cases he
  | cons l rest ih =>
    obtain ⟨s, inf⟩ := l
    cases dev.runSL_left maxRows sec draw no s inf rest device with
    | quiet inf' hlevels htotal hcount htrace =>
      rw [htrace] at he
      cases he
    | top inf' dep hnext hlevels htrace =>
      rw [htrace, List.mem_singleton] at he
      rw [he]
      exact le_rfl
    | added inf' last dep hs hlast hdep hnext hbound hlevels htotal hcount htrace =>
      rw [htrace, List.cons_append, List.mem_cons, List.mem_append, List.mem_singleton] at he
      rcases he with rfl | he | rfl
      · exact le_rfl
      · rw [mem_made he]
        exact le_rfl
      · exact le_rfl
    | handed q inf' last dep total hs hlast hdep hnext hbound htot hq hlevels hcount htrace =>
      rw [htrace, List.cons_append, List.mem_cons, List.mem_append, List.mem_cons] at he
      rcases he with rfl | he | rfl | he
      · exact le_rfl
      · rw [mem_made he]
        exact le_rfl
      · exact le_rfl
      · exact (Nat.le_succ no).trans (ih (hq ▸ he))

/-- Where nothing fails to be drawn, a level with a period answers no error. -/
theorem ret_eq_none {levels : List (Level α)} (hdraw : ∀ k, no ≤ k → draw k = none)
    (hnext : nextSeconds levels ≠ 0) : (dev.runSL maxRows sec draw no levels device).ret = none := by
  induction levels generalizing no device with
  | nil => exact absurd rfl hnext
  | cons l rest ih =>
    obtain ⟨s, inf⟩ := l
    have hno := hdraw no le_rfl
    cases dev.runSL_left maxRows sec draw no s inf rest device with
    | quiet inf' hlevels htotal hcount htrace hret => exact hret hnext
    | top inf' dep hrest hlevels htrace hret => exact hret.trans hno
    | added inf' last dep hs hlast hdep hrest hbound hlevels htotal hcount htrace hret =>
      exact hret.trans hno
    | handed q inf' last dep total hs hlast hdep hrest hbound htot hq hlevels hcount htrace hreset =>
      have hq0 : q.ret = none := hq ▸ ih (fun k hk => hdraw k ((Nat.le_succ no).trans hk)) hrest
      exact (hreset hq0).2.trans hno

end

end Device

/-! ## Invariants of the levels -/

section

variable {α : Type}

/-- What `I` says of the total of each level that hands it on, and of its number of entries. -/
def Levels (I : Nat → Option α → Nat → Prop) : Nat → List (Level α) → Prop
  | _, [] => True
  | no, (_, inf) :: rest =>
    (nextSeconds rest ≠ 0 → I no inf.total inf.plusCount) ∧ Levels I (no + 1) rest

variable (dev : Device α)

/-- What `P` says of each level that a sample gets to and that has a level above it: whether the
period ends there, the level before the step, and the entry. -/
def Device.EachLevel (P : UInt64 → Bool → Info α → α → Prop) (sec : UInt64) :
    Nat → List (Level α) → α → Prop
  | _, [], _ => True
  | no, (s, inf) :: rest, device =>
    ∀ last, inf.last = some last → s ≠ 0 → nextSeconds rest ≠ 0 →
      P sec (isBoundary sec (nextSeconds rest)) inf (dev.depth no sec device last) ∧
        (isBoundary sec (nextSeconds rest) = true →
          Device.EachLevel P sec (no + 1) rest (dev.avg (dev.totalOf sec inf) inf.plusCount))

instance Device.EachLevel.decidable {P : UInt64 → Bool → Info α → α → Prop}
    [∀ sec b inf dep, Decidable (P sec b inf dep)] (sec : UInt64) :
    ∀ no levels device, Decidable (dev.EachLevel P sec no levels device)
  | _, [], _ => isTrue trivial
  | no, (s, inf) :: rest, device =>
    match hlast : inf.last with
    | none => isTrue fun l h => absurd (hlast.symm.trans h) (Option.some_ne_none l).symm
    | some last =>
      have := Device.EachLevel.decidable (P := P) sec (no + 1) rest
        (dev.avg (dev.totalOf sec inf) inf.plusCount)
      decidable_of_iff (s ≠ 0 → nextSeconds rest ≠ 0 →
        P sec (isBoundary sec (nextSeconds rest)) inf (dev.depth no sec device last) ∧
          (isBoundary sec (nextSeconds rest) = true → dev.EachLevel P sec (no + 1) rest
            (dev.avg (dev.totalOf sec inf) inf.plusCount)))
        ⟨fun h _ hl => Option.some.inj (hlast.symm.trans hl) ▸ h, fun h => h last hlast⟩

/-- What an invariant `I` of the levels needs so that `H` holds of each hand-over, where `P` holds
of each level that is passed. With `lossy` it outlives an error from the level above. -/
structure Rules (I : List (Event α) → Nat → Option α → Nat → Prop)
    (H : List (Event α) → Nat → α → Nat → Prop) (P : UInt64 → Bool → Info α → α → Prop)
    (lossy : Prop) : Prop where
  frame : ∀ {tr evs no t c}, (∀ e ∈ evs, e.level ≠ no) → I tr no t c → I (tr ++ evs) no t c
  add : ∀ {tr no sec inf dep}, I tr no inf.total inf.plusCount → P sec false inf dep →
    I (tr ++ (.stored no dep :: Device.made no inf ++ [.added no dep])) no
      (some (dev.plus (dev.totalOf sec inf) dep)) (inf.plusCount + 1)
  hand : ∀ {tr no sec inf dep}, I tr no inf.total inf.plusCount → P sec true inf dep →
    H (tr ++ (.stored no dep :: Device.made no inf)) no
      (dev.avg (dev.totalOf sec inf) inf.plusCount) inf.plusCount
  reset : ∀ {tr no sec inf dep total}, I tr no inf.total inf.plusCount → P sec true inf dep →
    I (tr ++ (.stored no dep :: Device.made no inf ++ [.handed no total inf.plusCount])) no none
      inf.plusCount
  keep : ∀ {tr no sec inf dep total}, lossy → I tr no inf.total inf.plusCount → P sec true inf dep →
    I (tr ++ (.stored no dep :: Device.made no inf ++ [.handed no total inf.plusCount])) no
      (some total) inf.plusCount

variable {dev} {I : List (Event α) → Nat → Option α → Nat → Prop}
  {H : List (Event α) → Nat → α → Nat → Prop} {P : UInt64 → Bool → Info α → α → Prop} {lossy : Prop}
  {maxRows : UInt32}

theorem Rules.levels_frame (h : Rules dev I H P lossy) {tr evs : List (Event α)} {no : Nat}
    {levels : List (Level α)} (hevs : ∀ e ∈ evs, e.level < no) (hl : Levels (I tr) no levels) :
    Levels (I (tr ++ evs)) no levels := by
  induction levels generalizing no with
  | nil => trivial
  | cons l rest ih =>
    exact ⟨fun hnext => h.frame (fun e he => (hevs e he).ne) (hl.1 hnext),
      ih (fun e he => Nat.lt_succ_of_lt (hevs e he)) hl.2⟩

theorem eachHanded_of_free {pre evs : List (Event α)}
    (h : ∀ e ∈ evs, ∀ no total count, e ≠ .handed no total count) : EachHanded H pre evs := by
  induction evs generalizing pre with
  | nil => trivial
  | cons e evs ih =>
    refine ⟨?_, ih fun e' he' => h e' (List.mem_cons_of_mem e he')⟩
    cases e with
    | handed no total count => exact absurd rfl (h _ List.mem_cons_self no total count)
    | _ => trivial

/-- The events in front of an addition or a hand-over. -/
theorem mem_front {no : Nat} {inf : Info α} {dep : α} {e : Event α}
    (he : e ∈ .stored no dep :: Device.made no inf) : e = .stored no dep ∨ e = .created no :=
  (List.mem_cons.mp he).imp_right Device.mem_made

theorem mem_front_level {no : Nat} {inf : Info α} {dep : α} {e x : Event α}
    (he : e ∈ .stored no dep :: Device.made no inf ++ [x]) (hx : x.level = no) : e.level = no := by
  rcases List.mem_append.mp he with he | he
  · rcases mem_front he with rfl | rfl <;> rfl
  · rw [List.mem_singleton.mp he, hx]

/-- One step keeps the invariant of all levels, and hands over as `H` says. -/
theorem Rules.step (h : Rules dev I H P lossy) (maxRows : UInt32) {sec : UInt64} {draw : Nat → Option Nat} {no : Nat}
    {levels : List (Level α)} {device : α} {tr : List (Event α)} (hl : Levels (I tr) no levels)
    (hp : dev.EachLevel P sec no levels device)
    (hdraw : lossy ∨ ∀ k, no < k → draw k = none) :
    EachHanded H tr (dev.runSL maxRows sec draw no levels device).trace ∧
      Levels (I (tr ++ (dev.runSL maxRows sec draw no levels device).trace)) no
        (dev.runSL maxRows sec draw no levels device).levels := by
  induction levels generalizing no device tr with
  | nil => exact ⟨trivial, trivial⟩
  | cons l rest ih =>
    obtain ⟨s, inf⟩ := l
    obtain ⟨hinf, hrest⟩ := hl
    cases dev.runSL_left maxRows sec draw no s inf rest device with
    | quiet inf' hlevels htotal hcount htrace =>
      rw [htrace, hlevels, List.append_nil]
      exact ⟨trivial, fun hnext => htotal ▸ hcount ▸ hinf hnext, hrest⟩
    | top inf' dep hnext hlevels htrace =>
      rw [htrace, hlevels]
      refine ⟨⟨trivial, trivial⟩, fun h0 => absurd hnext h0, h.levels_frame (fun e he => ?_) hrest⟩
      rw [List.mem_singleton.mp he]
      exact Nat.lt_succ_self no
    | added inf' last dep hs hlast hdep hnext hbound hlevels htotal hcount htrace =>
      have hP := (hp last hlast hs hnext).1
      rw [hbound, ← hdep] at hP
      rw [htrace, hlevels]
      refine ⟨eachHanded_of_free fun e he => ?_, fun _ => ?_, h.levels_frame (fun e he => ?_) hrest⟩
      · rcases List.mem_append.mp he with he | he
        · rcases mem_front he with rfl | rfl <;> rintro _ _ _ ⟨⟩
        · rw [List.mem_singleton.mp he]
          rintro _ _ _ ⟨⟩
      · show I _ no inf'.total inf'.plusCount
        rw [htotal, hcount]
        exact h.add (hinf hnext) hP
      · rw [mem_front_level he rfl]
        exact Nat.lt_succ_self no
    | handed q inf' last dep total hs hlast hdep hnext hbound htot hq hlevels hcount htrace hreset
        hkept =>
      obtain ⟨hP, hup⟩ := hp last hlast hs hnext
      rw [hbound, ← hdep] at hP
      have hI := hinf hnext
      have hdraw' : lossy ∨ ∀ k, no + 1 < k → draw k = none :=
        hdraw.imp_right fun hd k hk => hd k ((Nat.lt_succ_self no).trans hk)
      have hfront : ∀ e ∈ .stored no dep :: Device.made no inf ++ [.handed no total inf.plusCount],
          e.level < no + 1 := by
        intro e he
        rw [mem_front_level he rfl]
        exact Nat.lt_succ_self no
      -- the levels above see the trace with the hand-over
      obtain ⟨hhand, hrest'⟩ := ih (h.levels_frame hfront hrest) (htot ▸ hup hbound) hdraw'
      rw [← hq] at hhand hrest'
      have hsplit : Event.stored no dep :: Device.made no inf ++
          .handed no total inf.plusCount :: q.trace =
          (.stored no dep :: Device.made no inf ++ [.handed no total inf.plusCount]) ++ q.trace := by
        rw [List.append_assoc]
        rfl
      rw [hlevels, htrace, hsplit, ← List.append_assoc]
      refine ⟨?_, fun _ => ?_, hrest'⟩
      · refine eachHanded_append.mpr ⟨eachHanded_append.mpr ⟨eachHanded_of_free fun e he => ?_,
          htot ▸ h.hand hI hP, trivial⟩, hhand⟩
        rcases mem_front he with rfl | rfl <;> rintro _ _ _ ⟨⟩
      · show I _ no inf'.total inf'.plusCount
        refine h.frame (fun e he => ?_) ?_
        · exact (Nat.lt_of_succ_le (dev.level_of_mem_trace (hq ▸ he))).ne'
        rw [hcount]
        rcases hret : q.ret with _ | e
        · rw [(hreset hret).1]
          exact h.reset hI hP
        · rw [hkept (hret ▸ Option.some_ne_none e)]
          refine h.keep (hdraw.resolve_right fun hd => ?_) hI hP
          have hnone : (dev.runSL maxRows sec draw (no + 1) rest total).ret = none :=
            dev.ret_eq_none (fun k hk => hd k (Nat.lt_of_succ_le hk)) hnext
          rw [← hq, hret] at hnone
          cases hnone

/-- What `Q` says of each sample of a run, and of the levels it meets. -/
def Device.EachSample (dev : Device α) (maxRows : UInt32) (Q : Device.Sample α → List (Level α) → Prop) :
    List (Device.Sample α) → List (Level α) → Prop
  | [], _ => True
  | x :: xs, levels =>
    Q x levels ∧
      Device.EachSample dev maxRows Q xs (dev.runSL maxRows x.sec x.draw 0 levels x.device).levels

instance Device.EachSample.decidable {Q : Device.Sample α → List (Level α) → Prop}
    [∀ x levels, Decidable (Q x levels)] (maxRows : UInt32) :
    ∀ samples levels, Decidable (dev.EachSample maxRows Q samples levels)
  | [], _ => isTrue trivial
  | x :: xs, levels =>
    have := Device.EachSample.decidable (Q := Q) maxRows xs
      (dev.runSL maxRows x.sec x.draw 0 levels x.device).levels
    inferInstanceAs (Decidable (Q x levels ∧ dev.EachSample maxRows Q xs
      (dev.runSL maxRows x.sec x.draw 0 levels x.device).levels))

/-- A whole run keeps the invariant, and hands over as `H` says. -/
theorem Rules.run (h : Rules dev I H P lossy) {samples : List (Device.Sample α)}
    {levels : List (Level α)} {tr : List (Event α)} (hl : Levels (I tr) 0 levels)
    (htr : EachHanded H [] tr)
    (hp : dev.EachSample maxRows (fun x levels => dev.EachLevel P x.sec 0 levels x.device ∧
      (lossy ∨ ∀ k, 0 < k → x.draw k = none)) samples levels) :
    EachHanded H [] (dev.run maxRows samples levels tr).2 := by
  induction samples generalizing levels tr with
  | nil => exact htr
  | cons x xs ih =>
    obtain ⟨⟨hx, hdraw⟩, hxs⟩ := hp
    obtain ⟨hhand, hkeep⟩ := h.step maxRows hl hx hdraw
    exact ih hkeep (eachHanded_append.mpr ⟨htr, hhand⟩) hxs

end

/-! ## The devices -/

theorem depthRows_upper {ι κ : Type} [Sub κ] (cmp : Row ι κ → Row ι κ → Ordering) {no : Nat}
    (hno : no ≠ 0) (rows old old' : List (Row ι κ)) :
    depthRows cmp no rows old = depthRows cmp no rows old' := by
  have hdepth : ∀ (c : κ) (o : Option κ), depthL no c o = c := by
    intro c o
    cases o with
    | none => rfl
    | some o => exact if_neg hno
  simp only [depthRows, hdepth]

def MonPacket.dev : Device MonPacket where
  create sec := { sec }
  sec := MonPacket.sec
  depth := MonPacket.depth
  plus := MonPacket.plus
  avg m _ := m
  depth_upper no sec m old old' hno := by simp only [MonPacket.depth, if_neg hno]

def MonLoadavg.dev : Device MonLoadavg where
  create sec := { sec }
  sec := MonLoadavg.sec
  depth := MonLoadavg.depth
  plus := MonLoadavg.plus
  avg := MonLoadavg.avg
  depth_upper _ _ _ _ _ _ := rfl

def MonCpustat.dev : Device MonCpustat where
  create sec := { sec }
  sec := MonCpustat.sec
  depth := MonCpustat.depth
  plus := MonCpustat.plus
  avg m _ := m
  depth_upper no sec m old old' hno := by
    simp only [MonCpustat.depth, depthL, if_neg hno, depthRows_upper _ hno _ old.aLists old'.aLists]

def MonDiskstats.dev : Device MonDiskstats where
  create sec := { sec }
  sec := MonDiskstats.sec
  depth := MonDiskstats.depth
  plus := MonDiskstats.plus
  avg m _ := m
  depth_upper no sec m old old' hno := by
    simp only [MonDiskstats.depth, depthL, if_neg hno, depthRows_upper _ hno _ old.aLists old'.aLists]

/-! ## Totals and divisors -/

section

variable {α : Type} {no : Nat} {inf : Info α} {dep total : α} {count : Nat} {tr : List (Event α)}

theorem pending_front :
    pending no (tr ++ (.stored no dep :: Device.made no inf)) = pending no tr ++ [dep] := by
  have hmade : ∀ acc : List α, (Device.made no inf).foldl (pendingStep no) acc = acc := by
    refine fun acc => foldl_frame (fun e he acc => ?_) acc
    rw [Device.mem_made he]
    rfl
  rw [pending, List.foldl_append, List.foldl_cons, hmade]
  exact if_pos rfl

theorem pending_added : pending no (tr ++ (.stored no dep :: Device.made no inf ++ [.added no dep])) =
    pending no tr ++ [dep] := by
  rw [← List.append_assoc, pending, List.foldl_concat, ← pending, pending_front]
  rfl

theorem pending_handed :
    pending no (tr ++ (.stored no dep :: Device.made no inf ++ [.handed no total count])) = [] := by
  rw [← List.append_assoc, pending, List.foldl_concat]
  exact if_pos rfl

theorem addedTo_front : addedTo no (tr ++ (.stored no dep :: Device.made no inf)) =
    if inf.total.isNone then [] else addedTo no tr := by
  rw [addedTo, List.foldl_append, List.foldl_cons, Device.made]
  split
  · exact if_pos rfl
  · rfl

theorem addedTo_added : addedTo no (tr ++ (.stored no dep :: Device.made no inf ++ [.added no dep])) =
    (if inf.total.isNone then [] else addedTo no tr) ++ [dep] := by
  rw [← List.append_assoc, addedTo, List.foldl_concat, ← addedTo, addedTo_front]
  exact if_pos rfl

theorem addedTo_handed :
    addedTo no (tr ++ (.stored no dep :: Device.made no inf ++ [.handed no total count])) =
      if inf.total.isNone then [] else addedTo no tr := by
  rw [← List.append_assoc, addedTo, List.foldl_concat, ← addedTo, addedTo_front]
  rfl

/-- A device whose `plus` adds counters, where the records are `aligned`. -/
structure Counting {M : Type} [AddCommMonoid M] (dev : Device α) (counters : α → M)
    (aligned : α → α → Prop) : Prop where
  create : ∀ sec, counters (dev.create sec) = 0
  plus : ∀ {t e}, aligned t e → counters (dev.plus t e) = counters t + counters e
  avg : ∀ t n, counters (dev.avg t n) = counters t

/-- The entry at the end of a period has nothing to add, and any other entry is aligned with the
total it is added to. -/
def Undropped {M : Type} [AddCommMonoid M] (dev : Device α) (counters : α → M)
    (aligned : α → α → Prop) (sec : UInt64) (boundary : Bool) (inf : Info α) (dep : α) : Prop :=
  if boundary then counters dep = 0 else aligned (dev.totalOf sec inf) dep

/-- A total is made only while nothing was counted at its level. -/
def FirstCount (_sec : UInt64) (_boundary : Bool) (inf : Info α) (_dep : α) : Prop :=
  inf.total = none → inf.plusCount = 0

/-- The total of a level is the sum of what waits to be handed on. -/
def Balanced {M : Type} [AddCommMonoid M] (counters : α → M) (tr : List (Event α)) (no : Nat)
    (total : Option α) (_count : Nat) : Prop :=
  ((pending no tr).map counters).sum = total.elim 0 counters

/-- The count of a level that has a total is the number of entries in it. -/
def CountedIn (tr : List (Event α)) (no : Nat) (total : Option α) (count : Nat) : Prop :=
  total ≠ none → count = (addedTo no tr).length

variable {M : Type} [AddCommMonoid M] {dev : Device α} {counters : α → M} {aligned : α → α → Prop}

theorem Counting.totalOf (hc : Counting dev counters aligned) (sec : UInt64) (inf : Info α) :
    counters (dev.totalOf sec inf) = inf.total.elim 0 counters := by
  rw [Device.totalOf]
  cases inf.total with
  | none => exact hc.create sec
  | some t => rfl

theorem Counting.rules (hc : Counting dev counters aligned) :
    Rules dev (Balanced counters) (Summed counters) (Undropped dev counters aligned) False where
  frame hevs hI := by
    rw [Balanced, pending_frame hevs]
    exact hI
  add {tr no sec inf dep} hI hP := by
    rw [Balanced, pending_added, List.map_append, List.sum_append, hI, Option.elim_some, hc.plus hP,
      hc.totalOf, List.map_singleton, List.sum_singleton]
  hand {tr no sec inf dep} hI hP := by
    have hzero : counters dep = 0 := hP
    rw [Summed, pending_front, List.map_append, List.sum_append, hI, hc.avg, hc.totalOf,
      List.map_singleton, List.sum_singleton, hzero, add_zero]
  reset _ _ := by
    rw [Balanced, pending_handed]
    rfl
  keep h := h.elim

theorem divided_rules (dev : Device α) : Rules dev CountedIn Divided FirstCount True where
  frame hevs hI := by
    rw [CountedIn, addedTo_frame hevs]
    exact hI
  add {tr no sec inf dep} hI hP _ := by
    rw [addedTo_added, List.length_append, List.length_singleton]
    cases htotal : inf.total with
    | none => rw [hP htotal]; rfl
    | some t => rw [hI (htotal ▸ Option.some_ne_none t)]; rfl
  hand {tr no sec inf dep} hI hP := by
    rw [Divided, addedTo_front]
    cases htotal : inf.total with
    | none => rw [hP htotal]; rfl
    | some t => rw [hI (htotal ▸ Option.some_ne_none t)]; rfl
  reset _ _ h := absurd rfl h
  keep {tr no sec inf dep total} _ hI hP _ := by
    rw [addedTo_handed]
    cases htotal : inf.total with
    | none => rw [hP htotal]; rfl
    | some t => rw [hI (htotal ▸ Option.some_ne_none t)]; rfl

instance [DecidableEq M] (pre : List (Event α)) (no : Nat) (total : α) (count : Nat) :
    Decidable (Summed counters pre no total count) :=
  inferInstanceAs (Decidable (counters total = ((pending no pre).map counters).sum))

instance (pre : List (Event α)) (no : Nat) (total : α) (count : Nat) :
    Decidable (Divided pre no total count) :=
  inferInstanceAs (Decidable (count = (addedTo no pre).length))

instance [DecidableEq M] [∀ t e, Decidable (aligned t e)] (sec : UInt64) (boundary : Bool)
    (inf : Info α) (dep : α) : Decidable (Undropped dev counters aligned sec boundary inf dep) :=
  inferInstanceAs (Decidable (if boundary then counters dep = 0 else aligned (dev.totalOf sec inf) dep))

/-- Before the first sample nothing waits. -/
theorem levels_fresh {I : Nat → Option α → Nat → Prop} (h : ∀ no, I no none 0)
    (periods : List (UInt32 × List α)) (no : Nat) : Levels I no (fresh periods) := by
  induction periods generalizing no with
  | nil => trivial
  | cons p ps ih => exact ⟨fun _ => h no, ih (no + 1)⟩

/-- In every run over up to four periods whose steps drop nothing each total is the sum of the entries since the hand-over
before, and the entry of its own step. -/
def SumsUp (dev : Device α) (maxRows : UInt32) (counters : α → M) (aligned : α → α → Prop) : Prop :=
  ∀ (periods : List (UInt32 × List α)) (samples : List (Device.Sample α)), Terminated periods →
    dev.EachSample maxRows (fun x levels =>
      dev.EachLevel (Undropped dev counters aligned) x.sec 0 levels x.device ∧
        ∀ k, 0 < k → x.draw k = none) samples (fresh periods) →
    EachHanded (Summed counters) [] (dev.run maxRows samples (fresh periods) []).2

/-- In every run over up to four periods that makes a total only while nothing was counted at its level, each divisor is
the number of entries in the total. -/
def Divides (dev : Device α) (maxRows : UInt32) : Prop :=
  ∀ (periods : List (UInt32 × List α)) (samples : List (Device.Sample α)), Terminated periods →
    dev.EachSample maxRows (fun x levels => dev.EachLevel FirstCount x.sec 0 levels x.device)
      samples (fresh periods) →
    EachHanded Divided [] (dev.run maxRows samples (fresh periods) []).2

theorem EachSample.mono {maxRows : UInt32} {Q Q' : Device.Sample α → List (Level α) → Prop}
    (h : ∀ x levels, Q x levels → Q' x levels) {samples : List (Device.Sample α)}
    {levels : List (Level α)} (hq : dev.EachSample maxRows Q samples levels) :
    dev.EachSample maxRows Q' samples levels := by
  induction samples generalizing levels with
  | nil => trivial
  | cons x xs ih => exact ⟨h x levels hq.1, ih hq.2⟩

theorem Counting.sumsUp (hc : Counting dev counters aligned) (maxRows : UInt32) :
    SumsUp dev maxRows counters aligned := by
  intro periods samples _ hs
  refine hc.rules.run (levels_fresh (fun no => rfl) periods 0) trivial (EachSample.mono ?_ hs)
  exact fun x levels hx => ⟨hx.1, .inr hx.2⟩

theorem divides (dev : Device α) (maxRows : UInt32) : Divides dev maxRows := by
  intro periods samples _ hs
  refine (divided_rules dev).run (levels_fresh (fun no h => absurd rfl h) periods 0) trivial
    (EachSample.mono ?_ hs)
  exact fun x levels hx => ⟨hx, .inl trivial⟩

end

/-! ## The four classes -/

/-- What a record of `MonCpustat` counts: of each CPU, of all of them, and the processes. -/
def MonCpustat.counts (m : MonCpustat) :
    (Int32 → CpuCounters) × CpuCounters × UInt32 × UInt32 × UInt32 :=
  (tally id m.aLists, m.all, m.processes, m.running, m.blocked)

/-- What a record of `MonDiskstats` counts: of each disk, and of all of them. -/
def MonDiskstats.counts (m : MonDiskstats) : (CLib.Bytes → DiskCounters) × DiskCounters :=
  (tally Disk.sName m.aLists, m.all)

theorem MonPacket.counting : Counting MonPacket.dev MonPacket.counters fun _ _ => True where
  create _ := rfl
  plus _ := rfl
  avg _ _ := rfl

theorem MonCpustat.counting :
    Counting MonCpustat.dev MonCpustat.counts fun t e => PairedFrom id 0 t.aLists e.aLists where
  create _ := rfl
  plus {t e} h := by
    have hrows : tally id (plusRows MonCpustat.compare 0 t.aLists e.aLists) =
        tally id t.aLists + tally id e.aLists := funext fun n => plusRows_tally _ h
    rw [MonCpustat.counts, MonCpustat.counts, MonCpustat.counts]
    exact congrArg (·, _) hrows
  avg _ _ := rfl

theorem MonDiskstats.counting : Counting MonDiskstats.dev MonDiskstats.counts
    fun t e => PairedFrom Disk.sName 0 t.aLists e.aLists where
  create _ := rfl
  plus {t e} h := by
    have hrows : tally Disk.sName (plusRows MonDiskstats.compare 0 t.aLists e.aLists) =
        tally Disk.sName t.aLists + tally Disk.sName e.aLists := funext fun n => plusRows_tally _ h
    rw [MonDiskstats.counts, MonDiskstats.counts, MonDiskstats.counts]
    exact congrArg (·, _) hrows
  avg _ _ := rfl

/-- The runs in which each total is the sum of the entries, and each divisor their number. -/
theorem totals_run (maxRows : UInt32) :
    SumsUp MonPacket.dev maxRows MonPacket.counters (fun _ _ => True) ∧
      SumsUp MonCpustat.dev maxRows MonCpustat.counts
        (fun t e => PairedFrom id 0 t.aLists e.aLists) ∧
      SumsUp MonDiskstats.dev maxRows MonDiskstats.counts
        (fun t e => PairedFrom Disk.sName 0 t.aLists e.aLists) ∧
      Divides MonLoadavg.dev maxRows :=
  ⟨MonPacket.counting.sumsUp maxRows, MonCpustat.counting.sumsUp maxRows,
    MonDiskstats.counting.sumsUp maxRows, divides MonLoadavg.dev maxRows⟩

/-- Samples of a network device that has read so many bytes, every five seconds. -/
def packetSamples (rbytes : List UInt64) : List (Device.Sample MonPacket) :=
  rbytes.mapIdx fun k n =>
    { sec := 5 * UInt64.ofNat (k + 1), device := { sec := 5 * UInt64.ofNat (k + 1), counters := { rbytes := n } } }

/-- Samples of the load, every five seconds. -/
def loadSamples (loads : List UInt64) : List (Device.Sample MonLoadavg) :=
  loads.mapIdx fun k n =>
    { sec := 5 * UInt64.ofNat (k + 1), device := { sec := 5 * UInt64.ofNat (k + 1), m1 := n } }

theorem EachSample.and {α : Type} {dev : Device α} {maxRows : UInt32}
    {Q : Device.Sample α → List (Level α) → Prop} {R : Device.Sample α → Prop}
    {samples : List (Device.Sample α)} {levels : List (Level α)}
    (hq : dev.EachSample maxRows Q samples levels) (hr : ∀ x ∈ samples, R x) :
    dev.EachSample maxRows (fun x levels => Q x levels ∧ R x) samples levels := by
  induction samples generalizing levels with
  | nil => trivial
  | cons x xs ih =>
    exact ⟨⟨hq.1, hr x List.mem_cons_self⟩, ih hq.2 fun y hy => hr y (List.mem_cons_of_mem x hy)⟩

/-- Nothing is read in the five seconds before the end of a period. -/
theorem totals_run_quiet :
    EachHanded (Summed MonPacket.counters) []
      (MonPacket.dev.run 240 (packetSamples [0, 0, 7, 7, 9, 9]) (fresh [(5, []), (10, [])]) []).2 := by
  refine (totals_run 240).1 _ _ (by decide) (EachSample.and (by decide) ?_)
  intro x hx k hk
  obtain ⟨i, hi, rfl⟩ := List.mem_mapIdx.mp hx
  rfl

/-- Seven bytes are read in the five seconds before the end of the first period, and are in no
total. The third total of the load is divided by two, and holds one entry. -/
theorem not_totals_run :
    ¬ EachHanded (Summed MonPacket.counters) []
        (MonPacket.dev.run 240 (packetSamples [0, 7]) (fresh [(5, []), (10, [])]) []).2 ∧
      ¬ EachHanded Divided []
        (MonLoadavg.dev.run 240 (loadSamples [1, 1, 1, 1, 1, 1]) (fresh [(5, []), (10, [])]) []).2 := by
  decide

end Dframework
