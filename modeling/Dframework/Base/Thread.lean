import Mathlib
import Dframework.Library.Linked

/-!
# The trace of a thread

An `AutoTrace` adds a trace to its thread where it begins, and marks it as left where it ends. A
trace that was left stays in the list until the next one comes in: then the list is cut before the
trace that was marked last, and with it go all that were left since.

Results:
1. `Traced.addTrace`, `Traced.removeTrace`: the traces open and those still to be cut off.
2. `traces_after_enter`: the list behind each trace that comes in.
-/

namespace Dframework

open Linked

/-- What a `Thread` has of its traces. -/
structure Thread where
  links : Links Nat
  trace : Option Nat
  lastTrace : Option Nat
  leaveTrace : Option Nat

namespace Thread

def new : Thread :=
  ⟨.bare, none, none, none⟩

/-- The first half of `addTrace`: the list ends before the trace that was left last. -/
def cutLeft (t : Thread) : Thread :=
  let t := match t.leaveTrace with
    | none => t
    | some leave =>
      match t.links.prev leave with
      | none => { t with trace := none, lastTrace := none }
      | some prev => { t with links := t.links.setNext prev none, lastTrace := some prev }
  { t with leaveTrace := none }

def addTrace (t : Thread) : Option Nat → Thread
  | none => t
  | some trace =>
    let t := t.cutLeft
    match t.lastTrace with
    | none => { t with trace := some trace, lastTrace := some trace }
    | some last =>
      { t with
        links := (t.links.setNext last (some trace)).setPrev trace (some last)
        lastTrace := some trace }

def removeTrace (t : Thread) (trace : Option Nat) : Thread :=
  match trace, t.trace with
  | some trace, some _ => { t with leaveTrace := some trace }
  | _, _ => t

end Thread

/-- A beginning and an end of an `AutoTrace`. One that is not enabled, or whose thread the manager
does not know, holds no trace. -/
inductive TraceOp where
  | enter (enable known : Bool)
  | leave
  deriving DecidableEq, Repr

/-- A thread, the number of traces made for it, and the traces that its `AutoTrace` objects hold,
the innermost first. -/
structure Traces where
  thread : Thread
  made : Nat
  scopes : List (Option Nat)

namespace Traces

def new : Traces :=
  ⟨.new, 0, []⟩

/-- The constructor of `AutoTrace`. -/
def enter (s : Traces) (enable known : Bool) : Traces :=
  if enable && known then
    { thread := s.thread.addTrace (some s.made)
      made := s.made + 1
      scopes := some s.made :: s.scopes }
  else { s with scopes := none :: s.scopes }

/-- The destructor of the innermost `AutoTrace`. -/
def leave (s : Traces) : Option Traces :=
  match s.scopes with
  | [] => none
  | none :: scopes => some { s with scopes }
  | some trace :: scopes => some { s with thread := s.thread.removeTrace (some trace), scopes }

def exec (s : Traces) : TraceOp → Option Traces
  | .enter enable known => some (s.enter enable known)
  | .leave => s.leave

/-- A run; it is `none` where an end has no beginning. -/
def run (ops : List TraceOp) : Option Traces :=
  ops.foldlM exec new

/-- The traces that are open, in the order they were entered. -/
def openTraces (s : Traces) : List Nat :=
  (s.scopes.filterMap id).reverse

end Traces

/-! ## The list of a thread -/

/-- A thread whose list is `l`, and whose first `n` traces are open. -/
structure Traced (t : Thread) (l : List Nat) (n : Nat) : Prop where
  mirrors : Mirrors t.links l
  nodup : l.Nodup
  trace : t.trace = l.head?
  lastTrace : t.lastTrace = l.getLast?
  leaveTrace : t.leaveTrace = l[n]?

namespace Traced

variable {t : Thread} {l : List Nat} {n x : Nat}

theorem new : Traced .new [] 0 :=
  ⟨.nil, List.nodup_nil, rfl, rfl, rfl⟩

/-- The list is cut behind the open traces. -/
theorem cutLeft (h : Traced t l n) : Traced t.cutLeft (l.take n) n := by
  have hend : (l.take n)[n]? = none := by rw [List.getElem?_take, if_neg (lt_irrefl n)]
  cases hleave : l[n]? with
  | none =>
    -- nothing was left since the last trace came in
    have hall : l.take n = l := List.take_of_length_le (List.getElem?_eq_none_iff.mp hleave)
    have hsame : t.cutLeft = { t with leaveTrace := none } := by
      unfold Thread.cutLeft
      rw [h.leaveTrace, hleave]
    rw [hsame, hall]
    exact ⟨h.mirrors, h.nodup, h.trace, h.lastTrace, hleave.symm⟩
  | some x =>
    have hmark : t.leaveTrace = some x := h.leaveTrace.trans hleave
    cases n with
    | zero =>
      have hempty : t.cutLeft = { t with trace := none, lastTrace := none, leaveTrace := none } := by
        unfold Thread.cutLeft
        rw [hmark]
        simp only [h.mirrors.front x hleave]
      rw [hempty]
      exact ⟨.nil, List.nodup_nil, rfl, rfl, rfl⟩
    | succ m =>
      have hlt : m < l.length := by
        have := (List.getElem?_eq_some_iff.mp hleave).1
        omega
      have hprev : t.links.prev x = some l[m] :=
        (h.mirrors.prev m x hleave).trans (List.getElem?_eq_getElem hlt)
      have hcut : t.cutLeft = { t with
          links := t.links.setNext l[m] none, lastTrace := some l[m], leaveTrace := none } := by
        unfold Thread.cutLeft
        rw [hmark]
        simp only [hprev]
      rw [hcut]
      refine ⟨h.mirrors.cut h.nodup (List.getElem?_eq_getElem hlt),
        h.nodup.sublist (List.take_sublist _ l), ?_, ?_, hend.symm⟩
      · rw [List.head?_take, if_neg (Nat.succ_ne_zero m)]
        exact h.trace
      · show some l[m] = (l.take (m + 1)).getLast?
        rw [List.getLast?_take, if_neg (Nat.succ_ne_zero m), Nat.add_sub_cancel,
          List.getElem?_eq_getElem hlt]
        rfl

/-- A cut leaves the links of the nodes outside the list alone. -/
theorem cutLeft_links (h : Traced t l n) (hx : x ∉ l) :
    t.cutLeft.links.next x = t.links.next x ∧ t.cutLeft.links.prev x = t.links.prev x := by
  unfold Thread.cutLeft
  cases hleave : t.leaveTrace with
  | none => exact ⟨rfl, rfl⟩
  | some leave =>
    cases hprev : t.links.prev leave with
    | none =>
      simp only [hprev, and_self]
    | some prev =>
      have hin : prev ∈ l := by
        rw [h.leaveTrace] at hleave
        cases n with
        | zero =>
          rw [h.mirrors.front leave hleave] at hprev
          cases hprev
        | succ m =>
          rw [h.mirrors.prev m leave hleave] at hprev
          exact List.mem_of_getElem? hprev
      have hne : x ≠ prev := fun heq => hx (heq ▸ hin)
      simp only [hprev]
      exact ⟨Links.next_setNext_of_ne t.links hne none, rfl⟩

/-- A trace comes in behind the open ones. -/
theorem addTrace (h : Traced t l n) (hn : n ≤ l.length) (hnew : x ∉ l)
    (hnext : t.links.next x = none) (hprev : t.links.prev x = none) :
    Traced (t.addTrace (some x)) (l.take n ++ [x]) (n + 1) := by
  have hcut := h.cutLeft
  have hnew' : x ∉ l.take n := fun hin => hnew (List.mem_of_mem_take hin)
  have hlen : (l.take n).length = n := List.length_take_of_le hn
  obtain ⟨hnext', hprev'⟩ := h.cutLeft_links hnew
  rw [hnext] at hnext'
  rw [hprev] at hprev'
  have hnodup : (l.take n ++ [x]).Nodup := List.nodup_append.mpr
    ⟨hcut.nodup, List.nodup_singleton x, fun a ha b hb heq => hnew' (by
      rw [List.mem_singleton.mp hb] at heq
      exact heq ▸ ha)⟩
  have hend : (l.take n ++ [x])[n + 1]? = none := by
    rw [List.getElem?_eq_none]
    rw [List.length_append, hlen]
    exact le_rfl
  have hmark : t.cutLeft.leaveTrace = none := rfl
  have hadd : t.addTrace (some x) = match t.cutLeft.lastTrace with
      | none => { t.cutLeft with trace := some x, lastTrace := some x }
      | some last =>
        { t.cutLeft with
          links := (t.cutLeft.links.setNext last (some x)).setPrev x (some last)
          lastTrace := some x } := rfl
  rw [hadd]
  cases n with
  | zero =>
    have hnone : t.cutLeft.lastTrace = none := hcut.lastTrace
    rw [hnone]
    exact ⟨.single hnext' hprev', hnodup, rfl, rfl, hmark.trans hend.symm⟩
  | succ m =>
    have hlast : (l.take (m + 1))[m]? = some l[m] := by
      rw [List.getElem?_take, if_pos (Nat.lt_succ_self m), List.getElem?_eq_getElem]
    have hsome : t.cutLeft.lastTrace = some l[m] := by
      rw [hcut.lastTrace, List.getLast?_eq_getElem?, hlen, Nat.add_sub_cancel, hlast]
    rw [hsome]
    refine ⟨hcut.mirrors.snoc hcut.nodup hnew' hnext' hlast hlen, hnodup, ?_, ?_,
      hmark.trans hend.symm⟩
    · show t.cutLeft.trace = (l.take (m + 1) ++ [x]).head?
      rw [hcut.trace, List.head?_append_of_ne_nil]
      exact List.ne_nil_of_length_eq_add_one hlen
    · rw [List.getLast?_concat]

/-- The links of the nodes that are neither in the list nor come in stay as they are. -/
theorem addTrace_links (h : Traced t l n) {y : Nat} (hy : y ∉ l) (hyx : y ≠ x) :
    (t.addTrace (some x)).links.next y = t.links.next y ∧
      (t.addTrace (some x)).links.prev y = t.links.prev y := by
  rw [← (h.cutLeft_links hy).1, ← (h.cutLeft_links hy).2]
  unfold Thread.addTrace
  cases hlast : t.cutLeft.lastTrace with
  | none =>
    simp only [hlast, and_self]
  | some last =>
    have hin : last ∈ l := by
      rw [h.cutLeft.lastTrace] at hlast
      exact List.mem_of_mem_take (List.mem_of_getLast? hlast)
    have hne : y ≠ last := fun heq => hy (heq ▸ hin)
    simp only [hlast]
    exact ⟨Links.next_setNext_of_ne t.cutLeft.links hne _, Links.prev_setPrev_of_ne _ hyx _⟩

/-- The last open trace is marked, and the list stays. -/
theorem removeTrace (h : Traced t l (n + 1)) (hx : l[n]? = some x) :
    Traced (t.removeTrace (some x)) l n := by
  have hhead : ∃ y, t.trace = some y := by
    rw [h.trace]
    cases l with
    | nil => cases hx
    | cons y l => exact ⟨y, rfl⟩
  obtain ⟨y, hy⟩ := hhead
  have hmark : t.removeTrace (some x) = { t with leaveTrace := some x } := by
    unfold Thread.removeTrace
    rw [hy]
  rw [hmark]
  exact ⟨h.mirrors, h.nodup, h.trace, h.lastTrace, hx.symm⟩

end Traced

/-! ## Runs -/

namespace Traces

variable {s s' : Traces} {ops : List TraceOp}

theorem openTraces_cons (t : Thread) (made x : Nat) (scopes : List (Option Nat)) :
    openTraces ⟨t, made, some x :: scopes⟩ = openTraces ⟨t, made, scopes⟩ ++ [x] :=
  List.reverse_cons ..

/-- The open traces are the first of the list, and the traces to come have no links. -/
structure Holds (s : Traces) (l : List Nat) : Prop where
  traced : Traced s.thread l s.openTraces.length
  opened : l.take s.openTraces.length = s.openTraces
  made : ∀ x ∈ l, x < s.made
  bare : ∀ x, s.made ≤ x → s.thread.links.next x = none ∧ s.thread.links.prev x = none

theorem Holds.new : Holds .new [] :=
  ⟨.new, rfl, fun _ hx => (List.not_mem_nil hx).elim, fun _ _ => ⟨rfl, rfl⟩⟩

/-- Behind an `AutoTrace` that holds a trace, the list is that of the open traces. -/
theorem Holds.enter {l : List Nat} (h : Holds s l) :
    Holds (s.enter true true) (s.enter true true).openTraces := by
  have hopen : (s.enter true true).openTraces = s.openTraces ++ [s.made] := openTraces_cons ..
  have hnew : ∀ x, s.made ≤ x → x ∉ l := fun x hx hin => absurd (h.made x hin) (by omega)
  have hle : s.openTraces.length ≤ l.length := by
    have hlen := congrArg List.length h.opened
    rw [List.length_take] at hlen
    omega
  have hadd := h.traced.addTrace hle (hnew _ le_rfl) (h.bare _ le_rfl).1 (h.bare _ le_rfl).2
  rw [h.opened] at hadd
  refine ⟨?_, List.take_length, fun x hx => ?_, fun x hx => ?_⟩
  · rw [hopen, List.length_append]
    exact hadd
  · rw [hopen, List.mem_append, List.mem_singleton] at hx
    show x < s.made + 1
    rcases hx with hx | rfl
    · rw [← h.opened] at hx
      exact (h.made x (List.mem_of_mem_take hx)).trans (Nat.lt_succ_self _)
    · exact Nat.lt_succ_self _
  · have hlt : s.made + 1 ≤ x := hx
    obtain ⟨hnext, hprev⟩ := h.traced.addTrace_links (hnew x (by omega)) (by omega : x ≠ s.made)
    exact ⟨hnext.trans (h.bare x (by omega)).1, hprev.trans (h.bare x (by omega)).2⟩

/-- The end of an `AutoTrace` keeps the list, with one open trace less if it held one. -/
theorem Holds.leave {l : List Nat} (h : Holds s l) (hleave : s.leave = some s') : Holds s' l := by
  obtain ⟨thread, made, scopes⟩ := s
  match scopes, h with
  | [], _ => cases hleave
  | none :: scopes, h =>
    obtain rfl := Option.some.inj hleave
    exact ⟨h.traced, h.opened, h.made, h.bare⟩
  | some trace :: scopes, h =>
    obtain rfl := Option.some.inj hleave
    obtain ⟨htraced, hopened, hmade, hbare⟩ := h
    let rest := openTraces ⟨thread, made, scopes⟩
    rw [openTraces_cons, List.length_append, List.length_singleton] at htraced hopened
    have hat : l[rest.length]? = some trace := by
      have htake : (l.take (rest.length + 1))[rest.length]? = some trace := by
        rw [hopened, List.getElem?_concat_length]
      rwa [List.getElem?_take, if_pos (Nat.lt_succ_self _)] at htake
    have hmarked := htraced.removeTrace hat
    have hlinks : (thread.removeTrace (some trace)).links = thread.links := by
      unfold Thread.removeTrace
      split <;> rfl
    refine ⟨hmarked, ?_, hmade, fun x hx => ?_⟩
    · have htake := congrArg (List.take rest.length) hopened
      rw [List.take_take, Nat.min_eq_left (Nat.le_succ _), List.take_left' rfl] at htake
      exact htake
    · show (thread.removeTrace (some trace)).links.next x = none ∧ _
      rw [hlinks]
      exact hbare x hx

theorem Holds.exec {l : List Nat} {op : TraceOp} (h : Holds s l) (hexec : s.exec op = some s') :
    ∃ l', Holds s' l' := by
  cases op with
  | leave => exact ⟨l, h.leave hexec⟩
  | enter enable known =>
    obtain rfl := Option.some.inj hexec
    cases hholds : enable && known with
    | true =>
      obtain ⟨rfl, rfl⟩ := Bool.and_eq_true_iff.mp hholds
      exact ⟨_, h.enter⟩
    | false =>
      have hskip : s.enter enable known = { s with scopes := none :: s.scopes } := by
        unfold Traces.enter
        rw [hholds]
        rfl
      rw [hskip]
      exact ⟨l, h.traced, h.opened, h.made, h.bare⟩

theorem run_holds (hrun : run ops = some s) : ∃ l, Holds s l := by
  induction ops using List.reverseRecOn generalizing s with
  | nil =>
    obtain rfl := Option.some.inj hrun
    exact ⟨[], .new⟩
  | append_singleton ops op ih =>
    rw [run, List.foldlM_append, Option.bind_eq_bind, Option.bind_eq_some_iff] at hrun
    obtain ⟨before, hbefore, hlast⟩ := hrun
    rw [List.foldlM_cons, Option.bind_eq_bind, Option.bind_eq_some_iff] at hlast
    obtain ⟨after, hexec, hafter⟩ := hlast
    obtain rfl := Option.some.inj hafter
    obtain ⟨l, h⟩ := ih hbefore
    exact h.exec hexec

/-- In every run of beginnings and ends of `AutoTrace` objects, behind each that holds a trace the
list of the thread is that of the open traces, its links go both ways, and its last element is the
last trace. -/
theorem traces_after_enter (ops : List TraceOp) (hrun : run ops = some s) :
    let s' := s.enter true true
    Walk s'.thread.links.next s'.thread.trace s'.openTraces ∧
      Mirrors s'.thread.links s'.openTraces ∧
      s'.thread.lastTrace = s'.openTraces.getLast? := by
  obtain ⟨l, h⟩ := run_holds hrun
  obtain ⟨htraced, _, _, _⟩ := h.enter
  refine ⟨?_, htraced.mirrors, htraced.lastTrace⟩
  rw [htraced.trace]
  exact htraced.mirrors.walk

/-- Three traces of which two are left, with an `AutoTrace` in between that holds none. -/
def exLeft : List TraceOp :=
  [.enter true true, .enter true true, .enter false true, .enter true true,
    .leave, .leave, .leave]

theorem traces_after_enter_left : ∃ s, run exLeft = some s ∧
    (s.enter true true).openTraces = [0, 3] ∧
    Walk (s.enter true true).thread.links.next (s.enter true true).thread.trace [0, 3] :=
  ⟨_, rfl, rfl, (traces_after_enter exLeft rfl).1⟩

end Traces

end Dframework
