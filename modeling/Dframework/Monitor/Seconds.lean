import Mathlib
import Dframework.Base.Retval
import Dframework.Monitor.Monitor

/-!
# The periods of a `Monitor`

The periods stand in an array of six words, of which the constructor fills the first five: it calls
`setSecondsNum` for the sixth as well, which refuses that. `addDevice` and the walk of `run_s_l`
go through the array up to a zero. `addDevice` is to refuse periods that do not grow, and compares
each with the position of the one before it.

Results:
1. `addDevice_eq`, `addDevice_refused`, `walk_isSome_iff`: what is read, and what is refused.
2. `nextSeconds_after`, `walk_runSL`: the walk is that of `run_s_l`.
3. `seconds_checked_iff`: the periods for which the checks do what they are for.
-/

namespace Dframework

/-- `SECONDS`: a word that was not initialised holds nothing. -/
abbrev Seconds := List (Option UInt32)

namespace Seconds

def SECONDS_NUM : Nat :=
  5

def setSecondsNum (t : Seconds) (pos seconds : UInt32) : Seconds :=
  if pos.toNat < SECONDS_NUM then t.set pos.toNat (some seconds) else t

/-- The array behind the constructor of `Monitor`. -/
def construct : Seconds :=
  [(0, 5), (1, 240), (2, 1800), (3, 7200), (4, 0), (5, 0)].foldl
    (fun t p => t.setSecondsNum p.1 p.2) (List.replicate (SECONDS_NUM + 1) none)

/-- The loop of `addDevice` from the period `k` on, behind `m`, with the periods of the levels made
so far. It answers nothing where it reads a word that is not initialised or not in the array. -/
def addDeviceLoop (k m : Nat) (infos : List UInt32) : Seconds → Option (Retval × List UInt32)
  | [] => none
  | none :: _ => none
  | some seconds :: rest =>
    if seconds = 0 then some (none, infos)
    else if seconds.toNat < m then
      some (retvalMsg .error s!"Bad seconds. ({seconds} < {m})", infos)
    else addDeviceLoop (k + 1) k (infos ++ [seconds]) rest

/-- `Monitor::addDevice`: its answer, and the periods of the levels of the group. -/
def addDevice (t : Seconds) : Option (Retval × List UInt32) :=
  addDeviceLoop 0 0 [] t

/-- The levels that `run_s_l` goes up, from level `no` on, when `held` are the levels with a sample.
It answers nothing where it reads a word that is not initialised or not in the array. -/
def walk (sec : UInt64) (held : Nat → Bool) (no : Nat) : Seconds → Option Nat
  | [] => none
  | none :: _ => none
  | some seconds :: rest =>
    if seconds = 0 then some 0
    else
      match rest.head?.join with
      | none => none
      | some next =>
        if held no ∧ next ≠ 0 ∧ isBoundary sec next then (walk sec held (no + 1) rest).map (· + 1)
        else some 0

/-- The periods before the first zero. -/
def periods (t : Seconds) : List UInt32 :=
  (t.map fun s => s.getD 0).takeWhile (· ≠ 0)

/-- The array behind the constructor and a sequence of calls. -/
def after (calls : List (UInt32 × UInt32)) : Seconds :=
  calls.foldl (fun t p => t.setSecondsNum p.1 p.2) construct

end Seconds

namespace Seconds

/-! ## What is read -/

theorem after_eq (calls : List (UInt32 × UInt32)) :
    ∃ p : List UInt32, p.length = SECONDS_NUM ∧ after calls = p.map some ++ [none] := by
  induction calls using List.reverseRecOn with
  | nil => exact ⟨[5, 240, 1800, 7200, 0], rfl, rfl⟩
  | append_singleton calls c ih =>
    obtain ⟨p, hlen, hp⟩ := ih
    rw [after, List.foldl_concat]
    rw [after] at hp
    rw [hp, setSecondsNum]
    split
    next hpos =>
      refine ⟨p.set c.1.toNat c.2, (List.length_set ..).trans hlen, ?_⟩
      rw [List.set_append_left _ _ (by rw [List.length_map, hlen]; exact hpos), List.map_set]
    next => exact ⟨p, hlen, rfl⟩

/-- The periods that the loop of `addDevice` lets pass. -/
def Admitted : Nat → Nat → List UInt32 → Prop
  | _, _, [] => True
  | k, m, seconds :: rest => m ≤ seconds.toNat ∧ Admitted (k + 1) k rest

section

variable {k m : Nat} {infos q : List UInt32} {rest : Seconds}

theorem addDeviceLoop_admitted (hq : ∀ s ∈ q, s ≠ 0) (h : Admitted k m q) :
    (rest.head? = some (some 0) →
        addDeviceLoop k m infos (q.map some ++ rest) = some (none, infos ++ q)) ∧
      (rest.head? = some none → addDeviceLoop k m infos (q.map some ++ rest) = none) := by
  induction q generalizing k m infos with
  | nil =>
    constructor
    · intro hrest
      obtain ⟨t, rfl⟩ := List.head?_eq_some_iff.mp hrest
      rw [List.map_nil, List.nil_append, addDeviceLoop, if_pos rfl, List.append_nil]
    · intro hrest
      obtain ⟨t, rfl⟩ := List.head?_eq_some_iff.mp hrest
      rfl
  | cons seconds q ih =>
    obtain ⟨hle, hq'⟩ := h
    have hstep : addDeviceLoop k m infos ((seconds :: q).map some ++ rest) =
        addDeviceLoop (k + 1) k (infos ++ [seconds]) (q.map some ++ rest) := by
      rw [List.map_cons, List.cons_append, addDeviceLoop, if_neg (hq seconds List.mem_cons_self),
        if_neg (not_lt.mpr hle)]
    obtain ⟨hzero, hnone⟩ :=
      @ih (k + 1) k (infos ++ [seconds]) (fun s hs => hq s (List.mem_cons_of_mem _ hs)) hq'
    rw [hstep]
    refine ⟨fun hrest => ?_, hnone⟩
    rw [hzero hrest, List.append_assoc]
    rfl

theorem addDeviceLoop_refused (hq : ∀ s ∈ q, s ≠ 0) (h : ¬ Admitted k m q) :
    ∃ r infos', addDeviceLoop k m infos (q.map some ++ rest) = some (some r, infos') := by
  induction q generalizing k m infos with
  | nil => exact absurd trivial h
  | cons seconds q ih =>
    rw [List.map_cons, List.cons_append, addDeviceLoop, if_neg (hq seconds List.mem_cons_self)]
    by_cases hlt : seconds.toNat < m
    · rw [if_pos hlt]
      exact ⟨_, _, rfl⟩
    · rw [if_neg hlt]
      exact ih (fun s hs => hq s (List.mem_cons_of_mem _ hs)) fun hq' => h ⟨not_lt.mp hlt, hq'⟩

variable {sec : UInt64} {held : Nat → Bool} {no : Nat}

/-- A zero ends the walk. -/
theorem walk_isSome (hq : ∀ s ∈ q, s ≠ 0) (hrest : rest.head? = some (some 0)) :
    (walk sec held no (q.map some ++ rest)).isSome := by
  induction q generalizing no with
  | nil =>
    obtain ⟨t, rfl⟩ := List.head?_eq_some_iff.mp hrest
    rw [List.map_nil, List.nil_append, walk, if_pos rfl]
    rfl
  | cons seconds q ih =>
    rw [List.map_cons, List.cons_append, walk, if_neg (hq seconds List.mem_cons_self)]
    have hnext : ∃ next, (q.map some ++ rest).head?.join = some next := by
      cases q with
      | nil => exact ⟨0, by rw [List.map_nil, List.nil_append, hrest]; rfl⟩
      | cons next q => exact ⟨next, rfl⟩
    obtain ⟨next, hnext⟩ := hnext
    simp only [hnext]
    split
    next =>
      rw [Option.isSome_map]
      exact ih fun s hs => hq s (List.mem_cons_of_mem _ hs)
    next => rfl

/-- Without one, the walk at the second 0 passes all levels, when each of them has a sample. -/
theorem walk_past (hq : ∀ s ∈ q, s ≠ 0) (hne : q ≠ []) (hrest : rest.head? = some none) :
    walk 0 (fun _ => true) no (q.map some ++ rest) = none := by
  induction q generalizing no with
  | nil => exact absurd rfl hne
  | cons seconds q ih =>
    rw [List.map_cons, List.cons_append, walk, if_neg (hq seconds List.mem_cons_self)]
    cases q with
    | nil =>
      rw [List.map_nil, List.nil_append, hrest]
      rfl
    | cons next q =>
      have hmem : next ∈ seconds :: next :: q := List.mem_cons_of_mem _ List.mem_cons_self
      have hboundary : isBoundary 0 next = true := by
        rw [isBoundary, UInt64.zero_mod]
        rfl
      show (if _ then _ else _) = none
      rw [if_pos ⟨rfl, hq next hmem, hboundary⟩,
        ih (fun s hs => hq s (List.mem_cons_of_mem _ hs)) (List.cons_ne_nil _ _)]
      rfl

end

theorem takeWhile_zero (p : List UInt32) :
    (p ++ [0]).takeWhile (· ≠ 0) = p.takeWhile (· ≠ 0) := by
  induction p with
  | nil => rfl
  | cons s p ih => rw [List.cons_append, List.takeWhile_cons, List.takeWhile_cons, ih]

/-- The array is its periods up to a zero, or five of them and the word behind. -/
theorem after_parts (calls : List (UInt32 × UInt32)) :
    ∃ rest, after calls = (after calls).periods.map some ++ rest ∧
      (∀ s ∈ (after calls).periods, s ≠ 0) ∧
      rest.head? = some (if (after calls).periods.length ≤ 4 then some 0 else none) := by
  obtain ⟨p, hlen, hp⟩ := after_eq calls
  have hperiods : (after calls).periods = p.takeWhile (· ≠ 0) := by
    rw [hp, periods, List.map_append, List.map_map]
    have hmap : p.map ((fun s => s.getD 0) ∘ some) = p := List.map_id p
    rw [hmap]
    exact takeWhile_zero p
  have hcut : p.takeWhile (· ≠ 0) ++ p.dropWhile (· ≠ 0) = p := List.takeWhile_append_dropWhile
  have hsum := congrArg List.length hcut
  rw [List.length_append, hlen, SECONDS_NUM] at hsum
  rw [hperiods]
  refine ⟨(p.dropWhile (· ≠ 0)).map some ++ [none], ?_, fun s hs => ?_, ?_⟩
  · rw [← List.append_assoc, ← List.map_append, hcut, hp]
  · have hne := List.mem_takeWhile_imp hs
    exact of_decide_eq_true hne
  · cases hdrop : p.dropWhile (· ≠ 0) with
    | nil =>
      rw [hdrop, List.length_nil] at hsum
      rw [if_neg (by omega)]
      rfl
    | cons z d =>
      rw [hdrop, List.length_cons] at hsum
      have hz : z = 0 := by
        have := List.head?_dropWhile_not (fun s : UInt32 => decide (s ≠ 0)) p
        rw [hdrop] at this
        simpa using this
      rw [if_pos (by omega), hz]
      rfl

theorem addDevice_eq (calls : List (UInt32 × UInt32))
    (h : Admitted 0 0 (after calls).periods) :
    addDevice (after calls) =
      if (after calls).periods.length ≤ 4 then some (none, (after calls).periods) else none := by
  obtain ⟨rest, hsplit, hperiods, hrest⟩ := after_parts calls
  obtain ⟨hzero, hnone⟩ := @addDeviceLoop_admitted 0 0 [] _ rest hperiods h
  rw [← hsplit] at hzero hnone
  split
  next hshort => exact hzero (hrest.trans (by rw [if_pos hshort]))
  next hlong => exact hnone (hrest.trans (by rw [if_neg hlong]))

theorem addDevice_refused (calls : List (UInt32 × UInt32))
    (h : ¬ Admitted 0 0 (after calls).periods) :
    ∃ r infos, addDevice (after calls) = some (some r, infos) := by
  obtain ⟨rest, hsplit, hperiods, _⟩ := after_parts calls
  have hrefused := @addDeviceLoop_refused 0 0 [] _ rest hperiods h
  rwa [← hsplit] at hrefused

/-- The walk of `run_s_l` stays among the initialised periods, whatever the second and the levels
with a sample are, exactly when there is a zero for it to end at. -/
theorem walk_isSome_iff (calls : List (UInt32 × UInt32)) :
    (∀ sec held, (walk sec held 0 (after calls)).isSome) ↔ (after calls).periods.length ≤ 4 := by
  obtain ⟨rest, hsplit, hperiods, hrest⟩ := after_parts calls
  constructor
  · intro hwalk
    by_contra hlong
    rw [if_neg hlong] at hrest
    have hnone := hwalk 0 fun _ => true
    rw [hsplit, walk_past hperiods (List.ne_nil_of_length_pos (by omega)) hrest] at hnone
    cases hnone
  · intro hshort sec held
    rw [if_pos hshort] at hrest
    rw [hsplit]
    exact walk_isSome hperiods hrest

/-! ## The walk of `run_s_l` -/

/-- Whether an event hands a total to the next level. -/
def isHanded {α : Type} : Event α → Bool
  | .handed .. => true
  | _ => false

/-- The array of which `levels` have the periods, up to its zero. -/
def ofLevels {α : Type} (levels : List (Level α)) : Seconds :=
  levels.map (fun l => some l.1) ++ [some 0]

theorem head_ofLevels {α : Type} (levels : List (Level α)) :
    (ofLevels levels).head?.join = some (nextSeconds levels) := by
  cases levels <;> rfl

/-- For up to four periods the word behind that of each level is initialised, and is what the step of
the level reads. -/
theorem nextSeconds_after {α : Type} (calls : List (UInt32 × UInt32)) {levels : List (Level α)}
    (hperiods : levels.map Prod.fst = (after calls).periods) (hfew : levels.length ≤ 4) {no : Nat}
    (hno : no < levels.length) :
    (after calls)[no + 1]? = some (some (nextSeconds (levels.drop (no + 1)))) := by
  obtain ⟨rest, hsplit, -, hrest⟩ := after_parts calls
  rw [← hperiods] at hsplit hrest
  rw [List.length_map, if_pos hfew] at hrest
  rw [hsplit]
  rcases Nat.lt_or_ge (no + 1) levels.length with hlt | hge
  · rw [List.getElem?_append_left (by simpa using hlt), List.getElem?_map, List.getElem?_map,
      List.getElem?_eq_getElem hlt, List.drop_eq_getElem_cons hlt]
    rfl
  · have hlen : no + 1 = ((levels.map Prod.fst).map some).length := by simpa using by omega
    rw [List.getElem?_append_right hlen.ge, ← hlen, Nat.sub_self, ← List.head?_eq_getElem?, hrest,
      List.drop_eq_nil_of_le hge]
    rfl

theorem countP_made {α : Type} (no : Nat) (inf : Info α) :
    (if inf.total = none then [Event.created no] else []).countP (@isHanded α) = 0 := by
  split <;> rfl

/-- The walk goes up the levels that `run_s_l` hands a total to. -/
theorem walk_runSL {α : Type} (dev : Device α) (maxRows : UInt32) (sec : UInt64)
    (draw : Nat → Option Nat) (held : Nat → Bool) (no : Nat) (levels : List (Level α)) (device : α)
    (hheld : ∀ k s inf, levels[k]? = some (s, inf) → held (no + k) = inf.last.isSome) :
    walk sec held no (ofLevels levels) =
      some ((dev.runSL maxRows sec draw no levels device).trace.countP isHanded) := by
  induction levels generalizing no device with
  | nil => rfl
  | cons l rest ih =>
    obtain ⟨s, inf⟩ := l
    have hhead : held no = inf.last.isSome := hheld 0 s inf rfl
    have htail : ∀ k s inf, rest[k]? = some (s, inf) → held (no + 1 + k) = inf.last.isSome :=
      fun k s inf hk => by
        rw [Nat.add_assoc, Nat.add_comm 1]
        exact hheld (k + 1) s inf hk
    have hwalk : walk sec held no (ofLevels ((s, inf) :: rest)) = if s = 0 then some 0 else
        if held no ∧ nextSeconds rest ≠ 0 ∧ isBoundary sec (nextSeconds rest) then
          (walk sec held (no + 1) (ofLevels rest)).map (· + 1)
        else some 0 := by
      show (if s = 0 then _ else match (ofLevels rest).head?.join with
        | none => _
        | some next => _) = _
      rw [head_ofLevels]
      rfl
    rw [hwalk, Device.runSL]
    by_cases hs : s = 0
    · rw [if_pos hs, if_pos hs]
      rfl
    · rw [if_neg hs, if_neg hs, hhead]
      cases hlast : inf.last with
      | none =>
        rw [if_neg (fun h => Bool.false_ne_true h.1)]
        rfl
      | some last =>
        by_cases hnext : nextSeconds rest = 0
        · simp only [hnext]
          rfl
        · by_cases hbound : isBoundary sec (nextSeconds rest)
          · rw [if_pos ⟨rfl, hnext, hbound⟩]
            rw [ih (no + 1) (dev.avg (inf.total.getD (dev.create sec)) inf.plusCount) htail]
            simp only [hnext, hbound, if_false, if_true]
            -- the level above may answer an error or not; what it did is the same
            split <;> simp [List.countP_cons, List.countP_append, countP_made, isHanded]
          · rw [if_neg (fun h => hbound h.2.2)]
            simp only [hnext, hbound, if_false]
            simp [List.countP_append, countP_made, isHanded]

/-! ## What is refused -/

/-- No period is smaller than the one just before it. -/
def Ordered (p : List UInt32) : Prop :=
  p.IsChain (· ≤ ·)

theorem one_le_toNat {s : UInt32} (hs : s ≠ 0) : 1 ≤ s.toNat :=
  Nat.one_le_iff_ne_zero.mpr fun hzero => hs (UInt32.toNat_inj.mp hzero)

/-- The only period that is refused is a fourth of one second. -/
theorem admitted_iff {p : List UInt32} (hp : ∀ s ∈ p, s ≠ 0) (hlen : p.length ≤ 4) :
    Admitted 0 0 p ↔ p[3]? ≠ some 1 := by
  match p, hp, hlen with
  | [], _, _ => simp [Admitted]
  | [_], _, _ => simp [Admitted]
  | [_, _], _, _ => simp [Admitted]
  | [a, b, c], hp, _ => simp [Admitted, one_le_toNat (hp c (by simp))]
  | [a, b, c, d], hp, _ =>
    have hd := one_le_toNat (hp d (by simp))
    have hone : d ≠ 1 ↔ 2 ≤ d.toNat := by
      rw [Ne, ← UInt32.toNat_inj]
      show d.toNat ≠ 1 ↔ 2 ≤ d.toNat
      omega
    simp [Admitted, one_le_toNat (hp c (by simp)), hone]

/-- With a fourth period of one second the periods are only in order where all are one second. -/
theorem ordered_fourth {p : List UInt32} (hp : ∀ s ∈ p, s ≠ 0) (hlen : p.length ≤ 4)
    (hfourth : p[3]? = some 1) : Ordered p ↔ p = [1, 1, 1, 1] := by
  match p, hp, hlen, hfourth with
  | [a, b, c, d], hp, _, hfourth =>
    obtain rfl : d = 1 := by simpa using hfourth
    have hpos : ∀ s ∈ [a, b, c, 1], 1 ≤ s.toNat := fun s hs => one_le_toNat (hp s hs)
    constructor
    · intro hchain
      simp only [Ordered, List.isChain_cons_cons, UInt32.le_iff_toNat_le] at hchain
      have ha := hpos a (by simp)
      have hb := hpos b (by simp)
      have hc := hpos c (by simp)
      have hone : (1 : UInt32).toNat = 1 := rfl
      simp only [List.cons.injEq, ← UInt32.toNat_inj, hone, and_true]
      omega
    · intro hall
      rw [hall]
      simp [Ordered]

/-- What the periods are checked for: nothing is read that was not initialised, and `addDevice`
takes exactly the periods that are in order. -/
def Checked (t : Seconds) : Prop :=
  (addDevice t).isSome ∧ (∀ sec held, (walk sec held 0 t).isSome) ∧
    ((∃ infos, addDevice t = some (none, infos)) ↔ Ordered t.periods)

/-- The sequences of calls behind which the periods are checked as they should be: one of the five
is zero, the periods before it are not four times one second, and they are in order or the fourth
of them is one second. -/
theorem seconds_checked_iff (calls : List (UInt32 × UInt32)) :
    Checked (after calls) ↔
      (after calls).periods.length ≤ 4 ∧ (after calls).periods ≠ [1, 1, 1, 1] ∧
        (Ordered (after calls).periods ∨ (after calls).periods[3]? = some 1) := by
  obtain ⟨_, _, hperiods, _⟩ := after_parts calls
  by_cases hshort : (after calls).periods.length ≤ 4
  · have hwalk := (walk_isSome_iff calls).mpr hshort
    rw [and_iff_right hshort]
    by_cases hfourth : (after calls).periods[3]? = some 1
    · -- refused, so they must not be in order
      obtain ⟨r, infos, hrefused⟩ := addDevice_refused calls fun hadmitted =>
        (admitted_iff hperiods hshort).mp hadmitted hfourth
      have horder := ordered_fourth hperiods hshort hfourth
      unfold Checked
      simp [hrefused, hwalk, horder, hfourth]
    · have haccepted := addDevice_eq calls ((admitted_iff hperiods hshort).mpr hfourth)
      rw [if_pos hshort] at haccepted
      have hones : (after calls).periods ≠ [1, 1, 1, 1] := by
        intro heq
        rw [heq] at hfourth
        exact hfourth rfl
      unfold Checked
      simp [haccepted, hwalk, hfourth, hones]
  · exact iff_of_false (fun h => hshort ((walk_isSome_iff calls).mp h.2.1)) fun h => hshort h.1

/-- The second period is shorter than the first, and taken. -/
theorem not_seconds_checked : ¬ ∀ calls, Checked (after calls) := by
  intro hchecked
  obtain ⟨_, _, hiff⟩ := hchecked [(1, 3)]
  have haccepted : addDevice (after [(1, 3)]) = some (none, [5, 3, 1800, 7200]) := by decide
  have horder := hiff.mp ⟨_, haccepted⟩
  exact absurd horder (by unfold Ordered; decide)

end Seconds

end Dframework
