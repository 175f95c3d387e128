import Mathlib
import Dframework.Http.DirectiveScan

/-!
# What the loops over directives find

A header with the directives `name="value"` and `name=token`, a comma and some spaces in front of
each but the first. A loop takes a comma inside quotes for the end of a directive, the two bytes behind a directive for
a comma and a space, and a name that starts with one it knows for that name.

Results:
1. `scanRound_skips`, `scanRound_takes`: one round on a directive that the loop does not know, and on
   one that it knows.
2. `scan_remaining`: the rounds on a list of them.
3. `directives_found`: when a loop leaves the values that were given.
-/

namespace Dframework

namespace HttpDigest

open CLib Loop

/-! ## Lists of directives -/

/-- A directive, with its value in quotes or without. -/
structure Directive where
  name : Bytes
  value : Bytes
  quoted : Bool
  token : ∀ c ∈ name, c ∉ ([0, 9, 32, 34, 44, 61] : Bytes)
  text : ∀ c ∈ value, c ≠ 0 ∧ c ≠ 34
  deriving DecidableEq

def Directive.shown (d : Directive) : Bytes :=
  if d.quoted then 34 :: d.value ++ [34] else d.value

/-- `name="value"` or `name=token`. -/
def Directive.print (d : Directive) : Bytes :=
  d.name ++ 61 :: d.shown

def Directive.key (d : Directive) : Bytes :=
  d.name.map tolower

/-- A directive with the number of spaces between it and the comma in front. -/
abbrev Spaced := Nat × Directive

def printRest (ds : List Spaced) : Bytes :=
  ds.flatMap fun x => 44 :: List.replicate x.1 32 ++ x.2.print

/-- A list of directives. In front of the first one there is no comma, and no space. -/
def printList : List Spaced → Bytes
  | [] => []
  | x :: ds => x.2.print ++ printRest ds

/-- The value given for a name: that of the last directive of this name, in any case, and `old` when
there is none. -/
def given (name : Bytes) (ds : List Spaced) (old : Bytes) : Bytes :=
  ds.foldl (fun v x => if x.2.key = name then x.2.value else v) old

/-- A directive that a loop reads as it was written: no comma ends its value early, its name does not
merely start with one that the loop knows, and where the loop knows it there is a value between the
quotes, if there are any. -/
structure Reads (names : List Bytes) (d : Directive) : Prop where
  noComma : (44 : UInt8) ∉ d.value
  wholeName : ∀ name ∈ names, name <+: d.key → name = d.key
  nonempty : d.key ∈ names → d.quoted → d.value ≠ []

instance (names : List Bytes) (d : Directive) : Decidable (Reads names d) :=
  decidable_of_iff ((44 : UInt8) ∉ d.value ∧ (∀ name ∈ names, name <+: d.key → name = d.key) ∧
      (d.key ∈ names → d.quoted → d.value ≠ []))
    ⟨fun h => ⟨h.1, h.2.1, h.2.2⟩, fun h => ⟨h.noComma, h.wholeName, h.nonempty⟩⟩

/-- A list that a loop reads as it was written: there is a space behind each comma, and only one in
front of a directive that the loop knows and that is not the last. -/
structure Plain (names : List Bytes) (ds : List Spaced) : Prop where
  reads : ∀ x ∈ ds, Reads names x.2
  spaced : ∀ x ∈ ds.tail, 1 ≤ x.1
  oneSpace : ∀ x ∈ ds.tail.dropLast, x.2.key ∈ names → x.1 = 1
  short : (printList ds).length + 2 < 2 ^ 31

/-! ## The text a pointer stands on -/

variable {names : List Bytes} {text : Bytes} {s : Scan} {d : Directive} {ds : List Spaced} {j : Nat}

/-- Some spaces, a directive and those behind it. -/
def remaining (j : Nat) (d : Directive) (ds : List Spaced) : Bytes :=
  List.replicate j 32 ++ (d.print ++ printRest ds)

theorem print_append (d : Directive) (t : Bytes) :
    d.print ++ t = d.name ++ 61 :: (d.shown ++ t) := by
  simp [Directive.print]

theorem length_print (d : Directive) : d.print.length = d.name.length + d.shown.length + 1 := by
  simp [Directive.print]
  omega

theorem takeWhile_blanks (j : Nat) (d : Directive) (t : Bytes) :
    (List.replicate j 32 ++ (d.print ++ t)).takeWhile isBlankOrTab = List.replicate j 32 := by
  rw [List.takeWhile_append_of_pos fun c hc => by rw [List.eq_of_mem_replicate hc]; rfl]
  have hhead : (d.print ++ t).takeWhile isBlankOrTab = [] := by
    rw [print_append]
    cases hname : d.name with
    | nil => rfl
    | cons c cs =>
      have hc := d.token c (by rw [hname]; exact List.mem_cons_self)
      refine List.takeWhile_cons_of_neg ?_
      simp [isBlankOrTab] at hc ⊢
      tauto
  rw [hhead, List.append_nil]

theorem blanks_remaining : blanks (remaining j d ds) = List.replicate j 32 :=
  takeWhile_blanks j d _

theorem temp_remaining : temp (remaining j d ds) = d.print ++ printRest ds := by
  have hsplit := blanks_append_temp (remaining j d ds)
  rw [blanks_remaining] at hsplit
  exact List.append_cancel_left hsplit

/-- The names a loop looks for are not empty and hold neither a comma nor an equals sign. -/
def Names (names : List Bytes) : Prop :=
  ∀ name ∈ names, name ≠ [] ∧ (44 : UInt8) ∉ name ∧ (61 : UInt8) ∉ name

instance (names : List Bytes) : Decidable (Names names) :=
  inferInstanceAs (Decidable (∀ _ ∈ names, _ ∧ _ ∧ _))

/-- A name the loop knows starts a directive when it is the whole name. -/
theorem startsName_print {name : Bytes} (hequals : (61 : UInt8) ∉ name)
    (hwhole : name <+: d.key → name = d.key) (t : Bytes) :
    startsName name (d.print ++ t) = decide (name = d.key) := by
  rw [startsName, print_append]
  refine decide_eq_decide.mpr ⟨fun h => ?_, fun h => ?_⟩
  · rcases Nat.lt_or_ge d.name.length name.length with hlt | hge
    · -- the equals sign would be part of the name
      refine absurd ?_ hequals
      rw [← h, List.take_append, List.map_append, List.mem_append]
      obtain ⟨k, hk⟩ := Nat.exists_eq_add_of_lt hlt
      refine .inr ?_
      rw [show name.length - d.name.length = k + 1 by omega]
      exact List.mem_cons_self
    · rw [List.take_append_of_le_length hge] at h
      refine hwhole ?_
      rw [← h, Directive.key, List.map_take]
      exact List.take_prefix _ _
  · have hlen : name.length = d.name.length := by rw [h, Directive.key, List.length_map]
    rw [hlen, List.take_left, h, Directive.key]

theorem nameOf_remaining (hnames : Names names)
    (hwhole : ∀ name ∈ names, name <+: d.key → name = d.key) :
    nameOf names (remaining j d ds) = if d.key ∈ names then some d.key else none := by
  rw [nameOf, temp_remaining]
  have hcongr : (names.find? fun name => startsName name (d.print ++ printRest ds)) =
      names.find? fun name => decide (name = d.key) :=
    List.find?_congr fun name hname =>
      startsName_print (hnames name hname).2.2 (hwhole name hname) _
  rw [hcongr]
  split_ifs with hmem
  · rw [List.find?_eq_some_iff_append]
    obtain ⟨as, bs, hsplit, hnot⟩ := List.eq_append_cons_of_mem hmem
    refine ⟨by simp, as, bs, hsplit, fun a ha => ?_⟩
    have hne : a ≠ d.key := fun h => hnot (h ▸ ha)
    simpa using hne
  · rw [List.find?_eq_none]
    intro name hname
    have hne : name ≠ d.key := fun h => hmem (h ▸ hname)
    simpa using hne

theorem comma_not_mem_shown (h : (44 : UInt8) ∉ d.value) : (44 : UInt8) ∉ d.shown := by
  rw [Directive.shown]
  split_ifs
  · simp [h]
  · exact h

theorem comma_not_mem_print (h : (44 : UInt8) ∉ d.value) :
    (44 : UInt8) ∉ List.replicate j 32 ++ d.print := by
  have hname : (44 : UInt8) ∉ d.name := fun hc => by simpa using d.token 44 hc
  have hspace : (44 : UInt8) ∉ List.replicate j 32 := fun hc => by
    simpa using List.eq_of_mem_replicate hc
  simp [Directive.print, hname, hspace, comma_not_mem_shown h]

theorem find_remaining_nil (h : (44 : UInt8) ∉ d.value) :
    Search.find [44] (remaining j d []) = none := by
  refine Search.find_singleton_none ?_
  rw [remaining, printRest, List.flatMap_nil, List.append_nil]
  exact comma_not_mem_print h

theorem find_remaining_cons (h : (44 : UInt8) ∉ d.value) (x : Spaced) :
    Search.find [44] (remaining j d (x :: ds)) = some (j + d.print.length) := by
  have hfind := Search.find_singleton (comma_not_mem_print (j := j) h)
    (List.replicate x.1 32 ++ x.2.print ++ printRest ds)
  rw [List.length_append, List.length_replicate] at hfind
  rw [← hfind, remaining, printRest, List.flatMap_cons]
  simp [printRest]

/-- Behind a directive and two more bytes stand the spaces of the next one but for the first. -/
theorem drop_remaining {x : Spaced} (h : 1 ≤ x.1) :
    (remaining j d (x :: ds)).drop (j + d.print.length + 2) = remaining (x.1 - 1) x.2 ds := by
  obtain ⟨k, hk⟩ := Nat.exists_eq_add_of_le' h
  have hlen : (List.replicate j (32 : UInt8) ++ d.print).length = j + d.print.length := by
    rw [List.length_append, List.length_replicate]
  rw [remaining, printRest, List.flatMap_cons, ← List.append_assoc, ← hlen, List.drop_append]
  rw [hk, List.replicate_succ, Nat.add_sub_cancel, List.drop_of_length_le (Nat.le_add_right _ 2),
    Nat.add_sub_cancel_left, List.nil_append, remaining]
  simp [printRest]

/-! ## One round -/

theorem templen_remaining (h : (44 : UInt8) ∉ d.value) :
    templen (remaining j d ds) = j + d.print.length := by
  rw [templen]
  cases ds with
  | nil =>
    rw [find_remaining_nil h, Option.getD_none, remaining, printRest, List.flatMap_nil,
      List.append_nil, List.length_append, List.length_replicate]
  | cons x ds => rw [find_remaining_cons h, Option.getD_some]

/-- The value as it is written is what `test` looks at. -/
theorem valueOf_remaining (h : (44 : UInt8) ∉ d.value) (hj : ds ≠ [] → j = 0) :
    valueOf d.key (remaining j d ds) = d.shown := by
  have hkey : d.key.length + 1 = (d.name ++ [61]).length := by
    rw [Directive.key, List.length_map, List.length_append, List.length_singleton]
  have hdrop : (d.print ++ printRest ds).drop (d.key.length + 1) = d.shown ++ printRest ds := by
    rw [hkey, print_append, show d.name ++ 61 :: (d.shown ++ printRest ds) =
      (d.name ++ [61]) ++ (d.shown ++ printRest ds) by simp]
    exact List.drop_left
  have hlen : d.shown.length + (d.key.length + 1) = d.print.length := by
    rw [length_print, Directive.key, List.length_map]
    omega
  rw [valueOf, temp_remaining, hdrop, templen_remaining h]
  cases ds with
  | nil =>
    rw [printRest, List.flatMap_nil, List.append_nil]
    exact List.take_of_length_le (by omega)
  | cons x ds =>
    rw [hj (List.cons_ne_nil x ds), Nat.zero_add, ← hlen, Nat.add_sub_cancel]
    exact List.take_left

theorem quoted_shown_iff (h : d.quoted → d.value ≠ []) : Quoted d.shown ↔ d.quoted = true := by
  rw [Directive.shown]
  split_ifs with hq
  · have hpos := List.length_pos_iff.mpr (h hq)
    refine iff_of_true ⟨?_, rfl, List.getLast?_concat⟩ hq
    simp
    omega
  · refine iff_of_false (fun hquoted => ?_) hq
    exact (d.text 34 (List.mem_of_mem_head? hquoted.2.1)).2 rfl

/-- What a loop takes of a directive that it knows. Behind quotes it steps over two more bytes. -/
theorem taken_remaining (h : (44 : UInt8) ∉ d.value) (hvalue : d.quoted → d.value ≠ [])
    (hj : ds ≠ [] → j = 0) :
    taken d.key (remaining j d ds) = (d.value, d.print.length + if d.quoted then 2 else 0) := by
  have hprint := length_print d
  have hkey : d.key.length = d.name.length := List.length_map ..
  rw [taken]
  simp only [valueOf_remaining h hj, quoted_shown_iff hvalue]
  split_ifs with hq
  · have hshown : d.shown = 34 :: d.value ++ [34] := if_pos hq
    rw [Prod.mk.injEq]
    refine ⟨?_, by omega⟩
    rw [hshown]
    simp
  · have hshown : d.shown = d.value := if_neg hq
    rw [Prod.mk.injEq]
    exact ⟨hshown, by omega⟩

theorem readable_remaining (h : (44 : UInt8) ∉ d.value) (hj : ds ≠ [] → j = 0)
    (hshort : (remaining j d ds).length + 2 < 2 ^ 31) : Readable d.key (remaining j d ds) := by
  have hle := templen_le (remaining j d ds)
  have htemplen : templen (remaining j d ds) = j + d.print.length := templen_remaining h
  have hprint := length_print d
  have hkey : d.key.length = d.name.length := List.length_map ..
  refine ⟨?_, by omega, by omega, fun _ => ?_⟩
  · refine ⟨61, d.shown ++ printRest ds, ?_, fun h => absurd h (by decide)⟩
    rw [temp_remaining, print_append, hkey, List.drop_left]
  · rw [valueOf_remaining h hj]
    omega

variable (hnames : Names names) (hpos : s.pos ≤ text.length)
  (hrest : text.drop s.pos = remaining j d ds) (hshort : text.length + 2 < 2 ^ 31)
  (hreads : Reads names d)

include hnames hpos hrest hshort hreads

/-- A round on a directive that the loop does not know. -/
theorem scanRound_skips (hkey : d.key ∉ names) :
    scanRound names text s =
      if ds = [] then .done (some s) else .next { s with pos := s.pos + (j + d.print.length + 2) } := by
  have hlen : (remaining j d ds).length ≤ text.length := by
    rw [← hrest, List.length_drop]
    exact Nat.sub_le _ _
  have hle := templen_le (remaining j d ds)
  rw [templen_remaining hreads.noComma] at hle
  rw [scanRound_of_drop hpos hrest, nameOf_remaining hnames hreads.wholeName, if_neg hkey]
  cases ds with
  | nil =>
    rw [find_remaining_nil hreads.noComma]
    rfl
  | cons x ds =>
    rw [find_remaining_cons hreads.noComma]
    simp only [asInt_of_lt (show j + d.print.length + 2 < 2 ^ 31 by omega), reduceCtorEq, if_false]

/-- A round on a directive that the loop knows. -/
theorem scanRound_takes (hkey : d.key ∈ names) (hj : ds ≠ [] → j = 0) :
    scanRound names text s =
      let s' : Scan := ⟨s.pos + (d.print.length + if d.quoted then 2 else 0),
        Function.update s.fields d.key d.value⟩
      if ds = [] then .done (some s') else .next s' := by
  have hlen : (remaining j d ds).length ≤ text.length := by
    rw [← hrest, List.length_drop]
    exact Nat.sub_le _ _
  have hname : nameOf names (remaining j d ds) = some d.key := by
    rw [nameOf_remaining hnames hreads.wholeName, if_pos hkey]
  have htest : testAt d.key (remaining j d ds) =
      some (d.value, d.print.length + if d.quoted then 2 else 0) := by
    rw [testAt_known (fun name hmem => (hnames name hmem).2.1) hname,
      if_pos (readable_remaining hreads.noComma hj (by omega)),
      taken_remaining hreads.noComma (hreads.nonempty hkey) hj]
  rw [scanRound_of_drop hpos hrest, hname]
  simp only [htest]
  cases ds with
  | nil => rw [find_remaining_nil hreads.noComma, if_pos (.inl rfl), if_pos rfl]
  | cons x ds =>
    rw [find_remaining_cons hreads.noComma, if_neg, if_neg (List.cons_ne_nil x ds)]
    have hprint := length_print d
    rintro (h | h)
    · cases h
    · omega

omit hnames hpos hrest hshort hreads

/-- A round on a comma. -/
theorem scanRound_comma {rest : Bytes} (hnames : Names names) (hpos : s.pos ≤ text.length)
    (hrest : text.drop s.pos = 44 :: rest) :
    scanRound names text s = .next { s with pos := s.pos + 2 } := by
  have hname : nameOf names (44 :: rest) = none := by
    rw [nameOf, List.find?_eq_none]
    intro name hname hstarts
    obtain ⟨hne, hcomma, -⟩ := hnames name hname
    obtain ⟨c, cs, rfl⟩ := List.exists_cons_of_ne_nil hne
    rw [startsName, decide_eq_true_iff] at hstarts
    exact hcomma (List.mem_cons.mpr (.inl (List.cons.inj hstarts).1))
  have hfind : Search.find [44] (44 :: rest) = some 0 := Search.find_of_starts ⟨rest, rfl⟩
  rw [scanRound_of_drop hpos hrest, hname, hfind]
  rfl

/-! ## Runs -/

theorem given_cons (name : Bytes) (x : Spaced) (ds : List Spaced) (old : Bytes) :
    given name (x :: ds) old = given name ds (if x.2.key = name then x.2.value else old) := rfl

theorem update_field (fields : Bytes → Bytes) (key v name : Bytes) :
    Function.update fields key v name = if key = name then v else fields name := by
  rw [Function.update_apply]
  exact if_congr eq_comm rfl rfl

/-- Behind the round on a directive the pointer stands on what is in front of the next one. -/
theorem drop_next {x : Spaced} (hx : 1 ≤ x.1) (hrest : text.drop s.pos = remaining j d (x :: ds)) :
    s.pos + (j + d.print.length + 2) ≤ text.length ∧
      text.drop (s.pos + (j + d.print.length + 2)) = remaining (x.1 - 1) x.2 ds := by
  have hdrop : text.drop (s.pos + (j + d.print.length + 2)) = remaining (x.1 - 1) x.2 ds := by
    rw [← List.drop_drop, hrest]
    exact drop_remaining hx
  refine ⟨?_, hdrop⟩
  by_contra hlt
  rw [List.drop_of_length_le (Nat.le_of_not_le hlt)] at hdrop
  simp [remaining, Directive.print] at hdrop

/-- The rounds on a known directive that is not the last. Without quotes the comma behind it takes a
round of its own. -/
theorem returns_takes {x : Spaced} {r : Option Scan} (hnames : Names names)
    (hshort : text.length + 2 < 2 ^ 31) (hpos : s.pos ≤ text.length)
    (hrest : text.drop s.pos = remaining 0 d (x :: ds)) (hreads : Reads names d)
    (hkey : d.key ∈ names) :
    Returns (scanRound names text) s r ↔ Returns (scanRound names text)
      ⟨s.pos + (d.print.length + 2), Function.update s.fields d.key d.value⟩ r := by
  have hround := scanRound_takes hnames hpos hrest hshort hreads hkey fun _ => rfl
  simp only [List.cons_ne_nil, if_false] at hround
  rw [returns_next_iff hround]
  cases hq : d.quoted with
  | true => rfl
  | false =>
    have hdrop : text.drop (s.pos + d.print.length) =
        44 :: (List.replicate x.1 32 ++ x.2.print ++ printRest ds) := by
      rw [← List.drop_drop, hrest, remaining, List.replicate_zero, List.nil_append, List.drop_left,
        printRest, List.flatMap_cons]
      rfl
    have hle : s.pos + d.print.length ≤ text.length := by
      by_contra hlt
      rw [List.drop_of_length_le (Nat.le_of_not_le hlt)] at hdrop
      cases hdrop
    exact returns_next_iff (scanRound_comma hnames hle hdrop)

/-- The rounds of a loop on a list of directives, by induction on the list. -/
theorem scan_remaining (hnames : Names names) (hshort : text.length + 2 < 2 ^ 31)
    (hpos : s.pos ≤ text.length) (hrest : text.drop s.pos = remaining j d ds)
    (hd : Reads names d) (hreads : ∀ x ∈ ds, Reads names x.2)
    (hj : d.key ∈ names → ds ≠ [] → j = 0) (hspaced : ∀ x ∈ ds, 1 ≤ x.1)
    (hone : ∀ x ∈ ds.dropLast, x.2.key ∈ names → x.1 = 1) :
    ∃ s', Returns (scanRound names text) s (some s') ∧
      ∀ name ∈ names, s'.fields name = given name ((j, d) :: ds) (s.fields name) := by
  induction ds generalizing s j d with
  | nil =>
    by_cases hkey : d.key ∈ names
    · refine ⟨_, returns_of_done (scanRound_takes hnames hpos hrest hshort hd hkey (hj hkey)), ?_⟩
      intro name _
      rw [given_cons]
      exact update_field s.fields d.key d.value name
    · refine ⟨_, returns_of_done (scanRound_skips hnames hpos hrest hshort hd hkey), ?_⟩
      intro name hname
      rw [given_cons, if_neg fun h : d.key = name => hkey (h ▸ hname)]
      rfl
  | cons x ds ih =>
    obtain ⟨hpos', hrest'⟩ := drop_next (hspaced x List.mem_cons_self) hrest
    have hj' : x.2.key ∈ names → ds ≠ [] → x.1 - 1 = 0 := by
      intro hkey hne
      have hx : x ∈ (x :: ds).dropLast := by
        rw [List.dropLast_cons_of_ne_nil hne]
        exact List.mem_cons_self
      rw [hone x hx hkey]
    -- what is left of the list, whatever the fields are by then
    have hnext (fields : Bytes → Bytes) : ∃ s', Returns (scanRound names text)
        ⟨s.pos + (j + d.print.length + 2), fields⟩ (some s') ∧
        ∀ name ∈ names, s'.fields name = given name (x :: ds) (fields name) := by
      refine ih (j := x.1 - 1) hpos' hrest' (hreads x List.mem_cons_self)
        (fun y hy => hreads y (List.mem_cons_of_mem _ hy)) hj'
        (fun y hy => hspaced y (List.mem_cons_of_mem _ hy)) fun y hy => hone y ?_
      rw [List.dropLast_cons_of_ne_nil fun h => by simp [h] at hy]
      exact List.mem_cons_of_mem _ hy
    by_cases hkey : d.key ∈ names
    · obtain ⟨s', hret, hfields⟩ := hnext (Function.update s.fields d.key d.value)
      obtain rfl : j = 0 := hj hkey (List.cons_ne_nil x ds)
      rw [Nat.zero_add] at hret
      refine ⟨s', (returns_takes hnames hshort hpos hrest hd hkey).mpr hret, fun name hname => ?_⟩
      rw [hfields name hname, given_cons name (0, d)]
      exact congrArg (given name (x :: ds)) (update_field s.fields d.key d.value name)
    · obtain ⟨s', hret, hfields⟩ := hnext s.fields
      have hround := scanRound_skips hnames hpos hrest hshort hd hkey
      refine ⟨s', (returns_next_iff hround).mpr hret, fun name hname => ?_⟩
      rw [hfields name hname, given_cons name (j, d), if_neg fun h : d.key = name => hkey (h ▸ hname)]

/-- A loop that starts in front of a list of directives. -/
theorem scan_printList {ds : List Spaced} (hnames : Names names) (h : Plain names ds)
    (fields : Bytes → Bytes) :
    ∃ s, scan names (printList ds) fields = some s ∧
      ∀ name ∈ names, s.fields name = given name ds (fields name) := by
  simp only [scan_eq_some_iff]
  cases ds with
  | nil =>
    refine ⟨⟨0, fields⟩, returns_of_done ?_, fun name _ => rfl⟩
    have hnone : nameOf names [] = none := by
      rw [nameOf, List.find?_eq_none]
      intro name hname hstarts
      rw [startsName, decide_eq_true_iff] at hstarts
      exact (hnames name hname).1 (by simpa [temp] using hstarts.symm)
    have hrest : (printList []).drop 0 = ([] : Bytes) := rfl
    rw [scanRound_of_drop (Nat.zero_le _) hrest, hnone]
    rfl
  | cons x ds =>
    have hrest : (printList (x :: ds)).drop 0 = remaining 0 x.2 ds := rfl
    exact scan_remaining (j := 0) hnames h.short (Nat.zero_le _) hrest (h.reads x List.mem_cons_self)
      (fun y hy => h.reads y (List.mem_cons_of_mem x hy)) (fun _ _ => rfl) h.spaced h.oneSpace

end HttpDigest

/-! ## The three loops -/

open CLib HttpDigest

/-- The value of a header with directives that a loop is given. -/
def DirectiveLoop.header (ds : List Spaced) : DirectiveLoop → Bytes
  | .digest => bytes "Digest " ++ printList ds
  | .info => printList ds
  | .basic => bytes "Basic " ++ printList ds

/-- A loop leaves the values given for the names that it looks for, and the fields of the others as
they were. -/
def DirectiveLoop.Finds (l : DirectiveLoop) (ds : List Spaced) : Prop :=
  ∀ fields, ∃ text s, l.text (l.header ds) = some text ∧ scan l.names text fields = some s ∧
    ∀ name ∈ l.names, s.fields name = given name ds (fields name)

theorem zero_not_mem_print (d : Directive) : (0 : UInt8) ∉ d.print := by
  have hname : (0 : UInt8) ∉ d.name := fun hc => by simpa using d.token 0 hc
  have hvalue : (0 : UInt8) ∉ d.value := fun hc => (d.text 0 hc).1 rfl
  have hshown : (0 : UInt8) ∉ d.shown := by
    rw [Directive.shown]
    split_ifs <;> simp [hvalue]
  simp [Directive.print, hname, hshown]

theorem zero_not_mem_printList (ds : List Spaced) : (0 : UInt8) ∉ printList ds := by
  have hrest (ds : List Spaced) : (0 : UInt8) ∉ printRest ds := by
    simp [printRest, zero_not_mem_print]
  cases ds with
  | nil => exact List.not_mem_nil
  | cons x ds => simp [printList, zero_not_mem_print, hrest]

/-- A scheme at the start of a header is the one that is found. -/
theorem behindScheme_append {scheme t : Bytes} (hscheme : (0 : UInt8) ∉ scheme) (ht : (0 : UInt8) ∉ t) :
    behindScheme scheme (scheme ++ t) = some t := by
  have hcstr : cstr (scheme ++ t) = scheme ++ t := by
    refine cstr_of_not_mem ?_
    rw [List.mem_append, not_or]
    exact ⟨hscheme, ht⟩
  have hfind : Search.find (scheme.map tolower) ((scheme ++ t).map tolower) = some 0 := by
    rw [List.map_append]
    exact Search.find_of_starts (List.prefix_append _ _)
  rw [behindScheme, hcstr, hfind, Option.map_some, Nat.zero_add, List.drop_left]

theorem DirectiveLoop.text_header (l : DirectiveLoop) (ds : List Spaced) :
    l.text (l.header ds) = some (printList ds) := by
  have hzero := zero_not_mem_printList ds
  cases l with
  | digest => exact behindScheme_append (by decide) hzero
  | info => exact congrArg some (cstr_of_not_mem hzero)
  | basic => exact behindScheme_append (by decide) hzero

theorem DirectiveLoop.names_names (l : DirectiveLoop) : Names l.names := by
  cases l <;> decide

theorem directives_found (l : DirectiveLoop) (ds : List Spaced) (h : Plain l.names ds) :
    l.Finds ds := by
  intro fields
  obtain ⟨s, hs, hfields⟩ := scan_printList l.names_names h fields
  exact ⟨_, s, l.text_header ds, hs, hfields⟩

set_option maxRecDepth 2000 in
def exRealm : Directive where
  name := bytes "realm"
  value := bytes "ab"
  quoted := true
  token := by decide
  text := by decide

set_option maxRecDepth 2000 in
def exQop : Directive where
  name := bytes "qop"
  value := bytes "auth"
  quoted := true
  token := by decide
  text := by decide

theorem directives_found_two : DirectiveLoop.digest.Finds [(0, exRealm), (1, exQop)] :=
  directives_found .digest _ ⟨by decide, by decide, by decide, by decide⟩

set_option maxRecDepth 2000 in
def exComma : Directive where
  name := bytes "realm"
  value := bytes "a,b"
  quoted := true
  token := by decide
  text := by decide

/-- A comma in a value. -/
theorem not_directives_found : ¬ ∀ (l : DirectiveLoop) (ds : List Spaced), l.Finds ds := by
  intro h
  obtain ⟨text, s, htext, hs, hfields⟩ := h .digest [(0, exComma)] fun _ => []
  rw [DirectiveLoop.text_header, Option.some.injEq] at htext
  have hrealm : (scan HttpDigest.names text fun _ => []).map (·.fields (bytes "realm")) =
      some (bytes "\"a") := by
    rw [← htext]
    rfl
  have hgiven : s.fields (bytes "realm") = bytes "a,b" := hfields _ (by decide)
  rw [show scan HttpDigest.names text (fun _ => []) = some s from hs, Option.map_some, hgiven] at hrealm
  revert hrealm
  decide

end Dframework
