import Mathlib
import Dframework.Base.Retval
import Dframework.Lang.String
import Dframework.Library.Loop
import Dframework.Library.Percent

/-!
# `HttpdUtil::urldecode`

The text is read and written byte by byte. The length and both indices are `int`s, so the longest
text that is decoded has `2 ^ 31 - 2` bytes. `none` as a result stands for a run that leaves one of
the two blocks or an `int`.

Results:
1. `decodeRound_inBounds`: the indices stay in the text and in what was allocated.
2. `urldecode_eq`: what comes out is `Percent.decode`, up to its first NUL.
3. `urldecode_answer`: what comes out is short, and a C string.
4. `urldecode_meets`: encodings are read back.
-/

namespace Dframework

namespace HttpdUtil

open CLib Loop Percent

def toLower (c : UInt8) : UInt8 :=
  if 65 ≤ c ∧ c ≤ 90 then c ^^^ 0x20 else c

/-- The value of a hexadecimal digit, as `urldecode` computes it. -/
def nibble (c : UInt8) : UInt8 :=
  if toLower c ≤ 57 then toLower c - 48 else toLower c - 97 + 10

/-- The index `s` and the bytes written to `dest`, as many as the index `d`. -/
structure DecodeState where
  s : Nat
  dest : Bytes
  deriving DecidableEq, Repr

/-- `dest[d++]` for some bytes, in a block of `url_len`. -/
def DecodeState.put (t : DecodeState) (url_len : Int) (read : Nat) (bs : Bytes) :
    Round DecodeState (Option Bytes) :=
  if (t.dest.length + bs.length : Nat) ≤ url_len then .next ⟨t.s + read, t.dest ++ bs⟩
  else .done none

/-- One pass of the loop over the text `url` and the NUL behind it. -/
def decodeRound (url : Bytes) (url_len : Int) (t : DecodeState) : Round DecodeState (Option Bytes) :=
  if (t.s : Int) < url_len then
    match (url ++ [0])[t.s]? with
    | none => .done none
    | some c =>
      if c = 37 then
        -- `s + 2` is an `int`
        if 2 ^ 31 ≤ t.s + 3 then .done none
        else if ((t.s + 3 : Nat) : Int) < url_len then
          match (url ++ [0])[t.s + 1]?, (url ++ [0])[t.s + 2]? with
          | some c2, some c3 =>
            if isxdigit c2 ∧ isxdigit c3 then t.put url_len 3 [16 * nibble c2 + nibble c3]
            else t.put url_len 3 [c, c2, c3]
          | _, _ => .done none
        else t.put url_len 1 [c]
      else if c = 43 then t.put url_len 1 [32]
      else t.put url_len 1 [c]
  else .done (some t.dest)

def urlLen (url : Bytes) : Int :=
  Int.bmod (url.length + 1) (2 ^ 32)

/-- `HttpdUtil::urldecode`. A block of a negative size is refused. -/
def urldecode (url : Option Bytes) : Option (Except Ret Bytes) :=
  match url with
  | none => some (.error { value := .error, message := "Not found url parameter" })
  | some m =>
    let url := cstr m
    if urlLen url < 0 then some (.error { value := .eNomem })
    else
      match run (decodeRound url (urlLen url)) ((urlLen url).toNat + 1) ⟨0, []⟩ with
      | some (some dest) => if 0 ∈ dest then some (.ok (cstr dest)) else none
      | _ => none

/-! ## One pass -/

set_option maxRecDepth 4000 in
theorem nibble_eq {c : UInt8} (h : isxdigit c) : nibble c = UInt8.ofNat ((digitVal c).getD 0) := by
  revert c
  apply forall_byte
  decide

theorem hexByte_eq {a b : UInt8} (ha : isxdigit a) (hb : isxdigit b) :
    16 * nibble a + nibble b = hexByte a b := by
  rw [nibble_eq ha, nibble_eq hb, hexByte, UInt8.ofNat_add, UInt8.ofNat_mul]
  rfl

/-- What the loop writes for the bytes it may read. The last of them is never part of an
escape. -/
def written : Bytes → Bytes
  | c :: a :: b :: d :: t =>
    if c = 37 then
      if isxdigit a ∧ isxdigit b then hexByte a b :: written (d :: t)
      else c :: a :: b :: written (d :: t)
    else plus c :: written (a :: b :: d :: t)
  | w => w.map plus

theorem written_cons {c : UInt8} {w : Bytes} (h : c ≠ 37 ∨ w.length < 3) :
    written (c :: w) = plus c :: written w := by
  match w with
  | [] => rfl
  | [_] => rfl
  | [_, _] => rfl
  | _ :: _ :: _ :: _ =>
    have hc : c ≠ 37 := h.resolve_right (by simp)
    rw [written, if_neg hc]

theorem written_concat (v : Bytes) (c : UInt8) : written (v ++ [c]) = decode v ++ [plus c] := by
  have hlast : ∀ a b t, ∃ d t', (37 :: a :: b :: t) ++ [c] = 37 :: a :: b :: d :: t' ∧
      t ++ [c] = d :: t' := by
    intro a b t
    cases t with
    | nil => exact ⟨c, [], rfl, rfl⟩
    | cons d t => exact ⟨d, t ++ [c], rfl, rfl⟩
  induction v using decode_induct with
  | hnil => rfl
  | hplain c' t hne ih =>
    rw [List.cons_append, written_cons (.inl hne), ih, decode_cons hne, List.cons_append]
  | hsign => rfl
  | hsign2 a => rfl
  | hescape a b t ha hb ih =>
    obtain ⟨d, t', heq, ht⟩ := hlast a b t
    rw [heq, written, if_pos rfl, if_pos ⟨ha, hb⟩, ← ht, ih, decode_escape ha hb, List.cons_append]
  | hbroken a b t hab ih =>
    obtain ⟨d, t', heq, ht⟩ := hlast a b t
    rw [heq, written, if_pos rfl, if_neg hab, ← ht, ih, decode_broken hab]
    rfl

variable {u : Bytes} {n : Nat} {t : DecodeState}

/-- A pass takes some bytes and writes no more than it takes, unless the index leaves the `int`s. -/
theorem decodeRound_next (hn : n ≤ u.length + 1) (hlt : t.s < n) (hd : t.dest.length ≤ t.s)
    (hsign : (u ++ [0])[t.s]? = some 37 → t.s + 3 < 2 ^ 31) :
    ∃ k bs, decodeRound u n t = .next ⟨t.s + k, t.dest ++ bs⟩ ∧ 0 < k ∧ t.s + k ≤ n ∧
      bs.length ≤ k ∧ written (((u ++ [0]).take n).drop t.s) =
        bs ++ written (((u ++ [0]).take n).drop (t.s + k)) := by
  obtain ⟨w, hw⟩ : ∃ w, w = (u ++ [0]).take n := ⟨_, rfl⟩
  have hwlen : w.length = n := by
    rw [hw, List.length_take, List.length_append, List.length_singleton]
    omega
  have hget : ∀ i < n, (u ++ [0])[i]? = w[i]? := by
    intro i hi
    rw [hw, List.getElem?_take_of_lt hi]
  obtain ⟨c, rest, hrest⟩ : ∃ c rest, w.drop t.s = c :: rest := by
    refine List.exists_cons_of_ne_nil fun hnil => ?_
    rw [List.drop_eq_nil_iff] at hnil
    omega
  have hrestlen : rest.length + 1 = n - t.s := by
    rw [← List.length_cons (a := c), ← hrest, List.length_drop, hwlen]
  have hc : (u ++ [0])[t.s]? = some c := by
    rw [hget _ hlt, ← List.head?_drop, hrest, List.head?_cons]
  have hput : ∀ (k : Nat) (bs : Bytes), bs.length ≤ k → t.s + k ≤ n →
      t.put n k bs = .next ⟨t.s + k, t.dest ++ bs⟩ := by
    intro k bs hbs hk
    rw [DecodeState.put, if_pos (by omega)]
  have hdrop : ∀ k, w.drop (t.s + k) = (c :: rest).drop k := by
    intro k
    rw [← List.drop_drop, hrest]
  -- a byte that is no sign of an escape that fits
  have hone : (c ≠ 37 ∨ rest.length < 3) → decodeRound u n t = t.put n 1 [plus c] →
      ∃ k bs, decodeRound u n t = .next ⟨t.s + k, t.dest ++ bs⟩ ∧ 0 < k ∧ t.s + k ≤ n ∧
        bs.length ≤ k ∧ written (w.drop t.s) = bs ++ written (w.drop (t.s + k)) := by
    intro hplain hround
    refine ⟨1, [plus c], ?_, Nat.one_pos, by omega, le_rfl, ?_⟩
    · rw [hround, hput 1 _ le_rfl (by omega)]
    · rw [hdrop, hrest, List.drop_one, List.tail_cons, written_cons hplain]
      rfl
  rw [← hw]
  by_cases h37 : c = 37
  · subst h37
    have hint : ¬ 2 ^ 31 ≤ t.s + 3 := Nat.not_le.mpr (hsign hc)
    by_cases hlong : t.s + 3 < n
    · -- the two bytes behind the sign stand in front of the last one
      obtain ⟨a, b, d, rest, rfl⟩ : ∃ a b d r, rest = a :: b :: d :: r := by
        match rest, hrestlen with
        | a :: b :: d :: r, _ => exact ⟨a, b, d, r, rfl⟩
        | [], h => simp at h; omega
        | [_], h => simp at h; omega
        | [_, _], h => simp at h; omega
      have ha : (u ++ [0])[t.s + 1]? = some a := by
        rw [hget _ (by omega), ← List.head?_drop, hdrop]
        rfl
      have hb : (u ++ [0])[t.s + 2]? = some b := by
        rw [hget _ (by omega), ← List.head?_drop, hdrop]
        rfl
      by_cases hab : isxdigit a ∧ isxdigit b
      · refine ⟨3, [hexByte a b], ?_, by omega, by omega, by simp, ?_⟩
        · simp only [decodeRound, Nat.cast_lt, hlt, hc, hint, hlong, ha, hb, hab, if_true, if_false,
            and_self, hexByte_eq hab.1 hab.2, hput 3 [hexByte a b] (by simp) (by omega)]
        · rw [hdrop, hrest, written, if_pos rfl, if_pos hab]
          rfl
      · refine ⟨3, [37, a, b], ?_, by omega, by omega, le_rfl, ?_⟩
        · simp only [decodeRound, Nat.cast_lt, hlt, hc, hint, hlong, ha, hb, hab, if_true, if_false,
            hput 3 [37, a, b] le_rfl (by omega)]
        · rw [hdrop, hrest, written, if_pos rfl, if_neg hab]
          rfl
    · refine hone (.inr (by omega)) ?_
      simp only [decodeRound, Nat.cast_lt, hlt, hc, hint, hlong, if_true, if_false]
      rfl
  · refine hone (.inl h37) ?_
    simp only [decodeRound, Nat.cast_lt, hlt, hc, h37, if_true, if_false, plus]
    split_ifs <;> rfl

theorem DecodeState.put_room {k : Int} {read : Nat} {bs : Bytes} {t' : DecodeState}
    (h : t.put k read bs = .next t') : t'.dest.length ≤ k := by
  rw [put] at h
  split_ifs at h with hle
  cases h
  rw [List.length_append]
  exact hle

theorem decodeRound_room {k : Int} {t' : DecodeState} (h : decodeRound u k t = .next t') :
    t'.dest.length ≤ k := by
  simp only [decodeRound] at h
  repeat' split at h
  all_goals first
    | exact DecodeState.put_room h
    | cases h

theorem decodeRound_done {k : Int} {dest : Bytes} (h : decodeRound u k t = .done (some dest)) :
    dest = t.dest := by
  have hput : ∀ read bs, t.put k read bs ≠ .done (some dest) := by
    intro read bs hp
    rw [DecodeState.put] at hp
    split_ifs at hp
    cases hp
  simp only [decodeRound] at h
  repeat' split at h
  all_goals first
    | exact absurd h (hput _ _)
    | cases h; rfl
    | cases h

/-! ## The loop -/

/-- No sign stands where the index behind an escape is no `int` any more. -/
def SignsFit (u : Bytes) : Prop :=
  ∀ i, i + 3 = 2 ^ 31 ∨ i + 2 = 2 ^ 31 → u[i]? ≠ some 37

theorem urlLen_eq (h : u.length + 1 < 2 ^ 31) : urlLen u = (u.length + 1 : Nat) :=
  int_of_lt h

theorem urlLen_lt (u : Bytes) : urlLen u < 2 ^ 31 :=
  Int.bmod_lt (by decide)

theorem urlLen_le (u : Bytes) : urlLen u ≤ (u.length : Int) + 1 := by
  rcases Nat.lt_or_ge (u.length + 1) (2 ^ 31) with h | h
  · rw [urlLen_eq h, Nat.cast_add, Nat.cast_one]
  · have := urlLen_lt u
    omega

theorem urlLen_neg (h : u.length + 1 = 2 ^ 31) : urlLen u < 0 := by
  have hlen : (u.length : Int) + 1 = 2147483648 := by omega
  show Int.bmod ((u.length : Int) + 1) (2 ^ 32) < 0
  rw [hlen]
  norm_num [Int.bmod]

theorem SignsFit.of_encodes {x e : Bytes} (h : Encodes x e) (hlen : e.length + 1 < 2 ^ 31) :
    SignsFit e := by
  intro i hi hsign
  have := h.sign_lt hsign
  omega

theorem SignsFit.sign_lt (h : SignsFit u) (hn : n < 2 ^ 31) {i : Nat} (hi : i < n)
    (hsign : (u ++ [0])[i]? = some 37) : i + 3 < 2 ^ 31 := by
  by_contra hlt
  rcases Nat.lt_or_ge i u.length with hu | hu
  · rw [List.getElem?_append_left hu] at hsign
    exact h i (by omega) hsign
  · rw [List.getElem?_append_right hu, List.getElem?_singleton] at hsign
    split_ifs at hsign
    cases hsign

/-- The whole loop. -/
theorem run_written (hn : n ≤ u.length + 1) (hlt : n < 2 ^ 31) (hsigns : SignsFit u) {fuel : Nat}
    (hs : t.s ≤ n) (hd : t.dest.length ≤ t.s) (hfuel : n - t.s < fuel) :
    run (decodeRound u n) fuel t =
      some (some (t.dest ++ written (((u ++ [0]).take n).drop t.s))) := by
  induction fuel generalizing t with
  | zero => exact absurd hfuel (Nat.not_lt_zero _)
  | succ fuel ih =>
    rcases Nat.lt_or_ge t.s n with hlt' | hge
    · obtain ⟨k, bs, hround, hk, hle, hbs, hwritten⟩ :=
        decodeRound_next hn hlt' hd (hsigns.sign_lt hlt hlt')
      rw [run, hround]
      show run (decodeRound u n) fuel ⟨t.s + k, t.dest ++ bs⟩ = _
      have hd' : (t.dest ++ bs).length ≤ t.s + k := by
        rw [List.length_append]
        omega
      rw [ih hle hd' (show n - (t.s + k) < fuel by omega), hwritten, List.append_assoc]
    · have hround : decodeRound u n t = .done (some t.dest) := by
        rw [decodeRound, if_neg (by omega)]
      have hnil : ((u ++ [0]).take n).drop t.s = [] := by
        rw [List.drop_eq_nil_iff, List.length_take]
        omega
      rw [run, hround, hnil, show written [] = [] from rfl, List.append_nil]

/-- The indices at the head of a pass, and what the pass reads and writes. -/
theorem decodeRound_inBounds (hsigns : SignsFit u)
    (hreach : Reach (decodeRound u (urlLen u)) ⟨0, []⟩ t) :
    t.s ≤ u.length + 1 ∧ t.dest.length ≤ t.s ∧ decodeRound u (urlLen u) t ≠ .done none := by
  have hle := urlLen_le u
  have hlt := urlLen_lt u
  rcases Int.lt_or_le (urlLen u) 0 with hneg | hpos
  · -- nothing is read
    have hdone : ∀ t : DecodeState, decodeRound u (urlLen u) t = .done (some t.dest) := by
      intro t
      rw [decodeRound, if_neg (by omega)]
    cases hreach with
    | refl => exact ⟨Nat.zero_le _, le_rfl, by rw [hdone]; simp⟩
    | next hb => rw [hdone] at hb; cases hb
  · obtain ⟨n, hn⟩ := Int.eq_ofNat_of_zero_le hpos
    rw [hn] at hreach ⊢
    have hn' : n ≤ u.length + 1 := by omega
    have hnlt : n < 2 ^ 31 := by omega
    have hinv : t.s ≤ n ∧ t.dest.length ≤ t.s := by
      refine hreach.invariant (I := fun t => t.s ≤ n ∧ t.dest.length ≤ t.s)
        ⟨Nat.zero_le n, le_rfl⟩ ?_
      intro t t' ⟨_, hd⟩ hb
      rcases Nat.lt_or_ge t.s n with hlt' | hge
      · obtain ⟨k, bs, hround, -, hle, hbs, -⟩ :=
          decodeRound_next hn' hlt' hd (hsigns.sign_lt hnlt hlt')
        cases hround.symm.trans hb
        refine ⟨hle, ?_⟩
        show (t.dest ++ bs).length ≤ t.s + k
        rw [List.length_append]
        omega
      · rw [decodeRound, if_neg (by omega)] at hb
        cases hb
    refine ⟨by omega, hinv.2, ?_⟩
    rcases Nat.lt_or_ge t.s n with hlt' | hge
    · obtain ⟨k, bs, hround, -⟩ :=
        decodeRound_next hn' hlt' hinv.2 (hsigns.sign_lt hnlt hlt')
      rw [hround]
      exact fun h => by cases h
    · rw [decodeRound, if_neg (by omega)]
      simp

/-! ## What comes out -/

theorem urldecode_eq {m : Bytes} (hlen : (cstr m).length + 1 < 2 ^ 31)
    (hsigns : SignsFit (cstr m)) :
    urldecode (some m) = some (.ok (cstr (decode (cstr m)))) := by
  obtain ⟨n, hn⟩ : ∃ n, n = (cstr m).length + 1 := ⟨_, rfl⟩
  have hu : urlLen (cstr m) = n := by rw [urlLen_eq hlen, hn]
  have htake : (cstr m ++ [0]).take n = cstr m ++ [0] :=
    List.take_of_length_le (by rw [hn, List.length_append, List.length_singleton])
  have hrun : run (decodeRound (cstr m) n) (n + 1) ⟨0, []⟩ =
      some (some (decode (cstr m) ++ [0])) := by
    rw [run_written hn.le (hn ▸ hlen) hsigns (Nat.zero_le n) le_rfl (Nat.lt_succ_self n), htake]
    show some (some (written (cstr m ++ [0]))) = _
    rw [written_concat]
    rfl
  have hcstr : cstr (decode (cstr m) ++ [0]) = cstr (decode (cstr m)) := by
    by_cases h0 : (0 : UInt8) ∈ decode (cstr m)
    · rw [cstr_append_of_mem h0]
    · rw [cstr_append_of_not_mem h0, cstr_of_not_mem h0]
      exact List.append_nil _
  have hneg : ¬ (n : Int) < 0 := by omega
  simp only [urldecode, hu, hneg, if_false, Int.toNat_natCast, hrun, hcstr, List.mem_append,
    List.mem_singleton, or_true, if_true]

/-- A text whose length is no `int` is refused. -/
theorem urldecode_long {m : Bytes} (h : urlLen (cstr m) < 0) :
    urldecode (some m) = some (.error { value := .eNomem }) := by
  simp only [urldecode, if_pos h]

/-- What comes out is as long as an `int` says, and a C string. -/
theorem urldecode_answer {url : Option Bytes} {x : Bytes} (h : urldecode url = some (.ok x)) :
    x.length < 2 ^ 31 ∧ 0 ∉ x := by
  obtain - | m := url
  · cases h
  rw [urldecode] at h
  split_ifs at h with hneg
  · cases h
  obtain ⟨n, hn⟩ := Int.eq_ofNat_of_zero_le (Int.not_lt.mp hneg)
  have hlt := urlLen_lt (cstr m)
  rw [hn] at h hlt
  split at h
  case h_2 => cases h
  case h_1 dest hrun =>
    split_ifs at h with h0
    cases h
    -- no byte is written behind the block
    have hdest : dest.length ≤ n := by
      have hret : Returns (decodeRound (cstr m) n) ⟨0, []⟩ (some dest) := ⟨_, hrun⟩
      refine hret.induct (P := fun t => t.dest.length ≤ n → dest.length ≤ n) ?_ ?_ (Nat.zero_le n)
      · intro t hdone ht
        rw [decodeRound_done hdone]
        exact ht
      · exact fun t t' hnext _ ih _ => ih (Int.ofNat_le.mp (decodeRound_room hnext))
    exact ⟨lt_of_le_of_lt (cstr_isPrefix dest).length_le (by omega), not_mem_cstr dest⟩

/-- Encodings are read back, and the indices stay where they belong. -/
theorem urldecode_meets :
    (∀ x e, (0 : UInt8) ∉ x → Encodes x e → e.length + 1 < 2 ^ 31 →
      urldecode (some e) = some (.ok x)) ∧
    ∀ u, SignsFit u → ∀ t, Reach (decodeRound u (urlLen u)) ⟨0, []⟩ t →
      t.s ≤ u.length + 1 ∧ t.dest.length ≤ t.s ∧ decodeRound u (urlLen u) t ≠ .done none := by
  refine ⟨fun x e h0 h hlen => ?_, fun u hsigns t => decodeRound_inBounds hsigns⟩
  have he := cstr_of_not_mem (h.not_mem h0)
  rw [urldecode_eq (he.symm ▸ hlen) (he.symm ▸ .of_encodes h hlen), he, h.decode_eq,
    cstr_of_not_mem h0]

/-- A text of 2 GiB is not read back. -/
theorem not_urldecode : ¬ ∀ x e, (0 : UInt8) ∉ x → Encodes x e →
    urldecode (some e) = some (.ok x) := by
  intro h
  obtain ⟨x, hlen, hmem⟩ : ∃ x : Bytes, x.length = 2 ^ 31 - 1 ∧ ∀ c ∈ x, c = 97 :=
    ⟨List.replicate (2 ^ 31 - 1) 97, List.length_replicate, fun _ => List.eq_of_mem_replicate⟩
  have h0 : (0 : UInt8) ∉ x := fun h0 => absurd (hmem 0 h0) (by decide)
  have henc : Encodes x x := .self fun c hc => by rw [hmem c hc]; decide
  have hneg : urlLen (cstr x) < 0 := urlLen_neg (by rw [cstr_of_not_mem h0]; omega)
  have hread := h x x h0 henc
  rw [urldecode_long hneg] at hread
  cases hread

end HttpdUtil

end Dframework
