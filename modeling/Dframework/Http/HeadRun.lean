import Mathlib
import Dframework.Http.Connection

/-!
# The lines of a response head, for every cut of it

`readLine` looks for the end of a line in the bytes it has saved and, when there is
none, in the bytes it receives afresh, and it gives up when a `recv` fills its room
or brings the end of the connection together with bytes. `arrives` is what it needs:
from the lines and the cuts alone, the bytes that are held and the segments that are
left when all lines have been handed out.

Results:
1. `readLine_fetch`: one call of `readLine` follows `fetch`.
2. `readHeader_of_arrives`, `arrives_of_readHeader`: the header lines, up to the blank one.
3. `readHead_iff`: the whole head is handed out line by line, and what follows it
   stays, exactly when its lines arrive and no header line is read through `NULL`.
-/

namespace Dframework

open CLib Loop ConnectionLemmas

/-! ## What has to arrive -/

/-- The segments that are received, behind the bytes `got`, until they show a CRLF:
all bytes received, and the segments left. -/
def collect : Bytes → List Bytes → Option (Bytes × List Bytes)
  | _, [] => none
  | got, s :: ss =>
    if got.length + s.length < DFW_READLINE_SIZE then
      if (strstr (got ++ s) CRLF).isSome then some (got ++ s, ss) else collect (got ++ s) ss
    else none

/-- The bytes that are held when the next line can be handed out. -/
def fetch (held : Bytes) (segs : List Bytes) : Option (Bytes × List Bytes) :=
  if (strstr held CRLF).isSome then some (held, segs)
  else (collect [] segs).map fun c => (held ++ c.1, c.2)

/-- The bytes that are held, and the segments left, when the lines have been handed
out. -/
def arrives : List Bytes → Bytes → List Bytes → Option (Bytes × List Bytes)
  | [], held, segs => some (held, segs)
  | l :: ls, held, segs => (fetch held segs).bind fun f => arrives ls (f.1.drop (l.length + 2)) f.2

structure ResponseHead where
  status : StatusLine
  headers : List Bytes
  headers_line : ∀ l ∈ headers, IsLine l
  headers_ne : ∀ l ∈ headers, l ≠ []

/-- The lines of a head, the blank line with them. -/
def ResponseHead.lines (h : ResponseHead) : List Bytes :=
  h.status.enc :: (h.headers ++ [[]])

def encLines (ls : List Bytes) : Bytes :=
  ls.flatMap (· ++ CRLF)

def ResponseHead.enc (h : ResponseHead) : Bytes :=
  encLines h.lines

namespace HeadRunLemmas

variable {got g held h : Bytes} {segs ss : List Bytes}

theorem collect_flatten (hc : collect got segs = some (g, ss)) :
    g ++ ss.flatten = got ++ segs.flatten := by
  induction segs generalizing got with
  | nil => cases hc
  | cons s segs ih =>
    unfold collect at hc
    split at hc
    next =>
      split at hc
      next =>
        cases hc
        simp
      next => simp [ih hc]
    next => cases hc

theorem collect_crlf (hc : collect got segs = some (g, ss)) : (strstr g CRLF).isSome := by
  induction segs generalizing got with
  | nil => cases hc
  | cons s segs ih =>
    unfold collect at hc
    split at hc
    next =>
      split at hc
      next hcrlf =>
        cases hc
        exact hcrlf
      next => exact ih hc
    next => cases hc

theorem collect_subset (hc : collect got segs = some (g, ss)) : ∀ s ∈ ss, s ∈ segs := by
  induction segs generalizing got with
  | nil => cases hc
  | cons s segs ih =>
    unfold collect at hc
    split at hc
    next =>
      split at hc
      next =>
        cases hc
        exact fun t ht => List.mem_cons_of_mem _ ht
      next => exact fun t ht => List.mem_cons_of_mem _ (ih hc t ht)
    next => cases hc

/-- The loop of `readLine` follows `collect`. -/
theorem lineRound_collect (e : Ending) (round : HttpRound) (got : Bytes) (hsegs : ∀ s ∈ segs, s ≠ []) :
    ∃ r, Returns lineRound
        ⟨round, segments segs ++ e.sock, got, DFW_READLINE_SIZE - got.length⟩ r ∧
      match collect got segs with
      | some (g, ss) => r = ((HttpRound.readLine { round with
          recvBuffer := round.recvBuffer ++ g }).1, (HttpRound.readLine { round with
          recvBuffer := round.recvBuffer ++ g }).2, segments ss ++ e.sock)
      | none => r.1.isSome := by
  induction segs generalizing got with
  | nil =>
    obtain ⟨err, round', sock', hdone⟩ := lineRound_ending e round got
      (DFW_READLINE_SIZE - got.length)
    exact ⟨_, returns_of_done hdone, rfl⟩
  | cons s segs ih =>
    have hs : s ≠ [] := hsegs s List.mem_cons_self
    have hsock : segments (s :: segs) ++ e.sock = segment s ++ (segments segs ++ e.sock) := by
      simp [segment]
    rw [hsock, collect]
    by_cases hlt : got.length + s.length < DFW_READLINE_SIZE
    · have hround := lineRound_segment round got hs
        (show s.length < DFW_READLINE_SIZE - got.length by omega) (segments segs ++ e.sock)
      rw [if_pos hlt]
      cases hcrlf : strstr (got ++ s) CRLF with
      | some i =>
        rw [hcrlf] at hround
        exact ⟨_, returns_of_done hround, rfl⟩
      | none =>
        rw [hcrlf] at hround
        obtain ⟨r, hr, hmatch⟩ := ih (got ++ s)
          (fun t ht => hsegs t (List.mem_cons_of_mem _ ht))
        have hsize : DFW_READLINE_SIZE - got.length - s.length =
            DFW_READLINE_SIZE - (got ++ s).length := by
          rw [List.length_append]
          omega
        rw [hsize] at hround
        exact ⟨r, (returns_next_iff hround).mpr hr, by simpa using hmatch⟩
    · obtain ⟨err, round', sock', hdone⟩ := lineRound_full round got hs
        (show DFW_READLINE_SIZE - got.length ≤ s.length by omega) (segments segs ++ e.sock)
      rw [if_neg hlt]
      exact ⟨_, returns_of_done hdone, rfl⟩

/-- A CRLF in the bytes that are held is not before the end of the first line. -/
theorem line_le_of_crlf (held rest : Bytes) {l t : Bytes} {i : Nat} (hl : IsLine l)
    (hstream : held ++ g ++ rest = l ++ CRLF ++ t) (hi : strstr g CRLF = some i) :
    l.length + 2 ≤ (held ++ g).length := by
  obtain ⟨hi', hp, -⟩ := Search.find_eq_some_iff.mp hi
  obtain ⟨u, hu⟩ := cstr_isPrefix g
  have hlen : i + 2 ≤ g.length := strstr_add_length_le hi
  have hat : CRLF <+: (l ++ CRLF ++ t).drop (held.length + i) := by
    rw [← hstream, List.append_assoc, ← List.drop_drop, List.drop_left,
      List.drop_append_of_le_length (by omega), ← hu, List.drop_append_of_le_length hi']
    exact hp.trans ((List.prefix_append _ _).trans (List.prefix_append _ _))
  have hle : l.length ≤ held.length + i := by
    by_contra hlt
    exact not_crlf_prefix_drop hl.2 _ (Nat.not_le.mp hlt) hat
  rw [List.length_append]
  omega

/-- The bytes that `fetch` holds start with the line. -/
theorem fetch_line {l t rest : Bytes} (hl : IsLine l)
    (hstream : held ++ segs.flatten ++ rest = l ++ CRLF ++ t)
    (hf : fetch held segs = some (h, ss)) :
    h = l ++ CRLF ++ h.drop (l.length + 2) ∧ h.drop (l.length + 2) ++ ss.flatten ++ rest = t ∧
      h ++ ss.flatten = held ++ segs.flatten ∧ ∀ s ∈ ss, s ∈ segs := by
  have hbytes : h ++ ss.flatten = held ++ segs.flatten ∧ l.length + 2 ≤ h.length ∧
      ∀ s ∈ ss, s ∈ segs := by
    unfold fetch at hf
    split at hf
    next hcrlf =>
      obtain ⟨i, hi⟩ := Option.isSome_iff_exists.mp hcrlf
      cases hf
      refine ⟨rfl, ?_, fun s hs => hs⟩
      have := line_le_of_crlf [] (segs.flatten ++ rest) hl
        (by rw [← hstream, List.append_assoc, List.append_assoc, List.nil_append]) hi
      simpa using this
    next =>
      obtain ⟨⟨g, ss'⟩, hc, heq⟩ := Option.map_eq_some_iff.mp hf
      obtain ⟨rfl, rfl⟩ := Prod.mk.inj heq
      have hflat : g ++ ss'.flatten = segs.flatten := by simpa using collect_flatten hc
      obtain ⟨i, hi⟩ := Option.isSome_iff_exists.mp (collect_crlf hc)
      refine ⟨by rw [List.append_assoc, hflat], ?_, collect_subset hc⟩
      have hwhole : held ++ g ++ (ss'.flatten ++ rest) = l ++ CRLF ++ t := by
        rw [← hstream, ← hflat, List.append_assoc, List.append_assoc, List.append_assoc]
      exact line_le_of_crlf _ _ hl hwhole hi
  obtain ⟨hflat, hlen, hsub⟩ := hbytes
  have hwhole : h ++ (ss.flatten ++ rest) = l ++ CRLF ++ t := by
    rw [← hstream, ← hflat, List.append_assoc]
  have htake : h.take (l.length + 2) = l ++ CRLF := by
    have := congrArg (List.take (l.length + 2)) hwhole
    rwa [List.take_append_of_le_length hlen, List.take_left' (by simp [CRLF])] at this
  have hsplit : h = l ++ CRLF ++ h.drop (l.length + 2) := by
    rw [← htake, List.take_append_drop]
  refine ⟨hsplit, ?_, hflat, hsub⟩
  rw [hsplit, List.append_assoc (l ++ CRLF)] at hwhole
  rw [List.append_assoc]
  exact List.append_cancel_left hwhole

end HeadRunLemmas

open HeadRunLemmas

/-- One call of `readLine` follows `fetch`. -/
theorem readLine_fetch (e : Ending) {round : HttpRound} {segs : List Bytes} {l t : Bytes}
    (hsegs : ∀ s ∈ segs, s ≠ []) (hl : IsLine l)
    (hstream : round.recvBuffer ++ segs.flatten ++ e.bytes = l ++ CRLF ++ t) :
    match fetch round.recvBuffer segs with
    | some (h, ss) => ReadLine round (segments segs ++ e.sock) (none,
        { round with lineBuffer := l, recvBuffer := h.drop (l.length + 2) }, segments ss ++ e.sock)
    | none => ∃ err round' sock', ReadLine round (segments segs ++ e.sock)
        (some err, round', sock') := by
  cases hf : fetch round.recvBuffer segs with
  | some f =>
    obtain ⟨h, ss⟩ := f
    obtain ⟨hh, -⟩ := fetch_line hl hstream hf
    unfold fetch at hf
    split at hf
    next hcrlf =>
      cases hf
      have hread := readLine_line hl hh
      simp only [ReadLine, hread]
    next hcrlf =>
      obtain ⟨⟨g, ss'⟩, hc, heq⟩ := Option.map_eq_some_iff.mp hf
      cases heq
      have hnone := readLine_none (Option.not_isSome_iff_eq_none.mp hcrlf)
      obtain ⟨r, hr, hmatch⟩ := lineRound_collect e
        { round with lineBuffer := [] } [] hsegs
      rw [hc] at hmatch
      have hread : HttpRound.readLine { round with
          lineBuffer := [], recvBuffer := round.recvBuffer ++ g } =
          (none, { round with
            lineBuffer := l, recvBuffer := (round.recvBuffer ++ g).drop (l.length + 2) }) :=
        readLine_line hl hh
      simp only [hread] at hmatch
      simp only [ReadLine, hnone, retval]
      exact hmatch ▸ hr
  | none =>
    unfold fetch at hf
    split at hf
    next => cases hf
    next hcrlf =>
      have hnone := readLine_none (Option.not_isSome_iff_eq_none.mp hcrlf)
      obtain ⟨⟨ret, round', sock'⟩, hr, hmatch⟩ := lineRound_collect e
        { round with lineBuffer := [] } [] hsegs
      rw [Option.map_eq_none_iff.mp hf] at hmatch
      obtain ⟨err, rfl⟩ := Option.isSome_iff_exists.mp hmatch
      refine ⟨err, round', sock', ?_⟩
      simp only [ReadLine, hnone, retval]
      exact hr

/-! ## The header lines -/

theorem blank_isLine : IsLine [] :=
  ⟨List.not_mem_nil, rfl⟩

theorem encLines_cons (l : Bytes) (ls : List Bytes) :
    encLines (l :: ls) = l ++ CRLF ++ encLines ls := rfl

/-- The header lines that arrive are all handed out, and the round knows what they
say. -/
theorem readHeader_of_arrives (e : Ending) {headers : List Bytes} {round F : HttpRound}
    {segs ss : List Bytes} {h rest : Bytes} (hsegs : ∀ s ∈ segs, s ≠ [])
    (hline : ∀ l ∈ headers, IsLine l) (hne : ∀ l ∈ headers, l ≠ [])
    (hstream : round.recvBuffer ++ segs.flatten ++ e.bytes = encLines (headers ++ [[]]) ++ rest)
    (harrives : arrives (headers ++ [[]]) round.recvBuffer segs = some (h, ss))
    (hparse : round.parseHeader headers = some F) :
    ReadResponseHeader round (segments segs ++ e.sock) (headers ++ [[]]) (some (none,
      { F with lineBuffer := [], recvBuffer := h }, segments ss ++ e.sock)) ∧
    h ++ ss.flatten ++ e.bytes = rest ∧ ∀ s ∈ ss, s ∈ segs := by
  induction headers generalizing round F segs with
  | nil =>
    have hread := readLine_fetch e hsegs blank_isLine (hstream.trans
      (by rw [List.nil_append, encLines_cons, List.append_assoc]))
    obtain ⟨⟨h', ss'⟩, hf, harr⟩ := Option.bind_eq_some_iff.mp harrives
    simp only [hf] at hread
    obtain ⟨-, hrest, -, hsub⟩ := fetch_line blank_isLine (hstream.trans
      (by rw [List.nil_append, encLines_cons, List.append_assoc])) hf
    cases harr
    cases hparse
    exact ⟨.ended hread rfl, by simpa [encLines] using hrest, hsub⟩
  | cons l ls ih =>
    have hl := hline l List.mem_cons_self
    have hstream' := hstream.trans
      (by rw [List.cons_append, encLines_cons, List.append_assoc (l ++ CRLF)])
    have hread := readLine_fetch e hsegs hl hstream'
    obtain ⟨⟨h', ss'⟩, hf, harr⟩ := Option.bind_eq_some_iff.mp harrives
    simp only [hf] at hread
    obtain ⟨-, hrest, -, hsub⟩ := fetch_line hl hstream' hf
    obtain ⟨⟨ret, R⟩, hR, hF⟩ := Option.bind_eq_some_iff.mp hparse
    have hparseLine := parseHeaderLine_recv { round with lineBuffer := l }
      (h'.drop (l.length + 2))
    rw [hR, Option.map_some] at hparseLine
    have hparseRest := parseHeader_recv R ls (h'.drop (l.length + 2))
    rw [hF, Option.map_some] at hparseRest
    obtain ⟨hgo, hbytes, hsub'⟩ := ih (fun s hs => hsegs s (hsub s hs))
      (fun x hx => hline x (List.mem_cons_of_mem _ hx))
      (fun x hx => hne x (List.mem_cons_of_mem _ hx)) hrest harr hparseRest
    exact ⟨.line hread (hne l List.mem_cons_self) hparseLine hgo, hbytes,
      fun s hs => hsub s (hsub' s hs)⟩

/-- Header lines that are handed out have arrived, and none is read through `NULL`. -/
theorem arrives_of_readHeader (e : Ending) {headers : List Bytes} {round round' : HttpRound}
    {segs : List Bytes} {sock' : Socket} {rest : Bytes} (hsegs : ∀ s ∈ segs, s ≠ [])
    (hline : ∀ l ∈ headers, IsLine l) (hne : ∀ l ∈ headers, l ≠ [])
    (hstream : round.recvBuffer ++ segs.flatten ++ e.bytes = encLines (headers ++ [[]]) ++ rest)
    (h : ReadResponseHeader round (segments segs ++ e.sock) (headers ++ [[]])
      (some (none, round', sock'))) :
    (arrives (headers ++ [[]]) round.recvBuffer segs).isSome ∧ ∀ l ∈ headers, HeaderOk l := by
  induction headers generalizing round segs with
  | nil =>
    have hread := readLine_fetch e hsegs blank_isLine (hstream.trans
      (by rw [List.nil_append, encLines_cons, List.append_assoc]))
    cases hf : fetch round.recvBuffer segs with
    | some f => simp [arrives, hf]
    | none =>
      simp only [hf] at hread
      obtain ⟨err, r, sock, hread⟩ := hread
      rw [List.nil_append] at h
      generalize hlines : [([] : Bytes)] = lines at h
      cases h with
      | ended hok _ => cases hread.unique hok
      | line hok _ _ _ => cases hread.unique hok
  | cons l ls ih =>
    have hl := hline l List.mem_cons_self
    have hstream' := hstream.trans
      (by rw [List.cons_append, encLines_cons, List.append_assoc (l ++ CRLF)])
    have hread := readLine_fetch e hsegs hl hstream'
    rw [List.cons_append] at h ⊢
    generalize hlines : l :: (ls ++ [[]]) = lines at h
    cases h with
    | ended hok hblank =>
      obtain ⟨rfl, -⟩ := List.cons.inj hlines
      exact absurd hblank (hne _ List.mem_cons_self)
    | line hok hne' hparse hrest =>
      obtain ⟨-, rfl⟩ := List.cons.inj hlines
      cases hf : fetch round.recvBuffer segs with
      | none =>
        simp only [hf] at hread
        obtain ⟨err, r, sock, hread⟩ := hread
        cases hread.unique hok
      | some f =>
        obtain ⟨h', ss'⟩ := f
        simp only [hf] at hread
        cases hok.unique hread
        obtain ⟨-, hbytes, -, hsub⟩ := fetch_line hl hstream' hf
        have hkeeps := parseHeaderLine_keeps hparse
        have hok' := (parseHeaderLine_isSome _).mp (Option.isSome_iff_exists.mpr ⟨_, hparse⟩)
        have := ih (fun s hs => hsegs s (hsub s hs))
          (fun x hx => hline x (List.mem_cons_of_mem _ hx))
          (fun x hx => hne x (List.mem_cons_of_mem _ hx)) (by rw [hkeeps]; exact hbytes) hrest
        rw [hkeeps] at this
        refine ⟨by rw [arrives, hf]; exact this.1, List.forall_mem_cons.mpr ⟨hok', this.2⟩⟩

/-! ## The whole head -/

theorem ResponseHead.enc_eq (head : ResponseHead) :
    head.enc = head.status.enc ++ CRLF ++ encLines (head.headers ++ [[]]) := rfl

/-- What the status line says is put down in the round. -/
def HttpRound.withStatus (round : HttpRound) (s : StatusLine) : HttpRound :=
  { round with
    majorVersion := parseInt (some s.major)
    minorVersion := parseInt (some s.minor)
    status := parseInt (some s.code)
    statusMsg := s.msg
    lineBuffer := s.enc }

/-- A head that arrives is handed out line by line, and the round knows what it says. -/
theorem readHead_of_arrives (e : Ending) {head : ResponseHead} {round F : HttpRound}
    {segs ss : List Bytes} {h rest : Bytes} (hsegs : ∀ s ∈ segs, s ≠ [])
    (hstream : round.recvBuffer ++ segs.flatten ++ e.bytes = head.enc ++ rest)
    (harrives : arrives head.lines round.recvBuffer segs = some (h, ss))
    (hparse : (round.withStatus head.status).parseHeader head.headers = some F) :
    ReadStatusAndHeader round (segments segs ++ e.sock) head.lines (some (none,
      { F with lineBuffer := [], recvBuffer := h }, segments ss ++ e.sock)) ∧
    h ++ ss.flatten ++ e.bytes = rest ∧ ∀ s ∈ ss, s ∈ segs := by
  have hl := head.status.enc_isLine
  have hstream' := hstream.trans (by rw [head.enc_eq, List.append_assoc (_ ++ CRLF)])
  have hread := readLine_fetch e hsegs hl hstream'
  obtain ⟨⟨h', ss'⟩, hf, harr⟩ := Option.bind_eq_some_iff.mp harrives
  simp only [hf] at hread
  obtain ⟨-, hbytes, -, hsub⟩ := fetch_line hl hstream' hf
  have hstatus : HttpRound.parseStatusLine { round with
      lineBuffer := head.status.enc, recvBuffer := h'.drop (head.status.enc.length + 2) } = _ :=
    parseStatusLine_enc head.status rfl
  have hparse' := parseHeader_recv (round.withStatus head.status) head.headers
    (h'.drop (head.status.enc.length + 2))
  rw [hparse, Option.map_some] at hparse'
  obtain ⟨hgo, hrest, hsub'⟩ := readHeader_of_arrives e (fun s hs => hsegs s (hsub s hs))
    head.headers_line head.headers_ne hbytes harr hparse'
  exact ⟨.header hread hstatus hgo, hrest, fun s hs => hsub s (hsub' s hs)⟩

/-- A head that is handed out has arrived, and no header line of it is read through
`NULL`. -/
theorem arrives_of_readHead (e : Ending) {head : ResponseHead} {round round' : HttpRound}
    {segs : List Bytes} {sock' : Socket} {rest : Bytes} (hsegs : ∀ s ∈ segs, s ≠ [])
    (hstream : round.recvBuffer ++ segs.flatten ++ e.bytes = head.enc ++ rest)
    (h : ReadStatusAndHeader round (segments segs ++ e.sock) head.lines
      (some (none, round', sock'))) :
    (arrives head.lines round.recvBuffer segs).isSome ∧ ∀ l ∈ head.headers, HeaderOk l := by
  have hl := head.status.enc_isLine
  have hstream' := hstream.trans (by rw [head.enc_eq, List.append_assoc (_ ++ CRLF)])
  have hread := readLine_fetch e hsegs hl hstream'
  generalize hlines : head.lines = lines at h
  cases h with
  | header hok hstatus hrest =>
    obtain ⟨-, rfl⟩ := List.cons.inj hlines
    cases hf : fetch round.recvBuffer segs with
    | none =>
      simp only [hf] at hread
      obtain ⟨err, r, sock, hread⟩ := hread
      cases hread.unique hok
    | some f =>
      obtain ⟨h', ss'⟩ := f
      simp only [hf] at hread
      cases hok.unique hread
      obtain ⟨-, hbytes, -, hsub⟩ := fetch_line hl hstream' hf
      cases (parseStatusLine_enc head.status rfl).symm.trans hstatus
      have := arrives_of_readHeader e (fun s hs => hsegs s (hsub s hs)) head.headers_line
        head.headers_ne hbytes hrest
      rw [arrives, hf]
      exact this

/-- A head is handed out line by line, and the bytes behind it stay in
`m_sRecvBuffer` and on the socket, exactly when its lines arrive and no header line is
read through `NULL`. -/
theorem readHead_iff (head : ResponseHead) (round : HttpRound) (segs : List Bytes) (e : Ending)
    {rest : Bytes} (hsegs : ∀ s ∈ segs, s ≠ [])
    (hstream : round.recvBuffer ++ segs.flatten ++ e.bytes = head.enc ++ rest) :
    (∃ round' left, ReadStatusAndHeader round (segments segs ++ e.sock) head.lines
        (some (none, round', segments left ++ e.sock)) ∧
      round'.recvBuffer ++ left.flatten ++ e.bytes = rest) ↔
    (arrives head.lines round.recvBuffer segs).isSome ∧ ∀ l ∈ head.headers, HeaderOk l := by
  constructor
  · rintro ⟨round', left, hread, -⟩
    exact arrives_of_readHead e hsegs hstream hread
  · rintro ⟨harrives, hok⟩
    obtain ⟨⟨h, ss⟩, hsome⟩ := Option.isSome_iff_exists.mp harrives
    obtain ⟨F, hF⟩ := Option.isSome_iff_exists.mp
      ((parseHeader_isSome (round.withStatus head.status) _).mpr hok)
    obtain ⟨hread, hrest, -⟩ := readHead_of_arrives e hsegs hstream hsome hF
    exact ⟨_, ss, hread, hrest⟩

/-- The status line `HTTP/1.1 200 OK`. -/
def exStatus : StatusLine where
  major := bytes "1"
  minor := bytes "1"
  code := bytes "200"
  msg := bytes " OK"
  major_digits := by decide +kernel
  major_ne := by decide
  minor_digits := by decide +kernel
  minor_ne := by decide
  code_digits := by decide +kernel
  code_ne := by decide
  msg_stop := by decide
  msg_line := ⟨by decide, by decide⟩

def exHead : ResponseHead where
  status := exStatus
  headers := [bytes "Content-Length: 2"]
  headers_line := by
    intro l hl
    rw [List.mem_singleton.mp hl]
    exact ⟨by decide, by decide⟩
  headers_ne := by decide

/-- The head and the body arrive in one segment. -/
theorem readHead_exHead :
    ∃ round' left, ReadStatusAndHeader {} (segments [exHead.enc ++ bytes "ok"] ++ []) exHead.lines
        (some (none, round', segments left ++ [])) ∧
      round'.recvBuffer ++ left.flatten ++ [] = bytes "ok" :=
  (readHead_iff exHead {} [exHead.enc ++ bytes "ok"] .silent (by decide) (by decide)).mpr
    ⟨by decide, by decide⟩

/-- The CRLF of the blank line is cut in two: `readLine` looks for it in the byte that
comes last, and waits for more. -/
theorem readHead_cut :
    ([bytes "HTTP/1.1 200 OK\r\nContent-Length: 2\r\n\r", bytes "\n"] : List Bytes).flatten =
      exHead.enc ∧
    ¬ ∃ round' left, ReadStatusAndHeader {}
        (segments [bytes "HTTP/1.1 200 OK\r\nContent-Length: 2\r\n\r", bytes "\n"] ++
          Ending.silent.sock) exHead.lines
        (some (none, round', segments left ++ Ending.silent.sock)) ∧
      round'.recvBuffer ++ left.flatten ++ Ending.silent.bytes = [] := by
  refine ⟨by decide, ?_⟩
  rintro ⟨round', left, hread, -⟩
  have hstream : (({} : HttpRound).recvBuffer ++
      ([bytes "HTTP/1.1 200 OK\r\nContent-Length: 2\r\n\r", bytes "\n"] : List Bytes).flatten ++
      Ending.silent.bytes) = exHead.enc ++ [] := by decide
  have h := arrives_of_readHead .silent (by decide) hstream hread
  exact absurd h.1 (by decide)

end Dframework
