import Mathlib
import Dframework.Library.Stations
import Dframework.Net.Poll
import Dframework.Httpd.Exchange
import Dframework.Httpd.PollSenders

/-!
# The threads of the poll mode

The worker and the two senders have a poll set and a queue each. A thread looks at the clients of its
poll set from the last one to the first one and then moves the clients of its queue into the poll set.
A client goes to another thread through the queue of that thread. The worker puts a client into the
queue of a sender before it takes it out of its own poll set, and it takes it out for an error only: an
error page, a redirect and a 304 are answered with `DFW_OK`, and the client stays.

Results:
1. `move_station`: the threads are stations that hand clients to one another.
2. `exclusive_iff_no_status`: no client belongs to two threads exactly as long as no request is answered
   with a status alone.
3. `pass_clients`: what a thread looks at on its way through its poll set.
-/

namespace Dframework

open CLib Stations

namespace Poll

def getObject (p : Poll) (position : Int) : Option (Except Ret (Option ObjId)) :=
  if p.used = 0 then some (.error ⟨.error, "used is zero."⟩)
  else if position < 0 then some (.error ⟨.error, s!"position({position})<0"⟩)
  else if p.used ≤ position then
    some (.error ⟨.error, s!"used({p.used}) <= position({position})"⟩)
  else (cellAt p.ppsocks position.toNat).map .ok

def objects (p : Poll) : List ObjId :=
  p.entries.filterMap Prod.snd

end Poll

/-- The threads of the poll mode: `HttpdWorker`, `HttpdSendStream` and `HttpdSendLocalFile`. -/
inductive PollThread where
  | worker
  | stream
  | localFile
  deriving DecidableEq, Repr

instance : Fintype PollThread :=
  ⟨{.worker, .stream, .localFile}, fun i => by cases i <;> decide⟩

/-! ## What a look comes to -/

/-- What `se_checkLocalFile` meets: the file system is not ready, or it answers with `attr`, and nothing
is read in front of an empty name. -/
inductive FileCheck where
  | notReady (r : Ret)
  | getattr (machine : Machine) (req : FileRequest) (attr : Except Ret FileStat)
    (stands : (seCheckLocalFile machine req {} attr).isSome)

/-- What `se_checkLocalFile` answers. -/
def FileCheck.answer : FileCheck → Retval
  | .notReady r => some r
  | .getattr machine req attr stands => ((seCheckLocalFile machine req {} attr).get stands).1

/-- What a look of the worker at a client meets: `request` is what comes in the way up to
`se_checkLocalFile`. -/
structure WorkerLook where
  pollErr : Bool := false
  pollIn : Bool := true
  request : Retval := none
  check : FileCheck
  makeStream : Retval := none
  appendStream : Retval := none
  appendLocalFile : Retval := none

/-- The request is answered with a status alone: there is no such file, it is a directory, it is no
regular file, or it has not been modified. -/
def FileCheck.IsStatus : FileCheck → Prop
  | .notReady r => r.value = .ok
  | .getattr _ _ (.error r) _ => r.value = .eNoent ∨ r.value = .ok
  | .getattr machine req (.ok st) _ => st.isDir ∨ ¬ st.isReg ∨ req.notModified machine st.mtime

/-- The client is put into the queue of the stream sender with such an answer. -/
structure WorkerLook.SendsStatus (l : WorkerLook) : Prop where
  pollErr : l.pollErr = false
  pollIn : l.pollIn = true
  request : l.request = none
  check : l.check.IsStatus
  makeStream : l.makeStream = none
  appendStream : l.appendStream = none

namespace HttpdWorker

/-- `HttpdWorker::pollin`: the answer, and the sender that has the client in its queue now. -/
def pollin (l : WorkerLook) : Retval × Option PollThread :=
  match l.request with
  | some r => (some r, none)
  | none =>
    match l.check.answer with
    | some r =>
      match l.makeStream with
      | some r2 => (some r2, none)
      | none =>
        match l.appendStream with
        | some r2 => (some r2, none)
        | none => (some r, some .stream)
    | none =>
      match l.appendLocalFile with
      | some r => (some r, none)
      | none => (none, some .localFile)

/-- A look of `HttpdWorker::readPackets`. Where `pollin` answers `NULL` it has taken the client out. -/
def look (l : WorkerLook) : Fate PollThread :=
  if l.pollErr then .drop
  else if !l.pollIn then .stay
  else
    match pollin l with
    | (none, dest) => dest.elim .stay .handOver
    | (some r, dest) => if r.value = .ok then dest.elim .stay .copy else dest.elim .drop .handOver

end HttpdWorker

/-- What a look of a sender at a client comes to: how it leaves, if it does, whether the response keeps
the connection alive, and what `HttpdWorker::appendClient` answers. -/
structure SenderResult where
  leave : Option Leave := none
  keepAlive : Bool := false
  appendClient : Retval := none

/-- The end of a look of `HttpdSendStream::sendPackets` and of `HttpdSendLocalFile::sendPackets`. -/
def HttpdSender.look (l : SenderResult) : Fate PollThread :=
  match l.leave with
  | none => .stay
  | some .failed => .drop
  | some .complete => if l.keepAlive && l.appendClient.isNone then .handBack .worker else .drop

/-! ## The threads -/

/-- What a thread meets: whether `poll` reports something, what the look comes to, and the allocations
of `Poll::append`. -/
structure PollMeets where
  ready : Bool := true
  fate : Fate PollThread := .stay
  heap : Heap := []

/-- A thread of the poll mode: its poll set, its queue, and where it stands. -/
structure PollState where
  poll : Poll
  queue : List ObjId
  place : Place PollThread ObjId

namespace PollState

/-- `m_poll->remove(k)`. -/
def removeAt (s : PollState) (k : Nat) (place : Place PollThread ObjId) : Option PollState :=
  (s.poll.remove k).map fun x => { s with poll := x.2, place }

def look (s : PollState) (k : Nat) (client : ObjId) :
    Fate PollThread → Option (PollState × Option (PollThread × ObjId))
  | .stay => some ({ s with place := .looking k }, none)
  | .drop => (s.removeAt k (.looking k)).map fun s => (s, none)
  | .handOver dest => some ({ s with place := .leaving k }, some (dest, client))
  | .handBack dest => (s.removeAt k (.returning dest client k)).map fun s => (s, none)
  | .copy dest => some ({ s with place := .looking k }, some (dest, client))

/-- The next thing a thread does, and the client it puts into the queue of another one: `readPackets` or
`sendPackets`, and then the queue. -/
def move (fd : ObjId → Int) (s : PollState) (m : PollMeets) :
    Option (PollState × Option (PollThread × ObjId)) :=
  match s.place with
  | .idle => some ({ s with place := if m.ready then .looking s.poll.used else .loading }, none)
  | .looking 0 => some ({ s with place := .loading }, none)
  | .looking (k + 1) => do
    match ← s.poll.getObject k with
    | .error _ => (s.removeAt k (.looking k)).map fun s => (s, none)
    | .ok obj => s.look k (← obj) m.fate
  | .leaving k => (s.removeAt k (.looking k)).map fun s => (s, none)
  | .returning dest client k => some ({ s with place := .looking k }, some (dest, client))
  | .loading =>
    match s.queue with
    | [] => some ({ s with place := .idle }, none)
    | client :: queue => some ({ s with queue, place := .holding client }, none)
  | .holding client => do
    let (_, _, poll, _) ← s.poll.append (fd client) (some client) m.heap
    some ({ s with poll, place := .loading }, none)
  | .stopped => some (s, none)

/-- Whether `Poll::append` finds room for the client in the hand. -/
def room (fd : ObjId → Int) (s : PollState) (heap : Heap) : Bool :=
  match s.place with
  | .holding client => (s.poll.append (fd client) (some client) heap).all (·.1.isNone)
  | _ => true

/-- `m_bLive` is no longer set, where the thread asks for it. -/
def stop (s : PollState) : PollState :=
  match s.place with
  | .idle | .looking (_ + 1) | .loading => { s with place := .stopped }
  | _ => s

def station (s : PollState) : Station PollThread ObjId :=
  ⟨s.poll.objects, s.queue, s.place⟩

def looksAt (s : PollState) : List ObjId :=
  match s.place with
  | .looking (k + 1) => s.poll.objects[k]?.toList
  | _ => []

/-- The thread is on its way through its poll set. -/
def inPass (s : PollState) : Bool :=
  match s.place with
  | .looking _ | .leaving _ | .returning _ _ _ => true
  | _ => false

def input (fd : ObjId → Int) (s : PollState) (m : PollMeets) : Input PollThread :=
  ⟨m.ready, m.fate, s.room fd m.heap⟩

/-- The poll set is in order, and each entry has a client. -/
structure Ok (s : PollState) : Prop where
  poll : s.poll.Ok
  client : ∀ x ∈ s.poll.entries, x.2 ≠ none

end PollState

/-- `se_checkLocalFile` answers a status with `DFW_OK`. -/
theorem FileCheck.answer_ok_iff (c : FileCheck) :
    (∃ r, c.answer = some r ∧ r.value = .ok) ↔ c.IsStatus := by
  rcases c with r | ⟨machine, req, r | st, stands⟩
  · simp [answer, IsStatus]
  · by_cases h : r.value = .eNoent
    · simp [answer, IsStatus, seCheckLocalFile, h]
    · simp [answer, IsStatus, seCheckLocalFile, h]
  · by_cases hdir : st.isDir
    · simp [answer, IsStatus, seCheckLocalFile, hdir, retvalMsg]
    by_cases hreg : st.isReg
    · by_cases hmod : req.notModified machine st.mtime <;>
        simp [answer, IsStatus, seCheckLocalFile, hdir, hreg, hmod, retvalMsg]
    · simp [answer, IsStatus, seCheckLocalFile, hdir, hreg, retvalMsg]

namespace HttpdWorker

theorem pollin_some (l : WorkerLook) {r : Ret} {dest : PollThread}
    (h : pollin l = (some r, some dest)) :
    l.request = none ∧ l.check.answer = some r ∧ l.makeStream = none ∧ l.appendStream = none ∧
      dest = .stream := by
  rw [pollin] at h
  split at h
  · cases h
  next hrequest =>
    split at h
    next r' hcheck =>
      split at h
      · cases h
      next hmake =>
        split at h
        · cases h
        next happend =>
          cases h
          exact ⟨hrequest, hcheck, hmake, happend, rfl⟩
    · split at h <;> cases h

/-- A client is copied with a status. -/
theorem look_eq_copy_iff (l : WorkerLook) (dest : PollThread) :
    look l = .copy dest ↔ l.SendsStatus ∧ dest = .stream := by
  constructor
  · intro h
    rw [look] at h
    split_ifs at h with herr hin
    rcases hpoll : pollin l with ⟨ret, d⟩
    rw [hpoll] at h
    rcases ret with _ | r
    · cases d <;> cases h
    · simp only at h
      split_ifs at h with hvalue
      · rcases d with _ | d
        · cases h
        · obtain ⟨hrequest, hcheck, hmake, happend, rfl⟩ := pollin_some l hpoll
          cases h
          exact ⟨⟨by simpa using herr, by simpa using hin, hrequest,
            l.check.answer_ok_iff.mp ⟨r, hcheck, hvalue⟩, hmake, happend⟩, rfl⟩
      · cases d <;> cases h
  · rintro ⟨⟨herr, hin, hrequest, hstatus, hmake, happend⟩, rfl⟩
    obtain ⟨r, hcheck, hvalue⟩ := l.check.answer_ok_iff.mpr hstatus
    have hpoll : pollin l = (some r, some .stream) := by
      rw [pollin, hrequest]
      simp only [hcheck, hmake, happend]
    rw [look, if_neg (by rw [herr]; decide), if_neg (by rw [hin]; decide), hpoll]
    simp [hvalue]

end HttpdWorker

theorem HttpdSender.look_ne_copy (l : SenderResult) (dest : PollThread) :
    HttpdSender.look l ≠ .copy dest := by
  rw [HttpdSender.look]
  split
  · exact nofun
  · exact nofun
  · split <;> exact nofun

/-! ## The poll set -/

namespace Poll

variable {p q : Poll} {k : Nat}

theorem map_objects (h : ∀ x ∈ p.entries, x.2 ≠ none) :
    p.entries.map Prod.snd = p.objects.map some := by
  rw [objects]
  generalize p.entries = l at h
  induction l with
  | nil => rfl
  | cons x l ih =>
    obtain ⟨hx, hl⟩ := List.forall_mem_cons.mp h
    obtain ⟨o, ho⟩ := Option.ne_none_iff_exists'.mp hx
    rw [List.map_cons, List.filterMap_cons_some ho, List.map_cons, ho, ih hl]

theorem getElem?_entries (p : Poll) (k : Nat) :
    p.entries[k]? = if k < p.used then some (p.pair k) else none := by
  rw [entries, List.getElem?_map]
  split_ifs with hk
  · rw [List.getElem?_range hk]
    rfl
  · rw [List.getElem?_eq_none (by simpa using hk)]
    rfl

theorem length_objects (h : ∀ x ∈ p.entries, x.2 ≠ none) : p.objects.length = p.used := by
  have hlen := congrArg List.length (map_objects h)
  rw [List.length_map, List.length_map, entries, List.length_map, List.length_range] at hlen
  exact hlen.symm

theorem map_swapRemove {α β : Type} (f : α → β) (l : List α) (k : Nat) :
    swapRemove (l.map f) k = (swapRemove l k).map f := by
  obtain rfl | ⟨l, b, rfl⟩ := List.eq_nil_or_concat' l
  · rfl
  · rw [List.map_append, List.map_singleton, swapRemove_concat, swapRemove_concat, List.length_map]
    split_ifs
    · rw [List.map_set]
    · rw [List.map_append, List.map_singleton]

theorem Removed.entries_eq {out : Option ObjId} (h : Removed p k out q) (hk : k < p.used) :
    q.entries = swapRemove p.entries k := by
  have hall : p.entries = (List.range q.used).map p.pair ++ [p.pair q.used] := by
    rw [entries, ← h.used_eq, List.range_succ, List.map_append]
    rfl
  have hle : k ≤ q.used := by
    have hused := h.used_eq
    omega
  rw [hall, swapRemove_concat, List.length_map, List.length_range, if_pos hle]
  refine List.ext_getElem? fun j => ?_
  rw [getElem?_entries, List.getElem?_set, List.length_map, List.length_range, List.getElem?_map]
  by_cases hj : j < q.used
  · rw [if_pos hj, h.pair_eq j hj]
    by_cases hkj : k = j
    · rw [if_pos hkj.symm, if_pos hkj, if_pos (hkj ▸ hj)]
    · rw [if_neg (Ne.symm hkj), if_neg hkj, List.getElem?_range hj]
      rfl
  · rw [if_neg hj, List.getElem?_eq_none (by simpa using hj)]
    split_ifs with hkj hlt
    · omega
    · rfl
    · rfl

/-- A client that is taken out. -/
theorem remove_objects (h : p.Ok) (hsome : ∀ x ∈ p.entries, x.2 ≠ none) (k : Nat) :
    ∃ out q, p.remove k = some (out, q) ∧ q.Ok ∧ (∀ x ∈ q.entries, x.2 ≠ none) ∧
      q.objects = swapRemove p.objects k := by
  by_cases hk : k < p.used
  · obtain ⟨out, q, hrem, hq⟩ := remove_spec h hk
    have hsub : ∀ x ∈ q.entries, x.2 ≠ none := fun x hx =>
      hsome x ((hq.perm hk).mem_iff.mpr (List.mem_cons_of_mem _ hx))
    refine ⟨out, q, hrem, hq.ok, hsub, ?_⟩
    refine List.map_injective_iff.mpr (Option.some_injective _) ?_
    rw [← map_objects hsub, hq.entries_eq hk, ← map_swapRemove, ← map_swapRemove, map_objects hsome]
  · refine ⟨none, p, remove_outside (by omega), h, hsome, ?_⟩
    rw [swapRemove_of_le]
    rw [length_objects hsome]
    exact Nat.not_lt.mp hk

theorem append_objects (h : p.Ok) (hsome : ∀ x ∈ p.entries, x.2 ≠ none) (fd : Int) (client : ObjId)
    (heap : Heap) :
    ∃ ret out q heap', p.append fd (some client) heap = some (ret, out, q, heap') ∧ q.Ok ∧
      (∀ x ∈ q.entries, x.2 ≠ none) ∧
      q.objects = if ret = none then p.objects ++ [client] else p.objects := by
  obtain ⟨ret, out, q, heap', happ, hq⟩ := append_spec h fd (some client) heap
  refine ⟨ret, out, q, heap', happ, hq.ok, ?_⟩
  split_ifs with hret
  · obtain ⟨-, hput⟩ := hq.put hret
    rw [objects, hput, List.filterMap_append]
    refine ⟨fun x hx => ?_, rfl⟩
    rcases List.mem_append.mp hx with hx | hx
    · exact hsome x hx
    · rw [List.mem_singleton.mp hx]
      exact Option.some_ne_none client
  · rw [hq.same hret]
    exact ⟨hsome, rfl⟩

theorem getObject_objects (h : p.Ok) (hsome : ∀ x ∈ p.entries, x.2 ≠ none) (k : Nat) :
    (∃ r, p.getObject k = some (.error r) ∧ p.objects[k]? = none) ∨
      ∃ client, p.getObject k = some (.ok (some client)) ∧ p.objects[k]? = some client := by
  have hget := congrArg (·[k]?) (map_objects hsome)
  simp only [List.getElem?_map, getElem?_entries] at hget
  rw [getObject]
  by_cases hk : k < p.used
  · rw [if_neg (by omega), if_neg (by omega), if_neg (by omega), Int.toNat_natCast]
    obtain ⟨x, o, -, ho, hpair⟩ := exists_cells h (hk.trans_le h.used_le)
    rw [if_pos hk, Option.map_some, hpair] at hget
    rcases hobj : p.objects[k]? with _ | client
    · rw [hobj] at hget
      cases hget
    · rw [hobj, Option.map_some] at hget
      have hclient : o = some client := Option.some.inj hget
      rw [ho, hclient]
      exact .inr ⟨client, rfl, rfl⟩
  · have hnone : p.objects[k]? = none := by
      rw [if_neg hk, Option.map_none] at hget
      exact Option.map_eq_none_iff.mp hget.symm
    rw [hnone]
    split_ifs
    · exact .inl ⟨_, rfl, rfl⟩
    · exact .inl ⟨_, rfl, rfl⟩
    · exact .inl ⟨_, rfl, rfl⟩
    · omega

end Poll

/-! ## The threads are stations -/

namespace PollState

variable {s : PollState}

theorem removeAt_station (h : s.Ok) (k : Nat) (place : Place PollThread ObjId) :
    ∃ s', s.removeAt k place = some s' ∧ s'.Ok ∧
      s'.station = { s.station with shelf := swapRemove s.station.shelf k, place } := by
  obtain ⟨out, q, hrem, hq, hsome, hobjects⟩ := Poll.remove_objects h.poll h.client k
  refine ⟨{ s with poll := q, place }, by rw [removeAt, hrem]; rfl, ⟨hq, hsome⟩, ?_⟩
  rw [station, hobjects]
  rfl

theorem look_station (h : s.Ok) (k : Nat) (client : ObjId) (fate : Fate PollThread) :
    ∃ s' p, s.look k client fate = some (s', p) ∧ s'.Ok ∧
      (s'.station, p) = s.station.look k client fate := by
  cases fate with
  | stay => exact ⟨_, _, rfl, ⟨h.poll, h.client⟩, rfl⟩
  | drop =>
    obtain ⟨s', hrem, hs', hstation⟩ := removeAt_station h k (.looking k)
    exact ⟨s', none, by rw [look, hrem]; rfl, hs', by rw [hstation]; rfl⟩
  | handOver dest => exact ⟨_, _, rfl, ⟨h.poll, h.client⟩, rfl⟩
  | handBack dest =>
    obtain ⟨s', hrem, hs', hstation⟩ := removeAt_station h k (.returning dest client k)
    exact ⟨s', none, by rw [look, hrem]; rfl, hs', by rw [hstation]; rfl⟩
  | copy dest => exact ⟨_, _, rfl, ⟨h.poll, h.client⟩, rfl⟩

/-- A thread does what its station does. -/
theorem move_station (fd : ObjId → Int) (h : s.Ok) (m : PollMeets) :
    ∃ s' p, s.move fd m = some (s', p) ∧ s'.Ok ∧
      (s'.station, p) = s.station.move (s.input fd m) := by
  have hsame : ∀ place, ({ s with place } : PollState).Ok := fun _ => ⟨h.poll, h.client⟩
  rcases hplace : s.place with _ | k | k | ⟨dest, client, k⟩ | _ | client | _
  case idle =>
    have hst : s.station.place = .idle := hplace
    have hlen : s.station.shelf.length = s.poll.used := Poll.length_objects h.client
    rw [move, hplace]
    refine ⟨_, _, rfl, hsame _, ?_⟩
    rw [Station.move, hst]
    simp only [hlen]
    rfl
  case looking =>
    rcases k with _ | k
    · have hst : s.station.place = .looking 0 := hplace
      rw [move, hplace]
      refine ⟨_, _, rfl, hsame _, ?_⟩
      rw [Station.move, hst]
      rfl
    · have hst : s.station.place = .looking (k + 1) := hplace
      rw [move, hplace]
      rcases Poll.getObject_objects h.poll h.client k with ⟨r, hget, hnone⟩ | ⟨client, hget, hsome⟩
      · obtain ⟨s', hrem, hs', hstation⟩ := removeAt_station h k (.looking k)
        refine ⟨s', none, ?_, hs', ?_⟩
        · simp only [hget, Option.bind_eq_bind, Option.bind_some, hrem]
          rfl
        · have hshelf : s.station.shelf[k]? = none := hnone
          have hlen : s.station.shelf.length ≤ k := List.getElem?_eq_none_iff.mp hshelf
          rw [Station.move, hst]
          simp only [hshelf]
          rw [hstation, swapRemove_of_le hlen]
      · obtain ⟨s', p, hlook, hs', hstation⟩ := look_station h k client m.fate
        refine ⟨s', p, ?_, hs', ?_⟩
        · simpa only [hget, Option.bind_eq_bind, Option.bind_some] using hlook
        · have hshelf : s.station.shelf[k]? = some client := hsome
          rw [Station.move, hst]
          simp only [hshelf]
          exact hstation
  case leaving =>
    have hst : s.station.place = .leaving k := hplace
    obtain ⟨s', hrem, hs', hstation⟩ := removeAt_station h k (.looking k)
    rw [move, hplace]
    refine ⟨s', none, by simp only [hrem]; rfl, hs', ?_⟩
    rw [Station.move, hst, hstation]
  case returning =>
    have hst : s.station.place = .returning dest client k := hplace
    rw [move, hplace]
    refine ⟨_, _, rfl, hsame _, ?_⟩
    rw [Station.move, hst]
    rfl
  case loading =>
    have hst : s.station.place = .loading := hplace
    rw [move, hplace]
    rcases hqueue : s.queue with _ | ⟨client, queue⟩
    · have hinbox : s.station.inbox = [] := hqueue
      refine ⟨_, _, rfl, ⟨h.poll, h.client⟩, ?_⟩
      rw [Station.move, hst]
      simp only [hinbox]
      rw [station, ← hqueue]
      rfl
    · have hinbox : s.station.inbox = client :: queue := hqueue
      refine ⟨_, _, rfl, ⟨h.poll, h.client⟩, ?_⟩
      rw [Station.move, hst]
      simp only [hinbox]
      rfl
  case holding =>
    have hst : s.station.place = .holding client := hplace
    obtain ⟨ret, out, q, heap', happ, hq, hsome, hobjects⟩ :=
      Poll.append_objects h.poll h.client (fd client) client m.heap
    rw [move, hplace]
    refine ⟨_, _, by simp only [happ]; rfl, ⟨hq, hsome⟩, ?_⟩
    have hroom : (s.input fd m).room = ret.isNone := by
      rw [input, room, hplace]
      simp only [happ, Option.all_some]
    rw [Station.move, hst]
    simp only [hroom]
    rw [station, hobjects]
    cases ret <;> rfl
  case stopped =>
    have hst : s.station.place = .stopped := hplace
    rw [move, hplace]
    refine ⟨_, _, rfl, h, ?_⟩
    rw [Station.move, hst]

theorem stop_station (s : PollState) : s.stop.station = s.station.stop := by
  have hplace : s.station.place = s.place := rfl
  rcases h : s.place with _ | k | k | ⟨dest, client, k⟩ | _ | client | _
  case looking =>
    cases k <;> simp only [stop, Station.stop, hplace, h]
    rfl
  all_goals simp only [stop, Station.stop, hplace, h]
  all_goals rfl

theorem stop_ok (h : s.Ok) : s.stop.Ok := by
  rw [stop]
  split
  · exact ⟨h.poll, h.client⟩
  · exact ⟨h.poll, h.client⟩
  · exact ⟨h.poll, h.client⟩
  · exact h

end PollState

/-! ## Runs -/

namespace PollMode

/-- The threads of a server. -/
abbrev PollNet := PollThread → PollState

/-- The events a thread waits for: `POLLERR|POLLNVAL|POLLHUP` and those of its direction. -/
def pollEvents : PollThread → Nat
  | .worker => 8 ||| 32 ||| 16 ||| 1 ||| 2
  | .stream => 8 ||| 32 ||| 16 ||| 4
  | .localFile => 8 ||| 32 ||| 16 ||| 4

/-- `HttpdService::ready` for `SERVER_TYPE_POLL`. -/
def ready : PollNet := fun i => ⟨.new (pollEvents i), [], .idle⟩

/-- What happens: `HttpdAcceptor::onAccept` with a new client, a thread does the next thing, or it is
stopped. -/
inductive PollEvent where
  | accept (client : ObjId)
  | worker (ready : Bool) (l : WorkerLook) (heap : Heap)
  | stream (ready : Bool) (l : SenderResult) (heap : Heap)
  | localFile (ready : Bool) (l : SenderResult) (heap : Heap)
  | stop (i : PollThread)

def push (net : PollNet) : Option (PollThread × ObjId) → PollNet
  | none => net
  | some (dest, client) =>
    Function.update net dest { net dest with queue := (net dest).queue ++ [client] }

def act (fd : ObjId → Int) (net : PollNet) (i : PollThread) (m : PollMeets) : Option PollNet :=
  ((net i).move fd m).map fun x => push (Function.update net i x.1) x.2

def step (fd : ObjId → Int) (net : PollNet) : PollEvent → Option PollNet
  | .accept client => some (push net (some (.worker, client)))
  | .worker ready l heap => act fd net .worker ⟨ready, HttpdWorker.look l, heap⟩
  | .stream ready l heap => act fd net .stream ⟨ready, HttpdSender.look l, heap⟩
  | .localFile ready l heap => act fd net .localFile ⟨ready, HttpdSender.look l, heap⟩
  | .stop i => some (Function.update net i (net i).stop)

def run (fd : ObjId → Int) : PollNet → List PollEvent → Option PollNet
  | net, [] => some net
  | net, e :: events => (step fd net e).bind fun net => run fd net events

def accepted (events : List PollEvent) : List ObjId :=
  events.filterMap fun
    | .accept client => some client
    | _ => none

def stations (net : PollNet) : Net PollThread ObjId :=
  fun i => (net i).station

def PollEvent.event (fd : ObjId → Int) (net : PollNet) : PollEvent → Stations.Event PollThread ObjId
  | .accept client => .arrive .worker client
  | .worker ready l heap => .act .worker ((net .worker).input fd ⟨ready, HttpdWorker.look l, heap⟩)
  | .stream ready l heap => .act .stream ((net .stream).input fd ⟨ready, HttpdSender.look l, heap⟩)
  | .localFile ready l heap =>
    .act .localFile ((net .localFile).input fd ⟨ready, HttpdSender.look l, heap⟩)
  | .stop i => .stop i

def trace (fd : ObjId → Int) : PollNet → List PollEvent → List (Stations.Event PollThread ObjId)
  | _, [] => []
  | net, e :: events => e.event fd net :: (step fd net e).elim [] fun net => trace fd net events

def Ok (net : PollNet) : Prop :=
  ∀ i, (net i).Ok

variable {fd : ObjId → Int} {net net' : PollNet} {e : PollEvent} {events before after : List PollEvent}

theorem run_cons (fd : ObjId → Int) (net : PollNet) (e : PollEvent) (events : List PollEvent) :
    run fd net (e :: events) = (step fd net e).bind fun net => run fd net events := rfl

theorem trace_cons (fd : ObjId → Int) (net : PollNet) (e : PollEvent) (events : List PollEvent) :
    trace fd net (e :: events) =
      e.event fd net :: (step fd net e).elim [] fun net => trace fd net events := rfl

theorem ready_ok : Ok ready :=
  fun _ => ⟨Poll.new_ok _, fun x hx => by cases hx⟩

theorem stations_update (net : PollNet) (i : PollThread) (s : PollState) :
    stations (Function.update net i s) = Function.update (stations net) i s.station := by
  funext j
  by_cases h : j = i
  · subst h
    rw [stations, Function.update_self, Function.update_self]
  · rw [stations, Function.update_of_ne h, Function.update_of_ne h]
    rfl

theorem stations_push (net : PollNet) (p : Option (PollThread × ObjId)) :
    stations (push net p) = post (stations net) p := by
  rcases p with _ | ⟨dest, client⟩
  · rfl
  · rw [push, stations_update]
    rfl

theorem Ok.update (h : Ok net) {i : PollThread} {s : PollState} (hs : s.Ok) :
    Ok (Function.update net i s) := by
  intro j
  by_cases hj : j = i
  · subst hj
    rwa [Function.update_self]
  · rw [Function.update_of_ne hj]
    exact h j

theorem Ok.push (h : Ok net) (p : Option (PollThread × ObjId)) : Ok (push net p) := by
  rcases p with _ | ⟨dest, client⟩
  · exact h
  · exact h.update ⟨(h dest).poll, (h dest).client⟩

theorem act_stations (h : Ok net) (i : PollThread) (m : PollMeets) :
    ∃ net', act fd net i m = some net' ∧ Ok net' ∧
      stations net' = Stations.step (stations net) (.act i ((net i).input fd m)) := by
  obtain ⟨s, p, hmove, hs, hstation⟩ := PollState.move_station fd (h i) m
  refine ⟨PollMode.push (Function.update net i s) p, by rw [act, hmove]; rfl, (h.update hs).push p, ?_⟩
  have hmove' : (s.station, p) = (stations net i).move ((net i).input fd m) := hstation
  rw [stations_push, stations_update, Stations.step, ← hmove']

theorem step_stations (h : Ok net) (e : PollEvent) :
    ∃ net', step fd net e = some net' ∧ Ok net' ∧
      stations net' = Stations.step (stations net) (e.event fd net) := by
  cases e with
  | accept client => exact ⟨_, rfl, h.push _, stations_push net _⟩
  | worker ready l heap => exact act_stations h .worker _
  | stream ready l heap => exact act_stations h .stream _
  | localFile ready l heap => exact act_stations h .localFile _
  | stop i =>
    refine ⟨_, rfl, h.update (PollState.stop_ok (h i)), ?_⟩
    rw [stations_update, PollState.stop_station]
    rfl

/-- Every run goes through, and it is one of the stations. -/
theorem run_stations (h : Ok net) (events : List PollEvent) :
    ∃ net', run fd net events = some net' ∧ Ok net' ∧
      stations net' = Stations.run (stations net) (trace fd net events) := by
  induction events generalizing net with
  | nil => exact ⟨net, rfl, h, rfl⟩
  | cons e events ih =>
    obtain ⟨net₁, hstep, h₁, hstations⟩ := step_stations h e
    obtain ⟨net', hrun, h', hrest⟩ := ih h₁
    refine ⟨net', by rw [run_cons, hstep]; exact hrun, h', ?_⟩
    rw [hrest, hstations, trace_cons, hstep]
    rfl

/-- What a run comes to. -/
theorem run_getD (h : Ok net) (events : List PollEvent) :
    run fd net events = some ((run fd net events).getD net) := by
  obtain ⟨net', hrun, -⟩ := run_stations h events
  rw [hrun, Option.getD_some]

theorem run_ok (h : Ok net) (events : List PollEvent) : Ok ((run fd net events).getD net) := by
  obtain ⟨net', hrun, h', -⟩ := run_stations h events
  rwa [hrun, Option.getD_some]

theorem step_total (h : Ok net) (e : PollEvent) : ∃ net', step fd net e = some net' ∧ Ok net' :=
  let ⟨net', hstep, hok, _⟩ := step_stations h e
  ⟨net', hstep, hok⟩

theorem trace_append (h : Ok net) (hrun : run fd net before = some net') (after : List PollEvent) :
    trace fd net (before ++ after) = trace fd net before ++ trace fd net' after := by
  induction before generalizing net with
  | nil =>
    cases hrun
    rfl
  | cons e before ih =>
    obtain ⟨net₁, hstep, h₁⟩ := step_total h e
    rw [run_cons, hstep] at hrun
    rw [List.cons_append, trace_cons, trace_cons, hstep]
    exact congrArg _ (ih h₁ hrun)

theorem length_trace (h : Ok net) (events : List PollEvent) :
    (trace fd net events).length = events.length := by
  induction events generalizing net with
  | nil => rfl
  | cons e events ih =>
    obtain ⟨net₁, hstep, h₁⟩ := step_total h e
    rw [trace_cons, hstep]
    exact congrArg (· + 1) (ih h₁)

/-- A part of the events of the stations is that of a part of the run. -/
theorem trace_split (h : Ok net) {b a : List (Stations.Event PollThread ObjId)}
    (hsplit : trace fd net events = b ++ a) :
    ∃ before after, events = before ++ after ∧ trace fd net before = b := by
  refine ⟨events.take b.length, events.drop b.length, (List.take_append_drop _ _).symm, ?_⟩
  obtain ⟨net', hrun, -⟩ := run_stations h (events.take b.length)
  have hall := trace_append h hrun (events.drop b.length)
  rw [List.take_append_drop, hsplit] at hall
  have hle : b.length ≤ events.length := by
    have hlen := congrArg List.length hsplit
    rw [length_trace h, List.length_append] at hlen
    omega
  have hlen : (trace fd net (events.take b.length)).length = b.length := by
    rw [length_trace h, List.length_take, Nat.min_eq_left hle]
  exact (List.append_inj_left hall hlen.symm).symm

theorem arrivals_trace (h : Ok net) (events : List PollEvent) :
    arrivals (trace fd net events) = ↑(accepted events) := by
  induction events generalizing net with
  | nil => rfl
  | cons e events ih =>
    obtain ⟨net₁, hstep, h₁⟩ := step_total h e
    have hrest := ih h₁
    rw [arrivals] at hrest ⊢
    rw [trace_cons, hstep, List.map_cons, List.sum_cons]
    show (e.event fd net).arrived + ((trace fd net₁ events).map Stations.Event.arrived).sum = _
    rw [hrest]
    cases e with
    | accept client => exact Multiset.singleton_add client _
    | worker => exact zero_add _
    | stream => exact zero_add _
    | localFile => exact zero_add _
    | stop => exact zero_add _

/-! ## To whom a client belongs -/

/-- The worker looks at a client of its poll set. -/
def WorkerLooks (net : PollNet) : Prop :=
  ∃ k client, (net .worker).place = .looking (k + 1) ∧ (net .worker).poll.objects[k]? = some client

/-- In the run the worker looks at a client whose request is answered with a status alone. -/
def StatusAnswered (fd : ObjId → Int) (net : PollNet) (events : List PollEvent) : Prop :=
  ∃ before ok l heap after net', events = before ++ .worker ok l heap :: after ∧
    run fd net before = some net' ∧ WorkerLooks net' ∧ l.SendsStatus

theorem copies_iff : (e.event fd net).Copies (stations net) ↔
    ∃ ok l heap, e = .worker ok l heap ∧ WorkerLooks net ∧ l.SendsStatus := by
  constructor
  · intro h
    cases e with
    | accept client => exact absurd h not_false
    | worker ok l heap =>
      obtain ⟨client, k, dest, hplace, hget, hfate⟩ := h
      exact ⟨ok, l, heap, rfl, ⟨k, client, hplace, hget⟩,
        ((HttpdWorker.look_eq_copy_iff l dest).mp hfate).1⟩
    | stream ok l heap =>
      obtain ⟨client, k, dest, hplace, hget, hfate⟩ := h
      exact absurd hfate (HttpdSender.look_ne_copy l dest)
    | localFile ok l heap =>
      obtain ⟨client, k, dest, hplace, hget, hfate⟩ := h
      exact absurd hfate (HttpdSender.look_ne_copy l dest)
    | stop i => exact absurd h not_false
  · rintro ⟨ok, l, heap, rfl, ⟨k, client, hplace, hget⟩, hsends⟩
    exact ⟨client, k, .stream, hplace, hget, (HttpdWorker.look_eq_copy_iff l .stream).mpr ⟨hsends, rfl⟩⟩

theorem runCopies_iff (h : Ok net) :
    RunCopies (stations net) (trace fd net events) ↔ StatusAnswered fd net events := by
  constructor
  · rintro ⟨b, e', a, hsplit, hcopies⟩
    obtain ⟨before, after, rfl, hbefore⟩ := trace_split h hsplit
    obtain ⟨net', hrun, hok, hstations⟩ := run_stations h before
    rw [trace_append h hrun, hbefore] at hsplit
    have hrest := List.append_cancel_left hsplit
    rw [← hbefore, ← hstations] at hcopies
    rcases after with _ | ⟨e, after⟩
    · cases hrest
    rw [trace_cons, List.cons.injEq] at hrest
    rw [← hrest.1] at hcopies
    obtain ⟨ok, l, heap, rfl, hlooks, hsends⟩ := copies_iff.mp hcopies
    exact ⟨before, ok, l, heap, after, net', rfl, hrun, hlooks, hsends⟩
  · rintro ⟨before, ok, l, heap, after, net', rfl, hrun, hlooks, hsends⟩
    obtain ⟨net₁, hrun₁, hok, hstations⟩ := run_stations h before
    obtain rfl : net₁ = net' := Option.some.inj (hrun₁.symm.trans hrun)
    refine ⟨trace fd net before, _, _, by rw [trace_append h hrun, trace_cons], ?_⟩
    rw [← hstations]
    exact copies_iff.mpr ⟨ok, l, heap, rfl, hlooks, hsends⟩

theorem owned_ready : owned (stations ready) = 0 := by
  decide

/-- In every run from the start of a server, whatever its threads do in between, a client belongs to one
thread only, exactly as long as no request is answered with a status alone. A client that has been put
into a queue belongs to the thread of the queue, also while the worker has yet to take it out. -/
theorem exclusive_iff_no_status (fd : ObjId → Int) {events : List PollEvent}
    (h : (accepted events).Nodup) :
    (∀ before after, events = before ++ after →
      ∃ net, run fd ready before = some net ∧ Exclusive (stations net)) ↔
      ¬ StatusAnswered fd ready events := by
  rw [← runCopies_iff ready_ok]
  have hnodup : (owned (stations ready) + arrivals (trace fd ready events)).Nodup := by
    rw [owned_ready, arrivals_trace ready_ok, zero_add]
    exact Multiset.coe_nodup.mpr h
  rw [← exclusive_iff hnodup]
  constructor
  · intro hall b a hsplit
    obtain ⟨before, after, rfl, hbefore⟩ := trace_split ready_ok hsplit
    obtain ⟨net, hrun, hexcl⟩ := hall before after rfl
    obtain ⟨net', hrun', -, hstations⟩ := run_stations ready_ok before
    obtain rfl : net = net' := Option.some.inj (hrun.symm.trans hrun')
    rwa [← hbefore, ← hstations]
  · rintro hall before after rfl
    obtain ⟨net, hrun, -, hstations⟩ := run_stations ready_ok before
    refine ⟨net, hrun, ?_⟩
    rw [hstations]
    exact hall _ _ (trace_append ready_ok hrun after)

/-- A request for a file that is not there, on a client that has come to the poll set. -/
def exNotFound : List PollEvent :=
  let l : WorkerLook := { check := .getattr eastern { sFile := [47] } (.error ⟨.eNoent, ""⟩) rfl }
  [.accept 7, .worker false l [], .worker true l [], .worker true l [], .worker true l [],
    .worker true l [], .worker true l [], .stream true {} []]

theorem exclusive_iff_no_status_notFound :
    (∀ before after, exNotFound = before ++ after →
      ∃ net, run (fun _ => 5) ready before = some net ∧ Exclusive (stations net)) ↔
      ¬ StatusAnswered (fun _ => 5) ready exNotFound :=
  exclusive_iff_no_status _ (by decide)

/-! ## A pass through a poll set -/

def PollEvent.thread : PollEvent → Option PollThread
  | .worker .. => some .worker
  | .stream .. => some .stream
  | .localFile .. => some .localFile
  | _ => none

/-- The clients a thread looks at in a run, one after another. -/
def looked (fd : ObjId → Int) (i : PollThread) : PollNet → List PollEvent → List ObjId
  | _, [] => []
  | net, e :: events =>
    (if e.thread = some i then (net i).looksAt else []) ++
      (step fd net e).elim [] fun net => looked fd i net events

/-- The thread stays on its way through its poll set. -/
def staysInPass (fd : ObjId → Int) (i : PollThread) : PollNet → List PollEvent → Bool
  | net, [] => (net i).inPass
  | net, e :: events =>
    (net i).inPass && (step fd net e).all fun net => staysInPass fd i net events

theorem staysInPass_append {i : PollThread} (h : staysInPass fd i net (before ++ after))
    (hrun : run fd net before = some net') : (net' i).inPass := by
  induction before generalizing net with
  | nil =>
    cases hrun
    cases after with
    | nil => exact h
    | cons e after => exact (Bool.and_eq_true_iff.mp h).1
  | cons e before ih =>
    rw [run] at hrun
    obtain ⟨net₁, hstep, hrest⟩ := Option.bind_eq_some_iff.mp hrun
    rw [List.cons_append, staysInPass, hstep] at h
    exact ih (Bool.and_eq_true_iff.mp h).2 hrest

theorem passAt_iff (s : PollState) : s.station.passAt ≠ none ↔ s.inPass := by
  have hplace : s.station.place = s.place := rfl
  rw [Station.passAt, PollState.inPass, hplace]
  cases s.place <;> simp

theorem looks_eq (i : PollThread) (net : PollNet) (e : PollEvent) :
    (e.event fd net).looks i (stations net) = if e.thread = some i then (net i).looksAt else [] := by
  have hlooks : (stations net i).looksAt = (net i).looksAt := by
    have hplace : (stations net i).place = (net i).place := rfl
    rw [Station.looksAt, PollState.looksAt, hplace]
    rcases (net i).place with _ | k | _ | _ | _ | _ | _
    case looking => cases k <;> rfl
    all_goals rfl
  cases e <;> simp [PollEvent.event, PollEvent.thread, Stations.Event.looks, hlooks]

theorem seen_trace (h : Ok net) (i : PollThread) (events : List PollEvent) :
    seen i (stations net) (trace fd net events) = looked fd i net events := by
  induction events generalizing net with
  | nil => rfl
  | cons e events ih =>
    obtain ⟨net₁, hstep, h₁, hstations⟩ := step_stations h e
    rw [trace_cons, seen, looked, hstep, looks_eq, ← hstations]
    exact congrArg _ (ih h₁)

theorem moves_trace (h : Ok net) (i : PollThread) (events : List PollEvent) :
    moves i (trace fd net events) = events.countP (·.thread = some i) := by
  induction events generalizing net with
  | nil => rfl
  | cons e events ih =>
    obtain ⟨net₁, hstep, h₁⟩ := step_total h e
    have hrest := ih h₁
    have hmove : (e.event fd net).isMove i = decide (e.thread = some i) := by
      cases e <;> simp [PollEvent.event, PollEvent.thread, Stations.Event.isMove]
    rw [moves] at hrest ⊢
    rw [trace_cons, hstep, List.countP_cons, List.countP_cons, hmove]
    exact congrArg (· + _) hrest

/-- A thread on its way through its poll set, from where it has come to the last client to where it has
left the first one behind, if it is not stopped before that. Whatever it takes out and whatever the other
threads do in between, it looks at each client that was in its poll set once, in the order of the places,
and it takes two moves for each at most. -/
theorem pass_clients (fd : ObjId → Int) {before events : List PollEvent} {i : PollThread}
    (hreach : run fd ready before = some net) (hstart : (net i).place = .looking (net i).poll.used)
    (hpass : staysInPass fd i net events) (hrun : run fd net events = some net')
    (hend : (net' i).place = .looking 0) :
    looked fd i net events = (net i).poll.objects.reverse ∧
      events.countP (·.thread = some i) ≤ 2 * (net i).poll.used := by
  obtain ⟨net₁, hrun₁, hok, -⟩ := run_stations ready_ok before
  obtain rfl : net₁ = net := Option.some.inj (hrun₁.symm.trans hreach)
  obtain ⟨net₂, hrun₂, hok', hstations⟩ := run_stations hok events
  obtain rfl : net₂ = net' := Option.some.inj (hrun₂.symm.trans hrun)
  have hused : (net₁ i).poll.objects.length = (net₁ i).poll.used := Poll.length_objects (hok i).client
  have hplace : (stations net₁ i).place = .looking (stations net₁ i).shelf.length := by
    show (net₁ i).place = .looking (net₁ i).poll.objects.length
    rw [hused, hstart]
  have hin : Stations.InPass i (stations net₁) (trace fd net₁ events) := by
    intro b a hsplit
    obtain ⟨before', after, rfl, hbefore⟩ := trace_split hok hsplit
    obtain ⟨net₃, hrun₃, -, hstations₃⟩ := run_stations hok before'
    rw [← hbefore, ← hstations₃]
    exact (passAt_iff _).mpr (staysInPass_append hpass hrun₃)
  have hout : ((Stations.run (stations net₁) (trace fd net₁ events) i).move {}).1.passAt = none := by
    rw [← hstations]
    have hplace₂ : (stations net₂ i).place = .looking 0 := hend
    rw [Station.move, hplace₂]
    rfl
  obtain ⟨hseen, hmoves⟩ := pass_looks hplace hin hout
  rw [seen_trace hok] at hseen
  rw [moves_trace hok] at hmoves
  exact ⟨hseen, hused ▸ hmoves⟩

/-- Two clients come to the poll set of the worker, and `poll` reports something. -/
def exArrivals : List PollEvent :=
  let next (ok : Bool) : PollEvent := .worker ok { check := .notReady ⟨.eAgain, ""⟩ } []
  [.accept 7, .accept 9] ++ List.replicate 6 (next false) ++ [next true]

/-- The worker is about to look at the second one. -/
def exLooking : PollNet :=
  (run (fun o => o) ready exArrivals).getD ready

/-- The second client is closed and taken out, a client arrives, and the request of the first one is
answered with a status. -/
def exPass : List PollEvent :=
  let check : FileCheck := .getattr eastern { sFile := [47] } (.error ⟨.eNoent, ""⟩) rfl
  [.worker true { pollErr := true, check } [], .accept 11, .stream true {} [],
    .worker true { check } []]

theorem pass_clients_removed :
    looked (fun o => o) .worker exLooking exPass = (exLooking .worker).poll.objects.reverse ∧
      exPass.countP (·.thread = some .worker) ≤ 2 * (exLooking .worker).poll.used := by
  have hreach : run (fun o => o) ready exArrivals = some exLooking := run_getD ready_ok _
  have hok : Ok exLooking := run_ok ready_ok _
  have hstart : (exLooking .worker).place = .looking (exLooking .worker).poll.used := by
    decide +kernel
  have hpass : staysInPass (fun o => o) .worker exLooking exPass := by decide +kernel
  exact pass_clients _ hreach hstart hpass (run_getD hok _) (by decide +kernel)

/-- Both clients are looked at, and one is left. -/
example : looked (fun o => o) .worker exLooking exPass = [9, 7] ∧
    (((run (fun o => o) exLooking exPass).getD ready) .worker).poll.objects = [7] := by
  decide +kernel

end PollMode

end Dframework
