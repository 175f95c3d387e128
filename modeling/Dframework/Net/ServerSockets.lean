import Mathlib
import Dframework.Base.Retval
import Dframework.Net.Poll
import Dframework.Util.ArraySorted

/-!
# The sockets of a `ServerAccept`

The sockets stand in `m_aSockList`, sorted by their descriptors, and in the set of `m_poll`. A
descriptor is the number that the system gives out, and a number is given out again once it has been
closed. `Poll::clear` closes the copies in the set, and the sockets keep their numbers.

A socket is the number of its making. It is destroyed by a step of its own, once neither the list nor
the set refers to it; so a run of the program with its reference counts is a run here. What a client
connects to is left out: the system may avoid any numbers.

Results:
1. `detach_spec`, `create_spec`, `attach_spec`: what the parts of the steps do.
2. `exec_inv`: every step goes through and keeps the invariant.
3. `sockList_consistent`: the list and the set hold the same sockets in every reached state.
-/

namespace Dframework

open CLib

structure ServerSocket where
  iPort : Int := 0
  iStartPort : Int := 0
  iEndPort : Int := 0
  iHandle : Int := -1
  deriving Repr

/-- What a port answers to `ServerSocket::create`: no socket, a socket that cannot be set up, or one
that listens. -/
inductive SocketTry where
  | noSocket (e : Ret)
  | notReady (e : Ret)
  | listening
  deriving Repr

/-- The sockets made so far, and the descriptors that are open with the sockets that opened them. -/
structure ServerSockets where
  poll : Poll
  sockList : List ObjId
  sock : ObjId → ServerSocket
  made : Nat
  opened : List (Int × ObjId)
  openings : Nat

/-- What the system answers at a place of the set: whether the thread is to stop, what the ports
answer to a repair, whether the list and the set find memory. -/
structure PollAnswer where
  isstop : Bool
  tries : Int → SocketTry
  capacity : Bool
  heap : Heap

namespace Poll

/-- What the system writes into the set. -/
def setRevents (p : Poll) (revents : Nat → Int) : Poll :=
  { p with polls := p.polls.map fun polls =>
      ((polls.take p.used).zipIdx.map fun x => { x.1 with revents := revents x.2 }) ++
        polls.drop p.used }

def resetRevents (p : Poll) (position : Nat) : Option Poll :=
  if position < p.used then do
    let polls ← setCell p.polls position { (← cellAt p.polls position) with revents := 0 }
    some { p with polls }
  else some p

/-- `Poll::getPollErr`: `POLLERR`, `POLLNVAL` or `POLLHUP`. -/
def pollErr (revents : Int) : Int :=
  if revents.testBit 3 then 8
  else if revents.testBit 5 then 32
  else if revents.testBit 4 then 16
  else 0

end Poll

namespace ServerSockets

def handle (s : ServerSockets) (o : ObjId) : Int :=
  (s.sock o).iHandle

/-- The order of `ServerSocket`. -/
def compareSock (s : ServerSockets) : ObjId → ObjId → Ordering :=
  compareOn s.handle

/-- Nothing has been opened yet. -/
def new (events : Int) : ServerSockets :=
  ⟨.new events, [], fun _ => {}, 0, [], 0⟩

def update (o : ObjId) (f : ServerSocket → ServerSocket) (s : ServerSockets) : ServerSockets :=
  { s with sock := Function.update s.sock o (f (s.sock o)) }

/-- `new ServerSocket()`. -/
def newServerSocket (s : ServerSockets) : ServerSockets :=
  { s with made := s.made + 1 }.update s.made fun _ => {}

/-- `::close` of what `DFW_SOCK_ENABLE` accepts. -/
def closeFd (fd : Int) (s : ServerSockets) : ServerSockets :=
  if fd = -1 then s else { s with opened := s.opened.filter (·.1 ≠ fd) }

/-- `DFW_SOCK_CLOSE(m_iHandle)`: `ServerSocket::close` and the destructor. -/
def close (o : ObjId) (s : ServerSockets) : ServerSockets :=
  (s.closeFd (s.handle o)).update o ({ · with iHandle := -1 })

section

variable (socket : Nat → List Int → Int)

/-- A socket gets a new descriptor from the system. -/
def openFd (o : ObjId) (s : ServerSockets) : ServerSockets :=
  let fd := socket s.openings (s.opened.map (·.1))
  { s with opened := (fd, o) :: s.opened, openings := s.openings + 1 }.update o
    ({ · with iHandle := fd })

/-- The loop of `ServerSocket::create`, and what is behind it. -/
def createLoop (o : ObjId) (tries : Int → SocketTry) :
    List Int → Retval → ServerSockets → Retval × ServerSockets
  | [], some e, s => (some e, s.close o)
  | [], none, s => (retvalMsg .error "Not create serversocket.", s)
  | port :: ports, _, s =>
    match tries port with
    | .noSocket e => createLoop o tries ports (some e) (s.close o)
    | .notReady e => createLoop o tries ports (some e) ((s.close o).openFd socket o)
    | .listening => (none, ((s.close o).openFd socket o).update o ({ · with iPort := port }))

/-- The ports that `create` tries. -/
def tryPorts (iport : Int) (x : ServerSocket) : List Int :=
  let mport := if iport ≥ x.iEndPort then x.iStartPort else iport
  let mport := if mport < x.iStartPort then x.iStartPort else mport
  (List.range (x.iEndPort + 1 - mport).toNat).map (mport + ·)

def create (o : ObjId) (iport : Int) (tries : Int → SocketTry) (s : ServerSockets) :
    Retval × ServerSockets :=
  createLoop socket o tries (tryPorts iport (s.sock o)) none (s.update o ({ · with iPort := 0 }))

def ready (o : ObjId) (sport eport : Int) (tries : Int → SocketTry) (s : ServerSockets) :
    Retval × ServerSockets :=
  (s.update o ({ · with iStartPort := sport, iEndPort := eport })).create socket o sport tries

/-- What follows what the set answers. Where it refuses the socket, the socket is taken out of the
list again. -/
def attachTo (o : ObjId) (s : ServerSockets) :
    Option (Retval × Option Nat × Poll × Heap) → Option (Retval × ServerSockets)
  | none => none
  | some (none, _, q, _) => some (none, { s with poll := q })
  | some (some e, _, q, _) =>
    some (some e, { s with
      poll := q
      sockList := ArraySorted.remove s.compareSock o s.sockList })

/-- A socket comes into the list and into the set. -/
def attach (o : ObjId) (capacity : Bool) (heap : Heap) (s : ServerSockets) :
    Option (Retval × ServerSockets) :=
  if capacity then
    attachTo o { s with sockList := ArraySorted.insert s.compareSock o s.sockList }
      (s.poll.append (s.handle o) (some o) heap)
  else some (retval .eNomem, s)

def appendPort (port : Int) (tries : Int → SocketTry) (capacity : Bool) (heap : Heap)
    (s : ServerSockets) : Option (Retval × ServerSockets) :=
  if s.sockList.any fun o => (s.sock o).iPort = port then some (none, s)
  else
    match s.newServerSocket.ready socket s.made port port tries with
    | (some e, s') => some (some e, s')
    | (none, s') => s'.attach s.made capacity heap

def appendServerSocket (o : ObjId) (capacity : Bool) (heap : Heap) (s : ServerSockets) :
    Option (Retval × ServerSockets) :=
  if (ArraySorted.index s.compareSock o s.sockList).isSome then
    some (retvalMsg .eInval "already append socket.", s)
  else s.attach o capacity heap

/-- A socket is taken out of the set and out of the list. -/
def detach (o : ObjId) (position : Nat) (s : ServerSockets) : Option ServerSockets := do
  let (_, q) ← s.poll.remove position
  some { s with poll := q, sockList := ArraySorted.remove s.compareSock o s.sockList }

/-- `m_poll.resetRevents(k)`. -/
def resetRevents (k : Nat) (s : ServerSockets) : Option ServerSockets := do
  some { s with poll := ← s.poll.resetRevents k }

/-- A pass of the loop of `accept_poll`. What is accepted at a place without an error is a client's,
and nothing happens to the socket. -/
def acceptAt (a : PollAnswer) (k : Nat) (s : ServerSockets) : Option ServerSockets :=
  if s.poll.used ≤ k then some s
  else do
    let x ← Poll.cellAt s.poll.polls k
    let o ← (← Poll.cellAt s.poll.ppsocks k)
    if Poll.pollErr x.revents = 0 then s.resetRevents k
    else do
      let s ← s.detach o k
      match s.create socket o (s.sock o).iPort a.tries with
      | (some _, s) => some s
      | (none, s) => do
        let (ret, s) ← s.attach o a.capacity a.heap
        if ret.isSome then some s else s.resetRevents k

/-- The loop of `accept_poll`, from the last place to the first. -/
def acceptLoop (answers : Nat → PollAnswer) : Nat → ServerSockets → Option (Retval × ServerSockets)
  | 0, s => some (none, s)
  | k + 1, s =>
    if (answers k).isstop then some (retvalMsg .error "serveraccept is stop.", s)
    else do acceptLoop answers k (← s.acceptAt socket (answers k) k)

def accept_poll (polled : Except Ret (Nat → Int)) (answers : Nat → PollAnswer)
    (s : ServerSockets) : Option (Retval × ServerSockets) :=
  if s.poll.used = 0 then some (retvalMsg .error "Has not server socket.", s)
  else
    match polled with
    | .error e => some (some e, s)
    | .ok revents =>
      let s := { s with poll := s.poll.setRevents revents }
      if ∀ k < s.poll.used, revents k = 0 then some (retvalMsg .ok "Poll count zero.", s)
      else acceptLoop socket answers s.poll.used s

def clearServerSockets (s : ServerSockets) : Option (Retval × ServerSockets) := do
  let (pairs, q) ← s.poll.clear
  some (none, { pairs.foldl (fun s x => s.closeFd x.1) s with poll := q, sockList := [] })

/-- The steps of a server, and what else is done with sockets: one is made, made ready, or
destroyed. -/
inductive SocketOp where
  | newServerSocket
  | ready (o : ObjId) (sport eport : Int) (tries : Int → SocketTry)
  | destroy (o : ObjId)
  | appendPort (port : Int) (tries : Int → SocketTry) (capacity : Bool) (heap : Heap)
  | appendServerSocket (o : ObjId) (capacity : Bool) (heap : Heap)
  | accept_poll (polled : Except Ret (Nat → Int)) (answers : Nat → PollAnswer)
  | clearServerSockets

/-- The step. Nothing is answered for an access outside a block. -/
def exec : SocketOp → ServerSockets → Option (Retval × ServerSockets)
  | .newServerSocket, s => some (none, s.newServerSocket)
  | .ready o sport eport tries, s => some (s.ready socket o sport eport tries)
  | .destroy o, s => some (none, s.close o)
  | .appendPort port tries capacity heap, s => s.appendPort socket port tries capacity heap
  | .appendServerSocket o capacity heap, s => s.appendServerSocket o capacity heap
  | .accept_poll polled answers, s => s.accept_poll socket polled answers
  | .clearServerSockets, s => s.clearServerSockets

end

/-- What is done with a socket is done to one that has been made, and beside the server only to one
that it does not refer to. -/
def Allowed (s : ServerSockets) : SocketOp → Prop
  | .ready o _ _ _ | .destroy o =>
    o < s.made ∧ o ∉ s.sockList ∧ ∀ x ∈ s.poll.entries, x.2 ≠ some o
  | .appendServerSocket o _ _ => o < s.made
  | _ => True

/-- The socket has no descriptor, or one that has not been closed since. -/
def Own (s : ServerSockets) (o : ObjId) : Prop :=
  s.handle o = -1 ∨ (s.handle o, o) ∈ s.opened

/-- No other socket has the number that this one holds. -/
def Alone (s : ServerSockets) (o : ObjId) : Prop :=
  ∀ o', (s.handle o, o') ∈ s.opened → o' = o

/-- A socket comes back only with a descriptor that is open, and it closes nothing of another one. -/
def Fresh (s : ServerSockets) : SocketOp → Prop
  | .ready o _ _ _ | .destroy o => s.Alone o
  | .appendServerSocket o _ _ => s.Own o
  | _ => True

/-- The states of the runs from a new server on whose steps all meet a condition. -/
inductive Reached (socket : Nat → List Int → Int) (events : Int)
    (C : ServerSockets → SocketOp → Prop) : ServerSockets → Prop
  | new : Reached socket events C (.new events)
  | step {s s' : ServerSockets} {op : SocketOp} {ret : Retval} (hs : Reached socket events C s)
      (hop : s.Allowed op) (hC : C s op) (hexec : exec socket op s = some (ret, s')) :
      Reached socket events C s'

/-- The system gives distinct numbers to the descriptors that are open. -/
def Distinct (socket : Nat → List Int → Int) : Prop :=
  ∀ n fds, 0 ≤ socket n fds ∧ socket n fds ∉ fds

/-- The list and the set hold the same sockets, each once, the set with their descriptors, and the
list is sorted by them. -/
structure Consistent (s : ServerSockets) : Prop where
  same : s.poll.entries.Perm (s.sockList.map fun o => (s.handle o, some o))
  once : s.sockList.Nodup
  sorted : ArraySorted.Sorted s.compareSock s.sockList

end ServerSockets

/-! ## Events -/

namespace Poll

variable {p : Poll}

structure SamePairs (p q : Poll) : Prop where
  ok : q.Ok
  used_eq : q.used = p.used
  entries_eq : q.entries = p.entries

theorem SamePairs.refl (h : p.Ok) : SamePairs p p :=
  ⟨h, rfl, rfl⟩

/-- Nothing but the events of a block changes. -/
theorem samePairs_of_fds (h : p.Ok) {polls : Option (List Pollfd)}
    (hfds : (polls.getD []).map Pollfd.fd = (p.polls.getD []).map Pollfd.fd) :
    SamePairs p { p with polls } := by
  have hlength := congrArg List.length hfds
  rw [List.length_map, List.length_map, h.polls_length] at hlength
  refine ⟨⟨hlength, h.ppsocks_length, h.used_le, h.memsize_lt, h.piece⟩, rfl,
    entries_congr rfl fun k _ => ?_⟩
  have hcell := congrArg (·[k]?) hfds
  simp only [List.getElem?_map] at hcell
  rw [pair_eq, pair_eq]
  exact congrArg (fun fd => (Option.getD fd (-1), _)) hcell

theorem setRevents_spec (h : p.Ok) (revents : Nat → Int) : SamePairs p (p.setRevents revents) := by
  refine samePairs_of_fds h ?_
  cases p.polls with
  | none => rfl
  | some polls =>
    have hfront : (((polls.take p.used).zipIdx.map fun x =>
        { x.1 with revents := revents x.2 }).map Pollfd.fd) = (polls.take p.used).map Pollfd.fd := by
      conv_rhs => rw [← List.zipIdx_map_fst 0 (polls.take p.used)]
      rw [List.map_map, List.map_map]
      rfl
    rw [Option.map_some, Option.getD_some, Option.getD_some, List.map_append, hfront,
      ← List.map_append, List.take_append_drop]

theorem resetRevents_spec (h : p.Ok) (k : Nat) :
    ∃ q, p.resetRevents k = some q ∧ SamePairs p q := by
  rw [resetRevents]
  split_ifs with hk
  · have hkm : k < p.memsize := hk.trans_le h.used_le
    obtain ⟨x, o, hx, -, -⟩ := exists_cells h hkm
    have hset := setCell_of_lt (h.polls_length ▸ hkm) { x with revents := 0 }
    simp only [hx, Option.bind_eq_bind, Option.bind_some, hset]
    refine ⟨_, rfl, samePairs_of_fds h ?_⟩
    rw [cellAt_eq] at hx
    obtain ⟨hlt, hget⟩ := List.getElem?_eq_some_iff.mp hx
    have hlt' : k < ((p.polls.getD []).map Pollfd.fd).length := by rwa [List.length_map]
    have hself : ((p.polls.getD []).map Pollfd.fd)[k] = x.fd := by rw [List.getElem_map, hget]
    rw [Option.getD_some, List.map_set, ← hself, List.set_getElem_self]
  · exact ⟨p, rfl, .refl h⟩

end Poll

namespace ArraySorted

variable {α : Type*} {cmp : α → α → Ordering} [Std.TransCmp cmp] {l : List α} {data : α}

/-- An element that equals no other one is the one that is taken out. -/
theorem remove_perm [DecidableEq α] (hs : Sorted cmp l) (hmem : data ∈ l)
    (honly : ∀ x ∈ l, cmp data x = .eq → x = data) :
    (remove cmp data l).Perm (l.erase data) ∧ Sorted cmp (remove cmp data l) := by
  obtain ⟨hfound, -⟩ := index_finds hs data
  have hsome := (index_isSome_iff hs data).mpr ⟨data, hmem, Std.ReflCmp.compare_self⟩
  obtain ⟨i, hi⟩ := Option.isSome_iff_exists.mp hsome
  obtain ⟨x, hx, heq⟩ := hfound i hi
  obtain rfl := honly x (List.mem_of_getElem? hx) heq
  obtain ⟨hlt, hget⟩ := List.getElem?_eq_some_iff.mp hx
  rw [remove, hi]
  refine ⟨?_, hs.eraseIdx i⟩
  have hperm := List.getElem_cons_eraseIdx_perm hlt
  rw [hget] at hperm
  exact (hperm.trans (List.perm_cons_erase hmem)).cons_inv

theorem insert_perm (cmp : α → α → Ordering) (data : α) (l : List α) :
    (insert cmp data l).Perm (data :: l) :=
  List.perm_insertIdx data l (insertId_le cmp data l)

end ArraySorted

namespace ServerSockets

variable {socket : Nat → List Int → Int} {s s' : ServerSockets} {o : ObjId}

/-! ## Descriptors -/

/-- Each descriptor that is open is held by the socket that opened it. -/
structure Held (s : ServerSockets) : Prop where
  distinct : (s.opened.map (·.1)).Nodup
  current : ∀ x ∈ s.opened, s.handle x.2 = x.1
  enabled : ∀ x ∈ s.opened, x.1 ≠ -1
  made : ∀ x ∈ s.opened, x.2 < s.made

/-- Another socket and its descriptor stay as they are. -/
structure Touched (o : ObjId) (s s' : ServerSockets) : Prop where
  poll_eq : s'.poll = s.poll
  sockList_eq : s'.sockList = s.sockList
  made_le : s.made ≤ s'.made
  sock_eq : ∀ o' ≠ o, s'.sock o' = s.sock o'
  kept : ∀ x ∈ s.opened, x.2 ≠ o → x ∈ s'.opened

theorem Touched.refl (o : ObjId) (s : ServerSockets) : Touched o s s :=
  ⟨rfl, rfl, le_rfl, fun _ _ => rfl, fun _ hx _ => hx⟩

theorem Touched.trans {s'' : ServerSockets} (h : Touched o s s') (h' : Touched o s' s'') :
    Touched o s s'' where
  poll_eq := h'.poll_eq.trans h.poll_eq
  sockList_eq := h'.sockList_eq.trans h.sockList_eq
  made_le := h.made_le.trans h'.made_le
  sock_eq o' ho := (h'.sock_eq o' ho).trans (h.sock_eq o' ho)
  kept x hx ho := h'.kept x (h.kept x hx ho) ho

theorem Touched.own (h : Touched o s s') {o' : ObjId} (ho : o' ≠ o) (hown : s.Own o') :
    s'.Own o' ∧ s'.handle o' = s.handle o' := by
  have hhandle : s'.handle o' = s.handle o' := congrArg ServerSocket.iHandle (h.sock_eq o' ho)
  refine ⟨?_, hhandle⟩
  rw [Own, hhandle]
  exact hown.imp_right fun hmem => h.kept _ hmem ho

/-- A descriptor belongs to one socket. -/
theorem Held.own_alone (h : s.Held) (hown : s.Own o) : s.Alone o := by
  intro o' hmem
  rcases hown with hnone | hmem'
  · exact absurd hnone (h.enabled _ hmem)
  · have hpair := (List.inj_on_of_nodup_map h.distinct) hmem hmem' rfl
    exact (Prod.mk.inj hpair).2

/-- Two sockets with one descriptor have none. -/
theorem Held.own_ne (h : s.Held) {a b : ObjId} (hne : a ≠ b) (ha : s.Own a) (hb : s.Own b)
    (heq : s.handle a = s.handle b) : s.handle a = -1 := by
  rcases ha with hnone | hmem
  · exact hnone
  · rw [heq] at hmem
    exact absurd (h.own_alone hb a hmem) hne

@[simp] theorem update_handle_self (o : ObjId) (f : ServerSocket → ServerSocket)
    (s : ServerSockets) : (s.update o f).handle o = (f (s.sock o)).iHandle := by
  show (Function.update s.sock o (f (s.sock o)) o).iHandle = _
  rw [Function.update_self]

theorem update_touched (o : ObjId) (f : ServerSocket → ServerSocket) (s : ServerSockets) :
    Touched o s (s.update o f) :=
  ⟨rfl, rfl, le_rfl, fun _ ho => Function.update_of_ne ho _ _, fun _ hx _ => hx⟩

/-- Fields other than the descriptor. -/
theorem update_held (h : s.Held) (f : ServerSocket → ServerSocket)
    (hf : (f (s.sock o)).iHandle = s.handle o) :
    (s.update o f).Held ∧ (s.update o f).handle = s.handle := by
  have hhandle : (s.update o f).handle = s.handle := by
    funext o'
    by_cases ho : o' = o
    · rw [ho, update_handle_self, hf]
    · exact congrArg ServerSocket.iHandle (Function.update_of_ne ho _ _)
  refine ⟨⟨h.distinct, ?_, h.enabled, h.made⟩, hhandle⟩
  rw [hhandle]
  exact h.current

theorem closeFd_opened (fd : Int) (s : ServerSockets) :
    (s.closeFd fd).opened ⊆ s.opened ∧ (s.closeFd fd).sock = s.sock ∧
      (s.closeFd fd).made = s.made ∧ ((s.closeFd fd).opened.map (·.1)).Sublist (s.opened.map (·.1)) := by
  rw [closeFd]
  split_ifs
  · exact ⟨List.Subset.refl _, rfl, rfl, List.Sublist.refl _⟩
  · exact ⟨fun _ hx => List.mem_of_mem_filter hx, rfl, rfl, List.filter_sublist.map _⟩

theorem closeFd_held (h : s.Held) (fd : Int) : (s.closeFd fd).Held := by
  obtain ⟨hsub, hsock, hmade, hfds⟩ := closeFd_opened fd s
  refine ⟨h.distinct.sublist hfds, fun x hx => ?_, fun x hx => h.enabled x (hsub hx), fun x hx => ?_⟩
  · rw [handle, hsock]
    exact h.current x (hsub hx)
  · rw [hmade]
    exact h.made x (hsub hx)

theorem mem_closeFd {fd : Int} {x : Int × ObjId} (hx : x ∈ s.opened) (hne : x.1 ≠ fd) :
    x ∈ (s.closeFd fd).opened := by
  rw [closeFd]
  split_ifs
  · exact hx
  · exact List.mem_filter.mpr ⟨hx, decide_eq_true hne⟩

theorem closeFd_ne (h : s.Held) {fd : Int} : ∀ x ∈ (s.closeFd fd).opened, x.1 ≠ fd := by
  intro x hx
  rw [closeFd] at hx
  split_ifs at hx with hnone
  · exact hnone ▸ h.enabled x hx
  · exact of_decide_eq_true (List.mem_filter.mp hx).2

/-- A socket that is closed has no descriptor, and when it was alone with its number, no other one
has lost one. -/
theorem close_spec (h : s.Held) (o : ObjId) :
    (s.close o).Held ∧ (s.close o).handle o = -1 ∧ (s.Alone o → Touched o s (s.close o)) := by
  obtain ⟨hsub, hsock, hmade, hfds⟩ := closeFd_opened (s.handle o) s
  have hheld := closeFd_held h (s.handle o)
  refine ⟨⟨hheld.distinct, fun x hx => ?_, hheld.enabled, hheld.made⟩, update_handle_self o _ _,
    fun halone => ?_⟩
  · have hx' : x ∈ (s.closeFd (s.handle o)).opened := hx
    have hcurrent := hheld.current x hx'
    have hne : x.2 ≠ o := by
      intro heq
      rw [handle, hsock, heq] at hcurrent
      exact closeFd_ne h x hx' hcurrent.symm
    rw [← hcurrent]
    exact congrArg ServerSocket.iHandle (Function.update_of_ne hne _ _)
  · have hclosed : Touched o s (s.closeFd (s.handle o)) := by
      refine ⟨?_, ?_, hmade.ge, fun _ _ => by rw [hsock], fun x hx hne => mem_closeFd hx ?_⟩
      · rw [closeFd]
        split_ifs <;> rfl
      · rw [closeFd]
        split_ifs <;> rfl
      · intro heq
        exact hne (halone x.2 (heq ▸ hx))
    exact hclosed.trans (update_touched o _ _)

theorem openFd_spec (hsocket : Distinct socket) (h : s.Held) (hnone : s.handle o = -1)
    (ho : o < s.made) : (s.openFd socket o).Held ∧ (s.openFd socket o).Own o ∧
      (s.openFd socket o).handle o ≠ -1 ∧ Touched o s (s.openFd socket o) := by
  obtain ⟨hpos, hnew⟩ := hsocket s.openings (s.opened.map (·.1))
  obtain ⟨fd, hfd⟩ : ∃ fd, socket s.openings (s.opened.map (·.1)) = fd := ⟨_, rfl⟩
  rw [hfd] at hpos hnew
  have hself : (s.openFd socket o).handle o = fd := by
    rw [openFd, hfd, update_handle_self]
  have hopened : (s.openFd socket o).opened = (fd, o) :: s.opened := by
    rw [openFd, hfd]
    rfl
  have hother : ∀ o' ≠ o, (s.openFd socket o).sock o' = s.sock o' := fun o' hne =>
    Function.update_of_ne hne _ _
  have hfd1 : fd ≠ -1 := by omega
  refine ⟨⟨?_, ?_, ?_, ?_⟩, ?_, hself ▸ hfd1, ⟨rfl, rfl, le_rfl, hother, fun x hx _ => ?_⟩⟩
  · rw [hopened, List.map_cons]
    exact List.nodup_cons.mpr ⟨hnew, h.distinct⟩
  · rw [hopened]
    refine List.forall_mem_cons.mpr ⟨hself, fun x hx => ?_⟩
    have hne : x.2 ≠ o := by
      intro heq
      exact h.enabled x hx ((h.current x hx).symm.trans (heq ▸ hnone))
    rw [← h.current x hx]
    exact congrArg ServerSocket.iHandle (hother x.2 hne)
  · rw [hopened]
    exact List.forall_mem_cons.mpr ⟨hfd1, h.enabled⟩
  · rw [hopened]
    exact List.forall_mem_cons.mpr ⟨ho, h.made⟩
  · refine .inr ?_
    rw [hself, hopened]
    exact List.mem_cons_self
  · rw [hopened]
    exact List.mem_cons_of_mem _ hx

/-- What `create` leaves: with success the socket has a descriptor of its own, and the other sockets
are as they were. -/
structure Created (o : ObjId) (ret : Retval) (s s' : ServerSockets) : Prop where
  held : s'.Held
  touched : Touched o s s'
  ready : ret = none → s'.Own o ∧ s'.handle o ≠ -1

theorem createLoop_spec (hsocket : Distinct socket) (tries : Int → SocketTry) (ports : List Int)
    (last : Retval) (h : s.Held) (halone : s.Alone o) (ho : o < s.made) :
    Created o (createLoop socket o tries ports last s).1 s
      (createLoop socket o tries ports last s).2 := by
  induction ports generalizing last s with
  | nil =>
    cases last with
    | none => exact ⟨h, .refl o s, fun hret => absurd hret (retvalMsg_ne_none _ _)⟩
    | some e =>
      obtain ⟨hheld, -, htouched⟩ := close_spec h o
      exact ⟨hheld, htouched halone, fun hret => absurd hret (Option.some_ne_none e)⟩
  | cons port ports ih =>
    obtain ⟨hheld, hnone, htouched⟩ := close_spec h o
    have htouched := htouched halone
    have hmade := ho.trans_le htouched.made_le
    obtain ⟨hheld', hown, hfd, htouched'⟩ := openFd_spec hsocket hheld hnone hmade
    rw [createLoop]
    cases tries port with
    | noSocket e =>
      have hloop := ih (some e) hheld (hheld.own_alone (.inl hnone)) hmade
      exact ⟨hloop.held, htouched.trans hloop.touched, hloop.ready⟩
    | notReady e =>
      have hloop := ih (some e) hheld' (hheld'.own_alone hown) (hmade.trans_le htouched'.made_le)
      exact ⟨hloop.held, (htouched.trans htouched').trans hloop.touched, hloop.ready⟩
    | listening =>
      obtain ⟨hheld'', hhandle⟩ := update_held hheld' (o := o) ({ · with iPort := port }) rfl
      have hlast := update_touched o ({ · with iPort := port }) (openFd socket o (s.close o))
      have hready : ((openFd socket o (s.close o)).update o ({ · with iPort := port })).Own o ∧
          ((openFd socket o (s.close o)).update o ({ · with iPort := port })).handle o ≠ -1 := by
        rw [Own, hhandle]
        exact ⟨hown, hfd⟩
      exact ⟨hheld'', (htouched.trans htouched').trans hlast, fun _ => hready⟩

theorem create_spec (hsocket : Distinct socket) (iport : Int) (tries : Int → SocketTry)
    (h : s.Held) (halone : s.Alone o) (ho : o < s.made) :
    Created o (s.create socket o iport tries).1 s (s.create socket o iport tries).2 := by
  obtain ⟨hheld, hhandle⟩ := update_held h (o := o) ({ · with iPort := 0 }) rfl
  have hloop := createLoop_spec hsocket tries (tryPorts iport (s.sock o)) none hheld
    (o := o) (by rw [Alone, hhandle]; exact halone) ho
  exact ⟨hloop.held, (update_touched o _ s).trans hloop.touched, hloop.ready⟩

theorem ready_spec (hsocket : Distinct socket) (sport eport : Int) (tries : Int → SocketTry)
    (h : s.Held) (halone : s.Alone o) (ho : o < s.made) :
    Created o (s.ready socket o sport eport tries).1 s (s.ready socket o sport eport tries).2 := by
  obtain ⟨hheld, hhandle⟩ := update_held h (o := o)
    ({ · with iStartPort := sport, iEndPort := eport }) rfl
  have hcreate := create_spec hsocket sport tries hheld (o := o)
    (by rw [Alone, hhandle]; exact halone) ho
  exact ⟨hcreate.held, (update_touched o _ s).trans hcreate.touched, hcreate.ready⟩

/-! ## The invariant -/

/-- The list and the set are consistent, and the sockets in them have descriptors of their own. -/
structure Inv (s : ServerSockets) : Prop extends Consistent s, Held s where
  ok : s.poll.Ok
  own : ∀ o ∈ s.sockList, s.Own o
  apart : ∀ a ∈ s.sockList, ∀ b ∈ s.sockList, s.handle a = s.handle b → a = b
  listed : ∀ o ∈ s.sockList, o < s.made

theorem inv_new (events : Int) : (new events).Inv where
  same := .refl _
  once := List.nodup_nil
  sorted := List.Pairwise.nil
  distinct := List.nodup_nil
  current := List.forall_mem_nil _
  enabled := List.forall_mem_nil _
  made := List.forall_mem_nil _
  ok := Poll.new_ok events
  own := List.forall_mem_nil _
  apart := List.forall_mem_nil _
  listed := List.forall_mem_nil _

instance : Std.TransCmp s.compareSock :=
  inferInstanceAs (Std.TransCmp (compareOn s.handle))

theorem compareSock_eq_iff {a b : ObjId} : s.compareSock a b = .eq ↔ s.handle a = s.handle b :=
  @Std.LawfulEqCmp.compare_eq_iff_eq Int (fun x y => compare x y) _ _ _

/-- What is done to a socket that is not in the list is nothing to the invariant. -/
theorem Inv.touched (h : s.Inv) (ht : Touched o s s') (ho : o ∉ s.sockList) (hheld : s'.Held) :
    s'.Inv := by
  have hown : ∀ a ∈ s.sockList, s'.Own a ∧ s'.handle a = s.handle a := fun a ha =>
    ht.own (fun heq => ho (heq ▸ ha)) (h.own a ha)
  refine { toHeld := hheld, same := ?_, once := ?_, sorted := ?_, ok := ?_, own := ?_, apart := ?_,
           listed := ?_ }
  · rw [ht.poll_eq, ht.sockList_eq]
    exact h.same.trans (List.Perm.of_eq (List.map_congr_left fun a ha => by rw [(hown a ha).2]))
  · exact ht.sockList_eq ▸ h.once
  · rw [ht.sockList_eq]
    refine List.Pairwise.imp_of_mem (fun ha hb hle => ?_) h.sorted
    rw [compareSock, compareOn, (hown _ ha).2, (hown _ hb).2]
    exact hle
  · exact ht.poll_eq ▸ h.ok
  · rw [ht.sockList_eq]
    exact fun a ha => (hown a ha).1
  · rw [ht.sockList_eq]
    intro a ha b hb heq
    rw [(hown a ha).2, (hown b hb).2] at heq
    exact h.apart a ha b hb heq
  · rw [ht.sockList_eq]
    exact fun a ha => (h.listed a ha).trans_le ht.made_le

/-- Another set with the same pairs. -/
theorem Inv.samePairs (h : s.Inv) {q : Poll} (hq : Poll.SamePairs s.poll q) :
    Inv { s with poll := q } :=
  { h with
    same := hq.entries_eq ▸ h.same
    ok := hq.ok }

/-- A list with the same sockets, sorted as well, and a set that belongs to it. -/
theorem Inv.replace (h : s.Inv) {l : List ObjId} {q : Poll} (hsub : l ⊆ s.sockList)
    (honce : l.Nodup) (hsorted : ArraySorted.Sorted s.compareSock l) (hok : q.Ok)
    (hsame : q.entries.Perm (l.map fun o => (s.handle o, some o))) :
    Inv { s with poll := q, sockList := l } :=
  { h with
    same := hsame
    once := honce
    sorted := hsorted
    ok := hok
    own := fun a ha => h.own a (hsub ha)
    apart := fun a ha b hb => h.apart a (hsub ha) b (hsub hb)
    listed := fun a ha => h.listed a (hsub ha) }

/-- A socket of the set leaves it, and the list. -/
theorem detach_spec (h : s.Inv) {k : Nat} (hk : k < s.poll.used)
    (hpair : s.poll.pair k = (s.handle o, some o)) (ho : o ∈ s.sockList) :
    ∃ s', s.detach o k = some s' ∧ s'.Inv ∧ o ∉ s'.sockList ∧ s'.opened = s.opened ∧
      s'.sock = s.sock ∧ s'.made = s.made := by
  obtain ⟨out, q, hrem, hq⟩ := Poll.remove_spec h.ok hk
  have honly : ∀ x ∈ s.sockList, s.compareSock o x = .eq → x = o := fun x hx heq =>
    (h.apart o ho x hx (compareSock_eq_iff.mp heq)).symm
  obtain ⟨hperm, hsorted⟩ := ArraySorted.remove_perm h.sorted ho honly
  have hentries := hq.perm hk
  rw [hpair] at hentries
  have hlist : (s.sockList.map fun o => (s.handle o, some o)).Perm
      ((s.handle o, some o) :: (ArraySorted.remove s.compareSock o s.sockList).map
        fun o => (s.handle o, some o)) :=
    ((List.perm_cons_erase ho).trans (hperm.symm.cons o)).map fun o => (s.handle o, some o)
  have hnot : o ∉ ArraySorted.remove s.compareSock o s.sockList := fun hmem =>
    h.once.not_mem_erase (hperm.mem_iff.mp hmem)
  rw [detach, hrem]
  refine ⟨_, rfl, h.replace ?_ ?_ hsorted hq.ok ?_, hnot, rfl, rfl, rfl⟩
  · exact fun x hx => List.mem_of_mem_erase (hperm.mem_iff.mp hx)
  · exact hperm.nodup_iff.mpr (h.once.erase o)
  · exact (hentries.symm.trans (h.same.trans hlist)).cons_inv

section

variable (h : s.Inv) (hnew : ∀ a ∈ s.sockList, s.handle a ≠ s.handle o)

include h hnew

/-- A socket that is not in the list comes in. -/
theorem Inv.attached (hown : s.Own o) (hmade : o < s.made) {q : Poll} (hok : q.Ok)
    (hentries : q.entries = s.poll.entries ++ [(s.handle o, some o)]) :
    Inv { s with poll := q, sockList := ArraySorted.insert s.compareSock o s.sockList } := by
  have hperm := ArraySorted.insert_perm s.compareSock o s.sockList
  have hmem : ∀ a ∈ ArraySorted.insert s.compareSock o s.sockList, a = o ∨ a ∈ s.sockList :=
    fun a ha => List.mem_cons.mp (hperm.mem_iff.mp ha)
  refine { h with same := ?_, once := ?_, sorted := ArraySorted.insert_sorted h.sorted o, ok := hok,
                  own := fun a ha => ?_, apart := fun a ha b hb heq => ?_,
                  listed := fun a ha => ?_ }
  · have hcons : (s.poll.entries ++ [(s.handle o, some o)]).Perm
        ((s.handle o, some o) :: s.sockList.map fun o => (s.handle o, some o)) :=
      (List.perm_append_singleton _ _).trans (h.same.cons _)
    show q.entries.Perm _
    rw [hentries]
    exact hcons.trans (hperm.symm.map fun o => (s.handle o, some o))
  · exact hperm.nodup_iff.mpr (List.nodup_cons.mpr ⟨fun hin => hnew o hin rfl, h.once⟩)
  · rcases hmem a ha with rfl | hin
    · exact hown
    · exact h.own a hin
  · rcases hmem a ha, hmem b hb with ⟨rfl | hin, rfl | hin'⟩
    · rfl
    · exact absurd heq.symm (hnew b hin')
    · exact absurd heq (hnew a hin)
    · exact h.apart a hin b hin' heq
  · rcases hmem a ha with rfl | hin
    · exact hmade
    · exact h.listed a hin

/-- A socket that the set has refused is the one that leaves the list. -/
theorem Inv.refused : Inv { s with
    sockList := ArraySorted.remove s.compareSock o
      (ArraySorted.insert s.compareSock o s.sockList) } := by
  have hperm := ArraySorted.insert_perm s.compareSock o s.sockList
  have honly : ∀ x ∈ ArraySorted.insert s.compareSock o s.sockList,
      s.compareSock o x = .eq → x = o := by
    intro x hx heq
    rcases List.mem_cons.mp (hperm.mem_iff.mp hx) with hxo | hin
    · exact hxo
    · exact absurd (compareSock_eq_iff.mp heq).symm (hnew x hin)
  obtain ⟨hback, hsorted⟩ := ArraySorted.remove_perm (ArraySorted.insert_sorted h.sorted o)
    (hperm.mem_iff.mpr List.mem_cons_self) honly
  have hsame : (ArraySorted.remove s.compareSock o
      (ArraySorted.insert s.compareSock o s.sockList)).Perm s.sockList := by
    refine hback.trans ((hperm.erase o).trans ?_)
    rw [List.erase_cons_head]
  exact h.replace hsame.subset (hsame.nodup_iff.mpr h.once) hsorted h.ok
    (h.same.trans (hsame.symm.map fun o => (s.handle o, some o)))

theorem attach_spec (hown : s.Own o) (hmade : o < s.made) (capacity : Bool) (heap : Heap) :
    ∃ ret s', s.attach o capacity heap = some (ret, s') ∧ s'.Inv := by
  rw [attach]
  split_ifs
  · obtain ⟨ret, out, q, heap', happ, hq⟩ := Poll.append_spec h.ok (s.handle o) (some o) heap
    rw [happ]
    cases ret with
    | none => exact ⟨none, _, rfl, h.attached hnew hown hmade hq.ok (hq.put rfl).2⟩
    | some e =>
      obtain rfl := hq.same (Option.some_ne_none e)
      exact ⟨some e, _, rfl, h.refused hnew⟩
  · exact ⟨_, s, rfl, h⟩

end

/-- A socket with a descriptor of its own is none of those in the list. -/
theorem Inv.handle_ne (h : s.Inv) (hown : s.Own o) (ho : o ∉ s.sockList) (hfd : s.handle o ≠ -1) :
    ∀ a ∈ s.sockList, s.handle a ≠ s.handle o := by
  intro a ha heq
  have hne : a ≠ o := fun hao => ho (hao ▸ ha)
  exact hfd (heq ▸ h.own_ne hne (h.own a ha) hown heq)

/-! ## The steps -/

/-- A new socket has no descriptor. -/
theorem newServerSocket_spec (h : s.Held) :
    s.newServerSocket.Held ∧ s.newServerSocket.handle s.made = -1 ∧
      Touched s.made s s.newServerSocket ∧ s.newServerSocket.made = s.made + 1 := by
  have hother : ∀ o ≠ s.made, s.newServerSocket.sock o = s.sock o := fun o ho =>
    Function.update_of_ne ho _ _
  refine ⟨⟨h.distinct, fun x hx => ?_, h.enabled, fun x hx => (h.made x hx).trans (Nat.lt_succ_self _)⟩,
    update_handle_self _ _ _, ⟨rfl, rfl, Nat.le_succ _, hother, fun _ hx _ => hx⟩, rfl⟩
  rw [← h.current x hx]
  exact congrArg ServerSocket.iHandle (hother x.2 (Nat.ne_of_lt (h.made x hx)))

theorem appendPort_spec (hsocket : Distinct socket) (h : s.Inv) (port : Int)
    (tries : Int → SocketTry) (capacity : Bool) (heap : Heap) :
    ∃ ret s', s.appendPort socket port tries capacity heap = some (ret, s') ∧ s'.Inv := by
  rw [appendPort]
  split_ifs
  · exact ⟨none, s, rfl, h⟩
  · have hnot : s.made ∉ s.sockList := fun hmem => absurd (h.listed _ hmem) (lt_irrefl _)
    obtain ⟨hheld, hnone, htouched, hmade⟩ := newServerSocket_spec h.toHeld
    have hlt : s.made < s.newServerSocket.made := hmade ▸ Nat.lt_succ_self _
    have hready := ready_spec hsocket port port tries hheld (hheld.own_alone (.inl hnone)) hlt
    rcases hres : s.newServerSocket.ready socket s.made port port tries with ⟨_ | e, s'⟩
    all_goals rw [hres] at hready
    all_goals have hinv := h.touched (htouched.trans hready.touched) hnot hready.held
    · have hnot' : s.made ∉ s'.sockList :=
        hready.touched.sockList_eq ▸ htouched.sockList_eq ▸ hnot
      obtain ⟨hown, hfd⟩ := hready.ready rfl
      exact attach_spec hinv (hinv.handle_ne hown hnot' hfd) hown
        (hlt.trans_le hready.touched.made_le) capacity heap
    · exact ⟨some e, s', rfl, hinv⟩

theorem appendServerSocket_spec (h : s.Inv) (hmade : o < s.made) (hown : s.Own o)
    (capacity : Bool) (heap : Heap) :
    ∃ ret s', s.appendServerSocket o capacity heap = some (ret, s') ∧ s'.Inv := by
  rw [appendServerSocket]
  split_ifs with hfound
  · exact ⟨_, s, rfl, h⟩
  · refine attach_spec h (fun a ha heq => hfound ?_) hown hmade capacity heap
    exact (ArraySorted.index_isSome_iff h.sorted o).mpr
      ⟨a, ha, compareSock_eq_iff.mpr heq.symm⟩

theorem resetRevents_spec (h : s.Inv) (k : Nat) : ∃ s', s.resetRevents k = some s' ∧ s'.Inv := by
  obtain ⟨q, hreset, hq⟩ := Poll.resetRevents_spec h.ok k
  rw [resetRevents, hreset]
  exact ⟨_, rfl, h.samePairs hq⟩

/-- Every place of the set belongs to a socket of the list. -/
theorem Inv.pair_mem (h : s.Inv) {k : Nat} (hk : k < s.poll.used) :
    ∃ o ∈ s.sockList, s.poll.pair k = (s.handle o, some o) := by
  have hmem : s.poll.pair k ∈ s.poll.entries :=
    List.mem_map_of_mem (List.mem_range.mpr hk)
  obtain ⟨o, ho, heq⟩ := List.mem_map.mp (h.same.mem_iff.mp hmem)
  exact ⟨o, ho, heq.symm⟩

theorem acceptAt_spec (hsocket : Distinct socket) (h : s.Inv) (a : PollAnswer) (k : Nat) :
    ∃ s', s.acceptAt socket a k = some s' ∧ s'.Inv := by
  rw [acceptAt]
  split_ifs with hk
  · exact ⟨s, rfl, h⟩
  · have hk := Nat.lt_of_not_le hk
    obtain ⟨o, ho, hpair⟩ := h.pair_mem hk
    obtain ⟨x, obj, hx, hobj, hcells⟩ := Poll.exists_cells h.ok (hk.trans_le h.ok.used_le)
    obtain ⟨-, rfl⟩ := Prod.mk.inj (hcells.symm.trans hpair)
    simp only [hx, hobj, Option.bind_eq_bind, Option.bind_some]
    split_ifs
    · exact resetRevents_spec h k
    · obtain ⟨s₁, hdetach, h₁, hnot, hopened, hsock, hmade⟩ := detach_spec h hk hpair ho
      have hown : s₁.Own o := by
        rw [Own, handle, hsock, hopened]
        exact h.own o ho
      have hcreate := create_spec hsocket (s₁.sock o).iPort a.tries h₁.toHeld
        (h₁.own_alone hown) (hmade ▸ h.listed o ho)
      rw [hdetach]
      simp only [Option.bind_some]
      rcases hres : s₁.create socket o (s₁.sock o).iPort a.tries with ⟨_ | e, s₂⟩
      all_goals rw [hres] at hcreate
      all_goals have h₂ := h₁.touched hcreate.touched hnot hcreate.held
      · have hnot₂ : o ∉ s₂.sockList := hcreate.touched.sockList_eq ▸ hnot
        obtain ⟨hown₂, hfd⟩ := hcreate.ready rfl
        obtain ⟨ret, s₃, hattach, h₃⟩ := attach_spec h₂ (h₂.handle_ne hown₂ hnot₂ hfd) hown₂
          ((hmade ▸ h.listed o ho).trans_le hcreate.touched.made_le) a.capacity a.heap
        simp only [hattach, Option.bind_some]
        split_ifs
        · exact ⟨s₃, rfl, h₃⟩
        · exact resetRevents_spec h₃ k
      · exact ⟨s₂, rfl, h₂⟩

theorem acceptLoop_spec (hsocket : Distinct socket) (h : s.Inv) (answers : Nat → PollAnswer)
    (k : Nat) : ∃ ret s', acceptLoop socket answers k s = some (ret, s') ∧ s'.Inv := by
  induction k generalizing s with
  | zero => exact ⟨none, s, rfl, h⟩
  | succ k ih =>
    rw [acceptLoop]
    split_ifs
    · exact ⟨_, s, rfl, h⟩
    · obtain ⟨s₁, hat, h₁⟩ := acceptAt_spec hsocket h (answers k) k
      rw [hat]
      exact ih h₁

theorem accept_poll_spec (hsocket : Distinct socket) (h : s.Inv)
    (polled : Except Ret (Nat → Int)) (answers : Nat → PollAnswer) :
    ∃ ret s', s.accept_poll socket polled answers = some (ret, s') ∧ s'.Inv := by
  cases polled with
  | error e =>
    rw [accept_poll]
    split_ifs
    · exact ⟨_, s, rfl, h⟩
    · exact ⟨some e, s, rfl, h⟩
  | ok revents =>
    have hset := h.samePairs (Poll.setRevents_spec h.ok revents)
    rw [accept_poll]
    split_ifs
    · exact ⟨_, s, rfl, h⟩
    · simp only
      split_ifs
      · exact ⟨_, _, rfl, hset⟩
      · exact acceptLoop_spec hsocket hset answers _

theorem closeFds_held (h : s.Held) (pairs : List (Int × Option ObjId)) :
    (pairs.foldl (fun s x => s.closeFd x.1) s).Held := by
  induction pairs generalizing s with
  | nil => exact h
  | cons x pairs ih => exact ih (closeFd_held h x.1)

theorem clearServerSockets_spec (h : s.Inv) :
    ∃ ret s', s.clearServerSockets = some (ret, s') ∧ s'.Inv := by
  obtain ⟨q, hclear, hok, hused⟩ := Poll.clear_spec h.ok
  have hheld := closeFds_held h.toHeld s.poll.entries
  rw [clearServerSockets, hclear]
  refine ⟨none, _, rfl, { hheld with
    same := ?_, once := List.nodup_nil, sorted := List.Pairwise.nil, ok := hok,
    own := List.forall_mem_nil _, apart := List.forall_mem_nil _,
    listed := List.forall_mem_nil _ }⟩
  show q.entries.Perm []
  rw [Poll.entries, hused]
  exact .refl _

/-- A step goes through, and a socket that comes back with a descriptor of its own, or that closes
no other one's, keeps the invariant. -/
theorem exec_inv (hsocket : Distinct socket) (h : s.Inv) {op : SocketOp} (hop : s.Allowed op)
    (hfresh : s.Fresh op) : ∃ ret s', exec socket op s = some (ret, s') ∧ s'.Inv := by
  cases op with
  | newServerSocket =>
    obtain ⟨hheld, -, htouched, -⟩ := newServerSocket_spec h.toHeld
    have hnot : s.made ∉ s.sockList := fun hmem => absurd (h.listed _ hmem) (lt_irrefl _)
    exact ⟨none, _, rfl, h.touched htouched hnot hheld⟩
  | ready o sport eport tries =>
    have hready := ready_spec hsocket sport eport tries h.toHeld hfresh hop.1
    exact ⟨_, _, rfl, h.touched hready.touched hop.2.1 hready.held⟩
  | destroy o =>
    obtain ⟨hheld, -, htouched⟩ := close_spec h.toHeld o
    exact ⟨none, _, rfl, h.touched (htouched hfresh) hop.2.1 hheld⟩
  | appendPort port tries capacity heap => exact appendPort_spec hsocket h port tries capacity heap
  | appendServerSocket o capacity heap =>
    exact appendServerSocket_spec h hop hfresh capacity heap
  | accept_poll polled answers => exact accept_poll_spec hsocket h polled answers
  | clearServerSockets => exact clearServerSockets_spec h

theorem reached_inv (hsocket : Distinct socket) {events : Int}
    (h : Reached socket events Fresh s) : s.Inv := by
  induction h with
  | new => exact inv_new events
  | step _ hop hfresh hexec ih =>
    obtain ⟨ret, s', heq, hinv⟩ := exec_inv hsocket ih hop hfresh
    obtain ⟨-, rfl⟩ := Prod.mk.inj (Option.some.inj (hexec.symm.trans heq))
    exact hinv

/-- In every run on whose steps no socket comes back with a descriptor that has been closed, the list
and the set are consistent in every state, and no step leaves the memory of the set. -/
theorem sockList_consistent (hsocket : Distinct socket) {events : Int}
    (h : Reached socket events Fresh s) :
    Consistent s ∧ ∀ op, s.Allowed op → s.Fresh op → exec socket op s ≠ none := by
  have hinv := reached_inv hsocket h
  refine ⟨hinv.toConsistent, fun op hop hfresh hnone => ?_⟩
  obtain ⟨ret, s', hexec, -⟩ := exec_inv hsocket hinv hop hfresh
  rw [hnone] at hexec
  cases hexec

/-! ## A descriptor that comes back -/

/-- The lowest number that is not open. -/
def lowest (_ : Nat) (fds : List Int) : Int :=
  ((List.range (fds.length + 1)).find? fun n : Nat => (n : Int) ∉ fds).getD 0

theorem lowest_distinct : Distinct lowest := by
  intro n fds
  rw [lowest]
  cases hfind : (List.range (fds.length + 1)).find? fun n : Nat => (n : Int) ∉ fds with
  | some m => exact ⟨Int.natCast_nonneg m, by simpa using List.find?_some hfind⟩
  | none =>
    -- more numbers than descriptors
    have hall : (List.range (fds.length + 1)).map Nat.cast ⊆ fds := by
      intro x hx
      obtain ⟨m, hm, rfl⟩ := List.mem_map.mp hx
      simpa using List.find?_eq_none.mp hfind m hm
    have hnodup : ((List.range (fds.length + 1)).map (Nat.cast : Nat → Int)).Nodup :=
      List.nodup_range.map Nat.cast_injective
    have hlength := (hnodup.subperm hall).length_le
    rw [List.length_map, List.length_range] at hlength
    exact absurd hlength (Nat.not_succ_le_self _)

instance (s : ServerSockets) : (op : SocketOp) → Decidable (s.Allowed op)
  | .ready .. | .destroy .. => inferInstanceAs (Decidable (_ ∧ _ ∧ _))
  | .appendServerSocket .. => inferInstanceAs (Decidable (_ < _))
  | .newServerSocket | .appendPort .. | .accept_poll .. | .clearServerSockets => .isTrue trivial

instance (s : ServerSockets) : (op : SocketOp) → Decidable (s.Fresh op)
  | .ready o .. | .destroy o =>
    decidable_of_iff (∀ x ∈ s.opened, x.1 = s.handle o → x.2 = o)
      ⟨fun h _ hmem => h _ hmem rfl, fun h x hmem hx => h x.2 (hx ▸ hmem)⟩
  | .appendServerSocket .. => inferInstanceAs (Decidable (_ ∨ _))
  | .newServerSocket | .appendPort .. | .accept_poll .. | .clearServerSockets => .isTrue trivial

/-- The steps one after the other, as far as they can be taken and meet a condition. -/
def run (socket : Nat → List Int → Int) (C : ServerSockets → SocketOp → Prop)
    [∀ s op, Decidable (C s op)] : List SocketOp → ServerSockets → Option ServerSockets
  | [], s => some s
  | op :: ops, s =>
    if s.Allowed op ∧ C s op then (exec socket op s).bind fun x => run socket C ops x.2 else none

theorem reached_run {events : Int} {C : ServerSockets → SocketOp → Prop}
    [∀ s op, Decidable (C s op)] (h : Reached socket events C s) {ops : List SocketOp}
    (hrun : run socket C ops s = some s') : Reached socket events C s' := by
  induction ops generalizing s with
  | nil =>
    cases hrun
    exact h
  | cons op ops ih =>
    rw [run] at hrun
    split_ifs at hrun with hop
    obtain ⟨⟨ret, s₁⟩, hexec, hrest⟩ := Option.bind_eq_some_iff.mp hrun
    exact ih (h.step hop.1 hop.2 hexec) hrest

/-- An error of the second socket, which cannot be repaired. -/
def failedRepair : SocketOp :=
  .accept_poll (.ok fun k => if k = 1 then 8 else 0)
    fun _ => ⟨false, fun _ => .noSocket { value := .error }, true, []⟩

/-- Two sockets are appended, the second one is lost, all are cleared, and another one is appended. -/
def freshRun : List SocketOp :=
  [.newServerSocket, .ready 0 80 80 fun _ => .listening, .appendServerSocket 0 true [],
    .appendPort 81 (fun _ => .listening) true [], failedRepair, .clearServerSockets,
    .appendPort 82 (fun _ => .listening) true []]

set_option maxRecDepth 20000 in
theorem sockList_consistent_freshRun :
    ∃ s, run lowest Fresh freshRun (new 1) = some s ∧ s.sockList = [2] ∧ Consistent s := by
  have hfresh : (run lowest Fresh freshRun (new 1)).map sockList = some [2] := by decide
  obtain ⟨s, hrun, hlist⟩ := Option.map_eq_some_iff.mp hfresh
  exact ⟨s, hrun, hlist, (sockList_consistent lowest_distinct (reached_run .new hrun)).1⟩

/-- A socket is appended, all sockets are cleared, and it is appended again. Then a second one gets
its number, and an error of the second one cannot be repaired. -/
def staleRun : List SocketOp :=
  [.newServerSocket, .ready 0 80 80 fun _ => .listening, .appendServerSocket 0 true [],
    .clearServerSockets, .appendServerSocket 0 true [],
    .appendPort 81 (fun _ => .listening) true [], failedRepair]

set_option maxRecDepth 20000 in
/-- The second socket leaves the set, and the first one the list. -/
theorem not_sockList_consistent :
    (∃ s, run lowest (fun _ _ => True) staleRun (new 1) = some s ∧ s.sockList = [1] ∧
      s.poll.entries = [(0, some 0)]) ∧
    ¬ ∀ s, Reached lowest 1 (fun _ _ => True) s → Consistent s := by
  have hstale : (run lowest (fun _ _ => True) staleRun (new 1)).map (fun s => (s.sockList, s.poll.entries)) =
      some ([1], [(0, some 0)]) := by
    decide
  obtain ⟨s, hrun, heq⟩ := Option.map_eq_some_iff.mp hstale
  obtain ⟨hlist, hentries⟩ := Prod.mk.inj heq
  refine ⟨⟨s, hrun, hlist, hentries⟩, fun hall => ?_⟩
  have hsame := (hall s (reached_run .new hrun)).same
  rw [hlist, hentries] at hsame
  have hmem := hsame.subset (List.mem_singleton_self _)
  rw [List.map_singleton, List.mem_singleton] at hmem
  exact absurd (Prod.mk.inj hmem).2 (by decide)

end ServerSockets

end Dframework
