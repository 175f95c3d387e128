import Mathlib
import Dframework.Base.Retval
import Dframework.Base.Sp
import Dframework.Net.Poll

/-!
# The descriptors of a `ServerAccept`

A descriptor stands in the set of a `Poll` and in the socket it belongs to. `Poll::clear` and the
destructor of `Poll` close the copies of the set, and `close` and the destructors of `ServerSocket`
and `ClientSocket` close that of the socket. `Poll::remove` closes nothing. A descriptor here is
the number of its opening, so one that the system gives out again after its closing is a new one.

Results:
1. `exec_kept`: every step goes through, and what it keeps where the set is emptied first.
2. `clear_safe_iff`: when the set can be cleared.
3. `closed_once`: the runs that close no descriptor twice.
-/

namespace Dframework

/-- The sockets of a server: the set they are polled in, `m_aSockList`, `m_iHandle` of each one, and
the references to it that are held elsewhere. `closed` are the descriptors closed so far. -/
structure ServerAccept where
  poll : Poll
  sockList : List ObjId
  handle : ObjId → Int
  others : ObjId → Nat
  opened : Nat
  closed : List Int

namespace ServerAccept

/-- Nothing has been opened yet. -/
def new (events : Int) : ServerAccept :=
  ⟨.new events, [], fun _ => -1, fun _ => 0, 0, []⟩

/-- `::close` of what `DFW_SOCK_ENABLE` accepts. -/
def closeFd (fd : Int) (s : ServerAccept) : ServerAccept :=
  if fd = -1 then s else { s with closed := s.closed ++ [fd] }

/-- `DFW_SOCK_CLOSE(m_iHandle)`: `ServerSocket::close`, `Socket::close` and both destructors. -/
def close (o : ObjId) (s : ServerAccept) : ServerAccept :=
  { s.closeFd (s.handle o) with handle := Function.update s.handle o (-1) }

def openFd (o : ObjId) (s : ServerAccept) : ServerAccept :=
  { s with handle := Function.update s.handle o s.opened, opened := s.opened + 1 }

/-- What a port answers to `ServerSocket::create`: no socket, a socket that cannot be set up, or one
that listens. -/
inductive PortTry where
  | noSocket
  | notReady
  | listening
  deriving DecidableEq, Repr

/-- The loop of `create`. The `close` at its end is the one behind a loop that has failed. -/
def createLoop (o : ObjId) : List PortTry → ServerAccept → ServerAccept
  | [], s => s.close o
  | .noSocket :: tries, s => createLoop o tries (s.close o)
  | .notReady :: tries, s => createLoop o tries ((s.close o).openFd o)
  | .listening :: _, s => (s.close o).openFd o

/-- `ServerSocket::create`, with what the ports from the first one on answer. -/
def create (o : ObjId) (tries : List PortTry) (s : ServerAccept) : ServerAccept :=
  if tries = [] then s else createLoop o tries s

/-- The count of a socket, of which `pairs` are held by the set. -/
def refs (pairs : List (Int × Option ObjId)) (o : ObjId) (s : ServerAccept) : Nat :=
  s.others o + s.sockList.count o + (pairs.map (·.2)).count (some o)

/-- `sp<Object>::docking`, which gives a reference back: with the last one the socket is gone. -/
def docking (pairs : List (Int × Option ObjId)) (obj : Option ObjId) (s : ServerAccept) :
    ServerAccept :=
  match obj with
  | none => s
  | some o => if s.refs pairs o = 0 then s.close o else s

/-- The loop of `Poll::clear` and of the destructor of `Poll`. -/
def closeAll : List (Int × Option ObjId) → ServerAccept → ServerAccept
  | [], s => s
  | (fd, obj) :: pairs, s => closeAll pairs ((s.closeFd fd).docking pairs obj)

def clear (s : ServerAccept) : Option ServerAccept := do
  let (pairs, q) ← s.poll.clear
  some { s.closeAll pairs with poll := q }

/-- `Poll::~Poll`. A new set may be made afterwards. -/
def destroy (s : ServerAccept) : Option ServerAccept := do
  let pairs ← s.poll.release
  some { s.closeAll pairs with poll := .new s.poll.events }

/-- The loop of `m_aSockList.clear()`. -/
def clearList : List ObjId → ServerAccept → ServerAccept
  | [], s => { s with sockList := [] }
  | o :: socks, s => clearList socks (({ s with sockList := socks }).docking s.poll.entries o)

def clearServerSockets (s : ServerAccept) : Option ServerAccept := do
  let s ← s.clear
  some (clearList s.sockList s)

/-- The loop of `ServerAccept::stop`, from the last place of the set to the first. -/
def stop (s : ServerAccept) : ServerAccept :=
  (s.poll.entries.reverse.filterMap (·.2)).foldl (fun s o => s.close o) s

/-- What the program does. `append` names what the allocations answer. -/
inductive AcceptOp where
  | newServerSocket (o : ObjId)
  | newClientSocket (o : ObjId)
  | share (o : ObjId)
  | drop (o : ObjId)
  | create (o : ObjId) (tries : List PortTry)
  | close (o : ObjId)
  | append (o : ObjId) (heap : Heap)
  | remove (position : Int)
  | insert (o : ObjId) (position : Nat)
  | erase (o : ObjId)
  | clear
  | destroy
  | clearServerSockets
  | stop
  deriving DecidableEq, Repr

/-- A new socket stands where no other one is. The other sockets are reached through a reference. -/
def Allowed (s : ServerAccept) : AcceptOp → Prop
  | .newServerSocket o | .newClientSocket o => s.refs s.poll.entries o = 0
  | .share o => 0 < s.refs s.poll.entries o
  | .drop o | .create o _ | .close o | .append o _ | .insert o _ => 0 < s.others o
  | .erase o => o ∈ s.sockList
  | .remove _ | .clear | .destroy | .clearServerSockets | .stop => True

/-- The operation. Nothing is answered for an access outside a block. -/
def exec : AcceptOp → ServerAccept → Option ServerAccept
  | .newServerSocket o, s =>
    some { s with
      handle := Function.update s.handle o (-1)
      others := Function.update s.others o 1 }
  | .newClientSocket o, s => some { s.openFd o with others := Function.update s.others o 1 }
  | .share o, s => some { s with others := Function.update s.others o (s.others o + 1) }
  | .drop o, s =>
    some (({ s with others := Function.update s.others o (s.others o - 1) }).docking
      s.poll.entries (some o))
  | .create o tries, s => some (s.create o tries)
  | .close o, s => some (s.close o)
  | .append o heap, s => do
    let (_, _, q, _) ← s.poll.append (s.handle o) (some o) heap
    some { s with poll := q }
  | .remove position, s => do
    let (obj, q) ← s.poll.remove position
    some (({ s with poll := q }).docking q.entries obj)
  | .insert o position, s => some { s with sockList := s.sockList.insertIdx position o }
  | .erase o, s =>
    some (({ s with sockList := s.sockList.erase o }).docking s.poll.entries (some o))
  | .clear, s => s.clear
  | .destroy, s => s.destroy
  | .clearServerSockets, s => s.clearServerSockets
  | .stop, s => some s.stop

/-- The states of the runs from a new server on whose steps all meet a condition. -/
inductive Reached (events : Int) (C : AcceptOp → ServerAccept → Prop) : ServerAccept → Prop
  | new : Reached events C (.new events)
  | step {s s' : ServerAccept} {op : AcceptOp} (hs : Reached events C s) (hop : s.Allowed op)
      (hC : C op s) (hexec : exec op s = some s') : Reached events C s'

/-- No descriptor of the set is left where the set is closed. -/
def Emptied : AcceptOp → ServerAccept → Prop
  | .clear, s | .destroy, s | .clearServerSockets, s => ∀ x ∈ s.poll.entries, x.1 = -1
  | _, _ => True

variable {s s' : ServerAccept} {events : Int}

@[simp] theorem closeFd_none (s : ServerAccept) : s.closeFd (-1) = s :=
  if_pos rfl

theorem closeFd_of_ne {fd : Int} (h : fd ≠ -1) (s : ServerAccept) :
    s.closeFd fd = { s with closed := s.closed ++ [fd] } :=
  if_neg h

@[simp] theorem closeFd_poll (fd : Int) (s : ServerAccept) : (s.closeFd fd).poll = s.poll := by
  rw [closeFd]
  split_ifs <;> rfl

@[simp] theorem close_poll (o : ObjId) (s : ServerAccept) : (s.close o).poll = s.poll :=
  closeFd_poll _ s

/-- With the last reference the socket is closed, and nothing else happens. -/
theorem docking_cases (pairs : List (Int × Option ObjId)) (obj : Option ObjId) (s : ServerAccept) :
    s.docking pairs obj = s ∨ ∃ o, obj = some o ∧ s.docking pairs obj = s.close o := by
  cases obj with
  | none => exact .inl rfl
  | some o =>
    rw [docking]
    split_ifs
    · exact .inr ⟨o, rfl, rfl⟩
    · exact .inl rfl

@[simp] theorem docking_poll (pairs : List (Int × Option ObjId)) (obj : Option ObjId)
    (s : ServerAccept) : (s.docking pairs obj).poll = s.poll := by
  rcases docking_cases pairs obj s with h | ⟨o, -, h⟩
  · rw [h]
  · rw [h, close_poll]

@[simp] theorem createLoop_poll (o : ObjId) (tries : List PortTry) (s : ServerAccept) :
    (createLoop o tries s).poll = s.poll := by
  induction tries generalizing s with
  | nil => exact close_poll o s
  | cons t tries ih =>
    cases t with
    | noSocket => exact (ih _).trans (close_poll o s)
    | notReady => exact (ih _).trans (close_poll o s)
    | listening => exact close_poll o s

@[simp] theorem clearList_poll (socks : List ObjId) (s : ServerAccept) :
    (clearList socks s).poll = s.poll := by
  induction socks generalizing s with
  | nil => rfl
  | cons o socks ih => exact (ih _).trans (docking_poll _ _ _)

@[simp] theorem stop_poll (s : ServerAccept) : s.stop.poll = s.poll := by
  rw [stop]
  generalize s.poll.entries.reverse.filterMap (·.2) = socks
  induction socks generalizing s with
  | nil => rfl
  | cons o socks ih => exact (ih _).trans (close_poll o s)

/-! ## The sockets own their descriptors -/

/-- No descriptor has been closed twice, and none that a socket holds has been closed. -/
structure Safe (s : ServerAccept) : Prop where
  nodup : s.closed.Nodup
  held : ∀ o, s.handle o ≠ -1 → s.handle o ∉ s.closed

/-- Each descriptor has one socket that holds it. -/
structure Owned (s : ServerAccept) : Prop extends Safe s where
  closed_lt : ∀ fd ∈ s.closed, fd < s.opened
  handle_lt : ∀ o, s.handle o < s.opened
  inj : ∀ o o', s.handle o = s.handle o' → s.handle o ≠ -1 → o = o'

theorem owned_new (events : Int) : Owned (new events) where
  nodup := List.nodup_nil
  held _ h := absurd rfl h
  closed_lt _ h := nomatch h
  handle_lt _ := show (-1 : Int) < (0 : Nat) by decide
  inj _ _ _ h := absurd rfl h

theorem Owned.congr (h : Owned s) (hhandle : s'.handle = s.handle) (hopened : s'.opened = s.opened)
    (hclosed : s'.closed = s.closed) : Owned s' where
  nodup := hclosed ▸ h.nodup
  held := by
    rw [hhandle, hclosed]
    exact h.held
  closed_lt := by
    rw [hclosed, hopened]
    exact h.closed_lt
  handle_lt := by
    rw [hhandle, hopened]
    exact h.handle_lt
  inj := by
    rw [hhandle]
    exact h.inj

/-- A socket without a descriptor. -/
theorem Owned.update_none (h : Owned s) (o : ObjId) :
    Owned { s with handle := Function.update s.handle o (-1) } := by
  have hof : ∀ o', Function.update s.handle o (-1) o' ≠ -1 →
      Function.update s.handle o (-1) o' = s.handle o' := by
    intro o' hne
    by_cases ho : o' = o
    · subst ho
      exact absurd (Function.update_self _ _ _) hne
    · exact Function.update_of_ne ho _ _
  refine ⟨⟨h.nodup, fun o' hne => ?_⟩, h.closed_lt, fun o' => ?_, fun o₁ o₂ heq hne => ?_⟩
  · show Function.update s.handle o (-1) o' ∉ s.closed
    rw [hof o' hne]
    exact h.held o' (hof o' hne ▸ hne)
  · show Function.update s.handle o (-1) o' < s.opened
    by_cases ho : Function.update s.handle o (-1) o' = -1
    · rw [ho]
      omega
    · rw [hof o' ho]
      exact h.handle_lt o'
  · have heq : Function.update s.handle o (-1) o₁ = Function.update s.handle o (-1) o₂ := heq
    have h₁ := hof o₁ hne
    have h₂ := hof o₂ (heq ▸ hne)
    exact h.inj o₁ o₂ (by rw [← h₁, ← h₂, heq]) (h₁ ▸ hne)

theorem Owned.close (h : Owned s) (o : ObjId) : Owned (s.close o) := by
  have hnone := h.update_none o
  rw [ServerAccept.close]
  by_cases ho : s.handle o = -1
  · rw [ho, closeFd_none]
    exact hnone
  · rw [closeFd_of_ne ho]
    have hheld : ∀ o', Function.update s.handle o (-1) o' ≠ -1 →
        Function.update s.handle o (-1) o' ∉ s.closed ++ [s.handle o] := by
      intro o' hne
      have hne' : o' ≠ o := by
        rintro rfl
        exact hne (Function.update_self _ _ _)
      rw [Function.update_of_ne hne'] at hne ⊢
      rw [List.mem_append, List.mem_singleton, not_or]
      exact ⟨h.held o' hne, fun heq => hne' (h.inj o' o heq hne)⟩
    refine ⟨⟨?_, hheld⟩, fun fd hfd => ?_, hnone.handle_lt, hnone.inj⟩
    · exact List.nodup_append.mpr ⟨h.nodup, List.nodup_singleton _, fun a ha b hb hab =>
        h.held o ho (List.mem_singleton.mp hb ▸ hab ▸ ha)⟩
    · rcases List.mem_append.mp hfd with hmem | hmem
      · exact h.closed_lt fd hmem
      · rw [List.mem_singleton.mp hmem]
        exact h.handle_lt o

theorem Owned.openFd (h : Owned s) (o : ObjId) : Owned (s.openFd o) := by
  have hother : ∀ o' ≠ o, Function.update s.handle o (s.opened : Int) o' = s.handle o' :=
    fun o' ho => Function.update_of_ne ho _ _
  have hself : Function.update s.handle o (s.opened : Int) o = s.opened :=
    Function.update_self _ _ _
  refine ⟨⟨h.nodup, fun o' hne => ?_⟩, fun fd hfd => ?_, fun o' => ?_, fun o₁ o₂ heq hne => ?_⟩
  · show Function.update s.handle o (s.opened : Int) o' ∉ s.closed
    by_cases ho : o' = o
    · rw [ho, hself]
      exact fun hmem => absurd (h.closed_lt _ hmem) (lt_irrefl _)
    · rw [hother o' ho]
      exact h.held o' (hother o' ho ▸ hne)
  · exact (h.closed_lt fd hfd).trans (Int.ofNat_lt.mpr (Nat.lt_succ_self _))
  · show Function.update s.handle o (s.opened : Int) o' < (s.opened + 1 : Nat)
    by_cases ho : o' = o
    · rw [ho, hself]
      exact Int.ofNat_lt.mpr (Nat.lt_succ_self _)
    · rw [hother o' ho]
      exact (h.handle_lt o').trans (Int.ofNat_lt.mpr (Nat.lt_succ_self _))
  · have heq : Function.update s.handle o (s.opened : Int) o₁ =
        Function.update s.handle o (s.opened : Int) o₂ := heq
    by_cases h₁ : o₁ = o <;> by_cases h₂ : o₂ = o
    · rw [h₁, h₂]
    · rw [h₁, hself, hother o₂ h₂] at heq
      exact absurd (h.handle_lt o₂) (heq ▸ lt_irrefl _)
    · rw [h₂, hself, hother o₁ h₁] at heq
      exact absurd (h.handle_lt o₁) (heq ▸ lt_irrefl _)
    · rw [hother o₁ h₁, hother o₂ h₂] at heq
      exact h.inj o₁ o₂ heq (hother o₁ h₁ ▸ hne)

theorem Owned.docking (h : Owned s) (pairs : List (Int × Option ObjId)) (obj : Option ObjId) :
    Owned (s.docking pairs obj) := by
  rcases docking_cases pairs obj s with heq | ⟨o, -, heq⟩
  · rwa [heq]
  · rw [heq]
    exact h.close o

theorem Owned.createLoop (h : Owned s) (o : ObjId) (tries : List PortTry) :
    Owned (createLoop o tries s) := by
  induction tries generalizing s with
  | nil => exact h.close o
  | cons t tries ih =>
    cases t with
    | noSocket => exact ih (h.close o)
    | notReady => exact ih ((h.close o).openFd o)
    | listening => exact (h.close o).openFd o

/-- The loop of `Poll::clear` where no descriptor is left. -/
theorem Owned.closeAll (h : Owned s) {pairs : List (Int × Option ObjId)}
    (hfd : ∀ x ∈ pairs, x.1 = -1) : Owned (s.closeAll pairs) := by
  induction pairs generalizing s with
  | nil => exact h
  | cons x pairs ih =>
    obtain ⟨fd, obj⟩ := x
    rw [List.forall_mem_cons] at hfd
    obtain ⟨rfl, hrest⟩ : fd = -1 ∧ ∀ x ∈ pairs, x.1 = -1 := hfd
    rw [ServerAccept.closeAll, closeFd_none]
    exact ih (h.docking pairs obj) hrest

theorem Owned.clearList (h : Owned s) (socks : List ObjId) : Owned (clearList socks s) := by
  induction socks generalizing s with
  | nil => exact h.congr rfl rfl rfl
  | cons o socks ih =>
    have hcut : Owned { s with sockList := socks } := h.congr rfl rfl rfl
    exact ih (hcut.docking s.poll.entries o)

theorem Owned.stop (h : Owned s) : Owned s.stop := by
  rw [ServerAccept.stop]
  generalize s.poll.entries.reverse.filterMap (·.2) = socks
  induction socks generalizing s with
  | nil => exact h
  | cons o socks ih => exact ih (h.close o)

/-! ## A step -/

/-- What `Poll::clear` does to the sockets. -/
theorem clear_eq (hok : s.poll.Ok) :
    ∃ q, s.clear = some { s.closeAll s.poll.entries with poll := q } ∧
    q.Ok ∧ q.entries = [] := by
  obtain ⟨q, hclear, hq, hused⟩ := Poll.clear_spec hok
  refine ⟨q, by rw [clear, hclear]; rfl, hq, ?_⟩
  rw [Poll.entries, hused]
  rfl

theorem destroy_eq (hok : s.poll.Ok) :
    s.destroy = some { s.closeAll s.poll.entries with poll := .new s.poll.events } := by
  rw [destroy, Poll.release_eq hok]
  rfl

theorem clearServerSockets_eq (hok : s.poll.Ok) :
    ∃ q, s.clearServerSockets = some (clearList (s.closeAll s.poll.entries).sockList
      { s.closeAll s.poll.entries with poll := q }) ∧ q.Ok ∧ q.entries = [] := by
  obtain ⟨q, hclear, hq, hnil⟩ := clear_eq hok
  exact ⟨q, by rw [clearServerSockets, hclear]; rfl, hq, hnil⟩

/-- A pair of the set is taken out, or the set stays as it is. -/
theorem remove_eq (hok : s.poll.Ok) (position : Int) : ∃ obj q,
    s.poll.remove position = some (obj, q) ∧ q.Ok ∧ ∀ x ∈ q.entries, x ∈ s.poll.entries := by
  by_cases hin : 0 ≤ position ∧ position < s.poll.used
  · obtain ⟨k, rfl⟩ := Int.eq_ofNat_of_zero_le hin.1
    have hk : k < s.poll.used := Int.ofNat_lt.mp hin.2
    obtain ⟨obj, q, hrem, hq⟩ := Poll.remove_spec hok hk
    exact ⟨obj, q, hrem, hq.ok, fun x hx => (hq.perm hk).mem_iff.mpr (List.mem_cons_of_mem _ hx)⟩
  · exact ⟨none, s.poll, Poll.remove_outside hin, hok, fun _ hx => hx⟩

/-! ## The copies in the set -/

/-- How often a descriptor has been closed, or will have been when a socket is closed. -/
def closings (fd : Int) (o : ObjId) (s : ServerAccept) : Nat :=
  s.closed.count fd + if s.handle o = fd then 1 else 0

/-- No closing is taken back. -/
def Follows (s s' : ServerAccept) : Prop :=
  ∀ fd ≠ -1, ∀ o, s.closings fd o ≤ s'.closings fd o

theorem Follows.trans {s₁ s₂ s₃ : ServerAccept} (h : Follows s₁ s₂) (h' : Follows s₂ s₃) :
    Follows s₁ s₃ :=
  fun fd hfd o => (h fd hfd o).trans (h' fd hfd o)

/-- The handle goes over into the closed ones. -/
theorem follows_close (o : ObjId) (s : ServerAccept) : Follows s (s.close o) := by
  intro fd hfd o'
  have hclosed : (s.close o).closed.count fd =
      s.closed.count fd + if s.handle o = fd then 1 else 0 := by
    rw [close]
    by_cases ho : s.handle o = -1
    · rw [if_neg (by rw [ho]; exact hfd.symm), ho, closeFd_none, Nat.add_zero]
    · rw [closeFd_of_ne ho]
      show (s.closed ++ [s.handle o]).count fd = _
      rw [List.count_append, List.count_singleton]
      simp only [beq_iff_eq]
  have hhandle : (s.close o).handle = Function.update s.handle o (-1) := rfl
  rw [closings, closings, hclosed, hhandle]
  by_cases ho : o' = o
  · rw [ho]
    exact Nat.le_add_right _ _
  · rw [Function.update_of_ne ho]
    exact Nat.add_le_add_right (Nat.le_add_right _ _) _

/-- A socket that holds none gets a descriptor. -/
theorem follows_openFd {o : ObjId} (h : s.handle o = -1) : Follows s (s.openFd o) := by
  intro fd hfd o'
  refine Nat.add_le_add_left ?_ _
  show _ ≤ if Function.update s.handle o (s.opened : Int) o' = fd then 1 else 0
  by_cases ho : o' = o
  · rw [ho, h, if_neg hfd.symm]
    exact Nat.zero_le _
  · rw [Function.update_of_ne ho]

theorem follows_docking (pairs : List (Int × Option ObjId)) (obj : Option ObjId)
    (s : ServerAccept) : Follows s (s.docking pairs obj) := by
  rcases docking_cases pairs obj s with h | ⟨o, -, h⟩
  · rw [h]
    exact fun _ _ _ => le_rfl
  · rw [h]
    exact follows_close o s

theorem follows_createLoop (o : ObjId) (tries : List PortTry) (s : ServerAccept) :
    Follows s (createLoop o tries s) := by
  have hopen : ∀ s : ServerAccept, Follows s ((s.close o).openFd o) := fun s =>
    (follows_close o s).trans (follows_openFd (Function.update_self _ _ _))
  induction tries generalizing s with
  | nil => exact follows_close o s
  | cons t tries ih =>
    cases t with
    | noSocket => exact (follows_close o s).trans (ih _)
    | notReady => exact (hopen s).trans (ih _)
    | listening => exact hopen s

theorem follows_stop (s : ServerAccept) : Follows s s.stop := by
  rw [stop]
  generalize s.poll.entries.reverse.filterMap (·.2) = socks
  induction socks generalizing s with
  | nil => exact fun _ _ _ => le_rfl
  | cons o socks ih => exact (follows_close o s).trans (ih _)

/-- Each descriptor of the set is closed once more. -/
theorem closings_closeAll {fd : Int} (hfd : fd ≠ -1) (o : ObjId)
    (pairs : List (Int × Option ObjId)) (s : ServerAccept) :
    s.closings fd o + (pairs.map (·.1)).count fd ≤ (s.closeAll pairs).closings fd o := by
  induction pairs generalizing s with
  | nil => exact le_rfl
  | cons x pairs ih =>
    obtain ⟨fd', obj⟩ := x
    have hfirst :
        s.closings fd o + (if fd' = fd then 1 else 0) ≤ (s.closeFd fd').closings fd o := by
      by_cases hne : fd' = -1
      · rw [if_neg (by rw [hne]; exact hfd.symm), hne, closeFd_none, Nat.add_zero]
      · rw [closeFd_of_ne hne, closings, closings]
        show _ ≤ (s.closed ++ [fd']).count fd + _
        rw [List.count_append, List.count_singleton]
        simp only [beq_iff_eq]
        exact (Nat.add_right_comm _ _ _).le
    have hdock := follows_docking pairs obj (s.closeFd fd') fd hfd o
    have hrest := ih ((s.closeFd fd').docking pairs obj)
    show _ ≤ (closeAll pairs ((s.closeFd fd').docking pairs obj)).closings fd o
    rw [List.map_cons, List.count_cons]
    simp only [beq_iff_eq]
    omega

/-- Each descriptor of the set has been closed, or its socket holds it. -/
def Copied (s : ServerAccept) : Prop :=
  ∀ x ∈ s.poll.entries, x.1 ≠ -1 → ∃ o, x.2 = some o ∧ 0 < s.closings x.1 o

theorem Copied.mono (h : Copied s) (hfollows : Follows s s')
    (hsub : ∀ x ∈ s'.poll.entries, x ∈ s.poll.entries) : Copied s' := by
  intro x hx hne
  obtain ⟨o, ho, hpos⟩ := h x (hsub x hx) hne
  exact ⟨o, ho, hpos.trans_le (hfollows x.1 hne o)⟩

theorem copied_of_entries_nil (h : s.poll.entries = []) : Copied s := by
  intro x hx
  rw [h] at hx
  nomatch hx

/-- No place of the set is that of a socket without a reference. -/
theorem ne_of_refs_eq_zero {o o' : ObjId} (h : s.refs s.poll.entries o = 0)
    {x : Int × Option ObjId} (hx : x ∈ s.poll.entries) (ho : x.2 = some o') : o' ≠ o := by
  rintro rfl
  have hmem : some o' ∈ s.poll.entries.map (·.2) := ho ▸ List.mem_map_of_mem hx
  have hpos := List.count_pos_iff.mpr hmem
  rw [refs] at h
  omega

/-- A new socket is that of no place of the set. -/
theorem Copied.fresh (h : Copied s) {o : ObjId} (hrefs : s.refs s.poll.entries o = 0)
    (hpoll : s'.poll = s.poll) (hclosed : s'.closed = s.closed)
    (hhandle : ∀ o' ≠ o, s'.handle o' = s.handle o') : Copied s' := by
  intro x hx hne
  rw [hpoll] at hx
  obtain ⟨o', ho', hpos⟩ := h x hx hne
  refine ⟨o', ho', ?_⟩
  rwa [closings, hclosed, hhandle o' (ne_of_refs_eq_zero hrefs hx ho')]

/-! ## Runs -/

/-- What holds in the states of the runs that leave no descriptor in the set. -/
structure Kept (s : ServerAccept) : Prop where
  ok : s.poll.Ok
  owned : Owned s
  copied : Copied s

theorem kept_new (events : Int) : Kept (new events) :=
  ⟨Poll.new_ok events, owned_new events, copied_of_entries_nil rfl⟩

/-- A step that leaves the set as it is. -/
theorem Kept.of_poll_eq (h : Kept s) (hpoll : s'.poll = s.poll) (howned : Owned s')
    (hfollows : Follows s s') : Kept s' := by
  refine ⟨hpoll ▸ h.ok, howned, h.copied.mono hfollows fun x hx => ?_⟩
  rwa [hpoll] at hx

/-- A step behind which the set holds nothing. -/
theorem Kept.of_entries_nil (hok : s.poll.Ok) (hnil : s.poll.entries = []) (howned : Owned s) :
    Kept s :=
  ⟨hok, howned, copied_of_entries_nil hnil⟩

theorem Kept.append (h : Kept s) (o : ObjId) (heap : Heap) :
    ∃ s', exec (.append o heap) s = some s' ∧ Kept s' := by
  obtain ⟨ret, out, q, heap', happ, hq⟩ := Poll.append_spec h.ok (s.handle o) (some o) heap
  refine ⟨{ s with poll := q }, by rw [exec, happ]; rfl, hq.ok, h.owned.congr rfl rfl rfl, ?_⟩
  cases ret with
  | some e =>
    rw [hq.same (Option.some_ne_none e)]
    exact h.copied
  | none =>
    intro x hx hne
    obtain ⟨-, hput⟩ := hq.put rfl
    have hx : x ∈ s.poll.entries ++ [(s.handle o, some o)] := hput ▸ hx
    rcases List.mem_append.mp hx with hmem | hmem
    · exact h.copied x hmem hne
    · rw [List.mem_singleton.mp hmem]
      refine ⟨o, rfl, ?_⟩
      rw [closings, if_pos rfl]
      exact Nat.succ_pos _

theorem Kept.remove (h : Kept s) (position : Int) :
    ∃ s', exec (.remove position) s = some s' ∧ Kept s' := by
  obtain ⟨obj, q, hrem, hq, hsub⟩ := remove_eq h.ok position
  have hcut : Kept { s with poll := q } :=
    ⟨hq, h.owned.congr rfl rfl rfl, h.copied.mono (fun _ _ _ => le_rfl) hsub⟩
  exact ⟨_, by rw [exec, hrem]; rfl, hcut.of_poll_eq (docking_poll _ _ _)
    (hcut.owned.docking _ _) (follows_docking _ _ _)⟩

/-- Every step that is allowed goes through. -/
theorem exec_kept (h : Kept s) {op : AcceptOp} (hop : s.Allowed op) (hE : Emptied op s) :
    ∃ s', exec op s = some s' ∧ Kept s' := by
  cases op with
  | newServerSocket o =>
    exact ⟨_, rfl, h.ok, (h.owned.update_none o).congr rfl rfl rfl,
      h.copied.fresh hop rfl rfl fun o' ho => Function.update_of_ne ho _ _⟩
  | newClientSocket o =>
    exact ⟨_, rfl, h.ok, (h.owned.openFd o).congr rfl rfl rfl,
      h.copied.fresh hop rfl rfl fun o' ho => Function.update_of_ne ho _ _⟩
  | share o => exact ⟨_, rfl, h.ok, h.owned.congr rfl rfl rfl, h.copied⟩
  | drop o =>
    have hcut : Kept { s with others := Function.update s.others o (s.others o - 1) } :=
      ⟨h.ok, h.owned.congr rfl rfl rfl, h.copied⟩
    exact ⟨_, rfl, hcut.of_poll_eq (docking_poll _ _ _) (hcut.owned.docking _ _)
      (follows_docking _ _ _)⟩
  | create o tries =>
    refine ⟨_, rfl, ?_⟩
    rw [create]
    split_ifs
    · exact h
    · exact h.of_poll_eq (createLoop_poll o tries s) (h.owned.createLoop o tries)
        (follows_createLoop o tries s)
  | close o => exact ⟨_, rfl, h.of_poll_eq (close_poll o s) (h.owned.close o) (follows_close o s)⟩
  | append o heap => exact h.append o heap
  | remove position => exact h.remove position
  | insert o position => exact ⟨_, rfl, h.ok, h.owned.congr rfl rfl rfl, h.copied⟩
  | erase o =>
    have hcut : Kept { s with sockList := s.sockList.erase o } :=
      ⟨h.ok, h.owned.congr rfl rfl rfl, h.copied⟩
    exact ⟨_, rfl, hcut.of_poll_eq (docking_poll _ _ _) (hcut.owned.docking _ _)
      (follows_docking _ _ _)⟩
  | clear =>
    obtain ⟨q, hclear, hq, hnil⟩ := clear_eq h.ok
    exact ⟨_, hclear, .of_entries_nil hq hnil ((h.owned.closeAll hE).congr rfl rfl rfl)⟩
  | destroy =>
    exact ⟨_, destroy_eq h.ok, .of_entries_nil (Poll.new_ok _) rfl
      ((h.owned.closeAll hE).congr rfl rfl rfl)⟩
  | clearServerSockets =>
    obtain ⟨q, hclear, hq, hnil⟩ := clearServerSockets_eq h.ok
    have hcut : Owned { s.closeAll s.poll.entries with poll := q } :=
      (h.owned.closeAll hE).congr rfl rfl rfl
    refine ⟨_, hclear, .of_entries_nil ?_ ?_ (hcut.clearList _)⟩
    · rw [clearList_poll]
      exact hq
    · rw [clearList_poll]
      exact hnil
  | stop => exact ⟨_, rfl, h.of_poll_eq (stop_poll s) h.owned.stop (follows_stop s)⟩

theorem kept_of_reached (h : Reached events Emptied s) : Kept s := by
  induction h with
  | new => exact kept_new events
  | step _ hop hE hexec ih =>
    obtain ⟨s₁, hs₁, hkept⟩ := exec_kept ih hop hE
    rw [hexec] at hs₁
    exact Option.some.inj hs₁ ▸ hkept

/-- The descriptors of a set can be closed with it only where there are none. -/
theorem safe_closeAll_iff (h : Kept s) :
    Safe (s.closeAll s.poll.entries) ↔ ∀ x ∈ s.poll.entries, x.1 = -1 := by
  refine ⟨fun hsafe x hx => ?_, fun hE => (h.owned.closeAll hE).toSafe⟩
  by_contra hne
  obtain ⟨o, -, hpos⟩ := h.copied x hx hne
  have hmany := closings_closeAll hne o s.poll.entries s
  have hcount := List.count_pos_iff.mpr (List.mem_map_of_mem (f := (·.1)) hx)
  -- the copy in the set is closed, and the one of the socket has been or is still held
  have hone : (s.closeAll s.poll.entries).closings x.1 o ≤ 1 := by
    rw [closings]
    split_ifs with hheld
    · have hnot := hsafe.held o (hheld ▸ hne)
      rw [hheld] at hnot
      rw [List.count_eq_zero.mpr hnot]
    · exact List.nodup_iff_count_le_one.mp hsafe.nodup x.1
  omega

/-- What is not safe closes a descriptor twice, at the latest with the next `close` of a socket. -/
theorem exists_close_of_not_safe (h : ¬ Safe s) :
    ¬ s.closed.Nodup ∨ ∃ o, ¬ (s.close o).closed.Nodup := by
  by_cases hnodup : s.closed.Nodup
  · right
    by_contra! hall
    refine h ⟨hnodup, fun o hne hmem => ?_⟩
    have hclose := hall o
    rw [close, closeFd_of_ne hne] at hclose
    exact (List.nodup_append.mp hclose).2.2 _ hmem _ (List.mem_singleton_self _) rfl
  · exact .inl hnodup

/-- A clearing of the set is safe where it has been emptied, and only there. -/
theorem clear_safe_iff (h : Reached events Emptied s) (hclear : exec .clear s = some s') :
    Safe s' ↔ Emptied .clear s := by
  have hkept := kept_of_reached h
  obtain ⟨q, heq, -, -⟩ := clear_eq hkept.ok
  obtain rfl := Option.some.inj (hclear.symm.trans heq)
  rw [Emptied, ← safe_closeAll_iff hkept]
  exact ⟨fun hs => ⟨hs.nodup, hs.held⟩, fun hs => ⟨hs.nodup, hs.held⟩⟩

/-- Where the set is emptied by `remove` before it is cleared or destroyed, no run closes a
descriptor twice. -/
theorem closed_once (h : Reached events Emptied s) : s.closed.Nodup :=
  (kept_of_reached h).owned.nodup

set_option maxRecDepth 20000 in
/-- A socket is put into the set and taken out of it again. -/
theorem closed_once_removed : ∃ s : ServerAccept, s.closed = [0] ∧ s.closed.Nodup := by
  have h₁ : Reached 1 Emptied _ := .step .new
    (show (ServerAccept.new 1).Allowed (.newClientSocket 0) from rfl) trivial rfl
  have h₂ := h₁.step (show Allowed _ (.append 0 []) from Nat.one_pos) trivial rfl
  have h₃ := h₂.step (show Allowed _ (.remove 0) from trivial) trivial rfl
  have h₄ := h₃.step (show Allowed _ .clear from trivial) (fun x hx => nomatch hx) rfl
  have h₅ := h₄.step (show Allowed _ (.drop 0) from Nat.one_pos) trivial rfl
  exact ⟨_, rfl, closed_once h₅⟩

set_option maxRecDepth 20000 in
/-- A set is cleared with a socket in it, which is closed afterwards. -/
theorem not_closed_once :
    ¬ ∀ (events : Int) (s : ServerAccept), Reached events (fun _ _ => True) s → s.closed.Nodup := by
  intro hall
  have h₁ : Reached 1 (fun _ _ => True) _ := .step .new
    (show (ServerAccept.new 1).Allowed (.newClientSocket 0) from rfl) trivial rfl
  have h₂ := h₁.step (show Allowed _ (.append 0 []) from Nat.one_pos) trivial rfl
  have h₃ := h₂.step (show Allowed _ .clear from trivial) trivial rfl
  have h₄ := h₃.step (show Allowed _ (.close 0) from Nat.one_pos) trivial rfl
  have hnodup : ([0, 0] : List Int).Nodup := hall 1 _ h₄
  exact absurd hnodup (by decide)

end ServerAccept

end Dframework
