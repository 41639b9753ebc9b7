import Mathlib.Algebra.Order.Ring.Int
import Mathlib.Data.Finset.Insert
import Mathlib.Data.Finset.Sort
import Mathlib.Data.List.InsertIdx
import Mathlib.Data.List.Nodup
import Mathlib.Logic.Function.Basic

/-!
# One server, three event loops

`main` serves a listening TCP socket, a UDP socket and the clients it has
accepted, and waits for them in one of three ways chosen when it is compiled.
A pass is one turn of `while (running)`:

    variant            registered           reported           a client that leaves
    select, pselect    rset, max            tset               FD_CLR
    poll, ppoll        pfds[0 .. nfds)      revents            the rest is shifted down
    epoll              the interest list    events             EPOLL_CTL_DEL

What the kernel answers during a pass is a `Pass`, and the calls the server
makes are logged.  A pass fails, with its log, where a descriptor has no place:
`FD_SET` of one that does not fit an `fd_set`, or a store behind the last
element of `pfds`.
-/

namespace Eltex.SelectPollEpoll

/-- `FD_SETSIZE` -/
def fdSetsize : Nat := 1024

/-- `POLL_MAX` -/
def pollMax : Nat := 1024

/-- `POLLIN` -/
def pollIn : UInt16 := 1

/-- The two sockets `main` opens. -/
structure Sockets where
  tcpsock : Int
  udpsock : Int
  tcp_nonneg : 0 ≤ tcpsock
  tcp_lt : tcpsock < fdSetsize
  udp_nonneg : 0 ≤ udpsock
  udp_lt : udpsock < fdSetsize
  ne : tcpsock ≠ udpsock

/-- What the wait call gives. -/
inductive Wait where
  /-- it returns -1; `poll` may then leave anything in the `revents` -/
  | failed (revents : Nat → UInt16)
  /-- the descriptors reported readable, in the order of `events` -/
  | ready (fds : List Int)

/-- What the kernel answers during one pass. -/
structure Pass where
  wait : Wait
  /-- the value of `accept`, which is called for one descriptor only -/
  accept : Int
  /-- the value of `recv` for each descriptor -/
  recv : Int → Int

/-- The calls that serve a descriptor, with their results where these matter. -/
inductive Call where
  | accept (sock result : Int)
  | recvfrom (sock : Int)
  | recv (sock : Int) (nbytes : Int)
deriving Repr, DecidableEq

/-- The descriptor a call is for. -/
def Call.sock : Call → Int
  | .accept sock _ => sock
  | .recvfrom sock => sock
  | .recv sock _ => sock

/-! ## select -/

def setMax (val max : Int) : Int := if val > max then val else max

structure SelectState where
  rset : Finset Int
  max : Int
  calls : List Call

/-- `FD_SET`, in a range of bits that ends at `FD_SETSIZE`. -/
def fdSet (fd : Int) (set : Finset Int) : Option (Finset Int) :=
  if 0 ≤ fd ∧ fd < fdSetsize then some (insert fd set) else none

section
variable (k : Sockets) (p : Pass)

/-- The body of the `for` loop. -/
def selectBody (tset : Finset Int) (i : Int) (s : SelectState) : Except (List Call) SelectState :=
  if i ∈ tset then
    if i = k.tcpsock then
      let calls := s.calls ++ [.accept i p.accept]
      match fdSet p.accept s.rset with
      | some rset => .ok { rset := rset, max := setMax p.accept s.max, calls := calls }
      | none => .error calls
    else if i = k.udpsock then
      .ok { s with calls := s.calls ++ [.recvfrom k.udpsock] }
    else
      let calls := s.calls ++ [.recv i (p.recv i)]
      if p.recv i = 0 then .ok { s with rset := s.rset.erase i, calls := calls }
      else .ok { s with calls := calls }
  else .ok s

/-- `for (i = 0; i <= max; ++i)`, with the iterations left. -/
def selectLoop (tset : Finset Int) : Nat → Int → SelectState → Except (List Call) SelectState
  | 0, i, s => if i ≤ s.max then .error s.calls else .ok s
  | n + 1, i, s =>
    if i ≤ s.max then (selectBody k p tset i s).bind (selectLoop tset n (i + 1)) else .ok s

/-- The value of `select` and what it leaves in `tset`; a call that fails leaves it as it is. -/
def select (rset : Finset Int) : Int × Finset Int :=
  match p.wait with
  | .failed _ => (-1, rset)
  | .ready fds => ((rset.filter fun fd => fd ∈ fds).card, rset.filter fun fd => fd ∈ fds)

def selectPass (s : SelectState) : Except (List Call) SelectState :=
  let (ret, tset) := select p s.rset
  if ret ≠ 0 then selectLoop k p tset fdSetsize 0 s else .ok s

def selectStart : SelectState where
  rset := {k.tcpsock, k.udpsock}
  max := setMax (if k.tcpsock > k.udpsock then k.tcpsock else k.udpsock) (-1)
  calls := []

end

/-! ## poll -/

structure PollFd where
  fd : Int
  events : UInt16
  revents : UInt16
deriving Repr, DecidableEq

structure PollState where
  /-- the array; what stands at `nfds` and behind it was never written by `main` -/
  pfds : Nat → PollFd
  nfds : Nat
  calls : List Call

/-- `for (s = i; s < nfds; ++s) pfds[s] = pfds[s + 1]`, with the iterations left. -/
def shiftDown : Nat → Nat → (Nat → PollFd) → Nat → PollFd
  | 0, _, pfds => pfds
  | n + 1, s, pfds => shiftDown n (s + 1) (Function.update pfds s (pfds (s + 1)))

section
variable (k : Sockets) (p : Pass)

/-- The body of the `for` loop. -/
def pollBody (i : Nat) (s : PollState) : Except (List Call) PollState :=
  if (s.pfds i).revents &&& pollIn ≠ 0 then
    if (s.pfds i).fd = k.tcpsock then
      let calls := s.calls ++ [.accept k.tcpsock p.accept]
      if s.nfds < pollMax then
        .ok
          { pfds := Function.update s.pfds s.nfds
              { s.pfds s.nfds with fd := p.accept, events := pollIn }
            nfds := s.nfds + 1
            calls := calls }
      else .error calls
    else if (s.pfds i).fd = k.udpsock then
      .ok { s with calls := s.calls ++ [.recvfrom k.udpsock] }
    else
      let nbytes := p.recv (s.pfds i).fd
      let calls := s.calls ++ [.recv (s.pfds i).fd nbytes]
      if nbytes = 0 then
        let pfds := Function.update s.pfds i { s.pfds i with fd := -1, events := 0 }
        .ok { pfds := shiftDown (s.nfds - i) i pfds, nfds := s.nfds - 1, calls := calls }
      else .ok { s with calls := calls }
  else .ok s

/-- `for (i = 0; i < nfds; ++i)`, with the iterations left. -/
def pollLoop : Nat → Nat → PollState → Except (List Call) PollState
  | 0, i, s => if i < s.nfds then .error s.calls else .ok s
  | n + 1, i, s => if i < s.nfds then (pollBody k p i s).bind (pollLoop n (i + 1)) else .ok s

/-- The value of `poll` and what it leaves in `pfds`. -/
def poll (s : PollState) : Int × (Nat → PollFd) :=
  match p.wait with
  | .failed revents =>
    (-1, fun j => if j < s.nfds then { s.pfds j with revents := revents j } else s.pfds j)
  | .ready fds =>
    (((List.range s.nfds).filter fun j => (s.pfds j).fd ∈ fds).length,
      fun j =>
        if j < s.nfds then { s.pfds j with revents := if (s.pfds j).fd ∈ fds then pollIn else 0 }
        else s.pfds j)

def pollPass (s : PollState) : Except (List Call) PollState :=
  let (ret, pfds) := poll p s
  let s := { s with pfds := pfds }
  if ret ≠ 0 then pollLoop k p pollMax 0 s else .ok s

/-- What `main` registers, in an array that holds anything. -/
def pollStart (junk : Nat → PollFd) : PollState where
  pfds := Function.update (Function.update junk 0 { junk 0 with fd := k.tcpsock, events := pollIn })
    1 { junk 1 with fd := k.udpsock, events := pollIn }
  nfds := 2
  calls := []

end

/-! The array up to `nfds`, as a list. -/

def PollState.entries (s : PollState) : List PollFd := (List.range s.nfds).map s.pfds

namespace PollState

variable {s : PollState}

@[simp] theorem length_entries : s.entries.length = s.nfds := by
  rw [entries, List.length_map, List.length_range]

theorem getElem_entries {i : Nat} (h : i < s.entries.length) : s.entries[i] = s.pfds i := by
  simp [entries]

/-- A store behind the last element appends it. -/
theorem entries_store (e : PollFd) (calls : List Call) :
    entries ⟨Function.update s.pfds s.nfds e, s.nfds + 1, calls⟩ = s.entries ++ [e] := by
  show (List.range (s.nfds + 1)).map (Function.update s.pfds s.nfds e) = _
  rw [List.range_succ, List.map_append, List.map_singleton, Function.update_self]
  congr 1
  apply List.map_congr_left
  intro j hj
  have hlt := List.mem_range.1 hj
  exact Function.update_of_ne (by omega) _ _

theorem shiftDown_apply (n : Nat) {i j : Nat} {pfds : Nat → PollFd} :
    shiftDown n i pfds j = if i ≤ j ∧ j < i + n then pfds (j + 1) else pfds j := by
  induction n generalizing i pfds with
  | zero => rw [if_neg (by omega)]; rfl
  | succ n ih =>
    rw [shiftDown, ih]
    by_cases hj : j = i
    · subst hj
      rw [if_neg (by omega), if_pos (by omega), Function.update_self]
    · rw [Function.update_of_ne hj]
      by_cases hin : i ≤ j ∧ j < i + (n + 1)
      · rw [if_pos (by omega), if_pos hin, Function.update_of_ne (by omega)]
      · rw [if_neg (by omega), if_neg hin]

/-- The shift removes element `i`, whatever was stored in it before. -/
theorem entries_shiftDown {i : Nat} (hi : i < s.nfds) (e : PollFd) (calls : List Call) :
    entries ⟨shiftDown (s.nfds - i) i (Function.update s.pfds i e), s.nfds - 1, calls⟩ =
      s.entries.eraseIdx i := by
  apply List.ext_getElem
  · rw [length_entries, List.length_eraseIdx, length_entries, if_pos hi]
  · intro j hj _
    rw [length_entries] at hj
    change j < s.nfds - 1 at hj
    rw [getElem_entries, List.getElem_eraseIdx]
    show shiftDown (s.nfds - i) i _ j = _
    rw [shiftDown_apply]
    by_cases hlt : j < i
    · rw [if_neg (by omega), dif_pos hlt, Function.update_of_ne (by omega), getElem_entries]
    · rw [if_pos (by omega), dif_neg hlt, Function.update_of_ne (by omega), getElem_entries]

/-- Without element `i` the others keep their order; its descriptor stands in one place only. -/
theorem map_fd_eraseIdx {i : Nat} (hi : i < s.nfds) (h : (s.entries.map PollFd.fd).Nodup) :
    (s.entries.eraseIdx i).map PollFd.fd = (s.entries.map PollFd.fd).erase (s.pfds i).fd := by
  have hlen : i < s.entries.length := by
    rw [length_entries]
    exact hi
  have hmap : i < (s.entries.map PollFd.fd).length := by
    rw [List.length_map]
    exact hlen
  have hget : (s.entries.map PollFd.fd)[i] = (s.pfds i).fd := by
    rw [List.getElem_map, getElem_entries]
  rw [← List.eraseIdx_map, ← hget]
  exact (h.erase_getElem i hmap).symm

end PollState

theorem poll_fd (p : Pass) (s : PollState) (j : Nat) : ((poll p s).2 j).fd = (s.pfds j).fd := by
  unfold poll
  cases p.wait <;> simp only <;> split <;> rfl

theorem poll_events (p : Pass) (s : PollState) (j : Nat) :
    ((poll p s).2 j).events = (s.pfds j).events := by
  unfold poll
  cases p.wait <;> simp only <;> split <;> rfl

/-! ## epoll -/

structure EpollState where
  interest : Finset Int
  calls : List Call

/-- `EPOLL_CTL_ADD`; it fails for what is no descriptor or registered. -/
def epollAdd (fd : Int) (interest : Finset Int) : Finset Int :=
  if 0 ≤ fd then insert fd interest else interest

section
variable (k : Sockets) (p : Pass)

/-- The body of the `for` loop. -/
def epollBody (s : EpollState) (fd : Int) : EpollState :=
  if k.udpsock = fd then { s with calls := s.calls ++ [.recvfrom k.udpsock] }
  else if k.tcpsock = fd then
    { interest := epollAdd p.accept s.interest, calls := s.calls ++ [.accept k.tcpsock p.accept] }
  else
    let calls := s.calls ++ [.recv fd (p.recv fd)]
    if p.recv fd = 0 then { interest := s.interest.erase fd, calls := calls }
    else { s with calls := calls }

/-- `epoll_wait` returns the number of events, and -1 is less than each `i`. -/
def epollPass (s : EpollState) : EpollState :=
  match p.wait with
  | .failed _ => s
  | .ready fds => fds.foldl (epollBody k p) s

def epollStart : EpollState where
  interest := insert k.tcpsock {k.udpsock}
  calls := []

end

end Eltex.SelectPollEpoll
