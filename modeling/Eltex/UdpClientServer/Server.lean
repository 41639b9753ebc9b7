import Eltex.Lib.MsgQueue
import Eltex.Lib.Run
import Mathlib.Algebra.GroupWithZero.Nat
import Mathlib.Data.Fin.Basic
import Mathlib.Logic.Function.Basic

/-!
# The UDP server with its two queues

`server` turns in one of three states with a single request structure `req`:

    STATE_RECV               a datagram goes to req, or the receive times out
    STATE_RESPONSE_HANDLER   req goes to qids[0], if there is room
    STATE_SEND               a message of qids[1] goes to req and is sent, if there is one

Each of the two workers takes a message of qids[0], writes the time over the
front of its buffer and puts it into qids[1].

A `Request` is a message together with its history: which datagram it comes
from and what has been written over it.  The history does not decide anything.
The one failure a queue call can have here is that it would have to wait.
-/

namespace Eltex.UdpClientServer

open MsgQueue

/-- `MSG_SIZE` -/
def msgSize : Nat := 256

/-- `MAX_THREADS` -/
abbrev maxThreads : Nat := 2

instance : NeZero maxThreads := ⟨by decide⟩

structure SockaddrIn where
  sinAddr : UInt32
  sinPort : UInt16
deriving Repr, DecidableEq

structure Msgbuf where
  type : Int
  addr : SockaddrIn
  buf : List UInt8
deriving Repr, DecidableEq

inductive ServerState where
  | recv
  | send
  | responseHandler
deriving Repr, DecidableEq

/-- `front` stored at the start of `back`. -/
def overlay (front back : List UInt8) : List UInt8 := front ++ back.drop front.length

/-- What `snprintf(buf, MSG_SIZE, "time - %s", ctime)` stores: the text as far as it fits, and the
terminator. -/
def timeText (ctime : List UInt8) : List UInt8 :=
  ([116, 105, 109, 101, 32, 45, 32] ++ ctime).take (msgSize - 1) ++ [0]

/-- A message in a queue or with a worker. -/
structure Request where
  msg : Msgbuf
  /-- the datagram it comes from, by its number -/
  origin : Nat
  /-- what a worker has stored over the datagram -/
  text : List UInt8
deriving Repr, DecidableEq

/-- A datagram received, and what `req.buf` held before. -/
structure Datagram where
  addr : SockaddrIn
  data : List UInt8
  stale : List UInt8
deriving Repr, DecidableEq

/-- What `sendto` was given, and how many datagrams had been received then. -/
structure Reply where
  request : Request
  seen : Nat
deriving Repr, DecidableEq

structure Server where
  running : Bool
  state : ServerState
  req : Msgbuf
  /-- `qids[0]` -/
  requests : List Request
  /-- `qids[1]` -/
  responses : List Request
  /-- what each worker has received and not yet sent -/
  workers : Fin maxThreads → Option Request
  received : List Datagram
  replies : List Reply

/-- What `recvfrom` does. -/
inductive Recvfrom where
  | datagram (addr : SockaddrIn) (data : List UInt8)
  | wouldBlock
  | failed
deriving Repr, DecidableEq

inductive Event where
  /-- a turn of `server`; the result is that of `recvfrom`, in the state that calls it -/
  | turn (result : Recvfrom)
  /-- a worker receives a message and prints the time into it -/
  | take (w : Fin maxThreads) (ctime : List UInt8)
  /-- a worker sends its message -/
  | put (w : Fin maxThreads)
deriving Repr, DecidableEq

/-- How many messages each queue can hold. -/
structure Capacity where
  requests : Nat
  responses : Nat

namespace Request

def type (r : Request) : Int := r.msg.type

/-- After a worker's `snprintf`. -/
def stamp (ctime : List UInt8) (r : Request) : Request :=
  { r with msg := { r.msg with buf := overlay (timeText ctime) r.msg.buf }, text := timeText ctime }

end Request

/-- One turn of the loop in `server`. -/
def serverTurn (cap : Capacity) (s : Server) (result : Recvfrom) : Option Server :=
  if s.running then
    match s.state with
    | .recv =>
      match result with
      | .datagram addr data =>
        let data := data.take msgSize
        some
          { s with
            req := { s.req with addr := addr, buf := overlay data s.req.buf }
            state := .responseHandler
            received := s.received ++ [⟨addr, data, s.req.buf⟩] }
      | .wouldBlock => some { s with state := .send }
      | .failed => some { s with running := false }
    | .send =>
      match recv Request.type 1 s.responses with
      | some (r, responses) =>
        some
          { s with
            req := r.msg
            responses := responses
            state := .recv
            replies := s.replies ++ [⟨r, s.received.length⟩] }
      | none => some { s with state := .recv } -- ENOMSG
    | .responseHandler =>
      let req := { s.req with type := 1 }
      match send cap.requests ⟨req, s.received.length - 1, []⟩ s.requests with
      | some requests => some { s with req := req, requests := requests, state := .recv }
      | none => some { s with req := req, state := .recv } -- EAGAIN
  else none

/-- `msgrcv`, `time` and `snprintf` of an idle worker. -/
def workerTake (s : Server) (w : Fin maxThreads) (ctime : List UInt8) : Option Server :=
  match s.workers w with
  | some _ => none
  | none =>
    (recv Request.type 1 s.requests).map fun (r, requests) =>
      { s with requests := requests, workers := Function.update s.workers w (some (r.stamp ctime)) }

/-- `msgsnd` of a worker, which waits for room. -/
def workerPut (cap : Capacity) (s : Server) (w : Fin maxThreads) : Option Server :=
  (s.workers w).bind fun r =>
    (send cap.responses r s.responses).map fun responses =>
      { s with responses := responses, workers := Function.update s.workers w none }

def step (cap : Capacity) (s : Server) : Event → Option Server
  | .turn result => serverTurn cap s result
  | .take w ctime => workerTake s w ctime
  | .put w => workerPut cap s w

/-- Before the first turn, with both queues empty. -/
def start : Server where
  running := true
  state := .recv
  req := ⟨0, ⟨0, 0⟩, List.replicate msgSize 0⟩
  requests := []
  responses := []
  workers _ := none
  received := []
  replies := []

def server (cap : Capacity) (events : List Event) : Option Server := Runs.run (step cap) start events

/-! ## What a step can do -/

/-- The messages with the workers. -/
def Server.working (s : Server) : List Request := (s.workers 0).toList ++ (s.workers 1).toList

/-- Every message under way or answered. -/
def Server.traced (s : Server) : List Request :=
  s.requests ++ s.working ++ s.responses ++ s.replies.map Reply.request

/-- What a step does to the messages, and to the datagrams received. -/
inductive Effect (cap : Capacity) (s s' : Server) : Prop
  | arrived (addr : SockaddrIn) (data : List UInt8) (state : s.state = .recv)
      (state' : s'.state = .responseHandler) (req : s'.req = ⟨s.req.type, addr, overlay data s.req.buf⟩)
      (length : data.length ≤ msgSize) (received : s'.received = s.received ++ [⟨addr, data, s.req.buf⟩])
      (requests : s'.requests = s.requests) (traced : s'.traced = s.traced)
  | forwarded (state : s.state = .responseHandler) (state' : s'.state = .recv)
      (room : s.requests.length < cap.requests) (req : s'.req = { s.req with type := 1 })
      (received : s'.received = s.received)
      (requests : s'.requests = s.requests ++ [⟨{ s.req with type := 1 }, s.received.length - 1, []⟩])
      (traced : s'.traced.Perm (⟨{ s.req with type := 1 }, s.received.length - 1, []⟩ :: s.traced))
  | dropped (state : s.state = .responseHandler) (state' : s'.state = .recv)
      (full : cap.requests ≤ s.requests.length) (req : s'.req = { s.req with type := 1 })
      (received : s'.received = s.received) (requests : s'.requests = s.requests)
      (traced : s'.traced = s.traced)
  | stamped (r : Request) (ctime : List UInt8) (rest : List Request) (state : s'.state = s.state)
      (req : s'.req = s.req) (received : s'.received = s.received)
      (mem : r ∈ s.requests) (requests : s'.requests ⊆ s.requests)
      (traced : s.traced.Perm (r :: rest)) (traced' : s'.traced.Perm (r.stamp ctime :: rest))
  | moved (state : s'.state = s.state ∨ s.state ≠ .responseHandler ∧ s'.state ≠ .responseHandler)
      (req : s'.req = s.req ∨ s'.state ≠ .responseHandler ∧ ∃ r ∈ s.traced, s'.req = r.msg)
      (received : s'.received = s.received) (requests : s'.requests = s.requests)
      (traced : s'.traced.Perm s.traced)

section
variable {cap : Capacity} {s s' : Server}

theorem ne_responseHandler_of_recv (h : s.state = .recv) : s.state ≠ .responseHandler := by
  rw [h]
  exact fun hc => nomatch hc

theorem ne_responseHandler_of_send (h : s.state = .send) : s.state ≠ .responseHandler := by
  rw [h]
  exact fun hc => nomatch hc

theorem count_traced (r : Request) :
    s.traced.count r = s.requests.count r + s.working.count r + s.responses.count r +
      (s.replies.map Reply.request).count r := by
  rw [Server.traced, List.count_append, List.count_append, List.count_append]

theorem mem_traced {r : Request} :
    r ∈ s.traced ↔ r ∈ s.requests ∨ r ∈ s.working ∨ r ∈ s.responses ∨ r ∈ s.replies.map Reply.request := by
  simp only [Server.traced, List.mem_append, or_assoc]

/-- An idle worker that gets a message. -/
theorem working_busy {w : Fin maxThreads} {r : Request} (h : s.workers w = none)
    (h' : s'.workers = Function.update s.workers w (some r)) : s'.working.Perm (r :: s.working) := by
  unfold Server.working
  rw [h']
  match w with
  | 0 =>
    rw [Function.update_self, Function.update_of_ne (by decide), h]
    exact List.Perm.refl _
  | 1 =>
    rw [Function.update_self, Function.update_of_ne (by decide), h, Option.toList_none, List.append_nil]
    exact List.perm_append_singleton _ _

/-- A worker that gets rid of its message. -/
theorem working_idle {w : Fin maxThreads} {r : Request} (h : s.workers w = some r)
    (h' : s'.workers = Function.update s.workers w none) : s.working.Perm (r :: s'.working) := by
  refine working_busy (w := w) ?_ ?_
  · rw [h', Function.update_self]
  · rw [h', Function.update_idem, ← h, Function.update_eq_self]

/-- Messages that have only changed their places. -/
theorem traced_perm (h : ∀ r, s'.requests.count r + s'.working.count r + s'.responses.count r +
      (s'.replies.map Reply.request).count r =
      s.requests.count r + s.working.count r + s.responses.count r +
        (s.replies.map Reply.request).count r) : s'.traced.Perm s.traced := by
  rw [List.perm_iff_count]
  intro r
  rw [count_traced, count_traced]
  exact h r

theorem effect_serverTurn {result : Recvfrom} (h : serverTurn cap s result = some s') :
    Effect cap s s' := by
  unfold serverTurn at h
  split at h
  · split at h
    · next hstate =>
      have hne := ne_responseHandler_of_recv hstate
      split at h
      · obtain rfl := Option.some.inj h
        exact .arrived _ _ hstate rfl rfl (List.length_take_le _ _) rfl rfl rfl
      · obtain rfl := Option.some.inj h
        exact .moved (Or.inr ⟨hne, fun hc => nomatch hc⟩) (Or.inl rfl) rfl rfl (List.Perm.refl _)
      · obtain rfl := Option.some.inj h
        exact .moved (Or.inl rfl) (Or.inl rfl) rfl rfl (List.Perm.refl _)
    · next hstate =>
      have hne := ne_responseHandler_of_send hstate
      split at h
      · next r responses hrecv =>
        -- the message received is the one answered
        obtain rfl := Option.some.inj h
        have hperm := recv_perm hrecv
        have hmem : r ∈ s.responses := hperm.mem_iff.2 List.mem_cons_self
        refine .moved (Or.inr ⟨hne, fun hc => nomatch hc⟩)
          (Or.inr ⟨fun hc => (nomatch hc), r, mem_traced.2 (Or.inr (Or.inr (Or.inl hmem))), rfl⟩) rfl rfl ?_
        refine traced_perm fun a => ?_
        have hcount := hperm.count_eq a
        show s.requests.count a + s.working.count a + responses.count a +
          ((s.replies ++ [_]).map Reply.request).count a = _
        rw [List.count_cons] at hcount
        rw [List.map_append, List.count_append, hcount]
        show _ + ((s.replies.map Reply.request).count a + [r].count a) = _
        rw [List.count_singleton]
        omega
      · obtain rfl := Option.some.inj h
        exact .moved (Or.inr ⟨hne, fun hc => nomatch hc⟩) (Or.inl rfl) rfl rfl (List.Perm.refl _)
    · next hstate =>
      simp only at h
      split at h
      · next requests hsend =>
        obtain rfl := Option.some.inj h
        obtain ⟨hroom, rfl⟩ := send_eq_some_iff.1 hsend
        refine .forwarded hstate rfl hroom rfl rfl rfl ?_
        show (s.requests ++ [_] ++ s.working ++ s.responses ++ s.replies.map Reply.request).Perm _
        rw [List.append_assoc, List.append_assoc, List.append_assoc, List.singleton_append]
        refine List.perm_middle.trans (List.Perm.of_eq ?_)
        rw [Server.traced, List.append_assoc, List.append_assoc]
      · next hsend =>
        obtain rfl := Option.some.inj h
        exact .dropped hstate rfl (send_eq_none_iff.1 hsend) rfl rfl rfl rfl
  · exact absurd h.symm (Option.some_ne_none _)

theorem effect_workerTake {w : Fin maxThreads} {ctime : List UInt8}
    (h : workerTake s w ctime = some s') : Effect cap s s' := by
  unfold workerTake at h
  split at h
  · exact absurd h.symm (Option.some_ne_none _)
  · next hidle =>
    obtain ⟨⟨r, requests⟩, hrecv, rfl⟩ := Option.map_eq_some_iff.1 h
    have hperm := recv_perm hrecv
    have hworking : Server.working { s with
        requests := requests, workers := Function.update s.workers w (some (r.stamp ctime)) } |>.Perm
          (r.stamp ctime :: s.working) := working_busy hidle rfl
    refine .stamped r ctime (requests ++ s.working ++ s.responses ++ s.replies.map Reply.request) rfl rfl rfl
      (hperm.mem_iff.2 List.mem_cons_self)
      (fun a ha => hperm.mem_iff.2 (List.mem_cons_of_mem _ ha)) ?_ ?_
    · rw [List.perm_iff_count]
      intro a
      have hcount := hperm.count_eq a
      rw [List.count_cons] at hcount
      rw [count_traced, List.count_cons, List.count_append, List.count_append, List.count_append, hcount]
      omega
    · rw [List.perm_iff_count]
      intro a
      have hcount := hworking.count_eq a
      rw [List.count_cons] at hcount
      rw [count_traced, hcount, List.count_cons, List.count_append, List.count_append, List.count_append]
      show requests.count a + _ + s.responses.count a + (s.replies.map Reply.request).count a = _
      omega

theorem effect_workerPut {w : Fin maxThreads} (h : workerPut cap s w = some s') : Effect cap s s' := by
  obtain ⟨r, hbusy, h⟩ := Option.bind_eq_some_iff.1 h
  obtain ⟨responses, hsend, rfl⟩ := Option.map_eq_some_iff.1 h
  obtain ⟨-, rfl⟩ := send_eq_some_iff.1 hsend
  have hworking : s.working.Perm (r :: Server.working { s with
      responses := s.responses ++ [r], workers := Function.update s.workers w none }) :=
    working_idle hbusy rfl
  refine .moved (Or.inl rfl) (Or.inl rfl) rfl rfl (traced_perm fun a => ?_)
  have hcount := hworking.count_eq a
  rw [List.count_cons] at hcount
  rw [hcount]
  show s.requests.count a + _ + (s.responses ++ [r]).count a + (s.replies.map Reply.request).count a = _
  rw [List.count_append, List.count_singleton]
  omega

/-- Only `STATE_SEND` answers, and with a message that is under way. -/
theorem step_replies {e : Event} (h : step cap s e = some s') :
    s'.replies = s.replies ∨ s.state = .send ∧ ∃ r ∈ s.responses, s'.received = s.received ∧
      s'.replies = s.replies ++ [⟨r, s.received.length⟩] := by
  cases e with
  | turn result =>
    change serverTurn cap s result = some s' at h
    unfold serverTurn at h
    split at h
    · split at h
      · split at h <;> rw [← Option.some.inj h] <;> exact Or.inl rfl
      · next hstate =>
        split at h
        · next r responses hrecv =>
          rw [← Option.some.inj h]
          exact Or.inr ⟨hstate, r, (recv_perm hrecv).mem_iff.2 List.mem_cons_self, rfl, rfl⟩
        · rw [← Option.some.inj h]
          exact Or.inl rfl
      · simp only at h
        split at h <;> rw [← Option.some.inj h] <;> exact Or.inl rfl
    · exact absurd h.symm (Option.some_ne_none _)
  | take w ctime =>
    change workerTake s w ctime = some s' at h
    unfold workerTake at h
    split at h
    · exact absurd h.symm (Option.some_ne_none _)
    · obtain ⟨_, -, rfl⟩ := Option.map_eq_some_iff.1 h
      exact Or.inl rfl
  | put w =>
    obtain ⟨r, -, h⟩ := Option.bind_eq_some_iff.1 h
    obtain ⟨_, -, rfl⟩ := Option.map_eq_some_iff.1 h
    exact Or.inl rfl

/-- **Inversion.**  What a step of any party can do. -/
theorem step_effect {e : Event} (h : step cap s e = some s') : Effect cap s s' := by
  cases e with
  | turn result => exact effect_serverTurn h
  | take w ctime => exact effect_workerTake h
  | put w => exact effect_workerPut h

end

end Eltex.UdpClientServer
