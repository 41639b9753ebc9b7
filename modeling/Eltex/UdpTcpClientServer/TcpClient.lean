import Eltex.UdpTcpClientServer.UdpClients

/-!
# `client_tcp` and `server_tcp`

The client sends all of `buf` again and again and receives nothing: its `recv` is commented out.  The
server sends back what it receives.  `send` blocks while the buffers on the way are full; it hands over
its bytes in pieces.

The bytes keep their order, and between two pieces the server is where one that sends without blocking
would be (`tcp_stream`).  But nothing empties the buffers on the way back.  Every run comes to its end,
with both programs blocked in `send` (`tcp_stalls`).
-/

namespace Eltex.UdpTcpClientServer.Tcp

open ByteMem CString ReusedBuffer Runs

/-- The bytes the buffers hold on the way to the server and on the way back. -/
structure Room where
  there : Nat
  back : Nat
deriving Repr, DecidableEq

/-- `buf` of the client after `strcpy`. -/
def message (stack : Mem) : List UInt8 := load (store stack 0 (hello ++ [0])) 0 tcpMsgSize

structure World where
  /-- what the `send` of the client has still to hand over -/
  rest : List UInt8
  /-- what it has handed over since the beginning -/
  given : List UInt8
  /-- the bytes on the way to the server -/
  there : List UInt8
  /-- the server; what it has sent is on the way back -/
  server : TcpServer
  /-- what the `send` of the server has still to hand over -/
  pending : List UInt8

/-- How many bytes a call takes. -/
inductive Event where
  | send (k : Nat)
  | recv (k : Nat)
  | echo (k : Nat)
deriving Repr, DecidableEq

/-- `recv`, the NUL and `printf`. -/
def recv (s : TcpServer) (data : List UInt8) : TcpServer :=
  let nread := data.length
  let buf := receive s.buf data
  { s with
    buf := buf
    terminators := s.terminators ++ [nread]
    printed := s.printed ++ [cstr (load buf 0 (tcpMsgSize + 1))] }

/-- One step, when the calls in it succeed.  A `send` that has handed over everything is followed by the
next one. -/
def step (room : Room) (buf : List UInt8) (w : World) : Event → Option World
  | .send k =>
      let rest := if w.rest = [] then buf else w.rest
      if 0 < k ∧ k ≤ rest.length ∧ w.there.length + k ≤ room.there then
        some { w with
          rest := rest.drop k
          given := w.given ++ rest.take k
          there := w.there ++ rest.take k }
      else none
  | .recv k =>
      if w.pending = [] ∧ 0 < k ∧ k ≤ tcpMsgSize ∧ k ≤ w.there.length then
        let server := recv w.server (w.there.take k)
        some { w with
          there := w.there.drop k
          server := server
          pending := load server.buf 0 (w.there.take k).length }
      else none
  | .echo k =>
      if 0 < k ∧ k ≤ w.pending.length ∧ w.server.sent.length + k ≤ room.back then
        some { w with
          server := { w.server with sent := w.server.sent ++ w.pending.take k }
          pending := w.pending.drop k }
      else none

def start (stack : Mem) : World := ⟨[], [], [], startTcp stack, []⟩

/-! ## One step -/

/-- Where the server is when its `send` has handed over everything. -/
def World.flushed (w : World) : TcpServer := { w.server with sent := w.server.sent ++ w.pending }

/-- The chunks received so far, and the number of messages. -/
structure Streams (stack : Mem) (buf : List UInt8) (chunks : List (List UInt8)) (n : Nat) (w : World) : Prop where
  chunk : ∀ data ∈ chunks, data ≠ [] ∧ data.length ≤ tcpMsgSize
  server : serverTcp stack chunks = some w.flushed
  received : w.given = chunks.flatten ++ w.there
  messages : w.given ++ w.rest = (List.replicate n buf).flatten

/-- What is where, and how many steps that took. -/
structure Bounded (room : Room) (es : List Event) (w : World) : Prop where
  there : w.there.length ≤ room.there
  back : w.server.sent.length ≤ room.back
  pending : w.pending.length ≤ tcpMsgSize
  steps : es.length ≤ w.there.length + 2 * w.pending.length + 3 * w.server.sent.length

section
variable {room : Room} {stack : Mem} {buf : List UInt8} {chunks : List (List UInt8)} {n : Nat} {es : List Event}
  {w w' : World} {e : Event}

theorem running_of_serverTcp {s : TcpServer} (hlen : ∀ data ∈ chunks, data.length ≤ tcpMsgSize)
    (h : serverTcp stack chunks = some s) : s.running = true := by
  rw [serverTcp_eq stack hlen] at h
  rw [← Option.some.inj h]

theorem streams_start : Streams stack buf [] 0 (start stack) :=
  ⟨fun _ h => absurd h List.not_mem_nil, rfl, rfl, rfl⟩

theorem streams_step (hs : Streams stack buf chunks n w) (h : step room buf w e = some w') :
    ∃ chunks n, Streams stack buf chunks n w' := by
  cases e with
  | send k =>
    rw [step] at h
    simp only [Option.ite_none_right_eq_some, Option.some.injEq] at h
    obtain ⟨-, rfl⟩ := h
    have hreceived := hs.received
    have hmessages := hs.messages
    by_cases hrest : w.rest = []
    · -- a new message
      refine ⟨chunks, n + 1, hs.chunk, hs.server, ?_, ?_⟩
      · simp only [if_pos hrest]
        rw [hreceived, List.append_assoc]
      · simp only [if_pos hrest]
        rw [hrest, List.append_nil] at hmessages
        rw [List.append_assoc, List.take_append_drop, hmessages, List.replicate_succ', List.flatten_append,
          List.flatten_singleton]
    · refine ⟨chunks, n, hs.chunk, hs.server, ?_, ?_⟩
      · simp only [if_neg hrest]
        rw [hreceived, List.append_assoc]
      · simp only [if_neg hrest]
        rw [List.append_assoc, List.take_append_drop, hmessages]
  | recv k =>
    rw [step] at h
    simp only [Option.ite_none_right_eq_some, Option.some.injEq] at h
    obtain ⟨⟨hpending, hpos, hsize, hlen⟩, rfl⟩ := h
    have hk : (w.there.take k).length = k := List.length_take_of_le hlen
    refine ⟨chunks ++ [w.there.take k], n, fun data hdata => ?_, ?_, ?_, hs.messages⟩
    · rcases List.mem_append.1 hdata with hdata | hdata
      · exact hs.chunk data hdata
      · rw [List.mem_singleton.1 hdata]
        refine ⟨?_, by omega⟩
        apply List.ne_nil_of_length_pos
        omega
    · have hchunks : ∀ data ∈ chunks, data.length ≤ tcpMsgSize := fun data hdata => (hs.chunk data hdata).2
      have hserver := hs.server
      rw [World.flushed, hpending, List.append_nil] at hserver
      rw [serverTcp, List.map_append, List.map_singleton]
      refine run_concat_eq_some_iff.2 ⟨_, hserver, ?_⟩
      rw [serveTcp, if_neg (by rw [running_of_serverTcp hchunks hserver]; decide)]
      rfl
    · have hreceived := hs.received
      rw [List.flatten_append, List.flatten_singleton, List.append_assoc, List.take_append_drop]
      exact hreceived
  | echo k =>
    rw [step] at h
    simp only [Option.ite_none_right_eq_some, Option.some.injEq] at h
    obtain ⟨-, rfl⟩ := h
    refine ⟨chunks, n, hs.chunk, ?_, hs.received, hs.messages⟩
    rw [hs.server, World.flushed, World.flushed]
    simp only [List.append_assoc, List.take_append_drop]

theorem bounded_step (hb : Bounded room es w) (h : step room buf w e = some w') :
    Bounded room (es ++ [e]) w' := by
  obtain ⟨hthere, hback, hpending, hsteps⟩ := hb
  have hlen : (es ++ [e]).length = es.length + 1 := by rw [List.length_append, List.length_singleton]
  cases e with
  | send k =>
    rw [step] at h
    simp only [Option.ite_none_right_eq_some, Option.some.injEq] at h
    obtain ⟨⟨hpos, hk, hroom⟩, rfl⟩ := h
    have htake := List.length_take_of_le hk
    refine ⟨?_, hback, hpending, ?_⟩
    · rw [List.length_append, htake]
      exact hroom
    · rw [hlen, List.length_append, htake]
      show _ ≤ w.there.length + k + 2 * w.pending.length + 3 * w.server.sent.length
      omega
  | recv k =>
    rw [step] at h
    simp only [Option.ite_none_right_eq_some, Option.some.injEq] at h
    obtain ⟨⟨hnil, hpos, hsize, hk⟩, rfl⟩ := h
    have htake := List.length_take_of_le hk
    rw [hnil, List.length_nil] at hsteps
    refine ⟨?_, hback, ?_, ?_⟩
    · rw [List.length_drop]
      omega
    · rw [length_load, htake]
      exact hsize
    · rw [hlen, List.length_drop, length_load, htake]
      show _ ≤ _ + 3 * w.server.sent.length
      omega
  | echo k =>
    rw [step] at h
    simp only [Option.ite_none_right_eq_some, Option.some.injEq] at h
    obtain ⟨⟨hpos, hk, hroom⟩, rfl⟩ := h
    have htake := List.length_take_of_le hk
    refine ⟨hthere, ?_, ?_, ?_⟩
    · rw [List.length_append, htake]
      exact hroom
    · rw [List.length_drop]
      omega
    · rw [hlen, List.length_drop, List.length_append, htake]
      show _ ≤ w.there.length + 2 * (w.pending.length - k) + 3 * (w.server.sent.length + k)
      omega

end

/-- **Nothing is lost or reordered.**  In any order of steps: the server is where it would be if `send` did not
block, but for what its `send` has still to hand over, and the bytes are those of the client's messages in turn. -/
theorem tcp_stream {room : Room} {stack cstack : Mem} {es : List Event} {w : World}
    (h : run (step room (message cstack)) (start stack) es = some w) :
    ∃ chunks n, Streams stack (message cstack) chunks n w :=
  run_inv (fun _ w => ∃ chunks n, Streams stack (message cstack) chunks n w) ⟨[], 0, streams_start⟩
    (fun _ _ _ _ ⟨_, _, hs⟩ he => streams_step hs he) h

/-- A message sent in two pieces and received in three. -/
theorem tcp_stream_pieces :
    ∃ w, run (step ⟨300, 10⟩ (message fun _ => 1)) (start fun _ => 0)
        [.send 200, .recv 100, .echo 10, .send 56] = some w ∧
      w.server.printed.length = 1 ∧ ∃ chunks n, Streams (fun _ => 0) (message fun _ => 1) chunks n w := by
  have hlen : (run (step ⟨300, 10⟩ (message fun _ => 1)) (start fun _ => 0)
      [.send 200, .recv 100, .echo 10, .send 56]).map (fun w => w.server.printed.length) = some 1 := by
    decide +kernel
  obtain ⟨w, hw, hlen⟩ := Option.map_eq_some_iff.1 hlen
  exact ⟨w, hw, hlen, tcp_stream hw⟩

/-! ## The end of every run -/

theorem message_ne_nil (stack : Mem) : message stack ≠ [] := by
  apply List.ne_nil_of_length_pos
  rw [message, length_load]
  decide

theorem bounded_run {room : Room} {stack : Mem} {buf : List UInt8} {es : List Event} {w : World}
    (h : run (step room buf) (start stack) es = some w) : Bounded room es w :=
  run_inv (Bounded room) ⟨Nat.zero_le _, Nat.zero_le _, Nat.zero_le _, Nat.zero_le _⟩
    (fun _ _ _ _ hb he => bounded_step hb he) h

/-- **Both programs block.**  No run is longer than the buffers on the way allow, and one cannot go on just when
these are full and the server has something to send. -/
theorem tcp_stalls {room : Room} {stack cstack : Mem} {es : List Event} {w : World} (hroom : 0 < room.there)
    (h : run (step room (message cstack)) (start stack) es = some w) :
    es.length ≤ room.there + 2 * tcpMsgSize + 3 * room.back ∧
      ((∀ e, step room (message cstack) w e = none) ↔
        w.there.length = room.there ∧ w.server.sent.length = room.back ∧ w.pending ≠ []) := by
  obtain ⟨hthere, hback, hpending, hsteps⟩ := bounded_run h
  refine ⟨by omega, fun hnone => ?_, fun ⟨hthere, hback, hpending⟩ e => ?_⟩
  · have hfull : w.there.length = room.there := by
      have hsend := hnone (.send 1)
      rw [step] at hsend
      simp only [ite_eq_right_iff, reduceCtorEq, imp_false] at hsend
      have hrest : 1 ≤ (if w.rest = [] then message cstack else w.rest).length := by
        apply List.length_pos_iff.2
        split
        · exact message_ne_nil cstack
        · next hrest => exact hrest
      omega
    have hbusy : w.pending ≠ [] := by
      have hrecv := hnone (.recv 1)
      rw [step] at hrecv
      simp only [ite_eq_right_iff, reduceCtorEq, imp_false] at hrecv
      exact fun hnil => hrecv ⟨hnil, Nat.one_pos, by decide, by omega⟩
    refine ⟨hfull, ?_, hbusy⟩
    have hecho := hnone (.echo 1)
    rw [step] at hecho
    simp only [ite_eq_right_iff, reduceCtorEq, imp_false] at hecho
    have hpos := List.length_pos_iff.2 hbusy
    omega
  · cases e with
    | send k =>
      rw [step]
      exact if_neg (by omega)
    | recv k =>
      rw [step]
      exact if_neg fun hc => hpending hc.1
    | echo k =>
      rw [step]
      exact if_neg (by omega)

/-- Room for one byte each way. -/
theorem tcp_stalls_one :
    ∃ w, run (step ⟨1, 1⟩ (message fun _ => 1)) (start fun _ => 0)
        [.send 1, .recv 1, .send 1, .echo 1, .recv 1, .send 1] = some w ∧
      ∀ e, step ⟨1, 1⟩ (message fun _ => 1) w e = none := by
  have hfull : (run (step ⟨1, 1⟩ (message fun _ => 1)) (start fun _ => 0)
      [.send 1, .recv 1, .send 1, .echo 1, .recv 1, .send 1]).map
        (fun w => (w.there.length, w.server.sent.length, w.pending.length)) = some (1, 1, 1) := by
    decide +kernel
  obtain ⟨w, hw, hfull⟩ := Option.map_eq_some_iff.1 hfull
  obtain ⟨hthere, hrest⟩ := Prod.mk.inj hfull
  obtain ⟨hback, hpending⟩ := Prod.mk.inj hrest
  refine ⟨w, hw, (tcp_stalls (by decide) hw).2.2 ⟨hthere, hback, ?_⟩⟩
  apply List.ne_nil_of_length_pos
  omega

end Eltex.UdpTcpClientServer.Tcp
