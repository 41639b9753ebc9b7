import Eltex.Lib.ReusedBuffer
import Eltex.Lib.Run

/-!
# The echo servers

`server_udp` and `server_tcp` receive into the one buffer `buf`, put a NUL at `buf[nread]`, print
`buf` and send from it, for ever.  The buffer is zeroed once.  Receiving asks for as many bytes as
`buf` has, so a message that fills it gets its NUL behind the buffer.

`server_udp` sends all of `buf` whatever it received: behind the NUL of a short datagram the reply
has what longer ones left there (`udp_reply_byte`), and no reply is right (`udp_echo_never`).
`server_tcp` sends what it received, but stays in its loop at the end of the stream
(`tcp_echo_iff`).

Memory is that from `buf` on.  A NUL behind the buffer is stored there as well; nothing the servers
use is taken to stand there.
-/

namespace Eltex.UdpTcpClientServer

open ByteMem CString ReusedBuffer Runs

/-- `UDP_MSG_SIZE` -/
abbrev udpMsgSize : Nat := 256

/-- `TCP_MSG_SIZE` -/
abbrev tcpMsgSize : Nat := 256

/-- `buf` when `nread` bytes have been received and `buf[nread] = '\0'`. -/
def receive (buf : Mem) (data : List UInt8) : Mem := store (store buf 0 data) data.length [0]

theorem receive_eq (buf : Mem) (data : List UInt8) : receive buf data = store buf 0 (data ++ [0]) := by
  funext i
  rw [receive, store_zero_apply]
  rcases Nat.lt_trichotomy i data.length with hlt | rfl | hgt
  · rw [store_of_disjoint _ (Or.inl hlt), store_zero_apply, List.getElem?_append_left hlt]
  · rw [List.getElem?_concat_length]
    exact @store_add _ data.length [0] 0 Nat.zero_lt_one
  · rw [store_of_disjoint _ (Or.inr (by simp only [List.length_singleton]; omega)), store_zero_apply,
      List.getElem?_eq_none (by omega), List.getElem?_eq_none (by simp; omega)]

/-- What `%s` prints then: the bytes received, up to a NUL of their own. -/
theorem cstr_receive (buf : Mem) {data : List UInt8} {n : Nat} (h : data.length < n) :
    cstr (load (receive buf data) 0 n) = cstr data := by
  have hlen : (data ++ [0]).length ≤ n := by
    rw [List.length_append, List.length_singleton]
    omega
  rw [receive_eq, load_store_front buf hlen, List.append_assoc, List.singleton_append, cstr_append_nul]

/-! ## `server_udp` -/

section
variable {α : Type}

/-- A datagram, or the reply to one, with the address of the client. -/
structure Datagram (α : Type) where
  caddr : α
  data : List UInt8
deriving Repr, DecidableEq

/-- What the system calls of one turn of the loop give. -/
inductive UdpTurn (α : Type) where
  /-- `recvfrom` fails -/
  | failed
  /-- a datagram comes; `sendto` succeeds or not -/
  | datagram (d : Datagram α) (sent : Bool)

structure UdpServer (α : Type) where
  buf : Mem
  /-- the places `nread` at which a NUL was put -/
  terminators : List Nat
  printed : List (List UInt8)
  replies : List (Datagram α)
  running : Bool

/-- One turn; `die` ends the program. -/
def serveUdp (s : UdpServer α) (turn : UdpTurn α) : Option (UdpServer α) :=
  if s.running = false then none
  else
    match turn with
    | .failed => some { s with running := false }
    | .datagram d sent =>
      let data := d.data.take udpMsgSize
      let nread := data.length
      let buf := receive s.buf data
      let s := { s with
        buf := buf
        terminators := s.terminators ++ [nread]
        printed := s.printed ++ [cstr (load buf 0 (udpMsgSize + 1))] }
      if sent = true then some { s with replies := s.replies ++ [⟨d.caddr, load buf 0 udpMsgSize⟩] }
      else some { s with running := false }

/-- `bzero(buf, sizeof(buf))` -/
def zeroed (stack : Mem) (size : Nat) : Mem := store stack 0 (List.replicate size 0)

def startUdp (stack : Mem) : UdpServer α := ⟨zeroed stack udpMsgSize, [], [], [], true⟩

/-- The server after these datagrams, when all calls succeed. -/
def serverUdp (stack : Mem) (ds : List (Datagram α)) : Option (UdpServer α) :=
  run serveUdp (startUdp stack) (ds.map fun d => .datagram d true)

/-- What a datagram leaves in the buffer: its bytes and the NUL. -/
def Datagram.stored (d : Datagram α) : List UInt8 := d.data ++ [0]

/-- The buffer after these datagrams. -/
def bufAfter (stack : Mem) (ds : List (Datagram α)) : Mem :=
  after (zeroed stack udpMsgSize) (ds.map Datagram.stored)

/-- The state after datagrams that all fit. -/
structure Served (stack : Mem) (ds : List (Datagram α)) (s : UdpServer α) : Prop where
  running : s.running = true
  buf : s.buf = bufAfter stack ds
  terminators : s.terminators = ds.map fun d => d.data.length
  printed : s.printed = ds.map fun d => cstr d.data
  length : s.replies.length = ds.length
  replies : ∀ (k : Nat) (d : Datagram α), ds[k]? = some d →
    s.replies[k]? = some ⟨d.caddr, load (bufAfter stack (ds.take (k + 1))) 0 udpMsgSize⟩

theorem bufAfter_concat (stack : Mem) (ds : List (Datagram α)) (d : Datagram α) :
    bufAfter stack (ds ++ [d]) = receive (bufAfter stack ds) d.data := by
  rw [bufAfter, List.map_append, List.map_singleton, after_concat, receive_eq]
  rfl

theorem served_step {stack : Mem} {ds : List (Datagram α)} {s : UdpServer α} (hs : Served stack ds s)
    {d : Datagram α} (hd : d.data.length ≤ udpMsgSize) :
    ∃ s', serveUdp s (.datagram d true) = some s' ∧ Served stack (ds ++ [d]) s' := by
  have hbuf : receive s.buf d.data = bufAfter stack (ds ++ [d]) := by
    rw [hs.buf, bufAfter_concat]
  have htext : cstr (load (bufAfter stack (ds ++ [d])) 0 (udpMsgSize + 1)) = cstr d.data := by
    rw [bufAfter_concat, cstr_receive _ (by omega)]
  have hrun : ¬ s.running = false := by simp [hs.running]
  unfold serveUdp
  rw [if_neg hrun]
  simp only [List.take_of_length_le hd, hbuf, if_true]
  refine ⟨_, rfl, hs.running, rfl, ?_, ?_, ?_, fun k d' hk => ?_⟩
  · rw [hs.terminators, List.map_append, List.map_singleton]
  · rw [hs.printed, List.map_append, List.map_singleton, htext]
  · rw [List.length_append, List.length_append, hs.length]
    rfl
  · rcases Nat.lt_trichotomy k ds.length with hlt | rfl | hgt
    · rw [List.getElem?_append_left hlt] at hk
      rw [List.getElem?_append_left (by rw [hs.length]; exact hlt), hs.replies k d' hk,
        List.take_append_of_le_length hlt]
    · rw [List.getElem?_concat_length] at hk
      rw [← hs.length, List.getElem?_concat_length, ← Option.some.inj hk,
        List.take_of_length_le (by simp [hs.length])]
    · rw [List.getElem?_eq_none (by simp; omega)] at hk
      cases hk

/-- **Run.** -/
theorem exists_served (stack : Mem) {ds : List (Datagram α)} (hlen : ∀ d ∈ ds, d.data.length ≤ udpMsgSize) :
    ∃ s, serverUdp stack ds = some s ∧ Served stack ds s := by
  induction ds using List.reverseRecOn with
  | nil => exact ⟨startUdp stack, rfl, rfl, rfl, rfl, rfl, rfl, fun k d hk => by simp at hk⟩
  | append_singleton ds d ih =>
    obtain ⟨s, hs, hserved⟩ := ih fun d' hd' => hlen d' (List.mem_append_left _ hd')
    obtain ⟨s', hs', hserved'⟩ :=
      served_step hserved (hlen d (List.mem_append_right _ (List.mem_singleton_self _)))
    refine ⟨s', ?_, hserved'⟩
    rw [serverUdp, List.map_append, List.map_singleton]
    exact run_concat_eq_some_iff.2 ⟨s, hs, hs'⟩

/-- All of `buf` is the datagram only when the datagram fills it. -/
theorem load_receive_eq_iff (buf : Mem) (data : List UInt8) :
    load (receive buf data) 0 udpMsgSize = data ↔ data.length = udpMsgSize := by
  constructor
  · intro he
    rw [← he, length_load]
  · intro hfull
    have hstored := load_store buf 0 (data ++ [0])
    rw [← receive_eq, List.length_append, load_append, hfull] at hstored
    exact List.append_inj_left hstored (by rw [length_load, hfull])

theorem take_succ_of_getElem? {ds : List (Datagram α)} {k : Nat} {d : Datagram α} (hk : ds[k]? = some d) :
    ds.take (k + 1) = ds.take k ++ [d] := by
  rw [List.take_add_one, hk, Option.toList_some]

section
variable {stack : Mem} {ds : List (Datagram α)} {s : UdpServer α} (hs : Served stack ds s) {k : Nat}
  {d : Datagram α} (hk : ds[k]? = some d)
include hs hk

theorem reply_of_served :
    s.replies[k]? = some ⟨d.caddr, load (receive (bufAfter stack (ds.take k)) d.data) 0 udpMsgSize⟩ := by
  rw [hs.replies k d hk, take_succ_of_getElem? hk, bufAfter_concat]

/-- **Behind its NUL** a reply has, byte for byte, the last earlier datagram that was long enough, or
the zeroes of the beginning. -/
theorem udp_reply_byte {i : Nat} (hi : d.data.length < i) (hbuf : i < udpMsgSize) :
    (s.replies[k]?.bind fun r => r.data[i]?) =
      some (lastByte (zeroed stack udpMsgSize) ((ds.take k).map Datagram.stored) i) := by
  have hbyte : receive (bufAfter stack (ds.take k)) d.data i = bufAfter stack (ds.take k) i := by
    rw [receive_eq, store_of_disjoint]
    right
    rw [List.length_append, List.length_singleton]
    omega
  rw [reply_of_served hs hk, Option.bind_some, List.getElem?_eq_getElem (by rw [length_load]; exact hbuf),
    getElem_load, Nat.zero_add, hbyte, bufAfter, after_apply]

end

/-- The reply to datagram `k` is the datagram, and its NUL was put inside `buf`. -/
structure EchoedAt (s : UdpServer α) (k : Nat) (d : Datagram α) : Prop where
  reply : s.replies[k]? = some d
  terminator : ∃ t, s.terminators[k]? = some t ∧ t < udpMsgSize

/-- **No datagram is echoed right.**  The reply is the datagram just when the datagram fills the
buffer, and the NUL is inside the buffer just when it does not. -/
theorem udp_echo_never (stack : Mem) (ds : List (Datagram α)) (hlen : ∀ d ∈ ds, d.data.length ≤ udpMsgSize) :
    ∃ s, serverUdp stack ds = some s ∧ ∀ (k : Nat) (d : Datagram α), ds[k]? = some d →
      (s.replies[k]? = some d ↔ d.data.length = udpMsgSize) ∧
      ((∃ t, s.terminators[k]? = some t ∧ t < udpMsgSize) ↔ d.data.length < udpMsgSize) ∧
      ¬ EchoedAt s k d := by
  obtain ⟨s, hrun, hs⟩ := exists_served stack hlen
  refine ⟨s, hrun, fun k d hk => ?_⟩
  have hreply : s.replies[k]? = some d ↔ d.data.length = udpMsgSize := by
    rw [reply_of_served hs hk, Option.some.injEq, ← load_receive_eq_iff (bufAfter stack (ds.take k))]
    constructor
    · intro he
      exact congrArg Datagram.data he
    · intro he
      rw [he]
  have hterm : (∃ t, s.terminators[k]? = some t ∧ t < udpMsgSize) ↔ d.data.length < udpMsgSize := by
    rw [hs.terminators, List.getElem?_map, hk]
    simp
  refine ⟨hreply, hterm, ?_⟩
  rintro ⟨h1, h2⟩
  have hfull := hreply.1 h1
  have hinside := hterm.1 h2
  omega

/-- Two clients, the first with the longer message. -/
def secretThenHi : List (Datagram Nat) := [⟨1, [115, 101, 99, 114, 101, 116]⟩, ⟨2, [104, 105]⟩]

theorem udp_echo_never_secret :
    ∃ s, serverUdp (fun _ => 0) secretThenHi = some s ∧ ¬ EchoedAt s 1 ⟨2, [104, 105]⟩ := by
  obtain ⟨s, hs, h⟩ := udp_echo_never (fun _ => 0) secretThenHi (by decide)
  exact ⟨s, hs, (h 1 ⟨2, [104, 105]⟩ rfl).2.2⟩

/-- The second gets the rest of the first's message. -/
theorem udp_echo_leaks :
    ¬ ∀ (stack : Mem) (ds : List (Datagram Nat)) (s : UdpServer Nat),
      (∀ d ∈ ds, d.data.length ≤ udpMsgSize) → serverUdp stack ds = some s →
      ∀ (k : Nat) (d : Datagram Nat), ds[k]? = some d → EchoedAt s k d := by
  intro h
  have hrun : (serverUdp (fun _ => 0) secretThenHi).map
      (fun s => (s.replies[1]?.map fun r => r.data.take 6)) = some (some [104, 105, 0, 114, 101, 116]) := by
    decide
  obtain ⟨s, hs, hreply⟩ := Option.map_eq_some_iff.1 hrun
  have hecho := (h _ _ s (by decide) hs 1 ⟨2, [104, 105]⟩ rfl).reply
  rw [hecho] at hreply
  cases hreply

end

/-! ## `server_tcp` -/

/-- What the system calls of one turn of the loop give. -/
inductive TcpTurn where
  /-- `recv` fails -/
  | failed
  /-- bytes come, none at the end of the stream; `send` takes them all or fails -/
  | chunk (data : List UInt8) (sent : Bool)

structure TcpServer where
  buf : Mem
  /-- the places `nread` at which a NUL was put -/
  terminators : List Nat
  printed : List (List UInt8)
  sent : List UInt8
  running : Bool

/-- One turn; nothing in it but `die` leaves the loop. -/
def serveTcp (s : TcpServer) (turn : TcpTurn) : Option TcpServer :=
  if s.running = false then none
  else
    match turn with
    | .failed => some { s with running := false }
    | .chunk data sent =>
      let nread := data.length
      let buf := receive s.buf data
      let s := { s with
        buf := buf
        terminators := s.terminators ++ [nread]
        printed := s.printed ++ [cstr (load buf 0 (tcpMsgSize + 1))] }
      if sent = true then some { s with sent := s.sent ++ load buf 0 nread }
      else some { s with running := false }

def startTcp (stack : Mem) : TcpServer := ⟨zeroed stack tcpMsgSize, [], [], [], true⟩

/-- The server after these results of `recv`, when all calls succeed. -/
def serverTcp (stack : Mem) (chunks : List (List UInt8)) : Option TcpServer :=
  run serveTcp (startTcp stack) (chunks.map fun data => .chunk data true)

/-- The bytes sent are those received. -/
theorem load_receive (buf : Mem) (data : List UInt8) : load (receive buf data) 0 data.length = data := by
  have hstored := load_store buf 0 (data ++ [0])
  rw [← receive_eq, List.length_append, load_append] at hstored
  exact List.append_inj_left hstored (length_load _ _ _)

/-- **Run.** -/
theorem serverTcp_eq (stack : Mem) {chunks : List (List UInt8)}
    (hlen : ∀ data ∈ chunks, data.length ≤ tcpMsgSize) :
    serverTcp stack chunks =
      some ⟨after (zeroed stack tcpMsgSize) (chunks.map fun data => data ++ [0]),
        chunks.map List.length, chunks.map cstr, chunks.flatten, true⟩ := by
  induction chunks using List.reverseRecOn with
  | nil => rfl
  | append_singleton chunks data ih =>
    have hdata := hlen data (List.mem_append_right _ (List.mem_singleton_self _))
    rw [serverTcp, List.map_append, List.map_singleton]
    refine run_concat_eq_some_iff.2 ⟨_, ih fun d hd => hlen d (List.mem_append_left _ hd), ?_⟩
    rw [serveTcp, if_neg (by simp)]
    simp only [if_true, Option.some.injEq, TcpServer.mk.injEq, and_true]
    refine ⟨?_, ?_, ?_, ?_⟩
    · rw [List.map_append, List.map_singleton, after_concat, receive_eq]
    · rw [List.map_append, List.map_singleton]
    · rw [List.map_append, List.map_singleton, cstr_receive _ (by omega)]
    · rw [List.flatten_append, List.flatten_singleton, load_receive]

/-- What the server should have done by now: kept inside `buf`, sent back all that came, and left its
loop when `recv` gave 0. -/
structure Echoes (chunks : List (List UInt8)) (s : TcpServer) : Prop where
  inside : ∀ t ∈ s.terminators, t < tcpMsgSize
  sent : s.sent = chunks.flatten
  left : [] ∈ chunks → s.running = false

/-- **The echo of a stream.**  It is right at every point just when no chunk fills the buffer and the
stream has not come to its end. -/
theorem tcp_echo_iff (stack : Mem) (chunks : List (List UInt8))
    (hlen : ∀ data ∈ chunks, data.length ≤ tcpMsgSize) :
    (∀ pre s, pre <+: chunks → serverTcp stack pre = some s → Echoes pre s) ↔
      ∀ data ∈ chunks, data.length < tcpMsgSize ∧ data ≠ [] := by
  constructor
  · intro h data hdata
    obtain ⟨inside, -, left⟩ := h chunks _ (List.prefix_refl _) (serverTcp_eq stack hlen)
    refine ⟨inside _ (List.mem_map_of_mem hdata), ?_⟩
    rintro rfl
    cases left hdata
  · intro h pre s hpre hs
    have hmem : ∀ data ∈ pre, data ∈ chunks := fun data hd => hpre.subset hd
    rw [serverTcp_eq stack fun data hd => hlen data (hmem data hd)] at hs
    obtain rfl := Option.some.inj hs
    refine ⟨fun t ht => ?_, rfl, fun hnil => absurd rfl (h [] (hmem [] hnil)).2⟩
    obtain ⟨data, hd, rfl⟩ := List.mem_map.1 ht
    exact (h data (hmem data hd)).1

theorem tcp_echo_short :
    ∃ s, serverTcp (fun _ => 0) [[104], [105, 33]] = some s ∧ Echoes [[104], [105, 33]] s := by
  have hs := @serverTcp_eq (fun _ => 0) [[104], [105, 33]] (by decide)
  exact ⟨_, hs, (tcp_echo_iff _ _ (by decide)).2 (by decide) _ _ (List.prefix_refl _) hs⟩

/-- At the end of the stream the server goes on. -/
theorem tcp_echo_stays :
    ¬ ∀ (stack : Mem) (chunks : List (List UInt8)), (∀ data ∈ chunks, data.length ≤ tcpMsgSize) →
      ∀ pre s, pre <+: chunks → serverTcp stack pre = some s → Echoes pre s := by
  intro h
  have hrun : (serverTcp (fun _ => 0) [[104], []]).map TcpServer.running = some true := by decide
  obtain ⟨s, hs, hrunning⟩ := Option.map_eq_some_iff.1 hrun
  have hleft := (h _ [[104], []] (by decide) _ s (List.prefix_refl _) hs).left (by simp)
  rw [hrunning] at hleft
  cases hleft

end Eltex.UdpTcpClientServer
