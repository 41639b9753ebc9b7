import Eltex.Lib.Printf
import Eltex.UdpTcpClientServer.Echo
import Mathlib.Data.List.Count
import Mathlib.Data.List.Perm.Basic

/-!
# `client_udp` and `server_udp`

Any number of clients talk to one server over a network that may lose, copy and reorder datagrams.
A client sends all of `buf`, of which it has set 13 bytes, and waits; what comes back is put where it
was sent from.

However the steps are ordered, everyone prints "hello world!" each time, every NUL goes behind the
buffer, and every datagram has 243 bytes of the stack of its client (`clients_run`).  A client has one
datagram under way or none, but for the copies, and never sends again: it waits for ever just when the
network has lost one datagram more than it has made (`stuck_iff`).
-/

namespace Eltex.UdpTcpClientServer

open ByteMem CString Printf ReusedBuffer Runs

/-! ## The client -/

/-- The text of `strcpy(buf, "hello world!")`. -/
def hello : List UInt8 := ascii "hello world!"

structure ClientUdp where
  buf : Mem
  /-- in `recvfrom` -/
  waiting : Bool
  /-- the places `nread` at which a NUL was put -/
  terminators : List Nat
  printed : List (List UInt8)

def startClientUdp (stack : Mem) : ClientUdp := ⟨store stack 0 (hello ++ [0]), false, [], []⟩

/-- `sendto`; the client goes on to `recvfrom`. -/
def ClientUdp.sendto (c : ClientUdp) : Option (ClientUdp × List UInt8) :=
  if c.waiting = true then none else some ({ c with waiting := true }, load c.buf 0 udpMsgSize)

/-- `recvfrom`, the NUL and `printf`; the client goes on to `sleep`. -/
def ClientUdp.recvfrom (c : ClientUdp) (data : List UInt8) : Option ClientUdp :=
  if c.waiting = false then none
  else
    let data := data.take udpMsgSize
    let nread := data.length
    let buf := receive c.buf data
    some ⟨buf, false, c.terminators ++ [nread], c.printed ++ [cstr (load buf 0 (udpMsgSize + 1))]⟩

/-! ## Clients, server and network -/

variable {κ : Type}

/-- A datagram under way, with the address of the client. -/
inductive Packet (κ : Type) where
  | request (d : Datagram κ)
  | reply (d : Datagram κ)
deriving Repr, DecidableEq

@[simp] def Packet.datagram : Packet κ → Datagram κ
  | .request d => d
  | .reply d => d

structure World (κ : Type) where
  clients : κ → ClientUdp
  server : UdpServer κ
  /-- the datagrams under way -/
  net : List (Packet κ)
  /-- the clients whose datagrams were lost -/
  lost : List κ
  copied : List κ

/-- The datagrams are named by their places in `net`. -/
inductive Event (κ : Type) where
  | send (c : κ)
  | serve (i : Nat)
  | recv (i : Nat)
  | lose (i : Nat)
  | copy (i : Nat)
deriving Repr, DecidableEq

/-- One step, when the calls in it succeed. -/
def step [DecidableEq κ] (w : World κ) : Event κ → Option (World κ)
  | .send c => (w.clients c).sendto.map fun (client, data) =>
      { w with
        clients := Function.update w.clients c client
        net := w.net ++ [.request ⟨c, data⟩] }
  | .serve i =>
      match w.net[i]? with
      | some (.request d) => (serveUdp w.server (.datagram d true)).map fun server =>
          { w with
            server := server
            net := w.net.eraseIdx i ++ (server.replies.drop w.server.replies.length).map Packet.reply }
      | _ => none
  | .recv i =>
      match w.net[i]? with
      | some (.reply d) => ((w.clients d.caddr).recvfrom d.data).map fun client =>
          { w with
            clients := Function.update w.clients d.caddr client
            net := w.net.eraseIdx i }
      | _ => none
  | .lose i => w.net[i]?.map fun p =>
      { w with net := w.net.eraseIdx i, lost := w.lost ++ [p.datagram.caddr] }
  | .copy i => w.net[i]?.map fun p =>
      { w with net := w.net ++ [p], copied := w.copied ++ [p.datagram.caddr] }

def start (stack : Mem) (stackOf : κ → Mem) : World κ :=
  ⟨fun c => startClientUdp (stackOf c), startUdp stack, [], [], []⟩

/-! ## What a client sends -/

/-- The text, its NUL, and what the stack has behind them. -/
def greeting (stack : Mem) : List UInt8 := load (startClientUdp stack).buf 0 udpMsgSize

@[simp] theorem length_greeting (stack : Mem) : (greeting stack).length = udpMsgSize := length_load _ _ _

theorem greeting_eq (stack : Mem) : greeting stack = hello ++ 0 :: load stack 13 243 := by
  rw [greeting, startClientUdp, load_store_front stack (by decide), List.append_assoc, List.singleton_append]
  rfl

theorem cstr_greeting (stack : Mem) : cstr (greeting stack) = hello := by
  rw [greeting_eq]
  exact cstr_append_zero (by decide) _

/-- What is received is shown up to its own NUL, if it has one. -/
theorem cstr_received (buf : Mem) {stack : Mem} :
    cstr (load (receive buf (greeting stack)) 0 (udpMsgSize + 1)) = hello := by
  rw [cstr_receive buf (by rw [length_greeting]; omega), cstr_greeting]

/-! ## What a step does -/

section
variable {w w' : World κ}

/-- A client sends. -/
structure Sent [DecidableEq κ] (w w' : World κ) (c : κ) : Prop where
  waiting : (w.clients c).waiting = false
  clients : w'.clients = Function.update w.clients c { w.clients c with waiting := true }
  server : w'.server = w.server
  net : w'.net.Perm (.request ⟨c, load (w.clients c).buf 0 udpMsgSize⟩ :: w.net)
  lost : w'.lost = w.lost
  copied : w'.copied = w.copied

/-- The server receives and answers. -/
structure Handled (w w' : World κ) (d : Datagram κ) : Prop where
  clients : w'.clients = w.clients
  server : serveUdp w.server (.datagram d true) = some w'.server
  net : ∃ rest, w.net.Perm (.request d :: rest) ∧
    w'.net.Perm (rest ++ (w'.server.replies.drop w.server.replies.length).map .reply)
  lost : w'.lost = w.lost
  copied : w'.copied = w.copied

/-- A client receives. -/
structure Received [DecidableEq κ] (w w' : World κ) (d : Datagram κ) : Prop where
  waiting : (w.clients d.caddr).waiting = true
  clients : ∃ client, (w.clients d.caddr).recvfrom d.data = some client ∧
    w'.clients = Function.update w.clients d.caddr client
  server : w'.server = w.server
  net : w.net.Perm (.reply d :: w'.net)
  lost : w'.lost = w.lost
  copied : w'.copied = w.copied

/-- The network loses a datagram or makes one. -/
structure Changed (w w' : World κ) (p : Packet κ) : Prop where
  mem : p ∈ w.net
  clients : w'.clients = w.clients
  server : w'.server = w.server
  net : w.net.Perm (p :: w'.net) ∧ w'.lost = w.lost ++ [p.datagram.caddr] ∧ w'.copied = w.copied ∨
    w'.net.Perm (p :: w.net) ∧ w'.lost = w.lost ∧ w'.copied = w.copied ++ [p.datagram.caddr]

inductive Effect [DecidableEq κ] (w w' : World κ) : Prop where
  | sent (c : κ) (h : Sent w w' c)
  | handled (d : Datagram κ) (h : Handled w w' d)
  | received (d : Datagram κ) (h : Received w w' d)
  | changed (p : Packet κ) (h : Changed w w' p)

theorem perm_eraseIdx {net : List (Packet κ)} {i : Nat} {p : Packet κ} (h : net[i]? = some p) :
    net.Perm (p :: net.eraseIdx i) := by
  obtain ⟨hi, rfl⟩ := List.getElem?_eq_some_iff.1 h
  exact (List.getElem_cons_eraseIdx_perm hi).symm

theorem sendto_eq_some_iff {c c' : ClientUdp} {data : List UInt8} :
    c.sendto = some (c', data) ↔
      c.waiting = false ∧ c' = { c with waiting := true } ∧ data = load c.buf 0 udpMsgSize := by
  rw [ClientUdp.sendto]
  cases c.waiting <;> simp [eq_comm]

theorem waiting_of_recvfrom {c c' : ClientUdp} {data : List UInt8} (h : c.recvfrom data = some c') :
    c.waiting = true := by
  rw [ClientUdp.recvfrom] at h
  split at h
  · cases h
  · next hc => exact (Bool.not_eq_false _).mp hc

/-- **Step.** -/
theorem step_effect [DecidableEq κ] {e : Event κ} (h : step w e = some w') : Effect w w' := by
  cases e with
  | send c =>
    obtain ⟨⟨client, data⟩, hsend, rfl⟩ := Option.map_eq_some_iff.1 h
    obtain ⟨hwaiting, rfl, rfl⟩ := sendto_eq_some_iff.1 hsend
    exact .sent c ⟨hwaiting, rfl, rfl, List.perm_append_singleton _ _, rfl, rfl⟩
  | serve i =>
    rw [step] at h
    split at h
    · next d hget =>
      obtain ⟨server, hserver, rfl⟩ := Option.map_eq_some_iff.1 h
      exact .handled d ⟨rfl, hserver, ⟨_, perm_eraseIdx hget, List.Perm.refl _⟩, rfl, rfl⟩
    · cases h
  | recv i =>
    rw [step] at h
    split at h
    · next d hget =>
      obtain ⟨client, hclient, rfl⟩ := Option.map_eq_some_iff.1 h
      exact .received d
        ⟨waiting_of_recvfrom hclient, ⟨client, hclient, rfl⟩, rfl, perm_eraseIdx hget, rfl, rfl⟩
    · cases h
  | lose i =>
    obtain ⟨p, hget, rfl⟩ := Option.map_eq_some_iff.1 h
    exact .changed p ⟨List.mem_of_getElem? hget, rfl, rfl, Or.inl ⟨perm_eraseIdx hget, rfl, rfl⟩⟩
  | copy i =>
    obtain ⟨p, hget, rfl⟩ := Option.map_eq_some_iff.1 h
    exact .changed p
      ⟨List.mem_of_getElem? hget, rfl, rfl, Or.inr ⟨List.perm_append_singleton _ _, rfl, rfl⟩⟩

end

/-! ## Every text, every NUL, every datagram -/

/-- What a party has done: all its NULs are behind the buffer and all its texts are the one. -/
structure Shows (terminators : List Nat) (printed : List (List UInt8)) : Prop where
  behind : ∀ t ∈ terminators, t = udpMsgSize
  text : ∀ text ∈ printed, text = hello

theorem shows_nil : Shows [] [] :=
  ⟨fun _ ht => absurd ht List.not_mem_nil, fun _ ht => absurd ht List.not_mem_nil⟩

theorem Shows.concat {terminators : List Nat} {printed : List (List UInt8)} (h : Shows terminators printed) :
    Shows (terminators ++ [udpMsgSize]) (printed ++ [hello]) := by
  constructor
  · intro t ht
    rcases List.mem_append.1 ht with ht | ht
    · exact h.behind t ht
    · exact List.mem_singleton.1 ht
  · intro text ht
    rcases List.mem_append.1 ht with ht | ht
    · exact h.text text ht
    · exact List.mem_singleton.1 ht

structure Inv (stackOf : κ → Mem) (w : World κ) : Prop where
  running : w.server.running = true
  server : Shows w.server.terminators w.server.printed
  clients : ∀ c, Shows (w.clients c).terminators (w.clients c).printed
  buf : ∀ c, load (w.clients c).buf 0 udpMsgSize = greeting (stackOf c)
  net : ∀ p ∈ w.net, p.datagram.data = greeting (stackOf p.datagram.caddr)

section
variable {stackOf : κ → Mem} {w w' : World κ}

/-- A datagram that fills the buffer comes back as it is. -/
theorem serveUdp_greeting {s s' : UdpServer κ} {d : Datagram κ} {stack : Mem} (hd : d.data = greeting stack)
    (h : serveUdp s (.datagram d true) = some s') :
    s'.running = true ∧ s'.terminators = s.terminators ++ [udpMsgSize] ∧ s'.printed = s.printed ++ [hello] ∧
      s'.replies = s.replies ++ [d] := by
  have hlen : d.data.length = udpMsgSize := by rw [hd, length_greeting]
  rw [serveUdp] at h
  split at h
  · cases h
  · next hrunning =>
    simp only [List.take_of_length_le hlen.le, if_true, Option.some.injEq] at h
    rw [← h]
    refine ⟨(Bool.not_eq_false _).mp hrunning, ?_, ?_, ?_⟩
    · rw [hlen]
    · rw [hd, cstr_received]
    · rw [(load_receive_eq_iff s.buf d.data).2 hlen]

theorem recvfrom_greeting {c c' : ClientUdp} {data : List UInt8} {stack : Mem} (hd : data = greeting stack)
    (h : c.recvfrom data = some c') :
    c'.waiting = false ∧ c'.terminators = c.terminators ++ [udpMsgSize] ∧ c'.printed = c.printed ++ [hello] ∧
      load c'.buf 0 udpMsgSize = data := by
  have hlen : data.length = udpMsgSize := by rw [hd, length_greeting]
  rw [ClientUdp.recvfrom] at h
  split at h
  · cases h
  · simp only [List.take_of_length_le hlen.le, Option.some.injEq] at h
    rw [← h]
    refine ⟨rfl, ?_, ?_, (load_receive_eq_iff c.buf data).2 hlen⟩
    · rw [hlen]
    · rw [hd, cstr_received]

/-- The reply goes out with what was received. -/
theorem Handled.replied {d : Datagram κ} (h : Handled w w' d) {stack : Mem} (hd : d.data = greeting stack) :
    ∃ rest, w.net.Perm (.request d :: rest) ∧ w'.net.Perm (.reply d :: rest) := by
  obtain ⟨rest, hnet, hnet'⟩ := h.net
  refine ⟨rest, hnet, ?_⟩
  obtain ⟨-, -, -, hreplies⟩ := serveUdp_greeting hd h.server
  rw [hreplies, List.drop_left] at hnet'
  exact hnet'.trans (List.perm_append_singleton _ _)

theorem inv_start (stack : Mem) (stackOf : κ → Mem) : Inv stackOf (start stack stackOf) where
  running := rfl
  server := shows_nil
  clients _ := shows_nil
  buf _ := rfl
  net _ hp := absurd hp List.not_mem_nil

/-- **Step.** -/
theorem inv_step [DecidableEq κ] {e : Event κ} (hi : Inv stackOf w) (h : step w e = some w') : Inv stackOf w' := by
  cases step_effect h with
  | sent c h =>
    refine ⟨h.server ▸ hi.running, h.server ▸ hi.server, fun c' => ?_, fun c' => ?_, fun p hp => ?_⟩
    · rw [h.clients]
      by_cases heq : c' = c
      · subst heq
        rw [Function.update_self]
        exact hi.clients c'
      · rw [Function.update_of_ne heq]
        exact hi.clients c'
    · rw [h.clients]
      by_cases heq : c' = c
      · subst heq
        rw [Function.update_self]
        exact hi.buf c'
      · rw [Function.update_of_ne heq]
        exact hi.buf c'
    · rcases List.mem_cons.1 (h.net.mem_iff.1 hp) with rfl | hp
      · exact hi.buf c
      · exact hi.net p hp
  | handled d h =>
    obtain ⟨rest, hnet, -⟩ := h.net
    have hd := hi.net _ (hnet.mem_iff.2 List.mem_cons_self)
    obtain ⟨rest, hnet, hnet'⟩ := h.replied hd
    obtain ⟨hrunning, hterminators, hprinted, -⟩ := serveUdp_greeting hd h.server
    refine ⟨hrunning, ?_, h.clients ▸ hi.clients, h.clients ▸ hi.buf, fun p hp => ?_⟩
    · rw [hterminators, hprinted]
      exact hi.server.concat
    · rcases List.mem_cons.1 (hnet'.mem_iff.1 hp) with rfl | hp
      · exact hd
      · exact hi.net p (hnet.mem_iff.2 (List.mem_cons_of_mem _ hp))
  | received d h =>
    have hd := hi.net _ (h.net.mem_iff.2 List.mem_cons_self)
    obtain ⟨client, hclient, hclients⟩ := h.clients
    obtain ⟨-, hterminators, hprinted, hbuf⟩ := recvfrom_greeting hd hclient
    refine ⟨h.server ▸ hi.running, h.server ▸ hi.server, fun c => ?_, fun c => ?_, fun p hp => ?_⟩
    · rw [hclients]
      by_cases heq : c = d.caddr
      · subst heq
        rw [Function.update_self, hterminators, hprinted]
        exact (hi.clients d.caddr).concat
      · rw [Function.update_of_ne heq]
        exact hi.clients c
    · rw [hclients]
      by_cases heq : c = d.caddr
      · subst heq
        rw [Function.update_self, hbuf]
        exact hd
      · rw [Function.update_of_ne heq]
        exact hi.buf c
    · exact hi.net p (h.net.mem_iff.2 (List.mem_cons_of_mem _ hp))
  | changed p h =>
    refine ⟨h.server ▸ hi.running, h.server ▸ hi.server, h.clients ▸ hi.clients, h.clients ▸ hi.buf,
      fun q hq => ?_⟩
    rcases h.net with ⟨hnet, -⟩ | ⟨hnet, -⟩
    · exact hi.net q (hnet.mem_iff.2 (List.mem_cons_of_mem _ hq))
    · rcases List.mem_cons.1 (hnet.mem_iff.1 hq) with rfl | hq
      · exact hi.net q h.mem
      · exact hi.net q hq

theorem inv_run [DecidableEq κ] {stack : Mem} {es : List (Event κ)} (h : run step (start stack stackOf) es = some w) :
    Inv stackOf w :=
  run_inv (fun _ w => Inv stackOf w) (inv_start stack stackOf) (fun _ _ _ _ hi hs => inv_step hi hs) h


/-- **Every text, every NUL, every datagram.**  Any number of clients, with anything on their stacks, in any order of
steps, whatever the network does. -/
theorem clients_run [DecidableEq κ] {stack : Mem} {es : List (Event κ)}
    (h : run step (start stack stackOf) es = some w) :
    Shows w.server.terminators w.server.printed ∧
      (∀ c, Shows (w.clients c).terminators (w.clients c).printed) ∧
      ∀ p ∈ w.net, p.datagram.data = hello ++ 0 :: load (stackOf p.datagram.caddr) 13 243 := by
  have hi := inv_run h
  refine ⟨hi.server, hi.clients, fun p hp => ?_⟩
  rw [hi.net p hp, greeting_eq]

end

/-- Two clients, the requests served in the other order. -/
theorem clients_run_two :
    ∃ w, run step (start (fun _ => 1) fun c : Bool => fun _ => if c = true then 2 else 3)
        [.send true, .send false, .copy 1, .serve 1, .serve 0, .recv 1] = some w ∧
      w.server.printed.length = 2 ∧ ∀ text ∈ w.server.printed, text = hello := by
  have hlen : (run step (start (fun _ => 1) fun c : Bool => fun _ => if c = true then 2 else 3)
      [.send true, .send false, .copy 1, .serve 1, .serve 0, .recv 1]).map
        (fun w => w.server.printed.length) = some 2 := rfl
  obtain ⟨w, hw, hlen⟩ := Option.map_eq_some_iff.1 hlen
  exact ⟨w, hw, hlen, (clients_run hw).1.text⟩

/-! ## Clients that wait for ever -/

/-- The datagrams of a client that are under way. -/
def inFlight [DecidableEq κ] (w : World κ) (c : κ) : Nat := w.net.countP fun p => p.datagram.caddr = c

/-- The client waits, and nothing of it is under way. -/
def Stuck (w : World κ) (c : κ) : Prop :=
  (w.clients c).waiting = true ∧ ∀ p ∈ w.net, p.datagram.caddr ≠ c

/-- A client that sleeps may send one datagram, a client that waits has sent it. -/
def toSend (w : World κ) (c : κ) : Nat := if (w.clients c).waiting = true then 0 else 1

/-- Datagrams come only from the clients and the network. -/
def Accounts [DecidableEq κ] (w : World κ) (c : κ) : Prop :=
  inFlight w c + toSend w c + w.lost.count c = w.copied.count c + 1

section
variable [DecidableEq κ] {stackOf : κ → Mem} {w w' : World κ} {c : κ}

theorem inFlight_cons {p : Packet κ} {net : List (Packet κ)} (h : w.net.Perm (p :: net)) :
    inFlight w c = net.countP (fun p => p.datagram.caddr = c) + if p.datagram.caddr = c then 1 else 0 := by
  rw [inFlight, h.countP_eq, List.countP_cons]
  simp only [decide_eq_true_eq]

theorem inFlight_eq_zero_iff : inFlight w c = 0 ↔ ∀ p ∈ w.net, p.datagram.caddr ≠ c := by
  rw [inFlight, List.countP_eq_zero]
  simp only [decide_eq_true_eq, ne_eq]

omit [DecidableEq κ] in
theorem toSend_congr (h : (w'.clients c).waiting = (w.clients c).waiting) : toSend w' c = toSend w c := by
  rw [toSend, toSend, h]

theorem count_concat_self (cs : List κ) (c' : κ) :
    (cs ++ [c']).count c = cs.count c + if c' = c then 1 else 0 := by
  rw [List.count_append, List.count_singleton]
  simp only [beq_iff_eq]

/-- **Step.** -/
theorem accounts_step {e : Event κ} (hi : Inv stackOf w) (ha : Accounts w c) (h : step w e = some w') :
    Accounts w' c := by
  unfold Accounts at ha ⊢
  cases step_effect h with
  | sent c' h =>
    rw [inFlight_cons h.net, h.lost, h.copied]
    by_cases heq : c' = c
    · subst heq
      have hbefore : toSend w c' = 1 := by rw [toSend, h.waiting, if_neg (by decide)]
      have hafter : toSend w' c' = 0 := by
        rw [toSend, h.clients, Function.update_self, if_pos rfl]
      rw [hafter, Packet.datagram, if_pos rfl]
      rw [hbefore] at ha
      exact ha
    · have hclient : w'.clients c = w.clients c := by
        rw [h.clients, Function.update_of_ne (Ne.symm heq)]
      have hsend : toSend w' c = toSend w c := toSend_congr (congrArg _ hclient)
      rw [hsend, Packet.datagram, if_neg heq]
      exact ha
  | handled d h =>
    obtain ⟨rest, hnet, -⟩ := h.net
    obtain ⟨rest, hnet, hnet'⟩ := h.replied (hi.net _ (hnet.mem_iff.2 List.mem_cons_self))
    rw [inFlight_cons hnet] at ha
    have hsend : toSend w' c = toSend w c := toSend_congr (by rw [h.clients])
    rw [inFlight_cons hnet', h.lost, h.copied, hsend]
    exact ha
  | received d h =>
    have hd := hi.net _ (h.net.mem_iff.2 List.mem_cons_self)
    obtain ⟨client, hclient, hclients⟩ := h.clients
    obtain ⟨hwaiting, -⟩ := recvfrom_greeting hd hclient
    rw [inFlight_cons h.net] at ha
    rw [inFlight, h.lost, h.copied]
    by_cases heq : d.caddr = c
    · subst heq
      have hbefore : toSend w d.caddr = 0 := by rw [toSend, h.waiting, if_pos rfl]
      have hafter : toSend w' d.caddr = 1 := by
        rw [toSend, hclients, Function.update_self, hwaiting, if_neg (by decide)]
      rw [Packet.datagram, if_pos rfl, hbefore] at ha
      omega
    · have hclient : w'.clients c = w.clients c := by
        rw [hclients, Function.update_of_ne (Ne.symm heq)]
      rw [Packet.datagram, if_neg heq] at ha
      have hsend : toSend w' c = toSend w c := toSend_congr (congrArg _ hclient)
      rw [hsend]
      exact ha
  | changed p h =>
    have hsend : toSend w' c = toSend w c := toSend_congr (by rw [h.clients])
    rw [hsend]
    rcases h.net with ⟨hnet, hlost, hcopied⟩ | ⟨hnet, hlost, hcopied⟩
    · rw [inFlight_cons hnet] at ha
      rw [inFlight, hlost, hcopied, count_concat_self]
      omega
    · rw [inFlight_cons hnet, hlost, hcopied, count_concat_self]
      rw [inFlight] at ha
      omega

theorem accounts_run {stack : Mem} {es : List (Event κ)} (h : run step (start stack stackOf) es = some w) (c : κ) :
    Accounts w c := by
  have hboth : Inv stackOf w ∧ Accounts w c := by
    refine run_inv (fun _ w => Inv stackOf w ∧ Accounts w c) ⟨inv_start stack stackOf, rfl⟩
      (fun _ _ _ _ hs he => ⟨inv_step hs.1 he, accounts_step hs.1 hs.2 he⟩) h
  exact hboth.2

theorem stuck_of_accounts (ha : Accounts w c) : Stuck w c ↔ w.lost.count c = w.copied.count c + 1 := by
  unfold Accounts at ha
  rw [Stuck, ← inFlight_eq_zero_iff]
  constructor
  · rintro ⟨hwaiting, hnone⟩
    rw [hnone, toSend, if_pos hwaiting] at ha
    omega
  · intro hlost
    have hsend : toSend w c = 0 := by omega
    refine ⟨?_, by omega⟩
    by_contra hwaiting
    rw [toSend, if_neg hwaiting] at hsend
    cases hsend

/-- Nothing is done for a client that is stuck. -/
theorem stuck_step {e : Event κ} (hi : Inv stackOf w) (hs : Stuck w c) (h : step w e = some w') :
    Stuck w' c ∧ w'.clients c = w.clients c := by
  suffices w'.clients c = w.clients c ∧ ∀ p ∈ w'.net, p.datagram.caddr ≠ c from
    ⟨⟨this.1 ▸ hs.1, this.2⟩, this.1⟩
  cases step_effect h with
  | sent c' h =>
    have hne : c' ≠ c := by
      rintro rfl
      exact absurd (h.waiting.symm.trans hs.1) (by decide)
    refine ⟨by rw [h.clients, Function.update_of_ne (Ne.symm hne)], fun p hp => ?_⟩
    rcases List.mem_cons.1 (h.net.mem_iff.1 hp) with rfl | hp
    · exact hne
    · exact hs.2 p hp
  | handled d h =>
    obtain ⟨rest, hnet, -⟩ := h.net
    obtain ⟨rest, hnet, hnet'⟩ := h.replied (hi.net _ (hnet.mem_iff.2 List.mem_cons_self))
    refine ⟨by rw [h.clients], fun p hp => ?_⟩
    rcases List.mem_cons.1 (hnet'.mem_iff.1 hp) with rfl | hp
    · exact hs.2 (.request d) (hnet.mem_iff.2 List.mem_cons_self)
    · exact hs.2 p (hnet.mem_iff.2 (List.mem_cons_of_mem _ hp))
  | received d h =>
    have hne : d.caddr ≠ c := hs.2 _ (h.net.mem_iff.2 List.mem_cons_self)
    obtain ⟨client, -, hclients⟩ := h.clients
    refine ⟨by rw [hclients, Function.update_of_ne (Ne.symm hne)], fun p hp => ?_⟩
    exact hs.2 p (h.net.mem_iff.2 (List.mem_cons_of_mem _ hp))
  | changed p h =>
    refine ⟨by rw [h.clients], fun q hq => ?_⟩
    rcases h.net with ⟨hnet, -⟩ | ⟨hnet, -⟩
    · exact hs.2 q (hnet.mem_iff.2 (List.mem_cons_of_mem _ hq))
    · rcases List.mem_cons.1 (hnet.mem_iff.1 hq) with rfl | hq
      · exact hs.2 q h.mem
      · exact hs.2 q hq

theorem stuck_run {fs : List (Event κ)} (hi : Inv stackOf w) (hs : Stuck w c) (h : run step w fs = some w') :
    w'.clients c = w.clients c := by
  have hall : Inv stackOf w' ∧ Stuck w' c ∧ w'.clients c = w.clients c := by
    refine run_inv (fun _ u => Inv stackOf u ∧ Stuck u c ∧ u.clients c = w.clients c) ⟨hi, hs, rfl⟩
      (fun _ u e u' hu he => ?_) h
    obtain ⟨hstuck, hclients⟩ := stuck_step hu.1 hu.2.1 he
    exact ⟨inv_step hu.1 he, hstuck, hclients.trans hu.2.2⟩
  exact hall.2.2

/-- From `w` the parties alone can have one more text printed by the client. -/
def CanPrint (w : World κ) (c : κ) : Prop :=
  ∃ fs w', run step w fs = some w' ∧ w'.lost = w.lost ∧ w'.copied = w.copied ∧
    (w'.clients c).printed = (w.clients c).printed ++ [hello]

theorem canPrint_of_step {e : Event κ} (h : step w e = some w') (hlost : w'.lost = w.lost)
    (hcopied : w'.copied = w.copied) (hprinted : (w'.clients c).printed = (w.clients c).printed)
    (hcan : CanPrint w' c) : CanPrint w c := by
  obtain ⟨fs, u, hrun, hl, hc, hp⟩ := hcan
  refine ⟨e :: fs, u, ?_, hl.trans hlost, hc.trans hcopied, ?_⟩
  · rw [run_cons, h, Option.bind_some, hrun]
  · rw [hp, hprinted]

theorem canPrint_of_reply {d : Datagram κ} (hi : Inv stackOf w) (hmem : .reply d ∈ w.net)
    (hwaiting : (w.clients d.caddr).waiting = true) : CanPrint w d.caddr := by
  obtain ⟨i, hget⟩ := List.mem_iff_getElem?.1 hmem
  obtain ⟨client, hclient⟩ : ∃ client, (w.clients d.caddr).recvfrom d.data = some client := by
    rw [ClientUdp.recvfrom, if_neg (by rw [hwaiting]; decide)]
    exact ⟨_, rfl⟩
  obtain ⟨-, -, hprinted, -⟩ := recvfrom_greeting (hi.net _ hmem) hclient
  have hrun : run step w [.recv i] = some { w with
      clients := Function.update w.clients d.caddr client, net := w.net.eraseIdx i } := by
    rw [run_cons, step, hget]
    simp only [hclient, Option.map_some]
    rfl
  refine ⟨[.recv i], _, hrun, rfl, rfl, ?_⟩
  show (Function.update w.clients d.caddr client d.caddr).printed = _
  rw [Function.update_self, hprinted]

theorem canPrint_of_request {d : Datagram κ} (hi : Inv stackOf w) (hmem : .request d ∈ w.net)
    (hwaiting : (w.clients d.caddr).waiting = true) : CanPrint w d.caddr := by
  obtain ⟨i, hget⟩ := List.mem_iff_getElem?.1 hmem
  obtain ⟨server, hserver⟩ : ∃ server, serveUdp w.server (.datagram d true) = some server := by
    rw [serveUdp, if_neg (by rw [hi.running]; decide)]
    exact ⟨_, rfl⟩
  have hreplies : server.replies = w.server.replies ++ [d] := (serveUdp_greeting (hi.net _ hmem) hserver).2.2.2
  have hstep : step w (.serve i) = some { w with
      server := server, net := w.net.eraseIdx i ++ [.reply d] } := by
    rw [step, hget]
    simp only [hserver, Option.map_some, hreplies, List.drop_left, List.map_singleton]
  apply canPrint_of_step hstep rfl rfl rfl
  exact canPrint_of_reply (inv_step hi hstep) (List.mem_append_right _ (List.mem_singleton_self _)) hwaiting

theorem canPrint_of_sleep (hi : Inv stackOf w) (hsleep : (w.clients c).waiting = false) : CanPrint w c := by
  set client : ClientUdp := { w.clients c with waiting := true } with hclient
  set d : Datagram κ := ⟨c, load (w.clients c).buf 0 udpMsgSize⟩ with hd
  have hsend : (w.clients c).sendto = some (client, d.data) := sendto_eq_some_iff.2 ⟨hsleep, rfl, rfl⟩
  have hstep : step w (.send c) = some { w with
      clients := Function.update w.clients c client, net := w.net ++ [.request d] } := by
    rw [step, hsend]
    rfl
  refine canPrint_of_step hstep rfl rfl ?_ ?_
  · show (Function.update w.clients c client c).printed = _
    rw [Function.update_self]
  · refine canPrint_of_request (d := d) (inv_step hi hstep) ?_ ?_
    · exact List.mem_append_right _ (List.mem_singleton_self _)
    · show (Function.update w.clients c client c).waiting = true
      rw [Function.update_self]

end

/-- **Who waits for ever.**  A client is stuck just when the network has lost one of its datagrams more than it has
made; then it prints nothing more, whatever happens, and otherwise it can still print. -/
theorem stuck_iff [DecidableEq κ] {stack : Mem} {stackOf : κ → Mem} {es : List (Event κ)} {w : World κ}
    (h : run step (start stack stackOf) es = some w) (c : κ) :
    (Stuck w c ↔ w.lost.count c = w.copied.count c + 1) ∧
      (Stuck w c → ∀ fs w', run step w fs = some w' → (w'.clients c).printed = (w.clients c).printed) ∧
      (¬ Stuck w c → CanPrint w c) := by
  have hi := inv_run h
  refine ⟨stuck_of_accounts (accounts_run h c), fun hs fs w' hrun => ?_, fun hs => ?_⟩
  · rw [stuck_run hi hs hrun]
  · cases hwaiting : (w.clients c).waiting with
    | false => exact canPrint_of_sleep hi hwaiting
    | true =>
      obtain ⟨p, hmem, rfl⟩ : ∃ p ∈ w.net, p.datagram.caddr = c := by
        by_contra hnone
        exact hs ⟨hwaiting, fun p hp heq => hnone ⟨p, hp, heq⟩⟩
      cases p with
      | request d => exact canPrint_of_request hi hmem hwaiting
      | reply d => exact canPrint_of_reply hi hmem hwaiting

/-- The reply to the second client is lost. -/
theorem stuck_iff_two :
    ∃ w, run step (start (fun _ => 1) fun _ : Bool => fun _ => 2)
        [.send true, .send false, .serve 1, .lose 1] = some w ∧
      Stuck w false ∧ CanPrint w true := by
  have hcounts : (run step (start (fun _ => 1) fun _ : Bool => fun _ => 2)
      [.send true, .send false, .serve 1, .lose 1]).map
        (fun w => (w.lost.count false, w.copied.count false, w.lost.count true)) = some (1, 0, 0) := rfl
  obtain ⟨w, hw, hcounts⟩ := Option.map_eq_some_iff.1 hcounts
  obtain ⟨hlost, hrest⟩ := Prod.mk.inj hcounts
  obtain ⟨hcopied, hnone⟩ := Prod.mk.inj hrest
  refine ⟨w, hw, (stuck_iff hw false).1.2 (by rw [hlost, hcopied]), (stuck_iff hw true).2.2 fun hs => ?_⟩
  have hlost := (stuck_iff hw true).1.1 hs
  omega

end Eltex.UdpTcpClientServer
