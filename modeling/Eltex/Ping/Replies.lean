import Eltex.Lib.Icmp
import Eltex.Lib.Rounds

/-!
# The replies `ping` counts

Each round sends one echo request and waits on a raw socket, which gets every ICMP packet that
comes to the host and keeps what is not read.  `ping` reads packets into `packet_recv`, takes the
ICMP header to stand behind 20 bytes, and counts the first of type 0 with its own identifier.  It
does not look at the sequence number.

    ping pid        the program: counters, buffer and socket
    pingRules pid   which packets it takes, as rounds over a queue

So a reply is credited to the round in which it is read, and all are credited rightly exactly in
the runs in which no packet that passes these tests lies in the socket at the wrong time
(`ping_right_iff`).
-/

namespace Eltex.Ping

open ByteMem Icmp Rounds Runs

/-- `IP_SIZE + ICMP_SIZE + PAYLOAD_SIZE` -/
abbrev packetRecvSize : Nat := 76

/-- What `print_icmp` shows of a header. -/
structure IcmpHdr where
  type : Nat
  code : Nat
  id : Nat
  sequence : Nat
deriving Repr, DecidableEq

/-- The header `icmp_recv` points to, 20 bytes into `packet_recv`; `ntohs` of the two words. -/
def icmpRecv (packetRecv : Mem) : IcmpHdr where
  type := (packetRecv 20).toNat
  code := (packetRecv 21).toNat
  id := be16 packetRecv 24
  sequence := be16 packetRecv 26

/-- A reply counted: the `seq` it is credited to, the packet, and what is printed of it. -/
structure Counted where
  seq : Nat
  packet : Packet
  printed : IcmpHdr

/-- The variables of `main` and what is outside. -/
structure Client where
  seq : Nat
  total : Nat
  packetRecv : Mem
  /-- in the inner loop -/
  waiting : Bool
  /-- what the socket holds -/
  sock : List Packet
  sent : List Echo
  counted : List Counted

/-- The request of a round; both numbers are cut to 16 bits by `htons`. -/
def request (pid seq : Nat) : Echo := ⟨pid % 65536, seq % 65536⟩

/-- Before the first round; the buffer is not initialised. -/
def start (packetRecv : Mem) : Client := ⟨0, 0, packetRecv, false, [], [], []⟩

/-- One step: a round begins, a packet comes to the socket, one is read, or `select` times out, which
it does only while the socket is empty. -/
def step (pid : Nat) (s : Client) : Event Packet → Option Client
  | .send =>
    if s.waiting = true then none
    else
      let seq := s.seq + 1
      some { s with seq := seq, waiting := true, sent := s.sent ++ [request pid seq] }
  | .arrive p => some { s with sock := s.sock ++ [p] }
  | .recv =>
    if s.waiting = true then
      match s.sock with
      | [] => none
      | p :: sock =>
        let packetRecv := receive s.packetRecv packetRecvSize p
        let icmp := icmpRecv packetRecv
        if icmp.type ≠ 0 then some { s with packetRecv := packetRecv, sock := sock }
        else if icmp.id ≠ pid then some { s with packetRecv := packetRecv, sock := sock }
        else
          some { s with
            total := s.total + 1
            packetRecv := packetRecv
            waiting := false
            sock := sock
            counted := s.counted ++ [⟨s.seq, p, icmp⟩] }
    else none
  | .timeout => if s.waiting = true ∧ s.sock = [] then some { s with waiting := false } else none

def ping (pid : Nat) (packetRecv : Mem) (es : List (Event Packet)) : Option Client :=
  run (step pid) (start packetRecv) es

/-! ## As rounds over a queue -/

/-- The tests on a packet, read from the packet itself. -/
def Passes (pid : Nat) (p : Packet) : Prop := (p.mem 20).toNat = 0 ∧ be16 p.mem 24 = pid

instance (pid : Nat) (p : Packet) : Decidable (Passes pid p) := inferInstanceAs (Decidable (_ ∧ _))

def pingRules (pid : Nat) : Rules Packet where
  accepts p := decide (Passes pid p)
  ends _ := false
  allowed _ := true

/-- What a round is about. -/
def Client.view (s : Client) : State Packet where
  round := s.seq
  waiting := s.waiting
  done := false
  spent := false
  queue := s.sock
  taken := s.counted.map fun c => (c.seq, c.packet)

/-- The header in the buffer is that of the packet just received, at 20 bytes. -/
theorem icmpRecv_receive (buffer : Mem) (p : Packet) :
    icmpRecv (receive buffer packetRecvSize p) = icmpRecv p.mem := by
  have hs : 28 ≤ packetRecvSize := by decide
  unfold icmpRecv
  rw [receive_of_lt buffer hs p (by omega), receive_of_lt buffer hs p (by omega),
    be16_receive buffer hs p (by omega), be16_receive buffer hs p (by omega)]

/-- Everything reading a packet can do. -/
inductive Reads (pid : Nat) (s s' : Client) (p : Packet) (sock : List Packet) : Prop where
  | counted : Passes pid p →
      s' = { s with
        total := s.total + 1, packetRecv := receive s.packetRecv packetRecvSize p, waiting := false
        sock := sock, counted := s.counted ++ [⟨s.seq, p, icmpRecv p.mem⟩] } → Reads pid s s' p sock
  | dropped : ¬ Passes pid p →
      s' = { s with packetRecv := receive s.packetRecv packetRecvSize p, sock := sock } →
      Reads pid s s' p sock

/-- Reading takes the packet at the head of the socket. -/
theorem step_recv_cons {pid : Nat} {s : Client} {p : Packet} {sock : List Packet}
    (hw : s.waiting = true) (hs : s.sock = p :: sock) :
    ∃ s', step pid s .recv = some s' ∧ Reads pid s s' p sock := by
  unfold step
  simp only [hw, hs, if_true, icmpRecv_receive]
  by_cases htype : (icmpRecv p.mem).type = 0
  · rw [if_neg (not_not.2 htype)]
    by_cases hid : (icmpRecv p.mem).id = pid
    · rw [if_neg (not_not.2 hid)]
      exact ⟨_, rfl, Reads.counted ⟨htype, hid⟩ rfl⟩
    · rw [if_pos hid]
      exact ⟨_, rfl, Reads.dropped (fun h => hid h.2) (by rw [hw])⟩
  · rw [if_pos htype]
    exact ⟨_, rfl, Reads.dropped (fun h => htype h.1) (by rw [hw])⟩

/-- **The program refines the rounds.** -/
theorem view_step (pid : Nat) (s : Client) (e : Event Packet) :
    (step pid s e).map Client.view = Rounds.step (pingRules pid) s.view e := by
  cases e with
  | send =>
    unfold step Rounds.step
    cases hw : s.waiting <;> simp [Client.view, pingRules, hw]
  | arrive p => rfl
  | timeout =>
    unfold step Rounds.step
    cases hw : s.waiting <;> cases hs : s.sock <;> simp [Client.view, hw, hs]
  | recv =>
    cases hw : s.waiting with
    | false =>
      unfold step Rounds.step
      simp [Client.view, hw]
    | true =>
      cases hs : s.sock with
      | nil =>
        unfold step Rounds.step
        simp [Client.view, hw, hs]
      | cons p sock =>
        obtain ⟨s', hs', hreads⟩ := @step_recv_cons pid s p sock hw hs
        rw [hs', Option.map_some]
        unfold Rounds.step
        simp only [Client.view, hw, hs, if_true]
        cases hreads with
        | counted hpass he =>
          subst he
          have ha : (pingRules pid).accepts p = true := decide_eq_true hpass
          rw [if_pos ha]
          simp [pingRules]
        | dropped hpass he =>
          subst he
          have ha : ¬ (pingRules pid).accepts p = true := by simpa [pingRules] using hpass
          rw [if_neg ha]
          simp [hw]

/-! ## Which replies are credited -/

/-- Every reply counted answers the request of its round, and no round counts two. -/
structure TimesRight (pid : Nat) (s : Client) : Prop where
  answers : ∀ c ∈ s.counted, c.packet.EchoReply (request pid c.seq)
  once : (s.counted.map Counted.seq).Pairwise (· < ·)
  total : s.total = s.counted.length

/-- The packets in the socket and those that come are not mistaken for the reply awaited. -/
def OnTime (pid : Nat) (s : Client) : Event Packet → Prop
  | .send => ∀ p, s.sock.find? (Passes pid) = some p → p.EchoReply (request pid (s.seq + 1))
  | .arrive p => s.waiting = true → s.sock.find? (Passes pid) = none → Passes pid p →
      p.EchoReply (request pid s.seq)
  | .recv => True
  | .timeout => True

/-- The reply to the request of round `n`. -/
def Answers (pid n : Nat) (p : Packet) : Prop := p.EchoReply (request pid n)

theorem onTime_iff (pid : Nat) (s : Client) (e : Event Packet) :
    OnTime pid s e ↔ Rounds.OnTime (pingRules pid) (Answers pid) s.view e := by
  cases e with
  | send => simp [OnTime, Rounds.OnTime, State.next, Client.view, pingRules, Answers]
  | arrive p => simp [OnTime, Rounds.OnTime, State.next, Client.view, pingRules, Answers]
  | recv => exact Iff.rfl
  | timeout => exact Iff.rfl

theorem total_step {pid : Nat} {s s' : Client} {e : Event Packet} (ht : s.total = s.counted.length)
    (h : step pid s e = some s') : s'.total = s'.counted.length := by
  unfold step at h
  split at h
  · split at h
    · cases h
    · rw [← Option.some.inj h]
      exact ht
  · rw [← Option.some.inj h]
    exact ht
  · split at h
    · split at h
      · cases h
      · simp only at h
        split at h
        · rw [← Option.some.inj h]
          exact ht
        · split at h
          · rw [← Option.some.inj h]
            exact ht
          · rw [← Option.some.inj h]
            simp [ht]
    · cases h
  · split at h
    · rw [← Option.some.inj h]
      exact ht
    · cases h

section
variable {pid : Nat} {packetRecv : Mem} {es : List (Event Packet)} {s : Client}

theorem view_ping (h : ping pid packetRecv es = some s) :
    run (Rounds.step (pingRules pid)) Rounds.start es = some s.view :=
  run_view (view_step pid) h

theorem total_ping (h : ping pid packetRecv es = some s) : s.total = s.counted.length :=
  run_inv (fun _ s => s.total = s.counted.length) rfl (fun _ _ _ _ ht he => total_step ht he) h

theorem timesRight_iff (h : ping pid packetRecv es = some s) :
    TimesRight pid s ↔ Rounds.Right (Answers pid) s.view := by
  have htotal := total_ping h
  have honce := taken_increasing (view_ping h)
  simp only [Client.view, List.map_map, Function.comp_def] at honce
  constructor
  · rintro ⟨ha, -, -⟩ x hx
    obtain ⟨c, hc, rfl⟩ := List.mem_map.1 hx
    exact ha c hc
  · intro hr
    exact ⟨fun c hc => hr (c.seq, c.packet) (List.mem_map.2 ⟨c, hc, rfl⟩), honce, htotal⟩

/-- **Which replies are credited.**  All replies counted in a run, and while `ping` goes on reading,
answer the requests they are credited to exactly when no request of the run was sent while a
foreign packet that passes the tests was first in the socket, and none came in its place. -/
theorem ping_right_iff (h : ping pid packetRecv es = some s) :
    (∀ k s', ping pid packetRecv (es ++ List.replicate k .recv) = some s' → TimesRight pid s') ↔
      ∀ pre e u, pre ++ [e] <+: es → ping pid packetRecv pre = some u → OnTime pid u e := by
  rw [← forall₂_congr fun k s' => forall_congr' fun hs' => (@timesRight_iff pid packetRecv _ s' hs').symm]
  rw [← forall₃_congr fun pre e u => forall₂_congr fun _ _ => (onTime_iff pid u e).symm]
  exact right_iff_onTime_of_view (view_step pid) rfl h

end

/-- The reply to request 1 of process 7. -/
def lateReply : Packet where
  bytes := [69, 0, 0, 28, 0, 0, 0, 0, 64, 1, 0, 0, 8, 8, 8, 8, 10, 0, 0, 1, 0, 0, 0, 0, 0, 7, 0, 1]
  header_len := by decide
  icmp_len := by decide

/-- When it comes in time all that is counted is right. -/
theorem ping_right_in_time :
    ∃ s, ping 7 (fun _ => 0) [.send, .arrive lateReply, .recv] = some s ∧ TimesRight 7 s := by
  have hrun : (ping 7 (fun _ => 0) [.send, .arrive lateReply, .recv]).map Client.total = some 1 := by decide
  obtain ⟨s, hs, -⟩ := Option.map_eq_some_iff.1 hrun
  refine ⟨s, hs, (ping_right_iff hs).2 ?_ 0 s (by rw [List.replicate_zero, List.append_nil]; exact hs)⟩
  refine steps_cons ?_ fun s₁ h₁ => steps_cons ?_ fun s₂ h₂ => steps_cons ?_ fun s₃ _ => steps_nil
  · intro p hp
    cases hp
  · have hseq : s₁.seq = 1 := by
      rw [← Option.some.inj h₁]
      rfl
    intro _ _ _
    rw [hseq]
    decide
  · trivial

/-- A reply that comes after its timeout is credited to the next request. -/
theorem ping_late :
    ¬ ∀ (pid : Nat) (packetRecv : Mem) (es : List (Event Packet)) (s : Client),
      ping pid packetRecv es = some s → TimesRight pid s := by
  intro h
  have hrun : (ping 7 (fun _ => 0) [.send, .timeout, .send, .arrive lateReply, .recv]).map
      (fun s => s.counted.map fun c => (c.seq, c.packet)) = some [(2, lateReply)] := by decide
  obtain ⟨s, hs, hc⟩ := Option.map_eq_some_iff.1 hrun
  have hright := (timesRight_iff hs).1 (h 7 (fun _ => 0) _ s hs) (2, lateReply) (by
    show (2, lateReply) ∈ s.counted.map fun c => (c.seq, c.packet)
    rw [hc]
    exact List.mem_singleton_self _)
  revert hright
  unfold Answers
  decide

end Eltex.Ping
