import Eltex.Lib.Icmp
import Eltex.Lib.Rounds

/-!
# The hops `traceroute` prints

Probe `i` is an echo request with TTL and sequence number `i`.  `traceroute` then reads ICMP packets
off a raw socket: the first of type 11 gives the address of the hop, whatever it quotes; an echo
reply with the identifier of the probes, whatever its sequence number, gives it too and ends the
trace.  Without such a reply the trace ends when the loop has come to `ttl`, or when `i` is more than
`setsockopt` takes for a TTL (`stopped_traceroute`).

As in any rounds over a queue that nobody empties, hops are attributed rightly exactly in the runs in
which nothing else that is accepted lies in the socket at the wrong time (`hops_right_iff`).
-/

namespace Eltex.Traceroute

open ByteMem Icmp Rounds Runs

/-- `IP_SIZE + ICMP_SIZE + PAYLOAD_SIZE` -/
abbrev packetRecvSize : Nat := 76

/-! Fields of `ip_recv` and of `icmp_recv`, which points 20 bytes into `packet_recv`. -/

def saddr (packetRecv : Mem) : List UInt8 := load packetRecv 12 4
def icmpType (packetRecv : Mem) : Nat := (packetRecv 20).toNat
def echoId (packetRecv : Mem) : Nat := be16 packetRecv 24

/-- The largest value that `setsockopt` takes for `IP_TTL`. -/
def maxTtl : Nat := 255

/-- How `main` ends without `goto end`: the loop comes to its end, or `setsockopt` fails. -/
inductive Stop where
  | loop
  | die
deriving Repr, DecidableEq

/-- A line printed: the number of the hop, the address and the packet it was read from; `last` when
the trace ended there. -/
structure Hop where
  seq : Nat
  addr : List UInt8
  packet : Packet
  last : Bool

/-- The variables of `main` and what is outside. -/
structure Tracer where
  seq : Nat
  packetRecv : Mem
  /-- in the inner loop -/
  waiting : Bool
  /-- `goto end` was taken -/
  done : Bool
  stopped : Option Stop
  /-- what the socket holds -/
  sock : List Packet
  sent : List Echo
  hops : List Hop

/-- Probe `seq`; both numbers are cut to 16 bits. -/
def probe (pid seq : Nat) : Echo := ⟨pid % 65536, seq % 65536⟩

/-- Before the first probe; the buffer is not initialised. -/
def start (packetRecv : Mem) : Tracer := ⟨0, packetRecv, false, false, none, [], [], []⟩

/-- One step: `main` goes through the head of its loop, where it sends a probe or ends, a packet comes to the
socket, one is read, or `select` times out. -/
def step (pid : Nat) (ttl : Int) (s : Tracer) : Event Packet → Option Tracer
  | .send =>
    let i := s.seq + 1
    if s.waiting = false ∧ s.done = false ∧ s.stopped = none then
      if (i : Int) < ttl then
        if i ≤ maxTtl then some { s with seq := i, waiting := true, sent := s.sent ++ [probe pid i] }
        else some { s with stopped := some .die } -- `seq` is not read again
      else some { s with stopped := some .loop }
    else none
  | .arrive p => some { s with sock := s.sock ++ [p] }
  | .recv =>
    if s.waiting = true then
      match s.sock with
      | [] => none
      | p :: sock =>
        let buf := receive s.packetRecv packetRecvSize p
        if icmpType buf = 11 then
          some { s with
            packetRecv := buf, waiting := false, sock := sock
            hops := s.hops ++ [⟨s.seq, saddr buf, p, false⟩] }
        else if icmpType buf = 0 then
          if echoId buf ≠ pid then some { s with packetRecv := buf, sock := sock }
          else
            some { s with
              packetRecv := buf, waiting := false, done := true, sock := sock
              hops := s.hops ++ [⟨s.seq, saddr buf, p, true⟩] }
        else some { s with packetRecv := buf, sock := sock }
    else none
  | .timeout => if s.waiting = true ∧ s.sock = [] then some { s with waiting := false } else none

def traceroute (pid : Nat) (ttl : Int) (packetRecv : Mem) (es : List (Event Packet)) : Option Tracer :=
  run (step pid ttl) (start packetRecv) es

/-! ## As rounds over a queue -/

/-- The tests on a packet, read from the packet itself. -/
def Accepted (pid : Nat) (p : Packet) : Prop :=
  icmpType p.mem = 11 ∨ icmpType p.mem = 0 ∧ echoId p.mem = pid

instance (pid : Nat) (p : Packet) : Decidable (Accepted pid p) := inferInstanceAs (Decidable (_ ∨ _))

def tracerouteRules (pid : Nat) (ttl : Int) : Rules Packet where
  accepts p := decide (Accepted pid p)
  ends p := decide (icmpType p.mem ≠ 11)
  allowed i := decide ((i : Int) < ttl ∧ i ≤ maxTtl)

/-- What a round is about. -/
def Tracer.view (s : Tracer) : State Packet where
  round := s.seq
  waiting := s.waiting
  done := s.done
  spent := s.stopped.isSome
  queue := s.sock
  taken := s.hops.map fun hop => (hop.seq, hop.packet)

section
variable (buffer : Mem) (p : Packet)

theorem icmpType_receive : icmpType (receive buffer packetRecvSize p) = icmpType p.mem := by
  rw [icmpType, receive_of_lt buffer (by decide) p (by omega), icmpType]

theorem echoId_receive : echoId (receive buffer packetRecvSize p) = echoId p.mem :=
  be16_receive buffer (by decide) p (by omega)

theorem saddr_receive : saddr (receive buffer packetRecvSize p) = p.source :=
  load_receive buffer (by decide) p (by omega)

end

/-- Everything the head of the loop can do. -/
inductive Heads (pid : Nat) (ttl : Int) (s s' : Tracer) : Prop where
  | probe : ((s.seq + 1 : Nat) : Int) < ttl → s.seq + 1 ≤ maxTtl →
      s' = { s with seq := s.seq + 1, waiting := true, sent := s.sent ++ [probe pid (s.seq + 1)] } →
      Heads pid ttl s s'
  | die : ((s.seq + 1 : Nat) : Int) < ttl → maxTtl < s.seq + 1 → s' = { s with stopped := some .die } →
      Heads pid ttl s s'
  | loop : ttl ≤ ((s.seq + 1 : Nat) : Int) → s' = { s with stopped := some .loop } → Heads pid ttl s s'

theorem step_send {pid : Nat} {ttl : Int} {s s' : Tracer} (h : step pid ttl s .send = some s') :
    (s.waiting = false ∧ s.done = false ∧ s.stopped = none) ∧ Heads pid ttl s s' := by
  simp only [step] at h
  split at h
  · next hidle =>
    refine ⟨hidle, ?_⟩
    split at h
    · next hloop =>
      split at h
      · next hmax => exact Heads.probe hloop hmax (Option.some.inj h).symm
      · next hmax => exact Heads.die hloop (Nat.lt_of_not_le hmax) (Option.some.inj h).symm
    · next hloop => exact Heads.loop (Int.not_lt.1 hloop) (Option.some.inj h).symm
  · cases h

/-- Everything reading a packet can do. -/
inductive Reads (pid : Nat) (s s' : Tracer) (p : Packet) (sock : List Packet) : Prop where
  | hop : icmpType p.mem = 11 →
      s' = { s with
        packetRecv := receive s.packetRecv packetRecvSize p, waiting := false, sock := sock
        hops := s.hops ++ [⟨s.seq, p.source, p, false⟩] } → Reads pid s s' p sock
  | last : icmpType p.mem = 0 → echoId p.mem = pid →
      s' = { s with
        packetRecv := receive s.packetRecv packetRecvSize p, waiting := false, done := true, sock := sock
        hops := s.hops ++ [⟨s.seq, p.source, p, true⟩] } → Reads pid s s' p sock
  | dropped : ¬ Accepted pid p →
      s' = { s with packetRecv := receive s.packetRecv packetRecvSize p, sock := sock } →
      Reads pid s s' p sock

/-- Reading takes the packet at the head of the socket. -/
theorem step_recv_cons {pid : Nat} {ttl : Int} {s : Tracer} {p : Packet} {sock : List Packet}
    (hw : s.waiting = true) (hs : s.sock = p :: sock) :
    ∃ s', step pid ttl s .recv = some s' ∧ Reads pid s s' p sock := by
  unfold step
  simp only [hw, hs, if_true, icmpType_receive, echoId_receive, saddr_receive]
  by_cases h11 : icmpType p.mem = 11
  · rw [if_pos h11]
    exact ⟨_, rfl, Reads.hop h11 rfl⟩
  · rw [if_neg h11]
    by_cases h0 : icmpType p.mem = 0
    · rw [if_pos h0]
      by_cases hid : echoId p.mem = pid
      · rw [if_neg (by simpa using hid)]
        exact ⟨_, rfl, Reads.last h0 hid rfl⟩
      · rw [if_pos hid]
        exact ⟨_, rfl, Reads.dropped (fun ha => ha.elim h11 fun h => hid h.2) (by rw [hw])⟩
    · rw [if_neg h0]
      exact ⟨_, rfl, Reads.dropped (fun ha => ha.elim h11 fun h => h0 h.1) (by rw [hw])⟩

/-- **The program refines the rounds.** -/
theorem view_step (pid : Nat) (ttl : Int) (s : Tracer) (e : Event Packet) :
    (step pid ttl s e).map Tracer.view = Rounds.step (tracerouteRules pid ttl) s.view e := by
  cases e with
  | send =>
    unfold step Rounds.step
    simp only [Tracer.view, tracerouteRules, decide_eq_true_eq]
    have hiff : (s.waiting = false ∧ s.done = false ∧ s.stopped = none) ↔
        (s.waiting = false ∧ s.done = false ∧ s.stopped.isSome = false) := by
      rw [Option.isSome_eq_false_iff, Option.isNone_iff_eq_none]
    by_cases hidle : s.waiting = false ∧ s.done = false ∧ s.stopped = none
    · rw [if_pos hidle, if_pos (hiff.1 hidle)]
      by_cases hloop : ((s.seq + 1 : Nat) : Int) < ttl
      · rw [if_pos hloop]
        by_cases hmax : s.seq + 1 ≤ maxTtl
        · rw [if_pos hmax, if_pos ⟨hloop, hmax⟩]
          rfl
        · rw [if_neg hmax, if_neg fun h => hmax h.2]
          rfl
      · rw [if_neg hloop, if_neg fun h => hloop h.1]
        rfl
    · rw [if_neg hidle, if_neg (mt hiff.2 hidle)]
      rfl
  | arrive p => rfl
  | timeout =>
    show (if s.waiting = true ∧ s.sock = [] then some { s with waiting := false } else none).map Tracer.view =
      if s.waiting = true ∧ s.sock = [] then some { s.view with waiting := false } else none
    by_cases hc : s.waiting = true ∧ s.sock = []
    · rw [if_pos hc, if_pos hc]
      rfl
    · rw [if_neg hc, if_neg hc]
      rfl
  | recv =>
    cases hw : s.waiting with
    | false =>
      unfold step Rounds.step
      simp [Tracer.view, hw]
    | true =>
      cases hs : s.sock with
      | nil =>
        unfold step Rounds.step
        simp [Tracer.view, hw, hs]
      | cons p sock =>
        obtain ⟨s', hs', hreads⟩ := @step_recv_cons pid ttl s p sock hw hs
        rw [hs', Option.map_some]
        unfold Rounds.step
        simp only [Tracer.view, hw, hs, if_true]
        cases hreads with
        | hop h11 he =>
          subst he
          have ha : (tracerouteRules pid ttl).accepts p = true := decide_eq_true (Or.inl h11)
          have hends : (tracerouteRules pid ttl).ends p = false := by simp [tracerouteRules, h11]
          rw [if_pos ha, hends]
          simp
        | last h0 hid he =>
          subst he
          have ha : (tracerouteRules pid ttl).accepts p = true := decide_eq_true (Or.inr ⟨h0, hid⟩)
          have hends : (tracerouteRules pid ttl).ends p = true := by simp [tracerouteRules, h0]
          rw [if_pos ha, hends]
          simp
        | dropped hna he =>
          subst he
          have ha : ¬ (tracerouteRules pid ttl).accepts p = true := by simpa [tracerouteRules] using hna
          rw [if_neg ha]
          simp [hw]

/-! ## Which hops are attributed -/

/-- What may give hop `n`: a time-exceeded message that quotes its probe, or the reply to it; and
only the reply may end the trace. -/
def Answers (pid n : Nat) (p : Packet) : Prop :=
  if icmpType p.mem = 11 then p.TimeExceeded (probe pid n) ∨ p.EchoReply (probe pid n)
  else p.EchoReply (probe pid n)

instance (pid n : Nat) (p : Packet) : Decidable (Answers pid n p) := by
  unfold Answers
  infer_instance

/-- Every line printed has the source of an answer to the probe of its hop, no hop has two, and the
trace ended with the reply to its last probe. -/
structure HopsRight (pid : Nat) (s : Tracer) : Prop where
  addr : ∀ hop ∈ s.hops, hop.addr = hop.packet.source
  answers : ∀ hop ∈ s.hops,
    hop.packet.EchoReply (probe pid hop.seq) ∨
      hop.last = false ∧ hop.packet.TimeExceeded (probe pid hop.seq)
  once : (s.hops.map Hop.seq).Pairwise (· < ·)
  ended : s.done = true → ∃ hop ∈ s.hops, hop.last = true

/-- The packets in the socket when a probe is sent and those that come are not mistaken for the answer
awaited. -/
def OnTime (pid : Nat) (ttl : Int) (s : Tracer) : Event Packet → Prop
  | .send => ((s.seq + 1 : Nat) : Int) < ttl → s.seq + 1 ≤ maxTtl →
      ∀ p, s.sock.find? (Accepted pid) = some p → Answers pid (s.seq + 1) p
  | .arrive p => s.waiting = true → s.sock.find? (Accepted pid) = none → Accepted pid p →
      Answers pid s.seq p
  | .recv => True
  | .timeout => True

theorem onTime_iff (pid : Nat) (ttl : Int) (s : Tracer) (e : Event Packet) :
    OnTime pid ttl s e ↔ Rounds.OnTime (tracerouteRules pid ttl) (Answers pid) s.view e := by
  cases e with
  | send => simp [OnTime, Rounds.OnTime, State.next, Tracer.view, tracerouteRules]
  | arrive p => simp [OnTime, Rounds.OnTime, State.next, Tracer.view, tracerouteRules]
  | recv => exact Iff.rfl
  | timeout => exact Iff.rfl

/-- What the code always gets right: addresses, and which line ends a trace. -/
structure Printed (s : Tracer) : Prop where
  addr : ∀ hop ∈ s.hops, hop.addr = hop.packet.source
  last : ∀ hop ∈ s.hops, hop.last = false ↔ icmpType hop.packet.mem = 11
  ended : s.done = true → ∃ hop ∈ s.hops, hop.last = true

theorem printed_concat {s : Tracer} (hp : Printed s) {hop : Hop} (ha : hop.addr = hop.packet.source)
    (hl : hop.last = false ↔ icmpType hop.packet.mem = 11) :
    (∀ h ∈ s.hops ++ [hop], h.addr = h.packet.source) ∧
      (∀ h ∈ s.hops ++ [hop], h.last = false ↔ icmpType h.packet.mem = 11) := by
  constructor
  · intro h hh
    rcases List.mem_append.1 hh with hh | hh
    · exact hp.addr h hh
    · obtain rfl := List.mem_singleton.1 hh
      exact ha
  · intro h hh
    rcases List.mem_append.1 hh with hh | hh
    · exact hp.last h hh
    · obtain rfl := List.mem_singleton.1 hh
      exact hl

theorem printed_step {pid : Nat} {ttl : Int} {s s' : Tracer} {e : Event Packet} (hp : Printed s)
    (h : step pid ttl s e = some s') : Printed s' := by
  cases e with
  | send =>
    obtain ⟨-, hsent⟩ := step_send h
    cases hsent with
    | probe hloop hmax he =>
      subst he
      exact ⟨hp.addr, hp.last, hp.ended⟩
    | die hloop hmax he =>
      subst he
      exact ⟨hp.addr, hp.last, hp.ended⟩
    | loop hloop he =>
      subst he
      exact ⟨hp.addr, hp.last, hp.ended⟩
  | arrive p =>
    rw [← Option.some.inj h]
    exact ⟨hp.addr, hp.last, hp.ended⟩
  | timeout =>
    simp only [step] at h
    split at h
    · rw [← Option.some.inj h]
      exact ⟨hp.addr, hp.last, hp.ended⟩
    · cases h
  | recv =>
    cases hw : s.waiting with
    | false => simp [step, hw] at h
    | true =>
      cases hs : s.sock with
      | nil => simp [step, hw, hs] at h
      | cons p sock =>
        obtain ⟨u, hu, hreads⟩ := @step_recv_cons pid ttl s p sock hw hs
        obtain rfl : u = s' := Option.some.inj (hu.symm.trans h)
        cases hreads with
        | hop h11 he =>
          obtain ⟨haddr, hlast⟩ := @printed_concat s hp ⟨s.seq, p.source, p, false⟩ rfl (by simp [h11])
          subst he
          refine ⟨haddr, hlast, fun hd => ?_⟩
          obtain ⟨hop, hmem, hl⟩ := hp.ended hd
          exact ⟨hop, List.mem_append_left _ hmem, hl⟩
        | last h0 hid he =>
          obtain ⟨haddr, hlast⟩ := @printed_concat s hp ⟨s.seq, p.source, p, true⟩ rfl (by simp [h0])
          subst he
          exact ⟨haddr, hlast, fun _ => ⟨_, List.mem_append_right _ (List.mem_singleton_self _), rfl⟩⟩
        | dropped hna he =>
          subst he
          exact ⟨hp.addr, hp.last, hp.ended⟩

section
variable {pid : Nat} {ttl : Int} {packetRecv : Mem} {es : List (Event Packet)} {s : Tracer}

theorem view_traceroute (h : traceroute pid ttl packetRecv es = some s) :
    run (Rounds.step (tracerouteRules pid ttl)) Rounds.start es = some s.view :=
  run_view (view_step pid ttl) h

theorem printed_traceroute (h : traceroute pid ttl packetRecv es = some s) : Printed s := by
  refine run_inv (fun _ s => Printed s) ⟨?_, ?_, ?_⟩ (fun _ _ _ _ hp he => printed_step hp he) h
  · intro hop hh
    cases hh
  · intro hop hh
    cases hh
  · intro hd
    cases hd

/-- **How a trace ends without a reply.**  The loop ends with all probes below `ttl` sent, and `setsockopt` fails
when 255 are. -/
structure Stopped (ttl : Int) (s : Tracer) : Prop where
  below : 0 < s.seq → (s.seq : Int) < ttl ∧ s.seq ≤ maxTtl
  loop : s.stopped = some .loop → s.waiting = false ∧ ttl ≤ ((s.seq + 1 : Nat) : Int)
  die : s.stopped = some .die → s.waiting = false ∧ s.seq = maxTtl ∧ ((s.seq + 1 : Nat) : Int) < ttl

theorem stopped_step {s' : Tracer} {e : Event Packet} (hi : Stopped ttl s) (h : step pid ttl s e = some s') :
    Stopped ttl s' := by
  obtain ⟨hbelow, hloop, hdie⟩ := hi
  cases e with
  | send =>
    obtain ⟨⟨hw, -, hnone⟩, hsent⟩ := step_send h
    have hrunning : ∀ {stop}, s.stopped ≠ some stop := fun hs => by
      rw [hnone] at hs
      cases hs
    cases hsent with
    | probe hlt hmax he =>
      subst he
      exact ⟨fun _ => ⟨hlt, hmax⟩, fun hs => absurd hs hrunning, fun hs => absurd hs hrunning⟩
    | die hlt hmax he =>
      subst he
      refine ⟨hbelow, fun hs => (by cases hs), fun _ => ⟨hw, ?_, hlt⟩⟩
      have hpos : 0 < s.seq := by
        unfold maxTtl at hmax
        omega
      have hle := (hbelow hpos).2
      show s.seq = maxTtl
      omega
    | loop hge he =>
      subst he
      exact ⟨hbelow, fun _ => ⟨hw, hge⟩, fun hs => (by cases hs)⟩
  | arrive p =>
    rw [← Option.some.inj h]
    exact ⟨hbelow, hloop, hdie⟩
  | timeout =>
    simp only [step] at h
    split at h
    · rw [← Option.some.inj h]
      exact ⟨hbelow, fun hs => ⟨rfl, (hloop hs).2⟩, fun hs => ⟨rfl, (hdie hs).2⟩⟩
    · cases h
  | recv =>
    cases hw : s.waiting with
    | false => simp [step, hw] at h
    | true =>
      cases hs : s.sock with
      | nil => simp [step, hw, hs] at h
      | cons p sock =>
        obtain ⟨u, hu, hreads⟩ := @step_recv_cons pid ttl s p sock hw hs
        obtain rfl : u = s' := Option.some.inj (hu.symm.trans h)
        cases hreads with
        | hop h11 he =>
          subst he
          exact ⟨hbelow, fun hs => ⟨rfl, (hloop hs).2⟩, fun hs => ⟨rfl, (hdie hs).2⟩⟩
        | last h0 hid he =>
          subst he
          exact ⟨hbelow, fun hs => ⟨rfl, (hloop hs).2⟩, fun hs => ⟨rfl, (hdie hs).2⟩⟩
        | dropped hna he =>
          subst he
          exact ⟨hbelow, hloop, hdie⟩

theorem stopped_traceroute (h : traceroute pid ttl packetRecv es = some s) : Stopped ttl s := by
  refine run_inv (fun _ s => Stopped ttl s) ⟨?_, ?_, ?_⟩ (fun _ _ _ _ hi he => stopped_step hi he) h
  · intro hpos
    cases hpos
  · intro hs
    cases hs
  · intro hs
    cases hs

theorem hopsRight_iff (h : traceroute pid ttl packetRecv es = some s) :
    HopsRight pid s ↔ Rounds.Right (Answers pid) s.view := by
  have hp := printed_traceroute h
  have honce := taken_increasing (view_traceroute h)
  simp only [Tracer.view, List.map_map, Function.comp_def] at honce
  have hone : ∀ hop ∈ s.hops, Answers pid hop.seq hop.packet ↔
      hop.packet.EchoReply (probe pid hop.seq) ∨
        hop.last = false ∧ hop.packet.TimeExceeded (probe pid hop.seq) := by
    intro hop hh
    unfold Answers
    by_cases h11 : icmpType hop.packet.mem = 11
    · rw [if_pos h11, (hp.last hop hh).2 h11]
      simp only [true_and, or_comm]
    · have hl : hop.last ≠ false := fun hl => h11 ((hp.last hop hh).1 hl)
      rw [if_neg h11]
      simp [hl]
  constructor
  · rintro hr x hx
    obtain ⟨hop, hh, rfl⟩ := List.mem_map.1 hx
    exact (hone hop hh).2 (hr.answers hop hh)
  · intro hr
    refine ⟨hp.addr, fun hop hh => ?_, honce, hp.ended⟩
    exact (hone hop hh).1 (hr (hop.seq, hop.packet) (List.mem_map.2 ⟨hop, hh, rfl⟩))

/-- **Which hops are attributed.**  All lines printed in a run, and while `traceroute` goes on
reading, have the address of an answer to their own probe exactly when no probe of the run was sent
while a foreign packet that is accepted was first in the socket, and none came in its place. -/
theorem hops_right_iff (h : traceroute pid ttl packetRecv es = some s) :
    (∀ k s', traceroute pid ttl packetRecv (es ++ List.replicate k .recv) = some s' → HopsRight pid s') ↔
      ∀ pre e u, pre ++ [e] <+: es → traceroute pid ttl packetRecv pre = some u → OnTime pid ttl u e := by
  rw [← forall₂_congr fun k s' => forall_congr' fun hs' => (@hopsRight_iff pid ttl packetRecv _ s' hs').symm]
  rw [← forall₃_congr fun pre e u => forall₂_congr fun _ _ => (onTime_iff pid ttl u e).symm]
  exact right_iff_onTime_of_view (view_step pid ttl) rfl h

end

/-- A router's answer to probe 1 of process 7. -/
def firstHop : Packet where
  bytes := [69, 0, 0, 56, 0, 0, 0, 0, 64, 1, 0, 0, 192, 168, 0, 1, 10, 0, 0, 1, 11, 0, 0, 0, 0, 0, 0, 0,
    69, 0, 0, 84, 0, 0, 0, 0, 1, 1, 0, 0, 10, 0, 0, 1, 8, 8, 8, 8, 8, 0, 0, 0, 0, 7, 0, 1]
  header_len := by decide
  icmp_len := by decide

/-- When it comes in time its address is printed for its hop. -/
theorem hops_right_in_time :
    ∃ s, traceroute 7 255 (fun _ => 0) [.send, .arrive firstHop, .recv] = some s ∧ HopsRight 7 s := by
  have hrun : (traceroute 7 255 (fun _ => 0) [.send, .arrive firstHop, .recv]).map Tracer.seq = some 1 := by
    decide
  obtain ⟨s, hs, -⟩ := Option.map_eq_some_iff.1 hrun
  refine ⟨s, hs, (hops_right_iff hs).2 ?_ 0 s (by rw [List.replicate_zero, List.append_nil]; exact hs)⟩
  refine steps_cons ?_ fun s₁ h₁ => steps_cons ?_ fun s₂ h₂ => steps_cons ?_ fun s₃ _ => steps_nil
  · intro _ _ p hp
    cases hp
  · have hseq : s₁.seq = 1 := by
      have hfirst : (step 7 255 (start fun _ => 0) .send).map Tracer.seq = some 1 := by decide
      rw [h₁] at hfirst
      exact Option.some.inj hfirst
    intro _ _ _
    rw [hseq]
    decide
  · trivial

/-- When it comes after its timeout its address is printed for hop 2. -/
theorem hops_late :
    ¬ ∀ (pid : Nat) (ttl : Int) (packetRecv : Mem) (es : List (Event Packet)) (s : Tracer),
      traceroute pid ttl packetRecv es = some s → HopsRight pid s := by
  intro h
  have hrun : (traceroute 7 255 (fun _ => 0) [.send, .timeout, .send, .arrive firstHop, .recv]).map
      (fun s => s.hops.map fun hop => (hop.seq, hop.packet)) = some [(2, firstHop)] := by decide
  obtain ⟨s, hs, hc⟩ := Option.map_eq_some_iff.1 hrun
  have hright := (hopsRight_iff hs).1 (h 7 255 (fun _ => 0) _ s hs) (2, firstHop) (by
    show (2, firstHop) ∈ s.hops.map fun hop => (hop.seq, hop.packet)
    rw [hc]
    exact List.mem_singleton_self _)
  revert hright
  decide

end Eltex.Traceroute
