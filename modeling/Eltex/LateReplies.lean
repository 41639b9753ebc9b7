import Eltex.Ping.Replies
import Eltex.Traceroute.Hops

/-!
# Replies that come late

A reply that comes after its timeout is not thrown away: it is the first thing the next round reads,
and the reply of that round is left for the one after it.  Whatever comes in, the packets that pass the
tests are counted in the order in which they come, and the one at index `k` goes to the round `k + 1` and
one further for each timeout before it was read.

So a packet that answers request `a` is credited rightly just when these two numbers are the same
modulo 2^16 (`ping_lags`), and so it is with the hops of `traceroute` (`hops_lag`).  How far a packet goes
beyond its own index never falls again.
-/

namespace Eltex

open ByteMem Icmp Rounds Runs

theorem echoReply_unique {p : Packet} {e f : Echo} (he : p.EchoReply e) (hf : p.EchoReply f) : e = f := by
  obtain ⟨-, -, hid, hsequence⟩ := he
  obtain ⟨-, -, hid', hsequence'⟩ := hf
  obtain ⟨id, sequence⟩ := e
  obtain ⟨id', sequence'⟩ := f
  obtain rfl : id = id' := hid.symm.trans hid'
  obtain rfl : sequence = sequence' := hsequence.symm.trans hsequence'
  rfl

theorem timeExceeded_unique {p : Packet} {e f : Echo} (he : p.TimeExceeded e) (hf : p.TimeExceeded f) : e = f := by
  obtain ⟨-, -, -, -, hid, hsequence⟩ := he
  obtain ⟨-, -, -, -, hid', hsequence'⟩ := hf
  obtain ⟨id, sequence⟩ := e
  obtain ⟨id', sequence'⟩ := f
  obtain rfl : id = id' := hid.symm.trans hid'
  obtain rfl : sequence = sequence' := hsequence.symm.trans hsequence'
  rfl

/-- No packet is both. -/
theorem not_timeExceeded {p : Packet} {e f : Echo} (he : p.EchoReply e) : ¬ p.TimeExceeded f := by
  intro hf
  obtain ⟨-, h0, -⟩ := he
  have h11 := hf.1
  rw [Packet.icmp] at h11 h0
  omega

/-! ## `ping` -/

namespace Ping

variable {pid : Nat}

/-- A packet that answers request `m` answers request `n` when both are sent with one number. -/
theorem echoReply_request_iff {p : Packet} {m n : Nat} (h : p.EchoReply (request pid m)) :
    p.EchoReply (request pid n) ↔ n % 65536 = m % 65536 := by
  constructor
  · intro hn
    exact congrArg Echo.sequence (echoReply_unique hn h)
  · intro hmod
    rw [request, hmod]
    exact h

section
variable {packetRecv : Mem} {es : List (Event Packet)} {s : Client}

theorem taken_of_counted {k : Nat} {c : Counted} (hk : s.counted[k]? = some c) :
    s.view.taken[k]? = some (c.seq, c.packet) := by
  rw [Client.view, List.getElem?_map, hk, Option.map_some]

/-- **To which request a reply is credited**, in every run and under any other traffic. -/
theorem ping_lags (h : ping pid packetRecv es = some s) :
    s.seq = s.total + timeouts es + (if s.waiting = true then 1 else 0) ∧
      ∀ k c, s.counted[k]? = some c →
        ((arrivals es).filter (Passes pid))[k]? = some c.packet ∧
        (∃ pre u, pre ++ [.recv] <+: es ∧ ping pid packetRecv pre = some u ∧ u.sock.head? = some c.packet ∧
          u.total = k ∧ c.seq = u.seq ∧ c.seq = k + 1 + timeouts pre ∧
          ∀ a, c.packet.EchoReply (request pid a) →
            (c.packet.EchoReply (request pid c.seq) ↔ (k + 1 + timeouts pre) % 65536 = a % 65536)) ∧
        ∀ j d, j ≤ k → s.counted[j]? = some d → d.seq - (j + 1) ≤ c.seq - (k + 1) := by
  refine ⟨?_, fun k c hk => ?_⟩
  · have hround := (accounted_run (view_ping h)).round
    rw [Client.view, List.length_map] at hround
    rw [total_ping h]
    exact hround
  · have htaken := taken_of_counted hk
    obtain ⟨harrived, pre, u, hpre, hu, hhead, hcount, hround, hseq⟩ := taken_at_of_view (view_step pid) rfl h htaken
    refine ⟨harrived, ⟨pre, u, hpre, hu, hhead, ?_, hround.symm, hseq, fun a ha => ?_⟩, fun j d hjk hj => ?_⟩
    · rw [Client.view, List.length_map] at hcount
      rw [total_ping hu, hcount]
    · rw [← show c.seq = k + 1 + timeouts pre from hseq]
      exact echoReply_request_iff ha
    · have hlag : d.seq + k ≤ c.seq + j := lag_le (view_ping h) hjk (taken_of_counted hj) htaken
      omega

end

/-- The reply to request 1 comes after its timeout: it is credited to request 2. -/
theorem ping_lags_one :
    ∃ s, ping 7 (fun _ => 0) [.send, .timeout, .send, .arrive lateReply, .recv] = some s ∧
      ∃ c, s.counted[0]? = some c ∧ c.seq = 2 ∧ ¬ c.packet.EchoReply (request 7 c.seq) := by
  have hrun : (ping 7 (fun _ => 0) [.send, .timeout, .send, .arrive lateReply, .recv]).map
      (fun s => s.counted.map fun c => (c.seq, c.packet)) = some [(2, lateReply)] := by decide
  obtain ⟨s, hs, hcounted⟩ := Option.map_eq_some_iff.1 hrun
  obtain ⟨c, hc, hpair⟩ := List.map_eq_singleton_iff.1 hcounted
  obtain ⟨hseq, hpacket⟩ := Prod.mk.inj hpair
  have hk : s.counted[0]? = some c := by rw [hc, List.getElem?_cons_zero]
  obtain ⟨-, ⟨pre, u, -, -, -, -, -, hpre, hiff⟩, -⟩ := (ping_lags hs).2 0 c hk
  refine ⟨s, hs, c, hk, hseq, fun hreply => ?_⟩
  have hmod := (hiff 1 (by rw [hpacket]; decide)).1 hreply
  omega

end Ping

/-! ## `traceroute` -/

namespace Traceroute

variable {pid : Nat}

theorem answers_iff {p : Packet} {m n : Nat} (h : Answers pid m p) :
    Answers pid n p ↔ n % 65536 = m % 65536 := by
  have hprobe : ∀ i j, probe pid i = probe pid j → i % 65536 = j % 65536 :=
    fun i j hij => congrArg Echo.sequence hij
  constructor
  · intro hn
    apply hprobe n m
    unfold Answers at h hn
    by_cases h11 : icmpType p.mem = 11
    · rw [if_pos h11] at h hn
      rcases h with hm | hm <;> rcases hn with hn | hn
      · exact timeExceeded_unique hn hm
      · exact absurd hm (not_timeExceeded hn)
      · exact absurd hn (not_timeExceeded hm)
      · exact echoReply_unique hn hm
    · rw [if_neg h11] at h hn
      exact echoReply_unique hn h
  · intro hmod
    rw [Answers, probe, hmod]
    exact h

section
variable {ttl : Int} {packetRecv : Mem} {es : List (Event Packet)} {s : Tracer}

theorem taken_of_hops {k : Nat} {hop : Hop} (hk : s.hops[k]? = some hop) :
    s.view.taken[k]? = some (hop.seq, hop.packet) := by
  rw [Tracer.view, List.getElem?_map, hk, Option.map_some]

/-- **To which hop an address is put down**, in every run and under any other traffic. -/
theorem hops_lag (h : traceroute pid ttl packetRecv es = some s) :
    s.seq = s.hops.length + timeouts es + (if s.waiting = true then 1 else 0) ∧
      ∀ k hop, s.hops[k]? = some hop →
        hop.addr = hop.packet.source ∧ ((arrivals es).filter (Accepted pid))[k]? = some hop.packet ∧
        (∃ pre u, pre ++ [.recv] <+: es ∧ traceroute pid ttl packetRecv pre = some u ∧
          u.sock.head? = some hop.packet ∧ u.hops.length = k ∧ hop.seq = u.seq ∧ hop.seq = k + 1 + timeouts pre ∧
          ∀ a, Answers pid a hop.packet →
            (Answers pid hop.seq hop.packet ↔ (k + 1 + timeouts pre) % 65536 = a % 65536)) ∧
        ∀ j hop', j ≤ k → s.hops[j]? = some hop' → hop'.seq - (j + 1) ≤ hop.seq - (k + 1) := by
  refine ⟨?_, fun k hop hk => ?_⟩
  · have hround := (accounted_run (view_traceroute h)).round
    rw [Tracer.view, List.length_map] at hround
    exact hround
  · have htaken := taken_of_hops hk
    obtain ⟨harrived, pre, u, hpre, hu, hhead, hcount, hround, hseq⟩ :=
      taken_at_of_view (view_step pid ttl) rfl h htaken
    refine ⟨(printed_traceroute h).addr hop (List.mem_of_getElem? hk), harrived,
      ⟨pre, u, hpre, hu, hhead, ?_, hround.symm, hseq, fun a ha => ?_⟩, fun j hop' hjk hj => ?_⟩
    · rw [Tracer.view, List.length_map] at hcount
      exact hcount
    · rw [← show hop.seq = k + 1 + timeouts pre from hseq]
      exact answers_iff ha
    · have hlag : hop'.seq + k ≤ hop.seq + j := lag_le (view_traceroute h) hjk (taken_of_hops hj) htaken
      omega

end

/-- The router of hop 1 is slow: its address is put down for hop 2. -/
theorem hops_lag_one :
    ∃ s, traceroute 7 255 (fun _ => 0) [.send, .timeout, .send, .arrive firstHop, .recv] = some s ∧
      ∃ hop, s.hops[0]? = some hop ∧ hop.seq = 2 ∧ ¬ Answers 7 hop.seq hop.packet := by
  have hrun : (traceroute 7 255 (fun _ => 0) [.send, .timeout, .send, .arrive firstHop, .recv]).map
      (fun s => s.hops.map fun hop => (hop.seq, hop.packet)) = some [(2, firstHop)] := by decide
  obtain ⟨s, hs, hhops⟩ := Option.map_eq_some_iff.1 hrun
  obtain ⟨hop, hhop, hpair⟩ := List.map_eq_singleton_iff.1 hhops
  obtain ⟨hseq, hpacket⟩ := Prod.mk.inj hpair
  have hk : s.hops[0]? = some hop := by rw [hhop, List.getElem?_cons_zero]
  obtain ⟨-, -, ⟨pre, u, -, -, -, -, -, hpre, hiff⟩, -⟩ := (hops_lag hs).2 0 hop hk
  refine ⟨s, hs, hop, hk, hseq, fun hanswers => ?_⟩
  have hmod := (hiff 1 (by rw [hpacket]; decide)).1 hanswers
  omega

end Traceroute

end Eltex
