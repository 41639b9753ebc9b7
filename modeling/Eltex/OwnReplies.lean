import Eltex.EchoRequests
import Eltex.Ping.Replies
import Eltex.Traceroute.Hops

/-!
# Replies to one's own requests

Both programs put the low 16 bits of a process id into their requests and compare what comes back
with the whole number.  So a reply is recognised exactly when the id has no more than 16 bits, and
all are skipped of a process with a larger one (`recognised_iff`).
-/

namespace Eltex

open ByteMem Icmp

/-- A reply, its header behind 20 bytes, with the identifier and sequence number of what was sent. -/
structure Returns (sent : Mem) (p : Packet) : Prop where
  iphdr : headerLen (p.mem 0) = 20
  type : (p.mem 20).toNat = 0
  id : be16 p.mem 24 = be16 sent 4
  sequence : be16 p.mem 26 = be16 sent 6

/-- `ping` counts the packet when it reads it. -/
def Ping.Recognises (pid : Nat) (p : Packet) : Prop :=
  ∀ (s : Client) (sock : List Packet), s.waiting = true → s.sock = p :: sock →
    ∃ s', step pid s .recv = some s' ∧ s'.counted = s.counted ++ [⟨s.seq, p, icmpRecv p.mem⟩]

/-- `traceroute` prints the last hop when it reads the packet. -/
def Traceroute.Recognises (pid : Nat) (ttl : Int) (p : Packet) : Prop :=
  ∀ (s : Tracer) (sock : List Packet), s.waiting = true → s.sock = p :: sock →
    ∃ s', step pid ttl s .recv = some s' ∧ s'.hops = s.hops ++ [⟨s.seq, p.source, p, true⟩]

/-- The tests alone decide it. -/
theorem Ping.recognises_iff {pid : Nat} {p : Packet} (htype : (p.mem 20).toNat = 0) :
    Recognises pid p ↔ be16 p.mem 24 = pid := by
  constructor
  · intro h
    obtain ⟨s', hs', hcounted⟩ := h ⟨0, 0, p.mem, true, [p], [], []⟩ [] rfl rfl
    obtain ⟨u, hu, hreads⟩ := @step_recv_cons pid ⟨0, 0, p.mem, true, [p], [], []⟩ p [] rfl rfl
    obtain rfl : u = s' := Option.some.inj (hu.symm.trans hs')
    cases hreads with
    | counted hpass he => exact hpass.2
    | dropped hpass he =>
      subst he
      exact absurd hcounted (by simp)
  · intro hid s sock hw hs
    obtain ⟨s', hs', hreads⟩ := @step_recv_cons pid s p sock hw hs
    refine ⟨s', hs', ?_⟩
    cases hreads with
    | counted hpass he => rw [he]
    | dropped hpass he => exact absurd ⟨htype, hid⟩ hpass

theorem Traceroute.recognises_iff {pid : Nat} {ttl : Int} {p : Packet} (htype : (p.mem 20).toNat = 0) :
    Recognises pid ttl p ↔ be16 p.mem 24 = pid := by
  have h0 : icmpType p.mem = 0 := htype
  constructor
  · intro h
    obtain ⟨s', hs', hhops⟩ := h ⟨0, p.mem, true, false, none, [p], [], []⟩ [] rfl rfl
    obtain ⟨u, hu, hreads⟩ := @step_recv_cons pid ttl ⟨0, p.mem, true, false, none, [p], [], []⟩ p [] rfl rfl
    obtain rfl : u = s' := Option.some.inj (hu.symm.trans hs')
    cases hreads with
    | hop h11 he =>
      rw [h0] at h11
      cases h11
    | last _ hid he => exact hid
    | dropped hna he =>
      subst he
      exact absurd hhops (by simp)
  · intro hid s sock hw hs
    obtain ⟨s', hs', hreads⟩ := @step_recv_cons pid ttl s p sock hw hs
    refine ⟨s', hs', ?_⟩
    cases hreads with
    | hop h11 he =>
      rw [h0] at h11
      cases h11
    | last _ _ he => rw [he]
    | dropped hna he => exact absurd (Or.inr ⟨h0, hid⟩) hna

section
variable {checksum : Mem → Nat → Nat → Option Nat} {packetSend sent : Mem} {pid seq : Nat} {p : Packet}

theorem returns_iff (hsend : echoRequest checksum packetSend pid seq = some sent) :
    Returns sent p ↔ headerLen (p.mem 0) = 20 ∧ (p.mem 20).toNat = 0 ∧ be16 p.mem 24 = pid % 65536 ∧
      be16 p.mem 26 = seq % 65536 := by
  obtain ⟨hid, hseq⟩ := be16_echoRequest hsend
  rw [← hid, ← hseq]
  constructor
  · rintro ⟨hiphdr, htype, hid, hseq⟩
    exact ⟨hiphdr, htype, hid, hseq⟩
  · rintro ⟨hiphdr, htype, hid, hseq⟩
    exact ⟨hiphdr, htype, hid, hseq⟩

/-- What comes back is the low half of the identifier. -/
theorem be16_returns (hsend : echoRequest checksum packetSend pid seq = some sent) (hp : Returns sent p) :
    be16 p.mem 24 = pid % 65536 :=
  ((returns_iff hsend).1 hp).2.2.1

end

/-- **Own replies** are recognised exactly by processes whose id has no more than 16 bits. -/
theorem recognised_iff (packetSend : Mem) (pid seq : Nat) :
    (∀ sent p, Ping.icmpSend packetSend pid seq = some sent → Returns sent p →
        (Ping.Recognises pid p ↔ pid ≤ 65535)) ∧
      ∀ sent p ttl, Traceroute.icmpSend packetSend pid seq = some sent → Returns sent p →
        (Traceroute.Recognises pid ttl p ↔ pid ≤ 65535) := by
  constructor
  · intro sent p hsend hp
    rw [Ping.recognises_iff hp.type, be16_returns hsend hp]
    omega
  · intro sent p ttl hsend hp
    rw [Traceroute.recognises_iff hp.type, be16_returns hsend hp]
    omega

/-- Process 7 recognises the reply to its first request. -/
theorem recognised_seven :
    ∃ sent, Ping.icmpSend (fun _ => 0) 7 1 = some sent ∧ Returns sent Ping.lateReply ∧
      Ping.Recognises 7 Ping.lateReply := by
  obtain ⟨sent, hsend⟩ := exists_echoRequest (by decide : 32 ≤ 64) (fun _ => 0) 7 1
  have hp : Returns sent Ping.lateReply := (returns_iff hsend).2 (by decide)
  exact ⟨sent, hsend, hp, ((recognised_iff (fun _ => 0) 7 1).1 sent _ hsend hp).2 (by decide)⟩

/-- The reply to the first request of process 70000; its identifier is 4464. -/
def wideReply : Packet where
  bytes := [69, 0, 0, 28, 0, 0, 0, 0, 64, 1, 0, 0, 8, 8, 8, 8, 10, 0, 0, 1, 0, 0, 0, 0, 17, 112, 0, 1]
  header_len := by decide
  icmp_len := by decide

/-- `ping` and `traceroute` skip it. -/
theorem recognised_wide :
    (¬ ∀ (packetSend : Mem) (pid seq : Nat) (sent : Mem) (p : Packet), 0 < pid → pid < 2 ^ 31 →
        Ping.icmpSend packetSend pid seq = some sent → Returns sent p → Ping.Recognises pid p) ∧
      ¬ ∀ (packetSend : Mem) (pid seq : Nat) (sent : Mem) (p : Packet) (ttl : Int), 0 < pid → pid < 2 ^ 31 →
        Traceroute.icmpSend packetSend pid seq = some sent → Returns sent p →
          Traceroute.Recognises pid ttl p := by
  obtain ⟨sent, hsend⟩ := exists_echoRequest (by decide : 32 ≤ 64) (fun _ => 0) 70000 1
  have hp : Returns sent wideReply := (returns_iff hsend).2 (by decide)
  constructor
  · intro h
    have hrec := h (fun _ => 0) 70000 1 sent wideReply (by decide) (by decide) hsend hp
    exact absurd ((Ping.recognises_iff hp.type).1 hrec) (by decide)
  · intro h
    have hrec := h (fun _ => 0) 70000 1 sent wideReply 30 (by decide) (by decide) hsend hp
    exact absurd ((Traceroute.recognises_iff hp.type).1 hrec) (by decide)

end Eltex
