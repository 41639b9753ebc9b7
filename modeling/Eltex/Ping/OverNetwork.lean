import Eltex.Lib.Answered
import Eltex.Ping.Replies

/-!
# `ping` over a network that loses, delays, copies and reorders

The host asked replies to each request that reaches it, and other packets do not pass the tests.  Then no
reply is counted before its request was sent, and each is credited to its own request where nothing comes
twice and no timeout runs out for a reply still to come (`replies_over`).  Lost requests and lost replies
do no harm: they only make `total` fall behind `seq`.
-/

namespace Eltex.Ping

open ByteMem Icmp Rounds Runs

instance (pid n : Nat) (p : Packet) : Decidable (Answers pid n p) := inferInstanceAs (Decidable (p.EchoReply _))

/-- The request on which `ping` waits. -/
def Client.asked (s : Client) : Option Nat := if s.waiting = true then some s.seq else none

/-- `ping` with the host it asks outside. -/
def pingOver (pid : Nat) (packetRecv : Mem) (es : List (NetEvent Packet)) : Option (Net Client) :=
  run (netStep (step pid) Client.asked (pingRules pid) (Answers pid)) ⟨start packetRecv, []⟩ es

section
variable {pid : Nat} {packetRecv : Mem} {es : List (NetEvent Packet)} {s : Net Client}

theorem ping_of_over (h : pingOver pid packetRecv es = some s) :
    ping pid packetRecv (es.flatMap NetEvent.seen) = some s.program :=
  program_run h

theorem total_le_seq (h : ping pid packetRecv (es.flatMap NetEvent.seen) = some s.program) :
    s.program.total ≤ s.program.seq := by
  have htotal := total_ping h
  have hround : s.program.seq = _ := (accounted_run (view_ping h)).round
  rw [Client.view, List.length_map] at hround
  rw [htotal, hround]
  omega

/-- **What the replies counted answer.**  Whatever the network does, a reply is that to a request sent before,
and where nothing comes twice and no timeout runs out for a reply still to come it is that of its round. -/
theorem replies_over (h : pingOver pid packetRecv es = some s) :
    s.program.total ≤ s.program.seq ∧
      (∀ c ∈ s.program.counted, ∃ n, 0 < n ∧ n ≤ c.seq ∧ c.packet.EchoReply (request pid n)) ∧
      ((∀ pre e u, pre ++ [e] <+: es → pingOver pid packetRecv pre = some u → Timely u e) →
        TimesRight pid s.program) := by
  have hrun := ping_of_over h
  refine ⟨total_le_seq hrun, fun c hc => ?_, fun htimely => (timesRight_iff hrun).2 ?_⟩
  · exact taken_caused (view_step pid) (fun _ => rfl) rfl h (c.seq, c.packet) (List.mem_map.2 ⟨c, hc, rfl⟩)
  · exact taken_timely (view_step pid) (fun _ => rfl) rfl h htimely

end

/-- The second request is lost. -/
theorem replies_over_lost :
    ∃ s, pingOver 7 (fun _ => 0) [.send, .deliver 0 lateReply, .recv, .send, .lose 0, .timeout] = some s ∧
      s.program.seq = 2 ∧ s.program.total = 1 ∧ TimesRight 7 s.program := by
  have hrun : (pingOver 7 (fun _ => 0) [.send, .deliver 0 lateReply, .recv, .send, .lose 0, .timeout]).map
      (fun s => (s.program.seq, s.program.total)) = some (2, 1) := by decide
  obtain ⟨s, hs, hcounts⟩ := Option.map_eq_some_iff.1 hrun
  obtain ⟨hseq, htotal⟩ := Prod.mk.inj hcounts
  refine ⟨s, hs, hseq, htotal, (replies_over hs).2.2 ?_⟩
  refine steps_cons trivial fun s₁ h₁ => steps_cons trivial fun s₂ h₂ => steps_cons trivial fun s₃ h₃ =>
    steps_cons trivial fun s₄ h₄ => steps_cons trivial fun s₅ h₅ => steps_cons ?_ fun s₆ _ => steps_nil
  have hflight : (run (netStep (step 7) Client.asked (pingRules 7) (Answers 7)) ⟨start fun _ => 0, []⟩
      [.send, .deliver 0 lateReply, .recv, .send, .lose 0]).map (fun s => s.flight) = some [] := by decide
  rw [run_cons, h₁, Option.bind_some, run_cons, h₂, Option.bind_some, run_cons, h₃, Option.bind_some, run_cons, h₄,
    Option.bind_some, run_cons, h₅, Option.bind_some, run_nil] at hflight
  exact Option.some.inj hflight

end Eltex.Ping
