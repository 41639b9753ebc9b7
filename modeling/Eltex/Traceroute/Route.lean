import Eltex.Lib.Answered
import Eltex.Traceroute.Hops

/-!
# What `traceroute` shows of a route

The probes go along a route that does not change: the one with TTL `n` ends at the `n`-th router, which
says so, and behind the last router at the destination, which replies.  The network may lose, delay, copy
and reorder probes and answers, and the socket gets other packets that are not accepted.

    a line never shows a node farther off than its number, and only the destination and
      the last TTL end the trace                                                 (route_shown)
    where nothing comes twice and no timeout runs out for an answer still to come, each line
      shows the node at the distance of its number, or the destination behind it (route_right)
    without timeouts the lines are the route, node by node, and the trace ends when all of
      it has been shown or the last TTL used                                     (route_listed)
-/

namespace Eltex.Traceroute

open ByteMem Icmp Rounds Runs

/-- The routers on the way and what is behind them, by their addresses. -/
structure Route where
  routers : List (List UInt8)
  destination : List UInt8

namespace Route

variable (route : Route)

def nodes : List (List UInt8) := route.routers ++ [route.destination]

/-- Of the destination. -/
def distance : Nat := route.routers.length + 1

/-- Who answers the probe with TTL `n`: the node at this distance, and from there on the destination. -/
def node (n : Nat) : List UInt8 := route.routers.getD (n - 1) route.destination

/-- The answer to probe `n`, behind a header without options. -/
def Reply (pid n : Nat) (p : Packet) : Prop :=
  p.icmp = 20 ∧ p.source = route.node n ∧
    if n ≤ route.routers.length then p.TimeExceeded (probe pid n) else p.EchoReply (probe pid n)

instance (pid n : Nat) (p : Packet) : Decidable (route.Reply pid n p) := by
  unfold Reply
  infer_instance

theorem node_of_distance_le {n : Nat} (hn : route.distance ≤ n) : route.node n = route.destination := by
  unfold distance at hn
  rw [node, List.getD_eq_getElem?_getD, List.getElem?_eq_none (by omega), Option.getD_none]

theorem nodes_length : route.nodes.length = route.distance := by
  rw [nodes, List.length_append, List.length_singleton, distance]

theorem node_succ {k : Nat} (hk : k ≤ route.routers.length) : route.nodes[k]? = some (route.node (k + 1)) := by
  rw [nodes, node, Nat.add_sub_cancel, List.getD_eq_getElem?_getD]
  rcases Nat.lt_or_eq_of_le hk with hlt | rfl
  · rw [List.getElem?_append_left hlt, List.getElem?_eq_getElem hlt, Option.getD_some]
  · rw [List.getElem?_concat_length, List.getElem?_eq_none (Nat.le_refl _), Option.getD_none]

theorem node_min {n : Nat} (hn : 0 < n) : route.nodes[min n route.distance - 1]? = some (route.node n) := by
  rcases Nat.lt_or_ge n route.distance with hlt | hge
  · have hk : n - 1 ≤ route.routers.length := by
      unfold distance at hlt
      omega
    rw [Nat.min_eq_left hlt.le, route.node_succ hk, Nat.sub_add_cancel hn]
  · rw [Nat.min_eq_right hge, route.node_of_distance_le hge, distance, Nat.add_sub_cancel,
      route.node_succ (Nat.le_refl _), ← distance, route.node_of_distance_le (Nat.le_refl _)]

variable {route} {pid n : Nat} {p : Packet}

/-- Routers say so, and only they. -/
theorem Reply.icmpType_iff (h : route.Reply pid n p) : icmpType p.mem = 11 ↔ n ≤ route.routers.length := by
  obtain ⟨hicmp, -, hkind⟩ := h
  by_cases hn : n ≤ route.routers.length
  · rw [if_pos hn] at hkind
    have h11 := hkind.1
    rw [hicmp] at h11
    exact ⟨fun _ => hn, fun _ => h11⟩
  · rw [if_neg hn] at hkind
    have h0 := hkind.2.1
    rw [hicmp] at h0
    refine ⟨fun h11 => ?_, fun hle => absurd hle hn⟩
    rw [icmpType, h0] at h11
    cases h11

end Route

/-- The probe on which `traceroute` waits. -/
def Tracer.asked (s : Tracer) : Option Nat := if s.waiting = true then some s.seq else none

/-- `traceroute` with the route outside. -/
def tracerouteOver (route : Route) (pid : Nat) (ttl : Int) (packetRecv : Mem) (es : List (NetEvent Packet)) :
    Option (Net Tracer) :=
  run (netStep (step pid ttl) Tracer.asked (tracerouteRules pid ttl) (route.Reply pid)) ⟨start packetRecv, []⟩ es

section
variable {route : Route} {pid : Nat} {ttl : Int} {packetRecv : Mem} {es : List (NetEvent Packet)} {s : Net Tracer}

theorem traceroute_of_over (h : tracerouteOver route pid ttl packetRecv es = some s) :
    traceroute pid ttl packetRecv (es.flatMap NetEvent.seen) = some s.program :=
  program_run h

/-- What a line shows when its packet answers probe `n`. -/
theorem shown_of_reply (hp : Printed s.program) {hop : Hop} (hh : hop ∈ s.program.hops) {n : Nat}
    (hreply : route.Reply pid n hop.packet) :
    hop.addr = route.node n ∧ (hop.last = true ↔ route.distance ≤ n) := by
  refine ⟨(hp.addr hop hh).trans hreply.2.1, ?_⟩
  rw [← Bool.not_eq_false, hp.last hop hh, hreply.icmpType_iff, Nat.not_le]
  exact Iff.rfl

/-- A line shows a node not farther off than its number. -/
theorem shown_hops (h : tracerouteOver route pid ttl packetRecv es = some s) :
    ∀ hop ∈ s.program.hops, ∃ n, 0 < n ∧ n ≤ hop.seq ∧ hop.addr = route.node n ∧
      (hop.last = true ↔ route.distance ≤ n) := by
  intro hop hh
  obtain ⟨n, hpos, hle, hreply⟩ := taken_caused (view_step pid ttl) (fun _ => rfl) rfl h (hop.seq, hop.packet)
    (List.mem_map.2 ⟨hop, hh, rfl⟩)
  obtain ⟨haddr, hlast⟩ := shown_of_reply (printed_traceroute (traceroute_of_over h)) hh hreply
  exact ⟨n, hpos, hle, haddr, hlast⟩

/-- Behind the loop all probes below `ttl` have been sent. -/
theorem seq_of_loop {u : Tracer} (hs : Stopped ttl u) (hloop : u.stopped = some .loop) :
    u.seq = (ttl - 1).toNat := by
  have hge := (hs.loop hloop).2
  rcases Nat.eq_zero_or_pos u.seq with hzero | hpos
  · omega
  · have hlt := (hs.below hpos).1
    omega

/-- **No line is ahead of the route.**  Whatever the network does, a line shows a node not farther off than
its number.  A line ends the trace only with the destination; else it ends when the probes below `ttl` are used
up, or all 255 that can be. -/
theorem route_shown (h : tracerouteOver route pid ttl packetRecv es = some s) :
    (∀ hop ∈ s.program.hops, ∃ n, 0 < n ∧ n ≤ hop.seq ∧ hop.addr = route.node n ∧
      (hop.last = true ↔ route.distance ≤ n)) ∧
    (s.program.done = true → ∃ hop ∈ s.program.hops, hop.last = true ∧ hop.addr = route.destination ∧
      route.distance ≤ hop.seq) ∧
    (s.program.stopped = some .loop → s.program.seq = (ttl - 1).toNat) ∧
    (s.program.stopped = some .die → s.program.seq = maxTtl ∧ (maxTtl : Int) < ttl - 1) := by
  have hstopped := stopped_traceroute (traceroute_of_over h)
  refine ⟨shown_hops h, fun hdone => ?_, seq_of_loop hstopped, fun hdie => ?_⟩
  · obtain ⟨hop, hh, hlast⟩ := (printed_traceroute (traceroute_of_over h)).ended hdone
    obtain ⟨n, hpos, hle, haddr, hiff⟩ := shown_hops h hop hh
    have hfar := hiff.1 hlast
    exact ⟨hop, hh, hlast, haddr.trans (route.node_of_distance_le hfar), hfar.trans hle⟩
  · obtain ⟨-, hmax, hlt⟩ := hstopped.die hdie
    rw [hmax] at hlt
    exact ⟨hmax, by omega⟩

/-- One router on the way. -/
def shortRoute : Route := ⟨[[192, 168, 0, 1]], [8, 8, 8, 8]⟩

/-- It is slow: its address stands in line 2. -/
theorem route_shown_late :
    ∃ s, tracerouteOver shortRoute 7 255 (fun _ => 0) [.send, .timeout, .send, .deliver 0 firstHop, .recv] = some s ∧
      ∃ hop ∈ s.program.hops, hop.seq = 2 ∧
        ∃ n ≤ 2, hop.addr = shortRoute.node n ∧ n ≤ shortRoute.routers.length := by
  have hrun : (tracerouteOver shortRoute 7 255 (fun _ => 0) [.send, .timeout, .send, .deliver 0 firstHop, .recv]).map
      (fun s => s.program.hops.map fun hop => (hop.seq, hop.last)) = some [(2, false)] := by decide
  obtain ⟨s, hs, hhops⟩ := Option.map_eq_some_iff.1 hrun
  obtain ⟨hop, hhop, hpair⟩ := List.map_eq_singleton_iff.1 hhops
  obtain ⟨hseq, hlast⟩ := Prod.mk.inj hpair
  have hh : hop ∈ s.program.hops := by rw [hhop]; exact List.mem_singleton_self _
  obtain ⟨n, -, hle, haddr, hiff⟩ := (route_shown hs).1 hop hh
  refine ⟨s, hs, hop, hh, hseq, n, by rwa [hseq] at hle, haddr, Nat.le_of_not_lt fun hfar => ?_⟩
  have htrue := hiff.2 hfar
  rw [hlast] at htrue
  cases htrue

/-- The line that ends the trace is the last one. -/
theorem last_hop (h : traceroute pid ttl packetRecv (es.flatMap NetEvent.seen) = some s.program) {k : Nat}
    {hop : Hop} (hk : s.program.hops[k]? = some hop) (hlast : hop.last = true) :
    k + 1 = s.program.hops.length ∧ s.program.done = true := by
  have hended := ended_run (view_traceroute h)
  have hends : (tracerouteRules pid ttl).ends hop.packet = true := by
    refine decide_eq_true fun h11 => ?_
    have hfalse := ((printed_traceroute h).last hop (List.mem_of_getElem? hk)).2 h11
    rw [hlast] at hfalse
    cases hfalse
  have htaken : s.program.view.taken[k]? = some (hop.seq, hop.packet) := by
    rw [Tracer.view, List.getElem?_map, hk, Option.map_some]
  refine ⟨?_, hended.done.2 ⟨_, List.mem_of_getElem? htaken, hends⟩⟩
  have hlength := hended.last k _ htaken hends
  rwa [Tracer.view, List.length_map] at hlength

/-- Where nothing comes twice and no timeout runs out for an answer still to come. -/
theorem shown_timely (h : tracerouteOver route pid ttl packetRecv es = some s)
    (htimely : ∀ pre e u, pre ++ [e] <+: es → tracerouteOver route pid ttl packetRecv pre = some u → Timely u e)
    {k : Nat} {hop : Hop} (hk : s.program.hops[k]? = some hop) :
    hop.addr = route.node hop.seq ∧ (hop.last = true ↔ route.distance ≤ hop.seq) ∧
      (route.distance ≤ hop.seq → k + 1 = s.program.hops.length ∧ s.program.done = true) := by
  have hrun := traceroute_of_over h
  have hh := List.mem_of_getElem? hk
  have hreply : route.Reply pid hop.seq hop.packet :=
    taken_timely (view_step pid ttl) (fun _ => rfl) rfl h htimely (hop.seq, hop.packet)
      (List.mem_map.2 ⟨hop, hh, rfl⟩)
  obtain ⟨haddr, hlast⟩ := shown_of_reply (printed_traceroute hrun) hh hreply
  exact ⟨haddr, hlast, fun hfar => last_hop hrun hk (hlast.2 hfar)⟩

/-- **Each line shows the node at the distance of its number**, or the destination when its number is larger,
where nothing comes twice and no timeout runs out for an answer still to come; however many probes and answers
are lost. -/
theorem route_right (h : tracerouteOver route pid ttl packetRecv es = some s)
    (htimely : ∀ pre e u, pre ++ [e] <+: es → tracerouteOver route pid ttl packetRecv pre = some u → Timely u e) :
    (s.program.hops.map Hop.seq).Pairwise (· < ·) ∧
      ∀ k hop, s.program.hops[k]? = some hop →
        route.nodes[min hop.seq route.distance - 1]? = some hop.addr ∧
        (hop.last = true ↔ route.distance ≤ hop.seq) ∧
        (route.distance ≤ hop.seq → k + 1 = s.program.hops.length ∧ s.program.done = true) := by
  refine ⟨?_, fun k hop hk => ?_⟩
  · have honce := taken_increasing (view_traceroute (traceroute_of_over h))
    rw [Tracer.view, List.map_map] at honce
    exact honce
  · obtain ⟨haddr, hlast⟩ := shown_timely h htimely hk
    obtain ⟨n, hpos, hle, -⟩ := shown_hops h hop (List.mem_of_getElem? hk)
    rw [haddr, route.node_min (hpos.trans_le hle)]
    exact ⟨rfl, hlast⟩

/-- The destination's reply to probe 2 of process 7. -/
def secondHop : Packet where
  bytes := [69, 0, 0, 28, 0, 0, 0, 0, 64, 1, 0, 0, 8, 8, 8, 8, 10, 0, 0, 1, 0, 0, 0, 0, 0, 7, 0, 2]
  header_len := by decide
  icmp_len := by decide

/-- The destination's reply to probe 3, one more than its distance. -/
def thirdHop : Packet where
  bytes := [69, 0, 0, 28, 0, 0, 0, 0, 64, 1, 0, 0, 8, 8, 8, 8, 10, 0, 0, 1, 0, 0, 0, 0, 0, 7, 0, 3]
  header_len := by decide
  icmp_len := by decide

/-- The second probe is lost: the lines are 1, the router, and 3, the destination at distance 2. -/
theorem route_right_lost :
    ∃ s, tracerouteOver shortRoute 7 255 (fun _ => 0)
        [.send, .deliver 0 firstHop, .recv, .send, .lose 0, .timeout, .send, .deliver 0 thirdHop, .recv] = some s ∧
      s.program.hops.map Hop.seq = [1, 3] ∧
      (∀ hop, s.program.hops[0]? = some hop → hop.addr = [192, 168, 0, 1]) ∧
      (∀ hop, s.program.hops[1]? = some hop → hop.addr = [8, 8, 8, 8] ∧ s.program.done = true) := by
  have hrun : (tracerouteOver shortRoute 7 255 (fun _ => 0)
      [.send, .deliver 0 firstHop, .recv, .send, .lose 0, .timeout, .send, .deliver 0 thirdHop, .recv]).map
      (fun s => s.program.hops.map Hop.seq) = some [1, 3] := by decide
  have hlost : (tracerouteOver shortRoute 7 255 (fun _ => 0)
      [.send, .deliver 0 firstHop, .recv, .send, .lose 0]).map Net.flight = some [] := by decide
  obtain ⟨s, hs, hseq⟩ := Option.map_eq_some_iff.1 hrun
  obtain ⟨-, hall⟩ := route_right hs (by
    refine steps_cons trivial fun s₁ h₁ => steps_cons trivial fun s₂ h₂ => steps_cons trivial fun s₃ h₃ =>
      steps_cons trivial fun s₄ h₄ => steps_cons trivial fun s₅ h₅ => steps_cons ?_ fun s₆ _ =>
        steps_cons trivial fun s₇ _ => steps_cons trivial fun s₈ _ => steps_cons trivial fun s₉ _ => steps_nil
    rw [tracerouteOver, run_cons, h₁, Option.bind_some, run_cons, h₂, Option.bind_some, run_cons, h₃,
      Option.bind_some, run_cons, h₄, Option.bind_some, run_cons, h₅, Option.bind_some, run_nil] at hlost
    exact Option.some.inj hlost)
  have hnumber : ∀ (k : Nat) (hop : Hop), s.program.hops[k]? = some hop → ([1, 3] : List Nat)[k]? = some hop.seq := by
    intro k hop hk
    rw [← hseq, List.getElem?_map, hk, Option.map_some]
  refine ⟨s, hs, hseq, fun hop hk => ?_, fun hop hk => ?_⟩
  · have hone : 1 = hop.seq := Option.some.inj (hnumber 0 hop hk)
    have haddr := (hall 0 hop hk).1
    rw [← hone] at haddr
    exact (Option.some.inj haddr).symm
  · have hthree : 3 = hop.seq := Option.some.inj (hnumber 1 hop hk)
    obtain ⟨haddr, -, hend⟩ := hall 1 hop hk
    rw [← hthree] at haddr hend
    exact ⟨(Option.some.inj haddr).symm, (hend (by decide)).2⟩

/-- Without timeouts the lines are numbered one by one. -/
theorem seq_of_prompt (h : traceroute pid ttl packetRecv (es.flatMap NetEvent.seen) = some s.program)
    (hprompt : ∀ e ∈ es, e.Prompt) {k : Nat} {hop : Hop} (hk : s.program.hops[k]? = some hop) :
    hop.seq = k + 1 := by
  have htaken : s.program.view.taken[k]? = some (hop.seq, hop.packet) := by
    rw [Tracer.view, List.getElem?_map, hk, Option.map_some]
  obtain ⟨pre, hpre, -, hseq⟩ := (accounted_run (view_traceroute h)).read k _ htaken
  have hnone : timeouts pre = 0 := by
    have hle : timeouts pre ≤ timeouts (es.flatMap NetEvent.seen) :=
      (((List.prefix_append pre _).trans hpre).sublist).countP_le
    rw [timeouts_seen hprompt] at hle
    exact Nat.le_zero.1 hle
  rw [hnone] at hseq
  exact hseq

theorem timely_run (hprompt : ∀ e ∈ es, e.Prompt) : ∀ pre e u, pre ++ [e] <+: es →
    tracerouteOver route pid ttl packetRecv pre = some u → Timely u e := by
  intro pre e u hpre _
  exact timely_of_prompt (hprompt e (hpre.mem (List.mem_append_right pre (List.mem_singleton_self e))))

/-- Without timeouts every probe but the one under way has its line. -/
theorem length_of_prompt (h : traceroute pid ttl packetRecv (es.flatMap NetEvent.seen) = some s.program)
    (hprompt : ∀ e ∈ es, e.Prompt) (hw : s.program.waiting = false) :
    s.program.hops.length = s.program.seq := by
  have hround := (accounted_run (view_traceroute h)).round
  rw [timeouts_seen hprompt, Tracer.view, List.length_map] at hround
  rw [if_neg (by rw [hw]; exact Bool.false_ne_true)] at hround
  exact hround.symm

/-- There the line of the destination is the last one. -/
theorem length_hops_le (h : tracerouteOver route pid ttl packetRecv es = some s) (hprompt : ∀ e ∈ es, e.Prompt) :
    s.program.hops.length ≤ route.distance ∧
      (s.program.hops.length = route.distance → s.program.done = true) := by
  have hend : ∀ hlt : route.routers.length < s.program.hops.length,
      route.distance = s.program.hops.length ∧ s.program.done = true := by
    intro hlt
    have hk := List.getElem?_eq_getElem hlt
    obtain ⟨-, -, hlast⟩ := shown_timely h (timely_run hprompt) hk
    exact hlast (by rw [seq_of_prompt (traceroute_of_over h) hprompt hk]; exact Nat.le_refl _)
  have hdistance : route.distance = route.routers.length + 1 := rfl
  constructor
  · by_contra hlong
    have heq := (hend (by omega)).1
    omega
  · exact fun heq => (hend (by omega)).2

/-- And the addresses are those of the nodes in order. -/
theorem addr_prefix (h : tracerouteOver route pid ttl packetRecv es = some s) (hprompt : ∀ e ∈ es, e.Prompt) :
    s.program.hops.map Hop.addr <+: route.nodes := by
  have hlength := (length_hops_le h hprompt).1
  rw [List.prefix_iff_getElem?]
  intro k hlt
  rw [List.length_map] at hlt
  have hk := List.getElem?_eq_getElem hlt
  rw [List.getElem_map, (shown_timely h (timely_run hprompt) hk).1,
    seq_of_prompt (traceroute_of_over h) hprompt hk, route.node_succ (Nat.le_of_lt_succ (Nat.lt_of_lt_of_le hlt hlength))]

/-- **The route, node by node.**  Without timeouts and copies the lines are numbered from 1 on and show the
nodes of the route in order.  They show all of it just when the destination has ended the trace; else it ends
with a line for each probe below `ttl`, or for each of the 255 that can be. -/
theorem route_listed (h : tracerouteOver route pid ttl packetRecv es = some s) (hprompt : ∀ e ∈ es, e.Prompt) :
    s.program.hops.map Hop.seq = List.range' 1 s.program.hops.length ∧
      s.program.hops.map Hop.addr <+: route.nodes ∧
      (s.program.done = true ↔ s.program.hops.map Hop.addr = route.nodes) ∧
      (s.program.stopped = some .loop → s.program.hops.length = (ttl - 1).toNat) ∧
      (s.program.stopped = some .die → s.program.hops.length = maxTtl) := by
  have hrun := traceroute_of_over h
  have hstopped := stopped_traceroute hrun
  have hprefix := addr_prefix h hprompt
  refine ⟨?_, hprefix, ⟨?_, fun heq => ?_⟩, fun hloop => ?_, fun hdie => ?_⟩
  · apply List.ext_getElem?
    intro k
    rw [List.getElem?_map]
    cases hk : s.program.hops[k]? with
    | none =>
      have hle := List.getElem?_eq_none_iff.1 hk
      rw [Option.map_none, List.getElem?_eq_none (by rwa [List.length_range'])]
    | some hop =>
      obtain ⟨hlt, -⟩ := List.getElem?_eq_some_iff.1 hk
      rw [Option.map_some, seq_of_prompt hrun hprompt hk, List.getElem?_range' hlt]
      congr 1
      omega
  · intro hdone
    obtain ⟨hop, hh, hlast⟩ := (printed_traceroute hrun).ended hdone
    obtain ⟨k, hk⟩ := List.mem_iff_getElem?.1 hh
    have hfar := (shown_timely h (timely_run hprompt) hk).2.1.1 hlast
    have hend := (last_hop hrun hk hlast).1
    rw [seq_of_prompt hrun hprompt hk] at hfar
    refine hprefix.eq_of_length_le ?_
    rw [route.nodes_length, List.length_map]
    omega
  · have hlen := congrArg List.length heq
    rw [List.length_map, route.nodes_length] at hlen
    exact (length_hops_le h hprompt).2 hlen
  · rw [length_of_prompt hrun hprompt (hstopped.loop hloop).1]
    exact seq_of_loop hstopped hloop
  · rw [length_of_prompt hrun hprompt (hstopped.die hdie).1]
    exact (hstopped.die hdie).2.1

end

/-- Both nodes answer in time: the trace ends and shows the whole route.  With `-t 2` it ends behind the router. -/
theorem route_listed_short :
    (∃ s, tracerouteOver shortRoute 7 255 (fun _ => 0)
        [.send, .deliver 0 firstHop, .recv, .send, .deliver 0 secondHop, .recv] = some s ∧
      s.program.hops.map Hop.addr = [[192, 168, 0, 1], [8, 8, 8, 8]]) ∧
    ∃ s, tracerouteOver shortRoute 7 2 (fun _ => 0) [.send, .deliver 0 firstHop, .recv, .send] = some s ∧
      s.program.stopped = some .loop ∧ s.program.hops.length = 1 ∧ s.program.done = false := by
  constructor
  · have hrun : (tracerouteOver shortRoute 7 255 (fun _ => 0)
        [.send, .deliver 0 firstHop, .recv, .send, .deliver 0 secondHop, .recv]).map
        (fun s => s.program.done) = some true := by decide
    obtain ⟨s, hs, hdone⟩ := Option.map_eq_some_iff.1 hrun
    have hprompt : ∀ e ∈ ([.send, .deliver 0 firstHop, .recv, .send, .deliver 0 secondHop, .recv] :
        List (NetEvent Packet)), e.Prompt := by
      simp only [List.forall_mem_cons]
      exact ⟨trivial, trivial, trivial, trivial, trivial, trivial, fun e he => absurd he List.not_mem_nil⟩
    exact ⟨s, hs, (route_listed hs hprompt).2.2.1.1 hdone⟩
  · have hrun : (tracerouteOver shortRoute 7 2 (fun _ => 0) [.send, .deliver 0 firstHop, .recv, .send]).map
        (fun s => (s.program.stopped, s.program.done)) = some (some .loop, false) := by decide
    obtain ⟨s, hs, hends⟩ := Option.map_eq_some_iff.1 hrun
    obtain ⟨hstopped, hdone⟩ := Prod.mk.inj hends
    have hprompt : ∀ e ∈ ([.send, .deliver 0 firstHop, .recv, .send] : List (NetEvent Packet)), e.Prompt := by
      simp only [List.forall_mem_cons]
      exact ⟨trivial, trivial, trivial, trivial, fun e he => absurd he List.not_mem_nil⟩
    exact ⟨s, hs, hstopped, (route_listed hs hprompt).2.2.2.1 hstopped, hdone⟩

end Eltex.Traceroute
