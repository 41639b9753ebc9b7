import Eltex.Lib.Rounds

/-!
# Rounds whose questions go over a network

The question of a round, and after it its answer, is on its way for any time: it may be lost, copied or
overtaken.  Nothing else comes that the client accepts.  Then in every run

    what is taken in round n answers the question of a round up to n                  (taken_caused)
    where nothing is copied, and a timeout means that the question or its answer was lost,
      what is taken in round n answers the question of round n                        (taken_timely)

Both are about programs whose view goes through the rounds.
-/

namespace Rounds

open Runs

inductive NetEvent (P : Type) where
  | send
  /-- the answer to what is on its way at `k` comes to the queue -/
  | deliver (k : Nat) (p : P)
  | lose (k : Nat)
  | copy (k : Nat)
  /-- a packet that is not accepted comes to the queue -/
  | other (p : P)
  | recv
  | timeout

structure Net (σ : Type) where
  program : σ
  /-- the rounds whose questions or answers are on their way -/
  flight : List Nat

variable {P σ : Type}

/-- The round whose question has just been asked. -/
def State.asked (s : State P) : Option Nat := if s.waiting = true then some s.round else none

section
variable (next : σ → Event P → Option σ) (asked : σ → Option Nat) (r : Rules P) (reply : Nat → P → Prop)
  [∀ n p, Decidable (reply n p)]

def netStep (s : Net σ) : NetEvent P → Option (Net σ)
  | .send => (next s.program .send).map fun t => ⟨t, s.flight ++ (asked t).toList⟩
  | .deliver k p =>
    s.flight[k]?.bind fun n =>
      if reply n p then (next s.program (.arrive p)).map fun t => ⟨t, s.flight.eraseIdx k⟩ else none
  | .lose k => if k < s.flight.length then some { s with flight := s.flight.eraseIdx k } else none
  | .copy k => s.flight[k]?.map fun n => { s with flight := s.flight ++ [n] }
  | .other p =>
    if r.accepts p = true then none else (next s.program (.arrive p)).map fun t => { s with program := t }
  | .recv => (next s.program .recv).map fun t => { s with program := t }
  | .timeout => (next s.program .timeout).map fun t => { s with program := t }

end

/-- What the program notices of an event. -/
def NetEvent.seen : NetEvent P → List (Event P)
  | .send => [.send]
  | .deliver _ p => [.arrive p]
  | .lose _ => []
  | .copy _ => []
  | .other p => [.arrive p]
  | .recv => [.recv]
  | .timeout => [.timeout]

/-- Nothing comes twice, and no timeout runs out for what is still to come. -/
def Timely (s : Net σ) : NetEvent P → Prop
  | .timeout => s.flight = []
  | .copy _ => False
  | .send => True
  | .deliver _ _ => True
  | .lose _ => True
  | .other _ => True
  | .recv => True

/-- No timeout and no copy. -/
def NetEvent.Prompt : NetEvent P → Prop
  | .timeout => False
  | .copy _ => False
  | .send => True
  | .deliver _ _ => True
  | .lose _ => True
  | .other _ => True
  | .recv => True

theorem timely_of_prompt {s : Net σ} {e : NetEvent P} (h : e.Prompt) : Timely s e := by
  cases e with
  | timeout => exact absurd h not_false
  | copy k => exact absurd h not_false
  | send => trivial
  | deliver k p => trivial
  | lose k => trivial
  | other p => trivial
  | recv => trivial

theorem timeouts_seen {es : List (NetEvent P)} (h : ∀ e ∈ es, e.Prompt) :
    timeouts (es.flatMap NetEvent.seen) = 0 := by
  rw [timeouts, List.countP_eq_zero]
  intro a ha
  obtain ⟨e, he, hseen⟩ := List.mem_flatMap.1 ha
  have hp := h e he
  cases e with
  | timeout => exact absurd hp not_false
  | copy k => cases hseen
  | lose k => cases hseen
  | send =>
    rw [List.mem_singleton.1 hseen]
    exact Bool.false_ne_true
  | deliver k p =>
    rw [List.mem_singleton.1 hseen]
    exact Bool.false_ne_true
  | other p =>
    rw [List.mem_singleton.1 hseen]
    exact Bool.false_ne_true
  | recv =>
    rw [List.mem_singleton.1 hseen]
    exact Bool.false_ne_true

def Net.view {τ : Type} (view : σ → τ) (s : Net σ) : Net τ := ⟨view s.program, s.flight⟩

section
variable {next : σ → Event P → Option σ} {asked : σ → Option Nat} {r : Rules P} {reply : Nat → P → Prop}
  [∀ n p, Decidable (reply n p)]

/-! ## What a step can do -/

/-- A step taken, with that of the program if it takes part. -/
inductive Stepped (next : σ → Event P → Option σ) (asked : σ → Option Nat) (r : Rules P) (reply : Nat → P → Prop)
    (s : Net σ) : NetEvent P → Net σ → Prop where
  | sent (t : σ) : next s.program .send = some t →
      Stepped next asked r reply s .send ⟨t, s.flight ++ (asked t).toList⟩
  | delivered (k : Nat) (p : P) (n : Nat) (t : σ) : s.flight[k]? = some n → reply n p →
      next s.program (.arrive p) = some t → Stepped next asked r reply s (.deliver k p) ⟨t, s.flight.eraseIdx k⟩
  | lost (k : Nat) : k < s.flight.length →
      Stepped next asked r reply s (.lose k) { s with flight := s.flight.eraseIdx k }
  | copied (k n : Nat) : s.flight[k]? = some n →
      Stepped next asked r reply s (.copy k) { s with flight := s.flight ++ [n] }
  | other (p : P) (t : σ) : r.accepts p = false → next s.program (.arrive p) = some t →
      Stepped next asked r reply s (.other p) { s with program := t }
  | received (t : σ) : next s.program .recv = some t →
      Stepped next asked r reply s .recv { s with program := t }
  | timedOut (t : σ) : next s.program .timeout = some t →
      Stepped next asked r reply s .timeout { s with program := t }

theorem netStep_cases {s s' : Net σ} {e : NetEvent P} (h : netStep next asked r reply s e = some s') :
    Stepped next asked r reply s e s' := by
  cases e with
  | send =>
    obtain ⟨t, ht, rfl⟩ := Option.map_eq_some_iff.1 h
    exact Stepped.sent t ht
  | deliver k p =>
    obtain ⟨n, hn, h⟩ := Option.bind_eq_some_iff.1 h
    split at h
    · next hreply =>
      obtain ⟨t, ht, rfl⟩ := Option.map_eq_some_iff.1 h
      exact Stepped.delivered k p n t hn hreply ht
    · cases h
  | lose k =>
    rw [netStep] at h
    split at h
    · next hk =>
      rw [← Option.some.inj h]
      exact Stepped.lost k hk
    · cases h
  | copy k =>
    obtain ⟨n, hn, rfl⟩ := Option.map_eq_some_iff.1 h
    exact Stepped.copied k n hn
  | other p =>
    rw [netStep] at h
    split at h
    · cases h
    · next hnot =>
      obtain ⟨t, ht, rfl⟩ := Option.map_eq_some_iff.1 h
      exact Stepped.other p t (Bool.eq_false_iff.2 hnot) ht
  | recv =>
    obtain ⟨t, ht, rfl⟩ := Option.map_eq_some_iff.1 h
    exact Stepped.received t ht
  | timeout =>
    obtain ⟨t, ht, rfl⟩ := Option.map_eq_some_iff.1 h
    exact Stepped.timedOut t ht

/-! ## The program by itself -/

/-- What a step does with the program. -/
theorem program_step {s s' : Net σ} {e : NetEvent P} (h : netStep next asked r reply s e = some s') :
    run next s.program e.seen = some s'.program := by
  have hone : ∀ e' t, next s.program e' = some t → run next s.program [e'] = some t := by
    intro e' t ht
    rw [run_cons, ht, Option.bind_some, run_nil]
  cases netStep_cases h with
  | sent t ht => exact hone .send t ht
  | delivered k p n t hn hreply ht => exact hone (.arrive p) t ht
  | lost k hk => exact run_nil next s.program
  | copied k n hn => exact run_nil next s.program
  | other p t hnot ht => exact hone (.arrive p) t ht
  | received t ht => exact hone .recv t ht
  | timedOut t ht => exact hone .timeout t ht

/-- A run over the network is a run of the program. -/
theorem program_run {s₀ : σ} {es : List (NetEvent P)} {s : Net σ}
    (h : run (netStep next asked r reply) ⟨s₀, []⟩ es = some s) :
    run next s₀ (es.flatMap NetEvent.seen) = some s.program := by
  refine run_inv (fun es s => run next s₀ (es.flatMap NetEvent.seen) = some s.program) rfl
    (fun es s e s' hi he => ?_) h
  rw [List.flatMap_append, List.flatMap_singleton, run_append, hi]
  exact program_step he

/-- Over the network, too, the view goes through the rounds. -/
theorem netStep_view {view : σ → State P} (hview : ∀ t e, (next t e).map view = step r (view t) e)
    (hasked : ∀ t, (view t).asked = asked t) (s : Net σ) (e : NetEvent P) :
    (netStep next asked r reply s e).map (Net.view view) =
      netStep (step r) State.asked r reply (s.view view) e := by
  cases e with
  | send =>
    show ((next s.program .send).map _).map _ = (step r (view s.program) .send).map _
    rw [← hview, Option.map_map, Option.map_map]
    congr 1
    funext t
    simp only [Function.comp_apply, Net.view, hasked]
  | deliver k p =>
    show (s.flight[k]?.bind _).map _ = s.flight[k]?.bind _
    rw [Option.map_bind]
    congr 1
    funext n
    by_cases hr : reply n p
    · simp only [Function.comp_apply, if_pos hr]
      show _ = (step r (view s.program) (.arrive p)).map _
      rw [← hview, Option.map_map, Option.map_map]
      rfl
    · simp only [Function.comp_apply, if_neg hr, Option.map_none]
  | lose k =>
    by_cases hk : k < s.flight.length
    · rw [netStep, netStep, if_pos hk, if_pos (show k < (s.view view).flight.length from hk)]
      rfl
    · rw [netStep, netStep, if_neg hk, if_neg (show ¬ k < (s.view view).flight.length from hk)]
      rfl
  | copy k =>
    show (s.flight[k]?.map _).map _ = s.flight[k]?.map _
    rw [Option.map_map]
    rfl
  | other p =>
    by_cases ha : r.accepts p = true
    · rw [netStep, netStep, if_pos ha, if_pos ha]
      rfl
    · rw [netStep, netStep, if_neg ha, if_neg ha]
      show _ = (step r (view s.program) (.arrive p)).map _
      rw [← hview, Option.map_map, Option.map_map]
      rfl
  | recv =>
    show ((next s.program .recv).map _).map _ = (step r (view s.program) .recv).map _
    rw [← hview, Option.map_map, Option.map_map]
    rfl
  | timeout =>
    show ((next s.program .timeout).map _).map _ = (step r (view s.program) .timeout).map _
    rw [← hview, Option.map_map, Option.map_map]
    rfl

theorem view_run {view : σ → State P} (hview : ∀ t e, (next t e).map view = step r (view t) e)
    (hasked : ∀ t, (view t).asked = asked t) {s₀ : σ} (h₀ : view s₀ = start) {es : List (NetEvent P)} {s : Net σ}
    (h : run (netStep next asked r reply) ⟨s₀, []⟩ es = some s) :
    run (netStep (step r) State.asked r reply) ⟨start, []⟩ es = some (s.view view) := by
  have hrun := run_view (netStep_view hview hasked) h
  rw [Net.view, h₀] at hrun
  exact hrun

end

/-- Nothing is on its way from a client that stops. -/
theorem flight_over {s : State P} {flight : List Nat} (hw : s.waiting = false) :
    flight ++ (State.asked { s with spent := true }).toList = flight := by
  rw [State.asked, if_neg (by rw [hw]; exact Bool.false_ne_true), Option.toList_none, List.append_nil]

/-! ## No answer before its question -/

section
variable {r : Rules P} {reply : Nat → P → Prop} [∀ n p, Decidable (reply n p)] {s s' : Net (State P)}
  {e : NetEvent P}

/-- The question that a packet answers has been asked. -/
structure Caused (reply : Nat → P → Prop) (r : Rules P) (s : Net (State P)) : Prop where
  flight : ∀ n ∈ s.flight, 0 < n ∧ n ≤ s.program.round
  queue : ∀ p ∈ s.program.queue, r.accepts p = true → ∃ n, 0 < n ∧ n ≤ s.program.round ∧ reply n p
  taken : ∀ x ∈ s.program.taken, ∃ n, 0 < n ∧ n ≤ x.1 ∧ reply n x.2

/-- **Step.** -/
theorem caused_step (hc : Caused reply r s) (h : netStep (step r) State.asked r reply s e = some s') :
    Caused reply r s' := by
  obtain ⟨hflight, hqueue, htaken⟩ := hc
  cases netStep_cases h with
  | sent t ht =>
    obtain ⟨hw, -, hsent⟩ := step_send ht
    cases hsent with
    | asked hallowed he =>
      subst he
      refine ⟨fun n hn => ?_, fun p hp ha => ?_, htaken⟩
      · rcases List.mem_append.1 hn with hn | hn
        · exact ⟨(hflight n hn).1, Nat.le_succ_of_le (hflight n hn).2⟩
        · obtain rfl := List.mem_singleton.1 hn
          exact ⟨Nat.succ_pos _, Nat.le_refl _⟩
      · obtain ⟨n, hpos, hle, hreply⟩ := hqueue p hp ha
        exact ⟨n, hpos, Nat.le_succ_of_le hle, hreply⟩
    | spent hallowed he =>
      subst he
      refine ⟨fun n hn => hflight n ?_, hqueue, htaken⟩
      rwa [flight_over hw] at hn
  | delivered k p n t hn hreply ht =>
    obtain rfl : { s.program with queue := s.program.queue ++ [p] } = t := Option.some.inj ht
    refine ⟨fun m hm => hflight m (List.mem_of_mem_eraseIdx hm), fun q hq ha => ?_, htaken⟩
    rcases List.mem_append.1 hq with hq | hq
    · exact hqueue q hq ha
    · obtain rfl := List.mem_singleton.1 hq
      obtain ⟨hpos, hle⟩ := hflight n (List.mem_of_getElem? hn)
      exact ⟨n, hpos, hle, hreply⟩
  | lost k hk => exact ⟨fun n hn => hflight n (List.mem_of_mem_eraseIdx hn), hqueue, htaken⟩
  | copied k n hn =>
    refine ⟨fun m hm => ?_, hqueue, htaken⟩
    rcases List.mem_append.1 hm with hm | hm
    · exact hflight m hm
    · obtain rfl := List.mem_singleton.1 hm
      exact hflight m (List.mem_of_getElem? hn)
  | other p t hnot ht =>
    obtain rfl : { s.program with queue := s.program.queue ++ [p] } = t := Option.some.inj ht
    refine ⟨hflight, fun q hq ha => ?_, htaken⟩
    rcases List.mem_append.1 hq with hq | hq
    · exact hqueue q hq ha
    · rw [List.mem_singleton.1 hq, hnot] at ha
      cases ha
  | received t ht =>
    obtain ⟨-, hrecv⟩ := step_recv ht
    cases hrecv with
    | taken p queue hq ha he =>
      subst he
      refine ⟨hflight, fun q hmem => hqueue q ?_, fun x hx => ?_⟩
      · rw [hq]
        exact List.mem_cons_of_mem p hmem
      · rcases List.mem_append.1 hx with hx | hx
        · exact htaken x hx
        · obtain rfl := List.mem_singleton.1 hx
          refine hqueue p ?_ ha
          rw [hq]
          exact List.mem_cons_self
    | dropped p queue hq ha he =>
      subst he
      refine ⟨hflight, fun q hmem => hqueue q ?_, htaken⟩
      rw [hq]
      exact List.mem_cons_of_mem p hmem
  | timedOut t ht =>
    obtain ⟨-, -, rfl⟩ := step_timeout ht
    exact ⟨hflight, hqueue, htaken⟩

end

/-! ## Nothing late, nothing twice -/

section
variable {r : Rules P} {reply : Nat → P → Prop} {s : Net (State P)}

/-- What is still to come of the round under way: its question or answer, or the answer in the queue, or
nothing. -/
inductive Pending (reply : Nat → P → Prop) (r : Rules P) (s : Net (State P)) : Prop where
  | nothing (flight : s.flight = []) (queue : s.program.queue.filter r.accepts = [])
  | away (waiting : s.program.waiting = true) (flight : s.flight = [s.program.round])
      (queue : s.program.queue.filter r.accepts = [])
  | here (waiting : s.program.waiting = true) (flight : s.flight = []) (p : P)
      (queue : s.program.queue.filter r.accepts = [p]) (answer : reply s.program.round p)

structure InStep (reply : Nat → P → Prop) (r : Rules P) (s : Net (State P)) : Prop where
  pending : Pending reply r s
  taken : ∀ x ∈ s.program.taken, reply x.1 x.2

/-- While nothing is awaited nothing is to come. -/
theorem Pending.idle (hp : Pending reply r s) (hw : s.program.waiting = false) :
    s.flight = [] ∧ s.program.queue.filter r.accepts = [] := by
  cases hp with
  | nothing flight queue => exact ⟨flight, queue⟩
  | away waiting flight queue =>
    rw [hw] at waiting
    cases waiting
  | here waiting flight p queue answer =>
    rw [hw] at waiting
    cases waiting

/-- What is on its way is the round under way, and nothing is in the queue then. -/
theorem Pending.flying (hp : Pending reply r s) {k n : Nat} (hn : s.flight[k]? = some n) :
    s.program.waiting = true ∧ n = s.program.round ∧ s.flight.eraseIdx k = [] ∧
      s.program.queue.filter r.accepts = [] := by
  cases hp with
  | nothing flight queue =>
    rw [flight] at hn
    cases hn
  | away waiting flight queue =>
    rw [flight] at hn ⊢
    cases k with
    | zero => exact ⟨waiting, (Option.some.inj hn).symm, rfl, queue⟩
    | succ k => cases hn
  | here waiting flight p queue answer =>
    rw [flight] at hn
    cases hn

/-- An acceptable packet in the queue is the answer awaited. -/
theorem Pending.answered (hp : Pending reply r s) {p : P} {queue : List P} (hq : s.program.queue = p :: queue)
    (ha : r.accepts p = true) :
    s.flight = [] ∧ reply s.program.round p ∧ queue.filter r.accepts = [] := by
  have hcons : s.program.queue.filter r.accepts = p :: queue.filter r.accepts := by
    rw [hq, List.filter_cons_of_pos ha]
  cases hp with
  | nothing flight hnone =>
    rw [hcons] at hnone
    cases hnone
  | away waiting flight hnone =>
    rw [hcons] at hnone
    cases hnone
  | here waiting flight q hone answer =>
    rw [hcons] at hone
    obtain ⟨rfl, htail⟩ := List.cons.inj hone
    exact ⟨flight, answer, htail⟩

/-- What the queue does not get, or loses unread, changes nothing. -/
theorem Pending.of_filter {queue : List P} (hp : Pending reply r s)
    (hqueue : queue.filter r.accepts = s.program.queue.filter r.accepts) :
    Pending reply r { s with program := { s.program with queue := queue } } := by
  cases hp with
  | nothing flight hnone => exact Pending.nothing flight (hqueue.trans hnone)
  | away waiting flight hnone => exact Pending.away waiting flight (hqueue.trans hnone)
  | here waiting flight q hone answer => exact Pending.here waiting flight q (hqueue.trans hone) answer

end

section
variable {r : Rules P} {reply : Nat → P → Prop} [∀ n p, Decidable (reply n p)] {s s' : Net (State P)}
  {e : NetEvent P}

theorem filter_arrived (queue : List P) (p : P) : (queue ++ [p]).filter r.accepts =
    queue.filter r.accepts ++ if r.accepts p = true then [p] else [] := by
  rw [List.filter_append, List.filter_cons, List.filter_nil]

/-- **Step.** -/
theorem inStep_step (hi : InStep reply r s) (ht : Timely s e)
    (h : netStep (step r) State.asked r reply s e = some s') : InStep reply r s' := by
  obtain ⟨hpending, htaken⟩ := hi
  cases netStep_cases h with
  | sent t hsend =>
    obtain ⟨hw, -, hsent⟩ := step_send hsend
    obtain ⟨hflight, hqueue⟩ := hpending.idle hw
    cases hsent with
    | asked hallowed he =>
      subst he
      refine ⟨Pending.away rfl ?_ hqueue, htaken⟩
      show s.flight ++ [s.program.round + 1] = [s.program.round + 1]
      rw [hflight, List.nil_append]
    | spent hallowed he =>
      subst he
      refine ⟨Pending.nothing ?_ hqueue, htaken⟩
      exact (flight_over hw).trans hflight
  | delivered k p n t hn hreply harrive =>
    obtain rfl : { s.program with queue := s.program.queue ++ [p] } = t := Option.some.inj harrive
    obtain ⟨hw, rfl, hflight, hqueue⟩ := hpending.flying hn
    refine ⟨?_, htaken⟩
    cases ha : r.accepts p with
    | true =>
      refine Pending.here hw hflight p ?_ hreply
      rw [filter_arrived, hqueue, ha, if_pos rfl, List.nil_append]
    | false =>
      refine Pending.nothing hflight ?_
      rw [filter_arrived, hqueue, ha, if_neg Bool.false_ne_true, List.nil_append]
  | lost k hk =>
    obtain ⟨-, -, hflight, hqueue⟩ := hpending.flying (List.getElem?_eq_getElem hk)
    exact ⟨Pending.nothing hflight hqueue, htaken⟩
  | copied k n hn => exact absurd ht not_false
  | other p t hnot harrive =>
    obtain rfl : { s.program with queue := s.program.queue ++ [p] } = t := Option.some.inj harrive
    refine ⟨hpending.of_filter ?_, htaken⟩
    rw [filter_arrived, hnot, if_neg Bool.false_ne_true, List.append_nil]
  | received t hread =>
    obtain ⟨hw, hrecv⟩ := step_recv hread
    cases hrecv with
    | taken p queue hq ha he =>
      subst he
      obtain ⟨hflight, hanswer, hqueue⟩ := hpending.answered hq ha
      refine ⟨Pending.nothing hflight hqueue, fun x hx => ?_⟩
      rcases List.mem_append.1 hx with hx | hx
      · exact htaken x hx
      · obtain rfl := List.mem_singleton.1 hx
        exact hanswer
    | dropped p queue hq ha he =>
      subst he
      refine ⟨hpending.of_filter ?_, htaken⟩
      rw [hq, List.filter_cons_of_neg (by simp [ha])]
  | timedOut t hout =>
    obtain ⟨-, hempty, rfl⟩ := step_timeout hout
    refine ⟨Pending.nothing ht ?_, htaken⟩
    show s.program.queue.filter r.accepts = []
    rw [hempty, List.filter_nil]

end

/-! ## Programs over the network -/

section
variable {next : σ → Event P → Option σ} {asked : σ → Option Nat} {r : Rules P} {reply : Nat → P → Prop}
  [∀ n p, Decidable (reply n p)] {view : σ → State P} {s₀ : σ} {es : List (NetEvent P)} {s : Net σ}

/-- **No answer before its question.** -/
theorem taken_caused (hview : ∀ t e, (next t e).map view = step r (view t) e)
    (hasked : ∀ t, (view t).asked = asked t) (h₀ : view s₀ = start)
    (h : run (netStep next asked r reply) ⟨s₀, []⟩ es = some s) :
    ∀ x ∈ (view s.program).taken, ∃ n, 0 < n ∧ n ≤ x.1 ∧ reply n x.2 := by
  have hcaused : Caused reply r (s.view view) := by
    refine run_inv (fun _ s => Caused reply r s) ⟨?_, ?_, ?_⟩ (fun _ _ _ _ hc he => caused_step hc he)
      (view_run hview hasked h₀ h)
    · intro n hn
      cases hn
    · intro p hp
      cases hp
    · intro x hx
      cases hx
  exact hcaused.taken

/-- **Every answer in its round**, where nothing is late and nothing comes twice. -/
theorem taken_timely (hview : ∀ t e, (next t e).map view = step r (view t) e)
    (hasked : ∀ t, (view t).asked = asked t) (h₀ : view s₀ = start)
    (h : run (netStep next asked r reply) ⟨s₀, []⟩ es = some s)
    (htimely : ∀ pre e u, pre ++ [e] <+: es → run (netStep next asked r reply) ⟨s₀, []⟩ pre = some u → Timely u e) :
    ∀ x ∈ (view s.program).taken, reply x.1 x.2 := by
  have hboth : InStep reply r (s.view view) := by
    refine run_forall (fun _ s => InStep reply r (s.view view)) Timely ?_ (fun pre e s s' _ hi ht he => ?_)
      htimely h
    · rw [Net.view, h₀]
      exact ⟨Pending.nothing rfl rfl, fun x hx => by cases hx⟩
    · have hstep : (netStep next asked r reply s e).map (Net.view view) =
          netStep (step r) State.asked r reply (s.view view) e := netStep_view hview hasked s e
      rw [he, Option.map_some] at hstep
      refine inStep_step hi ?_ hstep.symm
      cases e with
      | timeout => exact ht
      | copy k => exact ht
      | send => trivial
      | deliver k p => trivial
      | lose k => trivial
      | other p => trivial
      | recv => trivial
  exact hboth.taken

end

end Rounds
