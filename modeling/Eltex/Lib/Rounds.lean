import Eltex.Lib.Run

/-!
# Rounds of one question each over a shared queue

A client asks in rounds and then waits on a queue to which anyone adds packets at any time.  It takes
packets off the queue, drops those it does not accept, and ends the round with the first it accepts
or, the queue being empty, with a timeout.  What is left in the queue is there in the next round.
Where the next round is one too many the client stops instead of asking (`spent`).

Whether the packets taken answer the questions of their rounds is a matter of what lies in the
queue when a question is asked and what comes in while nothing acceptable is there (`OnTime`):

    all packets taken, now and while the client goes on receiving, answer their rounds
      ↔ every question and every arrival of the run was on time              (right_iff_onTime)

No round takes two packets (`taken_increasing`), and the one that ends everything is the last
(`ended_run`).  A program that goes through such rounds inherits
both through its view (`right_iff_onTime_of_view`).

Which round a packet goes to is settled by the timeouts alone: the acceptable packets are taken in the
order they come in, and the one at index `k` goes to the round `k + 1` and as many further as timeouts
came before it was read (`accounted_run`, `taken_at_of_view`).
-/

namespace Rounds

open Runs

inductive Event (P : Type) where
  | send
  | arrive (p : P)
  | recv
  | timeout

/-- Which packets are accepted, which of these end everything, and how many rounds there may be. -/
structure Rules (P : Type) where
  accepts : P → Bool
  ends : P → Bool
  allowed : Nat → Bool

structure State (P : Type) where
  round : Nat
  waiting : Bool
  done : Bool
  /-- no further round was allowed -/
  spent : Bool
  queue : List P
  /-- the packets accepted, with their rounds -/
  taken : List (Nat × P)

variable {P : Type}

def start : State P := ⟨0, false, false, false, [], []⟩

variable (r : Rules P)

def step (s : State P) : Event P → Option (State P)
  | .send =>
    if s.waiting = false ∧ s.done = false ∧ s.spent = false then
      if r.allowed (s.round + 1) = true then some { s with round := s.round + 1, waiting := true }
      else some { s with spent := true }
    else none
  | .arrive p => some { s with queue := s.queue ++ [p] }
  | .recv =>
    if s.waiting = true then
      match s.queue with
      | [] => none
      | p :: queue =>
        if r.accepts p = true then
          some { s with
            waiting := false, done := s.done || r.ends p, queue := queue, taken := s.taken ++ [(s.round, p)] }
        else some { s with queue := queue }
    else none
  | .timeout => if s.waiting = true ∧ s.queue = [] then some { s with waiting := false } else none

/-- The packet in the queue that is taken next. -/
def State.next (s : State P) : Option P := s.queue.find? r.accepts

/-! ## What a step can do -/

/-- The next round, or the end. -/
inductive Sent (s s' : State P) : Prop where
  | asked : r.allowed (s.round + 1) = true → s' = { s with round := s.round + 1, waiting := true } → Sent s s'
  | spent : r.allowed (s.round + 1) = false → s' = { s with spent := true } → Sent s s'

/-- A packet taken off the queue. -/
inductive Received (s s' : State P) : Prop where
  | taken (p : P) (queue : List P) : s.queue = p :: queue → r.accepts p = true →
      s' = { s with
        waiting := false, done := s.done || r.ends p, queue := queue, taken := s.taken ++ [(s.round, p)] } →
      Received s s'
  | dropped (p : P) (queue : List P) : s.queue = p :: queue → r.accepts p = false →
      s' = { s with queue := queue } → Received s s'

section
variable {r} {s s' : State P}

theorem step_send (h : step r s .send = some s') : s.waiting = false ∧ s.done = false ∧ Sent r s s' := by
  rw [step] at h
  split at h
  · next hc =>
    refine ⟨hc.1, hc.2.1, ?_⟩
    split at h
    · next ha => exact Sent.asked ha (Option.some.inj h).symm
    · next ha => exact Sent.spent (by simpa using ha) (Option.some.inj h).symm
  · cases h

theorem step_recv (h : step r s .recv = some s') : s.waiting = true ∧ Received r s s' := by
  rw [step] at h
  split at h
  · next hw =>
    refine ⟨hw, ?_⟩
    cases hq : s.queue with
    | nil =>
      simp only [hq] at h
      cases h
    | cons p queue =>
      simp only [hq] at h
      split at h
      · next ha => exact Received.taken p queue hq ha (Option.some.inj h).symm
      · next ha => exact Received.dropped p queue hq (by simpa using ha) (Option.some.inj h).symm
  · cases h

theorem step_timeout (h : step r s .timeout = some s') :
    s.waiting = true ∧ s.queue = [] ∧ s' = { s with waiting := false } := by
  rw [step] at h
  split at h
  · next hc => exact ⟨hc.1, hc.2, (Option.some.inj h).symm⟩
  · cases h

end

/-! ## On time -/

variable (answers : Nat → P → Prop)

/-- Every packet taken answers the question of its round. -/
def Right (s : State P) : Prop := ∀ x ∈ s.taken, answers x.1 x.2

/-- So does the one that the round under way is going to take. -/
def Due (s : State P) : Prop := s.waiting = true → ∀ p, s.next r = some p → answers s.round p

/-- A question is asked when what is left in the queue will not be mistaken for its answer, and an
arrival is not mistaken for the answer awaited. -/
def OnTime (s : State P) : Event P → Prop
  | .send => r.allowed (s.round + 1) = true → ∀ p, s.next r = some p → answers (s.round + 1) p
  | .arrive p => s.waiting = true → s.next r = none → r.accepts p = true → answers s.round p
  | .recv => True
  | .timeout => True

section
variable {r answers} {s s' : State P}

theorem next_arrive (s : State P) (p : P) : ({ s with queue := s.queue ++ [p] } : State P).next r =
    (s.next r).or (if r.accepts p = true then some p else none) := by
  show (s.queue ++ [p]).find? r.accepts = _
  rw [List.find?_append]
  congr 1
  rw [List.find?_cons, List.find?_nil]
  cases r.accepts p <;> rfl

theorem right_of_taken {p : P} (h : s'.taken = s.taken ++ [(s.round, p)]) :
    Right answers s' ↔ Right answers s ∧ answers s.round p := by
  simp only [Right, h, List.mem_append, List.mem_singleton]
  constructor
  · intro hall
    exact ⟨fun x hx => hall x (Or.inl hx), hall (s.round, p) (Or.inr rfl)⟩
  · rintro ⟨hall, hp⟩ x (hx | rfl)
    · exact hall x hx
    · exact hp

/-- An arrival is due only when nothing before it is. -/
theorem due_arrive_iff (s : State P) (p : P) :
    Due r answers { s with queue := s.queue ++ [p] } ↔ Due r answers s ∧ OnTime r answers s (.arrive p) := by
  constructor
  · intro hd
    refine ⟨fun hw q hq => hd hw q ?_, fun hw hnone ha => hd hw p ?_⟩
    · rw [next_arrive, hq, Option.some_or]
    · rw [next_arrive, hnone, Option.none_or, if_pos ha]
  · rintro ⟨hd, ho⟩ hw q hq
    rw [next_arrive] at hq
    cases hn : s.next r with
    | some q' =>
      rw [hn, Option.some_or] at hq
      exact hd hw q (hn.trans hq)
    | none =>
      rw [hn, Option.none_or] at hq
      split at hq
      · next ha =>
        rw [← Option.some.inj hq]
        exact ho hw hn ha
      · cases hq

/-- Reading takes what was due, and nothing else. -/
theorem received_right_iff (hw : s.waiting = true) (h : Received r s s') :
    Right answers s' ∧ Due r answers s' ↔ Right answers s ∧ Due r answers s := by
  cases h with
  | taken p queue hq ha he =>
    subst he
    have hnext : s.next r = some p := by
      rw [State.next, hq, List.find?_cons_of_pos ha]
    rw [right_of_taken rfl]
    constructor
    · rintro ⟨⟨hr, hp⟩, -⟩
      refine ⟨hr, fun _ q hq' => ?_⟩
      rw [hnext] at hq'
      rw [← Option.some.inj hq']
      exact hp
    · rintro ⟨hr, hd⟩
      refine ⟨⟨hr, hd hw p hnext⟩, fun hw' => ?_⟩
      cases hw'
  | dropped p queue hq ha he =>
    subst he
    have hnext : ({ s with queue := queue } : State P).next r = s.next r := by
      rw [State.next, State.next, hq, List.find?_cons_of_neg (by simp [ha])]
    unfold Due
    rw [hnext]
    rfl

/-- **Step.**  What was taken and what is due stay right through a step just when the step is on
time, and were right before. -/
theorem step_right_iff {e : Event P} (h : step r s e = some s') :
    Right answers s' ∧ Due r answers s' ↔ (Right answers s ∧ Due r answers s) ∧ OnTime r answers s e := by
  cases e with
  | send =>
    obtain ⟨hw, -, hsent⟩ := step_send h
    have hidle : ∀ t : State P, t.waiting = s.waiting → Due r answers t := by
      intro t ht hw'
      rw [ht, hw] at hw'
      cases hw'
    cases hsent with
    | asked ha he =>
      subst he
      constructor
      · rintro ⟨hr, hd⟩
        exact ⟨⟨hr, hidle s rfl⟩, fun _ p hp => hd rfl p hp⟩
      · rintro ⟨⟨hr, -⟩, ho⟩
        exact ⟨hr, fun _ p hp => ho ha p hp⟩
    | spent ha he =>
      subst he
      have hon : OnTime r answers s .send := fun hallowed => by
        rw [ha] at hallowed
        cases hallowed
      constructor
      · rintro ⟨hr, -⟩
        exact ⟨⟨hr, hidle s rfl⟩, hon⟩
      · rintro ⟨⟨hr, -⟩, -⟩
        exact ⟨hr, hidle _ rfl⟩
  | arrive p =>
    obtain rfl : { s with queue := s.queue ++ [p] } = s' := Option.some.inj h
    rw [due_arrive_iff, ← and_assoc]
    rfl
  | recv =>
    obtain ⟨hw, hrecv⟩ := step_recv h
    rw [received_right_iff hw hrecv]
    exact (and_iff_left trivial).symm
  | timeout =>
    obtain ⟨-, hq, rfl⟩ := step_timeout h
    constructor
    · rintro ⟨hr, -⟩
      refine ⟨⟨hr, fun _ p hp => ?_⟩, trivial⟩
      rw [State.next, hq] at hp
      cases hp
    · rintro ⟨⟨hr, -⟩, -⟩
      refine ⟨hr, fun hw => ?_⟩
      cases hw

/-- **Run.**  What was taken and what is due are right just when every event came on time. -/
theorem run_right_iff {es : List (Event P)} (h : run (step r) start es = some s) :
    Right answers s ∧ Due r answers s ↔
      ∀ pre e u, pre ++ [e] <+: es → run (step r) start pre = some u → OnTime r answers u e := by
  have hstart : Right answers start ∧ Due r answers start := by
    refine ⟨fun x hx => ?_, fun hw => ?_⟩
    · cases hx
    · cases hw
  exact run_iff (I := fun s => Right answers s ∧ Due r answers s) hstart
    (fun _ _ _ he => step_right_iff he) h

/-- Receiving goes on until what is due has been taken. -/
theorem exists_taken {p : P} (hw : s.waiting = true) (hn : s.next r = some p) :
    ∃ k s', run (step r) s (List.replicate k .recv) = some s' ∧ (s.round, p) ∈ s'.taken := by
  obtain ⟨round, waiting, done, spent, queue, taken⟩ := s
  obtain rfl : waiting = true := hw
  induction queue with
  | nil => cases hn
  | cons q queue ih =>
    cases ha : r.accepts q with
    | true =>
      have hq : q = p := by
        rw [State.next, List.find?_cons_of_pos ha] at hn
        exact Option.some.inj hn
      subst hq
      refine ⟨1, ⟨round, false, done || r.ends q, spent, queue, taken ++ [(round, q)]⟩, ?_, by simp⟩
      simp [run_cons, step, ha]
    | false =>
      have hn' : (⟨round, true, done, spent, queue, taken⟩ : State P).next r = some p := by
        rw [State.next, List.find?_cons_of_neg (by simp [ha])] at hn
        exact hn
      obtain ⟨k, s', hs', hmem⟩ := ih hn'
      refine ⟨k + 1, s', ?_, hmem⟩
      rw [List.replicate_succ, run_cons]
      simpa [step, ha] using hs'

theorem right_recvs {k : Nat} (h : Right answers s ∧ Due r answers s)
    (hrun : run (step r) s (List.replicate k .recv) = some s') : Right answers s' ∧ Due r answers s' := by
  induction k generalizing s with
  | zero =>
    obtain rfl : s = s' := Option.some.inj hrun
    exact h
  | succ k ih =>
    rw [List.replicate_succ, run_cons] at hrun
    obtain ⟨u, hu, hrun⟩ := Option.bind_eq_some_iff.1 hrun
    exact ih ((step_right_iff hu).2 ⟨h, trivial⟩) hrun

/-- **Exact condition.**  All that is taken in the run and while the client goes on receiving answers
its round just when the questions and arrivals of the run were on time. -/
theorem right_iff_onTime {es : List (Event P)} (h : run (step r) start es = some s) :
    (∀ k s', run (step r) s (List.replicate k .recv) = some s' → Right answers s') ↔
      ∀ pre e u, pre ++ [e] <+: es → run (step r) start pre = some u → OnTime r answers u e := by
  rw [← run_right_iff h]
  constructor
  · intro hall
    refine ⟨hall 0 s rfl, fun hw p hp => ?_⟩
    obtain ⟨k, s', hs', hmem⟩ := exists_taken hw hp
    exact hall k s' hs' _ hmem
  · intro hgood k s' hs'
    exact (right_recvs hgood hs').1

/-- **Exact condition, of a program.**  The same for a program whose view goes through the rounds. -/
theorem right_iff_onTime_of_view {σ : Type} {step' : σ → Event P → Option σ} {view : σ → State P} {s₀ t : σ}
    (hview : ∀ t e, (step' t e).map view = step r (view t) e) (h₀ : view s₀ = start) {es : List (Event P)}
    (h : run step' s₀ es = some t) :
    (∀ k t', run step' s₀ (es ++ List.replicate k .recv) = some t' → Right answers (view t')) ↔
      ∀ pre e u, pre ++ [e] <+: es → run step' s₀ pre = some u → OnTime r answers (view u) e := by
  have hruns : ∀ es', (run step' s₀ es').map view = run (step r) start es' := by
    intro es'
    rw [← h₀]
    exact run_map hview s₀ es'
  have ht : run (step r) start es = some (view t) := by
    rw [← h₀]
    exact run_view hview h
  have hmore : ∀ k, (run step' s₀ (es ++ List.replicate k .recv)).map view =
      run (step r) (view t) (List.replicate k .recv) := by
    intro k
    rw [hruns, run_append, ht, Option.bind_some]
  have hrounds := @right_iff_onTime P r answers (view t) es ht
  constructor
  · intro hall pre e u hpre hu
    refine hrounds.1 (fun k t' ht' => ?_) pre e (view u) hpre (by rw [← hruns, hu, Option.map_some])
    rw [← hmore, Option.map_eq_some_iff] at ht'
    obtain ⟨u', hu', rfl⟩ := ht'
    exact hall k u' hu'
  · intro htime k t' ht'
    refine hrounds.2 (fun pre e u hpre hu => ?_) k (view t') (by rw [← hmore, ht', Option.map_some])
    rw [← hruns, Option.map_eq_some_iff] at hu
    obtain ⟨u', hu', rfl⟩ := hu
    exact htime pre e u' hpre hu'

/-! ## No round takes two packets -/

/-- The rounds of the packets taken, up to the one under way. -/
structure Increasing (s : State P) : Prop where
  pairwise : (s.taken.map Prod.fst).Pairwise (· < ·)
  le : ∀ x ∈ s.taken, x.1 ≤ s.round
  lt : s.waiting = true → ∀ x ∈ s.taken, x.1 < s.round

theorem step_increasing {e : Event P} (hi : Increasing s) (h : step r s e = some s') : Increasing s' := by
  obtain ⟨hp, hle, hlt⟩ := hi
  cases e with
  | send =>
    obtain ⟨-, -, hsent⟩ := step_send h
    cases hsent with
    | asked ha he =>
      subst he
      exact ⟨hp, fun x hx => Nat.le_succ_of_le (hle x hx), fun _ x hx => Nat.lt_succ_of_le (hle x hx)⟩
    | spent ha he =>
      subst he
      exact ⟨hp, hle, hlt⟩
  | arrive p =>
    obtain rfl : { s with queue := s.queue ++ [p] } = s' := Option.some.inj h
    exact ⟨hp, hle, hlt⟩
  | recv =>
    obtain ⟨hw, hrecv⟩ := step_recv h
    cases hrecv with
    | taken p queue hq ha he =>
      subst he
      refine ⟨?_, ?_, ?_⟩
      · show ((s.taken ++ [(s.round, p)]).map Prod.fst).Pairwise (· < ·)
        rw [List.map_append, List.pairwise_append]
        refine ⟨hp, List.pairwise_singleton _ _, ?_⟩
        intro n hn m hm
        obtain ⟨x, hx, rfl⟩ := List.mem_map.1 hn
        obtain rfl : m = s.round := by simpa using hm
        exact hlt hw x hx
      · intro x hx
        rcases List.mem_append.1 hx with hx | hx
        · exact hle x hx
        · obtain rfl := List.mem_singleton.1 hx
          exact Nat.le_refl s.round
      · intro hw'
        cases hw'
    | dropped p queue hq ha he =>
      subst he
      exact ⟨hp, hle, hlt⟩
  | timeout =>
    obtain ⟨-, -, rfl⟩ := step_timeout h
    refine ⟨hp, hle, fun hw => ?_⟩
    cases hw

theorem taken_increasing {es : List (Event P)} (h : run (step r) start es = some s) :
    (s.taken.map Prod.fst).Pairwise (· < ·) := by
  have hi : Increasing s := by
    refine run_inv (fun _ s => Increasing s) ?_ (fun _ _ _ _ hi he => step_increasing hi he) h
    refine ⟨List.Pairwise.nil, ?_, ?_⟩
    · intro x hx
      cases hx
    · intro hw
      cases hw
  exact hi.pairwise

end

/-! ## Nothing after the end -/

/-- The packet that ends everything is the last one taken. -/
structure Ended (s : State P) : Prop where
  waiting : s.done = true → s.waiting = false
  done : s.done = true ↔ ∃ x ∈ s.taken, r.ends x.2 = true
  last : ∀ (k : Nat) (x : Nat × P), s.taken[k]? = some x → r.ends x.2 = true → k + 1 = s.taken.length

section
variable {r} {s s' : State P}

/-- **Step.** -/
theorem ended_step {e : Event P} (hi : Ended r s) (h : step r s e = some s') : Ended r s' := by
  obtain ⟨hwaiting, hdone, hlast⟩ := hi
  cases e with
  | send =>
    obtain ⟨-, hd, hsent⟩ := step_send h
    have hnot : ∀ {b : Bool}, s.done = true → b = false := fun hd' => by
      rw [hd] at hd'
      cases hd'
    cases hsent with
    | asked ha he =>
      subst he
      exact ⟨fun hd' => hnot hd', hdone, hlast⟩
    | spent ha he =>
      subst he
      exact ⟨fun hd' => hnot hd', hdone, hlast⟩
  | arrive p =>
    obtain rfl : { s with queue := s.queue ++ [p] } = s' := Option.some.inj h
    exact ⟨hwaiting, hdone, hlast⟩
  | recv =>
    obtain ⟨hw, hrecv⟩ := step_recv h
    have hnot : ¬ s.done = true := fun hd => by rw [hwaiting hd] at hw; cases hw
    cases hrecv with
    | taken p queue hq ha he =>
      subst he
      refine ⟨fun _ => rfl, ?_, fun k x hk hends => ?_⟩
      · show (s.done || r.ends p) = true ↔ ∃ x ∈ s.taken ++ [(s.round, p)], r.ends x.2 = true
        rw [Bool.or_eq_true, hdone]
        constructor
        · rintro (⟨x, hx, hends⟩ | hends)
          · exact ⟨x, List.mem_append_left _ hx, hends⟩
          · exact ⟨(s.round, p), List.mem_append_right _ (List.mem_singleton_self _), hends⟩
        · rintro ⟨x, hx, hends⟩
          rcases List.mem_append.1 hx with hx | hx
          · exact Or.inl ⟨x, hx, hends⟩
          · obtain rfl := List.mem_singleton.1 hx
            exact Or.inr hends
      · show k + 1 = (s.taken ++ [(s.round, p)]).length
        obtain ⟨hlt, -⟩ := List.getElem?_eq_some_iff.1 hk
        rw [List.length_append, List.length_singleton] at hlt ⊢
        by_cases hk' : k < s.taken.length
        · rw [List.getElem?_append_left hk'] at hk
          exact absurd (hdone.2 ⟨x, List.mem_of_getElem? hk, hends⟩) hnot
        · omega
    | dropped p queue hq ha he =>
      subst he
      exact ⟨hwaiting, hdone, hlast⟩
  | timeout =>
    obtain ⟨-, -, rfl⟩ := step_timeout h
    exact ⟨fun _ => rfl, hdone, hlast⟩

/-- **Run.** -/
theorem ended_run {es : List (Event P)} (h : run (step r) start es = some s) : Ended r s := by
  refine run_inv (fun _ s => Ended r s) ⟨fun _ => rfl, ?_, ?_⟩ (fun _ _ _ _ hi he => ended_step hi he) h
  · simp [start]
  · intro k x hk
    cases hk

end

/-! ## Which round a packet goes to -/

/-- What an event brings to the queue. -/
def Event.arrived : Event P → List P
  | .arrive p => [p]
  | _ => []

def Event.timedOut : Event P → Bool
  | .timeout => true
  | _ => false

def arrivals (es : List (Event P)) : List P := es.flatMap Event.arrived

def timeouts (es : List (Event P)) : Nat := es.countP Event.timedOut

theorem arrivals_concat (es : List (Event P)) (e : Event P) : arrivals (es ++ [e]) = arrivals es ++ e.arrived := by
  rw [arrivals, List.flatMap_append, List.flatMap_singleton, arrivals]

theorem timeouts_concat (es : List (Event P)) (e : Event P) :
    timeouts (es ++ [e]) = timeouts es + if e.timedOut = true then 1 else 0 := by
  rw [timeouts, List.countP_append, List.countP_singleton, timeouts]

/-- Behind `pre` the packet of `x` is the first in the queue, in its round and with `k` taken before. -/
def TakenAt (pre : List (Event P)) (k : Nat) (x : Nat × P) : Prop :=
  ∃ u, run (step r) start pre = some u ∧ u.round = x.1 ∧ u.queue.head? = some x.2 ∧ u.taken.length = k

/-- What has become of everything that came and of every round. -/
structure Accounted (es : List (Event P)) (s : State P) : Prop where
  order : s.taken.map Prod.snd ++ s.queue.filter r.accepts = (arrivals es).filter r.accepts
  round : s.round = s.taken.length + timeouts es + if s.waiting = true then 1 else 0
  read : ∀ (k : Nat) (x : Nat × P), s.taken[k]? = some x →
    ∃ pre, pre ++ [.recv] <+: es ∧ TakenAt r pre k x ∧ x.1 = k + 1 + timeouts pre

section
variable {r} {s s' : State P} {es : List (Event P)}

theorem accounted_start : Accounted r [] (start : State P) :=
  ⟨rfl, rfl, fun _ _ hk => by cases hk⟩

/-- What has been taken and what waits is what came. -/
theorem order_step {e : Event P}
    (horder : s.taken.map Prod.snd ++ s.queue.filter r.accepts = (arrivals es).filter r.accepts)
    (h : step r s e = some s') :
    s'.taken.map Prod.snd ++ s'.queue.filter r.accepts = (arrivals (es ++ [e])).filter r.accepts := by
  rw [arrivals_concat]
  cases e with
  | send =>
    obtain ⟨-, -, hsent⟩ := step_send h
    rw [show Event.arrived (.send : Event P) = [] from rfl, List.append_nil]
    cases hsent with
    | asked hallowed he =>
      subst he
      exact horder
    | spent hallowed he =>
      subst he
      exact horder
  | arrive p =>
    obtain rfl : { s with queue := s.queue ++ [p] } = s' := Option.some.inj h
    rw [List.filter_append, List.filter_append, ← List.append_assoc, horder]
    rfl
  | recv =>
    obtain ⟨-, hrecv⟩ := step_recv h
    rw [show Event.arrived (.recv : Event P) = [] from rfl, List.append_nil, ← horder]
    cases hrecv with
    | taken p queue hq haccepts he =>
      subst he
      rw [hq, List.filter_cons_of_pos haccepts]
      simp only [List.map_append, List.map_singleton, List.append_assoc, List.singleton_append]
    | dropped p queue hq haccepts he =>
      subst he
      rw [hq, List.filter_cons_of_neg (by simp [haccepts])]
  | timeout =>
    obtain ⟨-, -, rfl⟩ := step_timeout h
    rw [show Event.arrived (.timeout : Event P) = [] from rfl, List.append_nil]
    exact horder

/-- A round is over with a packet taken or a timeout. -/
theorem round_step {e : Event P}
    (hround : s.round = s.taken.length + timeouts es + if s.waiting = true then 1 else 0)
    (h : step r s e = some s') :
    s'.round = s'.taken.length + timeouts (es ++ [e]) + if s'.waiting = true then 1 else 0 := by
  rw [timeouts_concat]
  cases e with
  | send =>
    obtain ⟨hw, -, hsent⟩ := step_send h
    cases hsent with
    | asked hallowed he =>
      subst he
      simp [Event.timedOut, hround, hw]
    | spent hallowed he =>
      subst he
      exact hround
  | arrive p =>
    obtain rfl : { s with queue := s.queue ++ [p] } = s' := Option.some.inj h
    exact hround
  | recv =>
    obtain ⟨hw, hrecv⟩ := step_recv h
    rw [if_pos hw] at hround
    cases hrecv with
    | taken p queue hq haccepts he =>
      subst he
      simp only [List.length_append, List.length_singleton, Event.timedOut, Bool.false_eq_true, if_false]
      omega
    | dropped p queue hq haccepts he =>
      subst he
      simpa [Event.timedOut, hw] using hround
  | timeout =>
    obtain ⟨hw, -, rfl⟩ := step_timeout h
    rw [if_pos hw] at hround
    simp only [Event.timedOut, Bool.false_eq_true, if_false, if_true]
    omega

/-- What a step adds to the packets taken, if it does, has just been the first in the queue. -/
theorem taken_step {e : Event P} (h : step r s e = some s') :
    s'.taken = s.taken ∨ ∃ p, e = .recv ∧ s.waiting = true ∧ s.queue.head? = some p ∧
      s'.taken = s.taken ++ [(s.round, p)] := by
  cases e with
  | send =>
    obtain ⟨-, -, hsent⟩ := step_send h
    cases hsent with
    | asked hallowed he =>
      subst he
      exact Or.inl rfl
    | spent hallowed he =>
      subst he
      exact Or.inl rfl
  | arrive p =>
    obtain rfl : { s with queue := s.queue ++ [p] } = s' := Option.some.inj h
    exact Or.inl rfl
  | recv =>
    obtain ⟨hw, hrecv⟩ := step_recv h
    cases hrecv with
    | taken p queue hq haccepts he =>
      subst he
      exact Or.inr ⟨p, rfl, hw, by rw [hq, List.head?_cons], rfl⟩
    | dropped p queue hq haccepts he =>
      subst he
      exact Or.inl rfl
  | timeout =>
    obtain ⟨-, -, rfl⟩ := step_timeout h
    exact Or.inl rfl

/-- **Step.** -/
theorem accounted_step {e : Event P} (hrun : run (step r) start es = some s) (ha : Accounted r es s)
    (h : step r s e = some s') : Accounted r (es ++ [e]) s' := by
  refine ⟨order_step ha.order h, round_step ha.round h, fun k x hk => ?_⟩
  have hold : s.taken[k]? = some x →
      ∃ pre, pre ++ [.recv] <+: es ++ [e] ∧ TakenAt r pre k x ∧ x.1 = k + 1 + timeouts pre := by
    intro hk
    obtain ⟨pre, hpre, hx⟩ := ha.read k x hk
    exact ⟨pre, hpre.trans (List.prefix_append es [e]), hx⟩
  rcases taken_step h with heq | ⟨p, rfl, hw, hhead, heq⟩
  · rw [heq] at hk
    exact hold hk
  · rw [heq] at hk
    obtain ⟨hlt, -⟩ := List.getElem?_eq_some_iff.1 hk
    rw [List.length_append, List.length_singleton] at hlt
    rcases Nat.lt_or_eq_of_le (Nat.le_of_lt_succ hlt) with hlt | rfl
    · rw [List.getElem?_append_left hlt] at hk
      exact hold hk
    · rw [List.getElem?_concat_length] at hk
      obtain rfl := Option.some.inj hk
      have hround := ha.round
      rw [if_pos hw] at hround
      refine ⟨es, List.prefix_refl _, ⟨s, hrun, rfl, hhead, rfl⟩, ?_⟩
      show s.round = s.taken.length + 1 + timeouts es
      omega

/-- **Run.** -/
theorem accounted_run (h : run (step r) start es = some s) : Accounted r es s :=
  run_forall (Accounted r) (fun _ _ => True) accounted_start
    (fun _ _ _ _ hrun ha _ he => accounted_step hrun ha he) (fun _ _ _ _ _ => trivial) h

/-- The packet taken at index `k` is the acceptable one that came at index `k`. -/
theorem Accounted.getElem? (ha : Accounted r es s) {k : Nat} {x : Nat × P} (hk : s.taken[k]? = some x) :
    ((arrivals es).filter r.accepts)[k]? = some x.2 := by
  obtain ⟨hlt, -⟩ := List.getElem?_eq_some_iff.1 hk
  rw [← ha.order, List.getElem?_append_left (by rwa [List.length_map]), List.getElem?_map, hk, Option.map_some]

/-- **Which round a packet goes to, of a program** whose view goes through the rounds. -/
theorem taken_at_of_view {σ : Type} {step' : σ → Event P → Option σ} {view : σ → State P} {s₀ t : σ}
    (hview : ∀ t e, (step' t e).map view = step r (view t) e) (h₀ : view s₀ = start)
    (h : run step' s₀ es = some t) {k : Nat} {x : Nat × P} (hk : (view t).taken[k]? = some x) :
    ((arrivals es).filter r.accepts)[k]? = some x.2 ∧
      ∃ pre u, pre ++ [.recv] <+: es ∧ run step' s₀ pre = some u ∧ (view u).queue.head? = some x.2 ∧
        (view u).taken.length = k ∧ (view u).round = x.1 ∧ x.1 = k + 1 + timeouts pre := by
  have hrun : run (step r) start es = some (view t) := by
    rw [← h₀]
    exact run_view hview h
  have haccounted := accounted_run hrun
  obtain ⟨pre, hpre, ⟨v, hv, hround, hhead, hcount⟩, hx⟩ := haccounted.read k x hk
  obtain ⟨u, hu⟩ := run_prefix ((List.prefix_append pre _).trans hpre) h
  have huv : run (step r) start pre = some (view u) := by
    rw [← h₀]
    exact run_view hview hu
  obtain rfl := Option.some.inj (hv.symm.trans huv)
  exact ⟨haccounted.getElem? hk, pre, u, hpre, hu, hhead, hcount, hround, hx⟩

/-- How far a packet goes beyond its own index never falls. -/
theorem lag_le (h : run (step r) start es = some s) {j k : Nat} {x y : Nat × P} (hjk : j ≤ k)
    (hj : s.taken[j]? = some x) (hk : s.taken[k]? = some y) : x.1 + k ≤ y.1 + j := by
  have hpairwise := List.pairwise_map.1 (taken_increasing h)
  induction hjk generalizing y with
  | refl =>
    obtain rfl := Option.some.inj (hj.symm.trans hk)
    exact Nat.le_refl _
  | @step k hjk ih =>
    obtain ⟨hlt, hy⟩ := List.getElem?_eq_some_iff.1 hk
    have hk' : k < s.taken.length := Nat.lt_of_succ_lt hlt
    have hprev := ih (List.getElem?_eq_getElem hk')
    have hless := List.pairwise_iff_getElem.1 hpairwise k (k + 1) hk' hlt (Nat.lt_succ_self k)
    rw [hy] at hless
    omega

end

end Rounds
