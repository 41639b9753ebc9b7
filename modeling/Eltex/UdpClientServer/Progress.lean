import Eltex.Lib.Schedule
import Eltex.UdpClientServer.Requests
import Mathlib.Data.Set.Card

/-!
# Whether replies get out

The server sends only in `STATE_SEND`, and gets there only when `recvfrom` would block.

While no datagram arrives, whatever is under way is answered after a bounded number of stretches in
which the server and the workers each get a turn, in any order (`drained`).  The workers read
`running` before the server sets it, so that some of them may have left at once: it is enough that one
has not.  While there is always a datagram to receive, nothing is answered and nearly everything
is lost (`starved`).
-/

namespace Eltex.UdpClientServer

open MsgQueue Runs Schedule

/-- Whose turn it is while no datagram arrives; a worker reads the time in it. -/
inductive Party where
  | server
  | worker (w : Fin maxThreads) (ctime : List UInt8)
deriving Repr, DecidableEq

/-- The call the party is in. -/
def Party.next (s : Server) : Party → Event
  | .server => .turn .wouldBlock
  | .worker w ctime => if (s.workers w).isSome then .put w else .take w ctime

def act (cap : Capacity) (s : Server) (p : Party) : Option Server := step cap s (p.next s)

/-- The server and the workers `W`. -/
def Party.Among (W : Fin maxThreads → Prop) : Party → Prop
  | .server => True
  | .worker w _ => W w

/-- A stretch of a schedule in which the server and the workers `W` get a turn, and nobody else. -/
structure Fair (W : Fin maxThreads → Prop) (b : List Party) : Prop where
  among : ∀ p ∈ b, p.Among W
  server : .server ∈ b
  worker : ∀ w, W w → ∃ ctime, .worker w ctime ∈ b

/-- The turns still needed. -/
def pending (s : Server) : Nat :=
  3 * s.requests.length + 2 * s.working.length + s.responses.length +
    (if s.state = .responseHandler then 4 else 0)

/-- A server that has something to send needs a turn to get to `STATE_SEND`. -/
def rank (s : Server) : Nat := 2 * pending s + if s.state = .recv ∧ s.responses ≠ [] then 1 else 0

/-- Between any two steps: the server runs, and the messages are of the type the parties ask for. -/
structure Live (W : Fin maxThreads → Prop) (s : Server) : Prop where
  running : s.running = true
  typed : ∀ r ∈ s.traced, r.type = 1
  busy : ∀ w r, s.workers w = some r → W w

/-- The party that can do something for the messages under way, the last ones first. -/
def Helpful (W : Fin maxThreads → Prop) (s : Server) : Party → Prop
  | .server => s.state = .responseHandler ∨ s.responses ≠ []
  | .worker w _ => s.state ≠ .responseHandler ∧ s.responses = [] ∧ W w ∧
      ((∃ r, s.workers w = some r) ∨ (∀ w, s.workers w = none) ∧ s.requests ≠ [])

/-! ## What a turn does -/

section
variable {cap : Capacity} {W : Fin maxThreads → Prop} {s s' : Server} {p : Party}

theorem working_eq_nil (h : ∀ w, s.workers w = none) : s.working = [] := by
  rw [Server.working, h 0, h 1]
  rfl

/-- A message of type 1 is what the parties look for. -/
theorem recv_of_typed {r : Request} {q : List Request} (h : r.type = 1) :
    recv Request.type 1 (r :: q) = some (r, q) := by
  rw [recv, if_pos h]

/-- The turn of a server that finds nothing to do. -/
structure Idle (s s' : Server) : Prop where
  state : s.state ≠ .responseHandler
  state' : s'.state ≠ .responseHandler
  responses : s.responses = []
  responses' : s'.responses = []
  workers : s'.workers = s.workers
  requests : s'.requests = s.requests

theorem Idle.rank_eq (h : Idle s s') : rank s' = rank s := by
  have hworking : s'.working = s.working := by
    rw [Server.working, Server.working, h.workers]
  have hidle : ∀ t : Server, t.responses = [] → ¬ (t.state = .recv ∧ t.responses ≠ []) :=
    fun t ht hc => hc.2 ht
  rw [rank, rank, pending, pending, if_neg h.state, if_neg h.state', if_neg (hidle s h.responses),
    if_neg (hidle s' h.responses'), h.requests, hworking, h.responses, h.responses']

/-- What is received is the datagrams' alone. -/
structure Turned (W : Fin maxThreads → Prop) (s s' : Server) : Prop where
  live : Live W s'
  received : s'.received = s.received
  rank : Idle s s' ∨ rank s' < rank s

theorem typed_step {e : Event} (ht : ∀ r ∈ s.traced, r.type = 1) (h : step cap s e = some s') :
    ∀ r ∈ s'.traced, r.type = 1 := by
  intro r hr
  cases step_effect h with
  | arrived addr data state state' req length received requests traced =>
    exact ht r (traced ▸ hr)
  | forwarded state state' room req received requests traced =>
    rcases List.mem_cons.1 (traced.mem_iff.1 hr) with rfl | hr
    · rfl
    · exact ht r hr
  | dropped state state' full req received requests traced =>
    exact ht r (traced ▸ hr)
  | stamped r' ctime rest state req received mem requests traced traced' =>
    rcases List.mem_cons.1 (traced'.mem_iff.1 hr) with rfl | hr
    · exact ht r' (traced.mem_iff.2 List.mem_cons_self)
    · exact ht r (traced.mem_iff.2 (List.mem_cons_of_mem _ hr))
  | moved state req received requests traced =>
    exact ht r (traced.mem_iff.1 hr)

theorem rank_le (h : s'.state ≠ .responseHandler) :
    rank s' ≤ 2 * (3 * s'.requests.length + 2 * s'.working.length + s'.responses.length) + 1 := by
  rw [rank, pending, if_neg h]
  split <;> omega

theorem le_rank : 2 * (3 * s.requests.length + 2 * s.working.length + s.responses.length) ≤ rank s := by
  rw [rank, pending]
  omega

/-- A turn of the server. -/
theorem turned_server (hl : Live W s) (h : step cap s (.turn .wouldBlock) = some s') : Turned W s s' := by
  have htyped := typed_step hl.typed h
  change serverTurn cap s .wouldBlock = some s' at h
  unfold serverTurn at h
  rw [if_pos hl.running] at h
  split at h
  · next hstate =>
    obtain rfl := Option.some.inj h
    refine ⟨⟨hl.running, htyped, hl.busy⟩, rfl, ?_⟩
    have hne := ne_responseHandler_of_recv hstate
    by_cases hresp : s.responses = []
    · exact Or.inl ⟨hne, fun hc => (nomatch hc), hresp, hresp, rfl, rfl⟩
    · -- there is something to send: one turn less
      have hrank : rank s = 2 * (3 * s.requests.length + 2 * s.working.length + s.responses.length) + 1 := by
        rw [rank, pending, if_neg hne, if_pos (And.intro hstate hresp)]
        rfl
      have hrank' : rank { s with state := .send } =
          2 * (3 * s.requests.length + 2 * s.working.length + s.responses.length) := by
        rw [rank, pending, if_neg (fun hc => nomatch hc), if_neg (fun hc => nomatch hc.1)]
        rfl
      exact Or.inr (by omega)
  · next hstate =>
    split at h
    · next r responses hrecv =>
      obtain rfl := Option.some.inj h
      refine ⟨⟨hl.running, htyped, hl.busy⟩, rfl, Or.inr ?_⟩
      have hlen := (recv_perm hrecv).length_eq
      rw [List.length_cons] at hlen
      refine Nat.lt_of_le_of_lt (rank_le fun hc => nomatch hc) (Nat.lt_of_lt_of_le ?_ le_rank)
      show 2 * (3 * s.requests.length + 2 * s.working.length + responses.length) + 1 < _
      omega
    · next hrecv =>
      obtain rfl := Option.some.inj h
      refine ⟨⟨hl.running, htyped, hl.busy⟩, rfl, Or.inl ?_⟩
      have hresp : s.responses = [] := by
        cases hq : s.responses with
        | nil => rfl
        | cons r q =>
          have hr : r.type = 1 := by
            refine hl.typed r (mem_traced.2 (Or.inr (Or.inr (Or.inl ?_))))
            rw [hq]
            exact List.mem_cons_self
          rw [hq, recv_of_typed hr] at hrecv
          exact absurd hrecv (Option.some_ne_none _)
      exact ⟨ne_responseHandler_of_send hstate, fun hc => (nomatch hc), hresp, hresp, rfl, rfl⟩
  · next hstate =>
    simp only at h
    have hrank : rank s = 2 * (3 * s.requests.length + 2 * s.working.length + s.responses.length + 4) := by
      rw [rank, pending, if_pos hstate, if_neg]
      · rfl
      · rintro ⟨hc, -⟩
        rw [hstate] at hc
        exact nomatch hc
    split at h
    · next requests hsend =>
      obtain rfl := Option.some.inj h
      obtain ⟨-, rfl⟩ := send_eq_some_iff.1 hsend
      refine ⟨⟨hl.running, htyped, hl.busy⟩, rfl, Or.inr ?_⟩
      refine Nat.lt_of_le_of_lt (rank_le fun hc => nomatch hc) ?_
      show 2 * (3 * (s.requests ++ [_]).length + 2 * s.working.length + s.responses.length) + 1 < _
      rw [hrank, List.length_append, List.length_singleton]
      omega
    · obtain rfl := Option.some.inj h
      refine ⟨⟨hl.running, htyped, hl.busy⟩, rfl, Or.inr ?_⟩
      refine Nat.lt_of_le_of_lt (rank_le fun hc => nomatch hc) ?_
      show 2 * (3 * s.requests.length + 2 * s.working.length + s.responses.length) + 1 < _
      rw [hrank]
      omega

theorem rank_congr (h : s'.state = s.state) :
    rank s' + 2 * (3 * s.requests.length + 2 * s.working.length + s.responses.length) ≤
      rank s + 2 * (3 * s'.requests.length + 2 * s'.working.length + s'.responses.length) + 1 := by
  rw [rank, rank, pending, pending, h]
  split <;> split <;> split <;> omega

theorem turned_take {w : Fin maxThreads} {ctime : List UInt8} (hl : Live W s) (hw : W w)
    (h : step cap s (.take w ctime) = some s') : Turned W s s' := by
  have htyped := typed_step hl.typed h
  change workerTake s w ctime = some s' at h
  unfold workerTake at h
  split at h
  · exact absurd h.symm (Option.some_ne_none _)
  · next hidle =>
    obtain ⟨⟨r, requests⟩, hrecv, rfl⟩ := Option.map_eq_some_iff.1 h
    have hlen := (recv_perm hrecv).length_eq
    rw [List.length_cons] at hlen
    refine ⟨⟨hl.running, htyped, fun w' r' hw' => ?_⟩, rfl, Or.inr ?_⟩
    · by_cases heq : w' = w
      · exact heq ▸ hw
      · refine hl.busy w' r' ?_
        rw [← hw']
        exact (Function.update_of_ne heq _ _).symm
    · show rank { s with
        requests := requests, workers := Function.update s.workers w (some (r.stamp ctime)) } < _
      set s₁ : Server := { s with
        requests := requests, workers := Function.update s.workers w (some (r.stamp ctime)) } with hs₁
      have hworking : s₁.working.Perm (r.stamp ctime :: s.working) := working_busy hidle rfl
      have hlength : s₁.working.length = s.working.length + 1 := hworking.length_eq
      have hcongr := @rank_congr s s₁ rfl
      have hrequests : s₁.requests.length = requests.length := rfl
      have hresponses : s₁.responses.length = s.responses.length := rfl
      omega

theorem turned_put {w : Fin maxThreads} (hl : Live W s) (h : step cap s (.put w) = some s') :
    Turned W s s' := by
  have htyped := typed_step hl.typed h
  obtain ⟨r, hbusy, h⟩ := Option.bind_eq_some_iff.1 h
  obtain ⟨responses, hsend, rfl⟩ := Option.map_eq_some_iff.1 h
  obtain ⟨-, rfl⟩ := send_eq_some_iff.1 hsend
  refine ⟨⟨hl.running, htyped, fun w' r' hw' => ?_⟩, rfl, Or.inr ?_⟩
  · by_cases heq : w' = w
    · exact heq ▸ hl.busy w r hbusy
    · refine hl.busy w' r' ?_
      rw [← hw']
      exact (Function.update_of_ne heq _ _).symm
  · set s₁ : Server := { s with
      responses := s.responses ++ [r], workers := Function.update s.workers w none } with hs₁
    have hworking : s.working.Perm (r :: s₁.working) := working_idle hbusy rfl
    have hlength : s.working.length = s₁.working.length + 1 := hworking.length_eq
    have hcongr := @rank_congr s s₁ rfl
    have hresponses : s₁.responses.length = s.responses.length + 1 := List.length_append
    have hrequests : s₁.requests.length = s.requests.length := rfl
    omega

/-- **Step.**  A turn takes the messages on, or it is the server's and there was nothing to do. -/
theorem turned_act (hl : Live W s) (hp : p.Among W) (h : act cap s p = some s') : Turned W s s' := by
  cases p with
  | server => exact turned_server hl h
  | worker w ctime =>
    rw [act, Party.next] at h
    split at h
    · exact turned_put hl h
    · exact turned_take hl hp h

/-! ## Who is helpful -/

theorem isSome_serverTurn (cap : Capacity) (h : s.running = true) (result : Recvfrom) :
    (serverTurn cap s result).isSome := by
  unfold serverTurn
  rw [if_pos h]
  split
  · split <;> rfl
  · split <;> rfl
  · simp only
    split <;> rfl

/-- Only an idle turn leaves the rank as it is. -/
theorem not_idle_of_helpful {q : Party} (hp : Helpful W s q) (h : Idle s s') : q ≠ .server := by
  rintro rfl
  rcases hp with hc | hc
  · exact h.state hc
  · exact hc h.responses

theorem exists_turn (hcap : 0 < cap.responses) (hl : Live W s) (hp : Helpful W s p) :
    ∃ s', act cap s p = some s' ∧ rank s' < rank s := by
  have hlower : ∀ s', p.Among W → act cap s p = some s' → ¬ Idle s s' → rank s' < rank s :=
    fun s' hamong hact hidle => (turned_act hl hamong hact).rank.resolve_left hidle
  cases p with
  | server =>
    obtain ⟨s', hs'⟩ := Option.isSome_iff_exists.1 (isSome_serverTurn cap hl.running .wouldBlock)
    exact ⟨s', hs', hlower s' trivial hs' fun hidle => not_idle_of_helpful hp hidle rfl⟩
  | worker w ctime =>
    obtain ⟨-, hresp, hw, ⟨r, hbusy⟩ | ⟨hidle, hreq⟩⟩ := hp
    · -- there is room for its answer
      have hsend : send cap.responses r s.responses = some (s.responses ++ [r]) := by
        rw [send_eq_some_iff, hresp]
        exact ⟨hcap, rfl⟩
      have hact : act cap s (.worker w ctime) = some { s with
          responses := s.responses ++ [r], workers := Function.update s.workers w none } := by
        rw [act, Party.next, if_pos (by rw [hbusy]; rfl)]
        show workerPut cap s w = _
        rw [workerPut, hbusy, Option.bind_some, hsend]
        rfl
      refine ⟨_, hact, hlower _ hw hact fun hc => ?_⟩
      have hget := congrFun hc.workers w
      rw [hbusy] at hget
      exact absurd (hget.symm.trans (Function.update_self _ _ _)) (Option.some_ne_none r)
    · -- there is a request for it
      obtain ⟨r, q, hq⟩ := List.exists_cons_of_ne_nil hreq
      have htype : r.type = 1 := by
        refine hl.typed r (mem_traced.2 (Or.inl ?_))
        rw [hq]
        exact List.mem_cons_self
      have hact : act cap s (.worker w ctime) = some { s with
          requests := q, workers := Function.update s.workers w (some (r.stamp ctime)) } := by
        rw [act, Party.next, if_neg (by rw [hidle w]; exact Bool.false_ne_true)]
        show workerTake s w ctime = _
        unfold workerTake
        rw [hidle w, hq, recv_of_typed htype]
        rfl
      refine ⟨_, hact, hlower _ hw hact fun hc => ?_⟩
      have hget := congrFun hc.workers w
      rw [hidle w] at hget
      exact absurd ((Function.update_self _ _ _).symm.trans hget) (Option.some_ne_none _)

theorem helpful_of_idle (hp : Helpful W s p) (h : Idle s s') : Helpful W s' p := by
  cases p with
  | server => exact absurd rfl (not_idle_of_helpful hp h)
  | worker w ctime =>
    obtain ⟨-, -, hw, hmsgs⟩ := hp
    refine ⟨h.state', h.responses', hw, ?_⟩
    rw [h.workers, h.requests]
    exact hmsgs

/-- In every state with something left to do some party is helpful. -/
theorem exists_helpful (hW : ∃ w, W w) (hl : Live W s) (hpos : 0 < rank s) {b : List Party} (hb : Fair W b) :
    ∃ p ∈ b, Helpful W s p := by
  by_cases hserver : s.state = .responseHandler ∨ s.responses ≠ []
  · exact ⟨.server, hb.server, hserver⟩
  · obtain ⟨hstate, hresp⟩ := not_or.1 hserver
    have hresp : s.responses = [] := not_not.1 hresp
    by_cases hidle : ∀ w, s.workers w = none
    · have hreq : s.requests ≠ [] := by
        intro hreq
        rw [rank, pending, hreq, working_eq_nil hidle, hresp, if_neg hstate, if_neg (fun hc => hc.2 rfl)] at hpos
        exact Nat.lt_irrefl 0 hpos
      obtain ⟨w, hw⟩ := hW
      obtain ⟨ctime, hmem⟩ := hb.worker w hw
      exact ⟨_, hmem, hstate, hresp, hw, Or.inr ⟨hidle, hreq⟩⟩
    · obtain ⟨w, hw⟩ := not_forall.1 hidle
      obtain ⟨r, hbusy⟩ := Option.ne_none_iff_exists'.1 hw
      obtain ⟨ctime, hmem⟩ := hb.worker w (hl.busy w r hbusy)
      exact ⟨_, hmem, hstate, hresp, hl.busy w r hbusy, Or.inl ⟨r, hbusy⟩⟩

theorem drains (hcap : 0 < cap.responses) :
    Drains (act cap) (Live W) (Party.Among W) rank (Helpful W) where
  inv _ _ _ hl hp h := (turned_act hl hp h).live
  le _ _ _ hl hp h := (turned_act hl hp h).rank.elim (fun hidle => hidle.rank_eq.le) Nat.le_of_lt
  lt _ _ hl hp := exists_turn hcap hl hp
  keeps _ _ _ _ hl hp hq h hrank :=
    (turned_act hl hq h).rank.elim (helpful_of_idle hp) fun hlt => absurd hrank (Nat.ne_of_lt hlt)

end

/-! ## Runs -/

section
variable {cap : Capacity} {W : Fin maxThreads → Prop} {s : Server} {events : List Event}

/-- Workers that have left do not take anything. -/
def TakenBy (W : Fin maxThreads → Prop) (events : List Event) : Prop :=
  ∀ w ctime, .take w ctime ∈ events → W w

theorem busy_step {e : Event} {s' : Server} (hb : ∀ w r, s.workers w = some r → W w)
    (he : ∀ w ctime, e = .take w ctime → W w) (h : step cap s e = some s') :
    ∀ w r, s'.workers w = some r → W w := by
  intro w r hw
  cases e with
  | turn result =>
    change serverTurn cap s result = some s' at h
    have hworkers : s'.workers = s.workers := by
      unfold serverTurn at h
      split at h
      · split at h
        · split at h <;> rw [← Option.some.inj h]
        · split at h <;> rw [← Option.some.inj h]
        · simp only at h
          split at h <;> rw [← Option.some.inj h]
      · exact absurd h.symm (Option.some_ne_none _)
    rw [hworkers] at hw
    exact hb w r hw
  | take w' ctime =>
    change workerTake s w' ctime = some s' at h
    unfold workerTake at h
    split at h
    · exact absurd h.symm (Option.some_ne_none _)
    · obtain ⟨_, -, rfl⟩ := Option.map_eq_some_iff.1 h
      by_cases heq : w = w'
      · exact he w ctime (by rw [heq])
      · exact hb w r ((Function.update_of_ne heq _ _).symm.trans hw)
  | put w' =>
    obtain ⟨r', -, h⟩ := Option.bind_eq_some_iff.1 h
    obtain ⟨_, -, rfl⟩ := Option.map_eq_some_iff.1 h
    by_cases heq : w = w'
    · rw [heq] at hw
      exact absurd (hw.symm.trans (Function.update_self _ _ _)) (Option.some_ne_none r)
    · exact hb w r ((Function.update_of_ne heq _ _).symm.trans hw)

theorem live_server (h : server cap events = some s) (hevents : TakenBy W events) (hrunning : s.running = true) :
    Live W s where
  running := hrunning
  typed := run_inv (fun _ s => ∀ r ∈ s.traced, r.type = 1) (fun r hr => absurd hr List.not_mem_nil)
    (fun _ _ _ _ ht hs => typed_step ht hs) h
  busy := by
    refine run_inv (fun es s => TakenBy W es → ∀ w r, s.workers w = some r → W w)
      (fun _ w r hw => absurd hw.symm (Option.some_ne_none r)) (fun es t e t' ht hs hes => ?_) h hevents
    refine busy_step (ht fun w ctime hmem => ?_) (fun w ctime heq => ?_) hs
    · exact hes w ctime (List.mem_append_left [e] hmem)
    · rw [heq] at hes
      exact hes w ctime (List.mem_append_right es (List.mem_singleton_self _))

/-- Messages under way stay so, or are answered. -/
theorem exists_traced_run {es : List Event} {s' : Server} (h : run (step cap) s es = some s') {i : Nat}
    (hi : ∃ r ∈ s.traced, r.origin = i) : ∃ r ∈ s'.traced, r.origin = i :=
  run_inv (fun _ t => ∃ r ∈ t.traced, r.origin = i) hi (fun _ _ _ _ ht hs => exists_traced hs ht) h

theorem next_ne_datagram (s : Server) (p : Party) (addr : SockaddrIn) (data : List UInt8) :
    p.next s ≠ .turn (.datagram addr data) := by
  intro h
  cases p with
  | server => cases h
  | worker w ctime =>
    rw [Party.next] at h
    split at h <;> cases h

theorem traced_of_rank (h : rank s = 0) :
    s.requests = [] ∧ s.working = [] ∧ s.responses = [] ∧ s.traced = s.replies.map Reply.request := by
  have hle := le_rank (s := s)
  have hreq : s.requests = [] := List.eq_nil_of_length_eq_zero (by omega)
  have hworking : s.working = [] := List.eq_nil_of_length_eq_zero (by omega)
  have hresp : s.responses = [] := List.eq_nil_of_length_eq_zero (by omega)
  refine ⟨hreq, hworking, hresp, ?_⟩
  rw [Server.traced, hreq, hworking, hresp]
  rfl

end

/-- **Replies get out.**  From every state reached while the server runs: if no more datagrams arrive, one
of the workers is in its loop, and the server and these workers get their turns in any order, then after
as many stretches as `rank` says nothing is under way, and every message that was is answered once. -/
theorem drained {cap : Capacity} {W : Fin maxThreads → Prop} {events : List Event} {s : Server}
    {schedule : List (List Party)} (hcap : 0 < cap.responses) (hW : ∃ w, W w) (hevents : TakenBy W events)
    (h : server cap events = some s) (hrunning : s.running = true) (hfair : ∀ b ∈ schedule, Fair W b)
    (hlen : rank s ≤ schedule.length) :
    ∃ es, server cap (events ++ es) = some (play (act cap) s schedule.flatten) ∧
      (∀ e ∈ es, ∀ addr data, e ≠ .turn (.datagram addr data)) ∧
      (play (act cap) s schedule.flatten).requests = [] ∧ (play (act cap) s schedule.flatten).working = [] ∧
      (play (act cap) s schedule.flatten).responses = [] ∧
      ∀ r ∈ s.traced, ((play (act cap) s schedule.flatten).replies.map fun a => a.request.origin).count
        r.origin = 1 := by
  have hlive := live_server h hevents hrunning
  have hamong : ∀ b ∈ schedule, ∀ p ∈ b, p.Among W := fun b hb => (hfair b hb).among
  have hall : ∀ p ∈ schedule.flatten, p.Among W := by
    intro p hp
    obtain ⟨b, hb, hp⟩ := List.mem_flatten.1 hp
    exact hamong b hb p hp
  have hrank := (drains hcap).rank_play_flatten hamong
    (fun b hb t ht hpos => exists_helpful hW ht hpos (hfair b hb)) hlive hlen
  obtain ⟨hreq, hworking, hresp, htraced⟩ := traced_of_rank hrank
  have hact : ∀ t p t', p.Among W → act cap t p = some t' →
      ∃ e, (∀ addr data, e ≠ .turn (.datagram addr data)) ∧ step cap t e = some t' :=
    fun t p t' _ h => ⟨p.next t, next_ne_datagram t p, h⟩
  obtain ⟨es, hes, hrun⟩ := exists_run hact hall s
  have hserver : server cap (events ++ es) = some (play (act cap) s schedule.flatten) := by
    rw [server, run_append]
    rw [server] at h
    rw [h, Option.bind_some, hrun]
  refine ⟨es, hserver, hes, hreq, hworking, hresp, fun r hr => ?_⟩
  -- what was under way still is, and by now that is among the replies
  obtain ⟨r', hr', horigin⟩ := exists_traced_run hrun ⟨r, hr, rfl⟩
  rw [htraced] at hr'
  obtain ⟨a, ha, rfl⟩ := List.mem_map.1 hr'
  apply List.count_eq_one_of_mem (nodup_origin_replies (inv_server hserver))
  rw [← horigin]
  exact List.mem_map_of_mem (f := fun a : Reply => a.request.origin) ha

/-- One request and one worker. -/
theorem drained_one :
    ∃ s es, server ⟨4, 4⟩ [.turn (.datagram ⟨1, 10⟩ [7]), .turn .wouldBlock] = some s ∧
      server ⟨4, 4⟩ ([.turn (.datagram ⟨1, 10⟩ [7]), .turn .wouldBlock] ++ es) =
        some (play (act ⟨4, 4⟩) s (List.replicate 6 [.server, .worker 1 [65]]).flatten) ∧
      ((play (act ⟨4, 4⟩) s (List.replicate 6 [.server, .worker 1 [65]]).flatten).replies.map
        fun a => a.request.origin).count 0 = 1 := by
  have hfair : ∀ b ∈ List.replicate 6 [Party.server, .worker 1 [65]], Fair (· = 1) b := by
    intro b hb
    rw [List.eq_of_mem_replicate hb]
    refine ⟨fun p hp => ?_, List.mem_cons_self, fun w hw => ⟨[65], ?_⟩⟩
    · rcases List.mem_cons.1 hp with rfl | hp
      · trivial
      · rw [List.mem_singleton.1 hp]
        rfl
    · rw [hw]
      exact List.mem_cons_of_mem _ List.mem_cons_self
  have htaken : TakenBy (· = 1) [.turn (.datagram ⟨1, 10⟩ [7]), .turn .wouldBlock] := fun w ctime h => by
    rcases List.mem_cons.1 h with h | h
    · cases h
    · cases List.mem_singleton.1 h
  obtain ⟨es, hes, -, -, -, -, hcount⟩ := @drained ⟨4, 4⟩ (· = 1) _ _ _ (by decide) ⟨1, rfl⟩ htaken rfl rfl
    hfair (by decide)
  exact ⟨_, es, rfl, hes, hcount _ List.mem_cons_self⟩

/-! ## A server that is kept busy -/

section
variable {cap : Capacity} {s s' : Server}

/-- The queues hold no more than they can. -/
structure Bounded (cap : Capacity) (s : Server) : Prop where
  requests : s.requests.length ≤ cap.requests
  responses : s.responses.length ≤ cap.responses

theorem bounded_step {e : Event} (hb : Bounded cap s) (h : step cap s e = some s') : Bounded cap s' := by
  cases e with
  | turn result =>
    change serverTurn cap s result = some s' at h
    unfold serverTurn at h
    split at h
    · split at h
      · split at h <;> rw [← Option.some.inj h] <;> exact ⟨hb.requests, hb.responses⟩
      · split at h
        · next r responses hrecv =>
          have hlen := (recv_perm hrecv).length_eq
          rw [List.length_cons] at hlen
          have hresp := hb.responses
          rw [← Option.some.inj h]
          refine ⟨hb.requests, ?_⟩
          show responses.length ≤ _
          omega
        · rw [← Option.some.inj h]
          exact ⟨hb.requests, hb.responses⟩
      · simp only at h
        split at h
        · next requests hsend =>
          obtain ⟨hroom, rfl⟩ := send_eq_some_iff.1 hsend
          rw [← Option.some.inj h]
          refine ⟨?_, hb.responses⟩
          show (s.requests ++ [_]).length ≤ _
          rw [List.length_append, List.length_singleton]
          omega
        · rw [← Option.some.inj h]
          exact ⟨hb.requests, hb.responses⟩
    · exact absurd h.symm (Option.some_ne_none _)
  | take w ctime =>
    change workerTake s w ctime = some s' at h
    unfold workerTake at h
    split at h
    · exact absurd h.symm (Option.some_ne_none _)
    · obtain ⟨⟨r, requests⟩, hrecv, rfl⟩ := Option.map_eq_some_iff.1 h
      have hlen := (recv_perm hrecv).length_eq
      rw [List.length_cons] at hlen
      have hreq := hb.requests
      refine ⟨?_, hb.responses⟩
      show requests.length ≤ _
      omega
  | put w =>
    obtain ⟨r, -, h⟩ := Option.bind_eq_some_iff.1 h
    obtain ⟨responses, hsend, rfl⟩ := Option.map_eq_some_iff.1 h
    obtain ⟨hroom, rfl⟩ := send_eq_some_iff.1 hsend
    refine ⟨hb.requests, ?_⟩
    show (s.responses ++ [r]).length ≤ _
    rw [List.length_append, List.length_singleton]
    omega

/-- The server calls `recvfrom` and there is nothing to receive. -/
def Blocks (s : Server) (e : Event) : Prop := s.state = .recv ∧ e = .turn .wouldBlock

/-- Without a receive that would block the server does not come to send. -/
theorem state_step {e : Event} (hs : s.state ≠ .send) (he : ¬ Blocks s e) (h : step cap s e = some s') :
    s'.state ≠ .send := by
  cases e with
  | turn result =>
    change serverTurn cap s result = some s' at h
    unfold serverTurn at h
    split at h
    · split at h
      · next hstate =>
        split at h
        · rw [← Option.some.inj h]
          exact fun hc => nomatch hc
        · exact absurd ⟨hstate, rfl⟩ he
        · rw [← Option.some.inj h]
          exact hs
      · next hstate => exact absurd hstate hs
      · simp only at h
        split at h <;> rw [← Option.some.inj h] <;> exact fun hc => nomatch hc
    · exact absurd h.symm (Option.some_ne_none _)
  | take w ctime =>
    change workerTake s w ctime = some s' at h
    unfold workerTake at h
    split at h
    · exact absurd h.symm (Option.some_ne_none _)
    · obtain ⟨_, -, rfl⟩ := Option.map_eq_some_iff.1 h
      exact hs
  | put w =>
    obtain ⟨r, -, h⟩ := Option.bind_eq_some_iff.1 h
    obtain ⟨_, -, rfl⟩ := Option.map_eq_some_iff.1 h
    exact hs

theorem length_working_le : s.working.length ≤ maxThreads := by
  have hone : ∀ o : Option Request, o.toList.length ≤ 1 := fun o => by cases o <;> simp
  have h0 := hone (s.workers 0)
  have h1 := hone (s.workers 1)
  show s.working.length ≤ 2
  rw [Server.working, List.length_append]
  omega

end

/-- The datagrams that are nowhere any more. -/
def lost (s : Server) : Set Nat := {i | i < s.received.length ∧ ¬ Accounted s i}

/-- **Starvation.**  While `recvfrom` always finds a datagram no reply is sent, and all datagrams are lost but
those the queues and the workers can hold, and the last. -/
theorem starved {cap : Capacity} {events : List Event} {s : Server} (h : server cap events = some s)
    (hbusy : ∀ pre e u, pre ++ [e] <+: events → server cap pre = some u → ¬ Blocks u e) :
    s.replies = [] ∧ s.received.length ≤ (lost s).ncard + (cap.requests + maxThreads + cap.responses + 1) := by
  have hinv : (s.state ≠ .send ∧ s.replies = []) ∧ Bounded cap s := by
    refine run_forall (fun _ s => (s.state ≠ .send ∧ s.replies = []) ∧ Bounded cap s) (fun s e => ¬ Blocks s e)
      ⟨⟨by decide, rfl⟩, Nat.zero_le _, Nat.zero_le _⟩ (fun pre e t t' _ ht he hs => ?_) hbusy h
    obtain ⟨⟨hstate, hreplies⟩, hbounded⟩ := ht
    refine ⟨⟨state_step hstate he hs, ?_⟩, bounded_step hbounded hs⟩
    rcases step_replies hs with heq | ⟨hsend, -⟩
    · rw [heq, hreplies]
    · exact absurd hsend hstate
  obtain ⟨⟨-, hreplies⟩, hbounded⟩ := hinv
  refine ⟨hreplies, ?_⟩
  -- what is accounted for is held by the server or is one of the messages under way
  set held : List Nat := (s.received.length - 1) :: s.traced.map Request.origin with hheld
  have hcover : (Finset.range s.received.length : Set Nat) ⊆ lost s ∪ (held.toFinset : Set Nat) := by
    intro i hi
    have hlt : i < s.received.length := Finset.mem_range.1 hi
    by_cases hacc : Accounted s i
    · right
      rw [Finset.mem_coe, List.mem_toFinset]
      rcases accounted_iff.1 hacc with ⟨-, hlast⟩ | ⟨r, hr, rfl⟩
      · exact List.mem_cons.2 (Or.inl (by omega))
      · exact List.mem_cons_of_mem _ (List.mem_map_of_mem hr)
    · exact Or.inl ⟨hlt, hacc⟩
  have hfinite : (lost s).Finite := (Set.finite_lt_nat s.received.length).subset fun i hi => hi.1
  have hncard := Set.ncard_le_ncard hcover (hfinite.union (Finset.finite_toSet _))
  have hunion := Set.ncard_union_le (lost s) (held.toFinset : Set Nat)
  rw [Set.ncard_coe_finset, Finset.card_range] at hncard
  rw [Set.ncard_coe_finset] at hunion
  have hcard : held.toFinset.card ≤ held.length := List.toFinset_card_le held
  have hlength : held.length = s.requests.length + s.working.length + s.responses.length + 1 := by
    rw [hheld, List.length_cons, List.length_map, Server.traced, List.length_append, List.length_append,
      List.length_append, hreplies]
    rfl
  have hworking := length_working_le (s := s)
  have hreq := hbounded.requests
  have hresp := hbounded.responses
  omega

/-- `n` datagrams in a row; behind each the server has its turn to pass it on. -/
def inARow (n : Nat) : List Event :=
  (List.replicate n [.turn (.datagram ⟨1, 10⟩ [7]), .turn .wouldBlock]).flatten

/-- Each receive finds a datagram. -/
theorem not_blocks_inARow {cap : Capacity} (n : Nat) {s : Server} (hs : s.running = true ∧ s.state = .recv) :
    ∀ pre e u, pre ++ [e] <+: inARow n → run (step cap) s pre = some u → ¬ Blocks u e := by
  induction n generalizing s with
  | zero => exact steps_nil
  | succ n ih =>
    rw [inARow, List.replicate_succ, List.flatten_cons]
    refine steps_cons (fun h => nomatch h.2) fun t ht => ?_
    have hstate : t.running = true ∧ t.state = .responseHandler := by
      rw [step, serverTurn, if_pos hs.1, hs.2] at ht
      rw [← Option.some.inj ht]
      exact ⟨hs.1, rfl⟩
    refine steps_cons (fun h => ?_) fun u hu => ih ?_
    · rw [Blocks, hstate.2] at h
      exact nomatch h.1
    · rw [step, serverTurn, if_pos hstate.1, hstate.2] at hu
      simp only at hu
      split at hu <;> rw [← Option.some.inj hu] <;> exact ⟨hstate.1, rfl⟩

/-- Seven datagrams, and room for five. -/
theorem starved_seven : ∃ s, server ⟨1, 1⟩ (inARow 7) = some s ∧ s.replies = [] ∧ 2 ≤ (lost s).ncard := by
  have hlength : (server ⟨1, 1⟩ (inARow 7)).map (fun s => s.received.length) = some 7 := by decide
  obtain ⟨s, hs, hlength⟩ := Option.map_eq_some_iff.1 hlength
  obtain ⟨hreplies, hlost⟩ := starved hs (not_blocks_inARow 7 ⟨rfl, rfl⟩)
  have hroom : (⟨1, 1⟩ : Capacity).requests + maxThreads + (⟨1, 1⟩ : Capacity).responses + 1 = 5 := rfl
  exact ⟨s, hs, hreplies, by omega⟩

end Eltex.UdpClientServer
