import Eltex.UdpClientServer.Server
import Mathlib.Data.List.Nodup
import Mathlib.Data.List.Perm.Subperm
import Mathlib.Data.List.Count

/-!
# What becomes of a datagram

Every message under way or answered comes from a datagram received before, no
two from the same, and carries its address (`Inv`).  So replies are not
duplicated and go back to where the datagram came from (`replies_injective`).

A datagram is lost where `STATE_RESPONSE_HANDLER` finds the queue of requests
full, because it does not wait and does not look at the result: no other step
loses any (`noLoss_iff`).
-/

namespace Eltex.UdpClientServer

open MsgQueue Runs

/-- The datagrams that have left `req`. -/
def Server.settled (s : Server) : Nat :=
  if s.state = .responseHandler then s.received.length - 1 else s.received.length

/-- A message is a datagram received with something stored over it. -/
structure FromDatagram (received : List Datagram) (r : Request) (d : Datagram) : Prop where
  get : received[r.origin]? = some d
  addr : r.msg.addr = d.addr
  buf : r.msg.buf = overlay r.text (overlay d.data d.stale)

/-- Messages from different datagrams among the first `n`. -/
structure Distinct (received : List Datagram) (n : Nat) (l : List Request) : Prop where
  nodup : (l.map Request.origin).Nodup
  lt : ∀ r ∈ l, r.origin < n
  source : ∀ r ∈ l, ∃ d, FromDatagram received r d
  length : ∀ r ∈ l, r.text.length ≤ msgSize

section
variable {received : List Datagram} {n : Nat} {l : List Request}

theorem Distinct.perm {l' : List Request} (h : Distinct received n l) (hp : l'.Perm l) :
    Distinct received n l' where
  nodup := (hp.map Request.origin).nodup_iff.2 h.nodup
  lt r hr := h.lt r (hp.mem_iff.1 hr)
  source r hr := h.source r (hp.mem_iff.1 hr)
  length r hr := h.length r (hp.mem_iff.1 hr)

theorem Distinct.mono {n' : Nat} (h : Distinct received n l) (hn : n ≤ n') : Distinct received n' l where
  nodup := h.nodup
  lt r hr := (h.lt r hr).trans_le hn
  source := h.source
  length := h.length

theorem Distinct.concat (h : Distinct received n l) (d : Datagram) : Distinct (received ++ [d]) n l where
  nodup := h.nodup
  lt := h.lt
  source r hr := by
    obtain ⟨d', hd⟩ := h.source r hr
    refine ⟨d', ?_, hd.addr, hd.buf⟩
    rw [List.getElem?_append_left (List.getElem?_eq_some_iff.1 hd.get).1]
    exact hd.get
  length := h.length

/-- A message more, of the next datagram. -/
theorem Distinct.cons {r : Request} {d : Datagram} (h : Distinct received n l) (hr : r.origin = n)
    (hd : FromDatagram received r d) (ht : r.text.length ≤ msgSize) :
    Distinct received (n + 1) (r :: l) where
  nodup := by
    rw [List.map_cons, List.nodup_cons]
    refine ⟨fun hmem => ?_, h.nodup⟩
    obtain ⟨r', hr', heq⟩ := List.mem_map.1 hmem
    have hlt := h.lt r' hr'
    omega
  lt r' hr' := by
    rcases List.mem_cons.1 hr' with rfl | hr'
    · omega
    · exact (h.lt r' hr').trans (Nat.lt_succ_self n)
  source r' hr' := by
    rcases List.mem_cons.1 hr' with rfl | hr'
    · exact ⟨d, hd⟩
    · exact h.source r' hr'
  length r' hr' := by
    rcases List.mem_cons.1 hr' with rfl | hr'
    · exact ht
    · exact h.length r' hr'

theorem overlay_nil (back : List UInt8) : overlay [] back = back := rfl

theorem length_overlay {front back : List UInt8} (h : front.length ≤ back.length) :
    (overlay front back).length = back.length := by
  rw [overlay, List.length_append, List.length_drop]
  omega

theorem length_timeText (ctime : List UInt8) : (timeText ctime).length ≤ msgSize := by
  have hmax : msgSize = 256 := rfl
  rw [timeText, List.length_append, List.length_take, List.length_singleton]
  omega

/-- The time is printed over a message nothing has been printed over. -/
theorem Distinct.stamp {r : Request} (h : Distinct received n (r :: l)) (hr : r.text = [])
    (ctime : List UInt8) : Distinct received n (r.stamp ctime :: l) where
  nodup := h.nodup
  lt r' hr' := by
    rcases List.mem_cons.1 hr' with rfl | hr'
    · exact h.lt r List.mem_cons_self
    · exact h.lt r' (List.mem_cons_of_mem _ hr')
  source r' hr' := by
    rcases List.mem_cons.1 hr' with rfl | hr'
    · obtain ⟨d, hd⟩ := h.source r List.mem_cons_self
      refine ⟨d, hd.get, hd.addr, ?_⟩
      show overlay (timeText ctime) r.msg.buf = overlay (timeText ctime) _
      rw [hd.buf, hr, overlay_nil]
    · exact h.source r' (List.mem_cons_of_mem _ hr')
  length r' hr' := by
    rcases List.mem_cons.1 hr' with rfl | hr'
    · exact length_timeText ctime
    · exact h.length r' (List.mem_cons_of_mem _ hr')

end

/-- What holds between any two steps. -/
structure Inv (s : Server) : Prop where
  distinct : Distinct s.received s.settled s.traced
  held : s.state = .responseHandler →
    ∃ d, s.received.getLast? = some d ∧ s.req.addr = d.addr ∧ s.req.buf = overlay d.data d.stale
  unread : ∀ r ∈ s.requests, r.text = []
  req : s.req.buf.length = msgSize
  datagram : ∀ d ∈ s.received, d.stale.length = msgSize ∧ d.data.length ≤ msgSize
  seen : ∀ a ∈ s.replies, a.request.origin < a.seen ∧ a.seen ≤ s.received.length

section
variable {cap : Capacity} {s s' : Server}

theorem settled_of_ne (h : s.state ≠ .responseHandler) : s.settled = s.received.length := if_neg h

theorem settled_of_eq (h : s.state = .responseHandler) : s.settled = s.received.length - 1 := if_pos h

theorem settled_le : s.settled ≤ s.received.length := by
  unfold Server.settled
  split <;> omega

theorem inv_start : Inv start where
  distinct := ⟨List.nodup_nil, fun _ h => absurd h List.not_mem_nil, fun _ h => absurd h List.not_mem_nil,
    fun _ h => absurd h List.not_mem_nil⟩
  held h := nomatch h
  unread _ h := absurd h List.not_mem_nil
  req := List.length_replicate
  datagram _ h := absurd h List.not_mem_nil
  seen _ h := absurd h List.not_mem_nil

/-- A message under way fills the buffer. -/
theorem length_buf (hi : Inv s) {r : Request} (hr : r ∈ s.traced) : r.msg.buf.length = msgSize := by
  obtain ⟨d, hd⟩ := hi.distinct.source r hr
  obtain ⟨hstale, hdata⟩ := hi.datagram d (List.mem_of_getElem? hd.get)
  have htext := hi.distinct.length r hr
  have hinner : (overlay d.data d.stale).length = msgSize := by
    rw [length_overlay (by omega), hstale]
  rw [hd.buf, length_overlay (by omega), hinner]

/-- Requests do not get lost in a step, and only the one received last joins those under way. -/
theorem distinct_step {e : Event} (hi : Inv s) (h : step cap s e = some s') :
    Distinct s'.received s'.settled s'.traced := by
  cases step_effect h with
  | arrived addr data state state' req length received requests traced =>
    have hne : s.state ≠ .responseHandler := ne_responseHandler_of_recv state
    have hsettled : s'.settled = s.settled := by
      rw [settled_of_eq state', settled_of_ne hne, received, List.length_append]
      rfl
    rw [hsettled, received, traced]
    exact hi.distinct.concat _
  | forwarded state state' room req received requests traced =>
    obtain ⟨d, hlast, haddr, hbuf⟩ := hi.held state
    have hpos : 0 < s.received.length := List.length_pos_of_mem (List.mem_of_getLast? hlast)
    have hsettled : s'.settled = s.settled + 1 := by
      rw [settled_of_ne (ne_responseHandler_of_recv state'), settled_of_eq state, received]
      omega
    -- the request forwarded is the datagram received last
    rw [hsettled, received]
    refine (hi.distinct.cons (settled_of_eq state).symm ⟨?_, haddr, ?_⟩ (Nat.zero_le _)).perm traced
    · rw [← hlast, List.getLast?_eq_getElem?]
    · exact hbuf
  | dropped state state' full req received requests traced =>
    rw [settled_of_ne (ne_responseHandler_of_recv state'), received, traced]
    exact hi.distinct.mono settled_le
  | stamped r ctime rest state req received mem requests traced traced' =>
    have hsettled : s'.settled = s.settled := by
      rw [Server.settled, Server.settled, state, received]
    rw [hsettled, received]
    exact ((hi.distinct.perm traced.symm).stamp (hi.unread r mem) ctime).perm traced'
  | moved state req received requests traced =>
    have hsettled : s'.settled = s.settled := by
      rcases state with heq | ⟨hne, hne'⟩
      · rw [Server.settled, Server.settled, heq, received]
      · rw [settled_of_ne hne, settled_of_ne hne', received]
    rw [hsettled, received]
    exact hi.distinct.perm traced

/-- While the server is about to forward it holds what it received last. -/
theorem held_step {e : Event} (hi : Inv s) (h : step cap s e = some s') (hc : s'.state = .responseHandler) :
    ∃ d, s'.received.getLast? = some d ∧ s'.req.addr = d.addr ∧ s'.req.buf = overlay d.data d.stale := by
  cases step_effect h with
  | arrived addr data state state' req length received requests traced =>
    refine ⟨⟨addr, data, s.req.buf⟩, ?_, ?_, ?_⟩
    · rw [received, List.getLast?_concat]
    · rw [req]
    · rw [req]
  | forwarded state state' room req received requests traced =>
    exact absurd hc (ne_responseHandler_of_recv state')
  | dropped state state' full req received requests traced =>
    exact absurd hc (ne_responseHandler_of_recv state')
  | stamped r ctime rest state req received mem requests traced traced' =>
    rw [received, req]
    exact hi.held (state ▸ hc)
  | moved state req received requests traced =>
    have hstate : s.state = .responseHandler := by
      rcases state with heq | ⟨-, hne'⟩
      · rw [← heq]
        exact hc
      · exact absurd hc hne'
    rcases req with heq | ⟨hne', -⟩
    · rw [heq, received]
      exact hi.held hstate
    · exact absurd hc hne'

theorem unread_step {e : Event} (hi : Inv s) (h : step cap s e = some s') : ∀ r ∈ s'.requests, r.text = [] := by
  cases step_effect h with
  | arrived addr data state state' req length received requests traced =>
    rw [requests]
    exact hi.unread
  | forwarded state state' room req received requests traced =>
    intro r hr
    rw [requests] at hr
    rcases List.mem_append.1 hr with hr | hr
    · exact hi.unread r hr
    · rw [List.mem_singleton.1 hr]
  | dropped state state' full req received requests traced =>
    rw [requests]
    exact hi.unread
  | stamped r ctime rest state req received mem requests traced traced' =>
    exact fun r' hr' => hi.unread r' (requests hr')
  | moved state req received requests traced =>
    rw [requests]
    exact hi.unread

theorem req_step {e : Event} (hi : Inv s) (h : step cap s e = some s') : s'.req.buf.length = msgSize := by
  have hreq := hi.req
  cases step_effect h with
  | arrived addr data state state' req length received requests traced =>
    rw [req]
    show (overlay data s.req.buf).length = msgSize
    rw [length_overlay (by omega), hreq]
  | forwarded state state' room req received requests traced => rw [req, hreq]
  | dropped state state' full req received requests traced => rw [req, hreq]
  | stamped r ctime rest state req received mem requests traced traced' => rw [req, hreq]
  | moved state req received requests traced =>
    rcases req with heq | ⟨-, r, hr, heq⟩
    · rw [heq, hreq]
    · rw [heq]
      exact length_buf hi hr

theorem datagram_step {e : Event} (hi : Inv s) (h : step cap s e = some s') :
    ∀ d ∈ s'.received, d.stale.length = msgSize ∧ d.data.length ≤ msgSize := by
  cases step_effect h with
  | arrived addr data state state' req length received requests traced =>
    intro d hd
    rw [received] at hd
    rcases List.mem_append.1 hd with hd | hd
    · exact hi.datagram d hd
    · rw [List.mem_singleton.1 hd]
      exact ⟨hi.req, length⟩
  | forwarded state state' room req received requests traced =>
    rw [received]
    exact hi.datagram
  | dropped state state' full req received requests traced =>
    rw [received]
    exact hi.datagram
  | stamped r ctime rest state req received mem requests traced traced' =>
    rw [received]
    exact hi.datagram
  | moved state req received requests traced =>
    rw [received]
    exact hi.datagram

/-- Nothing received is forgotten. -/
theorem received_length_le {e : Event} (h : step cap s e = some s') : s.received.length ≤ s'.received.length := by
  cases step_effect h with
  | arrived addr data state state' req length received requests traced =>
    rw [received, List.length_append]
    omega
  | forwarded state state' room req received requests traced => rw [received]
  | dropped state state' full req received requests traced => rw [received]
  | stamped r ctime rest state req received mem requests traced traced' => rw [received]
  | moved state req received requests traced => rw [received]

theorem seen_step {e : Event} (hi : Inv s) (h : step cap s e = some s') :
    ∀ a ∈ s'.replies, a.request.origin < a.seen ∧ a.seen ≤ s'.received.length := by
  have hle := received_length_le h
  intro a ha
  rcases step_replies h with heq | ⟨hstate, r, hr, -, heq⟩
  · rw [heq] at ha
    exact ⟨(hi.seen a ha).1, (hi.seen a ha).2.trans hle⟩
  · rw [heq] at ha
    rcases List.mem_append.1 ha with ha | ha
    · exact ⟨(hi.seen a ha).1, (hi.seen a ha).2.trans hle⟩
    · rw [List.mem_singleton.1 ha]
      exact ⟨(hi.distinct.lt r (mem_traced.2 (Or.inr (Or.inr (Or.inl hr))))).trans_le settled_le, hle⟩

/-- **Step.** -/
theorem inv_step {e : Event} (hi : Inv s) (h : step cap s e = some s') : Inv s' where
  distinct := distinct_step hi h
  held := held_step hi h
  unread := unread_step hi h
  req := req_step hi h
  datagram := datagram_step hi h
  seen := seen_step hi h

/-- **Invariant** of every run. -/
theorem inv_server {events : List Event} (h : server cap events = some s) : Inv s :=
  run_inv (fun _ s => Inv s) inv_start (fun _ _ _ _ hi hs => inv_step hi hs) h

end

/-! ## Replies -/

/-- Replies go to datagrams received before, each to one of its own and to the address it came from. -/
structure Answers (s : Server) (f : Fin s.replies.length → Fin s.received.length) : Prop where
  injective : Function.Injective f
  addr : ∀ i, s.received[f i].addr = s.replies[i].request.msg.addr
  earlier : ∀ i, f i < s.replies[i].seen

section
variable {s : Server}

theorem mem_traced_of_reply {a : Reply} (h : a ∈ s.replies) : a.request ∈ s.traced :=
  mem_traced.2 (Or.inr (Or.inr (Or.inr (List.mem_map_of_mem h))))

theorem nodup_origin_replies (hi : Inv s) : (s.replies.map fun a => a.request.origin).Nodup := by
  have hsub : ((s.replies.map Reply.request).map Request.origin).Sublist (s.traced.map Request.origin) :=
    (List.sublist_append_right _ _).map _
  rw [List.map_map] at hsub
  exact hsub.nodup hi.distinct.nodup

theorem exists_answers (hi : Inv s) : ∃ f, Answers s f := by
  have hlt : ∀ i : Fin s.replies.length, s.replies[i].request.origin < s.received.length := by
    intro i
    have h := hi.seen s.replies[i] (List.getElem_mem _)
    omega
  refine ⟨fun i => ⟨s.replies[i].request.origin, hlt i⟩, fun i j hij => ?_, fun i => ?_, fun i => ?_⟩
  · have horigin : s.replies[i].request.origin = s.replies[j].request.origin := congrArg Fin.val hij
    have hi' : i < (s.replies.map fun a => a.request.origin).length := by
      rw [List.length_map]
      exact i.isLt
    have hj' : j < (s.replies.map fun a => a.request.origin).length := by
      rw [List.length_map]
      exact j.isLt
    have hget : (s.replies.map fun a => a.request.origin)[i.val] =
        (s.replies.map fun a => a.request.origin)[j.val] := by
      rw [List.getElem_map, List.getElem_map]
      exact horigin
    exact Fin.ext ((List.Nodup.getElem_inj_iff (nodup_origin_replies hi)).1 hget)
  · obtain ⟨d, hd⟩ := hi.distinct.source _ (mem_traced_of_reply (List.getElem_mem i.isLt))
    have hget := (List.getElem?_eq_some_iff.1 hd.get).2
    have hlti := hlt i
    show s.received[s.replies[i].request.origin].addr = s.replies[i.val].request.msg.addr
    rw [hd.addr]
    exact congrArg Datagram.addr hget
  · exact (hi.seen _ (List.getElem_mem _)).1

/-- No address is sent more than it has sent. -/
theorem count_replies_le (hi : Inv s) (a : SockaddrIn) :
    (s.replies.map fun r => r.request.msg.addr).count a ≤ (s.received.map Datagram.addr).count a := by
  -- the address of a reply is that of the datagram with the number of its request
  have hsome : Function.Injective (some : SockaddrIn → Option SockaddrIn) := fun _ _ h => Option.some.inj h
  have hreplies : (s.replies.map fun r => r.request.msg.addr).map some =
      (s.replies.map fun r => r.request.origin).map fun n => s.received[n]?.map Datagram.addr := by
    rw [List.map_map, List.map_map]
    apply List.map_congr_left
    intro r hr
    obtain ⟨d, hd⟩ := hi.distinct.source _ (mem_traced_of_reply hr)
    show some r.request.msg.addr = s.received[r.request.origin]?.map Datagram.addr
    rw [hd.get, hd.addr]
    rfl
  have hreceived : (s.received.map Datagram.addr).map some =
      (List.range s.received.length).map fun n => s.received[n]?.map Datagram.addr := by
    apply List.ext_getElem
    · simp
    · intro n hn _
      simp at hn
      simp [hn]
  have hsub : (s.replies.map fun r => r.request.origin).Subperm (List.range s.received.length) := by
    refine List.subperm_of_subset (nodup_origin_replies hi) fun n hn => ?_
    obtain ⟨r, hr, rfl⟩ := List.mem_map.1 hn
    have h := hi.seen r hr
    exact List.mem_range.2 (by omega)
  rw [← List.count_map_of_injective _ _ hsome, ← List.count_map_of_injective _ _ hsome, hreplies, hreceived]
  obtain ⟨l, hperm, hsub⟩ := hsub
  have hmap : ((s.replies.map fun r => r.request.origin).map fun n => s.received[n]?.map Datagram.addr).Subperm
      ((List.range s.received.length).map fun n => s.received[n]?.map Datagram.addr) :=
    ⟨_, hperm.map _, hsub.map _⟩
  exact hmap.count_le _

end

/-- **Replies.**  In every state reached, no datagram is answered twice, and every reply goes to the
address of a datagram received before it was sent. -/
theorem replies_injective {cap : Capacity} {events : List Event} {s : Server}
    (h : server cap events = some s) :
    (∃ f, Answers s f) ∧ ∀ a, (s.replies.map fun r => r.request.msg.addr).count a ≤
      (s.received.map Datagram.addr).count a :=
  ⟨exists_answers (inv_server h), count_replies_le (inv_server h)⟩

/-- Two clients ask, and the worker of the second is faster. -/
theorem replies_injective_overtaken :
    ∃ s, server ⟨4, 4⟩
        [.turn (.datagram ⟨1, 10⟩ [7]), .turn .wouldBlock, .turn (.datagram ⟨2, 20⟩ [8, 9]), .turn .wouldBlock,
          .take 0 [65], .take 1 [66], .put 1, .put 0, .turn .wouldBlock, .turn .wouldBlock] = some s ∧
      (s.replies.map fun r => r.request.msg.addr) = [⟨2, 20⟩] ∧ ∃ f, Answers s f := by
  have haddr : (server ⟨4, 4⟩
      [.turn (.datagram ⟨1, 10⟩ [7]), .turn .wouldBlock, .turn (.datagram ⟨2, 20⟩ [8, 9]), .turn .wouldBlock,
        .take 0 [65], .take 1 [66], .put 1, .put 0, .turn .wouldBlock, .turn .wouldBlock]).map
      (fun s => s.replies.map fun r => r.request.msg.addr) = some [⟨2, 20⟩] := by decide
  obtain ⟨s, hs, haddr⟩ := Option.map_eq_some_iff.1 haddr
  exact ⟨s, hs, haddr, (replies_injective hs).1⟩

/-! ## Lost requests -/

/-- Datagram `i` is with the server, in a queue, with a worker, or answered. -/
def Accounted (s : Server) (i : Nat) : Prop :=
  (s.state = .responseHandler ∧ i + 1 = s.received.length) ∨ (∃ r ∈ s.requests, r.origin = i) ∨
    (∃ w r, s.workers w = some r ∧ r.origin = i) ∨ (∃ r ∈ s.responses, r.origin = i) ∨
    ∃ a ∈ s.replies, a.request.origin = i

/-- Every datagram received is accounted for. -/
def NoLoss (s : Server) : Prop := ∀ i < s.received.length, Accounted s i

section
variable {cap : Capacity} {s s' : Server}

theorem mem_working {r : Request} : r ∈ s.working ↔ ∃ w, s.workers w = some r := by
  rw [Server.working, List.mem_append, Option.mem_toList, Option.mem_toList, Fin.exists_fin_two]

theorem accounted_iff {i : Nat} :
    Accounted s i ↔ (s.state = .responseHandler ∧ i + 1 = s.received.length) ∨
      ∃ r ∈ s.traced, r.origin = i := by
  refine or_congr_right ?_
  constructor
  · rintro (⟨r, hr, hi⟩ | ⟨w, r, hr, hi⟩ | ⟨r, hr, hi⟩ | ⟨a, ha, hi⟩)
    · exact ⟨r, mem_traced.2 (Or.inl hr), hi⟩
    · exact ⟨r, mem_traced.2 (Or.inr (Or.inl (mem_working.2 ⟨w, hr⟩))), hi⟩
    · exact ⟨r, mem_traced.2 (Or.inr (Or.inr (Or.inl hr))), hi⟩
    · exact ⟨a.request, mem_traced_of_reply ha, hi⟩
  · rintro ⟨r, hr, hi⟩
    rcases mem_traced.1 hr with hr | hr | hr | hr
    · exact Or.inl ⟨r, hr, hi⟩
    · obtain ⟨w, hw⟩ := mem_working.1 hr
      exact Or.inr (Or.inl ⟨w, r, hw, hi⟩)
    · exact Or.inr (Or.inr (Or.inl ⟨r, hr, hi⟩))
    · obtain ⟨a, ha, rfl⟩ := List.mem_map.1 hr
      exact Or.inr (Or.inr (Or.inr ⟨a, ha, hi⟩))

/-- A message that is under way stays so. -/
theorem exists_traced {e : Event} (h : step cap s e = some s') {i : Nat}
    (hi : ∃ r ∈ s.traced, r.origin = i) : ∃ r ∈ s'.traced, r.origin = i := by
  obtain ⟨r, hr, hi⟩ := hi
  cases step_effect h with
  | arrived addr data state state' req length received requests traced =>
    exact ⟨r, traced ▸ hr, hi⟩
  | forwarded state state' room req received requests traced =>
    exact ⟨r, traced.mem_iff.2 (List.mem_cons_of_mem _ hr), hi⟩
  | dropped state state' full req received requests traced =>
    exact ⟨r, traced ▸ hr, hi⟩
  | stamped r' ctime rest state req received mem requests traced traced' =>
    rcases List.mem_cons.1 (traced.mem_iff.1 hr) with rfl | hr
    · exact ⟨r.stamp ctime, traced'.mem_iff.2 List.mem_cons_self, hi⟩
    · exact ⟨r, traced'.mem_iff.2 (List.mem_cons_of_mem _ hr), hi⟩
  | moved state req received requests traced =>
    exact ⟨r, traced.mem_iff.2 hr, hi⟩

/-- The server's turn that forwards `req`. -/
def Forwards (s : Server) (e : Event) : Prop :=
  (∃ result, e = .turn result) ∧ s.state = .responseHandler

theorem state_of_forwards {e : Event} (hf : Forwards s e) (h : step cap s e = some s') :
    s'.state = .recv := by
  obtain ⟨⟨result, rfl⟩, hstate⟩ := hf
  change serverTurn cap s result = some s' at h
  unfold serverTurn at h
  rw [hstate] at h
  split at h
  · simp only at h
    split at h <;> rw [← Option.some.inj h]
  · exact absurd h.symm (Option.some_ne_none _)

/-- The state is that of the server. -/
theorem state_of_not_forwards {e : Event} (hf : ¬ Forwards s e) (h : step cap s e = some s')
    (hstate : s.state = .responseHandler) : s'.state = .responseHandler := by
  cases e with
  | turn result => exact absurd ⟨⟨result, rfl⟩, hstate⟩ hf
  | take w ctime =>
    change workerTake s w ctime = some s' at h
    unfold workerTake at h
    split at h
    · exact absurd h.symm (Option.some_ne_none _)
    · obtain ⟨_, -, rfl⟩ := Option.map_eq_some_iff.1 h
      exact hstate
  | put w =>
    obtain ⟨r, -, h⟩ := Option.bind_eq_some_iff.1 h
    obtain ⟨_, -, rfl⟩ := Option.map_eq_some_iff.1 h
    exact hstate

/-- **Step.**  A forwarding turn loses its request if there is no room; nothing else loses any. -/
theorem noLoss_step {e : Event} (hi : Inv s) (hn : NoLoss s) (h : step cap s e = some s') :
    NoLoss s' ↔ (Forwards s e → s.requests.length < cap.requests) := by
  have hkeep : ∀ i, (∃ r ∈ s.traced, r.origin = i) → Accounted s' i :=
    fun i hr => accounted_iff.2 (Or.inr (exists_traced h hr))
  by_cases hf : Forwards s e
  · have hrecv := state_of_forwards hf h
    have hne : s'.state ≠ .responseHandler := ne_responseHandler_of_recv hrecv
    cases step_effect h with
    | arrived addr data state state' req length received requests traced =>
      exact absurd state' hne
    | forwarded state state' room req received requests traced =>
      refine ⟨fun _ _ => room, fun _ i hlt => ?_⟩
      rw [received] at hlt
      rcases accounted_iff.1 (hn i hlt) with ⟨-, hlast⟩ | hr
      · refine accounted_iff.2 (Or.inr ⟨_, traced.mem_iff.2 List.mem_cons_self, ?_⟩)
        show s.received.length - 1 = i
        omega
      · exact hkeep i hr
    | dropped state state' full req received requests traced =>
      refine ⟨fun hn' => ?_, fun hroom => absurd (hroom hf) (by omega)⟩
      -- the datagram received last has not been anywhere else
      obtain ⟨d, hlast, -⟩ := hi.held state
      have hpos : 0 < s.received.length := List.length_pos_of_mem (List.mem_of_getLast? hlast)
      have hlt : s.received.length - 1 < s'.received.length := by
        rw [received]
        omega
      rcases accounted_iff.1 (hn' _ hlt) with ⟨hc, -⟩ | ⟨r, hr, horigin⟩
      · exact absurd hc hne
      · have hlt := hi.distinct.lt r (traced ▸ hr)
        rw [settled_of_eq state] at hlt
        omega
    | stamped r ctime rest state req received mem requests traced traced' =>
      exact absurd (state.trans hf.2) hne
    | moved state req received requests traced =>
      rcases state with heq | ⟨hne', -⟩
      · exact absurd (heq.trans hf.2) hne
      · exact absurd hf.2 hne'
  · refine ⟨fun _ hc => absurd hc hf, fun _ i hlt => ?_⟩
    have hstay : s'.received = s.received → Accounted s' i := by
      intro received
      rw [received] at hlt
      rcases accounted_iff.1 (hn i hlt) with ⟨hstate, hlast⟩ | hr
      · exact accounted_iff.2 (Or.inl ⟨state_of_not_forwards hf h hstate, by rw [received]; exact hlast⟩)
      · exact hkeep i hr
    cases step_effect h with
    | arrived addr data state state' req length received requests traced =>
      rw [received, List.length_append, List.length_singleton] at hlt
      by_cases hlast : i = s.received.length
      · refine accounted_iff.2 (Or.inl ⟨state', ?_⟩)
        rw [received, hlast, List.length_append]
        rfl
      · rcases accounted_iff.1 (hn i (by omega)) with ⟨hstate, -⟩ | hr
        · rw [state] at hstate
          exact nomatch hstate
        · exact hkeep i hr
    | forwarded state state' room req received requests traced => exact hstay received
    | dropped state state' full req received requests traced => exact hstay received
    | stamped r ctime rest state req received mem requests traced traced' => exact hstay received
    | moved state req received requests traced => exact hstay received

end

/-- **No lost request.**  In every state of a run each datagram received is accounted for, if and only
if the queue of requests has room whenever the server forwards one. -/
theorem noLoss_iff (cap : Capacity) (events : List Event) :
    (∀ pre s, pre <+: events → server cap pre = some s → NoLoss s) ↔
      ∀ pre e s, pre ++ [e] <+: events → server cap pre = some s → s.running = true →
        Forwards s e → s.requests.length < cap.requests := by
  refine run_forall_iff (fun i hi => absurd hi (Nat.not_lt_zero i)) (fun s e hnone hrunning hf => ?_) ?_
  · -- a server that runs can always take its turn
    obtain ⟨⟨result, rfl⟩, hstate⟩ := hf
    change serverTurn cap s result = none at hnone
    unfold serverTurn at hnone
    rw [if_pos hrunning, hstate] at hnone
    simp only at hnone
    split at hnone
    · exact absurd hnone (Option.some_ne_none _)
    · exact absurd hnone (Option.some_ne_none _)
  · intro pre e s s' hs hn hstep
    refine (noLoss_step (inv_server hs) hn hstep).trans ⟨fun h _ => h, fun h hf => h ?_ hf⟩
    obtain ⟨⟨result, rfl⟩, -⟩ := hf
    change serverTurn cap s result = some s' at hstep
    unfold serverTurn at hstep
    split at hstep
    · next hrunning => exact hrunning
    · exact absurd hstep.symm (Option.some_ne_none _)

/-- The queue holds one request, and the workers have not come to it when the second arrives. -/
theorem noLoss_full :
    ¬ ∀ pre s, pre <+: [.turn (.datagram ⟨1, 10⟩ [7]), .turn .wouldBlock, .turn (.datagram ⟨2, 20⟩ [8]),
      .turn .wouldBlock] → server ⟨1, 1⟩ pre = some s → NoLoss s := by
  intro h
  rcases h _ _ (List.prefix_refl _) rfl 1 (by decide) with
    ⟨hc, -⟩ | ⟨r, hr, ho⟩ | ⟨w, r, hw, -⟩ | ⟨r, hr, -⟩ | ⟨a, ha, -⟩
  · exact nomatch hc
  · obtain rfl := List.mem_singleton.1 hr
    exact absurd ho (by decide)
  · exact nomatch hw
  · exact absurd hr List.not_mem_nil
  · exact absurd ha List.not_mem_nil

end Eltex.UdpClientServer
