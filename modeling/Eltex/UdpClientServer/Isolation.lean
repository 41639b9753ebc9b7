import Eltex.UdpClientServer.Requests

/-!
# Whose bytes a reply holds

`sendto` sends the whole of `req.buf`.  The datagram was received at its front,
over what was there before, and the worker has printed the time over that.  What
neither of them reaches (`leftover`) is left from earlier datagrams and replies,
of whatever client.

    req.buf    time text ........ datagram ........ leftover ........

`reply_isolated_iff`: a reply is the time over the datagram over zeros just when
its leftover is zero, and in two runs that differ in what other clients send, a
client gets the same bytes just when it gets the same leftovers.
-/

namespace Eltex.UdpClientServer

open MsgQueue Runs

/-- The time over the datagram, in a buffer of zeros. -/
def isolated (r : Request) (d : Datagram) : List UInt8 :=
  overlay r.text (overlay d.data (List.replicate msgSize 0))

/-- What stood in `req.buf` before, as far as it is in the reply. -/
def leftover (r : Request) (d : Datagram) : List UInt8 :=
  d.stale.drop (max d.data.length r.text.length)

theorem drop_overlay (front back : List UInt8) (n : Nat) :
    (overlay front back).drop n = front.drop n ++ back.drop (max front.length n) := by
  rw [overlay, List.drop_append, List.drop_drop]
  congr 2
  omega

/-- The time and the datagram in front, two buffers differ only in what is left over. -/
theorem overlay_overlay_eq_iff {text data stale stale' : List UInt8} :
    overlay text (overlay data stale) = overlay text (overlay data stale') ↔
      stale.drop (max data.length text.length) = stale'.drop (max data.length text.length) := by
  show text ++ (overlay data stale).drop text.length = text ++ (overlay data stale').drop text.length ↔ _
  rw [List.append_right_inj, drop_overlay, drop_overlay, List.append_right_inj]

/-! ## What a client can see -/

section
variable (a : SockaddrIn)

/-- An event without what other clients send. -/
def hideEvent : Event → Event
  | .turn (.datagram addr data) => .turn (.datagram addr (if addr = a then data else []))
  | e => e

def hideRequest (r : Request) : Request := { r with msg := { r.msg with buf := [] } }

def hideDatagram (d : Datagram) : Datagram := ⟨d.addr, if d.addr = a then d.data else [], []⟩

def hideReply (r : Reply) : Reply := { r with request := hideRequest r.request }

/-- A state without the contents of buffers and of what other clients have sent. -/
def hide (s : Server) : Server :=
  { s with
    req := { s.req with buf := [] }
    requests := s.requests.map hideRequest
    responses := s.responses.map hideRequest
    workers := fun w => (s.workers w).map hideRequest
    received := s.received.map (hideDatagram a)
    replies := s.replies.map hideReply }

/-- The bytes sent to `a`, reply after reply. -/
def repliesTo (s : Server) : List (List UInt8) :=
  (s.replies.filter fun r => r.request.msg.addr = a).map fun r => r.request.msg.buf

/-- The leftovers sent to `a`. -/
def leftoversTo (s : Server) : List (Option (List UInt8)) :=
  (s.replies.filter fun r => r.request.msg.addr = a).map fun r =>
    s.received[r.request.origin]?.map (leftover r.request)

end

section
variable {a : SockaddrIn} {cap : Capacity} {s s' : Server}

theorem type_hideRequest (r : Request) : (hideRequest r).type = r.type := rfl

theorem map_hideRequest (l : List Request) : (l.map hideRequest).map hideRequest = l.map hideRequest := by
  rw [List.map_map]
  rfl

theorem map_hideReply (l : List Reply) : (l.map hideReply).map hideReply = l.map hideReply := by
  rw [List.map_map]
  rfl

theorem hideDatagram_hideDatagram (d : Datagram) :
    hideDatagram a (hideDatagram a d) = hideDatagram a d := by
  unfold hideDatagram
  by_cases h : d.addr = a
  · simp only [if_pos h]
  · simp only [if_neg h]

theorem map_hideDatagram (l : List Datagram) :
    (l.map (hideDatagram a)).map (hideDatagram a) = l.map (hideDatagram a) := by
  rw [List.map_map]
  exact List.map_congr_left fun d _ => hideDatagram_hideDatagram d

/-- States that agree in what can be seen. -/
theorem hide_ext {t : Server} (hrunning : s.running = t.running) (hstate : s.state = t.state)
    (htype : s.req.type = t.req.type) (haddr : s.req.addr = t.req.addr)
    (hrequests : s.requests.map hideRequest = t.requests.map hideRequest)
    (hresponses : s.responses.map hideRequest = t.responses.map hideRequest)
    (hworkers : ∀ w, (s.workers w).map hideRequest = (t.workers w).map hideRequest)
    (hreceived : s.received.map (hideDatagram a) = t.received.map (hideDatagram a))
    (hreplies : s.replies.map hideReply = t.replies.map hideReply) : hide a s = hide a t := by
  show Server.mk s.running s.state ⟨s.req.type, s.req.addr, []⟩ _ _
      (fun w => (s.workers w).map hideRequest) _ _ =
    Server.mk t.running t.state ⟨t.req.type, t.req.addr, []⟩ _ _
      (fun w => (t.workers w).map hideRequest) _ _
  rw [hrunning, hstate, htype, haddr, hrequests, hresponses, hreceived, hreplies, funext hworkers]

theorem map_workers (a : SockaddrIn) (s : Server) (w : Fin maxThreads) :
    ((hide a s).workers w).map hideRequest = (s.workers w).map hideRequest := by
  show ((s.workers w).map hideRequest).map hideRequest = _
  rw [Option.map_map]
  rfl

theorem map_update {f g : Fin maxThreads → Option Request} {w : Fin maxThreads} {r r' : Option Request}
    (h : ∀ v, (f v).map hideRequest = (g v).map hideRequest) (hr : r.map hideRequest = r'.map hideRequest)
    (v : Fin maxThreads) :
    (Function.update f w r v).map hideRequest = (Function.update g w r' v).map hideRequest := by
  by_cases hv : v = w
  · rw [hv, Function.update_self, Function.update_self, hr]
  · rw [Function.update_of_ne hv, Function.update_of_ne hv, h]

theorem hideDatagram_take (addr : SockaddrIn) (data stale stale' : List UInt8) :
    hideDatagram a ⟨addr, (if addr = a then data else []).take msgSize, stale⟩ =
      hideDatagram a ⟨addr, data.take msgSize, stale'⟩ := by
  unfold hideDatagram
  by_cases h : addr = a
  · simp only [if_pos h]
  · simp only [if_neg h]

/-- A state with nothing to hide but its own request. -/
theorem hide_hidden (running : Bool) (state : ServerState) {req req' : Msgbuf} (htype : req'.type = req.type)
    (haddr : req'.addr = req.addr) :
    hide a { hide a s with running := running, state := state, req := req' } =
      hide a { s with running := running, state := state, req := req } :=
  hide_ext rfl rfl htype haddr (map_hideRequest _) (map_hideRequest _) (map_workers a s)
    (map_hideDatagram _) (map_hideReply _)

theorem hide_serverTurn (result : Recvfrom) :
    (step cap (hide a s) (hideEvent a (.turn result))).map (hide a) =
      (serverTurn cap s result).map (hide a) := by
  have hevent : ∃ result', hideEvent a (.turn result) = .turn result' := by
    cases result with
    | datagram addr data => exact ⟨_, rfl⟩
    | wouldBlock => exact ⟨_, rfl⟩
    | failed => exact ⟨_, rfl⟩
  obtain ⟨result', hresult⟩ := hevent
  rw [hresult]
  show (serverTurn cap (hide a s) result').map (hide a) = _
  unfold serverTurn
  have hrunning : (hide a s).running = s.running := rfl
  have hstate : (hide a s).state = s.state := rfl
  rw [hrunning, hstate]
  split
  · cases s.state with
    | recv =>
      cases result with
      | datagram addr data =>
        obtain rfl := Event.turn.inj hresult
        apply congrArg some
        refine hide_ext rfl rfl rfl rfl (map_hideRequest _) (map_hideRequest _) (map_workers a s) ?_
          (map_hideReply _)
        show (s.received.map (hideDatagram a) ++ [_]).map (hideDatagram a) =
          (s.received ++ [_]).map (hideDatagram a)
        rw [List.map_append, List.map_append, map_hideDatagram, List.map_singleton, List.map_singleton,
          hideDatagram_take]
      | wouldBlock =>
        obtain rfl := Event.turn.inj hresult
        apply congrArg some
        exact hide_hidden _ _ rfl rfl
      | failed =>
        obtain rfl := Event.turn.inj hresult
        apply congrArg some
        exact hide_hidden _ _ rfl rfl
    | send =>
      have hresponses : (hide a s).responses = s.responses.map hideRequest := rfl
      dsimp only
      rw [hresponses, recv_map type_hideRequest]
      cases recv Request.type 1 s.responses with
      | none =>
        apply congrArg some
        exact hide_hidden _ _ rfl rfl
      | some x =>
        apply congrArg some
        refine hide_ext rfl rfl rfl rfl (map_hideRequest _) (map_hideRequest _) (map_workers a s)
          (map_hideDatagram _) ?_
        show (s.replies.map hideReply ++ [_]).map hideReply = (s.replies ++ [_]).map hideReply
        rw [List.map_append, List.map_append, map_hideReply]
        show _ ++ [Reply.mk _ (s.received.map (hideDatagram a)).length] = _
        rw [List.length_map]
        rfl
    | responseHandler =>
      -- the request built from the hidden state is the hidden request
      have hsend : send cap.requests
          ⟨{ (hide a s).req with type := 1 }, (hide a s).received.length - 1, []⟩ (hide a s).requests =
          (send cap.requests ⟨{ s.req with type := 1 }, s.received.length - 1, []⟩ s.requests).map
            (List.map hideRequest) := by
        have hlength : (hide a s).received.length = s.received.length := List.length_map _
        rw [hlength, ← send_map]
        rfl
      dsimp only
      rw [hsend]
      cases send cap.requests ⟨{ s.req with type := 1 }, s.received.length - 1, []⟩ s.requests with
      | none =>
        apply congrArg some
        exact hide_hidden _ _ rfl rfl
      | some requests =>
        apply congrArg some
        exact hide_ext rfl rfl rfl rfl (map_hideRequest _) (map_hideRequest _) (map_workers a s)
          (map_hideDatagram _) (map_hideReply _)
  · rfl

theorem hide_workerTake (w : Fin maxThreads) (ctime : List UInt8) :
    (workerTake (hide a s) w ctime).map (hide a) = (workerTake s w ctime).map (hide a) := by
  have hworker : (hide a s).workers w = (s.workers w).map hideRequest := rfl
  have hrequests : (hide a s).requests = s.requests.map hideRequest := rfl
  unfold workerTake
  rw [hworker, hrequests, recv_map type_hideRequest]
  cases s.workers w with
  | some r => rfl
  | none =>
    simp only [Option.map_none, Option.map_map]
    congr 1
    funext x
    exact hide_ext rfl rfl rfl rfl (map_hideRequest _) (map_hideRequest _) (map_update (map_workers a s) rfl)
      (map_hideDatagram _) (map_hideReply _)

theorem hide_workerPut (w : Fin maxThreads) :
    (workerPut cap (hide a s) w).map (hide a) = (workerPut cap s w).map (hide a) := by
  have hworker : (hide a s).workers w = (s.workers w).map hideRequest := rfl
  have hresponses : (hide a s).responses = s.responses.map hideRequest := rfl
  unfold workerPut
  rw [hworker, hresponses]
  cases s.workers w with
  | none => rfl
  | some r =>
    simp only [Option.map_some, Option.bind_some, send_map, Option.map_map]
    congr 1
    funext x
    exact hide_ext rfl rfl rfl rfl (map_hideRequest _) (map_hideRequest _) (map_update (map_workers a s) rfl)
      (map_hideDatagram _) (map_hideReply _)

/-- **What other clients send does not decide what else happens.** -/
theorem hide_step (e : Event) :
    (step cap (hide a s) (hideEvent a e)).map (hide a) = (step cap s e).map (hide a) := by
  cases e with
  | turn result => exact hide_serverTurn result
  | take w ctime => exact hide_workerTake w ctime
  | put w => exact hide_workerPut w

theorem hide_server {events events' : List Event} (h : events'.map (hideEvent a) = events.map (hideEvent a)) :
    (server cap events').map (hide a) = (server cap events).map (hide a) := by
  refine @run_visible _ _ _ _ (step cap) (hide a) (hideEvent a) (fun s s' e e' hs he => ?_) _ _ _ _ rfl h
  rw [← hide_step, hs, he, hide_step]

/-! ## The bytes of a reply -/

/-- The bytes of a reply, and the bytes left over in it, are what the other reply has. -/
theorem buf_eq_iff {received received' : List Datagram} {r r' : Request} {d d' : Datagram}
    (hd : FromDatagram received r d) (hd' : FromDatagram received' r' d')
    (hreceived : received'.map (hideDatagram a) = received.map (hideDatagram a))
    (hr : hideRequest r' = hideRequest r) (haddr : r.msg.addr = a) :
    r'.msg.buf = r.msg.buf ↔ leftover r' d' = leftover r d := by
  have horigin : r'.origin = r.origin := (Request.mk.inj hr).2.1
  have htext : r'.text = r.text := (Request.mk.inj hr).2.2
  have hhidden : hideDatagram a d' = hideDatagram a d := by
    have hget := congrArg (fun l => l[r.origin]?) hreceived
    simp only [List.getElem?_map] at hget
    rw [hd.get, ← horigin, hd'.get] at hget
    exact Option.some.inj hget
  have hdata : d'.data = d.data := by
    have hown : d.addr = a := hd.addr.symm.trans haddr
    have hown' : d'.addr = a := (congrArg Datagram.addr hhidden).trans hown
    have hgot := congrArg Datagram.data hhidden
    rw [hideDatagram, hideDatagram, if_pos hown, if_pos hown'] at hgot
    exact hgot
  rw [hd.buf, hd'.buf, htext, hdata, overlay_overlay_eq_iff, leftover, leftover, htext, hdata]

theorem bufs_eq_iff {received received' : List Datagram} {l l' : List Reply}
    (hsource : ∀ r ∈ l, ∃ d, FromDatagram received r.request d)
    (hsource' : ∀ r ∈ l', ∃ d, FromDatagram received' r.request d)
    (hreceived : received'.map (hideDatagram a) = received.map (hideDatagram a))
    (hl : l'.map hideReply = l.map hideReply) :
    (l'.filter fun r => r.request.msg.addr = a).map (fun r => r.request.msg.buf) =
        (l.filter fun r => r.request.msg.addr = a).map (fun r => r.request.msg.buf) ↔
      (l'.filter fun r => r.request.msg.addr = a).map
          (fun r => received'[r.request.origin]?.map (leftover r.request)) =
        (l.filter fun r => r.request.msg.addr = a).map
          (fun r => received[r.request.origin]?.map (leftover r.request)) := by
  induction l generalizing l' with
  | nil =>
    obtain rfl := List.map_eq_nil_iff.1 hl
    exact ⟨fun _ => rfl, fun _ => rfl⟩
  | cons r l ih =>
    obtain ⟨r', l', rfl, hr, hl⟩ := List.map_eq_cons_iff.1 hl
    have hrest := ih (fun x hx => hsource x (List.mem_cons_of_mem _ hx))
      (fun x hx => hsource' x (List.mem_cons_of_mem _ hx)) hl
    have haddr : r'.request.msg.addr = r.request.msg.addr :=
      congrArg (fun r => r.request.msg.addr) hr
    by_cases h : r.request.msg.addr = a
    · obtain ⟨d, hd⟩ := hsource r List.mem_cons_self
      obtain ⟨d', hd'⟩ := hsource' r' List.mem_cons_self
      have hbuf := buf_eq_iff hd hd' hreceived (Reply.mk.inj hr).1 h
      simp only [List.filter_cons, haddr, h, decide_true, if_true]
      rw [List.map_cons, List.map_cons, List.map_cons, List.map_cons, List.cons.injEq, List.cons.injEq, hrest,
        hd.get, hd'.get, Option.map_some, Option.map_some, Option.some_inj, hbuf]
    · simp only [List.filter_cons, haddr, h, decide_false]
      exact hrest

theorem repliesTo_eq_iff (hi : Inv s) (hi' : Inv s') (h : hide a s' = hide a s) :
    repliesTo a s' = repliesTo a s ↔ leftoversTo a s' = leftoversTo a s :=
  bufs_eq_iff (fun _ hr => hi.distinct.source _ (mem_traced_of_reply hr))
    (fun _ hr => hi'.distinct.source _ (mem_traced_of_reply hr))
    (congrArg (fun s => s.received) h) (congrArg (fun s => s.replies) h)

theorem buf_eq_isolated_iff {received : List Datagram} {r : Request} {d : Datagram}
    (hd : FromDatagram received r d) (hstale : d.stale.length = msgSize) :
    r.msg.buf = isolated r d ↔ ∀ b ∈ leftover r d, b = 0 := by
  rw [hd.buf, isolated, overlay_overlay_eq_iff, List.drop_replicate, leftover, List.eq_replicate_iff]
  exact ⟨fun h => h.2, fun h => ⟨by rw [List.length_drop, hstale], h⟩⟩

/-- **Isolation.**  A reply holds the time, the datagram it answers and zeros if and only if what was
in `req.buf` behind both when the datagram was received is zero; and where another run differs in what
other clients send, `a` is sent the same bytes if and only if the same bytes were left there. -/
theorem reply_isolated_iff {events events' : List Event} (h : server cap events = some s)
    (hes : events'.map (hideEvent a) = events.map (hideEvent a)) :
    (∀ r ∈ s.replies, ∃ d, s.received[r.request.origin]? = some d ∧ d.addr = r.request.msg.addr ∧
      (r.request.msg.buf = isolated r.request d ↔ ∀ b ∈ leftover r.request d, b = 0)) ∧
    ∃ s', server cap events' = some s' ∧
      (repliesTo a s' = repliesTo a s ↔ leftoversTo a s' = leftoversTo a s) := by
  have hi := inv_server h
  refine ⟨fun r hr => ?_, ?_⟩
  · obtain ⟨d, hd⟩ := hi.distinct.source _ (mem_traced_of_reply hr)
    exact ⟨d, hd.get, hd.addr.symm, buf_eq_isolated_iff hd (hi.datagram d (List.mem_of_getElem? hd.get)).1⟩
  · have hrun : (server cap events').map (hide a) = (server cap events).map (hide a) := hide_server hes
    rw [h, Option.map_some, Option.map_eq_some_iff] at hrun
    obtain ⟨s', hs', hhide⟩ := hrun
    exact ⟨s', hs', repliesTo_eq_iff hi (inv_server hs') hhide⟩

end

/-- `Thu Jan  1 00:00:00 1970`, as `ctime` writes it. -/
def epoch : List UInt8 :=
  [84, 104, 117, 32, 74, 97, 110, 32, 32, 49, 32, 48, 48, 58, 48, 48, 58, 48, 48, 32, 49, 57, 55, 48, 10]

/-- One client sends `bytes`, another a single byte, which is answered first. -/
def afterOther (bytes : List UInt8) : List Event :=
  [.turn (.datagram ⟨2, 20⟩ bytes), .turn .wouldBlock, .turn (.datagram ⟨1, 10⟩ [5]), .turn .wouldBlock,
    .take 0 epoch, .take 1 epoch, .put 1, .turn .wouldBlock, .turn .wouldBlock]

theorem afterOther_reply : ((server ⟨8, 8⟩ (afterOther (List.replicate 40 7))).map fun s =>
    (repliesTo ⟨1, 10⟩ s).map fun buf => (buf.take 34).drop 32) = some [[0, 7]] := by decide

theorem afterNothing_reply : ((server ⟨8, 8⟩ (afterOther [])).map fun s =>
    (repliesTo ⟨1, 10⟩ s).map fun buf => (buf.take 34).drop 32) = some [[0, 0]] := by decide

/-- The other client's bytes are left in the reply of the one run only. -/
theorem reply_isolated_iff_afterOther :
    ∃ s s', server ⟨8, 8⟩ (afterOther (List.replicate 40 7)) = some s ∧
      server ⟨8, 8⟩ (afterOther []) = some s' ∧ leftoversTo ⟨1, 10⟩ s' ≠ leftoversTo ⟨1, 10⟩ s := by
  obtain ⟨s, hs, hreply⟩ := Option.map_eq_some_iff.1 afterOther_reply
  obtain ⟨-, s', hs', hiff⟩ := @reply_isolated_iff ⟨1, 10⟩ ⟨8, 8⟩ s _ (afterOther []) hs rfl
  refine ⟨s, s', hs, hs', fun heq => ?_⟩
  have hreply' := afterNothing_reply
  rw [hs', Option.map_some, hiff.2 heq, hreply] at hreply'
  exact absurd hreply' (by decide)

/-- The byte behind the time is the other client's. -/
theorem repliesTo_afterOther :
    ¬ ∀ events events' s s', events'.map (hideEvent ⟨1, 10⟩) = events.map (hideEvent ⟨1, 10⟩) →
      server ⟨8, 8⟩ events = some s → server ⟨8, 8⟩ events' = some s' →
      repliesTo ⟨1, 10⟩ s' = repliesTo ⟨1, 10⟩ s := by
  intro h
  obtain ⟨s, hs, hreply⟩ := Option.map_eq_some_iff.1 afterOther_reply
  obtain ⟨s', hs', hreply'⟩ := Option.map_eq_some_iff.1 afterNothing_reply
  have heq := h (afterOther (List.replicate 40 7)) (afterOther []) s s' rfl hs hs'
  rw [heq, hreply] at hreply'
  exact absurd hreply' (by decide)

end Eltex.UdpClientServer
