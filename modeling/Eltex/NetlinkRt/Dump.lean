import Eltex.NetlinkRt.Messages

/-!
# The dump of the routes

The kernel answers with any number of datagrams, all messages of which are routes but the last,
`NLMSG_DONE`.  `main` calls `reply_msg` once, and `reply_msg` receives once: of the datagram it gets
every message is walked, as laid out, with all attributes (`netlink_walk`), but a route in a later
datagram is never printed (`dump_read_iff`).
-/

namespace Eltex.NetlinkRt

open ByteMem CString Printf RecordWalk

/-! ## One datagram -/

section
variable {env : Env} {msgs : List Message} {bs : List UInt8} {fuel : Nat}

/-- Messages that stand in memory are visited one after another. -/
theorem exists_visits {m : Mem} {os : List Nat}
    (h : List.Forall₂ (fun (msg : Message) o => load m o msg.bytes.length = msg.bytes) msgs os)
    (hlen : ∀ msg ∈ msgs, msg.bytes.length ≤ bufLen) (hf : ∀ msg ∈ msgs, msg.bytes.length < fuel) :
    ∃ visits, os.mapM (visitMsg env m fuel) = some visits ∧ visits.map Visit.msgPtr = os ∧
      List.Forall₂ (fun msg v => Visits m msg v ∧ visitMsg env m fuel v.msgPtr = some v) msgs visits := by
  induction h with
  | nil => exact ⟨[], rfl, rfl, List.Forall₂.nil⟩
  | @cons msg o msgs os h _ ih =>
    have hmsg := hlen msg List.mem_cons_self
    have hfuel := hf msg List.mem_cons_self
    have hl := nlmsgLen_of_load h hmsg
    obtain ⟨v, hv⟩ := @exists_visitMsg env m fuel o (by omega) (by omega)
    obtain ⟨hptr, hvisits⟩ := visitMsg_of_load h hmsg hfuel hv
    obtain ⟨visits, h1, h2, h3⟩ := ih (fun msg' hmsg' => hlen msg' (List.mem_cons_of_mem _ hmsg'))
      (fun msg' hmsg' => hf msg' (List.mem_cons_of_mem _ hmsg'))
    refine ⟨v :: visits, mapM_eq_some_iff.2 (List.Forall₂.cons hv (mapM_eq_some_iff.1 h1)), ?_,
      List.Forall₂.cons ⟨hvisits, by rw [hptr]; exact hv⟩ h3⟩
    rw [List.map_cons, hptr, h2]

/-- **A datagram** is walked message by message, as it was laid out. -/
theorem replyMsg_layout (laid : Layout 4 (msgs.map Message.bytes) bs) (hlen : bs.length ≤ bufLen)
    (hf : bs.length < fuel) :
    ∃ visits, replyMsg env fuel (some bs) = some (0, visits) ∧
      visits.map Visit.msgPtr = starts 4 0 (msgs.map fun msg => msg.bytes.length) ∧
      List.Forall₂ (fun msg v => Visits (env.message bs) msg v ∧
        visitMsg env (env.message bs) fuel v.msgPtr = some v) msgs visits := by
  have htake : bs.take bufLen = bs := List.take_of_length_le hlen
  have hm : load (env.message bs) 0 bs.length = bs := load_store env.stack 0 bs
  have hfit : ∀ msg ∈ msgs, msg.bytes.length ≤ bs.length := fun msg hmsg =>
    laid.length_le _ (List.mem_map_of_mem hmsg)
  have hread : ∀ r ∈ msgs.map Message.bytes,
      16 ≤ r.length ∧ ∀ o, load (env.message bs) o r.length = r → nlmsgLen (env.message bs) o = r.length := by
    intro r hr
    obtain ⟨msg, hmsg, rfl⟩ := List.mem_map.1 hr
    exact ⟨by rw [Message.length_bytes]; omega,
      fun o ho => nlmsgLen_of_load ho ((hfit msg hmsg).trans hlen)⟩
  have hwalk := walk_layout (by decide) (by decide) laid hm hread hf
  have hstored := (laid.stored hm).forall₂
  rw [List.map_map] at hwalk hstored
  rw [List.forall₂_map_left_iff] at hstored
  obtain ⟨visits, h1, h2, h3⟩ := @exists_visits env msgs fuel _ _ hstored
    (fun msg hmsg => (hfit msg hmsg).trans hlen) (fun msg hmsg => (hfit msg hmsg).trans_lt hf)
  have hlt := lt_of_le_bufLen hlen
  refine ⟨visits, ?_, h2, h3⟩
  unfold replyMsg
  simp only [htake]
  rw [replyLoop_eq env fuel (by omega), hwalk, Option.bind_some, h1]
  rfl

end

/-- **The walk.**  On any bytes that fit in `message` both loops end and take for valid only headers
inside what was received, at increasing multiples of four.  On messages laid out with their
attributes they meet exactly these messages and the attributes of the main routes. -/
theorem netlink_walk (env : Env) :
    (∀ (received : List UInt8) (fuel : Nat), received.length ≤ bufLen → received.length < fuel →
      ∃ visits, replyMsg env fuel (some received) = some (0, visits) ∧
        (∀ v ∈ visits, Inside (env.message received) received.length v) ∧
        visits.Pairwise fun v w => v.msgPtr + nlmsgLen (env.message received) v.msgPtr ≤ w.msgPtr) ∧
      ∀ (msgs : List Message) (bs : List UInt8) (fuel : Nat), Layout 4 (msgs.map Message.bytes) bs →
        bs.length ≤ bufLen → bs.length < fuel →
        ∃ visits, replyMsg env fuel (some bs) = some (0, visits) ∧
          visits.map Visit.msgPtr = starts 4 0 (msgs.map fun msg => msg.bytes.length) ∧
          List.Forall₂ (Visits (env.message bs)) msgs visits := by
  constructor
  · intro received fuel hlen hf
    exact replyMsg_inside env received hlen hf
  · intro msgs bs fuel laid hlen hf
    obtain ⟨visits, h1, h2, h3⟩ := @replyMsg_layout env msgs bs fuel laid hlen hf
    exact ⟨visits, h1, h2, h3.imp fun _ _ h => h.1⟩

/-- A route of the main table with a gateway. -/
def gatewayRoute : Message :=
  .route ⟨2, 1, 0⟩ ⟨2, 0, 0, 0, 254, 0, 0, 1, 0⟩ [⟨5, [10, 0, 0, 9], by decide⟩] _ (Layout.last _ [] (by decide))

def doneMessage : Message := .other 3 ⟨2, 1, 0⟩ [0, 0, 0, 0] (by decide)

def plainEnv : Env := ⟨fun _ => none, fun _ => 0, fun _ => ⟨0, 0, 0, [0]⟩⟩

/-- The route and `NLMSG_DONE` behind it are met, and of the route its attribute. -/
theorem netlink_walk_gateway :
    ∃ v w, replyMsg plainEnv 57 (some (gatewayRoute.bytes ++ [] ++ (doneMessage.bytes ++ []))) = some (0, [v, w]) ∧
      v.msgPtr = 0 ∧ v.attrs = [28] ∧ w.msgPtr = 36 ∧ w.attrs = [] := by
  obtain ⟨visits, hreply, hptr, hvisits⟩ := (netlink_walk plainEnv).2 [gatewayRoute, doneMessage] _ 57
    (Layout.cons gatewayRoute.bytes [] [doneMessage.bytes] _ (by decide)
      (Layout.last doneMessage.bytes [] (by decide))) (by decide) (by decide)
  obtain ⟨v, visits, hv, hrest, rfl⟩ := List.forall₂_cons_left_iff.1 hvisits
  obtain ⟨w, visits, hw, hnil, rfl⟩ := List.forall₂_cons_left_iff.1 hrest
  obtain rfl := List.forall₂_nil_left_iff.1 hnil
  obtain ⟨hzero, htail⟩ := List.cons.inj hptr
  have hnext : w.msgPtr = 36 := (List.cons.inj htail).1
  have hfirst := hv.attrs
  have hsecond := hw.attrs
  rw [hzero] at hfirst
  exact ⟨v, w, hreply, hzero, hfirst, hnext, hsecond⟩

/-! ## What is printed -/

/-- The text printed for a message when `rt_info` holds `rtInfo` before. -/
def Message.text (names : IfNames) (rtInfo : RouteInfo) : Message → Option (List UInt8)
  | .route _ rtm attrs _ _ =>
    if rtm.table.toNat = rtTableMain then some (rtInfo.ofAttrs names attrs).line else none
  | .other type _ body _ =>
    if type = 3 ∨ type = 16 then none
    else some (ascii "message type " ++ decimal type.toNat ++ ascii ", length " ++
      decimal (16 + body.length) ++ [10])

/-- The attributes of a message that are read hold a word. -/
def Message.Sized (msg : Message) : Prop := ∀ a ∈ msg.mainAttrs, a.Sized

theorem visitMsg_text {env : Env} {m : Mem} {fuel : Nat} {msg : Message} {v : Visit}
    (h : Visits m msg v) (hlen : msg.bytes.length ≤ bufLen) (hs : msg.Sized)
    (hv : visitMsg env m fuel v.msgPtr = some v) :
    v.text = msg.text env.ifIndexToName (env.rtInfo v.msgPtr) := by
  have hl := nlmsgLen_of_load h.stored hlen
  have ht := nlmsgType_of_load h.stored
  cases msg with
  | other type hdr body ne =>
    have htype : ∀ t : UInt16, type.toNat = t.toNat ↔ type = t := fun t => UInt16.toNat_inj
    have ht' : nlmsgType m v.msgPtr = type.toNat := ht
    show v.text = if type = 3 ∨ type = 16 then none else some _
    unfold visitMsg at hv
    split at hv
    · next h3 =>
      rw [if_pos (Or.inl ((htype 3).1 (ht'.symm.trans h3))), ← Option.some.inj hv]
    · next h16 =>
      rw [if_pos (Or.inr ((htype 16).1 (ht'.symm.trans h16))), ← Option.some.inj hv]
    · next h24 => exact absurd ((htype 24).1 (ht'.symm.trans h24)) ne
    · next h3 h16 _ =>
      have hno : ¬ (type = 3 ∨ type = 16) := by
        rintro (rfl | rfl)
        · exact h3 ht'
        · exact h16 ht'
      rw [if_neg hno, ← Option.some.inj hv, hl, ht', Message.length_bytes]
      rfl
  | route hdr rtm attrs area laid =>
    have h24 : nlmsgType m v.msgPtr = 24 := ht
    obtain ⟨htable, -⟩ := table_of_load h.stored
    rw [visitMsg, h24] at hv
    change printRoute env.ifIndexToName m (env.rtInfo v.msgPtr) fuel v.msgPtr = some v at hv
    show v.text = if rtm.table.toNat = rtTableMain then some _ else none
    by_cases hmain : rtm.table.toNat = rtTableMain
    · have hattrs : (Message.route hdr rtm attrs area laid).mainAttrs = attrs := if_pos hmain
      have hfold := @foldl_routeAttr m env.ifIndexToName (env.rtInfo v.msgPtr) _ _ h.attrs_stored hs
      rw [printRoute_eq (hl.le.trans hlen) (htable.trans hmain)] at hv
      obtain ⟨os, -, hv⟩ := Option.map_eq_some_iff.1 hv
      have hos : os = v.attrs := by rw [← hv]
      rw [if_pos hmain, ← hattrs, ← hfold, ← hos, ← hv]
    · rw [printRoute, if_pos (by rw [htable]; exact hmain)] at hv
      rw [if_neg hmain, ← Option.some.inj hv]

/-- The attributes of a message, if it is a route of the main table. -/
def Message.mainRoute : Message → Option (List Attr)
  | .route _ rtm attrs _ _ => if rtm.table.toNat = rtTableMain then some attrs else none
  | .other .. => none

/-- Those of the main routes among messages, in order. -/
def mainRoutes (msgs : List Message) : List (List Attr) := msgs.filterMap Message.mainRoute

/-- One line for each route, in order, whatever `rt_info` held before. -/
def OneLineEach (names : IfNames) (routes : List (List Attr)) (lines : List (List UInt8)) : Prop :=
  List.Forall₂ (fun attrs line => ∃ rtInfo : RouteInfo, line = (rtInfo.ofAttrs names attrs).line) routes lines

/-- What a dump consists of: routes, and `NLMSG_DONE`. -/
def Message.OfDump (msg : Message) : Prop := msg.type = 24 ∨ msg.type = 3

/-- Of such messages the main routes print a line, from what `rt_info` held at the route, and the others
nothing. -/
theorem lines_texts {env : Env} {m : Mem} {fuel : Nat} {msgs : List Message} {visits : List Visit}
    (h : List.Forall₂ (fun msg v => Visits m msg v ∧ visitMsg env m fuel v.msgPtr = some v) msgs visits)
    (hlen : ∀ msg ∈ msgs, msg.bytes.length ≤ bufLen) (hs : ∀ msg ∈ msgs, msg.Sized)
    (hd : ∀ msg ∈ msgs, msg.OfDump) :
    List.Forall₂ (fun attrs line => ∃ o, line = ((env.rtInfo o).ofAttrs env.ifIndexToName attrs).line)
      (mainRoutes msgs) (visits.filterMap Visit.text) := by
  induction h with
  | nil => exact List.Forall₂.nil
  | @cons msg v msgs visits h _ ih =>
    have htext := visitMsg_text h.1 (hlen msg List.mem_cons_self) (hs msg List.mem_cons_self) h.2
    have hrest := ih (fun msg' h' => hlen msg' (List.mem_cons_of_mem _ h'))
      (fun msg' h' => hs msg' (List.mem_cons_of_mem _ h'))
      (fun msg' h' => hd msg' (List.mem_cons_of_mem _ h'))
    have hdump := hd msg List.mem_cons_self
    cases msg with
    | other type hdr body ne =>
      have h3 : type = 3 := hdump.resolve_left ne
      have hnone : v.text = none := by
        rw [htext]
        exact if_pos (Or.inl h3)
      rw [List.filterMap_cons_none hnone, mainRoutes, List.filterMap_cons_none rfl]
      exact hrest
    | route hdr rtm attrs area laid =>
      by_cases hmain : rtm.table.toNat = rtTableMain
      · have hsome : v.text = some ((env.rtInfo v.msgPtr).ofAttrs env.ifIndexToName attrs).line := by
          rw [htext]
          exact if_pos hmain
        have hroute : (Message.route hdr rtm attrs area laid).mainRoute = some attrs := if_pos hmain
        rw [List.filterMap_cons_some hsome, mainRoutes, List.filterMap_cons_some hroute]
        exact List.Forall₂.cons ⟨_, rfl⟩ hrest
      · have hnone : v.text = none := by
          rw [htext]
          exact if_neg hmain
        have hroute : (Message.route hdr rtm attrs area laid).mainRoute = none := if_neg hmain
        rw [List.filterMap_cons_none hnone, mainRoutes, List.filterMap_cons_none hroute]
        exact hrest

/-! ## The dump -/

/-- A datagram of the dump. -/
structure Datagram where
  msgs : List Message
  bytes : List UInt8
  laid : Layout 4 (msgs.map Message.bytes) bytes
  fits : bytes.length ≤ bufLen

/-- Every message of a dump is a route, but the last. -/
structure Dump where
  first : Datagram
  rest : List Datagram
  ends : ∃ routes done, (first :: rest).flatMap Datagram.msgs = routes ++ [done] ∧
    (∀ msg ∈ routes, msg.type = 24 ∧ msg.Sized) ∧ done.type = 3

namespace Dump

def datagrams (dump : Dump) : List (List UInt8) := (dump.first :: dump.rest).map Datagram.bytes

def msgs (dump : Dump) : List Message := (dump.first :: dump.rest).flatMap Datagram.msgs

end Dump

/-- The lines printed when `datagrams` are queued at the socket: `main` calls `reply_msg` once.  The
fuel is enough for what fits in `message`. -/
def main (env : Env) (datagrams : List (List UInt8)) : Option (List (List UInt8)) :=
  datagrams.head?.bind fun datagram =>
    (replyMsg env (bufLen + 1) (some datagram)).map fun r => r.2.filterMap Visit.text

theorem mainRoutes_append (xs ys : List Message) : mainRoutes (xs ++ ys) = mainRoutes xs ++ mainRoutes ys :=
  List.filterMap_append

theorem sized_of_done {msg : Message} (h : msg.type = 3) : msg.Sized := by
  cases msg with
  | route hdr rtm attrs area laid => cases h
  | other type hdr body ne =>
    intro a ha
    cases ha

theorem Dump.mem_first {dump : Dump} {msg : Message} (h : msg ∈ dump.first.msgs) :
    msg.OfDump ∧ msg.Sized := by
  obtain ⟨routes, done, he, hroutes, hdone⟩ := dump.ends
  have hmem : msg ∈ routes ++ [done] := by
    rw [← he]
    exact List.mem_flatMap.2 ⟨dump.first, List.mem_cons_self, h⟩
  rcases List.mem_append.1 hmem with hr | hr
  · exact ⟨Or.inl (hroutes msg hr).1, (hroutes msg hr).2⟩
  · rw [List.mem_singleton.1 hr]
    exact ⟨Or.inr hdone, sized_of_done hdone⟩

/-- **The dump.**  The program prints one line for each main route exactly when no main route stands
in a datagram after the first. -/
theorem dump_read_iff (env : Env) (dump : Dump) :
    ∃ lines, main env dump.datagrams = some lines ∧
      (OneLineEach env.ifIndexToName (mainRoutes dump.msgs) lines ↔
        ∀ d ∈ dump.rest, mainRoutes d.msgs = []) := by
  have hlt : dump.first.bytes.length < bufLen + 1 := Nat.lt_succ_of_le dump.first.fits
  obtain ⟨visits, h1, -, h3⟩ := @replyMsg_layout env _ _ (bufLen + 1) dump.first.laid dump.first.fits hlt
  have hlines := lines_texts h3
    (fun msg hmsg => (dump.first.laid.length_le _ (List.mem_map_of_mem hmsg)).trans dump.first.fits)
    (fun _ hmsg => (Dump.mem_first hmsg).2) (fun _ hmsg => (Dump.mem_first hmsg).1)
  have hfirst : OneLineEach env.ifIndexToName (mainRoutes dump.first.msgs) (visits.filterMap Visit.text) :=
    hlines.imp fun _ _ ⟨_, hline⟩ => ⟨_, hline⟩
  have hsplit : mainRoutes dump.msgs =
      mainRoutes dump.first.msgs ++ mainRoutes (dump.rest.flatMap Datagram.msgs) := by
    rw [Dump.msgs, List.flatMap_cons, mainRoutes_append]
  have hrest : mainRoutes (dump.rest.flatMap Datagram.msgs) = [] ↔
      ∀ d ∈ dump.rest, mainRoutes d.msgs = [] := by
    simp only [mainRoutes, List.filterMap_eq_nil_iff, List.mem_flatMap]
    constructor
    · intro h d hd msg hmsg
      exact h msg ⟨d, hd, hmsg⟩
    · rintro h msg ⟨d, hd, hmsg⟩
      exact h d hd msg hmsg
  refine ⟨visits.filterMap Visit.text, ?_, ?_⟩
  · rw [main, Dump.datagrams, List.map_cons, List.head?_cons, Option.bind_some, h1]
    rfl
  · rw [hsplit, ← hrest]
    constructor
    · intro h
      have hlens := h.length_eq
      rw [List.length_append, hfirst.length_eq] at hlens
      exact List.length_eq_zero_iff.1 (by omega)
    · intro h
      rw [h, List.append_nil]
      exact hfirst

/-- A route of the main table without attributes. -/
def plainRoute : Message := .route ⟨2, 1, 0⟩ ⟨2, 0, 0, 0, 254, 0, 0, 1, 0⟩ [] [] Layout.nil

/-- Two such routes, the second in a datagram of its own with `NLMSG_DONE`. -/
def splitDump : Dump where
  first := ⟨[plainRoute], plainRoute.bytes ++ [], Layout.last _ _ (by decide), by decide⟩
  rest := [⟨[plainRoute, doneMessage], plainRoute.bytes ++ [] ++ (doneMessage.bytes ++ []),
    Layout.cons _ _ _ _ (by decide) (Layout.last _ _ (by decide)), by decide⟩]
  ends := by
    refine ⟨[plainRoute, plainRoute], doneMessage, rfl, fun msg hmsg => ?_, rfl⟩
    obtain rfl : msg = plainRoute := by simpa using hmsg
    refine ⟨rfl, fun a ha => ?_⟩
    cases ha

/-- The second route is not printed. -/
theorem splitDump_not_read :
    ¬ ∃ lines, main plainEnv splitDump.datagrams = some lines ∧
      OneLineEach plainEnv.ifIndexToName (mainRoutes splitDump.msgs) lines := by
  have hmain : (main plainEnv splitDump.datagrams).map List.length = some 1 := by decide +kernel
  rintro ⟨lines, hlines, hone⟩
  rw [hlines, Option.map_some, Option.some.injEq] at hmain
  have hlens := hone.length_eq
  rw [hmain] at hlens
  cases hlens

end Eltex.NetlinkRt
