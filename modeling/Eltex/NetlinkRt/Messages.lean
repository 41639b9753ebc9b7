import Eltex.NetlinkRt.Walk

/-!
# Messages as the kernel lays them out

A message is a route with its attributes, or anything else.  `Message.bytes` is its wire form; a
datagram holds the wire forms of messages at multiples of four, and a route those of its
attributes (`Layout`), with any bytes as padding.  The walks of the program decode such a datagram
into exactly what was laid out (`replyMsg_layout`).
-/

namespace Eltex.NetlinkRt

open ByteMem CString Printf RecordWalk

/-- `struct rtattr` with what is behind it. -/
structure Attr where
  type : UInt16
  payload : List UInt8
  len_lt : 4 + payload.length < 65536

def Attr.bytes (a : Attr) : List UInt8 :=
  leBytes 2 (4 + a.payload.length) ++ (leBytes 2 a.type.toNat ++ a.payload)

/-- `struct rtmsg` -/
structure Rtm where
  family : UInt8
  dstLen : UInt8
  srcLen : UInt8
  tos : UInt8
  table : UInt8
  protocol : UInt8
  scope : UInt8
  type : UInt8
  flags : UInt32

def Rtm.bytes (r : Rtm) : List UInt8 :=
  [r.family, r.dstLen, r.srcLen, r.tos, r.table, r.protocol, r.scope, r.type] ++ leBytes 4 r.flags.toNat

/-- What a header says besides length and type. -/
structure Hdr where
  flags : UInt16
  seq : UInt32
  pid : UInt32

inductive Message where
  /-- `RTM_NEWROUTE`; `area` holds the attributes -/
  | route (hdr : Hdr) (rtm : Rtm) (attrs : List Attr) (area : List UInt8)
      (laid : Layout 4 (attrs.map Attr.bytes) area)
  | other (type : UInt16) (hdr : Hdr) (body : List UInt8) (ne : type ≠ 24)

namespace Message

def type : Message → UInt16
  | route .. => 24
  | other type .. => type

def hdr : Message → Hdr
  | route hdr .. => hdr
  | other _ hdr .. => hdr

def body : Message → List UInt8
  | route _ rtm _ area _ => rtm.bytes ++ area
  | other _ _ body _ => body

def bytes (msg : Message) : List UInt8 :=
  leBytes 4 (16 + msg.body.length) ++ (leBytes 2 msg.type.toNat ++ (leBytes 2 msg.hdr.flags.toNat ++
    (leBytes 4 msg.hdr.seq.toNat ++ (leBytes 4 msg.hdr.pid.toNat ++ msg.body))))

/-- The attributes of a route of the main table. -/
def mainAttrs : Message → List Attr
  | route _ rtm attrs _ _ => if rtm.table.toNat = rtTableMain then attrs else []
  | other .. => []

end Message

/-! ## Lengths and fields -/

@[simp] theorem Attr.length_bytes (a : Attr) : a.bytes.length = 4 + a.payload.length := by
  simp only [Attr.bytes, List.length_append, length_leBytes]
  omega

@[simp] theorem Rtm.length_bytes (r : Rtm) : r.bytes.length = 12 := by simp [Rtm.bytes]

@[simp] theorem Message.length_bytes (msg : Message) : msg.bytes.length = 16 + msg.body.length := by
  simp only [Message.bytes, List.length_append, length_leBytes]
  omega

theorem loadLe_of_load {m : Mem} {p n v : Nat} (h : load m p (leBytes n v).length = leBytes n v) :
    loadLe m p n = v % 256 ^ n := by
  rw [length_leBytes] at h
  rw [loadLe, h, leVal_leBytes]

theorem toNat_mod_uint16 (x : UInt16) : x.toNat % 256 ^ 2 = x.toNat := Nat.mod_eq_of_lt x.toNat_lt

section
variable {m : Mem} {o : Nat}

section
variable {a : Attr} (h : load m o a.bytes.length = a.bytes)
include h

theorem rtaLen_of_load : rtaLen m o = a.bytes.length := by
  have hlen := loadLe_of_load (load_append_left h)
  have hlt := a.len_lt
  rw [rtaLen, hlen, Attr.length_bytes, Nat.mod_eq_of_lt (by omega)]

theorem rtaType_of_load : rtaType m o = a.type.toNat := by
  have hrest := load_append_right h
  rw [length_leBytes] at hrest
  rw [rtaType, loadLe_of_load (load_append_left hrest), toNat_mod_uint16]

theorem payload_of_load : load m (o + 4) a.payload.length = a.payload := by
  have hrest := load_append_right (load_append_right h)
  rwa [length_leBytes, length_leBytes, Nat.add_assoc] at hrest

end

section
variable {msg : Message} (h : load m o msg.bytes.length = msg.bytes)
include h

theorem nlmsgLen_of_load (hlen : msg.bytes.length ≤ bufLen) : nlmsgLen m o = msg.bytes.length := by
  have hlt := lt_of_le_bufLen hlen
  rw [Message.length_bytes] at hlt ⊢
  rw [nlmsgLen, loadLe_of_load (load_append_left h), Nat.mod_eq_of_lt (by omega)]

theorem nlmsgType_of_load : nlmsgType m o = msg.type.toNat := by
  have hrest := load_append_right h
  rw [length_leBytes] at hrest
  rw [nlmsgType, loadLe_of_load (load_append_left hrest), toNat_mod_uint16]

theorem body_of_load : load m (o + 16) msg.body.length = msg.body := by
  have hrest := load_append_right (load_append_right (load_append_right (load_append_right
    (load_append_right h))))
  simp only [length_leBytes, Nat.add_assoc] at hrest
  exact hrest

end

theorem table_of_load {hdr : Hdr} {rtm : Rtm} {attrs : List Attr} {area : List UInt8}
    {laid : Layout 4 (attrs.map Attr.bytes) area}
    (h : load m o (Message.route hdr rtm attrs area laid).bytes.length =
      (Message.route hdr rtm attrs area laid).bytes) :
    rtmTable m o = rtm.table.toNat ∧ load m (rtmRta o) area.length = area := by
  have hbody : load m (o + 16) (rtm.bytes ++ area).length = rtm.bytes ++ area := body_of_load h
  constructor
  · have hrtm := (load_eq_iff _ _ _).1 (load_append_left hbody) 4 (by simp)
    rw [rtmTable, hrtm]
    rfl
  · have harea := load_append_right hbody
    rwa [Rtm.length_bytes] at harea

/-! ## Decoding -/

/-- What an attribute leaves in `rt_info`, as far as its payload decides it. -/
def Attr.word (a : Attr) : Nat := leVal (a.payload.take 4)

/-- `RTA_DST`, `RTA_OIF`, `RTA_GATEWAY`, `RTA_PREFSRC` -/
def Attr.Read (a : Attr) : Prop := a.type = 1 ∨ a.type = 4 ∨ a.type = 5 ∨ a.type = 7

/-- The attributes that are read hold a word. -/
def Attr.Sized (a : Attr) : Prop := a.Read → 4 ≤ a.payload.length

def RouteInfo.ofAttrs (names : IfNames) (rtInfo : RouteInfo) (attrs : List Attr) : RouteInfo :=
  attrs.foldl (fun rtInfo a => rtInfo.store names a.type.toNat a.word) rtInfo

theorem RouteInfo.store_of_not_read {names : IfNames} {rtInfo : RouteInfo} {a : Attr} (h : ¬ a.Read)
    (word : Nat) : rtInfo.store names a.type.toNat word = rtInfo := by
  have hne : ∀ t : UInt16, a.type.toNat = t.toNat → a.type = t := fun t ht => UInt16.toNat_inj.1 ht
  unfold RouteInfo.store
  split
  · next h4 => exact absurd (Or.inr (Or.inl (hne 4 h4))) h
  · next h5 => exact absurd (Or.inr (Or.inr (Or.inl (hne 5 h5)))) h
  · next h7 => exact absurd (Or.inr (Or.inr (Or.inr (hne 7 h7)))) h
  · next h1 => exact absurd (Or.inl (hne 1 h1)) h
  · rfl

theorem routeAttr_of_load {names : IfNames} {rtInfo : RouteInfo} {a : Attr}
    (h : load m o a.bytes.length = a.bytes) (hs : a.Sized) :
    routeAttr names m rtInfo o = rtInfo.store names a.type.toNat a.word := by
  rw [routeAttr, rtaType_of_load h]
  by_cases hr : a.Read
  · rw [Attr.word, loadLe, ← take_load m (o + 4) 4 _ (hs hr), payload_of_load h]
  · rw [RouteInfo.store_of_not_read hr, RouteInfo.store_of_not_read hr]

theorem foldl_routeAttr {names : IfNames} {rtInfo : RouteInfo} {attrs : List Attr} {os : List Nat}
    (h : List.Forall₂ (fun a o => load m o (Attr.bytes a).length = Attr.bytes a) attrs os)
    (hs : ∀ a ∈ attrs, a.Sized) :
    os.foldl (routeAttr names m) rtInfo = RouteInfo.ofAttrs names rtInfo attrs := by
  induction h generalizing rtInfo with
  | nil => rfl
  | cons h _ ih =>
    rw [List.foldl_cons, routeAttr_of_load h (hs _ List.mem_cons_self),
      ih fun a ha => hs a (List.mem_cons_of_mem _ ha)]
    rfl

/-- A visit of a message: it is read where it stands, and of a main route all attributes are met. -/
structure Visits (m : Mem) (msg : Message) (v : Visit) : Prop where
  stored : load m v.msgPtr msg.bytes.length = msg.bytes
  attrs : v.attrs = starts 4 (rtmRta v.msgPtr) (msg.mainAttrs.map fun a => a.bytes.length)
  attrs_stored : List.Forall₂ (fun a o => load m o (Attr.bytes a).length = Attr.bytes a)
    msg.mainAttrs v.attrs

/-- The walk over the payload of a route meets its attributes. -/
theorem walk_attrs {attrs : List Attr} {area : List UInt8} (laid : Layout 4 (attrs.map Attr.bytes) area)
    {fuel : Nat} (hm : load m o area.length = area) (hf : area.length < fuel) :
    walk 4 4 (rtaLen m) fuel o area.length = some (starts 4 o (attrs.map fun a => a.bytes.length)) ∧
      List.Forall₂ (fun a o => load m o (Attr.bytes a).length = Attr.bytes a) attrs
        (starts 4 o (attrs.map fun a => a.bytes.length)) := by
  have hread : ∀ r ∈ attrs.map Attr.bytes,
      4 ≤ r.length ∧ ∀ o, load m o r.length = r → rtaLen m o = r.length := by
    intro r hr
    obtain ⟨a, -, rfl⟩ := List.mem_map.1 hr
    exact ⟨by rw [Attr.length_bytes]; omega, fun o ho => rtaLen_of_load ho⟩
  constructor
  · have hwalk := walk_layout (by decide) (by decide) laid hm hread hf
    rwa [List.map_map] at hwalk
  · have hstored := (laid.stored hm).forall₂
    rwa [List.map_map, List.forall₂_map_left_iff] at hstored

/-- **One message** read where it stands. -/
theorem visitMsg_of_load {env : Env} {fuel : Nat} {msg : Message} (h : load m o msg.bytes.length = msg.bytes)
    (hlen : msg.bytes.length ≤ bufLen) (hf : msg.bytes.length < fuel) {v : Visit}
    (hv : visitMsg env m fuel o = some v) : v.msgPtr = o ∧ Visits m msg v := by
  have hl := nlmsgLen_of_load h hlen
  have ht := nlmsgType_of_load h
  obtain ⟨hptr, -⟩ := visitMsg_cases (hl.le.trans hlen) hv
  refine ⟨hptr, ?_⟩
  suffices hattrs : v.attrs = starts 4 (rtmRta o) (msg.mainAttrs.map fun a => a.bytes.length) ∧
      List.Forall₂ (fun a o => load m o (Attr.bytes a).length = Attr.bytes a) msg.mainAttrs v.attrs by
    exact ⟨by rw [hptr]; exact h, by rw [hptr]; exact hattrs.1, hattrs.2⟩
  cases msg with
  | other type hdr body ne =>
    have hne : nlmsgType m o ≠ 24 := by
      rw [ht]
      exact fun he => ne (UInt16.toNat_inj.1 he)
    have hnil : v.attrs = [] := by
      unfold visitMsg at hv
      split at hv
      · rw [← Option.some.inj hv]
      · rw [← Option.some.inj hv]
      · next h24 => exact absurd h24 hne
      · rw [← Option.some.inj hv]
    rw [hnil]
    exact ⟨rfl, List.Forall₂.nil⟩
  | route hdr rtm attrs area laid =>
    have h24 : nlmsgType m o = 24 := ht
    obtain ⟨htable, harea⟩ := table_of_load h
    have hbody : (Message.route hdr rtm attrs area laid).bytes.length = 28 + area.length := by
      rw [Message.length_bytes]
      show 16 + (rtm.bytes ++ area).length = _
      rw [List.length_append, Rtm.length_bytes]
      omega
    rw [visitMsg, h24] at hv
    change printRoute env.ifIndexToName m (env.rtInfo o) fuel o = some v at hv
    by_cases hmain : rtm.table.toNat = rtTableMain
    · have hattrs : (Message.route hdr rtm attrs area laid).mainAttrs = attrs := if_pos hmain
      obtain ⟨hwalk, hstored⟩ := @walk_attrs m (rtmRta o) attrs area laid fuel harea (by omega)
      have hpay : (nlmsgLen m o : Int) - 28 = area.length := by omega
      rw [printRoute_eq (hl.le.trans hlen) (htable.trans hmain), hpay, hwalk] at hv
      rw [hattrs, ← Option.some.inj hv]
      exact ⟨rfl, hstored⟩
    · have hattrs : (Message.route hdr rtm attrs area laid).mainAttrs = [] := if_neg hmain
      rw [printRoute, if_pos (by rw [htable]; exact hmain)] at hv
      rw [hattrs, ← Option.some.inj hv]
      exact ⟨rfl, List.Forall₂.nil⟩

end

end Eltex.NetlinkRt
