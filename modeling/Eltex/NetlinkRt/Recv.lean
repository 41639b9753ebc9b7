import Eltex.Lib.CString
import Eltex.Lib.Printf
import Eltex.Lib.RecordWalk

/-!
# The route listing

The program asks the kernel for its routes over a netlink socket and prints the answer.
`replyMsg` receives one datagram into `message` and walks its headers with `NLMSG_OK` and
`NLMSG_NEXT`; `printRoute` walks the attributes of one route with `RTA_OK` and `RTA_NEXT`.  Both
walks keep the bytes left in an `int` that is reduced by unsigned lengths.

Offsets are into `message`, which is followed by whatever the stack holds.  `rt_info` is never
initialised: what it holds when `print_route` is called for the header at an offset is a
parameter.  As long as the `int`s do not overflow, both loops are walks over records
(`replyLoop_eq`, `routeLoop_eq`).
-/

namespace Eltex.NetlinkRt

open ByteMem CString Printf RecordWalk

/-! ## The macros of the netlink headers -/

/-- `BUF_LEN` -/
abbrev bufLen : Nat := 8192

/-- `NLMSG_ALIGN` and `RTA_ALIGN`, in unsigned arithmetic. -/
def nlAlign (len : Nat) : Nat := (len + 3) % 4294967296 / 4 * 4

section
variable (m : Mem)

/-! `struct nlmsghdr`, 16 bytes -/

def nlmsgLen (nlh : Nat) : Nat := loadLe m nlh 4
def nlmsgType (nlh : Nat) : Nat := loadLe m (nlh + 4) 2

/-! `struct rtattr`, 4 bytes -/

def rtaLen (rta : Nat) : Nat := loadLe m rta 2
def rtaType (rta : Nat) : Nat := loadLe m (rta + 2) 2

/-- `rtm_table` of the `struct rtmsg`, 12 bytes, behind the header. -/
def rtmTable (nlh : Nat) : Nat := (m (nlh + 16 + 4)).toNat

/-- `NLMSG_OK`; the last comparison is unsigned. -/
def NlmsgOk (nlh : Nat) (len : Int) : Prop :=
  16 ≤ len ∧ 16 ≤ nlmsgLen m nlh ∧ (nlmsgLen m nlh : Int) ≤ len % 4294967296

/-- `NLMSG_NEXT`: the next header and the new `len`. -/
def nlmsgNext (nlh : Nat) (len : Int) : Nat × Int :=
  (nlh + nlAlign (nlmsgLen m nlh), toInt32 (len - nlAlign (nlmsgLen m nlh)))

/-- `RTA_OK` -/
def RtaOk (rta : Nat) (len : Int) : Prop := 4 ≤ len ∧ 4 ≤ rtaLen m rta ∧ (rtaLen m rta : Int) ≤ len

/-- `RTA_NEXT` -/
def rtaNext (rta : Nat) (len : Int) : Nat × Int :=
  (rta + nlAlign (rtaLen m rta), toInt32 (len - nlAlign (rtaLen m rta)))

/-- `RTM_RTA(NLMSG_DATA(nlh))` -/
def rtmRta (nlh : Nat) : Nat := nlh + 16 + 12

/-- `RTM_PAYLOAD` -/
def rtmPayload (nlh : Nat) : Int := toInt32 (nlmsgLen m nlh - 28)

instance (nlh : Nat) (len : Int) : Decidable (NlmsgOk m nlh len) := inferInstanceAs (Decidable (_ ∧ _))

instance (rta : Nat) (len : Int) : Decidable (RtaOk m rta len) := inferInstanceAs (Decidable (_ ∧ _))

end

/-! ## `print_route` -/

/-- `RT_TABLE_MAIN` -/
abbrev rtTableMain : Nat := 254

structure RouteInfo where
  dstAddr : Nat
  srcAddr : Nat
  gateway : Nat
  /-- memory from `if_name` on -/
  ifName : List UInt8

/-- `if_indextoname`: the name of an interface, if there is one. -/
abbrev IfNames := Nat → Option (List UInt8)

def ntoa (addr : Nat) : List UInt8 :=
  decimal (addr % 256) ++ ascii "." ++ decimal (addr / 256 % 256) ++ ascii "." ++
    decimal (addr / 65536 % 256) ++ ascii "." ++ decimal (addr / 16777216 % 256)

/-- What one attribute with this type and this word behind its header leaves in `rt_info`. -/
def RouteInfo.store (ifIndexToName : IfNames) (rtInfo : RouteInfo) (type word : Nat) : RouteInfo :=
  match type with
  | 4 => -- RTA_OIF; the buffer stays as it is when the call fails
    match ifIndexToName word with
    | some name => { rtInfo with ifName := name ++ 0 :: rtInfo.ifName.drop (name.length + 1) }
    | none => rtInfo
  | 5 => { rtInfo with gateway := word } -- RTA_GATEWAY
  | 7 => { rtInfo with srcAddr := word } -- RTA_PREFSRC
  | 1 => { rtInfo with dstAddr := word } -- RTA_DST
  | _ => rtInfo

/-- The `switch` on the attribute at `rta`. -/
def routeAttr (ifIndexToName : IfNames) (m : Mem) (rtInfo : RouteInfo) (rta : Nat) : RouteInfo :=
  rtInfo.store ifIndexToName (rtaType m rta) (loadLe m (rta + 4) 4)

/-- The attributes met and what they leave in `rt_info`; `none` when the fuel runs out. -/
def routeLoop (ifIndexToName : IfNames) (m : Mem) :
    Nat → Nat → Int → RouteInfo → Option (List Nat × RouteInfo)
  | 0, _, _, _ => none
  | fuel + 1, rtAttr, rtLen, rtInfo =>
    if RtaOk m rtAttr rtLen then
      let next := rtaNext m rtAttr rtLen
      (routeLoop ifIndexToName m fuel next.1 next.2 (routeAttr ifIndexToName m rtInfo rtAttr)).map
        fun (attrs, rtInfo) => (rtAttr :: attrs, rtInfo)
    else some ([], rtInfo)

/-- The four `printf`s. -/
def RouteInfo.line (rtInfo : RouteInfo) : List UInt8 :=
  (if rtInfo.dstAddr ≠ 0 then ntoa rtInfo.dstAddr else ascii "0.0.0.0  ") ++ [9] ++
    (if rtInfo.gateway ≠ 0 then ntoa rtInfo.gateway else ascii "*.*.*.*") ++ [9] ++
    cstr rtInfo.ifName ++ [9] ++
    (if rtInfo.srcAddr ≠ 0 then ntoa rtInfo.srcAddr else ascii "*.*.*.*") ++ [10]

/-- What is done for one header: the attributes met and the text printed, if any. -/
structure Visit where
  msgPtr : Nat
  attrs : List Nat
  text : Option (List UInt8)
deriving Repr, DecidableEq

def printRoute (ifIndexToName : IfNames) (m : Mem) (rtInfo : RouteInfo) (fuel : Nat) (nlh : Nat) :
    Option Visit :=
  if rtmTable m nlh ≠ rtTableMain then some ⟨nlh, [], none⟩
  else
    (routeLoop ifIndexToName m fuel (rtmRta nlh) (rtmPayload m nlh) rtInfo).map
      fun (attrs, rtInfo) => ⟨nlh, attrs, some rtInfo.line⟩

/-! ## `reply_msg` -/

/-- What the program finds around it: the interfaces, the stack under `message`, and what `rt_info`
holds when `print_route` is called for the header at an offset. -/
structure Env where
  ifIndexToName : IfNames
  stack : Mem
  rtInfo : Nat → RouteInfo

/-- The `switch` on the type of a message. -/
def visitMsg (env : Env) (m : Mem) (fuel : Nat) (msgPtr : Nat) : Option Visit :=
  match nlmsgType m msgPtr with
  | 3 => some ⟨msgPtr, [], none⟩
  | 16 => some ⟨msgPtr, [], none⟩
  | 24 => printRoute env.ifIndexToName m (env.rtInfo msgPtr) fuel msgPtr
  | type => some ⟨msgPtr, [], some (ascii "message type " ++ decimal type ++ ascii ", length " ++
      decimal (nlmsgLen m msgPtr) ++ [10])⟩

def replyLoop (env : Env) (m : Mem) (rtaFuel : Nat) : Nat → Nat → Int → Option (List Visit)
  | 0, _, _ => none
  | fuel + 1, msgPtr, len =>
    if NlmsgOk m msgPtr len then
      let next := nlmsgNext m msgPtr len
      (visitMsg env m rtaFuel msgPtr).bind fun visit =>
        (replyLoop env m rtaFuel fuel next.1 next.2).map fun visits => visit :: visits
    else some []

/-- `message` after `recvmsg`. -/
def Env.message (env : Env) (received : List UInt8) : Mem := store env.stack 0 received

/-- Return value and headers met, for what `recvmsg` gives: a datagram, of which it stores the first
`BUF_LEN` bytes, or an error. -/
def replyMsg (env : Env) (fuel : Nat) : Option (List UInt8) → Option (Int × List Visit)
  | none => some (-1, [])
  | some datagram =>
    let received := datagram.take bufLen
    (replyLoop env (env.message received) fuel fuel 0 received.length).map fun visits => (0, visits)

/-! ## The loops as walks -/

theorem nlAlign_eq {n : Nat} (h : n + 3 < 4294967296) : nlAlign n = alignTo 4 n := by
  unfold nlAlign alignTo
  rw [Nat.mod_eq_of_lt h]

section
variable {m : Mem} {len : Int}

theorem nlmsgOk_iff {nlh : Nat} (h : len < 2147483648) :
    NlmsgOk m nlh len ↔ Valid 16 (nlmsgLen m) nlh len := by
  unfold NlmsgOk Valid
  constructor
  · rintro ⟨h1, h2, h3⟩
    exact ⟨h1, h2, by omega⟩
  · rintro ⟨h1, h2, h3⟩
    exact ⟨h1, h2, by omega⟩

theorem rtaOk_iff {rta : Nat} : RtaOk m rta len ↔ Valid 4 (rtaLen m) rta len := Iff.rfl

/-- Without overflow the next header is behind the padded record. -/
theorem nlmsgNext_eq {nlh : Nat} (h : len < 2147483648) (hv : Valid 16 (nlmsgLen m) nlh len) :
    nlmsgNext m nlh len =
      (nlh + alignTo 4 (nlmsgLen m nlh), len - alignTo 4 (nlmsgLen m nlh)) := by
  obtain ⟨h1, h2, h3⟩ := hv
  have hlt := alignTo_lt (by decide : 0 < 4) (nlmsgLen m nlh)
  unfold nlmsgNext
  rw [nlAlign_eq (by omega), toInt32_eq (by omega) (by omega)]

theorem rtaNext_eq {rta : Nat} (h : len < 2147483648) (hv : Valid 4 (rtaLen m) rta len) :
    rtaNext m rta len = (rta + alignTo 4 (rtaLen m rta), len - alignTo 4 (rtaLen m rta)) := by
  obtain ⟨h1, h2, h3⟩ := hv
  have hlt := alignTo_lt (by decide : 0 < 4) (rtaLen m rta)
  unfold rtaNext
  rw [nlAlign_eq (by omega), toInt32_eq (by omega) (by omega)]

/-- **The attribute loop** walks the records of the payload and stores one after another. -/
theorem routeLoop_eq (ifIndexToName : IfNames) {fuel rta : Nat} (h : len < 2147483648) (rtInfo : RouteInfo) :
    routeLoop ifIndexToName m fuel rta len rtInfo =
      (walk 4 4 (rtaLen m) fuel rta len).map fun attrs =>
        (attrs, attrs.foldl (routeAttr ifIndexToName m) rtInfo) := by
  induction fuel generalizing rta len rtInfo with
  | zero => rfl
  | succ fuel ih =>
    unfold routeLoop
    by_cases hv : Valid 4 (rtaLen m) rta len
    · rw [walk_succ_of_valid hv, if_pos (rtaOk_iff.2 hv)]
      simp only [rtaNext_eq h hv]
      rw [ih (by omega), Option.map_map, Option.map_map]
      rfl
    · rw [walk_succ_of_not_valid hv, if_neg (fun hok => hv (rtaOk_iff.1 hok))]
      rfl

/-- **The message loop** walks the records of the datagram and visits one after another. -/
theorem replyLoop_eq (env : Env) (rtaFuel : Nat) {fuel msgPtr : Nat} (h : len < 2147483648) :
    replyLoop env m rtaFuel fuel msgPtr len =
      (walk 4 16 (nlmsgLen m) fuel msgPtr len).bind fun os => os.mapM (visitMsg env m rtaFuel) := by
  induction fuel generalizing msgPtr len with
  | zero => rfl
  | succ fuel ih =>
    unfold replyLoop
    by_cases hv : Valid 16 (nlmsgLen m) msgPtr len
    · rw [walk_succ_of_valid hv, if_pos ((nlmsgOk_iff h).2 hv)]
      simp only [nlmsgNext_eq h hv]
      rw [ih (by omega)]
      cases walk 4 16 (nlmsgLen m) fuel (msgPtr + alignTo 4 (nlmsgLen m msgPtr))
          (len - alignTo 4 (nlmsgLen m msgPtr)) with
      | none => simp
      | some os => simp [List.mapM_cons, Option.map_eq_bind]
    · rw [walk_succ_of_not_valid hv, if_neg (fun hok => hv ((nlmsgOk_iff h).1 hok))]
      rfl

end

end Eltex.NetlinkRt
