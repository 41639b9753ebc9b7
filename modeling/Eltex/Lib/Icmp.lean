import Eltex.Lib.ByteMem

/-!
# ICMP packets as a raw socket delivers them

A packet is an IPv4 header of 20 to 60 bytes, its length in the low half of the first byte, with at
least the 8 bytes of an ICMP header behind it.  `EchoReply` and `TimeExceeded` read it as the
standards lay it out, behind its own header and, for what a router quotes, behind the quoted one.
A program that reads it into a buffer sees its first bytes there (`receive_of_lt`).
-/

namespace Icmp

open ByteMem

/-- Length of an IPv4 header with this first byte. -/
def headerLen (b : UInt8) : Nat := 4 * (b.toNat % 16)

structure Packet where
  bytes : List UInt8
  header_len : 20 ≤ headerLen (bytes.getD 0 0)
  icmp_len : headerLen (bytes.getD 0 0) + 8 ≤ bytes.length
deriving DecidableEq

/-- An echo request, as far as its reply repeats it. -/
structure Echo where
  id : Nat
  sequence : Nat
deriving Repr, DecidableEq

namespace Packet

variable (p : Packet)

/-- Memory that holds the packet. -/
def mem : Mem := fun i => p.bytes.getD i 0

/-- Where the ICMP header stands. -/
def icmp : Nat := headerLen (p.mem 0)

/-- The source address. -/
def source : List UInt8 := load p.mem 12 4

/-- An echo header of this type at `o`. -/
def EchoAt (o type : Nat) (e : Echo) : Prop :=
  o + 8 ≤ p.bytes.length ∧ (p.mem o).toNat = type ∧ be16 p.mem (o + 4) = e.id ∧
    be16 p.mem (o + 6) = e.sequence

/-- The reply to `e`. -/
def EchoReply (e : Echo) : Prop := p.EchoAt p.icmp 0 e

/-- A time-exceeded message that quotes the request `e`. -/
def TimeExceeded (e : Echo) : Prop :=
  (p.mem p.icmp).toNat = 11 ∧ (p.mem (p.icmp + 8 + 9)).toNat = 1 ∧
    p.EchoAt (p.icmp + 8 + headerLen (p.mem (p.icmp + 8))) 8 e

instance (o type : Nat) (e : Echo) : Decidable (p.EchoAt o type e) := inferInstanceAs (Decidable (_ ∧ _))

instance (e : Echo) : Decidable (p.EchoReply e) := inferInstanceAs (Decidable (p.EchoAt _ _ _))

instance (e : Echo) : Decidable (p.TimeExceeded e) := inferInstanceAs (Decidable (_ ∧ _))

theorem length_ge : 28 ≤ p.bytes.length := by
  have h1 := p.header_len
  have h2 := p.icmp_len
  omega

end Packet

/-- A buffer of `size` bytes after the packet was received into it; what is longer is cut off. -/
def receive (buffer : Mem) (size : Nat) (p : Packet) : Mem := store buffer 0 (p.bytes.take size)

/-- The 28 bytes every packet has are those of the packet, whatever the buffer held. -/
theorem receive_of_lt (buffer : Mem) {size : Nat} (hs : 28 ≤ size) (p : Packet) {i : Nat} (hi : i < 28) :
    receive buffer size p i = p.mem i := by
  have hlen := p.length_ge
  have htake : i < (p.bytes.take size).length := by
    rw [List.length_take]
    omega
  have h := store_add buffer 0 htake
  rw [Nat.zero_add] at h
  have hget : p.bytes[i]? = some p.bytes[i] := List.getElem?_eq_getElem (by omega)
  rw [receive, h, List.getElem_take, Packet.mem, List.getD_eq_getElem?_getD, hget, Option.getD_some]

theorem be16_receive (buffer : Mem) {size : Nat} (hs : 28 ≤ size) (p : Packet) {i : Nat} (hi : i + 1 < 28) :
    be16 (receive buffer size p) i = be16 p.mem i :=
  be16_congr (receive_of_lt buffer hs p (by omega)) (receive_of_lt buffer hs p hi)

theorem load_receive (buffer : Mem) {size : Nat} (hs : 28 ≤ size) (p : Packet) {i n : Nat} (hi : i + n ≤ 28) :
    load (receive buffer size p) i n = load p.mem i n :=
  load_congr fun j hj => receive_of_lt buffer hs p (by omega)

end Icmp
