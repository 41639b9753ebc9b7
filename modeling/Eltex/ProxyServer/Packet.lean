import Eltex.Lib.ByteMem
import Eltex.Lib.CString

/-!
# Packets of the DNS proxy

`proxy_server.h` and the kernel headers lay structures over the bytes of a
socket buffer.  Here a buffer is its memory from the IP header on, and every
structure is the offsets of its fields; words are loaded as the little-endian
host loads them, so `ntohs` and `htons` stand where the source has them.

    struct iphdr   tot_len 2, protocol 9, saddr 12, daddr 16           (20 bytes and options)
    struct udphdr  source 0, dest 2, len 4                             (8 bytes)
    struct dnshdr  id 0, rd..qr 2, rcode..ra 3, q_count 4, ans_count 6,
                   auth_count 8, add_count 10                          (12 bytes)
    struct r_data  name 0, type 2, _class 4, ttl 6, data_len 10, addr 12   (16 bytes, packed)
-/

namespace Eltex.ProxyServer

open ByteMem CString

def hostnameLen : Nat := 255

def ipprotoUdp : UInt8 := 17

/-- `dns_port`, set to `htons(53)` when the module is loaded. -/
def dnsPort : Nat := htons 53

def udphdrSize : Nat := 8

def dnshdrSize : Nat := 12

def rdataSize : Nat := 16

/-- A linear socket buffer with its network header at the start of the data.
`mem` goes on beyond the `len` bytes of the packet: the hooks can read there. -/
structure SkBuff where
  mem : Mem
  len : Nat
  /-- offset of the transport header -/
  transportHeader : Nat
  /-- the IP stack puts it behind the `ihl` words of the IP header, at least five -/
  ihl : transportHeader = 4 * ((mem 0).toNat % 16)
  iphdr_le : 20 ≤ transportHeader
  /-- it has checked that the IP header is there -/
  iphdr_in : transportHeader ≤ len

namespace SkBuff

variable (skb : SkBuff)

def protocol : UInt8 := skb.mem 9

/-- `udp_hdr(skb)` -/
def udph : Nat := skb.transportHeader

/-- `(struct dnshdr *) (udph + 1)` -/
def dnsh : Nat := skb.udph + udphdrSize

def source : Nat := loadLe skb.mem skb.udph 2

def dest : Nat := loadLe skb.mem (skb.udph + 2) 2

/-- The name both hooks copy: `strncpy(hname, (unsigned char *) (dnsh + 1), HOSTNAME_LEN)`. -/
def hname : List UInt8 := strncpy (load skb.mem (skb.dnsh + dnshdrSize) hostnameLen) hostnameLen

end SkBuff

/-- An IPv4 packet with a 20-byte header that carries a UDP datagram. -/
def udpPacket (source dest : Nat) (payload : List UInt8) : SkBuff :=
  let be (v : Nat) : List UInt8 := [UInt8.ofNat (v / 256), UInt8.ofNat v]
  let udpLen := 8 + payload.length
  let iphdr := [0x45, 0] ++ be (20 + udpLen) ++ [0, 0, 0, 0, 64, ipprotoUdp, 0, 0, 10, 0, 0, 1, 10, 0, 0, 2]
  let bytes := iphdr ++ be source ++ be dest ++ be udpLen ++ [0, 0] ++ payload
  { mem := fun i => (bytes[i]?).getD 0, len := 20 + udpLen, transportHeader := 20,
    ihl := by simp [bytes, iphdr], iphdr_le := Nat.le_refl _, iphdr_in := Nat.le_add_right _ _ }

/-- A query of one question, class IN. -/
def queryPayload (name : List UInt8) (qtype : UInt8) : List UInt8 :=
  [0x12, 0x34, 0x01, 0, 0, 1, 0, 0, 0, 0, 0, 0] ++ name ++ 0 :: [0, qtype, 0, 1]

/-- The answer to an A question: one record, of type `type` and with `dataLen` bytes announced. -/
def answerPayload (name : List UInt8) (type dataLen : UInt8) (rdata : List UInt8) : List UInt8 :=
  [0x12, 0x34, 0x81, 0x80, 0, 1, 0, 1, 0, 0, 0, 0] ++ name ++
    0 :: ([0, 1, 0, 1, 0xc0, 0x0c, 0, type, 0, 1, 0, 0, 0, 60, 0, dataLen] ++ rdata)

/-- `struct r_data`, its words as they stand in memory. -/
structure RData where
  name : Nat
  type : Nat
  _class : Nat
  ttl : Nat
  dataLen : Nat
  addr : Nat
deriving Repr, DecidableEq

/-- The record at offset `p`. -/
def readRData (m : Mem) (p : Nat) : RData where
  name := loadLe m p 2
  type := loadLe m (p + 2) 2
  _class := loadLe m (p + 4) 2
  ttl := loadLe m (p + 6) 4
  dataLen := loadLe m (p + 10) 2
  addr := loadLe m (p + 12) 4

/-- `struct dns_node` but for the tree links, which the tree itself models. -/
structure DnsNode where
  /-- the array `host_name` -/
  hostName : List UInt8
  hostName_length : hostName.length = hostnameLen
  addr : UInt32
  ttl : UInt32
  /-- memory behind the array, which `strcmp` reads when the name fills it -/
  behind : List UInt8
deriving DecidableEq

/-- What a `char *` to the node's name sees. -/
def DnsNode.hostMem (node : DnsNode) : List UInt8 := node.hostName ++ node.behind

namespace SkBuff

variable (skb : SkBuff)

theorem twenty_le_udph : 20 ≤ skb.udph := skb.iphdr_le

theorem udph_le_len : skb.udph ≤ skb.len := skb.iphdr_in

theorem dnsh_eq : skb.dnsh = skb.udph + 8 := rfl

/-! ## Names in packets -/

@[simp] theorem hname_length : skb.hname.length = hostnameLen := strncpy_length _ _

/-- `name` is the question name as a string: its bytes stand behind the DNS
header, none is NUL, a NUL follows, and both fit `HOSTNAME_LEN` bytes. -/
structure Named (name : List UInt8) : Prop where
  bytes : load skb.mem (skb.dnsh + dnshdrSize) name.length = name
  no_nul : 0 ∉ name
  nul : skb.mem (skb.dnsh + dnshdrSize + name.length) = 0
  fits : name.length < hostnameLen

/-- A whole question, `QTYPE` and `QCLASS` behind the name, inside the packet. -/
structure Question (name : List UInt8) : Prop extends Named skb name where
  inside : skb.dnsh + dnshdrSize + name.length + 5 ≤ skb.len

variable {skb} {name : List UInt8}

theorem cstr_load_of_named (h : skb.Named name) :
    cstr (load skb.mem (skb.dnsh + dnshdrSize) hostnameLen) = name := by
  have hlen := h.fits
  obtain ⟨k, hk⟩ : ∃ k, hostnameLen = name.length + (1 + k) := ⟨hostnameLen - name.length - 1, by omega⟩
  have hz : load skb.mem (skb.dnsh + dnshdrSize + name.length) 1 = [0] := by
    rw [← h.nul]
    rfl
  rw [hk, load_append, load_append, h.bytes, hz]
  exact cstr_append_zero h.no_nul _

/-- The copied name is the question name, whatever lies behind the buffer. -/
theorem cstr_hname_of_named (h : skb.Named name) (t : List UInt8) : cstr (skb.hname ++ t) = name := by
  have hc := cstr_load_of_named h
  rw [hname, cstr_strncpy_append (by rw [hc]; exact h.fits), hc]

theorem cstr_hname (h : skb.Named name) : cstr skb.hname = name := by
  rw [← cstr_hname_of_named h [], List.append_nil]

theorem strlen_hname_append (h : skb.Named name) (t : List UInt8) :
    strlen (skb.hname ++ t) = name.length := by
  rw [strlen_eq, cstr_hname_of_named h]

theorem named_of_zero_mem (h : 0 ∈ skb.hname) :
    skb.Named (cstr (load skb.mem (skb.dnsh + dnshdrSize) hostnameLen)) := by
  generalize hl : load skb.mem (skb.dnsh + dnshdrSize) hostnameLen = l
  have hlen : l.length = hostnameLen := by rw [← hl, length_load]
  rw [hname, hl, zero_mem_strncpy_iff] at h
  have hmem : 0 ∈ l := by
    apply Classical.byContradiction
    intro hn
    rw [cstr_eq_self hn] at h
    omega
  obtain ⟨s, u, rfl, hs⟩ := List.eq_append_cons_of_mem hmem
  rw [cstr_append_zero hs] at h ⊢
  have hle : s.length + (1 + u.length) = hostnameLen := by rw [← hlen]; simp; omega
  have hsplit : load skb.mem (skb.dnsh + dnshdrSize) s.length ++
      load skb.mem (skb.dnsh + dnshdrSize + s.length) (1 + u.length) = s ++ 0 :: u := by
    rw [← load_append, hle, hl]
  have h2 := List.append_inj hsplit (by simp)
  refine ⟨h2.1, hs, ?_, h⟩
  have h3 := h2.2
  rw [load_append] at h3
  exact (List.cons.inj h3).1

/-- The 255-byte buffer holds a NUL exactly when the packet has a name that fits it. -/
theorem zero_mem_hname_iff : 0 ∈ skb.hname ↔ ∃ name, skb.Named name := by
  constructor
  · intro h
    exact ⟨_, named_of_zero_mem h⟩
  · rintro ⟨name, h⟩
    rw [hname, zero_mem_strncpy_iff, cstr_load_of_named h]
    exact h.fits

end SkBuff

/-! ## Datagrams -/

section
variable (source dest : Nat) (payload : List UInt8)
@[simp] theorem udpPacket_dnsh : (udpPacket source dest payload).dnsh = 28 := rfl

@[simp] theorem udpPacket_len : (udpPacket source dest payload).len = 28 + payload.length := by
  show 20 + (8 + payload.length) = _
  omega

@[simp] theorem udpPacket_protocol : (udpPacket source dest payload).protocol = ipprotoUdp := by
  simp [SkBuff.protocol, udpPacket]

@[simp] theorem udpPacket_source : (udpPacket source dest payload).source = htons source := by
  show loadLe (udpPacket source dest payload).mem 20 2 = _
  rw [loadLe_two]
  simp [udpPacket, htons]
  omega

@[simp] theorem udpPacket_dest : (udpPacket source dest payload).dest = htons dest := by
  show loadLe (udpPacket source dest payload).mem 22 2 = _
  rw [loadLe_two]
  simp [udpPacket, htons]
  omega

theorem udpPacket_payload (i : Nat) :
    (udpPacket source dest payload).mem (28 + i) = (payload[i]?).getD 0 := by
  unfold udpPacket
  simp only
  rw [List.getElem?_append_right (by simp)]
  simp

theorem udpPacket_named {hdr name rest : List UInt8} (hh : hdr.length = 12) (h0 : 0 ∉ name)
    (hl : name.length < hostnameLen) :
    (udpPacket source dest (hdr ++ name ++ 0 :: rest)).Named name := by
  refine ⟨?_, h0, ?_, hl⟩
  · rw [load_eq_iff]
    intro i hi
    show (udpPacket source dest (hdr ++ name ++ 0 :: rest)).mem (28 + 12 + i) = _
    rw [Nat.add_assoc, udpPacket_payload, List.append_assoc, List.getElem?_append_right (by omega)]
    have : 12 + i - hdr.length = i := by omega
    rw [this, List.getElem?_append_left hi, List.getElem?_eq_getElem hi]
    rfl
  · show (udpPacket source dest (hdr ++ name ++ 0 :: rest)).mem (28 + 12 + name.length) = 0
    rw [Nat.add_assoc, udpPacket_payload, List.getElem?_append_right (by simp; omega)]
    simp [hh]

theorem udpPacket_query_named {name : List UInt8} (qtype : UInt8) (h0 : 0 ∉ name)
    (hl : name.length < hostnameLen) :
    (udpPacket source dest (queryPayload name qtype)).Named name :=
  udpPacket_named source dest rfl h0 hl

theorem udpPacket_answer_named {name : List UInt8} (type dataLen : UInt8) (rdata : List UInt8)
    (h0 : 0 ∉ name) (hl : name.length < hostnameLen) :
    (udpPacket source dest (answerPayload name type dataLen rdata)).Named name :=
  udpPacket_named source dest rfl h0 hl

end

end Eltex.ProxyServer
