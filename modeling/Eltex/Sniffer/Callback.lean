import Eltex.Sniffer.CheckSum
import Mathlib.Tactic.IntervalCases

/-!
# What the sniffer prints of a frame

`callback` takes the Ethernet header, the IP header and the UDP header from the bytes that were
captured and prints their fields; it does not look at `header`, which has their number.

    struct ethernet_header  dmac 0, smac 6, type 12                     (14 bytes)
    struct ipv4_header      ver_ihl 0, tlen 2, ident 4, offset 6, ttl 8, protocol 9, sum 10
    struct udp_header       sport 0, dport 2, length 4, sum 6           (8 bytes)

A checksum of 0 is reported as wrong, and it is 0 for the headers that verify: they are rejected and
no others (`rejects_iff`).  The fields of the IP header are printed as the host reads them, and the
UDP header is taken to stand where the IP header does (`decodes_iff`).  How far the frame is read
depends on what it says of itself alone (`reads_captured_iff`).
-/

namespace Eltex.Sniffer

open ByteMem OnesComplement Footprint Access

/-- A call of `printf`. -/
structure Printf where
  format : String
  args : List Nat
deriving Repr, DecidableEq

structure Ipv4Fields where
  verIhl : Nat
  tos : Nat
  tlen : Nat
  ident : Nat
  offset : Nat
  ttl : Nat
  protocol : Nat
  sum : Nat
deriving Repr, DecidableEq

structure UdpFields where
  sport : Nat
  dport : Nat
  length : Nat
  sum : Nat
deriving Repr, DecidableEq

def rule : Printf := ⟨"-----------------------------------------------------", []⟩

def Ipv4Fields.lines (f : Ipv4Fields) : List Printf :=
  [⟨"\n", []⟩, ⟨"ver_ihl  - %d\n", [f.verIhl]⟩, ⟨"tos      - %d\n", [f.tos]⟩, ⟨"tlen     - %d\n", [f.tlen]⟩,
    ⟨"ident    - %d\n", [f.ident]⟩, ⟨"offset   - %d\n", [f.offset]⟩, ⟨"ttl      - %d\n", [f.ttl]⟩,
    ⟨"protocol - %d\n", [f.protocol]⟩, ⟨"checksum - %d\n\n", [f.sum]⟩, rule, ⟨"\n", []⟩]

def UdpFields.lines (f : UdpFields) : List Printf :=
  [⟨"source port      - %d\n", [f.sport]⟩, ⟨"destination port - %d\n", [f.dport]⟩,
    ⟨"length           - %d\n", [f.length]⟩, ⟨"checksum         - %d\n", [f.sum]⟩]

/-- `switch (ntohs(eth->type))` -/
def etherName (type : Nat) : String :=
  if type = 0x0806 then "ARP\n"
  else if type = 0x0800 then "IP\n"
  else if type = 0x8035 then "RARP\n"
  else "unknown\n"

/-- `switch (ipv4->protocol)` -/
def protocolName (protocol : UInt8) : String :=
  if protocol = 6 then "TCP\n"
  else if protocol = 17 then "UDP\n"
  else if protocol = 1 then "ICMP\n"
  else if protocol = 0 then "IP\n"
  else "unknown\n"

/-- `IP_IHL` -/
def ipIhl (verIhl : UInt8) : Nat := verIhl.toNat % 16

/-- The fields of `ipv4`, none of them through `ntohs`. -/
def readIpv4 (ipv4 : Nat) : Access Ipv4Fields := do
  let verIhl ← byte ipv4
  let tos ← byte (ipv4 + 1)
  let tlen ← word (ipv4 + 2)
  let ident ← word (ipv4 + 4)
  let offset ← word (ipv4 + 6)
  let ttl ← byte (ipv4 + 8)
  let protocol ← byte (ipv4 + 9)
  let sum ← word (ipv4 + 10)
  pure ⟨verIhl.toNat, tos.toNat, tlen, ident, offset, ttl.toNat, protocol.toNat, sum⟩

def readUdp (udp : Nat) : Access UdpFields := do
  let sport ← word udp
  let dport ← word (udp + 2)
  let length ← word (udp + 4)
  let sum ← word (udp + 6)
  pure ⟨ntohs sport, ntohs dport, ntohs length, ntohs sum⟩

/-- From `Protocol` on. -/
def transport (ipv4 : Nat) : Access (List Printf) := do
  let protocol ← byte (ipv4 + 9)
  let name := [⟨"Protocol - ", []⟩, ⟨protocolName protocol, []⟩]
  if protocol = 17 then do
    let udp ← readUdp ipv4 -- `udp = (udp_header *)ipv4`
    pure (name ++ udp.lines)
  else pure name

def wrongChecksum : Printf := ⟨"Wrong checksum\n", []⟩

/-- The checks of the IP header, and what is printed of it. -/
def network (sum : UInt32) (ipv4 : Nat) : Access (List Printf) := do
  let verIhl ← byte ipv4
  let ipSize := ipIhl verIhl * 4
  if ipSize < 20 then pure [⟨"Wrong package size: %d bytes\n", [ipSize]⟩]
  else do
    let check ← checkSum sum ipv4 ipSize
    if check = 0 then pure [wrongChecksum]
    else do
      let fields ← readIpv4 ipv4
      let rest ← transport ipv4
      pure (fields.lines ++ rest)

/-- `sum` is what `check_sum` finds in its variable. -/
def callback (sum : UInt32) : Access (List Printf) := do
  let type ← word 12
  let name := [⟨"Ethernet header - ", []⟩, ⟨etherName (ntohs type), []⟩]
  if ntohs type = 0x0800 then do
    let smac ← bytes 6 6
    let dmac ← bytes 0 6
    let rest ← network sum 14
    pure (name ++ ⟨"Source mac - %x.%x.%x.%x.%x.%x\n", smac.map UInt8.toNat⟩ ::
      ⟨"Destination mac - %x.%x.%x.%x.%x.%x\n\n", dmac.map UInt8.toNat⟩ :: rule :: rest)
  else pure name

section
variable (sum : UInt32) (packet : Mem)

/-- The header length the packet gives. -/
def ipSize : Nat := ipIhl (packet 14) * 4

/-- A frame of type IPv4 with a header of 20 bytes at least. -/
structure IsIpv4 : Prop where
  type : be16 packet 12 = 0x0800
  ihl : 5 ≤ ipIhl (packet 14)

/-- The IP header, options included. -/
def ipHeader : List UInt8 := load packet 14 (ipSize packet)

/-- What is printed before the IP header is looked at. -/
def ethernetLines : List Printf :=
  [⟨"Ethernet header - ", []⟩, ⟨"IP\n", []⟩,
    ⟨"Source mac - %x.%x.%x.%x.%x.%x\n", (load packet 6 6).map UInt8.toNat⟩,
    ⟨"Destination mac - %x.%x.%x.%x.%x.%x\n\n", (load packet 0 6).map UInt8.toNat⟩, rule]

variable {packet}

theorem run_callback (h : be16 packet 12 = 0x0800) :
    run (callback sum) packet = ethernetLines packet ++ run (network sum 14) packet := by
  have htype : ntohs (loadLe packet 12 2) = 0x0800 := (htons_loadLe packet 12).trans h
  simp only [callback, run_bind, run_word, htype, if_true, run_bytes, run_pure]
  rfl

theorem even_ipSize (packet : Mem) : ipSize packet % 2 = 0 := by
  unfold ipSize
  omega

theorem ipSize_le (packet : Mem) : ipSize packet ≤ 65535 := by
  unfold ipSize ipIhl
  omega

theorem IsIpv4.size (h : IsIpv4 packet) : 20 ≤ ipSize packet := Nat.mul_le_mul_right 4 h.ihl

theorem run_network (h : 20 ≤ ipSize packet) :
    run (network sum 14) packet =
      if run (checkSum sum 14 (ipSize packet)) packet = 0 then [wrongChecksum]
      else (run (readIpv4 14) packet).lines ++ run (transport 14) packet := by
  have hsize : ¬ ipIhl (packet 14) * 4 < 20 := Nat.not_lt.2 h
  simp only [network, run_bind, run_byte, run_ite, if_neg hsize, run_pure]
  rfl

theorem run_callback_ipv4 (h : IsIpv4 packet) :
    run (callback sum) packet = ethernetLines packet ++
      if run (checkSum sum 14 (ipSize packet)) packet = 0 then [wrongChecksum]
      else (run (readIpv4 14) packet).lines ++ run (transport 14) packet := by
  rw [run_callback sum h.type, run_network sum h.size]

/-! ## Which headers are rejected -/

theorem lines_append_ne {f : Ipv4Fields} {rest : List Printf} : f.lines ++ rest ≠ [wrongChecksum] := by
  intro heq
  have hlen := congrArg List.length heq
  simp [Ipv4Fields.lines] at hlen

variable (packet)

/-- A wrong checksum is reported, and nothing after it. -/
def Rejects : Prop := run (callback sum) packet = ethernetLines packet ++ [wrongChecksum]

/-- The fields are printed. -/
def PrintsFields : Prop :=
  ∃ rest, run (callback sum) packet = ethernetLines packet ++ ((run (readIpv4 14) packet).lines ++ rest)

/-- What the test is for. -/
def RejectsCorrupt : Prop :=
  (Rejects sum packet ↔ ¬ Verifies (ipHeader packet)) ∧
    (Verifies (ipHeader packet) → PrintsFields sum packet)

variable {sum packet}

theorem rejects_iff_checkSum (h : IsIpv4 packet) :
    Rejects sum packet ↔ run (checkSum sum 14 (ipSize packet)) packet = 0 := by
  rw [Rejects, run_callback_ipv4 sum h, List.append_cancel_left_eq]
  constructor
  · intro heq
    by_contra hne
    rw [if_neg hne] at heq
    exact lines_append_ne heq
  · intro hzero
    rw [if_pos hzero]

theorem printsFields_iff_checkSum (h : IsIpv4 packet) :
    PrintsFields sum packet ↔ run (checkSum sum 14 (ipSize packet)) packet ≠ 0 := by
  rw [PrintsFields, run_callback_ipv4 sum h]
  simp only [List.append_cancel_left_eq]
  constructor
  · rintro ⟨rest, heq⟩ hzero
    rw [if_pos hzero] at heq
    exact lines_append_ne heq.symm
  · intro hne
    rw [if_neg hne]
    exact ⟨_, rfl⟩

/-- **Rejected** are the headers that verify, the fields of all others are printed, when the sum is
started with zero. -/
theorem rejects_iff (h : IsIpv4 packet) :
    (Rejects 0 packet ↔ Verifies (ipHeader packet)) ∧
      (PrintsFields 0 packet ↔ ¬ Verifies (ipHeader packet)) ∧ ¬ RejectsCorrupt 0 packet := by
  have hzero := checkSum_eq_zero_iff packet 14 (even_ipSize packet) (ipSize_le packet)
  have hrejects := (rejects_iff_checkSum h).trans hzero
  have hprints := (printsFields_iff_checkSum h).trans (not_congr hzero)
  refine ⟨hrejects, hprints, ?_⟩
  rintro ⟨hcorrupt, -⟩
  exact iff_not_self (hrejects.symm.trans hcorrupt)

/-- A frame with a UDP packet of 8 bytes, from port 53; its IP header verifies. -/
def goodFrame : Mem := fun i =>
  [1, 1, 1, 1, 1, 1, 2, 2, 2, 2, 2, 2, 8, 0, 0x45, 0, 0, 28, 0x12, 0x34, 0, 0, 64, 17, 0x54, 0x9b,
    10, 0, 0, 1, 10, 0, 0, 2, 0, 53, 0x13, 0x88, 0, 8, 0, 0].getD i 0

theorem isIpv4_goodFrame : IsIpv4 goodFrame := ⟨by decide, by decide⟩

theorem rejects_goodFrame : Rejects 0 goodFrame ∧ Verifies (ipHeader goodFrame) :=
  ⟨(rejects_iff isIpv4_goodFrame).1.2 (by decide), by decide⟩

/-- The sniffer rejects it. -/
theorem not_rejectsCorrupt : ¬ ∀ packet, IsIpv4 packet → RejectsCorrupt 0 packet := by
  intro h
  have hgood : Verifies (ipHeader goodFrame) := by decide
  have hzero := (checkSum_eq_zero_iff goodFrame 14 (even_ipSize _) (ipSize_le _)).2 hgood
  have hrejects := (rejects_iff_checkSum isIpv4_goodFrame).2 hzero
  exact (h goodFrame isIpv4_goodFrame).1.1 hrejects hgood

/-! ## What is decoded -/

/-- Where the UDP header stands. -/
def udpAt (packet : Mem) : Nat := 14 + ipSize packet

/-- The IP header as it was encoded. -/
def ipv4Fields (packet : Mem) : Ipv4Fields where
  verIhl := (packet 14).toNat
  tos := (packet 15).toNat
  tlen := be16 packet 16
  ident := be16 packet 18
  offset := be16 packet 20
  ttl := (packet 22).toNat
  protocol := (packet 23).toNat
  sum := be16 packet 24

def udpFields (packet : Mem) : UdpFields where
  sport := be16 packet (udpAt packet)
  dport := be16 packet (udpAt packet + 2)
  length := be16 packet (udpAt packet + 4)
  sum := be16 packet (udpAt packet + 6)

/-- A UDP packet behind an IP header that passes the checks. -/
structure IsUdp (sum : UInt32) (packet : Mem) : Prop extends IsIpv4 packet where
  protocol : packet 23 = 17
  passes : run (checkSum sum 14 (ipSize packet)) packet ≠ 0

/-- What `callback` prints when these fields are what it read. -/
def decodedLines (packet : Mem) (ipv4 : Ipv4Fields) (udp : UdpFields) : List Printf :=
  ethernetLines packet ++ (ipv4.lines ++ (⟨"Protocol - ", []⟩ :: ⟨"UDP\n", []⟩ :: udp.lines))

/-- The fields are printed as they were encoded. -/
def Decodes (sum : UInt32) (packet : Mem) : Prop :=
  run (callback sum) packet = decodedLines packet (ipv4Fields packet) (udpFields packet)

/-- The words of the IP header read the same both ways, and the bytes of the UDP header are those the IP
header starts with. -/
structure SameBytes (packet : Mem) : Prop where
  tlen : packet 16 = packet 17
  ident : packet 18 = packet 19
  offset : packet 20 = packet 21
  sum : packet 24 = packet 25
  udp : ∀ i < 8, packet (14 + i) = packet (udpAt packet + i)

theorem run_callback_udp (h : IsUdp sum packet) :
    run (callback sum) packet = decodedLines packet (run (readIpv4 14) packet) (run (readUdp 14) packet) := by
  have hudp : run (transport 14) packet =
      ⟨"Protocol - ", []⟩ :: ⟨"UDP\n", []⟩ :: (run (readUdp 14) packet).lines := by
    simp only [transport, run_bind, run_byte, Nat.reduceAdd, h.protocol, if_true, run_pure]
    rfl
  rw [run_callback_ipv4 sum h.toIsIpv4, if_neg h.passes, hudp]
  rfl

/-- Different fields are printed differently. -/
theorem decodedLines_inj {f f' : Ipv4Fields} {g g' : UdpFields} :
    decodedLines packet f g = decodedLines packet f' g' ↔ f = f' ∧ g = g' := by
  constructor
  · intro h
    obtain ⟨hipv4, hudp⟩ := List.append_inj (List.append_cancel_left h) rfl
    simp only [Ipv4Fields.lines, UdpFields.lines, List.cons.injEq, Printf.mk.injEq] at hipv4 hudp
    cases f
    cases g
    simp_all
  · rintro ⟨rfl, rfl⟩
    rfl

theorem readIpv4_eq_iff : run (readIpv4 14) packet = ipv4Fields packet ↔
    packet 16 = packet 17 ∧ packet 18 = packet 19 ∧ packet 20 = packet 21 ∧ packet 24 = packet 25 := by
  simp only [readIpv4, run_bind, run_byte, run_word, run_pure, ipv4Fields, Nat.reduceAdd, Ipv4Fields.mk.injEq,
    loadLe_eq_be16_iff, true_and]

theorem readUdp_eq_iff : run (readUdp 14) packet = udpFields packet ↔
    ∀ i < 8, packet (14 + i) = packet (udpAt packet + i) := by
  simp only [readUdp, run_bind, run_word, run_pure, udpFields, UdpFields.mk.injEq, htons_loadLe, be16_eq_iff]
  constructor
  · rintro ⟨⟨h0, h1⟩, ⟨h2, h3⟩, ⟨h4, h5⟩, ⟨h6, h7⟩⟩ i hi
    interval_cases i <;> assumption
  · intro h
    exact ⟨⟨h 0 (by omega), h 1 (by omega)⟩, ⟨h 2 (by omega), h 3 (by omega)⟩, ⟨h 4 (by omega), h 5 (by omega)⟩,
      ⟨h 6 (by omega), h 7 (by omega)⟩⟩

/-- **Decoding** is right for the UDP packets whose bytes cannot tell the difference, and no others. -/
theorem decodes_iff (h : IsUdp sum packet) : Decodes sum packet ↔ SameBytes packet := by
  rw [Decodes, run_callback_udp h, decodedLines_inj, readIpv4_eq_iff, readUdp_eq_iff]
  constructor
  · rintro ⟨⟨htlen, hident, hoffset, hsum⟩, hudp⟩
    exact ⟨htlen, hident, hoffset, hsum, hudp⟩
  · rintro ⟨htlen, hident, hoffset, hsum, hudp⟩
    exact ⟨⟨htlen, hident, hoffset, hsum⟩, hudp⟩

/-- A frame that cannot tell: all words read the same both ways, and the ports are 0x4500 and 0. -/
def evenFrame : Mem := fun i =>
  [1, 1, 1, 1, 1, 1, 2, 2, 2, 2, 2, 2, 8, 0, 0x45, 0, 0, 0, 0, 0, 0, 0, 64, 17, 0, 0,
    10, 0, 0, 1, 10, 0, 0, 2, 0x45, 0, 0, 0, 0, 0, 0, 0].getD i 0

theorem decodes_evenFrame : Decodes 0 evenFrame := by
  have hudp : IsUdp 0 evenFrame := ⟨⟨by decide, by decide⟩, by decide, by decide⟩
  exact (decodes_iff hudp).2 ⟨by decide, by decide, by decide, by decide, by decide⟩

/-- With 1 in the variable `sum` the good frame passes the checks; its length is printed as 7168. -/
theorem not_decodes : ¬ ∀ sum packet, IsUdp sum packet → Decodes sum packet := by
  intro h
  have hudp : IsUdp 1 goodFrame := ⟨isIpv4_goodFrame, by decide, by decide⟩
  have hdecodes := h 1 goodFrame hudp
  rw [Decodes, run_callback_udp hudp, decodedLines_inj, readIpv4_eq_iff] at hdecodes
  exact absurd hdecodes.1.1 (by decide)

/-! ## What is read -/

/-- The capture has what the frame says it has. -/
def Captured (packet : Mem) (caplen : Nat) : Prop :=
  14 ≤ caplen ∧
    (be16 packet 12 = 0x0800 → 15 ≤ caplen ∧ (20 ≤ ipSize packet → 14 + ipSize packet ≤ caplen))

section
variable {i : Nat}

theorem mem_reads_callback_of_ne (h : be16 packet 12 ≠ 0x0800) :
    i ∈ reads (callback sum) packet ↔ 12 ≤ i ∧ i < 14 := by
  have htype : ntohs (loadLe packet 12 2) ≠ 0x0800 := fun heq => h ((htons_loadLe packet 12).symm.trans heq)
  simp only [callback, reads_bind, run_word, if_neg htype, reads_pure, List.append_nil, mem_reads_word]

/-- The Ethernet header is read whole. -/
theorem mem_reads_callback (h : be16 packet 12 = 0x0800) :
    i ∈ reads (callback sum) packet ↔ i < 14 ∨ i ∈ reads (network sum 14) packet := by
  have htype : ntohs (loadLe packet 12 2) = 0x0800 := (htons_loadLe packet 12).trans h
  simp only [callback, reads_bind, run_word, htype, if_true, reads_pure, List.append_nil, List.mem_append,
    mem_reads_word, mem_reads_bytes]
  constructor
  · rintro (htype | hsmac | hdmac | hrest)
    · exact Or.inl (by omega)
    · exact Or.inl (by omega)
    · exact Or.inl (by omega)
    · exact Or.inr hrest
  · rintro (hi | hrest)
    · rcases (by omega : i < 6 ∨ (6 ≤ i ∧ i < 12) ∨ 12 ≤ i) with hdmac | hsmac | htype
      · exact Or.inr (Or.inr (Or.inl (by omega)))
      · exact Or.inr (Or.inl hsmac)
      · exact Or.inl ⟨htype, hi⟩
    · exact Or.inr (Or.inr (Or.inr hrest))

theorem mem_reads_network_of_lt (h : ipSize packet < 20) : i ∈ reads (network sum 14) packet ↔ i = 14 := by
  have hsize : ipIhl (packet 14) * 4 < 20 := h
  simp only [network, reads_bind, run_byte, if_pos hsize, reads_pure, reads_byte, List.append_nil,
    List.mem_singleton]

/-- What is printed lies in the bytes summed. -/
theorem mem_reads_readIpv4 (h : i ∈ reads (readIpv4 14) packet) : 14 ≤ i ∧ i < 34 := by
  simp only [readIpv4, reads_bind, reads_byte, reads_pure, List.mem_append, List.mem_singleton, mem_reads_word,
    List.not_mem_nil, or_false] at h
  omega

theorem mem_reads_transport (h : i ∈ reads (transport 14) packet) : 14 ≤ i ∧ i < 34 := by
  simp only [transport, reads_bind, reads_byte, run_byte, reads_ite, readUdp, reads_pure, List.mem_append,
    List.mem_singleton] at h
  rcases h with h | h
  · omega
  · split at h
    · simp only [List.mem_append, mem_reads_word, List.not_mem_nil, or_false] at h
      omega
    · cases h

theorem mem_reads_network (h : 20 ≤ ipSize packet) :
    i ∈ reads (network sum 14) packet ↔ 14 ≤ i ∧ i < 14 + ipSize packet := by
  have hsize : ¬ ipIhl (packet 14) * 4 < 20 := Nat.not_lt.2 h
  have hcheck : i ∈ reads (checkSum sum 14 (ipSize packet)) packet ↔ 14 ≤ i ∧ i < 14 + ipSize packet :=
    mem_reads_checkSum packet (even_ipSize packet)
  simp only [network, reads_bind, run_byte, if_neg hsize, reads_byte, List.mem_append, List.mem_singleton]
  constructor
  · rintro (rfl | hsum | hprint)
    · omega
    · exact hcheck.1 hsum
    · have hprinted : 14 ≤ i ∧ i < 34 := by
        split at hprint
        · cases hprint
        · simp only [reads_bind, reads_pure, List.append_nil, List.mem_append] at hprint
          exact hprint.elim mem_reads_readIpv4 mem_reads_transport
      omega
  · intro hi
    exact Or.inr (Or.inl (hcheck.2 hi))

end

/-- A capture that has what the frame says is not left. -/
theorem lt_of_captured {caplen : Nat} (hc : Captured packet caplen) (hi : i ∈ reads (callback sum) packet) :
    i < caplen := by
  obtain ⟨hether, hip⟩ := hc
  by_cases htype : be16 packet 12 = 0x0800
  · obtain ⟨hfirst, hall⟩ := hip htype
    rw [mem_reads_callback htype] at hi
    by_cases hsize : 20 ≤ ipSize packet
    · have hlast := hall hsize
      rw [mem_reads_network hsize] at hi
      omega
    · rw [mem_reads_network_of_lt (Nat.not_le.1 hsize)] at hi
      omega
  · rw [mem_reads_callback_of_ne htype] at hi
    omega

/-- **The frame is read** as far as it says it goes, so within the capture when that has as much. -/
theorem reads_captured_iff (sum : UInt32) (packet : Mem) (caplen : Nat) :
    (∀ i ∈ reads (callback sum) packet, i < caplen) ↔ Captured packet caplen := by
  refine ⟨fun h => ?_, fun hc i hi => lt_of_captured hc hi⟩
  -- the last byte that is read in each case
  by_cases htype : be16 packet 12 = 0x0800
  · simp only [mem_reads_callback htype, Captured, htype, forall_const] at h ⊢
    by_cases hsize : 20 ≤ ipSize packet
    · simp only [mem_reads_network hsize, hsize, forall_const] at h ⊢
      have hlast := h (13 + ipSize packet) (Or.inr (by omega))
      omega
    · simp only [mem_reads_network_of_lt (Nat.not_le.1 hsize), hsize, false_implies, and_true] at h ⊢
      have hlast := h 14 (Or.inr rfl)
      omega
  · simp only [mem_reads_callback_of_ne htype, Captured, htype, false_implies, and_true] at h ⊢
    have hlast := h 13 (by omega)
    omega

/-- A frame cut in its IP header is read beyond the cut. -/
theorem not_reads_captured : ¬ ∀ (sum : UInt32) (packet : Mem) (caplen : Nat), caplen ≤ 1500 →
    ∀ i ∈ reads (callback sum) packet, i < caplen := by
  intro h
  have hread : 33 ∈ reads (callback 0) goodFrame := by
    rw [mem_reads_callback isIpv4_goodFrame.type, mem_reads_network isIpv4_goodFrame.size]
    decide
  exact absurd (h 0 goodFrame 20 (by decide) 33 hread) (by decide)

/-- What is printed then is decided by the capture. -/
theorem run_callback_congr {packet packet' : Mem} {caplen : Nat} (h : Captured packet caplen)
    (hsame : ∀ i < caplen, packet i = packet' i) (sum : UInt32) :
    run (callback sum) packet' = run (callback sum) packet :=
  (run_congr fun i hi => hsame i (lt_of_captured h hi)).1

end

end Eltex.Sniffer
