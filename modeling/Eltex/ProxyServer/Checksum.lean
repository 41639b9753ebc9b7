import Eltex.Lib.OnesComplement
import Eltex.ProxyServer.Datagram

/-!
# The checksum of the reply

`create_packet` leaves the UDP checksum of the query in its reply.  It covers as many bytes as the
UDP header counts, which need not be all of the packet.  Swapping addresses and ports does not
change the sum of the words, but the length, which counts twice, the DNS flags and counts, the
record and what is moved behind it do (`udpSum_reply`): the checksum still holds exactly when these
changes are a multiple of 65535 in all (`reply_checksum_iff`).
-/

namespace Eltex.ProxyServer

open ByteMem CString SearchTree OnesComplement

namespace SkBuff

variable (skb : SkBuff)

def udpLen : Nat := be16 skb.mem (skb.udph + 4)

def check : Nat := be16 skb.mem (skb.udph + 6)

/-- Where the datagram ends, by its header. -/
def datagramEnd : Nat := skb.udph + skb.udpLen

/-- The datagram has a DNS header and lies in the packet, which is no longer than an IP packet can be. -/
structure HoldsDatagram : Prop where
  header : skb.dnsh + 12 ≤ skb.datagramEnd
  inside : skb.datagramEnd ≤ skb.len
  len_lt : skb.len < 65536

/-- Addresses, protocol and length, as the checksum covers them. -/
def pseudoHeader : List UInt8 :=
  load skb.mem 12 4 ++ (load skb.mem 16 4 ++ ([0, skb.protocol] ++ load skb.mem (skb.udph + 4) 2))

/-- The UDP header and its payload. -/
def datagram : List UInt8 := load skb.mem skb.udph skb.udpLen

/-- The checksum, as it stands, is right for the pseudo-header and the datagram. -/
def ChecksumHolds : Prop := Verifies (skb.pseudoHeader ++ skb.datagram)

instance : Decidable skb.ChecksumHolds := inferInstanceAs (Decidable (Verifies _))

/-- The sum of all words the checksum covers. -/
def udpSum : Nat := byteSum 0 (skb.pseudoHeader ++ skb.datagram)

/-- The words of the headers, the length as often as it is counted. -/
def headerSum : Nat :=
  byteSum 0 (load skb.mem 12 4) + byteSum 0 (load skb.mem 16 4) + skb.protocol.toNat + 2 * skb.udpLen +
    be16 skb.mem skb.udph + be16 skb.mem (skb.udph + 2) + skb.check + be16 skb.mem skb.dnsh +
    be16 skb.mem (skb.dnsh + 2)

/-- The counts of the DNS header. -/
def countSum : Nat :=
  be16 skb.mem (skb.dnsh + 4) + be16 skb.mem (skb.dnsh + 6) + be16 skb.mem (skb.dnsh + 8) +
    be16 skb.mem (skb.dnsh + 10)

theorem byteSum_pseudoHeader : byteSum 0 skb.pseudoHeader =
    byteSum 0 (load skb.mem 12 4) + byteSum 0 (load skb.mem 16 4) + skb.protocol.toNat + skb.udpLen := by
  have hproto : byteSum 0 [0, skb.protocol] = skb.protocol.toNat := by
    rw [byteSum, byteSum, byteSum_nil, if_pos rfl, if_neg (by decide)]
    simp
  unfold pseudoHeader
  simp only [byteSum_append, length_load, List.length_cons, List.length_nil]
  rw [byteSum_congr (by decide : (0 + 4) % 2 = 0 % 2), byteSum_congr (by decide : (0 + 4 + 4) % 2 = 0 % 2),
    hproto, byteSum_load_two (by decide), udpLen]
  omega

theorem byteSum_datagram (hin : skb.dnsh + 12 ≤ skb.datagramEnd) : byteSum 0 skb.datagram =
    be16 skb.mem skb.udph + be16 skb.mem (skb.udph + 2) + skb.udpLen + skb.check + be16 skb.mem skb.dnsh +
      be16 skb.mem (skb.dnsh + 2) + skb.countSum +
        byteSum 0 (load skb.mem (skb.dnsh + 12) (skb.datagramEnd - (skb.dnsh + 12))) := by
  have hd := skb.dnsh_eq
  have hlen : skb.udpLen =
      2 + (2 + (2 + (2 + (2 + (2 + (2 + (2 + (2 + (2 + (skb.datagramEnd - (skb.dnsh + 12))))))))))) := by
    unfold datagramEnd at hin ⊢
    omega
  have hwords := congrArg (load skb.mem skb.udph) hlen
  rw [datagram, hwords]
  simp only [byteSum_load_add, Nat.add_assoc, Nat.reduceAdd]
  simp (disch := decide) only [byteSum_load_two]
  rw [byteSum_congr (by decide : (0 + 20) % 2 = 0 % 2)]
  simp only [countSum, udpLen, check, hd, Nat.add_assoc, Nat.reduceAdd]

/-- Header by header. -/
theorem udpSum_eq (hin : skb.dnsh + 12 ≤ skb.datagramEnd) : skb.udpSum = skb.headerSum + skb.countSum +
    byteSum 0 (load skb.mem (skb.dnsh + 12) (skb.datagramEnd - (skb.dnsh + 12))) := by
  have hplace : (0 + skb.pseudoHeader.length) % 2 = 0 % 2 := by simp [pseudoHeader]
  rw [udpSum, byteSum_append, byteSum_congr hplace, byteSum_pseudoHeader, byteSum_datagram skb hin, headerSum]
  omega

/-- There is room for one record more. -/
theorem udpLen_lt (hin : skb.HoldsDatagram) : skb.udpLen + 16 < 65536 := by
  have h20 := skb.twenty_le_udph
  obtain ⟨-, hinside, hlen⟩ := hin
  unfold datagramEnd at hinside
  omega

end SkBuff

/-! ## What the reply changes -/

section
variable (skb : SkBuff) (copy : Mem) (node : DnsNode)

/-- Where the record of the reply stands. -/
def recordAt : Nat := skb.udph + reqOffset node

/-- As far as the record, the packet of the query goes on in the reply. -/
def keptTo : Nat := min (recordAt skb node) skb.datagramEnd

/-- The reply from there on.  A gap before the record there is only for a name that runs out of the
datagram; then the reply ends within the record.  Else it is followed by as many bytes as stood in its
place and behind it. -/
def appended : List UInt8 :=
  load (skb.expanded copy) (keptTo skb node) (min (recordAt skb node) (skb.datagramEnd + 16) - keptTo skb node) ++
    (node.record.take (skb.datagramEnd + 16 - recordAt skb node) ++
      load (skb.expanded copy) (recordAt skb node + 16) (skb.datagramEnd - recordAt skb node))

/-- The query from there on. -/
def dropped : List UInt8 := load skb.mem (keptTo skb node) (skb.datagramEnd - keptTo skb node)

/-- What the reply adds to the sum of the query. -/
def added : Nat :=
  2 * (skb.udpLen + 16) + replyFlags (skb.mem (skb.dnsh + 2)) (skb.mem (skb.dnsh + 3)) + 2 +
    byteSum (keptTo skb node - (skb.dnsh + 12)) (appended skb copy node)

/-- What is no longer there. -/
def removed : Nat :=
  2 * skb.udpLen + be16 skb.mem (skb.dnsh + 2) + skb.countSum +
    byteSum (keptTo skb node - (skb.dnsh + 12)) (dropped skb node)

@[simp] theorem length_record : node.record.length = 16 := by
  simp [DnsNode.record]

/-- With the whole question in the packet, so is the record in the reply. -/
theorem appended_of_le (h : recordAt skb node ≤ skb.datagramEnd) : appended skb copy node =
    node.record ++ load (skb.expanded copy) (recordAt skb node + 16) (skb.datagramEnd - recordAt skb node) := by
  have hkept : keptTo skb node = recordAt skb node := Nat.min_eq_left h
  have hgap : min (recordAt skb node) (skb.datagramEnd + 16) - recordAt skb node = 0 := by omega
  have hwhole : node.record.length ≤ skb.datagramEnd + 16 - recordAt skb node := by
    rw [length_record]
    omega
  rw [appended, hkept, hgap, List.take_of_length_le hwhole]
  rfl

/-- Else the reply ends with the record or before it. -/
theorem appended_of_ge (h : skb.datagramEnd ≤ recordAt skb node) : appended skb copy node =
    load (skb.expanded copy) skb.datagramEnd (min (recordAt skb node) (skb.datagramEnd + 16) - skb.datagramEnd) ++
      node.record.take (skb.datagramEnd + 16 - recordAt skb node) := by
  have hkept : keptTo skb node = skb.datagramEnd := Nat.min_eq_right h
  have hnone : skb.datagramEnd - recordAt skb node = 0 := by omega
  rw [appended, hkept, hnone]
  show _ ++ (_ ++ []) = _
  rw [List.append_nil]

/-- As much of the record as one looks at. -/
theorem load_recordAt {k : Nat} (hk : k ≤ 16) :
    load (reply skb copy node).mem (recordAt skb node) k = node.record.take k := by
  have hrecord : load (reply skb copy node).mem (recordAt skb node) 16 = node.record :=
    reply_record skb copy node
  rw [← hrecord, take_load _ _ _ _ hk]

theorem load_appended (hin : skb.dnsh + 12 ≤ skb.datagramEnd) :
    load (reply skb copy node).mem (keptTo skb node) (skb.datagramEnd + 16 - keptTo skb node) =
      appended skb copy node := by
  rcases Nat.le_total (recordAt skb node) skb.datagramEnd with h | h
  · have hkept : keptTo skb node = recordAt skb node := Nat.min_eq_left h
    have hsplit : skb.datagramEnd + 16 - recordAt skb node = 16 + (skb.datagramEnd - recordAt skb node) := by omega
    have hbehind : load (reply skb copy node).mem (recordAt skb node + 16) (skb.datagramEnd - recordAt skb node) =
        load (skb.expanded copy) (recordAt skb node + 16) (skb.datagramEnd - recordAt skb node) :=
      load_congr fun i hi => reply_behind _ _ _ (Nat.le_add_right _ _)
    rw [appended_of_le _ _ _ h, hkept, hsplit, load_append, hbehind, load_recordAt _ _ _ (by omega),
      List.take_of_length_le (by simp)]
  · have hkept : keptTo skb node = skb.datagramEnd := Nat.min_eq_right h
    have hgap : load (reply skb copy node).mem skb.datagramEnd
        (min (recordAt skb node) (skb.datagramEnd + 16) - skb.datagramEnd) = load (skb.expanded copy) skb.datagramEnd
          (min (recordAt skb node) (skb.datagramEnd + 16) - skb.datagramEnd) := by
      refine load_congr fun i hi => reply_question _ _ _ (by omega) ?_
      change skb.datagramEnd + i < recordAt skb node
      omega
    -- a record that the packet does not reach has no byte in it
    have htake : load (reply skb copy node).mem
        (skb.datagramEnd + (min (recordAt skb node) (skb.datagramEnd + 16) - skb.datagramEnd))
        (skb.datagramEnd + 16 - recordAt skb node) = node.record.take (skb.datagramEnd + 16 - recordAt skb node) := by
      rcases Nat.le_total (skb.datagramEnd + 16) (recordAt skb node) with hover | hover
      · have hempty : skb.datagramEnd + 16 - recordAt skb node = 0 := by omega
        rw [hempty]
        rfl
      · have hplace : skb.datagramEnd + (min (recordAt skb node) (skb.datagramEnd + 16) - skb.datagramEnd) =
            recordAt skb node := by omega
        rw [hplace, load_recordAt _ _ _ (by omega)]
    have hsplit : skb.datagramEnd + 16 - skb.datagramEnd =
        (min (recordAt skb node) (skb.datagramEnd + 16) - skb.datagramEnd) +
          (skb.datagramEnd + 16 - recordAt skb node) := by omega
    rw [appended_of_ge _ _ _ h, hkept, hsplit, load_append, hgap, htake]

variable {skb} (hin : skb.HoldsDatagram)
include hin

theorem udpLen_reply : (reply skb copy node).udpLen = skb.udpLen + 16 := by
  have hd := skb.dnsh_eq
  have hudp : skb.dnsh + 12 ≤ skb.len := hin.header.trans hin.inside
  have hlen : (reply skb copy node).udpLen = (skb.udpLen + 16) % 65536 := reply_udpLen _ _ _ (by omega)
  rw [hlen]
  exact Nat.mod_eq_of_lt (skb.udpLen_lt hin)

theorem datagramEnd_reply : (reply skb copy node).datagramEnd = skb.datagramEnd + 16 := by
  rw [SkBuff.datagramEnd, udpLen_reply copy node hin, reply_udph, ← Nat.add_assoc]
  rfl

/-- The words that stay or change places, and those the code writes. -/
theorem headerSum_reply : (reply skb copy node).headerSum + (2 * skb.udpLen + be16 skb.mem (skb.dnsh + 2)) =
    skb.headerSum + (2 * (skb.udpLen + 16) +
      replyFlags (skb.mem (skb.dnsh + 2)) (skb.mem (skb.dnsh + 3))) := by
  have hd := skb.dnsh_eq
  have hdns : skb.dnsh + 12 ≤ skb.len := hin.header.trans hin.inside
  have hudp : skb.udph + 8 ≤ skb.len := by omega
  have hsaddr : load (reply skb copy node).mem 12 4 = load skb.mem 16 4 :=
    load_eq_of_loadLe (reply_saddr skb copy node)
  have hdaddr : load (reply skb copy node).mem 16 4 = load skb.mem 12 4 :=
    load_eq_of_loadLe (reply_daddr skb copy node)
  have hsource : be16 (reply skb copy node).mem skb.udph = be16 skb.mem (skb.udph + 2) := by
    rw [← htons_loadLe, ← htons_loadLe]
    exact congrArg htons (reply_source skb copy node hudp)
  have hdest : be16 (reply skb copy node).mem (skb.udph + 2) = be16 skb.mem skb.udph := by
    rw [← htons_loadLe, ← htons_loadLe]
    exact congrArg htons (reply_dest skb copy node hudp)
  have hcheck := reply_check skb copy node hudp
  have hid : be16 (reply skb copy node).mem skb.dnsh = be16 skb.mem skb.dnsh :=
    be16_congr (reply_id _ _ _ (by omega) (by omega) (by omega))
      (reply_id _ _ _ (by omega) (by omega) (by omega))
  have hlen : be16 (reply skb copy node).mem (skb.udph + 4) = be16 skb.mem (skb.udph + 4) + 16 :=
    udpLen_reply copy node hin
  have hflags := reply_flags skb copy node (by omega)
  have hproto := reply_protocol skb copy node
  unfold SkBuff.headerSum SkBuff.check SkBuff.udpLen
  rw [reply_udph, reply_dnsh, hsaddr, hdaddr, hsource, hdest, hcheck, hid, hlen, hflags, hproto]
  omega

theorem dnsh_le_keptTo : skb.dnsh + 12 ≤ keptTo skb node := by
  have hd := skb.dnsh_eq
  have hheader := hin.header
  have hreq := twenty_lt_reqOffset node
  unfold keptTo recordAt
  omega

/-- The payload behind the DNS header. -/
theorem payloadSum_query : byteSum 0 (load skb.mem (skb.dnsh + 12) (skb.datagramEnd - (skb.dnsh + 12))) =
    byteSum 0 (load skb.mem (skb.dnsh + 12) (keptTo skb node - (skb.dnsh + 12))) +
      byteSum (keptTo skb node - (skb.dnsh + 12)) (dropped skb node) := by
  have hk := dnsh_le_keptTo node hin
  have hle : keptTo skb node ≤ skb.datagramEnd := Nat.min_le_right _ _
  have hsplit : skb.datagramEnd - (skb.dnsh + 12) =
      keptTo skb node - (skb.dnsh + 12) + (skb.datagramEnd - keptTo skb node) := by omega
  rw [hsplit, byteSum_load_add, Nat.zero_add, dropped, Nat.add_sub_of_le hk]

theorem payloadSum_reply :
    byteSum 0 (load (reply skb copy node).mem (skb.dnsh + 12) (skb.datagramEnd + 16 - (skb.dnsh + 12))) =
      byteSum 0 (load skb.mem (skb.dnsh + 12) (keptTo skb node - (skb.dnsh + 12))) +
        byteSum (keptTo skb node - (skb.dnsh + 12)) (appended skb copy node) := by
  have hk := dnsh_le_keptTo node hin
  have hle : keptTo skb node ≤ skb.datagramEnd := Nat.min_le_right _ _
  have hrec : keptTo skb node ≤ skb.udph + reqOffset node := Nat.min_le_left _ _
  have hsplit : skb.datagramEnd + 16 - (skb.dnsh + 12) =
      keptTo skb node - (skb.dnsh + 12) + (skb.datagramEnd + 16 - keptTo skb node) := by omega
  have hkept : load (reply skb copy node).mem (skb.dnsh + 12) (keptTo skb node - (skb.dnsh + 12)) =
      load skb.mem (skb.dnsh + 12) (keptTo skb node - (skb.dnsh + 12)) := by
    refine load_congr fun i hi => ?_
    have hinside := hin.inside
    rw [reply_question _ _ _ (by omega) (by omega), skb.expanded_of_lt copy (by omega)]
  rw [hsplit, byteSum_load_add, hkept, Nat.zero_add, Nat.add_sub_of_le hk, load_appended _ _ _ hin.header]

theorem header_reply : (reply skb copy node).dnsh + 12 ≤ (reply skb copy node).datagramEnd := by
  rw [reply_dnsh, datagramEnd_reply copy node hin]
  exact Nat.le_add_right_of_le hin.header

/-- **The difference**, word for word. -/
theorem udpSum_reply : (reply skb copy node).udpSum + removed skb node =
    skb.udpSum + added skb copy node := by
  have hcounts : (reply skb copy node).countSum = 2 := by
    obtain ⟨h1, h2, h3, h4⟩ := reply_counts skb copy node
    rw [SkBuff.countSum, reply_dnsh, h1, h2, h3, h4]
  have hheader := headerSum_reply copy node hin
  have hpayload := payloadSum_reply copy node hin
  rw [skb.udpSum_eq hin.header, (reply skb copy node).udpSum_eq (header_reply copy node hin),
    reply_dnsh, datagramEnd_reply copy node hin, hcounts, payloadSum_query node hin, hpayload, added, removed]
  omega

end

/-- **The checksum of the reply.**  It is that of the query, so it is right for the reply exactly when
what the reply adds and what it removes differ by a multiple of 65535.  The datagram of the query need
not hold a whole question, only a DNS header and a right checksum, bytes may stand behind it, and the
node may be any. -/
theorem reply_checksum_iff {env : OutEnv} {skb r : SkBuff} {node : DnsNode} {copy : Mem}
    (hcopy : env.copy = some copy) (hr : (createPacket env skb node).2 = some r)
    (hin : skb.HoldsDatagram) (hcheck : skb.check ≠ 0) (hholds : skb.ChecksumHolds) :
    (r.check = 0 ∨ r.ChecksumHolds) ↔
      (65535 : Int) ∣ (added skb copy node : Int) - removed skb node := by
  obtain rfl : reply skb copy node = r := by
    rw [createPacket, hcopy] at hr
    exact Option.some.inj hr
  have hdiff := udpSum_reply copy node hin
  have hd := skb.dnsh_eq
  have hdns : skb.dnsh + 12 ≤ skb.len := hin.header.trans hin.inside
  have hsame : (reply skb copy node).check = skb.check := reply_check skb copy node (by omega)
  -- the checksum is among the words, so they are not all zero
  have hpos : (reply skb copy node).udpSum ≠ 0 := by
    rw [(reply skb copy node).udpSum_eq (header_reply copy node hin), SkBuff.headerSum, hsame]
    omega
  unfold SkBuff.ChecksumHolds at hholds ⊢
  rw [verifies_iff] at hholds ⊢
  change 65535 ∣ skb.udpSum ∧ _ at hholds
  change _ ∨ 65535 ∣ (reply skb copy node).udpSum ∧ (reply skb copy node).udpSum ≠ 0 ↔ _
  rw [hsame]
  omega

/-! ## A query with a checksum -/

namespace SkBuff

/-- The packet with `v` for its UDP checksum. -/
def withCheck (skb : SkBuff) (v : Nat) : SkBuff where
  mem := storeLe skb.mem (skb.udph + 6) 2 (htons v)
  len := skb.len
  transportHeader := skb.transportHeader
  ihl := by
    have h20 := skb.twenty_le_udph
    rw [storeLe_of_disjoint _ (by omega)]
    exact skb.ihl
  iphdr_le := skb.iphdr_le
  iphdr_in := skb.iphdr_in

theorem named_withCheck {skb : SkBuff} {name : List UInt8} (v : Nat) (h : skb.Named name) :
    (skb.withCheck v).Named name := by
  have hd := skb.dnsh_eq
  have hmem : ∀ i, (skb.withCheck v).mem (skb.dnsh + dnshdrSize + i) =
      skb.mem (skb.dnsh + dnshdrSize + i) := fun i => storeLe_of_disjoint _ (by omega)
  exact ⟨(load_congr fun i _ => hmem i).trans h.bytes, h.no_nul, (hmem _).trans h.nul, h.fits⟩

end SkBuff

/-- A query for `a` with its checksum. -/
def summedQuery : SkBuff := (udpPacket 40000 53 (queryPayload [1, 97] 1)).withCheck 14506

theorem summedQuery_question : summedQuery.Question [1, 97] :=
  ⟨SkBuff.named_withCheck _ (udpPacket_query_named 40000 53 1 (by decide) (by decide)), by decide⟩

theorem summedQuery_holdsDatagram : summedQuery.HoldsDatagram := ⟨by decide, by decide, by decide⟩

/-- A node with this name whose address makes up for the other changes. -/
def nodeSummed : DnsNode := newNode [1, 97] ⟨0, 0, 0, 0x3c000000, 0, 0x2894080a⟩ []

/-- The reply from such a node has a right checksum. -/
theorem reply_checksum_summed : (reply summedQuery (fun _ => 0) nodeSummed).check = 0 ∨
    (reply summedQuery (fun _ => 0) nodeSummed).ChecksumHolds := by
  have hr : (createPacket zeroEnv summedQuery nodeSummed).2 =
      some (reply summedQuery (fun _ => 0) nodeSummed) := rfl
  exact (reply_checksum_iff rfl hr summedQuery_holdsDatagram (by decide) (by decide)).2 (by decide)

/-- From another node it has not. -/
theorem reply_checksum_wrong :
    ¬ ∀ (env : OutEnv) (skb r : SkBuff) (t : DnsTree) (node : DnsNode) (name : List UInt8),
      Matches env skb t node → (createPacket env skb node).2 = some r → skb.Question name →
      skb.HoldsDatagram → skb.check ≠ 0 → skb.ChecksumHolds → r.check = 0 ∨ r.ChecksumHolds := by
  intro h
  have hm : Matches zeroEnv summedQuery (.node .nil nodeA .nil) nodeA :=
    matches_single (by decide) (by decide) summedQuery_question.toNamed cstr_nodeA
  have hr := h _ _ _ _ _ _ hm rfl summedQuery_question summedQuery_holdsDatagram (by decide) (by decide)
  revert hr
  decide

end Eltex.ProxyServer
