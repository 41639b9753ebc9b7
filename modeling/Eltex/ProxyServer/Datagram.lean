import Eltex.ProxyServer.Reply

/-!
# The reply byte by byte

What `create_packet` leaves in the DNS header, the bytes of the record it writes, and what stands
behind the record.  The record's place is computed from the name, the packet's length from that of
the query, so the reply ends with its record exactly when nothing stood behind the question
(`reply_wellFormed_iff`).
-/

namespace Eltex.ProxyServer

open ByteMem CString SearchTree

/-! ## The DNS header -/

section
variable (m : Mem) (dnsh : Nat)

theorem writeDnshdr_low : writeDnshdr m dnsh (dnsh + 2) = m (dnsh + 2) ||| 0x80 ||| 0x01 := by
  unfold writeDnshdr
  rw [storeLe_of_disjoint _ (by omega), storeLe_of_disjoint _ (by omega), storeLe_of_disjoint _ (by omega),
    storeLe_of_disjoint _ (by omega), store_of_disjoint _ (by simp only [List.length_singleton]; omega),
    store_of_disjoint _ (by simp only [List.length_singleton]; omega)]
  simp [store]

theorem writeDnshdr_high : writeDnshdr m dnsh (dnsh + 3) = (m (dnsh + 3) ||| 0x80) &&& 0xdf := by
  unfold writeDnshdr
  rw [storeLe_of_disjoint _ (by omega), storeLe_of_disjoint _ (by omega), storeLe_of_disjoint _ (by omega),
    storeLe_of_disjoint _ (by omega)]
  simp [store]

theorem be16_writeDnshdr_counts :
    be16 (writeDnshdr m dnsh) (dnsh + 4) = 1 ∧ be16 (writeDnshdr m dnsh) (dnsh + 6) = 1 ∧
      be16 (writeDnshdr m dnsh) (dnsh + 8) = 0 ∧ be16 (writeDnshdr m dnsh) (dnsh + 10) = 0 := by
  unfold writeDnshdr
  simp (disch := omega) only [be16_storeLe_of_disjoint, be16_storeLe_htons]
  decide

end

/-! ## The record -/

/-- The sixteen bytes of the record of a node. -/
def DnsNode.record (node : DnsNode) : List UInt8 :=
  leBytes 2 (htons 0xc00c) ++ (leBytes 2 (htons 1) ++ (leBytes 2 (htons 1) ++
    (leBytes 4 node.ttl.toNat ++ (leBytes 2 (htons 4) ++ leBytes 4 node.addr.toNat))))

theorem load_writeRData (m : Mem) (p : Nat) (node : DnsNode) :
    load (writeRData m p node) p 16 = node.record := by
  have hsplit : ∀ m : Mem, load m p 16 = load m p 2 ++ (load m (p + 2) 2 ++ (load m (p + 4) 2 ++
      (load m (p + 6) 4 ++ (load m (p + 10) 2 ++ load m (p + 12) 4)))) := by
    intro m
    rw [← load_append m (p + 10) 2 4, ← load_append m (p + 6) 4 6, ← load_append m (p + 4) 2 10,
      ← load_append m (p + 2) 2 12, ← load_append m p 2 14]
  rw [hsplit, DnsNode.record]
  unfold writeRData
  simp (disch := omega) only [load_storeLe_of_disjoint, load_storeLe]

/-! ## The bytes of the reply -/

section
variable (skb : SkBuff) (copy : Mem) (node : DnsNode)

/-- What `create_packet` makes of the DNS header it finds in the copy. -/
theorem reply_dnshdr {i : Nat} (h1 : skb.dnsh ≤ i) (h2 : i < skb.dnsh + 12) :
    (reply skb copy node).mem i =
      writeDnshdr (writeUdphdr (writeIphdr (skb.expanded copy) (skb.len + 16)) skb.udph) skb.dnsh i := by
  have hr := twenty_lt_reqOffset node
  rw [SkBuff.dnsh_eq] at h1 h2
  show replyMem (skb.expanded copy) (skb.len + 16) skb.udph node i = _
  unfold replyMem
  rw [writeRData_of_disjoint _ _ _ (by omega)]
  rfl

theorem reply_counts :
    be16 (reply skb copy node).mem (skb.dnsh + 4) = 1 ∧
      be16 (reply skb copy node).mem (skb.dnsh + 6) = 1 ∧
      be16 (reply skb copy node).mem (skb.dnsh + 8) = 0 ∧
      be16 (reply skb copy node).mem (skb.dnsh + 10) = 0 := by
  have hword : ∀ k, k + 2 ≤ 12 → be16 (reply skb copy node).mem (skb.dnsh + k) =
      be16 (writeDnshdr (writeUdphdr (writeIphdr (skb.expanded copy) (skb.len + 16)) skb.udph) skb.dnsh)
        (skb.dnsh + k) := fun k hk =>
    be16_congr (reply_dnshdr _ _ _ (by omega) (by omega)) (reply_dnshdr _ _ _ (by omega) (by omega))
  rw [hword 4 (by omega), hword 6 (by omega), hword 8 (by omega), hword 10 (by omega)]
  exact be16_writeDnshdr_counts _ _

/-- The writers before it leave the DNS header as it was copied. -/
theorem udphdr_dnshdr {i : Nat} (h1 : skb.dnsh ≤ i) (h2 : i < skb.len) :
    writeUdphdr (writeIphdr (skb.expanded copy) (skb.len + 16)) skb.udph i = skb.mem i := by
  have h20 := skb.twenty_le_udph
  rw [SkBuff.dnsh_eq] at h1
  rw [writeUdphdr_of_disjoint _ _ (by omega), writeIphdr_of_disjoint _ _ (by omega),
    skb.expanded_of_lt copy h2]

/-- Flags of the reply to a header with these two bytes. -/
def replyFlags (low high : UInt8) : Nat :=
  (low ||| 0x80 ||| 0x01).toNat * 256 + ((high ||| 0x80) &&& 0xdf).toNat

theorem reply_flags (hin : skb.dnsh + 12 ≤ skb.len) : be16 (reply skb copy node).mem (skb.dnsh + 2) =
    replyFlags (skb.mem (skb.dnsh + 2)) (skb.mem (skb.dnsh + 3)) := by
  rw [be16, reply_dnshdr _ _ _ (by omega) (by omega), reply_dnshdr _ _ _ (by omega) (by omega),
    writeDnshdr_low, Nat.add_assoc skb.dnsh 2 1, writeDnshdr_high, udphdr_dnshdr _ _ (by omega) (by omega),
    udphdr_dnshdr _ _ (by omega) (by omega), replyFlags]

/-- The checksum is not written. -/
theorem reply_check (hudp : skb.udph + 8 ≤ skb.len) :
    be16 (reply skb copy node).mem (skb.udph + 6) = be16 skb.mem (skb.udph + 6) := by
  refine be16_congr ?_ ?_
  · rw [reply_udphdr _ _ _ hudp (by omega) (by omega), writeUdphdr_of_disjoint _ _ (by omega)]
  · rw [reply_udphdr _ _ _ hudp (by omega) (by omega), writeUdphdr_of_disjoint _ _ (by omega)]

/-- The record stands behind the question. -/
theorem reply_record : load (reply skb copy node).mem (skb.udph + reqOffset node) 16 = node.record :=
  load_writeRData _ _ _

/-- Behind the record stands what was copied. -/
theorem reply_behind {i : Nat} (h : skb.udph + reqOffset node + 16 ≤ i) :
    (reply skb copy node).mem i = skb.expanded copy i := by
  have h20 := skb.twenty_le_udph
  have hr := twenty_lt_reqOffset node
  exact replyMem_of_disjoint _ _ _ _ (by omega) (by omega) (by omega) (by omega)

end

/-! ## The shape of the reply -/

/-- Header, the question of `skb` and one record, which ends the datagram and the packet. -/
structure WellFormedReply (skb r : SkBuff) (node : DnsNode) (name : List UInt8) : Prop where
  udpLen : be16 r.mem (r.udph + 4) = 8 + 12 + name.length + 5 + 16
  ends : r.len = r.udph + (8 + 12 + name.length + 5 + 16)
  counts : be16 r.mem (r.dnsh + 4) = 1 ∧ be16 r.mem (r.dnsh + 6) = 1 ∧
    be16 r.mem (r.dnsh + 8) = 0 ∧ be16 r.mem (r.dnsh + 10) = 0
  question : load r.mem (r.dnsh + 12) (name.length + 5) = load skb.mem (skb.dnsh + 12) (name.length + 5)
  record : load r.mem (r.dnsh + 12 + name.length + 5) 16 = node.record

/-- **The shape of the reply.**  It is header, question and record, and ends there, exactly when the
query ends with its question. -/
theorem reply_wellFormed_iff {env : OutEnv} {skb r : SkBuff} {t : DnsTree} {node : DnsNode}
    {name : List UInt8} (hm : Matches env skb t node) (hr : (createPacket env skb node).2 = some r)
    (hq : skb.Question name)
    (hlen : skb.len = 4 * ((skb.mem 0).toNat % 16) + be16 skb.mem (skb.udph + 4)) :
    WellFormedReply skb r node name ↔ skb.len = skb.dnsh + 12 + name.length + 5 := by
  have hreq := reqOffset_eq (cstr_hostMem_of_matches hm hq.toNamed)
  have hd := skb.dnsh_eq
  have hin : skb.dnsh + 12 + name.length + 5 ≤ skb.len := hq.inside
  obtain ⟨copy, -, rfl⟩ := createPacket_snd_eq_some_iff.1 hr
  constructor
  · intro hw
    have hends := hw.ends
    rw [reply_len, reply_udph] at hends
    omega
  · intro hend
    have hih : skb.udph = 4 * ((skb.mem 0).toNat % 16) := skb.ihl
    have hfits := hq.fits
    unfold hostnameLen at hfits
    refine ⟨?_, ?_, reply_counts skb copy node, ?_, ?_⟩
    · rw [reply_udph, reply_udpLen _ _ _ (by omega)]
      omega
    · rw [reply_len, reply_udph]
      omega
    · refine load_congr fun i hi => ?_
      show (reply skb copy node).mem (skb.dnsh + 12 + i) = skb.mem (skb.dnsh + 12 + i)
      rw [reply_question _ _ _ (by omega) (by omega), skb.expanded_of_lt copy (by omega)]
    · have hplace : (reply skb copy node).dnsh + 12 + name.length + 5 = skb.udph + reqOffset node := by
        rw [reply_dnsh]
        omega
      rw [hplace]
      exact reply_record skb copy node

/-! ## Two queries -/

/-- The node of the name `a`, as learned from an answer. -/
def nodeA : DnsNode := newNode [1, 97] ⟨0, 0, 0, 0x3c000000, 0, 0x1101a8c0⟩ []

/-- Memory is to be had, and the expanded copy is zero where nothing is copied. -/
def zeroEnv : OutEnv := ⟨some [], some fun _ => 0, 0⟩

/-- A question for the name of a node, whatever stands behind it, meets the node in a tree of its own. -/
theorem matches_single {skb : SkBuff} {node : DnsNode} {name : List UInt8} (hu : skb.protocol = ipprotoUdp)
    (hd : skb.dest = dnsPort) (hn : skb.Named name) (hnode : cstr node.hostMem = name) :
    Matches zeroEnv skb (.node .nil node .nil) node := by
  refine ⟨hu, hd, [], rfl, ?_⟩
  rw [search_leaf, SkBuff.cstr_hname_of_named hn, hnode, if_pos rfl]

theorem cstr_nodeA : cstr nodeA.hostMem = [1, 97] := cstr_hostMem_newNode _ _ (by decide)

/-- A query for `a` with an EDNS record. -/
def ednsPayload : List UInt8 :=
  [0x12, 0x34, 0x01, 0, 0, 1, 0, 0, 0, 0, 0, 1] ++ [1, 97] ++
    0 :: [0, 1, 0, 1, 0, 0, 41, 16, 0, 0, 0, 0, 0, 0, 0]

/-- Of a plain query for `a` the reply is well formed. -/
theorem reply_wellFormed_plain :
    WellFormedReply (udpPacket 40000 53 (queryPayload [1, 97] 1))
      (reply (udpPacket 40000 53 (queryPayload [1, 97] 1)) (fun _ => 0) nodeA) nodeA [1, 97] := by
  have hn : (udpPacket 40000 53 (queryPayload [1, 97] 1)).Named [1, 97] :=
    udpPacket_query_named 40000 53 1 (by decide) (by decide)
  have hm := matches_single (udpPacket_protocol _ _ _) (udpPacket_dest _ _ _) hn cstr_nodeA
  exact (reply_wellFormed_iff hm rfl ⟨hn, by decide⟩ (by decide)).2 (by decide)

/-- With the EDNS record it is not. -/
theorem reply_edns_not_wellFormed :
    ¬ ∀ (env : OutEnv) (skb r : SkBuff) (t : DnsTree) (node : DnsNode) (name : List UInt8),
      Matches env skb t node → (createPacket env skb node).2 = some r → skb.Question name →
      skb.len = 4 * ((skb.mem 0).toNat % 16) + be16 skb.mem (skb.udph + 4) →
      WellFormedReply skb r node name := by
  intro h
  have hn : (udpPacket 40000 53 ednsPayload).Named [1, 97] :=
    udpPacket_named 40000 53 rfl (by decide) (by decide)
  have hm := matches_single (udpPacket_protocol _ _ _) (udpPacket_dest _ _ _) hn cstr_nodeA
  have hends := (h _ _ _ _ _ _ hm rfl ⟨hn, by decide⟩ (by decide)).ends
  revert hends
  decide

end Eltex.ProxyServer
