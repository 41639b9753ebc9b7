import Eltex.ProxyServer.Hooks

/-!
# The packet `create_packet` builds

Field by field, what stands in the reply: swapped addresses and ports, lengths
grown by one record, the DNS flags and counts of an answer, the question as it
was, and the record of the cached node at the offset `hook_in_packets` computes.
The last two make encoder and decoder agree (`reply_roundtrip`).
-/

namespace Eltex.ProxyServer

open ByteMem CString SearchTree

/-! ## The writers, each in its own bytes -/

theorem readRData_writeRData (m : Mem) (p : Nat) (node : DnsNode) :
    readRData (writeRData m p node) p =
      { name := htons 0xc00c, type := htons 1, _class := htons 1, ttl := node.ttl.toNat,
        dataLen := htons 4, addr := node.addr.toNat } := by
  have ha : node.addr.toNat < 256 ^ 4 := node.addr.toNat_lt
  have ht : node.ttl.toNat < 256 ^ 4 := node.ttl.toNat_lt
  have hs : ∀ v, htons v < 256 ^ 2 := htons_lt
  unfold readRData writeRData
  simp (disch := first | omega | assumption | exact hs _) only
    [loadLe_storeLe_of_disjoint, loadLe_storeLe_of_lt]

theorem replyMem_iphdr (m : Mem) (len : Nat) {udph : Nat} (node : DnsNode) (h20 : 20 ≤ udph) {i : Nat}
    (h : i < 20) : replyMem m len udph node i = writeIphdr m len i := by
  have hr := twenty_lt_reqOffset node
  unfold replyMem
  rw [writeRData_of_disjoint _ _ _ (by omega),
    writeDnshdr_of_disjoint _ _ (by unfold udphdrSize; omega),
    writeUdphdr_of_disjoint _ _ (by omega)]

theorem replyMem_udphdr (m : Mem) (len : Nat) {udph : Nat} (node : DnsNode) {i : Nat} (h1 : udph ≤ i)
    (h2 : i < udph + 8) : replyMem m len udph node i = writeUdphdr (writeIphdr m len) udph i := by
  have hr := twenty_lt_reqOffset node
  unfold replyMem
  rw [writeRData_of_disjoint _ _ _ (by omega),
    writeDnshdr_of_disjoint _ _ (by unfold udphdrSize; omega)]

theorem writeIphdr_congr {m m' : Mem} (h : ∀ j < 20, m j = m' j) {len i : Nat} (hi : i < 20) :
    writeIphdr m len i = writeIphdr m' len i := by
  have h1 : ∀ j < 20, storeLe m 2 2 (htons len) j = storeLe m' 2 2 (htons len) j :=
    fun j hj => storeLe_congr rfl (h j hj)
  exact storeLe_congr (loadLe_congr fun j hj => h1 _ (by omega))
    (storeLe_congr (loadLe_congr fun j hj => h1 _ (by omega)) (h1 i hi))

theorem writeUdphdr_congr {m m' : Mem} {udph : Nat}
    (h : ∀ j, udph ≤ j → j < udph + 8 → m j = m' j) {i : Nat} (h1 : udph ≤ i) (h2 : i < udph + 8) :
    writeUdphdr m udph i = writeUdphdr m' udph i := by
  have hport : ∀ p, udph ≤ p → p + 2 ≤ udph + 8 → loadLe m p 2 = loadLe m' p 2 :=
    fun p hp hp' => loadLe_congr fun j hj => h _ (by omega) (by omega)
  have hports : ∀ j, udph ≤ j → j < udph + 8 →
      storeLe (storeLe m (udph + 2) 2 (loadLe m udph 2)) udph 2 (loadLe m (udph + 2) 2) j =
        storeLe (storeLe m' (udph + 2) 2 (loadLe m' udph 2)) udph 2 (loadLe m' (udph + 2) 2) j :=
    fun j hj hj' => storeLe_congr (hport _ (by omega) (by omega))
      (storeLe_congr (hport _ (by omega) (by omega)) (h j hj hj'))
  refine storeLe_congr ?_ (hports i h1 h2)
  have hlen := loadLe_congr fun j (hj : j < 2) => hports (udph + 4 + j) (by omega) (by omega)
  rw [hlen]

theorem loadLe_writeIphdr_saddr (m : Mem) (len : Nat) :
    loadLe (writeIphdr m len) 12 4 = loadLe m 16 4 := by
  have hl : loadLe m 16 4 < 256 ^ 4 := loadLe_lt m 16 4
  unfold writeIphdr
  simp (disch := first | omega | assumption) only [loadLe_storeLe_of_disjoint, loadLe_storeLe_of_lt]

theorem loadLe_writeIphdr_daddr (m : Mem) (len : Nat) :
    loadLe (writeIphdr m len) 16 4 = loadLe m 12 4 := by
  have hl : loadLe m 12 4 < 256 ^ 4 := loadLe_lt m 12 4
  unfold writeIphdr
  simp (disch := first | omega | assumption) only [loadLe_storeLe_of_disjoint, loadLe_storeLe_of_lt]

theorem be16_writeIphdr_totLen (m : Mem) (len : Nat) : be16 (writeIphdr m len) 2 = len % 65536 := by
  unfold writeIphdr
  rw [be16_storeLe_of_disjoint _ (by omega), be16_storeLe_of_disjoint _ (by omega),
    be16_storeLe_htons]

theorem loadLe_writeUdphdr_source (m : Mem) (udph : Nat) :
    loadLe (writeUdphdr m udph) udph 2 = loadLe m (udph + 2) 2 := by
  have hl : loadLe m (udph + 2) 2 < 256 ^ 2 := loadLe_lt m (udph + 2) 2
  unfold writeUdphdr
  simp (disch := first | omega | assumption) only [loadLe_storeLe_of_disjoint, loadLe_storeLe_of_lt]

theorem loadLe_writeUdphdr_dest (m : Mem) (udph : Nat) :
    loadLe (writeUdphdr m udph) (udph + 2) 2 = loadLe m udph 2 := by
  have hl : loadLe m udph 2 < 256 ^ 2 := loadLe_lt m udph 2
  unfold writeUdphdr
  simp (disch := first | omega | assumption) only [loadLe_storeLe_of_disjoint, loadLe_storeLe_of_lt]

theorem be16_writeUdphdr_len (m : Mem) (udph : Nat) :
    be16 (writeUdphdr m udph) (udph + 4) = (be16 m (udph + 4) + 16) % 65536 := by
  unfold writeUdphdr
  rw [be16_storeLe_htons]
  simp (disch := omega) only [loadLe_storeLe_of_disjoint, ntohs, htons_loadLe]
  rfl

/-! ## Fields of the reply -/

section
variable (skb : SkBuff) (copy : Mem) (node : DnsNode)

@[simp] theorem reply_udph : (reply skb copy node).udph = skb.udph := rfl

@[simp] theorem reply_dnsh : (reply skb copy node).dnsh = skb.dnsh := rfl

@[simp] theorem reply_len : (reply skb copy node).len = skb.len + 16 := rfl

/-- The IP header of the reply is that of the query, rewritten. -/
theorem reply_iphdr {i : Nat} (h : i < 20) :
    (reply skb copy node).mem i = writeIphdr skb.mem (skb.len + 16) i := by
  have h20 := skb.twenty_le_udph
  have hin := skb.udph_le_len
  show replyMem (skb.expanded copy) (skb.len + 16) skb.udph node i = _
  rw [replyMem_iphdr _ _ _ h20 h]
  exact writeIphdr_congr (fun j hj => skb.expanded_of_lt copy (by omega)) h

/-- So is its UDP header. -/
theorem reply_udphdr (hudp : skb.udph + 8 ≤ skb.len) {i : Nat} (h1 : skb.udph ≤ i)
    (h2 : i < skb.udph + 8) : (reply skb copy node).mem i = writeUdphdr skb.mem skb.udph i := by
  have h20 := skb.twenty_le_udph
  show replyMem (skb.expanded copy) (skb.len + 16) skb.udph node i = _
  rw [replyMem_udphdr _ _ _ h1 h2]
  refine writeUdphdr_congr (fun j hj1 hj2 => ?_) h1 h2
  rw [writeIphdr_of_disjoint _ _ (by omega), skb.expanded_of_lt copy (by omega)]

theorem reply_protocol : (reply skb copy node).protocol = skb.protocol := by
  rw [SkBuff.protocol, SkBuff.protocol, reply_iphdr _ _ _ (by omega), writeIphdr_of_disjoint _ _ (by omega)]

theorem reply_saddr : loadLe (reply skb copy node).mem 12 4 = loadLe skb.mem 16 4 := by
  rw [← loadLe_writeIphdr_saddr skb.mem (skb.len + 16)]
  exact loadLe_congr fun i hi => reply_iphdr _ _ _ (by omega)

theorem reply_daddr : loadLe (reply skb copy node).mem 16 4 = loadLe skb.mem 12 4 := by
  rw [← loadLe_writeIphdr_daddr skb.mem (skb.len + 16)]
  exact loadLe_congr fun i hi => reply_iphdr _ _ _ (by omega)

theorem reply_totLen : be16 (reply skb copy node).mem 2 = (skb.len + 16) % 65536 := by
  rw [← be16_writeIphdr_totLen skb.mem]
  exact be16_congr (reply_iphdr _ _ _ (by omega)) (reply_iphdr _ _ _ (by omega))

section
variable (hudp : skb.udph + 8 ≤ skb.len)
include hudp

theorem reply_source : (reply skb copy node).source = skb.dest := by
  show loadLe (reply skb copy node).mem skb.udph 2 = loadLe skb.mem (skb.udph + 2) 2
  rw [← loadLe_writeUdphdr_source skb.mem skb.udph]
  exact loadLe_congr fun i hi => reply_udphdr _ _ _ hudp (by omega) (by omega)

theorem reply_dest : (reply skb copy node).dest = skb.source := by
  show loadLe (reply skb copy node).mem (skb.udph + 2) 2 = loadLe skb.mem skb.udph 2
  rw [← loadLe_writeUdphdr_dest skb.mem skb.udph]
  exact loadLe_congr fun i hi => reply_udphdr _ _ _ hudp (by omega) (by omega)

theorem reply_udpLen :
    be16 (reply skb copy node).mem (skb.udph + 4) = (be16 skb.mem (skb.udph + 4) + 16) % 65536 := by
  rw [← be16_writeUdphdr_len]
  exact be16_congr (reply_udphdr _ _ _ hudp (by omega) (by omega))
    (reply_udphdr _ _ _ hudp (by omega) (by omega))

end

/-- The DNS id is not written. -/
theorem reply_id {i : Nat} (h1 : skb.dnsh ≤ i) (h2 : i < skb.dnsh + 2) (h3 : i < skb.len) :
    (reply skb copy node).mem i = skb.mem i := by
  have h20 := skb.twenty_le_udph
  have hr := twenty_lt_reqOffset node
  rw [SkBuff.dnsh_eq] at h1 h2
  show replyMem (skb.expanded copy) (skb.len + 16) skb.udph node i = _
  rw [replyMem_of_disjoint _ _ _ _ (by omega) (by omega) (by omega) (by omega),
    skb.expanded_of_lt copy h3]

/-- Behind the DNS header nothing changes before the record. -/
theorem reply_question {i : Nat} (h1 : skb.dnsh + 12 ≤ i) (h2 : i < skb.udph + reqOffset node) :
    (reply skb copy node).mem i = skb.expanded copy i := by
  have h20 := skb.twenty_le_udph
  rw [SkBuff.dnsh_eq] at h1
  exact replyMem_of_disjoint _ _ _ _ (by omega) (by omega) (by omega) (by omega)

theorem reply_rData :
    readRData (reply skb copy node).mem (skb.udph + reqOffset node) =
      { name := htons 0xc00c, type := htons 1, _class := htons 1, ttl := node.ttl.toNat,
        dataLen := htons 4, addr := node.addr.toNat } :=
  readRData_writeRData _ _ _

end

/-! ## Encoder and decoder -/

theorem cstr_hostMem_of_matches {env : OutEnv} {skb : SkBuff} {t : DnsTree} {node : DnsNode}
    (hm : Matches env skb t node) {name : List UInt8} (hn : skb.Named name) :
    cstr node.hostMem = name := by
  obtain ⟨-, -, behind, -, hs⟩ := hm
  rw [← (mem_of_search hs).2, SkBuff.cstr_hname_of_named hn]

theorem reqOffset_eq {node : DnsNode} {name : List UInt8} (h : cstr node.hostMem = name) :
    reqOffset node = 20 + name.length + 5 := by
  rw [reqOffset, strlen_eq, h]
  rfl

/-- The reply carries the question of a query that holds it. -/
theorem reply_named {skb : SkBuff} (copy : Mem) {node : DnsNode} {name : List UInt8}
    (hn : skb.Named name) (hin : skb.dnsh + 12 + name.length < skb.len)
    (hname : cstr node.hostMem = name) : (reply skb copy node).Named name := by
  have hreq := reqOffset_eq hname
  have hd := skb.dnsh_eq
  refine ⟨?_, hn.no_nul, ?_, hn.fits⟩
  · rw [← hn.bytes]
    simp only [length_load]
    refine load_congr fun i hi => ?_
    show (reply skb copy node).mem (skb.dnsh + 12 + i) = skb.mem (skb.dnsh + 12 + i)
    rw [reply_question _ _ _ (by omega) (by omega), skb.expanded_of_lt copy (by omega)]
  · rw [← hn.nul]
    show (reply skb copy node).mem (skb.dnsh + 12 + name.length) = skb.mem (skb.dnsh + 12 + name.length)
    rw [reply_question _ _ _ (by omega) (by omega), skb.expanded_of_lt copy (by omega)]

/-- What `hook_in_packets` reads from a reply is the record of its node. -/
theorem reply_rData_of_named {skb : SkBuff} (copy : Mem) {node : DnsNode} {name : List UInt8}
    (hname : cstr node.hostMem = name) : (reply skb copy node).rData name.length =
      { name := htons 0xc00c, type := htons 1, _class := htons 1, ttl := node.ttl.toNat,
        dataLen := htons 4, addr := node.addr.toNat } := by
  rw [← reply_rData skb copy node, SkBuff.rData, reqOffset_eq hname]
  congr 1
  show skb.udph + 8 + (12 + name.length + 5) = _
  omega

/-- **Round trip.**  The reply to a whole question mirrors the query, and parsed as
an inbound packet gives the name, the address and the ttl of the node back. -/
theorem reply_roundtrip {env : OutEnv} {skb r : SkBuff} {t : DnsTree} {node : DnsNode}
    {name : List UInt8} (hm : Matches env skb t node) (hr : (createPacket env skb node).2 = some r)
    (hq : skb.Question name) (htot : be16 skb.mem 2 = skb.len)
    (hlen : skb.len = 4 * ((skb.mem 0).toNat % 16) + be16 skb.mem (skb.udph + 4))
    (hmax : skb.len ≤ 65519) :
    (loadLe r.mem 12 4 = loadLe skb.mem 16 4 ∧ loadLe r.mem 16 4 = loadLe skb.mem 12 4 ∧
      r.source = skb.dest ∧ r.dest = skb.source ∧
      load r.mem r.dnsh 2 = load skb.mem skb.dnsh 2 ∧
      load r.mem (r.dnsh + dnshdrSize) (name.length + 5) =
        load skb.mem (skb.dnsh + dnshdrSize) (name.length + 5) ∧
      be16 r.mem 2 = 4 * ((r.mem 0).toNat % 16) + be16 r.mem (r.udph + 4) ∧
      be16 r.mem 2 = be16 skb.mem 2 + rdataSize) ∧
    ∀ behind, strcmp (r.hname ++ behind) node.hostMem = 0 ∧
      ntohs (r.rData (strlen (r.hname ++ behind))).type = 1 ∧
      ntohs (r.rData (strlen (r.hname ++ behind))).dataLen = 4 ∧
      (r.rData (strlen (r.hname ++ behind))).addr = node.addr.toNat ∧
      (r.rData (strlen (r.hname ++ behind))).ttl = node.ttl.toNat := by
  have hname := cstr_hostMem_of_matches hm hq.toNamed
  have hreq := reqOffset_eq hname
  have hd := skb.dnsh_eq
  have hin : skb.dnsh + 12 + name.length + 5 ≤ skb.len := hq.inside
  have hudp : skb.udph + 8 ≤ skb.len := by omega
  obtain ⟨copy, -, rfl⟩ := createPacket_snd_eq_some_iff.1 hr
  refine ⟨⟨reply_saddr _ _ _, reply_daddr _ _ _, reply_source _ _ _ hudp, reply_dest _ _ _ hudp,
    ?_, ?_, ?_, ?_⟩, fun behind => ?_⟩
  · exact load_congr fun i hi => reply_id _ _ _ (by simp) (by simp; omega) (by simp; omega)
  · refine load_congr fun i hi => ?_
    show (reply skb copy node).mem (skb.dnsh + 12 + i) = skb.mem (skb.dnsh + 12 + i)
    rw [reply_question _ _ _ (by omega) (by omega), skb.expanded_of_lt copy (by omega)]
  · rw [reply_totLen, ← (reply skb copy node).ihl, reply_udph, reply_udpLen _ _ _ hudp]
    have hih : skb.transportHeader = 4 * ((skb.mem 0).toNat % 16) := skb.ihl
    show (skb.len + 16) % 65536 = skb.transportHeader + (be16 skb.mem (skb.udph + 4) + 16) % 65536
    omega
  · rw [reply_totLen, htot]
    unfold rdataSize
    omega
  · have hrn := reply_named copy hq.toNamed (by omega) hname
    refine ⟨?_, ?_⟩
    · rw [strcmp_eq_zero_iff, SkBuff.cstr_hname_of_named hrn, hname]
    · rw [SkBuff.strlen_hname_append hrn, reply_rData_of_named copy hname]
      exact ⟨htons_htons (by decide), htons_htons (by decide), rfl, rfl⟩

theorem reply_roundtrip_query :
    let skb := udpPacket 40000 53 (queryPayload [1, 97] 1)
    let node := newNode [1, 97] ⟨0, 0, 0, 60, 0, 3232235777⟩ []
    let r := reply skb (fun _ => 0) node
    r.dest = htons 40000 ∧ (r.rData (strlen (r.hname ++ []))).addr = 3232235777 := by
  intro skb node r
  have hn : skb.Named [1, 97] := udpPacket_query_named 40000 53 1 (by decide) (by decide)
  have hs : search (.node .nil node .nil) (skb.hname ++ []) = some node := by
    rw [search_leaf, SkBuff.cstr_hname_of_named hn, cstr_hostMem_newNode _ _ (by decide)]
    rfl
  have hm : Matches ⟨some [], some fun _ => 0, 0⟩ skb (.node .nil node .nil) node :=
    ⟨udpPacket_protocol _ _ _, udpPacket_dest _ _ _, [], rfl, hs⟩
  have h := reply_roundtrip hm rfl ⟨hn, by decide⟩ (by decide) (by decide) (by decide)
  exact ⟨h.1.2.2.2.1.trans (udpPacket_source _ _ _), (h.2 []).2.2.2.1⟩

end Eltex.ProxyServer
