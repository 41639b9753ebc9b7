import Eltex.ProxyServer.Answer

/-!
# Bytes the hooks read and write

Neither hook compares an offset with `skb->len`.  The offsets each one reads are
listed as the source reads them, up to the NUL of the name and field by field in
the record; the hooks depend on no other byte behind the headers
(`hookInPackets_congr`, `matched_congr`), and `create_packet` changes no
byte outside its own list (`replyMem_of_not_mem`).

All of it stays inside the packet exactly when the name ends there, and with it
the part of the packet that this call goes on to (`accessInside_iff`).
-/

namespace Eltex.ProxyServer

open ByteMem CString SearchTree

/-! ## The accesses -/

/-- What `strncpy` reads of the packet. -/
def SkBuff.nameReads (skb : SkBuff) : List Nat :=
  span (skb.dnsh + dnshdrSize)
    (strncpyReads (load skb.mem (skb.dnsh + dnshdrSize) hostnameLen) hostnameLen)

/-- What is read once the name is new: `type`; `data_len` when the type is not 1; and of a
record that is stored `addr`, `ttl` and, for the log, the DNS id. -/
def SkBuff.recordReads (skb : SkBuff) (env : InEnv) (nameLen : Nat) : List Nat :=
  let p := skb.dnsh + (dnshdrSize + nameLen + 5)
  let r := skb.rData nameLen
  span (p + 2) 2 ++ (if ntohs r.type ≠ 1 then span (p + 10) 2 else []) ++
    if r.Refused then []
    else
      match env.node with
      | none => span (p + 12) 4 -- read for a store through NULL
      | some _ => span (p + 12) 4 ++ span (p + 6) 4 ++ span skb.dnsh 2

/-- Reads of `hook_in_packets` behind the UDP header. -/
def inReads (env : InEnv) (skb : SkBuff) (t : DnsTree) : List Nat :=
  match env.hname with
  | none => span (skb.dnsh + dnshdrSize) 1 -- the first byte, for a store through NULL
  | some behind =>
    skb.nameReads ++
      match search t (skb.hname ++ behind) with
      | some _ => []
      | none => skb.recordReads env (strlen (skb.hname ++ behind))

/-- Reads of `hook_out_packets` behind the UDP header. -/
def outReads (env : OutEnv) (skb : SkBuff) : List Nat :=
  match env.hname with
  | none => span (skb.dnsh + dnshdrSize) 1
  | some _ => skb.nameReads

/-- What `create_packet` writes: `tot_len`, the addresses, the UDP header but for its
checksum, flags and counts, the record. -/
def packetWrites (udph : Nat) (node : DnsNode) : List Nat :=
  span 2 2 ++ span 12 8 ++ span udph 6 ++ span (udph + udphdrSize + 2) 10 ++
    span (udph + reqOffset node) rdataSize

/-- Writes of one call of `hook_out_packets` to the expanded packet. -/
def outWrites (env : OutEnv) (skb : SkBuff) (t : DnsTree) : List Nat :=
  match matched env skb t, env.copy with
  | some node, some _ => packetWrites skb.udph node
  | _, _ => []

/-! ## The lists are complete -/

theorem replyMem_of_not_mem (m : Mem) (len udph : Nat) (node : DnsNode) {i : Nat}
    (h : i ∉ packetWrites udph node) : replyMem m len udph node i = m i := by
  simp only [packetWrites, List.mem_append, mem_span, not_or, not_and, not_lt] at h
  obtain ⟨⟨⟨⟨h1, h2⟩, h3⟩, h4⟩, h5⟩ := h
  unfold udphdrSize at h4
  unfold rdataSize at h5
  exact replyMem_of_disjoint m len udph node (by omega) (by omega) (by omega) (by omega)

section
variable {p q : SkBuff} (hth : p.transportHeader = q.transportHeader)
include hth

theorem dnsh_congr : p.dnsh = q.dnsh := by rw [SkBuff.dnsh, SkBuff.dnsh, SkBuff.udph, SkBuff.udph, hth]

theorem hname_congr (h : ∀ i ∈ p.nameReads, p.mem i = q.mem i) : p.hname = q.hname := by
  have hd := dnsh_congr hth
  have hle : strncpyReads (load p.mem (p.dnsh + dnshdrSize) hostnameLen) hostnameLen ≤ hostnameLen := by
    rw [strncpyReads_eq (by simp)]
    omega
  refine strncpy_congr (by simp) fun i hi => ?_
  have hi' : i < hostnameLen := by omega
  rw [List.getElem?_eq_getElem (by simpa using hi'), List.getElem?_eq_getElem (by simpa using hi'),
    getElem_load, getElem_load, ← hd, h (p.dnsh + dnshdrSize + i) (mem_span.2 (by omega))]

/-- A record read in full where it is stored, and refused alike. -/
theorem rData_congr {env : InEnv} {nameLen : Nat}
    (h : ∀ i ∈ p.recordReads env nameLen, p.mem i = q.mem i) :
    ((p.rData nameLen).Refused ↔ (q.rData nameLen).Refused) ∧
      ∀ nodeBehind, env.node = some nodeBehind → ¬ (p.rData nameLen).Refused →
        (p.rData nameLen).addr = (q.rData nameLen).addr ∧ (p.rData nameLen).ttl = (q.rData nameLen).ttl := by
  have hd := dnsh_congr hth
  unfold SkBuff.recordReads at h
  simp only at h
  generalize hp : p.dnsh + (dnshdrSize + nameLen + 5) = o at h
  have hro : p.rData nameLen = readRData p.mem o := by rw [← hp]; rfl
  have hqo : q.rData nameLen = readRData q.mem o := by rw [← hp, hd]; rfl
  have htype : (p.rData nameLen).type = (q.rData nameLen).type := by
    rw [hro, hqo]
    exact loadLe_congr fun i hi => h _ (by simp; omega)
  have hlen : ntohs (p.rData nameLen).type ≠ 1 → (p.rData nameLen).dataLen = (q.rData nameLen).dataLen := by
    intro h1
    rw [if_pos h1] at h
    rw [hro, hqo]
    exact loadLe_congr fun i hi => h _ (by simp; omega)
  have href : (p.rData nameLen).Refused ↔ (q.rData nameLen).Refused := by
    unfold RData.Refused
    rw [← htype]
    by_cases h1 : ntohs (p.rData nameLen).type ≠ 1
    · rw [hlen h1]
    · exact ⟨fun hr => absurd hr.1 h1, fun hr => absurd hr.1 h1⟩
  refine ⟨href, fun nodeBehind hn hr => ?_⟩
  simp only [if_neg hr, hn] at h
  rw [hro, hqo]
  exact ⟨loadLe_congr fun i hi => h _ (by simp; omega), loadLe_congr fun i hi => h _ (by simp; omega)⟩

theorem ports_congr (h : ∀ i, p.udph ≤ i → i < p.dnsh → p.mem i = q.mem i) :
    p.source = q.source ∧ p.dest = q.dest := by
  have hu : p.udph = q.udph := hth
  have hd := p.dnsh_eq
  unfold SkBuff.source SkBuff.dest
  rw [← hu]
  exact ⟨loadLe_congr fun i hi => h _ (by omega) (by omega),
    loadLe_congr fun i hi => h _ (by omega) (by omega)⟩

/-- The headers and the listed bytes are all that `hook_in_packets` looks at. -/
theorem hookInPackets_congr {env : InEnv} {t : DnsTree} (h9 : p.mem 9 = q.mem 9)
    (hu : ∀ i, p.udph ≤ i → i < p.dnsh → p.mem i = q.mem i)
    (h : ∀ i ∈ inReads env p t, p.mem i = q.mem i) : hookInPackets env p t = hookInPackets env q t := by
  have hports := ports_congr hth hu
  have hproto : p.protocol = q.protocol := h9
  unfold hookInPackets
  rw [hproto, hports.1]
  unfold inReads at h
  cases hb : env.hname with
  | none => rfl
  | some behind =>
    simp only [hb] at h ⊢
    have hname := hname_congr hth fun i hi => h i (List.mem_append_left _ hi)
    rw [← hname]
    cases hs : search t (p.hname ++ behind) with
    | some d => rfl
    | none =>
      simp only [hs] at h ⊢
      obtain ⟨href, hrec⟩ := rData_congr hth fun i hi => h i (List.mem_append_right _ hi)
      by_cases hr : (p.rData (strlen (p.hname ++ behind))).Refused
      · rw [if_pos hr, if_pos (href.1 hr)]
      · rw [if_neg hr, if_neg fun hq => hr (href.2 hq)]
        cases hn : env.node with
        | none => rfl
        | some nodeBehind =>
          obtain ⟨ha, ht⟩ := hrec nodeBehind hn hr
          simp only [newNode, ha, ht]

/-- The headers and the listed bytes decide what `hook_out_packets` matches. -/
theorem matched_congr {env : OutEnv} {t : DnsTree} (h9 : p.mem 9 = q.mem 9)
    (hu : ∀ i, p.udph ≤ i → i < p.dnsh → p.mem i = q.mem i)
    (h : ∀ i ∈ outReads env p, p.mem i = q.mem i) : matched env p t = matched env q t := by
  have hports := ports_congr hth hu
  have hproto : p.protocol = q.protocol := h9
  unfold outReads at h
  unfold matched
  rw [hproto, hports.2]
  cases hb : env.hname with
  | none => rfl
  | some behind =>
    rw [hb] at h
    rw [hname_congr hth h]

end

/-! ## Accesses inside the packet -/

/-- `hook_in_packets` reads within the packet, and takes `strlen` of a terminated buffer. -/
structure InInside (t : DnsTree) (skb : SkBuff) : Prop where
  reads : ∀ env, ∀ i ∈ inReads env skb t, i < skb.len
  nul : 0 ∈ skb.hname

/-- So does `hook_out_packets`, and `create_packet` writes within the expanded packet. -/
structure OutInside (t : DnsTree) (skb : SkBuff) : Prop where
  reads : ∀ env, ∀ i ∈ outReads env skb, i < skb.len
  nul : 0 ∈ skb.hname
  writes : ∀ env, ∀ i ∈ outWrites env skb t, i < skb.len + rdataSize

/-- The accesses of the hooks a UDP packet takes. -/
def AccessInside (t : DnsTree) (skb : SkBuff) : Prop :=
  (skb.source = dnsPort → InInside t skb) ∧ (skb.dest = dnsPort → OutInside t skb)

/-- The name ends within the packet, its NUL included. -/
structure SkBuff.NameInside (skb : SkBuff) (name : List UInt8) : Prop extends Named skb name where
  inside : skb.dnsh + dnshdrSize + name.length < skb.len

theorem mem_nameReads {skb : SkBuff} {name : List UInt8} (hn : skb.Named name) {i : Nat} :
    i ∈ skb.nameReads ↔
      skb.dnsh + dnshdrSize ≤ i ∧ i ≤ skb.dnsh + dnshdrSize + name.length := by
  have hlt := hn.fits
  rw [SkBuff.nameReads, strncpyReads_eq (by simp), SkBuff.cstr_load_of_named hn, mem_span]
  omega

/-- A terminated name is read within the packet exactly when it lies there. -/
theorem nameReads_inside_iff {skb : SkBuff} {name : List UInt8} (hn : skb.Named name) :
    (∀ i ∈ skb.nameReads, i < skb.len) ↔ skb.dnsh + dnshdrSize + name.length < skb.len := by
  simp only [mem_nameReads hn]
  constructor
  · intro h
    exact h _ ⟨by omega, by omega⟩
  · rintro h i ⟨-, hi⟩
    omega

/-- The record is in the packet as far as the hook needs it. -/
def SkBuff.RecordInside (skb : SkBuff) (nameLen : Nat) : Prop :=
  ((skb.rData nameLen).Refused ∧ skb.dnsh + dnshdrSize + nameLen + 5 + 12 ≤ skb.len) ∨
    skb.dnsh + dnshdrSize + nameLen + 5 + 16 ≤ skb.len

theorem recordReads_inside {skb : SkBuff} {nameLen : Nat} (h : skb.RecordInside nameLen) (env : InEnv) :
    ∀ i ∈ skb.recordReads env nameLen, i < skb.len := by
  intro i hi
  unfold SkBuff.recordReads at hi
  simp only [List.mem_append] at hi
  have h12 : skb.dnsh + dnshdrSize + nameLen + 5 + 12 ≤ skb.len := by
    rcases h with ⟨-, h⟩ | h <;> omega
  rcases hi with (hi | hi) | hi
  · rw [mem_span] at hi
    omega
  · split at hi
    · rw [mem_span] at hi
      omega
    · cases hi
  · split at hi
    · cases hi
    · next hr =>
      have h16 : skb.dnsh + dnshdrSize + nameLen + 5 + 16 ≤ skb.len := by
        rcases h with ⟨h, -⟩ | h
        · exact absurd h hr
        · exact h
      split at hi
      · rw [mem_span] at hi
        omega
      · simp only [List.mem_append, mem_span] at hi
        omega

theorem recordInside_of_reads {skb : SkBuff} {nameLen : Nat} {env : InEnv} (hn : env.node ≠ none)
    (h : ∀ i ∈ skb.recordReads env nameLen, i < skb.len) : skb.RecordInside nameLen := by
  obtain ⟨nodeBehind, hn⟩ := Option.ne_none_iff_exists'.1 hn
  unfold SkBuff.recordReads at h
  simp only [hn, List.mem_append] at h
  by_cases hr : (skb.rData nameLen).Refused
  · -- the last byte read is the second of `data_len`
    have := h (skb.dnsh + (dnshdrSize + nameLen + 5) + 11)
      (Or.inl (Or.inr (by rw [if_pos hr.1, mem_span]; omega)))
    exact Or.inl ⟨hr, by omega⟩
  · -- the last byte read is the fourth of `addr`
    have := h (skb.dnsh + (dnshdrSize + nameLen + 5) + 15)
      (Or.inr (by rw [if_neg hr, List.mem_append, List.mem_append, mem_span]; omega))
    exact Or.inr (by omega)

/-- `hook_in_packets` keeps within the packet exactly when the name does and, unless it is
known, the record. -/
theorem inInside_iff (t : DnsTree) (skb : SkBuff) :
    InInside t skb ↔ ∃ name, skb.NameInside name ∧
      (search t name ≠ none ∨ skb.RecordInside name.length) := by
  constructor
  · rintro ⟨hreads, h0⟩
    obtain ⟨name, hn⟩ := SkBuff.zero_mem_hname_iff.1 h0
    have h := hreads ⟨some [], some [], .refl _⟩
    simp only [inReads, List.mem_append] at h
    refine ⟨name, ⟨hn, (nameReads_inside_iff hn).1 fun i hi => h i (Or.inl hi)⟩, ?_⟩
    cases hs : search t name with
    | some d => exact Or.inl (Option.some_ne_none d)
    | none =>
      simp only [search_hname hn, hs, SkBuff.strlen_hname_append hn] at h
      right
      exact recordInside_of_reads (Option.some_ne_none []) fun i hi => h i (Or.inr hi)
  · rintro ⟨name, ⟨hn, hin⟩, hrec⟩
    refine ⟨fun env i hi => ?_, SkBuff.zero_mem_hname_iff.2 ⟨name, hn⟩⟩
    unfold inReads at hi
    split at hi
    · rw [mem_span] at hi
      omega
    · next behind hb =>
      rcases List.mem_append.1 hi with hi | hi
      · exact (nameReads_inside_iff hn).2 hin i hi
      · rw [search_hname hn, SkBuff.strlen_hname_append hn] at hi
        split at hi
        · cases hi
        · next hs =>
          rcases hrec with hrec | hrec
          · exact absurd hs hrec
          · exact recordReads_inside hrec env i hi

theorem packetWrites_inside_iff {skb : SkBuff} {node : DnsNode} {name : List UInt8}
    (hname : cstr node.hostMem = name) :
    (∀ i ∈ packetWrites skb.udph node, i < skb.len + rdataSize) ↔
      skb.dnsh + dnshdrSize + name.length + 5 ≤ skb.len := by
  have hd := skb.dnsh_eq
  have hreq := reqOffset_eq hname
  have h20 := skb.twenty_le_udph
  unfold packetWrites rdataSize udphdrSize dnshdrSize
  simp only [List.mem_append, mem_span]
  constructor
  · intro h
    have := h (skb.udph + reqOffset node + 15) (by omega)
    omega
  · intro h i hi
    omega

/-- `hook_out_packets` and `create_packet` keep within exactly when the name does and, if
it is known, five bytes more: its NUL, the type and the class. -/
theorem outInside_iff (t : DnsTree) {skb : SkBuff} (hu : skb.protocol = ipprotoUdp)
    (hd : skb.dest = dnsPort) :
    OutInside t skb ↔ ∃ name, skb.NameInside name ∧
      (search t name = none ∨ skb.dnsh + dnshdrSize + name.length + 5 ≤ skb.len) := by
  have hnode : ∀ {name node}, skb.Named name → search t name = some node → cstr node.hostMem = name :=
    fun hn hs => by rw [← (mem_of_search hs).2, cstr_eq_self hn.no_nul]
  constructor
  · rintro ⟨hreads, h0, hwrites⟩
    obtain ⟨name, hn⟩ := SkBuff.zero_mem_hname_iff.1 h0
    have hin := (nameReads_inside_iff hn).1 (hreads ⟨some [], none, 0⟩)
    refine ⟨name, ⟨hn, hin⟩, ?_⟩
    cases hs : search t name with
    | none => exact Or.inl rfl
    | some node =>
      right
      have hm : matched ⟨some [], some fun _ => 0, 0⟩ skb t = some node :=
        matched_eq_some_iff.2 ⟨hu, hd, [], rfl, by rw [search_hname hn, hs]⟩
      have hw := hwrites ⟨some [], some fun _ => 0, 0⟩
      simp only [outWrites, hm] at hw
      exact (packetWrites_inside_iff (hnode hn hs)).1 hw
  · rintro ⟨name, ⟨hn, hin⟩, hrec⟩
    refine ⟨fun env i hi => ?_, SkBuff.zero_mem_hname_iff.2 ⟨name, hn⟩, fun env i hi => ?_⟩
    · unfold outReads at hi
      split at hi
      · rw [mem_span] at hi
        omega
      · exact (nameReads_inside_iff hn).2 hin i hi
    · unfold outWrites at hi
      split at hi
      · next node copy hm _ =>
        obtain ⟨-, -, behind, -, hs⟩ := matched_eq_some_iff.1 hm
        rw [search_hname hn] at hs
        rcases hrec with hrec | hrec
        · rw [hs] at hrec
          cases hrec
        · exact (packetWrites_inside_iff (hnode hn hs)).2 hrec i hi
      · cases hi

/-- **When the hooks keep within the packet.** -/
theorem accessInside_iff (t : DnsTree) {skb : SkBuff} (hu : skb.protocol = ipprotoUdp) :
    AccessInside t skb ↔
      (skb.source = dnsPort → ∃ name, skb.NameInside name ∧
        (search t name ≠ none ∨ skb.RecordInside name.length)) ∧
      (skb.dest = dnsPort → ∃ name, skb.NameInside name ∧
        (search t name = none ∨ skb.dnsh + dnshdrSize + name.length + 5 ≤ skb.len)) := by
  unfold AccessInside
  rw [inInside_iff]
  refine and_congr_right fun _ => imp_congr_right fun hd => ?_
  exact outInside_iff t hu hd

theorem accessInside_iff_query :
    AccessInside .nil (udpPacket 40000 53 (queryPayload [1, 97] 1)) := by
  rw [accessInside_iff .nil (udpPacket_protocol _ _ _)]
  refine ⟨fun hs => ?_, fun _ => ⟨[1, 97], ⟨?_, ?_⟩, Or.inl rfl⟩⟩
  · rw [udpPacket_source] at hs
    exact absurd hs (by decide)
  · exact udpPacket_query_named 40000 53 1 (by decide) (by decide)
  · rw [udpPacket_len, udpPacket_dnsh]
    decide

/-- A datagram from port 53 without payload. -/
theorem not_accessInside_empty : ¬ AccessInside .nil (udpPacket 53 40000 []) := by
  rintro ⟨hin, -⟩
  have hn : (udpPacket 53 40000 []).Named [] := ⟨rfl, by decide, by decide, by decide⟩
  have h := (hin (udpPacket_source 53 40000 [])).reads ⟨some [], some [], .refl _⟩ 40
    (List.mem_append_left _ ((mem_nameReads hn).2 (by decide)))
  rw [udpPacket_len] at h
  exact absurd h (by decide)

end Eltex.ProxyServer
