import Eltex.ProxyServer.Names

/-!
# Which packets are answered

`hook_out_packets` looks at the protocol, the destination port and the name, and
at nothing else (`Answerable`).

* It answers A questions only exactly when the name of every other packet is
  unknown (`onlyAQueries_iff`).
* `ip_local_out` takes a reply through the hook again.  The reply goes to the
  port the query came from, so it is answered in its turn exactly when that is
  the DNS port (`answeredOnce_iff`), and then without end
  (`createCalls_of_source`).
-/

namespace Eltex.ProxyServer

open ByteMem CString SearchTree

/-- All that `hook_out_packets` asks of a packet it answers. -/
structure Answerable (t : DnsTree) (skb : SkBuff) : Prop where
  udp : skb.protocol = ipprotoUdp
  dest : skb.dest = dnsPort
  found : ∃ behind node, search t (skb.hname ++ behind) = some node

theorem answerable_iff {t : DnsTree} {skb : SkBuff} :
    Answerable t skb ↔ ∃ env node, Matches env skb t node := by
  constructor
  · rintro ⟨hu, hd, behind, node, hs⟩
    exact ⟨⟨some behind, none, 0⟩, node, hu, hd, behind, rfl, hs⟩
  · rintro ⟨env, node, hu, hd, behind, -, hs⟩
    exact ⟨hu, hd, behind, node, hs⟩

theorem answerable_of_named {t : DnsTree} {skb : SkBuff} {name : List UInt8} {node : DnsNode}
    (hu : skb.protocol = ipprotoUdp) (hd : skb.dest = dnsPort) (hn : skb.Named name)
    (hs : search t name = some node) : Answerable t skb := by
  refine ⟨hu, hd, [], node, ?_⟩
  rw [search_hname hn, hs]

/-! ## The kind of question -/

/-- A query with one question, of type A and class IN. -/
structure SkBuff.AQuery (skb : SkBuff) : Prop where
  qr : (skb.mem (skb.dnsh + 2)).toNat / 128 = 0
  qCount : be16 skb.mem (skb.dnsh + 4) = 1
  question : ∃ n : WireName, skb.Carries n ∧
    skb.dnsh + dnshdrSize + n.octets.length + 4 ≤ skb.len ∧
    be16 skb.mem (skb.dnsh + dnshdrSize + n.octets.length) = 1 ∧
    be16 skb.mem (skb.dnsh + dnshdrSize + n.octets.length + 2) = 1

/-- Unless it is an A query the packet is accepted and nothing injected. -/
def OnlyAQueries (t : DnsTree) (skb : SkBuff) : Prop :=
  ∀ env v injected, hookOutPackets env skb t = some (v, injected) → ¬ skb.AQuery →
    v = .accept ∧ injected = none

/-- A packet whose name is known is answered whatever its question. -/
theorem aQuery_of_onlyAQueries {t : DnsTree} {skb : SkBuff} (h : OnlyAQueries t skb)
    (ha : Answerable t skb) : skb.AQuery := by
  apply Classical.byContradiction
  intro hq
  obtain ⟨hu, hd, behind, node, hs⟩ := ha
  have hm : Matches ⟨some behind, some fun _ => 0, 0⟩ skb t node := ⟨hu, hd, behind, rfl, hs⟩
  obtain ⟨hv, -⟩ := h _ _ _ (hookOutPackets_of_matches hm) hq
  cases hv

/-- **When only A questions are answered.**  The packet is one, or it matches nothing cached. -/
theorem onlyAQueries_iff (t : DnsTree) (skb : SkBuff) :
    OnlyAQueries t skb ↔ skb.AQuery ∨ ¬ Answerable t skb := by
  constructor
  · intro h
    by_cases ha : Answerable t skb
    · exact Or.inl (aQuery_of_onlyAQueries h ha)
    · exact Or.inr ha
  · intro h env v injected he hq
    rcases hookOutPackets_cases he with ⟨hv, hi, -⟩ | ⟨node, hm, -, -⟩
    · exact ⟨hv, hi⟩
    · rcases h with h | h
      · exact absurd h hq
      · exact absurd (answerable_iff.2 ⟨env, node, hm⟩) h

/-- A tree with one name in it. -/
def oneName : DnsTree := .node .nil (newNode [1, 97] ⟨0, 0, 0, 60, 0, 3232235777⟩ []) .nil

theorem search_oneName : ∃ node, search oneName [1, 97] = some node := by
  refine ⟨newNode [1, 97] ⟨0, 0, 0, 60, 0, 3232235777⟩ [], ?_⟩
  rw [oneName, search_leaf, cstr_hostMem_newNode _ _ (by decide)]
  rfl

theorem answerable_query (source : Nat) (qtype : UInt8) :
    Answerable oneName (udpPacket source 53 (queryPayload [1, 97] qtype)) := by
  obtain ⟨node, hs⟩ := search_oneName
  exact answerable_of_named (udpPacket_protocol _ _ _) (udpPacket_dest _ _ _)
    (udpPacket_query_named source 53 qtype (by decide) (by decide)) hs

/-- An AAAA question for a cached name. -/
theorem not_onlyAQueries_aaaa :
    ¬ OnlyAQueries oneName (udpPacket 40000 53 (queryPayload [1, 97] 28)) := by
  intro h
  obtain ⟨-, -, n, hn, -, htype, -⟩ := aQuery_of_onlyAQueries h (answerable_query 40000 28)
  have hname := udpPacket_carries 40000 53 [0x12, 0x34, 0x01, 0, 0, 1, 0, 0, 0, 0, 0, 0] rfl
    ⟨[[97]], by decide, by decide⟩ [0, 28, 0, 1]
  rw [carries_unique hn hname] at htype
  exact absurd htype (by decide)

/-! ## Replies that come back -/

/-- The node for which `create_packet` is called. -/
def matched (env : OutEnv) (skb : SkBuff) (t : DnsTree) : Option DnsNode :=
  if skb.protocol = ipprotoUdp ∧ skb.dest = dnsPort then
    env.hname.bind fun behind => search t (skb.hname ++ behind)
  else none

theorem matched_eq_some_iff {env : OutEnv} {skb : SkBuff} {t : DnsTree} {node : DnsNode} :
    matched env skb t = some node ↔ Matches env skb t node := by
  unfold matched
  split
  · next h =>
    rw [Option.bind_eq_some_iff]
    exact ⟨fun ⟨behind, hb, hs⟩ => ⟨h.1, h.2, behind, hb, hs⟩, fun ⟨_, _, behind, hb, hs⟩ => ⟨behind, hb, hs⟩⟩
  · next h =>
    constructor
    · intro hn
      cases hn
    · intro hm
      exact absurd ⟨hm.udp, hm.dest⟩ h

/-- The calls of `create_packet` one packet sets off when `ip_local_out` hands each
reply to the hook again; one environment for each call of the hook. -/
def createCalls (t : DnsTree) : List OutEnv → SkBuff → Nat
  | [], _ => 0
  | env :: envs, skb =>
    match matched env skb t with
    | none => 0
    | some node =>
      match (createPacket env skb node).2 with
      | none => 1
      | some r => createCalls t envs r + 1

/-- No reply to the packet is answered, so `create_packet` is called once at most. -/
structure AnsweredOnce (t : DnsTree) (skb : SkBuff) : Prop where
  reply_unanswered : ∀ env v r, hookOutPackets env skb t = some (v, some r) → ¬ Answerable t r
  calls_le : ∀ envs, createCalls t envs skb ≤ 1

theorem createCalls_of_not_answerable {t : DnsTree} {skb : SkBuff} (h : ¬ Answerable t skb)
    (envs : List OutEnv) : createCalls t envs skb = 0 := by
  cases envs with
  | nil => rfl
  | cons env envs =>
    unfold createCalls
    split
    · rfl
    · next node hm => exact absurd (answerable_iff.2 ⟨env, node, matched_eq_some_iff.1 hm⟩) h

theorem createCalls_of_matches {t : DnsTree} {skb : SkBuff} {env : OutEnv} {node : DnsNode} {copy : Mem}
    (hm : Matches env skb t node) (hc : env.copy = some copy) (envs : List OutEnv) :
    createCalls t (env :: envs) skb = createCalls t envs (reply skb copy node) + 1 := by
  have hr : (createPacket env skb node).2 = some (reply skb copy node) := by rw [createPacket, hc]
  simp only [createCalls, matched_eq_some_iff.2 hm, hr]

/-- The copy of a packet into a buffer that held the same bytes has the same name. -/
theorem reply_hname {env : OutEnv} {skb : SkBuff} {t : DnsTree} {node : DnsNode}
    (hm : Matches env skb t node) : (reply skb skb.mem node).hname = skb.hname := by
  obtain ⟨-, -, behind, -, hs⟩ := hm
  have hlen : (cstr (skb.hname ++ behind)).length = strlen node.hostMem := by
    rw [strlen_eq, (mem_of_search hs).2]
  have hd := skb.dnsh_eq
  have hmem : ∀ i, i < strlen node.hostMem + 5 →
      (reply skb skb.mem node).mem (skb.dnsh + 12 + i) = skb.mem (skb.dnsh + 12 + i) := by
    intro i hi
    rw [reply_question _ _ _ (by omega) (by unfold reqOffset udphdrSize dnshdrSize; omega)]
    exact ite_self _
  by_cases h0 : 0 ∈ skb.hname
  · obtain ⟨name, hn⟩ := SkBuff.zero_mem_hname_iff.1 h0
    rw [SkBuff.cstr_hname_of_named hn] at hlen
    have hrn : (reply skb skb.mem node).Named name := by
      refine ⟨?_, hn.no_nul, ?_, hn.fits⟩
      · rw [← hn.bytes]
        simp only [length_load]
        exact load_congr fun i hi => hmem i (by omega)
      · rw [← hn.nul]
        exact hmem name.length (by omega)
    rw [SkBuff.hname, SkBuff.hname, strncpy_eq, strncpy_eq, SkBuff.cstr_load_of_named hrn,
      SkBuff.cstr_load_of_named hn]
  · -- the key fills the buffer, and the record lies behind it
    have h255 : hostnameLen ≤ (cstr (skb.hname ++ behind)).length := by
      rw [cstr, List.takeWhile_append_of_pos, List.length_append, SkBuff.hname_length]
      · omega
      · intro b hb
        rw [bne_iff_ne]
        rintro rfl
        exact h0 hb
    rw [SkBuff.hname, SkBuff.hname]
    congr 1
    exact load_congr fun i hi => hmem i (by omega)

/-- A query from the DNS port: its reply can be the same query once more. -/
theorem exists_reply_answerable {t : DnsTree} {skb : SkBuff} (ha : Answerable t skb)
    (hs : skb.source = dnsPort) (hudp : skb.udph + 8 ≤ skb.len) :
    ∃ env node copy, Matches env skb t node ∧ env.copy = some copy ∧
      Answerable t (reply skb copy node) ∧ (reply skb copy node).source = dnsPort := by
  obtain ⟨hu, hd, behind, node, hf⟩ := ha
  have hm : Matches ⟨some behind, some skb.mem, 0⟩ skb t node := ⟨hu, hd, behind, rfl, hf⟩
  refine ⟨_, node, skb.mem, hm, rfl, ⟨?_, ?_, behind, node, ?_⟩, ?_⟩
  · rw [reply_protocol, hu]
  · rw [reply_dest _ _ _ hudp, hs]
  · rw [reply_hname hm, hf]
  · rw [reply_source _ _ _ hudp, hd]

/-- **A query from the DNS port goes round** as often as there are environments for it. -/
theorem createCalls_of_source {t : DnsTree} {skb : SkBuff} (ha : Answerable t skb)
    (hs : skb.source = dnsPort) (hudp : skb.udph + 8 ≤ skb.len) (n : Nat) :
    ∃ envs : List OutEnv, envs.length = n ∧ createCalls t envs skb = n := by
  induction n generalizing skb with
  | zero => exact ⟨[], rfl, rfl⟩
  | succ n ih =>
    obtain ⟨env, node, copy, hm, hc, ha', hs'⟩ := exists_reply_answerable ha hs hudp
    obtain ⟨envs, hl, hn⟩ := ih ha' hs' (by rw [reply_udph, reply_len]; omega)
    refine ⟨env :: envs, by rw [List.length_cons, hl], ?_⟩
    rw [createCalls_of_matches hm hc, hn]

theorem reply_not_answerable {env : OutEnv} {t : DnsTree} {skb r : SkBuff} {v : Verdict}
    (hudp : skb.udph + 8 ≤ skb.len) (h : ¬ (Answerable t skb ∧ skb.source = dnsPort))
    (hr : hookOutPackets env skb t = some (v, some r)) : ¬ Answerable t r := by
  intro ha
  obtain ⟨node, copy, hm, -, rfl⟩ := hookOutPackets_injects_iff.1 ⟨v, hr⟩
  refine h ⟨answerable_iff.2 ⟨env, node, hm⟩, ?_⟩
  rw [← reply_dest skb copy node hudp]
  exact ha.dest

/-- **When a packet is answered once.**  Exactly when it is no query for a cached name sent
from the DNS port itself. -/
theorem answeredOnce_iff (t : DnsTree) (skb : SkBuff) (hudp : skb.udph + 8 ≤ skb.len) :
    AnsweredOnce t skb ↔ ¬ (Answerable t skb ∧ skb.source = dnsPort) := by
  constructor
  · rintro ⟨-, hle⟩ ⟨ha, hs⟩
    obtain ⟨envs, -, hn⟩ := createCalls_of_source ha hs hudp 2
    have := hle envs
    omega
  · intro h
    refine ⟨fun env v r hr => reply_not_answerable hudp h hr, fun envs => ?_⟩
    cases envs with
    | nil => exact Nat.zero_le 1
    | cons env envs =>
      unfold createCalls
      split
      · exact Nat.zero_le 1
      · next node hm =>
        split
        · exact Nat.le_refl 1
        · next r hr =>
          have hout := hookOutPackets_of_matches (matched_eq_some_iff.1 hm)
          rw [hr] at hout
          rw [createCalls_of_not_answerable (reply_not_answerable hudp h hout)]

theorem answeredOnce_iff_query :
    AnsweredOnce oneName (udpPacket 40000 53 (queryPayload [1, 97] 1)) := by
  rw [answeredOnce_iff _ _ (by rw [udpPacket_len]; show 20 + 8 ≤ _; omega)]
  rintro ⟨-, hs⟩
  rw [udpPacket_source] at hs
  exact absurd hs (by decide)

/-- The same query sent from port 53. -/
theorem not_answeredOnce_port :
    ¬ AnsweredOnce oneName (udpPacket 53 53 (queryPayload [1, 97] 1)) := by
  rintro ⟨-, hle⟩
  obtain ⟨envs, -, hn⟩ := createCalls_of_source (answerable_query 53 1) (udpPacket_source _ _ _)
    (by rw [udpPacket_len]; show 20 + 8 ≤ _; omega) 2
  have := hle envs
  omega

end Eltex.ProxyServer
