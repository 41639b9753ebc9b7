import Eltex.Lib.FirstWins
import Eltex.Lib.Run
import Eltex.ProxyServer.Names

/-!
# The cache over whole runs

Packets reach the two hooks in any order; the state is `dns_tree`.

* The purpose of the cache is a map from names to `(addr, ttl)` in which the
  first answer accepted for a name stays.  `step` refines that map
  (`cacheOf_step`), so a reply carries the earliest accepted answer
  (`hookOutPackets_answers_earliest`).
* What may enter the map is another matter: the filter lets a record through
  that is of type A *or* four bytes long, looks at no header field, and seeks the
  record behind the name's string.  The entries are answers exactly in the runs
  that bring none but answers it finds in their place (`cacheSound_iff`).
-/

namespace Eltex.ProxyServer

open ByteMem CString SearchTree Runs

inductive Event where
  | inbound (env : InEnv) (skb : SkBuff)
  | outbound (env : OutEnv) (skb : SkBuff)

def step (t : DnsTree) : Event → Option DnsTree
  | .inbound env skb => (hookInPackets env skb t).map Prod.snd
  | .outbound env skb => (hookOutPackets env skb t).map fun _ => t

/-- One step inserts a node or leaves the tree alone. -/
theorem step_cases {t t' : DnsTree} {ev : Event} (h : step t ev = some t') :
    (t' = t ∧ ∀ env skb node, ev = .inbound env skb → ¬ Inserts env skb t node) ∨
      ∃ env skb node, ev = .inbound env skb ∧ Inserts env skb t node ∧
        t' = (insert env.rbInsertColor t node).2 := by
  cases ev with
  | inbound env skb =>
    obtain ⟨⟨v, u⟩, hu, rfl⟩ := Option.map_eq_some_iff.1 h
    obtain ⟨-, ⟨rfl, hn⟩ | ⟨node, hi, rfl⟩⟩ := hookInPackets_cases hu
    · left
      refine ⟨rfl, ?_⟩
      rintro _ _ node ⟨⟩
      exact hn node
    · exact Or.inr ⟨env, skb, node, rfl, hi, rfl⟩
  | outbound env skb =>
    obtain ⟨_, -, rfl⟩ := Option.map_eq_some_iff.1 h
    left
    refine ⟨rfl, ?_⟩
    rintro _ _ _ ⟨⟩

theorem step_orderedTree {t t' : DnsTree} {ev : Event} (ht : OrderedTree t) (h : step t ev = some t') :
    OrderedTree t' := by
  rcases step_cases h with ⟨rfl, -⟩ | ⟨env, skb, node, -, -, rfl⟩
  · exact ht
  · exact orderedTree_insert _ _ ht

theorem run_orderedTree {evs : List Event} {t : DnsTree} (h : run step .nil evs = some t) :
    OrderedTree t :=
  run_inv (fun _ t => OrderedTree t) orderedTree_nil (fun _ _ _ _ => step_orderedTree) h

/-- What a string finds it goes on finding. -/
theorem search_step {t t' : DnsTree} {ev : Event} (ht : OrderedTree t) (h : step t ev = some t')
    {s : List UInt8} {node : DnsNode} (hs : search t s = some node) : search t' s = some node := by
  rcases step_cases h with ⟨rfl, -⟩ | ⟨env, skb, d, -, -, rfl⟩
  · exact hs
  · rw [search_insert _ _ ht, hs, Option.some_or]

theorem search_run {t t' : DnsTree} {evs : List Event} (ht : OrderedTree t)
    (h : run step t evs = some t') {s : List UInt8} {node : DnsNode} (hs : search t s = some node) :
    search t' s = some node :=
  (run_inv (fun _ t => OrderedTree t ∧ search t s = some node) ⟨ht, hs⟩
    (fun _ _ _ _ hi he => ⟨step_orderedTree hi.1 he, search_step hi.1 he hi.2⟩) h).2

/-! ## The abstract cache -/

/-- Names to address and ttl. -/
abbrev Cache := List UInt8 → Option (UInt32 × UInt32)

def cacheOf (t : DnsTree) : Cache := fun name => (search t name).map fun d => (d.addr, d.ttl)

/-- What an inbound packet that passes the filter teaches. -/
def SkBuff.lesson (skb : SkBuff) : Option (List UInt8 × (UInt32 × UInt32)) :=
  if skb.protocol = ipprotoUdp ∧ skb.source = dnsPort then
    let name := cstr skb.hname
    let r := skb.rData name.length
    if r.Refused then none else some (name, (UInt32.ofNat r.addr, UInt32.ofNat r.ttl))
  else none

def Event.lesson : Event → Option (List UInt8 × (UInt32 × UInt32))
  | .inbound _ skb => skb.lesson
  | .outbound _ _ => none

/-- Allocations succeed, and the question name of a DNS packet ends within the buffer. -/
def Event.Ok : Event → Prop
  | .inbound env skb => env.hname ≠ none ∧ env.node ≠ none ∧
      (skb.protocol = ipprotoUdp → skb.source = dnsPort → ∃ name, skb.Named name)
  | .outbound env skb => env.hname ≠ none ∧
      (skb.protocol = ipprotoUdp → skb.dest = dnsPort → ∃ name, skb.Named name)

/-- The node that reaches `insert` holds the packet's lesson, and its name is new. -/
theorem lesson_of_inserts {env : InEnv} {skb : SkBuff} {t : DnsTree} {node : DnsNode}
    (h : Inserts env skb t node) {name : List UInt8} (hn : skb.Named name) :
    skb.lesson = some (cstr node.hostMem, (node.addr, node.ttl)) ∧ cstr node.hostMem = name ∧
      search t node.hostMem = none := by
  obtain ⟨hu, hs, behind, nodeBehind, -, -, hsr, hr, rfl⟩ := h
  have hc := SkBuff.cstr_hname_of_named hn behind
  have hnode : cstr (newNode (skb.hname ++ behind) (skb.rData (strlen (skb.hname ++ behind)))
      nodeBehind).hostMem = name := by
    rw [cstr_hostMem_newNode _ _ (by rw [hc]; exact hn.fits), hc]
  refine ⟨?_, hnode, ?_⟩
  · rw [hnode]
    rw [SkBuff.strlen_hname_append hn] at hr ⊢
    unfold SkBuff.lesson
    rw [if_pos ⟨hu, hs⟩, SkBuff.cstr_hname hn]
    simp only
    rw [if_neg hr]
    rfl
  · rw [search_congr t (hnode.trans hc.symm)]
    exact hsr

/-- A packet that passes the filter with a new name is inserted. -/
theorem inserts_of_lesson {env : InEnv} {skb : SkBuff} {t : DnsTree} {name : List UInt8}
    {e : UInt32 × UInt32} (hok : (Event.inbound env skb).Ok) (hl : skb.lesson = some (name, e))
    (hs : search t name = none) : ∃ node, Inserts env skb t node := by
  obtain ⟨hb, hnb, hnamed⟩ := hok
  obtain ⟨behind, hb⟩ := Option.ne_none_iff_exists'.1 hb
  obtain ⟨nodeBehind, hnb⟩ := Option.ne_none_iff_exists'.1 hnb
  unfold SkBuff.lesson at hl
  split at hl
  · next hp =>
    obtain ⟨n, hn⟩ := hnamed hp.1 hp.2
    rw [SkBuff.cstr_hname hn] at hl
    simp only at hl
    split at hl
    · cases hl
    · next hr =>
      obtain ⟨rfl, -⟩ := Prod.mk.inj (Option.some.inj hl)
      refine ⟨_, hp.1, hp.2, behind, nodeBehind, hb, hnb, ?_, ?_, rfl⟩
      · rw [search_hname hn, hs]
      · rw [SkBuff.strlen_hname_append hn]
        exact hr
  · cases hl

/-- **Refinement.**  A step of the hooks is a step of the map. -/
theorem cacheOf_step {t t' : DnsTree} {ev : Event} (ht : OrderedTree t) (hok : ev.Ok)
    (h : step t ev = some t') {name : List UInt8} (h0 : 0 ∉ name) :
    cacheOf t' name = FirstWins.learn (cacheOf t) ev.lesson name := by
  rcases step_cases h with ⟨rfl, hno⟩ | ⟨env, skb, node, rfl, hi, rfl⟩
  · cases hl : FirstWins.valueAt name ev.lesson with
    | none => rw [FirstWins.learn, hl, Option.or_none]
    | some e =>
      rw [FirstWins.valueAt_eq_some_iff] at hl
      cases ev with
      | outbound env skb => cases hl
      | inbound env skb =>
        cases hs : search t' name with
        | none =>
          obtain ⟨node, hi⟩ := inserts_of_lesson hok hl hs
          exact absurd hi (hno env skb node rfl)
        | some d => simp [FirstWins.learn, cacheOf, hs]
  · obtain ⟨n, hn⟩ := hok.2.2 hi.udp hi.source
    obtain ⟨hl, hname, -⟩ := lesson_of_inserts hi hn
    have hlesson : (Event.inbound env skb).lesson = some (cstr node.hostMem, (node.addr, node.ttl)) := hl
    show (search (insert env.rbInsertColor t node).2 name).map _ =
      ((search t name).map _).or (FirstWins.valueAt name (Event.inbound env skb).lesson)
    rw [search_insert _ _ ht, hlesson, cstr_eq_self h0]
    cases search t name with
    | some d => rfl
    | none =>
      show Option.map _ (if _ then _ else _) = if _ then _ else _
      split <;> rfl

theorem step_of_ok {ev : Event} (hok : ev.Ok) (t : DnsTree) : ∃ t', step t ev = some t' := by
  cases ev with
  | inbound env skb =>
    obtain ⟨t', ht'⟩ := hookInPackets_of_alloc hok.1 hok.2.1 skb t
    exact ⟨t', by rw [step, ht']; rfl⟩
  | outbound env skb =>
    by_cases hm : ∃ node, Matches env skb t node
    · obtain ⟨node, hm⟩ := hm
      exact ⟨t, by rw [step, hookOutPackets_of_matches hm]; rfl⟩
    · have hno : ∀ node, ¬ Matches env skb t node := fun node hn => hm ⟨node, hn⟩
      exact ⟨t, by rw [step, hookOutPackets_of_not_matches hok.1 hno]; rfl⟩

theorem run_of_ok {evs : List Event} (hok : ∀ ev ∈ evs, ev.Ok) (t : DnsTree) :
    ∃ t', run step t evs = some t' := by
  induction evs generalizing t with
  | nil => exact ⟨t, rfl⟩
  | cons ev evs ih =>
    obtain ⟨u, hu⟩ := step_of_ok (hok ev List.mem_cons_self) t
    obtain ⟨t', ht'⟩ := ih (fun e he => hok e (List.mem_cons_of_mem _ he)) u
    exact ⟨t', by rw [run_cons, hu]; exact ht'⟩

/-- After a run the cache is the map of the first lessons. -/
theorem cacheOf_run {evs : List Event} (hok : ∀ ev ∈ evs, ev.Ok) {t : DnsTree}
    (h : run step .nil evs = some t) {name : List UInt8} (h0 : 0 ∉ name) :
    cacheOf t name =
      evs.foldl (fun c ev => FirstWins.learn c ev.lesson) (fun _ => none) name := by
  have hinv := run_inv (fun es t => (∀ ev ∈ es, ev.Ok) → OrderedTree t ∧ cacheOf t name =
      es.foldl (fun c ev => FirstWins.learn c ev.lesson) (fun _ => none) name)
    (fun _ => ⟨orderedTree_nil, rfl⟩) (fun es u ev u' hi hu hes => ?_) h
  · exact (hinv hok).2
  · obtain ⟨ho, hc⟩ := hi fun e he => hes e (List.mem_append_left _ he)
    refine ⟨step_orderedTree ho hu, ?_⟩
    rw [cacheOf_step ho (hes ev (by simp)) hu h0, List.foldl_append, List.foldl_cons,
      List.foldl_nil, FirstWins.learn, FirstWins.learn, hc]

/-- **Whole-run law.**  A reply carries the address and the ttl of the earliest
inbound packet with its name that passed the filter; without such a packet there
is no reply; and what the cache holds later packets do not change. -/
theorem hookOutPackets_answers_earliest {evs : List Event} (hok : ∀ ev ∈ evs, ev.Ok) :
    ∃ t, run step .nil evs = some t ∧
      (∀ env skb v r name, skb.Named name → hookOutPackets env skb t = some (v, some r) →
        ∃ pre inEnv p post e, evs = pre ++ .inbound inEnv p :: post ∧ p.lesson = some (name, e) ∧
          (∀ inEnv' p' e', .inbound inEnv' p' ∈ pre → p'.lesson ≠ some (name, e')) ∧
          (r.rData name.length).addr = e.1.toNat ∧ (r.rData name.length).ttl = e.2.toNat) ∧
      (∀ env skb name, skb.Named name → env.hname ≠ none →
        (∀ inEnv p e, .inbound inEnv p ∈ evs → p.lesson ≠ some (name, e)) →
        hookOutPackets env skb t = some (.accept, none)) ∧
      ∀ more, (∀ ev ∈ more, ev.Ok) → ∃ t', run step t more = some t' ∧
        ∀ s node, search t s = some node → search t' s = some node := by
  obtain ⟨t, ht⟩ := run_of_ok hok .nil
  have ho := run_orderedTree ht
  refine ⟨t, ht, ?_, ?_, ?_⟩
  · intro env skb v r name hn hr
    obtain ⟨node, copy, hm, -, rfl⟩ := hookOutPackets_injects_iff.1 ⟨v, hr⟩
    have hname := cstr_hostMem_of_matches hm hn
    have hfound : cacheOf t name = some (node.addr, node.ttl) := by
      obtain ⟨-, -, behind, -, hs⟩ := hm
      rw [search_hname hn] at hs
      rw [cacheOf, hs]
      rfl
    rw [cacheOf_run hok ht hn.no_nul, FirstWins.foldl_learn_eq_some_iff] at hfound
    obtain ⟨pre, ev, post, rfl, hev, hpre⟩ := hfound
    cases ev with
    | outbound env' skb' => cases hev
    | inbound inEnv p =>
      refine ⟨pre, inEnv, p, post, _, rfl, hev, fun inEnv' p' e' hp' => hpre _ hp' e', ?_⟩
      rw [reply_rData_of_named copy hname]
      exact ⟨rfl, rfl⟩
  · intro env skb name hn hb hno
    refine hookOutPackets_of_not_matches hb fun node hm => ?_
    have hnone : cacheOf t name = none := by
      rw [cacheOf_run hok ht hn.no_nul, FirstWins.foldl_learn_eq_none_iff]
      intro ev hev e hl
      cases ev with
      | outbound env' skb' => cases hl
      | inbound inEnv p => exact hno inEnv p e hev hl
    obtain ⟨-, -, behind, -, hs⟩ := hm
    rw [search_hname hn] at hs
    rw [cacheOf, hs] at hnone
    cases hnone
  · intro more hmore
    obtain ⟨t', ht'⟩ := run_of_ok hmore t
    exact ⟨t', ht', fun s node hs => search_run ho ht' hs⟩

/-- Of two answers for one name the reply carries the first. -/
theorem hookOutPackets_answers_earliest_two :
    let first := udpPacket 53 40000 (answerPayload [1, 97] 1 4 [192, 0, 2, 1])
    let second := udpPacket 53 40000 (answerPayload [1, 97] 1 4 [192, 0, 2, 2])
    ∃ t r, run step .nil [.inbound ⟨some [], some [], .refl _⟩ first, .inbound ⟨some [], some [], .refl _⟩ second] =
        some t ∧
      hookOutPackets ⟨some [], some fun _ => 0, 0⟩ (udpPacket 40000 53 (queryPayload [1, 97] 1)) t =
        some (.drop, some r) ∧ (r.rData 2).addr = 16908480 := by
  intro first second
  have hfirst : first.Named [1, 97] := udpPacket_answer_named 53 40000 1 4 _ (by decide) (by decide)
  have hsecond : second.Named [1, 97] := udpPacket_answer_named 53 40000 1 4 _ (by decide) (by decide)
  have hlesson : first.lesson = some ([1, 97], (16908480, 1006632960)) := by decide +kernel
  have hquery : (udpPacket 40000 53 (queryPayload [1, 97] 1)).Named [1, 97] :=
    udpPacket_query_named 40000 53 1 (by decide) (by decide)
  have hask : (udpPacket 40000 53 (queryPayload [1, 97] 1)).protocol = ipprotoUdp ∧
      (udpPacket 40000 53 (queryPayload [1, 97] 1)).dest = dnsPort := ⟨udpPacket_protocol _ _ _, udpPacket_dest _ _ _⟩
  clear_value first second
  generalize udpPacket 40000 53 (queryPayload [1, 97] 1) = query at hquery hask
  have hok : ∀ ev ∈ [Event.inbound ⟨some [], some [], .refl _⟩ first,
      .inbound ⟨some [], some [], .refl _⟩ second], ev.Ok := by
    intro ev hev
    rcases List.mem_cons.1 hev with rfl | hev
    · exact ⟨Option.some_ne_none _, Option.some_ne_none _, fun _ _ => ⟨_, hfirst⟩⟩
    · rw [List.mem_singleton.1 hev]
      exact ⟨Option.some_ne_none _, Option.some_ne_none _, fun _ _ => ⟨_, hsecond⟩⟩
  obtain ⟨t, ht, hans, -⟩ := hookOutPackets_answers_earliest hok
  -- the first lesson is in the tree
  have hcache : cacheOf t [1, 97] = some (16908480, 1006632960) := by
    rw [cacheOf_run hok ht (by decide), FirstWins.foldl_learn_eq_some_iff]
    exact ⟨[], _, _, rfl, hlesson, fun e he => absurd he List.not_mem_nil⟩
  obtain ⟨node, hnode, -⟩ := Option.map_eq_some_iff.1 hcache
  have hm : Matches ⟨some [], some fun _ => 0, 0⟩ query t node :=
    ⟨hask.1, hask.2, [], rfl, by rw [search_hname hquery, hnode]⟩
  have hout := hookOutPackets_of_matches hm
  obtain ⟨pre, inEnv, p, post, e, he, hl, hpre, ha, -⟩ := hans _ _ _ _ _ hquery hout
  refine ⟨t, _, ht, hout, ?_⟩
  have hearliest : p.lesson = some ([1, 97], (16908480, 1006632960)) := by
    cases pre with
    | nil =>
      injection (List.cons.inj he).1 with _ hp
      rw [← hp, hlesson]
    | cons ev pre =>
      obtain rfl := (List.cons.inj he).1
      exact absurd hlesson (hpre _ _ _ List.mem_cons_self)
  obtain rfl := (Prod.mk.inj (Option.some.inj (hl.symm.trans hearliest))).2
  exact ha

/-! ## What is learned -/

/-- Where the records begin behind one question: its name, its type and its class. -/
def SkBuff.firstRecord (skb : SkBuff) (n : WireName) : Nat := skb.dnsh + 12 + n.octets.length + 4

/-- The packet has one question, for `n`, and answers, the first an address: header, name and record each read
at its own place. -/
structure SkBuff.AnswerFor (skb : SkBuff) (n : WireName) : Prop where
  qr : (skb.mem (skb.dnsh + 2)).toNat / 128 = 1
  qCount : be16 skb.mem (skb.dnsh + 4) = 1
  ansCount : 1 ≤ be16 skb.mem (skb.dnsh + 6)
  carries : skb.Carries n
  inside : skb.firstRecord n + 16 ≤ skb.len
  type : be16 skb.mem (skb.firstRecord n + 2) = 1
  dataLen : be16 skb.mem (skb.firstRecord n + 10) = 4

/-- Such an answer from port 53, with these values in its record. -/
structure SkBuff.Answers (skb : SkBuff) (n : WireName) (addr ttl : UInt32) : Prop extends AnswerFor skb n where
  udp : skb.protocol = ipprotoUdp
  source : be16 skb.mem skb.udph = 53
  ttl : loadLe skb.mem (skb.firstRecord n + 6) 4 = ttl.toNat
  addr : loadLe skb.mem (skb.firstRecord n + 12) 4 = addr.toNat

/-- What the hook does not ask of a packet before it stores the record it finds: that it is an answer, and that
ttl and address stand where the hook looks, behind the name's string. -/
def SkBuff.Genuine (skb : SkBuff) : Prop :=
  ∃ n, skb.AnswerFor n ∧
    (skb.rData (cstr n.octets).length).ttl = (readRData skb.mem (skb.firstRecord n)).ttl ∧
    (skb.rData (cstr n.octets).length).addr = (readRData skb.mem (skb.firstRecord n)).addr

/-- For a name without zero octets the hook looks at the record itself. -/
theorem rData_of_zero_not_mem (skb : SkBuff) {n : WireName} (h : ∀ l ∈ n.labels, 0 ∉ l) :
    skb.rData (cstr n.octets).length = readRData skb.mem (skb.firstRecord n) := by
  have hc : cstr n.octets = wireLabels n.labels :=
    cstr_append_zero ((WireName.zero_not_mem_wireLabels n.label_length).2 h) []
  rw [SkBuff.rData, SkBuff.firstRecord, hc, n.length_octets]
  congr 1
  unfold dnshdrSize
  omega

/-- So an answer for such a name is all it takes. -/
theorem genuine_of_answerFor {skb : SkBuff} {n : WireName} (ha : skb.AnswerFor n) (h : ∀ l ∈ n.labels, 0 ∉ l) :
    skb.Genuine := by
  have hsame := rData_of_zero_not_mem skb h
  exact ⟨n, ha, by rw [hsame], by rw [hsame]⟩

/-- The packet puts a new node into the tree. -/
def Learns (env : InEnv) (skb : SkBuff) (t : DnsTree) (node : DnsNode) : Prop :=
  Inserts env skb t node ∧ search t node.hostMem = none

/-- The node made from a packet for `n`. -/
theorem node_of_inserts {env : InEnv} {skb : SkBuff} {t : DnsTree} {node : DnsNode} {n : WireName}
    (h : Inserts env skb t node) (hn : skb.Carries n) :
    be16 skb.mem skb.udph = 53 ∧ cstr node.hostMem = cstr n.octets ∧
      (skb.rData (cstr n.octets).length).ttl = node.ttl.toNat ∧
      (skb.rData (cstr n.octets).length).addr = node.addr.toNat := by
  have hnamed := named_of_carries hn
  obtain ⟨-, hname, -⟩ := lesson_of_inserts h hnamed
  obtain ⟨-, hs, behind, nodeBehind, -, -, -, -, rfl⟩ := h
  refine ⟨(loadLe_eq_htons_iff _ _ (by decide)).1 hs, hname, ?_, ?_⟩
  · show _ = (UInt32.ofNat (skb.rData (strlen (skb.hname ++ behind))).ttl).toNat
    rw [SkBuff.strlen_hname_append hnamed]
    exact (toNat_ofNat_loadLe _ _).symm
  · show _ = (UInt32.ofNat (skb.rData (strlen (skb.hname ++ behind))).addr).toNat
    rw [SkBuff.strlen_hname_append hnamed]
    exact (toNat_ofNat_loadLe _ _).symm

theorem answers_of_genuine {env : InEnv} {skb : SkBuff} {t : DnsTree} {node : DnsNode}
    (h : Inserts env skb t node) (hg : skb.Genuine) :
    ∃ n, cstr node.hostMem = cstr n.octets ∧ skb.Answers n node.addr node.ttl := by
  obtain ⟨n, ha, httl, haddr⟩ := hg
  obtain ⟨hsource, hname, hnodeTtl, hnodeAddr⟩ := node_of_inserts h ha.carries
  exact ⟨n, hname, ha, h.udp, hsource, httl.symm.trans hnodeTtl, haddr.symm.trans hnodeAddr⟩

theorem genuine_of_answers {env : InEnv} {skb : SkBuff} {t : DnsTree} {node : DnsNode} {n : WireName}
    (h : Inserts env skb t node) (ha : skb.Answers n node.addr node.ttl) : skb.Genuine := by
  obtain ⟨-, -, hnodeTtl, hnodeAddr⟩ := node_of_inserts h ha.carries
  exact ⟨n, ha.toAnswerFor, hnodeTtl.trans ha.ttl.symm, hnodeAddr.trans ha.addr.symm⟩

/-- After every part of the run each entry was learned from an answer with its values, and a packet that
is no answer changes nothing. -/
def CacheSound (evs : List Event) : Prop :=
  ∀ pre post t, evs = pre ++ post → run step .nil pre = some t →
    (∀ d ∈ t.toList, ∃ before env skb after u n, pre = before ++ .inbound env skb :: after ∧
      run step .nil before = some u ∧ Learns env skb u d ∧ cstr d.hostMem = cstr n.octets ∧
      skb.Answers n d.addr d.ttl) ∧
    ∀ env skb rest t', post = .inbound env skb :: rest →
      (∀ n addr ttl, ¬ skb.Answers n addr ttl) → step t (.inbound env skb) = some t' → t' = t

theorem step_of_learns {env : InEnv} {skb : SkBuff} {t : DnsTree} {node : DnsNode} (h : Learns env skb t node) :
    step t (.inbound env skb) = some (insert env.rbInsertColor t node).2 := by
  rw [step, hookInPackets_of_inserts h.1]
  rfl

/-- A name is learned once. -/
theorem prefix_of_learns {before pre after : List Event} {env env' : InEnv} {skb skb' : SkBuff}
    {u t : DnsTree} {node : DnsNode} (hu : run step .nil before = some u) (ht : run step .nil pre = some t)
    (hold : Learns env' skb' u node) (hnew : Learns env skb t node)
    (he : pre ++ [.inbound env skb] = before ++ .inbound env' skb' :: after) : before = pre ∧ skb' = skb := by
  cases after using List.reverseRecOn with
  | nil =>
    obtain ⟨hpre, hev⟩ := List.append_inj' he rfl
    injection (List.cons.inj hev).1 with _ hskb
    exact ⟨hpre.symm, hskb.symm⟩
  | append_singleton after ev =>
    -- else it is in the tree when the second packet comes
    rw [← List.cons_append, ← List.append_assoc] at he
    have hpre := (List.append_inj' he rfl).1
    have hfound : search (insert env'.rbInsertColor u node).2 node.hostMem = some node := by
      rw [search_eq_some_iff (orderedTree_insert _ _ (run_orderedTree hu)), mem_insert]
      exact ⟨Or.inr ⟨rfl, hold.2⟩, rfl⟩
    rw [hpre, run_append, hu, Option.bind_some, run_cons, step_of_learns hold, Option.bind_some] at ht
    have hstill := search_run (orderedTree_insert _ _ (run_orderedTree hu)) ht hfound
    rw [hnew.2] at hstill
    cases hstill

/-- A packet learned in a sound run is genuine. -/
theorem genuine_of_cacheSound {evs : List Event} (h : CacheSound evs) {pre rest : List Event}
    {env : InEnv} {skb : SkBuff} {t : DnsTree} {node : DnsNode}
    (he : evs = pre ++ .inbound env skb :: rest) (hr : run step .nil pre = some t)
    (hl : Learns env skb t node) : skb.Genuine := by
  have hrun : run step .nil (pre ++ [.inbound env skb]) = some (insert env.rbInsertColor t node).2 :=
    run_concat_eq_some_iff.2 ⟨t, hr, step_of_learns hl⟩
  have hmem : node ∈ (insert env.rbInsertColor t node).2.toList := by
    rw [mem_insert]
    exact Or.inr ⟨rfl, hl.2⟩
  obtain ⟨before, env', skb', after, u, n, hbefore, hu, hlearned, -, ha⟩ :=
    (h _ rest _ (by rw [he, List.append_assoc]; rfl) hrun).1 node hmem
  obtain ⟨-, rfl⟩ := prefix_of_learns hu hr hlearned hl hbefore
  exact genuine_of_answers hl.1 ha

section
variable {evs : List Event} (h : ∀ pre env skb rest t node, evs = pre ++ .inbound env skb :: rest →
  run step .nil pre = some t → Learns env skb t node → skb.Genuine)
include h

/-- A step into the run leaves the tree alone or learns from a genuine packet. -/
theorem step_of_genuine {pre rest : List Event} {ev : Event} {t t' : DnsTree}
    (he : evs = pre ++ ev :: rest) (hr : run step .nil pre = some t) (hs : step t ev = some t') :
    t' = t ∨ ∃ env skb node n, ev = .inbound env skb ∧ t' = (insert env.rbInsertColor t node).2 ∧
      Learns env skb t node ∧ cstr node.hostMem = cstr n.octets ∧ skb.Answers n node.addr node.ttl := by
  rcases step_cases hs with ⟨rfl, -⟩ | ⟨env, skb, node, rfl, hi, rfl⟩
  · exact Or.inl rfl
  · cases hsr : search t node.hostMem with
    | none =>
      right
      have hg := h pre env skb rest t node he hr ⟨hi, hsr⟩
      obtain ⟨n, hname, ha⟩ := answers_of_genuine hi hg
      exact ⟨env, skb, node, n, rfl, rfl, ⟨hi, hsr⟩, hname, ha⟩
    | some d =>
      left
      rw [insert_of_search _ _ (by rw [hsr]; rfl)]

/-- So every entry was learned from an answer. -/
theorem entries_of_genuine {pre post : List Event} {t : DnsTree} (he : evs = pre ++ post)
    (hr : run step .nil pre = some t) : ∀ d ∈ t.toList, ∃ before env skb after u n,
      pre = before ++ .inbound env skb :: after ∧ run step .nil before = some u ∧ Learns env skb u d ∧
        cstr d.hostMem = cstr n.octets ∧ skb.Answers n d.addr d.ttl := by
  have hinv := run_inv (fun es t => es <+: pre → run step .nil es = some t ∧
      ∀ d ∈ t.toList, ∃ before env skb after u n, es = before ++ .inbound env skb :: after ∧
        run step .nil before = some u ∧ Learns env skb u d ∧ cstr d.hostMem = cstr n.octets ∧
        skb.Answers n d.addr d.ttl)
    (fun _ => ⟨rfl, by simp⟩) (fun es u ev u' hi hu hes => ?_) hr
  · exact (hinv (List.prefix_refl _)).2
  · obtain ⟨hru, hent⟩ := hi ((List.prefix_append es [ev]).trans hes)
    refine ⟨by rw [run_concat, hru]; exact hu, fun d hd => ?_⟩
    have hold : d ∈ u.toList → ∃ before env skb after u n,
        es ++ [ev] = before ++ .inbound env skb :: after ∧ run step .nil before = some u ∧
          Learns env skb u d ∧ cstr d.hostMem = cstr n.octets ∧ skb.Answers n d.addr d.ttl := by
      intro hd
      obtain ⟨before, env, skb, after, u, n, rfl, hlearned⟩ := hent d hd
      exact ⟨before, env, skb, after ++ [ev], u, n, by simp, hlearned⟩
    obtain ⟨tl, rfl⟩ := hes
    have hev : evs = es ++ ev :: (tl ++ post) := by simp [he]
    rcases step_of_genuine h hev hru hu with rfl | ⟨env, skb, node, n, rfl, rfl, hl, hname, ha⟩
    · exact hold hd
    · rcases (mem_insert _ _).1 hd with hd | ⟨rfl, -⟩
      · exact hold hd
      · exact ⟨es, env, skb, [], u, n, rfl, hru, hl, hname, ha⟩

end

/-- **When the cache holds answers only.**  Exactly in the runs in which every
packet that brings a new entry is genuine. -/
theorem cacheSound_iff (evs : List Event) :
    CacheSound evs ↔ ∀ pre env skb rest t node, evs = pre ++ .inbound env skb :: rest →
      run step .nil pre = some t → Learns env skb t node → skb.Genuine := by
  constructor
  · intro h pre env skb rest t node he hr hl
    exact genuine_of_cacheSound h he hr hl
  · intro h pre post t he hr
    refine ⟨entries_of_genuine h he hr, ?_⟩
    rintro env skb rest t' rfl hno hs
    rcases step_of_genuine h he hr hs with rfl | ⟨_, _, node, n, hev, -, -, -, ha⟩
    · rfl
    · cases hev
      exact absurd ha (hno _ _ _)

/-- A CNAME record whose data happens to be four bytes long is stored as an address. -/
theorem not_cacheSound_cname :
    ¬ CacheSound [.inbound ⟨some [], some [], .refl _⟩
      (udpPacket 53 40000 (answerPayload [1, 97] 5 4 [192, 0, 2, 1]))] := by
  intro h
  have hcarries : (udpPacket 53 40000 (answerPayload [1, 97] 5 4 [192, 0, 2, 1])).Carries
      ⟨[[97]], by decide, by decide⟩ :=
    udpPacket_answer_carries 53 40000 ⟨[[97]], by decide, by decide⟩ 5 4 _
  generalize hp : udpPacket 53 40000 (answerPayload [1, 97] 5 4 [192, 0, 2, 1]) = p at h hcarries
  have hn : p.Named [1, 97] := named_of_carries hcarries
  have hlen : strlen (p.hname ++ []) = 2 := SkBuff.strlen_hname_append hn []
  have hdata : ntohs (p.rData 2).dataLen = 4 := by rw [← hp]; decide
  have hi : Inserts ⟨some [], some [], .refl _⟩ p .nil
      (newNode (p.hname ++ []) (p.rData (strlen (p.hname ++ []))) []) := by
    refine ⟨by rw [← hp]; rfl, by rw [← hp, udpPacket_source]; rfl, [], [], rfl, rfl, rfl, ?_, rfl⟩
    rw [hlen]
    exact fun hr => hr.2 hdata
  obtain ⟨n, ha, -⟩ := genuine_of_cacheSound h rfl (run_nil _ _) ⟨hi, rfl⟩
  have htype := ha.type
  rw [SkBuff.firstRecord, carries_unique ha.carries hcarries, ← hp] at htype
  revert htype
  decide

end Eltex.ProxyServer
