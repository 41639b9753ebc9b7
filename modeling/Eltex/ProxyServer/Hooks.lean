import Eltex.ProxyServer.DnsTree

/-!
# The two hooks and the packet they build

`hook_in_packets` learns from answers, `hook_out_packets` answers queries through
`create_packet`.  What the kernel returns to one call (allocations, the expanded
copy, `ip_local_out`) is an argument of that call; a NULL pointer that is written
through ends the run (`none`).  Log lines are left out, and so is the route set
on the reply.

Each hook has one inversion lemma that says all it can do: `hookInPackets_cases`
and `hookOutPackets_cases`.
-/

namespace Eltex.ProxyServer

open ByteMem CString SearchTree

inductive Verdict where
  | accept
  | drop
deriving Repr, DecidableEq

/-- Looking up the copied name is looking up the name. -/
theorem search_hname {t : DnsTree} {skb : SkBuff} {name : List UInt8} (hn : skb.Named name)
    (behind : List UInt8) : search t (skb.hname ++ behind) = search t name := by
  apply search_congr
  rw [SkBuff.cstr_hname_of_named hn, cstr_eq_self hn.no_nul]

/-! ## `hook_in_packets` -/

/-- What one call of `hook_in_packets` gets from the kernel. -/
structure InEnv where
  /-- `kmalloc` for `hname`: NULL, or the memory behind the buffer -/
  hname : Option (List UInt8)
  /-- `kmalloc` for the node: NULL, or the memory behind `host_name` -/
  node : Option (List UInt8)
  rbInsertColor : Reshape DnsNode

/-- The record behind a question name of `nameLen` bytes. -/
def SkBuff.rData (skb : SkBuff) (nameLen : Nat) : RData :=
  let offset := dnshdrSize + nameLen + 5
  readRData skb.mem (skb.dnsh + offset)

/-- `ntohs(r_data->type) != 1 && ntohs(r_data->data_len) != 4` -/
def RData.Refused (r : RData) : Prop := ntohs r.type ≠ 1 ∧ ntohs r.dataLen ≠ 4

instance (r : RData) : Decidable r.Refused := inferInstanceAs (Decidable (_ ∧ _))

/-- The node filled from a record. -/
def newNode (hname : List UInt8) (r : RData) (behind : List UInt8) : DnsNode where
  hostName := strncpy hname hostnameLen
  hostName_length := strncpy_length _ _
  addr := UInt32.ofNat r.addr
  ttl := UInt32.ofNat r.ttl
  behind := behind

theorem cstr_hostMem_newNode {hname : List UInt8} (r : RData) (behind : List UInt8)
    (h : (cstr hname).length < hostnameLen) : cstr (newNode hname r behind).hostMem = cstr hname :=
  cstr_strncpy_append h behind

def hookInPackets (env : InEnv) (skb : SkBuff) (dnsTree : DnsTree) : Option (Verdict × DnsTree) :=
  if skb.protocol ≠ ipprotoUdp then some (.accept, dnsTree)
  else if skb.source ≠ dnsPort then some (.accept, dnsTree)
  else
    match env.hname with
    | none => none
    | some behind =>
      let hname := skb.hname ++ behind
      let nameLen := strlen hname
      match search dnsTree hname with
      | some _ => some (.accept, dnsTree)
      | none =>
        let r := skb.rData nameLen
        if r.Refused then some (.accept, dnsTree)
        else
          match env.node with
          | none => none
          | some nodeBehind =>
            some (.accept, (insert env.rbInsertColor dnsTree (newNode hname r nodeBehind)).2)

/-- The packet reaches `insert` with `node`. -/
structure Inserts (env : InEnv) (skb : SkBuff) (t : DnsTree) (node : DnsNode) : Prop where
  udp : skb.protocol = ipprotoUdp
  source : skb.source = dnsPort
  reached : ∃ behind nodeBehind, env.hname = some behind ∧ env.node = some nodeBehind ∧
    search t (skb.hname ++ behind) = none ∧
    ¬ (skb.rData (strlen (skb.hname ++ behind))).Refused ∧
    node = newNode (skb.hname ++ behind) (skb.rData (strlen (skb.hname ++ behind))) nodeBehind

theorem hookInPackets_of_inserts {env : InEnv} {skb : SkBuff} {t : DnsTree} {node : DnsNode}
    (h : Inserts env skb t node) :
    hookInPackets env skb t = some (.accept, (insert env.rbInsertColor t node).2) := by
  obtain ⟨hu, hs, behind, nodeBehind, hb, hn, hsr, hr, rfl⟩ := h
  unfold hookInPackets
  rw [if_neg (not_not.2 hu), if_neg (not_not.2 hs), hb]
  simp only [hsr]
  rw [if_neg hr, hn]

/-- Everything `hook_in_packets` can do: insert a node or leave the tree alone. -/
theorem hookInPackets_cases {env : InEnv} {skb : SkBuff} {t t' : DnsTree} {v : Verdict}
    (h : hookInPackets env skb t = some (v, t')) :
    v = .accept ∧ ((t' = t ∧ ∀ node, ¬ Inserts env skb t node) ∨
      ∃ node, Inserts env skb t node ∧ t' = (insert env.rbInsertColor t node).2) := by
  by_cases hi : ∃ node, Inserts env skb t node
  · obtain ⟨node, hi⟩ := hi
    rw [hookInPackets_of_inserts hi] at h
    simp only [Option.some.injEq, Prod.mk.injEq] at h
    obtain ⟨rfl, rfl⟩ := h
    exact ⟨rfl, Or.inr ⟨node, hi, rfl⟩⟩
  · refine (fun hv : v = .accept ∧ t' = t => ⟨hv.1, Or.inl ⟨hv.2, fun node hn => hi ⟨node, hn⟩⟩⟩) ?_
    unfold hookInPackets at h
    split at h
    · simp_all
    · next hu =>
      split at h
      · simp_all
      · next hs =>
        split at h
        · cases h
        · next behind hb =>
          simp only at h
          split at h
          · simp_all
          · next hsr =>
            split at h
            · simp_all
            · next hr =>
              split at h
              · cases h
              · next nodeBehind hn =>
                exact absurd ⟨_, not_not.1 hu, not_not.1 hs, behind, nodeBehind, hb, hn, hsr, hr, rfl⟩ hi

/-- With memory to be had the hook comes to its end. -/
theorem hookInPackets_of_alloc {env : InEnv} (hb : env.hname ≠ none) (hn : env.node ≠ none)
    (skb : SkBuff) (t : DnsTree) : ∃ t', hookInPackets env skb t = some (.accept, t') := by
  obtain ⟨behind, hb⟩ := Option.ne_none_iff_exists'.1 hb
  obtain ⟨nodeBehind, hn⟩ := Option.ne_none_iff_exists'.1 hn
  unfold hookInPackets
  rw [hb, hn]
  split
  · exact ⟨t, rfl⟩
  · split
    · exact ⟨t, rfl⟩
    · simp only
      split
      · exact ⟨t, rfl⟩
      · split
        · exact ⟨t, rfl⟩
        · exact ⟨_, rfl⟩

/-! ## `create_packet` -/

/-- What one call of `hook_out_packets` gets from the kernel. -/
structure OutEnv where
  /-- `kmalloc` for `hname` -/
  hname : Option (List UInt8)
  /-- `skb_copy_expand`: NULL, or what its buffer holds where nothing is copied -/
  copy : Option Mem
  /-- what `ip_local_out` returns -/
  ipLocalOut : Int

/-- `tot_len` is set and the addresses are swapped. -/
def writeIphdr (m : Mem) (len : Nat) : Mem :=
  let m := storeLe m 2 2 (htons len)
  let temp := loadLe m 12 4
  let m := storeLe m 12 4 (loadLe m 16 4)
  storeLe m 16 4 temp

/-- The ports are swapped and the record is added to `len`. -/
def writeUdphdr (m : Mem) (udph : Nat) : Mem :=
  let temp := loadLe m (udph + 2) 2
  let m := storeLe m (udph + 2) 2 (loadLe m udph 2)
  let m := storeLe m udph 2 temp
  storeLe m (udph + 4) 2 (htons (ntohs (loadLe m (udph + 4) 2) + rdataSize))

/-- Flags and counts; the bit fields of a byte are numbered from its low end. -/
def writeDnshdr (m : Mem) (dnsh : Nat) : Mem :=
  let m := store m (dnsh + 2) [m (dnsh + 2) ||| 0x80] -- qr = 1
  let m := store m (dnsh + 2) [m (dnsh + 2) ||| 0x01] -- rd = 1
  let m := store m (dnsh + 3) [m (dnsh + 3) ||| 0x80] -- ra = 1
  let m := store m (dnsh + 3) [m (dnsh + 3) &&& 0xdf] -- ad = 0
  let m := storeLe m (dnsh + 4) 2 (htons 1)
  let m := storeLe m (dnsh + 6) 2 (htons 1)
  let m := storeLe m (dnsh + 8) 2 (htons 0)
  storeLe m (dnsh + 10) 2 (htons 0)

def writeRData (m : Mem) (reqData : Nat) (node : DnsNode) : Mem :=
  let m := storeLe m reqData 2 (htons 0xc00c)
  let m := storeLe m (reqData + 2) 2 (htons 1)
  let m := storeLe m (reqData + 4) 2 (htons 1)
  let m := storeLe m (reqData + 6) 4 node.ttl.toNat
  let m := storeLe m (reqData + 10) 2 (htons 4)
  storeLe m (reqData + 12) 4 node.addr.toNat

/-- Offset of the record from the UDP header, taken from the cached name. -/
def reqOffset (node : DnsNode) : Nat := udphdrSize + dnshdrSize + strlen node.hostMem + 5

/-- The writes of `create_packet`, on the memory of the expanded copy. -/
def replyMem (m : Mem) (len udph : Nat) (node : DnsNode) : Mem :=
  let m := writeIphdr m len
  let m := writeUdphdr m udph
  let m := writeDnshdr m (udph + udphdrSize)
  writeRData m (udph + reqOffset node) node

theorem writeIphdr_of_disjoint (m : Mem) (len : Nat) {i : Nat}
    (h : i < 2 ∨ (4 ≤ i ∧ i < 12) ∨ 20 ≤ i) : writeIphdr m len i = m i := by
  unfold writeIphdr
  rw [storeLe_of_disjoint _ (by omega), storeLe_of_disjoint _ (by omega),
    storeLe_of_disjoint _ (by omega)]

theorem writeUdphdr_of_disjoint (m : Mem) (udph : Nat) {i : Nat} (h : i < udph ∨ udph + 6 ≤ i) :
    writeUdphdr m udph i = m i := by
  unfold writeUdphdr
  rw [storeLe_of_disjoint _ (by omega), storeLe_of_disjoint _ (by omega),
    storeLe_of_disjoint _ (by omega)]

theorem writeDnshdr_of_disjoint (m : Mem) (dnsh : Nat) {i : Nat}
    (h : i < dnsh + 2 ∨ dnsh + 12 ≤ i) : writeDnshdr m dnsh i = m i := by
  have hs : ∀ (m : Mem) p b, dnsh + 2 ≤ p → p < dnsh + 12 → store m p [b] i = m i :=
    fun m p b h1 h2 => store_of_disjoint m (by simp only [List.length_singleton]; omega)
  unfold writeDnshdr
  rw [storeLe_of_disjoint _ (by omega), storeLe_of_disjoint _ (by omega),
    storeLe_of_disjoint _ (by omega), storeLe_of_disjoint _ (by omega),
    hs _ _ _ (by omega) (by omega), hs _ _ _ (by omega) (by omega),
    hs _ _ _ (by omega) (by omega), hs _ _ _ (by omega) (by omega)]

theorem writeRData_of_disjoint (m : Mem) (p : Nat) (node : DnsNode) {i : Nat}
    (h : i < p ∨ p + 16 ≤ i) : writeRData m p node i = m i := by
  unfold writeRData
  rw [storeLe_of_disjoint _ (by omega), storeLe_of_disjoint _ (by omega),
    storeLe_of_disjoint _ (by omega), storeLe_of_disjoint _ (by omega),
    storeLe_of_disjoint _ (by omega), storeLe_of_disjoint _ (by omega)]

/-- **Frame of `create_packet`**: the headers' fields and the record, nothing else. -/
theorem replyMem_of_disjoint (m : Mem) (len udph : Nat) (node : DnsNode) {i : Nat}
    (h1 : i < 2 ∨ (4 ≤ i ∧ i < 12) ∨ 20 ≤ i) (h2 : i < udph ∨ udph + 6 ≤ i)
    (h3 : i < udph + 10 ∨ udph + 20 ≤ i)
    (h4 : i < udph + reqOffset node ∨ udph + reqOffset node + 16 ≤ i) :
    replyMem m len udph node i = m i := by
  unfold replyMem
  rw [writeRData_of_disjoint _ _ _ h4, writeDnshdr_of_disjoint _ _ (by unfold udphdrSize; omega),
    writeUdphdr_of_disjoint _ _ h2, writeIphdr_of_disjoint _ _ h1]

theorem twenty_lt_reqOffset (node : DnsNode) : 20 < reqOffset node := by
  unfold reqOffset udphdrSize dnshdrSize
  omega

/-- The bytes of `skb` as `skb_copy_expand` leaves them in a new buffer. -/
def SkBuff.expanded (skb : SkBuff) (copy : Mem) : Mem :=
  fun i => if i < skb.len then skb.mem i else copy i

theorem SkBuff.expanded_of_lt (skb : SkBuff) (copy : Mem) {i : Nat} (h : i < skb.len) :
    skb.expanded copy i = skb.mem i := if_pos h

/-- The packet handed to `ip_local_out`. -/
def reply (skb : SkBuff) (copy : Mem) (node : DnsNode) : SkBuff where
  mem := replyMem (skb.expanded copy) (skb.len + rdataSize) skb.udph node
  len := skb.len + rdataSize
  transportHeader := skb.transportHeader
  ihl := by
    have h20 := skb.iphdr_le
    have hin := skb.iphdr_in
    rw [replyMem_of_disjoint _ _ _ _ (by omega) (Or.inl (by unfold SkBuff.udph; omega))
      (Or.inl (by omega)) (Or.inl (by have := twenty_lt_reqOffset node; omega)),
      skb.expanded_of_lt copy (by omega)]
    exact skb.ihl
  iphdr_le := skb.iphdr_le
  iphdr_in := Nat.le_add_right_of_le skb.iphdr_in

/-- Return value, and the packet that reached `ip_local_out`. -/
def createPacket (env : OutEnv) (skbOld : SkBuff) (node : DnsNode) : Int × Option SkBuff :=
  match env.copy with
  | none => (-1, none)
  | some copy => (env.ipLocalOut, some (reply skbOld copy node))

theorem createPacket_snd_eq_some_iff {env : OutEnv} {skb r : SkBuff} {node : DnsNode} :
    (createPacket env skb node).2 = some r ↔ ∃ copy, env.copy = some copy ∧ r = reply skb copy node := by
  unfold createPacket
  cases hc : env.copy with
  | none => simp
  | some copy => simp [eq_comm]

/-! ## `hook_out_packets` -/

/-- Verdict on the packet, and the packet injected in its place. -/
def hookOutPackets (env : OutEnv) (skb : SkBuff) (dnsTree : DnsTree) :
    Option (Verdict × Option SkBuff) :=
  if skb.protocol ≠ ipprotoUdp then some (.accept, none)
  else if skb.dest ≠ dnsPort then some (.accept, none)
  else
    match env.hname with
    | none => none
    | some behind =>
      match search dnsTree (skb.hname ++ behind) with
      | none => some (.accept, none)
      | some node =>
        let (ret, injected) := createPacket env skb node
        some (if ret = 0 then .drop else .accept, injected)

/-- The packet reaches `create_packet` with `node`. -/
structure Matches (env : OutEnv) (skb : SkBuff) (t : DnsTree) (node : DnsNode) : Prop where
  udp : skb.protocol = ipprotoUdp
  dest : skb.dest = dnsPort
  reached : ∃ behind, env.hname = some behind ∧ search t (skb.hname ++ behind) = some node

theorem hookOutPackets_of_matches {env : OutEnv} {skb : SkBuff} {t : DnsTree} {node : DnsNode}
    (h : Matches env skb t node) :
    hookOutPackets env skb t =
      some (if (createPacket env skb node).1 = 0 then .drop else .accept,
        (createPacket env skb node).2) := by
  obtain ⟨hu, hd, behind, hb, hs⟩ := h
  unfold hookOutPackets
  rw [if_neg (not_not.2 hu), if_neg (not_not.2 hd), hb]
  simp only [hs]

/-- Everything `hook_out_packets` can do: pass the packet on, or call `create_packet`. -/
theorem hookOutPackets_cases {env : OutEnv} {skb : SkBuff} {t : DnsTree} {v : Verdict}
    {injected : Option SkBuff} (h : hookOutPackets env skb t = some (v, injected)) :
    (v = .accept ∧ injected = none ∧ ∀ node, ¬ Matches env skb t node) ∨
      ∃ node, Matches env skb t node ∧ injected = (createPacket env skb node).2 ∧
        v = if (createPacket env skb node).1 = 0 then .drop else .accept := by
  by_cases hm : ∃ node, Matches env skb t node
  · obtain ⟨node, hm⟩ := hm
    rw [hookOutPackets_of_matches hm] at h
    simp only [Option.some.injEq, Prod.mk.injEq] at h
    exact Or.inr ⟨node, hm, h.2.symm, h.1.symm⟩
  · left
    refine (fun hv : v = .accept ∧ injected = none => ⟨hv.1, hv.2, fun node hn => hm ⟨node, hn⟩⟩) ?_
    unfold hookOutPackets at h
    split at h
    · simp_all
    · next hu =>
      split at h
      · simp_all
      · next hd =>
        split at h
        · cases h
        · next behind hb =>
          split at h
          · simp_all
          · next node hs =>
            exact absurd ⟨node, not_not.1 hu, not_not.1 hd, behind, hb, hs⟩ hm

/-- A packet that matches no node is passed on. -/
theorem hookOutPackets_of_not_matches {env : OutEnv} {skb : SkBuff} {t : DnsTree}
    (hb : env.hname ≠ none) (h : ∀ node, ¬ Matches env skb t node) :
    hookOutPackets env skb t = some (.accept, none) := by
  obtain ⟨behind, hb⟩ := Option.ne_none_iff_exists'.1 hb
  unfold hookOutPackets
  rw [hb]
  split
  · rfl
  · next hu =>
    split
    · rfl
    · next hd =>
      simp only
      split
      · rfl
      · next node hs => exact absurd ⟨not_not.1 hu, not_not.1 hd, behind, hb, hs⟩ (h node)

/-- A packet is injected exactly when the packet matches a node and the copy succeeds. -/
theorem hookOutPackets_injects_iff {env : OutEnv} {skb r : SkBuff} {t : DnsTree} :
    (∃ v, hookOutPackets env skb t = some (v, some r)) ↔
      ∃ node copy, Matches env skb t node ∧ env.copy = some copy ∧ r = reply skb copy node := by
  constructor
  · rintro ⟨v, h⟩
    rcases hookOutPackets_cases h with ⟨-, h, -⟩ | ⟨node, hm, hi, -⟩
    · cases h
    · obtain ⟨copy, hc, hr⟩ := createPacket_snd_eq_some_iff.1 hi.symm
      exact ⟨node, copy, hm, hc, hr⟩
  · rintro ⟨node, copy, hm, hc, rfl⟩
    rw [hookOutPackets_of_matches hm]
    exact ⟨_, by rw [createPacket, hc]⟩

end Eltex.ProxyServer
