import Eltex.ProxyServer.Cache
import Mathlib.Data.Finset.Card
import Mathlib.Data.Finset.Dedup

/-!
# The memory of the hooks

Both hooks allocate `hname` first and free it last.  `hook_in_packets` allocates a node when the name
of a packet from port 53 is not in the tree, looks at the record only then, and leaves a node it does
not want where it is.

Over a whole run in which memory is to be had the blocks are those of a ledger that knows the names
cached and counts the refused packets for other names: one node for each.  Nothing is ever given back,
and a packet refused for a name that is not cached costs a node each time it comes and leaves everything
else as it was (`memory_run`).
-/

namespace Eltex.ProxyServer

open ByteMem CString SearchTree Runs

/-! ## The hooks with their blocks -/

/-- The tree, and how many blocks of each size are allocated and not freed. -/
structure Heap where
  dnsTree : DnsTree
  hnames : Nat
  nodes : Nat

/-- The blocks one call of `kmalloc` gives. -/
def kmalloc (block : Option (List UInt8)) : Nat := if block.isSome = true then 1 else 0

def Heap.allocHname (h : Heap) (block : Option (List UInt8)) : Heap :=
  { h with hnames := h.hnames + kmalloc block }

/-- `kfree(hname)`; NULL is not freed. -/
def Heap.freeHname (h : Heap) (block : Option (List UInt8)) : Heap :=
  { h with hnames := h.hnames - kmalloc block }

def hookInPacketsHeap (env : InEnv) (skb : SkBuff) (h : Heap) : Option Heap :=
  let h := h.allocHname env.hname
  if skb.protocol ≠ ipprotoUdp then some (h.freeHname env.hname)
  else if skb.source ≠ dnsPort then some (h.freeHname env.hname)
  else
    match env.hname with
    | none => none
    | some behind =>
      let hname := skb.hname ++ behind
      let nameLen := strlen hname
      match search h.dnsTree hname with
      | some _ => some (h.freeHname env.hname)
      | none =>
        let h := { h with nodes := h.nodes + kmalloc env.node }
        let r := skb.rData nameLen
        if r.Refused then some (h.freeHname env.hname)
        else
          match env.node with
          | none => none
          | some nodeBehind =>
            let h := { h with
              dnsTree := (insert env.rbInsertColor h.dnsTree (newNode hname r nodeBehind)).2 }
            some (h.freeHname env.hname)

/-- The packet that is built belongs to `ip_local_out`. -/
def hookOutPacketsHeap (env : OutEnv) (skb : SkBuff) (h : Heap) : Option Heap :=
  let h := h.allocHname env.hname
  (hookOutPackets env skb h.dnsTree).map fun _ => h.freeHname env.hname

def heapStep (h : Heap) : Event → Option Heap
  | .inbound env skb => hookInPacketsHeap env skb h
  | .outbound env skb => hookOutPacketsHeap env skb h

def emptyHeap : Heap := ⟨.nil, 0, 0⟩

/-! ## What the memory is used for -/

/-- The names cached, and the packets that were refused for others. -/
structure Ledger where
  known : Finset (List UInt8)
  refused : Nat

/-- The name of a DNS packet from port 53. -/
def Event.dnsName : Event → Option (List UInt8)
  | .inbound _ skb => if skb.protocol = ipprotoUdp ∧ skb.source = dnsPort then some (cstr skb.hname) else none
  | .outbound _ _ => none

def Ledger.step (l : Ledger) (ev : Event) : Ledger :=
  match ev.dnsName with
  | none => l
  | some name =>
    if name ∈ l.known then l
    else if ev.lesson = none then { l with refused := l.refused + 1 }
    else { l with known := Insert.insert name l.known }

def ledger (evs : List Event) : Ledger := evs.foldl Ledger.step ⟨∅, 0⟩

/-! ## One step -/

section
variable {h h' : Heap} {ev : Event}

theorem freeHname_mk (t : DnsTree) (hnames nodes : Nat) (block : Option (List UInt8)) :
    (Heap.mk t (hnames + kmalloc block) nodes).freeHname block = ⟨t, hnames, nodes⟩ := by
  rw [Heap.freeHname, Nat.add_sub_cancel]

theorem freeHname_allocHname (h : Heap) (block : Option (List UInt8)) :
    (h.allocHname block).freeHname block = h :=
  freeHname_mk h.dnsTree h.hnames h.nodes block

/-- **The heap runs the hooks.** -/
theorem map_heapStep (h : Heap) (ev : Event) : (heapStep h ev).map Heap.dnsTree = step h.dnsTree ev := by
  cases ev with
  | inbound env skb =>
    rw [heapStep, step, hookInPacketsHeap, hookInPackets]
    simp only [Heap.allocHname]
    split
    · rfl
    · split
      · rfl
      · cases env.hname with
        | none => rfl
        | some behind =>
          simp only
          cases search h.dnsTree (skb.hname ++ behind) with
          | some d => rfl
          | none =>
            simp only
            split
            · rfl
            · cases env.node <;> rfl
  | outbound env skb =>
    rw [heapStep, step, hookOutPacketsHeap, Option.map_map]
    rfl

/-- Everything a step can do to the memory when the allocations succeed. -/
inductive Charged (h : Heap) (ev : Event) : Heap → Prop where
  | none (hno : ∀ name, ev.dnsName = some name → (search h.dnsTree name).isSome) : Charged h ev h
  | refused (name : List UInt8) (hname : ev.dnsName = some name) (hno : 0 ∉ name)
      (hnew : search h.dnsTree name = none) (hlesson : ev.lesson = none) :
      Charged h ev { h with nodes := h.nodes + 1 }
  | cached (f : Reshape DnsNode) (node : DnsNode) (hname : ev.dnsName = some (cstr node.hostMem))
      (hnew : search h.dnsTree node.hostMem = none) (hlesson : ev.lesson ≠ none) :
      Charged h ev ⟨(insert f h.dnsTree node).2, h.hnames, h.nodes + 1⟩

theorem heapStep_of_ok (h : Heap) (hok : ev.Ok) : ∃ h', heapStep h ev = some h' ∧ Charged h ev h' := by
  cases ev with
  | outbound env skb =>
    obtain ⟨t, ht⟩ := step_of_ok hok h.dnsTree
    obtain ⟨r, hr, -⟩ := Option.map_eq_some_iff.1 ht
    refine ⟨h, ?_, .none fun name hname => by cases hname⟩
    rw [heapStep, hookOutPacketsHeap]
    show ((hookOutPackets env skb h.dnsTree).map _) = _
    rw [hr, Option.map_some, freeHname_allocHname]
  | inbound env skb =>
    rw [heapStep, hookInPacketsHeap]
    by_cases hp : skb.protocol = ipprotoUdp ∧ skb.source = dnsPort
    · obtain ⟨behind, hb⟩ := Option.ne_none_iff_exists'.1 hok.1
      obtain ⟨nodeBehind, hnode⟩ := Option.ne_none_iff_exists'.1 hok.2.1
      obtain ⟨name, hn⟩ := hok.2.2 hp.1 hp.2
      have hname : (Event.inbound env skb).dnsName = some name := by
        rw [Event.dnsName, if_pos hp, SkBuff.cstr_hname hn]
      simp only
      rw [if_neg (not_not.2 hp.1), if_neg (not_not.2 hp.2), hb]
      simp only
      cases hs : search (h.allocHname (some behind)).dnsTree (skb.hname ++ behind) with
      | some d =>
        have hs : search h.dnsTree (skb.hname ++ behind) = some d := hs
        rw [search_hname hn] at hs
        refine ⟨_, rfl, ?_⟩
        rw [freeHname_allocHname]
        refine .none fun name' hname' => ?_
        rw [Option.some.inj (hname'.symm.trans hname), hs]
        rfl
      | none =>
        have hs : search h.dnsTree (skb.hname ++ behind) = none := hs
        have hblocks : kmalloc env.node = 1 := by rw [hnode]; rfl
        simp only [hblocks]
        by_cases hr : (skb.rData (strlen (skb.hname ++ behind))).Refused
        · rw [if_pos hr]
          have hlesson : (Event.inbound env skb).lesson = none := by
            rw [SkBuff.strlen_hname_append hn] at hr
            rw [Event.lesson, SkBuff.lesson, if_pos hp, SkBuff.cstr_hname hn]
            exact if_pos hr
          rw [search_hname hn] at hs
          refine ⟨_, rfl, ?_⟩
          show Charged h _ (Heap.freeHname ⟨h.dnsTree, h.hnames + _, h.nodes + 1⟩ _)
          rw [freeHname_mk]
          exact .refused name hname hn.no_nul hs hlesson
        · rw [if_neg hr, hnode]
          have hinserts : Inserts env skb h.dnsTree
              (newNode (skb.hname ++ behind) (skb.rData (strlen (skb.hname ++ behind))) nodeBehind) :=
            ⟨hp.1, hp.2, behind, nodeBehind, hb, hnode, hs, hr, rfl⟩
          obtain ⟨hlesson, hkey, hnew⟩ := lesson_of_inserts hinserts hn
          refine ⟨_, rfl, ?_⟩
          show Charged h _ (Heap.freeHname ⟨_, h.hnames + _, h.nodes + 1⟩ _)
          rw [freeHname_mk]
          refine .cached env.rbInsertColor _ (by rw [hname, hkey]) hnew ?_
          rw [Event.lesson, hlesson]
          exact Option.some_ne_none _
    · refine ⟨h, ?_, .none fun name hname => ?_⟩
      · simp only
        by_cases hu : skb.protocol = ipprotoUdp
        · rw [if_neg (not_not.2 hu), if_pos fun hs => hp ⟨hu, hs⟩, freeHname_allocHname]
        · rw [if_pos hu, freeHname_allocHname]
      · rw [Event.dnsName, if_neg hp] at hname
        cases hname

/-! ## The ledger -/

/-- The keys of the tree. -/
def keys (t : DnsTree) : List (List UInt8) := t.toList.map fun d => cstr d.hostMem

theorem mem_keys {t : DnsTree} (ht : OrderedTree t) {name : List UInt8} (h0 : 0 ∉ name) :
    name ∈ keys t ↔ (search t name).isSome := by
  rw [keys, List.mem_map, Option.isSome_iff_exists]
  apply exists_congr
  intro d
  rw [search_eq_some_iff ht, cstr_eq_self h0, eq_comm]

theorem nodup_keys {t : DnsTree} (ht : OrderedTree t) : (keys t).Nodup := by
  refine List.pairwise_map.2 (ht.imp fun {a b} hlt heq => ?_)
  rw [(cmpStr_eq_iff _ _).2 heq] at hlt
  cases hlt

theorem keys_insert (f : Reshape DnsNode) {t : DnsTree} {node : DnsNode} (h : search t node.hostMem = none) :
    (keys (insert f t node).2).Perm (cstr node.hostMem :: keys t) := by
  obtain ⟨u, hu, heq⟩ := insert_of_search_none f node h
  rw [linkNode_eq_insertLeaf] at hu
  obtain ⟨l, r, hold, hnew⟩ := insertLeaf_toList _ _ hu
  rw [keys, keys, heq, f.toList_apply, hnew, hold]
  exact List.perm_middle.map _

/-- The blocks are those of the ledger. -/
structure Covers (l : Ledger) (h : Heap) : Prop where
  ordered : OrderedTree h.dnsTree
  known : (keys h.dnsTree).toFinset = l.known
  hnames : h.hnames = 0
  nodes : h.nodes = h.dnsTree.toList.length + l.refused

theorem Covers.length {l : Ledger} (hc : Covers l h) : h.dnsTree.toList.length = l.known.card := by
  rw [← hc.known, List.toFinset_card_of_nodup (nodup_keys hc.ordered), keys, List.length_map]

theorem Covers.mem_iff {l : Ledger} (hc : Covers l h) {name : List UInt8} (h0 : 0 ∉ name) :
    name ∈ l.known ↔ (search h.dnsTree name).isSome := by
  rw [← hc.known, List.mem_toFinset, mem_keys hc.ordered h0]

theorem zero_not_mem_dnsName (hok : ev.Ok) {name : List UInt8} (h : ev.dnsName = some name) : 0 ∉ name := by
  cases ev with
  | outbound env skb => cases h
  | inbound env skb =>
    rw [Event.dnsName] at h
    split at h
    · next hp =>
      obtain ⟨n, hn⟩ := hok.2.2 hp.1 hp.2
      rw [← Option.some.inj h, SkBuff.cstr_hname hn]
      exact hn.no_nul
    · cases h

/-- **Step.** -/
theorem covers_step {l : Ledger} (hc : Covers l h) (hok : ev.Ok) (hcharged : Charged h ev h') :
    Covers (l.step ev) h' := by
  cases hcharged with
  | none hno =>
    have hsame : l.step ev = l := by
      rw [Ledger.step]
      split
      · rfl
      · next name hname =>
        exact if_pos ((hc.mem_iff (zero_not_mem_dnsName hok hname)).2 (hno name hname))
    rw [hsame]
    exact hc
  | refused name hname h0 hnew hlesson =>
    have hmem : name ∉ l.known := by
      rw [hc.mem_iff h0, hnew]
      exact Bool.false_ne_true
    have hstep : l.step ev = { l with refused := l.refused + 1 } := by
      rw [Ledger.step, hname]
      simp only
      rw [if_neg hmem, if_pos hlesson]
    rw [hstep]
    refine ⟨hc.ordered, hc.known, hc.hnames, ?_⟩
    rw [hc.nodes]
    rfl
  | cached f node hname hnew hlesson =>
    have h0 := zero_not_mem_cstr node.hostMem
    have hmem : cstr node.hostMem ∉ l.known := by
      rw [hc.mem_iff h0, search_congr h.dnsTree (cstr_eq_self h0), hnew]
      exact Bool.false_ne_true
    have hstep : l.step ev = { l with known := Insert.insert (cstr node.hostMem) l.known } := by
      rw [Ledger.step, hname]
      simp only
      rw [if_neg hmem, if_neg hlesson]
    rw [hstep]
    have hkeys := keys_insert f hnew
    have hlength := hkeys.length_eq
    rw [keys, keys, List.length_map, List.length_cons, List.length_map] at hlength
    refine ⟨orderedTree_insert f node hc.ordered, ?_, hc.hnames, ?_⟩
    · rw [List.toFinset_eq_of_perm _ _ hkeys, List.toFinset_cons, hc.known]
    · show h.nodes + 1 = (insert f h.dnsTree node).2.toList.length + l.refused
      rw [hlength, hc.nodes]
      omega

end

/-! ## Runs -/

section
variable {evs : List Event}

theorem ledger_concat (evs : List Event) (ev : Event) : ledger (evs ++ [ev]) = (ledger evs).step ev := by
  rw [ledger, List.foldl_append]
  rfl

theorem dnsName_of_lesson {ev : Event} {name : List UInt8} {v : UInt32 × UInt32}
    (h : ev.lesson = some (name, v)) : ev.dnsName = some name := by
  cases ev with
  | outbound env skb => cases h
  | inbound env skb =>
    rw [Event.lesson, SkBuff.lesson] at h
    split at h
    · next hp =>
      simp only at h
      split at h
      · cases h
      · rw [Event.dnsName, if_pos hp]
        exact congrArg (Option.map Prod.fst) h
    · cases h

theorem lesson_of_dnsName {ev : Event} {name : List UInt8} (hname : ev.dnsName = some name)
    (h : ev.lesson ≠ none) : ∃ v, ev.lesson = some (name, v) := by
  obtain ⟨⟨n, v⟩, hv⟩ := Option.ne_none_iff_exists'.1 h
  have hn := dnsName_of_lesson hv
  obtain rfl := Option.some.inj (hname.symm.trans hn)
  exact ⟨v, hv⟩

theorem mem_known_step {l : Ledger} {ev : Event} {name : List UInt8} :
    name ∈ (l.step ev).known ↔ name ∈ l.known ∨ ∃ v, ev.lesson = some (name, v) := by
  rw [Ledger.step]
  split
  · next hnone =>
    refine (or_iff_left ?_).symm
    rintro ⟨v, hv⟩
    rw [dnsName_of_lesson hv] at hnone
    cases hnone
  · next n hname =>
    have hsame : ∀ {m v}, ev.lesson = some (m, v) → m = n := fun hv =>
      Option.some.inj ((dnsName_of_lesson hv).symm.trans hname)
    split
    · next hmem =>
      refine (or_iff_left_of_imp ?_).symm
      rintro ⟨v, hv⟩
      rw [hsame hv]
      exact hmem
    · split
      · next hlesson =>
        refine (or_iff_left ?_).symm
        rintro ⟨v, hv⟩
        rw [hlesson] at hv
        cases hv
      · next hlesson =>
        obtain ⟨v, hv⟩ := lesson_of_dnsName hname hlesson
        rw [Finset.mem_insert, or_comm]
        refine or_congr_right ⟨?_, ?_⟩
        · rintro rfl
          exact ⟨v, hv⟩
        · rintro ⟨v', hv'⟩
          exact hsame hv'

/-- The names known are those that some packet taught. -/
theorem mem_known (evs : List Event) (name : List UInt8) :
    name ∈ (ledger evs).known ↔ ∃ ev ∈ evs, ∃ v, ev.lesson = some (name, v) := by
  induction evs using List.reverseRecOn with
  | nil =>
    refine iff_of_false (Finset.notMem_empty name) ?_
    rintro ⟨ev, hev, -⟩
    exact absurd hev List.not_mem_nil
  | append_singleton evs ev ih =>
    rw [ledger_concat, mem_known_step, ih]
    constructor
    · rintro (⟨e, he, hv⟩ | hv)
      · exact ⟨e, List.mem_append_left _ he, hv⟩
      · exact ⟨ev, List.mem_append_right _ (List.mem_singleton_self ev), hv⟩
    · rintro ⟨e, he, hv⟩
      rcases List.mem_append.1 he with he | he
      · exact Or.inl ⟨e, he, hv⟩
      · rw [List.mem_singleton.1 he] at hv
        exact Or.inr hv

/-- **Run.** -/
theorem exists_covers (hok : ∀ ev ∈ evs, ev.Ok) :
    ∃ h, run heapStep emptyHeap evs = some h ∧ Covers (ledger evs) h := by
  refine run_exists (fun es h => Covers (ledger es) h) ⟨orderedTree_nil, rfl, rfl, rfl⟩
    fun pre ev h hpre _ hc => ?_
  have hev := hok ev (hpre.subset (List.mem_append_right _ (List.mem_singleton_self ev)))
  obtain ⟨h', hstep, hcharged⟩ := heapStep_of_ok h hev
  refine ⟨h', hstep, ?_⟩
  rw [ledger_concat]
  exact covers_step hc hev hcharged

/-- A packet refused for a name that is not cached changes nothing but the count. -/
theorem heapStep_of_refused {h : Heap} {ev : Event} {name : List UInt8} (hok : ev.Ok)
    (hname : ev.dnsName = some name) (hnew : search h.dnsTree name = none) (hlesson : ev.lesson = none) :
    heapStep h ev = some { h with nodes := h.nodes + 1 } := by
  obtain ⟨h', hstep, hcharged⟩ := heapStep_of_ok h hok
  cases hcharged with
  | none hno =>
    have hfound := hno name hname
    rw [hnew] at hfound
    cases hfound
  | refused _ _ _ _ _ => exact hstep
  | cached _ _ _ _ hkept => exact absurd hlesson hkept

theorem run_replicate_of_refused {ev : Event} {name : List UInt8} (hok : ev.Ok)
    (hname : ev.dnsName = some name) (hlesson : ev.lesson = none) (n : Nat) {h : Heap}
    (hnew : search h.dnsTree name = none) :
    run heapStep h (List.replicate n ev) = some { h with nodes := h.nodes + n } := by
  induction n generalizing h with
  | zero => rfl
  | succ n ih =>
    have hstep := heapStep_of_refused hok hname hnew hlesson
    have hrest := @ih { h with nodes := h.nodes + 1 } hnew
    rw [List.replicate_succ, run_cons, hstep, Option.bind_some, hrest, Nat.add_assoc, Nat.add_comm 1 n]

end

/-- **Where the memory goes.**  After any run with memory to be had one block is allocated for each name that was
taught and one for each packet that was refused while its name was not, and none is freed: the same refused packet
costs one each time, and nothing else changes. -/
theorem memory_run {evs : List Event} (hok : ∀ ev ∈ evs, ev.Ok) :
    ∃ h, run heapStep emptyHeap evs = some h ∧ run step .nil evs = some h.dnsTree ∧ h.hnames = 0 ∧
      h.nodes = (ledger evs).known.card + (ledger evs).refused ∧
      (∀ name, name ∈ (ledger evs).known ↔ ∃ ev ∈ evs, ∃ v, ev.lesson = some (name, v)) ∧
      ∀ ev name n, ev.Ok → ev.dnsName = some name → name ∉ (ledger evs).known → ev.lesson = none →
        run heapStep emptyHeap (evs ++ List.replicate n ev) = some { h with nodes := h.nodes + n } := by
  obtain ⟨h, hrun, hc⟩ := exists_covers hok
  refine ⟨h, hrun, run_view map_heapStep hrun, hc.hnames, ?_, mem_known evs, ?_⟩
  · rw [hc.nodes, hc.length]
  · intro ev name n hev hname hknown hlesson
    have hnew : search h.dnsTree name = none := by
      rw [hc.mem_iff (zero_not_mem_dnsName hev hname)] at hknown
      exact Option.not_isSome_iff_eq_none.1 hknown
    rw [run_append, hrun, Option.bind_some]
    exact run_replicate_of_refused hev hname hlesson n hnew

/-- The answer to a question for an IPv6 address, which is refused, twice. -/
theorem memory_run_twice :
    let ev := Event.inbound ⟨some [], some [], .refl _⟩ (udpPacket 53 40000 (answerPayload [1, 97] 28 16 []))
    ∃ h, run heapStep emptyHeap [ev, ev] = some h ∧ h.nodes = 2 := by
  intro ev
  have hp : (udpPacket 53 40000 (answerPayload [1, 97] 28 16 [])).Named [1, 97] :=
    udpPacket_answer_named 53 40000 28 16 _ (by decide) (by decide)
  have hok : ∀ e ∈ [ev, ev], e.Ok := by
    intro e he
    have heq : e = ev := by simpa using he
    rw [heq]
    exact ⟨Option.some_ne_none _, Option.some_ne_none _, fun _ _ => ⟨_, hp⟩⟩
  obtain ⟨h, hrun, -, -, hnodes, -⟩ := memory_run hok
  refine ⟨h, hrun, ?_⟩
  rw [hnodes]
  decide +kernel

end Eltex.ProxyServer
