import Eltex.Lib.SearchTree
import Eltex.ProxyServer.Packet

/-!
# The cache tree

`search` and `insert` of the proxy walk a red-black tree of `struct dns_node` by
`strcmp`.  `rb_insert_color` belongs to the kernel: it is a parameter that may
reshape the tree as it likes but keeps the nodes in order.  Both walks are the
descents of `SearchTree` under the order of C strings, so on an ordered tree

    search t s = some d ↔ d ∈ t.toList ∧ cstr s = cstr d.hostMem        (search_eq_some_iff)
    (insert f t d).1 = 0 ↔ the name of d is in t                         (insert_fst_eq_zero_iff)
    search (insert f t d).2 s = first entry stored under the name s      (search_insert)
-/

namespace Eltex.ProxyServer

open CString SearchTree

abbrev DnsTree := LinkTree DnsNode

def search : DnsTree → List UInt8 → Option DnsNode
  | .nil, _ => none
  | .node rbLeft data rbRight, string =>
    let result := strcmp string data.hostMem
    if result < 0 then search rbLeft string
    else if result > 0 then search rbRight string
    else some data

/-- The walk of `insert` with `rb_link_node` at its end; `none` on the duplicate branch. -/
def linkNode (data : DnsNode) : DnsTree → Option DnsTree
  | .nil => some (.node .nil data .nil)
  | .node rbLeft this rbRight =>
    let result := strcmp data.hostMem this.hostMem
    if result < 0 then (linkNode data rbLeft).map fun new => .node new this rbRight
    else if result > 0 then (linkNode data rbRight).map fun new => .node rbLeft this new
    else none

/-- Return value and tree. -/
def insert (rbInsertColor : Reshape DnsNode) (root : DnsTree) (data : DnsNode) : Int × DnsTree :=
  match linkNode data root with
  | some linked => (1, rbInsertColor.apply linked)
  | none => (0, root)

/-! ## The walks are the descents of a search tree -/

theorem search_eq_find (t : DnsTree) (string : List UInt8) :
    search t string = find cmpStr DnsNode.hostMem string t := by
  induction t with
  | nil => rfl
  | node l d r ihl ihr =>
    unfold search find
    simp only [gt_iff_lt, strcmp_neg_iff, strcmp_pos_iff]
    cases h : cmpStr string d.hostMem with
    | lt => simpa using ihl
    | gt => simpa using ihr
    | eq => simp

theorem linkNode_eq_insertLeaf (d : DnsNode) (t : DnsTree) :
    linkNode d t = insertLeaf cmpStr DnsNode.hostMem d t := by
  induction t with
  | nil => rfl
  | node l a r ihl ihr =>
    unfold linkNode insertLeaf
    simp only [gt_iff_lt, strcmp_neg_iff, strcmp_pos_iff]
    cases h : cmpStr d.hostMem a.hostMem with
    | lt => simp [ihl]
    | gt => simp [ihr]
    | eq => simp

/-- Names strictly increase under `strcmp` from left to right. -/
def OrderedTree (t : DnsTree) : Prop := Ordered cmpStr DnsNode.hostMem t

theorem orderedTree_nil : OrderedTree .nil := List.Pairwise.nil

theorem mem_of_search {t : DnsTree} {s : List UInt8} {d : DnsNode} (h : search t s = some d) :
    d ∈ t.toList ∧ cstr s = cstr d.hostMem := by
  rw [search_eq_find] at h
  have := mem_of_find _ _ h
  exact ⟨this.1, (cmpStr_eq_iff _ _).1 this.2⟩

theorem search_eq_some_iff {t : DnsTree} (ht : OrderedTree t) {s : List UInt8} {d : DnsNode} :
    search t s = some d ↔ d ∈ t.toList ∧ cstr s = cstr d.hostMem := by
  rw [search_eq_find, find_eq_some_iff _ _ ht, cmpStr_eq_iff]

theorem search_congr (t : DnsTree) {s u : List UInt8} (h : cstr s = cstr u) :
    search t s = search t u := by
  induction t with
  | nil => rfl
  | node l d r ihl ihr =>
    unfold search
    have hc : cmpStr s d.hostMem = cmpStr u d.hostMem := by rw [cmpStr, cmpStr, h]
    simp only [gt_iff_lt, strcmp_neg_iff, strcmp_pos_iff, hc, ihl, ihr]

theorem search_leaf (d : DnsNode) (s : List UInt8) :
    search (.node .nil d .nil) s = if cstr s = cstr d.hostMem then some d else none := by
  have ho : OrderedTree (.node .nil d .nil) := List.pairwise_singleton _ _
  split
  · next h => exact (search_eq_some_iff ho).2 ⟨List.mem_singleton.2 rfl, h⟩
  · next h =>
    cases hs : search (.node .nil d .nil) s with
    | none => rfl
    | some a =>
      obtain ⟨ha, he⟩ := mem_of_search hs
      rw [List.mem_singleton.1 ha] at he
      exact absurd he h

/-! ## Insertion -/

section
variable (f : Reshape DnsNode) {t : DnsTree} (d : DnsNode)

theorem insert_of_search (h : (search t d.hostMem).isSome) : insert f t d = (0, t) := by
  have hn : linkNode d t = none := by
    rw [linkNode_eq_insertLeaf, insertLeaf_eq_none_iff, ← search_eq_find]
    exact h
  rw [insert, hn]

theorem insert_of_search_none (h : search t d.hostMem = none) :
    ∃ u, linkNode d t = some u ∧ insert f t d = (1, f.apply u) := by
  cases hl : linkNode d t with
  | none =>
    rw [linkNode_eq_insertLeaf, insertLeaf_eq_none_iff, ← search_eq_find, h] at hl
    cases hl
  | some u => exact ⟨u, rfl, by rw [insert, hl]⟩

theorem insert_fst_eq_zero_iff : (insert f t d).1 = 0 ↔ (search t d.hostMem).isSome := by
  cases h : search t d.hostMem with
  | none =>
    obtain ⟨u, -, he⟩ := insert_of_search_none f d h
    simp [he]
  | some a => simp [insert_of_search f d (by rw [h]; rfl)]

theorem mem_insert {y : DnsNode} :
    y ∈ (insert f t d).2.toList ↔ y ∈ t.toList ∨ (y = d ∧ search t d.hostMem = none) := by
  cases h : search t d.hostMem with
  | none =>
    obtain ⟨u, hu, he⟩ := insert_of_search_none f d h
    rw [linkNode_eq_insertLeaf] at hu
    rw [he, f.toList_apply, mem_insertLeaf _ _ hu]
    tauto
  | some a => simp [insert_of_search f d (by rw [h]; rfl)]

theorem orderedTree_insert (ht : OrderedTree t) : OrderedTree (insert f t d).2 := by
  cases h : search t d.hostMem with
  | none =>
    obtain ⟨u, hu, he⟩ := insert_of_search_none f d h
    rw [linkNode_eq_insertLeaf] at hu
    rw [he]
    exact ordered_reshape _ _ f (ordered_insertLeaf _ _ ht hu)
  | some a =>
    rw [insert_of_search f d (by rw [h]; rfl)]
    exact ht

/-- An insertion adds the new name and leaves every answer the tree already gave. -/
theorem search_insert (ht : OrderedTree t) (s : List UInt8) :
    search (insert f t d).2 s = (search t s).or (if cstr s = cstr d.hostMem then some d else none) := by
  cases h : search t d.hostMem with
  | none =>
    obtain ⟨u, hu, he⟩ := insert_of_search_none f d h
    rw [linkNode_eq_insertLeaf] at hu
    rw [he, search_eq_find, find_reshape _ _ f (ordered_insertLeaf _ _ ht hu),
      find_insertLeaf _ _ ht hu, ← search_eq_find]
    simp only [cmpStr_eq_iff]
    split
    · next hs => rw [search_congr t hs, h, Option.none_or]
    · rw [Option.or_none]
  | some a =>
    rw [insert_of_search f d (by rw [h]; rfl)]
    split
    · next hs => rw [search_congr t hs, h, Option.some_or]
    · rw [Option.or_none]

end

end Eltex.ProxyServer
