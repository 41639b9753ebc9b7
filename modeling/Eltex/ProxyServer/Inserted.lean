import Eltex.Lib.FirstWins
import Eltex.ProxyServer.DnsTree
import Mathlib.Data.List.Induction

/-!
# The tree as a map from names to nodes

`inserted calls` is the tree that a sequence of `insert` calls builds from an empty root; each
call comes with its own rebalancing.  What the tree is for is a map from C strings to nodes in
which the first node of a name stays: `search` on the built tree reads that map
(`search_inserted`), so it answers `NULL` for the names never inserted and no others.
-/

namespace Eltex.ProxyServer

open CString SearchTree

structure InsertCall where
  rbInsertColor : Reshape DnsNode
  data : DnsNode

def inserted (calls : List InsertCall) : DnsTree :=
  calls.foldl (fun root call => (insert call.rbInsertColor root call.data).2) .nil

/-- What a call teaches the map: its node under its own name. -/
def InsertCall.lesson (call : InsertCall) : Option (List UInt8 × DnsNode) :=
  some (cstr call.data.hostMem, call.data)

theorem inserted_concat (calls : List InsertCall) (call : InsertCall) :
    inserted (calls ++ [call]) = (insert call.rbInsertColor (inserted calls) call.data).2 := by
  simp [inserted]

theorem orderedTree_inserted (calls : List InsertCall) : OrderedTree (inserted calls) := by
  induction calls using List.reverseRecOn with
  | nil => exact orderedTree_nil
  | append_singleton calls call ih =>
    rw [inserted_concat]
    exact orderedTree_insert _ _ ih

/-- **The tree refines the map of first bindings.** -/
theorem search_inserted (calls : List InsertCall) (s : List UInt8) :
    search (inserted calls) s =
      calls.foldl (fun c call => FirstWins.learn c call.lesson) (fun _ => none) (cstr s) := by
  induction calls using List.reverseRecOn with
  | nil => rfl
  | append_singleton calls call ih =>
    rw [inserted_concat, search_insert _ _ (orderedTree_inserted calls), ih, List.foldl_append]
    rfl

theorem search_inserted_eq_none_iff (calls : List InsertCall) (s : List UInt8) :
    search (inserted calls) s = none ↔ ∀ call ∈ calls, strcmp s call.data.hostMem ≠ 0 := by
  rw [search_inserted, FirstWins.foldl_learn_eq_none_iff]
  apply forall₂_congr
  intro call _
  rw [ne_eq, strcmp_eq_zero_iff]
  constructor
  · intro h he
    exact h call.data (by rw [InsertCall.lesson, he])
  · intro h v hv
    simp only [InsertCall.lesson, Option.some.injEq, Prod.mk.injEq] at hv
    exact h hv.1.symm

/-! ## One call on an ordered tree -/

/-- Some node of the tree has the name `s`. -/
def Present (t : DnsTree) (s : List UInt8) : Prop := ∃ d ∈ t.toList, strcmp s d.hostMem = 0

theorem present_iff_search {t : DnsTree} (ht : OrderedTree t) (s : List UInt8) :
    Present t s ↔ (search t s).isSome := by
  rw [Option.isSome_iff_exists]
  apply exists_congr
  intro d
  rw [search_eq_some_iff ht, strcmp_eq_zero_iff]

theorem insert_eq_iff_present {t : DnsTree} (ht : OrderedTree t) (f : Reshape DnsNode) (d : DnsNode) :
    insert f t d = (0, t) ↔ Present t d.hostMem := by
  rw [present_iff_search ht]
  constructor
  · intro h
    rw [← insert_fst_eq_zero_iff f, h]
  · intro h
    exact insert_of_search f d h

theorem insert_fst_of_absent {t : DnsTree} (ht : OrderedTree t) (f : Reshape DnsNode) {d : DnsNode}
    (h : ¬ Present t d.hostMem) : (insert f t d).1 = 1 := by
  rw [present_iff_search ht, Option.not_isSome_iff_eq_none] at h
  obtain ⟨u, -, he⟩ := insert_of_search_none f d h
  rw [he]

/-- A search after an insertion: the new node under its own name if that was free, otherwise what
the search gave before. -/
theorem search_insert_present {t : DnsTree} (ht : OrderedTree t) (f : Reshape DnsNode) (d : DnsNode)
    (s : List UInt8) :
    (strcmp s d.hostMem = 0 ∧ ¬ Present t d.hostMem → search (insert f t d).2 s = some d) ∧
      (¬ (strcmp s d.hostMem = 0 ∧ ¬ Present t d.hostMem) →
        search (insert f t d).2 s = search t s) := by
  rw [search_insert f d ht, present_iff_search ht, Option.not_isSome_iff_eq_none, strcmp_eq_zero_iff]
  constructor
  · rintro ⟨hs, hd⟩
    rw [search_congr t hs, hd, Option.none_or, if_pos hs]
  · intro h
    by_cases hs : cstr s = cstr d.hostMem
    · obtain ⟨a, ha⟩ := Option.ne_none_iff_exists'.1 fun hd => h ⟨hs, hd⟩
      rw [search_congr t hs, ha, Option.some_or]
    · rw [if_neg hs, Option.or_none]

/-- **The cache tree is a finite map.**  After any sequence of insertions with any rebalancings the
names strictly increase from left to right; a further insertion is refused, with the tree left
alone, exactly when its name is there; a search finds the inserted node under a new name and
under every other what it found before; and it fails for the names never inserted. -/
theorem inserted_is_map (calls : List InsertCall) :
    (inserted calls).toList.Pairwise (fun a b => strcmp a.hostMem b.hostMem < 0) ∧
      (∀ (f : Reshape DnsNode) (d : DnsNode),
        (insert f (inserted calls) d = (0, inserted calls) ↔ Present (inserted calls) d.hostMem) ∧
        (¬ Present (inserted calls) d.hostMem → (insert f (inserted calls) d).1 = 1) ∧
        ∀ s : List UInt8,
          (strcmp s d.hostMem = 0 ∧ ¬ Present (inserted calls) d.hostMem →
            search (insert f (inserted calls) d).2 s = some d) ∧
          (¬ (strcmp s d.hostMem = 0 ∧ ¬ Present (inserted calls) d.hostMem) →
            search (insert f (inserted calls) d).2 s = search (inserted calls) s)) ∧
      ∀ s : List UInt8, search (inserted calls) s = none ↔
        ∀ call ∈ calls, strcmp s call.data.hostMem ≠ 0 := by
  have ho := orderedTree_inserted calls
  refine ⟨?_, fun f d => ⟨?_, ?_, ?_⟩, ?_⟩
  · exact ho.imp fun h => (strcmp_neg_iff _ _).2 h
  · exact insert_eq_iff_present ho f d
  · exact insert_fst_of_absent ho f
  · exact search_insert_present ho f d
  · exact search_inserted_eq_none_iff calls

end Eltex.ProxyServer
