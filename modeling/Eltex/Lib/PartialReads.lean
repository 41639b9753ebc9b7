import Mathlib.Data.List.Basic
import Mathlib.Algebra.BigOperators.Group.List.Basic
import Mathlib.Algebra.GroupWithZero.Nat
import Mathlib.Tactic.Common

/-!
# Reading a text piece by piece

`reads text ns` are the pieces that reads of at most `n` elements each get, one
after the other: each starts where the last one has stopped, and what is behind
the end is not there.
-/

namespace PartialReads

variable {α : Type}

def reads : List α → List Nat → List (List α)
  | _, [] => []
  | rest, n :: ns => rest.take n :: reads (rest.drop n) ns

@[simp] theorem reads_nil (rest : List α) : reads rest [] = [] := rfl

@[simp] theorem reads_cons (rest : List α) (n : Nat) (ns : List Nat) :
    reads rest (n :: ns) = rest.take n :: reads (rest.drop n) ns := rfl

@[simp] theorem length_reads (rest : List α) (ns : List Nat) : (reads rest ns).length = ns.length := by
  induction ns generalizing rest with
  | nil => rfl
  | cons n ns ih => rw [reads_cons, List.length_cons, List.length_cons, ih]

/-- **All pieces** together are as much of the text as was asked for. -/
theorem flatten_reads (rest : List α) (ns : List Nat) : (reads rest ns).flatten = rest.take ns.sum := by
  induction ns generalizing rest with
  | nil => rw [reads_nil, List.flatten_nil, List.sum_nil, List.take_zero]
  | cons n ns ih => rw [reads_cons, List.flatten_cons, ih, List.sum_cons, List.take_add]

theorem getElem?_reads (rest : List α) (ns : List Nat) (i : Nat) :
    (reads rest ns)[i]? = ns[i]?.map fun n => (rest.drop (ns.take i).sum).take n := by
  induction ns generalizing rest i with
  | nil => rfl
  | cons n ns ih =>
    cases i with
    | zero => rfl
    | succ i =>
      rw [reads_cons, List.getElem?_cons_succ, List.getElem?_cons_succ, ih, List.take_succ_cons,
        List.sum_cons, List.drop_drop]

/-- After as much as there is, the pieces are empty. -/
theorem eq_nil_of_getElem?_reads {rest p : List α} {ns : List Nat} {i : Nat}
    (h : rest.length ≤ (ns.take i).sum) (hp : (reads rest ns)[i]? = some p) : p = [] := by
  rw [getElem?_reads] at hp
  obtain ⟨n, -, rfl⟩ := Option.map_eq_some_iff.1 hp
  rw [List.drop_eq_nil_of_le h, List.take_nil]

end PartialReads
