import Mathlib.Data.List.Perm.Basic
import Mathlib.Tactic.Common

/-!
# Message queues

A queue of messages with types.  `send` appends, if there is room, and `recv`
takes out the first message of a type, wherever it stands.  What is taken out
and what stays make up the queue (`recv_perm`).
-/

namespace MsgQueue

variable {α β : Type}

def send (capacity : Nat) (m : α) (q : List α) : Option (List α) :=
  if q.length < capacity then some (q ++ [m]) else none

/-- The first message of type `t`, and the queue without it. -/
def recv (type : α → Int) (t : Int) : List α → Option (α × List α)
  | [] => none
  | m :: q => if type m = t then some (m, q) else (recv type t q).map fun (r, q) => (r, m :: q)

theorem send_eq_some_iff {capacity : Nat} {m : α} {q q' : List α} :
    send capacity m q = some q' ↔ q.length < capacity ∧ q' = q ++ [m] := by
  unfold send
  split
  · next h => exact ⟨fun hs => ⟨h, (Option.some.inj hs).symm⟩, fun hs => congrArg some hs.2.symm⟩
  · next h => exact ⟨fun hs => absurd hs.symm (Option.some_ne_none _), fun hs => absurd hs.1 h⟩

theorem send_eq_none_iff {capacity : Nat} {m : α} {q : List α} :
    send capacity m q = none ↔ capacity ≤ q.length := by
  unfold send
  split
  · next h => exact ⟨fun hs => absurd hs (Option.some_ne_none _), fun hs => absurd h (Nat.not_lt.2 hs)⟩
  · next h => exact ⟨fun _ => Nat.not_lt.1 h, fun _ => rfl⟩

theorem recv_perm {type : α → Int} {t : Int} {q q' : List α} {m : α} (h : recv type t q = some (m, q')) :
    q.Perm (m :: q') := by
  induction q generalizing q' with
  | nil => cases h
  | cons a q ih =>
    unfold recv at h
    split at h
    · obtain ⟨rfl, rfl⟩ := Prod.mk.inj (Option.some.inj h)
      exact List.Perm.refl _
    · obtain ⟨⟨r, q₁⟩, hr, heq⟩ := Option.map_eq_some_iff.1 h
      obtain ⟨rfl, rfl⟩ := Prod.mk.inj heq
      exact ((ih hr).cons a).trans (List.Perm.swap _ _ _)

/-- What is received does not depend on more of the messages than their types. -/
theorem recv_map {type : α → Int} {type' : β → Int} {f : α → β} (hf : ∀ m, type' (f m) = type m) (t : Int)
    (q : List α) : recv type' t (q.map f) = (recv type t q).map fun (r, q) => (f r, q.map f) := by
  induction q with
  | nil => rfl
  | cons a q ih =>
    rw [List.map_cons, recv, recv, hf, ih]
    split
    · rfl
    · rw [Option.map_map, Option.map_map]
      rfl

theorem send_map {f : α → β} (capacity : Nat) (m : α) (q : List α) :
    send capacity (f m) (q.map f) = (send capacity m q).map (List.map f) := by
  unfold send
  rw [List.length_map]
  split
  · rw [Option.map_some, List.map_append]
    rfl
  · rfl

end MsgQueue
