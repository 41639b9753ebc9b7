import Mathlib.Data.List.Basic
import Mathlib.Tactic.Common

/-!
# Maps in which the first binding stays

A partial map learns bindings one after another and keeps the first value of
every key.  After any list of events, `k` has the value of the earliest event
that binds it (`foldl_learn_eq_some_iff`).
-/

namespace FirstWins

variable {κ ν ε : Type} [DecidableEq κ]

/-- The value a binding gives to `k`. -/
def valueAt (k : κ) (b : Option (κ × ν)) : Option ν := b.bind fun p => if k = p.1 then some p.2 else none

/-- Learn a binding, if there is one. -/
def learn (c : κ → Option ν) (b : Option (κ × ν)) : κ → Option ν := fun k => (c k).or (valueAt k b)

theorem valueAt_eq_some_iff {k : κ} {b : Option (κ × ν)} {v : ν} :
    valueAt k b = some v ↔ b = some (k, v) := by
  cases b with
  | none => simp [valueAt]
  | some p =>
    obtain ⟨k', v'⟩ := p
    show (if k = k' then some v' else none) = some v ↔ _
    split
    · next h => subst h; simp
    · next h =>
      constructor
      · intro hn
        cases hn
      · intro hp
        cases hp
        exact absurd rfl h

theorem valueAt_eq_none_iff {k : κ} {b : Option (κ × ν)} :
    valueAt k b = none ↔ ∀ v, b ≠ some (k, v) := by
  rw [Option.eq_none_iff_forall_ne_some]
  simp only [ne_eq, valueAt_eq_some_iff]

theorem foldl_learn (f : ε → Option (κ × ν)) (es : List ε) (c : κ → Option ν) (k : κ) :
    es.foldl (fun c e => learn c (f e)) c k = (c k).or (es.findSome? fun e => valueAt k (f e)) := by
  induction es generalizing c with
  | nil => simp
  | cons e es ih =>
    rw [List.foldl_cons, ih, List.findSome?_cons, learn, Option.or_assoc]
    cases valueAt k (f e) <;> rfl

/-- The earliest event that binds `k` decides its value. -/
theorem foldl_learn_eq_some_iff (f : ε → Option (κ × ν)) (es : List ε) (k : κ) (v : ν) :
    es.foldl (fun c e => learn c (f e)) (fun _ => none) k = some v ↔
      ∃ pre e post, es = pre ++ e :: post ∧ f e = some (k, v) ∧
        ∀ e' ∈ pre, ∀ v', f e' ≠ some (k, v') := by
  rw [foldl_learn, Option.none_or, List.findSome?_eq_some_iff]
  simp only [valueAt_eq_some_iff, valueAt_eq_none_iff]

theorem foldl_learn_eq_none_iff (f : ε → Option (κ × ν)) (es : List ε) (k : κ) :
    es.foldl (fun c e => learn c (f e)) (fun _ => none) k = none ↔
      ∀ e ∈ es, ∀ v, f e ≠ some (k, v) := by
  rw [foldl_learn, Option.none_or, List.findSome?_eq_none_iff]
  simp only [valueAt_eq_none_iff]

end FirstWins
