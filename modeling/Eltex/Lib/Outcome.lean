import Mathlib.Data.List.Induction
import Mathlib.Tactic.Common

/-!
# Computations that can fail

`Ends E P x`: if `x` fails then with an error in `E`, and otherwise with a value
in `P`.  A loop that keeps `P` and fails only with errors in `E` ends so
(`ends_foldlM`), and a computation that is followed by another ends as the
second does from every value the first can give (`ends_bind`).
-/

namespace Outcome

variable {ε α β : Type}

def Ends (E : ε → Prop) (P : α → Prop) : Except ε α → Prop
  | .error e => E e
  | .ok a => P a

@[simp] theorem ends_ok {E : ε → Prop} {P : α → Prop} {a : α} : Ends E P (.ok a) ↔ P a := Iff.rfl

@[simp] theorem ends_error {E : ε → Prop} {P : α → Prop} {e : ε} : Ends E P (.error e) ↔ E e := Iff.rfl

theorem ends_bind {E : ε → Prop} {P : α → Prop} {Q : β → Prop} {x : Except ε α} {f : α → Except ε β}
    (hx : Ends E P x) (hf : ∀ a, P a → Ends E Q (f a)) : Ends E Q (x.bind f) := by
  cases x with
  | error e => exact hx
  | ok a => exact hf a hx

theorem ends_mono {E : ε → Prop} {P Q : α → Prop} {x : Except ε α} (hx : Ends E P x)
    (h : ∀ a, P a → Q a) : Ends E Q x := by
  cases x with
  | error e => exact hx
  | ok a => exact h a hx

/-- **Loop rule.** -/
theorem ends_foldlM {E : ε → Prop} {P : α → Prop} {step : α → β → Except ε α}
    (hstep : ∀ a b, P a → Ends E P (step a b)) {a : α} (ha : P a) (bs : List β) :
    Ends E P (bs.foldlM step a) := by
  induction bs generalizing a with
  | nil => exact ha
  | cons b bs ih =>
    rw [List.foldlM_cons]
    exact ends_bind (hstep a b ha) fun a' ha' => ih ha'

theorem ok_of_toOption {x : Except ε α} {f : α → β} {b : β} (h : x.toOption.map f = some b) :
    ∃ a, x = .ok a ∧ f a = b := by
  cases x with
  | error e => cases h
  | ok a => exact ⟨a, rfl, Option.some.inj h⟩

end Outcome
