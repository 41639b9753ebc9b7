import Mathlib.Data.List.Chain
import Mathlib.Tactic.Common

/-!
# Removing while scanning

A loop that steps over an array and removes elements as it goes, with an index
that advances in any case, does not look at the element after a removed one: it
has moved to the index just left behind.  `scan` lists the elements that are
`hit`, when those that also `leave` are removed so.

* `scan_eq_filter_iff`: no hit is missed exactly when none stands directly
  behind an element that is hit and leaves.
* `scan_append`: a scan goes on behind a list as the list leaves it (`skips`).
-/

namespace SkipScan

variable {α : Type} (hit leave : α → Bool)

/-- The first argument says that the next element is skipped. -/
def scan : Bool → List α → List α
  | _, [] => []
  | true, _ :: xs => scan false xs
  | false, x :: xs => if hit x then x :: scan (leave x) xs else scan false xs

/-- Whether the scan would skip what comes next. -/
def skips : Bool → List α → Bool
  | b, [] => b
  | true, _ :: xs => skips false xs
  | false, x :: xs => skips (hit x && leave x) xs

variable {hit leave}

theorem scan_append (b : Bool) (xs ys : List α) :
    scan hit leave b (xs ++ ys) = scan hit leave b xs ++ scan hit leave (skips hit leave b xs) ys := by
  induction xs generalizing b with
  | nil => rfl
  | cons x xs ih =>
    cases b with
    | true => exact ih false
    | false =>
      rw [List.cons_append, scan, scan, skips]
      cases hit x with
      | true =>
        rw [if_pos rfl, if_pos rfl, ih, Bool.true_and]
        rfl
      | false =>
        rw [if_neg Bool.false_ne_true, if_neg Bool.false_ne_true, ih, Bool.false_and]

/-- An element alone is missed if it is skipped. -/
theorem scan_singleton_eq_nil_iff {b : Bool} {x : α} : scan hit leave b [x] = [] ↔ (hit x → b) := by
  cases b with
  | true => exact ⟨fun _ _ => rfl, fun _ => rfl⟩
  | false =>
    rw [scan]
    split
    · next hx => exact ⟨fun h => (nomatch h), fun h => absurd (h hx) Bool.false_ne_true⟩
    · next hx => exact ⟨fun _ h => absurd h hx, fun _ => rfl⟩

theorem scan_sublist (b : Bool) (xs : List α) : (scan hit leave b xs).Sublist (xs.filter hit) := by
  induction xs generalizing b with
  | nil => exact List.Sublist.refl _
  | cons x xs ih =>
    cases b with
    | true => exact (ih false).trans ((List.sublist_cons_self x xs).filter hit)
    | false =>
      rw [scan, List.filter_cons]
      split
      · exact (ih _).cons_cons x
      · exact ih false

/-- No element that is hit stands directly behind one that is hit and leaves. -/
def Apart (hit leave : α → Bool) (xs : List α) : Prop :=
  xs.IsChain fun x y => hit x → leave x → ¬ hit y

theorem apart_cons {x : α} {xs : List α} :
    Apart hit leave (x :: xs) ↔
      (hit x → leave x → ∀ y ∈ xs.head?, ¬ hit y) ∧ Apart hit leave xs := by
  rw [Apart, List.isChain_cons]
  exact and_congr_left' ⟨fun h hx hl y hy => h y hy hx hl, fun h y hy hx hl => h hx hl y hy⟩

/-- **What a scan misses.** -/
theorem scan_eq_filter_iff (b : Bool) (xs : List α) :
    scan hit leave b xs = xs.filter hit ↔
      Apart hit leave xs ∧ (b → ∀ y ∈ xs.head?, ¬ hit y) := by
  induction xs generalizing b with
  | nil => exact ⟨fun _ => ⟨List.IsChain.nil, fun _ y hy => absurd hy (by simp)⟩, fun _ => rfl⟩
  | cons x xs ih =>
    rw [apart_cons, List.filter_cons, List.head?_cons]
    simp only [Option.mem_some_iff, forall_eq']
    cases hx : hit x with
    | false =>
      have hscan : scan hit leave b (x :: xs) = scan hit leave false xs := by
        cases b with
        | true => rfl
        | false => rw [scan, hx, if_neg Bool.false_ne_true]
      rw [hscan, if_neg Bool.false_ne_true, ih]
      simp
    | true =>
      rw [if_pos rfl]
      cases b with
      | true =>
        -- the element skipped is missed
        have hlen := (@scan_sublist α hit leave false xs).length_le
        refine ⟨fun h => ?_, fun h => absurd rfl (h.2 rfl)⟩
        have hcons := congrArg List.length h
        rw [List.length_cons] at hcons
        change (scan hit leave false xs).length = _ at hcons
        omega
      | false =>
        rw [scan, hx, if_pos rfl, List.cons.injEq, ih]
        simp [and_comm]

/-- After a scan that misses nothing, what comes next is skipped if the last element is removed. -/
theorem skips_eq {b : Bool} {xs : List α} (h : Apart hit leave xs) (hb : b → ∀ y ∈ xs.head?, ¬ hit y) :
    skips hit leave b xs = (xs.getLast?.map fun x => hit x && leave x).getD b := by
  induction xs generalizing b with
  | nil => rfl
  | cons x xs ih =>
    obtain ⟨hx, hxs⟩ := apart_cons.1 h
    have hskips : skips hit leave b (x :: xs) = skips hit leave (hit x && leave x) xs := by
      cases b with
      | true =>
        have hx : hit x = false := by simpa using hb rfl x
        rw [skips, hx, Bool.false_and]
      | false => rfl
    rw [hskips, ih hxs fun hb' => by
      rw [Bool.and_eq_true] at hb'
      exact hx hb'.1 hb'.2]
    cases xs with
    | nil => rfl
    | cons y ys =>
      rw [List.getLast?_cons_cons]
      cases hlast : (y :: ys).getLast? with
      | none => exact absurd hlast (by simp)
      | some z => rfl

end SkipScan
