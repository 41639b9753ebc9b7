import Mathlib.Data.List.TakeWhile
import Mathlib.Tactic.Common

/-!
# The confirmation popup

`popup` draws its two buttons and reads one key code after another until Enter.  TAB switches the
button that is lit, and the lit one is the answer.  It stores each code of `wgetch` in a `char`, so
the codes that ncurses puts above 255 lose their high bits: F1 (265) is taken for TAB and F2 (266)
for Enter.

    asked codes    what the popup is for: Enter and TAB are the codes 10 and 9
    popup codes    what it does, with the same tests after the narrowing

Both say which button is lit before each key, so that a key that switches shows even where another
one switches back.  They agree exactly on the codes of which none is mistaken
(`popup_eq_asked_iff`).
-/

namespace Eltex.TextManager

/-- Conversion to a signed `char`. -/
def toChar (c : Int) : Int := c.bmod 256

/-- The button lit on each turn, and the answer with the codes not read, once a key ends the loop. -/
structure PopupRun where
  lit : List Int
  ended : Option (Int × List Int)
deriving Repr, DecidableEq

/-- One turn more, with a button lit, before the others. -/
def PopupRun.after (button : Int) (r : PopupRun) : PopupRun := { r with lit := button :: r.lit }

/-- The loop, with `current_button`; without a key it waits. -/
def popupLoop (currentButton : Int) : List Int → PopupRun
  | [] => ⟨[currentButton], none⟩
  | code :: codes =>
    let c := toChar code
    if c = 9 then (popupLoop ((currentButton + 1) % 2) codes).after currentButton
    else if c = 10 then ⟨[currentButton], some (currentButton, codes)⟩
    else (popupLoop currentButton codes).after currentButton

def popup (codes : List Int) : PopupRun := popupLoop 1 codes

/-! ## The answer asked for -/

/-- 1 for an even number of switches. -/
def buttonAfter (tabs : Nat) : Int := if tabs % 2 = 0 then 1 else 0

/-- After `tabs` switches, each turn up to the first Enter lights the button of the TABs before it,
and Enter answers with the last. -/
def askedAfter (tabs : Nat) (codes : List Int) : PopupRun where
  lit := (List.range ((codes.takeWhile (· ≠ 10)).length + 1)).map fun k =>
    buttonAfter (tabs + (codes.take k).count 9)
  ended :=
    match codes.dropWhile (· ≠ 10) with
    | [] => none
    | _ :: rest => some (buttonAfter (tabs + (codes.takeWhile (· ≠ 10)).count 9), rest)

def asked (codes : List Int) : PopupRun := askedAfter 0 codes

/-- The first code that is 10 in its low byte, if there is one, is Enter itself, and none before it is
9 in its low byte without being TAB. -/
def Unmistaken : List Int → Prop
  | [] => True
  | code :: codes => if toChar code = 10 then code = 10 else (toChar code = 9 → code = 9) ∧ Unmistaken codes

/-! ## What is asked, key by key -/

theorem buttonAfter_succ (n : Nat) : (buttonAfter n + 1) % 2 = buttonAfter (n + 1) := by
  unfold buttonAfter
  by_cases h : n % 2 = 0
  · rw [if_pos h, if_neg (by omega)]
    rfl
  · rw [if_neg h, if_pos (by omega)]
    rfl

theorem buttonAfter_ne_succ (n : Nat) : buttonAfter n ≠ buttonAfter (n + 1) := by
  unfold buttonAfter
  split <;> split <;> omega

theorem askedAfter_enter (n : Nat) (codes : List Int) :
    askedAfter n (10 :: codes) = ⟨[buttonAfter n], some (buttonAfter n, codes)⟩ := by
  unfold askedAfter
  rw [List.takeWhile_cons_of_neg (by decide), List.dropWhile_cons_of_neg (by decide)]
  rfl

/-- Any other code lets the loop go on, after a switch if it is TAB. -/
theorem askedAfter_cons (n : Nat) {code : Int} (codes : List Int) (h : code ≠ 10) :
    askedAfter n (code :: codes) =
      (askedAfter (if code = 9 then n + 1 else n) codes).after (buttonAfter n) := by
  have hcount : ∀ l : List Int, n + (code :: l).count 9 = (if code = 9 then n + 1 else n) + l.count 9 := by
    intro l
    split
    · next htab =>
      rw [htab, List.count_cons_self]
      omega
    · next htab => rw [List.count_cons_of_ne htab]
  unfold askedAfter PopupRun.after
  rw [List.takeWhile_cons_of_pos (by simpa using h), List.dropWhile_cons_of_pos (by simpa using h), hcount,
    List.length_cons, List.range_succ_eq_map, List.map_cons, List.map_map]
  congr 2
  apply List.map_congr_left
  intro k _
  show buttonAfter (n + (code :: codes.take k).count 9) = _
  rw [hcount]

/-- The first button lit is the current one. -/
theorem head_askedAfter (n : Nat) (codes : List Int) : (askedAfter n codes).lit.head? = some (buttonAfter n) := by
  unfold askedAfter
  rw [List.range_succ_eq_map]
  rfl

theorem head_popupLoop (b : Int) (codes : List Int) : (popupLoop b codes).lit.head? = some b := by
  cases codes with
  | nil => rfl
  | cons code codes =>
    unfold popupLoop
    simp only
    split
    · rfl
    · split <;> rfl

theorem after_inj {b : Int} {r r' : PopupRun} : r.after b = r'.after b ↔ r = r' := by
  constructor
  · intro h
    obtain ⟨hlit, hended⟩ := PopupRun.mk.inj h
    cases r
    cases r'
    obtain rfl := List.tail_eq_of_cons_eq hlit
    obtain rfl := hended
    rfl
  · exact congrArg _

/-! ## Against what is asked -/

/-- **One key.**  The loop does with every code what is asked just when none is mistaken. -/
theorem popupLoop_eq_askedAfter_iff (n : Nat) (codes : List Int) :
    popupLoop (buttonAfter n) codes = askedAfter n codes ↔ Unmistaken codes := by
  induction codes generalizing n with
  | nil => exact ⟨fun _ => trivial, fun _ => rfl⟩
  | cons code codes ih =>
    unfold popupLoop Unmistaken
    simp only
    by_cases hent : toChar code = 10
    · have htab : toChar code ≠ 9 := by
        rw [hent]
        decide
      rw [if_neg htab, if_pos hent, if_pos hent]
      constructor
      · intro h
        by_contra hne
        -- asked for is another turn
        rw [askedAfter_cons n codes hne] at h
        have hhead := head_askedAfter (if code = 9 then n + 1 else n) codes
        rw [← List.tail_eq_of_cons_eq (PopupRun.mk.inj h).1] at hhead
        cases hhead
      · rintro rfl
        rw [askedAfter_enter]
    · have hne : code ≠ 10 := by
        rintro rfl
        exact hent (by decide)
      rw [if_neg hent, if_neg hent, askedAfter_cons n codes hne]
      by_cases htab : toChar code = 9
      · rw [if_pos htab, after_inj, buttonAfter_succ]
        by_cases hcode : code = 9
        · rw [if_pos hcode, ih]
          exact ⟨fun h => ⟨fun _ => hcode, h⟩, fun h => h.2⟩
        · -- the button is switched that should not be
          rw [if_neg hcode]
          constructor
          · intro h
            have hhead := head_popupLoop (buttonAfter (n + 1)) codes
            rw [h, head_askedAfter, Option.some_inj] at hhead
            exact absurd hhead (buttonAfter_ne_succ n)
          · exact fun h => absurd (h.1 htab) hcode
      · have hcode : code ≠ 9 := by
          rintro rfl
          exact htab (by decide)
        rw [if_neg htab, after_inj, if_neg hcode, ih]
        exact ⟨fun h => ⟨fun h9 => absurd h9 htab, h⟩, fun h => h.2⟩

/-- **Confirmation.**  `popup` ends at the first Enter with the answer of the TABs before it, and lights
the buttons of these TABs on the way, exactly on the codes of which none is mistaken. -/
theorem popup_eq_asked_iff (codes : List Int) : popup codes = asked codes ↔ Unmistaken codes :=
  popupLoop_eq_askedAfter_iff 0 codes

/-- F2 confirms. -/
theorem popup_f2 : ¬ ∀ codes, popup codes = asked codes := by
  intro h
  have h266 := h [266]
  revert h266
  decide

example : popup [9, 65, 9, 10, 7] = ⟨[1, 0, 0, 1], some (1, [7])⟩ := by decide

/-- F1 twice answers as no F1 does, but has switched the button twice. -/
example : popup [265, 265, 10] ≠ asked [265, 265, 10] := by decide

end Eltex.TextManager
