import Eltex.Lib.CString
import Eltex.Lib.Printf
import Eltex.Lib.ReusedBuffer

/-!
# The line `show_progress` draws

The text goes by `sprintf` into an array as long as the window is wide, is filled up with blanks from
`strlen` on, and is drawn byte by byte.  What is seen is the text, cut off or filled up, in every case;
but nothing keeps the text within the array, and bytes behind it survive just when it is shorter than the
window is wide (`progressLine`).
-/

namespace Eltex.TextManager

open CString Printf ReusedBuffer

/-- `%.3d`: at least so many digits -/
def formatPrecision (precision : Nat) (v : Int) : List UInt8 :=
  (if v < 0 then [45] else []) ++ List.replicate (precision - (decimal v.natAbs).length) 48 ++ decimal v.natAbs

/-- The format of `show_progress`; the quotes are 39. -/
def statusText (percent : Int) (source destination : List UInt8) : List UInt8 :=
  ascii "[" ++ formatPrecision 3 percent ++ ascii "]Copying: " ++ 39 :: cstr source ++ 39 :: ascii " to " ++
    39 :: cstr destination ++ [39]

/-- `sprintf(status, "%s", text)` for the memory from `status` on -/
def sprintf (status text : List UInt8) : List UInt8 := text ++ 0 :: status.drop (text.length + 1)

/-- The first loop: blanks from `strlen(status)` on. -/
def fillUp (status : List UInt8) (width : Nat) : List UInt8 :=
  (List.range' (strlen status) (width - strlen status)).foldl (fun m i => m.set i 32) status

/-- A character on the screen; those of the part that is done are drawn in the second pair of colours. -/
structure Cell where
  char : UInt8
  filled : Bool
deriving Repr, DecidableEq

/-- The memory from `status` on when the line is drawn. -/
def statusMem (status : List UInt8) (width : Nat) (percent : Int) (source destination : List UInt8) : List UInt8 :=
  fillUp (sprintf status (statusText percent source destination)) width

/-- The second loop.  `fill`, a number of columns, is computed in floating point. -/
def drawLine (status : List UInt8) (width fill : Nat) (percent : Int) (source destination : List UInt8) :
    List Cell :=
  let status := statusMem status width percent source destination
  (List.range width).map fun i => ⟨status.getD i 0, decide (i < fill)⟩

/-! ## The text -/

theorem zero_not_mem_decimal (n : Nat) : 0 ∉ decimal n :=
  fun h => absurd (isDigit_of_mem_decimal h) (by decide)

theorem zero_not_mem_cstr (m : List UInt8) : 0 ∉ cstr m := fun h => ne_zero_of_mem_cstr h rfl

theorem zero_not_mem_formatPrecision (precision : Nat) (v : Int) : 0 ∉ formatPrecision precision v := by
  rw [formatPrecision, List.mem_append, List.mem_append, not_or, not_or]
  refine ⟨⟨?_, ?_⟩, zero_not_mem_decimal _⟩
  · split <;> decide
  · intro h
    exact absurd (List.eq_of_mem_replicate h) (by decide)

theorem zero_not_mem_statusText (percent : Int) (source destination : List UInt8) :
    0 ∉ statusText percent source destination := by
  have hascii : 0 ∉ ascii "[" ∧ 0 ∉ ascii "]Copying: " ∧ 0 ∉ ascii " to " := by decide
  obtain ⟨h1, h2, h3⟩ := hascii
  simp only [statusText, List.mem_append, List.mem_cons, List.not_mem_nil, not_or]
  exact ⟨⟨⟨⟨⟨⟨h1, zero_not_mem_formatPrecision 3 percent⟩, h2⟩, by decide, zero_not_mem_cstr source⟩,
    by decide, h3⟩, by decide, zero_not_mem_cstr destination⟩, by decide, id⟩

/-- Three digits for what can be a percentage. -/
theorem length_formatPrecision {v : Int} (h0 : 0 ≤ v) (h : v < 1000) : (formatPrecision 3 v).length = 3 := by
  have hle : (decimal v.natAbs).length ≤ 3 := (length_decimal_le_iff (by decide)).2 (by omega)
  rw [formatPrecision, if_neg (by omega), List.nil_append, List.length_append, List.length_replicate]
  omega

theorem length_statusText (percent : Int) (source destination : List UInt8) :
    (statusText percent source destination).length =
      19 + (formatPrecision 3 percent).length + strlen source + strlen destination := by
  have hascii : (ascii "[").length = 1 ∧ (ascii "]Copying: ").length = 10 ∧ (ascii " to ").length = 4 := by decide
  obtain ⟨h1, h2, h3⟩ := hascii
  simp only [statusText, List.length_append, List.length_cons, List.length_nil, h1, h2, h3, strlen_eq]
  omega

/-! ## The array -/

section
variable {text status : List UInt8} {width : Nat}

theorem fill_eq (text rest : List UInt8) (n : Nat) (hn : n ≤ rest.length) :
    (List.range' text.length n).foldl (fun m i => m.set i 32) (text ++ rest) =
      text ++ List.replicate n 32 ++ rest.drop n := by
  induction n generalizing text rest with
  | zero => simp
  | succ n ih =>
    cases rest with
    | nil => cases hn
    | cons b rest =>
      have hset : (text ++ b :: rest).set text.length 32 = text ++ [32] ++ rest := by
        rw [List.set_append_right _ _ (Nat.le_refl _), Nat.sub_self, List.set_cons_zero]
        simp
      have hrest := ih (text ++ [32]) rest (Nat.le_of_succ_le_succ hn)
      rw [List.length_append, List.length_singleton] at hrest
      rw [List.range'_succ, List.foldl_cons, hset, hrest, List.replicate_succ, List.drop_succ_cons]
      simp

/-- The memory afterwards: the text, blanks as far as the window reaches, and what was there. -/
theorem fillUp_sprintf (htext : 0 ∉ text) (hroom : width + text.length < status.length) :
    fillUp (sprintf status text) width =
      if text.length < width then text ++ List.replicate (width - text.length) 32 ++ status.drop width
      else sprintf status text := by
  have hstrlen : strlen (sprintf status text) = text.length := by
    rw [strlen_eq, sprintf, cstr_append_of_not_mem htext, cstr_cons_zero, List.append_nil]
  rw [fillUp, hstrlen]
  split
  · next hlt =>
    rw [sprintf, fill_eq]
    · obtain ⟨k, hk⟩ := Nat.exists_eq_add_of_lt hlt
      have hk' : width - text.length = k + 1 := by omega
      rw [hk', List.drop_succ_cons, List.drop_drop]
      congr 2
      omega
    · rw [List.length_cons, List.length_drop]
      omega
  · next hle =>
    rw [Nat.sub_eq_zero_of_le (Nat.le_of_not_lt hle)]
    rfl

theorem le_length_fillUp (htext : 0 ∉ text) (hroom : width + text.length < status.length) :
    width ≤ (fillUp (sprintf status text) width).length := by
  rw [fillUp_sprintf htext hroom]
  split
  · rw [List.length_append, List.length_append, List.length_replicate]
    omega
  · rw [sprintf, List.length_append]
    omega

theorem map_char (fill : Nat) (h : width ≤ status.length) :
    ((List.range width).map fun i => (⟨status.getD i 0, decide (i < fill)⟩ : Cell)).map Cell.char =
      status.take width := by
  apply List.ext_getElem
  · rw [List.length_map, List.length_map, List.length_range, List.length_take, Nat.min_eq_left h]
  · intro i hi hi'
    rw [List.length_take] at hi'
    have hlt : i < status.length := by omega
    rw [List.getElem_map, List.getElem_map, List.getElem_range, List.getElem_take, List.getD_eq_getElem?_getD,
      List.getElem?_eq_getElem hlt, Option.getD_some]

/-- What is drawn of it. -/
theorem take_fillUp (htext : 0 ∉ text) (hroom : width + text.length < status.length) :
    (fillUp (sprintf status text) width).take width = (text ++ List.replicate width 32).take width := by
  rw [fillUp_sprintf htext hroom]
  split
  · next hlt =>
    have hlen : (text ++ List.replicate (width - text.length) 32).length = width := by
      rw [List.length_append, List.length_replicate]
      omega
    rw [List.take_append_of_le_length (by omega), List.take_of_length_le (by omega), List.take_append,
      List.take_of_length_le (Nat.le_of_lt hlt), List.take_replicate]
    congr 2
    omega
  · next hle =>
    rw [sprintf, List.take_append_of_le_length (by omega), List.take_append_of_le_length (by omega)]

/-- Where the text is too long, a NUL or a part of it is stored behind the array. -/
theorem drop_fillUp_iff (htext : 0 ∉ text) :
    (∀ status : List UInt8, width + text.length < status.length →
      (fillUp (sprintf status text) width).drop width = status.drop width) ↔ text.length < width := by
  constructor
  · intro h
    by_contra hle
    -- a byte other than NUL where the NUL goes
    have hroom : width + text.length < (List.replicate (width + text.length + 1) (1 : UInt8)).length := by
      rw [List.length_replicate]
      omega
    have hmem := h _ hroom
    rw [fillUp_sprintf htext hroom, if_neg hle] at hmem
    have hzero : (0 : UInt8) ∈ (sprintf (List.replicate (width + text.length + 1) 1) text).drop width := by
      rw [sprintf, List.drop_append_of_le_length (by omega)]
      exact List.mem_append_right _ List.mem_cons_self
    rw [hmem, List.drop_replicate] at hzero
    exact absurd (List.eq_of_mem_replicate hzero) (by decide)
  · intro hlt status hroom
    rw [fillUp_sprintf htext hroom, if_pos hlt]
    apply List.drop_left'
    rw [List.length_append, List.length_replicate]
    omega

end

/-- **The line.**  It shows the text, cut off or filled up to the width of the window, and what lies behind
the array is kept just when the text and its NUL fit into it. -/
theorem progressLine (width fill : Nat) (percent : Int) (source destination : List UInt8) :
    (∀ status : List UInt8, width + (statusText percent source destination).length < status.length →
      (drawLine status width fill percent source destination).map Cell.char =
        (statusText percent source destination ++ List.replicate width 32).take width) ∧
      ((∀ status : List UInt8, width + (statusText percent source destination).length < status.length →
        (statusMem status width percent source destination).drop width = status.drop width) ↔
          19 + (formatPrecision 3 percent).length + strlen source + strlen destination < width) := by
  have htext := zero_not_mem_statusText percent source destination
  refine ⟨fun status hroom => ?_, ?_⟩
  · rw [← take_fillUp htext hroom]
    exact map_char fill (le_length_fillUp htext hroom)
  · rw [← length_statusText]
    exact drop_fillUp_iff htext

/-- In a window of 24 columns it is one byte too long for two names of one letter. -/
theorem progressLine_narrow :
    ¬ ∀ status : List UInt8, 24 + (statusText 100 [97] [98]).length < status.length →
      (statusMem status 24 100 [97] [98]).drop 24 = status.drop 24 := by
  intro h
  have hlt := (progressLine 24 12 100 [97] [98]).2.1 h
  rw [length_formatPrecision (by decide) (by decide)] at hlt
  exact absurd hlt (by decide)

end Eltex.TextManager
