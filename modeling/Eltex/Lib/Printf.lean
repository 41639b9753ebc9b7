import Mathlib.Algebra.Order.Ring.Int
import Mathlib.Data.List.TakeWhile
import Mathlib.Tactic.Common

/-!
# Numbers in decimal

`decimal` and `formatInt` are what `%u` and `%d` print.  `scanInt` is `%d` of the kernel's `sscanf`: white space,
a minus sign, digits.  What has been printed is read back, up to the first byte behind it that is
no digit:

    (∀ b ∈ rest.head?, ¬ isDigit b) → scanInt (formatInt v ++ rest) = some (v, rest)   (scanInt_formatInt)
-/

namespace Printf

/-- Text of a string literal. -/
def ascii (s : String) : List UInt8 := s.toList.map fun c => UInt8.ofNat c.toNat

def decimal (n : Nat) : List UInt8 := (Nat.toDigits 10 n).map fun c => UInt8.ofNat c.toNat

def formatInt (v : Int) : List UInt8 := if v < 0 then 45 :: decimal v.natAbs else decimal v.natAbs

/-- `isdigit` -/
def isDigit (b : UInt8) : Bool := decide (48 ≤ b) && decide (b ≤ 57)

/-- `isspace` of the kernel, whose white space includes the no-break space. -/
def isSpace (b : UInt8) : Bool := b == 32 || (decide (9 ≤ b) && decide (b ≤ 13)) || b == 160

def digitVal (b : UInt8) : Nat := b.toNat - 48

/-- The number the digits at the front stand for, behind those already read, and what follows them. -/
def scanDigits (acc : Nat) : List UInt8 → Nat × List UInt8
  | [] => (acc, [])
  | b :: m => if isDigit b then scanDigits (10 * acc + digitVal b) m else (acc, b :: m)

/-- A number must begin with a digit. -/
def scanNat : List UInt8 → Option (Nat × List UInt8)
  | [] => none
  | b :: m => if isDigit b then some (scanDigits 0 (b :: m)) else none

def scanSigned : List UInt8 → Option (Int × List UInt8)
  | [] => none
  | b :: m =>
    if b = 45 then (scanNat m).map fun (n, rest) => (-n, rest)
    else (scanNat (b :: m)).map fun (n, rest) => (n, rest)

def scanInt (m : List UInt8) : Option (Int × List UInt8) := scanSigned (m.dropWhile isSpace)

/-- Conversion to `int`. -/
def toInt32 (v : Int) : Int := v.bmod 4294967296

/-- What stands behind a number is no part of it. -/
def Ends (rest : List UInt8) : Prop := ∀ b, rest.head? = some b → isDigit b = false

theorem toInt32_eq {v : Int} (h : -2147483648 ≤ v) (h' : v < 2147483648) : toInt32 v = v :=
  Int.bmod_eq_of_le h h'

/-! ## Digits -/

section
variable {n d : Nat} {b : UInt8} {m rest : List UInt8}

theorem toNat_ofNat_digitChar (h : d < 10) : (UInt8.ofNat d.digitChar.toNat).toNat = 48 + d := by
  rw [Nat.toNat_digitChar_of_lt_ten h, UInt8.toNat_ofNat']
  omega

theorem isDigit_iff : isDigit b = true ↔ 48 ≤ b.toNat ∧ b.toNat ≤ 57 := by
  rw [isDigit, Bool.and_eq_true, decide_eq_true_eq, decide_eq_true_eq, UInt8.le_iff_toNat_le,
    UInt8.le_iff_toNat_le]
  rfl

theorem isDigit_digitChar (h : d < 10) : isDigit (UInt8.ofNat d.digitChar.toNat) = true := by
  rw [isDigit_iff, toNat_ofNat_digitChar h]
  omega

theorem digitVal_digitChar (h : d < 10) : digitVal (UInt8.ofNat d.digitChar.toNat) = d := by
  rw [digitVal, toNat_ofNat_digitChar h]
  omega

theorem decimal_of_lt (h : n < 10) : decimal n = [UInt8.ofNat n.digitChar.toNat] := by
  rw [decimal, Nat.toDigits_of_lt_base h]
  rfl

theorem decimal_of_le (h : 10 ≤ n) :
    decimal n = decimal (n / 10) ++ [UInt8.ofNat (n % 10).digitChar.toNat] := by
  rw [decimal, Nat.toDigits_of_base_le (by decide) h, List.map_append]
  rfl

theorem decimal_ne_nil (n : Nat) : decimal n ≠ [] := by
  rw [decimal, ne_eq, List.map_eq_nil_iff]
  exact Nat.toDigits_ne_nil

theorem isDigit_of_mem_decimal (h : b ∈ decimal n) : isDigit b = true := by
  induction n using Nat.strong_induction_on with
  | _ n ih =>
    by_cases hn : n < 10
    · rw [decimal_of_lt hn, List.mem_singleton] at h
      rw [h]
      exact isDigit_digitChar hn
    · rw [decimal_of_le (by omega)] at h
      rcases List.mem_append.1 h with h | h
      · exact ih (n / 10) (by omega) h
      · rw [List.mem_singleton.1 h]
        exact isDigit_digitChar (by omega)

theorem length_decimal_le_iff {k : Nat} (h : 0 < k) : (decimal n).length ≤ k ↔ n < 10 ^ k := by
  rw [decimal, List.length_map]
  exact Nat.length_toDigits_le_iff (by decide) h

theorem isDigit_head_decimal (n : Nat) (rest : List UInt8) :
    ∃ b t, decimal n ++ rest = b :: t ∧ isDigit b = true := by
  obtain ⟨b, t, hbt⟩ := List.exists_cons_of_ne_nil (decimal_ne_nil n)
  have hmem : b ∈ decimal n := by
    rw [hbt]
    exact List.mem_cons_self
  exact ⟨b, t ++ rest, by rw [hbt, List.cons_append], isDigit_of_mem_decimal hmem⟩

/-! ## Reading what was printed -/

theorem scanDigits_of_ends (acc : Nat) (h : Ends rest) : scanDigits acc rest = (acc, rest) := by
  cases rest with
  | nil => rfl
  | cons b rest => rw [scanDigits, h b rfl, if_neg Bool.false_ne_true]

/-- The digits of a number, most significant first, behind what has been read. -/
theorem scanDigits_decimal (acc n : Nat) (m : List UInt8) :
    ∃ k, scanDigits acc (decimal n ++ m) = scanDigits (acc * 10 ^ k + n) m := by
  induction n using Nat.strong_induction_on generalizing m with
  | _ n ih =>
    by_cases hn : n < 10
    · refine ⟨1, ?_⟩
      rw [decimal_of_lt hn, List.singleton_append, scanDigits, isDigit_digitChar hn, if_pos rfl,
        digitVal_digitChar hn, pow_one, Nat.mul_comm]
    · have hd : n % 10 < 10 := Nat.mod_lt n (by decide)
      obtain ⟨k, hk⟩ := ih (n / 10) (by omega) (UInt8.ofNat (n % 10).digitChar.toNat :: m)
      refine ⟨k + 1, ?_⟩
      rw [decimal_of_le (by omega), List.append_assoc, List.singleton_append, hk, scanDigits,
        isDigit_digitChar hd, if_pos rfl, digitVal_digitChar hd]
      congr 1
      have hsplit := Nat.div_add_mod n 10
      rw [pow_succ, Nat.mul_add, ← Nat.mul_assoc, Nat.mul_comm 10 acc, Nat.mul_assoc acc,
        Nat.mul_comm 10, Nat.add_assoc, hsplit]

theorem scanNat_decimal (n : Nat) (h : Ends rest) : scanNat (decimal n ++ rest) = some (n, rest) := by
  obtain ⟨b, t, hbt, hb⟩ := isDigit_head_decimal n rest
  obtain ⟨k, hk⟩ := scanDigits_decimal 0 n rest
  rw [hbt, scanNat, if_pos hb, ← hbt, hk, Nat.zero_mul, Nat.zero_add, scanDigits_of_ends n h]

theorem not_isSpace_of_isDigit (h : isDigit b = true) : isSpace b = false := by
  obtain ⟨hlo, hhi⟩ := isDigit_iff.1 h
  have hne : b ≠ 32 ∧ b ≠ 160 := by
    constructor <;> rintro rfl <;> revert hlo hhi <;> decide
  have hle : ¬ b ≤ 13 := by
    rw [UInt8.le_iff_toNat_le]
    show ¬ b.toNat ≤ 13
    omega
  simp [isSpace, hne, hle]

/-- **What has been printed is read back.** -/
theorem scanInt_formatInt (v : Int) (h : Ends rest) : scanInt (formatInt v ++ rest) = some (v, rest) := by
  by_cases hv : v < 0
  · rw [formatInt, if_pos hv, List.cons_append, scanInt, List.dropWhile_cons_of_neg (by decide), scanSigned,
      if_pos rfl, scanNat_decimal _ h, Option.map_some]
    simp only
    congr 2
    omega
  · obtain ⟨b, t, hbt, hb⟩ := isDigit_head_decimal v.natAbs rest
    have hspace : ¬ isSpace b = true := by
      rw [not_isSpace_of_isDigit hb]
      exact Bool.false_ne_true
    have hminus : b ≠ 45 := by
      rintro rfl
      exact absurd hb (by decide)
    rw [formatInt, if_neg hv, scanInt, hbt, List.dropWhile_cons_of_neg hspace, scanSigned, if_neg hminus, ← hbt,
      scanNat_decimal _ h, Option.map_some]
    simp only
    congr 2
    omega

theorem scanInt_decimal (n : Nat) (h : Ends rest) : scanInt (decimal n ++ rest) = some ((n : Int), rest) :=
  scanInt_formatInt n h

/-! ## Numbers cut short -/

theorem length_decimal_of_le (h : 10 ≤ n) : (decimal n).length = (decimal (n / 10)).length + 1 := by
  rw [decimal_of_le h, List.length_append, List.length_singleton]

/-- The first digits of a number stand for the number without its last ones. -/
theorem take_decimal {k j : Nat} (hk : 0 < k) (h : (decimal n).length = k + j) :
    (decimal n).take k = decimal (n / 10 ^ j) := by
  induction j generalizing n with
  | zero =>
    have hle : (decimal n).length ≤ k := h.le
    rw [List.take_of_length_le hle, pow_zero, Nat.div_one]
  | succ j ih =>
    have hn : 10 ≤ n := by
      by_contra hlt
      rw [decimal_of_lt (by omega), List.length_singleton] at h
      omega
    have hlen := length_decimal_of_le hn
    rw [decimal_of_le hn, List.take_append_of_le_length (by omega), ih (by omega), Nat.div_div_eq_div_mul,
      pow_succ, Nat.mul_comm]

/-! ## Strings -/

theorem ends_nil : Ends [] := by
  intro b hb
  cases hb

/-- A NUL ends a number. -/
theorem ends_zero (m : List UInt8) : Ends (0 :: m) := by
  intro b hb
  rw [← Option.some.inj hb]
  rfl

theorem scanDigits_append_zero (acc : Nat) (m rest : List UInt8) :
    (scanDigits acc (m ++ 0 :: rest)).1 = (scanDigits acc m).1 := by
  induction m generalizing acc with
  | nil => rw [List.nil_append, scanDigits_of_ends acc (ends_zero rest), scanDigits]
  | cons b m ih =>
    rw [List.cons_append, scanDigits, scanDigits]
    split
    · exact ih _
    · rfl

theorem scanNat_append_zero (m rest : List UInt8) :
    (scanNat (m ++ 0 :: rest)).map Prod.fst = (scanNat m).map Prod.fst := by
  cases m with
  | nil => rfl
  | cons b m =>
    rw [List.cons_append, scanNat, scanNat, ← List.cons_append]
    split
    · rw [Option.map_some, Option.map_some, scanDigits_append_zero]
    · rfl

/-- **Nothing behind the NUL** is read. -/
theorem scanInt_append_zero (m rest : List UInt8) :
    (scanInt (m ++ 0 :: rest)).map Prod.fst = (scanInt m).map Prod.fst := by
  have hdrop : (m ++ 0 :: rest).dropWhile isSpace = m.dropWhile isSpace ++ 0 :: rest := by
    induction m with
    | nil => rfl
    | cons b m ih =>
      rw [List.cons_append, List.dropWhile_cons, List.dropWhile_cons]
      split
      · exact ih
      · rfl
  rw [scanInt, scanInt, hdrop]
  cases m.dropWhile isSpace with
  | nil => rfl
  | cons b t =>
    rw [List.cons_append, scanSigned, scanSigned]
    split
    · have h := congrArg (Option.map fun n : Nat => -(n : Int)) (scanNat_append_zero t rest)
      rw [Option.map_map, Option.map_map] at h ⊢
      exact h
    · have h := congrArg (Option.map fun n : Nat => (n : Int)) (scanNat_append_zero (b :: t) rest)
      rw [Option.map_map, Option.map_map] at h ⊢
      exact h

end

end Printf
