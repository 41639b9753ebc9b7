import Mathlib.Data.List.TakeWhile
import Mathlib.Tactic.Common

/-!
# C strings in lists of bytes

A list is the memory from a `char *` on: whatever can be read there, the string,
its NUL and the bytes behind it.  `cstr` is the string itself; `strlen`,
`strcmp` and `strncpy` follow the loops of the C library and are reduced to it:

    strlen m = (cstr m).length                                     (strlen_eq)
    strcmp m n = 0 ↔ cstr m = cstr n                               (strcmp_eq_zero_iff)
    (cstr m).length < n → cstr (strncpy m n ++ t) = cstr m         (cstr_strncpy_append)

A list without a NUL stands for memory that ends before one is met.
-/

namespace CString

/-- The string at the head of `m`: its bytes before the first NUL. -/
def cstr (m : List UInt8) : List UInt8 := m.takeWhile (· != 0)

def strlen : List UInt8 → Nat
  | [] => 0
  | b :: m => if b = 0 then 0 else strlen m + 1

/-- The sign of the first difference, bytes taken as unsigned. -/
def strcmp : List UInt8 → List UInt8 → Int
  | [], [] => 0
  | [], b :: _ => if b = 0 then 0 else -1
  | a :: _, [] => if a = 0 then 0 else 1
  | a :: m, b :: n => if a ≠ b then (if a < b then -1 else 1) else if a = 0 then 0 else strcmp m n

/-- The `count` bytes stored at the destination: the source is not advanced past
its NUL, so the rest is filled with NULs; without one in reach none is stored. -/
def strncpy : List UInt8 → Nat → List UInt8
  | _, 0 => []
  | [], n + 1 => 0 :: strncpy [] n
  | b :: m, n + 1 => if b = 0 then 0 :: strncpy (b :: m) n else b :: strncpy m n

/-- How many bytes of the source `strncpy` looks at. -/
def strncpyReads : List UInt8 → Nat → Nat
  | _, 0 => 0
  | [], _ + 1 => 0
  | b :: m, n + 1 => if b = 0 then 1 else strncpyReads m n + 1

/-! ## `cstr` and `strlen` -/

@[simp] theorem cstr_nil : cstr [] = [] := rfl

@[simp] theorem cstr_cons_zero (m : List UInt8) : cstr (0 :: m) = [] := by
  simp [cstr]

theorem cstr_cons_of_ne {b : UInt8} (h : b ≠ 0) (m : List UInt8) : cstr (b :: m) = b :: cstr m := by
  simp [cstr, h]

theorem ne_zero_of_mem_cstr {b : UInt8} {m : List UInt8} (h : b ∈ cstr m) : b ≠ 0 := by
  have := List.mem_takeWhile_imp h
  simpa using this

theorem zero_not_mem_cstr (m : List UInt8) : 0 ∉ cstr m := fun h => ne_zero_of_mem_cstr h rfl

theorem cstr_eq_self {m : List UInt8} (h : 0 ∉ m) : cstr m = m := by
  rw [cstr, List.takeWhile_eq_self_iff]
  intro b hb
  simp only [bne_iff_ne]
  rintro rfl
  exact h hb

theorem cstr_isPrefix (m : List UInt8) : cstr m <+: m := List.takeWhile_prefix _

/-- Only what stands before the first NUL counts. -/
theorem cstr_append_zero {s : List UInt8} (h : 0 ∉ s) (t : List UInt8) : cstr (s ++ 0 :: t) = s := by
  induction s with
  | nil => simp
  | cons b s ih =>
    simp only [List.mem_cons, not_or] at h
    rw [List.cons_append, cstr_cons_of_ne (Ne.symm h.1), ih h.2]

theorem cstr_append_of_mem {m : List UInt8} (h : 0 ∈ m) (t : List UInt8) : cstr (m ++ t) = cstr m := by
  obtain ⟨s, u, rfl, hs⟩ := List.eq_append_cons_of_mem h
  rw [List.append_assoc, List.cons_append, cstr_append_zero hs, cstr_append_zero hs]

/-- A NUL ends what stands before it. -/
theorem cstr_append_nul (s t : List UInt8) : cstr (s ++ 0 :: t) = cstr s := by
  by_cases h : 0 ∈ s
  · exact cstr_append_of_mem h _
  · rw [cstr_append_zero h, cstr_eq_self h]

/-- Nothing behind a NUL is part of the string. -/
theorem cstr_append_cons_zero (s t : List UInt8) : cstr (s ++ 0 :: t) = cstr (s ++ [0]) := by
  rw [cstr_append_nul, cstr_append_nul]

theorem cstr_length_lt_of_mem {m : List UInt8} (h : 0 ∈ m) : (cstr m).length < m.length := by
  have hle := (cstr_isPrefix m).length_le
  rcases Nat.lt_or_eq_of_le hle with hlt | heq
  · exact hlt
  · rw [← (cstr_isPrefix m).eq_of_length heq] at h
    exact absurd h (zero_not_mem_cstr m)

/-- The string at the front of memory, with its NUL. -/
theorem cstr_append_zero_isPrefix {m : List UInt8} (h : 0 ∈ m) : cstr m ++ [0] <+: m := by
  induction m with
  | nil => exact absurd h List.not_mem_nil
  | cons b m ih =>
    by_cases hb : b = 0
    · rw [hb, cstr_cons_zero]
      exact List.prefix_append [0] m
    · rw [cstr_cons_of_ne hb, List.cons_append]
      apply List.cons_prefix_cons.2
      exact ⟨rfl, ih ((List.mem_cons.1 h).resolve_left (Ne.symm hb))⟩

theorem cstr_length_lt_iff {m : List UInt8} : (cstr m).length < m.length ↔ 0 ∈ m := by
  constructor
  · intro h
    apply Classical.byContradiction
    intro hz
    rw [cstr_eq_self hz] at h
    exact Nat.lt_irrefl _ h
  · exact cstr_length_lt_of_mem

theorem cstr_take (m : List UInt8) (n : Nat) : cstr (m.take n) = (cstr m).take n := by
  induction m generalizing n with
  | nil => rw [List.take_nil, cstr_nil, List.take_nil]
  | cons b m ih =>
    cases n with
    | zero => rfl
    | succ n =>
      rw [List.take_succ_cons]
      by_cases hb : b = 0
      · rw [hb, cstr_cons_zero, cstr_cons_zero, List.take_nil]
      · rw [cstr_cons_of_ne hb, cstr_cons_of_ne hb, ih, List.take_succ_cons]

/-- A string with a NUL behind it, at the front of memory. -/
theorem append_zero_isPrefix_iff {m w : List UInt8} (hm : 0 ∈ m) (hw : 0 ∉ w) : w ++ [0] <+: m ↔ cstr m = w := by
  constructor
  · rintro ⟨t, rfl⟩
    rw [List.append_assoc, List.singleton_append, cstr_append_zero hw]
  · rintro rfl
    exact cstr_append_zero_isPrefix hm

theorem strlen_eq (m : List UInt8) : strlen m = (cstr m).length := by
  induction m with
  | nil => rfl
  | cons b m ih =>
    unfold strlen
    split
    · next h => subst h; simp
    · next h => rw [cstr_cons_of_ne h, List.length_cons, ih]

/-! ## `strcmp` -/

theorem strcmp_cons_self {a : UInt8} (h : a ≠ 0) (m n : List UInt8) :
    strcmp (a :: m) (a :: n) = strcmp m n := by
  simp [strcmp, h]

theorem strcmp_cons_of_ne {a b : UInt8} (h : a ≠ b) (m n : List UInt8) :
    strcmp (a :: m) (b :: n) = if a < b then -1 else 1 := by
  simp [strcmp, h]

/-- `strcmp` orders memory by the strings at its head. -/
theorem compare_strcmp : ∀ m n : List UInt8, compare (strcmp m n) 0 = compare (cstr m) (cstr n)
  | [], [] => rfl
  | [], b :: n => by
    by_cases hb : b = 0
    · subst hb; simp [strcmp]
    · rw [cstr_cons_of_ne hb]
      simp only [strcmp, if_neg hb]
      rfl
  | a :: m, [] => by
    by_cases ha : a = 0
    · subst ha; simp [strcmp]
    · rw [cstr_cons_of_ne ha]
      simp only [strcmp, if_neg ha]
      rfl
  | a :: m, b :: n => by
    by_cases hab : a = b
    · subst hab
      by_cases ha : a = 0
      · subst ha; simp [strcmp]
      · rw [strcmp_cons_self ha, cstr_cons_of_ne ha, cstr_cons_of_ne ha, List.compare_cons_cons,
          Std.ReflOrd.compare_self, compare_strcmp m n]
        rfl
    · rw [strcmp_cons_of_ne hab]
      by_cases ha : a = 0
      · -- the shorter string is the smaller one
        subst ha
        rw [cstr_cons_zero, cstr_cons_of_ne (Ne.symm hab), if_pos (by grind)]
        rfl
      · by_cases hb : b = 0
        · subst hb
          rw [cstr_cons_zero, cstr_cons_of_ne ha, if_neg (by grind)]
          rfl
        · rw [cstr_cons_of_ne ha, cstr_cons_of_ne hb, List.compare_cons_cons]
          split
          · next h =>
            rw [Std.compare_eq_lt.2 h]
            rfl
          · next h =>
            have hgt : compare a b = .gt := Std.compare_eq_gt.2 (by grind)
            rw [hgt]
            rfl

theorem strcmp_eq_zero_iff (m n : List UInt8) : strcmp m n = 0 ↔ cstr m = cstr n := by
  rw [← Std.LawfulEqOrd.compare_eq_iff_eq, compare_strcmp, Std.LawfulEqOrd.compare_eq_iff_eq]

/-- The order `strcmp` puts on memory. -/
def cmpStr (m n : List UInt8) : Ordering := compare (cstr m) (cstr n)

instance : Std.TransCmp cmpStr where
  eq_swap {m n} := by
    show compare (cstr m) (cstr n) = (compare (cstr n) (cstr m)).swap
    exact Std.OrientedCmp.eq_swap
  isLE_trans {m n k} := by
    show (compare (cstr m) (cstr n)).isLE → (compare (cstr n) (cstr k)).isLE →
      (compare (cstr m) (cstr k)).isLE
    exact Std.TransCmp.isLE_trans

theorem cmpStr_eq_iff (m n : List UInt8) : cmpStr m n = .eq ↔ cstr m = cstr n :=
  Std.LawfulEqOrd.compare_eq_iff_eq

theorem strcmp_neg_iff (m n : List UInt8) : strcmp m n < 0 ↔ cmpStr m n = .lt := by
  rw [cmpStr, ← compare_strcmp, Std.compare_eq_lt]

theorem strcmp_pos_iff (m n : List UInt8) : 0 < strcmp m n ↔ cmpStr m n = .gt := by
  rw [cmpStr, ← compare_strcmp, Std.compare_eq_gt]

/-! ## `strncpy` -/

theorem strncpy_nil (n : Nat) : strncpy [] n = List.replicate n 0 := by
  induction n with
  | zero => rfl
  | succ n ih => rw [strncpy, ih, List.replicate_succ]

theorem strncpy_cons_zero (m : List UInt8) (n : Nat) : strncpy (0 :: m) n = List.replicate n 0 := by
  induction n with
  | zero => rfl
  | succ n ih => rw [strncpy, if_pos rfl, ih, List.replicate_succ]

/-- The copy is the string, cut at `n` bytes or filled up to them. -/
theorem strncpy_eq : ∀ (m : List UInt8) (n : Nat),
    strncpy m n = (cstr m).take n ++ List.replicate (n - (cstr m).length) 0
  | _, 0 => by simp [strncpy]
  | [], n + 1 => by rw [strncpy_nil]; simp
  | b :: m, n + 1 => by
    by_cases hb : b = 0
    · subst hb; rw [strncpy_cons_zero]; simp
    · rw [strncpy, if_neg hb, strncpy_eq m n, cstr_cons_of_ne hb]
      simp

@[simp] theorem strncpy_length (m : List UInt8) (n : Nat) : (strncpy m n).length = n := by
  rw [strncpy_eq]
  simp
  omega

/-- A string shorter than the buffer comes out of it whatever lies behind the buffer. -/
theorem cstr_strncpy_append {m : List UInt8} {n : Nat} (h : (cstr m).length < n) (t : List UInt8) :
    cstr (strncpy m n ++ t) = cstr m := by
  obtain ⟨k, hk⟩ : ∃ k, n - (cstr m).length = k + 1 := ⟨n - (cstr m).length - 1, by omega⟩
  rw [strncpy_eq, List.take_of_length_le (by omega), hk, List.replicate_succ, List.append_assoc,
    List.cons_append, cstr_append_zero (zero_not_mem_cstr m)]

theorem zero_mem_strncpy_iff (m : List UInt8) (n : Nat) : 0 ∈ strncpy m n ↔ (cstr m).length < n := by
  rw [strncpy_eq, List.mem_append, List.mem_replicate]
  constructor
  · rintro (h | ⟨h, -⟩)
    · exact absurd (List.mem_of_mem_take h) (zero_not_mem_cstr m)
    · omega
  · intro h
    exact Or.inr ⟨by omega, rfl⟩

/-- It stops at the NUL, which it looks at, or when the buffer is full. -/
theorem strncpyReads_eq : ∀ {m : List UInt8} {n : Nat}, n ≤ m.length →
    strncpyReads m n = min ((cstr m).length + 1) n
  | _, 0, _ => by simp [strncpyReads]
  | [], n + 1, h => by simp at h
  | b :: m, n + 1, h => by
    by_cases hb : b = 0
    · subst hb
      simp [strncpyReads]
    · have ih := strncpyReads_eq (m := m) (n := n) (by simpa using h)
      rw [strncpyReads, if_neg hb, ih, cstr_cons_of_ne hb, List.length_cons]
      omega

/-- The copy depends on no other byte. -/
theorem strncpy_congr : ∀ {m m' : List UInt8} {n : Nat}, m.length = m'.length →
    (∀ i < strncpyReads m n, m[i]? = m'[i]?) → strncpy m n = strncpy m' n
  | _, _, 0, _, _ => by rw [strncpy, strncpy]
  | [], [], _ + 1, _, _ => rfl
  | [], _ :: _, _ + 1, hl, _ => by simp at hl
  | _ :: _, [], _ + 1, hl, _ => by simp at hl
  | b :: m, b' :: m', n + 1, hl, h => by
    have hpos : 0 < strncpyReads (b :: m) (n + 1) := by
      unfold strncpyReads
      split <;> omega
    obtain rfl : b = b' := by simpa using h 0 hpos
    by_cases hb : b = 0
    · subst hb
      rw [strncpy_cons_zero, strncpy_cons_zero]
    · rw [strncpy, strncpy, if_neg hb, if_neg hb]
      congr 1
      refine strncpy_congr (by simpa using hl) fun i hi => ?_
      have := h (i + 1) (by rw [strncpyReads, if_neg hb]; omega)
      simpa using this

end CString
