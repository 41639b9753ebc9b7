import Eltex.Lib.CString
import Mathlib.Algebra.Ring.Int.Defs

/-!
# Strings copied from user memory

`strncpy_from_user(dst, src, count)` is the kernel's.  What is documented of it
is a `StrncpyFromUser`; how it copies is not, so every result about its callers
holds of any:

* `whole`: a string that ends within `count` bytes is copied with its NUL, and
  its length returned.  What stands behind the NUL afterwards is left open: a
  copy word by word may store there.
* `cut`: of a longer one `count` bytes are copied, and `count` is returned.
* `failed`: when memory ends first the result is `-EFAULT`, and some of the
  bytes before that may have been copied.
* `length`, `beyond`, `reads`: neither more is stored than `count` bytes nor
  more looked at.

`byteCopy` copies byte by byte.
-/

namespace UserCopy

open CString

/-- `EFAULT` -/
def eFault : Int := 14

/-- User memory from a `char __user *` on, as far as it can be read. -/
structure UserString where
  bytes : List UInt8
  /-- how many of the bytes a copy that fails has stored -/
  copied : Nat
deriving Repr, DecidableEq

/-- `front` stored at the start of `back`. -/
def storeFront (front back : List UInt8) : List UInt8 := front ++ back.drop front.length

/-- The result of a copy and its destination afterwards, by the destination, the source and the
count, for a destination with room for `count` bytes. -/
structure StrncpyFromUser where
  copy : List UInt8 → UserString → Nat → Int × List UInt8
  length : ∀ {dst : List UInt8} (src : UserString) {count : Nat}, count ≤ dst.length →
    (copy dst src count).2.length = dst.length
  beyond : ∀ {dst : List UInt8} (src : UserString) {count i : Nat}, count ≤ dst.length → count ≤ i →
    (copy dst src count).2[i]? = dst[i]?
  whole : ∀ {dst : List UInt8} {src : UserString} {count : Nat} {s : List UInt8}, count ≤ dst.length →
    0 ∉ s → s.length < count → s ++ [0] <+: src.bytes →
    (copy dst src count).1 = s.length ∧ s ++ [0] <+: (copy dst src count).2
  cut : ∀ {dst : List UInt8} {src : UserString} {count : Nat}, count ≤ dst.length →
    0 ∉ src.bytes.take count → count ≤ src.bytes.length →
    (copy dst src count).1 = count ∧ src.bytes.take count <+: (copy dst src count).2
  failed : ∀ {dst : List UInt8} {src : UserString} {count : Nat}, count ≤ dst.length →
    0 ∉ src.bytes → src.bytes.length < count →
    copy dst src count = (-eFault, storeFront (src.bytes.take src.copied) dst)
  reads : ∀ (dst : List UInt8) {src src' : UserString} {count : Nat},
    src'.bytes.take count = src.bytes.take count → src'.copied = src.copied →
    copy dst src' count = copy dst src count

/-! ## Storing at the front -/

theorem length_storeFront {front back : List UInt8} (h : front.length ≤ back.length) :
    (storeFront front back).length = back.length := by
  rw [storeFront, List.length_append, List.length_drop]
  omega

/-- Storing keeps what stands behind. -/
theorem getElem?_storeFront {front back : List UInt8} {i : Nat} (h : front.length ≤ i) :
    (storeFront front back)[i]? = back[i]? := by
  rw [storeFront, List.getElem?_append_right h, List.getElem?_drop]
  congr 1
  omega

theorem drop_storeFront (front back : List UInt8) :
    (storeFront front back).drop front.length = back.drop front.length := by
  rw [storeFront, List.drop_left]

theorem storeFront_eq_self_iff {front back : List UInt8} : storeFront front back = back ↔ front <+: back := by
  constructor
  · intro h
    rw [← h]
    exact List.prefix_append _ _
  · rintro ⟨t, rfl⟩
    rw [storeFront, List.drop_left]

/-! ## What a copy can come to -/

section
variable {K : StrncpyFromUser} {dst m : List UInt8} {src : UserString} {count : Nat}

inductive Copied (dst : List UInt8) (src : UserString) (count : Nat) : Int × List UInt8 → Prop
  | whole (s t : List UInt8) (nul : 0 ∉ s) (length : s.length < count) (bytes : s ++ [0] <+: src.bytes) :
      Copied dst src count (s.length, s ++ 0 :: t)
  | cut (t : List UInt8) (nul : 0 ∉ src.bytes.take count) (length : count ≤ src.bytes.length) :
      Copied dst src count (count, src.bytes.take count ++ t)
  | failed (nul : 0 ∉ src.bytes) (length : src.bytes.length < count) :
      Copied dst src count (-eFault, storeFront (src.bytes.take src.copied) dst)

/-- A string shorter than the limit is copied. -/
theorem StrncpyFromUser.copy_string (K : StrncpyFromUser) (hroom : count ≤ dst.length) (hnul : 0 ∉ m)
    (hlength : m.length < count) (hbytes : m ++ [0] <+: src.bytes) :
    ∃ t, K.copy dst src count = ((m.length : Int), m ++ 0 :: t) := by
  obtain ⟨hret, t, ht⟩ := K.whole hroom hnul hlength hbytes
  refine ⟨t, Prod.ext hret ?_⟩
  rw [← ht, List.append_assoc, List.singleton_append]

theorem StrncpyFromUser.copied (K : StrncpyFromUser) (hroom : count ≤ dst.length) (src : UserString) :
    Copied dst src count (K.copy dst src count) := by
  by_cases hmem : 0 ∈ src.bytes.take count
  · -- the string before the first NUL
    have hlt := cstr_length_lt_of_mem hmem
    rw [List.length_take] at hlt
    have hbytes := (cstr_append_zero_isPrefix hmem).trans (List.take_prefix _ _)
    obtain ⟨t, ht⟩ := K.copy_string hroom (zero_not_mem_cstr _) (by omega) hbytes
    rw [ht]
    exact .whole _ t (zero_not_mem_cstr _) (by omega) hbytes
  · by_cases hle : count ≤ src.bytes.length
    · obtain ⟨hret, t, ht⟩ := K.cut hroom hmem hle
      rw [← Prod.eta (K.copy dst src count), hret, ← ht]
      exact .cut t hmem hle
    · have hnul : 0 ∉ src.bytes := by
        rwa [List.take_of_length_le (by omega)] at hmem
      rw [K.failed hroom hnul (by omega)]
      exact .failed hnul (by omega)

theorem exists_copied (K : StrncpyFromUser) (hroom : count ≤ dst.length) (src : UserString) :
    ∃ r, K.copy dst src count = r ∧ Copied dst src count r := ⟨_, rfl, K.copied hroom src⟩

/-- No more is returned than may be copied. -/
theorem StrncpyFromUser.copy_fst_le (K : StrncpyFromUser) (hroom : count ≤ dst.length) (src : UserString) :
    (K.copy dst src count).1 ≤ count := by
  obtain ⟨r, hr, hcopied⟩ := exists_copied K hroom src
  rw [hr]
  cases hcopied with
  | whole s t nul length bytes =>
    show (s.length : Int) ≤ count
    omega
  | cut t nul length => exact Int.le_refl _
  | failed nul length =>
    show -eFault ≤ (count : Int)
    have hfault : eFault = 14 := rfl
    omega

/-- What is returned was read. -/
theorem StrncpyFromUser.copy_fst_le_length (K : StrncpyFromUser) (hroom : count ≤ dst.length)
    (h : 0 ≤ (K.copy dst src count).1) : (K.copy dst src count).1 ≤ src.bytes.length := by
  obtain ⟨r, hr, hcopied⟩ := exists_copied K hroom src
  rw [hr] at h ⊢
  cases hcopied with
  | whole s t nul length bytes =>
    have hle := bytes.length_le
    rw [List.length_append, List.length_singleton] at hle
    show (s.length : Int) ≤ src.bytes.length
    omega
  | cut t nul length =>
    show (count : Int) ≤ src.bytes.length
    omega
  | failed nul length =>
    change 0 ≤ -eFault at h
    exact absurd h (by decide)

end

/-! ## Byte by byte -/

def copyBytes (dst : List UInt8) (src : UserString) (count : Nat) : Int × List UInt8 :=
  let s := cstr (src.bytes.take count)
  if s.length < (src.bytes.take count).length then (s.length, storeFront (s ++ [0]) dst)
  else if count ≤ src.bytes.length then (count, storeFront (src.bytes.take count) dst)
  else (-eFault, storeFront (src.bytes.take src.copied) dst)

section
variable {dst : List UInt8} {src : UserString} {count : Nat}

theorem copyBytes_of_mem (h : 0 ∈ src.bytes.take count) :
    copyBytes dst src count =
      (((cstr (src.bytes.take count)).length : Int), storeFront (cstr (src.bytes.take count) ++ [0]) dst) := by
  unfold copyBytes
  simp only
  rw [if_pos (cstr_length_lt_of_mem h)]

theorem copyBytes_of_not_mem (h : 0 ∉ src.bytes.take count) :
    copyBytes dst src count =
      if count ≤ src.bytes.length then ((count : Int), storeFront (src.bytes.take count) dst)
      else (-eFault, storeFront (src.bytes.take src.copied) dst) := by
  unfold copyBytes
  simp only
  rw [if_neg fun hlt => h (cstr_length_lt_iff.1 hlt)]

/-- What is stored is at the front, and no more than may be. -/
theorem exists_storeFront (dst : List UInt8) (src : UserString) (count : Nat) :
    ∃ front : List UInt8, front.length ≤ count ∧ (copyBytes dst src count).2 = storeFront front dst := by
  by_cases hmem : 0 ∈ src.bytes.take count
  · have hlt := cstr_length_lt_of_mem hmem
    rw [List.length_take] at hlt
    rw [copyBytes_of_mem hmem]
    refine ⟨_, ?_, rfl⟩
    rw [List.length_append, List.length_singleton]
    omega
  · rw [copyBytes_of_not_mem hmem]
    split
    · exact ⟨_, List.length_take_le _ _, rfl⟩
    · refine ⟨_, ?_, rfl⟩
      rw [List.length_take]
      omega

end

def byteCopy : StrncpyFromUser where
  copy := copyBytes
  length := by
    intro dst src count hroom
    obtain ⟨front, hlength, heq⟩ := exists_storeFront dst src count
    rw [heq, length_storeFront (by omega)]
  beyond := by
    intro dst src count i _ hi
    obtain ⟨front, hlength, heq⟩ := exists_storeFront dst src count
    rw [heq, getElem?_storeFront (by omega)]
  whole := by
    intro dst src count s _ hnul hlength hbytes
    have htake : s ++ [0] <+: src.bytes.take count := by
      apply List.prefix_take_iff.2
      refine ⟨hbytes, ?_⟩
      rw [List.length_append, List.length_singleton]
      omega
    have hmem : 0 ∈ src.bytes.take count := htake.subset (List.mem_append_right _ List.mem_cons_self)
    have hcstr : cstr (src.bytes.take count) = s := (append_zero_isPrefix_iff hmem hnul).1 htake
    rw [copyBytes_of_mem hmem, hcstr]
    exact ⟨rfl, List.prefix_append _ _⟩
  cut := by
    intro dst src count _ hnul hlength
    rw [copyBytes_of_not_mem hnul, if_pos hlength]
    exact ⟨rfl, List.prefix_append _ _⟩
  failed := by
    intro dst src count _ hnul hlength
    rw [copyBytes_of_not_mem fun h => hnul (List.mem_of_mem_take h), if_neg (Nat.not_le_of_lt hlength)]
  reads := by
    intro dst src src' count htake hcopied
    by_cases hmem : 0 ∈ src.bytes.take count
    · rw [copyBytes_of_mem hmem, copyBytes_of_mem (by rw [htake]; exact hmem), htake]
    · have hmem' : 0 ∉ src'.bytes.take count := by rwa [htake]
      have hlength := congrArg List.length htake
      rw [List.length_take, List.length_take] at hlength
      rw [copyBytes_of_not_mem hmem, copyBytes_of_not_mem hmem', htake]
      by_cases hle : count ≤ src.bytes.length
      · rw [if_pos hle, if_pos (by omega)]
      · rw [if_neg hle, if_neg (by omega)]
        -- all of either is read
        rw [List.take_of_length_le (by omega), List.take_of_length_le (by omega : src.bytes.length ≤ count)] at htake
        rw [htake, hcopied]

end UserCopy
