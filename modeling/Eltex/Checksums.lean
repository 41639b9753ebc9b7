import Eltex.Lib.OnesComplement
import Mathlib.Algebra.Ring.Int.Defs

/-!
# The checksums of what is sent

`ping`, `traceroute` and `raw_socket` each have a `checksum`, with the sum in a `long` or in an `int`.
The three are `checksumOf` for the width of the sum: add the words as the host reads them, a last
single byte as the low byte of a word, add the carries twice, complement.

An addition that overflows the sum is `none`.  Up to 65535 bytes none does, in 32 bits either, and two
additions of the carries are enough (`checksums_eq`).
-/

namespace Eltex

open ByteMem OnesComplement

/-- Addition in a signed type of `bits` bits. -/
def addIn (bits : Nat) (a b : Int) : Option Int :=
  if -2 ^ (bits - 1) ≤ a + b ∧ a + b < 2 ^ (bits - 1) then some (a + b) else none

/-- `while (nbytes > 1)`: `ptr` and `nbytes` at the end, and the sum. -/
def sumWords (bits : Nat) (m : Mem) : Nat → Nat → Int → Option (Nat × Nat × Int)
  | ptr, nbytes + 2, sum => (addIn bits sum (loadLe m ptr 2)).bind (sumWords bits m (ptr + 2) nbytes)
  | ptr, nbytes, sum => some (ptr, nbytes, sum)

/-- The sum of all words; `oddbyte` is 0 but for its first byte. -/
def sumBytes (bits : Nat) (m : Mem) (ptr nbytes : Nat) (sum : Int) : Option Int :=
  (sumWords bits m ptr nbytes sum).bind fun (ptr, nbytes, sum) =>
    if nbytes = 1 then addIn bits sum (leVal [m ptr, 0]) else some sum

/-- `sum >> 16` and `sum & 0xffff` are quotient and remainder, also of what is negative. -/
def checksumOf (bits : Nat) (m : Mem) (ptr nbytes : Nat) : Option Nat :=
  (sumBytes bits m ptr nbytes 0).bind fun sum =>
    (addIn bits (sum / 65536) (sum % 65536)).bind fun sum =>
      (addIn bits sum (sum / 65536)).map fun sum => ((-1 - sum) % 65536).toNat

/-- `checksum` of `ping`: `sum` is a `long`. -/
def Ping.checksum : Mem → Nat → Nat → Option Nat := checksumOf 64

/-- `checksum` of `traceroute`: `sum` is a `long`. -/
def Traceroute.checksum : Mem → Nat → Nat → Option Nat := checksumOf 64

/-- `checksum` of `raw_socket`: `sum` is an `int`. -/
def RawSocket.checksum : Mem → Nat → Nat → Option Nat := checksumOf 32

section
variable {bits : Nat} {m : Mem} {ptr n : Nat}

/-! ## The sum -/

theorem addIn_eq {a b : Int} (ha : 0 ≤ a) (hb : 0 ≤ b) (h : a + b < 2 ^ (bits - 1)) :
    addIn bits a b = some (a + b) := by
  have hpos : (0 : Int) < 2 ^ (bits - 1) := Int.pow_pos (by decide)
  rw [addIn, if_pos ⟨by omega, h⟩]

theorem sumBytes_eq {sum : Int} (hsum : 0 ≤ sum)
    (h : sum + (leWords (load m ptr n)).sum < 2 ^ (bits - 1)) :
    sumBytes bits m ptr n sum = some (sum + (leWords (load m ptr n)).sum) := by
  induction n using Nat.twoStepInduction generalizing ptr sum with
  | zero =>
    show some sum = some (sum + 0)
    rw [Int.add_zero]
  | one =>
    have hone : leVal [m ptr, 0] = (leWords (load m ptr 1)).sum := rfl
    rw [← hone] at h ⊢
    exact addIn_eq hsum (Int.natCast_nonneg _) h
  | more n ih _ =>
    rw [leWords_load_succ_succ, List.sum_cons, Int.natCast_add] at h ⊢
    have hadd : addIn bits sum (loadLe m ptr 2) = some (sum + loadLe m ptr 2) :=
      addIn_eq hsum (Int.natCast_nonneg _) (by omega)
    rw [sumBytes, sumWords, hadd, Option.bind_some, ← Int.add_assoc]
    exact ih (by omega) (by omega)

/-- Two bytes add 65535 at most, and a last one 255. -/
theorem sum_leWords_le (m : Mem) (ptr n : Nat) :
    (leWords (load m ptr n)).sum ≤ 65535 * (n / 2) + 255 * (n % 2) := by
  induction n using Nat.twoStepInduction generalizing ptr with
  | zero => exact Nat.zero_le _
  | one =>
    have hlt := (m ptr).toNat_lt
    show (m ptr).toNat ≤ 255
    omega
  | more n ih _ =>
    have hword := loadLe_lt m ptr 2
    have hrest := ih (ptr + 2)
    rw [leWords_load_succ_succ, List.sum_cons]
    omega

/-! ## The carries -/

/-- `(u_short)~sum` -/
theorem toNat_complement (sum : Nat) : ((-1 - (sum : Int)) % 65536).toNat = 65535 - sum % 65536 := by omega

/-- **The checksum** is the complement of the one's complement sum, when the sum has 32 bits at least. -/
theorem checksumOf_eq (hbits : 32 ≤ bits) (m : Mem) (ptr : Nat) (hn : n ≤ 65535) :
    checksumOf bits m ptr n = some (65535 - leSum (load m ptr n)) := by
  have hmax : (2 ^ 31 : Int) ≤ 2 ^ (bits - 1) := by
    exact_mod_cast Nat.pow_le_pow_right (by decide : 0 < 2) (by omega : 31 ≤ bits - 1)
  have hle := sum_leWords_le m ptr n
  have hfolded := folded_leSum (load m ptr n)
  have hsum : sumBytes bits m ptr n 0 = some (0 + ((leWords (load m ptr n)).sum : Int)) :=
    sumBytes_eq (Int.le_refl _) (by omega)
  generalize (leWords (load m ptr n)).sum = total at hle hfolded hsum
  obtain ⟨q, r, hr, rfl⟩ : ∃ q r, r < 65536 ∧ total = 65536 * q + r :=
    ⟨total / 65536, total % 65536, by omega, by omega⟩
  have hq : q < 32768 := by omega
  -- the two additions of the carries
  have hhigh : (0 + ((65536 * q + r : Nat) : Int)) / 65536 = q := by omega
  have hlow : (0 + ((65536 * q + r : Nat) : Int)) % 65536 = r := by omega
  have hfirst : addIn bits (q : Int) r = some ((q : Int) + r) := addIn_eq (by omega) (by omega) (by omega)
  have hsecond : addIn bits ((q : Int) + r) (((q : Int) + r) / 65536) =
      some ((q : Int) + r + ((q : Int) + r) / 65536) := addIn_eq (by omega) (by omega) (by omega)
  have hcast : (q : Int) + r + ((q : Int) + r) / 65536 = ((q + r + (q + r) / 65536 : Nat) : Int) := by
    push_cast
    rfl
  rw [checksumOf, hsum, Option.bind_some, hhigh, hlow, hfirst, Option.bind_some, hsecond, Option.map_some,
    hcast, toNat_complement, hfolded.unique (folded_twice (by omega) hr)]

/-- **The three checksums** of any bytes, 65535 at most, are the complement of their one's complement
sum as the host reads the words, and in network order of their sum in network order. -/
theorem checksums_eq (m : Mem) (ptr : Nat) (hn : n ≤ 65535) :
    ∃ answer, Ping.checksum m ptr n = some answer ∧ Traceroute.checksum m ptr n = some answer ∧
      RawSocket.checksum m ptr n = some answer ∧ answer = 65535 - leSum (load m ptr n) ∧
      htons answer = 65535 - onesSum (load m ptr n) := by
  refine ⟨_, checksumOf_eq (by decide) m ptr hn, checksumOf_eq (by decide) m ptr hn,
    checksumOf_eq (by decide) m ptr hn, rfl, ?_⟩
  rw [htons_complement (folded_leSum _).lt, htons_leSum]

end

/-- An ICMP echo request of 11 bytes. -/
theorem checksums_eq_odd :
    ∃ answer, Ping.checksum (store (fun _ => 255) 0 [8, 0, 0, 0, 1, 2, 0, 1, 97, 98, 99]) 0 11 = some answer ∧
      Traceroute.checksum (store (fun _ => 255) 0 [8, 0, 0, 0, 1, 2, 0, 1, 97, 98, 99]) 0 11 = some answer ∧
      RawSocket.checksum (store (fun _ => 255) 0 [8, 0, 0, 0, 1, 2, 0, 1, 97, 98, 99]) 0 11 = some answer ∧
      htons answer = 65535 - onesSum [8, 0, 0, 0, 1, 2, 0, 1, 97, 98, 99] := by
  obtain ⟨answer, hping, htraceroute, hraw, -, hnet⟩ :=
    checksums_eq (n := 11) (store (fun _ => 255) 0 [8, 0, 0, 0, 1, 2, 0, 1, 97, 98, 99]) 0 (by decide)
  exact ⟨answer, hping, htraceroute, hraw, hnet⟩

end Eltex
