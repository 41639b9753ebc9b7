import Eltex.Lib.ByteMem
import Eltex.Lib.Printf

/-!
# Addresses in the kernel

The module has an `inet_addr` of its own: four `%d` with dots between them, each cut to a `char`.  Every
address is read back from its dotted form.  It is read from others as well: the four numbers
count modulo 256 and may be negative (`inetAddr_quad_eq_iff`).
-/

namespace Eltex.KernelPing

open ByteMem Printf

/-- Assignment of an `int` to a `char`. -/
def toChar (v : Int) : UInt8 := UInt8.ofNat (toInt32 v % 256).toNat

/-- The dot of the format has to be met. -/
def dot : List UInt8 → Option (List UInt8)
  | [] => none
  | b :: str => if b = 46 then some str else none

/-- `inet_addr`; `none` when a number is missing, as the variables for it are not initialised. -/
def inetAddr (str : List UInt8) : Option Nat := do
  let (a, str) ← scanInt str
  let (b, str) ← scanInt (← dot str)
  let (c, str) ← scanInt (← dot str)
  let (d, _) ← scanInt (← dot str)
  some (leVal [toChar a, toChar b, toChar c, toChar d])

/-- `%d.%d.%d.%d` -/
def quad (a b c d : Int) : List UInt8 :=
  formatInt a ++ 46 :: (formatInt b ++ 46 :: (formatInt c ++ 46 :: formatInt d))

/-- The dotted form of an address. -/
def dotted (addr : Nat) : List UInt8 :=
  quad (addr % 256) (addr / 256 % 256) (addr / 65536 % 256) (addr / 16777216 % 256)

section
variable {a b c d a' b' c' d' : Int}

theorem ends_dot (m : List UInt8) : Ends (46 :: m) := by
  intro b hb
  rw [← Option.some.inj hb]
  rfl

theorem inetAddr_quad (a b c d : Int) (behind : List UInt8) :
    inetAddr (quad a b c d ++ 0 :: behind) = some (leVal [toChar a, toChar b, toChar c, toChar d]) := by
  have hquad : quad a b c d ++ 0 :: behind = formatInt a ++ 46 :: (formatInt b ++ 46 ::
      (formatInt c ++ 46 :: (formatInt d ++ 0 :: behind))) := by
    simp [quad]
  have hdot : ∀ m : List UInt8, dot (46 :: m) = some m := fun m => rfl
  rw [hquad, inetAddr]
  simp only [scanInt_formatInt _ (ends_dot _), scanInt_formatInt d (ends_zero behind), hdot, Option.bind_eq_bind,
    Option.bind_some]

theorem toNat_toChar (v : Int) : (toChar v).toNat = (v % 256).toNat := by
  have hint : toInt32 v % 256 = v % 256 := by
    rw [toInt32, Int.bmod_def]
    split <;> omega
  have hlt : v % 256 < 256 := Int.emod_lt_of_pos v (by decide)
  rw [toChar, UInt8.toNat_ofNat', hint]
  omega

theorem toChar_eq_iff {v v' : Int} : toChar v = toChar v' ↔ v % 256 = v' % 256 := by
  have h := Int.emod_nonneg v (by decide : (256 : Int) ≠ 0)
  have h' := Int.emod_nonneg v' (by decide : (256 : Int) ≠ 0)
  rw [← UInt8.toNat_inj, toNat_toChar, toNat_toChar]
  omega

theorem leVal_inj {xs ys : List UInt8} (hlen : xs.length = ys.length) : leVal xs = leVal ys ↔ xs = ys := by
  constructor
  · intro h
    rw [← leBytes_leVal xs, ← leBytes_leVal ys, h, hlen]
  · rintro rfl
    rfl

end

/-- **Reading addresses.**  Every address comes back from its dotted form, whatever stands behind the string, and two
quadruples of numbers give one address just when they agree modulo 256. -/
theorem inetAddr_quad_eq_iff :
    (∀ addr behind, addr < 2 ^ 32 → inetAddr (dotted addr ++ 0 :: behind) = some addr) ∧
      ∀ a b c d a' b' c' d' behind behind', inetAddr (quad a b c d ++ 0 :: behind) =
          inetAddr (quad a' b' c' d' ++ 0 :: behind') ↔
        a % 256 = a' % 256 ∧ b % 256 = b' % 256 ∧ c % 256 = c' % 256 ∧ d % 256 = d' % 256 := by
  refine ⟨fun addr behind h => ?_, fun a b c d a' b' c' d' behind behind' => ?_⟩
  · rw [dotted, inetAddr_quad, Option.some.injEq]
    simp only [leVal, toNat_toChar]
    omega
  · rw [inetAddr_quad, inetAddr_quad, Option.some.injEq, leVal_inj (by rfl)]
    simp only [List.cons.injEq, and_true, toChar_eq_iff]

/-- The two addresses of the module. -/
example : inetAddr (ascii "192.168.5.2" ++ [0]) = some 0x0205a8c0 ∧
    inetAddr (ascii "8.8.8.8" ++ [0]) = some 0x08080808 := by
  decide +kernel

end Eltex.KernelPing
