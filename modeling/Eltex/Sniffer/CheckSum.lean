import Eltex.Checksums
import Eltex.Lib.Footprint

/-!
# The checksum of the sniffer

`check_sum` differs from the other three in two places: `sum` is not set to zero, so the words are
added to whatever the variable holds, and an odd length adds the first byte of the buffer in place
of the last.  The sum is folded just as well (`toNat_foldSum`), so it agrees with `checksum` of
`raw_socket` exactly when these two make no difference modulo 65535 (`checkSum_eq_iff`), which is
never so for all values of `sum`.
-/

namespace Eltex.Sniffer

open ByteMem OnesComplement Footprint Access

/-- `while (nbytes > 1)`: `nbytes` and the sum at the end. -/
def addWords : Nat → Nat → UInt32 → Access (Nat × UInt32)
  | part, nbytes + 2, sum => do
    let w ← word part
    addWords (part + 2) nbytes (sum + UInt32.ofNat w)
  | _, nbytes, sum => pure (nbytes, sum)

/-- The carries added twice, and the complement. -/
def foldSum (sum : UInt32) : UInt16 :=
  let sum := (sum >>> 16) + (sum &&& (0xffff : UInt32))
  let sum := sum + (sum >>> 16)
  (~~~sum).toUInt16

/-- `sum` is what the variable holds when it is declared. -/
def checkSum (sum : UInt32) (buf nbytes : Nat) : Access UInt16 := do
  let (nbytes, sum) ← addWords buf nbytes sum
  let sum ← if nbytes = 1 then do
      let b ← byte buf -- not the byte at `part`
      pure (sum + UInt32.ofNat (leVal [b, 0]))
    else pure sum
  pure (foldSum sum)

/-- The sum of the whole words. -/
def wordSum (m : Mem) (buf nbytes : Nat) : Nat := (leWords (load m buf (2 * (nbytes / 2)))).sum

/-- What is added behind them: the first byte when their number is odd. -/
def oddByte (m : Mem) (buf nbytes : Nat) : Nat := if nbytes % 2 = 1 then (m buf).toNat else 0

/-- What should be added. -/
def lastByte (m : Mem) (buf nbytes : Nat) : Nat := if nbytes % 2 = 1 then (m (buf + (nbytes - 1))).toNat else 0

section
variable (m : Mem)

/-! ## The sum -/

theorem wordSum_succ_succ (buf n : Nat) : wordSum m buf (n + 2) = loadLe m buf 2 + wordSum m (buf + 2) n := by
  have hhalf : 2 * ((n + 2) / 2) = 2 * (n / 2) + 2 := by omega
  rw [wordSum, hhalf, leWords_load_succ_succ, List.sum_cons, wordSum]

theorem wordSum_add_lastByte (buf n : Nat) :
    wordSum m buf n + lastByte m buf n = (leWords (load m buf n)).sum := by
  obtain ⟨k, rfl | rfl⟩ : ∃ k, n = 2 * k ∨ n = 2 * k + 1 := ⟨n / 2, by omega⟩
  · have hhalf : 2 * k / 2 = k := by omega
    rw [wordSum, lastByte, hhalf, if_neg (by omega), Nat.add_zero]
  · have hhalf : (2 * k + 1) / 2 = k := by omega
    have hlast : load m (buf + 2 * k) 1 = [m (buf + 2 * k)] := rfl
    rw [wordSum, lastByte, hhalf, if_pos (by omega), leWords_load_add, hlast, List.sum_append, leWords,
      List.sum_singleton, Nat.add_sub_cancel]

theorem wordSum_le (buf n : Nat) : wordSum m buf n ≤ 65535 * (n / 2) := by
  have h := sum_leWords_le m buf (2 * (n / 2))
  unfold wordSum
  omega

theorem oddByte_lt (buf n : Nat) : oddByte m buf n < 256 := by
  have hlt := (m buf).toNat_lt
  unfold oddByte
  split <;> omega

theorem lastByte_lt (buf n : Nat) : lastByte m buf n < 256 := by
  have hlt := (m (buf + (n - 1))).toNat_lt
  unfold lastByte
  split <;> omega

theorem run_addWords (buf n : Nat) (sum : UInt32) :
    run (addWords buf n sum) m = (n % 2, sum + UInt32.ofNat (wordSum m buf n)) := by
  induction n using Nat.twoStepInduction generalizing buf sum with
  | zero => simp [addWords, wordSum, load, leWords]
  | one => simp [addWords, wordSum, load, leWords]
  | more n ih _ =>
    rw [addWords, run_bind, run_word, ih, wordSum_succ_succ, UInt32.ofNat_add, UInt32.add_assoc,
      Nat.add_mod_right]

/-- Two additions of the carries are enough for any 32 bits. -/
theorem toNat_foldSum (sum : UInt32) : ∃ r, Folded r sum.toNat ∧ (foldSum sum).toNat = 65535 - r := by
  have hlt := sum.toNat_lt
  have hhigh : (sum >>> 16).toNat = sum.toNat / 65536 := by
    rw [UInt32.toNat_shiftRight]
    show sum.toNat >>> 16 = _
    rw [Nat.shiftRight_eq_div_pow]
  have hlow : (sum &&& (0xffff : UInt32)).toNat = sum.toNat % 65536 := by
    rw [UInt32.toNat_and]
    show sum.toNat &&& (2 ^ 16 - 1) = _
    rw [Nat.and_two_pow_sub_one_eq_mod]
  have hq : sum.toNat / 65536 < 65536 := by omega
  have hr : sum.toNat % 65536 < 65536 := by omega
  have hfolded := folded_twice hq hr
  rw [Nat.div_add_mod] at hfolded
  refine ⟨_, hfolded, ?_⟩
  generalize sum.toNat / 65536 = q at hhigh hq ⊢
  generalize sum.toNat % 65536 = r at hlow hr ⊢
  have hfirst : ((sum >>> 16) + (sum &&& (0xffff : UInt32))).toNat = q + r := by
    rw [UInt32.toNat_add, hhigh, hlow]
    omega
  have hcarry : (((sum >>> 16) + (sum &&& (0xffff : UInt32))) >>> 16).toNat = (q + r) / 65536 := by
    rw [UInt32.toNat_shiftRight, hfirst]
    show (q + r) >>> 16 = _
    rw [Nat.shiftRight_eq_div_pow]
  rw [foldSum, UInt32.toNat_toUInt16, UInt32.toNat_not, UInt32.toNat_add, hfirst, hcarry]
  show (4294967295 - (q + r + (q + r) / 65536) % 4294967296) % 65536 = _
  omega

/-- The complement of what the carries leave of the sum, which is one of 32 bits. -/
theorem run_checkSum (sum : UInt32) (buf n : Nat) :
    ∃ r, Folded r ((sum.toNat + wordSum m buf n + oddByte m buf n) % 2 ^ 32) ∧
      (run (checkSum sum buf n) m).toNat = 65535 - r := by
  have htotal : ∃ total : UInt32, run (checkSum sum buf n) m = foldSum total ∧
      total.toNat = (sum.toNat + wordSum m buf n + oddByte m buf n) % 2 ^ 32 := by
    simp only [checkSum, run_bind, run_addWords, run_ite, run_byte, run_pure, oddByte]
    by_cases hodd : n % 2 = 1
    · rw [if_pos hodd, if_pos hodd]
      refine ⟨_, rfl, ?_⟩
      rw [UInt32.toNat_add, UInt32.toNat_add, UInt32.toNat_ofNat', UInt32.toNat_ofNat']
      show _ = (sum.toNat + wordSum m buf n + leVal [m buf, 0]) % 2 ^ 32
      omega
    · rw [if_neg hodd, if_neg hodd]
      refine ⟨_, rfl, ?_⟩
      rw [UInt32.toNat_add, UInt32.toNat_ofNat']
      omega
  obtain ⟨total, hrun, htoNat⟩ := htotal
  rw [hrun, ← htoNat]
  exact toNat_foldSum total

/-- Over an even number of bytes, with the sum started with zero, it is 0 for those that verify. -/
theorem checkSum_eq_zero_iff (buf : Nat) {n : Nat} (heven : n % 2 = 0) (hn : n ≤ 65535) :
    run (checkSum 0 buf n) m = 0 ↔ Verifies (load m buf n) := by
  obtain ⟨r, hr, hrun⟩ := run_checkSum m 0 buf n
  have hle := sum_leWords_le m buf n
  have hodd : oddByte m buf n = 0 := if_neg (by omega)
  have hlast : lastByte m buf n = 0 := if_neg (by omega)
  have hword : wordSum m buf n = (leWords (load m buf n)).sum := by
    rw [← wordSum_add_lastByte, hlast, Nat.add_zero]
  rw [hodd, hword, UInt32.toNat_zero, Nat.zero_add, Nat.add_zero, Nat.mod_eq_of_lt (by omega)] at hr
  have hlt := hr.lt
  rw [← leSum_eq_max_iff, ← hr.unique (folded_leSum _), ← UInt16.toNat_inj, hrun, UInt16.toNat_zero]
  omega

/-! ## What it reads -/

theorem mem_reads_addWords {buf n i : Nat} {sum : UInt32} :
    i ∈ reads (addWords buf n sum) m ↔ buf ≤ i ∧ i < buf + 2 * (n / 2) := by
  induction n using Nat.twoStepInduction generalizing buf sum with
  | zero =>
    simp only [addWords, reads_pure, List.not_mem_nil, false_iff]
    omega
  | one =>
    simp only [addWords, reads_pure, List.not_mem_nil, false_iff]
    omega
  | more n ih _ =>
    rw [addWords, reads_bind, List.mem_append, mem_reads_word, ih]
    omega

/-- All of an even number of bytes. -/
theorem mem_reads_checkSum {buf n i : Nat} {sum : UInt32} (heven : n % 2 = 0) :
    i ∈ reads (checkSum sum buf n) m ↔ buf ≤ i ∧ i < buf + n := by
  have hone : ¬ n % 2 = 1 := by omega
  simp only [checkSum, reads_bind, run_addWords, reads_pure, List.mem_append, mem_reads_addWords,
    if_neg hone, List.not_mem_nil, or_false]
  omega

/-! ## Where it agrees -/

/-- What `sum` held and the byte in place of the last make no difference: modulo 65535, with a carry out
of the 32 bits, and to a sum of zero. -/
def NoDifference (sum : UInt32) (m : Mem) (buf nbytes : Nat) : Prop :=
  let total := sum.toNat + wordSum m buf nbytes + oddByte m buf nbytes
  (sum.toNat + oddByte m buf nbytes) % 65535 = (lastByte m buf nbytes + total / 2 ^ 32) % 65535 ∧
    (total % 2 ^ 32 = 0 ↔ wordSum m buf nbytes + lastByte m buf nbytes = 0)

instance (sum : UInt32) (m : Mem) (buf nbytes : Nat) : Decidable (NoDifference sum m buf nbytes) :=
  inferInstanceAs (Decidable (_ ∧ _))

/-- A carry out of the 32 bits is lost. -/
theorem wrapped_mod (n : Nat) : (n % 2 ^ 32 + n / 2 ^ 32) % 65535 = n % 65535 := by
  omega

theorem checkSum_eq_checksum_iff (sum : UInt32) (buf : Nat) {n : Nat} (hn : n ≤ 65535) :
    RawSocket.checksum m buf n = some (run (checkSum sum buf n) m).toNat ↔ NoDifference sum m buf n := by
  obtain ⟨r, hr, hrun⟩ := run_checkSum m sum buf n
  have hhost := folded_leSum (load m buf n)
  rw [← wordSum_add_lastByte] at hhost
  have heq := hhost.eq_iff hr
  have hlt := hhost.lt
  have hlt' := hr.lt
  have hcarry := wrapped_mod (sum.toNat + wordSum m buf n + oddByte m buf n)
  rw [RawSocket.checksum, checksumOf_eq (by decide) m buf hn, hrun, Option.some_inj, NoDifference]
  generalize leSum (load m buf n) = host at heq hlt ⊢
  generalize (sum.toNat + wordSum m buf n + oddByte m buf n) % 2 ^ 32 = low at heq hcarry ⊢
  generalize (sum.toNat + wordSum m buf n + oddByte m buf n) / 2 ^ 32 = carry at hcarry ⊢
  have hmod : (wordSum m buf n + lastByte m buf n) % 65535 = low % 65535 ↔
      (sum.toNat + oddByte m buf n) % 65535 = (lastByte m buf n + carry) % 65535 := by
    clear heq
    omega
  have hcompl : 65535 - host = 65535 - r ↔ host = r := by
    clear heq
    omega
  rw [hcompl, heq, hmod]
  exact and_congr_right fun _ => Iff.comm

section
variable {m} {buf n : Nat}

/-- When `sum` is small nothing is carried out. -/
theorem NoDifference.odd {sum : UInt32} (hn : n ≤ 65535) (hsum : sum.toNat ≤ 1)
    (h : NoDifference sum m buf n) : sum.toNat + oddByte m buf n = lastByte m buf n := by
  obtain ⟨hmod, -⟩ := h
  have hword := wordSum_le m buf n
  have hodd := oddByte_lt m buf n
  have hlast := lastByte_lt m buf n
  rw [Nat.div_eq_of_lt (by omega)] at hmod
  omega

/-- A sum that starts with zero is right when the first byte is as good as the last. -/
theorem noDifference_zero_iff (hn : n ≤ 65535) :
    NoDifference 0 m buf n ↔ oddByte m buf n = lastByte m buf n := by
  constructor
  · intro h
    have hodd := h.odd hn (by decide)
    rwa [UInt32.toNat_zero, Nat.zero_add] at hodd
  · intro heq
    have hword := wordSum_le m buf n
    have hodd := oddByte_lt m buf n
    have hcarry : (UInt32.toNat 0 + wordSum m buf n + oddByte m buf n) / 2 ^ 32 = 0 := by
      rw [UInt32.toNat_zero]
      omega
    constructor
    · rw [hcarry, UInt32.toNat_zero, Nat.zero_add, heq]
      rfl
    · rw [UInt32.toNat_zero, ← heq]
      omega

/-- **The sniffer's checksum** is that of the others exactly when nothing of this makes a difference;
whatever the buffer, for some value of `sum` it does. -/
theorem checkSum_eq_iff (m : Mem) (buf : Nat) (hn : n ≤ 65535) :
    (∀ sum, RawSocket.checksum m buf n = some (run (checkSum sum buf n) m).toNat ↔ NoDifference sum m buf n) ∧
      ¬ ∀ sum, RawSocket.checksum m buf n = some (run (checkSum sum buf n) m).toNat := by
  refine ⟨fun sum => checkSum_eq_checksum_iff m sum buf hn, fun h => ?_⟩
  have h0 := ((checkSum_eq_checksum_iff m 0 buf hn).1 (h 0)).odd hn (by decide)
  have h1 := ((checkSum_eq_checksum_iff m 1 buf hn).1 (h 1)).odd hn (by decide)
  rw [UInt32.toNat_zero] at h0
  rw [UInt32.toNat_one] at h1
  omega

end

end

/-- Two bytes, the sum started with zero. -/
theorem checkSum_eq_two :
    RawSocket.checksum (store (fun _ => 9) 0 [1, 2]) 0 2 =
      some (run (checkSum 0 0 2) (store (fun _ => 9) 0 [1, 2])).toNat :=
  ((checkSum_eq_iff (store (fun _ => 9) 0 [1, 2]) 0 (by decide : 2 ≤ 65535)).1 0).2
    ((noDifference_zero_iff (by decide)).2 (by decide))

/-- Three bytes with the sum started with zero, and two with it started with one. -/
theorem checkSum_differs :
    (¬ ∀ (m : Mem) (buf n : Nat), n ≤ 65535 →
        RawSocket.checksum m buf n = some (run (checkSum 0 buf n) m).toNat) ∧
      ¬ ∀ (sum : UInt32) (m : Mem) (buf n : Nat), n ≤ 65535 → n % 2 = 0 →
        RawSocket.checksum m buf n = some (run (checkSum sum buf n) m).toNat := by
  constructor
  · intro h
    have h3 := h (store (fun _ => 9) 0 [1, 0, 2]) 0 3 (by decide)
    rw [checkSum_eq_checksum_iff _ 0 0 (by decide)] at h3
    revert h3
    decide
  · intro h
    have h2 := h 1 (store (fun _ => 9) 0 [1, 2]) 0 2 (by decide) (by decide)
    rw [checkSum_eq_checksum_iff _ 1 0 (by decide)] at h2
    revert h2
    decide

end Eltex.Sniffer
