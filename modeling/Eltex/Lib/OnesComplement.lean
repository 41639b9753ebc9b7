import Eltex.Lib.ByteMem

/-!
# The Internet checksum

Bytes are taken as big-endian 16-bit words, an odd last byte padded with zero, and added with the
carry brought round.  `byteSum` is the plain sum, each byte with the weight of its place, so it
splits at any byte (`byteSum_append`); the sum with carries is the plain one modulo 65535:

    onesSum bs % 65535 = byteSum 0 bs % 65535                       (folded_onesSum)
    Verifies bs ↔ 65535 ∣ byteSum 0 bs ∧ byteSum 0 bs ≠ 0           (verifies_iff)

A little-endian host adds the words as it reads them.  Its sum is the same with its bytes swapped:

    htons (leSum bs) = onesSum bs                                   (htons_leSum)
-/

namespace OnesComplement

open ByteMem

/-- The sum of two words, its carry brought round. -/
def addc (a b : Nat) : Nat := (a + b) % 65536 + (a + b) / 65536

def words : List UInt8 → List Nat
  | [] => []
  | [b] => [b.toNat * 256]
  | a :: b :: bs => (a.toNat * 256 + b.toNat) :: words bs

/-- The one's complement sum. -/
def onesSum (bs : List UInt8) : Nat := (words bs).foldl addc 0

/-- The words as a little-endian host reads them. -/
def leWords : List UInt8 → List Nat
  | [] => []
  | [b] => [b.toNat]
  | a :: b :: bs => (a.toNat + 256 * b.toNat) :: leWords bs

/-- Their one's complement sum. -/
def leSum (bs : List UInt8) : Nat := (leWords bs).foldl addc 0

/-- The bytes with their checksum among them add up to all ones. -/
def Verifies (bs : List UInt8) : Prop := onesSum bs = 65535

instance (bs : List UInt8) : Decidable (Verifies bs) := inferInstanceAs (Decidable (_ = _))

/-- The plain sum, from place `k` on: high bytes stand at even places. -/
def byteSum : Nat → List UInt8 → Nat
  | _, [] => 0
  | k, b :: bs => (if k % 2 = 0 then b.toNat * 256 else b.toNat) + byteSum (k + 1) bs

/-! ## Plain sums -/

@[simp] theorem byteSum_nil (k : Nat) : byteSum k [] = 0 := rfl

theorem byteSum_congr {j k : Nat} (h : j % 2 = k % 2) (bs : List UInt8) : byteSum j bs = byteSum k bs := by
  induction bs generalizing j k with
  | nil => rfl
  | cons b bs ih =>
    unfold byteSum
    rw [h, ih (by omega : (j + 1) % 2 = (k + 1) % 2)]

theorem byteSum_append (k : Nat) (xs ys : List UInt8) :
    byteSum k (xs ++ ys) = byteSum k xs + byteSum (k + xs.length) ys := by
  induction xs generalizing k with
  | nil => simp
  | cons b xs ih =>
    rw [List.cons_append, byteSum, byteSum, ih, List.length_cons,
      byteSum_congr (by omega : (k + 1 + xs.length) % 2 = (k + (xs.length + 1)) % 2)]
    omega

theorem sum_words (bs : List UInt8) : (words bs).sum = byteSum 0 bs := by
  induction bs using words.induct with
  | case1 => rfl
  | case2 b => rfl
  | case3 a b bs ih =>
    rw [words, List.sum_cons, ih, byteSum, byteSum, if_pos rfl, if_neg (by decide),
      byteSum_congr (by decide : (0 + 1 + 1) % 2 = 0 % 2)]
    omega

theorem words_lt (bs : List UInt8) : ∀ w ∈ words bs, w < 65536 := by
  induction bs using words.induct with
  | case1 => exact fun w hw => absurd hw List.not_mem_nil
  | case2 b =>
    have hb := b.toNat_lt
    simp only [words, List.mem_singleton, forall_eq]
    omega
  | case3 a b bs ih =>
    have ha := a.toNat_lt
    have hb := b.toNat_lt
    rw [words, List.forall_mem_cons]
    exact ⟨by omega, ih⟩

/-- The words of a little-endian host are those of the network with their bytes swapped. -/
theorem leWords_eq_map (bs : List UInt8) : leWords bs = (words bs).map htons := by
  induction bs using leWords.induct with
  | case1 => rfl
  | case2 b =>
    have hb := b.toNat_lt
    have hswap : htons (b.toNat * 256) = b.toNat := by
      unfold htons
      omega
    rw [leWords, words, List.map_singleton, hswap]
  | case3 a b bs ih =>
    have ha := a.toNat_lt
    have hb := b.toNat_lt
    have hswap : htons (a.toNat * 256 + b.toNat) = a.toNat + 256 * b.toNat := by
      unfold htons
      omega
    rw [leWords, words, List.map_cons, hswap, ih]

theorem leWords_lt (bs : List UInt8) : ∀ w ∈ leWords bs, w < 65536 := by
  intro w hw
  rw [leWords_eq_map] at hw
  obtain ⟨v, -, rfl⟩ := List.mem_map.1 hw
  exact htons_lt v

theorem leWords_append {xs : List UInt8} (h : xs.length % 2 = 0) (ys : List UInt8) :
    leWords (xs ++ ys) = leWords xs ++ leWords ys := by
  induction xs using leWords.induct with
  | case1 => rfl
  | case2 b => cases h
  | case3 a b bs ih =>
    rw [List.length_cons, List.length_cons] at h
    rw [List.cons_append, List.cons_append, leWords, leWords, ih (by omega), List.cons_append]

theorem leWords_load_succ_succ (m : Mem) (ptr n : Nat) :
    leWords (load m ptr (n + 2)) = loadLe m ptr 2 :: leWords (load m (ptr + 2) n) := by
  rw [Nat.add_comm n 2, load_append, loadLe_two]
  rfl

/-- The words up to an even offset, and those from there on. -/
theorem leWords_load_add (m : Mem) (ptr i n : Nat) :
    leWords (load m ptr (2 * i + n)) = leWords (load m ptr (2 * i)) ++ leWords (load m (ptr + 2 * i) n) := by
  rw [load_append, leWords_append (by rw [length_load, Nat.mul_mod_right])]

/-- A word at an even place. -/
theorem byteSum_load_two {k : Nat} (hk : k % 2 = 0) (m : Mem) (p : Nat) :
    byteSum k (load m p 2) = be16 m p := by
  show byteSum k [m (p + 0), m (p + 1)] = _
  rw [byteSum, byteSum, byteSum_nil, if_pos hk, if_neg (by omega), Nat.add_zero, Nat.add_zero, be16]

theorem byteSum_load_add (k : Nat) (m : Mem) (p a b : Nat) :
    byteSum k (load m p (a + b)) = byteSum k (load m p a) + byteSum (k + a) (load m (p + a) b) := by
  rw [load_append, byteSum_append, length_load]

/-! ## Carries -/

theorem addc_lt {a b : Nat} (ha : a < 65536) (hb : b < 65536) : addc a b < 65536 := by
  unfold addc
  omega

theorem addc_mod (a b : Nat) : addc a b % 65535 = (a + b) % 65535 := by
  unfold addc
  omega

theorem addc_eq_zero_iff (a b : Nat) : addc a b = 0 ↔ a = 0 ∧ b = 0 := by
  unfold addc
  omega

/-- What the carries leave: a word that is the plain sum modulo 65535, and zero only for zeros. -/
structure Folded (r n : Nat) : Prop where
  lt : r < 65536
  mod : r % 65535 = n % 65535
  zero : r = 0 ↔ n = 0

theorem folded_addc {r n b : Nat} (h : Folded r n) (hb : b < 65536) : Folded (addc r b) (n + b) := by
  obtain ⟨h1, h2, h3⟩ := h
  refine ⟨addc_lt h1 hb, ?_, ?_⟩
  · rw [addc_mod]
    omega
  · rw [addc_eq_zero_iff, h3]
    omega

/-- It is all ones for the multiples of 65535, zero apart. -/
theorem Folded.eq_max_iff {r n : Nat} (h : Folded r n) : r = 65535 ↔ 65535 ∣ n ∧ n ≠ 0 := by
  obtain ⟨h1, h2, h3⟩ := h
  omega

theorem Folded.eq_iff {r r' n n' : Nat} (h : Folded r n) (h' : Folded r' n') :
    r = r' ↔ n % 65535 = n' % 65535 ∧ (n = 0 ↔ n' = 0) := by
  have hlt := h.lt
  have hlt' := h'.lt
  rw [← h.mod, ← h'.mod, ← h.zero, ← h'.zero]
  omega

/-- No other word is. -/
theorem Folded.unique {r r' n : Nat} (h : Folded r n) (h' : Folded r' n) : r = r' :=
  (h.eq_iff h').2 ⟨rfl, Iff.rfl⟩

theorem Folded.congr {r n n' : Nat} (h : Folded r n) (hmod : n % 65535 = n' % 65535)
    (hzero : n = 0 ↔ n' = 0) : Folded r n' := ⟨h.lt, h.mod.trans hmod, h.zero.trans hzero⟩

theorem folded_self {r : Nat} (h : r < 65536) : Folded r r := ⟨h, rfl, Iff.rfl⟩

/-- Added twice, the carries of a sum of 32 bits are all in. -/
theorem folded_twice {q r : Nat} (hq : q < 65536) (hr : r < 65536) :
    Folded ((q + r + (q + r) / 65536) % 65536) (65536 * q + r) := by
  have haddc : (q + r + (q + r) / 65536) % 65536 = addc q r := by
    unfold addc
    omega
  have hhigh : Folded q (65536 * q) := (folded_self hq).congr (by omega) (by omega)
  rw [haddc]
  exact folded_addc hhigh hr

theorem folded_foldl {ws : List Nat} {r n : Nat} (h : Folded r n) (hws : ∀ w ∈ ws, w < 65536) :
    Folded (ws.foldl addc r) (n + ws.sum) := by
  induction ws generalizing r n with
  | nil => exact h
  | cons w ws ih =>
    rw [List.forall_mem_cons] at hws
    rw [List.foldl_cons, List.sum_cons, ← Nat.add_assoc]
    exact ih (folded_addc h hws.1) hws.2

theorem folded_onesSum (bs : List UInt8) : Folded (onesSum bs) (byteSum 0 bs) := by
  have h := folded_foldl (folded_self (by decide : 0 < 65536)) (words_lt bs)
  rwa [sum_words, Nat.zero_add] at h

theorem folded_leSum (bs : List UInt8) : Folded (leSum bs) (leWords bs).sum := by
  have h := folded_foldl (folded_self (by decide : 0 < 65536)) (leWords_lt bs)
  rwa [Nat.zero_add] at h

/-! ## Byte order -/

/-- Swapping the bytes of a word is multiplying it by 256. -/
theorem folded_htons {r n : Nat} (h : Folded r n) : Folded (htons r) (256 * n) := by
  obtain ⟨h1, h2, h3⟩ := h
  have hmul : htons r + 65535 * (r / 256) = 256 * r := by
    unfold htons
    omega
  have hzero : htons r = 0 ↔ r = 0 := by
    unfold htons
    omega
  refine ⟨htons_lt r, ?_, ?_⟩
  · have hmod : htons r % 65535 = 256 * r % 65535 := by rw [← hmul, Nat.add_mul_mod_self_left]
    omega
  · rw [hzero, h3]
    omega

/-- It goes through complements. -/
theorem htons_complement {r : Nat} (h : r < 65536) : htons (65535 - r) = 65535 - htons r := by
  unfold htons
  omega

/-- It goes through sums with carries. -/
theorem htons_addc {a b : Nat} (ha : a < 65536) (hb : b < 65536) :
    htons (addc a b) = addc (htons a) (htons b) := by
  have hleft := folded_htons (folded_addc (folded_self ha) hb)
  have hright := folded_addc (folded_htons (folded_self ha)) (htons_lt b)
  obtain ⟨-, hmod, hzero⟩ := folded_htons (folded_self hb)
  refine hleft.unique (hright.congr ?_ ?_)
  · omega
  · omega

theorem htons_foldl {ws : List Nat} {r : Nat} (hr : r < 65536) (hws : ∀ w ∈ ws, w < 65536) :
    htons (ws.foldl addc r) = (ws.map htons).foldl addc (htons r) := by
  induction ws generalizing r with
  | nil => rfl
  | cons w ws ih =>
    rw [List.forall_mem_cons] at hws
    rw [List.foldl_cons, ih (addc_lt hr hws.1) hws.2, htons_addc hr hws.1]
    rfl

/-- **Byte order** does not matter: the host's sum is the sum with its bytes swapped. -/
theorem htons_leSum (bs : List UInt8) : htons (leSum bs) = onesSum bs := by
  have hswap : htons (onesSum bs) = leSum bs := by
    rw [onesSum, htons_foldl (by decide) (words_lt bs), ← leWords_eq_map]
    rfl
  rw [← hswap, htons_htons (folded_onesSum bs).lt]

/-- **Verification** asks for a plain sum that is a multiple of 65535, not zero. -/
theorem verifies_iff (bs : List UInt8) : Verifies bs ↔ 65535 ∣ byteSum 0 bs ∧ byteSum 0 bs ≠ 0 :=
  (folded_onesSum bs).eq_max_iff

/-- The host sees it in its own sum. -/
theorem leSum_eq_max_iff (bs : List UInt8) : leSum bs = 65535 ↔ Verifies bs := by
  have hlt := (folded_leSum bs).lt
  unfold Verifies
  rw [← htons_leSum]
  unfold htons
  omega

/-! ## A checksum over the field it is stored in -/

theorem leWords_leBytes_append {w : Nat} (hw : w < 65536) (ys : List UInt8) :
    leWords (leBytes 2 w ++ ys) = w :: leWords ys := by
  have hval : leVal (leBytes 2 w) = w := (leVal_leBytes 2 w).trans (Nat.mod_eq_of_lt hw)
  show ((UInt8.ofNat w).toNat + 256 * (UInt8.ofNat (w / 256)).toNat) :: leWords ys = _
  change (UInt8.ofNat w).toNat + 256 * ((UInt8.ofNat (w / 256)).toNat + 256 * 0) = w at hval
  rw [Nat.mul_zero, Nat.add_zero] at hval
  rw [hval]

/-- **Not cleared before.**  The complement of a sum that takes in the field `w` itself makes the bytes verify just when
the field was zero, or all ones among other words. -/
theorem verifies_stale_iff {xs ys : List UInt8} (hxs : xs.length % 2 = 0) {w : Nat} (hw : w < 65536) :
    Verifies (xs ++ (leBytes 2 (65535 - leSum (xs ++ (leBytes 2 w ++ ys))) ++ ys)) ↔
      w = 0 ∨ w = 65535 ∧ (leWords xs).sum + (leWords ys).sum ≠ 0 := by
  have hstale := folded_leSum (xs ++ (leBytes 2 w ++ ys))
  rw [leWords_append hxs, leWords_leBytes_append hw, List.sum_append, List.sum_cons] at hstale
  generalize leSum (xs ++ (leBytes 2 w ++ ys)) = r at hstale ⊢
  have hnew := folded_leSum (xs ++ (leBytes 2 (65535 - r) ++ ys))
  rw [leWords_append hxs, leWords_leBytes_append (by omega), List.sum_append, List.sum_cons] at hnew
  obtain ⟨hlt, hmod, hzero⟩ := hstale
  rw [← leSum_eq_max_iff, hnew.eq_max_iff]
  generalize (leWords xs).sum = a at *
  generalize (leWords ys).sum = b at *
  omega

end OnesComplement
