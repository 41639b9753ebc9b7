import Mathlib.Algebra.Ring.Nat
import Mathlib.Data.List.TakeWhile
import Mathlib.Tactic.Common

/-!
# Byte memory with little-endian words

Memory is a function from offsets to bytes.  `store` writes a list of bytes,
`storeLe` and `loadLe` a word of `n` bytes the way a little-endian host does.

    loadLe (storeLe m p n v) p n = v % 256 ^ n                          (loadLe_storeLe)
    q + k ≤ p ∨ p + n ≤ q → loadLe (storeLe m p n v) q k = loadLe m q k (loadLe_storeLe_of_disjoint)

`htons` and `ntohs` are the byte swap between that order and the network's.
-/

namespace ByteMem

abbrev Mem := Nat → UInt8

/-- The `n` bytes from `p` on. -/
def load (m : Mem) (p n : Nat) : List UInt8 := (List.range n).map fun i => m (p + i)

/-- The offsets of these bytes. -/
def span (p n : Nat) : List Nat := (List.range n).map fun i => p + i

def store (m : Mem) (p : Nat) (bs : List UInt8) : Mem := fun i =>
  if p ≤ i then (bs[i - p]?).getD (m i) else m i

/-- Value of a word, least significant byte first. -/
def leVal : List UInt8 → Nat
  | [] => 0
  | b :: bs => b.toNat + 256 * leVal bs

def leBytes : Nat → Nat → List UInt8
  | 0, _ => []
  | n + 1, v => UInt8.ofNat v :: leBytes n (v / 256)

def loadLe (m : Mem) (p n : Nat) : Nat := leVal (load m p n)

def storeLe (m : Mem) (p n v : Nat) : Mem := store m p (leBytes n v)

/-- Byte swap of the low 16 bits. -/
def htons (v : Nat) : Nat := v % 256 * 256 + v / 256 % 256

abbrev ntohs (v : Nat) : Nat := htons v

/-- The big-endian 16-bit value at `p`. -/
def be16 (m : Mem) (p : Nat) : Nat := (m p).toNat * 256 + (m (p + 1)).toNat

/-! ## Bytes -/

@[simp] theorem length_load (m : Mem) (p n : Nat) : (load m p n).length = n := by simp [load]

@[simp] theorem getElem_load (m : Mem) (p n i : Nat) (h : i < (load m p n).length) :
    (load m p n)[i] = m (p + i) := by simp [load]

@[simp] theorem mem_span {p n i : Nat} : i ∈ span p n ↔ p ≤ i ∧ i < p + n := by
  simp only [span, List.mem_map, List.mem_range]
  constructor
  · rintro ⟨j, hj, rfl⟩
    omega
  · rintro ⟨h1, h2⟩
    exact ⟨i - p, by omega, by omega⟩

theorem load_congr {m m' : Mem} {p p' n : Nat} (h : ∀ i < n, m (p + i) = m' (p' + i)) :
    load m p n = load m' p' n := by
  unfold load
  apply List.map_congr_left
  intro i hi
  exact h i (List.mem_range.mp hi)

theorem load_eq_iff (m : Mem) (p : Nat) (bs : List UInt8) :
    load m p bs.length = bs ↔ ∀ i (h : i < bs.length), m (p + i) = bs[i] := by
  constructor
  · intro h i hi
    have := getElem_load m p bs.length i (by simpa using hi)
    simp only [h] at this
    exact this.symm
  · intro h
    apply List.ext_getElem
    · simp
    · intro i h1 h2
      rw [getElem_load, h i h2]

theorem load_append (m : Mem) (p k n : Nat) : load m p (k + n) = load m p k ++ load m (p + k) n := by
  simp only [load, List.range_add, List.map_append, List.map_map]
  congr 1
  apply List.map_congr_left
  intro i _
  simp [Nat.add_assoc]

theorem take_load (m : Mem) (p k n : Nat) (h : k ≤ n) : (load m p n).take k = load m p k := by
  obtain ⟨j, rfl⟩ := Nat.exists_eq_add_of_le h
  rw [load_append, List.take_append_of_le_length (by simp), List.take_of_length_le (by simp)]

theorem drop_load (m : Mem) (p k n : Nat) : (load m p (k + n)).drop k = load m (p + k) n := by
  rw [load_append, List.drop_append_of_le_length (by rw [length_load]), List.drop_of_length_le (by rw [length_load]),
    List.nil_append]

/-- A store changes nothing outside its bytes. -/
theorem store_of_disjoint (m : Mem) {p i : Nat} {bs : List UInt8} (h : i < p ∨ p + bs.length ≤ i) :
    store m p bs i = m i := by
  unfold store
  split
  · rw [List.getElem?_eq_none (by omega), Option.getD_none]
  · rfl

theorem store_add (m : Mem) (p : Nat) {bs : List UInt8} {i : Nat} (h : i < bs.length) :
    store m p bs (p + i) = bs[i] := by
  simp [store, h]

theorem load_store (m : Mem) (p : Nat) (bs : List UInt8) : load (store m p bs) p bs.length = bs :=
  (load_eq_iff _ _ _).2 fun _ h => store_add m p h

/-! ## Words -/

@[simp] theorem length_leBytes (n v : Nat) : (leBytes n v).length = n := by
  induction n generalizing v with
  | zero => rfl
  | succ n ih => simp [leBytes, ih]

theorem leVal_leBytes (n v : Nat) : leVal (leBytes n v) = v % 256 ^ n := by
  induction n generalizing v with
  | zero => simp [leBytes, leVal, Nat.mod_one]
  | succ n ih =>
    rw [leBytes, leVal, ih, Nat.pow_succ', Nat.mod_mul, UInt8.toNat_ofNat']

theorem leBytes_leVal (bs : List UInt8) : leBytes bs.length (leVal bs) = bs := by
  induction bs with
  | nil => rfl
  | cons b bs ih =>
    have hb := b.toNat_lt
    have hlow : UInt8.ofNat (b.toNat + 256 * leVal bs) = b := by
      rw [← UInt8.toNat_inj, UInt8.toNat_ofNat']
      omega
    have hdiv : (b.toNat + 256 * leVal bs) / 256 = leVal bs := by omega
    rw [List.length_cons, leVal, leBytes, hlow, hdiv, ih]

theorem leVal_lt (bs : List UInt8) : leVal bs < 256 ^ bs.length := by
  induction bs with
  | nil => simp [leVal]
  | cons b bs ih =>
    rw [leVal, List.length_cons, Nat.pow_succ']
    have := b.toNat_lt
    omega

theorem loadLe_lt (m : Mem) (p n : Nat) : loadLe m p n < 256 ^ n := by
  have := leVal_lt (load m p n)
  rwa [length_load] at this

theorem loadLe_congr {m m' : Mem} {p p' n : Nat} (h : ∀ i < n, m (p + i) = m' (p' + i)) :
    loadLe m p n = loadLe m' p' n := by
  rw [loadLe, loadLe, load_congr h]

theorem loadLe_storeLe (m : Mem) (p n v : Nat) : loadLe (storeLe m p n v) p n = v % 256 ^ n := by
  have h := load_store m p (leBytes n v)
  rw [length_leBytes] at h
  rw [loadLe, storeLe, h, leVal_leBytes]

theorem load_storeLe (m : Mem) (p n v : Nat) : load (storeLe m p n v) p n = leBytes n v := by
  have h := load_store m p (leBytes n v)
  rwa [length_leBytes] at h

/-- Structures are filled field by field. -/
theorem load_store_concat (m : Mem) (p k : Nat) (bs : List UInt8) :
    load (store m (p + k) bs) p (k + bs.length) = load m p k ++ bs := by
  have hbefore : load (store m (p + k) bs) p k = load m p k :=
    load_congr fun i hi => store_of_disjoint m (by omega)
  rw [load_append, hbefore, load_store]

theorem load_storeLe_concat (m : Mem) (p k n v : Nat) :
    load (storeLe m (p + k) n v) p (k + n) = load m p k ++ leBytes n v := by
  have h := load_store_concat m p k (leBytes n v)
  rwa [length_leBytes] at h

/-- Equal words have equal bytes. -/
theorem load_eq_of_loadLe {m m' : Mem} {p p' n : Nat} (h : loadLe m p n = loadLe m' p' n) :
    load m p n = load m' p' n := by
  have h1 := leBytes_leVal (load m p n)
  have h2 := leBytes_leVal (load m' p' n)
  rw [length_load] at h1 h2
  rw [← h1, ← h2]
  exact congrArg (leBytes n) h

/-- A word read back is the word stored. -/
theorem loadLe_storeLe_of_lt (m : Mem) {p n v : Nat} (h : v < 256 ^ n) :
    loadLe (storeLe m p n v) p n = v := by
  rw [loadLe_storeLe, Nat.mod_eq_of_lt h]

theorem storeLe_of_disjoint (m : Mem) {p n v i : Nat} (h : i < p ∨ p + n ≤ i) :
    storeLe m p n v i = m i := store_of_disjoint m (by simpa using h)

/-- Storing what is there changes nothing. -/
theorem storeLe_loadLe (m : Mem) (p n : Nat) : storeLe m p n (loadLe m p n) = m := by
  have hbytes := leBytes_leVal (load m p n)
  rw [length_load] at hbytes
  funext i
  rw [storeLe, loadLe, hbytes]
  by_cases hi : i < p ∨ p + n ≤ i
  · exact store_of_disjoint m (by rwa [length_load])
  · obtain ⟨j, rfl⟩ := Nat.exists_eq_add_of_le (by omega : p ≤ i)
    rw [store_add m p (by rw [length_load]; omega), getElem_load]

theorem storeLe_congr {m m' : Mem} {p n v v' i : Nat} (hv : v = v') (h : m i = m' i) :
    storeLe m p n v i = storeLe m' p n v' i := by
  subst hv
  unfold storeLe store
  rw [h]

theorem load_storeLe_of_disjoint (m : Mem) {p n v q k : Nat} (h : q + k ≤ p ∨ p + n ≤ q) :
    load (storeLe m p n v) q k = load m q k :=
  load_congr fun _ _ => storeLe_of_disjoint m (by omega)

theorem loadLe_storeLe_of_disjoint (m : Mem) {p n v q k : Nat} (h : q + k ≤ p ∨ p + n ≤ q) :
    loadLe (storeLe m p n v) q k = loadLe m q k := by
  rw [loadLe, load_storeLe_of_disjoint m h, loadLe]

/-! ## Network order -/

theorem toNat_ofNat_loadLe (m : Mem) (p : Nat) : (UInt32.ofNat (loadLe m p 4)).toNat = loadLe m p 4 := by
  have hlt := loadLe_lt m p 4
  rw [UInt32.toNat_ofNat', Nat.mod_eq_of_lt]
  omega

theorem loadLe_two (m : Mem) (p : Nat) : loadLe m p 2 = (m p).toNat + 256 * (m (p + 1)).toNat := by
  simp [loadLe, load, leVal, List.range_succ]

theorem htons_lt (v : Nat) : htons v < 65536 := by
  unfold htons
  omega

/-- Swapping twice keeps the low 16 bits. -/
theorem htons_htons_mod (v : Nat) : htons (htons v) = v % 65536 := by
  have hlo : (v % 256 * 256 + v / 256 % 256) % 256 = v / 256 % 256 := by omega
  have hhi : (v % 256 * 256 + v / 256 % 256) / 256 = v % 256 := by omega
  unfold htons
  rw [hlo, hhi]
  omega

theorem htons_htons {v : Nat} (h : v < 65536) : htons (htons v) = v := by
  rw [htons_htons_mod, Nat.mod_eq_of_lt h]

/-- In memory it has its bytes in network order. -/
theorem leBytes_htons (v : Nat) : leBytes 2 (htons v) = [UInt8.ofNat (v / 256), UInt8.ofNat v] := by
  have hlow : UInt8.ofNat (htons v) = UInt8.ofNat (v / 256) := by
    rw [← UInt8.toNat_inj, UInt8.toNat_ofNat', UInt8.toNat_ofNat', htons]
    omega
  have hdiv : htons v / 256 = v % 256 := by
    unfold htons
    omega
  have hhigh : UInt8.ofNat (v % 256) = UInt8.ofNat v := by
    rw [← UInt8.toNat_inj, UInt8.toNat_ofNat', UInt8.toNat_ofNat']
    omega
  rw [leBytes, leBytes, leBytes, hlow, hdiv, hhigh]

/-- `ntohs` of the word in memory is the big-endian value of its bytes. -/
theorem htons_loadLe (m : Mem) (p : Nat) : htons (loadLe m p 2) = be16 m p := by
  have h0 := (m p).toNat_lt
  have h1 := (m (p + 1)).toNat_lt
  rw [loadLe_two, htons, be16]
  omega

/-- A word compared with `htons v` is compared in network order. -/
theorem loadLe_eq_htons_iff (m : Mem) (p : Nat) {v : Nat} (h : v < 65536) :
    loadLe m p 2 = htons v ↔ be16 m p = v := by
  rw [← htons_loadLe]
  constructor
  · intro he
    rw [he, htons_htons h]
  · rintro rfl
    rw [htons_htons (loadLe_lt m p 2)]

/-- Without `ntohs` a word is read rightly when its bytes are the same. -/
theorem loadLe_eq_be16_iff (m : Mem) (p : Nat) : loadLe m p 2 = be16 m p ↔ m p = m (p + 1) := by
  have h0 := (m p).toNat_lt
  have h1 := (m (p + 1)).toNat_lt
  rw [loadLe_two, be16, ← UInt8.toNat_inj]
  omega

theorem be16_eq_iff (m : Mem) (p q : Nat) : be16 m p = be16 m q ↔ m p = m q ∧ m (p + 1) = m (q + 1) := by
  have h0 := (m (p + 1)).toNat_lt
  have h1 := (m (q + 1)).toNat_lt
  rw [be16, be16, ← UInt8.toNat_inj, ← UInt8.toNat_inj]
  omega

theorem be16_congr {m m' : Mem} {p p' : Nat} (h0 : m p = m' p') (h1 : m (p + 1) = m' (p' + 1)) :
    be16 m p = be16 m' p' := by
  rw [be16, be16, h0, h1]

theorem be16_storeLe_htons (m : Mem) (p v : Nat) : be16 (storeLe m p 2 (htons v)) p = v % 65536 := by
  rw [← htons_loadLe, loadLe_storeLe_of_lt m (htons_lt v), htons_htons_mod]

theorem be16_storeLe_of_disjoint (m : Mem) {p n v q : Nat} (h : q + 2 ≤ p ∨ p + n ≤ q) :
    be16 (storeLe m p n v) q = be16 m q :=
  be16_congr (storeLe_of_disjoint m (by omega)) (storeLe_of_disjoint m (by omega))

end ByteMem
