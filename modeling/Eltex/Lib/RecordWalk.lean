import Eltex.Lib.ByteMem

/-!
# Walks over length-prefixed records

Records follow one another in memory, each with its own length in a header of `hdr` bytes and each
padded to a multiple of `a`.  `walk` steps from header to header while what is left admits one;
the number of bytes left is an `Int`, since the padding of the last record may overshoot it.

    0 < hdr → rest < fuel → ∃ os, walk a hdr lenAt fuel off rest = some os           (exists_walk)
    walk .. = some os → o ∈ os → off ≤ o ∧ o + lenAt o ≤ off + rest                  (walk_inside)
    walk .. = some os → os.Pairwise fun o p => o + lenAt o ≤ p                       (walk_pairwise)
    Layout a rs bs → bs stored at off → walk .. = some (starts a off lengths)        (walk_layout)
-/

namespace RecordWalk

open ByteMem

/-- `n` rounded up to a multiple of `a`. -/
def alignTo (a n : Nat) : Nat := (n + (a - 1)) / a * a

theorem dvd_alignTo (a n : Nat) : a ∣ alignTo a n := Nat.dvd_mul_left a _

theorem le_alignTo {a : Nat} (ha : 0 < a) (n : Nat) : n ≤ alignTo a n := by
  have h := Nat.lt_div_mul_add (a := n + (a - 1)) ha
  unfold alignTo
  omega

theorem alignTo_lt {a : Nat} (ha : 0 < a) (n : Nat) : alignTo a n < n + a := by
  have h := Nat.div_mul_le_self (n + (a - 1)) a
  unfold alignTo
  omega

/-! ## The walk -/

section
variable (a hdr : Nat) (lenAt : Nat → Nat)

/-- A header at `off` with `rest` bytes left is taken for that of a record. -/
def Valid (off : Nat) (rest : Int) : Prop := hdr ≤ rest ∧ hdr ≤ lenAt off ∧ lenAt off ≤ rest

instance (off : Nat) (rest : Int) : Decidable (Valid hdr lenAt off rest) :=
  inferInstanceAs (Decidable (_ ∧ _))

/-- The headers met; `none` when the fuel runs out. -/
def walk : Nat → Nat → Int → Option (List Nat)
  | 0, _, _ => none
  | fuel + 1, off, rest =>
    if Valid hdr lenAt off rest then
      (walk fuel (off + alignTo a (lenAt off)) (rest - alignTo a (lenAt off))).map fun os => off :: os
    else some []

variable {a hdr lenAt}

/-- A walk that went on met a record and then walked the rest. -/
theorem walk_succ_of_valid {fuel off : Nat} {rest : Int} (h : Valid hdr lenAt off rest) :
    walk a hdr lenAt (fuel + 1) off rest =
      (walk a hdr lenAt fuel (off + alignTo a (lenAt off)) (rest - alignTo a (lenAt off))).map
        fun os => off :: os := by
  rw [walk, if_pos h]

theorem walk_succ_of_not_valid {fuel off : Nat} {rest : Int} (h : ¬ Valid hdr lenAt off rest) :
    walk a hdr lenAt (fuel + 1) off rest = some [] := by
  rw [walk, if_neg h]

/-- Each step takes away a byte at least, so the walk ends. -/
theorem exists_walk (ha : 0 < a) (hpos : 0 < hdr) {fuel off : Nat} {rest : Int} (hf : rest < fuel)
    (hf0 : 0 < fuel) : ∃ os, walk a hdr lenAt fuel off rest = some os := by
  induction fuel generalizing off rest with
  | zero => omega
  | succ fuel ih =>
    by_cases h : Valid hdr lenAt off rest
    · rw [walk_succ_of_valid h]
      obtain ⟨h1, h2, h3⟩ := h
      have hle := le_alignTo ha (lenAt off)
      obtain ⟨os, hos⟩ := @ih (off + alignTo a (lenAt off)) (rest - alignTo a (lenAt off)) (by omega)
        (by omega)
      exact ⟨off :: os, by rw [hos]; rfl⟩
    · exact ⟨[], walk_succ_of_not_valid h⟩

/-- A header met: its record lies in the part walked over, at a multiple of `a` from its start. -/
structure Met (a hdr : Nat) (lenAt : Nat → Nat) (off : Nat) (rest : Int) (o : Nat) : Prop where
  le : off ≤ o
  aligned : a ∣ o - off
  header : hdr ≤ lenAt o
  inside : (o : Int) + lenAt o ≤ off + rest

/-- **Every header met is that of a record inside the part walked over.** -/
theorem walk_inside (ha : 0 < a) {fuel off : Nat} {rest : Int} {os : List Nat}
    (h : walk a hdr lenAt fuel off rest = some os) {o : Nat} (ho : o ∈ os) :
    Met a hdr lenAt off rest o := by
  induction fuel generalizing off rest os with
  | zero => cases h
  | succ fuel ih =>
    by_cases hv : Valid hdr lenAt off rest
    · rw [walk_succ_of_valid hv] at h
      obtain ⟨os', hos', rfl⟩ := Option.map_eq_some_iff.1 h
      have hle := le_alignTo ha (lenAt off)
      rcases List.mem_cons.1 ho with rfl | ho'
      · obtain ⟨-, h2, h3⟩ := hv
        exact ⟨Nat.le_refl o, by simp, h2, by omega⟩
      · obtain ⟨i1, i2, i3, i4⟩ := ih hos' ho'
        refine ⟨by omega, ?_, i3, by omega⟩
        have hsub : o - off = o - (off + alignTo a (lenAt off)) + alignTo a (lenAt off) := by omega
        rw [hsub]
        exact Nat.dvd_add i2 (dvd_alignTo a _)
    · rw [walk_succ_of_not_valid hv] at h
      obtain rfl : [] = os := Option.some.inj h
      cases ho

/-- **Records met do not overlap.** -/
theorem walk_pairwise (ha : 0 < a) {fuel off : Nat} {rest : Int} {os : List Nat}
    (h : walk a hdr lenAt fuel off rest = some os) : os.Pairwise fun o p => o + lenAt o ≤ p := by
  induction fuel generalizing off rest os with
  | zero => cases h
  | succ fuel ih =>
    by_cases hv : Valid hdr lenAt off rest
    · rw [walk_succ_of_valid hv] at h
      obtain ⟨os', hos', rfl⟩ := Option.map_eq_some_iff.1 h
      refine List.Pairwise.cons (fun p hp => ?_) (ih hos')
      have hmet := (walk_inside ha hos' hp).le
      have hle := le_alignTo ha (lenAt off)
      omega
    · rw [walk_succ_of_not_valid hv] at h
      obtain rfl : [] = os := Option.some.inj h
      exact List.Pairwise.nil

end

/-! ## Records laid out in memory -/

/-- The records `rs` one after another in `bs`: behind each as many bytes as its padding takes,
whatever they are; behind the last there may be fewer. -/
inductive Layout (a : Nat) : List (List UInt8) → List UInt8 → Prop where
  | nil : Layout a [] []
  | last (r pad : List UInt8) : r.length + pad.length ≤ alignTo a r.length → Layout a [r] (r ++ pad)
  | cons (r pad : List UInt8) (rs : List (List UInt8)) (bs : List UInt8) :
      r.length + pad.length = alignTo a r.length → Layout a rs bs → Layout a (r :: rs) (r ++ pad ++ bs)

theorem Layout.length_le {a : Nat} {rs : List (List UInt8)} {bs : List UInt8} (h : Layout a rs bs) :
    ∀ r ∈ rs, r.length ≤ bs.length := by
  induction h with
  | nil =>
    intro r hr
    cases hr
  | last r pad _ =>
    intro r' hr'
    obtain rfl := List.mem_singleton.1 hr'
    simp
  | cons r pad rs bs _ _ ih =>
    intro r' hr'
    rw [List.length_append, List.length_append]
    rcases List.mem_cons.1 hr' with rfl | hr'
    · omega
    · have := ih r' hr'
      omega

/-- Where records of these lengths begin. -/
def starts (a : Nat) : Nat → List Nat → List Nat
  | _, [] => []
  | off, l :: ls => off :: starts a (off + alignTo a l) ls

/-- The records can be read back at their starts. -/
def Stored (a : Nat) (m : Mem) : Nat → List (List UInt8) → Prop
  | _, [] => True
  | off, r :: rs => load m off r.length = r ∧ Stored a m (off + alignTo a r.length) rs

theorem load_append_left {m : Mem} {off : Nat} {r s : List UInt8}
    (h : load m off (r ++ s).length = r ++ s) : load m off r.length = r := by
  rw [List.length_append, load_append] at h
  exact List.append_inj_left h (by simp)

theorem load_append_right {m : Mem} {off : Nat} {r s : List UInt8}
    (h : load m off (r ++ s).length = r ++ s) : load m (off + r.length) s.length = s := by
  rw [List.length_append, load_append] at h
  exact List.append_inj_right h (by simp)

theorem Layout.stored {a : Nat} {rs : List (List UInt8)} {bs : List UInt8} (h : Layout a rs bs) {m : Mem}
    {off : Nat} (hm : load m off bs.length = bs) : Stored a m off rs := by
  induction h generalizing off with
  | nil => trivial
  | last r pad _ => exact ⟨load_append_left hm, trivial⟩
  | cons r pad rs bs hpad _ ih =>
    have hrest := load_append_right hm
    rw [List.length_append, hpad] at hrest
    exact ⟨load_append_left (load_append_left hm), ih hrest⟩

theorem Stored.forall₂ {a : Nat} {m : Mem} {off : Nat} {rs : List (List UInt8)} (h : Stored a m off rs) :
    List.Forall₂ (fun r o => load m o r.length = r) rs (starts a off (rs.map List.length)) := by
  induction rs generalizing off with
  | nil => exact List.Forall₂.nil
  | cons r rs ih => exact List.Forall₂.cons h.1 (ih h.2)

/-- **A walk over a layout meets exactly the records laid out.** -/
theorem walk_layout {a hdr : Nat} {lenAt : Nat → Nat} {rs : List (List UInt8)} {bs : List UInt8}
    (ha : 0 < a) (hpos : 0 < hdr) (h : Layout a rs bs) {m : Mem} {fuel off : Nat}
    (hm : load m off bs.length = bs)
    (hr : ∀ r ∈ rs, hdr ≤ r.length ∧ ∀ o, load m o r.length = r → lenAt o = r.length)
    (hf : bs.length < fuel) :
    walk a hdr lenAt fuel off bs.length = some (starts a off (rs.map List.length)) := by
  induction h generalizing off fuel with
  | nil =>
    obtain ⟨fuel, rfl⟩ : ∃ k, fuel = k + 1 := ⟨fuel - 1, by omega⟩
    apply walk_succ_of_not_valid
    rintro ⟨h1, -, -⟩
    simp only [List.length_nil] at h1
    omega
  | last r pad hpad =>
    obtain ⟨h1, h2⟩ := hr r List.mem_cons_self
    have hlen := h2 off (load_append_left hm)
    rw [List.length_append] at hf ⊢
    obtain ⟨fuel, rfl⟩ : ∃ k, fuel = k + 1 + 1 := ⟨fuel - 2, by omega⟩
    have hv : Valid hdr lenAt off (r.length + pad.length : Nat) := ⟨by omega, by omega, by omega⟩
    rw [walk_succ_of_valid hv, walk_succ_of_not_valid]
    · rfl
    · rintro ⟨h3, -, -⟩
      rw [hlen] at h3
      omega
  | cons r pad rs bs hpad _ ih =>
    obtain ⟨h1, h2⟩ := hr r List.mem_cons_self
    have hlen := h2 off (load_append_left (load_append_left hm))
    have hrest := load_append_right hm
    simp only [List.length_append, hpad] at hf hrest ⊢
    have hle := le_alignTo ha r.length
    obtain ⟨fuel, rfl⟩ : ∃ k, fuel = k + 1 := ⟨fuel - 1, by omega⟩
    have hv : Valid hdr lenAt off (alignTo a r.length + bs.length : Nat) := ⟨by omega, by omega, by omega⟩
    have hleft : ((alignTo a r.length + bs.length : Nat) : Int) - alignTo a r.length = bs.length := by omega
    rw [walk_succ_of_valid hv, hlen, hleft,
      ih hrest (fun r' hr' => hr r' (List.mem_cons_of_mem _ hr')) (by omega)]
    rfl

end RecordWalk
