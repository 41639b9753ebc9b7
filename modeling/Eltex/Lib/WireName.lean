import Eltex.Lib.CString
import Mathlib.Data.List.Flatten
import Mathlib.Tactic.Common

/-!
# Domain names on the wire

An uncompressed name is a sequence of labels, each an octet with its length (1 to
63) and that many octets of any value, closed by the zero octet of the root; all
of it in at most 255 octets.  The encoding can be cut into labels in one way only
(`labels_append_of_prefix`).

Read as a C string a name ends at its first zero octet, and a label may hold one.
Which names their string determines is `determined_iff`.
-/

open CString

/-- The labels, each behind its length octet. -/
def wireLabels (ls : List (List UInt8)) : List UInt8 := ls.flatMap fun l => UInt8.ofNat l.length :: l

structure WireName where
  labels : List (List UInt8)
  label_length : ∀ l ∈ labels, 1 ≤ l.length ∧ l.length ≤ 63
  length_le : (wireLabels labels).length + 1 ≤ 255

namespace WireName

def octets (n : WireName) : List UInt8 := wireLabels n.labels ++ [0]

@[simp] theorem wireLabels_nil : wireLabels [] = [] := rfl

theorem wireLabels_cons (l : List UInt8) (ls : List (List UInt8)) :
    wireLabels (l :: ls) = UInt8.ofNat l.length :: (l ++ wireLabels ls) := rfl

theorem wireLabels_append (ls ms : List (List UInt8)) :
    wireLabels (ls ++ ms) = wireLabels ls ++ wireLabels ms := List.flatMap_append

theorem length_octets (n : WireName) : n.octets.length = (wireLabels n.labels).length + 1 := by
  simp [octets]

theorem length_octets_le (n : WireName) : n.octets.length ≤ 255 := by
  rw [length_octets]
  exact n.length_le

theorem toNat_length {l : List UInt8} (h : l.length ≤ 63) : (UInt8.ofNat l.length).toNat = l.length := by
  rw [UInt8.toNat_ofNat', Nat.mod_eq_of_lt (by omega)]

theorem length_ne_zero {l : List UInt8} (h : 1 ≤ l.length ∧ l.length ≤ 63) :
    UInt8.ofNat l.length ≠ 0 := by
  intro h0
  have := toNat_length h.2
  rw [h0] at this
  simp at this
  omega

/-- A name that begins with the labels `ls` consists of them and further labels. -/
theorem labels_append_of_prefix {ls ms : List (List UInt8)}
    (hl : ∀ l ∈ ls, 1 ≤ l.length ∧ l.length ≤ 63) (hm : ∀ m ∈ ms, 1 ≤ m.length ∧ m.length ≤ 63)
    {rest : List UInt8} (h : wireLabels ms ++ [0] = wireLabels ls ++ rest) :
    ∃ ks, ms = ls ++ ks ∧ rest = wireLabels ks ++ [0] := by
  induction ls generalizing ms with
  | nil => exact ⟨ms, rfl, h.symm⟩
  | cons l ls ih =>
    have hl1 := hl l List.mem_cons_self
    cases ms with
    | nil =>
      rw [wireLabels_cons] at h
      exact absurd (List.cons.inj h).1.symm (length_ne_zero hl1)
    | cons m ms =>
      have hm1 := hm m List.mem_cons_self
      rw [wireLabels_cons, wireLabels_cons, List.cons_append, List.cons_append] at h
      obtain ⟨hlen, htail⟩ := List.cons.inj h
      have hlm : m.length = l.length := by
        rw [← toNat_length hm1.2, hlen, toNat_length hl1.2]
      rw [List.append_assoc, List.append_assoc] at htail
      obtain ⟨rfl, hrest⟩ := List.append_inj htail hlm
      obtain ⟨ks, rfl, hr⟩ := ih (fun k hk => hl k (List.mem_cons_of_mem _ hk))
        (fun k hk => hm k (List.mem_cons_of_mem _ hk)) hrest
      exact ⟨ks, rfl, hr⟩

/-- The labels hold no zero octet exactly when nothing before the root does. -/
theorem zero_not_mem_wireLabels {ls : List (List UInt8)}
    (hl : ∀ l ∈ ls, 1 ≤ l.length ∧ l.length ≤ 63) :
    0 ∉ wireLabels ls ↔ ∀ l ∈ ls, 0 ∉ l := by
  induction ls with
  | nil => simp
  | cons l ls ih =>
    have h1 := length_ne_zero (hl l List.mem_cons_self)
    rw [wireLabels_cons, List.forall_mem_cons, ← ih fun k hk => hl k (List.mem_cons_of_mem _ hk),
      List.mem_cons, List.mem_append, not_or, not_or]
    exact ⟨fun h => h.2, fun h => ⟨Ne.symm h1, h⟩⟩

theorem three_le_length {ks : List (List UInt8)} (hne : ks ≠ [])
    (hk : ∀ k ∈ ks, 1 ≤ k.length ∧ k.length ≤ 63) : 3 ≤ (wireLabels ks ++ [0]).length := by
  cases ks with
  | nil => exact absurd rfl hne
  | cons k ks =>
    have := (hk k List.mem_cons_self).1
    simp only [wireLabels_cons, List.length_append, List.length_cons, List.length_nil]
    omega

/-- No name is the beginning of another. -/
theorem eq_of_isPrefix {a b : WireName} (h : a.octets <+: b.octets) : a.octets = b.octets := by
  obtain ⟨r, hr⟩ := h
  rw [octets, List.append_assoc] at hr
  obtain ⟨ks, hb, hks⟩ := labels_append_of_prefix a.label_length b.label_length hr.symm
  cases ks with
  | nil =>
    rw [List.append_nil] at hb
    rw [octets, octets, hb]
  | cons k ks =>
    rw [wireLabels_cons] at hks
    exact absurd (List.cons.inj hks).1.symm (length_ne_zero (b.label_length k (by simp [hb])))

/-! ## Names as C strings -/

theorem zero_mem_octets (n : WireName) : 0 ∈ n.octets := by
  simp [octets]

/-- A name is its string, the NUL and what the string hides. -/
theorem octets_eq_cstr_append (n : WireName) : ∃ r, n.octets = cstr n.octets ++ 0 :: r := by
  obtain ⟨s, r, hs, h0⟩ := List.eq_append_cons_of_mem n.zero_mem_octets
  refine ⟨r, ?_⟩
  rw [hs, cstr_append_zero h0]

/-- No zero octet within the labels, or only one at their very end in a name so
long that no label fits behind it. -/
def Determined (n : WireName) : Prop :=
  (∀ l ∈ n.labels, 0 ∉ l) ∨ (254 ≤ n.octets.length ∧ (cstr n.octets).length + 2 = n.octets.length)

/-- The labels of a determined name begin every name with the same string, and
leave no room for another label. -/
theorem Determined.exists_rest {a b : WireName} (h : a.Determined)
    (hc : cstr a.octets = cstr b.octets) :
    ∃ r, b.octets = wireLabels a.labels ++ r ∧ ∀ ks, r = wireLabels ks ++ [0] →
      (∀ k ∈ ks, 1 ≤ k.length ∧ k.length ≤ 63) → ks = [] := by
  obtain ⟨r, hr⟩ := b.octets_eq_cstr_append
  rw [← hc] at hr
  rcases h with hz | ⟨hlong, hlen⟩
  · have hca : cstr a.octets = wireLabels a.labels :=
      cstr_append_zero ((zero_not_mem_wireLabels a.label_length).2 hz) []
    refine ⟨0 :: r, by rw [hr, hca], fun ks hks hk => ?_⟩
    -- what follows the labels begins with zero, and no label does
    cases ks with
    | nil => rfl
    | cons k ks =>
      rw [wireLabels_cons] at hks
      exact absurd (List.cons.inj hks).1.symm (length_ne_zero (hk k List.mem_cons_self))
  · obtain ⟨z, hz⟩ := a.octets_eq_cstr_append
    have hz1 : z.length = 1 := by
      have := congrArg List.length hz
      simp only [List.length_append, List.length_cons] at this
      omega
    have hla : wireLabels a.labels = cstr a.octets ++ [0] := by
      have hsplit : wireLabels a.labels ++ [0] = (cstr a.octets ++ [0]) ++ z := by
        rw [List.append_assoc]
        exact hz
      exact (List.append_inj' hsplit (by rw [hz1]; rfl)).1
    refine ⟨r, by rw [hr, hla, List.append_assoc]; rfl, fun ks hks hk => ?_⟩
    -- two octets are left at most, and a label with the root takes three
    apply Classical.byContradiction
    intro hne
    have h3 := three_le_length hne hk
    have hb := b.length_octets_le
    rw [← hks] at h3
    have := congrArg List.length hr
    simp only [List.length_append, List.length_cons] at this
    omega

theorem Determined.eq_of_cstr_eq {a b : WireName} (h : a.Determined)
    (hc : cstr a.octets = cstr b.octets) : a.octets = b.octets := by
  obtain ⟨r, hr, hks⟩ := h.exists_rest hc
  obtain ⟨ks, hb, rfl⟩ := labels_append_of_prefix a.label_length b.label_length hr
  have hk : ks = [] := hks ks rfl fun k hk => b.label_length k (by rw [hb]; exact List.mem_append_right _ hk)
  rw [hr, hk]
  rfl

/-- Labels around one with a zero octet in it. -/
theorem wireLabels_split (pre post : List (List UInt8)) (u v : List UInt8) :
    wireLabels (pre ++ (u ++ 0 :: v) :: post) ++ [0] =
      (wireLabels pre ++ UInt8.ofNat (u.length + 1 + v.length) :: u) ++
        0 :: (v ++ (wireLabels post ++ [0])) := by
  have hl : (u ++ 0 :: v).length = u.length + 1 + v.length := by
    simp only [List.length_append, List.length_cons]
    omega
  rw [wireLabels_append, wireLabels_cons, hl]
  simp only [List.append_assoc, List.cons_append]

/-- Behind a zero octet a name can go on otherwise, its string stays. -/
theorem exists_same_cstr {a : WireName} {pre post : List (List UInt8)} {u v : List UInt8}
    (ha : a.labels = pre ++ (u ++ 0 :: v) :: post) (v' : List UInt8) (post' : List (List UInt8))
    (hv : v'.length = v.length) (hpost : ∀ k ∈ post', 1 ≤ k.length ∧ k.length ≤ 63)
    (hlen : a.octets.length + (wireLabels post').length ≤ 255 + (wireLabels post).length) :
    ∃ b : WireName, cstr a.octets = cstr b.octets ∧
      (a.octets = b.octets → v ++ (wireLabels post ++ [0]) = v' ++ (wireLabels post' ++ [0])) := by
  have hoa : a.octets = (wireLabels pre ++ UInt8.ofNat (u.length + 1 + v.length) :: u) ++
      0 :: (v ++ (wireLabels post ++ [0])) := by
    rw [octets, ha, wireLabels_split]
  have hob := wireLabels_split pre post' u v'
  rw [hv] at hob
  refine ⟨⟨pre ++ (u ++ 0 :: v') :: post', fun k hk => ?_, ?_⟩, ?_, fun he => ?_⟩
  · rw [List.mem_append, List.mem_cons] at hk
    rcases hk with hk | rfl | hk
    · exact a.label_length k (by rw [ha]; exact List.mem_append_left _ hk)
    · have := a.label_length (u ++ 0 :: v) (by rw [ha]; simp)
      simp only [List.length_append, List.length_cons] at this ⊢
      omega
    · exact hpost k hk
  · have hlb := congrArg List.length hob
    rw [hoa] at hlen
    simp only [List.length_append, List.length_cons, List.length_nil] at hlb hlen ⊢
    omega
  · -- both strings end within the common part and its NUL
    show cstr a.octets = cstr (wireLabels (pre ++ (u ++ 0 :: v') :: post') ++ [0])
    rw [hoa, hob, cstr_append_cons_zero _ (v ++ _), cstr_append_cons_zero _ (v' ++ _)]
  · exact (List.cons.inj (List.append_cancel_left (hoa.symm.trans (he.trans hob)))).2

/-- The string of a name whose first zero octet ends its last label. -/
theorem cstr_length_of_last {a : WireName} {pre : List (List UInt8)} {u : List UInt8}
    (ha : a.labels = pre ++ [u ++ [0]]) (hpre : ∀ k ∈ pre, 0 ∉ k) (hu : 0 ∉ u) :
    (cstr a.octets).length + 2 = a.octets.length := by
  have ho : a.octets = (wireLabels pre ++ UInt8.ofNat (u.length + 1) :: u) ++ 0 :: [0] := by
    rw [octets, ha, wireLabels_split]
    rfl
  have hnz := length_ne_zero (a.label_length (u ++ [0]) (by rw [ha]; simp))
  rw [List.length_append, List.length_singleton] at hnz
  have hz : 0 ∉ wireLabels pre := by
    rw [zero_not_mem_wireLabels fun k hk => a.label_length k (by rw [ha]; simp [hk])]
    exact hpre
  rw [ho, cstr_append_zero]
  · simp only [List.length_append, List.length_cons, List.length_nil, Nat.add_assoc]
  · rw [List.mem_append, List.mem_cons, not_or, not_or]
    exact ⟨hz, Ne.symm hnz, hu⟩

/-- **Names their string determines.** -/
theorem determined_iff (a : WireName) :
    a.Determined ↔ ∀ b : WireName, cstr a.octets = cstr b.octets → a.octets = b.octets := by
  constructor
  · intro h b hc
    exact h.eq_of_cstr_eq hc
  · intro h
    apply Classical.byContradiction
    intro hd
    simp only [Determined, not_or, not_and, not_forall, not_not] at hd
    obtain ⟨⟨l, hl, h0⟩, hlong⟩ := hd
    -- the first label with a zero octet, and the first zero octet in it
    obtain ⟨l, hl⟩ := Option.isSome_iff_exists.1
      (List.find?_isSome (p := fun l => decide (0 ∈ l)).2 ⟨l, hl, decide_eq_true h0⟩)
    obtain ⟨h0, pre, post, hlab, hpre⟩ := List.find?_eq_some_iff_append.1 hl
    obtain ⟨u, v, rfl, hu⟩ := List.eq_append_cons_of_mem (of_decide_eq_true h0)
    cases v with
    | cons x v =>
      -- another octet behind the zero
      obtain ⟨b, hc, hne⟩ := exists_same_cstr hlab ((x + 1) :: v) post rfl
        (fun k hk => a.label_length k (by rw [hlab]; simp [hk]))
        (by have := a.length_octets_le; omega)
      have := (List.cons.inj (hne (h b hc))).1
      simp at this
    | nil =>
      by_cases hpost : post = []
      · subst hpost
        by_cases hlen : a.octets.length < 254
        · -- room for one more label
          obtain ⟨b, hc, hne⟩ := exists_same_cstr hlab [] [[1]] rfl
            (by simp) (by simp [wireLabels]; omega)
          have := congrArg List.length (hne (h b hc))
          simp only [wireLabels_nil, List.nil_append, List.length_append, List.length_singleton] at this
          simp [wireLabels] at this
        · exact hlong (by omega) (cstr_length_of_last hlab (fun k hk => by simpa using hpre k hk) hu)
      · -- the labels behind can go
        obtain ⟨b, hc, hne⟩ := exists_same_cstr hlab [] [] rfl (by simp)
          (by have := a.length_octets_le; simp [wireLabels]; omega)
        have h3 := three_le_length hpost fun k hk => a.label_length k (by rw [hlab]; simp [hk])
        have := congrArg List.length (hne (h b hc))
        simp only [wireLabels_nil, List.nil_append, List.length_singleton] at this
        omega

end WireName
