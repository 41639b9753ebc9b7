import Mathlib.Data.List.Basic
import Mathlib.Tactic.Common

/-!
# Binary search trees under any rebalancing

Entries carry keys that a three-way comparison `cmp` orders.  `find` and
`insertLeaf` walk down the tree; everything they do is a fact about the in-order
list `toList`, so a rebalancing that keeps that list (`Reshape`) changes nothing:

    Ordered t → (find k t = some a ↔ a ∈ t.toList ∧ cmp k (key a) = .eq)     (find_eq_some_iff)
    insertLeaf x t = some t' → find k t' = if cmp k (key x) = .eq then some x else find k t
                                                                             (find_insertLeaf)
-/

namespace SearchTree

inductive LinkTree (α : Type) where
  | nil : LinkTree α
  | node (left : LinkTree α) (entry : α) (right : LinkTree α) : LinkTree α

namespace LinkTree

variable {α : Type}

/-- The entries in order. -/
def toList : LinkTree α → List α
  | .nil => []
  | .node l a r => l.toList ++ a :: r.toList

@[simp] theorem toList_nil : (nil : LinkTree α).toList = [] := rfl

@[simp] theorem toList_node (l r : LinkTree α) (a : α) :
    (node l a r).toList = l.toList ++ a :: r.toList := rfl

end LinkTree

/-- A rebalancing: any function on trees that keeps the in-order list. -/
structure Reshape (α : Type) where
  apply : LinkTree α → LinkTree α
  toList_apply : ∀ t, (apply t).toList = t.toList

/-- No rebalancing at all. -/
def Reshape.refl (α : Type) : Reshape α := ⟨id, fun _ => rfl⟩

variable {α κ : Type} (cmp : κ → κ → Ordering) (key : α → κ)

/-- Follow the comparisons down from the root. -/
def find (k : κ) : LinkTree α → Option α
  | .nil => none
  | .node l a r =>
    match cmp k (key a) with
    | .lt => find k l
    | .gt => find k r
    | .eq => some a

/-- Link `x` as a new leaf; `none` when its key is met on the way. -/
def insertLeaf (x : α) : LinkTree α → Option (LinkTree α)
  | .nil => some (.node .nil x .nil)
  | .node l a r =>
    match cmp (key x) (key a) with
    | .lt => (insertLeaf x l).map fun l' => .node l' a r
    | .gt => (insertLeaf x r).map fun r' => .node l a r'
    | .eq => none

/-- Keys strictly increase from left to right. -/
def Ordered (t : LinkTree α) : Prop := t.toList.Pairwise fun a b => cmp (key a) (key b) = .lt

/-! ## Inserting, whatever the order -/

theorem insertLeaf_eq_none_iff (x : α) (t : LinkTree α) :
    insertLeaf cmp key x t = none ↔ (find cmp key (key x) t).isSome := by
  induction t with
  | nil => simp [insertLeaf, find]
  | node l a r ihl ihr =>
    unfold insertLeaf find
    cases cmp (key x) (key a) with
    | lt => simpa using ihl
    | gt => simpa using ihr
    | eq => simp

/-- A new leaf splits the in-order list at one place. -/
theorem insertLeaf_toList {x : α} {t t' : LinkTree α} (h : insertLeaf cmp key x t = some t') :
    ∃ l r, t.toList = l ++ r ∧ t'.toList = l ++ x :: r := by
  induction t generalizing t' with
  | nil =>
    obtain rfl : .node .nil x .nil = t' := by simpa [insertLeaf] using h
    exact ⟨[], [], rfl, rfl⟩
  | node tl a tr ihl ihr =>
    unfold insertLeaf at h
    cases hc : cmp (key x) (key a) with
    | lt =>
      simp only [hc, Option.map_eq_some_iff] at h
      obtain ⟨u, hu, rfl⟩ := h
      obtain ⟨l, r, he, he'⟩ := ihl hu
      exact ⟨l, r ++ a :: tr.toList, by simp [he], by simp [he']⟩
    | gt =>
      simp only [hc, Option.map_eq_some_iff] at h
      obtain ⟨u, hu, rfl⟩ := h
      obtain ⟨l, r, he, he'⟩ := ihr hu
      exact ⟨tl.toList ++ a :: l, r, by simp [he], by simp [he']⟩
    | eq => simp [hc] at h

theorem mem_insertLeaf {x y : α} {t t' : LinkTree α} (h : insertLeaf cmp key x t = some t') :
    y ∈ t'.toList ↔ y = x ∨ y ∈ t.toList := by
  obtain ⟨l, r, he, he'⟩ := insertLeaf_toList cmp key h
  rw [he, he']
  simp only [List.mem_append, List.mem_cons]
  tauto

theorem mem_of_find {k : κ} {t : LinkTree α} {a : α} (h : find cmp key k t = some a) :
    a ∈ t.toList ∧ cmp k (key a) = .eq := by
  induction t with
  | nil => simp [find] at h
  | node l b r ihl ihr =>
    unfold find at h
    cases hc : cmp k (key b) with
    | lt =>
      rw [hc] at h
      have := ihl h
      exact ⟨by simp [this.1], this.2⟩
    | gt =>
      rw [hc] at h
      have := ihr h
      exact ⟨by simp [this.1], this.2⟩
    | eq =>
      simp only [hc, Option.some.injEq] at h
      subst h
      exact ⟨by simp, hc⟩

/-! ## Ordered trees -/

theorem ordered_reshape (f : Reshape α) {t : LinkTree α} (ht : Ordered cmp key t) :
    Ordered cmp key (f.apply t) := by
  unfold Ordered
  rw [f.toList_apply]
  exact ht

section
variable [Std.TransCmp cmp]

theorem ordered_node {l r : LinkTree α} {a : α} :
    Ordered cmp key (.node l a r) ↔ Ordered cmp key l ∧ Ordered cmp key r ∧
      (∀ b ∈ l.toList, cmp (key b) (key a) = .lt) ∧ ∀ b ∈ r.toList, cmp (key a) (key b) = .lt := by
  unfold Ordered
  rw [LinkTree.toList_node, List.pairwise_append, List.pairwise_cons]
  constructor
  · rintro ⟨hl, ⟨har, hr⟩, hlr⟩
    exact ⟨hl, hr, fun b hb => hlr b hb a List.mem_cons_self, har⟩
  · rintro ⟨hl, hr, hla, har⟩
    refine ⟨hl, ⟨har, hr⟩, fun b hb c hc => ?_⟩
    rcases List.mem_cons.mp hc with rfl | hc
    · exact hla b hb
    · exact Std.TransCmp.lt_trans (hla b hb) (har c hc)

/-- The descent misses no entry of an ordered tree. -/
theorem find_of_mem {t : LinkTree α} (ht : Ordered cmp key t) {k : κ} {a : α} (ha : a ∈ t.toList)
    (hk : cmp k (key a) = .eq) : find cmp key k t = some a := by
  induction t with
  | nil => simp at ha
  | node l b r ihl ihr =>
    obtain ⟨hl, hr, hlb, hbr⟩ := (ordered_node cmp key).1 ht
    unfold find
    rcases List.mem_append.mp ha with h | h
    · have : cmp k (key b) = .lt := Std.TransCmp.lt_of_eq_of_lt hk (hlb a h)
      rw [this]
      exact ihl hl h
    · rcases List.mem_cons.mp h with rfl | h
      · rw [hk]
      · have : cmp k (key b) = .gt :=
          Std.OrientedCmp.gt_of_lt (Std.TransCmp.lt_of_lt_of_eq (hbr a h) (Std.OrientedCmp.eq_symm hk))
        rw [this]
        exact ihr hr h

theorem find_eq_some_iff {t : LinkTree α} (ht : Ordered cmp key t) {k : κ} {a : α} :
    find cmp key k t = some a ↔ a ∈ t.toList ∧ cmp k (key a) = .eq :=
  ⟨mem_of_find cmp key, fun h => find_of_mem cmp key ht h.1 h.2⟩

/-- Two ordered trees with one in-order list answer alike. -/
theorem find_congr {t t' : LinkTree α} (ht : Ordered cmp key t) (h : t'.toList = t.toList) (k : κ) :
    find cmp key k t' = find cmp key k t := by
  have ht' : Ordered cmp key t' := by
    unfold Ordered
    rw [h]
    exact ht
  apply Option.ext
  intro a
  rw [find_eq_some_iff cmp key ht', find_eq_some_iff cmp key ht, h]

theorem ordered_insertLeaf {x : α} {t t' : LinkTree α} (ht : Ordered cmp key t)
    (h : insertLeaf cmp key x t = some t') : Ordered cmp key t' := by
  induction t generalizing t' with
  | nil =>
    obtain rfl : .node .nil x .nil = t' := by simpa [insertLeaf] using h
    simp [Ordered]
  | node l a r ihl ihr =>
    obtain ⟨hl, hr, hla, har⟩ := (ordered_node cmp key).1 ht
    unfold insertLeaf at h
    cases hc : cmp (key x) (key a) with
    | lt =>
      simp only [hc, Option.map_eq_some_iff] at h
      obtain ⟨u, hu, rfl⟩ := h
      refine (ordered_node cmp key).2 ⟨ihl hl hu, hr, fun b hb => ?_, har⟩
      rcases (mem_insertLeaf cmp key hu).1 hb with rfl | hb
      · exact hc
      · exact hla b hb
    | gt =>
      simp only [hc, Option.map_eq_some_iff] at h
      obtain ⟨u, hu, rfl⟩ := h
      refine (ordered_node cmp key).2 ⟨hl, ihr hr hu, hla, fun b hb => ?_⟩
      rcases (mem_insertLeaf cmp key hu).1 hb with rfl | hb
      · exact Std.OrientedCmp.lt_of_gt hc
      · exact har b hb
    | eq => simp [hc] at h

/-- After an insertion the new key finds the new entry, every other key what it found before. -/
theorem find_insertLeaf {x : α} {t t' : LinkTree α} (ht : Ordered cmp key t)
    (h : insertLeaf cmp key x t = some t') (k : κ) :
    find cmp key k t' = if cmp k (key x) = .eq then some x else find cmp key k t := by
  have ht' := ordered_insertLeaf cmp key ht h
  split
  · next hk => exact find_of_mem cmp key ht' ((mem_insertLeaf cmp key h).2 (Or.inl rfl)) hk
  · next hk =>
    apply Option.ext
    intro a
    rw [find_eq_some_iff cmp key ht', find_eq_some_iff cmp key ht, mem_insertLeaf cmp key h]
    constructor
    · rintro ⟨rfl | ha, hka⟩
      · exact absurd hka hk
      · exact ⟨ha, hka⟩
    · rintro ⟨ha, hka⟩
      exact ⟨Or.inr ha, hka⟩

theorem find_reshape (f : Reshape α) {t : LinkTree α} (ht : Ordered cmp key t) (k : κ) :
    find cmp key k (f.apply t) = find cmp key k t :=
  find_congr cmp key ht (f.toList_apply t) k

end

end SearchTree
