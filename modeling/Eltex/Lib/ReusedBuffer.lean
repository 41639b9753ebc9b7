import Eltex.Lib.ByteMem
import Eltex.Lib.CString
import Mathlib.Data.List.Induction

/-!
# A buffer that is used again

Messages are stored at the start of the same memory one after another, each over what the others
left there.  A byte of it is that of the last message which reached it (`after_apply`), and what
`%s` shows of memory that begins with a message is the message alone only if a NUL ends it there:

    shown (d ++ rest) = some (cstr d) ↔ 0 ∈ d ∨ rest.head? = some 0     (shown_append_iff)
-/

namespace ReusedBuffer

open ByteMem CString

variable {m : Mem} {msgs : List (List UInt8)} {d : List UInt8} {i n : Nat}

/-- Memory after messages that were all stored at its start. -/
def after (m : Mem) (msgs : List (List UInt8)) : Mem := msgs.foldl (fun m d => store m 0 d) m

/-- Byte `i` of the last message that has one, or else what was there before. -/
def lastByte (m : Mem) (msgs : List (List UInt8)) (i : Nat) : UInt8 :=
  ((msgs.filterMap fun d => d[i]?).getLast?).getD (m i)

theorem after_concat (m : Mem) (msgs : List (List UInt8)) (d : List UInt8) :
    after m (msgs ++ [d]) = store (after m msgs) 0 d := by
  rw [after, List.foldl_append]
  rfl

theorem store_zero_apply (m : Mem) (d : List UInt8) (i : Nat) : store m 0 d i = (d[i]?).getD (m i) := by
  rw [store, if_pos (Nat.zero_le i), Nat.sub_zero]

/-- **The last message that reaches a byte decides it.** -/
theorem after_apply (m : Mem) (msgs : List (List UInt8)) (i : Nat) : after m msgs i = lastByte m msgs i := by
  unfold lastByte
  induction msgs using List.reverseRecOn with
  | nil => rfl
  | append_singleton msgs d ih =>
    have hone : ([d].filterMap fun d => d[i]?) = (d[i]?).toList := by
      cases hd : d[i]? <;> simp [hd]
    rw [after_concat, store_zero_apply, List.filterMap_append, hone]
    cases d[i]? with
    | none =>
      rw [Option.toList_none, List.append_nil, Option.getD_none]
      exact ih
    | some b =>
      rw [Option.toList_some, List.getLast?_concat]
      rfl

/-- A message that fits, and behind it what was there. -/
theorem load_store_front (m : Mem) (h : d.length ≤ n) :
    load (store m 0 d) 0 n = d ++ load m d.length (n - d.length) := by
  obtain ⟨k, rfl⟩ := Nat.exists_eq_add_of_le h
  rw [load_append, load_store, Nat.zero_add, Nat.add_sub_cancel_left]
  congr 1
  exact load_congr fun j _ => store_of_disjoint m (by omega)

/-! ## Strings in the buffer -/

/-- What `%s` prints of memory; `none` when no NUL ends it. -/
def shown (mem : List UInt8) : Option (List UInt8) := if 0 ∈ mem then some (cstr mem) else none

theorem cstr_append_of_not_mem {s : List UInt8} (h : 0 ∉ s) (t : List UInt8) :
    cstr (s ++ t) = s ++ cstr t := by
  induction s with
  | nil => rfl
  | cons b s ih =>
    simp only [List.mem_cons, not_or] at h
    rw [List.cons_append, cstr_cons_of_ne (Ne.symm h.1), ih h.2, List.cons_append]

/-- **Exact text.**  A message is shown by itself just when a NUL is in it or stands behind it. -/
theorem shown_append_iff (d rest : List UInt8) :
    shown (d ++ rest) = some (cstr d) ↔ 0 ∈ d ∨ rest.head? = some 0 := by
  by_cases hd : 0 ∈ d
  · rw [shown, if_pos (List.mem_append_left rest hd), cstr_append_of_mem hd]
    exact iff_of_true rfl (Or.inl hd)
  · cases rest with
    | nil =>
      rw [List.append_nil, shown, if_neg hd]
      simp [hd]
    | cons b rest =>
      rw [List.head?_cons, Option.some.injEq]
      by_cases hb : b = 0
      · subst hb
        rw [shown, if_pos (by simp), cstr_append_nul]
        exact iff_of_true rfl (Or.inr rfl)
      · refine iff_of_false (fun h => ?_) (fun h => h.elim hd hb)
        unfold shown at h
        split at h
        · rw [cstr_append_of_not_mem hd, cstr_cons_of_ne hb, cstr_eq_self hd] at h
          have hlen := congrArg List.length (Option.some.inj h)
          rw [List.length_append, List.length_cons] at hlen
          omega
        · cases h

/-- The same in a buffer of `n` bytes with `behind` behind it. -/
theorem shown_store_iff (m : Mem) (h : d.length ≤ n) (behind : List UInt8) :
    shown (load (store m 0 d) 0 n ++ behind) = some (cstr d) ↔
      0 ∈ d ∨ (if d.length < n then m d.length = 0 else behind.head? = some 0) := by
  rw [load_store_front m h, List.append_assoc, shown_append_iff]
  by_cases hlt : d.length < n
  · obtain ⟨k, hk⟩ : ∃ k, n - d.length = 1 + k := ⟨n - d.length - 1, by omega⟩
    rw [if_pos hlt, hk, load_append]
    show 0 ∈ d ∨ some (m (d.length + 0)) = some 0 ↔ _
    rw [Nat.add_zero, Option.some.injEq]
  · have hzero : n - d.length = 0 := by omega
    rw [if_neg hlt, hzero]
    rfl

end ReusedBuffer
