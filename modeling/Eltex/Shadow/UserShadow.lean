import Eltex.Lib.ReusedBuffer
import Eltex.Shadow.KernelShadow

/-!
# The program that has itself raised

It prints its process number into four bytes and writes these to the module, which reads up to five bytes
and a NUL behind them that need not be there.  So the module gets the first five digits
(`value_write`).

When the signal comes it reads `/etc/shadow` in pieces of 64 bytes and prints each as a string, with
nothing in its buffer that ends it.  So a text of 64 bytes or more comes out right just when its
length is a multiple of 64 and the heap happens to have a NUL right behind the buffer
(`printLoop_eq_iff`).
-/

namespace Eltex.Shadow

open ByteMem CString Printf ReusedBuffer Runs UserCopy

/-- `malloc(sizeof(int))` for `buffer` -/
def bufferSize : Nat := 4

/-- `BUFFER_LEN` -/
def bufferLen : Nat := 64

/-- An execution up to its `write`: the process, the heap behind the string in `buffer`, and what the module
finds.  Behind `msg` there is no digit. -/
structure User where
  pid : Nat
  heap : List UInt8
  behind : List UInt8
  tasks : Int → Option Nat
  pid_lt : pid < 2147483648
  ends : Ends behind

/-- `sprintf(buffer, "%d", pid)` and `write`; the module does not ask for the length. -/
def User.write (u : User) : Write := ⟨⟨formatInt u.pid ++ 0 :: u.heap, 0⟩, u.behind, u.tasks⟩

/-- The number that the first five digits make. -/
def firstFive (pid : Nat) : Nat := pid / 10 ^ ((decimal pid).length - maxLenMsg)

/-- The loop over `/etc/shadow` with `buffer_shadow`, and the heap behind it: all that is printed. -/
def printLoop (m : Mem) (behind : List UInt8) (file : List UInt8) : List UInt8 :=
  if file = [] then []
  else
    let m := store m 0 (file.take bufferLen)
    cstr (load m 0 bufferLen ++ behind) ++ printLoop m behind (file.drop bufferLen)
termination_by file.length
decreasing_by
  next h =>
    have hpos := List.length_pos_iff.2 h
    rw [List.length_drop]
    unfold bufferLen
    omega

/-! ## The number written -/

section
variable {u : User} {us : List User} {pid : Nat}

theorem zero_not_mem_decimal (n : Nat) : 0 ∉ decimal n := fun h =>
  absurd (isDigit_of_mem_decimal h) (by decide)

theorem firstFive_of_length_le (h : (decimal pid).length ≤ maxLenMsg) : firstFive pid = pid := by
  rw [firstFive, Nat.sub_eq_zero_of_le h, pow_zero, Nat.div_one]

theorem firstFive_le (pid : Nat) : firstFive pid ≤ pid := Nat.div_le_self _ _

theorem firstFive_eq_iff : firstFive pid = pid ↔ pid < 100000 := by
  have hlen := length_decimal_le_iff (n := pid) (k := maxLenMsg) (by decide)
  constructor
  · intro h
    by_contra hge
    obtain ⟨j, hj⟩ : ∃ j, (decimal pid).length - maxLenMsg = j + 1 := by
      have hlt : maxLenMsg < (decimal pid).length := Nat.lt_of_not_le fun hle => hge (hlen.1 hle)
      exact ⟨(decimal pid).length - maxLenMsg - 1, by omega⟩
    have hpow : 1 < 10 ^ (j + 1) := Nat.one_lt_pow (Nat.succ_ne_zero j) (by decide)
    rw [firstFive, hj] at h
    have hdiv := Nat.div_lt_self (by omega : 0 < pid) hpow
    omega
  · exact fun h => firstFive_of_length_le (hlen.2 h)

/-- **The module reads the first five digits.** -/
theorem value_write (u : User) : u.write.value = some (firstFive u.pid : Int) := by
  have hformat : formatInt u.pid = decimal u.pid := by
    rw [formatInt, if_neg (by omega)]
    rfl
  have hint : toInt32 (firstFive u.pid : Int) = firstFive u.pid := by
    have hle := firstFive_le u.pid
    have hlt := u.pid_lt
    exact toInt32_eq (by omega) (by omega)
  have hscan : ∃ rest, scanInt u.write.text = some ((firstFive u.pid : Int), rest) := by
    have htext : u.write.text = if 0 ∈ (decimal u.pid ++ 0 :: u.heap).take maxLenMsg then
        cstr (decimal u.pid ++ 0 :: u.heap) else (decimal u.pid ++ 0 :: u.heap).take maxLenMsg ++ u.behind := by
      rw [← hformat]
      rfl
    by_cases hlen : (decimal u.pid).length < maxLenMsg
    · -- with its NUL
      have hmem : 0 ∈ (decimal u.pid ++ 0 :: u.heap).take maxLenMsg := by
        rw [List.take_append, List.take_of_length_le hlen.le, List.mem_append]
        right
        obtain ⟨k, hk⟩ : ∃ k, maxLenMsg - (decimal u.pid).length = k + 1 :=
          ⟨maxLenMsg - (decimal u.pid).length - 1, by omega⟩
        rw [hk, List.take_succ_cons]
        exact List.mem_cons_self
      have hread : scanInt (decimal u.pid ++ []) = some ((u.pid : Int), []) :=
        scanInt_decimal u.pid ends_nil
      rw [htext, if_pos hmem, cstr_append_zero (zero_not_mem_decimal u.pid), firstFive_of_length_le hlen.le]
      rw [List.append_nil] at hread
      exact ⟨[], hread⟩
    · have hle : maxLenMsg ≤ (decimal u.pid).length := Nat.le_of_not_lt hlen
      have htake : (decimal u.pid ++ 0 :: u.heap).take maxLenMsg = decimal (firstFive u.pid) := by
        rw [List.take_append_of_le_length hle]
        exact take_decimal (by decide) (by omega)
      rw [htext, htake, if_neg (zero_not_mem_decimal _)]
      exact ⟨_, scanInt_decimal _ u.ends⟩
  obtain ⟨rest, hscan⟩ := hscan
  rw [Write.value, hscan, Option.map_some, hint]

theorem chosen_users (old : Int) (us : List User) (u : User) :
    chosen old ((us ++ [u]).map User.write) = firstFive u.pid := by
  rw [List.map_append, List.map_singleton, chosen_concat, value_write]
  rfl

theorem reached_users {old : Int} {c : Nat} :
    Reached old (us.map User.write) c ↔ ∃ u ∈ us, u.tasks (firstFive u.pid) = some c := by
  constructor
  · rintro ⟨pre, w, ⟨post, hpre⟩, htask⟩
    obtain ⟨us₁, us₂, rfl, hus₁, -⟩ := List.map_eq_append_iff.1 hpre.symm
    obtain ⟨us₀, us', rfl, hus₀, hus'⟩ := List.map_eq_append_iff.1 hus₁
    obtain ⟨u, rfl, rfl⟩ := List.map_eq_singleton_iff.1 hus'
    rw [← hus₀, ← List.map_singleton, ← List.map_append, chosen_users] at htask
    exact ⟨u, by simp, htask⟩
  · rintro ⟨u, hu, htask⟩
    obtain ⟨us₁, us₂, rfl⟩ := List.append_of_mem hu
    refine ⟨us₁.map User.write, u.write, ⟨us₂.map User.write, by simp⟩, ?_⟩
    rw [← List.map_singleton, ← List.map_append, chosen_users]
    exact htask

end

/-- **Who raises whom.**  Executions of the program in any number raise exactly the processes with the
numbers their first five digits make: their own up to 99999, above that another, smaller one.  The string
stays inside `buffer` up to 999. -/
theorem users_raise (K : StrncpyFromUser) {s t : Kernel} {us : List User}
    (h : run (step K) s (us.map User.write) = some t) :
    (∀ c, (∃ u ∈ us, u.tasks (firstFive u.pid) = some c) → t.cred c = { s.cred c with euid := 0, fsuid := 0 }) ∧
      (∀ c, (∀ u ∈ us, u.tasks (firstFive u.pid) ≠ some c) → t.cred c = s.cred c) ∧
      ∀ u ∈ us, firstFive u.pid ≤ u.pid ∧ (firstFive u.pid = u.pid ↔ u.pid < 100000) ∧
        ((formatInt u.pid ++ [0]).length ≤ bufferSize ↔ u.pid < 1000) := by
  have hraised := raised_run h
  refine ⟨fun c hc => hraised.reached c (reached_users.2 hc), fun c hc => hraised.untouched c fun hr => ?_,
    fun u _ => ⟨firstFive_le u.pid, firstFive_eq_iff, ?_⟩⟩
  · obtain ⟨u, hu, htask⟩ := reached_users.1 hr
    exact hc u hu htask
  · have hlen := length_decimal_le_iff (n := u.pid) (k := 3) (by decide)
    have hformat : formatInt u.pid = decimal u.pid := by
      rw [formatInt, if_neg (by omega)]
      rfl
    rw [hformat, List.length_append, List.length_singleton]
    exact (Nat.add_le_add_iff_right (n := 1)).trans hlen

/-- Process 123456 raises process 12345. -/
theorem users_raise_six :
    let s : Kernel := ⟨List.replicate 5 0, 0, fun _ => ⟨1000, 1000, 1000⟩, rfl⟩
    let u : User := ⟨123456, [], [], fun n => some n.toNat, by decide, fun _ h => nomatch h⟩
    ∃ t, run (step byteCopy) s [u.write] = some t ∧ t.cred 12345 = ⟨1000, 0, 0⟩ ∧
      t.cred 123456 = ⟨1000, 1000, 1000⟩ := by
  intro s u
  have hfive : firstFive 123456 = 12345 := by decide
  obtain ⟨t, hstep⟩ : ∃ t, step byteCopy s u.write = some t :=
    ⟨⟨_, _, _, length_copy byteCopy s.length_msg u.write.buffer⟩,
      step_eq_some_iff.2 ⟨by simp [User.write], _, rfl, rfl, rfl, rfl⟩⟩
  have ht : run (step byteCopy) s ([u].map User.write) = some t := by
    rw [List.map_singleton, run_cons, hstep]
    rfl
  obtain ⟨hraised, hsame, -⟩ := users_raise byteCopy ht
  refine ⟨t, ht, hraised 12345 ⟨u, List.mem_singleton_self u, ?_⟩, hsame 123456 fun v hv => ?_⟩
  · show some (firstFive 123456 : Int).toNat = _
    rw [hfive]
    rfl
  · rw [List.mem_singleton.1 hv]
    show some (firstFive 123456 : Int).toNat ≠ _
    rw [hfive]
    decide

/-! ## The file -/

section
variable {m : Mem} {file behind : List UInt8}

theorem printLoop_of_ne_nil (m : Mem) (behind : List UInt8) (h : file ≠ []) :
    printLoop m behind file = cstr (load (store m 0 (file.take bufferLen)) 0 bufferLen ++ behind) ++
      printLoop (store m 0 (file.take bufferLen)) behind (file.drop bufferLen) := by
  rw [printLoop, if_neg h]

/-- What a piece without a NUL shows: itself, and what stands behind the buffer. -/
theorem cstr_append_of_not_mem {d : List UInt8} (hd : 0 ∉ d) (hbehind : 0 ∈ behind) :
    cstr (d ++ behind) = d ++ cstr behind := by
  obtain ⟨rest, hrest⟩ := cstr_append_zero_isPrefix hbehind
  have hnul : 0 ∉ d ++ cstr behind := by
    rw [List.mem_append]
    exact fun h => h.elim hd (zero_not_mem_cstr behind)
  calc cstr (d ++ behind) = cstr ((d ++ cstr behind) ++ 0 :: rest) := by
        rw [List.append_assoc, ← List.singleton_append, ← List.append_assoc (cstr behind), hrest]
    _ = d ++ cstr behind := cstr_append_zero hnul rest

theorem cstr_eq_nil_iff (hbehind : 0 ∈ behind) : cstr behind = [] ↔ behind.head? = some 0 := by
  cases behind with
  | nil => exact absurd hbehind List.not_mem_nil
  | cons b rest =>
    rw [List.head?_cons, Option.some_inj]
    by_cases hb : b = 0
    · rw [hb, cstr_cons_zero]
      exact iff_of_true rfl rfl
    · rw [cstr_cons_of_ne hb]
      exact iff_of_false (List.cons_ne_nil _ _) hb

/-- A buffer full of text keeps no NUL. -/
theorem store_ne_zero {d : List UInt8} (hd : 0 ∉ d) {i : Nat} (hi : i < d.length) : store m 0 d i ≠ 0 := by
  intro hzero
  have hget := store_add m 0 hi
  rw [Nat.zero_add, hzero] at hget
  exact hd (hget ▸ List.getElem_mem _)

/-- A full piece is printed with what stands behind the buffer. -/
theorem printLoop_of_full (m : Mem) (hfile : 0 ∉ file) (hbehind : 0 ∈ behind) (hfull : bufferLen ≤ file.length) :
    printLoop m behind file = file.take bufferLen ++ (cstr behind ++
      printLoop (store m 0 (file.take bufferLen)) behind (file.drop bufferLen)) := by
  have hnil : file ≠ [] := by
    rintro rfl
    exact absurd hfull (by decide)
  have hload := load_store m 0 (file.take bufferLen)
  rw [List.length_take_of_le hfull] at hload
  have hpiece : 0 ∉ file.take bufferLen := fun h => hfile (List.mem_of_mem_take h)
  rw [printLoop_of_ne_nil m behind hnil, hload, cstr_append_of_not_mem hpiece hbehind, List.append_assoc]

/-- The last piece is the file's own just before a NUL that was in the buffer. -/
theorem printLoop_eq_iff_of_lt (m : Mem) (hfile : 0 ∉ file) (hbehind : 0 ∈ behind) (hnil : file ≠ [])
    (hlt : file.length < bufferLen) : printLoop m behind file = file ↔ m file.length = 0 := by
  have hshort : file.take bufferLen = file := List.take_of_length_le hlt.le
  have hdrop : file.drop bufferLen = [] := List.drop_eq_nil_of_le hlt.le
  have hprint := shown_store_iff m (d := file) (n := bufferLen) hlt.le behind
  have hmem : 0 ∈ load (store m 0 file) 0 bufferLen ++ behind := List.mem_append_right _ hbehind
  rw [shown, if_pos hmem, Option.some.injEq, cstr_eq_self hfile, if_pos hlt] at hprint
  rw [printLoop_of_ne_nil m behind hnil, hshort, hdrop, printLoop, if_pos rfl, List.append_nil, hprint]
  exact or_iff_right hfile

/-- What is printed is at least as long as the file. -/
theorem length_le_printLoop (m : Mem) (hfile : 0 ∉ file) (hbehind : 0 ∈ behind) :
    file.length ≤ (printLoop m behind file).length := by
  have hlen : bufferLen = 64 := rfl
  induction hn : file.length using Nat.strong_induction_on generalizing file m with
  | _ n ih =>
    by_cases hfull : bufferLen ≤ file.length
    · have hdrop : (file.drop bufferLen).length = n - 64 := by rw [List.length_drop, hn, hlen]
      have hrest : 0 ∉ file.drop bufferLen := fun h => hfile (List.mem_of_mem_drop h)
      have htail := ih (n - 64) (by omega) (store m 0 (file.take bufferLen)) hrest hdrop
      rw [printLoop_of_full m hfile hbehind hfull, List.length_append, List.length_append,
        List.length_take_of_le hfull]
      omega
    · by_cases hnil : file = []
      · subst hnil
        rw [← hn]
        exact Nat.zero_le _
      · have hshort : file.take bufferLen = file := List.take_of_length_le (by omega)
        have hsplit := load_append (store m 0 file) 0 file.length (bufferLen - file.length)
        rw [Nat.zero_add, Nat.add_sub_cancel' (by omega), load_store] at hsplit
        rw [printLoop_of_ne_nil m behind hnil, hshort, hsplit, List.append_assoc,
          cstr_append_of_not_mem hfile (List.mem_append_right _ hbehind), List.length_append, List.length_append]
        omega

/-- So a full piece comes out as it is only right before a NUL. -/
theorem printLoop_eq_iff_of_full (m : Mem) (hfile : 0 ∉ file) (hbehind : 0 ∈ behind)
    (hfull : bufferLen ≤ file.length) :
    printLoop m behind file = file ↔ behind.head? = some 0 ∧
      printLoop (store m 0 (file.take bufferLen)) behind (file.drop bufferLen) = file.drop bufferLen := by
  have hcancel : printLoop m behind file = file ↔
      cstr behind ++ printLoop (store m 0 (file.take bufferLen)) behind (file.drop bufferLen) =
        file.drop bufferLen := by
    rw [printLoop_of_full m hfile hbehind hfull]
    conv_lhs => rhs; rw [← List.take_append_drop bufferLen file]
    exact List.append_right_inj _
  rw [hcancel, ← cstr_eq_nil_iff hbehind]
  constructor
  · intro h
    -- what stands behind the buffer would be too much
    have hrest : 0 ∉ file.drop bufferLen := fun hmem => hfile (List.mem_of_mem_drop hmem)
    have hle := length_le_printLoop (store m 0 (file.take bufferLen)) hrest hbehind
    have hlength := congrArg List.length h
    rw [List.length_append] at hlength
    have hnone : cstr behind = [] := List.eq_nil_of_length_eq_zero (by omega)
    rw [hnone, List.nil_append] at h
    exact ⟨hnone, h⟩
  · rintro ⟨hnone, h⟩
    rw [hnone, List.nil_append, h]

/-- **A text file printed piece by piece** comes out as it is, if and only if it is empty, or shorter than
the buffer and the fresh buffer has a NUL right behind it, or its length is a multiple of 64 and a NUL stands
right behind the buffer. -/
theorem printLoop_eq_iff (m : Mem) (hfile : 0 ∉ file) (hbehind : 0 ∈ behind) :
    printLoop m behind file = file ↔
      file = [] ∨ (file.length < 64 ∧ m file.length = 0) ∨ (64 ∣ file.length ∧ behind.head? = some 0) := by
  have hlen : bufferLen = 64 := rfl
  induction hn : file.length using Nat.strong_induction_on generalizing file m with
  | _ n ih =>
    by_cases hnil : file = []
    · subst hnil
      rw [printLoop, if_pos rfl]
      exact iff_of_true rfl (Or.inl rfl)
    · have hpos := List.length_pos_iff.2 hnil
      rw [or_iff_right hnil]
      by_cases hfull : bufferLen ≤ file.length
      · have hdrop : (file.drop bufferLen).length = n - 64 := by rw [List.length_drop, hn, hlen]
        have hpiece : 0 ∉ file.take bufferLen := fun h => hfile (List.mem_of_mem_take h)
        have hrest : 0 ∉ file.drop bufferLen := fun h => hfile (List.mem_of_mem_drop h)
        have htake := List.length_take_of_le hfull
        have htail : printLoop (store m 0 (file.take bufferLen)) behind (file.drop bufferLen) = file.drop bufferLen ↔
            file.drop bufferLen = [] ∨ (n - 64 < 64 ∧ store m 0 (file.take bufferLen) (n - 64) = 0) ∨
              (64 ∣ n - 64 ∧ behind.head? = some 0) :=
          ih (n - 64) (by omega) _ hrest hdrop
        rw [printLoop_eq_iff_of_full m hfile hbehind hfull, htail]
        constructor
        · rintro ⟨hhead, h | ⟨hlt, hzero⟩ | ⟨hdvd, -⟩⟩
          · rw [h, List.length_nil] at hdrop
            exact Or.inr ⟨by omega, hhead⟩
          · -- the full piece has left no NUL in the buffer
            exact absurd hzero (store_ne_zero hpiece (by omega))
          · exact Or.inr ⟨by omega, hhead⟩
        · rintro (⟨hlt, -⟩ | ⟨hdvd, hhead⟩)
          · omega
          · exact ⟨hhead, Or.inr (Or.inr ⟨by omega, hhead⟩)⟩
      · rw [printLoop_eq_iff_of_lt m hfile hbehind hnil (by omega), hn]
        constructor
        · exact fun h => Or.inl ⟨by omega, h⟩
        · rintro (⟨-, h⟩ | ⟨hdvd, -⟩)
          · exact h
          · omega

end

/-- A full piece comes out right before a NUL and not before another byte, and one byte more never does. -/
theorem printLoop_eq_full :
    printLoop (fun _ => 0) [0] (List.replicate 64 97) = List.replicate 64 97 ∧
      printLoop (fun _ => 0) [33, 0] (List.replicate 64 97) ≠ List.replicate 64 97 ∧
      printLoop (fun _ => 0) [0] (List.replicate 65 97) ≠ List.replicate 65 97 := by
  refine ⟨(printLoop_eq_iff _ (by decide) (by decide)).2 (Or.inr (Or.inr ⟨by decide, rfl⟩)),
    fun h => ?_, fun h => ?_⟩
  · have hcond := (printLoop_eq_iff _ (by decide) (by decide)).1 h
    simp at hcond
  · have hcond := (printLoop_eq_iff _ (by decide) (by decide)).1 h
    simp at hcond

end Eltex.Shadow
