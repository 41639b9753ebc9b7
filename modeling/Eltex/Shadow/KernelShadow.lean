import Eltex.Lib.Printf
import Eltex.Lib.Run
import Eltex.Lib.UserCopy
import Mathlib.Logic.Function.Basic

/-!
# The module that raises a task

`procfile_write` copies a string of up to `MAX_LEN_MSG` bytes to `msg`, reads a process number from it and
sets the effective ids of that process to 0.  It does not ask who writes.  `msg` has no room for a NUL
behind a string that fills it, so that the number may go on behind `msg`; and where no number is
found, `m_pid_task` is still that of an earlier write.

The ids belong to a `struct cred`, which tasks may share.  A number no process has ends in a NULL
pointer that is read through (`none`).
-/

namespace Eltex.Shadow

open CString Printf Runs UserCopy

/-- `MAX_LEN_MSG` -/
def maxLenMsg : Nat := 5

/-- The ids of a `struct cred` the module touches, and the real one. -/
structure Cred where
  uid : Nat
  euid : Nat
  fsuid : Nat
deriving Repr, DecidableEq

/-- What is done to `m_cred`. -/
def Cred.raised (c : Cred) : Cred := { c with euid := 0, fsuid := 0 }

structure Kernel where
  msg : List UInt8
  mPidTask : Int
  /-- every `struct cred`, by a number of its own -/
  cred : Nat → Cred
  length_msg : msg.length = maxLenMsg

/-- A call of `procfile_write`, and what it finds: memory behind `msg`, and the credentials of the task with a
number, if there is one. -/
structure Write where
  buffer : UserString
  behind : List UInt8
  tasks : Int → Option Nat

theorem length_copy (K : StrncpyFromUser) {msg : List UInt8} (h : msg.length = maxLenMsg)
    (buffer : UserString) : (K.copy msg buffer maxLenMsg).2.length = maxLenMsg :=
  (K.length buffer h.ge).trans h

/-- The module behind a call and what the call returns, which is the length of a string in user memory. -/
def procfileWrite (K : StrncpyFromUser) (s : Kernel) (w : Write) : Option (Kernel × Nat) :=
  let msg := (K.copy s.msg w.buffer maxLenMsg).2
  let mPidTask := match scanInt (msg ++ w.behind) with
    | some (v, _) => toInt32 v
    | none => s.mPidTask
  match w.tasks mPidTask with
  | none => none
  | some mCred =>
    if 0 ∈ w.buffer.bytes then
      some ({
        msg := msg
        mPidTask := mPidTask
        cred := Function.update s.cred mCred (s.cred mCred).raised
        length_msg := length_copy K s.length_msg w.buffer }, strlen w.buffer.bytes)
    else none

def step (K : StrncpyFromUser) (s : Kernel) (w : Write) : Option Kernel := (procfileWrite K s w).map Prod.fst

/-! ## The number of a write -/

/-- What `sscanf` comes to read. -/
def Write.text (w : Write) : List UInt8 :=
  if 0 ∈ w.buffer.bytes.take maxLenMsg then cstr w.buffer.bytes
  else w.buffer.bytes.take maxLenMsg ++ w.behind

/-- The number in it. -/
def Write.value (w : Write) : Option Int := (scanInt w.text).map fun r => toInt32 r.1

/-- `m_pid_task` after writes: the last number there was, or else what it was before. -/
def chosen (old : Int) (ws : List Write) : Int := ((ws.filterMap Write.value).getLast?).getD old

/-- One of the writes raises the credentials `c`. -/
def Reached (old : Int) (ws : List Write) (c : Nat) : Prop :=
  ∃ pre w, pre ++ [w] <+: ws ∧ w.tasks (chosen old (pre ++ [w])) = some c

section
variable {K : StrncpyFromUser} {s t : Kernel} {w : Write} {ws : List Write} {old : Int} {c : Nat}

theorem scanInt_copy (K : StrncpyFromUser) (s : Kernel) (h : 0 ∈ w.buffer.bytes) :
    (scanInt ((K.copy s.msg w.buffer maxLenMsg).2 ++ w.behind)).map Prod.fst =
      (scanInt w.text).map Prod.fst := by
  have hlength := length_copy K s.length_msg w.buffer
  obtain ⟨r, hr, hcopied⟩ := exists_copied K s.length_msg.ge w.buffer
  rw [hr] at hlength ⊢
  cases hcopied with
  | whole m t nul length bytes =>
    have hmem : 0 ∈ w.buffer.bytes.take maxLenMsg := by
      refine (List.prefix_take_iff.2 ⟨bytes, ?_⟩).subset (List.mem_append_right m (List.mem_singleton_self 0))
      rw [List.length_append, List.length_singleton]
      omega
    rw [Write.text, if_pos hmem, (append_zero_isPrefix_iff h nul).1 bytes, List.append_assoc, List.cons_append,
      scanInt_append_zero]
  | cut t nul length =>
    -- the copy fills `msg`
    have ht : t = [] := by
      apply List.eq_nil_of_length_eq_zero
      change (w.buffer.bytes.take maxLenMsg ++ t).length = _ at hlength
      rw [List.length_append, List.length_take_of_le length] at hlength
      omega
    rw [Write.text, if_neg nul, ht, List.append_nil]
  | failed nul length => exact absurd h nul

theorem chosen_concat (old : Int) (ws : List Write) (w : Write) :
    chosen old (ws ++ [w]) = w.value.getD (chosen old ws) := by
  rw [chosen, List.filterMap_append]
  cases hv : w.value with
  | none =>
    rw [List.filterMap_cons_none hv, List.filterMap_nil, List.append_nil]
    rfl
  | some v =>
    rw [List.filterMap_cons_some hv, List.filterMap_nil, List.getLast?_concat]
    rfl

/-- **One call**, on a string in user memory. -/
theorem step_eq_some_iff : step K s w = some t ↔ 0 ∈ w.buffer.bytes ∧
    ∃ c, w.tasks (w.value.getD s.mPidTask) = some c ∧ t.msg = (K.copy s.msg w.buffer maxLenMsg).2 ∧
      t.mPidTask = w.value.getD s.mPidTask ∧ t.cred = Function.update s.cred c (s.cred c).raised := by
  have hnumber : 0 ∈ w.buffer.bytes →
      (match scanInt ((K.copy s.msg w.buffer maxLenMsg).2 ++ w.behind) with
        | some (v, _) => toInt32 v
        | none => s.mPidTask) = w.value.getD s.mPidTask := by
    intro h
    have hscan := scanInt_copy K s h
    rw [Write.value]
    cases h₁ : scanInt ((K.copy s.msg w.buffer maxLenMsg).2 ++ w.behind) with
    | none =>
      rw [h₁, Option.map_none, eq_comm, Option.map_eq_none_iff] at hscan
      rw [hscan]
      rfl
    | some r =>
      rw [h₁, Option.map_some, eq_comm, Option.map_eq_some_iff] at hscan
      obtain ⟨r', hr', heq⟩ := hscan
      rw [hr', Option.map_some, heq]
      rfl
  unfold step procfileWrite
  by_cases hmem : 0 ∈ w.buffer.bytes
  · simp only [hnumber hmem, if_pos hmem]
    cases w.tasks (w.value.getD s.mPidTask) with
    | none => simp
    | some c =>
      rw [Option.map_some, Option.some.injEq]
      constructor
      · rintro rfl
        exact ⟨hmem, c, rfl, rfl, rfl, rfl⟩
      · rintro ⟨-, c', hc, hmsg, hpid, hcred⟩
        obtain rfl := Option.some.inj hc
        obtain ⟨msg, mPidTask, cred, length_msg⟩ := t
        simp only at hmsg hpid hcred
        subst hmsg hpid hcred
        rfl
  · simp only [if_neg hmem]
    constructor
    · intro h
      split at h <;> exact absurd h.symm (Option.some_ne_none t)
    · exact fun h => absurd h.1 hmem

/-! ## Runs -/

theorem reached_concat : Reached old (ws ++ [w]) c ↔
    Reached old ws c ∨ w.tasks (chosen old (ws ++ [w])) = some c := by
  constructor
  · rintro ⟨pre, w', hpre, htask⟩
    rcases List.prefix_concat_iff.1 hpre with heq | hpre
    · rw [heq] at htask
      obtain ⟨-, hlast⟩ := List.append_inj' heq rfl
      rw [List.singleton_inj.1 hlast] at htask
      exact Or.inr htask
    · exact Or.inl ⟨pre, w', hpre, htask⟩
  · rintro (⟨pre, w', hpre, htask⟩ | htask)
    · exact ⟨pre, w', hpre.trans (List.prefix_append ws [w]), htask⟩
    · exact ⟨ws, w, List.prefix_refl _, htask⟩

/-- What holds after the writes `ws`. -/
structure Raised (s : Kernel) (ws : List Write) (t : Kernel) : Prop where
  number : t.mPidTask = chosen s.mPidTask ws
  reached : ∀ c, Reached s.mPidTask ws c → t.cred c = (s.cred c).raised
  untouched : ∀ c, ¬ Reached s.mPidTask ws c → t.cred c = s.cred c

theorem raised_nil (s : Kernel) : Raised s [] s where
  number := rfl
  reached _ h := by
    obtain ⟨pre, w, hpre, -⟩ := h
    exact absurd (List.prefix_nil.1 hpre) (List.concat_ne_nil w pre)
  untouched _ _ := rfl

theorem raised_concat {u : Kernel} (h : Raised s ws u) (hstep : step K u w = some t) : Raised s (ws ++ [w]) t := by
  obtain ⟨-, a, htask, -, hpid, hcred⟩ := step_eq_some_iff.1 hstep
  rw [h.number, ← chosen_concat] at htask hpid
  refine ⟨hpid, fun c hc => ?_, fun c hc => ?_⟩
  · rw [hcred]
    by_cases heq : c = a
    · -- raised now, and perhaps before
      subst heq
      rw [Function.update_self]
      by_cases hbefore : Reached s.mPidTask ws c
      · rw [h.reached c hbefore]
        rfl
      · rw [h.untouched c hbefore]
    · rw [Function.update_of_ne heq]
      rcases reached_concat.1 hc with hbefore | hnow
      · exact h.reached c hbefore
      · exact absurd (Option.some.inj (hnow.symm.trans htask)) heq
  · rw [reached_concat, not_or] at hc
    have hne : c ≠ a := by
      rintro rfl
      exact hc.2 htask
    rw [hcred, Function.update_of_ne hne]
    exact h.untouched c hc.1

theorem raised_run (h : run (step K) s ws = some t) : Raised s ws t :=
  run_inv (Raised s) (raised_nil s) (fun _ _ _ _ hr hs => raised_concat hr hs) h

end

/-- **Who is raised.**  Writes go through just when each is a string and the last number given up to it, by this or an
earlier write, is that of a process.  Then exactly the credentials of these processes have their
effective ids at 0; the real ids and all other credentials are as they were. -/
theorem writes_raise (K : StrncpyFromUser) (s : Kernel) (ws : List Write) :
    ((∃ t, run (step K) s ws = some t) ↔ ∀ pre w, pre ++ [w] <+: ws →
      0 ∈ w.buffer.bytes ∧ ∃ c, w.tasks (chosen s.mPidTask (pre ++ [w])) = some c) ∧
    ∀ t, run (step K) s ws = some t → ∀ c,
      (Reached s.mPidTask ws c → t.cred c = { s.cred c with euid := 0, fsuid := 0 }) ∧
      (¬ Reached s.mPidTask ws c → t.cred c = s.cred c) := by
  refine ⟨⟨?_, fun hall => ?_⟩, fun t ht c => ⟨(raised_run ht).reached c, (raised_run ht).untouched c⟩⟩
  · rintro ⟨t, ht⟩ pre w ⟨post, rfl⟩
    rw [run_append, Option.bind_eq_some_iff] at ht
    obtain ⟨u, hu, -⟩ := ht
    obtain ⟨v, hv, hstep⟩ := run_concat_eq_some_iff.1 hu
    obtain ⟨hmem, c, htask, -⟩ := step_eq_some_iff.1 hstep
    rw [(raised_run hv).number, ← chosen_concat] at htask
    exact ⟨hmem, c, htask⟩
  · have hstep : ∀ pre w u, pre ++ [w] <+: ws → run (step K) s pre = some u → Raised s pre u →
        ∃ v, step K u w = some v ∧ Raised s (pre ++ [w]) v := by
      intro pre w u hpre hu hr
      obtain ⟨hmem, c, htask⟩ := hall pre w hpre
      rw [chosen_concat, ← hr.number] at htask
      have hstep : step K u w = some
          ⟨(K.copy u.msg w.buffer maxLenMsg).2, w.value.getD u.mPidTask,
            Function.update u.cred c (u.cred c).raised, length_copy K u.length_msg w.buffer⟩ :=
        step_eq_some_iff.2 ⟨hmem, c, htask, rfl, rfl, rfl⟩
      exact ⟨_, hstep, raised_concat hr hstep⟩
    obtain ⟨t, ht, -⟩ := run_exists (Raised s) (raised_nil s) hstep
    exact ⟨t, ht⟩

end Eltex.Shadow
