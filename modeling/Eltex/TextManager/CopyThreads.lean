import Eltex.Lib.Run
import Eltex.TextManager.Copy

/-!
# The threads of a copy

`copy` starts `_copy` in a thread and joins it.  `_copy` starts `show_progress`, which draws a line each
time it is signalled, and cancels it when the file is done.  Nobody joins that thread, and it takes the
mutex once more before it dies and never gives it back; so `copy` begins by unlocking a mutex that it
does not hold.

Whatever the order of steps, the files come out as if `_copy` ran alone (`threads_files`).  But the
unlock lets two threads into the critical section at once just when it comes while one draws
(`exclusive_iff`).
-/

namespace Eltex.TextManager.CopyThreads

open CString Files Runs

/-! ## The threads -/

/-- Where the thread of `_copy` is. -/
inductive Stage where
  /-- before `pthread_create` -/
  | started (source destination : PathName)
  /-- before `fopen` -/
  | opening (source destination : PathName)
  /-- before `fread` -/
  | reading (src dst : FileStream)
  /-- behind `fwrite`, before the mutex is locked -/
  | locking (src dst : FileStream)
  /-- with the mutex -/
  | signalling (src dst : FileStream)
  /-- behind the loop -/
  | lockingLast
  | signallingLast
  /-- before `pthread_cancel` -/
  | ending
deriving Repr, DecidableEq

/-- Where a thread of `show_progress` is. -/
inductive Phase where
  /-- in `pthread_mutex_lock` -/
  | created
  /-- in `pthread_cond_wait` -/
  | waiting
  /-- with the mutex -/
  | drawing
  | dead
deriving Repr, DecidableEq

structure Progress where
  phase : Phase
  /-- `pthread_cancel` has been called -/
  cancelled : Bool
deriving Repr, DecidableEq

structure Threads where
  fs : Fs
  /-- `print_window_mutex` is locked; it does not know by whom -/
  mutex : Bool
  /-- the thread that `copy` joins; without it no copy is under way -/
  copier : Option Stage
  /-- all threads of `show_progress` there have been, the newest first -/
  progress : List Progress

def start (fs : Fs) : Threads := ⟨fs, false, none, []⟩

def cancel : List Progress → List Progress
  | [] => []
  | p :: progress => { p with cancelled := true } :: progress

/-- What the thread of `_copy` does next; `none` while it waits for the mutex. -/
def copyStep (s : Threads) : Stage → Option Threads
  | .started source destination =>
    some { s with copier := some (.opening source destination), progress := ⟨.created, false⟩ :: s.progress }
  | .opening source destination =>
    let src := fopenRb s.fs source
    let (dst, fs) := fopenWb s.fs destination
    match src, dst with
    | some src, some dst => some { s with fs := fs, copier := some (.reading src dst) }
    | _, _ => some { s with fs := fs, copier := some .ending }
  | .reading src dst =>
    let (readed, buf, src) := fread s.fs bufSize src
    if readed = 0 then some { s with copier := some .lockingLast }
    else
      let (fs, dst) := fwrite s.fs buf dst
      some { s with fs := fs, copier := some (.locking src dst) }
  | .locking src dst =>
    if s.mutex = true then none else some { s with mutex := true, copier := some (.signalling src dst) }
  | .signalling src dst => some { s with mutex := false, copier := some (.reading src dst) }
  | .lockingLast => if s.mutex = true then none else some { s with mutex := true, copier := some .signallingLast }
  | .signallingLast => some { s with mutex := false, copier := some .ending }
  | .ending => some { s with copier := none, progress := cancel s.progress }

inductive Act where
  | lock
  | wait
  /-- signalled, or for no reason -/
  | wake
  /-- cancelled in `pthread_cond_wait` or while it draws -/
  | die
deriving Repr, DecidableEq

/-- What a thread of `show_progress` can do, with the mutex.  Cancelled in `pthread_cond_wait` it locks
the mutex first; nothing unlocks it for a thread that dies. -/
def showProgress (p : Progress) (mutex : Bool) : Act → Option (Progress × Bool)
  | .lock => if p.phase = .created ∧ mutex = false then some ({ p with phase := .drawing }, true) else none
  | .wait => if p.phase = .drawing then some ({ p with phase := .waiting }, false) else none
  | .wake => if p.phase = .waiting ∧ mutex = false then some ({ p with phase := .drawing }, true) else none
  | .die =>
    if p.cancelled = true ∧ p.phase = .drawing then some ({ p with phase := .dead }, mutex)
    else if p.cancelled = true ∧ p.phase = .waiting ∧ mutex = false then some ({ p with phase := .dead }, true)
    else none

inductive Event where
  | call (source destination : PathName)
  | copy
  | progress (i : Nat) (act : Act)
deriving Repr, DecidableEq

/-- One step; `call` is that of `copy` up to `pthread_create`. -/
def step (s : Threads) : Event → Option Threads
  | .call source destination =>
    if s.copier.isSome = true then none
    else if strcmp source destination = 0 then some s
    else some { s with mutex := false, copier := some (.started source destination) }
  | .copy => s.copier.bind (copyStep s)
  | .progress i act =>
    s.progress[i]?.bind fun p =>
      (showProgress p s.mutex act).map fun x => { s with mutex := x.2, progress := s.progress.set i x.1 }

/-! ## What a step can do -/

/-- A thread of `show_progress` goes on. -/
inductive Acted (p p' : Progress) (mutex mutex' : Bool) : Prop where
  | took (before : p.phase = .created ∨ p.phase = .waiting) (free : mutex = false)
      (after : p' = { p with phase := .drawing }) (locked : mutex' = true)
  | waits (before : p.phase = .drawing) (after : p' = { p with phase := .waiting }) (unlocked : mutex' = false)
  | diedDrawing (cancelled : p.cancelled = true) (before : p.phase = .drawing)
      (after : p' = { p with phase := .dead }) (kept : mutex' = mutex)
  | diedWaiting (cancelled : p.cancelled = true) (before : p.phase = .waiting) (free : mutex = false)
      (after : p' = { p with phase := .dead }) (locked : mutex' = true)

theorem showProgress_cases {p p' : Progress} {mutex mutex' : Bool} {act : Act}
    (h : showProgress p mutex act = some (p', mutex')) : Acted p p' mutex mutex' := by
  cases act with
  | lock =>
    rw [showProgress] at h
    split at h
    · next hc =>
      obtain ⟨rfl, rfl⟩ := Prod.mk.inj (Option.some.inj h)
      exact .took (Or.inl hc.1) hc.2 rfl rfl
    · cases h
  | wait =>
    rw [showProgress] at h
    split at h
    · next hc =>
      obtain ⟨rfl, rfl⟩ := Prod.mk.inj (Option.some.inj h)
      exact .waits hc rfl rfl
    · cases h
  | wake =>
    rw [showProgress] at h
    split at h
    · next hc =>
      obtain ⟨rfl, rfl⟩ := Prod.mk.inj (Option.some.inj h)
      exact .took (Or.inr hc.1) hc.2 rfl rfl
    · cases h
  | die =>
    rw [showProgress] at h
    split at h
    · next hc =>
      obtain ⟨rfl, rfl⟩ := Prod.mk.inj (Option.some.inj h)
      exact .diedDrawing hc.1 hc.2 rfl rfl
    · split at h
      · next hc =>
        obtain ⟨rfl, rfl⟩ := Prod.mk.inj (Option.some.inj h)
        exact .diedWaiting hc.1 hc.2.1 hc.2.2 rfl rfl
      · cases h

/-- A step of a thread of `show_progress`. -/
theorem step_progress {s s' : Threads} {i : Nat} {act : Act} (h : step s (.progress i act) = some s') :
    ∃ p p' mutex, s.progress[i]? = some p ∧ Acted p p' s.mutex mutex ∧
      s' = { s with mutex := mutex, progress := s.progress.set i p' } := by
  obtain ⟨p, hp, h⟩ := Option.bind_eq_some_iff.1 h
  obtain ⟨⟨p', mutex⟩, hact, rfl⟩ := Option.map_eq_some_iff.1 h
  exact ⟨p, p', mutex, hp, showProgress_cases hact, rfl⟩

theorem step_call {s s' : Threads} {source destination : PathName} (h : step s (.call source destination) = some s') :
    s.copier = none ∧ (strcmp source destination = 0 ∧ s' = s ∨ strcmp source destination ≠ 0 ∧
      s' = { s with mutex := false, copier := some (.started source destination) }) := by
  rw [step] at h
  split at h
  · cases h
  · next hnone =>
    refine ⟨Option.not_isSome_iff_eq_none.1 hnone, ?_⟩
    split at h
    · next heq => exact Or.inl ⟨heq, (Option.some.inj h).symm⟩
    · next hne => exact Or.inr ⟨hne, (Option.some.inj h).symm⟩

/-- A step of the thread of `_copy`. -/
inductive CopyStep (s : Threads) : Stage → Threads → Prop where
  | created (source destination : PathName) :
      CopyStep s (.started source destination)
        { s with copier := some (.opening source destination), progress := ⟨.created, false⟩ :: s.progress }
  | opened {source destination : PathName} {src dst : FileStream} {fs : Fs} (hs : fopenRb s.fs source = some src)
      (hd : fopenWb s.fs destination = (some dst, fs)) :
      CopyStep s (.opening source destination) { s with fs := fs, copier := some (.reading src dst) }
  | notOpened {source destination : PathName}
      (h : fopenRb s.fs source = none ∨ (fopenWb s.fs destination).1 = none) :
      CopyStep s (.opening source destination)
        { s with fs := (fopenWb s.fs destination).2, copier := some .ending }
  | ended {src dst : FileStream} (h : (fread s.fs bufSize src).1 = 0) :
      CopyStep s (.reading src dst) { s with copier := some .lockingLast }
  | copied {src dst : FileStream} (h : (fread s.fs bufSize src).1 ≠ 0) :
      CopyStep s (.reading src dst)
        { s with
          fs := (fwrite s.fs (fread s.fs bufSize src).2.1 dst).1
          copier := some (.locking (fread s.fs bufSize src).2.2 (fwrite s.fs (fread s.fs bufSize src).2.1 dst).2) }
  | locked {src dst : FileStream} (free : s.mutex = false) :
      CopyStep s (.locking src dst) { s with mutex := true, copier := some (.signalling src dst) }
  | unlocked (src dst : FileStream) :
      CopyStep s (.signalling src dst) { s with mutex := false, copier := some (.reading src dst) }
  | lockedLast (free : s.mutex = false) :
      CopyStep s .lockingLast { s with mutex := true, copier := some .signallingLast }
  | unlockedLast : CopyStep s .signallingLast { s with mutex := false, copier := some .ending }
  | cancelled : CopyStep s .ending { s with copier := none, progress := cancel s.progress }

theorem copyStep_eq_some_iff {s s' : Threads} {stage : Stage} :
    copyStep s stage = some s' ↔ CopyStep s stage s' := by
  constructor
  · intro h
    cases stage with
    | started source destination =>
      rw [← Option.some.inj h]
      exact .created source destination
    | opening source destination =>
      rw [copyStep] at h
      cases hs : fopenRb s.fs source with
      | none =>
        simp only [hs] at h
        rw [← Option.some.inj h]
        exact .notOpened (Or.inl hs)
      | some src =>
        cases hd : fopenWb s.fs destination with
        | mk dst fs =>
          cases dst with
          | none =>
            simp only [hs, hd] at h
            rw [← Option.some.inj h, ← show (fopenWb s.fs destination).2 = fs by rw [hd]]
            exact .notOpened (Or.inr (by rw [hd]))
          | some dst =>
            simp only [hs, hd] at h
            rw [← Option.some.inj h]
            exact .opened hs hd
    | reading src dst =>
      rw [copyStep] at h
      simp only at h
      split at h
      · next h0 =>
        rw [← Option.some.inj h]
        exact .ended h0
      · next h0 =>
        rw [← Option.some.inj h]
        exact .copied h0
    | locking src dst =>
      rw [copyStep] at h
      split at h
      · cases h
      · next hfree =>
        rw [← Option.some.inj h]
        exact .locked (Bool.eq_false_iff.2 hfree)
    | signalling src dst =>
      rw [← Option.some.inj h]
      exact .unlocked src dst
    | lockingLast =>
      rw [copyStep] at h
      split at h
      · cases h
      · next hfree =>
        rw [← Option.some.inj h]
        exact .lockedLast (Bool.eq_false_iff.2 hfree)
    | signallingLast =>
      rw [← Option.some.inj h]
      exact .unlockedLast
    | ending =>
      rw [← Option.some.inj h]
      exact .cancelled
  · intro h
    cases h with
    | created source destination => rfl
    | opened hs hd => simp only [copyStep, hs, hd]
    | @notOpened source destination h =>
      rcases h with h | h
      · simp only [copyStep, h]
      · simp only [copyStep, h]
        cases fopenRb s.fs source <;> rfl
    | ended h => simp only [copyStep, h, if_true]
    | copied h => simp only [copyStep, h, if_false]
    | locked free => rw [copyStep, if_neg (by rw [free]; decide)]
    | unlocked src dst => rfl
    | lockedLast free => rw [copyStep, if_neg (by rw [free]; decide)]
    | unlockedLast => rfl
    | cancelled => rfl

theorem step_copy_iff {s s' : Threads} :
    step s .copy = some s' ↔ ∃ stage, s.copier = some stage ∧ CopyStep s stage s' := by
  rw [step, Option.bind_eq_some_iff]
  exact exists_congr fun stage => and_congr_right fun _ => copyStep_eq_some_iff

/-! ## The files -/

/-- What becomes of the files when the thread of `_copy` goes on alone. -/
def Stage.finish (fuel : Nat) (fs : Fs) : Stage → Option Fs
  | .started source destination => _copy fuel fs source destination
  | .opening source destination => _copy fuel fs source destination
  | .reading src dst => copyLoop fuel fs src dst
  | .locking src dst => copyLoop fuel fs src dst
  | .signalling src dst => copyLoop fuel fs src dst
  | .lockingLast => some fs
  | .signallingLast => some fs
  | .ending => some fs

def Threads.remains (s : Threads) (fuel : Nat) : Option Fs :=
  match s.copier with
  | none => some s.fs
  | some stage => stage.finish fuel s.fs

/-- The calls of a run, in their order. -/
def Event.called : Event → List (PathName × PathName)
  | .call source destination => [(source, destination)]
  | .copy => []
  | .progress _ _ => []

def calls (es : List Event) : List (PathName × PathName) := es.flatMap Event.called

/-- The copies one after the other, without threads. -/
def copyAll (fuel : Nat) (fs : Fs) (cs : List (PathName × PathName)) : Option Fs :=
  cs.foldlM (fun fs c => TextManager.copy fuel fs c.1 c.2) fs

theorem copyAll_concat (fuel : Nat) (fs : Fs) (cs : List (PathName × PathName)) (c : PathName × PathName) :
    copyAll fuel fs (cs ++ [c]) = (copyAll fuel fs cs).bind fun fs => TextManager.copy fuel fs c.1 c.2 := by
  unfold copyAll
  rw [List.foldlM_append]
  congr 1
  funext u
  simp

/-- `_copy` comes to an end. -/
theorem _copy_ends (fs : Fs) (source destination : PathName) :
    ∃ fs' n, ∀ fuel ≥ n, _copy fuel fs source destination = some fs' := by
  cases hs : fopenRb fs source with
  | none => exact ⟨_, 0, fun fuel _ => _copy_of_none (Or.inl hs)⟩
  | some src =>
    cases hd : fopenWb fs destination with
    | mk dst fs' =>
      cases dst with
      | none => exact ⟨_, 0, fun fuel _ => _copy_of_none (Or.inr (by rw [hd]))⟩
      | some dst =>
        by_cases heq : src.inode = dst.inode
        · exact ⟨fs', 1, fun fuel hfuel => _copy_same hs hd heq hfuel⟩
        · exact ⟨_, (fs.content src.inode).length / bufSize + 1, fun fuel hfuel => _copy_eq hs hd heq hfuel⟩

/-- A step of `_copy` leaves to be done what was to be done. -/
theorem remains_copyStep {s s' : Threads} {stage : Stage} (h : CopyStep s stage s') (fuel : Nat) :
    ∃ fuel' ≥ fuel, s'.remains fuel = stage.finish fuel' s.fs := by
  have hsame : s'.remains fuel = stage.finish fuel s.fs →
      ∃ fuel' ≥ fuel, s'.remains fuel = stage.finish fuel' s.fs :=
    fun heq => ⟨fuel, Nat.le_refl _, heq⟩
  cases h with
  | created source destination => exact hsame rfl
  | opened hs hd =>
    apply hsame
    simp only [Stage.finish, _copy, hs, hd]
    rfl
  | notOpened h => exact hsame (_copy_of_none h).symm
  | ended h =>
    refine ⟨fuel + 1, Nat.le_succ _, ?_⟩
    simp only [Stage.finish, copyLoop, h, if_true]
    rfl
  | copied h =>
    refine ⟨fuel + 1, Nat.le_succ _, ?_⟩
    simp only [Stage.finish, copyLoop, h, if_false]
    rfl
  | locked free => exact hsame rfl
  | unlocked src dst => exact hsame rfl
  | lockedLast free => exact hsame rfl
  | unlockedLast => exact hsame rfl
  | cancelled => exact hsame rfl

/-- What the copies called so far come to, and what is still to be done of it. -/
def Accurate (fs₀ : Fs) (es : List Event) (s : Threads) : Prop :=
  ∃ result n, ∀ fuel ≥ n, copyAll fuel fs₀ (calls es) = some result ∧ s.remains fuel = some result

/-- **Step.** -/
theorem accurate_step {fs₀ : Fs} {es : List Event} {s s' : Threads} {e : Event} (ha : Accurate fs₀ es s)
    (h : step s e = some s') : Accurate fs₀ (es ++ [e]) s' := by
  obtain ⟨result, n, hall⟩ := ha
  have hcalls : calls (es ++ [e]) = calls es ++ e.called := by
    rw [calls, List.flatMap_append, List.flatMap_singleton, calls]
  cases e with
  | call source destination =>
    obtain ⟨hnone, h⟩ := step_call h
    have hfs : s.fs = result := by
      have hremains := (hall n (Nat.le_refl _)).2
      rw [Threads.remains, hnone] at hremains
      exact Option.some.inj hremains
    rw [Event.called] at hcalls
    rcases h with ⟨heq, rfl⟩ | ⟨hne, rfl⟩
    · refine ⟨result, n, fun fuel hfuel => ⟨?_, (hall fuel hfuel).2⟩⟩
      rw [hcalls, copyAll_concat, (hall fuel hfuel).1, Option.bind_some]
      exact if_pos heq
    · obtain ⟨fs', m, hends⟩ := _copy_ends s.fs source destination
      refine ⟨fs', max n m, fun fuel hfuel => ⟨?_, hends fuel (Nat.le_trans (Nat.le_max_right _ _) hfuel)⟩⟩
      rw [hcalls, copyAll_concat, (hall fuel (Nat.le_trans (Nat.le_max_left _ _) hfuel)).1, Option.bind_some, ← hfs]
      exact (if_neg hne).trans (hends fuel (Nat.le_trans (Nat.le_max_right _ _) hfuel))
  | copy =>
    obtain ⟨stage, hstage, h⟩ := step_copy_iff.1 h
    rw [Event.called, List.append_nil] at hcalls
    refine ⟨result, n, fun fuel hfuel => ⟨by rw [hcalls]; exact (hall fuel hfuel).1, ?_⟩⟩
    obtain ⟨fuel', hle, hremains⟩ := remains_copyStep h fuel
    have hold := (hall fuel' (Nat.le_trans hfuel hle)).2
    rw [Threads.remains, hstage] at hold
    rw [hremains]
    exact hold
  | progress i act =>
    obtain ⟨p, p', mutex, -, -, rfl⟩ := step_progress h
    rw [Event.called, List.append_nil] at hcalls
    rw [Accurate, hcalls]
    exact ⟨result, n, hall⟩

theorem accurate_run {fs₀ : Fs} {es : List Event} {s : Threads} (h : run step (start fs₀) es = some s) :
    Accurate fs₀ es s :=
  run_inv (Accurate fs₀) ⟨fs₀, 0, fun _ _ => ⟨rfl, rfl⟩⟩ (fun _ _ _ _ ha he => accurate_step ha he) h

/-- **The files.**  Whenever no copy is under way they are as if the copies had been made one after the
other without threads. -/
theorem threads_files {fs₀ : Fs} {es : List Event} {s : Threads} (h : run step (start fs₀) es = some s)
    (hnone : s.copier = none) : ∃ n, ∀ fuel ≥ n, copyAll fuel fs₀ (calls es) = some s.fs := by
  obtain ⟨result, n, hall⟩ := accurate_run h
  refine ⟨n, fun fuel hfuel => ?_⟩
  have hremains := (hall fuel hfuel).2
  rw [Threads.remains, hnone] at hremains
  rw [(hall fuel hfuel).1]
  exact hremains.symm

/-- `a` is copied to `b` and `b` back to `a`.  The thread of the first copy draws before the file is open,
after its one block and when it is cancelled; it draws on while the second copy goes on, and dies in between. -/
def twoCopies : List Event :=
  [.call [97] [98], .copy, .progress 0 .lock, .copy, .progress 0 .wait] ++ List.replicate 3 .copy ++
    [.progress 0 .wake, .copy, .progress 0 .wait, .copy, .copy, .progress 0 .wake, .copy,
      .call [98] [97], .copy, .copy, .copy, .copy, .progress 1 .die] ++ List.replicate 5 .copy

theorem threads_files_two : ∃ s, run step (start (twoFiles (List.replicate 1024 7))) twoCopies = some s ∧
    s.progress = [⟨.created, true⟩, ⟨.dead, true⟩] ∧
    ∃ n, ∀ fuel ≥ n,
      copyAll fuel (twoFiles (List.replicate 1024 7)) [([97], [98]), ([98], [97])] = some s.fs := by
  have hends : (run step (start (twoFiles (List.replicate 1024 7))) twoCopies).map
      (fun s => (s.copier, s.progress)) = some (none, [⟨.created, true⟩, ⟨.dead, true⟩]) := by decide +kernel
  obtain ⟨s, hs, hend⟩ := Option.map_eq_some_iff.1 hends
  obtain ⟨hnone, hprogress⟩ := Prod.mk.inj hend
  exact ⟨s, hs, hprogress, threads_files hs hnone⟩

/-! ## Who is between lock and unlock -/

def Stage.inside : Stage → Nat
  | .signalling _ _ => 1
  | .signallingLast => 1
  | _ => 0

def drawers (ps : List Progress) : Nat := ps.countP fun p => decide (p.phase = .drawing)

def Threads.insiders (s : Threads) : Nat := s.copier.elim 0 Stage.inside + drawers s.progress

theorem drawers_cons (p : Progress) (ps : List Progress) :
    drawers (p :: ps) = drawers ps + if p.phase = .drawing then 1 else 0 := by
  simp only [drawers, List.countP_cons, decide_eq_true_eq]

/-- One thread goes on to another phase. -/
theorem drawers_set {ps : List Progress} {i : Nat} {p : Progress} (hp : ps[i]? = some p) (p' : Progress) :
    drawers (ps.set i p') + (if p.phase = .drawing then 1 else 0) =
      drawers ps + if p'.phase = .drawing then 1 else 0 := by
  induction ps generalizing i with
  | nil => cases hp
  | cons q ps ih =>
    cases i with
    | zero =>
      obtain rfl : q = p := Option.some.inj hp
      rw [List.set_cons_zero, drawers_cons, drawers_cons]
      omega
    | succ i =>
      have hrest := @ih i hp
      rw [List.set_cons_succ, drawers_cons, drawers_cons]
      omega

theorem drawers_cancel (ps : List Progress) : drawers (cancel ps) = drawers ps := by
  cases ps with
  | nil => rfl
  | cons p ps => rw [cancel, drawers_cons, drawers_cons]

theorem drawers_eq_zero_iff {ps : List Progress} : drawers ps = 0 ↔ ∀ p ∈ ps, p.phase ≠ .drawing := by
  simp only [drawers, List.countP_eq_zero, decide_eq_true_eq, ne_eq]

/-- Some thread has been cancelled and is not dead yet. -/
def Doomed (s : Threads) : Prop := ∃ p ∈ s.progress, p.cancelled = true ∧ p.phase ≠ .dead

/-- How a step moves the threads through the critical section. -/
inductive Moved (s s' : Threads) : Prop where
  | entered (free : s.mutex = false) (locked : s'.mutex = true) (insiders : s'.insiders = s.insiders + 1)
  | left (unlocked : s'.mutex = false) (insiders : s'.insiders + 1 = s.insiders)
  | diedInside (doomed : Doomed s) (kept : s'.mutex = s.mutex) (insiders : s'.insiders + 1 = s.insiders)
  | diedOutside (doomed : Doomed s) (free : s.mutex = false) (locked : s'.mutex = true)
      (insiders : s'.insiders = s.insiders)
  | outside (kept : s'.mutex = s.mutex) (insiders : s'.insiders = s.insiders)

theorem moved_progress {s s' : Threads} {i : Nat} {act : Act} (h : step s (.progress i act) = some s') :
    Moved s s' := by
  obtain ⟨p, p', mutex, hp, hacted, rfl⟩ := step_progress h
  have hcount := drawers_set hp p'
  have hinsiders : ∀ k, drawers (s.progress.set i p') + k = drawers s.progress →
      (⟨s.fs, mutex, s.copier, s.progress.set i p'⟩ : Threads).insiders + k = s.insiders := by
    intro k hk
    simp only [Threads.insiders]
    omega
  cases hacted with
  | took before free after locked =>
    have hout : p.phase ≠ .drawing := by
      rcases before with before | before <;> rw [before] <;> decide
    rw [if_neg hout, after, if_pos rfl] at hcount
    refine .entered free locked ?_
    simp only [Threads.insiders, after]
    omega
  | waits before after unlocked =>
    rw [if_pos before, after, if_neg (by simp)] at hcount
    exact .left unlocked (hinsiders 1 (by rw [after]; omega))
  | diedDrawing cancelled before after kept =>
    rw [if_pos before, after, if_neg (by simp)] at hcount
    refine .diedInside ⟨p, List.mem_of_getElem? hp, cancelled, by rw [before]; decide⟩ kept ?_
    exact hinsiders 1 (by rw [after]; omega)
  | diedWaiting cancelled before free after locked =>
    rw [if_neg (by rw [before]; decide), after, if_neg (by simp)] at hcount
    refine .diedOutside ⟨p, List.mem_of_getElem? hp, cancelled, by rw [before]; decide⟩ free locked ?_
    exact hinsiders 0 (by rw [after]; omega)

theorem moved_copy {s s' : Threads} (h : step s .copy = some s') : Moved s s' := by
  obtain ⟨stage, hstage, h⟩ := step_copy_iff.1 h
  have hold : s.insiders = stage.inside + drawers s.progress := by
    rw [Threads.insiders, hstage, Option.elim_some]
  cases h with
  | created source destination =>
    refine .outside rfl ?_
    rw [hold, Threads.insiders, drawers_cons, if_neg (by decide)]
    rfl
  | opened hs hd => exact .outside rfl hold.symm
  | notOpened h => exact .outside rfl hold.symm
  | ended h => exact .outside rfl hold.symm
  | copied h => exact .outside rfl hold.symm
  | locked free =>
    refine .entered free rfl ?_
    rw [hold]
    show 1 + drawers s.progress = 0 + drawers s.progress + 1
    omega
  | unlocked src dst =>
    refine .left rfl ?_
    rw [hold]
    show 0 + drawers s.progress + 1 = 1 + drawers s.progress
    omega
  | lockedLast free =>
    refine .entered free rfl ?_
    rw [hold]
    show 1 + drawers s.progress = 0 + drawers s.progress + 1
    omega
  | unlockedLast =>
    refine .left rfl ?_
    rw [hold]
    show 0 + drawers s.progress + 1 = 1 + drawers s.progress
    omega
  | cancelled =>
    refine .outside rfl ?_
    rw [hold, Threads.insiders, drawers_cancel]
    rfl

/-! ## Drawing at once -/

/-- At most one thread is inside, and the mutex is locked while it is. -/
structure Exclusive (s : Threads) : Prop where
  one : s.insiders ≤ 1
  locked : 0 < s.insiders → s.mutex = true

theorem exclusive_moved {s s' : Threads} (hx : Exclusive s) (h : Moved s s') : Exclusive s' := by
  obtain ⟨hone, hlocked⟩ := hx
  cases h with
  | entered free locked insiders =>
    have hnone : s.insiders = 0 := by
      by_contra hne
      rw [hlocked (Nat.pos_of_ne_zero hne)] at free
      cases free
    exact ⟨by omega, fun _ => locked⟩
  | left unlocked insiders => exact ⟨by omega, fun hpos => by omega⟩
  | diedInside doomed kept insiders => exact ⟨by omega, fun hpos => by omega⟩
  | diedOutside doomed free locked insiders => exact ⟨by omega, fun _ => locked⟩
  | outside kept insiders => exact ⟨by omega, fun hpos => by rw [kept]; exact hlocked (by omega)⟩

/-- The mutex is not unlocked by `copy` while a thread draws. -/
def Quiet (s : Threads) : Event → Prop
  | .call source destination =>
    s.copier = none → strcmp source destination ≠ 0 → ∀ p ∈ s.progress, p.phase ≠ .drawing
  | .copy => True
  | .progress _ _ => True

theorem quiet_of_none {s : Threads} {e : Event} (h : step s e = none) : Quiet s e := by
  cases e with
  | call source destination =>
    intro hnone hne
    rw [step, hnone, Option.isSome_none, if_neg Bool.false_ne_true, if_neg hne] at h
    cases h
  | copy => trivial
  | progress i act => trivial

/-- **Step.** -/
theorem exclusive_step_iff {s s' : Threads} {e : Event} (hx : Exclusive s) (h : step s e = some s') :
    Exclusive s' ↔ Quiet s e := by
  cases e with
  | call source destination =>
    obtain ⟨hnone, h⟩ := step_call h
    have hinsiders : s.insiders = drawers s.progress := by
      rw [Threads.insiders, hnone, Option.elim_none, Nat.zero_add]
    rcases h with ⟨heq, rfl⟩ | ⟨hne, rfl⟩
    · exact iff_of_true hx fun _ hne => absurd heq hne
    · rw [Quiet, ← drawers_eq_zero_iff]
      constructor
      · intro hx' _ _
        by_contra hpos
        have hlocked := hx'.locked (show 0 < 0 + drawers s.progress by omega)
        cases hlocked
      · intro hquiet
        have h0 := hquiet hnone hne
        refine ⟨?_, fun hpos => ?_⟩
        · show 0 + drawers s.progress ≤ 1
          omega
        · have hpos : 0 < 0 + drawers s.progress := hpos
          omega
  | copy => exact iff_of_true (exclusive_moved hx (moved_copy h)) trivial
  | progress i act => exact iff_of_true (exclusive_moved hx (moved_progress h)) trivial

/-- **Drawing at once.**  In a run no two threads are ever inside at once, nor one without the mutex being
locked, just when `copy` never unlocks it while a thread that was cancelled still draws. -/
theorem exclusive_iff (fs₀ : Fs) (es : List Event) :
    (∀ pre s, pre <+: es → run step (start fs₀) pre = some s → Exclusive s) ↔
      ∀ pre e s, pre ++ [e] <+: es → run step (start fs₀) pre = some s → Quiet s e :=
  run_forall_iff (I := fun _ s => Exclusive s) ⟨Nat.zero_le _, fun hpos => absurd hpos (Nat.lt_irrefl _)⟩
    (fun _ _ h => quiet_of_none h) (fun _ _ _ _ _ hx h => exclusive_step_iff hx h)

/-- The thread of a first copy draws while the second copy signals. -/
example : (run step (start (twoFiles [104]))
    (.call [97] [98] :: List.replicate 5 .copy ++ [.progress 0 .lock, .copy, .call [97] [98]] ++
      List.replicate 4 .copy)).map Threads.insiders = some 2 := rfl

end Eltex.TextManager.CopyThreads
