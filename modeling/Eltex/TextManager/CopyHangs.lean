import Eltex.TextManager.CopyThreads

/-!
# Copies that hang

A thread of `show_progress` that has been cancelled locks the mutex once more and dies with it.  Does it
so before the next `copy` begins, the unlock there puts it right.  Does it so later, the mutex is left
without an owner, and `_copy` waits for it for ever.

So whether a copy can hang is a matter of the threads left over from those before it (`hangs_iff`).  The
first cannot (`not_atRisk_first`).
-/

namespace Eltex.TextManager.CopyThreads

open CString Files Runs

/-! ## Waiting for ever -/

/-- The mutex is locked and nobody is going to unlock it. -/
def Orphaned (s : Threads) : Prop := s.mutex = true ∧ s.insiders = 0

/-- `_copy` has still to lock the mutex. -/
def Stage.toLock (fs : Fs) : Stage → Prop
  | .started source destination =>
    (fopenRb fs source).isSome = true ∧ (fopenWb fs destination).1.isSome = true
  | .opening source destination =>
    (fopenRb fs source).isSome = true ∧ (fopenWb fs destination).1.isSome = true
  | .reading _ _ => True
  | .locking _ _ => True
  | .signalling _ _ => True
  | .lockingLast => True
  | .signallingLast => False
  | .ending => False

def Threads.toLock (s : Threads) : Prop := ∃ stage, s.copier = some stage ∧ stage.toLock s.fs

def AtRisk (s : Threads) : Prop := s.toLock ∧ (Orphaned s ∨ Doomed s)

/-- No continuation lets `copy` return. -/
def Hung (s : Threads) : Prop := ∀ es s', run step s es = some s' → s'.copier ≠ none

/-- No further `copy` is called. -/
def Event.NoCall (e : Event) : Prop := e.called = []

section
variable {s s' : Threads} {e : Event}

theorem toLock_iff {stage : Stage} (hstage : s.copier = some stage) : s.toLock ↔ stage.toLock s.fs := by
  constructor
  · rintro ⟨stage', hstage', hlock⟩
    rw [hstage] at hstage'
    rw [Option.some.inj hstage']
    exact hlock
  · intro hlock
    exact ⟨stage, hstage, hlock⟩

/-- What a step of `_copy` has still to lock; only the last lock is behind it then. -/
theorem toLock_copyStep {stage : Stage} (h : CopyStep s stage s') :
    s'.toLock ↔ stage.toLock s.fs ∧ stage ≠ .lockingLast := by
  cases h with
  | created source destination =>
    rw [toLock_iff rfl]
    exact (and_iff_left (by simp)).symm
  | opened hs hd =>
    rw [toLock_iff rfl]
    simp [Stage.toLock, hs, hd]
  | notOpened h =>
    rw [toLock_iff rfl]
    rcases h with h | h <;> simp [Stage.toLock, h]
  | ended h =>
    rw [toLock_iff rfl]
    simp [Stage.toLock]
  | copied h =>
    rw [toLock_iff rfl]
    simp [Stage.toLock]
  | locked free =>
    rw [toLock_iff rfl]
    simp [Stage.toLock]
  | unlocked src dst =>
    rw [toLock_iff rfl]
    simp [Stage.toLock]
  | lockedLast free =>
    rw [toLock_iff rfl]
    simp [Stage.toLock]
  | unlockedLast =>
    rw [toLock_iff rfl]
    simp [Stage.toLock]
  | cancelled =>
    refine iff_of_false ?_ (fun hlock => hlock.1)
    rintro ⟨stage', hstage', -⟩
    cases hstage'

theorem toLock_progress {i : Nat} {act : Act} (h : step s (.progress i act) = some s') :
    s'.toLock ↔ s.toLock := by
  obtain ⟨p, p', mutex, -, -, rfl⟩ := step_progress h
  exact Iff.rfl

/-- A mutex without an owner stays so while `_copy` waits for it. -/
theorem orphaned_step (hlock : s.toLock) (ho : Orphaned s) (h : step s e = some s') : s'.toLock ∧ Orphaned s' := by
  obtain ⟨hlocked, hinsiders⟩ := ho
  have hmoved : Moved s s' → Orphaned s' := by
    intro hm
    cases hm with
    | entered free locked insiders =>
      rw [hlocked] at free
      cases free
    | left unlocked insiders => omega
    | diedInside doomed kept insiders => omega
    | diedOutside doomed free locked insiders =>
      rw [hlocked] at free
      cases free
    | outside kept insiders => exact ⟨by rw [kept, hlocked], by rw [insiders, hinsiders]⟩
  cases e with
  | call source destination =>
    obtain ⟨stage, hstage, -⟩ := hlock
    rw [(step_call h).1] at hstage
    cases hstage
  | copy =>
    refine ⟨?_, hmoved (moved_copy h)⟩
    obtain ⟨stage, hstage, hcopy⟩ := step_copy_iff.1 h
    refine (toLock_copyStep hcopy).2 ⟨(toLock_iff hstage).1 hlock, ?_⟩
    rintro rfl
    cases hcopy with
    | lockedLast free =>
      rw [hlocked] at free
      cases free
  | progress i act => exact ⟨(toLock_progress h).2 hlock, hmoved (moved_progress h)⟩

theorem hung_of_orphaned (hlock : s.toLock) (ho : Orphaned s) : Hung s := by
  intro es s' h
  have hboth : s'.toLock ∧ Orphaned s' :=
    run_inv (fun _ s => s.toLock ∧ Orphaned s) ⟨hlock, ho⟩ (fun _ _ _ _ hb he => orphaned_step hb.1 hb.2 he) h
  obtain ⟨stage, hstage, -⟩ := hboth.1
  rw [hstage]
  exact Option.some_ne_none stage

theorem moved_of_noCall (hcall : e.NoCall) (h : step s e = some s') : Moved s s' := by
  cases e with
  | call source destination => cases hcall
  | copy => exact moved_copy h
  | progress i act => exact moved_progress h

/-- Within a copy nothing but its own end makes a thread doomed. -/
theorem doomed_of_step (hcall : e.NoCall) (hlock : s'.toLock) (h : step s e = some s') (hd : Doomed s') :
    Doomed s := by
  obtain ⟨q, hq, hcancelled, halive⟩ := hd
  cases e with
  | call source destination => cases hcall
  | copy =>
    obtain ⟨stage, hstage, h⟩ := step_copy_iff.1 h
    cases h with
    | created source destination =>
      rcases List.mem_cons.1 hq with rfl | hq
      · cases hcancelled
      · exact ⟨q, hq, hcancelled, halive⟩
    | cancelled =>
      obtain ⟨stage', hstage', -⟩ := hlock
      cases hstage'
    | _ => exact ⟨q, hq, hcancelled, halive⟩
  | progress i act =>
    obtain ⟨p, p', mutex, hp, hacted, rfl⟩ := step_progress h
    rcases List.mem_or_eq_of_mem_set hq with hq | rfl
    · exact ⟨q, hq, hcancelled, halive⟩
    · refine ⟨p, List.mem_of_getElem? hp, ?_⟩
      cases hacted with
      | took before free after locked =>
        rw [after] at hcancelled
        refine ⟨hcancelled, ?_⟩
        rcases before with before | before <;> rw [before] <;> decide
      | waits before after unlocked =>
        rw [after] at hcancelled
        exact ⟨hcancelled, by rw [before]; decide⟩
      | diedDrawing cancelled before after kept => exact ⟨cancelled, by rw [before]; decide⟩
      | diedWaiting cancelled before free after locked => exact ⟨cancelled, by rw [before]; decide⟩

theorem toLock_of_step (hcall : e.NoCall) (h : step s e = some s') (hlock : s'.toLock) : s.toLock := by
  cases e with
  | call source destination => cases hcall
  | copy =>
    obtain ⟨stage, hstage, h⟩ := step_copy_iff.1 h
    exact ⟨stage, hstage, ((toLock_copyStep h).1 hlock).1⟩
  | progress i act => exact (toLock_progress h).1 hlock

/-- **Step.**  Within a copy no risk arises. -/
theorem not_atRisk_step (hcall : e.NoCall) (hsafe : ¬ AtRisk s) (h : step s e = some s') : ¬ AtRisk s' := by
  rintro ⟨hlock, hrisk⟩
  have hlock₀ := toLock_of_step hcall h hlock
  have hdoomed : ¬ Doomed s := fun hd => hsafe ⟨hlock₀, Or.inr hd⟩
  have horphaned : ¬ Orphaned s := fun ho => hsafe ⟨hlock₀, Or.inl ho⟩
  rcases hrisk with ⟨hlocked, hinsiders⟩ | hd
  · cases moved_of_noCall hcall h with
    | entered free locked insiders => omega
    | left unlocked insiders =>
      rw [hlocked] at unlocked
      cases unlocked
    | diedInside doomed kept insiders => exact hdoomed doomed
    | diedOutside doomed free locked insiders => exact hdoomed doomed
    | outside kept insiders => exact horphaned ⟨by rw [← kept, hlocked], by rw [← insiders, hinsiders]⟩
  · exact hdoomed (doomed_of_step hcall hlock h hd)

/-- **Run.** -/
theorem not_atRisk_run {es : List Event} (hcalls : ∀ e ∈ es, e.NoCall) (hsafe : ¬ AtRisk s)
    (h : run step s es = some s') : ¬ AtRisk s' := by
  induction es generalizing s with
  | nil =>
    obtain rfl : s = s' := Option.some.inj h
    exact hsafe
  | cons e es ih =>
    rw [run_cons] at h
    obtain ⟨u, hu, h⟩ := Option.bind_eq_some_iff.1 h
    obtain ⟨hcall, hcalls⟩ := List.forall_mem_cons.1 hcalls
    exact ih hcalls (not_atRisk_step hcall hsafe hu) h

/-- Some order of steps, without another call, leads to such a state. -/
def Leads (s : Threads) (goal : Threads → Prop) : Prop :=
  ∃ es u, (∀ e ∈ es, e.NoCall) ∧ run step s es = some u ∧ goal u

theorem leads_refl {goal : Threads → Prop} (h : goal s) : Leads s goal :=
  ⟨[], s, fun _ he => absurd he List.not_mem_nil, rfl, h⟩

theorem leads_step {goal : Threads → Prop} (hcall : e.NoCall) (h : step s e = some s') (hl : Leads s' goal) :
    Leads s goal := by
  obtain ⟨es, u, hes, hu, hgoal⟩ := hl
  refine ⟨e :: es, u, List.forall_mem_cons.2 ⟨hcall, hes⟩, ?_, hgoal⟩
  rw [run_cons, h, Option.bind_some, hu]

/-! ## Returning -/

/-- A step of `_copy` towards the goal. -/
theorem leads_copy {stage : Stage} {goal : Threads → Prop} (hsafe : ¬ AtRisk s) (hstage : s.copier = some stage)
    (h : CopyStep s stage s') (hl : ¬ AtRisk s' → Leads s' goal) : Leads s goal := by
  have hstep : step s .copy = some s' := step_copy_iff.2 ⟨stage, hstage, h⟩
  exact leads_step (e := .copy) rfl hstep (hl (not_atRisk_step (e := .copy) rfl hsafe hstep))

/-- A thread that draws goes to `pthread_cond_wait` and unlocks the mutex. -/
theorem step_wait {i : Nat} {p : Progress} (hp : s.progress[i]? = some p) (hdraws : p.phase = .drawing) :
    step s (.progress i .wait) =
      some { s with mutex := false, progress := s.progress.set i { p with phase := .waiting } } := by
  rw [step, hp, Option.bind_some, showProgress, if_pos hdraws]
  rfl

theorem exists_drawing (h : 0 < drawers s.progress) :
    ∃ (i : Nat) (p : Progress), s.progress[i]? = some p ∧ p.phase = .drawing := by
  by_contra hnone
  have h0 : drawers s.progress = 0 := by
    rw [drawers_eq_zero_iff]
    intro p hp hdraws
    obtain ⟨i, hi⟩ := List.mem_iff_getElem?.1 hp
    exact hnone ⟨i, p, hi, hdraws⟩
  omega

/-- Without risk the mutex can be had. -/
theorem leads_free {stage : Stage} {goal : Threads → Prop} (hsafe : ¬ AtRisk s) (hstage : s.copier = some stage)
    (hlock : stage.toLock s.fs) (houtside : stage.inside = 0)
    (hgoal : ∀ u : Threads, ¬ AtRisk u → u.copier = some stage → u.fs = s.fs → u.mutex = false →
      Leads u goal) : Leads s goal := by
  cases hmutex : s.mutex with
  | false => exact hgoal s hsafe hstage rfl hmutex
  | true =>
    have hinsiders : s.insiders ≠ 0 := fun h0 => hsafe ⟨⟨stage, hstage, hlock⟩, Or.inl ⟨hmutex, h0⟩⟩
    rw [Threads.insiders, hstage, Option.elim_some, houtside, Nat.zero_add] at hinsiders
    obtain ⟨i, p, hp, hdraws⟩ := exists_drawing (Nat.pos_of_ne_zero hinsiders)
    have hwait := step_wait hp hdraws
    refine leads_step (e := .progress i .wait) rfl hwait (hgoal _ ?_ hstage rfl rfl)
    exact not_atRisk_step (e := .progress i .wait) rfl hsafe hwait

def Returned (s : Threads) : Prop := s.copier = none

theorem leads_ending (hsafe : ¬ AtRisk s) (hstage : s.copier = some .ending) : Leads s Returned :=
  leads_copy hsafe hstage .cancelled fun _ => leads_refl rfl

theorem leads_signallingLast (hsafe : ¬ AtRisk s) (hstage : s.copier = some .signallingLast) : Leads s Returned :=
  leads_copy hsafe hstage .unlockedLast fun hsafe => leads_ending hsafe rfl

theorem leads_lockingLast (hsafe : ¬ AtRisk s) (hstage : s.copier = some .lockingLast) : Leads s Returned := by
  refine leads_free hsafe hstage trivial rfl fun u hu hstage _ hfree => ?_
  exact leads_copy hu hstage (.lockedLast hfree) fun hsafe => leads_signallingLast hsafe rfl

section
variable {fuel : Nat} {src dst : FileStream} {result : Fs}

/-- The loop comes to its end from the next `fread`. -/
def Ends (fuel : Nat) (result : Fs) : Prop :=
  ∀ (u : Threads) (src dst : FileStream), ¬ AtRisk u → u.copier = some (.reading src dst) →
    copyLoop fuel u.fs src dst = some result → Leads u Returned

theorem leads_signalling (hends : Ends fuel result) (hsafe : ¬ AtRisk s)
    (hstage : s.copier = some (.signalling src dst)) (hloop : copyLoop fuel s.fs src dst = some result) :
    Leads s Returned :=
  leads_copy hsafe hstage (.unlocked src dst) fun hsafe => hends _ src dst hsafe rfl hloop

theorem leads_locking (hends : Ends fuel result) (hsafe : ¬ AtRisk s)
    (hstage : s.copier = some (.locking src dst)) (hloop : copyLoop fuel s.fs src dst = some result) :
    Leads s Returned := by
  refine leads_free hsafe hstage trivial rfl fun u hu hstage hfs hfree => ?_
  refine leads_copy hu hstage (.locked hfree) fun hsafe => leads_signalling hends hsafe rfl ?_
  show copyLoop fuel u.fs src dst = some result
  rw [hfs]
  exact hloop

theorem leads_reading (fuel : Nat) (result : Fs) : Ends fuel result := by
  induction fuel with
  | zero =>
    intro u src dst _ _ hloop
    cases hloop
  | succ fuel ih =>
    intro u src dst hsafe hstage hloop
    rw [copyLoop] at hloop
    simp only at hloop
    split at hloop
    · next h0 => exact leads_copy hsafe hstage (.ended h0) fun hsafe => leads_lockingLast hsafe rfl
    · next h0 => exact leads_copy hsafe hstage (.copied h0) fun hsafe => leads_locking ih hsafe rfl hloop

theorem leads_opening {source destination : PathName} (hsafe : ¬ AtRisk s)
    (hstage : s.copier = some (.opening source destination))
    (hcopy : _copy fuel s.fs source destination = some result) : Leads s Returned := by
  by_cases hnone : fopenRb s.fs source = none ∨ (fopenWb s.fs destination).1 = none
  · exact leads_copy hsafe hstage (.notOpened hnone) fun hsafe => leads_ending hsafe rfl
  · rw [not_or] at hnone
    obtain ⟨src, hs⟩ := Option.ne_none_iff_exists'.1 hnone.1
    obtain ⟨dst, hd⟩ := Option.ne_none_iff_exists'.1 hnone.2
    have hd' : fopenWb s.fs destination = (some dst, (fopenWb s.fs destination).2) := Prod.ext hd rfl
    refine leads_copy hsafe hstage (.opened hs hd') fun hsafe => leads_reading fuel result _ src dst hsafe rfl ?_
    rw [_copy, hs, hd'] at hcopy
    exact hcopy

/-- **Without risk a copy can return**, from wherever it is. -/
theorem leads_returned (hsafe : ¬ AtRisk s) (hremains : s.remains fuel = some result) : Leads s Returned := by
  rw [Threads.remains] at hremains
  cases hstage : s.copier with
  | none => exact leads_refl hstage
  | some stage =>
    rw [hstage] at hremains
    cases stage with
    | started source destination =>
      exact leads_copy hsafe hstage (.created source destination) fun hsafe => leads_opening hsafe rfl hremains
    | opening source destination => exact leads_opening hsafe hstage hremains
    | reading src dst => exact leads_reading fuel result s src dst hsafe hstage hremains
    | locking src dst => exact leads_locking (leads_reading fuel result) hsafe hstage hremains
    | signalling src dst => exact leads_signalling (leads_reading fuel result) hsafe hstage hremains
    | lockingLast => exact leads_lockingLast hsafe hstage
    | signallingLast => exact leads_signallingLast hsafe hstage
    | ending => exact leads_ending hsafe hstage

end

/-! ## Hanging -/

/-- A thread that goes on without dying leaves a doomed one. -/
theorem doomed_set {i : Nat} {p p' : Progress} (hp : s.progress[i]? = some p)
    (hcancelled : p'.cancelled = p.cancelled) (halive : p'.phase ≠ .dead) (hd : Doomed s) :
    ∃ q ∈ s.progress.set i p', q.cancelled = true ∧ q.phase ≠ .dead := by
  obtain ⟨q, hq, hqcancelled, hqalive⟩ := hd
  obtain ⟨j, hj⟩ := List.mem_iff_getElem?.1 hq
  obtain ⟨hlt, -⟩ := List.getElem?_eq_some_iff.1 hp
  by_cases hij : i = j
  · subst hij
    obtain rfl : p = q := Option.some.inj (hp.symm.trans hj)
    exact ⟨p', List.mem_of_getElem? (List.getElem?_set_self hlt), by rw [hcancelled, hqcancelled], halive⟩
  · refine ⟨q, ?_, hqcancelled, hqalive⟩
    rw [← List.getElem?_set_ne hij (a := p')] at hj
    exact List.mem_of_getElem? hj

/-- A thread that was outside died with the mutex. -/
theorem orphaned_set {i : Nat} {p : Progress} (hinsiders : s.insiders = 0) (hp : s.progress[i]? = some p) :
    Orphaned { s with mutex := true, progress := s.progress.set i { p with phase := .dead } } := by
  have hcount := drawers_set hp { p with phase := .dead }
  rw [if_neg (show ¬ Phase.dead = .drawing by decide)] at hcount
  refine ⟨rfl, ?_⟩
  simp only [Threads.insiders] at hinsiders ⊢
  omega

/-- Once nobody is inside, a doomed thread locks the mutex and dies with it. -/
theorem leads_dead (hlock : s.toLock) (hdoomed : Doomed s) (hinsiders : s.insiders = 0) (hfree : s.mutex = false) :
    Leads s fun u => u.toLock ∧ Orphaned u := by
  obtain ⟨p, hp, hcancelled, halive⟩ := hdoomed
  obtain ⟨i, hi⟩ := List.mem_iff_getElem?.1 hp
  have horphaned := orphaned_set hinsiders hi
  have hquiet : p.phase ≠ .drawing := by
    refine drawers_eq_zero_iff.1 ?_ p hp
    rw [Threads.insiders] at hinsiders
    omega
  cases hphase : p.phase with
  | created =>
    -- it locks the mutex, and the first `pthread_cond_wait` ends it
    have hstep : step s (.progress i .lock) =
        some { s with mutex := true, progress := s.progress.set i { p with phase := .drawing } } := by
      rw [step, hi, Option.bind_some, showProgress, if_pos ⟨hphase, hfree⟩]
      rfl
    have hset : (s.progress.set i { p with phase := .drawing })[i]? = some { p with phase := .drawing } :=
      List.getElem?_set_self (List.getElem?_eq_some_iff.1 hi).1
    have hdie : step { s with mutex := true, progress := s.progress.set i { p with phase := .drawing } }
        (.progress i .die) =
          some { s with mutex := true, progress := s.progress.set i { p with phase := .dead } } := by
      rw [step]
      simp only [hset]
      rw [Option.bind_some, showProgress, if_pos ⟨hcancelled, rfl⟩, Option.map_some, List.set_set]
    refine leads_step (e := .progress i .lock) rfl hstep ?_
    exact leads_step (e := .progress i .die) rfl hdie (leads_refl ⟨hlock, horphaned⟩)
  | waiting =>
    have hdie : step s (.progress i .die) =
        some { s with mutex := true, progress := s.progress.set i { p with phase := .dead } } := by
      rw [step, hi, Option.bind_some, showProgress, if_neg (fun h => hquiet h.2),
        if_pos ⟨hcancelled, hphase, hfree⟩]
      rfl
    exact leads_step (e := .progress i .die) rfl hdie (leads_refl ⟨hlock, horphaned⟩)
  | drawing => exact absurd hphase hquiet
  | dead => exact absurd hphase halive

/-- Those that draw go to `pthread_cond_wait` first. -/
theorem leads_orphaned (n : Nat) : ∀ s : Threads, s.toLock → Doomed s → s.insiders = n →
    drawers s.progress = n → Leads s fun u => u.toLock ∧ Orphaned u := by
  induction n with
  | zero =>
    intro s hlock hdoomed hinsiders _
    cases hmutex : s.mutex with
    | true => exact leads_refl ⟨hlock, hmutex, hinsiders⟩
    | false => exact leads_dead hlock hdoomed hinsiders hmutex
  | succ n ih =>
    intro s hlock hdoomed hinsiders hdrawers
    obtain ⟨i, p, hp, hdraws⟩ := exists_drawing (show 0 < drawers s.progress by omega)
    have hcount := drawers_set hp { p with phase := .waiting }
    rw [if_pos hdraws, if_neg (show ¬ Phase.waiting = .drawing by decide)] at hcount
    refine leads_step (e := .progress i .wait) rfl (step_wait hp hdraws) (ih _ hlock ?_ ?_ ?_)
    · exact doomed_set hp rfl (show Phase.waiting ≠ .dead by decide) hdoomed
    · simp only [Threads.insiders] at hinsiders ⊢
      omega
    · show drawers (s.progress.set i { p with phase := .waiting }) = n
      omega

/-- **At risk** some order of steps leaves the mutex without an owner. -/
theorem leads_hung (hrisk : AtRisk s) : Leads s Hung := by
  have hmono : (Leads s fun u => u.toLock ∧ Orphaned u) → Leads s Hung := by
    rintro ⟨es, u, hes, hu, hlock, horphaned⟩
    exact ⟨es, u, hes, hu, hung_of_orphaned hlock horphaned⟩
  apply hmono
  obtain ⟨hlock, horphaned | hdoomed⟩ := hrisk
  · exact leads_refl ⟨hlock, horphaned⟩
  · obtain ⟨stage, hstage, hstageLock⟩ := hlock
    have hsplit : s.insiders = stage.inside + drawers s.progress := by
      rw [Threads.insiders, hstage, Option.elim_some]
    have houtside : stage.inside = 0 → Leads s fun u => u.toLock ∧ Orphaned u := by
      intro h0
      refine leads_orphaned _ s ⟨stage, hstage, hstageLock⟩ hdoomed hsplit ?_
      rw [h0, Nat.zero_add]
    cases stage with
    | signalling src dst =>
      -- `_copy` unlocks the mutex first
      have hstep : step s .copy = some { s with mutex := false, copier := some (.reading src dst) } :=
        step_copy_iff.2 ⟨_, hstage, .unlocked src dst⟩
      refine leads_step (e := .copy) rfl hstep (leads_orphaned _ _ ⟨_, rfl, trivial⟩ hdoomed rfl ?_)
      show drawers s.progress = 0 + drawers s.progress
      omega
    | signallingLast => exact absurd hstageLock id
    | _ => exact houtside rfl

end

/-- **When a copy can hang.**  Some order of steps brings it to where it never returns just when it has still
to lock the mutex and either nobody is left to unlock it or a thread cancelled before is not dead. -/
theorem hangs_iff {fs₀ : Fs} {es : List Event} {s : Threads} (h : run step (start fs₀) es = some s) :
    Leads s Hung ↔ AtRisk s := by
  constructor
  · rintro ⟨gs, u, hgs, hu, hhung⟩
    by_contra hsafe
    have hrun : run step (start fs₀) (es ++ gs) = some u := by rw [run_append, h, Option.bind_some, hu]
    obtain ⟨result, n, hall⟩ := accurate_run hrun
    obtain ⟨ks, t, -, ht, hreturned⟩ := leads_returned (not_atRisk_run hgs hsafe hu) (hall n (Nat.le_refl _)).2
    exact hhung ks t ht hreturned
  · exact leads_hung

/-- `a`, of one byte, copied to `b`; `show_progress` does not come to run. -/
def oneCopy : List Event := .call [97] [98] :: List.replicate 6 .copy

/-- The second of two copies can hang: the thread that the first one cancelled has not run yet. -/
theorem hangs_iff_second : ∃ s, run step (start (twoFiles [104])) (oneCopy ++ [.call [97] [98]]) = some s ∧
    Leads s Hung := by
  have hstate : (run step (start (twoFiles [104])) (oneCopy ++ [.call [97] [98]])).map
      (fun s => (s.copier, s.progress, (fopenRb s.fs [97]).isSome, (fopenWb s.fs [98]).1.isSome)) =
      some (some (.started [97] [98]), [⟨.created, true⟩], true, true) := rfl
  obtain ⟨s, hs, hstate⟩ := Option.map_eq_some_iff.1 hstate
  obtain ⟨hcopier, hstate⟩ := Prod.mk.inj hstate
  obtain ⟨hprogress, hopen⟩ := Prod.mk.inj hstate
  have hdoomed : Doomed s := by
    refine ⟨⟨.created, true⟩, ?_, rfl, by decide⟩
    rw [hprogress]
    exact List.mem_singleton_self _
  exact ⟨s, hs, (hangs_iff hs).2 ⟨⟨_, hcopier, Prod.mk.inj hopen⟩, Or.inr hdoomed⟩⟩

/-- A first copy cannot. -/
theorem not_atRisk_first {fs₀ : Fs} {source destination : PathName} {es : List Event} {s : Threads}
    (hes : ∀ e ∈ es, e.NoCall) (h : run step (start fs₀) (.call source destination :: es) = some s) :
    ¬ AtRisk s := by
  rw [run_cons] at h
  obtain ⟨u, hu, h⟩ := Option.bind_eq_some_iff.1 h
  refine not_atRisk_run hes ?_ h
  obtain ⟨-, ⟨-, rfl⟩ | ⟨-, rfl⟩⟩ := step_call hu
  · rintro ⟨⟨stage, hstage, -⟩, -⟩
    cases hstage
  · rintro ⟨-, ⟨hmutex, -⟩ | ⟨p, hp, -⟩⟩
    · cases hmutex
    · cases hp

end Eltex.TextManager.CopyThreads
