import Mathlib.Data.List.Induction
import Mathlib.Tactic.Common

/-!
# Runs of a state machine

`run step s es` feeds the events `es` to a partial step function, `none` once a
step fails.  Invariants may speak of the whole history (`run_inv`): what one step
keeps while it extends the history by its event holds at the end of every run.
When the invariant also lets the next step be taken, the run gets there
(`run_exists`).  `run_exists_iff`, `run_iff` and `run_forall_iff` turn an exact
condition on each step into one on the run.  Two runs that differ in what cannot
be seen are compared by `run_visible`, a run and that of a more abstract machine
by `run_map` and `run_view`.
-/

namespace Runs

variable {σ ε : Type}

def run (step : σ → ε → Option σ) (s : σ) (es : List ε) : Option σ := es.foldlM step s

@[simp] theorem run_nil (step : σ → ε → Option σ) (s : σ) : run step s [] = some s := rfl

theorem run_cons (step : σ → ε → Option σ) (s : σ) (e : ε) (es : List ε) :
    run step s (e :: es) = (step s e).bind fun s' => run step s' es := by
  simp [run]

theorem run_append (step : σ → ε → Option σ) (s : σ) (es fs : List ε) :
    run step s (es ++ fs) = (run step s es).bind fun s' => run step s' fs := by
  simp [run, List.foldlM_append]

theorem run_concat (step : σ → ε → Option σ) (s : σ) (es : List ε) (e : ε) :
    run step s (es ++ [e]) = (run step s es).bind fun s' => step s' e := by
  rw [run_append]
  congr 1
  funext s'
  simp [run]

theorem run_concat_eq_some_iff {step : σ → ε → Option σ} {s t : σ} {es : List ε} {e : ε} :
    run step s (es ++ [e]) = some t ↔ ∃ u, run step s es = some u ∧ step u e = some t := by
  rw [run_concat, Option.bind_eq_some_iff]

/-- **Invariant rule** for runs whose steps meet a condition, with history. -/
theorem run_forall {step : σ → ε → Option σ} {s₀ : σ} (I : List ε → σ → Prop) (Q : σ → ε → Prop)
    (h₀ : I [] s₀) (hstep : ∀ pre e s s', run step s₀ pre = some s → I pre s → Q s e →
      step s e = some s' → I (pre ++ [e]) s')
    {es : List ε} (hq : ∀ pre e s, pre ++ [e] <+: es → run step s₀ pre = some s → Q s e) {s : σ}
    (h : run step s₀ es = some s) : I es s := by
  induction es using List.reverseRecOn generalizing s with
  | nil =>
    obtain rfl : s₀ = s := Option.some.inj h
    exact h₀
  | append_singleton pre e ih =>
    obtain ⟨u, hu, he⟩ := run_concat_eq_some_iff.1 h
    have hi : I pre u := by
      refine ih (fun pre' e' s' hpre => ?_) hu
      exact hq pre' e' s' (hpre.trans (List.prefix_append pre [e]))
    exact hstep pre e u s hu hi (hq pre e u (List.prefix_refl _) hu) he

/-- **Invariant rule** with history. -/
theorem run_inv {step : σ → ε → Option σ} {s₀ : σ} (I : List ε → σ → Prop) (h₀ : I [] s₀)
    (hstep : ∀ es s e s', I es s → step s e = some s' → I (es ++ [e]) s') {es : List ε} {s : σ}
    (h : run step s₀ es = some s) : I es s :=
  run_forall I (fun _ _ => True) h₀ (fun pre e s s' _ hi _ he => hstep pre s e s' hi he)
    (fun _ _ _ _ _ => trivial) h

/-- **Progress rule.**  Steps that can always be taken while the invariant holds reach the
end of every run; each may use that its own prefix of the run has been passed. -/
theorem run_exists {step : σ → ε → Option σ} {s₀ : σ} (I : List ε → σ → Prop) (h₀ : I [] s₀) {es : List ε}
    (hstep : ∀ pre e s, pre ++ [e] <+: es → run step s₀ pre = some s → I pre s →
      ∃ s', step s e = some s' ∧ I (pre ++ [e]) s') :
    ∃ s, run step s₀ es = some s ∧ I es s := by
  induction es using List.reverseRecOn with
  | nil => exact ⟨s₀, rfl, h₀⟩
  | append_singleton es e ih =>
    obtain ⟨s, hs, hi⟩ := ih fun pre e' s hp =>
      hstep pre e' s (hp.trans (List.prefix_append es [e]))
    obtain ⟨s', he, hi'⟩ := hstep es e s (List.prefix_refl _) hs hi
    exact ⟨s', run_concat_eq_some_iff.2 ⟨s, hs, he⟩, hi'⟩

/-- A run that gets to its end gets to the end of each part. -/
theorem run_prefix {step : σ → ε → Option σ} {s s' : σ} {pre es : List ε} (hpre : pre <+: es)
    (h : run step s es = some s') : ∃ u, run step s pre = some u := by
  obtain ⟨rest, rfl⟩ := hpre
  rw [run_append, Option.bind_eq_some_iff] at h
  obtain ⟨u, hu, -⟩ := h
  exact ⟨u, hu⟩

/-- **Exact progress.**  If a step can be taken from the states of an invariant just when a condition
holds, a run gets to its end if and only if every step of it meets the condition. -/
theorem run_exists_iff {step : σ → ε → Option σ} {s₀ : σ} {I : σ → Prop} {Q : σ → ε → Prop} (h₀ : I s₀)
    (hkeep : ∀ s e s', I s → step s e = some s' → I s')
    (hstep : ∀ s e, I s → ((∃ s', step s e = some s') ↔ Q s e)) {es : List ε} :
    (∃ s, run step s₀ es = some s) ↔
      ∀ pre e s, pre ++ [e] <+: es → run step s₀ pre = some s → Q s e := by
  have hinv : ∀ pre s, run step s₀ pre = some s → I s := fun pre s h =>
    run_inv (fun _ s => I s) h₀ (fun _ s e s' hi he => hkeep s e s' hi he) h
  constructor
  · rintro ⟨t, ht⟩ pre e s hpre hs
    obtain ⟨u, hu⟩ := run_prefix hpre ht
    obtain ⟨s', hs', he⟩ := run_concat_eq_some_iff.1 hu
    obtain rfl : s = s' := Option.some.inj (hs.symm.trans hs')
    exact (hstep s e (hinv pre s hs)).1 ⟨u, he⟩
  · intro h
    have hgo : ∀ pre e s, pre ++ [e] <+: es → run step s₀ pre = some s → I s →
        ∃ s', step s e = some s' ∧ I s' := by
      intro pre e s hpre hs hi
      obtain ⟨s', he⟩ := (hstep s e hi).2 (h pre e s hpre hs)
      exact ⟨s', he, hkeep s e s' hi he⟩
    obtain ⟨s, hs, -⟩ := run_exists (fun _ s => I s) h₀ hgo
    exact ⟨s, hs⟩

/-- **Exact condition.**  What a step keeps just when a condition on it is met holds all along a run if
and only if every step of the run meets the condition. -/
theorem run_forall_iff {step : σ → ε → Option σ} {s₀ : σ} {I : List ε → σ → Prop} {Q : σ → ε → Prop}
    (h₀ : I [] s₀) (hnone : ∀ s e, step s e = none → Q s e)
    (hstep : ∀ pre e s s', run step s₀ pre = some s → I pre s → step s e = some s' →
      (I (pre ++ [e]) s' ↔ Q s e)) {es : List ε} :
    (∀ pre s, pre <+: es → run step s₀ pre = some s → I pre s) ↔
      ∀ pre e s, pre ++ [e] <+: es → run step s₀ pre = some s → Q s e := by
  constructor
  · intro h pre e s hpre hs
    cases he : step s e with
    | none => exact hnone s e he
    | some s' =>
      have hi := h pre s ((List.prefix_append pre [e]).trans hpre) hs
      exact (hstep pre e s s' hs hi he).1 (h _ s' hpre (run_concat_eq_some_iff.2 ⟨s, hs, he⟩))
  · intro h pre s hpre hs
    refine run_forall I Q h₀ (fun pre e s s' hs hi hq he => (hstep pre e s s' hs hi he).2 hq)
      (fun pre' e s' hpre' => ?_) hs
    exact h pre' e s' (hpre'.trans hpre)

/-- **Exact condition at the end.**  What holds after a step just when it held before and the step
meets a condition holds at the end of a run if and only if every step of the run meets it. -/
theorem run_iff {step : σ → ε → Option σ} {s₀ : σ} {I : σ → Prop} {Q : σ → ε → Prop} (h₀ : I s₀)
    (hstep : ∀ s e s', step s e = some s' → (I s' ↔ I s ∧ Q s e)) {es : List ε} {s : σ}
    (h : run step s₀ es = some s) :
    I s ↔ ∀ pre e u, pre ++ [e] <+: es → run step s₀ pre = some u → Q u e := by
  induction es using List.reverseRecOn generalizing s with
  | nil =>
    obtain rfl : s₀ = s := Option.some.inj h
    refine ⟨fun _ pre e u hpre => ?_, fun _ => h₀⟩
    exact absurd (List.prefix_nil.1 hpre) (List.concat_ne_nil e pre)
  | append_singleton es e ih =>
    obtain ⟨u, hu, he⟩ := run_concat_eq_some_iff.1 h
    rw [hstep u e s he, ih hu]
    constructor
    · rintro ⟨hall, hq⟩ pre e' u' hpre hu'
      rcases List.prefix_concat_iff.1 hpre with heq | hpre'
      · obtain ⟨rfl, hlast⟩ := List.append_inj' heq rfl
        obtain rfl := List.singleton_inj.1 hlast
        obtain rfl : u = u' := Option.some.inj (hu.symm.trans hu')
        exact hq
      · exact hall pre e' u' hpre' hu'
    · intro hall
      refine ⟨fun pre e' u' hpre => ?_, hall es e u (List.prefix_refl _) hu⟩
      exact hall pre e' u' (hpre.trans (List.prefix_append es [e]))

/-- A condition on the steps of a run, first step first. -/
theorem steps_cons {step : σ → ε → Option σ} {Q : σ → ε → Prop} {s : σ} {e : ε} {es : List ε} (hq : Q s e)
    (h : ∀ s', step s e = some s' → ∀ pre e' u, pre ++ [e'] <+: es → run step s' pre = some u → Q u e') :
    ∀ pre e' u, pre ++ [e'] <+: e :: es → run step s pre = some u → Q u e' := by
  intro pre e' u hpre hu
  cases pre with
  | nil =>
    obtain rfl : s = u := Option.some.inj hu
    obtain ⟨rfl, -⟩ := List.cons_prefix_cons.1 hpre
    exact hq
  | cons a pre =>
    obtain ⟨rfl, htail⟩ := List.cons_prefix_cons.1 hpre
    rw [run_cons, Option.bind_eq_some_iff] at hu
    obtain ⟨s', hs', hu⟩ := hu
    exact h s' hs' pre e' u htail hu

theorem steps_nil {step : σ → ε → Option σ} {Q : σ → ε → Prop} {s : σ} :
    ∀ pre e u, pre ++ [e] <+: [] → run step s pre = some u → Q u e :=
  fun pre e _ hpre => absurd (List.prefix_nil.1 hpre) (List.concat_ne_nil e pre)

/-- **Two runs.**  If what is visible of a state and of an event decides what is visible of the next
state, runs that look alike end in states that do. -/
theorem run_visible {τ κ : Type} {step : σ → ε → Option σ} {view : σ → τ} {viewEvent : ε → κ}
    (hstep : ∀ s s' e e', view s = view s' → viewEvent e = viewEvent e' →
      (step s e).map view = (step s' e').map view) {s s' : σ} {es es' : List ε}
    (hs : view s = view s') (hes : es.map viewEvent = es'.map viewEvent) :
    (run step s es).map view = (run step s' es').map view := by
  induction es generalizing es' s s' with
  | nil =>
    obtain rfl := List.map_eq_nil_iff.1 hes.symm
    rw [run_nil, run_nil, Option.map_some, Option.map_some, hs]
  | cons e es ih =>
    obtain ⟨e', es', rfl, he, hes⟩ := List.map_eq_cons_iff.1 hes.symm
    rw [run_cons, run_cons]
    have hnext := hstep s s' e e' hs he.symm
    cases h : step s e with
    | none =>
      rw [h, Option.map_none, eq_comm, Option.map_eq_none_iff] at hnext
      rw [hnext]
      rfl
    | some u =>
      rw [h, Option.map_some, eq_comm, Option.map_eq_some_iff] at hnext
      obtain ⟨u', hu', hview⟩ := hnext
      rw [hu']
      exact ih hview.symm hes.symm

/-- **Simulation.**  A view that takes each step to a step of another machine takes runs to runs. -/
theorem run_map {τ : Type} {step : σ → ε → Option σ} {step' : τ → ε → Option τ} {view : σ → τ}
    (hstep : ∀ s e, (step s e).map view = step' (view s) e) (s : σ) (es : List ε) :
    (run step s es).map view = run step' (view s) es := by
  induction es generalizing s with
  | nil => rfl
  | cons e es ih =>
    rw [run_cons, run_cons, ← hstep]
    cases step s e with
    | none => rfl
    | some s' => exact ih s'

theorem run_view {τ : Type} {step : σ → ε → Option σ} {step' : τ → ε → Option τ} {view : σ → τ}
    (hstep : ∀ s e, (step s e).map view = step' (view s) e) {s t : σ} {es : List ε}
    (h : run step s es = some t) : run step' (view s) es = some (view t) := by
  rw [← run_map hstep, h, Option.map_some]

end Runs
