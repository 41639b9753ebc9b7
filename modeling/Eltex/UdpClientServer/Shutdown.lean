import Eltex.UdpClientServer.Progress

/-!
# How the server ends

`SIGINT` and `SIGTERM` set `running` to false, and the loop of `server` ends.  It then joins the
workers.  A worker looks at `running` before each message and not again until it has answered it; in
`msgrcv` it waits for a message that nobody is going to send.

So `server` comes to its end just when there is a message left for each worker in `msgrcv`, and room for
their answers, whoever goes first (`shutdown_iff`).  A server that has answered everything never ends.
-/

namespace Eltex.UdpClientServer

open MsgQueue Runs

/-- Where a worker is. -/
inductive Phase where
  /-- before `while (running)` -/
  | check
  /-- in `msgrcv` -/
  | waiting
  /-- with a message to put -/
  | sending
  /-- behind `pthread_exit` -/
  | left
deriving Repr, DecidableEq

structure Process where
  server : Server
  phase : Fin maxThreads → Phase

inductive ProcessEvent where
  | turn (result : Recvfrom)
  | check (w : Fin maxThreads)
  | take (w : Fin maxThreads) (ctime : List UInt8)
  | put (w : Fin maxThreads)
  /-- `signal_handler`, in the thread of `server` -/
  | signal
deriving Repr, DecidableEq

/-- One step; a signal that comes later changes nothing and is left out. -/
def processStep (cap : Capacity) (p : Process) : ProcessEvent → Option Process
  | .turn result => (serverTurn cap p.server result).map fun s => { p with server := s }
  | .check w =>
    if p.phase w = .check then
      some { p with phase := Function.update p.phase w (if p.server.running = true then .waiting else .left) }
    else none
  | .take w ctime =>
    if p.phase w = .waiting then
      (workerTake p.server w ctime).map fun s => ⟨s, Function.update p.phase w .sending⟩
    else none
  | .put w =>
    if p.phase w = .sending then
      (workerPut cap p.server w).map fun s => ⟨s, Function.update p.phase w .check⟩
    else none
  | .signal =>
    if p.server.running = true then some { p with server := { p.server with running := false } } else none

/-- The workers are started before `running` is set: some may have left. -/
def startProcess (early : Fin maxThreads → Bool) : Process :=
  ⟨start, fun w => if early w = true then .left else .check⟩

/-- `pthread_join` has come back from all workers. -/
def Joined (p : Process) : Prop := ∀ w, p.phase w = .left

def Process.count (p : Process) (ph : Phase) : Nat :=
  (if p.phase 0 = ph then 1 else 0) + if p.phase 1 = ph then 1 else 0

/-- A message for every worker that waits, and room for all answers to come. -/
structure Enough (cap : Capacity) (p : Process) : Prop where
  requests : p.count .waiting ≤ p.server.requests.length
  room : 0 < p.count .waiting + p.count .sending →
    p.server.responses.length + p.count .waiting + p.count .sending ≤ cap.responses

section
variable {cap : Capacity} {p p' : Process} {w : Fin maxThreads}

/-! ## The workers -/

/-- One worker goes on to another phase. -/
theorem count_update {a b : Phase} (ha : p.phase w = a) (h : p'.phase = Function.update p.phase w b) (ph : Phase) :
    p'.count ph + (if a = ph then 1 else 0) = p.count ph + if b = ph then 1 else 0 := by
  subst ha
  rw [Process.count, Process.count, h]
  match w with
  | 0 =>
    rw [Function.update_self, Function.update_of_ne (by decide)]
    omega
  | 1 =>
    rw [Function.update_self, Function.update_of_ne (by decide)]
    omega

theorem joined_iff : Joined p ↔ p.count .check = 0 ∧ p.count .waiting = 0 ∧ p.count .sending = 0 := by
  have hall : Joined p ↔ p.phase 0 = .left ∧ p.phase 1 = .left := by
    refine ⟨fun h => ⟨h 0, h 1⟩, fun h w => ?_⟩
    match w with
    | 0 => exact h.1
    | 1 => exact h.2
  rw [hall, Process.count, Process.count, Process.count]
  cases p.phase 0 <;> cases p.phase 1 <;> decide

theorem exists_phase {ph : Phase} (h : 0 < p.count ph) : ∃ w, p.phase w = ph := by
  rw [Process.count] at h
  by_cases h0 : p.phase 0 = ph
  · exact ⟨0, h0⟩
  · refine ⟨1, ?_⟩
    by_contra h1
    rw [if_neg h0, if_neg h1] at h
    omega

/-- What holds between any two steps. -/
structure Sane (p : Process) : Prop where
  typed : ∀ r ∈ p.server.traced, r.type = 1
  busy : ∀ w, (p.server.workers w).isSome = true ↔ p.phase w = .sending

theorem serverTurn_workers {s s' : Server} {result : Recvfrom} (h : serverTurn cap s result = some s') :
    s'.workers = s.workers := by
  unfold serverTurn at h
  split at h
  · split at h
    · split at h <;> rw [← Option.some.inj h]
    · split at h <;> rw [← Option.some.inj h]
    · simp only at h
      split at h <;> rw [← Option.some.inj h]
  · cases h

/-- The other workers are as they were. -/
theorem busy_update {s s' : Server} {phase : Fin maxThreads → Phase} {o : Option Request} {ph : Phase}
    (hb : ∀ w, (s.workers w).isSome = true ↔ phase w = .sending) (h : s'.workers = Function.update s.workers w o)
    (ho : o.isSome = true ↔ ph = .sending) (v : Fin maxThreads) :
    (s'.workers v).isSome = true ↔ Function.update phase w ph v = .sending := by
  rw [h]
  by_cases hv : v = w
  · subst hv
    rw [Function.update_self, Function.update_self]
    exact ho
  · rw [Function.update_of_ne hv, Function.update_of_ne hv]
    exact hb v

/-- **Step.** -/
theorem sane_step {e : ProcessEvent} (hs : Sane p) (h : processStep cap p e = some p') : Sane p' := by
  cases e with
  | turn result =>
    obtain ⟨s, hturn, rfl⟩ := Option.map_eq_some_iff.1 h
    refine ⟨typed_step hs.typed (show step cap p.server (.turn result) = _ from hturn), fun w => ?_⟩
    rw [serverTurn_workers hturn]
    exact hs.busy w
  | check w =>
    rw [processStep] at h
    split at h
    · next hphase =>
      rw [← Option.some.inj h]
      refine ⟨hs.typed, busy_update hs.busy (Function.update_eq_self w p.server.workers).symm ?_⟩
      rw [hs.busy w, hphase]
      split <;> decide
    · cases h
  | take w ctime =>
    rw [processStep] at h
    split at h
    · obtain ⟨s, htake, rfl⟩ := Option.map_eq_some_iff.1 h
      refine ⟨typed_step hs.typed (show step cap p.server (.take w ctime) = _ from htake), ?_⟩
      rw [workerTake] at htake
      split at htake
      · cases htake
      · obtain ⟨⟨r, requests⟩, -, rfl⟩ := Option.map_eq_some_iff.1 htake
        exact busy_update hs.busy rfl (iff_of_true rfl rfl)
    · cases h
  | put w =>
    rw [processStep] at h
    split at h
    · obtain ⟨s, hput, rfl⟩ := Option.map_eq_some_iff.1 h
      refine ⟨typed_step hs.typed (show step cap p.server (.put w) = _ from hput), ?_⟩
      obtain ⟨r, -, hput⟩ := Option.bind_eq_some_iff.1 hput
      obtain ⟨responses, -, rfl⟩ := Option.map_eq_some_iff.1 hput
      exact busy_update hs.busy rfl (by decide)
    · cases h
  | signal =>
    rw [processStep] at h
    split at h
    · rw [← Option.some.inj h]
      exact ⟨hs.typed, hs.busy⟩
    · cases h

theorem sane_start (early : Fin maxThreads → Bool) : Sane (startProcess early) := by
  refine ⟨fun _ hr => absurd hr List.not_mem_nil, fun w => iff_of_false Bool.false_ne_true ?_⟩
  show (if early w = true then Phase.left else .check) ≠ .sending
  split <;> decide

theorem sane_run {early : Fin maxThreads → Bool} {es : List ProcessEvent}
    (h : run (processStep cap) (startProcess early) es = some p) : Sane p :=
  run_inv (fun _ p => Sane p) (sane_start early) (fun _ _ _ _ hs he => sane_step hs he) h

/-! ## After the signal -/

/-- A step of a worker takes it one phase on. -/
inductive Worked (cap : Capacity) (p p' : Process) : Prop where
  | checked (w : Fin maxThreads) (before : p.phase w = .check) (after : p'.phase = Function.update p.phase w .left)
      (requests : p'.server.requests = p.server.requests) (responses : p'.server.responses = p.server.responses)
  | took (w : Fin maxThreads) (before : p.phase w = .waiting) (after : p'.phase = Function.update p.phase w .sending)
      (requests : p.server.requests.length = p'.server.requests.length + 1)
      (responses : p'.server.responses = p.server.responses)
  | put (w : Fin maxThreads) (before : p.phase w = .sending) (after : p'.phase = Function.update p.phase w .check)
      (requests : p'.server.requests = p.server.requests) (room : p.server.responses.length < cap.responses)
      (responses : p'.server.responses.length = p.server.responses.length + 1)

/-- **Step.** -/
theorem worked_step {e : ProcessEvent} (hstop : p.server.running = false) (h : processStep cap p e = some p') :
    p'.server.running = false ∧ Worked cap p p' := by
  cases e with
  | turn result =>
    obtain ⟨s, hturn, -⟩ := Option.map_eq_some_iff.1 h
    simp [serverTurn, hstop] at hturn
  | check w =>
    rw [processStep] at h
    split at h
    · next hphase =>
      rw [hstop, if_neg (by decide)] at h
      rw [← Option.some.inj h]
      exact ⟨hstop, .checked w hphase rfl rfl rfl⟩
    · cases h
  | take w ctime =>
    rw [processStep] at h
    split at h
    · next hphase =>
      obtain ⟨s, htake, rfl⟩ := Option.map_eq_some_iff.1 h
      rw [workerTake] at htake
      split at htake
      · cases htake
      · obtain ⟨⟨r, requests⟩, hrecv, rfl⟩ := Option.map_eq_some_iff.1 htake
        exact ⟨hstop, .took w hphase rfl (recv_perm hrecv).length_eq rfl⟩
    · cases h
  | put w =>
    rw [processStep] at h
    split at h
    · next hphase =>
      obtain ⟨s, hput, rfl⟩ := Option.map_eq_some_iff.1 h
      obtain ⟨r, -, hput⟩ := Option.bind_eq_some_iff.1 hput
      obtain ⟨responses, hsend, rfl⟩ := Option.map_eq_some_iff.1 hput
      obtain ⟨hroom, rfl⟩ := send_eq_some_iff.1 hsend
      exact ⟨hstop, .put w hphase rfl rfl hroom List.length_append⟩
    · cases h
  | signal =>
    rw [processStep, hstop, if_neg (by decide)] at h
    cases h

/-- The steps still to come. -/
def Process.todo (p : Process) : Nat := 3 * p.count .waiting + 2 * p.count .sending + p.count .check

/-- What a step of a worker changes in the numbers of workers. -/
structure Counted (cap : Capacity) (p p' : Process) : Prop where
  enough : Enough cap p' ↔ Enough cap p
  todo : p'.todo + 1 = p.todo

/-- **Whoever goes first**, what there is enough of stays enough, and what is missing stays missing. -/
theorem counted_step (h : Worked cap p p') : Counted cap p p' := by
  have henough : ∀ q, Enough cap q ↔ q.count .waiting ≤ q.server.requests.length ∧
      (0 < q.count .waiting + q.count .sending →
        q.server.responses.length + q.count .waiting + q.count .sending ≤ cap.responses) :=
    fun q => ⟨fun h => ⟨h.requests, h.room⟩, fun h => ⟨h.1, h.2⟩⟩
  cases h with
  | checked w before after requests responses =>
    have hwaiting := count_update before after .waiting
    have hsending := count_update before after .sending
    have hcheck := count_update before after .check
    simp only [reduceCtorEq, if_true, if_false] at hwaiting hsending hcheck
    refine ⟨?_, ?_⟩
    · rw [henough, henough, requests, responses]
      omega
    · rw [Process.todo, Process.todo]
      omega
  | took w before after requests responses =>
    have hwaiting := count_update before after .waiting
    have hsending := count_update before after .sending
    have hcheck := count_update before after .check
    simp only [reduceCtorEq, if_true, if_false] at hwaiting hsending hcheck
    refine ⟨?_, ?_⟩
    · rw [henough, henough, responses]
      omega
    · rw [Process.todo, Process.todo]
      omega
  | put w before after requests room responses =>
    have hwaiting := count_update before after .waiting
    have hsending := count_update before after .sending
    have hcheck := count_update before after .check
    simp only [reduceCtorEq, if_true, if_false] at hwaiting hsending hcheck
    refine ⟨?_, ?_⟩
    · rw [henough, henough, requests, responses]
      omega
    · rw [Process.todo, Process.todo]
      omega

/-- Where there is enough, some worker can go on until all have left. -/
theorem exists_worked (hs : Sane p) (he : Enough cap p) (hj : ¬ Joined p) :
    ∃ e p', processStep cap p e = some p' := by
  rw [joined_iff] at hj
  by_cases hcheck : 0 < p.count .check
  · obtain ⟨w, hw⟩ := exists_phase hcheck
    refine ⟨.check w, ?_⟩
    rw [processStep, if_pos hw]
    exact ⟨_, rfl⟩
  by_cases hsending : 0 < p.count .sending
  · obtain ⟨w, hw⟩ := exists_phase hsending
    obtain ⟨r, hbusy⟩ := Option.isSome_iff_exists.1 ((hs.busy w).2 hw)
    have hroom := he.room (by omega)
    have hsend : send cap.responses r p.server.responses = some (p.server.responses ++ [r]) :=
      send_eq_some_iff.2 ⟨by omega, rfl⟩
    refine ⟨.put w, ?_⟩
    rw [processStep, if_pos hw, workerPut, hbusy, Option.bind_some, hsend]
    exact ⟨_, rfl⟩
  · obtain ⟨w, hw⟩ := exists_phase (show 0 < p.count .waiting by omega)
    have hidle : p.server.workers w = none := by
      rw [← Option.not_isSome_iff_eq_none, hs.busy w, hw]
      decide
    have hrequests := he.requests
    obtain ⟨r, q, hq⟩ := List.exists_cons_of_length_pos (show 0 < p.server.requests.length by omega)
    have hr : r.type = 1 := by
      refine hs.typed r (mem_traced.2 (Or.inl ?_))
      rw [hq]
      exact List.mem_cons_self
    refine ⟨.take w [], ?_⟩
    rw [processStep, if_pos hw, workerTake, hidle, hq]
    simp only [recv_of_typed hr]
    exact ⟨_, rfl⟩

/-- **Run.** -/
theorem stopped_run {fs : List ProcessEvent} (hs : Sane p) (hstop : p.server.running = false)
    (h : run (processStep cap) p fs = some p') :
    Sane p' ∧ (Enough cap p' ↔ Enough cap p) ∧ p'.todo + fs.length = p.todo := by
  have hall : (Sane p' ∧ p'.server.running = false) ∧ (Enough cap p' ↔ Enough cap p) ∧ p'.todo + fs.length = p.todo := by
    refine run_inv (fun fs p' => (Sane p' ∧ p'.server.running = false) ∧ (Enough cap p' ↔ Enough cap p) ∧
      p'.todo + fs.length = p.todo) ⟨⟨hs, hstop⟩, Iff.rfl, rfl⟩ (fun fs u e u' hu he => ?_) h
    obtain ⟨⟨hsane, hrunning⟩, henough, htodo⟩ := hu
    obtain ⟨hrunning', hworked⟩ := worked_step hrunning he
    have hone := (counted_step hworked).todo
    refine ⟨⟨sane_step hsane he, hrunning'⟩, (counted_step hworked).enough.trans henough, ?_⟩
    rw [List.length_append, List.length_singleton]
    omega
  exact ⟨hall.1.1, hall.2⟩

end

/-- **When `server` ends.**  Once `running` is false every order of steps comes to an end.  Where there is enough it
ends only when all workers have been joined; where there is not, no order gets there. -/
theorem shutdown_iff {cap : Capacity} {early : Fin maxThreads → Bool} {es : List ProcessEvent} {p : Process}
    (h : run (processStep cap) (startProcess early) es = some p) (hstop : p.server.running = false) :
    ∀ fs p', run (processStep cap) p fs = some p' → fs.length ≤ p.todo ∧
      (Enough cap p → (∀ e, processStep cap p' e = none) → Joined p') ∧ (Joined p' → Enough cap p) := by
  intro fs p' hrun
  obtain ⟨hs', henough, htodo⟩ := stopped_run (sane_run h) hstop hrun
  refine ⟨by omega, fun he hstuck => ?_, fun hj => ?_⟩
  · by_contra hj
    obtain ⟨e, u, hu⟩ := exists_worked hs' (henough.2 he) hj
    rw [hstuck] at hu
    cases hu
  · rw [← henough]
    obtain ⟨-, hwaiting, hsending⟩ := joined_iff.1 hj
    exact ⟨by omega, fun hpos => by omega⟩

/-- A signal while both workers wait for the first datagram: they wait for ever. -/
theorem shutdown_iff_idle :
    ∃ p, run (processStep ⟨4, 4⟩) (startProcess fun _ => false) [.check 0, .check 1, .signal] = some p ∧
      ∀ fs p', run (processStep ⟨4, 4⟩) p fs = some p' → ¬ Joined p' := by
  have hcounts : (run (processStep ⟨4, 4⟩) (startProcess fun _ => false) [.check 0, .check 1, .signal]).map
      (fun p => (p.server.running, p.count .waiting, p.server.requests.length)) = some (false, 2, 0) := rfl
  obtain ⟨p, hp, hcounts⟩ := Option.map_eq_some_iff.1 hcounts
  obtain ⟨hstop, hrest⟩ := Prod.mk.inj hcounts
  obtain ⟨hwaiting, hnone⟩ := Prod.mk.inj hrest
  refine ⟨p, hp, fun fs p' hrun hj => ?_⟩
  have hrequests := ((shutdown_iff hp hstop fs p' hrun).2.2 hj).requests
  omega

end Eltex.UdpClientServer
