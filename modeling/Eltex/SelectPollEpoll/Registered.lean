import Eltex.Lib.Outcome
import Eltex.SelectPollEpoll.Loops
import Mathlib.Data.List.Nodup
import Mathlib.Data.Finset.Dedup

/-!
# What stays registered

The calls made so far say which clients there are: an accepted descriptor is
one until its `recv` returns 0 (`clients`).  Each of the three loops keeps the
two sockets and these clients registered, each once, as long as the kernel does
not hand out a descriptor that is open (`registered_invariant`).

In `pfds` the order is that of the calls, because the shift removes an element
where it stands; what stands behind `nfds` only ever moves to places behind it.
-/

namespace Eltex.SelectPollEpoll

open Outcome

/-- The clients after one call more. -/
def served (clients : List Int) : Call → List Int
  | .accept _ result => clients ++ [result]
  | .recvfrom _ => clients
  | .recv sock nbytes => if nbytes = 0 then clients.erase sock else clients

/-- The accepted clients whose `recv` has not returned 0. -/
def clients (calls : List Call) : List Int := calls.foldl served []

/-- The descriptors that have to be registered. -/
def registered (k : Sockets) (calls : List Call) : List Int := k.tcpsock :: k.udpsock :: clients calls

/-- `accept` returned descriptors, none of them open. -/
def Fresh (k : Sockets) (calls : List Call) : Prop :=
  ∀ pre sock (f : Int), pre ++ [.accept sock f] <+: calls → 0 ≤ f ∧ f ∉ registered k pre

section
variable {k : Sockets} {calls : List Call}

theorem fresh_concat {c : Call} :
    Fresh k (calls ++ [c]) ↔
      Fresh k calls ∧ ∀ sock f, c = .accept sock f → 0 ≤ f ∧ f ∉ registered k calls := by
  constructor
  · intro h
    refine ⟨fun pre sock f hpre => h pre sock f (hpre.trans (List.prefix_append _ _)), ?_⟩
    rintro sock f rfl
    exact h calls sock f (List.prefix_refl _)
  · rintro ⟨h, hc⟩ pre sock f hpre
    rcases List.prefix_concat_iff.1 hpre with heq | hpre
    · obtain ⟨rfl, hcall⟩ := List.append_inj' heq rfl
      exact hc sock f (List.singleton_inj.1 hcall).symm
    · exact h pre sock f hpre

theorem clients_concat {c : Call} : clients (calls ++ [c]) = served (clients calls) c := by
  rw [clients, List.foldl_append]
  rfl

theorem registered_accept {sock f : Int} :
    registered k (calls ++ [.accept sock f]) = registered k calls ++ [f] := by
  rw [registered, clients_concat]
  rfl

theorem registered_recvfrom {sock : Int} :
    registered k (calls ++ [.recvfrom sock]) = registered k calls := by
  rw [registered, clients_concat]
  rfl

theorem registered_recv {sock : Int} {nbytes : Int} (h : nbytes ≠ 0) :
    registered k (calls ++ [.recv sock nbytes]) = registered k calls := by
  rw [registered, clients_concat, served, if_neg h]
  rfl

theorem registered_recv_zero {sock : Int} (ht : sock ≠ k.tcpsock) (hu : sock ≠ k.udpsock) :
    registered k (calls ++ [.recv sock 0]) = (registered k calls).erase sock := by
  rw [registered, clients_concat, served, if_pos rfl, registered,
    List.erase_cons_tail (by simpa using ht.symm), List.erase_cons_tail (by simpa using hu.symm)]

theorem toFinset_registered_nil (k : Sockets) :
    (registered k []).toFinset = {k.tcpsock, k.udpsock} := by
  rw [registered, List.toFinset_cons, List.toFinset_cons]
  rfl

theorem nodup_registered (h : Fresh k calls) : (registered k calls).Nodup := by
  induction calls using List.reverseRecOn with
  | nil =>
    have hne := k.ne
    simpa [registered, clients] using hne
  | append_singleton calls c ih =>
    obtain ⟨hf, hc⟩ := fresh_concat.1 h
    have hnodup := ih hf
    cases c with
    | accept sock f =>
      rw [registered_accept, List.nodup_append]
      refine ⟨hnodup, List.nodup_singleton f, fun a ha b hb hab => ?_⟩
      rw [List.mem_singleton.1 hb] at hab
      subst hab
      exact (hc sock a rfl).2 ha
    | recvfrom sock =>
      rw [registered_recvfrom]
      exact hnodup
    | recv sock nbytes =>
      refine hnodup.sublist ?_
      rw [registered, clients_concat, served]
      split
      · exact ((List.erase_sublist).cons_cons _).cons_cons _
      · exact List.Sublist.refl _

end

/-! ## select -/

/-- What a `for` loop over the bits keeps. -/
structure SelectOk (k : Sockets) (s : SelectState) : Prop where
  rset : Fresh k s.calls → s.rset = (registered k s.calls).toFinset
  le_max : ∀ f ∈ s.rset, f ≤ s.max
  max_lt : s.max < fdSetsize

/-- The last descriptor accepted does not fit an `fd_set`. -/
def SetFull (k : Sockets) (calls : List Call) : Prop :=
  ∃ pre, ∃ f : Int, calls = pre ++ [.accept k.tcpsock f] ∧ ¬ (0 ≤ f ∧ f < fdSetsize)

theorem setMax_eq (val m : Int) : setMax val m = max val m := by
  unfold setMax
  split <;> omega

section
variable {k : Sockets} {p : Pass}

theorem toFinset_erase {l : List Int} (h : l.Nodup) (f : Int) :
    (l.erase f).toFinset = l.toFinset.erase f := by
  ext a
  rw [List.mem_toFinset, Finset.mem_erase, List.mem_toFinset, h.mem_erase_iff]

theorem selectOk_selectBody {tset : Finset Int} {i : Int} {s : SelectState} (hi : SelectOk k s) :
    Ends (SetFull k) (SelectOk k) (selectBody k p tset i s) := by
  unfold selectBody
  split
  · split
    · next htcp =>
      subst htcp
      simp only
      unfold fdSet
      split
      · next rset hset =>
        split at hset
        · next hrange =>
          obtain rfl := Option.some.inj hset
          refine ⟨fun hf => ?_, fun f hf => ?_, ?_⟩
          · rw [registered_accept, List.toFinset_append, hi.rset (fresh_concat.1 hf).1]
            show insert p.accept _ = _ ∪ {p.accept}
            rw [Finset.union_comm]
            rfl
          · show f ≤ setMax p.accept s.max
            rw [setMax_eq]
            rcases Finset.mem_insert.1 hf with rfl | hf
            · exact le_max_left _ _
            · exact (hi.le_max f hf).trans (le_max_right _ _)
          · show setMax p.accept s.max < fdSetsize
            rw [setMax_eq]
            exact max_lt hrange.2 hi.max_lt
        · exact absurd hset.symm (Option.some_ne_none _)
      · next hset =>
        split at hset
        · exact absurd hset (Option.some_ne_none _)
        · next hrange => exact ⟨_, _, rfl, hrange⟩
    · split
      · refine ⟨fun hf => ?_, hi.le_max, hi.max_lt⟩
        rw [registered_recvfrom]
        exact hi.rset (fresh_concat.1 hf).1
      · next htcp hudp =>
        simp only
        split
        · next hzero =>
          refine ⟨fun hf => ?_, fun f hf => hi.le_max f (Finset.mem_of_mem_erase hf), hi.max_lt⟩
          have hf' := (fresh_concat.1 hf).1
          rw [hzero, registered_recv_zero htcp hudp, toFinset_erase (nodup_registered hf')]
          show s.rset.erase i = _
          rw [hi.rset hf']
        · next hzero =>
          refine ⟨fun hf => ?_, hi.le_max, hi.max_lt⟩
          rw [registered_recv hzero]
          exact hi.rset (fresh_concat.1 hf).1
  · exact hi

/-- The loop has reached `FD_SETSIZE` when its iterations are used up. -/
theorem selectOk_selectLoop {tset : Finset Int} (n : Nat) {i : Int} {s : SelectState}
    (hn : fdSetsize ≤ i + n) (hi : SelectOk k s) :
    Ends (SetFull k) (SelectOk k) (selectLoop k p tset n i s) := by
  induction n generalizing i s with
  | zero =>
    have hmax := hi.max_lt
    rw [selectLoop, if_neg (by omega)]
    exact hi
  | succ n ih =>
    unfold selectLoop
    split
    · exact ends_bind (selectOk_selectBody hi) fun s' hi' => ih (by omega) hi'
    · exact hi

theorem selectOk_selectPass {s : SelectState} (hi : SelectOk k s) :
    Ends (SetFull k) (SelectOk k) (selectPass k p s) := by
  unfold selectPass
  simp only
  split
  · exact selectOk_selectLoop fdSetsize (by omega) hi
  · exact hi

theorem selectOk_selectStart : SelectOk k (selectStart k) where
  rset _ := (toFinset_registered_nil k).symm
  le_max f hf := by
    have hf : f ∈ ({k.tcpsock, k.udpsock} : Finset Int) := hf
    show f ≤ setMax (if k.tcpsock > k.udpsock then k.tcpsock else k.udpsock) (-1)
    rw [setMax_eq]
    rw [Finset.mem_insert, Finset.mem_singleton] at hf
    split <;> rcases hf with rfl | rfl <;> omega
  max_lt := by
    show setMax (if k.tcpsock > k.udpsock then k.tcpsock else k.udpsock) (-1) < fdSetsize
    have ht := k.tcp_lt
    have hu := k.udp_lt
    rw [setMax_eq]
    split <;> omega

end

/-! ## poll -/

/-- What a `for` loop over the array keeps. -/
structure PollOk (k : Sockets) (s : PollState) : Prop where
  fds : Fresh k s.calls → s.entries.map PollFd.fd = registered k s.calls
  events : ∀ e ∈ s.entries, e.events = pollIn
  le : s.nfds ≤ pollMax

/-- A descriptor was accepted with the array full. -/
def ArrayFull (k : Sockets) (calls : List Call) : Prop :=
  Fresh k calls → ∃ pre f, calls = pre ++ [.accept k.tcpsock f] ∧ (registered k pre).length = pollMax

section
variable {k : Sockets} {p : Pass}

theorem pollOk_pollBody {i : Nat} {s : PollState} (hlt : i < s.nfds) (hi : PollOk k s) :
    Ends (ArrayFull k) (PollOk k) (pollBody k p i s) := by
  unfold pollBody
  split
  · split
    · simp only
      split
      · next hroom =>
        refine ⟨fun hf => ?_, fun e he => ?_, hroom⟩
        · rw [PollState.entries_store, List.map_append, hi.fds (fresh_concat.1 hf).1, registered_accept]
          rfl
        · rw [PollState.entries_store] at he
          rcases List.mem_append.1 he with he | he
          · exact hi.events e he
          · rw [List.mem_singleton.1 he]
      · next hroom =>
        refine fun hf => ⟨s.calls, p.accept, rfl, ?_⟩
        rw [← hi.fds (fresh_concat.1 hf).1, List.length_map, PollState.length_entries]
        have hle := hi.le
        omega
    · split
      · refine ⟨fun hf => ?_, hi.events, hi.le⟩
        rw [registered_recvfrom]
        exact hi.fds (fresh_concat.1 hf).1
      · next htcp hudp =>
        simp only
        split
        · next hzero =>
          refine ⟨fun hf => ?_, fun e he => ?_, (Nat.sub_le _ _).trans hi.le⟩
          · have hf' := (fresh_concat.1 hf).1
            have hfds := hi.fds hf'
            have hnodup : (s.entries.map PollFd.fd).Nodup := by
              rw [hfds]
              exact nodup_registered hf'
            rw [PollState.entries_shiftDown hlt, PollState.map_fd_eraseIdx hlt hnodup, hfds, hzero,
              registered_recv_zero htcp hudp]
          · rw [PollState.entries_shiftDown hlt] at he
            exact hi.events e (List.mem_of_mem_eraseIdx he)
        · next hzero =>
          refine ⟨fun hf => ?_, hi.events, hi.le⟩
          rw [registered_recv hzero]
          exact hi.fds (fresh_concat.1 hf).1
  · exact hi

/-- The loop has reached `POLL_MAX` when its iterations are used up. -/
theorem pollOk_pollLoop (n : Nat) {i : Nat} {s : PollState} (hn : pollMax ≤ i + n) (hi : PollOk k s) :
    Ends (ArrayFull k) (PollOk k) (pollLoop k p n i s) := by
  induction n generalizing i s with
  | zero =>
    have hle := hi.le
    rw [pollLoop, if_neg (by omega)]
    exact hi
  | succ n ih =>
    unfold pollLoop
    split
    · next hlt => exact ends_bind (pollOk_pollBody hlt hi) fun s' hi' => ih (by omega) hi'
    · exact hi

/-- The wait call writes `revents` only. -/
theorem pollOk_poll {s : PollState} (hi : PollOk k s) : PollOk k { s with pfds := (poll p s).2 } where
  fds hf := by
    rw [← hi.fds hf, PollState.entries, PollState.entries, List.map_map, List.map_map]
    exact List.map_congr_left fun j _ => poll_fd p s j
  events e he := by
    obtain ⟨j, hj, rfl⟩ := List.mem_map.1 he
    rw [poll_events]
    exact hi.events _ (List.mem_map.2 ⟨j, hj, rfl⟩)
  le := hi.le

theorem pollOk_pollPass {s : PollState} (hi : PollOk k s) :
    Ends (ArrayFull k) (PollOk k) (pollPass k p s) := by
  unfold pollPass
  simp only
  split
  · exact pollOk_pollLoop pollMax (by omega) (pollOk_poll hi)
  · exact pollOk_poll hi

theorem entries_pollStart (junk : Nat → PollFd) :
    (pollStart k junk).entries =
      [{ junk 0 with fd := k.tcpsock, events := pollIn }, { junk 1 with fd := k.udpsock, events := pollIn }] :=
  rfl

theorem pollOk_pollStart (junk : Nat → PollFd) : PollOk k (pollStart k junk) where
  fds _ := rfl
  events e he := by
    rw [entries_pollStart, List.mem_pair] at he
    rcases he with rfl | rfl <;> rfl
  le := by
    show 2 ≤ pollMax
    decide

end

/-! ## epoll -/

/-- What the loop over the events keeps. -/
def EpollOk (k : Sockets) (s : EpollState) : Prop :=
  Fresh k s.calls → s.interest = (registered k s.calls).toFinset

section
variable {k : Sockets} {p : Pass}

theorem epollOk_epollBody {s : EpollState} (hi : EpollOk k s) (fd : Int) :
    EpollOk k (epollBody k p s fd) := by
  unfold epollBody
  split
  · intro hf
    rw [registered_recvfrom]
    exact hi (fresh_concat.1 hf).1
  · split
    · intro hf
      obtain ⟨hf', hc⟩ := fresh_concat.1 hf
      obtain ⟨hnonneg, -⟩ := hc _ _ rfl
      rw [registered_accept, List.toFinset_append, ← hi hf']
      show epollAdd p.accept s.interest = s.interest ∪ {p.accept}
      rw [epollAdd, if_pos hnonneg, Finset.union_comm]
      rfl
    · next hudp htcp =>
      simp only
      split
      · next hzero =>
        intro hf
        have hf' := (fresh_concat.1 hf).1
        rw [hzero, registered_recv_zero (Ne.symm htcp) (Ne.symm hudp),
          toFinset_erase (nodup_registered hf'), ← hi hf']
      · next hzero =>
        intro hf
        rw [registered_recv hzero]
        exact hi (fresh_concat.1 hf).1

theorem epollOk_epollPass {s : EpollState} (hi : EpollOk k s) : EpollOk k (epollPass k p s) := by
  unfold epollPass
  split
  · exact hi
  · exact List.foldlRecOn _ _ hi fun _ hi fd _ => epollOk_epollBody hi fd

theorem epollOk_epollStart : EpollOk k (epollStart k) := fun _ => (toFinset_registered_nil k).symm

end

/-! ## Runs -/

def selectRun (k : Sockets) (passes : List Pass) : Except (List Call) SelectState :=
  passes.foldlM (fun s p => selectPass k p s) (selectStart k)

def pollRun (k : Sockets) (junk : Nat → PollFd) (passes : List Pass) : Except (List Call) PollState :=
  passes.foldlM (fun s p => pollPass k p s) (pollStart k junk)

def epollRun (k : Sockets) (passes : List Pass) : EpollState :=
  passes.foldl (fun s p => epollPass k p s) (epollStart k)

/-- **Registered set.**  Whatever is reported and received, and whatever the array of `poll` holds
behind `nfds`: after every pass exactly the sockets and the clients are registered, each once, or
the last descriptor accepted had no place. -/
theorem registered_invariant (k : Sockets) (junk : Nat → PollFd) (passes : List Pass) :
    Ends (SetFull k)
        (fun s => Fresh k s.calls → (registered k s.calls).Nodup ∧
          s.rset = (registered k s.calls).toFinset ∧ ∀ f ∈ s.rset, f ≤ s.max)
        (selectRun k passes) ∧
      Ends (ArrayFull k)
        (fun s => Fresh k s.calls → (registered k s.calls).Nodup ∧
          s.entries.map PollFd.fd = registered k s.calls ∧ ∀ e ∈ s.entries, e.events = pollIn)
        (pollRun k junk passes) ∧
      (Fresh k (epollRun k passes).calls → (registered k (epollRun k passes).calls).Nodup ∧
        (epollRun k passes).interest = (registered k (epollRun k passes).calls).toFinset) := by
  refine ⟨?_, ?_, ?_⟩
  · have hrun : Ends (SetFull k) (SelectOk k) (selectRun k passes) :=
      ends_foldlM (fun _ _ hi => selectOk_selectPass hi) selectOk_selectStart passes
    exact ends_mono hrun fun s hi hf => ⟨nodup_registered hf, hi.rset hf, hi.le_max⟩
  · have hrun : Ends (ArrayFull k) (PollOk k) (pollRun k junk passes) :=
      ends_foldlM (fun _ _ hi => pollOk_pollPass hi) (pollOk_pollStart junk) passes
    exact ends_mono hrun fun s hi hf => ⟨nodup_registered hf, hi.fds hf, hi.events⟩
  · have hrun : EpollOk k (epollRun k passes) :=
      List.foldlRecOn passes _ epollOk_epollStart fun _ hi _ _ => epollOk_epollPass hi
    exact fun hf => ⟨nodup_registered hf, hrun hf⟩

/-- A client is accepted as 5, sends something while 6 is accepted, and leaves. -/
theorem registered_invariant_client :
    let k : Sockets := ⟨4, 3, by decide, by decide, by decide, by decide, by decide⟩
    let passes : List Pass :=
      [⟨.ready [4], 5, fun _ => 1⟩, ⟨.ready [4, 5], 6, fun _ => 1⟩, ⟨.ready [3, 5], 7, fun _ => 0⟩]
    (∃ s, selectRun k passes = .ok s ∧ s.rset = {4, 3, 6}) ∧
      (∃ s, pollRun k (fun _ => ⟨0, 0, 0⟩) passes = .ok s ∧ s.entries.map PollFd.fd = [4, 3, 6]) ∧
      (epollRun k passes).interest = {4, 3, 6} := by
  intro k passes
  have hfresh : Fresh k [.accept 4 5, .accept 4 6, .recv 5 1, .recvfrom 3, .recv 5 0] := by
    have hnil : Fresh k [] := fun pre sock f h => absurd (List.prefix_nil.1 h) (by simp)
    have h1 : Fresh k ([] ++ [.accept 4 5]) :=
      fresh_concat.2 ⟨hnil, fun _ f hc => by cases hc; decide⟩
    have h2 : Fresh k ([.accept 4 5] ++ [.accept 4 6]) :=
      fresh_concat.2 ⟨h1, fun _ f hc => by cases hc; decide⟩
    have h3 : Fresh k ([.accept 4 5, .accept 4 6] ++ [.recv 5 1]) :=
      fresh_concat.2 ⟨h2, fun _ f hc => by cases hc⟩
    have h4 : Fresh k ([.accept 4 5, .accept 4 6, .recv 5 1] ++ [.recvfrom 3]) :=
      fresh_concat.2 ⟨h3, fun _ f hc => by cases hc⟩
    exact (@fresh_concat k [.accept 4 5, .accept 4 6, .recv 5 1, .recvfrom 3] _).2
      ⟨h4, fun _ f hc => by cases hc⟩
  obtain ⟨hselect, hpoll, hepoll⟩ := registered_invariant k (fun _ => ⟨0, 0, 0⟩) passes
  have hcalls : (selectRun k passes).toOption.map SelectState.calls =
      some [.accept 4 5, .accept 4 6, .recv 5 1, .recvfrom 3, .recv 5 0] := by decide
  have hcalls' : (pollRun k (fun _ => ⟨0, 0, 0⟩) passes).toOption.map PollState.calls =
      some [.accept 4 5, .accept 4 6, .recv 5 1, .recvfrom 3, .recv 5 0] := by decide
  have hcalls'' : (epollRun k passes).calls =
      [.accept 4 5, .accept 4 6, .recv 5 1, .recvfrom 3, .recv 5 0] := by decide
  obtain ⟨s, hs, hlog⟩ := ok_of_toOption hcalls
  obtain ⟨s', hs', hlog'⟩ := ok_of_toOption hcalls'
  rw [hs] at hselect
  rw [hs'] at hpoll
  rw [hcalls''] at hepoll
  refine ⟨⟨s, hs, ?_⟩, ⟨s', hs', ?_⟩, (hepoll hfresh).2⟩
  · rw [(hselect (by rw [hlog]; exact hfresh)).2.1, hlog]
    rfl
  · rw [(hpoll (by rw [hlog']; exact hfresh)).2.1, hlog']
    rfl

end Eltex.SelectPollEpoll
