import Eltex.SelectPollEpoll.Registered
import Mathlib.Data.List.Perm.Basic

/-!
# Serving a list of descriptors

Every descriptor is served by one call (`callFor`), with one effect on what is
registered (`serve`).  In what order descriptors are served does not matter for
the registered set (`foldl_serve_perm`), as long as what is accepted is not one
of them.

A pass of `select` or of `epoll` serves what was reported, if an accepted
descriptor has a place.  When the call fails, `select` serves all of `rset`.
-/

namespace Eltex.SelectPollEpoll

/-- The call that serves a descriptor. -/
def callFor (k : Sockets) (p : Pass) (fd : Int) : Call :=
  if fd = k.tcpsock then .accept fd p.accept
  else if fd = k.udpsock then .recvfrom fd
  else .recv fd (p.recv fd)

/-- A client whose `recv` returns 0. -/
def Leaves (k : Sockets) (p : Pass) (fd : Int) : Bool :=
  decide (fd ≠ k.tcpsock ∧ fd ≠ k.udpsock ∧ p.recv fd = 0)

/-- What the call for a descriptor does to what is registered. -/
def serve (k : Sockets) (p : Pass) (set : Finset Int) (fd : Int) : Finset Int :=
  if fd = k.tcpsock then insert p.accept set else if Leaves k p fd then set.erase fd else set

section
variable {k : Sockets} {p : Pass}

@[simp] theorem sock_callFor (fd : Int) : (callFor k p fd).sock = fd := by
  unfold callFor
  split
  · rfl
  · split <;> rfl

theorem map_sock_callFor (fds : List Int) : (fds.map (callFor k p)).map Call.sock = fds := by
  rw [List.map_map]
  exact List.map_id'' sock_callFor fds

theorem callFor_tcpsock : callFor k p k.tcpsock = .accept k.tcpsock p.accept := if_pos rfl

theorem callFor_udpsock : callFor k p k.udpsock = .recvfrom k.udpsock := by
  rw [callFor, if_neg k.ne.symm, if_pos rfl]

theorem callFor_client {fd : Int} (ht : fd ≠ k.tcpsock) (hu : fd ≠ k.udpsock) :
    callFor k p fd = .recv fd (p.recv fd) := by
  rw [callFor, if_neg ht, if_neg hu]

theorem leaves_iff {fd : Int} :
    Leaves k p fd = true ↔ fd ≠ k.tcpsock ∧ fd ≠ k.udpsock ∧ p.recv fd = 0 := decide_eq_true_iff

theorem serve_client {set : Finset Int} {fd : Int} (ht : fd ≠ k.tcpsock) (hu : fd ≠ k.udpsock) :
    serve k p set fd = if p.recv fd = 0 then set.erase fd else set := by
  rw [serve, if_neg ht]
  by_cases hzero : p.recv fd = 0
  · rw [if_pos hzero, if_pos (leaves_iff.2 ⟨ht, hu, hzero⟩)]
  · rw [if_neg hzero, if_neg (fun hl => hzero (leaves_iff.1 hl).2.2)]

theorem serve_udpsock {set : Finset Int} : serve k p set k.udpsock = set := by
  rw [serve, if_neg k.ne.symm, if_neg (fun hl => (leaves_iff.1 hl).2.1 rfl)]

/-- What is registered in the end, in whatever order the descriptors are served. -/
theorem mem_foldl_serve {fds : List Int} {set : Finset Int} {f : Int}
    (h : k.tcpsock ∈ fds → p.accept ∉ fds) :
    f ∈ fds.foldl (serve k p) set ↔
      (f ∈ set ∧ ¬ (f ∈ fds ∧ Leaves k p f)) ∨ (k.tcpsock ∈ fds ∧ f = p.accept) := by
  induction fds generalizing set with
  | nil => simp
  | cons g fds ih =>
    rw [List.foldl_cons, ih fun ht hmem => h (List.mem_cons_of_mem _ ht) (List.mem_cons_of_mem _ hmem)]
    unfold serve
    by_cases ht : g = k.tcpsock
    · subst ht
      have hleaves : Leaves k p k.tcpsock = false := by simp [Leaves]
      have hnew := h List.mem_cons_self
      rw [if_pos rfl]
      by_cases hf : f = p.accept
      · subst hf
        simp [List.not_mem_of_not_mem_cons hnew]
      · by_cases hft : f = k.tcpsock
        · subst hft
          simp [hleaves, hf]
        · simp [hf, hft]
    · rw [if_neg ht]
      by_cases hl : Leaves k p g = true
      · rw [if_pos hl]
        by_cases hfg : f = g
        · subst hfg
          simp [hl, Ne.symm ht]
        · simp [hfg, Ne.symm ht]
      · rw [if_neg hl]
        by_cases hfg : f = g
        · subst hfg
          simp [hl, Ne.symm ht]
        · simp [hfg, Ne.symm ht]

theorem foldl_serve_perm {fds fds' : List Int} (hperm : fds.Perm fds') (set : Finset Int)
    (h : k.tcpsock ∈ fds → p.accept ∉ fds) :
    fds.foldl (serve k p) set = fds'.foldl (serve k p) set := by
  ext f
  rw [mem_foldl_serve h, mem_foldl_serve fun ht hmem => h (hperm.mem_iff.2 ht) (hperm.mem_iff.2 hmem)]
  simp only [hperm.mem_iff]

end

/-! ## select -/

section
variable {k : Sockets} {p : Pass} {tset : Finset Int}

/-- A descriptor that is set is served, if what is accepted fits. -/
theorem selectBody_mem {i : Int} {s : SelectState} (hi : i ∈ tset)
    (hroom : k.tcpsock ∈ tset → 0 ≤ p.accept ∧ p.accept < fdSetsize) (hmax : s.max < fdSetsize) :
    ∃ m, s.max ≤ m ∧ m < fdSetsize ∧ selectBody k p tset i s =
      .ok ⟨serve k p s.rset i, m, s.calls ++ [callFor k p i]⟩ := by
  unfold selectBody
  rw [if_pos hi]
  by_cases ht : i = k.tcpsock
  · subst ht
    have hfits := hroom hi
    refine ⟨setMax p.accept s.max, ?_, ?_, ?_⟩
    · rw [setMax_eq]
      exact le_max_right _ _
    · rw [setMax_eq]
      exact max_lt hfits.2 hmax
    · simp only [if_pos, fdSet, if_pos hfits, callFor_tcpsock, serve]
  · rw [if_neg ht]
    by_cases hu : i = k.udpsock
    · subst hu
      refine ⟨s.max, le_refl _, hmax, ?_⟩
      rw [if_pos rfl, serve_udpsock, callFor_udpsock]
    · refine ⟨s.max, le_refl _, hmax, ?_⟩
      rw [if_neg hu, serve_client ht hu, callFor_client ht hu]
      simp only
      split <;> rfl

/-- The state after the descriptors `fds` have been served. -/
structure SelectServed (k : Sockets) (p : Pass) (s s' : SelectState) (fds : List Int) : Prop where
  calls : s'.calls = s.calls ++ fds.map (callFor k p)
  rset : s'.rset = fds.foldl (serve k p) s.rset

/-- The loop serves the descriptors set from `i` on, each once. -/
theorem selectLoop_ok (hroom : k.tcpsock ∈ tset → 0 ≤ p.accept ∧ p.accept < fdSetsize) (n : Nat) {i : Int}
    {s : SelectState} (hn : fdSetsize ≤ i + n) (hmax : s.max < fdSetsize) (hset : ∀ f ∈ tset, f ≤ s.max) :
    ∃ s' fds, selectLoop k p tset n i s = .ok s' ∧ SelectServed k p s s' fds ∧ fds.Nodup ∧
      ∀ f, f ∈ fds ↔ f ∈ tset ∧ i ≤ f := by
  induction n generalizing i s with
  | zero =>
    rw [selectLoop, if_neg (by omega)]
    refine ⟨s, [], rfl, ⟨(List.append_nil _).symm, rfl⟩, List.nodup_nil, fun f => ?_⟩
    refine ⟨fun h => absurd h List.not_mem_nil, fun h => ?_⟩
    have := hset f h.1
    omega
  | succ n ih =>
    by_cases hle : i ≤ s.max
    · rw [selectLoop, if_pos hle]
      by_cases hi : i ∈ tset
      · obtain ⟨m, hm, hlt, hbody⟩ := @selectBody_mem k p tset i s hi hroom hmax
        rw [hbody]
        obtain ⟨s', fds, hs', hserved, hnodup, hmem⟩ :=
          @ih (i + 1) ⟨serve k p s.rset i, m, s.calls ++ [callFor k p i]⟩ (by omega) hlt
            fun f hf => (hset f hf).trans hm
        refine ⟨s', i :: fds, hs', ⟨?_, hserved.rset⟩, List.nodup_cons.2 ⟨fun h => ?_, hnodup⟩, fun f => ?_⟩
        · rw [hserved.calls, List.map_cons, List.append_assoc]
          rfl
        · have := ((hmem i).1 h).2
          omega
        · rw [List.mem_cons, hmem]
          constructor
          · rintro (rfl | ⟨hf, hlt⟩)
            · exact ⟨hi, le_refl _⟩
            · exact ⟨hf, by omega⟩
          · rintro ⟨hf, hge⟩
            by_cases hfi : f = i
            · exact Or.inl hfi
            · exact Or.inr ⟨hf, by omega⟩
      · have hbody : selectBody k p tset i s = .ok s := if_neg hi
        rw [hbody]
        obtain ⟨s', fds, hs', hserved, hnodup, hmem⟩ := @ih (i + 1) s (by omega) hmax hset
        refine ⟨s', fds, hs', hserved, hnodup, fun f => (hmem f).trans ?_⟩
        refine and_congr_right fun hf => ⟨fun h => by omega, fun h => ?_⟩
        have hne : f ≠ i := fun hfi => hi (hfi ▸ hf)
        omega
    · rw [selectLoop, if_neg hle]
      refine ⟨s, [], rfl, ⟨(List.append_nil _).symm, rfl⟩, List.nodup_nil, fun f => ?_⟩
      refine ⟨fun h => absurd h List.not_mem_nil, fun h => ?_⟩
      have := hset f h.1
      omega

/-- It does not get past the listening socket if what is accepted does not fit. -/
theorem selectLoop_full (ht : k.tcpsock ∈ tset) (hroom : ¬ (0 ≤ p.accept ∧ p.accept < fdSetsize)) (n : Nat)
    {i : Int} {s s' : SelectState} (hi : i ≤ k.tcpsock) (hmax : k.tcpsock ≤ s.max) :
    selectLoop k p tset n i s ≠ .ok s' := by
  induction n generalizing i s with
  | zero =>
    rw [selectLoop, if_pos (hi.trans hmax)]
    intro h
    cases h
  | succ n ih =>
    rw [selectLoop, if_pos (hi.trans hmax)]
    by_cases heq : i = k.tcpsock
    · subst heq
      unfold selectBody
      rw [if_pos ht, if_pos rfl]
      simp only [fdSet, if_neg hroom]
      intro h
      cases h
    · have hbody : ∃ s₁, selectBody k p tset i s = .ok s₁ ∧ s₁.max = s.max := by
        unfold selectBody
        rw [if_neg heq]
        split
        · split
          · exact ⟨_, rfl, rfl⟩
          · simp only
            split <;> exact ⟨_, rfl, rfl⟩
        · exact ⟨_, rfl, rfl⟩
      obtain ⟨s₁, hs₁, hm⟩ := hbody
      rw [hs₁]
      exact ih (by omega) (by omega)

/-! ### The whole pass -/

variable {s s' : SelectState} {fds : List Int}

/-- A pass of `select` serves what was reported, if what is accepted fits. -/
theorem selectPass_ready (hwait : p.wait = .ready fds) (hnodup : fds.Nodup) (hsub : ∀ f ∈ fds, f ∈ s.rset)
    (hle : ∀ f ∈ s.rset, f ≤ s.max) (hmax : s.max < fdSetsize) (hnonneg : ∀ f ∈ s.rset, 0 ≤ f)
    (hroom : k.tcpsock ∈ fds → 0 ≤ p.accept ∧ p.accept < fdSetsize) :
    ∃ s' fds', selectPass k p s = .ok s' ∧ SelectServed k p s s' fds' ∧ fds'.Perm fds := by
  have hmem : ∀ f, f ∈ s.rset.filter (fun f => f ∈ fds) ↔ f ∈ fds := by
    intro f
    rw [Finset.mem_filter]
    exact ⟨fun h => h.2, fun h => ⟨hsub f h, h⟩⟩
  have hselect : select p s.rset =
      (((s.rset.filter fun f => f ∈ fds).card : Int), s.rset.filter fun f => f ∈ fds) := by
    unfold select
    rw [hwait]
  unfold selectPass
  rw [hselect]
  simp only
  split
  · obtain ⟨s', fds', hs', hserved, hnodup', hfds'⟩ :=
      @selectLoop_ok k p (s.rset.filter fun f => f ∈ fds) (fun ht => hroom ((hmem _).1 ht)) fdSetsize 0 s
        (by omega) hmax fun f hf => hle f (Finset.mem_filter.1 hf).1
    refine ⟨s', fds', hs', hserved, (List.perm_ext_iff_of_nodup hnodup' hnodup).2 fun f => ?_⟩
    rw [hfds', hmem]
    exact ⟨fun h => h.1, fun h => ⟨h, hnonneg f (hsub f h)⟩⟩
  · next hret =>
    have hempty : s.rset.filter (fun f => f ∈ fds) = ∅ := by
      rw [← Finset.card_eq_zero]
      omega
    have hnil : fds = [] := by
      rw [List.eq_nil_iff_forall_not_mem]
      intro f hf
      have hin := (hmem f).2 hf
      rw [hempty] at hin
      exact absurd hin (Finset.notMem_empty f)
    exact ⟨s, [], rfl, ⟨(List.append_nil _).symm, rfl⟩, by rw [hnil]⟩

theorem selectPass_full (hwait : p.wait = .ready fds) (ht : k.tcpsock ∈ fds) (hset : k.tcpsock ∈ s.rset)
    (hle : k.tcpsock ≤ s.max) (hroom : ¬ (0 ≤ p.accept ∧ p.accept < fdSetsize)) :
    selectPass k p s ≠ .ok s' := by
  have htset : k.tcpsock ∈ s.rset.filter fun f => f ∈ fds := Finset.mem_filter.2 ⟨hset, ht⟩
  have hselect : select p s.rset =
      (((s.rset.filter fun f => f ∈ fds).card : Int), s.rset.filter fun f => f ∈ fds) := by
    unfold select
    rw [hwait]
  have hcard := Finset.card_pos.2 ⟨_, htset⟩
  unfold selectPass
  rw [hselect]
  simp only
  rw [if_pos (by omega)]
  exact selectLoop_full htset hroom fdSetsize k.tcp_nonneg hle

/-- When the call fails, all that is registered is served. -/
theorem selectPass_failed {revents : Nat → UInt16} (hwait : p.wait = .failed revents)
    (hset : k.tcpsock ∈ s.rset) (hle : ∀ f ∈ s.rset, f ≤ s.max) (hmax : s.max < fdSetsize)
    (h : selectPass k p s = .ok s') :
    ∃ fds, fds ≠ [] ∧ s'.calls = s.calls ++ fds.map (callFor k p) := by
  have hloop : selectLoop k p s.rset fdSetsize 0 s = .ok s' := by
    rw [← h, selectPass, select, hwait]
    rfl
  by_cases hroom : 0 ≤ p.accept ∧ p.accept < fdSetsize
  · obtain ⟨s₁, fds, hs₁, hserved, -, hfds⟩ :=
      @selectLoop_ok k p s.rset (fun _ => hroom) fdSetsize 0 s (by omega) hmax hle
    obtain rfl := Except.ok.inj (hs₁.symm.trans hloop)
    refine ⟨fds, fun hnil => ?_, hserved.calls⟩
    have hin := (hfds k.tcpsock).2 ⟨hset, k.tcp_nonneg⟩
    rw [hnil] at hin
    exact absurd hin List.not_mem_nil
  · exact absurd hloop (selectLoop_full hset hroom fdSetsize k.tcp_nonneg (hle _ hset))

end

/-! ## epoll -/

section
variable {k : Sockets} {p : Pass}

theorem epollBody_eq {u : EpollState} {fd : Int} (hroom : fd = k.tcpsock → 0 ≤ p.accept) :
    epollBody k p u fd = ⟨serve k p u.interest fd, u.calls ++ [callFor k p fd]⟩ := by
  unfold epollBody
  by_cases hu : k.udpsock = fd
  · subst hu
    rw [if_pos rfl, serve_udpsock, callFor_udpsock]
  · rw [if_neg hu]
    by_cases ht : k.tcpsock = fd
    · subst ht
      rw [if_pos rfl, callFor_tcpsock, epollAdd, if_pos (hroom rfl), serve, if_pos rfl]
    · rw [if_neg ht, serve_client (Ne.symm ht) (Ne.symm hu), callFor_client (Ne.symm ht) (Ne.symm hu)]
      simp only
      split <;> rfl

theorem epollPass_eq {u : EpollState} {fds : List Int} (hwait : p.wait = .ready fds)
    (hroom : k.tcpsock ∈ fds → 0 ≤ p.accept) :
    epollPass k p u = ⟨fds.foldl (serve k p) u.interest, u.calls ++ fds.map (callFor k p)⟩ := by
  unfold epollPass
  rw [hwait]
  simp only
  clear hwait
  induction fds generalizing u with
  | nil => rw [List.map_nil, List.append_nil]; rfl
  | cons fd fds ih =>
    rw [List.foldl_cons, epollBody_eq fun ht => hroom (ht ▸ List.mem_cons_self),
      ih fun ht => hroom (List.mem_cons_of_mem _ ht), List.map_cons, List.append_assoc]
    rfl

end

end Eltex.SelectPollEpoll
