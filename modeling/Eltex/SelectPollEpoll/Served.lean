import Eltex.SelectPollEpoll.PollScan

/-!
# What one pass serves

The three loops start a pass with the same descriptors registered (`Alike`) and
get the same report and the same answers.  Each should make one call for every
descriptor reported and no other call (`ServesExactly`); then they also end
with the same descriptors registered.

* `select` and `poll` test the value of the wait call for being non-zero, so
  the loop runs when the call has failed.  In `select` it finds all of `rset`.
* `poll` advances its index over the element that the shift has moved into the
  place of a closed one, and reaches the element it has appended, whose
  `revents` nobody has written.

`pass_serves_iff` has the exact condition.
-/

namespace Eltex.SelectPollEpoll

open SkipScan

/-- The descriptors reported, none when the wait call fails. -/
def Pass.reported (p : Pass) : List Int :=
  match p.wait with
  | .failed _ => []
  | .ready fds => fds

/-- The three variants, with the sockets and the clients `l` registered. -/
structure Alike (k : Sockets) (l : List Int) (s : SelectState) (t : PollState) (u : EpollState) :
    Prop where
  nodup : (k.tcpsock :: k.udpsock :: l).Nodup
  rset : s.rset = (k.tcpsock :: k.udpsock :: l).toFinset
  le_max : ∀ f ∈ s.rset, f ≤ s.max
  max_lt : s.max < fdSetsize
  nonneg : ∀ f ∈ s.rset, 0 ≤ f
  fds : t.entries.map PollFd.fd = k.tcpsock :: k.udpsock :: l
  le : t.nfds ≤ pollMax
  interest : u.interest = (k.tcpsock :: k.udpsock :: l).toFinset

/-- The calls made are one for each of the descriptors. -/
def ServesExactly (fds : List Int) (before after : List Call) : Prop :=
  ∃ new, after = before ++ new ∧ (new.map Call.sock).Perm fds

/-- Each variant gets through the pass serving what was reported, and they end alike. -/
def Serves (k : Sockets) (p : Pass) (s : SelectState) (t : PollState) (u : EpollState) : Prop :=
  ∃ s' t', selectPass k p s = .ok s' ∧ pollPass k p t = .ok t' ∧
    ServesExactly p.reported s.calls s'.calls ∧
    ServesExactly p.reported t.calls t'.calls ∧
    ServesExactly p.reported u.calls (epollPass k p u).calls ∧
    s'.rset = (t'.entries.map PollFd.fd).toFinset ∧ s'.rset = (epollPass k p u).interest

/-- The wait succeeds, a new client has a place, no client reported stands directly behind one that
leaves, and a new client is not taken for reported. -/
structure Meets (k : Sockets) (p : Pass) (l : List Int) (t : PollState) (fds : List Int) : Prop where
  wait : p.wait = .ready fds
  accept : k.tcpsock ∈ fds → (0 ≤ p.accept ∧ p.accept < fdSetsize) ∧ t.nfds < pollMax
  apart : l.IsChain fun f f' => f ∈ fds → Leaves k p f → f' ∉ fds
  unread : k.tcpsock ∈ fds → (t.pfds t.nfds).revents &&& pollIn ≠ 0 →
    ∃ f, l.getLast? = some f ∧ f ∈ fds ∧ Leaves k p f

section
variable {k : Sockets} {p : Pass} {l fds : List Int} {s : SelectState} {t : PollState} {u : EpollState}

/-- Calls made in the order of `new` serve exactly what is a permutation of it. -/
theorem servesExactly_iff {new : List Int} {before after : List Call}
    (h : after = before ++ new.map (callFor k p)) : ServesExactly fds before after ↔ new.Perm fds := by
  constructor
  · rintro ⟨calls, hafter, hperm⟩
    rw [h] at hafter
    rw [← List.append_cancel_left hafter, map_sock_callFor] at hperm
    exact hperm
  · intro hperm
    refine ⟨_, h, ?_⟩
    rw [map_sock_callFor]
    exact hperm

/-- Nothing reported, nothing read. -/
theorem readBy_nil (hfds : t.entries.map PollFd.fd = k.tcpsock :: k.udpsock :: l) :
    readBy k p t [] = [] := by
  have happended : appended k p t [] = [] := if_neg List.not_mem_nil
  have hread := (@scan_sublist PollFd Readable (fun e => Leaves k p e.fd) false
    (t.entries.map (report []))).map PollFd.fd
  rw [map_fd_filter_report hfds] at hread
  rw [readBy, happended, List.append_nil]
  refine List.sublist_nil.1 (hread.trans ?_)
  simp

/-- A descriptor reported is an element of the array. -/
theorem exists_mem_of_ne_nil (h : Alike k l s t u) (hsub : p.reported ⊆ k.tcpsock :: k.udpsock :: l)
    (hwait : p.wait = .ready fds) (hne : fds ≠ []) : ∃ f ∈ fds, f ∈ t.entries.map PollFd.fd := by
  have hreported : p.reported = fds := by rw [Pass.reported, hwait]
  obtain ⟨f, hf⟩ := List.exists_mem_of_ne_nil _ hne
  refine ⟨f, hf, ?_⟩
  rw [h.fds]
  exact hsub (hreported ▸ hf)

theorem Serves.meets (h : Alike k l s t u) (hnodup : p.reported.Nodup)
    (hsub : p.reported ⊆ k.tcpsock :: k.udpsock :: l)
    (haccept : k.tcpsock ∈ p.reported → p.accept ∉ k.tcpsock :: k.udpsock :: l)
    (hserves : Serves k p s t u) : ∃ fds, Meets k p l t fds := by
  obtain ⟨s', t', hs', ht', hselect, hpoll, -, -, -⟩ := hserves
  have htcp : k.tcpsock ∈ s.rset := by
    rw [h.rset]
    exact List.mem_toFinset.2 List.mem_cons_self
  cases hwait : p.wait with
  | failed revents =>
    have hreported : p.reported = [] := by rw [Pass.reported, hwait]
    obtain ⟨new, hne, hcalls⟩ := selectPass_failed hwait htcp h.le_max h.max_lt hs'
    rw [hreported, servesExactly_iff hcalls, List.perm_nil] at hselect
    exact absurd hselect hne
  | ready fds =>
    have hreported : p.reported = fds := by rw [Pass.reported, hwait]
    rw [hreported] at hnodup hsub haccept hpoll
    have hroom : k.tcpsock ∈ fds → (0 ≤ p.accept ∧ p.accept < fdSetsize) ∧ t.nfds < pollMax := by
      intro ht
      constructor
      · by_contra hroom
        exact selectPass_full hwait ht htcp (h.le_max _ htcp) hroom hs'
      · by_contra hroom
        exact pollPass_full hwait h.fds ht hroom ht'
    have hperm : (readBy k p t fds).Perm fds := by
      by_cases hne : fds = []
      · rw [hne, readBy_nil h.fds]
      · obtain ⟨t₁, ht₁, hserved⟩ := pollPass_ok hwait h.fds h.nodup h.le
          (exists_mem_of_ne_nil h (hreported ▸ hsub) hwait hne) (fun ht => (hroom ht).2) haccept
        obtain rfl := Except.ok.inj (ht₁.symm.trans ht')
        exact (servesExactly_iff hserved.calls).1 hpoll
    obtain ⟨hapart, hunread⟩ := (readBy_perm_iff h.fds h.nodup hnodup hsub haccept).1 hperm
    exact ⟨fds, hwait, hroom, hapart, hunread⟩

theorem Meets.serves (h : Alike k l s t u) (hnodup : p.reported.Nodup)
    (hsub : p.reported ⊆ k.tcpsock :: k.udpsock :: l)
    (haccept : k.tcpsock ∈ p.reported → p.accept ∉ k.tcpsock :: k.udpsock :: l)
    (hmeets : Meets k p l t fds) : Serves k p s t u := by
  have hwait := hmeets.wait
  have hreported : p.reported = fds := by rw [Pass.reported, hwait]
  have hsub' := hsub
  rw [hreported] at hnodup hsub haccept
  have hsub_rset : ∀ f ∈ fds, f ∈ s.rset := by
    intro f hf
    rw [h.rset]
    exact List.mem_toFinset.2 (hsub hf)
  have hfresh : k.tcpsock ∈ fds → p.accept ∉ fds := fun ht hmem => haccept ht (hsub hmem)
  obtain ⟨s', fds', hs', hselect, hperm⟩ := selectPass_ready hwait hnodup hsub_rset h.le_max h.max_lt
    h.nonneg fun ht => (hmeets.accept ht).1
  have hread := (readBy_perm_iff h.fds h.nodup hnodup hsub haccept).2 ⟨hmeets.apart, hmeets.unread⟩
  have hpass : ∃ t', pollPass k p t = .ok t' ∧ PollServed k p t t' (readBy k p t fds) := by
    by_cases hne : fds = []
    · subst hne
      obtain ⟨t', ht', hcalls, hset⟩ := @pollPass_nil k p t hwait
      refine ⟨t', ht', ?_, ?_⟩
      · rw [readBy_nil h.fds, hcalls]
        exact (List.append_nil _).symm
      · rw [readBy_nil h.fds, hset]
        rfl
    · exact pollPass_ok hwait h.fds h.nodup h.le (exists_mem_of_ne_nil h hsub' hwait hne)
        (fun ht => (hmeets.accept ht).2) haccept
  obtain ⟨t', ht', hpoll⟩ := hpass
  have hepoll := @epollPass_eq k p u fds hwait fun ht => (hmeets.accept ht).1.1
  have hset : t.set = s.rset := by
    rw [PollState.set, h.fds, h.rset]
  have hinterest : u.interest = s.rset := by
    rw [h.interest, h.rset]
  refine ⟨s', t', hs', ht', ?_, ?_, ?_, ?_, ?_⟩
  · rw [hreported, servesExactly_iff hselect.calls]
    exact hperm
  · rw [hreported, servesExactly_iff hpoll.calls]
    exact hread
  · rw [hreported, hepoll, servesExactly_iff (k := k) (p := p) rfl]
  · show s'.rset = t'.set
    rw [hselect.rset, hpoll.set, hset]
    exact foldl_serve_perm (hperm.trans hread.symm) _ fun ht hmem =>
      hfresh (hperm.mem_iff.1 ht) (hperm.mem_iff.1 hmem)
  · rw [hselect.rset, hepoll, hinterest]
    exact foldl_serve_perm hperm _ fun ht hmem => hfresh (hperm.mem_iff.1 ht) (hperm.mem_iff.1 hmem)

end

/-- The variants start alike, without clients. -/
theorem alike_start (k : Sockets) (junk : Nat → PollFd) :
    Alike k [] (selectStart k) (pollStart k junk) (epollStart k) where
  nodup := by
    have hne := k.ne
    simpa using hne
  rset := (toFinset_registered_nil k).symm
  le_max := selectOk_selectStart.le_max
  max_lt := selectOk_selectStart.max_lt
  nonneg f hf := by
    have hf : f ∈ ({k.tcpsock, k.udpsock} : Finset Int) := hf
    rw [Finset.mem_insert, Finset.mem_singleton] at hf
    rcases hf with rfl | rfl
    · exact k.tcp_nonneg
    · exact k.udp_nonneg
  fds := rfl
  le := (pollOk_pollStart junk).le
  interest := (toFinset_registered_nil k).symm

/-- **One pass of the three loops.**  From the same descriptors registered, and with the same report
and answers, each serves exactly what was reported and they end alike, if and only if the wait call
succeeds, a new client has a place, no reported client stands directly behind one that leaves, and
the new element is not read. -/
theorem pass_serves_iff {k : Sockets} {p : Pass} {l : List Int} {s : SelectState} {t : PollState}
    {u : EpollState} (h : Alike k l s t u) (hnodup : p.reported.Nodup)
    (hsub : p.reported ⊆ k.tcpsock :: k.udpsock :: l)
    (haccept : k.tcpsock ∈ p.reported → p.accept ∉ k.tcpsock :: k.udpsock :: l) :
    Serves k p s t u ↔ ∃ fds, Meets k p l t fds :=
  ⟨fun hserves => hserves.meets h hnodup hsub haccept,
    fun ⟨_, hmeets⟩ => hmeets.serves h hnodup hsub haccept⟩

/-- A datagram and a first client, in an array whose third element has not been read. -/
theorem pass_serves_first :
    let k : Sockets := ⟨4, 3, by decide, by decide, by decide, by decide, by decide⟩
    Serves k ⟨.ready [4, 3], 5, fun _ => 1⟩ (selectStart k) (pollStart k fun _ => ⟨7, 1, 0⟩)
      (epollStart k) := by
  intro k
  refine (pass_serves_iff (alike_start k _) (by decide) (by decide) fun _ => by decide).2
    ⟨[4, 3], rfl, ?_, ?_, ?_⟩
  · intro _
    exact ⟨by decide, by decide⟩
  · exact List.IsChain.nil
  · intro _ hread
    exact (hread (by decide)).elim

/-- Two clients leave in one pass: `poll` passes over the second. -/
theorem pass_two_leave :
    let k : Sockets := ⟨4, 3, by decide, by decide, by decide, by decide, by decide⟩
    let p : Pass := ⟨.ready [5, 6], 7, fun _ => 0⟩
    let s : SelectState := ⟨{4, 3, 5, 6}, 6, []⟩
    let t : PollState := ⟨fun j => ⟨[4, 3, 5, 6].getD j 0, 1, 0⟩, 4, []⟩
    let u : EpollState := ⟨{4, 3, 5, 6}, []⟩
    Alike k [5, 6] s t u ∧ p.reported.Nodup ∧ p.reported ⊆ [4, 3, 5, 6] ∧ ¬ Serves k p s t u := by
  intro k p s t u
  have halike : Alike k [5, 6] s t u :=
    ⟨by decide, by decide, by decide, by decide, by decide, by decide, by decide, by decide⟩
  refine ⟨halike, by decide, by decide, fun hserves => ?_⟩
  obtain ⟨fds, hmeets⟩ := hserves.meets halike (by decide) (by decide) (by decide)
  obtain rfl := Wait.ready.inj hmeets.wait
  exact absurd hmeets.apart (by decide)

end Eltex.SelectPollEpoll
