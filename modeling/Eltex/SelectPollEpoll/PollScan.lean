import Eltex.Lib.SkipScan
import Eltex.SelectPollEpoll.Serving

/-!
# What the poll loop reads

The loop over `pfds` removes elements while its index advances, so it reads
what a scan that skips the element behind a removed one finds (`pollLoop_ok`).
The element `accept` appends is read like the others, with the `revents` that
stood in the array.

`readBy_perm_iff` says when what is read is what was reported.
-/

namespace Eltex.SelectPollEpoll

open SkipScan

/-- The test of the loop. -/
def Readable (e : PollFd) : Bool := decide (e.revents &&& pollIn ≠ 0)

/-- The descriptors in `pfds`. -/
def PollState.set (t : PollState) : Finset Int := (t.entries.map PollFd.fd).toFinset

/-- The state after the descriptors `fds` have been served. -/
structure PollServed (k : Sockets) (p : Pass) (t t' : PollState) (fds : List Int) : Prop where
  calls : t'.calls = t.calls ++ fds.map (callFor k p)
  set : t'.set = fds.foldl (serve k p) t.set

section
variable {k : Sockets} {p : Pass} {t t₁ t' : PollState}

theorem PollServed.cons {fd : Int} {fds : List Int} (hcalls : t₁.calls = t.calls ++ [callFor k p fd])
    (hset : t₁.set = serve k p t.set fd) (h : PollServed k p t₁ t' fds) :
    PollServed k p t t' (fd :: fds) where
  calls := by
    rw [h.calls, hcalls, List.map_cons, List.append_assoc]
    rfl
  set := by
    rw [h.set, hset]
    rfl

theorem readable_iff {e : PollFd} : Readable e = true ↔ e.revents &&& pollIn ≠ 0 := decide_eq_true_iff

theorem pollBody_unread {i : Nat} (h : Readable (t.pfds i) = false) : pollBody k p i t = .ok t := by
  unfold pollBody
  rw [if_neg fun hread => by rw [readable_iff.2 hread] at h; cases h]

/-- An element that stays in its place. -/
theorem pollBody_stays {i : Nat} (h : Readable (t.pfds i) = true) (ht : (t.pfds i).fd ≠ k.tcpsock)
    (hl : Leaves k p (t.pfds i).fd = false) :
    pollBody k p i t = .ok { t with calls := t.calls ++ [callFor k p (t.pfds i).fd] } := by
  unfold pollBody
  rw [if_pos (readable_iff.1 h), if_neg ht]
  by_cases hu : (t.pfds i).fd = k.udpsock
  · rw [if_pos hu, hu, callFor_udpsock]
  · have hzero : p.recv (t.pfds i).fd ≠ 0 := by
      intro hzero
      rw [leaves_iff.2 ⟨ht, hu, hzero⟩] at hl
      cases hl
    rw [if_neg hu, callFor_client ht hu]
    simp only
    rw [if_neg hzero]

/-- An element that is removed. -/
theorem pollBody_leaves {i : Nat} (hlt : i < t.nfds) (h : Readable (t.pfds i) = true)
    (hl : Leaves k p (t.pfds i).fd = true) :
    ∃ t₁, pollBody k p i t = .ok t₁ ∧ t₁.calls = t.calls ++ [callFor k p (t.pfds i).fd] ∧
      t₁.entries = t.entries.eraseIdx i := by
  obtain ⟨ht, hu, hzero⟩ := leaves_iff.1 hl
  unfold pollBody
  rw [if_pos (readable_iff.1 h), if_neg ht, if_neg hu, callFor_client ht hu]
  simp only
  rw [if_pos hzero]
  exact ⟨_, rfl, rfl, PollState.entries_shiftDown hlt _ _⟩

theorem pollLoop_end (n : Nat) {i : Nat} (h : t.nfds ≤ i) : pollLoop k p n i t = .ok t := by
  cases n <;> rw [pollLoop, if_neg (by omega)]

/-- The loop from an index on serves what a scan of the rest finds. -/
theorem pollLoop_ok (n : Nat) {done todo : List PollFd} (hentries : t.entries = done ++ todo)
    (hn : todo.length ≤ n) (ht : ∀ e ∈ todo, e.fd ≠ k.tcpsock) (hnodup : (t.entries.map PollFd.fd).Nodup) :
    ∃ t', pollLoop k p n done.length t = .ok t' ∧
      PollServed k p t t' ((scan Readable (fun e => Leaves k p e.fd) false todo).map PollFd.fd) := by
  have hnfds : t.nfds = done.length + todo.length := by
    rw [← PollState.length_entries, hentries, List.length_append]
  induction n generalizing t done todo with
  | zero =>
    obtain rfl := List.length_eq_zero_iff.1 (Nat.le_zero.1 hn)
    rw [List.length_nil] at hnfds
    exact ⟨t, pollLoop_end 0 (by omega), (List.append_nil _).symm, rfl⟩
  | succ n ih =>
    cases todo with
    | nil =>
      rw [List.length_nil] at hnfds
      exact ⟨t, pollLoop_end _ (by omega), (List.append_nil _).symm, rfl⟩
    | cons e rest =>
      rw [List.length_cons] at hnfds hn
      have hlt : done.length < t.nfds := by omega
      have hget : t.pfds done.length = e := by
        have hlen : done.length < t.entries.length := by
          rw [PollState.length_entries]
          exact hlt
        rw [← PollState.getElem_entries hlen]
        simp [hentries]
      have hte := ht e List.mem_cons_self
      have htrest : ∀ e ∈ rest, e.fd ≠ k.tcpsock := fun e he => ht e (List.mem_cons_of_mem _ he)
      have hsnoc : t.entries = (done ++ [e]) ++ rest := by
        rw [hentries, List.append_assoc]
        rfl
      have hlen1 : (done ++ [e]).length = done.length + 1 := by
        rw [List.length_append]
        rfl
      rw [pollLoop, if_pos hlt, scan]
      cases hread : Readable e with
      | false =>
        rw [pollBody_unread (by rw [hget]; exact hread), if_neg Bool.false_ne_true]
        have := @ih t (done ++ [e]) rest hsnoc (by omega) htrest hnodup (by omega)
        rw [hlen1] at this
        exact this
      | true =>
        rw [if_pos rfl, List.map_cons]
        cases hleaves : Leaves k p e.fd with
        | false =>
          rw [pollBody_stays (by rw [hget]; exact hread) (by rw [hget]; exact hte)
            (by rw [hget]; exact hleaves), hget]
          obtain ⟨t', ht', hserved⟩ :=
            @ih { t with calls := t.calls ++ [callFor k p e.fd] } (done ++ [e]) rest hsnoc (by omega)
              htrest hnodup (by show t.nfds = _; omega)
          rw [hlen1] at ht'
          refine ⟨t', ht', PollServed.cons rfl ?_ hserved⟩
          rw [serve, if_neg hte, hleaves, if_neg Bool.false_ne_true]
          rfl
        | true =>
          obtain ⟨t₁, hbody, hcalls, herase⟩ := pollBody_leaves hlt (by rw [hget]; exact hread)
            (by rw [hget]; exact hleaves)
          rw [hget] at hcalls
          have hentries₁ : t₁.entries = done ++ rest := by
            rw [herase, hentries, List.eraseIdx_append_of_length_le (Nat.le_refl _), Nat.sub_self]
            rfl
          have hset : t₁.set = serve k p t.set e.fd := by
            rw [serve, if_neg hte, hleaves, if_pos rfl, PollState.set, PollState.set, ← toFinset_erase hnodup,
              herase, PollState.map_fd_eraseIdx hlt hnodup, hget]
          have hnodup₁ : (t₁.entries.map PollFd.fd).Nodup := by
            rw [herase, ← List.eraseIdx_map]
            exact hnodup.eraseIdx _
          have hnfds₁ : t₁.nfds = done.length + rest.length := by
            rw [← PollState.length_entries, hentries₁, List.length_append]
          rw [hbody]
          cases rest with
          | nil =>
            exact ⟨t₁, pollLoop_end _ (by rw [hnfds₁]; exact Nat.le_succ _),
              PollServed.cons hcalls hset ⟨(List.append_nil _).symm, rfl⟩⟩
          | cons e' rest =>
            -- the element shifted here is passed over
            rw [List.length_cons] at hn hnfds₁
            obtain ⟨t', ht', hserved⟩ := @ih t₁ (done ++ [e']) rest
              (by rw [hentries₁, List.append_assoc]; rfl) (by omega)
              (fun e he => htrest e (List.mem_cons_of_mem _ he)) hnodup₁ (by
                rw [hnfds₁, List.length_append, List.length_singleton]
                omega)
            rw [List.length_append, List.length_singleton] at ht'
            exact ⟨t', ht', PollServed.cons hcalls hset hserved⟩

end

/-! ## The whole pass -/

/-- What `poll` leaves of an element in `pfds`, when it succeeds. -/
def report (fds : List Int) (e : PollFd) : PollFd :=
  { e with revents := if e.fd ∈ fds then pollIn else 0 }

section
variable {k : Sockets} {p : Pass} {t t' : PollState} {fds l : List Int}

theorem readable_report {e : PollFd} : Readable (report fds e) = true ↔ e.fd ∈ fds := by
  rw [readable_iff]
  unfold report
  simp only
  split
  · next h => exact ⟨fun _ => h, fun _ => by decide⟩
  · next h => exact ⟨fun hc => absurd (by decide) hc, fun hc => absurd hc h⟩

/-- The state in which the loop starts. -/
def polled (t : PollState) (fds : List Int) : PollState :=
  { t with pfds := fun j => if j < t.nfds then report fds (t.pfds j) else t.pfds j }

theorem entries_polled : (polled t fds).entries = t.entries.map (report fds) := by
  rw [PollState.entries, PollState.entries, List.map_map]
  exact List.map_congr_left fun j hj => if_pos (List.mem_range.1 hj)

theorem map_fd_polled : (polled t fds).entries.map PollFd.fd = t.entries.map PollFd.fd := by
  rw [entries_polled, List.map_map]
  rfl

theorem pollPass_ready (hwait : p.wait = .ready fds) (hne : ∃ f ∈ fds, f ∈ t.entries.map PollFd.fd) :
    pollPass k p t = pollLoop k p pollMax 0 (polled t fds) := by
  have hpoll : poll p t = (((((List.range t.nfds).filter fun j => (t.pfds j).fd ∈ fds).length : Nat) : Int),
      (polled t fds).pfds) := by
    unfold poll
    rw [hwait]
    rfl
  unfold pollPass
  rw [hpoll]
  refine if_pos ?_
  obtain ⟨f, hf, hmem⟩ := hne
  rw [PollState.entries, List.map_map] at hmem
  obtain ⟨j, hj, rfl⟩ := List.mem_map.1 hmem
  have hmem : j ∈ (List.range t.nfds).filter fun j => (t.pfds j).fd ∈ fds :=
    List.mem_filter.2 ⟨hj, decide_eq_true hf⟩
  have hlen := List.length_pos_of_mem hmem
  omega

theorem pollPass_nil (hwait : p.wait = .ready []) : ∃ t', pollPass k p t = .ok t' ∧ t'.calls = t.calls ∧
    t'.set = t.set := by
  refine ⟨polled t [], ?_, rfl, ?_⟩
  · unfold pollPass poll
    rw [hwait]
    simp only [List.not_mem_nil, decide_false, List.filter_false, List.length_nil]
    rfl
  · rw [PollState.set, map_fd_polled]
    rfl

/-- What `accept` appends to the array. -/
def appended (k : Sockets) (p : Pass) (t : PollState) (fds : List Int) : List PollFd :=
  if k.tcpsock ∈ fds then [{ t.pfds t.nfds with fd := p.accept, events := pollIn }] else []

/-- The elements a pass finds readable, with the one it appends. -/
def readBy (k : Sockets) (p : Pass) (t : PollState) (fds : List Int) : List Int :=
  (scan Readable (fun e => Leaves k p e.fd) false
    (t.entries.map (report fds) ++ appended k p t fds)).map PollFd.fd

theorem map_fd_appended : (appended k p t fds).map PollFd.fd = if k.tcpsock ∈ fds then [p.accept] else [] := by
  unfold appended
  split <;> rfl

/-- The listening socket comes first. -/
theorem polled_zero (hfds : t.entries.map PollFd.fd = k.tcpsock :: k.udpsock :: l) :
    0 < t.nfds ∧ ((polled t fds).pfds 0).fd = k.tcpsock ∧
      (Readable ((polled t fds).pfds 0) = true ↔ k.tcpsock ∈ fds) := by
  obtain ⟨e, rest, hentries, hfd, -⟩ := List.map_eq_cons_iff.1 hfds
  have hpos : 0 < t.nfds := by
    rw [← PollState.length_entries, hentries]
    exact Nat.succ_pos _
  have hget : t.pfds 0 = e := by
    have hlen : 0 < t.entries.length := by
      rw [PollState.length_entries]
      exact hpos
    rw [← PollState.getElem_entries hlen]
    simp [hentries]
  have hzero : (polled t fds).pfds 0 = report fds e := by
    rw [← hget]
    exact if_pos hpos
  rw [hzero, readable_report, hfd]
  exact ⟨hpos, hfd, Iff.rfl⟩

/-- A new client has its place before the others are looked at. -/
theorem pollBody_tcpsock (hfds : t.entries.map PollFd.fd = k.tcpsock :: k.udpsock :: l)
    (hroom : k.tcpsock ∈ fds → t.nfds < pollMax) :
    ∃ t₁, pollBody k p 0 (polled t fds) = .ok t₁ ∧
      t₁.entries = t.entries.map (report fds) ++ appended k p t fds ∧
      t₁.calls = t.calls ++ (if k.tcpsock ∈ fds then [callFor k p k.tcpsock] else []) := by
  obtain ⟨-, htcp, hread⟩ := @polled_zero k t fds l hfds
  by_cases ht : k.tcpsock ∈ fds
  · have hslot : (polled t fds).pfds t.nfds = t.pfds t.nfds := if_neg (Nat.lt_irrefl _)
    unfold pollBody
    rw [if_pos (readable_iff.1 (hread.2 ht)), if_pos htcp, if_pos ht]
    simp only
    rw [if_pos (show (polled t fds).nfds < pollMax from hroom ht)]
    refine ⟨_, rfl, ?_, by rw [callFor_tcpsock]; rfl⟩
    rw [PollState.entries_store, entries_polled, appended, if_pos ht]
    show _ ++ [{ (polled t fds).pfds t.nfds with fd := p.accept, events := pollIn }] = _
    rw [hslot]
  · have hunread : Readable ((polled t fds).pfds 0) = false := by
      rw [Bool.eq_false_iff]
      exact fun h => ht (hread.1 h)
    refine ⟨_, pollBody_unread hunread, ?_, ?_⟩
    · rw [entries_polled, appended, if_neg ht, List.append_nil]
    · rw [if_neg ht, List.append_nil]
      rfl

theorem pollPass_ok (hwait : p.wait = .ready fds)
    (hfds : t.entries.map PollFd.fd = k.tcpsock :: k.udpsock :: l)
    (hnodup : (k.tcpsock :: k.udpsock :: l).Nodup) (hle : t.nfds ≤ pollMax)
    (hne : ∃ f ∈ fds, f ∈ t.entries.map PollFd.fd) (hroom : k.tcpsock ∈ fds → t.nfds < pollMax)
    (haccept : k.tcpsock ∈ fds → p.accept ∉ k.tcpsock :: k.udpsock :: l) :
    ∃ t', pollPass k p t = .ok t' ∧ PollServed k p t t' (readBy k p t fds) := by
  obtain ⟨e, rest, hentries, hfd, hrest⟩ := List.map_eq_cons_iff.1 hfds
  obtain ⟨t₁, hbody, hentries₁, hcalls₁⟩ := @pollBody_tcpsock k p t fds l hfds hroom
  have hpos := (@polled_zero k t fds l hfds).1
  have hcons : t₁.entries = [report fds e] ++ (rest.map (report fds) ++ appended k p t fds) := by
    rw [hentries₁, hentries]
    rfl
  have hmap : t₁.entries.map PollFd.fd =
      k.tcpsock :: k.udpsock :: l ++ if k.tcpsock ∈ fds then [p.accept] else [] := by
    rw [hentries₁, List.map_append, map_fd_appended, ← entries_polled, map_fd_polled, hfds]
  have hnodup₁ : (t₁.entries.map PollFd.fd).Nodup := by
    rw [hmap]
    split
    · next ht =>
      rw [List.nodup_append]
      refine ⟨hnodup, List.nodup_singleton _, fun a ha b hb hab => ?_⟩
      rw [List.mem_singleton.1 hb] at hab
      exact haccept ht (hab ▸ ha)
    · rw [List.append_nil]
      exact hnodup
  have htail : (rest.map (report fds) ++ appended k p t fds).map PollFd.fd =
      k.udpsock :: l ++ if k.tcpsock ∈ fds then [p.accept] else [] := by
    rw [List.map_append, List.map_map, map_fd_appended]
    exact congrArg (· ++ _) hrest
  have hne_tcp : ∀ e ∈ rest.map (report fds) ++ appended k p t fds, e.fd ≠ k.tcpsock := by
    rw [hcons, List.map_append, List.map_singleton, htail] at hnodup₁
    have hhead : (report fds e).fd = k.tcpsock := hfd
    rw [hhead, List.singleton_append] at hnodup₁
    intro e' he' heq
    refine (List.nodup_cons.1 hnodup₁).1 ?_
    rw [← htail, ← heq]
    exact List.mem_map_of_mem he'
  have hlen : (rest.map (report fds) ++ appended k p t fds).length ≤ 1023 := by
    have hnfds : t.nfds = rest.length + 1 := by
      rw [← PollState.length_entries, hentries, List.length_cons]
    have hmax : pollMax = 1024 := rfl
    rw [List.length_append, List.length_map, appended]
    split
    · next ht =>
      have := hroom ht
      rw [List.length_singleton]
      omega
    · rw [List.length_nil]
      omega
  obtain ⟨t', ht', hserved⟩ := pollLoop_ok 1023 hcons hlen hne_tcp hnodup₁
  refine ⟨t', ?_, ?_⟩
  · rw [pollPass_ready hwait hne]
    show pollLoop k p (1023 + 1) 0 (polled t fds) = _
    rw [pollLoop, if_pos (show 0 < (polled t fds).nfds from hpos), hbody]
    exact ht'
  · have hread : readBy k p t fds = (if k.tcpsock ∈ fds then [k.tcpsock] else []) ++
        (scan Readable (fun e => Leaves k p e.fd) false
          (rest.map (report fds) ++ appended k p t fds)).map PollFd.fd := by
      have htcp : (report fds e).fd = k.tcpsock := hfd
      have hstays : Leaves k p k.tcpsock = false := by simp [Leaves]
      rw [readBy, hentries, List.map_cons, List.cons_append, scan]
      by_cases ht : k.tcpsock ∈ fds
      · rw [if_pos (readable_report.2 (hfd ▸ ht)), if_pos ht, List.map_cons, htcp, hstays]
        rfl
      · rw [if_neg (fun hr => ht (hfd ▸ readable_report.1 hr)), if_neg ht]
        rfl
    have hset₁ : t₁.set = if k.tcpsock ∈ fds then serve k p t.set k.tcpsock else t.set := by
      rw [PollState.set, hmap, PollState.set, hfds, List.toFinset_append]
      split
      · rw [serve, if_pos rfl, Finset.union_comm]
        rfl
      · exact Finset.union_empty _
    refine ⟨?_, ?_⟩
    · rw [hserved.calls, hcalls₁, hread, List.map_append, List.append_assoc]
      congr 2
      split <;> rfl
    · rw [hserved.set, hset₁, hread, List.foldl_append]
      split <;> rfl

/-- Without a place for a new client the pass fails. -/
theorem pollPass_full (hwait : p.wait = .ready fds)
    (hfds : t.entries.map PollFd.fd = k.tcpsock :: k.udpsock :: l) (ht : k.tcpsock ∈ fds)
    (hroom : ¬ t.nfds < pollMax) : pollPass k p t ≠ .ok t' := by
  obtain ⟨hpos, htcp, hread⟩ := @polled_zero k t fds l hfds
  rw [pollPass_ready hwait ⟨k.tcpsock, ht, by rw [hfds]; exact List.mem_cons_self⟩]
  show pollLoop k p (1023 + 1) 0 (polled t fds) ≠ _
  rw [pollLoop, if_pos (show 0 < (polled t fds).nfds from hpos), pollBody,
    if_pos (readable_iff.1 (hread.2 ht)), if_pos htcp]
  simp only
  rw [if_neg (show ¬ (polled t fds).nfds < pollMax from hroom)]
  intro h
  cases h

end

/-! ## What the scan finds -/

section
variable {k : Sockets} {p : Pass} {t : PollState} {fds l : List Int}

theorem apart_report_iff (hfds : t.entries.map PollFd.fd = k.tcpsock :: k.udpsock :: l) :
    Apart Readable (fun e => Leaves k p e.fd) (t.entries.map (report fds)) ↔
      l.IsChain fun f f' => f ∈ fds → Leaves k p f → f' ∉ fds := by
  have htcp : Leaves k p k.tcpsock = false := by simp [Leaves]
  have hudp : Leaves k p k.udpsock = false := by simp [Leaves]
  have hfd : Apart Readable (fun e => Leaves k p e.fd) (t.entries.map (report fds)) ↔
      (t.entries.map PollFd.fd).IsChain fun f f' => f ∈ fds → Leaves k p f → f' ∉ fds := by
    rw [Apart, List.isChain_map, List.isChain_map]
    simp only [readable_report]
    exact Iff.rfl
  rw [hfd, hfds, List.isChain_cons, List.isChain_cons]
  simp [htcp, hudp]

theorem map_fd_filter_report (hfds : t.entries.map PollFd.fd = k.tcpsock :: k.udpsock :: l) :
    ((t.entries.map (report fds)).filter Readable).map PollFd.fd =
      (k.tcpsock :: k.udpsock :: l).filter fun f => f ∈ fds := by
  rw [← hfds, List.filter_map, List.filter_map, List.map_map]
  have hread : Readable ∘ report fds = (fun f => decide (f ∈ fds)) ∘ PollFd.fd := by
    funext e
    show Readable (report fds e) = decide (e.fd ∈ fds)
    rw [Bool.eq_iff_iff, readable_report, decide_eq_true_iff]
  rw [hread]
  rfl

theorem skips_report_iff (hfds : t.entries.map PollFd.fd = k.tcpsock :: k.udpsock :: l)
    (h : Apart Readable (fun e => Leaves k p e.fd) (t.entries.map (report fds))) :
    skips Readable (fun e => Leaves k p e.fd) false (t.entries.map (report fds)) = true ↔
      ∃ f, l.getLast? = some f ∧ f ∈ fds ∧ Leaves k p f := by
  have hlast : (t.entries.map PollFd.fd).getLast? = (k.tcpsock :: k.udpsock :: l).getLast? := by
    rw [hfds]
  have hudp : Leaves k p k.udpsock = false := by simp [Leaves]
  rw [skips_eq h (fun hb => absurd hb Bool.false_ne_true), List.getLast?_map]
  rw [List.getLast?_map] at hlast
  cases he : t.entries.getLast? with
  | none =>
    rw [he, eq_comm, Option.map_none, List.getLast?_eq_none_iff] at hlast
    cases hlast
  | some e =>
    rw [he] at hlast
    have hread : (Readable (report fds e) && Leaves k p e.fd) = true ↔ e.fd ∈ fds ∧ Leaves k p e.fd := by
      rw [Bool.and_eq_true, readable_report]
    show (Readable (report fds e) && Leaves k p e.fd) = true ↔ _
    rw [hread]
    cases hl : l.getLast? with
    | none =>
      rw [List.getLast?_eq_none_iff] at hl
      subst hl
      obtain hfd : e.fd = k.udpsock := by simpa using hlast
      rw [hfd, hudp]
      simp
    | some f =>
      obtain hfd : e.fd = f := by simpa [List.getLast?_cons, hl] using hlast
      rw [hfd]
      simp

theorem scan_appended_iff {b : Bool} :
    scan Readable (fun e => Leaves k p e.fd) b (appended k p t fds) = [] ↔
      (k.tcpsock ∈ fds → (t.pfds t.nfds).revents &&& pollIn ≠ 0 → b) := by
  unfold appended
  split
  · next ht =>
    rw [scan_singleton_eq_nil_iff, readable_iff]
    exact ⟨fun h _ => h, fun h => h ht⟩
  · next ht =>
    refine ⟨fun _ h => absurd h ht, fun _ => ?_⟩
    cases b <;> rfl

/-- **What `poll` serves.**  The descriptors the pass reads from the array are those reported, if and
only if none of them is passed over and the appended one is. -/
theorem readBy_perm_iff (hfds : t.entries.map PollFd.fd = k.tcpsock :: k.udpsock :: l)
    (hnodup : (k.tcpsock :: k.udpsock :: l).Nodup) (hready : fds.Nodup)
    (hsub : fds ⊆ k.tcpsock :: k.udpsock :: l)
    (haccept : k.tcpsock ∈ fds → p.accept ∉ k.tcpsock :: k.udpsock :: l) :
    (readBy k p t fds).Perm fds ↔
      (l.IsChain fun f f' => f ∈ fds → Leaves k p f → f' ∉ fds) ∧
        (k.tcpsock ∈ fds → (t.pfds t.nfds).revents &&& pollIn ≠ 0 →
          ∃ f, l.getLast? = some f ∧ f ∈ fds ∧ Leaves k p f) := by
  have hperm : (((t.entries.map (report fds)).filter Readable).map PollFd.fd).Perm fds := by
    rw [map_fd_filter_report hfds, List.perm_ext_iff_of_nodup (hnodup.filter _) hready]
    intro f
    rw [List.mem_filter, decide_eq_true_iff]
    exact ⟨fun h => h.2, fun h => ⟨hsub h, h⟩⟩
  have hsplit : readBy k p t fds =
      (scan Readable (fun e => Leaves k p e.fd) false (t.entries.map (report fds))).map PollFd.fd ++
        (scan Readable (fun e => Leaves k p e.fd)
          (skips Readable (fun e => Leaves k p e.fd) false (t.entries.map (report fds)))
          (appended k p t fds)).map PollFd.fd := by
    rw [readBy, scan_append, List.map_append]
  constructor
  · intro h
    -- the appended descriptor is none of those reported
    have hnone : scan Readable (fun e => Leaves k p e.fd)
        (skips Readable (fun e => Leaves k p e.fd) false (t.entries.map (report fds)))
        (appended k p t fds) = [] := by
      rw [List.eq_nil_iff_forall_not_mem]
      intro e he
      have hin : e ∈ appended k p t fds := (List.mem_filter.1 ((scan_sublist _ _).subset he)).1
      unfold appended at hin
      split at hin
      · next ht =>
        have hfd : e.fd = p.accept := by rw [List.mem_singleton.1 hin]
        have hmem : e.fd ∈ readBy k p t fds := by
          rw [hsplit]
          exact List.mem_append_right _ (List.mem_map_of_mem he)
        exact haccept ht (hsub (hfd ▸ h.mem_iff.1 hmem))
      · exact absurd hin List.not_mem_nil
    rw [hsplit, hnone, List.map_nil, List.append_nil] at h
    have hall : scan Readable (fun e => Leaves k p e.fd) false (t.entries.map (report fds)) =
        (t.entries.map (report fds)).filter Readable := by
      refine (scan_sublist _ _).eq_of_length ?_
      have hlen := h.length_eq.trans hperm.length_eq.symm
      rw [List.length_map, List.length_map] at hlen
      exact hlen
    have hapart := ((scan_eq_filter_iff _ _).1 hall).1
    refine ⟨(apart_report_iff hfds).1 hapart, fun ht hread => ?_⟩
    rw [← skips_report_iff hfds hapart]
    exact scan_appended_iff.1 hnone ht hread
  · rintro ⟨hchain, hlast⟩
    have hapart := (apart_report_iff hfds).2 hchain
    have hall := (scan_eq_filter_iff _ _).2 ⟨hapart, fun hb => absurd hb Bool.false_ne_true⟩
    have hnone : scan Readable (fun e => Leaves k p e.fd)
        (skips Readable (fun e => Leaves k p e.fd) false (t.entries.map (report fds)))
        (appended k p t fds) = [] :=
      scan_appended_iff.2 fun ht hread => (skips_report_iff hfds hapart).2 (hlast ht hread)
    rw [hsplit, hnone, hall, List.map_nil, List.append_nil]
    exact hperm

end

end Eltex.SelectPollEpoll
