import Eltex.Lib.Run

/-!
# Schedules of parties that may have to wait

The party whose turn it is acts if it can and is passed over if it cannot (`play`).  Let no action
raise a rank, and let there be in every state of positive rank a party that is helpful: it can act,
its action lowers the rank, and it stays helpful until the rank is lower (`Drains`).  Then a stretch
of the schedule in which every party gets its turn lowers the rank (`play_lt`), and as many stretches
as the rank bring it to 0:

    Drains ok … → rank s ≤ bs.length → rank (play act s bs.flatten) = 0     (rank_play_flatten)
-/

namespace Schedule

open Runs

variable {σ π ε : Type}

def play (act : σ → π → Option σ) (s : σ) (ps : List π) : σ := ps.foldl (fun s p => (act s p).getD s) s

@[simp] theorem play_nil (act : σ → π → Option σ) (s : σ) : play act s [] = s := rfl

theorem play_cons (act : σ → π → Option σ) (s : σ) (p : π) (ps : List π) :
    play act s (p :: ps) = play act ((act s p).getD s) ps := rfl

theorem play_append (act : σ → π → Option σ) (s : σ) (ps qs : List π) :
    play act s (ps ++ qs) = play act (play act s ps) qs := List.foldl_append

/-- What every action of the parties at hand keeps. -/
theorem play_inv {act : σ → π → Option σ} {ok : π → Prop} (I : σ → Prop)
    (hact : ∀ s p s', I s → ok p → act s p = some s' → I s') {ps : List π} (hps : ∀ p ∈ ps, ok p) {s : σ}
    (hs : I s) : I (play act s ps) := by
  induction ps generalizing s with
  | nil => exact hs
  | cons p ps ih =>
    rw [play_cons]
    apply ih fun q hq => hps q (List.mem_cons_of_mem p hq)
    cases h : act s p with
    | none => exact hs
    | some s' => exact hact s p s' hs (hps p List.mem_cons_self) h

/-- A schedule is the run of the actions taken in it. -/
theorem exists_run {act : σ → π → Option σ} {step : σ → ε → Option σ} {ok : π → Prop} {Q : ε → Prop}
    (hact : ∀ s p s', ok p → act s p = some s' → ∃ e, Q e ∧ step s e = some s') {ps : List π}
    (hps : ∀ p ∈ ps, ok p) (s : σ) : ∃ es, (∀ e ∈ es, Q e) ∧ run step s es = some (play act s ps) := by
  induction ps generalizing s with
  | nil => exact ⟨[], fun e he => absurd he List.not_mem_nil, rfl⟩
  | cons p ps ih =>
    have hrest : ∀ q ∈ ps, ok q := fun q hq => hps q (List.mem_cons_of_mem p hq)
    cases h : act s p with
    | none =>
      obtain ⟨es, hes, hrun⟩ := ih hrest s
      refine ⟨es, hes, ?_⟩
      rw [hrun, play_cons, h, Option.getD_none]
    | some s' =>
      obtain ⟨e, he, hstep⟩ := hact s p s' (hps p List.mem_cons_self) h
      obtain ⟨es, hes, hrun⟩ := ih hrest s'
      refine ⟨e :: es, List.forall_mem_cons.2 ⟨he, hes⟩, ?_⟩
      rw [run_cons, hstep, Option.bind_some, hrun, play_cons, h, Option.getD_some]

/-- No action raises the rank, and a helpful party stays helpful until it is lower. -/
structure Drains (act : σ → π → Option σ) (I : σ → Prop) (ok : π → Prop) (rank : σ → Nat)
    (Helpful : σ → π → Prop) : Prop where
  inv : ∀ s p s', I s → ok p → act s p = some s' → I s'
  le : ∀ s p s', I s → ok p → act s p = some s' → rank s' ≤ rank s
  lt : ∀ s p, I s → Helpful s p → ∃ s', act s p = some s' ∧ rank s' < rank s
  keeps : ∀ s p q s', I s → Helpful s p → ok q → act s q = some s' → rank s' = rank s → Helpful s' p

section
variable {act : σ → π → Option σ} {I : σ → Prop} {ok : π → Prop} {rank : σ → Nat}
  {Helpful : σ → π → Prop}

theorem Drains.play_le (h : Drains act I ok rank Helpful) {ps : List π} (hps : ∀ p ∈ ps, ok p) {s : σ}
    (hs : I s) : rank (play act s ps) ≤ rank s := by
  have hboth : I (play act s ps) ∧ rank (play act s ps) ≤ rank s := by
    refine play_inv (fun t => I t ∧ rank t ≤ rank s) (fun t p t' ht hp hact => ?_) hps ⟨hs, Nat.le_refl _⟩
    exact ⟨h.inv t p t' ht.1 hp hact, Nat.le_trans (h.le t p t' ht.1 hp hact) ht.2⟩
  exact hboth.2

/-- **A turn of a helpful party** lowers the rank, whoever acts before and after it. -/
theorem Drains.play_lt (h : Drains act I ok rank Helpful) {ps : List π} (hps : ∀ p ∈ ps, ok p) {s : σ}
    (hs : I s) {p : π} (hp : Helpful s p) (hmem : p ∈ ps) : rank (play act s ps) < rank s := by
  induction ps generalizing s with
  | nil => exact absurd hmem List.not_mem_nil
  | cons q ps ih =>
    have hq : ok q := hps q List.mem_cons_self
    have hrest : ∀ p ∈ ps, ok p := fun p hp => hps p (List.mem_cons_of_mem q hp)
    rw [play_cons]
    by_cases heq : p = q
    · subst heq
      obtain ⟨s', hact, hlt⟩ := h.lt s p hs hp
      rw [hact, Option.getD_some]
      exact Nat.lt_of_le_of_lt (h.play_le hrest (h.inv s p s' hs hq hact)) hlt
    · have hmem : p ∈ ps := (List.mem_cons.1 hmem).resolve_left heq
      cases hact : act s q with
      | none => exact ih hrest hs hp hmem
      | some s' =>
        have hs' := h.inv s q s' hs hq hact
        rw [Option.getD_some]
        rcases Nat.lt_or_eq_of_le (h.le s q s' hs hq hact) with hlt | hrank
        · exact Nat.lt_of_le_of_lt (h.play_le hrest hs') hlt
        · exact Nat.lt_of_lt_of_eq (ih hrest hs' (h.keeps s p q s' hs hp hq hact hrank) hmem) hrank

/-- **Fair schedules drain.**  Stretches that each have a turn for whoever is helpful bring the rank
to 0 when there are as many of them as the rank. -/
theorem Drains.rank_play_flatten (h : Drains act I ok rank Helpful) {bs : List (List π)}
    (hok : ∀ b ∈ bs, ∀ p ∈ b, ok p) (hfair : ∀ b ∈ bs, ∀ s, I s → 0 < rank s → ∃ p ∈ b, Helpful s p) {s : σ}
    (hs : I s) (hlen : rank s ≤ bs.length) : rank (play act s bs.flatten) = 0 := by
  induction bs generalizing s with
  | nil => exact Nat.eq_zero_of_le_zero hlen
  | cons b bs ih =>
    have hb := hok b List.mem_cons_self
    have hs' : I (play act s b) := play_inv I h.inv hb hs
    rw [List.flatten_cons, play_append]
    apply ih (fun b' hb' => hok b' (List.mem_cons_of_mem b hb'))
      (fun b' hb' => hfair b' (List.mem_cons_of_mem b hb')) hs'
    rw [List.length_cons] at hlen
    by_cases hpos : 0 < rank s
    · obtain ⟨p, hmem, hp⟩ := hfair b List.mem_cons_self s hs hpos
      have hlt := h.play_lt hb hs hp hmem
      omega
    · have hle := h.play_le hb hs
      omega

end

end Schedule
