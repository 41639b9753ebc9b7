import Eltex.IoctlDev.Device

/-!
# The message ends inside its buffer

The loop of `device_read` has no bound but a NUL.  A string that ends within
`BUF_LEN` bytes brings its own, and the position never moves past one.  A longer
string fills the buffer, and no NUL is left.  A copy that fails brings none
either: what it has stored may have been over the only one, since nothing is
promised of the bytes behind the NUL of an earlier copy (`terminated_iff`).
-/

namespace Eltex.IoctlDev

open CString Runs UserCopy

/-- A copy of the string leaves a NUL in `msg`: its own, within `BUF_LEN` bytes, or, where it fails
before it has come to that, one of those behind what it has stored. -/
def StringFits (s : Device) (u : UserString) : Prop :=
  0 ∈ u.bytes.take bufLen ∨
    u.bytes.length < bufLen ∧ 0 ∈ s.msg.drop (u.bytes.take u.copied).length

/-- `msg_ptr` points into `msg`, and at or behind it there is a NUL. -/
def Terminated (s : Device) : Prop :=
  ∃ p, s.msgPtr = some p ∧ p < bufLen ∧ ∃ i, p ≤ i ∧ i < bufLen ∧ s.msg[i]? = some 0

/-- What holds between any two calls while every string fits. -/
structure Inv (s : Device) : Prop where
  nul : 0 ∈ s.msg
  ptr : ∀ p, s.msgPtr = some p → 0 ∈ s.msg.drop p
  opened : s.deviceOpen ≠ 0 → ∃ p, s.msgPtr = some p

section
variable {K : StrncpyFromUser} {s s' : Device} {u : UserString}

theorem inv_start : Inv start.device where
  nul := List.mem_cons_self
  ptr _ h := nomatch h
  opened h := absurd rfl h

theorem terminated_of_mem {p : Nat} (hp : s.msgPtr = some p) (h : 0 ∈ s.msg.drop p) : Terminated s := by
  obtain ⟨i, hi⟩ := List.mem_iff_getElem?.1 h
  rw [List.getElem?_drop] at hi
  obtain ⟨hlt, -⟩ := List.getElem?_eq_some_iff.1 hi
  rw [s.length_msg] at hlt
  exact ⟨p, hp, by omega, p + i, by omega, hlt, hi⟩

theorem deviceRead_ne_none (h : Terminated s) (length : Nat) : deviceRead s length ≠ none := by
  obtain ⟨p, hp, -, i, hi, -, hget⟩ := h
  have hmem : 0 ∈ s.msg.drop p := by
    refine List.mem_of_getElem? (i := i - p) ?_
    rw [List.getElem?_drop, ← hget]
    congr 1
    omega
  rw [deviceRead_eq length hp hmem]
  exact Option.some_ne_none _

/-! ## Copies -/

/-- **One copy** leaves a NUL just when the string fits. -/
theorem zero_mem_copyMsg_iff : 0 ∈ (copyMsg K s u).msg ↔ StringFits s u := by
  have hlength := s.length_msg
  show 0 ∈ (K.copy s.msg u bufLen).2 ↔ _
  unfold StringFits
  obtain ⟨r, hr, hcopied⟩ := exists_copied K s.length_msg.ge u
  have htotal := K.length u s.length_msg.ge
  rw [hr] at htotal ⊢
  cases hcopied with
  | whole m t nul length bytes =>
    have htake : m ++ [0] <+: u.bytes.take bufLen := by
      apply List.prefix_take_iff.2
      refine ⟨bytes, ?_⟩
      rw [List.length_append, List.length_singleton]
      omega
    refine iff_of_true ?_ (Or.inl (htake.subset (List.mem_append_right _ List.mem_cons_self)))
    exact List.mem_append_right _ List.mem_cons_self
  | cut t nul length =>
    -- there is no room for more than was copied
    have ht : t = [] := by
      apply List.eq_nil_of_length_eq_zero
      change (u.bytes.take bufLen ++ t).length = _ at htotal
      rw [List.length_append, List.length_take_of_le length] at htotal
      omega
    rw [ht, List.append_nil]
    refine iff_of_false nul ?_
    rintro (h | ⟨h, -⟩)
    · exact nul h
    · omega
  | failed nul length =>
    have htake : 0 ∉ u.bytes.take bufLen := fun h => nul (List.mem_of_mem_take h)
    show 0 ∈ _ ++ _ ↔ _
    rw [List.mem_append, or_iff_right fun h => nul (List.mem_of_mem_take h), or_iff_right htake,
      and_iff_right length]

/-- A second copy of the same string fits as the first did. -/
theorem stringFits_copyMsg (K : StrncpyFromUser) (s : Device) (u : UserString) :
    StringFits (copyMsg K s u) u ↔ StringFits s u := by
  unfold StringFits
  by_cases hmem : 0 ∈ u.bytes.take bufLen
  · exact iff_of_true (Or.inl hmem) (Or.inl hmem)
  · rw [or_iff_right hmem, or_iff_right hmem]
    refine and_congr_right fun hlt => ?_
    have hnul : 0 ∉ u.bytes := by rwa [List.take_of_length_le hlt.le] at hmem
    have hcopy : (copyMsg K s u).msg = storeFront (u.bytes.take u.copied) s.msg :=
      congrArg Prod.snd (K.failed s.length_msg.ge hnul hlt)
    rw [hcopy, drop_storeFront]

/-- **A call that copies** leaves a NUL just when its string fits. -/
theorem perform_copies {c : Call} (hc : c.message = some u) :
    ∃ s' r, perform K s c = some (s', r) ∧ s'.msgPtr = some 0 ∧ s'.deviceOpen = s.deviceOpen ∧
      (0 ∈ s'.msg ↔ StringFits s u) := by
  obtain ⟨t, r, hbefore, hperform⟩ := perform_message K s hc
  refine ⟨_, r, hperform, rfl, ?_, ?_⟩
  · rcases hbefore with rfl | rfl
    · rfl
    · rfl
  · refine zero_mem_copyMsg_iff.trans ?_
    rcases hbefore with rfl | rfl
    · exact Iff.rfl
    · exact stringFits_copyMsg K s u

/-! ## Calls -/

theorem inv_deviceRead {length : Nat} {r : Result} (hi : Inv s) (hopen : s.deviceOpen ≠ 0)
    (h : deviceRead s length = some (s', r)) : Inv s' := by
  obtain ⟨p, hp⟩ := hi.opened hopen
  have hmem := hi.ptr p hp
  rw [deviceRead_eq length hp hmem] at h
  obtain ⟨rfl, -⟩ := Prod.mk.inj (Option.some.inj h)
  refine ⟨hi.nul, fun q hq => ?_, fun _ => ⟨_, rfl⟩⟩
  obtain rfl := Option.some.inj hq
  -- what has been read is in front of the NUL
  obtain ⟨t, ht⟩ := cstr_append_zero_isPrefix hmem
  rw [List.append_assoc] at ht
  have hle : ((cstr (s.msg.drop p)).take length).length ≤ (cstr (s.msg.drop p)).length :=
    (List.take_prefix _ _).length_le
  show 0 ∈ s.msg.drop (p + ((cstr (s.msg.drop p)).take length).length)
  generalize cstr (s.msg.drop p) = m at ht hle ⊢
  rw [← List.drop_drop, ← ht, List.drop_append_of_le_length hle]
  exact List.mem_append_right _ List.mem_cons_self

theorem inv_perform {c : Call} {r : Result} (hi : Inv s) (hlegal : Legal s c)
    (hc : ∀ u, c.message = some u → StringFits s u) (h : perform K s c = some (s', r)) : Inv s' := by
  cases perform_effect h with
  | opened closed eq =>
    subst eq
    refine ⟨hi.nul, fun p hp => ?_, fun _ => ⟨0, rfl⟩⟩
    obtain rfl := Option.some.inj hp
    exact hi.nul
  | released call eq =>
    subst call eq
    have hopen : s.deviceOpen ≠ 0 := hlegal.resolve_left fun hc => nomatch hc
    exact ⟨hi.nul, hi.ptr, fun _ => hi.opened hopen⟩
  | read length r call eq => exact inv_deviceRead hi (hlegal.resolve_left call) eq
  | stored u t message before eq =>
    obtain ⟨d, r', hperform, hptr, -, hnul⟩ := @perform_copies K s u c message
    obtain rfl : d = s' := congrArg Prod.fst (Option.some.inj (hperform.symm.trans h))
    have hmem := hnul.2 (hc u message)
    refine ⟨hmem, fun p hp => ?_, fun _ => ⟨0, hptr⟩⟩
    obtain rfl := Option.some.inj (hptr.symm.trans hp)
    exact hmem
  | same eq =>
    subst eq
    exact hi

end

/-! ## Runs -/

section
variable {K : StrncpyFromUser} {calls : List Call} {s s' : Session} {c : Call}

/-- Every string copied by a call on an open file fits. -/
def AllFit (K : StrncpyFromUser) (calls : List Call) : Prop :=
  ∀ pre c s, pre ++ [c] <+: calls → session K pre = some s → Legal s.device c →
    ∀ u, c.message = some u → StringFits s.device u

theorem inv_session (hfit : AllFit K calls) (h : session K calls = some s) : Inv s.device := by
  refine run_forall (fun _ (s : Session) => Inv s.device)
    (fun (s : Session) c => Legal s.device c → ∀ u, c.message = some u → StringFits s.device u)
    inv_start ?_ hfit h
  intro _ c t t' _ hi hc hstep
  obtain ⟨hlegal, d, r, hperform, rfl⟩ := step_eq_some_iff.1 hstep
  exact inv_perform hi hlegal (hc hlegal) hperform

/-- **Termination.**  In every state of a session with the device open, the position is in the buffer
with a NUL at or behind it, and no read gets outside, if and only if every string copied ends within
`BUF_LEN` bytes, or fails before that and leaves a NUL behind what it has stored. -/
theorem terminated_iff (K : StrncpyFromUser) (calls : List Call) :
    (∀ pre s, pre <+: calls → session K pre = some s → s.device.deviceOpen ≠ 0 →
      Terminated s.device ∧ ∀ length, deviceRead s.device length ≠ none) ↔ AllFit K calls := by
  constructor
  · intro h pre c s hpre hs hlegal u hu
    have hopen : s.device.deviceOpen ≠ 0 := by
      refine hlegal.resolve_left fun hc => ?_
      rw [hc] at hu
      exact nomatch hu
    obtain ⟨d, r, hperform, -, hcount, hnul⟩ := @perform_copies K s.device u c hu
    have hstep : session K (pre ++ [c]) = some ⟨d, s.results ++ [r]⟩ :=
      run_concat_eq_some_iff.2 ⟨s, hs, step_eq_some_iff.2 ⟨hlegal, d, r, hperform, rfl⟩⟩
    obtain ⟨-, -, -, i, -, -, hget⟩ := (h _ _ hpre hstep (hcount ▸ hopen)).1
    exact hnul.1 (List.mem_of_getElem? hget)
  · intro hfit pre s hpre hs hopen
    have hi : Inv s.device := by
      refine inv_session (fun pre' c s' hpre' => ?_) hs
      exact hfit pre' c s' (hpre'.trans hpre)
    obtain ⟨p, hp⟩ := hi.opened hopen
    have hterminated := terminated_of_mem hp (hi.ptr p hp)
    exact ⟨hterminated, deviceRead_ne_none hterminated⟩

end

theorem readOutside :
    ((session byteCopy [.deviceOpen, .deviceWrite ⟨List.replicate 80 65 ++ [0], 0⟩ 81]).map fun s =>
      (s.device.deviceOpen, deviceRead s.device 81)) = some (1, none) := by decide +kernel

/-- A string of `BUF_LEN` bytes leaves no NUL, and reading all of it and one byte more gets outside. -/
theorem terminated_full :
    ¬ ∀ calls s, session byteCopy calls = some s → s.device.deviceOpen ≠ 0 →
      Terminated s.device ∧ ∀ length, deviceRead s.device length ≠ none := by
  intro h
  obtain ⟨s, hs, hview⟩ := Option.map_eq_some_iff.1 readOutside
  obtain ⟨hopen, hread⟩ := Prod.mk.inj hview
  have hne : s.device.deviceOpen ≠ 0 := by
    rw [hopen]
    decide
  exact (h _ s hs hne).2 81 hread

end Eltex.IoctlDev
