import Eltex.Lib.Run
import Eltex.ProcDev.Procfs

/-!
# Readers of the proc file

Each reader calls `procfile_read` until it gets 0.  Whether a call gets the message or 0 is decided by
one flag for all of them, which every call turns over, so a reader is right only when its two calls
follow one another (`read_once_iff`).

    f_read     1st call     2nd call     3rd call     ...
    not 1      message      0            message
    1          0            message      0

Every call stores all of `msg`, whatever the length of the buffer.
-/

namespace Eltex.ProcDev

open CString Runs

/-- A call of one of the readers. -/
structure ReadCall (ρ : Type) where
  reader : ρ
  behind : List UInt8
  bufferLength : Nat
deriving Repr, DecidableEq

/-- The module's data, and the calls made with their results. -/
structure Reading (ρ : Type) where
  file : ProcFile
  log : List (ReadCall ρ × ReadResult)

section
variable {ρ : Type} [DecidableEq ρ]

/-- The reader has got 0. -/
def Finished (log : List (ReadCall ρ × ReadResult)) (r : ρ) : Prop := ∃ e ∈ log, e.1.reader = r ∧ e.2.ret = 0

instance (log : List (ReadCall ρ × ReadResult)) (r : ρ) : Decidable (Finished log r) :=
  inferInstanceAs (Decidable (∃ e ∈ log, _))

/-- The bytes a reader has got: of each call as many as it returned. -/
def received (log : List (ReadCall ρ × ReadResult)) (r : ρ) : List UInt8 :=
  (log.filter fun e => e.1.reader = r).flatMap fun e => e.2.stored.take e.2.ret

/-- The next call, by a reader that has not finished. -/
def readStep (s : Reading ρ) (c : ReadCall ρ) : Option (Reading ρ) :=
  if Finished s.log c.reader then none
  else
    let (file, result) := procfileRead s.file c.behind c.bufferLength
    some ⟨file, s.log ++ [(c, result)]⟩

/-- Every reader that has finished has got the message. -/
def ReadRight (m : List UInt8) (log : List (ReadCall ρ × ReadResult)) : Prop :=
  ∀ r, Finished log r → received log r = m

/-- A call stored and returned no more than its buffer has. -/
structure Inside (e : ReadCall ρ × ReadResult) : Prop where
  stored : e.2.stored.length ≤ e.1.bufferLength
  ret : e.2.ret ≤ e.1.bufferLength

/-- The calls come in pairs by one reader; the last may still be alone. -/
def Paired : List (ReadCall ρ) → Prop
  | [] => True
  | [_] => True
  | a :: b :: calls => a.reader = b.reader ∧ Paired calls

/-! ## One call -/

variable {s t : Reading ρ} {c : ReadCall ρ} {calls : List (ReadCall ρ)} {m : List UInt8} {r : ρ}
  {log : List (ReadCall ρ × ReadResult)} {e : ReadCall ρ × ReadResult}

theorem readStep_eq_some_iff : readStep s c = some t ↔ ¬ Finished s.log c.reader ∧
    t = ⟨(procfileRead s.file c.behind c.bufferLength).1,
      s.log ++ [(c, (procfileRead s.file c.behind c.bufferLength).2)]⟩ := by
  unfold readStep
  split
  · next h => exact ⟨fun hs => absurd hs.symm (Option.some_ne_none _), fun hs => absurd h hs.1⟩
  · next h =>
    rw [Option.some.injEq]
    exact ⟨fun hs => ⟨h, hs.symm⟩, fun hs => hs.2.symm⟩

/-- What a call stores and returns, and the flag. -/
theorem procfileRead_result (f : ProcFile) (behind : List UInt8) (bufferLength : Nat) :
    (procfileRead f behind bufferLength).2.stored = f.msg ∧
      (procfileRead f behind bufferLength).2.ret = (if f.fRead = 1 then 0 else f.text.length) ∧
      ((procfileRead f behind bufferLength).1.fRead = 1 ↔ f.fRead ≠ 1) := by
  have hlen : strlen (f.msg ++ behind) = f.text.length := by
    rw [strlen_eq, cstr_append_of_mem (zero_mem_msg f), ProcFile.text]
  unfold procfileRead
  split
  · next h => simp [h]
  · next h => simp [h, hlen]

omit [DecidableEq ρ] in
theorem finished_concat : Finished (log ++ [e]) r ↔ Finished log r ∨ e.1.reader = r ∧ e.2.ret = 0 := by
  unfold Finished
  constructor
  · rintro ⟨e', he', h⟩
    rcases List.mem_append.1 he' with he' | he'
    · exact Or.inl ⟨e', he', h⟩
    · rw [List.mem_singleton.1 he'] at h
      exact Or.inr h
  · rintro (⟨e', he', h⟩ | h)
    · exact ⟨e', List.mem_append_left _ he', h⟩
    · exact ⟨e, List.mem_append_right _ (List.mem_singleton_self _), h⟩

theorem received_concat : received (log ++ [e]) r =
    received log r ++ (if e.1.reader = r then e.2.stored.take e.2.ret else []) := by
  unfold received
  rw [List.filter_append, List.flatMap_append]
  by_cases h : e.1.reader = r <;> simp [h]

theorem received_of_not_mem (h : ∀ e ∈ log, e.1.reader ≠ r) : received log r = [] := by
  have hfilter : (log.filter fun e => e.1.reader = r) = [] := by
    rw [List.filter_eq_nil_iff]
    intro e he
    simpa using h e he
  rw [received, hfilter, List.flatMap_nil]

/-! ## Runs -/

/-- A reader that has finished gets nothing more. -/
theorem received_run (h : run readStep s calls = some t) (hr : Finished s.log r) :
    Finished t.log r ∧ received t.log r = received s.log r := by
  refine run_inv (fun _ t => Finished t.log r ∧ received t.log r = received s.log r) ⟨hr, rfl⟩ ?_ h
  rintro _ u c v ⟨hfin, hreceived⟩ hstep
  obtain ⟨hnot, rfl⟩ := readStep_eq_some_iff.1 hstep
  have hne : c.reader ≠ r := by
    rintro rfl
    exact hnot hfin
  refine ⟨finished_concat.2 (Or.inl hfin), ?_⟩
  rw [received_concat, if_neg hne, List.append_nil, hreceived]

/-- If it is right at the end it was right before. -/
theorem readRight_of_run (h : run readStep s calls = some t) (hright : ReadRight m t.log) :
    ReadRight m s.log := by
  intro r hr
  obtain ⟨hfin, hreceived⟩ := received_run h hr
  rw [← hreceived]
  exact hright r hfin

/-- No reader is between its calls, and all are right so far. -/
structure Between (m : List UInt8) (s : Reading ρ) : Prop where
  flag : s.file.fRead ≠ 1
  text : s.file.text = m
  finished : ∀ e ∈ s.log, Finished s.log e.1.reader
  right : ReadRight m s.log

theorem received_of_not_finished (hs : Between m s) (h : ¬ Finished s.log r) : received s.log r = [] := by
  refine received_of_not_mem fun e he => ?_
  rintro rfl
  exact h (hs.finished e he)

theorem text_procfileRead (f : ProcFile) (behind : List UInt8) (bufferLength : Nat) :
    (procfileRead f behind bufferLength).1.text = f.text := by
  rw [ProcFile.text, procfileRead_msg, ProcFile.text]

theorem take_length_text (f : ProcFile) : f.msg.take f.text.length = f.text :=
  (List.prefix_iff_eq_take.1 (cstr_isPrefix f.msg)).symm

/-- **The first call of a pair** gets the message. -/
theorem first_call (hs : Between m s) (hm : m ≠ []) (h : readStep s c = some t) :
    ∃ result : ReadResult, t.log = s.log ++ [(c, result)] ∧ result.ret ≠ 0 ∧
      result.stored.take result.ret = m ∧ t.file.fRead = 1 ∧ t.file.text = m ∧ ReadRight m t.log := by
  obtain ⟨hnot, rfl⟩ := readStep_eq_some_iff.1 h
  obtain ⟨hstored, hret, hflag⟩ := procfileRead_result s.file c.behind c.bufferLength
  rw [if_neg hs.flag, hs.text] at hret
  have hlength : m.length ≠ 0 := fun hz => hm (List.length_eq_zero_iff.1 hz)
  refine ⟨_, rfl, hret ▸ hlength, ?_, hflag.2 hs.flag, ?_, fun r hr => ?_⟩
  · rw [hstored, hret, ← hs.text, take_length_text]
  · rw [text_procfileRead, hs.text]
  · have hfin : Finished s.log r := by
      rcases finished_concat.1 hr with hfin | ⟨-, hzero⟩
      · exact hfin
      · exact absurd (hret.symm.trans hzero) hlength
    have hne : c.reader ≠ r := by
      rintro rfl
      exact hnot hfin
    rw [received_concat, if_neg hne, List.append_nil]
    exact hs.right r hfin

/-- **The second call** is right just when the same reader makes it. -/
theorem second_call {u : Reading ρ} {a b : ReadCall ρ} (hs : Between m s) (hm : m ≠ [])
    (ha : readStep s a = some u) (hb : readStep u b = some t) :
    (ReadRight m t.log → a.reader = b.reader) ∧ (a.reader = b.reader → Between m t) := by
  obtain ⟨first, hlog, hne, hmsg, hflag, htext, hright⟩ := first_call hs hm ha
  obtain ⟨hnota, -⟩ := readStep_eq_some_iff.1 ha
  obtain ⟨hnotb, rfl⟩ := readStep_eq_some_iff.1 hb
  obtain ⟨hstored, hret, hflag'⟩ := procfileRead_result u.file b.behind b.bufferLength
  have htext' := (text_procfileRead u.file b.behind b.bufferLength).trans htext
  rw [if_pos hflag] at hret
  generalize procfileRead u.file b.behind b.bufferLength = result at *
  have hreceived : ∀ r, received (u.log ++ [(b, result.2)]) r =
      received s.log r ++ if a.reader = r then m else [] := by
    intro r
    rw [received_concat, hlog, received_concat]
    simp only [hret, hmsg, List.take_zero, ite_self, List.append_nil]
  have hfinished : Finished (u.log ++ [(b, result.2)]) b.reader := finished_concat.2 (Or.inr ⟨rfl, hret⟩)
  refine ⟨fun hr => ?_, fun hab => ?_⟩
  · by_contra hab
    have hnot : ¬ Finished s.log b.reader := fun hf => hnotb (hlog ▸ finished_concat.2 (Or.inl hf))
    have hb := hr b.reader hfinished
    rw [hreceived, if_neg hab, List.append_nil, received_of_not_finished hs hnot] at hb
    exact hm hb.symm
  · refine ⟨fun h => hflag'.1 h hflag, htext', fun e he => ?_, fun r hr => ?_⟩
    · rcases List.mem_append.1 he with he | he
      · rw [hlog] at he
        rcases List.mem_append.1 he with he | he
        · exact finished_concat.2 (Or.inl (hlog ▸ finished_concat.2 (Or.inl (hs.finished e he))))
        · rw [List.mem_singleton.1 he]
          exact hab ▸ hfinished
      · rw [List.mem_singleton.1 he]
        exact hfinished
    · rw [hreceived]
      by_cases har : a.reader = r
      · rw [if_pos har, received_of_not_finished hs (har ▸ hnota)]
        rfl
      · have hfin : Finished s.log r := by
          rcases finished_concat.1 hr with hu | ⟨hbr, -⟩
          · rw [hlog] at hu
            exact (finished_concat.1 hu).resolve_right fun h => har h.1
          · exact absurd (hab.trans hbr) har
        rw [if_neg har, List.append_nil]
        exact hs.right r hfin

/-- **Pairs.**  From a state between pairs the readers are right just when the calls come in pairs. -/
theorem readRight_iff (hm : m ≠ []) : ∀ {calls : List (ReadCall ρ)} {s : Reading ρ}, Between m s →
    run readStep s calls = some t → (ReadRight m t.log ↔ Paired calls)
  | [], s, hs, h => by
    obtain rfl : s = t := Option.some.inj h
    exact iff_of_true hs.right trivial
  | [a], s, hs, h => by
    rw [run_cons, Option.bind_eq_some_iff] at h
    obtain ⟨u, hu, hut⟩ := h
    obtain rfl : u = t := Option.some.inj hut
    obtain ⟨_, -, -, -, -, -, hright⟩ := first_call hs hm hu
    exact iff_of_true hright trivial
  | a :: b :: calls, s, hs, h => by
    rw [run_cons, Option.bind_eq_some_iff] at h
    obtain ⟨u, hu, h⟩ := h
    rw [run_cons, Option.bind_eq_some_iff] at h
    obtain ⟨v, hv, h⟩ := h
    obtain ⟨hsame, hbetween⟩ := second_call hs hm hu hv
    rw [Paired]
    constructor
    · intro hright
      have hab := hsame (readRight_of_run h hright)
      exact ⟨hab, (readRight_iff hm (hbetween hab) h).1 hright⟩
    · rintro ⟨hab, hpaired⟩
      exact (readRight_iff hm (hbetween hab) h).2 hpaired

/-- With the flag set the first reader gets nothing. -/
theorem not_readRight_of_flag {f : ProcFile} (hm : m ≠ []) (hflag : f.fRead = 1)
    (h : run readStep ⟨f, []⟩ (c :: calls) = some t) : ¬ ReadRight m t.log := by
  intro hright
  rw [run_cons, Option.bind_eq_some_iff] at h
  obtain ⟨u, hu, h⟩ := h
  obtain ⟨-, hret, -⟩ := procfileRead_result f c.behind c.bufferLength
  rw [if_pos hflag] at hret
  obtain ⟨-, rfl⟩ := readStep_eq_some_iff.1 hu
  have hgot := readRight_of_run h hright c.reader (finished_concat.2 (Or.inr ⟨rfl, hret⟩))
  rw [received_concat, if_pos rfl, hret, List.take_zero, List.append_nil] at hgot
  exact hm hgot.symm

/-- An empty message is right in every order. -/
theorem readRight_nil {f : ProcFile} (hm : f.text = []) (h : run readStep ⟨f, []⟩ calls = some t) :
    ReadRight [] t.log := by
  have hinv : t.file.text = [] ∧ ∀ e ∈ t.log, e.2.ret = 0 := by
    refine run_inv (fun _ t => t.file.text = [] ∧ ∀ e ∈ t.log, e.2.ret = 0)
      ⟨hm, fun e he => absurd he List.not_mem_nil⟩ ?_ h
    rintro _ u c v ⟨htext, hlog⟩ hstep
    obtain ⟨-, rfl⟩ := readStep_eq_some_iff.1 hstep
    refine ⟨(text_procfileRead _ _ _).trans htext, fun e he => ?_⟩
    rcases List.mem_append.1 he with he | he
    · exact hlog e he
    · rw [List.mem_singleton.1 he]
      show (procfileRead u.file c.behind c.bufferLength).2.ret = 0
      rw [(procfileRead_result _ _ _).2.1, htext, List.length_nil, ite_self]
  intro r _
  unfold received
  rw [List.flatMap_eq_nil_iff]
  intro e he
  rw [hinv.2 e (List.mem_filter.1 he).1, List.take_zero]

/-! ## Sizes -/

/-- Every call stores all of `msg`, and returns less. -/
theorem log_run {f : ProcFile} (h : run readStep ⟨f, []⟩ calls = some t) :
    t.log.map Prod.fst = calls ∧ ∀ e ∈ t.log, e.2.stored.length = maxLenMsg ∧ e.2.ret ≤ maxLenMsg := by
  refine run_inv (fun calls t => t.log.map Prod.fst = calls ∧
    ∀ e ∈ t.log, e.2.stored.length = maxLenMsg ∧ e.2.ret ≤ maxLenMsg)
    ⟨rfl, fun e he => absurd he List.not_mem_nil⟩ ?_ h
  rintro calls u c v ⟨hcalls, hlog⟩ hstep
  obtain ⟨-, rfl⟩ := readStep_eq_some_iff.1 hstep
  refine ⟨?_, fun e he => ?_⟩
  · rw [List.map_append, hcalls, List.map_singleton]
  · rcases List.mem_append.1 he with he | he
    · exact hlog e he
    · rw [List.mem_singleton.1 he]
      obtain ⟨hstored, hret, -⟩ := procfileRead_result u.file c.behind c.bufferLength
      have hle : u.file.text.length ≤ u.file.msg.length := (cstr_isPrefix u.file.msg).length_le
      rw [u.file.length_msg] at hle
      refine ⟨?_, ?_⟩
      · show (procfileRead u.file c.behind c.bufferLength).2.stored.length = maxLenMsg
        rw [hstored, u.file.length_msg]
      · show (procfileRead u.file c.behind c.bufferLength).2.ret ≤ maxLenMsg
        rw [hret]
        split
        · exact Nat.zero_le _
        · exact hle

theorem inside_iff {f : ProcFile} (h : run readStep ⟨f, []⟩ calls = some t) :
    (∀ e ∈ t.log, Inside e) ↔ ∀ c ∈ calls, maxLenMsg ≤ c.bufferLength := by
  obtain ⟨hcalls, hlog⟩ := log_run h
  constructor
  · intro hinside c hc
    rw [← hcalls] at hc
    obtain ⟨e, he, rfl⟩ := List.mem_map.1 hc
    rw [← (hlog e he).1]
    exact (hinside e he).stored
  · intro hlong e he
    have hle := hlong e.1 (hcalls ▸ List.mem_map_of_mem he)
    obtain ⟨hstored, hret⟩ := hlog e he
    exact ⟨hstored.trans_le hle, hret.trans hle⟩

/-- **Readers.**  Whoever finishes has got the message, and no call goes beyond its buffer, just when
every buffer has `MAX_LEN_MSG` bytes and the message is empty, or the flag is unset at first and the
readers come one after another. -/
theorem read_once_iff (f : ProcFile) (calls : List (ReadCall ρ)) (h : run readStep ⟨f, []⟩ calls = some t) :
    (ReadRight f.text t.log ∧ ∀ e ∈ t.log, Inside e) ↔
      (∀ c ∈ calls, maxLenMsg ≤ c.bufferLength) ∧
        (f.text = [] ∨ calls = [] ∨ f.fRead ≠ 1 ∧ Paired calls) := by
  rw [inside_iff h, and_comm]
  refine and_congr_right fun _ => ?_
  by_cases hm : f.text = []
  · rw [hm]
    exact iff_of_true (readRight_nil hm h) (Or.inl rfl)
  · rw [or_iff_right hm]
    cases calls with
    | nil =>
      obtain rfl := Option.some.inj h
      exact iff_of_true (fun r ⟨e, he, _⟩ => absurd he List.not_mem_nil) (Or.inl rfl)
    | cons c calls =>
      rw [or_iff_right (List.cons_ne_nil _ _)]
      by_cases hflag : f.fRead = 1
      · exact iff_of_false (not_readRight_of_flag hm hflag h) fun hn => hn.1 hflag
      · have hbetween : Between f.text (⟨f, []⟩ : Reading ρ) :=
          ⟨hflag, rfl, fun e he => absurd he List.not_mem_nil, fun r ⟨e, he, _⟩ => absurd he List.not_mem_nil⟩
        rw [readRight_iff hm hbetween h, and_iff_right hflag]

end

/-- The file holds "hi". -/
def hiFile : ProcFile := ⟨[104, 105, 0, 0, 0, 0, 0, 0, 0, 0], 0, 1, rfl, rfl⟩

/-- One reader after the other, with room. -/
theorem read_once_pairs :
    ∃ t, run readStep ⟨hiFile, []⟩ [⟨1, [], 64⟩, ⟨1, [], 64⟩, ⟨2, [], 10⟩, ⟨2, [], 10⟩] = some t ∧
      ReadRight hiFile.text t.log := by
  have hrun : (run readStep ⟨hiFile, []⟩
      [⟨1, [], 64⟩, ⟨1, [], 64⟩, ⟨2, [], 10⟩, ⟨2, [], 10⟩]).isSome = true := by decide
  obtain ⟨t, ht⟩ := Option.isSome_iff_exists.1 hrun
  have hright := (read_once_iff hiFile _ ht).2 ⟨by decide, Or.inr (Or.inr ⟨by decide, rfl, rfl, trivial⟩)⟩
  exact ⟨t, ht, hright.1⟩

/-- Reader 2 comes between the calls of reader 1: it gets nothing, with ten bytes stored in its buffer
of one, and reader 1 gets the message twice. -/
theorem read_once_lost :
    hiFile.text = [104, 105] ∧
      ((run readStep ⟨hiFile, []⟩ [⟨1, [], 10⟩, ⟨2, [], 1⟩, ⟨1, [], 10⟩, ⟨1, [], 10⟩]).map fun t =>
          (t.log.map fun e => (e.1.reader, e.2.stored.length, e.2.ret), received t.log 1, received t.log 2)) =
        some ([(1, 10, 2), (2, 10, 0), (1, 10, 2), (1, 10, 0)], [104, 105, 104, 105], []) := by
  decide

end Eltex.ProcDev
