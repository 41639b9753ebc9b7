import Eltex.Lib.UserCopy
import Mathlib.Data.List.Induction
import Mathlib.Tactic.Common

/-!
# The proc file

`procfile_write` copies a string of at most `MAX_LEN_MSG - 1` bytes to `msg`, and sets a flag that is
never cleared: later writes return the length of their string and store nothing.  So the first
string written stays (`text_session`), and the last one is in `msg` only when it begins like the
first (`last_write_iff`).

`procfile_read` gives all of `msg` and the length of the text, and 0 at every other call.

The last byte of `msg` is a NUL from the start, and no write reaches it.  The kernel's
`strncpy_from_user` is the parameter `K`.
-/

namespace Eltex.ProcDev

open CString UserCopy

/-- `MAX_LEN_MSG` -/
def maxLenMsg : Nat := 10

/-- The module's data: `msg` and the two static flags. -/
structure ProcFile where
  msg : List UInt8
  /-- `f_read` -/
  fRead : Int
  /-- `f_write` -/
  fWrite : Int
  length_msg : msg.length = maxLenMsg
  last_msg : msg[maxLenMsg - 1]? = some 0

/-- What `procfile_read` stores at `buffer` and returns. -/
structure ReadResult where
  stored : List UInt8
  ret : Nat
deriving Repr, DecidableEq

theorem length_copy (K : StrncpyFromUser) {msg : List UInt8} (h : msg.length = maxLenMsg)
    (buffer : UserString) : (K.copy msg buffer (maxLenMsg - 1)).2.length = maxLenMsg :=
  (K.length buffer (by omega)).trans h

theorem last_copy (K : StrncpyFromUser) {msg : List UInt8} (h : msg.length = maxLenMsg)
    (hlast : msg[maxLenMsg - 1]? = some 0) (buffer : UserString) :
    (K.copy msg buffer (maxLenMsg - 1)).2[maxLenMsg - 1]? = some 0 :=
  (K.beyond buffer (by omega) (Nat.le_refl _)).trans hlast

/-- `buffer_length` is not used.  User memory can be written where `copy_to_user` stores; `behind` is
what stands behind that. -/
def procfileRead (s : ProcFile) (behind : List UInt8) (_bufferLength : Nat) : ProcFile × ReadResult :=
  if s.fRead = 1 then ({ s with fRead := 0 }, ⟨s.msg, 0⟩)
  else ({ s with fRead := 1 }, ⟨s.msg, strlen (s.msg ++ behind)⟩)

/-- `buffer_length` is not used here either. -/
def procfileWrite (K : StrncpyFromUser) (s : ProcFile) (buffer : UserString) (_bufferLength : Nat) : ProcFile × Int :=
  if s.fWrite = 1 then (s, strlen buffer.bytes)
  else
    ({ s with
        msg := (K.copy s.msg buffer (maxLenMsg - 1)).2
        fWrite := 1
        length_msg := length_copy K s.length_msg buffer
        last_msg := last_copy K s.length_msg s.last_msg buffer },
      (K.copy s.msg buffer (maxLenMsg - 1)).1)

inductive Call where
  | procfileRead (behind : List UInt8) (bufferLength : Nat)
  | procfileWrite (buffer : UserString) (bufferLength : Nat)
deriving Repr, DecidableEq

def perform (K : StrncpyFromUser) (s : ProcFile) : Call → ProcFile
  | .procfileRead behind bufferLength => (procfileRead s behind bufferLength).1
  | .procfileWrite buffer bufferLength => (procfileWrite K s buffer bufferLength).1

/-- The module loaded. -/
def start : ProcFile := ⟨List.replicate maxLenMsg 0, 0, 0, rfl, rfl⟩

def session (K : StrncpyFromUser) (calls : List Call) : ProcFile := calls.foldl (perform K) start

/-! ## The text in `msg` -/

section
variable {K : StrncpyFromUser} {s : ProcFile} {dst m w : List UInt8} {u : UserString} {count : Nat} {c : Call}
  {calls : List Call}

def ProcFile.text (s : ProcFile) : List UInt8 := cstr s.msg

theorem zero_mem_msg (s : ProcFile) : 0 ∈ s.msg := List.mem_of_getElem? s.last_msg

/-- Before a NUL the copy of a string is the string, cut at `count` bytes. -/
theorem cstr_copy (hnul : 0 ∈ u.bytes) (hdst : dst[count]? = some 0) :
    cstr (K.copy dst u count).2 = (cstr u.bytes).take count := by
  obtain ⟨hlt, hget⟩ := List.getElem?_eq_some_iff.1 hdst
  have hbeyond := K.beyond u hlt.le (Nat.le_refl count)
  obtain ⟨r, hr, hcopied⟩ := exists_copied K hlt.le u
  rw [hr] at hbeyond ⊢
  cases hcopied with
  | whole s t nul length bytes =>
    show cstr (s ++ 0 :: t) = _
    rw [(append_zero_isPrefix_iff hnul nul).1 bytes, List.take_of_length_le length.le, cstr_append_zero nul]
  | cut t nul length =>
    -- the NUL that was there stands behind the bytes copied
    have hhead : t[0]? = some 0 := by
      change (u.bytes.take count ++ t)[count]? = _ at hbeyond
      rw [List.getElem?_append_right (List.length_take_le _ _), List.length_take_of_le length, Nat.sub_self,
        hdst] at hbeyond
      exact hbeyond
    cases t with
    | nil => cases hhead
    | cons b t =>
      obtain rfl := Option.some.inj hhead
      show cstr (u.bytes.take count ++ 0 :: t) = _
      rw [cstr_append_zero nul, ← cstr_take, cstr_eq_self nul]
  | failed nul length => exact absurd hnul nul

/-- The string a write is to store: its first nine bytes. -/
def Call.string : Call → Option (List UInt8)
  | .procfileRead _ _ => none
  | .procfileWrite buffer _ => some ((cstr buffer.bytes).take (maxLenMsg - 1))

/-- The string of every write has its NUL. -/
def Call.Terminated : Call → Prop
  | .procfileRead _ _ => True
  | .procfileWrite buffer _ => 0 ∈ buffer.bytes

instance (c : Call) : Decidable c.Terminated :=
  match c with
  | .procfileRead _ _ => inferInstanceAs (Decidable True)
  | .procfileWrite buffer _ => inferInstanceAs (Decidable (0 ∈ buffer.bytes))

/-- The strings written, in order. -/
def written (calls : List Call) : List (List UInt8) := calls.filterMap Call.string

theorem procfileRead_msg (s : ProcFile) (behind : List UInt8) (bufferLength : Nat) :
    (procfileRead s behind bufferLength).1.msg = s.msg := by
  unfold procfileRead
  split <;> rfl

theorem procfileRead_fWrite (s : ProcFile) (behind : List UInt8) (bufferLength : Nat) :
    (procfileRead s behind bufferLength).1.fWrite = s.fWrite := by
  unfold procfileRead
  split <;> rfl

/-- **One call.**  Only a write with the flag unset changes the text. -/
theorem text_perform (hc : c.Terminated) :
    (perform K s c).text = (if s.fWrite = 1 then s.text else c.string.getD s.text) ∧
      ((perform K s c).fWrite = 1 ↔ s.fWrite = 1 ∨ c.string ≠ none) := by
  cases c with
  | procfileRead behind bufferLength =>
    show (procfileRead s behind bufferLength).1.text = (if s.fWrite = 1 then s.text else s.text) ∧
      ((procfileRead s behind bufferLength).1.fWrite = 1 ↔ s.fWrite = 1 ∨ none ≠ none)
    rw [ite_self, procfileRead_fWrite, ProcFile.text, procfileRead_msg]
    simp [ProcFile.text]
  | procfileWrite buffer bufferLength =>
    show (procfileWrite K s buffer bufferLength).1.text = _ ∧
      ((procfileWrite K s buffer bufferLength).1.fWrite = 1 ↔ _)
    unfold procfileWrite
    by_cases hw : s.fWrite = 1
    · rw [if_pos hw, if_pos hw]
      exact ⟨rfl, by simp [hw]⟩
    · rw [if_neg hw, if_neg hw]
      refine ⟨?_, by simp [Call.string]⟩
      exact cstr_copy hc s.last_msg

theorem session_concat (K : StrncpyFromUser) (calls : List Call) (c : Call) :
    session K (calls ++ [c]) = perform K (session K calls) c := by
  rw [session, List.foldl_append]
  rfl

/-- **The first string written stays.** -/
theorem text_session (hc : ∀ c ∈ calls, c.Terminated) :
    (session K calls).text = (written calls).head?.getD [] ∧
      ((session K calls).fWrite = 1 ↔ written calls ≠ []) := by
  induction calls using List.reverseRecOn with
  | nil => exact ⟨rfl, by simp [session, start, written]⟩
  | append_singleton calls c ih =>
    obtain ⟨htext, hflag⟩ := ih fun c' hc' => hc c' (List.mem_append_left _ hc')
    obtain ⟨htext', hflag'⟩ :=
      @text_perform K (session K calls) c (hc c (List.mem_append_right _ (List.mem_singleton_self _)))
    have hwritten : written (calls ++ [c]) = written calls ++ c.string.toList := by
      rw [written, List.filterMap_append]
      cases c <;> rfl
    rw [session_concat, htext', hflag', hwritten]
    cases hs : written calls with
    | nil =>
      rw [hs] at htext hflag
      rw [if_neg fun h => hflag.1 h rfl, htext, List.nil_append]
      refine ⟨?_, ?_⟩
      · cases c.string <;> rfl
      · rw [or_iff_right fun h => hflag.1 h rfl]
        cases c.string <;> simp
    | cons w ws =>
      rw [hs] at htext hflag
      rw [if_pos (hflag.2 (List.cons_ne_nil _ _)), htext]
      exact ⟨rfl, iff_of_true (Or.inl (hflag.2 (List.cons_ne_nil _ _))) (List.cons_ne_nil _ _)⟩

/-- After a call, `msg` holds the string it was to store, followed by a NUL. -/
def Holds (s : ProcFile) (c : Call) : Prop := ∀ w, c.string = some w → w ++ [0] <+: s.msg

theorem holds_iff (s : ProcFile) (c : Call) : Holds s c ↔ ∀ w, c.string = some w → s.text = w := by
  have hnul : ∀ w, c.string = some w → 0 ∉ w := by
    intro w hw
    cases c with
    | procfileRead behind bufferLength => cases hw
    | procfileWrite buffer bufferLength =>
      obtain rfl := Option.some.inj hw
      exact fun hz => zero_not_mem_cstr _ (List.mem_of_mem_take hz)
  constructor
  · intro h w hw
    exact (append_zero_isPrefix_iff (zero_mem_msg s) (hnul w hw)).1 (h w hw)
  · intro h w hw
    exact (append_zero_isPrefix_iff (zero_mem_msg s) (hnul w hw)).2 (h w hw)

theorem mem_written {w : List UInt8} : w ∈ written calls ↔ ∃ c ∈ calls, c.string = some w :=
  List.mem_filterMap

/-- **The last write** is in `msg` after every write just when all strings written have the same first
nine bytes. -/
theorem last_write_iff (K : StrncpyFromUser) (calls : List Call) (hc : ∀ c ∈ calls, c.Terminated) :
    (∀ pre c, pre ++ [c] <+: calls → Holds (session K (pre ++ [c])) c) ↔
      ∀ w ∈ written calls, ∀ w' ∈ written calls, w = w' := by
  have hhead : ∀ pre c w, pre ++ [c] <+: calls → c.string = some w →
      (session K (pre ++ [c])).text = (written calls).head?.getD [] := by
    rintro pre c w ⟨post, rfl⟩ hw
    have hne : written (pre ++ [c]) ≠ [] :=
      List.ne_nil_of_mem (mem_written.2 ⟨c, List.mem_append_right _ (List.mem_singleton_self _), hw⟩)
    rw [(text_session fun c' hc' => hc c' (List.mem_append_left _ hc')).1]
    show _ = (List.filterMap Call.string (pre ++ [c] ++ post)).head?.getD []
    rw [List.filterMap_append]
    show _ = (written (pre ++ [c]) ++ written post).head?.getD []
    obtain ⟨v, vs, hv⟩ := List.exists_cons_of_ne_nil hne
    rw [hv]
    rfl
  constructor
  · intro h
    have hfirst : ∀ w ∈ written calls, w = (written calls).head?.getD [] := by
      intro w hw
      obtain ⟨c, hmem, hstring⟩ := mem_written.1 hw
      obtain ⟨pre, post, rfl⟩ := List.append_of_mem hmem
      have hpre : pre ++ [c] <+: pre ++ c :: post := ⟨post, by rw [List.append_assoc, List.singleton_append]⟩
      rw [← (holds_iff _ _).1 (h pre c hpre) w hstring, hhead pre c w hpre hstring]
    intro w hw w' hw'
    rw [hfirst w hw, hfirst w' hw']
  · intro h pre c hpre
    refine (holds_iff _ _).2 fun w hw => ?_
    rw [hhead pre c w hpre hw]
    have hmem : w ∈ written calls :=
      mem_written.2 ⟨c, hpre.subset (List.mem_append_right _ (List.mem_singleton_self _)), hw⟩
    cases hcalls : written calls with
    | nil =>
      rw [hcalls] at hmem
      exact absurd hmem List.not_mem_nil
    | cons v vs => exact h v (hcalls ▸ List.mem_cons_self) w hmem

end

/-- Two writes that agree on nine bytes, with a read between them. -/
theorem last_write_same :
    Holds
      (session byteCopy [.procfileWrite ⟨[49, 50, 51, 52, 53, 54, 55, 56, 57, 65, 0], 0⟩ 10, .procfileRead [] 64,
        .procfileWrite ⟨[49, 50, 51, 52, 53, 54, 55, 56, 57, 66, 0], 0⟩ 10])
      (.procfileWrite ⟨[49, 50, 51, 52, 53, 54, 55, 56, 57, 66, 0], 0⟩ 10) :=
  (last_write_iff byteCopy
    [.procfileWrite ⟨[49, 50, 51, 52, 53, 54, 55, 56, 57, 65, 0], 0⟩ 10, .procfileRead [] 64,
      .procfileWrite ⟨[49, 50, 51, 52, 53, 54, 55, 56, 57, 66, 0], 0⟩ 10] (by decide)).2 (by decide)
    [.procfileWrite ⟨[49, 50, 51, 52, 53, 54, 55, 56, 57, 65, 0], 0⟩ 10, .procfileRead [] 64] _
    (List.prefix_refl _)

/-- "two" written after "one" is lost. -/
theorem last_write_lost :
    (session byteCopy [.procfileWrite ⟨[111, 110, 101, 0], 0⟩ 3, .procfileWrite ⟨[116, 119, 111, 0], 0⟩ 3]).msg.take 4 =
        [111, 110, 101, 0] ∧
      ¬ Holds (session byteCopy [.procfileWrite ⟨[111, 110, 101, 0], 0⟩ 3, .procfileWrite ⟨[116, 119, 111, 0], 0⟩ 3])
        (.procfileWrite ⟨[116, 119, 111, 0], 0⟩ 3) := by
  refine ⟨by decide, fun h => ?_⟩
  have hprefix := h [116, 119, 111] rfl
  revert hprefix
  decide

end Eltex.ProcDev
