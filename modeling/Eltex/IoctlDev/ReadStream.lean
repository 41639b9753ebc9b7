import Eltex.IoctlDev.Terminated
import Eltex.Lib.PartialReads

/-!
# What readers of the device get

A message is read piece by piece: each call gets what comes next, as much of it as
it has asked for, and from the end of the message on nothing.  Bytes of longer
messages from before stand behind the NUL and are not reached.  `read_stream` says
so of every sequence of calls, and of a second one after the device has been
closed and opened again.

    msg      already read ....... to be read ....... NUL   older bytes
                                  msg_ptr
-/

namespace Eltex.IoctlDev

open CString Runs PartialReads UserCopy

/-- A call that reads. -/
inductive Reading where
  | deviceRead (length : Nat)
  | getMsg
deriving Repr, DecidableEq

namespace Reading

def call : Reading → Call
  | .deviceRead length => .deviceRead length
  | .getMsg => .deviceIoctl .getMsg

/-- How many bytes it asks for. -/
def requested : Reading → Nat
  | .deviceRead length => length
  | .getMsg => 99

/-- What it returns and puts when it gets `part`: `device_read` returns how much it is, `IOCTL_GET_MSG`
puts a NUL behind it. -/
def answer (r : Reading) (part : List UInt8) : Result :=
  match r with
  | .deviceRead _ => ⟨part.length, putsAt 0 part⟩
  | .getMsg => ⟨0, putsAt 0 part ++ [(part.length, 0)]⟩

end Reading

/-- The bytes all these ask for. -/
def asked (rs : List Reading) : Nat := (rs.map Reading.requested).sum

/-- A call that copies the string `m` from user memory, with its NUL. -/
def Stores (c : Call) (m : List UInt8) : Prop := 0 ∉ m ∧ ∃ u, c.message = some u ∧ m ++ [0] <+: u.bytes

/-- The pieces are the message as far as it was asked for, one after the other. -/
structure Delivers (m : List UInt8) (rs : List Reading) (parts : List (List UInt8)) : Prop where
  count : parts.length = rs.length
  stream : parts.flatten = m.take (min m.length (asked rs))
  bounded : ∀ (i : Nat) (r : Reading) (part : List UInt8), rs[i]? = some r →
    parts[i]? = some part → part.length ≤ r.requested
  ended : ∀ (i : Nat) (part : List UInt8), m.length ≤ asked (rs.take i) → parts[i]? = some part → part = []

/-- From `s`, the readings `rs` are answered with the pieces of `m` and lead to `t`; no `IOCTL_GET_MSG`
puts anything outside the first 100 bytes. -/
structure Delivery (K : StrncpyFromUser) (m : List UInt8) (s : Session) (rs : List Reading) (t : Session) :
    Prop where
  run : run (step K) s (rs.map Reading.call) = some t
  answers : ∃ parts, Delivers m rs parts ∧ t.results = s.results ++ List.zipWith Reading.answer rs parts ∧
    ∀ (i : Nat) (part : List UInt8), rs[i]? = some .getMsg → parts[i]? = some part →
      ∀ p ∈ (Reading.answer .getMsg part).puts, p.1 < 100

/-- What is still to be read. -/
structure Remaining (s : Device) (rest : List UInt8) : Prop where
  nul : 0 ∉ rest
  text : ∃ p t, s.msgPtr = some p ∧ s.msg.drop p = rest ++ 0 :: t

section
variable {K : StrncpyFromUser} {m rest : List UInt8} {rs : List Reading}

theorem delivers_reads (m : List UInt8) (rs : List Reading) :
    Delivers m rs (reads m (rs.map Reading.requested)) where
  count := by rw [length_reads, List.length_map]
  stream := by
    rw [flatten_reads, Nat.min_comm]
    exact List.take_eq_take_min
  bounded i r part hr hpart := by
    rw [getElem?_reads, List.getElem?_map, hr] at hpart
    rw [← Option.some.inj hpart]
    exact List.length_take_le _ _
  ended i part hle hpart := by
    refine eq_nil_of_getElem?_reads ?_ hpart
    rw [← List.map_take]
    exact hle

theorem fst_lt_of_mem_answer {part : List UInt8} (h : part.length ≤ 99) :
    ∀ p ∈ (Reading.answer .getMsg part).puts, p.1 < 100 := by
  intro p hp
  rcases List.mem_append.1 hp with hp | hp
  · have hlt := fst_lt_of_mem_putsAt hp
    omega
  · rw [List.mem_singleton.1 hp]
    show part.length < 100
    omega

/-! ## One call -/

theorem Remaining.deviceRead {s : Device} (h : Remaining s rest) (length : Nat) :
    ∃ s', deviceRead s length = some (s', ⟨(rest.take length).length, putsAt 0 (rest.take length)⟩) ∧
      Remaining s' (rest.drop length) ∧ s'.msg = s.msg ∧ s'.deviceOpen = s.deviceOpen := by
  obtain ⟨p, t, hp, htext⟩ := h.text
  have hcstr : cstr (s.msg.drop p) = rest := by rw [htext, cstr_append_zero h.nul]
  have hmem : 0 ∈ s.msg.drop p := by
    rw [htext]
    exact List.mem_append_right _ List.mem_cons_self
  refine ⟨{ s with msgPtr := some (p + (rest.take length).length) }, ?_,
    ⟨fun hz => h.nul (List.mem_of_mem_drop hz), _, t, rfl, ?_⟩, rfl, rfl⟩
  · rw [deviceRead_eq length hp hmem, hcstr]
  · show s.msg.drop (p + (rest.take length).length) = _
    rw [← List.drop_drop, htext, List.length_take]
    by_cases hle : length ≤ rest.length
    · rw [Nat.min_eq_left hle, List.drop_append_of_le_length hle]
    · have hle' : rest.length ≤ length := by omega
      rw [Nat.min_eq_right hle', List.drop_append_of_le_length (Nat.le_refl _), List.drop_length,
        List.drop_eq_nil_of_le hle']

/-- **A reading** gets what comes next. -/
theorem Remaining.perform {s : Device} (h : Remaining s rest) (r : Reading) :
    ∃ s', perform K s r.call = some (s', r.answer (rest.take r.requested)) ∧
      Remaining s' (rest.drop r.requested) ∧ s'.msg = s.msg ∧ s'.deviceOpen = s.deviceOpen := by
  cases r with
  | deviceRead length => exact h.deviceRead length
  | getMsg =>
    obtain ⟨s', hread, hrest⟩ := h.deviceRead 99
    refine ⟨s', ?_, hrest⟩
    show (IoctlDev.deviceRead s 99).map _ = _
    rw [hread]
    rfl

end

/-! ## Sequences of calls -/

section
variable {K : StrncpyFromUser} {m rest : List UInt8}

theorem run_readings {s : Session} (rs : List Reading) (h : Remaining s.device rest)
    (hopen : s.device.deviceOpen ≠ 0) :
    ∃ t, run (step K) s (rs.map Reading.call) = some t ∧ t.results = s.results ++
        List.zipWith Reading.answer rs (reads rest (rs.map Reading.requested)) ∧
      t.device.msg = s.device.msg ∧ t.device.deviceOpen = s.device.deviceOpen := by
  induction rs generalizing s rest with
  | nil => exact ⟨s, rfl, (List.append_nil _).symm, rfl, rfl⟩
  | cons r rs ih =>
    obtain ⟨d, hperform, hrest, hmsg, hcount⟩ := @Remaining.perform K rest s.device h r
    have hstep : step K s r.call = some ⟨d, s.results ++ [r.answer (rest.take r.requested)]⟩ :=
      step_eq_some_iff.2 ⟨Or.inr hopen, d, _, hperform, rfl⟩
    obtain ⟨t, hrun, hresults, hmsg', hcount'⟩ := ih (s := ⟨d, _⟩) hrest (hcount ▸ hopen)
    refine ⟨t, ?_, ?_, hmsg'.trans hmsg, hcount'.trans hcount⟩
    · rw [List.map_cons, run_cons, hstep]
      exact hrun
    · rw [hresults, List.map_cons, reads_cons, List.zipWith_cons_cons, List.append_assoc,
        List.singleton_append]

theorem delivery {s t : Session} {rs : List Reading} (hrun : run (step K) s (rs.map Reading.call) = some t)
    (h : t.results = s.results ++ List.zipWith Reading.answer rs (reads m (rs.map Reading.requested))) :
    Delivery K m s rs t where
  run := hrun
  answers := by
    refine ⟨_, delivers_reads m rs, h, fun i part hr hpart => ?_⟩
    exact fst_lt_of_mem_answer ((delivers_reads m rs).bounded i _ part hr hpart)

theorem perform_stores (K : StrncpyFromUser) (s : Device) {c : Call} (hc : Stores c m)
    (hm : m.length < bufLen) :
    ∃ s' r t, perform K s c = some (s', r) ∧ s'.msgPtr = some 0 ∧ s'.msg = m ++ 0 :: t ∧
      s'.deviceOpen = s.deviceOpen := by
  obtain ⟨hnul, u, hu, hbytes⟩ := hc
  obtain ⟨d, r, hbefore, hperform⟩ := perform_message K s hu
  obtain ⟨t, ht⟩ := K.copy_string d.length_msg.ge hnul hm hbytes
  refine ⟨_, r, t, hperform, rfl, congrArg Prod.snd ht, ?_⟩
  rcases hbefore with rfl | rfl
  · rfl
  · rfl

theorem reopen {s : Session} (hone : s.device.deviceOpen = 1) :
    ∃ t, run (step K) s [.deviceRelease, .deviceOpen] = some t ∧ t.device.msg = s.device.msg ∧
      t.device.msgPtr = some 0 ∧ t.device.deviceOpen ≠ 0 := by
  have hrelease : step K s .deviceRelease =
      some ⟨{ s.device with deviceOpen := 0 }, s.results ++ [⟨0, []⟩]⟩ := by
    refine step_eq_some_iff.2 ⟨Or.inr ?_, _, _, rfl, ?_⟩
    · rw [hone]
      decide
    · rw [hone]
      rfl
  rw [run_cons, hrelease]
  refine ⟨_, rfl, rfl, rfl, ?_⟩
  show (1 : Int) ≠ 0
  decide

/-- **The stream.**  When a message has been stored in an open device, any readings get it piece by
piece, and after the device has been closed and opened again they get it from its start. -/
theorem read_stream (K : StrncpyFromUser) {calls : List Call} {s : Session} {c : Call}
    (h : session K calls = some s) (hopen : s.device.deviceOpen ≠ 0) (hc : Stores c m) (hm : m.length ≤ 79) :
    ∃ s₁, step K s c = some s₁ ∧ ∀ rs, ∃ s₂, Delivery K m s₁ rs s₂ ∧
      ∃ s₃, run (step K) s₂ [.deviceRelease, .deviceOpen] = some s₃ ∧
        ∀ rs', ∃ s₄, Delivery K m s₃ rs' s₄ := by
  have hone := (opened_session h).resolve_left hopen
  obtain ⟨d, r, t, hperform, hptr, hmsg, hcount⟩ := perform_stores K s.device hc (Nat.lt_succ_of_le hm)
  have hstep : step K s c = some ⟨d, s.results ++ [r]⟩ :=
    step_eq_some_iff.2 ⟨Or.inr hopen, d, r, hperform, rfl⟩
  refine ⟨_, hstep, fun rs => ?_⟩
  have hremaining : Remaining d m := ⟨hc.1, 0, t, hptr, hmsg⟩
  obtain ⟨s₂, hrun, hresults, hmsg₂, hcount₂⟩ :=
    @run_readings K m ⟨d, s.results ++ [r]⟩ rs hremaining (hcount ▸ hopen)
  refine ⟨s₂, delivery hrun hresults, ?_⟩
  have hone₂ : s₂.device.deviceOpen = 1 := (hcount₂.trans hcount).trans hone
  obtain ⟨s₃, hreopen, hmsg₃, hptr₃, hopen₃⟩ := @reopen K s₂ hone₂
  refine ⟨s₃, hreopen, fun rs' => ?_⟩
  have hremaining₃ : Remaining s₃.device m :=
    ⟨hc.1, 0, t, hptr₃, hmsg₃.trans (hmsg₂.trans hmsg)⟩
  obtain ⟨s₄, hrun', hresults', -⟩ := @run_readings K m s₃ rs' hremaining₃ hopen₃
  exact ⟨s₄, delivery hrun' hresults'⟩

/-- `hi` stored over a longer message, and read by both kinds of call. -/
theorem read_stream_shorter :
    ∃ s s₁ s₂, session byteCopy [.deviceOpen, .deviceWrite ⟨[1, 2, 3, 4, 5, 6, 0], 0⟩ 7] = some s ∧
      step byteCopy s (.deviceIoctl (.setMsg ⟨[104, 105, 0], 0⟩)) = some s₁ ∧
      Delivery byteCopy [104, 105] s₁ [.deviceRead 1, .getMsg, .deviceRead 8] s₂ := by
  have hview : ((session byteCopy [.deviceOpen, .deviceWrite ⟨[1, 2, 3, 4, 5, 6, 0], 0⟩ 7]).map fun s =>
      s.device.deviceOpen) = some 1 := by decide
  obtain ⟨s, hs, hopen⟩ := Option.map_eq_some_iff.1 hview
  have hne : s.device.deviceOpen ≠ 0 := by
    rw [hopen]
    decide
  obtain ⟨s₁, hs₁, hread⟩ := @read_stream [104, 105] byteCopy _ s
    (.deviceIoctl (.setMsg ⟨[104, 105, 0], 0⟩)) hs hne ⟨by decide, _, rfl, List.prefix_refl _⟩ (by decide)
  obtain ⟨s₂, hs₂, -⟩ := hread [.deviceRead 1, .getMsg, .deviceRead 8]
  exact ⟨s, s₁, s₂, hs, hs₁, hs₂⟩

end

end Eltex.IoctlDev
