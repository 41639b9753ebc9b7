import Eltex.Lib.Run
import Eltex.Lib.UserCopy

/-!
# The character device with its message

The device has one buffer `msg` and one position `msg_ptr` in it.  `device_open`,
`device_write` and `IOCTL_SET_MSG` set the position to the start of the buffer;
`device_read` and `IOCTL_GET_MSG` move it on until they come to a NUL.

An access outside `msg`, or through `msg_ptr` before it is set, is `none`.  What
a call stores in user memory is the list of its `put_user` calls; what these
return is not looked at.  Strings come from user memory by the kernel's own
`strncpy_from_user`, the parameter `K`.
-/

namespace Eltex.IoctlDev

open CString Runs UserCopy

/-- `BUF_LEN` -/
def bufLen : Nat := 80

/-- `EBUSY` -/
def eBusy : Int := 16

structure Device where
  /-- `Device_Open` -/
  deviceOpen : Int
  msg : List UInt8
  msgPtr : Option Nat
  length_msg : msg.length = bufLen
deriving DecidableEq

/-- What a call returns, and the bytes it puts into user memory, with their offsets. -/
structure Result where
  ret : Int
  puts : List (Nat × UInt8)
deriving Repr, DecidableEq

inductive Ioctl where
  /-- `IOCTL_SET_MSG` -/
  | setMsg (message : UserString)
  /-- `IOCTL_GET_MSG` -/
  | getMsg
  /-- `IOCTL_GET_NTH_BYTE` -/
  | getNthByte (n : Nat)
  /-- any other `ioctl_num` -/
  | other
deriving Repr, DecidableEq

inductive Call where
  | deviceOpen
  | deviceRelease
  | deviceRead (length : Nat)
  | deviceWrite (buffer : UserString) (length : Nat)
  | deviceIoctl (ioctl : Ioctl)
deriving Repr, DecidableEq

def deviceOpen (s : Device) : Device × Result :=
  if s.deviceOpen ≠ 0 then (s, ⟨-eBusy, []⟩)
  else ({ s with deviceOpen := s.deviceOpen + 1, msgPtr := some 0 }, ⟨0, []⟩)

def deviceRelease (s : Device) : Device × Result := ({ s with deviceOpen := s.deviceOpen - 1 }, ⟨0, []⟩)

/-- The loop of `device_read` with `msg_ptr` and `buffer`: what is put, and `msg_ptr` at the end. -/
def readLoop (msg : List UInt8) : Nat → Nat → Nat → Option (List (Nat × UInt8) × Nat)
  | msgPtr, _, 0 => some ([], msgPtr)
  | msgPtr, buffer, length + 1 =>
    match msg[msgPtr]? with
    | none => none
    | some b =>
      if b = 0 then some ([], msgPtr)
      else (readLoop msg (msgPtr + 1) (buffer + 1) length).map fun (puts, p) => ((buffer, b) :: puts, p)

def deviceRead (s : Device) (length : Nat) : Option (Device × Result) :=
  s.msgPtr.bind fun msgPtr =>
    s.msg[msgPtr]?.bind fun b =>
      if b = 0 then some (s, ⟨0, []⟩)
      else (readLoop s.msg msgPtr 0 length).map fun (puts, p) =>
        ({ s with msgPtr := some p }, ⟨puts.length, puts⟩)

/-- `msg` after a copy of at most `BUF_LEN` bytes into it. -/
def copyMsg (K : StrncpyFromUser) (s : Device) (u : UserString) : Device :=
  { s with
    msg := (K.copy s.msg u bufLen).2
    length_msg := (K.length u s.length_msg.ge).trans s.length_msg }

/-- The length is not used. -/
def deviceWrite (K : StrncpyFromUser) (s : Device) (buffer : UserString) (_length : Nat) : Device × Result :=
  let i := (K.copy s.msg buffer bufLen).1
  ({ copyMsg K s buffer with msgPtr := some 0 }, ⟨i, []⟩)

def deviceIoctl (K : StrncpyFromUser) (s : Device) : Ioctl → Option (Device × Result)
  | .setMsg message =>
    let i := (K.copy s.msg message bufLen).1
    let (s, _) := deviceWrite K (copyMsg K s message) message (i % 2 ^ 64).toNat
    some (s, ⟨0, []⟩)
  | .getMsg =>
    (deviceRead s 99).map fun (s, r) => (s, ⟨0, r.puts ++ [(r.ret.toNat, 0)]⟩)
  | .getNthByte n => s.msg[n]?.map fun b => (s, ⟨b.toInt8.toInt, []⟩)
  | .other => some (s, ⟨0, []⟩)

/-- The user string a call copies. -/
def Call.message : Call → Option UserString
  | .deviceWrite buffer _ => some buffer
  | .deviceIoctl (.setMsg message) => some message
  | _ => none

/-- Every call but `open` is made on a file that is open. -/
def Legal (s : Device) (c : Call) : Prop := c = .deviceOpen ∨ s.deviceOpen ≠ 0

instance (s : Device) (c : Call) : Decidable (Legal s c) := inferInstanceAs (Decidable (_ ∨ _))

def perform (K : StrncpyFromUser) (s : Device) : Call → Option (Device × Result)
  | .deviceOpen => some (deviceOpen s)
  | .deviceRelease => some (deviceRelease s)
  | .deviceRead length => deviceRead s length
  | .deviceWrite buffer length => some (deviceWrite K s buffer length)
  | .deviceIoctl ioctl => deviceIoctl K s ioctl

/-- The device and the results of the calls so far. -/
structure Session where
  device : Device
  results : List Result
deriving DecidableEq

def step (K : StrncpyFromUser) (s : Session) (c : Call) : Option Session :=
  if Legal s.device c then (perform K s.device c).map fun (device, r) => ⟨device, s.results ++ [r]⟩ else none

/-- The module loaded: `msg` is static. -/
def start : Session := ⟨⟨0, List.replicate bufLen 0, none, rfl⟩, []⟩

def session (K : StrncpyFromUser) (calls : List Call) : Option Session := Runs.run (step K) start calls

/-! ## Reading -/

/-- The `put_user` calls for `bytes` from the offset `buffer` on. -/
def putsAt : Nat → List UInt8 → List (Nat × UInt8)
  | _, [] => []
  | buffer, b :: bytes => (buffer, b) :: putsAt (buffer + 1) bytes

@[simp] theorem length_putsAt (buffer : Nat) (bytes : List UInt8) :
    (putsAt buffer bytes).length = bytes.length := by
  induction bytes generalizing buffer with
  | nil => rfl
  | cons b bytes ih => rw [putsAt, List.length_cons, List.length_cons, ih]

theorem fst_lt_of_mem_putsAt {buffer : Nat} {bytes : List UInt8} {p : Nat × UInt8}
    (h : p ∈ putsAt buffer bytes) : p.1 < buffer + bytes.length := by
  induction bytes generalizing buffer with
  | nil => exact absurd h List.not_mem_nil
  | cons b bytes ih =>
    rw [List.length_cons]
    rcases List.mem_cons.1 h with rfl | h
    · show buffer < _
      omega
    · have hlt := ih h
      omega

/-- **The loop** delivers the string at `msg_ptr`, as far as it was asked for. -/
theorem readLoop_eq {msg : List UInt8} {p : Nat} (buffer length : Nat) (h : 0 ∈ msg.drop p) :
    readLoop msg p buffer length = some (putsAt buffer ((cstr (msg.drop p)).take length),
      p + ((cstr (msg.drop p)).take length).length) := by
  induction length generalizing p buffer with
  | zero => rfl
  | succ length ih =>
    unfold readLoop
    have hlt : p < msg.length := by
      apply Nat.lt_of_not_le
      intro hle
      rw [List.drop_eq_nil_of_le hle] at h
      exact absurd h List.not_mem_nil
    have hdrop := List.drop_eq_getElem_cons hlt
    rw [List.getElem?_eq_getElem hlt]
    rw [hdrop] at h ⊢
    generalize msg[p] = b at *
    show (if b = 0 then _ else _) = _
    by_cases hb : b = 0
    · rw [if_pos hb, hb, cstr_cons_zero]
      rfl
    · have hrest : 0 ∈ msg.drop (p + 1) := (List.mem_cons.1 h).resolve_left (Ne.symm hb)
      rw [if_neg hb, ih _ hrest, cstr_cons_of_ne hb, List.take_succ_cons, List.length_cons, Option.map_some]
      show some ((buffer, b) :: putsAt (buffer + 1) _, _) = some ((buffer, b) :: putsAt (buffer + 1) _, _)
      congr 2
      omega

theorem deviceRead_eq {s : Device} {p : Nat} (length : Nat) (hp : s.msgPtr = some p)
    (h : 0 ∈ s.msg.drop p) :
    deviceRead s length =
      some ({ s with msgPtr := some (p + ((cstr (s.msg.drop p)).take length).length) },
        ⟨((cstr (s.msg.drop p)).take length).length, putsAt 0 ((cstr (s.msg.drop p)).take length)⟩) := by
  have hlt : p < s.msg.length := by
    apply Nat.lt_of_not_le
    intro hle
    rw [List.drop_eq_nil_of_le hle] at h
    exact absurd h List.not_mem_nil
  unfold deviceRead
  rw [hp, Option.bind_some, List.getElem?_eq_getElem hlt, Option.bind_some]
  by_cases hb : s.msg[p] = 0
  · rw [if_pos hb, List.drop_eq_getElem_cons hlt, hb, cstr_cons_zero, List.take_nil]
    show some (s, _) = some (({ s with msgPtr := some p } : Device), _)
    rw [← hp]
    rfl
  · rw [if_neg hb, readLoop_eq 0 length h, Option.map_some]
    dsimp only
    rw [length_putsAt]

/-- A read changes nothing but the position. -/
theorem deviceRead_frame {s s' : Device} {length : Nat} {r : Result} (h : deviceRead s length = some (s', r)) :
    ∃ p, s' = { s with msgPtr := p } := by
  obtain ⟨p, -, h⟩ := Option.bind_eq_some_iff.1 h
  obtain ⟨b, -, h⟩ := Option.bind_eq_some_iff.1 h
  by_cases hb : b = 0
  · rw [if_pos hb] at h
    exact ⟨s.msgPtr, (Prod.mk.inj (Option.some.inj h)).1.symm⟩
  · rw [if_neg hb] at h
    obtain ⟨⟨_, q⟩, -, heq⟩ := Option.map_eq_some_iff.1 h
    exact ⟨some q, (Prod.mk.inj heq).1.symm⟩

/-! ## What a call can do -/

/-- The device a call copies to is as it was, or `IOCTL_SET_MSG` has copied to it already. -/
def Before (K : StrncpyFromUser) (s : Device) (u : UserString) (t : Device) : Prop :=
  t = s ∨ t = copyMsg K s u

inductive Effect (K : StrncpyFromUser) (s : Device) (c : Call) (s' : Device) : Prop
  | opened (closed : s.deviceOpen = 0) (eq : s' = { s with deviceOpen := 1, msgPtr := some 0 })
  | released (call : c = .deviceRelease) (eq : s' = { s with deviceOpen := s.deviceOpen - 1 })
  | read (length : Nat) (r : Result) (call : c ≠ .deviceOpen) (eq : deviceRead s length = some (s', r))
  | stored (u : UserString) (t : Device) (message : c.message = some u) (before : Before K s u t)
      (eq : s' = { copyMsg K t u with msgPtr := some 0 })
  | same (eq : s' = s)

section
variable {K : StrncpyFromUser} {s s' : Device} {c : Call} {r : Result} {u : UserString}

/-- `IOCTL_SET_MSG` copies the string, and `device_write` copies it again. -/
theorem perform_message (K : StrncpyFromUser) (s : Device) (hc : c.message = some u) :
    ∃ t r, Before K s u t ∧ perform K s c = some ({ copyMsg K t u with msgPtr := some 0 }, r) := by
  cases c with
  | deviceOpen => exact absurd hc.symm (Option.some_ne_none _)
  | deviceRelease => exact absurd hc.symm (Option.some_ne_none _)
  | deviceRead length => exact absurd hc.symm (Option.some_ne_none _)
  | deviceWrite buffer length =>
    obtain rfl := Option.some.inj hc
    exact ⟨_, _, Or.inl rfl, rfl⟩
  | deviceIoctl ioctl =>
    cases ioctl with
    | setMsg message =>
      obtain rfl := Option.some.inj hc
      exact ⟨_, _, Or.inr rfl, rfl⟩
    | getMsg => exact absurd hc.symm (Option.some_ne_none _)
    | getNthByte n => exact absurd hc.symm (Option.some_ne_none _)
    | other => exact absurd hc.symm (Option.some_ne_none _)

theorem effect_message (hc : c.message = some u) (h : perform K s c = some (s', r)) : Effect K s c s' := by
  obtain ⟨t, r', hbefore, hperform⟩ := perform_message K s hc
  rw [hperform] at h
  exact .stored u t hc hbefore (Prod.mk.inj (Option.some.inj h)).1.symm

/-- **Inversion.**  What a call can do to the device. -/
theorem perform_effect (h : perform K s c = some (s', r)) : Effect K s c s' := by
  cases c with
  | deviceOpen =>
    have heq : (deviceOpen s).1 = s' := congrArg Prod.fst (Option.some.inj h)
    rw [← heq]
    unfold deviceOpen
    by_cases hopen : s.deviceOpen = 0
    · rw [if_neg (not_not.2 hopen)]
      refine .opened hopen ?_
      rw [hopen]
      rfl
    · rw [if_pos hopen]
      exact .same rfl
  | deviceRelease => exact .released rfl (Prod.mk.inj (Option.some.inj h)).1.symm
  | deviceRead length => exact .read length r (fun hc => nomatch hc) h
  | deviceWrite buffer length => exact effect_message rfl h
  | deviceIoctl ioctl =>
    cases ioctl with
    | setMsg message => exact effect_message rfl h
    | getMsg =>
      obtain ⟨⟨t, r'⟩, hr, heq⟩ := Option.map_eq_some_iff.1 h
      obtain ⟨rfl, -⟩ := Prod.mk.inj heq
      exact .read 99 r' (fun hc => nomatch hc) hr
    | getNthByte n =>
      obtain ⟨_, -, heq⟩ := Option.map_eq_some_iff.1 h
      exact .same (Prod.mk.inj heq).1.symm
    | other => exact .same (Prod.mk.inj (Option.some.inj h)).1.symm

/-- A file can be opened only while none is. -/
theorem opened_perform (hone : s.deviceOpen = 0 ∨ s.deviceOpen = 1) (hlegal : Legal s c)
    (h : perform K s c = some (s', r)) : s'.deviceOpen = 0 ∨ s'.deviceOpen = 1 := by
  cases perform_effect h with
  | opened closed eq =>
    rw [eq]
    exact Or.inr rfl
  | released call eq =>
    subst call eq
    have hopen : s.deviceOpen ≠ 0 := hlegal.resolve_left fun hc => nomatch hc
    left
    show s.deviceOpen - 1 = 0
    omega
  | read length r call eq =>
    obtain ⟨p, rfl⟩ := deviceRead_frame eq
    exact hone
  | stored u t message before eq =>
    rw [eq]
    rcases before with rfl | rfl
    · exact hone
    · exact hone
  | same eq =>
    rw [eq]
    exact hone

end

/-! ## Sessions -/

section
variable {K : StrncpyFromUser} {calls : List Call} {s s' : Session} {c : Call}

theorem step_eq_some_iff : step K s c = some s' ↔
    Legal s.device c ∧ ∃ d r, perform K s.device c = some (d, r) ∧ s' = ⟨d, s.results ++ [r]⟩ := by
  unfold step
  split
  · next h =>
    rw [Option.map_eq_some_iff]
    constructor
    · rintro ⟨⟨d, r⟩, hp, rfl⟩
      exact ⟨h, d, r, hp, rfl⟩
    · rintro ⟨-, d, r, hp, rfl⟩
      exact ⟨(d, r), hp, rfl⟩
  · next h => exact ⟨fun hs => absurd hs.symm (Option.some_ne_none _), fun hs => absurd hs.1 h⟩

/-- At most one file is open. -/
theorem opened_session (h : session K calls = some s) : s.device.deviceOpen = 0 ∨ s.device.deviceOpen = 1 := by
  refine run_inv (fun _ s => s.device.deviceOpen = 0 ∨ s.device.deviceOpen = 1) (Or.inl rfl) ?_ h
  intro _ t c t' ht hs
  obtain ⟨hlegal, d, r, hperform, rfl⟩ := step_eq_some_iff.1 hs
  exact opened_perform ht hlegal hperform

end

end Eltex.IoctlDev
