import Eltex.IoctlDev.NthByte
import Eltex.Lib.ByteMem
import Eltex.Lib.Printf

/-!
# The client of the device, one execution after another

`main` opens the device, reads the message byte by byte and all at once, and stores "HELLO IOCTL".
So an execution shows what the one before it has stored.  A message with a byte from 128 on ends
it in `ioctl_get_nth_byte`, before it comes to store its own, and every later one likewise
(`executions_print`).

An execution ends in `return` or in `exit(-1)`; the kernel closes the file in either case.
-/

namespace Eltex.IoctlDev

open ByteMem CString Printf Runs UserCopy

/-- How a part of the program ends, and what it has printed. -/
structure Output where
  text : List UInt8
  /-- it goes on, or `exit(-1)` -/
  goesOn : Bool
deriving Repr, DecidableEq

/-- What an execution finds: `message` of `ioctl_get_msg` with the stack behind it, and what stands behind
its string literal. -/
structure Env where
  stack : Mem
  behind : List UInt8

/-- The `put_user` calls on the memory of the caller. -/
def putUser (m : Mem) (puts : List (Nat × UInt8)) : Mem := puts.foldl (fun m p => store m p.1 [p.2]) m

def getNthByteText (K : StrncpyFromUser) (s : Device) : Option Output :=
  (ioctlGetNthByte K s).map fun (out, e) =>
    match e with
    | .returned => ⟨ascii "get_nth_byte message:" ++ out ++ [10], true⟩
    | .failed i => ⟨ascii "get_nth_byte message:" ++ out ++ ascii "ioctl_get_nth_byte failed at the " ++
        decimal i ++ [39] ++ ascii "th byte:" ++ [10], false⟩

def ioctlGetMsg (K : StrncpyFromUser) (env : Env) (s : Device) : Option (Device × Output) :=
  (deviceIoctl K s .getMsg).map fun (s, r) =>
    if libcIoctl r.ret < 0 then (s, ⟨ascii "ioctl_get_msg failed:" ++ formatInt (libcIoctl r.ret) ++ [10], false⟩)
    else (s, ⟨ascii "get_msg message:" ++ cstr (load (putUser env.stack r.puts) 0 100) ++ [10], true⟩)

def ioctlSetMsg (K : StrncpyFromUser) (env : Env) (s : Device) (message : List UInt8) :
    Option (Device × Output) :=
  (deviceIoctl K s (.setMsg ⟨message ++ 0 :: env.behind, 0⟩)).map fun (s, r) =>
    if libcIoctl r.ret < 0 then (s, ⟨ascii "ioctl_set_msg failed:" ++ formatInt (libcIoctl r.ret) ++ [10], false⟩)
    else (s, ⟨ascii "set_msg message: " ++ message ++ [10], true⟩)

/-- `msg` of `main` -/
def helloIoctl : List UInt8 := ascii "HELLO IOCTL" ++ [10]

/-- One execution: the device behind it, what it prints, and its status. -/
def main (K : StrncpyFromUser) (env : Env) (s : Device) : Option (Device × Output) :=
  let (s, r) := deviceOpen s
  if r.ret < 0 then
    some (s, ⟨ascii "Can" ++ [39] ++ ascii "t open device file: ioctl_dev" ++ [10], false⟩)
  else
    (getNthByteText K s).bind fun nth =>
      if nth.goesOn then
        (ioctlGetMsg K env s).bind fun (s, get) =>
          if get.goesOn then
            (ioctlSetMsg K env s helloIoctl).map fun (s, set) =>
              ((deviceRelease s).1, ⟨nth.text ++ get.text ++ set.text, set.goesOn⟩)
          else some ((deviceRelease s).1, ⟨nth.text ++ get.text, false⟩)
      else some ((deviceRelease s).1, nth)

/-- Executions one after another: the device behind them, and what each prints. -/
def executions (K : StrncpyFromUser) : List Env → Device → Option (Device × List Output)
  | [], s => some (s, [])
  | env :: envs, s =>
    (main K env s).bind fun (s, out) => (executions K envs s).map fun (s, outs) => (s, out :: outs)

/-! ## What is printed -/

/-- An execution that finds `m`, and can show it. -/
def shows (m : List UInt8) : Output :=
  ⟨ascii "get_nth_byte message:" ++ (m ++ [0]) ++ [10] ++ (ascii "get_msg message:" ++ m ++ [10]) ++
    (ascii "set_msg message: " ++ helloIoctl ++ [10]), true⟩

/-- An execution that finds `front` and behind it a byte from 128 on. -/
def givesUp (front : List UInt8) : Output :=
  ⟨ascii "get_nth_byte message:" ++ front ++ ascii "ioctl_get_nth_byte failed at the " ++
    decimal (front.length + 1) ++ [39] ++ ascii "th byte:" ++ [10], false⟩

/-- The bytes of a message that come through. -/
def clean (m : List UInt8) : List UInt8 := m.takeWhile fun b => decide (b < 128)

/-- The device is closed and holds `m`. -/
structure Holds (s : Device) (m : List UInt8) : Prop where
  closed : s.deviceOpen = 0
  nul : 0 ∉ m
  length : m.length < bufLen
  text : ∃ t, s.msg = m ++ 0 :: t

section
variable {K : StrncpyFromUser} {s : Device} {m : List UInt8} {env : Env} {envs : List Env}

theorem load_putUser (stack : Mem) (m bs : List UInt8) (k : Nat) (hm : load stack 0 k = m) (hk : m.length = k) :
    load (putUser stack (putsAt k bs ++ [(k + bs.length, 0)])) 0 (k + bs.length + 1) = m ++ bs ++ [0] := by
  induction bs generalizing stack m k with
  | nil =>
    have h := load_store_concat stack 0 k [0]
    rw [Nat.zero_add, hm] at h
    rw [List.append_nil]
    exact h
  | cons b bs ih =>
    have h := load_store_concat stack 0 k [b]
    rw [Nat.zero_add, hm] at h
    have hnext := ih (store stack k [b]) (m ++ [b]) (k + 1) h (by rw [List.length_append, hk]; rfl)
    have hlen : k + (b :: bs).length = k + 1 + bs.length := by
      rw [List.length_cons]
      omega
    rw [hlen, putsAt, List.cons_append]
    show load (putUser (store stack k [b]) _) 0 _ = _
    rw [hnext, List.append_assoc m [b] bs, List.singleton_append]

/-- The array of `ioctl_get_msg` ends up with the message and its NUL in front. -/
theorem cstr_message (env : Env) (hnul : 0 ∉ m) (hlen : m.length < bufLen) :
    cstr (load (putUser env.stack (putsAt 0 m ++ [(m.length, 0)])) 0 100) = m := by
  have hbuf : bufLen = 80 := rfl
  have hload := load_putUser env.stack [] m 0 rfl rfl
  rw [Nat.zero_add, List.nil_append] at hload
  obtain ⟨k, hk⟩ : ∃ k, 100 = m.length + 1 + k := ⟨100 - (m.length + 1), by omega⟩
  rw [hk, load_append, hload, List.append_assoc, List.singleton_append, cstr_append_zero hnul]

theorem deviceOpen_of_closed (h : s.deviceOpen = 0) :
    deviceOpen s = ({ s with deviceOpen := 1, msgPtr := some 0 }, ⟨0, []⟩) := by
  rw [deviceOpen, if_neg (not_not.2 h), h]
  rfl

/-- **One execution** on a device with a message that can be printed byte by byte. -/
theorem main_of_lt (h : Holds s m) (hall : ∀ b ∈ m, b < 128) (env : Env) :
    ∃ s', main K env s = some (s', shows m) ∧ Holds s' helloIoctl := by
  obtain ⟨t, htext⟩ := h.text
  set s₁ : Device := { s with deviceOpen := 1, msgPtr := some 0 } with hs₁
  have hnth : getNthByteText K s₁ = some ⟨ascii "get_nth_byte message:" ++ (m ++ [0]) ++ [10], true⟩ := by
    have hloop : ioctlGetNthByte K s₁ = some (m ++ [0], .returned) := ioctlGetNthByte_of_lt h.nul h.length htext hall
    rw [getNthByteText, hloop]
    rfl
  -- the message is read, and the position moves
  have hremaining : Remaining s₁ m := ⟨h.nul, 0, t, rfl, htext⟩
  obtain ⟨s₂, hget, -, -, hopen₂⟩ := @Remaining.perform K m s₁ hremaining .getMsg
  have htake : m.take Reading.getMsg.requested = m := by
    have hlen := h.length
    have hbuf : bufLen = 80 := rfl
    refine List.take_of_length_le ?_
    show m.length ≤ 99
    omega
  rw [htake] at hget
  have hgetMsg : ioctlGetMsg K env s₁ = some (s₂, ⟨ascii "get_msg message:" ++ m ++ [10], true⟩) := by
    change deviceIoctl K s₁ .getMsg = _ at hget
    rw [ioctlGetMsg, hget, Option.map_some]
    show some (if libcIoctl 0 < 0 then _ else _) = _
    rw [if_neg (by decide)]
    show some (s₂, (⟨_ ++ cstr (load (putUser env.stack (putsAt 0 m ++ [(m.length, 0)])) 0 100) ++ _, _⟩ : Output)) = _
    rw [cstr_message env h.nul h.length]
  -- the own message is stored over it
  obtain ⟨s₃, r, rest, hset, -, hmsg, hopen₃⟩ := @perform_stores helloIoctl K s₂
    (.deviceIoctl (.setMsg ⟨helloIoctl ++ 0 :: env.behind, 0⟩))
    ⟨by decide, _, rfl, by rw [← List.singleton_append, ← List.append_assoc]; exact List.prefix_append _ _⟩
    (by decide)
  have hret : r.ret = 0 := by
    have heq := congrArg (fun p => p.map fun q : Device × Result => q.2.ret) hset
    exact (Option.some.inj heq).symm
  have hsetMsg : ioctlSetMsg K env s₂ helloIoctl =
      some (s₃, ⟨ascii "set_msg message: " ++ helloIoctl ++ [10], true⟩) := by
    have hcall : deviceIoctl K s₂ (.setMsg ⟨helloIoctl ++ 0 :: env.behind, 0⟩) = some (s₃, r) := hset
    rw [ioctlSetMsg, hcall, Option.map_some]
    show some (if libcIoctl r.ret < 0 then _ else _) = _
    rw [hret, if_neg (by decide)]
  refine ⟨(deviceRelease s₃).1, ?_, ?_, by decide, by decide, rest, hmsg⟩
  · rw [main, deviceOpen_of_closed h.closed]
    show (if (0 : Int) < 0 then _ else (getNthByteText K s₁).bind _) = _
    rw [if_neg (by decide), hnth, Option.bind_some, if_pos rfl, hgetMsg, Option.bind_some]
    simp only
    rw [if_pos trivial, hsetMsg]
    rfl
  · show s₃.deviceOpen - 1 = 0
    rw [hopen₃, hopen₂]
    rfl

/-- On any other it gives up, and nothing changes but the position. -/
theorem main_of_not_lt (h : Holds s m) (hnot : ¬ ∀ b ∈ m, b < 128) (env : Env) :
    ∃ s', main K env s = some (s', givesUp (clean m)) ∧ Holds s' m ∧ s'.msg = s.msg := by
  obtain ⟨t, htext⟩ := h.text
  set s₁ : Device := { s with deviceOpen := 1, msgPtr := some 0 } with hs₁
  have hclean : ∀ b ∈ clean m, b < 128 := fun b hb =>
    of_decide_eq_true (List.mem_takeWhile_imp (p := fun b : UInt8 => decide (b < 128)) hb)
  have hsplit := List.takeWhile_append_dropWhile (p := fun b : UInt8 => decide (b < 128)) (l := m)
  cases hrest : m.dropWhile fun b => decide (b < 128) with
  | nil =>
    rw [hrest, List.append_nil] at hsplit
    rw [← hsplit] at hnot
    exact absurd hclean hnot
  | cons b rest =>
    have hb : ¬ b < 128 := by
      have hhead := List.head_dropWhile_not (p := fun b : UInt8 => decide (b < 128)) (l := m)
        (by rw [hrest]; exact List.cons_ne_nil b rest)
      simpa only [hrest, List.head_cons, decide_eq_false_iff_not] using hhead
    rw [hrest] at hsplit
    have hnul : 0 ∉ clean m := fun hz => h.nul (List.takeWhile_subset _ hz)
    have hlen : (clean m).length < bufLen :=
      Nat.lt_of_le_of_lt (List.takeWhile_prefix _).length_le h.length
    have hmsg : s₁.msg = clean m ++ b :: (rest ++ 0 :: t) := by
      show s.msg = _
      rw [htext, ← List.cons_append, ← List.append_assoc, clean, hsplit]
    have hnth : getNthByteText K s₁ = some (givesUp (clean m)) := by
      rw [getNthByteText, ioctlGetNthByte_of_le hnul hclean hb hlen hmsg]
      rfl
    refine ⟨(deviceRelease s₁).1, ?_, ⟨rfl, h.nul, h.length, t, htext⟩, rfl⟩
    rw [main, deviceOpen_of_closed h.closed]
    show (if (0 : Int) < 0 then _ else (getNthByteText K s₁).bind _) = _
    rw [if_neg (by decide), hnth, Option.bind_some]
    rfl

theorem executions_of_lt (h : Holds s m) (hall : ∀ b ∈ m, b < 128) (env : Env) (envs : List Env) :
    ∃ s', executions K (env :: envs) s =
        some (s', shows m :: List.replicate envs.length (shows helloIoctl)) ∧ Holds s' helloIoctl := by
  induction envs generalizing s m env with
  | nil =>
    obtain ⟨s', hmain, hholds⟩ := main_of_lt h hall env
    refine ⟨s', ?_, hholds⟩
    rw [executions, hmain]
    rfl
  | cons env' envs ih =>
    obtain ⟨s₁, hmain, hholds⟩ := main_of_lt h hall env
    obtain ⟨s', hrest, hholds'⟩ := ih hholds (by decide +kernel) env'
    refine ⟨s', ?_, hholds'⟩
    rw [executions, hmain, Option.bind_some]
    simp only
    rw [hrest]
    rfl

theorem executions_of_not_lt (h : Holds s m) (hnot : ¬ ∀ b ∈ m, b < 128) (envs : List Env) :
    ∃ s', executions K envs s = some (s', List.replicate envs.length (givesUp (clean m))) ∧ Holds s' m ∧
      s'.msg = s.msg := by
  induction envs generalizing s with
  | nil => exact ⟨s, rfl, h, rfl⟩
  | cons env envs ih =>
    obtain ⟨s₁, hmain, hholds, hmsg⟩ := main_of_not_lt h hnot env
    obtain ⟨s', hrest, hholds', hmsg'⟩ := ih hholds
    refine ⟨s', ?_, hholds', hmsg'.trans hmsg⟩
    rw [executions, hmain, Option.bind_some]
    simp only
    rw [hrest]
    rfl

end

/-- **Executions.**  On a closed device that holds `m`, any number of executions: when all bytes of `m` are
below 128 the first shows `m`, every later one "HELLO IOCTL", and that is what the device is left with;
otherwise all of them give up at the same byte, and the device keeps `m`. -/
theorem executions_print (K : StrncpyFromUser) {s : Device} {m : List UInt8} (h : Holds s m) (env : Env)
    (envs : List Env) :
    ∃ s' outs, executions K (env :: envs) s = some (s', outs) ∧
      ((∀ b ∈ m, b < 128) → Holds s' helloIoctl ∧
        outs = shows m :: List.replicate envs.length (shows helloIoctl)) ∧
      ((¬ ∀ b ∈ m, b < 128) → Holds s' m ∧ s'.msg = s.msg ∧
        outs = List.replicate (envs.length + 1) (givesUp (clean m))) := by
  by_cases hall : ∀ b ∈ m, b < 128
  · obtain ⟨s', hrun, hholds⟩ := executions_of_lt h hall env envs
    exact ⟨s', _, hrun, fun _ => ⟨hholds, rfl⟩, fun hnot => absurd hall hnot⟩
  · obtain ⟨s', hrun, hholds, hmsg⟩ := executions_of_not_lt h hall (env :: envs)
    exact ⟨s', _, hrun, fun hlt => absurd hlt hall, fun _ => ⟨hholds, hmsg, rfl⟩⟩

/-- Three executions after the module is loaded. -/
theorem executions_print_loaded :
    ∃ s', executions byteCopy [⟨fun _ => 7, []⟩, ⟨fun _ => 7, []⟩, ⟨fun _ => 0, [65]⟩] start.device =
      some (s', [shows [], shows helloIoctl, shows helloIoctl]) := by
  have hstart : Holds start.device [] := ⟨rfl, List.not_mem_nil, by decide, List.replicate 79 0, rfl⟩
  obtain ⟨s', outs, hrun, hlt, -⟩ :=
    executions_print byteCopy hstart ⟨fun _ => 7, []⟩ [⟨fun _ => 7, []⟩, ⟨fun _ => 0, [65]⟩]
  obtain ⟨-, rfl⟩ := hlt fun b hb => absurd hb List.not_mem_nil
  exact ⟨s', hrun⟩

end Eltex.IoctlDev
