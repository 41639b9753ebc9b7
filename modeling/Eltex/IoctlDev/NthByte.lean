import Eltex.IoctlDev.ReadStream

/-!
# Reading the message byte by byte

`ioctl_get_nth_byte` asks for byte 0, 1, 2, ... until it gets a NUL, and prints what it gets.  A byte
comes back as the value of the system call: `device_ioctl` extends its sign, the C library makes -1
of what is negative, and the client takes what is negative for an error.

    byte          device_ioctl      ioctl        the client
    0 .. 127      0 .. 127          0 .. 127     prints it, and ends at 0
    128 .. 255    -128 .. -1        -1           gives up

So the loop and `IOCTL_GET_MSG` agree just when every byte is below 128 (`readings_agree_iff`).
-/

namespace Eltex.IoctlDev

open CString Runs UserCopy

/-- The value of the C library's `ioctl` for what the system call returned. -/
def libcIoctl (ret : Int) : Int := if ret < 0 then -1 else ret

/-- How `ioctl_get_nth_byte` ends. -/
inductive Exit where
  | returned
  /-- `exit(-1)` after the message that byte `i` failed -/
  | failed (i : Nat)
deriving Repr, DecidableEq

/-- The `do` loop at `i`, with the iterations left: the bytes put out, and how it ends. -/
def getNthByteLoop (K : StrncpyFromUser) (s : Device) : Nat → Nat → Option (List UInt8 × Exit)
  | 0, _ => none
  | n + 1, i =>
    (deviceIoctl K s (.getNthByte i)).bind fun (s, r) =>
      let c := Int8.ofInt (libcIoctl r.ret)
      if c < 0 then some ([], .failed (i + 1))
      else if c ≠ 0 then (getNthByteLoop K s n (i + 1)).map fun (out, e) => (c.toUInt8 :: out, e)
      else some ([c.toUInt8], .returned)

/-- No iteration but one for each byte of `msg` can be made. -/
def ioctlGetNthByte (K : StrncpyFromUser) (s : Device) : Option (List UInt8 × Exit) :=
  getNthByteLoop K s (bufLen + 1) 0

/-! ## One byte -/

section
variable {K : StrncpyFromUser} {s : Device} {b : UInt8} {m front rest t : List UInt8} {i n : Nat}

theorem toInt_toInt8 (b : UInt8) :
    b.toInt8.toInt = if b.toNat < 128 then (b.toNat : Int) else b.toNat - 256 := by
  show b.toBitVec.toInt = _
  rw [BitVec.toInt_eq_toNat_cond]
  show (if 2 * b.toNat < 2 ^ 8 then (b.toNat : Int) else b.toNat - 2 ^ 8) = _
  split <;> split <;> omega

theorem lt_128_iff : b < 128 ↔ b.toNat < 128 := UInt8.lt_iff_toNat_lt

/-- A byte below 128 comes through. -/
theorem ofInt_libcIoctl_of_lt (hb : b < 128) :
    Int8.ofInt (libcIoctl b.toInt8.toInt) = b.toInt8 ∧ ¬ b.toInt8 < 0 := by
  have hnonneg : 0 ≤ b.toInt8.toInt := by
    rw [toInt_toInt8, if_pos (lt_128_iff.1 hb)]
    omega
  refine ⟨?_, fun hneg => ?_⟩
  · rw [libcIoctl, if_neg (by omega), Int8.ofInt_toInt]
  · have hlt := Int8.lt_iff_toInt_lt.1 hneg
    change b.toInt8.toInt < 0 at hlt
    omega

/-- The others are taken for errors. -/
theorem ofInt_libcIoctl_of_le (hb : ¬ b < 128) : Int8.ofInt (libcIoctl b.toInt8.toInt) < 0 := by
  have hlt := b.toNat_lt
  have hneg : b.toInt8.toInt < 0 := by
    rw [toInt_toInt8, if_neg fun h => hb (lt_128_iff.2 h)]
    omega
  rw [libcIoctl, if_pos hneg]
  decide

theorem toInt8_eq_zero_iff : b.toInt8 = 0 ↔ b = 0 := by
  constructor
  · intro h
    have hb := congrArg Int8.toUInt8 h
    rwa [UInt8.toUInt8_toInt8] at hb
  · rintro rfl
    rfl

theorem getNthByteLoop_succ (h : s.msg[i]? = some b) :
    getNthByteLoop K s (n + 1) i =
      if ¬ b < 128 then some ([], .failed (i + 1))
      else if b ≠ 0 then (getNthByteLoop K s n (i + 1)).map fun (out, e) => (b :: out, e)
      else some ([b], .returned) := by
  have hioctl : deviceIoctl K s (.getNthByte i) = some (s, ⟨b.toInt8.toInt, []⟩) := by
    show (s.msg[i]?).map _ = _
    rw [h]
    rfl
  rw [getNthByteLoop, hioctl, Option.bind_some]
  simp only
  by_cases hb : b < 128
  · obtain ⟨hc, hnonneg⟩ := ofInt_libcIoctl_of_lt hb
    rw [hc, if_neg hnonneg, if_neg (not_not.2 hb), UInt8.toUInt8_toInt8]
    simp only [ne_eq, toInt8_eq_zero_iff]
  · rw [if_pos (ofInt_libcIoctl_of_le hb), if_pos hb]

/-! ## The loop -/

theorem getElem?_of_drop (h : s.msg.drop i = b :: rest) : s.msg[i]? = some b := by
  rw [← Nat.add_zero i, ← List.getElem?_drop, h]
  rfl

theorem drop_succ_of_drop (h : s.msg.drop i = b :: rest) : s.msg.drop (i + 1) = rest := by
  rw [← List.drop_drop, h]
  rfl

/-- It goes through the bytes below 128. -/
theorem getNthByteLoop_append (hnul : 0 ∉ front) (hfront : ∀ b ∈ front, b < 128)
    (h : s.msg.drop i = front ++ rest) :
    getNthByteLoop K s (front.length + n) i =
      (getNthByteLoop K s n (i + front.length)).map fun (out, e) => (front ++ out, e) := by
  induction front generalizing i with
  | nil =>
    rw [List.length_nil, Nat.zero_add, Nat.add_zero]
    cases getNthByteLoop K s n i <;> rfl
  | cons b front ih =>
    have hb : b ≠ 0 := fun hb => hnul (hb ▸ List.mem_cons_self)
    have hlength : (b :: front).length + n = (front.length + n) + 1 := by
      rw [List.length_cons]
      omega
    have hindex : i + (b :: front).length = i + 1 + front.length := by
      rw [List.length_cons]
      omega
    rw [hlength, getNthByteLoop_succ (getElem?_of_drop h), if_neg (not_not.2 (hfront b List.mem_cons_self)),
      if_pos hb, ih (fun hz => hnul (List.mem_cons_of_mem _ hz))
        (fun c hc => hfront c (List.mem_cons_of_mem _ hc)) (drop_succ_of_drop h), hindex]
    cases getNthByteLoop K s n (i + 1 + front.length) <;> rfl

/-- All bytes are below 128: it puts out the message with its NUL. -/
theorem ioctlGetNthByte_of_lt (hnul : 0 ∉ m) (hm : m.length < bufLen) (h : s.msg = m ++ 0 :: t)
    (hall : ∀ b ∈ m, b < 128) : ioctlGetNthByte K s = some (m ++ [0], .returned) := by
  obtain ⟨n, hn⟩ : ∃ n, bufLen + 1 = m.length + (n + 1) := ⟨bufLen - m.length, by omega⟩
  have hget : s.msg[0 + m.length]? = some 0 := by
    rw [h, Nat.zero_add, List.getElem?_append_right (Nat.le_refl _), Nat.sub_self]
    rfl
  rw [ioctlGetNthByte, hn, getNthByteLoop_append hnul hall (by rw [List.drop_zero, h]),
    getNthByteLoop_succ hget, if_neg (by decide), if_neg (by decide)]
  rfl

/-- The first byte from 128 on ends it. -/
theorem ioctlGetNthByte_of_le (hnul : 0 ∉ front) (hfront : ∀ b ∈ front, b < 128) (hb : ¬ b < 128)
    (hm : front.length < bufLen) (h : s.msg = front ++ b :: rest) :
    ioctlGetNthByte K s = some (front, .failed (front.length + 1)) := by
  obtain ⟨n, hn⟩ : ∃ n, bufLen + 1 = front.length + (n + 1) := ⟨bufLen - front.length, by omega⟩
  have hget : s.msg[0 + front.length]? = some b := by
    rw [h, Nat.zero_add, List.getElem?_append_right (Nat.le_refl _), Nat.sub_self]
    rfl
  rw [ioctlGetNthByte, hn, getNthByteLoop_append hnul hfront (by rw [List.drop_zero, h]),
    getNthByteLoop_succ hget, if_pos hb, Nat.zero_add, Option.map_some]
  simp only [List.append_nil]

/-- **The loop** ends with the message just when all its bytes are below 128. -/
theorem ioctlGetNthByte_iff (hnul : 0 ∉ m) (hm : m.length < bufLen) (h : s.msg = m ++ 0 :: t) :
    ioctlGetNthByte K s = some (m ++ [0], .returned) ↔ ∀ b ∈ m, b < 128 := by
  constructor
  · intro hloop
    cases hfirst : m.find? fun b => !decide (b < 128) with
    | none =>
      intro b hb
      have hlt := List.find?_eq_none.1 hfirst b hb
      simpa using hlt
    | some b =>
      obtain ⟨hb, front, rest, rfl, hfront⟩ := List.find?_eq_some_iff_append.1 hfirst
      have hfailed : ioctlGetNthByte K s = some (front, .failed (front.length + 1)) := by
        refine ioctlGetNthByte_of_le (fun hz => hnul (List.mem_append_left _ hz)) (fun c hc => ?_) ?_ ?_
          (h.trans (List.append_assoc _ _ _))
        · have hlt := hfront c hc
          simpa using hlt
        · simpa using hb
        · rw [List.length_append] at hm
          omega
      rw [hfailed] at hloop
      exact absurd (Prod.mk.inj (Option.some.inj hloop)).2 (by simp)
  · exact ioctlGetNthByte_of_lt hnul hm h

end

/-! ## The two readings -/

section
variable {m : List UInt8}

theorem map_snd_putsAt (buffer : Nat) (bytes : List UInt8) : (putsAt buffer bytes).map Prod.snd = bytes := by
  induction bytes generalizing buffer with
  | nil => rfl
  | cons b bytes ih => rw [putsAt, List.map_cons, ih]

/-- **Two ways of reading.**  A message of at most 79 bytes is stored in an open device, which is
closed and opened again.  The client loop returns having put out the bytes `IOCTL_GET_MSG` puts just
when all bytes of the message are below 128. -/
theorem readings_agree_iff (K : StrncpyFromUser) {calls : List Call} {s : Session} {u : UserString}
    (h : session K calls = some s) (hopen : s.device.deviceOpen ≠ 0) (hnul : 0 ∉ m) (hm : m.length ≤ 79)
    (hu : m ++ [0] <+: u.bytes) :
    ∃ t d r, run (step K) s [.deviceIoctl (.setMsg u), .deviceRelease, .deviceOpen] = some t ∧
      perform K t.device (.deviceIoctl .getMsg) = some (d, r) ∧ r.puts.map Prod.snd = m ++ [0] ∧
      (ioctlGetNthByte K t.device = some (r.puts.map Prod.snd, .returned) ↔ ∀ b ∈ m, b < 128) := by
  have hlt : m.length < bufLen := Nat.lt_succ_of_le hm
  have hone := (opened_session h).resolve_left hopen
  obtain ⟨d, r, rest, hperform, -, hmsg, hcount⟩ :=
    @perform_stores m K s.device (.deviceIoctl (.setMsg u)) ⟨hnul, u, rfl, hu⟩ hlt
  have hstep : step K s (.deviceIoctl (.setMsg u)) = some ⟨d, s.results ++ [r]⟩ :=
    step_eq_some_iff.2 ⟨Or.inr hopen, d, r, hperform, rfl⟩
  obtain ⟨t, hreopen, hmsg', hptr, -⟩ := @reopen K ⟨d, s.results ++ [r]⟩ (hcount.trans hone)
  have htext : t.device.msg = m ++ 0 :: rest := hmsg'.trans hmsg
  have hremaining : Remaining t.device m := ⟨hnul, 0, rest, hptr, htext⟩
  obtain ⟨d', hget, -⟩ := @Remaining.perform K m t.device hremaining .getMsg
  have hputs : (Reading.getMsg.answer (m.take Reading.getMsg.requested)).puts.map Prod.snd = m ++ [0] := by
    have htake : m.take Reading.getMsg.requested = m := List.take_of_length_le (hm.trans (by decide))
    rw [htake, Reading.answer, List.map_append, map_snd_putsAt]
    rfl
  refine ⟨t, d', _, ?_, hget, hputs, ?_⟩
  · rw [run_cons, hstep]
    exact hreopen
  · rw [hputs]
    exact ioctlGetNthByte_iff hnul hlt htext

/-- "hi" -/
theorem readings_agree_hi : ∃ t d r,
    run (step byteCopy) ⟨⟨1, List.replicate bufLen 0, some 0, rfl⟩, [⟨0, []⟩]⟩
        [.deviceIoctl (.setMsg ⟨[104, 105, 0], 0⟩), .deviceRelease, .deviceOpen] = some t ∧
      perform byteCopy t.device (.deviceIoctl .getMsg) = some (d, r) ∧
      ioctlGetNthByte byteCopy t.device = some (r.puts.map Prod.snd, .returned) := by
  obtain ⟨t, d, r, hrun, hget, -, hiff⟩ :=
    @readings_agree_iff [104, 105] byteCopy [.deviceOpen]
      ⟨⟨1, List.replicate bufLen 0, some 0, rfl⟩, [⟨0, []⟩]⟩ ⟨[104, 105, 0], 0⟩ rfl (by decide) (by decide)
      (by decide) (List.prefix_refl _)
  exact ⟨t, d, r, hrun, hget, hiff.2 (by decide +kernel)⟩

/-- "é" in Latin-1, the byte 233: the client gives up at once, and `IOCTL_GET_MSG` delivers it. -/
theorem readings_differ :
    ((session byteCopy
        [.deviceOpen, .deviceIoctl (.setMsg ⟨[233, 0], 0⟩), .deviceRelease, .deviceOpen]).map fun s =>
        (ioctlGetNthByte byteCopy s.device,
          (perform byteCopy s.device (.deviceIoctl .getMsg)).map fun p => p.2.puts)) =
      some (some ([], .failed 1), some [(0, 233), (1, 0)]) := by
  decide +kernel

end

end Eltex.IoctlDev
