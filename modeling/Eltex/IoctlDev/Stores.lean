import Eltex.IoctlDev.Device

/-!
# What a store takes and what it leaves

`device_write` does not use the length it is given: it copies up to a NUL or `BUF_LEN` bytes.  The
length is kept where that much is not copied anyway, and where a NUL comes before it, as long as
nothing from behind the length comes to stand behind the NUL (`honours_iff`): a copy byte by byte
stores nothing there (`honours_byteCopy_iff`), one word by word may.  `IOCTL_SET_MSG`, which passes
on what its own copy returned, never gives it the NUL (`setMsg_honours_iff`).

Neither looks at what a copy returns before `msg_ptr` is set, and `IOCTL_SET_MSG` not at all
(`failed_store_iff`).
-/

namespace Eltex.IoctlDev

open CString UserCopy

/-- The two strings have the same first `length` bytes. -/
structure Agree (length : Nat) (u' u : UserString) : Prop where
  bytes : u'.bytes.take length = u.bytes.take length
  copied : u'.copied = u.copied

/-- The call depends on the first `length` bytes of the buffer only, and returns no more. -/
structure Honours (K : StrncpyFromUser) (s : Device) (u : UserString) (length : Nat) : Prop where
  same : ∀ u', Agree length u' u → deviceWrite K s u' length = deviceWrite K s u length
  ret_le : 0 ≤ (deviceWrite K s u length).2.ret → (deviceWrite K s u length).2.ret ≤ length

/-- What stands behind the NUL of a string that has been copied to `msg`. -/
def behindNul (K : StrncpyFromUser) (s : Device) (u : UserString) : List UInt8 :=
  (K.copy s.msg u bufLen).2.drop ((cstr u.bytes).length + 1)

/-! ## What a copy depends on -/

section
variable {K : StrncpyFromUser} {s : Device} {u u' : UserString} {length : Nat}

theorem eq_of_take_eq_of_length_lt {l l' : List UInt8} (h : l'.take length = l.take length)
    (hlt : l.length < length) : l' = l := by
  rw [List.take_of_length_le hlt.le] at h
  have hle : l'.length ≤ length := by
    apply Nat.le_of_not_lt
    intro hgt
    have hlen := congrArg List.length h
    rw [List.length_take_of_le hgt.le] at hlen
    omega
  rwa [List.take_of_length_le hle] at h

theorem deviceWrite_congr (h : K.copy s.msg u' bufLen = K.copy s.msg u bufLen) :
    deviceWrite K s u' length = deviceWrite K s u length := by
  have hcopy : copyMsg K s u' = copyMsg K s u := by
    unfold copyMsg
    simp only [h]
  unfold deviceWrite
  rw [hcopy, h]

theorem cstr_eq_of_mem_take (h : 0 ∈ u.bytes.take length) : cstr u.bytes = cstr (u.bytes.take length) := by
  rw [← cstr_append_of_mem h (u.bytes.drop length), List.take_append_drop]

/-- With a NUL in its first `length` bytes a string is copied, and what is behind it. -/
theorem copy_of_mem (h : 0 ∈ u.bytes.take length) (hle : length ≤ bufLen) :
    K.copy s.msg u bufLen =
      (((cstr u.bytes).length : Int), cstr u.bytes ++ 0 :: behindNul K s u) := by
  have hlt := cstr_length_lt_of_mem h
  rw [List.length_take, ← cstr_eq_of_mem_take h] at hlt
  have hmem : 0 ∈ u.bytes := List.mem_of_mem_take h
  obtain ⟨t, ht⟩ := K.copy_string s.length_msg.ge (zero_not_mem_cstr u.bytes) (by omega)
    (cstr_append_zero_isPrefix hmem)
  have hbehind : behindNul K s u = t := by
    unfold behindNul
    rw [ht, ← List.singleton_append, ← List.append_assoc]
    exact List.drop_left' (by rw [List.length_append]; rfl)
  rw [hbehind, ht]

/-- Without a NUL in them, other bytes behind the first `length` change the result. -/
theorem fst_copy_behind (hnul : 0 ∉ u.bytes.take length) (hle : length ≤ u.bytes.length)
    (hlt : length < bufLen) (copied : Nat) :
    (K.copy s.msg ⟨u.bytes.take length ++ [0], copied⟩ bufLen).1 = length ∧
      (K.copy s.msg ⟨u.bytes.take length ++ [1, 0], copied⟩ bufLen).1 = length + 1 := by
  have hlen := List.length_take_of_le hle
  refine ⟨?_, ?_⟩
  · rw [(K.whole s.length_msg.ge hnul (by omega) (List.prefix_refl _)).1, hlen]
  · have hone : 0 ∉ u.bytes.take length ++ [1] := by
      rw [List.mem_append, List.mem_singleton]
      exact fun h => h.elim hnul (by decide)
    have hlen' : (u.bytes.take length ++ [1]).length = length + 1 := by
      rw [List.length_append, hlen]
      rfl
    have hsplit : u.bytes.take length ++ [1, 0] = (u.bytes.take length ++ [1]) ++ [0] := by
      rw [List.append_assoc]
      rfl
    rw [hsplit]
    by_cases hroom : length + 1 < bufLen
    · rw [(K.whole s.length_msg.ge hone (by omega) (List.prefix_refl _)).1, hlen']
      rfl
    · -- the limit is reached before the NUL
      have htake : ((u.bytes.take length ++ [1]) ++ [0]).take bufLen = u.bytes.take length ++ [1] := by
        rw [List.take_append_of_le_length (by omega), List.take_of_length_le (by omega)]
      have hwhole : bufLen ≤ ((u.bytes.take length ++ [1]) ++ [0]).length := by
        rw [List.length_append, hlen']
        omega
      have hcut := (@StrncpyFromUser.cut K s.msg ⟨(u.bytes.take length ++ [1]) ++ [0], copied⟩ bufLen
        s.length_msg.ge (by rw [htake]; exact hone) hwhole).1
      rw [hcut]
      omega

end

section
variable {K : StrncpyFromUser} {s : Device} {u : UserString} {length : Nat}

/-- No more than `BUF_LEN` bytes are looked at. -/
theorem honours_of_le (h : bufLen ≤ length) : Honours K s u length := by
  have hbuf : bufLen = 80 := rfl
  refine ⟨fun u' hu' => deviceWrite_congr (K.reads s.msg ?_ hu'.copied), fun _ => ?_⟩
  · have hboth := congrArg (List.take bufLen) hu'.bytes
    rwa [List.take_take, List.take_take, Nat.min_eq_left h] at hboth
  · have hle := K.copy_fst_le s.length_msg.ge u
    show (K.copy _ _ _).1 ≤ (length : Int)
    omega

/-- Nor is anything behind the end of memory. -/
theorem honours_of_length_lt (h : u.bytes.length < length) : Honours K s u length := by
  refine ⟨fun u' hu' => deviceWrite_congr (K.reads s.msg ?_ hu'.copied), fun hpos => ?_⟩
  · rw [eq_of_take_eq_of_length_lt hu'.bytes h]
  · have hle := K.copy_fst_le_length s.length_msg.ge hpos
    show (K.copy _ _ _).1 ≤ (length : Int)
    omega

theorem cstr_eq_of_agree {u' : UserString} (hmem : 0 ∈ u.bytes.take length) (hu' : Agree length u' u) :
    cstr u'.bytes = cstr u.bytes := by
  have hmem' : 0 ∈ u'.bytes.take length := by
    rw [hu'.bytes]
    exact hmem
  rw [cstr_eq_of_mem_take hmem, cstr_eq_of_mem_take hmem', hu'.bytes]

/-- A NUL within the length keeps it, but for what comes to stand behind the NUL. -/
theorem honours_of_mem (hmem : 0 ∈ u.bytes.take length) (hle : length ≤ bufLen)
    (hbehind : ∀ u', Agree length u' u → behindNul K s u' = behindNul K s u) : Honours K s u length := by
  refine ⟨fun u' hu' => deviceWrite_congr ?_, fun _ => ?_⟩
  · have hmem' : 0 ∈ u'.bytes.take length := by
      rw [hu'.bytes]
      exact hmem
    rw [copy_of_mem hmem hle, copy_of_mem hmem' hle, hbehind u' hu', cstr_eq_of_agree hmem hu']
  · have hcstr := cstr_length_lt_of_mem hmem
    rw [List.length_take, ← cstr_eq_of_mem_take hmem] at hcstr
    show (K.copy _ _ _).1 ≤ (length : Int)
    rw [copy_of_mem hmem hle]
    show ((cstr _).length : Int) ≤ length
    omega

/-- Where neither the limit nor the end of memory comes before the length, a NUL does. -/
theorem mem_of_honours (h : Honours K s u length) (hlt : length < bufLen) (hle : length ≤ u.bytes.length) :
    0 ∈ u.bytes.take length := by
  by_contra hnul
  have hlen := List.length_take_of_le hle
  obtain ⟨hret, hret'⟩ := @fst_copy_behind K s u length hnul hle hlt u.copied
  have hsame := h.same ⟨u.bytes.take length ++ [0], u.copied⟩ ⟨List.take_left' hlen, rfl⟩
  have hsame' := h.same ⟨u.bytes.take length ++ [1, 0], u.copied⟩ ⟨List.take_left' hlen, rfl⟩
  have heq := congrArg (fun r => r.2.ret) (hsame.trans hsame'.symm)
  change (K.copy _ _ _).1 = (K.copy _ _ _).1 at heq
  rw [hret, hret'] at heq
  omega

/-- **The length is kept** just when it is `BUF_LEN` at least, or the end of memory comes before it,
or a NUL does and what the copy leaves behind that is the same for all strings that begin so. -/
theorem honours_iff (K : StrncpyFromUser) (s : Device) (u : UserString) (length : Nat) :
    Honours K s u length ↔ bufLen ≤ length ∨ u.bytes.length < length ∨
      (0 ∈ u.bytes.take length ∧ ∀ u', Agree length u' u → behindNul K s u' = behindNul K s u) := by
  constructor
  · intro h
    rw [or_iff_not_imp_left, or_iff_not_imp_left]
    intro hlt hle
    have hmem := mem_of_honours h (Nat.lt_of_not_le hlt) (Nat.le_of_not_lt hle)
    refine ⟨hmem, fun u' hu' => ?_⟩
    have hmsg := congrArg (fun r => r.1.msg) (h.same u' hu')
    change (K.copy _ _ _).2 = (K.copy _ _ _).2 at hmsg
    unfold behindNul
    rw [hmsg, cstr_eq_of_agree hmem hu']
  · rintro (h | h | ⟨hmem, hbehind⟩)
    · exact honours_of_le h
    · exact honours_of_length_lt h
    · rcases Nat.le_total bufLen length with hle | hle
      · exact honours_of_le hle
      · exact honours_of_mem hmem hle hbehind

/-- Byte by byte a NUL is enough. -/
theorem honours_byteCopy_iff (s : Device) (u : UserString) (length : Nat) :
    Honours byteCopy s u length ↔
      bufLen ≤ length ∨ u.bytes.length < length ∨ 0 ∈ u.bytes.take length := by
  constructor
  · intro h
    rw [or_iff_not_imp_left, or_iff_not_imp_left]
    exact fun hlt hle => mem_of_honours h (Nat.lt_of_not_le hlt) (Nat.le_of_not_lt hle)
  · rintro (h | h | hmem)
    · exact honours_of_le h
    · exact honours_of_length_lt h
    · rcases Nat.le_total bufLen length with hle | hle
      · exact honours_of_le hle
      · have hbehind : ∀ v : UserString, 0 ∈ v.bytes.take length →
            behindNul byteCopy s v = s.msg.drop ((cstr v.bytes).length + 1) := by
          intro v hv
          have hv' : 0 ∈ v.bytes.take bufLen := (List.take_prefix_take_left hle).subset hv
          have hlen : (cstr v.bytes).length + 1 = (cstr v.bytes ++ [0]).length := by
            rw [List.length_append, List.length_singleton]
          show (copyBytes s.msg v bufLen).2.drop _ = _
          rw [copyBytes_of_mem hv', ← cstr_eq_of_mem_take hv', hlen, drop_storeFront]
        refine honours_of_mem hmem hle fun u' hu' => ?_
        have hmem' : 0 ∈ u'.bytes.take length := by
          rw [hu'.bytes]
          exact hmem
        rw [hbehind u hmem, hbehind u' hmem', cstr_eq_of_agree hmem hu']

/-- `device_write` of "ABCDEF" with length 3 stores all of it. -/
theorem honours_not_all :
    ¬ Honours byteCopy start.device ⟨[65, 66, 67, 68, 69, 70, 0], 0⟩ 3 ∧
      (deviceWrite byteCopy start.device ⟨[65, 66, 67, 68, 69, 70, 0], 0⟩ 3).2.ret = 6 ∧
      (deviceWrite byteCopy start.device ⟨[65, 66, 67, 68, 69, 70, 0], 0⟩ 3).1.msg.take 7 =
        [65, 66, 67, 68, 69, 70, 0] := by
  refine ⟨fun h => ?_, by decide, by decide⟩
  exact absurd (h.ret_le (by decide)) (by decide)

/-- `IOCTL_SET_MSG` passes on the length of the string, without its NUL. -/
theorem setMsg_honours_iff (K : StrncpyFromUser) (s : Device) (u : UserString) :
    Honours K (copyMsg K s u) u ((K.copy s.msg u bufLen).1 % 2 ^ 64).toNat ↔ 0 ∉ u.bytes.take bufLen := by
  have hbuf : bufLen = 80 := rfl
  obtain ⟨r, hr, hcopied⟩ := exists_copied K s.length_msg.ge u
  rw [hr]
  cases hcopied with
  | whole m t nul length bytes =>
    have hle := bytes.length_le
    rw [List.length_append, List.length_singleton] at hle
    have htoNat : ((m.length : Int) % 2 ^ 64).toNat = m.length := by omega
    have hmem : 0 ∈ u.bytes.take bufLen := by
      have hprefix : m ++ [0] <+: u.bytes.take bufLen := by
        apply List.prefix_take_iff.2
        refine ⟨bytes, ?_⟩
        rw [List.length_append, List.length_singleton]
        omega
      exact hprefix.subset (List.mem_append_right _ List.mem_cons_self)
    have htake : u.bytes.take m.length = m :=
      (List.prefix_iff_eq_take.1 ((List.prefix_append _ _).trans bytes)).symm
    simp only [htoNat]
    refine iff_of_false (fun h => ?_) fun h => h hmem
    have hfirst := mem_of_honours h length (by omega)
    rw [htake] at hfirst
    exact nul hfirst
  | cut t nul length =>
    refine iff_of_true (honours_of_le ?_) nul
    show bufLen ≤ ((bufLen : Int) % 2 ^ 64).toNat
    omega
  | failed nul length =>
    refine iff_of_true (honours_of_le ?_) fun h => nul (List.mem_of_mem_take h)
    show 80 ≤ (-eFault % 2 ^ 64).toNat
    decide

end

/-! ## Stores that fail -/

/-- Memory ends before a NUL and before `BUF_LEN` bytes: `strncpy_from_user` fails. -/
def Faults (u : UserString) : Prop := 0 ∉ u.bytes ∧ u.bytes.length < bufLen

instance (u : UserString) : Decidable (Faults u) := inferInstanceAs (Decidable (_ ∧ _))

/-- The message and the position are as before, and the error is returned. -/
structure Unstored (s s' : Device) (r : Result) : Prop where
  msg : s'.msg = s.msg
  msgPtr : s'.msgPtr = s.msgPtr
  ret : r.ret < 0

section
variable {K : StrncpyFromUser} {c : Call} {u : UserString}

/-- **A store that fails** leaves the device as it was and says so just when it is `device_write`, the
position is at the start, and what was copied is what `msg` has there. -/
theorem failed_store_iff (K : StrncpyFromUser) (s : Device) (hc : c.message = some u) (hu : Faults u) :
    ∃ s' r, perform K s c = some (s', r) ∧
      (Unstored s s' r ↔ (∃ length, c = .deviceWrite u length) ∧ s.msgPtr = some 0 ∧
        u.bytes.take u.copied <+: s.msg) := by
  cases c with
  | deviceWrite buffer length =>
    obtain rfl := Option.some.inj hc
    have hcopy := K.failed s.length_msg.ge hu.1 hu.2
    have hmsg : (copyMsg K s buffer).msg = storeFront (buffer.bytes.take buffer.copied) s.msg :=
      congrArg Prod.snd hcopy
    have hret : (K.copy s.msg buffer bufLen).1 < 0 := by
      rw [hcopy]
      show -eFault < 0
      decide
    refine ⟨_, _, rfl, ?_⟩
    constructor
    · rintro ⟨hsame, hptr, -⟩
      exact ⟨⟨length, rfl⟩, hptr.symm, storeFront_eq_self_iff.1 (hmsg.symm.trans hsame)⟩
    · rintro ⟨-, hptr, hprefix⟩
      exact ⟨hmsg.trans (storeFront_eq_self_iff.2 hprefix), hptr.symm, hret⟩
  | deviceIoctl ioctl =>
    cases ioctl with
    | setMsg message =>
      refine ⟨_, _, rfl, iff_of_false ?_ ?_⟩
      · rintro ⟨-, -, hret⟩
        exact absurd hret (by decide)
      · rintro ⟨⟨length, hcall⟩, -⟩
        cases hcall
    | getMsg => cases hc
    | getNthByte n => cases hc
    | other => cases hc
  | deviceOpen => cases hc
  | deviceRelease => cases hc
  | deviceRead length => cases hc

end

/-- A device open at its start, with the message "HI". -/
def holdingHi : Device := ⟨1, [72, 73] ++ List.replicate 78 0, some 0, rfl⟩

/-- A copy of "HI" over itself that fails in the third byte leaves no trace; the same of "XY" does. -/
theorem failed_store_same :
    (∃ s' r, perform byteCopy holdingHi (.deviceWrite ⟨[72, 73], 2⟩ 5) = some (s', r) ∧
      Unstored holdingHi s' r) ∧
    ∃ s' r, perform byteCopy holdingHi (.deviceWrite ⟨[88, 89], 2⟩ 5) = some (s', r) ∧
      ¬ Unstored holdingHi s' r := by
  obtain ⟨s', r, hperform, hiff⟩ :=
    failed_store_iff (c := .deviceWrite ⟨[72, 73], 2⟩ 5) (u := ⟨[72, 73], 2⟩) byteCopy holdingHi rfl (by decide)
  obtain ⟨t', q, hperform', hiff'⟩ :=
    failed_store_iff (c := .deviceWrite ⟨[88, 89], 2⟩ 5) (u := ⟨[88, 89], 2⟩) byteCopy holdingHi rfl (by decide)
  refine ⟨⟨s', r, hperform, hiff.2 ⟨⟨5, rfl⟩, rfl, by decide⟩⟩, t', q, hperform', fun h => ?_⟩
  obtain ⟨-, -, hprefix⟩ := hiff'.1 h
  exact absurd hprefix (by decide)

/-- `IOCTL_SET_MSG` stores two bytes and returns `SUCCESS`; `device_write` sets the position back. -/
theorem failed_store_lost :
    Faults ⟨[88, 89], 2⟩ ∧
      (perform byteCopy { holdingHi with msgPtr := some 2 } (.deviceIoctl (.setMsg ⟨[88, 89], 2⟩))).map
          (fun p => (p.1.msg.take 3, p.1.msgPtr, p.2.ret)) = some ([88, 89, 0], some 0, 0) ∧
      (perform byteCopy { holdingHi with msgPtr := some 2 } (.deviceWrite ⟨[], 0⟩ 1)).map
          (fun p => (p.1.msg.take 3, p.1.msgPtr, p.2.ret)) = some ([72, 73, 0], some 0, -eFault) := by
  refine ⟨by decide, by decide, by decide⟩

end Eltex.IoctlDev
