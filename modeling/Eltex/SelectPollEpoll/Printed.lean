import Eltex.Lib.ReusedBuffer
import Eltex.SelectPollEpoll.Registered

/-!
# What the event loops print

`udpbuf` and `tcpbuf` are zeroed once and shared by all clients.  A message is stored at the start
of its buffer and the buffer is printed with `%s`, whatever number of bytes came, so behind a short
message stands what longer ones left.

The calls of a run are those its loop logs; each prints one line.  When the text is that of the
message is decided by the byte behind it (`printed_own_iff`): for a message that fills its buffer,
by the memory behind the buffer.
-/

namespace Eltex.SelectPollEpoll

open ByteMem CString ReusedBuffer

/-- The size of `udpbuf` and of `tcpbuf`. -/
abbrev bufSize : Nat := 256

/-- The three ways to wait, with what the array of `poll` holds at first. -/
inductive Variant where
  | select
  | poll (junk : Nat → PollFd)
  | epoll

/-- The calls of a run, those of a pass that fails included. -/
def logged (k : Sockets) : Variant → List Pass → List Call
  | .select, passes =>
    match selectRun k passes with
    | .ok s => s.calls
    | .error calls => calls
  | .poll junk, passes =>
    match pollRun k junk passes with
    | .ok s => s.calls
    | .error calls => calls
  | .epoll, passes => (epollRun k passes).calls

inductive Proto where
  | udp
  | tcp
deriving Repr, DecidableEq

/-- The kind of message a call receives. -/
def Call.proto : Call → Option Proto
  | .accept _ _ => none
  | .recvfrom _ => some .udp
  | .recv _ _ => some .tcp

/-- What the `n`-th call finds. -/
structure World where
  /-- the datagram `recvfrom` takes; `none` when it fails -/
  datagram : Nat → Option (List UInt8)
  /-- the bytes waiting for `recv` -/
  stream : Nat → Mem
  /-- the memory behind the buffer that is printed -/
  behind : Nat → List UInt8

/-- The message the `n`-th call stores; both calls are given the size of the buffer. -/
def World.message (w : World) (n : Nat) : Call → Option (List UInt8)
  | .accept _ _ => none
  | .recvfrom _ => (w.datagram n).map fun d => d.take bufSize
  | .recv _ nbytes => if 0 < nbytes then some (load (w.stream n) 0 (min nbytes.toNat bufSize)) else none

/-- A line of output; a text is `none` when no NUL ends it in memory. -/
inductive Line where
  | newClient
  | disconnect
  | clientDisconnect
  | receive (proto : Proto) (text : Option (List UInt8))
deriving Repr, DecidableEq

/-- The line for a client that leaves. -/
def Variant.leaves : Variant → Line
  | .select => .disconnect
  | .poll _ => .disconnect
  | .epoll => .clientDisconnect

structure Output where
  udpbuf : Mem
  tcpbuf : Mem
  lines : List Line

/-- `buf` after a call that stores `message` or fails. -/
def recvInto (buf : Mem) : Option (List UInt8) → Mem
  | some d => store buf 0 d
  | none => buf

section
variable (v : Variant) (w : World)

/-- What serving one call stores and prints. -/
def printCall (o : Output) (c : Call) : Output :=
  let n := o.lines.length
  match c with
  | .accept _ _ => { o with lines := o.lines ++ [.newClient] }
  | .recvfrom _ =>
    let udpbuf := recvInto o.udpbuf (w.message n c)
    let text := shown (load udpbuf 0 bufSize ++ w.behind n)
    { o with udpbuf := udpbuf, lines := o.lines ++ [.receive .udp text] }
  | .recv _ nbytes =>
    let tcpbuf := recvInto o.tcpbuf (w.message n c)
    let text := shown (load tcpbuf 0 bufSize ++ w.behind n)
    if nbytes = 0 then { o with tcpbuf := tcpbuf, lines := o.lines ++ [v.leaves] }
    else { o with tcpbuf := tcpbuf, lines := o.lines ++ [.receive .tcp text] }

/-- `memset(&udpbuf, 0, 256)` and `memset(&tcpbuf, 0, 256)` -/
def zeroBuf : Mem := fun _ => 0

def output (calls : List Call) : Output := calls.foldl (printCall v w) ⟨zeroBuf, zeroBuf, []⟩

/-- What a run prints. -/
def printed (k : Sockets) (passes : List Pass) : List Line := (output v w (logged k v passes)).lines

end

/-- The messages of one kind, in the order received. -/
def received (w : World) (p : Proto) (calls : List Call) : List (List UInt8) :=
  calls.zipIdx.filterMap fun cn => if cn.1.proto = some p then w.message cn.2 cn.1 else none

def Output.buf (o : Output) : Proto → Mem
  | .udp => o.udpbuf
  | .tcp => o.tcpbuf

/-! ## One call -/

section
variable {v : Variant} {w : World} {o : Output} {c : Call} {p : Proto} {d : List UInt8} {n : Nat}
  {calls : List Call}

/-- Every call prints one line. -/
theorem exists_lines_printCall (v : Variant) (w : World) (o : Output) (c : Call) :
    ∃ line, (printCall v w o c).lines = o.lines ++ [line] := by
  unfold printCall
  cases c with
  | accept sock result => exact ⟨_, rfl⟩
  | recvfrom sock => exact ⟨_, rfl⟩
  | recv sock nbytes =>
    simp only
    split
    · exact ⟨_, rfl⟩
    · exact ⟨_, rfl⟩

theorem buf_printCall (p : Proto) :
    (printCall v w o c).buf p =
      if c.proto = some p then recvInto (o.buf p) (w.message o.lines.length c) else o.buf p := by
  cases c with
  | accept sock result => cases p <;> rfl
  | recvfrom sock => cases p <;> rfl
  | recv sock nbytes =>
    unfold printCall
    simp only
    split <;> cases p <;> rfl

/-- The line for a message is the buffer with the message in it. -/
theorem lines_printCall (hp : c.proto = some p) (hd : w.message o.lines.length c = some d) :
    (printCall v w o c).lines =
      o.lines ++ [.receive p (shown (load (store (o.buf p) 0 d) 0 bufSize ++ w.behind o.lines.length))] := by
  unfold printCall
  cases c with
  | accept sock result => cases hp
  | recvfrom sock =>
    obtain rfl := Option.some.inj hp
    simp only [hd]
    rfl
  | recv sock nbytes =>
    obtain rfl := Option.some.inj hp
    have hpos : nbytes ≠ 0 := by
      rintro rfl
      cases hd
    simp only [hd, if_neg hpos]
    rfl

theorem length_message (hd : w.message n c = some d) : d.length ≤ bufSize := by
  cases c with
  | accept sock result => cases hd
  | recvfrom sock =>
    obtain ⟨d', -, rfl⟩ := Option.map_eq_some_iff.1 hd
    exact List.length_take_le _ _
  | recv sock nbytes =>
    simp only [World.message] at hd
    split at hd
    · rw [← Option.some.inj hd, length_load]
      exact Nat.min_le_right _ _
    · cases hd

/-! ## All calls -/

theorem output_concat (v : Variant) (w : World) (calls : List Call) (c : Call) :
    output v w (calls ++ [c]) = printCall v w (output v w calls) c := by
  rw [output, List.foldl_append]
  rfl

theorem length_lines_output (v : Variant) (w : World) (calls : List Call) :
    (output v w calls).lines.length = calls.length := by
  induction calls using List.reverseRecOn with
  | nil => rfl
  | append_singleton calls c ih =>
    obtain ⟨line, hline⟩ := exists_lines_printCall v w (output v w calls) c
    rw [output_concat, hline, List.length_append, List.length_append, ih]
    rfl

theorem received_concat (w : World) (p : Proto) (calls : List Call) (c : Call) :
    received w p (calls ++ [c]) =
      received w p calls ++ (if c.proto = some p then w.message calls.length c else none).toList := by
  have hone : ∀ x : Call × Nat, [x].filterMap (fun cn : Call × Nat =>
        if cn.1.proto = some p then w.message cn.2 cn.1 else none) =
      (if x.1.proto = some p then w.message x.2 x.1 else none).toList := by
    intro x
    rw [List.filterMap_cons, List.filterMap_nil]
    split
    · next h => rw [h, Option.toList_none]
    · next h => rw [h, Option.toList_some]
  rw [received, List.zipIdx_append, List.filterMap_append, Nat.zero_add]
  exact congrArg (received w p calls ++ ·) (hone (c, calls.length))

/-- A buffer holds the messages of its kind, each stored over those before. -/
theorem buf_output (v : Variant) (w : World) (p : Proto) (calls : List Call) :
    (output v w calls).buf p = after zeroBuf (received w p calls) := by
  induction calls using List.reverseRecOn with
  | nil => cases p <;> rfl
  | append_singleton calls c ih =>
    rw [output_concat, buf_printCall, length_lines_output, received_concat, ih]
    by_cases hp : c.proto = some p
    · rw [if_pos hp, if_pos hp]
      cases hd : w.message calls.length c with
      | none => rw [Option.toList_none, List.append_nil, recvInto]
      | some d => rw [Option.toList_some, after_concat, recvInto]
    · rw [if_neg hp, if_neg hp, Option.toList_none, List.append_nil]

/-- Lines stay printed. -/
theorem lines_prefix (v : Variant) (w : World) (calls more : List Call) :
    (output v w calls).lines <+: (output v w (calls ++ more)).lines := by
  induction more using List.reverseRecOn with
  | nil => rw [List.append_nil]
  | append_singleton more c ih =>
    obtain ⟨line, hline⟩ := exists_lines_printCall v w (output v w (calls ++ more)) c
    rw [← List.append_assoc, output_concat, hline]
    exact ih.trans (List.prefix_append _ _)

/-- The line of a message, in any list of calls. -/
theorem line_output (v : Variant) (hc : calls[n]? = some c) (hp : c.proto = some p)
    (hd : w.message n c = some d) :
    (output v w calls).lines[n]? = some (.receive p
      (shown (load (store (after zeroBuf (received w p (calls.take n))) 0 d) 0 bufSize ++ w.behind n))) := by
  obtain ⟨hlt, hget⟩ := List.getElem?_eq_some_iff.1 hc
  have hlen : (output v w (calls.take n)).lines.length = n := by
    rw [length_lines_output, List.length_take_of_le hlt.le]
  have hsplit : calls = (calls.take n ++ [c]) ++ calls.drop (n + 1) := by
    rw [List.append_assoc, List.singleton_append, ← hget, List.getElem_cons_drop, List.take_append_drop]
  have hprefix := lines_prefix v w (calls.take n ++ [c]) (calls.drop (n + 1))
  rw [← hsplit, output_concat, lines_printCall hp (by rw [hlen]; exact hd), buf_output, hlen] at hprefix
  obtain ⟨later, hlater⟩ := hprefix
  rw [← hlater, List.append_assoc, List.getElem?_append_right hlen.le, hlen, Nat.sub_self]
  rfl

/-! ## Runs -/

/-- **A message is printed as it is** just when a NUL is in it or stands behind it: where the
message ends in the buffer, as the last earlier message of its kind that was longer left it, or
behind the buffer when the message fills it. -/
theorem printed_own_iff (k : Sockets) (v : Variant) (passes : List Pass) (w : World)
    (hc : (logged k v passes)[n]? = some c) (hp : c.proto = some p) (hd : w.message n c = some d) :
    ∃ text, (printed v w k passes)[n]? = some (.receive p text) ∧
      (text = some (cstr d) ↔ 0 ∈ d ∨
        (if d.length < bufSize then lastByte zeroBuf (received w p ((logged k v passes).take n)) d.length = 0
          else (w.behind n).head? = some 0)) := by
  refine ⟨_, line_output v hc hp hd, ?_⟩
  rw [shown_store_iff _ (length_message hd), after_apply]

end

/-- Two clients, 5 and 6; 5 sends "secret" and then 6 sends "hi". -/
def twoClients : List Pass :=
  [⟨.ready [4], 5, fun _ => -1⟩, ⟨.ready [4], 6, fun _ => -1⟩, ⟨.ready [5], -1, fun _ => 6⟩,
    ⟨.ready [6], -1, fun _ => 2⟩]

def twoMessages : World where
  datagram _ := none
  stream n i := if n = 2 then [115, 101, 99, 114, 101, 116].getD i 0 else [104, 105].getD i 0
  behind _ := [0]

def exampleSockets : Sockets := ⟨4, 3, by decide, by decide, by decide, by decide, by decide⟩

/-- The second is printed as "hicret". -/
theorem printed_mixed :
    twoMessages.message 3 (.recv 6 2) = some [104, 105] ∧
      printed .select twoMessages exampleSockets twoClients =
        [.newClient, .newClient, .receive .tcp (some [115, 101, 99, 114, 101, 116]),
          .receive .tcp (some [104, 105, 99, 114, 101, 116])] := by
  decide +kernel

/-- 5 sends "secret" once more. -/
def thirdMessage : List Pass := twoClients ++ [⟨.ready [5], -1, fun _ => 6⟩]

def threeMessages : World where
  datagram _ := none
  stream n i := if n = 3 then [104, 105].getD i 0 else [115, 101, 99, 114, 101, 116].getD i 0
  behind _ := [0]

/-- "hi" is not printed as it is, "secret" behind it is. -/
theorem printed_own_later :
    (∃ text, (printed .select threeMessages exampleSockets thirdMessage)[3]? = some (.receive .tcp text) ∧
      text ≠ some (cstr [104, 105])) ∧
    ∃ text, (printed .select threeMessages exampleSockets thirdMessage)[4]? = some (.receive .tcp text) ∧
      text = some (cstr [115, 101, 99, 114, 101, 116]) := by
  obtain ⟨text, htext, hiff⟩ := printed_own_iff (c := .recv 6 2) (d := [104, 105]) exampleSockets .select
    thirdMessage threeMessages (n := 3) (by decide +kernel) rfl (by decide +kernel)
  obtain ⟨text', htext', hiff'⟩ := printed_own_iff (c := .recv 5 6) (d := [115, 101, 99, 114, 101, 116])
    exampleSockets .select thirdMessage threeMessages (n := 4) (by decide +kernel) rfl (by decide +kernel)
  exact ⟨⟨text, htext, mt hiff.1 (by decide +kernel)⟩, text', htext', hiff'.2 (by decide +kernel)⟩

end Eltex.SelectPollEpoll
