import Eltex.Lib.WireName
import Eltex.ProxyServer.Reply

/-!
# Names as keys of the cache

Both hooks take the question name for a C string, length octets and all.  Every
name ends within the buffer (`named_of_carries`), but a label may hold a zero
octet, and what follows it is no part of the key: two names are told apart
exactly when one of them is determined by its string (`separated_iff`).
-/

namespace Eltex.ProxyServer

open ByteMem CString SearchTree

/-- The name stands on the wire behind the DNS header. -/
def SkBuff.Carries (skb : SkBuff) (n : WireName) : Prop :=
  load skb.mem (skb.dnsh + dnshdrSize) n.octets.length = n.octets

theorem cstr_octets_lt (n : WireName) : (cstr n.octets).length < n.octets.length :=
  cstr_length_lt_of_mem n.zero_mem_octets

theorem getElem_length_of_append_cons {l s r : List UInt8} {b : UInt8} (h : l = s ++ b :: r)
    (hs : s.length < l.length) : l[s.length] = b := by
  subst h
  simp

/-- A name on the wire ends within the 255 bytes that are copied. -/
theorem named_of_carries {skb : SkBuff} {n : WireName} (h : skb.Carries n) :
    skb.Named (cstr n.octets) := by
  obtain ⟨r, hr⟩ := n.octets_eq_cstr_append
  have hlt := cstr_octets_lt n
  have h255 := n.length_octets_le
  have hmem := (load_eq_iff _ _ _).1 h
  refine ⟨?_, zero_not_mem_cstr _, ?_, by unfold hostnameLen; omega⟩
  · rw [← take_load _ _ _ _ (Nat.le_of_lt hlt), h]
    exact List.prefix_iff_eq_take.1 (cstr_isPrefix _) |>.symm
  · rw [hmem _ hlt]
    exact getElem_length_of_append_cons hr hlt

/-- A packet carries one name. -/
theorem carries_unique {skb : SkBuff} {a b : WireName} (ha : skb.Carries a) (hb : skb.Carries b) :
    a.octets = b.octets := by
  have hpre : ∀ {a b : WireName}, skb.Carries a → skb.Carries b →
      a.octets.length ≤ b.octets.length → a.octets = b.octets := by
    intro a b ha hb hle
    apply WireName.eq_of_isPrefix
    rw [List.prefix_iff_eq_take, ← hb, take_load _ _ _ _ hle]
    exact ha.symm
  rcases Nat.le_total a.octets.length b.octets.length with hle | hle
  · exact hpre ha hb hle
  · exact (hpre hb ha hle).symm

/-- Keys compare equal when the strings of the names do. -/
theorem strcmp_hname_iff {p q : SkBuff} {a b : WireName} (hp : p.Carries a) (hq : q.Carries b)
    (t u : List UInt8) : strcmp (p.hname ++ t) (q.hname ++ u) = 0 ↔ cstr a.octets = cstr b.octets := by
  rw [strcmp_eq_zero_iff, SkBuff.cstr_hname_of_named (named_of_carries hp),
    SkBuff.cstr_hname_of_named (named_of_carries hq)]

/-- The node learned from an answer for `a` answers a query for `b`. -/
def Serves (a b : WireName) : Prop :=
  ∃ inEnv p t node outEnv q t', p.Carries a ∧ q.Carries b ∧ Inserts inEnv p t node ∧
    Matches outEnv q t' node

theorem cstr_eq_of_serves {a b : WireName} (h : Serves a b) : cstr a.octets = cstr b.octets := by
  obtain ⟨inEnv, p, t, node, outEnv, q, t', hp, hq, hi, hm⟩ := h
  obtain ⟨-, -, behind, nodeBehind, -, -, -, -, rfl⟩ := hi
  have hn := named_of_carries hp
  rw [← cstr_hostMem_of_matches hm (named_of_carries hq),
    cstr_hostMem_newNode _ _ (by rw [SkBuff.cstr_hname_of_named hn]; exact hn.fits),
    SkBuff.cstr_hname_of_named hn]

/-- `a` and any other name have different keys, and neither's address is served for the other. -/
def Separated (a : WireName) : Prop :=
  ∀ b : WireName,
    (∀ (p q : SkBuff) t u, p.Carries a → q.Carries b →
      (strcmp (p.hname ++ t) (q.hname ++ u) = 0 ↔ a.octets = b.octets)) ∧
    (Serves a b ∨ Serves b a → a.octets = b.octets)

theorem udpPacket_carries (source dest : Nat) (hdr : List UInt8) (hh : hdr.length = 12) (n : WireName)
    (rest : List UInt8) : (udpPacket source dest (hdr ++ n.octets ++ rest)).Carries n := by
  rw [SkBuff.Carries, load_eq_iff]
  intro i hi
  show (udpPacket source dest (hdr ++ n.octets ++ rest)).mem (28 + 12 + i) = _
  rw [Nat.add_assoc, udpPacket_payload, List.append_assoc, List.getElem?_append_right (by omega)]
  have : 12 + i - hdr.length = i := by omega
  rw [this, List.getElem?_append_left hi, List.getElem?_eq_getElem hi]
  rfl

theorem udpPacket_answer_carries (source dest : Nat) (n : WireName) (type dataLen : UInt8) (rdata : List UInt8) :
    (udpPacket source dest (answerPayload (wireLabels n.labels) type dataLen rdata)).Carries n := by
  have hpayload : answerPayload (wireLabels n.labels) type dataLen rdata =
      [0x12, 0x34, 0x81, 0x80, 0, 1, 0, 1, 0, 0, 0, 0] ++ n.octets ++
        ([0, 1, 0, 1, 0xc0, 0x0c, 0, type, 0, 1, 0, 0, 0, 60, 0, dataLen] ++ rdata) := by
    simp [answerPayload, WireName.octets]
  rw [hpayload]
  exact udpPacket_carries source dest _ rfl n _

/-- **When a name has a key of its own.**  Exactly when its labels hold no zero octet, or
the first they hold ends the last label of a name of 254 or 255 octets. -/
theorem separated_iff (a : WireName) :
    Separated a ↔ (∀ l ∈ a.labels, 0 ∉ l) ∨
      (254 ≤ a.octets.length ∧ (cstr a.octets).length + 2 = a.octets.length) := by
  rw [← WireName.Determined]
  constructor
  · intro h
    rw [WireName.determined_iff]
    intro b hc
    have hp := udpPacket_carries 53 53 (List.replicate 12 0) rfl a []
    have hq := udpPacket_carries 53 53 (List.replicate 12 0) rfl b []
    exact ((h b).1 _ _ [] [] hp hq).1 ((strcmp_hname_iff hp hq _ _).2 hc)
  · intro h b
    refine ⟨fun p q t u hp hq => ?_, ?_⟩
    · rw [strcmp_hname_iff hp hq]
      exact ⟨h.eq_of_cstr_eq, congrArg cstr⟩
    · rintro (hs | hs)
      · exact h.eq_of_cstr_eq (cstr_eq_of_serves hs)
      · exact h.eq_of_cstr_eq (cstr_eq_of_serves hs).symm

/-- The name `\0` and the name `\0.a` have the same key. -/
theorem not_separated_zero : ¬ Separated ⟨[[0]], by decide, by decide⟩ := by
  intro h
  have hp := udpPacket_carries 53 40000 (List.replicate 12 0) rfl ⟨[[0]], by decide, by decide⟩ []
  have hq := udpPacket_carries 40000 53 (List.replicate 12 0) rfl
    ⟨[[0], [97]], by decide, by decide⟩ []
  have hkey := (strcmp_hname_iff hp hq [] []).2 (by decide)
  have heq := ((h _).1 _ _ [] [] hp hq).1 hkey
  exact absurd heq (by decide)

end Eltex.ProxyServer
