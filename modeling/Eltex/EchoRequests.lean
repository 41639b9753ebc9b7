import Eltex.Checksums

/-!
# The checksums of echo requests

`ping` and `traceroute` fill `packet_send` in the same way: the checksum field is zero while the
checksum of the whole packet is taken, then it is put there (`storeChecksum`).  A checksum is 0 when
the words add up to a multiple of 65535, zero apart (`checksumOf_eq_zero_iff`); so that of a packet
with its checksum in place is, and no longer is once one word is another, unless 0 and 65535 are
exchanged, which are the same modulo 65535 (`checksum_protects`).
-/

namespace Eltex

open ByteMem OnesComplement

/-- The field at offset 2 set to zero, and then to the checksum of all `nbytes`. -/
def storeChecksum (checksum : Mem → Nat → Nat → Option Nat) (m : Mem) (ptr nbytes : Nat) : Option Mem :=
  let m := storeLe m (ptr + 2) 2 0
  (checksum m ptr nbytes).map fun sum => storeLe m (ptr + 2) 2 sum

/-- `ICMP_SIZE + PAYLOAD_SIZE` -/
abbrev packetSendSize : Nat := 56

/-- What the loops put into `packet_send` before they take the checksum.  `htons` has the low 16 bits of
the numbers. -/
def echoFields (packetSend : Mem) (pid seq : Nat) : Mem :=
  let m := storeLe packetSend 0 1 8 -- ICMP_ECHO
  let m := storeLe m 2 2 0
  let m := storeLe m 1 1 0
  let m := storeLe m 4 2 (htons pid)
  storeLe m 6 2 (htons seq)

/-- And what is sent. -/
def echoRequest (checksum : Mem → Nat → Nat → Option Nat) (packetSend : Mem) (pid seq : Nat) : Option Mem :=
  let m := echoFields packetSend pid seq
  (checksum m 0 packetSendSize).map fun sum => storeLe m 2 2 sum

/-- The request `ping` sends. -/
def Ping.icmpSend : Mem → Nat → Nat → Option Mem := echoRequest Ping.checksum

/-- The request `traceroute` sends. -/
def Traceroute.icmpSend : Mem → Nat → Nat → Option Mem := echoRequest Traceroute.checksum

section
variable {bits n : Nat}

/-! ## Sums with a word replaced -/

theorem checksumOf_eq_zero_iff (hbits : 32 ≤ bits) (m : Mem) (ptr : Nat) (hn : n ≤ 65535) :
    checksumOf bits m ptr n = some 0 ↔
      65535 ∣ (leWords (load m ptr n)).sum ∧ (leWords (load m ptr n)).sum ≠ 0 := by
  have hfolded := folded_leSum (load m ptr n)
  have hlt := hfolded.lt
  rw [checksumOf_eq hbits m ptr hn, Option.some_inj, ← hfolded.eq_max_iff]
  omega

/-- A word of the packet replaced. -/
theorem sum_leWords_storeLe (m : Mem) (ptr : Nat) {i w : Nat} (hi : 2 * i + 2 ≤ n) (hw : w < 65536) :
    (leWords (load (storeLe m (ptr + 2 * i) 2 w) ptr n)).sum + loadLe m (ptr + 2 * i) 2 =
      (leWords (load m ptr n)).sum + w := by
  obtain ⟨k, rfl⟩ := Nat.exists_eq_add_of_le hi
  have hbefore : load (storeLe m (ptr + 2 * i) 2 w) ptr (2 * i) = load m ptr (2 * i) :=
    load_storeLe_of_disjoint m (by omega)
  have hbehind : load (storeLe m (ptr + 2 * i) 2 w) (ptr + 2 * i + 2) k = load m (ptr + 2 * i + 2) k :=
    load_storeLe_of_disjoint m (by omega)
  have hword : loadLe (storeLe m (ptr + 2 * i) 2 w) (ptr + 2 * i) 2 = w := loadLe_storeLe_of_lt m hw
  rw [Nat.add_assoc, Nat.add_comm 2 k, leWords_load_add, leWords_load_add, hbefore,
    leWords_load_succ_succ, leWords_load_succ_succ, hbehind, hword, List.sum_append, List.sum_append,
    List.sum_cons, List.sum_cons]
  omega

/-- The last byte of an odd number replaced. -/
theorem sum_leWords_store (m : Mem) (ptr k : Nat) (b : UInt8) :
    (leWords (load (store m (ptr + 2 * k) [b]) ptr (2 * k + 1))).sum + (m (ptr + 2 * k)).toNat =
      (leWords (load m ptr (2 * k + 1))).sum + b.toNat := by
  have hbefore : load (store m (ptr + 2 * k) [b]) ptr (2 * k) = load m ptr (2 * k) :=
    load_congr fun j hj => store_of_disjoint m (by omega)
  have hlast : load (store m (ptr + 2 * k) [b]) (ptr + 2 * k) 1 = [b] := load_store m (ptr + 2 * k) [b]
  have hbyte : load m (ptr + 2 * k) 1 = [m (ptr + 2 * k)] := rfl
  rw [leWords_load_add, leWords_load_add, hbefore, hlast, hbyte, List.sum_append, List.sum_append,
    leWords, leWords, List.sum_singleton, List.sum_singleton]
  omega

/-- `w` is put where `w'` was, or the other way round, and the sum cannot tell. -/
def Exchanged (w w' : Nat) : Prop := w = 0 ∧ w' = 65535 ∨ w = 65535 ∧ w' = 0

instance (w w' : Nat) : Decidable (Exchanged w w') := inferInstanceAs (Decidable (_ ∨ _))

/-- Two words that are not exchanged differ modulo 65535. -/
theorem not_dvd_of_replaced {s s' w w' : Nat} (hsum : s' + w = s + w') (hw : w < 65536) (hw' : w' < 65536)
    (hne : w' ≠ w) (hex : ¬ Exchanged w w') (hs : 65535 ∣ s) : ¬ 65535 ∣ s' := by
  unfold Exchanged at hex
  omega

/-! ## Stored checksums -/

/-- A checksum put into the packet makes its checksum 0. -/
def Verified (checksum : Mem → Nat → Nat → Option Nat) (m : Mem) (ptr nbytes : Nat) : Prop :=
  ∃ m', storeChecksum checksum m ptr nbytes = some m' ∧ checksum m' ptr nbytes = some 0

/-- A packet whose checksum is 0 has another checksum once a word is another, or the last byte of an
odd number. -/
def Detects (checksum : Mem → Nat → Nat → Option Nat) (m : Mem) (ptr nbytes : Nat) : Prop :=
  checksum m ptr nbytes = some 0 →
    (∀ i w, 2 * i + 2 ≤ nbytes → w < 65536 → w ≠ loadLe m (ptr + 2 * i) 2 →
      ¬ Exchanged (loadLe m (ptr + 2 * i) 2) w →
      ∃ sum, checksum (storeLe m (ptr + 2 * i) 2 w) ptr nbytes = some sum ∧ sum ≠ 0) ∧
    (∀ k b, 2 * k + 1 = nbytes → b ≠ m (ptr + 2 * k) →
      ∃ sum, checksum (store m (ptr + 2 * k) [b]) ptr nbytes = some sum ∧ sum ≠ 0)

theorem verified_checksumOf (hbits : 32 ≤ bits) (m : Mem) (ptr : Nat) (h4 : 4 ≤ n) (hn : n ≤ 65535) :
    Verified (checksumOf bits) m ptr n := by
  have hsum := checksumOf_eq hbits (storeLe m (ptr + 2) 2 0) ptr hn
  have hfolded := folded_leSum (load (storeLe m (ptr + 2) 2 0) ptr n)
  have hzero : loadLe (storeLe m (ptr + 2) 2 0) (ptr + 2) 2 = 0 := loadLe_storeLe m (ptr + 2) 2 0
  refine ⟨_, by rw [storeChecksum, hsum, Option.map_some], ?_⟩
  generalize storeLe m (ptr + 2) 2 0 = zeroed at hfolded hzero ⊢
  -- the zero is replaced by the complement of the sum
  have hreplaced :
      (leWords (load (storeLe zeroed (ptr + 2) 2 (65535 - leSum (load zeroed ptr n))) ptr n)).sum + 0 =
        (leWords (load zeroed ptr n)).sum + (65535 - leSum (load zeroed ptr n)) := by
    rw [← hzero]
    exact sum_leWords_storeLe zeroed ptr (i := 1) (by omega) (by omega)
  rw [checksumOf_eq_zero_iff hbits _ ptr hn]
  obtain ⟨hlt, hmod, hnull⟩ := hfolded
  omega

/-- Words that change the sum modulo 65535 change a checksum of 0. -/
theorem checksumOf_ne_zero (hbits : 32 ≤ bits) {m m' : Mem} {ptr w w' : Nat} (hn : n ≤ 65535)
    (h0 : checksumOf bits m ptr n = some 0)
    (hsum : (leWords (load m' ptr n)).sum + w = (leWords (load m ptr n)).sum + w')
    (hw : w < 65536) (hw' : w' < 65536) (hne : w' ≠ w) (hex : ¬ Exchanged w w') :
    ∃ sum, checksumOf bits m' ptr n = some sum ∧ sum ≠ 0 := by
  have hdvd := ((checksumOf_eq_zero_iff hbits m ptr hn).1 h0).1
  have hnot := not_dvd_of_replaced hsum hw hw' hne hex hdvd
  refine ⟨_, checksumOf_eq hbits m' ptr hn, fun hzero => hnot ?_⟩
  have hsome := checksumOf_eq hbits m' ptr hn
  rw [hzero] at hsome
  exact ((checksumOf_eq_zero_iff hbits m' ptr hn).1 hsome).1

theorem detects_checksumOf (hbits : 32 ≤ bits) (m : Mem) (ptr : Nat) (hn : n ≤ 65535) :
    Detects (checksumOf bits) m ptr n := by
  intro h0
  constructor
  · intro i w hi hw hne hex
    exact checksumOf_ne_zero hbits hn h0 (sum_leWords_storeLe m ptr hi hw) (loadLe_lt m _ 2) hw hne hex
  · rintro k b rfl hne
    have hb := b.toNat_lt
    have hm := (m (ptr + 2 * k)).toNat_lt
    refine checksumOf_ne_zero hbits hn h0 (sum_leWords_store m ptr k b) (by omega) (by omega) ?_ ?_
    · exact fun he => hne (UInt8.toNat_inj.1 he)
    · unfold Exchanged
      omega

/-- **Stored checksums** verify in every packet of 4 to 65535 bytes, and then any other word in the
place of one is detected, 0 and 65535 exchanged apart. -/
theorem checksum_protects (m : Mem) (ptr : Nat) (hn : n ≤ 65535) :
    (4 ≤ n → Verified Ping.checksum m ptr n ∧ Verified Traceroute.checksum m ptr n) ∧
      Detects Ping.checksum m ptr n ∧ Detects Traceroute.checksum m ptr n := by
  refine ⟨fun h4 => ?_, detects_checksumOf (by decide) m ptr hn, detects_checksumOf (by decide) m ptr hn⟩
  exact ⟨verified_checksumOf (by decide) m ptr h4 hn, verified_checksumOf (by decide) m ptr h4 hn⟩

/-! ## Requests -/

theorem loadLe_echoFields_zero (packetSend : Mem) (pid seq : Nat) :
    loadLe (echoFields packetSend pid seq) 2 2 = 0 := by
  unfold echoFields
  rw [loadLe_storeLe_of_disjoint _ (by omega), loadLe_storeLe_of_disjoint _ (by omega),
    loadLe_storeLe_of_disjoint _ (by omega), loadLe_storeLe_of_lt _ (by decide)]

/-- A request is sent with a stored checksum. -/
theorem echoRequest_eq (checksum : Mem → Nat → Nat → Option Nat) (packetSend : Mem) (pid seq : Nat) :
    echoRequest checksum packetSend pid seq =
      storeChecksum checksum (echoFields packetSend pid seq) 0 packetSendSize := by
  have hsame : storeLe (echoFields packetSend pid seq) 2 2 0 = echoFields packetSend pid seq := by
    have h := storeLe_loadLe (echoFields packetSend pid seq) 2 2
    rwa [loadLe_echoFields_zero] at h
  rw [storeChecksum, Nat.zero_add, hsame, echoRequest]

theorem exists_echoRequest (hbits : 32 ≤ bits) (packetSend : Mem) (pid seq : Nat) :
    ∃ sent, echoRequest (checksumOf bits) packetSend pid seq = some sent := by
  have hsum := checksumOf_eq hbits (echoFields packetSend pid seq) 0 (by decide : packetSendSize ≤ 65535)
  exact ⟨_, by rw [echoRequest, hsum, Option.map_some]⟩

/-- What is sent has the low 16 bits of identifier and sequence number. -/
theorem be16_echoRequest {checksum : Mem → Nat → Nat → Option Nat} {packetSend sent : Mem} {pid seq : Nat}
    (h : echoRequest checksum packetSend pid seq = some sent) :
    be16 sent 4 = pid % 65536 ∧ be16 sent 6 = seq % 65536 := by
  obtain ⟨sum, -, rfl⟩ := Option.map_eq_some_iff.1 h
  rw [be16_storeLe_of_disjoint _ (by omega), be16_storeLe_of_disjoint _ (by omega), echoFields,
    be16_storeLe_of_disjoint _ (by omega), be16_storeLe_htons, be16_storeLe_htons]
  exact ⟨rfl, rfl⟩

end

/-- An echo request of 10 bytes in memory that was all ones. -/
theorem checksum_protects_ten :
    Verified Ping.checksum (store (fun _ => 255) 0 [8, 0, 255, 255, 0, 7, 0, 1, 97, 98]) 0 10 ∧
      Detects Traceroute.checksum (store (fun _ => 255) 0 [8, 0, 255, 255, 0, 7, 0, 1, 97, 98]) 0 10 := by
  have h := checksum_protects (store (fun _ => 255) 0 [8, 0, 255, 255, 0, 7, 0, 1, 97, 98]) 0
    (by decide : 10 ≤ 65535)
  exact ⟨(h.1 (by decide)).1, h.2.2⟩

end Eltex
