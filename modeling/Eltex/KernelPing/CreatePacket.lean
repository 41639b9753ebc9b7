import Eltex.KernelPing.InetAddr
import Eltex.RawSocket.IpHeader

/-!
# The echo request of the kernel module

`create_packet` fills an IP and an ICMP header in memory fresh from `alloc_skb`.  Every field is set, but the checksum
is taken before its own field is: what the memory held there is summed as well, and the request
verifies only when that made no difference (`echo_verifies_iff`).  `ping` and `traceroute` clear the
field first.

`ip_compute_csum` is a function of the kernel, which returns the complement of the one's complement sum of
the words as the host reads them.  The checksum of the IP header is left to `ip_local_out`.
-/

namespace Eltex.KernelPing

open ByteMem OnesComplement
open RawSocket (setIhl setVersion setVersion_setIhl)

/-- `SADDR` and `DADDR` -/
def saddrText : List UInt8 := Printf.ascii "192.168.5.2"
def daddrText : List UInt8 := Printf.ascii "8.8.8.8"

def iphdrFields (m : Mem) (saddr daddr : Nat) : Mem :=
  let m := store m 0 [setIhl (m 0) 5]
  let m := store m 0 [setVersion (m 0) 4]
  let m := store m 1 [0] -- tos
  let m := storeLe m 2 2 (htons (20 + 8)) -- tot_len
  let m := storeLe m 4 2 (htons 12345) -- id
  let m := storeLe m 6 2 0 -- frag_off
  let m := store m 8 [255] -- ttl
  let m := store m 9 [1] -- IPPROTO_ICMP
  let m := storeLe m 10 2 0 -- check
  let m := storeLe m 12 4 saddr
  storeLe m 16 4 daddr

def icmphdrFields (ipComputeCsum : List UInt8 → Nat) (m : Mem) (icmph : Nat) : Mem :=
  let m := store m icmph [8] -- ICMP_ECHO
  let m := store m (icmph + 1) [0] -- code
  let m := storeLe m (icmph + 6) 2 1231 -- sequence
  let m := storeLe m (icmph + 4) 2 0 -- id
  storeLe m (icmph + 2) 2 (ipComputeCsum (load m icmph 8))

/-- The packet from its IP header on, in the memory `m` of the buffer; `none` when an address cannot be read. -/
def createPacket (ipComputeCsum : List UInt8 → Nat) (m : Mem) : Option Mem :=
  (inetAddr (saddrText ++ [0])).bind fun saddr => (inetAddr (daddrText ++ [0])).map fun daddr =>
    icmphdrFields ipComputeCsum (iphdrFields m saddr daddr) 20

/-- What the kernel says of `ip_compute_csum`, for an even number of bytes. -/
def InternetChecksum (ipComputeCsum : List UInt8 → Nat) : Prop :=
  ∀ bs : List UInt8, bs.length % 2 = 0 → ipComputeCsum bs = 65535 - leSum bs

/-! ## The bytes of the packet -/

section
variable (ipComputeCsum : List UInt8 → Nat) (m : Mem)

theorem load_iphdrFields (saddr daddr : Nat) : load (iphdrFields m saddr daddr) 0 20 =
    [0x45, 0, 0, 28, 48, 57, 0, 0, 255, 1, 0, 0] ++ leBytes 4 saddr ++ leBytes 4 daddr := by
  unfold iphdrFields
  extract_lets m1 m2 m3 m4 m5 m6 m7 m8 m9 m10
  have h1 : m1 0 = setIhl (m 0) 5 := store_add m 0 (i := 0) (by simp)
  have h2 : load m2 0 1 = [setVersion (m1 0) 4] := load_store m1 0 [setVersion (m1 0) 4]
  have h3 : load m3 0 2 = load m2 0 1 ++ [0] := load_store_concat m2 0 1 [0]
  have h4 : load m4 0 4 = load m3 0 2 ++ leBytes 2 (htons 28) := load_storeLe_concat m3 0 2 2 _
  have h5 : load m5 0 6 = load m4 0 4 ++ leBytes 2 (htons 12345) := load_storeLe_concat m4 0 4 2 _
  have h6 : load m6 0 8 = load m5 0 6 ++ leBytes 2 0 := load_storeLe_concat m5 0 6 2 0
  have h7 : load m7 0 9 = load m6 0 8 ++ [255] := load_store_concat m6 0 8 [255]
  have h8 : load m8 0 10 = load m7 0 9 ++ [1] := load_store_concat m7 0 9 [1]
  have h9 : load m9 0 12 = load m8 0 10 ++ leBytes 2 0 := load_storeLe_concat m8 0 10 2 0
  have h10 : load m10 0 16 = load m9 0 12 ++ leBytes 4 saddr := load_storeLe_concat m9 0 12 4 saddr
  have h11 : load (storeLe m10 16 4 daddr) 0 20 = load m10 0 16 ++ leBytes 4 daddr :=
    load_storeLe_concat m10 0 16 4 daddr
  rw [h11, h10, h9, h8, h7, h6, h5, h4, h3, h2, h1, setVersion_setIhl]
  rfl

theorem icmphdrFields_of_lt {icmph i : Nat} (h : i < icmph) : icmphdrFields ipComputeCsum m icmph i = m i := by
  unfold icmphdrFields
  rw [storeLe_of_disjoint _ (by omega), storeLe_of_disjoint _ (by omega), storeLe_of_disjoint _ (by omega),
    store_of_disjoint _ (by omega), store_of_disjoint _ (by omega)]

/-- The request, with a checksum over what the field holds already. -/
theorem load_icmphdrFields (icmph : Nat) : load (icmphdrFields ipComputeCsum m icmph) icmph 8 =
    [8, 0] ++ (leBytes 2 (ipComputeCsum ([8, 0] ++ (load m (icmph + 2) 2 ++ [0, 0, 207, 4]))) ++ [0, 0, 207, 4]) := by
  unfold icmphdrFields
  extract_lets m1 m2 m3 m4
  have hbefore : load m4 icmph 8 = [8, 0] ++ (load m (icmph + 2) 2 ++ [0, 0, 207, 4]) := by
    have h1 : load m1 icmph 1 = [8] := load_store m icmph [8]
    have h2 : load m2 icmph 2 = load m1 icmph 1 ++ [0] := load_store_concat m1 icmph 1 [0]
    have h3 : load m3 icmph 2 = load m2 icmph 2 := load_storeLe_of_disjoint m2 (by omega)
    have h4 : load m4 icmph 2 = load m3 icmph 2 := load_storeLe_of_disjoint m3 (by omega)
    have hcheck : load m4 (icmph + 2) 2 = load m (icmph + 2) 2 := by
      refine load_congr fun i hi => ?_
      calc m4 (icmph + 2 + i) = m3 (icmph + 2 + i) := storeLe_of_disjoint m3 (by omega)
        _ = m2 (icmph + 2 + i) := storeLe_of_disjoint m2 (by omega)
        _ = m1 (icmph + 2 + i) := store_of_disjoint m1 (by simp only [List.length_singleton]; omega)
        _ = m (icmph + 2 + i) := store_of_disjoint m (by simp only [List.length_singleton]; omega)
    have hid : load m4 (icmph + 4) 2 = leBytes 2 0 := load_storeLe m3 (icmph + 4) 2 0
    have hseq : load m4 (icmph + 6) 2 = leBytes 2 1231 := by
      have h := load_storeLe m2 (icmph + 6) 2 1231
      rw [← h]
      exact load_storeLe_of_disjoint m3 (by omega)
    show load m4 icmph (2 + (2 + (2 + 2))) = _
    rw [load_append, load_append, load_append, h4, h3, h2, h1, hcheck, hid, hseq]
    rfl
  have hhead : load (storeLe m4 (icmph + 2) 2 (ipComputeCsum (load m4 icmph 8))) icmph 2 = [8, 0] := by
    rw [load_storeLe_of_disjoint _ (by omega), ← take_load m4 icmph 2 8 (by decide), hbefore]
    rfl
  have htail : load (storeLe m4 (icmph + 2) 2 (ipComputeCsum (load m4 icmph 8))) (icmph + 2 + 2) 4 =
      [0, 0, 207, 4] := by
    rw [load_storeLe_of_disjoint _ (by omega), ← drop_load m4 icmph 4 4, hbefore]
    rfl
  show load (storeLe m4 (icmph + 2) 2 (ipComputeCsum (load m4 icmph 8))) icmph (2 + (2 + 4)) = _
  rw [load_append, load_append, hhead, htail, load_storeLe, hbefore]

end

/-- **The packet.**  Everything is set but for the checksum of the IP header; the sequence number 1231 goes out
with its bytes exchanged. -/
theorem load_createPacket (ipComputeCsum : List UInt8 → Nat) (m : Mem) :
    ∃ sent, createPacket ipComputeCsum m = some sent ∧
      load sent 0 20 = [0x45, 0, 0, 28, 48, 57, 0, 0, 255, 1, 0, 0, 192, 168, 5, 2, 8, 8, 8, 8] ∧
      load sent 20 8 =
        [8, 0] ++ (leBytes 2 (ipComputeCsum ([8, 0] ++ (load m 22 2 ++ [0, 0, 207, 4]))) ++ [0, 0, 207, 4]) := by
  have hsaddr : inetAddr (saddrText ++ [0]) = some 0x0205a8c0 := by decide +kernel
  have hdaddr : inetAddr (daddrText ++ [0]) = some 0x08080808 := by decide +kernel
  refine ⟨icmphdrFields ipComputeCsum (iphdrFields m 0x0205a8c0 0x08080808) 20, ?_, ?_, ?_⟩
  · rw [createPacket, hsaddr, hdaddr]
    rfl
  · have hkeep : load (icmphdrFields ipComputeCsum (iphdrFields m 0x0205a8c0 0x08080808) 20) 0 20 =
        load (iphdrFields m 0x0205a8c0 0x08080808) 0 20 :=
      load_congr fun i hi => icmphdrFields_of_lt _ _ (by omega)
    rw [hkeep, load_iphdrFields]
    rfl
  · have hstale : load (iphdrFields m 0x0205a8c0 0x08080808) 22 2 = load m 22 2 := by
      refine load_congr fun i hi => ?_
      unfold iphdrFields
      simp (disch := first | omega | (simp only [List.length_singleton]; omega)) only [storeLe_of_disjoint,
        store_of_disjoint]
    rw [load_icmphdrFields, hstale]

/-- **When the request verifies.**  Exactly when the memory of the new buffer had all zeros or all ones where the
checksum goes. -/
theorem echo_verifies_iff {ipComputeCsum : List UInt8 → Nat} (hcsum : InternetChecksum ipComputeCsum) (m : Mem) :
    ∃ sent, createPacket ipComputeCsum m = some sent ∧
      (Verifies (load sent 20 8) ↔ load m 22 2 = [0, 0] ∨ load m 22 2 = [255, 255]) := by
  obtain ⟨sent, hsent, -, hicmp⟩ := load_createPacket ipComputeCsum m
  refine ⟨sent, hsent, ?_⟩
  have hstale : load m 22 2 = leBytes 2 (loadLe m 22 2) := by
    have h := leBytes_leVal (load m 22 2)
    rw [length_load] at h
    exact h.symm
  have hlt : loadLe m 22 2 < 65536 := loadLe_lt m 22 2
  have hword : ∀ v < 65536, loadLe m 22 2 = v ↔ load m 22 2 = leBytes 2 v := by
    intro v hv
    constructor
    · intro h
      rw [hstale, h]
    · intro h
      rw [loadLe, h, leVal_leBytes]
      exact Nat.mod_eq_of_lt hv
  rw [hicmp, hcsum _ (by simp), hstale, verifies_stale_iff (by rfl) hlt, ← hstale, hword 0 (by decide),
    hword 65535 (by decide)]
  refine or_congr_right (and_iff_left ?_)
  decide

/-- Memory that holds 1 where the checksum goes. -/
theorem echo_verifies_one :
    ∃ sent, createPacket (fun bs => 65535 - leSum bs) (fun _ => 1) = some sent ∧ ¬ Verifies (load sent 20 8) := by
  obtain ⟨sent, hsent, hiff⟩ :=
    @echo_verifies_iff (fun bs => 65535 - leSum bs) (fun _ _ => rfl) (fun _ => 1)
  exact ⟨sent, hsent, fun h => absurd (hiff.1 h) (by decide)⟩

end Eltex.KernelPing
