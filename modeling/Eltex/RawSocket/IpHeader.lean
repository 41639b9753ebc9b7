import Eltex.Checksums

/-!
# The IP header of `raw_socket`

`iphdr_create` fills a header of 20 bytes and has its checksum taken over `ip->tot_len` bytes, a
field that is in network order by then.  So what is summed has the bytes of the length exchanged:
thousands of bytes for most lengths, the first `tot_len / 256` for a multiple of 256 up to 5120.
The header then verifies when what is left out makes no difference (`iphdrCreate_iff`); for 5120,
which is 20 when its bytes are exchanged, nothing is left out.
-/

namespace Eltex.RawSocket

open ByteMem OnesComplement

/-- The offsets `checksum` reads: those of each word, and at the end that of a single byte. -/
def checksumReads : Nat → Nat → List Nat
  | w, nleft + 2 => span w 2 ++ checksumReads (w + 2) nleft
  | w, nleft => span w nleft

/-- `ihl` is the low half of the first byte on a little-endian host. -/
def setIhl (b : UInt8) (ihl : Nat) : UInt8 := UInt8.ofNat (b.toNat / 16 * 16 + ihl)

def setVersion (b : UInt8) (version : Nat) : UInt8 := UInt8.ofNat (version * 16 + b.toNat % 16)

/-- What `iphdr_create` does before it takes the checksum. -/
def iphdrFields (m : Mem) (ip : Nat) (daddr : UInt32) (totLen : Nat) : Mem :=
  let m := store m ip [setIhl (m ip) 5]
  let m := store m ip [setVersion (m ip) 4]
  let m := store m (ip + 1) [0] -- tos
  let m := storeLe m (ip + 2) 2 (htons totLen)
  let m := storeLe m (ip + 4) 2 (htons 0) -- id
  let m := storeLe m (ip + 6) 2 0 -- frag_off
  let m := store m (ip + 8) [255] -- ttl
  let m := store m (ip + 9) [17] -- IPPROTO_UDP
  let m := storeLe m (ip + 12) 4 0 -- saddr
  let m := storeLe m (ip + 16) 4 daddr.toNat
  storeLe m (ip + 10) 2 0 -- check

/-- `iphdr_create`; `inet_addr` is a function of the library. -/
def iphdrCreate (inetAddr : List UInt8 → UInt32) (m : Mem) (ip : Nat) (daddr : List UInt8) (totLen : Nat) :
    Option Mem :=
  let m := iphdrFields m ip (inetAddr daddr) totLen
  (checksum m ip (loadLe m (ip + 2) 2)).map fun check => storeLe m (ip + 10) 2 check

/-- What its call of `checksum` reads. -/
def iphdrReads (inetAddr : List UInt8 → UInt32) (m : Mem) (ip : Nat) (daddr : List UInt8) (totLen : Nat) :
    List Nat :=
  let m := iphdrFields m ip (inetAddr daddr) totLen
  checksumReads ip (loadLe m (ip + 2) 2)

/-! ## What is read -/

theorem mem_checksumReads {w n i : Nat} : i ∈ checksumReads w n ↔ w ≤ i ∧ i < w + n := by
  induction n using Nat.twoStepInduction generalizing w with
  | zero => exact mem_span
  | one => exact mem_span
  | more n ih _ =>
    rw [checksumReads, List.mem_append, mem_span, ih]
    omega

/-- Nothing else is. -/
theorem checksum_congr {m m' : Mem} {w n : Nat} (hn : n ≤ 65535)
    (h : ∀ i ∈ checksumReads w n, m i = m' i) : checksum m w n = checksum m' w n := by
  have hload : load m w n = load m' w n :=
    load_congr fun i hi => h (w + i) (mem_checksumReads.2 ⟨by omega, by omega⟩)
  rw [checksum, checksumOf_eq (by decide) m w hn, checksumOf_eq (by decide) m' w hn, hload]

/-! ## The header -/

/-- The header, its checksum zero. -/
def header (daddr : UInt32) (totLen : Nat) : List UInt8 :=
  [0x45, 0, UInt8.ofNat (totLen / 256), UInt8.ofNat totLen, 0, 0, 0, 0, 255, 17, 0, 0, 0, 0, 0, 0] ++
    leBytes 4 daddr.toNat

theorem length_header (daddr : UInt32) (totLen : Nat) : (header daddr totLen).length = 20 := by
  simp [header]

/-- Version and header length, whatever the byte was. -/
theorem setVersion_setIhl (b : UInt8) : setVersion (setIhl b 5) 4 = 0x45 := by
  have hb := b.toNat_lt
  have hihl : (setIhl b 5).toNat = b.toNat / 16 * 16 + 5 := by
    rw [setIhl, UInt8.toNat_ofNat']
    omega
  rw [setVersion, hihl, ← UInt8.toNat_inj, UInt8.toNat_ofNat']
  show (4 * 16 + (b.toNat / 16 * 16 + 5) % 16) % 256 = 69
  omega

section
variable (m : Mem) (ip : Nat) (daddr : UInt32) (totLen : Nat)

theorem load_iphdrFields : load (iphdrFields m ip daddr totLen) ip 20 = header daddr totLen := by
  unfold iphdrFields
  extract_lets m1 m2 m3 m4 m5 m6 m7 m8 m9 m10
  -- field by field, `check` between those before and behind it
  have h1 : m1 ip = setIhl (m ip) 5 := store_add m ip (i := 0) (by simp)
  have h2 : load m2 ip 1 = [setVersion (m1 ip) 4] := load_store m1 ip [setVersion (m1 ip) 4]
  have h3 : load m3 ip 2 = load m2 ip 1 ++ [0] := load_store_concat m2 ip 1 [0]
  have h4 : load m4 ip 4 = load m3 ip 2 ++ leBytes 2 (htons totLen) := load_storeLe_concat m3 ip 2 2 _
  have h5 : load m5 ip 6 = load m4 ip 4 ++ leBytes 2 (htons 0) := load_storeLe_concat m4 ip 4 2 _
  have h6 : load m6 ip 8 = load m5 ip 6 ++ leBytes 2 0 := load_storeLe_concat m5 ip 6 2 0
  have h7 : load m7 ip 9 = load m6 ip 8 ++ [255] := load_store_concat m6 ip 8 [255]
  have h8 : load m8 ip 10 = load m7 ip 9 ++ [17] := load_store_concat m7 ip 9 [17]
  have h9 : load m9 ip 10 = load m8 ip 10 := load_storeLe_of_disjoint m8 (by omega)
  have h10 : load m10 ip 10 = load m9 ip 10 := load_storeLe_of_disjoint m9 (by omega)
  have hsaddr : load m9 (ip + 12) 4 = leBytes 4 0 := load_storeLe m8 (ip + 12) 4 0
  have hdaddr : load m10 (ip + 12) 8 = load m9 (ip + 12) 4 ++ leBytes 4 daddr.toNat :=
    load_storeLe_concat m9 (ip + 12) 4 4 _
  have hcheck : load (storeLe m10 (ip + 10) 2 0) ip 12 = load m10 ip 10 ++ leBytes 2 0 :=
    load_storeLe_concat m10 ip 10 2 0
  have hbehind : load (storeLe m10 (ip + 10) 2 0) (ip + 12) 8 = load m10 (ip + 12) 8 :=
    load_storeLe_of_disjoint m10 (by omega)
  show load (storeLe m10 (ip + 10) 2 0) ip (12 + 8) = header daddr totLen
  rw [load_append, hcheck, hbehind, hdaddr, hsaddr, h10, h9, h8, h7, h6, h5, h4, h3, h2, h1,
    setVersion_setIhl, leBytes_htons, leBytes_htons]
  rfl

/-- The length that `checksum` is given. -/
theorem loadLe_tot_len : loadLe (iphdrFields m ip daddr totLen) (ip + 2) 2 = htons totLen := by
  have hload : load (iphdrFields m ip daddr totLen) (ip + 2) 2 = leBytes 2 (htons totLen) := by
    rw [← take_load _ (ip + 2) 2 18 (by decide), ← drop_load _ ip 2 18, load_iphdrFields, leBytes_htons]
    rfl
  rw [loadLe, hload, leVal_leBytes]
  exact Nat.mod_eq_of_lt (htons_lt totLen)

/-- A checksum put in its place is added to the sum. -/
theorem byteSum_check {check : Nat} (hcheck : check < 65536) :
    byteSum 0 (load (storeLe (iphdrFields m ip daddr totLen) (ip + 10) 2 check) ip 20) =
      byteSum 0 (header daddr totLen) + htons check := by
  have hbefore : load (storeLe (iphdrFields m ip daddr totLen) (ip + 10) 2 check) ip 10 =
      load (iphdrFields m ip daddr totLen) ip 10 := load_storeLe_of_disjoint _ (by omega)
  have hbehind : load (storeLe (iphdrFields m ip daddr totLen) (ip + 10) 2 check) (ip + 10 + 2) 8 =
      load (iphdrFields m ip daddr totLen) (ip + 10 + 2) 8 := load_storeLe_of_disjoint _ (by omega)
  have hnew : be16 (storeLe (iphdrFields m ip daddr totLen) (ip + 10) 2 check) (ip + 10) = htons check := by
    rw [← htons_loadLe, loadLe_storeLe_of_lt _ hcheck]
  have hold : be16 (iphdrFields m ip daddr totLen) (ip + 10) = 0 := by
    rw [← htons_loadLe, iphdrFields, loadLe_storeLe_of_lt _ (by decide)]
    rfl
  rw [← load_iphdrFields m ip, (by rfl : 20 = 10 + (2 + 8)), byteSum_load_add, byteSum_load_add,
    byteSum_load_add, byteSum_load_add, byteSum_load_two (by decide), byteSum_load_two (by decide),
    hbefore, hbehind, hnew, hold]
  omega

end

/-- What comes back has the complement of the sum of `htons(tot_len)` bytes. -/
theorem iphdrCreate_eq (inetAddr : List UInt8 → UInt32) (m : Mem) (ip : Nat) (daddr : List UInt8)
    (totLen : Nat) : iphdrCreate inetAddr m ip daddr totLen = some
      (storeLe (iphdrFields m ip (inetAddr daddr) totLen) (ip + 10) 2
        (65535 - leSum (load (iphdrFields m ip (inetAddr daddr) totLen) ip (htons totLen)))) := by
  have hlen : htons totLen ≤ 65535 := Nat.le_of_lt_succ (htons_lt totLen)
  rw [iphdrCreate, loadLe_tot_len, checksum, checksumOf_eq (by decide) _ ip hlen, Option.map_some]

/-! ## When the header verifies -/

/-- The header is right, and its checksum was taken over its own bytes. -/
structure Built (m : Mem) (ip totLen : Nat) (reads : List Nat) : Prop where
  tot_len : be16 m (ip + 2) = totLen
  verifies : Verifies (load m ip 20)
  inside : ∀ i ∈ reads, ip ≤ i ∧ i < ip + 20

/-- With its bytes exchanged the length is at most 20, and the bytes of the header from there on add up
to nothing. -/
def NothingLeftOut (daddr : UInt32) (totLen : Nat) : Prop :=
  totLen % 256 = 0 ∧ totLen / 256 ≤ 20 ∧
    65535 ∣ byteSum (totLen / 256) ((header daddr totLen).drop (totLen / 256))

instance (daddr : UInt32) (totLen : Nat) : Decidable (NothingLeftOut daddr totLen) :=
  inferInstanceAs (Decidable (_ ∧ _))

theorem htons_le_twenty_iff {v : Nat} (h20 : 20 ≤ v) (hv : v ≤ 65535) :
    htons v ≤ 20 ↔ v % 256 = 0 ∧ v / 256 ≤ 20 := by
  unfold htons
  omega

theorem htons_eq_div {v : Nat} (hmod : v % 256 = 0) (hv : v ≤ 65535) : htons v = v / 256 := by
  unfold htons
  omega

/-- A sum over the first `k` bytes does for all of them when the others add nothing. -/
theorem verifies_check_iff (m : Mem) (ip : Nat) (daddr : UInt32) (totLen : Nat) {k : Nat} (hk : k ≤ 20) :
    Verifies (load (storeLe (iphdrFields m ip daddr totLen) (ip + 10) 2
        (65535 - leSum (load (iphdrFields m ip daddr totLen) ip k))) ip 20) ↔
      65535 ∣ byteSum k ((header daddr totLen).drop k) := by
  have hload : load (iphdrFields m ip daddr totLen) ip k = (header daddr totLen).take k := by
    rw [← load_iphdrFields m ip, take_load _ ip k 20 hk]
  have hsplit : byteSum 0 (header daddr totLen) =
      byteSum 0 ((header daddr totLen).take k) + byteSum k ((header daddr totLen).drop k) := by
    have h := byteSum_append 0 ((header daddr totLen).take k) ((header daddr totLen).drop k)
    rwa [List.take_append_drop, List.length_take_of_le (by rw [length_header]; exact hk), Nat.zero_add] at h
  have hpos : 0 < byteSum 0 (header daddr totLen) := by
    show 0 < 0x45 * 256 + _
    omega
  have hsum := folded_leSum ((header daddr totLen).take k)
  obtain ⟨hlt, hmod, -⟩ := folded_onesSum ((header daddr totLen).take k)
  rw [verifies_iff, hload, byteSum_check m ip daddr totLen (by omega), htons_complement hsum.lt, htons_leSum]
  omega

/-- **The header** that `iphdr_create` builds is right exactly for the multiples of 256 up to 5120 that
leave nothing out. -/
theorem iphdrCreate_iff (inetAddr : List UInt8 → UInt32) (m : Mem) (ip : Nat) (daddr : List UInt8)
    {totLen : Nat} (h20 : 20 ≤ totLen) (hmax : totLen ≤ 65535) :
    ∃ m', iphdrCreate inetAddr m ip daddr totLen = some m' ∧
      (Built m' ip totLen (iphdrReads inetAddr m ip daddr totLen) ↔
        NothingLeftOut (inetAddr daddr) totLen) := by
  refine ⟨_, iphdrCreate_eq inetAddr m ip daddr totLen, ?_⟩
  have hshort := htons_le_twenty_iff h20 hmax
  have hreads : iphdrReads inetAddr m ip daddr totLen = checksumReads ip (htons totLen) := by
    rw [iphdrReads, loadLe_tot_len]
  constructor
  · rintro ⟨-, hverifies, hinside⟩
    have hle : htons totLen ≤ 20 := by
      by_contra hgt
      have hmem : ip + 20 ∈ iphdrReads inetAddr m ip daddr totLen := by
        rw [hreads, mem_checksumReads]
        omega
      have := (hinside _ hmem).2
      omega
    obtain ⟨hmod, hdiv⟩ := hshort.1 hle
    rw [verifies_check_iff _ _ _ _ hle, htons_eq_div hmod hmax] at hverifies
    exact ⟨hmod, hdiv, hverifies⟩
  · rintro ⟨hmod, hdiv, hsum⟩
    have hle := hshort.2 ⟨hmod, hdiv⟩
    refine ⟨?_, ?_, fun i hi => ?_⟩
    · rw [be16_storeLe_of_disjoint _ (by omega), ← htons_loadLe, loadLe_tot_len, htons_htons (by omega)]
    · rw [verifies_check_iff _ _ _ _ hle, htons_eq_div hmod hmax]
      exact hsum
    · rw [hreads, mem_checksumReads] at hi
      omega

/-- `inet_addr` for one address; all else is `INADDR_NONE`. -/
def inetAddrLocal (cp : List UInt8) : UInt32 :=
  if cp = [49, 50, 55, 46, 48, 46, 48, 46, 49] then 0x0100007f else 0xffffffff

/-- A header of length 5120 to 127.0.0.1 is right. -/
theorem iphdrCreate_5120 :
    ∃ m', iphdrCreate inetAddrLocal (fun _ => 7) 3 [49, 50, 55, 46, 48, 46, 48, 46, 49] 5120 = some m' ∧
      Built m' 3 5120 (iphdrReads inetAddrLocal (fun _ => 7) 3 [49, 50, 55, 46, 48, 46, 48, 46, 49] 5120) := by
  obtain ⟨m', hm', hbuilt⟩ := iphdrCreate_iff inetAddrLocal (fun _ => 7) 3
    [49, 50, 55, 46, 48, 46, 48, 46, 49] (by decide : 20 ≤ 5120) (by decide)
  exact ⟨m', hm', hbuilt.2 (by decide)⟩

/-- One of length 256 is not: the checksum is that of its first byte. -/
theorem iphdrCreate_256 :
    ¬ ∀ (inetAddr : List UInt8 → UInt32) (m : Mem) (ip : Nat) (daddr : List UInt8) (totLen : Nat),
      inetAddr daddr ≠ 0xffffffff → 20 ≤ totLen → totLen ≤ 65535 →
      ∃ m', iphdrCreate inetAddr m ip daddr totLen = some m' ∧
        Built m' ip totLen (iphdrReads inetAddr m ip daddr totLen) := by
  intro h
  obtain ⟨m', hm', hbuilt⟩ := h inetAddrLocal (fun _ => 0) 0 [49, 50, 55, 46, 48, 46, 48, 46, 49] 256
    (by decide) (by decide) (by decide)
  rw [iphdrCreate_eq] at hm'
  have hverifies := hbuilt.verifies
  rw [← Option.some.inj hm', (by decide : htons 256 = 1), verifies_check_iff _ _ _ _ (by decide)] at hverifies
  revert hverifies
  decide

end Eltex.RawSocket
