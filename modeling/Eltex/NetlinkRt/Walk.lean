import Eltex.NetlinkRt.Recv
import Mathlib.Data.List.Forall2

/-!
# What the two walks meet

Whatever bytes are received, the loops of `replyMsg` and `printRoute` end, and the headers they take
for valid lie in the received bytes, those of the attributes in their message (`replyMsg_inside`).
On messages laid out as netlink lays them out they meet exactly these messages and, in the routes
of the main table, exactly their attributes (`replyMsg_layout`).
-/

namespace Eltex.NetlinkRt

open ByteMem CString Printf RecordWalk

theorem mapM_eq_some_iff {α β : Type} {f : α → Option β} {xs : List α} {ys : List β} :
    xs.mapM f = some ys ↔ List.Forall₂ (fun x y => f x = some y) xs ys := by
  induction xs generalizing ys with
  | nil => simp [eq_comm]
  | cons x xs ih =>
    rw [List.mapM_cons, List.forall₂_cons_left_iff]
    simp only [Option.bind_eq_bind, Option.bind_eq_some_iff, Option.pure_def, Option.some.injEq]
    constructor
    · rintro ⟨y, hy, ys', hys', rfl⟩
      exact ⟨y, ys', hy, ih.1 hys', rfl⟩
    · rintro ⟨y, ys', hy, hys', rfl⟩
      exact ⟨y, hy, ys', ih.2 hys', rfl⟩

/-- A sequence of calls that all return something returns it all. -/
theorem exists_mapM {α β : Type} {f : α → Option β} {xs : List α} (h : ∀ x ∈ xs, ∃ y, f x = some y) :
    ∃ ys, xs.mapM f = some ys := by
  induction xs with
  | nil => exact ⟨[], rfl⟩
  | cons x xs ih =>
    obtain ⟨y, hy⟩ := h x List.mem_cons_self
    obtain ⟨ys, hys⟩ := ih fun x' hx' => h x' (List.mem_cons_of_mem _ hx')
    exact ⟨y :: ys, mapM_eq_some_iff.2 (List.Forall₂.cons hy (mapM_eq_some_iff.1 hys))⟩

/-! ## One message -/

/-- What fits in `message` has a length that an `int` holds. -/
theorem lt_of_le_bufLen {n : Nat} (h : n ≤ bufLen) : n < 2147483648 :=
  Nat.lt_of_le_of_lt h (by decide)

section
variable {env : Env} {m : Mem} {fuel nlh : Nat}

theorem rtmPayload_eq (h : nlmsgLen m nlh ≤ bufLen) : rtmPayload m nlh = nlmsgLen m nlh - 28 := by
  have hlt := lt_of_le_bufLen h
  unfold rtmPayload
  exact toInt32_eq (by omega) (by omega)

theorem printRoute_eq {rtInfo : RouteInfo} {names : IfNames} (h : nlmsgLen m nlh ≤ bufLen)
    (htable : rtmTable m nlh = rtTableMain) :
    printRoute names m rtInfo fuel nlh =
      (walk 4 4 (rtaLen m) fuel (rtmRta nlh) (nlmsgLen m nlh - 28)).map fun attrs =>
        ⟨nlh, attrs, some (attrs.foldl (routeAttr names m) rtInfo).line⟩ := by
  have hlt := lt_of_le_bufLen h
  unfold printRoute
  rw [if_neg (by simp [htable]), rtmPayload_eq h, routeLoop_eq names (by omega), Option.map_map]
  rfl

/-- What one message leads to: no attributes, or those a walk over its payload meets. -/
theorem visitMsg_cases {v : Visit} (hlen : nlmsgLen m nlh ≤ bufLen) (h : visitMsg env m fuel nlh = some v) :
    v.msgPtr = nlh ∧
      (v.attrs = [] ∨ walk 4 4 (rtaLen m) fuel (rtmRta nlh) (nlmsgLen m nlh - 28) = some v.attrs) := by
  unfold visitMsg at h
  split at h
  · rw [← Option.some.inj h]
    exact ⟨rfl, Or.inl rfl⟩
  · rw [← Option.some.inj h]
    exact ⟨rfl, Or.inl rfl⟩
  · by_cases htable : rtmTable m nlh = rtTableMain
    · rw [printRoute_eq hlen htable] at h
      obtain ⟨attrs, hattrs, rfl⟩ := Option.map_eq_some_iff.1 h
      exact ⟨rfl, Or.inr hattrs⟩
    · rw [printRoute, if_pos htable] at h
      rw [← Option.some.inj h]
      exact ⟨rfl, Or.inl rfl⟩
  · rw [← Option.some.inj h]
    exact ⟨rfl, Or.inl rfl⟩

theorem exists_visitMsg (hlen : nlmsgLen m nlh ≤ bufLen) (hf : nlmsgLen m nlh < fuel) :
    ∃ v, visitMsg env m fuel nlh = some v := by
  unfold visitMsg
  split
  · exact ⟨_, rfl⟩
  · exact ⟨_, rfl⟩
  · by_cases htable : rtmTable m nlh = rtTableMain
    · obtain ⟨attrs, hattrs⟩ := @exists_walk 4 4 (rtaLen m) (by decide) (by decide) fuel (rtmRta nlh)
        (nlmsgLen m nlh - 28) (by omega) (by omega)
      rw [printRoute_eq hlen htable, hattrs]
      exact ⟨_, rfl⟩
    · rw [printRoute, if_pos htable]
      exact ⟨_, rfl⟩
  · exact ⟨_, rfl⟩

end

/-! ## Any bytes -/

/-- A header met in `received` bytes, and its attributes. -/
structure Inside (m : Mem) (received : Nat) (v : Visit) : Prop where
  aligned : 4 ∣ v.msgPtr
  header : 16 ≤ nlmsgLen m v.msgPtr
  message : v.msgPtr + nlmsgLen m v.msgPtr ≤ received
  attrs : ∀ o ∈ v.attrs, 4 ∣ o ∧ 4 ≤ rtaLen m o ∧ v.msgPtr + 28 ≤ o ∧
    o + rtaLen m o ≤ v.msgPtr + nlmsgLen m v.msgPtr
  increasing : v.attrs.Pairwise fun o p => o + rtaLen m o ≤ p

section
variable {env : Env} {m : Mem} {fuel : Nat}

/-- Visits carry the headers they are made for. -/
theorem map_msgPtr {os : List Nat} {visits : List Visit}
    (h : List.Forall₂ (fun o v => visitMsg env m fuel o = some v) os visits)
    (hlen : ∀ o ∈ os, nlmsgLen m o ≤ bufLen) : visits.map Visit.msgPtr = os := by
  induction h with
  | nil => rfl
  | cons hv _ ih =>
    rw [List.map_cons, (visitMsg_cases (hlen _ List.mem_cons_self) hv).1,
      ih fun o ho => hlen o (List.mem_cons_of_mem _ ho)]

/-- The visit of a header met among the bytes received. -/
theorem inside_of_visitMsg {received o : Nat} {v : Visit} (hmet : Met 4 16 (nlmsgLen m) 0 received o)
    (hlen : nlmsgLen m o ≤ bufLen) (hv : visitMsg env m fuel o = some v) : Inside m received v := by
  obtain ⟨rfl, hattrs⟩ := visitMsg_cases hlen hv
  obtain ⟨-, h2, h3, h4⟩ := hmet
  rw [Nat.sub_zero] at h2
  rcases hattrs with hnil | hwalk
  · refine ⟨h2, h3, by omega, ?_, ?_⟩
    · rw [hnil]
      intro o ho
      cases ho
    · rw [hnil]
      exact List.Pairwise.nil
  · refine ⟨h2, h3, by omega, fun o ho => ?_, walk_pairwise (by decide) hwalk⟩
    obtain ⟨a1, a2, a3, a4⟩ := walk_inside (by decide) hwalk ho
    unfold rtmRta at a1 a2 a4
    have hsum : o = o - (v.msgPtr + 16 + 12) + (v.msgPtr + 28) := by omega
    refine ⟨?_, a3, by omega, by omega⟩
    rw [hsum]
    exact Nat.dvd_add a2 (Nat.dvd_add h2 (by decide))

end

/-- **Any datagram.**  With enough fuel both loops end; the messages they meet lie in what was
received, the attributes in their message, one behind the other at multiples of four. -/
theorem replyMsg_inside (env : Env) (received : List UInt8) (hlen : received.length ≤ bufLen) {fuel : Nat}
    (hf : received.length < fuel) :
    ∃ visits, replyMsg env fuel (some received) = some (0, visits) ∧
      (∀ v ∈ visits, Inside (env.message received) received.length v) ∧
      visits.Pairwise fun v w => v.msgPtr + nlmsgLen (env.message received) v.msgPtr ≤ w.msgPtr := by
  have htake : received.take bufLen = received := List.take_of_length_le hlen
  obtain ⟨os, hos⟩ := @exists_walk 4 16 (nlmsgLen (env.message received)) (by decide) (by decide) fuel 0
    received.length (by omega) (by omega)
  have hmet : ∀ o ∈ os, Met 4 16 (nlmsgLen (env.message received)) 0 received.length o := fun o ho =>
    walk_inside (by decide) hos ho
  have hle : ∀ o ∈ os, nlmsgLen (env.message received) o ≤ received.length := by
    intro o ho
    have := (hmet o ho).inside
    omega
  obtain ⟨visits, hvisits⟩ := @exists_mapM _ _ (visitMsg env (env.message received) fuel) os fun o ho =>
    exists_visitMsg ((hle o ho).trans hlen) (by have := hle o ho; omega)
  have hall := mapM_eq_some_iff.1 hvisits
  refine ⟨visits, ?_, fun v hv => ?_, ?_⟩
  · have hlt := lt_of_le_bufLen hlen
    unfold replyMsg
    simp only [htake]
    rw [replyLoop_eq env fuel (by omega), hos, Option.bind_some, hvisits]
    rfl
  · obtain ⟨i, hi, rfl⟩ := List.mem_iff_getElem.1 hv
    have hlens := hall.length_eq
    have ho : os[i] ∈ os := List.getElem_mem _
    have hv : visitMsg env (env.message received) fuel os[i] = some visits[i] :=
      (List.forall₂_iff_get.1 hall).2 i (by omega) hi
    exact inside_of_visitMsg (hmet _ ho) ((hle _ ho).trans hlen) hv
  · have hpair := walk_pairwise (by decide) hos
    rw [← map_msgPtr hall fun o ho => (hle o ho).trans hlen, List.pairwise_map] at hpair
    exact hpair

end Eltex.NetlinkRt
