import Eltex.NetlinkRt.Dump

/-!
# What a printed route depends on

`print_route` fills `rt_info` from the attributes it meets and prints all of it.  A field no attribute
sets keeps what the stack held, often what the route before left there; the placeholders are for
zeroes.  So the lines are a function of the attributes alone just when every main route has all four
(`route_lines_iff`).
-/

namespace Eltex.NetlinkRt

open ByteMem CString Printf RecordWalk

/-! ## The last attribute of a kind -/

/-- The value of the last attribute that has one. -/
def lastOf {β : Type} (f : Attr → Option β) (attrs : List Attr) (d : β) : β :=
  ((attrs.filterMap f).getLast?).getD d

/-- The word of an attribute of this type. -/
def wordOf (type : UInt16) (a : Attr) : Option Nat := if a.type = type then some a.word else none

/-- The name of the interface, of an `RTA_OIF`. -/
def nameOf (names : IfNames) (a : Attr) : Option (List UInt8) :=
  if a.type = 4 then (names a.word).map cstr else none

section
variable {β : Type} {f : Attr → Option β} {attrs : List Attr} {d d' : β}

theorem lastOf_cons (f : Attr → Option β) (a : Attr) (attrs : List Attr) (d : β) :
    lastOf f (a :: attrs) d = lastOf f attrs ((f a).getD d) := by
  unfold lastOf
  rw [List.filterMap_cons]
  cases f a with
  | none => rfl
  | some b =>
    rw [List.getLast?_cons]
    rfl

theorem lastOf_eq_of_mem (h : ∃ a ∈ attrs, f a ≠ none) : lastOf f attrs d = lastOf f attrs d' := by
  obtain ⟨a, ha, hf⟩ := h
  obtain ⟨b, hb⟩ := Option.ne_none_iff_exists'.1 hf
  have hne : attrs.filterMap f ≠ [] := List.ne_nil_of_mem (List.mem_filterMap.2 ⟨a, ha, hb⟩)
  unfold lastOf
  rw [List.getLast?_eq_some_getLast hne]
  rfl

theorem lastOf_of_forall (h : ∀ a ∈ attrs, f a = none) (d : β) : lastOf f attrs d = d := by
  rw [lastOf, List.filterMap_eq_nil_iff.2 h]
  rfl

end

/-! ## The line -/

/-- The line for these addresses and this name. -/
def lineOf (dst gateway : Nat) (name : List UInt8) (src : Nat) : List UInt8 :=
  (if dst ≠ 0 then ntoa dst else ascii "0.0.0.0  ") ++ [9] ++
    (if gateway ≠ 0 then ntoa gateway else ascii "*.*.*.*") ++ [9] ++ name ++ [9] ++
    (if src ≠ 0 then ntoa src else ascii "*.*.*.*") ++ [10]

section
variable {names : IfNames} {rtInfo : RouteInfo} {attrs : List Attr}

theorem toNat_eq_iff (a : Attr) (t : UInt16) : a.type.toNat = t.toNat ↔ a.type = t := UInt16.toNat_inj

/-- What one attribute leaves in each field. -/
theorem store_fields (names : IfNames) (rtInfo : RouteInfo) (a : Attr) :
    (rtInfo.store names a.type.toNat a.word).dstAddr = (wordOf 1 a).getD rtInfo.dstAddr ∧
      (rtInfo.store names a.type.toNat a.word).gateway = (wordOf 5 a).getD rtInfo.gateway ∧
      (rtInfo.store names a.type.toNat a.word).srcAddr = (wordOf 7 a).getD rtInfo.srcAddr ∧
      cstr (rtInfo.store names a.type.toNat a.word).ifName = (nameOf names a).getD (cstr rtInfo.ifName) := by
  unfold RouteInfo.store
  split
  · next h =>
    have ht := (toNat_eq_iff a 4).1 h
    cases hname : names a.word with
    | none => simp [wordOf, nameOf, ht, hname]
    | some name =>
      simp only [wordOf, nameOf, ht, hname]
      exact ⟨rfl, rfl, rfl, cstr_append_nul _ _⟩
  · next h => simp [wordOf, nameOf, (toNat_eq_iff a 5).1 h]
  · next h => simp [wordOf, nameOf, (toNat_eq_iff a 7).1 h]
  · next h => simp [wordOf, nameOf, (toNat_eq_iff a 1).1 h]
  · next h4 h5 h7 h1 =>
    have hne : ∀ t : UInt16, (a.type.toNat = t.toNat → False) → a.type ≠ t := fun t h he => h (by rw [he])
    simp [wordOf, nameOf, hne 4 h4, hne 5 h5, hne 7 h7, hne 1 h1]

/-- **Each field** is that of the last attribute which sets it, or what was there. -/
theorem line_ofAttrs (names : IfNames) (rtInfo : RouteInfo) (attrs : List Attr) :
    (rtInfo.ofAttrs names attrs).line =
      lineOf (lastOf (wordOf 1) attrs rtInfo.dstAddr) (lastOf (wordOf 5) attrs rtInfo.gateway)
        (lastOf (nameOf names) attrs (cstr rtInfo.ifName)) (lastOf (wordOf 7) attrs rtInfo.srcAddr) := by
  induction attrs generalizing rtInfo with
  | nil => rfl
  | cons a attrs ih =>
    obtain ⟨hdst, hgateway, hsrc, hname⟩ := store_fields names rtInfo a
    rw [lastOf_cons, lastOf_cons, lastOf_cons, lastOf_cons, ← hdst, ← hgateway, ← hsrc, ← hname]
    exact ih _

/-- Every field is set by an attribute. -/
structure Complete (names : IfNames) (attrs : List Attr) : Prop where
  /-- `RTA_DST` -/
  dst : ∃ a ∈ attrs, a.type = 1
  /-- `RTA_GATEWAY` -/
  gateway : ∃ a ∈ attrs, a.type = 5
  /-- `RTA_PREFSRC` -/
  src : ∃ a ∈ attrs, a.type = 7
  /-- an `RTA_OIF` whose interface has a name -/
  name : ∃ a ∈ attrs, a.type = 4 ∧ names a.word ≠ none

theorem exists_wordOf_iff (type : UInt16) :
    (∃ a ∈ attrs, wordOf type a ≠ none) ↔ ∃ a ∈ attrs, a.type = type := by
  simp [wordOf]

theorem exists_nameOf_iff :
    (∃ a ∈ attrs, nameOf names a ≠ none) ↔ ∃ a ∈ attrs, a.type = 4 ∧ names a.word ≠ none := by
  simp [nameOf]

/-- A complete route prints the same line whatever `rt_info` held. -/
theorem line_of_complete (h : Complete names attrs) (rtInfo rtInfo' : RouteInfo) :
    (rtInfo.ofAttrs names attrs).line = (rtInfo'.ofAttrs names attrs).line := by
  rw [line_ofAttrs, line_ofAttrs, lastOf_eq_of_mem ((exists_wordOf_iff 1).2 h.dst),
    lastOf_eq_of_mem ((exists_wordOf_iff 5).2 h.gateway), lastOf_eq_of_mem ((exists_wordOf_iff 7).2 h.src),
    lastOf_eq_of_mem (exists_nameOf_iff.2 h.name)]

/-- Two values tell each field apart. -/
theorem lineOf_ne (dst gateway src : Nat) (name : List UInt8) :
    lineOf 0 gateway name src ≠ lineOf 1 gateway name src ∧ lineOf dst 0 name src ≠ lineOf dst 1 name src ∧
      lineOf dst gateway [] src ≠ lineOf dst gateway [65] src ∧
      lineOf dst gateway name 0 ≠ lineOf dst gateway name 1 := by
  have hone : ntoa 1 = [49, 46, 48, 46, 48, 46, 48] := by decide
  have hdst : ascii "0.0.0.0  " = [48, 46, 48, 46, 48, 46, 48, 32, 32] := by decide
  have hstar : ascii "*.*.*.*" = [42, 46, 42, 46, 42, 46, 42] := by decide
  refine ⟨?_, ?_, ?_, ?_⟩ <;> simp [lineOf, hone, hdst, hstar]

/-- With a field left out, `rt_info` decides what is printed. -/
theorem complete_of_line (h : ∀ rtInfo rtInfo' : RouteInfo,
    (rtInfo.ofAttrs names attrs).line = (rtInfo'.ofAttrs names attrs).line) : Complete names attrs := by
  have hword : ∀ type, (¬ ∃ a ∈ attrs, a.type = type) → ∀ a ∈ attrs, wordOf type a = none := by
    intro type hno a ha
    exact if_neg fun ht => hno ⟨a, ha, ht⟩
  refine ⟨?_, ?_, ?_, ?_⟩
  · by_contra hno
    have heq := h ⟨0, 0, 0, []⟩ ⟨1, 0, 0, []⟩
    rw [line_ofAttrs, line_ofAttrs, lastOf_of_forall (hword 1 hno), lastOf_of_forall (hword 1 hno)] at heq
    exact (lineOf_ne 0 _ _ _).1 heq
  · by_contra hno
    have heq := h ⟨0, 0, 0, []⟩ ⟨0, 0, 1, []⟩
    rw [line_ofAttrs, line_ofAttrs, lastOf_of_forall (hword 5 hno), lastOf_of_forall (hword 5 hno)] at heq
    exact (lineOf_ne _ 0 _ _).2.1 heq
  · by_contra hno
    have heq := h ⟨0, 0, 0, []⟩ ⟨0, 1, 0, []⟩
    rw [line_ofAttrs, line_ofAttrs, lastOf_of_forall (hword 7 hno), lastOf_of_forall (hword 7 hno)] at heq
    exact (lineOf_ne _ _ 0 _).2.2.2 heq
  · by_contra hno
    have hname : ∀ a ∈ attrs, nameOf names a = none := by
      intro a ha
      by_contra hne
      exact hno (exists_nameOf_iff.1 ⟨a, ha, hne⟩)
    have heq := h ⟨0, 0, 0, []⟩ ⟨0, 0, 0, [65]⟩
    rw [line_ofAttrs, line_ofAttrs, lastOf_of_forall hname, lastOf_of_forall hname] at heq
    exact (lineOf_ne _ _ _ []).2.2.1 heq

end

/-! ## All lines -/

/-- The lines of a datagram with these messages are a function of each route's attributes alone, with
the placeholder for every absent address. -/
def Determined (names : IfNames) (msgs : List Message) (bs : List UInt8) : Prop :=
  ∃ ifName : List Attr → List UInt8, ∀ (env : Env) (fuel : Nat), env.ifIndexToName = names →
    bs.length < fuel → ∃ visits, replyMsg env fuel (some bs) = some (0, visits) ∧
      visits.filterMap Visit.text =
        (mainRoutes msgs).map fun attrs => (RouteInfo.ofAttrs names ⟨0, 0, 0, ifName attrs⟩ attrs).line

section
variable {names : IfNames} {msgs : List Message} {bs : List UInt8}

theorem eq_map_of_forall₂ {α β : Type} {R : α → β → Prop} {f : α → β} {l : List α} {l' : List β}
    (h : List.Forall₂ R l l') (hf : ∀ a ∈ l, ∀ b, R a b → b = f a) : l' = l.map f := by
  induction h with
  | nil => rfl
  | cons hab _ ih =>
    rw [List.map_cons, hf _ List.mem_cons_self _ hab, ih fun a ha => hf a (List.mem_cons_of_mem _ ha)]

/-- **A printed route** depends on its own message only just when every main route of the datagram has
an `RTA_DST`, an `RTA_GATEWAY`, an `RTA_PREFSRC` and the `RTA_OIF` of an interface with a name. -/
theorem route_lines_iff (names : IfNames) (laid : Layout 4 (msgs.map Message.bytes) bs)
    (hlen : bs.length ≤ bufLen) (hmsgs : ∀ msg ∈ msgs, msg.type = 24 ∧ msg.Sized) :
    Determined names msgs bs ↔ ∀ attrs ∈ mainRoutes msgs, Complete names attrs := by
  -- what is printed, line by line
  have hlines : ∀ (env : Env) (fuel : Nat), env.ifIndexToName = names → bs.length < fuel →
      ∃ visits, replyMsg env fuel (some bs) = some (0, visits) ∧
        List.Forall₂ (fun attrs line => ∃ o, line = ((env.rtInfo o).ofAttrs names attrs).line)
          (mainRoutes msgs) (visits.filterMap Visit.text) := by
    rintro env fuel rfl hf
    obtain ⟨visits, hreply, -, hvisits⟩ := replyMsg_layout laid hlen hf
    refine ⟨visits, hreply, lines_texts hvisits (fun msg hmsg => ?_) (fun msg hmsg => (hmsgs msg hmsg).2)
      fun msg hmsg => Or.inl (hmsgs msg hmsg).1⟩
    exact (laid.length_le _ (List.mem_map_of_mem hmsg)).trans hlen
  constructor
  · rintro ⟨ifName, h⟩
    -- the same lines from any content of rt_info
    have hall : ∀ rtInfo : RouteInfo, ∀ attrs ∈ mainRoutes msgs, (rtInfo.ofAttrs names attrs).line =
        (RouteInfo.ofAttrs names ⟨0, 0, 0, ifName attrs⟩ attrs).line := by
      intro rtInfo
      obtain ⟨visits, hreply, htexts⟩ :=
        h ⟨names, fun _ => 0, fun _ => rtInfo⟩ (bs.length + 1) rfl (Nat.lt_succ_self _)
      obtain ⟨visits', hreply', hforall⟩ :=
        hlines ⟨names, fun _ => 0, fun _ => rtInfo⟩ (bs.length + 1) rfl (Nat.lt_succ_self _)
      rw [hreply] at hreply'
      obtain rfl := (Prod.mk.inj (Option.some.inj hreply')).2
      rw [htexts, List.forall₂_map_right_iff, List.forall₂_same] at hforall
      intro attrs hattrs
      obtain ⟨o, hline⟩ := hforall attrs hattrs
      exact hline.symm
    intro attrs hattrs
    refine complete_of_line fun rtInfo rtInfo' => ?_
    exact (hall rtInfo attrs hattrs).trans (hall rtInfo' attrs hattrs).symm
  · intro hcomplete
    refine ⟨fun _ => [], fun env fuel hnames hf => ?_⟩
    obtain ⟨visits, hreply, hforall⟩ := hlines env fuel hnames hf
    refine ⟨visits, hreply, eq_map_of_forall₂ hforall ?_⟩
    rintro attrs hattrs line ⟨o, rfl⟩
    exact line_of_complete (hcomplete attrs hattrs) _ _

end

/-- 10.0.0.0 by 10.0.0.1 from 10.0.0.2 on interface 2. -/
def fullAttrs : List Attr :=
  [⟨1, [10, 0, 0, 0], by decide⟩, ⟨4, [2, 0, 0, 0], by decide⟩, ⟨5, [10, 0, 0, 1], by decide⟩,
    ⟨7, [10, 0, 0, 2], by decide⟩]

theorem layout_fullAttrs : Layout 4 (fullAttrs.map Attr.bytes) (fullAttrs.flatMap Attr.bytes) :=
  Layout.cons _ [] _ _ (by decide) (Layout.cons _ [] _ _ (by decide) (Layout.cons _ [] _ _ (by decide)
    (Layout.last _ [] (by decide))))

def fullRoute : Message := .route ⟨2, 1, 0⟩ ⟨2, 0, 0, 0, 254, 0, 0, 1, 0⟩ fullAttrs _ layout_fullAttrs

theorem sized_fullRoute : fullRoute.Sized := by
  have hlength : ∀ a ∈ fullAttrs, 4 ≤ a.payload.length := by decide
  exact fun a ha _ => hlength a ha

def eth0 : IfNames := fun i => if i = 2 then some [101, 116, 104, 48] else none

theorem route_lines_full : Determined eth0 [fullRoute] (fullRoute.bytes ++ []) := by
  refine (route_lines_iff eth0 (Layout.last _ [] (by decide)) (by decide) fun msg hmsg => ?_).2
    fun attrs hattrs => ?_
  · rw [List.mem_singleton.1 hmsg]
    exact ⟨rfl, sized_fullRoute⟩
  · have hroutes : mainRoutes [fullRoute] = [fullAttrs] := rfl
    rw [hroutes, List.mem_singleton] at hattrs
    rw [hattrs]
    exact ⟨by decide, by decide, by decide, by decide⟩

/-- What is printed for a route without attributes when `rt_info` holds a gateway. -/
def staleLines (gateway : Nat) : Option (List (List UInt8)) :=
  (replyMsg ⟨fun _ => none, fun _ => 0, fun _ => ⟨0, 0, gateway, [0]⟩⟩ 64 (some (plainRoute.bytes ++ []))).map
    fun r => r.2.filterMap Visit.text

/-- The gateway 10.0.0.1 that an earlier route left in `rt_info` is printed again. -/
theorem route_lines_stale :
    staleLines 16777226 = some [ascii "0.0.0.0  \t10.0.0.1\t\t*.*.*.*\n"] ∧
      ¬ Determined (fun _ => none) [plainRoute] (plainRoute.bytes ++ []) := by
  have hstale : staleLines 16777226 = some [ascii "0.0.0.0  \t10.0.0.1\t\t*.*.*.*\n"] := by decide +kernel
  have hzero : staleLines 0 = some [ascii "0.0.0.0  \t*.*.*.*\t\t*.*.*.*\n"] := by decide +kernel
  refine ⟨hstale, ?_⟩
  rintro ⟨ifName, h⟩
  have hsame : ∀ gateway, staleLines gateway = staleLines 0 := by
    intro gateway
    obtain ⟨visits, hreply, htexts⟩ :=
      h ⟨fun _ => none, fun _ => 0, fun _ => ⟨0, 0, gateway, [0]⟩⟩ 64 rfl (by decide)
    obtain ⟨visits', hreply', htexts'⟩ :=
      h ⟨fun _ => none, fun _ => 0, fun _ => ⟨0, 0, 0, [0]⟩⟩ 64 rfl (by decide)
    rw [staleLines, staleLines, hreply, hreply', Option.map_some, Option.map_some, htexts, htexts']
  have heq := hsame 16777226
  rw [hstale, hzero] at heq
  revert heq
  decide

end Eltex.NetlinkRt
