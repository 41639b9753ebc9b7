import Eltex.TextManager.Navigate

/-!
# Listings of directories that change

Every call of `print_files` reads its directory again, while region and line of
a window stay from one call to the next.  Here each call sees directories of
its own, so anything may happen to them in between, and finds entries of its
own when it shows them, since they have been given back by then.  The calls of
a run are logged with the array each was given.

    caller            array     when
    navigate            256     after every key, and three times before the first
    total_refresh      2048     for each window, when the popup of 'y' is answered

A call that stores past its array stays in the log with what fitted, and the
run goes on from there, so that every bad call can be pointed at; a path that
outgrows `current_path` ends it.

`navigate_inRange_iff`: no call stores or shows anything outside what it read,
and Enter looks at nothing else, exactly when every directory opens, fits the
array and is longer than the region of its window, the entries looked at are
still as they were read, the cursor is on an entry read at every Enter, and
every path fits.
-/

namespace Eltex.TextManager

open Files (PathName)
open Runs

/-- `d` of `total_refresh` -/
def refreshCapacity : Nat := 2048

/-- The directories as a call finds them, and what lies where it read the entries when it shows them. -/
structure Reading where
  dirs : Dirs
  heap : Heap

/-- One call of `print_files`. -/
structure Call where
  window : Fin windowCount
  /-- entries of the caller's array -/
  capacity : Nat
  getmaxy : Nat
  reading : Reading
  field : Field
  /-- what the array held before -/
  d : Slots capacity

/-- The `i`th entry is as it was read. -/
def KeptAt (heap : Heap) (entries : List Dirent) (i : Int) : Prop :=
  ∀ e, entries[i.toNat]? = some e → heap i.toNat e = e

namespace Call

variable (c : Call)

/-- The entries read. -/
def entries : List Dirent := readdirAll c.reading.dirs c.field.currentPath

def listing : Listing c.capacity := printFiles c.reading.dirs c.reading.heap c.getmaxy c.field c.d

/-- Stores within the array, and lines that show entries read. -/
def InRange : Prop :=
  (∀ i < c.entries.length, i < c.capacity) ∧
    ∀ r ∈ c.listing.rows, ∃ i : Nat, r.index = i ∧ ∃ e, c.entries[i]? = some e ∧ r.entry = some e

/-- The directory fits the array and goes beyond the region, and what is shown of it is as it was
read. -/
def Meets : Prop :=
  c.entries.length ≤ c.capacity ∧ (c.getmaxy = 0 ∨ c.field.currentRegion < c.entries.length) ∧
    ∀ i, c.field.currentRegion ≤ i → i < c.field.currentRegion + c.getmaxy → i < c.entries.length - 1 →
      KeptAt c.reading.heap c.entries i

end Call

/-- A key, and what each call it leads to finds. -/
structure Turn where
  press : Press
  /-- the directories for `clear_path` -/
  move : Dirs
  /-- for `total_refresh`, one window after the other -/
  popup : Fin windowCount → Reading
  /-- for the `print_files` behind the `switch` -/
  list : Reading

/-- `navigate`, and every call of `print_files` up to now. -/
structure Session where
  nav : Nav
  log : List Call

section
variable (getmaxy : Fin windowCount → Nat)

/-- `print_files(w, d)` in `navigate`. -/
def navigateCall (reading : Reading) (s : Nav) (w : Fin windowCount) : Call where
  window := w
  capacity := navigateCapacity
  getmaxy := getmaxy w
  reading := reading
  field := s.windows w
  d := s.d

/-- `print_files(w, d)` in `total_refresh`, whose array is a new one for each window. -/
def refreshCall (reading : Reading) (s : Nav) (w : Fin windowCount) : Call where
  window := w
  capacity := refreshCapacity
  getmaxy := getmaxy w
  reading := reading
  field := s.windows w
  d := Slots.empty refreshCapacity

/-- `file_count = print_files(current_window, d)` -/
def relist (reading : Reading) (u : Session) : Session :=
  { nav := relisted reading.dirs u.nav
    log := u.log ++ [navigateCall getmaxy reading u.nav u.nav.currentWindow] }

/-- `print_files(w, d)` of the loop over the windows, which ignores the count. -/
def printInto (reading : Reading) (u : Session) (w : Fin windowCount) : Session :=
  { nav := { u.nav with d := (readFiles reading.dirs (u.nav.windows w).currentPath u.nav.d).1 }
    log := u.log ++ [navigateCall getmaxy reading u.nav w] }

def openSession (opening : Fin 3 → Reading) (paths : Fin windowCount → PathName) (cwd : Dir) : Session :=
  let u := printInto getmaxy (opening 0) ⟨atStart paths cwd, []⟩ 0
  let u := printInto getmaxy (opening 1) u 1
  relist getmaxy (opening 2) u

/-- The calls `popup` makes before it returns. -/
def popupCalls (s : Nav) (t : Turn) : List Call :=
  if Key.ofCode t.press.code = .yank then
    (List.finRange windowCount).map fun w => refreshCall getmaxy (t.popup w) s w
  else []

/-- One turn of the loop. -/
def turn (u : Session) (t : Turn) : Option Session :=
  if u.nav.quit then some u
  else
    (onKey t.move getmaxy u.nav t.press).map fun s =>
      let v := relist getmaxy t.list ⟨s, u.log ++ popupCalls getmaxy u.nav t⟩
      { v with nav := { v.nav with quit := decide (t.press.code = quitCode) } }

def session (u : Session) (turns : List Turn) : Option Session := run (turn getmaxy) u turns

end

/-- The last call for a window. -/
def latest (log : List Call) (w : Fin windowCount) : Option Call :=
  (log.filter fun c => c.window = w).getLast?

/-- The indices of `d` Enter looks at. -/
def inspected (s : Nav) (heap : Heap) : List Int :=
  s.field.currentLine ::
    if (entryAt heap s.d.1 s.field.currentLine).map Dirent.dType = some dtDir then
      [s.field.currentRegion + s.field.currentLine]
    else []

/-- Enter looks at entries the last call for the focused window has read. -/
def EnterInRange (u : Session) (heap : Heap) : Prop :=
  ∃ c, latest u.log u.nav.currentWindow = some c ∧
    ∀ i ∈ inspected u.nav heap,
      ∃ k : Nat, i = k ∧ ∃ e, c.entries[k]? = some e ∧ entryAt heap u.nav.d.1 i = some e

/-- The cursor is on what the last call has read, and that is still as it was read. -/
def EnterMeetsListing (u : Session) (heap : Heap) : Prop :=
  ∃ c, latest u.log u.nav.currentWindow = some c ∧ 0 ≤ u.nav.field.currentLine ∧
    u.nav.field.currentLine < c.entries.length ∧ KeptAt heap c.entries u.nav.field.currentLine ∧
    (c.entries[u.nav.field.currentLine.toNat]?.map Dirent.dType = some dtDir →
      u.nav.field.currentRegion + u.nav.field.currentLine < c.entries.length ∧
        KeptAt heap c.entries (u.nav.field.currentRegion + u.nav.field.currentLine))

/-- `C` of every call of a run and `E` wherever Enter is pressed. -/
def Along (getmaxy : Fin windowCount → Nat) (u₀ : Session) (turns : List Turn) (C : Call → Prop)
    (E : Session → Heap → Prop) : Prop :=
  (∀ pre u, pre <+: turns → session getmaxy u₀ pre = some u → ∀ c ∈ u.log, C c) ∧
    ∀ pre t u, pre ++ [t] <+: turns → session getmaxy u₀ pre = some u → u.nav.quit = false →
      Key.ofCode t.press.code = .enter → E u t.press.heap

/-! ## One call -/

theorem keptAt_iff {heap : Heap} {entries d : List Dirent} (hd : entries <+: d) {i : Int} (h0 : 0 ≤ i)
    (hlt : i < entries.length) :
    (∃ e, entries[i.toNat]? = some e ∧ entryAt heap d i = some e) ↔ KeptAt heap entries i := by
  obtain ⟨e, he, hentry⟩ := entryAt_of_prefix heap hd h0 hlt
  unfold KeptAt
  rw [hentry, he]
  constructor
  · rintro ⟨e', h, h'⟩ e'' h''
    obtain rfl := Option.some.inj h
    rw [← Option.some.inj h'']
    exact Option.some.inj h'
  · exact fun h => ⟨e, rfl, congrArg some (h e rfl)⟩

namespace Call

variable {c : Call}

theorem fileCount_eq : c.listing.fileCount = c.entries.length - 1 := by
  rw [listing, printFiles_fileCount, fileCountAt_eq]
  rfl

theorem rows_eq :
    c.listing.rows = showRows c.reading.heap c.listing.d.1 c.field (c.entries.length - 1) c.getmaxy
      c.field.currentRegion := by
  rw [← fileCount_eq]
  rfl

/-- The lines shown are entries read, if the region is and they are still there; from a region behind
them the first line is not. -/
theorem rows_inRange_iff (hfit : c.entries.length ≤ c.capacity) (h0 : 0 ≤ c.field.currentRegion) :
    (∀ r ∈ c.listing.rows, ∃ i : Nat, r.index = i ∧ ∃ e, c.entries[i]? = some e ∧ r.entry = some e) ↔
      (c.getmaxy = 0 ∨ c.field.currentRegion < c.entries.length) ∧
        ∀ i, c.field.currentRegion ≤ i → i < c.field.currentRegion + c.getmaxy →
          i < c.entries.length - 1 → KeptAt c.reading.heap c.entries i := by
  have hd : c.entries <+: c.listing.d.1 := readFiles_fst hfit c.d
  rw [rows_eq]
  by_cases hlt : c.field.currentRegion < c.entries.length
  · rw [showRows_eq _ (by omega)]
    simp only [List.mem_map, List.mem_range, forall_exists_index, and_imp, forall_apply_eq_imp_iff₂]
    have hrow : ∀ k : Nat, k < min c.getmaxy (c.entries.length - 1 - c.field.currentRegion).toNat →
        ((∃ i : Nat, c.field.currentRegion + k = i ∧ ∃ e, c.entries[i]? = some e ∧
            entryAt c.reading.heap c.listing.d.1 (c.field.currentRegion + k) = some e) ↔
          KeptAt c.reading.heap c.entries (c.field.currentRegion + k)) := by
      intro k hk
      rw [← keptAt_iff hd (by omega) (by omega)]
      constructor
      · rintro ⟨i, hi, h⟩
        rw [show (c.field.currentRegion + k).toNat = i by omega]
        exact h
      · exact fun h => ⟨(c.field.currentRegion + k).toNat, by omega, h⟩
    constructor
    · intro h
      refine ⟨Or.inr hlt, fun i h1 h2 h3 => ?_⟩
      have hk := (hrow (i - c.field.currentRegion).toNat (by omega)).1
        (h (i - c.field.currentRegion).toNat (by omega))
      rwa [show c.field.currentRegion + ((i - c.field.currentRegion).toNat : Int) = i by omega] at hk
    · rintro ⟨-, h⟩ k hk
      exact (hrow k hk).2 (h _ (by omega) (by omega) (by omega))
  · cases hn : c.getmaxy with
    | zero =>
      refine ⟨fun _ => ⟨Or.inl rfl, fun i h1 h2 _ => ?_⟩, fun _ r hr => absurd hr List.not_mem_nil⟩
      omega
    | succ n =>
      -- the region has passed the count, so the loop does not stop at it
      rw [showRows, if_neg (by omega)]
      constructor
      · intro h
        obtain ⟨i, hi, e, he, -⟩ := h _ List.mem_cons_self
        have hi : c.field.currentRegion = i := hi
        have hlen := (List.getElem?_eq_some_iff.1 he).1
        omega
      · rintro ⟨h | h, -⟩
        · exact absurd h (Nat.succ_ne_zero n)
        · exact absurd h hlt

theorem inRange_iff (h0 : 0 ≤ c.field.currentRegion) : c.InRange ↔ c.Meets := by
  have hstores : (∀ i < c.entries.length, i < c.capacity) ↔ c.entries.length ≤ c.capacity :=
    forall_lt_iff_le
  unfold InRange Meets
  rw [hstores]
  exact and_congr_right fun hfit => rows_inRange_iff hfit h0

end Call

/-! ## Runs -/

theorem region_nonneg_scrolls {n : Int} {h : Nat} {f f' : Field} (h0 : 0 ≤ f.currentRegion)
    (hs : Scrolls n h f f') : 0 ≤ f'.currentRegion := by
  rcases hs with rfl | rfl | rfl | rfl
  · unfold keyDown
    simp only [clamp_eq]
    split
    · split <;> simp only <;> omega
    · split <;> exact h0
  · unfold keyUp
    simp only [clamp_eq]
    split <;> simp only <;> omega
  · unfold keyNpage
    simp only [clamp_eq]
    split <;> simp only <;> omega
  · unfold keyPpage
    simp only
    split <;> simp only <;> omega

/-- The regions are not negative, and the array starts with what the last call has read, if that fits. -/
structure Logged (u : Session) : Prop where
  region : ∀ w, 0 ≤ (u.nav.windows w).currentRegion
  calls : ∀ c ∈ u.log, 0 ≤ c.field.currentRegion
  read : ∃ c ∈ u.log, latest u.log u.nav.currentWindow = some c ∧
    (c.entries.length ≤ c.capacity → c.entries <+: u.nav.d.1)

section
variable {getmaxy : Fin windowCount → Nat} {u u' : Session} {t : Turn}

theorem latest_concat {log : List Call} {c : Call} : latest (log ++ [c]) c.window = some c := by
  have hself : [c].filter (fun c' => c'.window = c.window) = [c] :=
    List.filter_cons_of_pos (decide_eq_true rfl)
  rw [latest, List.filter_append, hself, List.getLast?_concat]

theorem region_nonneg_onKey {dirs : Dirs} {s s' : Nav} {p : Press} (h : onKey dirs getmaxy s p = some s')
    (h0 : ∀ w, 0 ≤ (s.windows w).currentRegion) (w : Fin windowCount) :
    0 ≤ (s'.windows w).currentRegion := by
  have hset : ∀ f, 0 ≤ f.currentRegion → 0 ≤ ((s.setField f).windows w).currentRegion := by
    intro f hf
    show 0 ≤ (Function.update s.windows s.currentWindow f w).currentRegion
    by_cases hw : w = s.currentWindow
    · subst hw
      rw [Function.update_self]
      exact hf
    · rw [Function.update_of_ne hw]
      exact h0 w
  cases hm : moveTail s p with
  | some tail =>
    rw [onKey_of_moveTail hm] at h
    obtain ⟨-, rfl⟩ := enterPath_eq_some_iff.1 h
    exact hset _ (Int.le_refl 0)
  | none =>
    rcases onKey_cases h hm with ⟨f, hs, rfl⟩ | rfl | rfl
    · exact hset f (region_nonneg_scrolls (h0 s.currentWindow) hs)
    · exact h0 w
    · exact h0 w

/-- `print_files` of the focused window restores what the array is for. -/
theorem logged_relist {reading : Reading} (hr : ∀ w, 0 ≤ (u.nav.windows w).currentRegion)
    (hc : ∀ c ∈ u.log, 0 ≤ c.field.currentRegion) : Logged (relist getmaxy reading u) where
  region := hr
  calls c h := by
    rcases List.mem_append.1 h with h | h
    · exact hc c h
    · rw [List.mem_singleton.1 h]
      exact hr u.nav.currentWindow
  read := ⟨_, List.mem_append_right _ List.mem_cons_self, latest_concat, fun hfit =>
    readFiles_fst hfit u.nav.d⟩

theorem logged_turn (hi : Logged u) (h : turn getmaxy u t = some u') : Logged u' := by
  unfold turn at h
  split at h
  · rw [← Option.some.inj h]
    exact hi
  · obtain ⟨s, hs, rfl⟩ := Option.map_eq_some_iff.1 h
    have hcalls : ∀ c ∈ u.log ++ popupCalls getmaxy u.nav t, 0 ≤ c.field.currentRegion := by
      intro c hc
      rcases List.mem_append.1 hc with hc | hc
      · exact hi.calls c hc
      · unfold popupCalls at hc
        split at hc
        · obtain ⟨w, -, rfl⟩ := List.mem_map.1 hc
          exact hi.region w
        · exact absurd hc List.not_mem_nil
    have hr := @logged_relist getmaxy ⟨s, u.log ++ popupCalls getmaxy u.nav t⟩ t.list
      (region_nonneg_onKey hs hi.region) hcalls
    exact ⟨hr.region, hr.calls, hr.read⟩

variable {opening : Fin 3 → Reading} {paths : Fin windowCount → PathName} {cwd : Dir} {turns : List Turn}

theorem logged_openSession : Logged (openSession getmaxy opening paths cwd) := by
  refine logged_relist (fun _ => Int.le_refl 0) fun c hc => ?_
  rcases List.mem_append.1 hc with hc | hc
  · rcases List.mem_append.1 hc with hc | hc
    · exact absurd hc List.not_mem_nil
    · rw [List.mem_singleton.1 hc]
      exact Int.le_refl 0
  · rw [List.mem_singleton.1 hc]
    exact Int.le_refl 0

theorem logged_session (h : session getmaxy (openSession getmaxy opening paths cwd) turns = some u) :
    Logged u :=
  run_inv (fun _ u => Logged u) logged_openSession (fun _ _ _ _ hi hs => logged_turn hi hs) h

/-- An index is in range if the last call has read so far and the entry is still there. -/
theorem inRange_index_iff {c : Call} {heap : Heap} {d : List Dirent} (hd : c.entries <+: d) {i : Int} :
    (∃ k : Nat, i = k ∧ ∃ e, c.entries[k]? = some e ∧ entryAt heap d i = some e) ↔
      0 ≤ i ∧ i < c.entries.length ∧ KeptAt heap c.entries i := by
  constructor
  · rintro ⟨k, rfl, e, he, hentry⟩
    have hlen := (List.getElem?_eq_some_iff.1 he).1
    refine ⟨Int.natCast_nonneg k, by omega, ?_⟩
    exact (keptAt_iff hd (Int.natCast_nonneg k) (by omega)).1 ⟨e, he, hentry⟩
  · rintro ⟨h0, hlt, hkept⟩
    exact ⟨i.toNat, by omega, (keptAt_iff hd h0 hlt).2 hkept⟩

/-- An entry that is as it was read has the type that was read. -/
theorem entryAt_of_keptAt {heap : Heap} {entries d : List Dirent} (hd : entries <+: d) {i : Int}
    (h0 : 0 ≤ i) (hlt : i < entries.length) (hkept : KeptAt heap entries i) :
    entryAt heap d i = entries[i.toNat]? := by
  obtain ⟨e, he, hentry⟩ := (keptAt_iff hd h0 hlt).2 hkept
  rw [hentry, he]

theorem enterInRange_iff (hi : Logged u) (hfit : ∀ c ∈ u.log, c.entries.length ≤ c.capacity) (heap : Heap) :
    EnterInRange u heap ↔ EnterMeetsListing u heap := by
  obtain ⟨c, hc, hlatest, hd⟩ := hi.read
  have hd := hd (hfit c hc)
  have h0 : 0 ≤ u.nav.field.currentRegion := hi.region u.nav.currentWindow
  unfold EnterInRange EnterMeetsListing
  rw [hlatest]
  simp only [Option.some.injEq, exists_eq_left', inRange_index_iff hd]
  unfold inspected
  rw [List.forall_mem_cons, and_assoc, and_assoc]
  refine and_congr_right fun hline => and_congr_right fun hlt => and_congr_right fun hkept => ?_
  rw [entryAt_of_keptAt hd hline hlt hkept]
  split
  · next hdir =>
    rw [List.forall_mem_singleton]
    exact ⟨fun h _ => h.2, fun h => ⟨Int.add_nonneg h0 hline, h hdir⟩⟩
  · next hdir => exact ⟨fun _ h => absurd h hdir, fun _ _ h => absurd h List.not_mem_nil⟩

/-- What is in range has been found. -/
theorem enterFinds_of_inRange {heap : Heap} (h : EnterInRange u heap) : EnterFinds u.nav heap := by
  obtain ⟨c, -, hall⟩ := h
  obtain ⟨-, -, tested, -, ht⟩ := hall _ List.mem_cons_self
  refine ⟨tested, ht, fun hdir => ?_⟩
  obtain ⟨-, -, named, -, hn⟩ := hall (u.nav.field.currentRegion + u.nav.field.currentLine) (by
    unfold inspected
    rw [ht, Option.map_some, hdir, if_pos rfl]
    exact List.mem_cons_of_mem _ List.mem_cons_self)
  exact ⟨named, hn⟩

/-- The condition on a turn. -/
def TurnDefined (u : Session) (t : Turn) : Prop :=
  u.nav.quit = false → (Key.ofCode t.press.code = .enter → EnterFinds u.nav t.press.heap) ∧
    ∀ tail, moveTail u.nav t.press = some tail →
      (u.nav.field.currentPath ++ tail).length < pathCapacity

theorem turn_exists_iff : (∃ u', turn getmaxy u t = some u') ↔ TurnDefined u t := by
  unfold turn TurnDefined
  cases u.nav.quit with
  | true =>
    refine ⟨fun _ h => ?_, fun _ => ⟨u, rfl⟩⟩
    cases h
  | false =>
    simp only [forall_const, ← @onKey_exists_iff t.move getmaxy]
    constructor
    · rintro ⟨u', h⟩
      obtain ⟨s, hs, -⟩ := Option.map_eq_some_iff.1 h
      exact ⟨s, hs⟩
    · rintro ⟨s, hs⟩
      rw [if_neg (by decide), hs]
      exact ⟨_, rfl⟩

end

/-- **Changing directories.**  Whatever happens to the directories between the calls, the program takes
all keys, every call of `print_files` stays in its array and shows what it read, and Enter looks at
what was read, if and only if every directory fits and goes beyond its region, the cursor is on what
was read at every Enter, the entries looked at are still as they were read, and the paths fit. -/
theorem navigate_inRange_iff (getmaxy : Fin windowCount → Nat) (opening : Fin 3 → Reading)
    (paths : Fin windowCount → PathName) (cwd : Dir) (turns : List Turn) :
    (∃ u, session getmaxy (openSession getmaxy opening paths cwd) turns = some u) ∧
        Along getmaxy (openSession getmaxy opening paths cwd) turns Call.InRange EnterInRange ↔
      Along getmaxy (openSession getmaxy opening paths cwd) turns Call.Meets EnterMeetsListing ∧
        ∀ pre t u tail, pre ++ [t] <+: turns →
          session getmaxy (openSession getmaxy opening paths cwd) pre = some u → u.nav.quit = false →
          moveTail u.nav t.press = some tail →
          (u.nav.field.currentPath ++ tail).length < pathCapacity := by
  have hruns : (∃ u, session getmaxy (openSession getmaxy opening paths cwd) turns = some u) ↔
      ∀ pre t u, pre ++ [t] <+: turns →
        session getmaxy (openSession getmaxy opening paths cwd) pre = some u → TurnDefined u t :=
    run_exists_iff trivial (fun _ _ _ _ _ => trivial) fun _ _ _ => turn_exists_iff
  have halong : Along getmaxy (openSession getmaxy opening paths cwd) turns Call.InRange EnterInRange ↔
      Along getmaxy (openSession getmaxy opening paths cwd) turns Call.Meets EnterMeetsListing := by
    have hcalls : ∀ pre u, session getmaxy (openSession getmaxy opening paths cwd) pre = some u →
        ((∀ c ∈ u.log, c.InRange) ↔ ∀ c ∈ u.log, c.Meets) := fun pre u hrun =>
      forall_congr' fun c => imp_congr_right fun hc => Call.inRange_iff ((logged_session hrun).calls c hc)
    refine (and_congr_left' ?_).trans (and_congr_right fun hmeets => ?_)
    · refine forall_congr' fun pre => forall_congr' fun u => imp_congr_right fun _ => ?_
      exact imp_congr_right fun hrun => hcalls pre u hrun
    · refine forall_congr' fun pre => forall_congr' fun t => forall_congr' fun u => ?_
      refine imp_congr_right fun hpre => imp_congr_right fun hrun => ?_
      refine imp_congr_right fun _ => imp_congr_right fun _ => enterInRange_iff (logged_session hrun) ?_ _
      exact fun c hc => (hmeets pre u ((List.prefix_append pre [t]).trans hpre) hrun c hc).1
  rw [hruns, halong]
  constructor
  · rintro ⟨hdefined, hmeets⟩
    refine ⟨hmeets, fun pre t u tail hpre hrun hq hm => ?_⟩
    exact (hdefined pre t u hpre hrun hq).2 tail hm
  · rintro ⟨hmeets, hpaths⟩
    refine ⟨fun pre t u hpre hrun hq => ⟨fun hk => ?_, ?_⟩, hmeets⟩
    · exact enterFinds_of_inRange ((halong.2 hmeets).2 pre t u hpre hrun hq hk)
    · exact fun tail hm => hpaths pre t u tail hpre hrun hq hm

/-- The directory of the left window is gone after the first key: the call that fails to open it
shows the line of an entry it has not read. -/
theorem navigate_listing_gone :
    let here : Dirs := ⟨fun _ => some [⟨[46], 4⟩, ⟨[46, 46], 4⟩], fun _ => some 0, fun _ => some [47]⟩
    let gone : Dirs := ⟨fun _ => none, fun _ => none, fun _ => none⟩
    let u₀ := openSession (fun _ => 1) (fun _ => ⟨here, kept⟩) (fun _ => [47]) 0
    let turns : List Turn := [⟨Press.ofCode 0, here, fun _ => ⟨here, kept⟩, ⟨gone, kept⟩⟩]
    ¬ ((∃ u, session (fun _ => 1) u₀ turns = some u) ∧
      Along (fun _ => 1) u₀ turns Call.InRange EnterInRange) := by
  intro here gone u₀ turns h
  obtain ⟨-, hrows⟩ := h.2.1 _ _ (List.prefix_refl _) rfl _ (List.mem_append_right _ List.mem_cons_self)
  obtain ⟨i, -, e, he, -⟩ := hrows _ List.mem_cons_self
  cases he

/-! ## Directories that do not change -/

/-- The turn of a key when nothing happens to the directories, nor to the entries until they are shown. -/
def Turn.ofPress (dirs : Dirs) (p : Press) : Turn := ⟨p, dirs, fun _ => ⟨dirs, kept⟩, ⟨dirs, kept⟩⟩

section
variable {dirs : Dirs} {getmaxy : Fin windowCount → Nat} {s s' : Nav} {p : Press}

theorem turn_ofPress {log : List Call} (h : step dirs getmaxy s p = some s') :
    ∃ log', turn getmaxy ⟨s, log⟩ (Turn.ofPress dirs p) = some ⟨s', log'⟩ := by
  cases hq : s.quit with
  | true =>
    rw [step_quit hq] at h
    obtain rfl := Option.some.inj h
    exact ⟨log, if_pos hq⟩
  | false =>
    obtain ⟨v, hv, -, rfl⟩ := (step_cases hq).1 h
    have hkey : onKey (Turn.ofPress dirs p).move getmaxy s (Turn.ofPress dirs p).press = some v := hv
    unfold turn
    rw [if_neg (by rw [hq]; decide), hkey]
    exact ⟨_, rfl⟩

/-- A run over directories that do not change is that of a session. -/
theorem session_ofPress {presses : List Press} {log : List Call}
    (h : navigate dirs getmaxy s presses = some s') :
    ∃ log', session getmaxy ⟨s, log⟩ (presses.map (Turn.ofPress dirs)) = some ⟨s', log'⟩ := by
  induction presses generalizing s log with
  | nil =>
    obtain rfl := Option.some.inj h
    exact ⟨log, rfl⟩
  | cons p presses ih =>
    rw [navigate, run_cons, Option.bind_eq_some_iff] at h
    obtain ⟨v, hv, h⟩ := h
    obtain ⟨log₁, h₁⟩ := @turn_ofPress dirs getmaxy s v p log hv
    obtain ⟨log', h'⟩ := @ih v log₁ h
    refine ⟨log', ?_⟩
    rw [List.map_cons, session, run_cons, h₁]
    exact h'

/-- **The program is a session.** -/
theorem session_of_main {paths : Fin windowCount → PathName} {cwd : Dir} {presses : List Press}
    (h : main dirs getmaxy paths cwd presses = some s) :
    ∃ log, session getmaxy (openSession getmaxy (fun _ => ⟨dirs, kept⟩) paths cwd)
      (presses.map (Turn.ofPress dirs)) = some ⟨s, log⟩ := by
  obtain ⟨s₀, h₀, hs⟩ := main_eq_some_iff.1 h
  have hopen : openSession getmaxy (fun _ => ⟨dirs, kept⟩) paths cwd =
      ⟨s₀, (openSession getmaxy (fun _ => ⟨dirs, kept⟩) paths cwd).log⟩ := by
    obtain ⟨u, hu, h₀⟩ := Option.bind_eq_some_iff.1 h₀
    obtain ⟨v, hv, hu⟩ := Option.bind_eq_some_iff.1 hu
    obtain ⟨-, hv⟩ := Option.ite_none_right_eq_some.1 hv
    obtain rfl := Option.some.inj hv
    obtain ⟨-, hu⟩ := Option.ite_none_right_eq_some.1 hu
    obtain rfl := Option.some.inj hu
    obtain ⟨-, rfl⟩ := refresh_eq_some_iff.1 h₀
    rfl
  rw [hopen]
  exact session_ofPress hs

end

end Eltex.TextManager
