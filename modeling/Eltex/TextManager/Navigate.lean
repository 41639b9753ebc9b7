import Eltex.Lib.Run
import Eltex.TextManager.PrintFiles
import Mathlib.Algebra.GroupWithZero.Nat
import Mathlib.Data.Fin.Basic

/-!
# Keys and the two windows

`navigate` keeps the focused window, the array filled by the last `print_files`
and the count it returned, and acts on one key code after another.  A key moves
the region and the line of the focused window, leads it to another directory
with both at zero, or switches to the other window (`onKey_cases`).

Nothing checks that a path fits `current_path` or a listing the array, and past
either the other fields, the windows and the locals are overwritten, so such a
step has no successor here.  `main_exists_iff`: a run gets to its end if
and only if the first listings fit and every key is `KeyDefined`.

With directories that list at least two entries the cursor of each window stays
on an entry `print_files` shows, as long as everything fits
(`navigate_cursorOk_iff`).
-/

namespace Eltex.TextManager

open Files (PathName)
open Runs

/-- `WINDOW_COUNT` -/
abbrev windowCount : Nat := 2

instance : NeZero windowCount := ⟨by decide⟩

inductive Key where
  | down
  | up
  | npage
  | ppage
  | enter
  | updir
  | yank
  | tab
  | other
deriving Repr, DecidableEq

/-- The `switch` on what `getch` returns. -/
def Key.ofCode (c : Int) : Key :=
  if c = 258 ∨ c = 106 then .down -- KEY_DOWN, 'j'
  else if c = 259 ∨ c = 107 then .up -- KEY_UP, 'k'
  else if c = 338 ∨ c = 100 then .npage -- KEY_NPAGE, 'd'
  else if c = 339 ∨ c = 117 then .ppage -- KEY_PPAGE, 'u'
  else if c = 10 ∨ c = 108 then .enter -- Enter, 'l'
  else if c = 104 then .updir -- 'h'
  else if c = 121 then .yank -- 'y'
  else if c = 9 then .tab
  else .other

/-- `'q'` -/
def quitCode : Int := 113

/-- `d` of `navigate` -/
def navigateCapacity : Nat := 256

/-- What `getch` returns, and what then lies where the entries had been read. -/
structure Press where
  code : Int
  heap : Heap

/-- A key that finds the entries as they were read. -/
def Press.ofCode (c : Int) : Press := ⟨c, kept⟩

structure Nav where
  windows : Fin windowCount → Field
  /-- working directory of the process -/
  cwd : Dir
  currentWindow : Fin windowCount
  d : Slots navigateCapacity
  fileCount : Int
  /-- the loop is over -/
  quit : Bool

namespace Nav

variable (s : Nav)

def field : Field := s.windows s.currentWindow

def setField (f : Field) : Nav := { s with windows := Function.update s.windows s.currentWindow f }

end Nav

/-! ## The keys -/

def filesPerRegion (fileCount h : Int) : Int :=
  let files := if fileCount < h then fileCount else h - 1
  if fileCount = files then files - 1 else files

def keyDown (fileCount h : Int) (f : Field) : Field :=
  let line := f.currentLine + 1
  if line > h - 1 then
    let region := f.currentRegion + 1
    if region > fileCount - h then
      let region := fileCount - h
      { f with
        currentRegion := if region < 0 then 0 else region
        currentLine := min h (filesPerRegion fileCount h) }
    else { f with currentRegion := region, currentLine := h - 1 }
  else if line > filesPerRegion fileCount h then { f with currentLine := filesPerRegion fileCount h }
  else { f with currentLine := line }

def keyUp (f : Field) : Field :=
  let line := f.currentLine - 1
  if line < 0 then
    let region := f.currentRegion - 1
    { f with currentRegion := if region < 0 then 0 else region, currentLine := 0 }
  else { f with currentLine := line }

def keyNpage (fileCount h : Int) (f : Field) : Field :=
  let region := f.currentRegion + h
  if region > fileCount - h then
    let region := fileCount - h
    { f with
      currentRegion := if region < 0 then 0 else region
      currentLine := min h (filesPerRegion fileCount h) }
  else { f with currentRegion := region }

def keyPpage (h : Int) (f : Field) : Field :=
  let region := f.currentRegion - h
  if region < 0 then { f with currentRegion := 0, currentLine := 0 }
  else { f with currentRegion := region }

/-- The focused window led to `path ++ tail`. -/
def movedTo (dirs : Dirs) (s : Nav) (tail : List UInt8) : Nav :=
  let (cwd, path) := clearPath dirs s.cwd (s.field.currentPath ++ tail)
  { s.setField { currentPath := path, currentRegion := 0, currentLine := 0 } with cwd := cwd }

/-- `strcat` of `tail` and `clear_path`; `none` where the path outgrows `current_path`. -/
def enterPath (dirs : Dirs) (s : Nav) (tail : List UInt8) : Option Nav :=
  if (s.field.currentPath ++ tail).length < pathCapacity then some (movedTo dirs s tail) else none

/-- Enter tests the type of one entry and appends the name of another; `none` also where
nothing was ever stored in the array. -/
def keyEnter (dirs : Dirs) (heap : Heap) (s : Nav) : Option Nav :=
  (entryAt heap s.d.1 s.field.currentLine).bind fun tested =>
    if tested.dType = dtDir then
      (entryAt heap s.d.1 (s.field.currentRegion + s.field.currentLine)).bind fun named =>
        enterPath dirs s (47 :: named.dName)
    else some s

/-- One key; `getmaxy` gives the height of each window. -/
def onKey (dirs : Dirs) (getmaxy : Fin windowCount → Nat) (s : Nav) (p : Press) : Option Nav :=
  let h : Int := getmaxy s.currentWindow
  match Key.ofCode p.code with
  | .down => some (s.setField (keyDown s.fileCount h s.field))
  | .up => some (s.setField (keyUp s.field))
  | .npage => some (s.setField (keyNpage s.fileCount h s.field))
  | .ppage => some (s.setField (keyPpage h s.field))
  | .enter => keyEnter dirs p.heap s
  | .updir => enterPath dirs s [47, 46, 46]
  | .yank => some s -- a popup, and the `break` behind it
  | .tab => some { s with currentWindow := s.currentWindow + 1 }
  | .other => some s

/-- `print_files(w, d)`; `none` where it stores past the array. -/
def printWindow (dirs : Dirs) (s : Nav) (w : Fin windowCount) : Option Nav :=
  if Fits dirs navigateCapacity (s.windows w).currentPath then
    some { s with d := (readFiles dirs (s.windows w).currentPath s.d).1 }
  else none

/-- Array and count after the focused window has been read. -/
def relisted (dirs : Dirs) (s : Nav) : Nav :=
  let (d, fileCount) := readFiles dirs s.field.currentPath s.d
  { s with d := d, fileCount := fileCount }

/-- `file_count = print_files(current_window, d)` -/
def refresh (dirs : Dirs) (s : Nav) : Option Nav :=
  if Fits dirs navigateCapacity s.field.currentPath then some (relisted dirs s) else none

/-- One turn of the loop. -/
def step (dirs : Dirs) (getmaxy : Fin windowCount → Nat) (s : Nav) (p : Press) : Option Nav :=
  if s.quit then some s
  else
    (onKey dirs getmaxy s p).bind fun s =>
      (refresh dirs s).map fun s => { s with quit := decide (p.code = quitCode) }

/-- Both windows at the start of their directories, as `main` leaves them. -/
def atStart (paths : Fin windowCount → PathName) (cwd : Dir) : Nav where
  windows w := ⟨paths w, 0, 0⟩
  cwd := cwd
  currentWindow := 0
  d := Slots.empty navigateCapacity
  fileCount := 0
  quit := false

/-- Before the first key: each window is printed, then the focused one. -/
def start (dirs : Dirs) (paths : Fin windowCount → PathName) (cwd : Dir) : Option Nav :=
  ((printWindow dirs (atStart paths cwd) 0).bind fun s => printWindow dirs s 1).bind (refresh dirs)

def navigate (dirs : Dirs) (getmaxy : Fin windowCount → Nat) (s : Nav) (presses : List Press) : Option Nav :=
  run (step dirs getmaxy) s presses

/-- The program, up to where it has taken the presses. -/
def main (dirs : Dirs) (getmaxy : Fin windowCount → Nat) (paths : Fin windowCount → PathName) (cwd : Dir)
    (presses : List Press) : Option Nav :=
  (start dirs paths cwd).bind fun s => navigate dirs getmaxy s presses

/-! ## What a key can do -/

/-- The four scroll keys. -/
def Scrolls (fileCount h : Int) (f f' : Field) : Prop :=
  f' = keyDown fileCount h f ∨ f' = keyUp f ∨ f' = keyNpage fileCount h f ∨ f' = keyPpage h f

/-- What a key appends to the path of the focused window, if it moves it. -/
def moveTail (s : Nav) (p : Press) : Option (List UInt8) :=
  match Key.ofCode p.code with
  | .enter =>
    (entryAt p.heap s.d.1 s.field.currentLine).bind fun tested =>
      if tested.dType = dtDir then
        (entryAt p.heap s.d.1 (s.field.currentRegion + s.field.currentLine)).map fun named =>
          47 :: named.dName
      else none
  | .updir => some [47, 46, 46]
  | _ => none

/-- Everything Enter looks at has been stored. -/
def EnterFinds (s : Nav) (heap : Heap) : Prop :=
  ∃ tested, entryAt heap s.d.1 s.field.currentLine = some tested ∧
    (tested.dType = dtDir →
      ∃ named, entryAt heap s.d.1 (s.field.currentRegion + s.field.currentLine) = some named)

section
variable {dirs : Dirs} {getmaxy : Fin windowCount → Nat} {s s' : Nav} {p : Press}

theorem enterPath_eq_some_iff {tail : List UInt8} :
    enterPath dirs s tail = some s' ↔
      (s.field.currentPath ++ tail).length < pathCapacity ∧ s' = movedTo dirs s tail := by
  unfold enterPath
  split
  · next hlt => exact ⟨fun h => ⟨hlt, (Option.some.inj h).symm⟩, fun h => by rw [h.2]⟩
  · next hge => exact ⟨fun h => absurd h.symm (Option.some_ne_none _), fun h => absurd h.1 hge⟩

/-- A key that moves sends the focused window through `clear_path`. -/
theorem onKey_of_moveTail {tail : List UInt8} (h : moveTail s p = some tail) :
    onKey dirs getmaxy s p = enterPath dirs s tail := by
  unfold moveTail at h
  unfold onKey
  split at h
  · next hk =>
    obtain ⟨tested, ht, h⟩ := Option.bind_eq_some_iff.1 h
    split at h
    · next hdir =>
      obtain ⟨named, hn, rfl⟩ := Option.map_eq_some_iff.1 h
      simp only [hk]
      rw [keyEnter, ht, Option.bind_some, if_pos hdir, hn]
      rfl
    · exact absurd h (Option.some_ne_none _).symm
  · next hk =>
    obtain rfl := Option.some.inj h
    simp only [hk]
  · exact absurd h (Option.some_ne_none _).symm

/-- A key that does not scrolls, switches or does nothing. -/
theorem onKey_cases (h : onKey dirs getmaxy s p = some s') (hm : moveTail s p = none) :
    (∃ f, Scrolls s.fileCount (getmaxy s.currentWindow) s.field f ∧ s' = s.setField f) ∨
      s' = { s with currentWindow := s.currentWindow + 1 } ∨ s' = s := by
  unfold onKey at h
  unfold moveTail at hm
  cases hk : Key.ofCode p.code with
  | down =>
    simp only [hk] at h
    exact Or.inl ⟨_, Or.inl rfl, (Option.some.inj h).symm⟩
  | up =>
    simp only [hk] at h
    exact Or.inl ⟨_, Or.inr (Or.inl rfl), (Option.some.inj h).symm⟩
  | npage =>
    simp only [hk] at h
    exact Or.inl ⟨_, Or.inr (Or.inr (Or.inl rfl)), (Option.some.inj h).symm⟩
  | ppage =>
    simp only [hk] at h
    exact Or.inl ⟨_, Or.inr (Or.inr (Or.inr rfl)), (Option.some.inj h).symm⟩
  | enter =>
    simp only [hk] at h hm
    obtain ⟨tested, ht, h⟩ := Option.bind_eq_some_iff.1 h
    rw [ht, Option.bind_some] at hm
    split at h
    · next hdir =>
      -- the name has been found, so the key would move
      obtain ⟨named, hn, -⟩ := Option.bind_eq_some_iff.1 h
      rw [if_pos hdir, hn] at hm
      exact absurd hm (Option.some_ne_none _)
    · exact Or.inr (Or.inr (Option.some.inj h).symm)
  | updir =>
    simp only [hk] at hm
    exact absurd hm (Option.some_ne_none _)
  | tab =>
    simp only [hk] at h
    exact Or.inr (Or.inl (Option.some.inj h).symm)
  | yank | other =>
    simp only [hk] at h
    exact Or.inr (Or.inr (Option.some.inj h).symm)

/-- Such a key is handled, if Enter finds what it looks at. -/
theorem exists_onKey_iff (hm : moveTail s p = none) :
    (∃ s', onKey dirs getmaxy s p = some s') ↔ (Key.ofCode p.code = .enter → EnterFinds s p.heap) := by
  unfold onKey
  unfold moveTail at hm
  cases hk : Key.ofCode p.code with
  | enter =>
    simp only [hk] at hm
    simp only [forall_const]
    unfold keyEnter EnterFinds
    cases ht : entryAt p.heap s.d.1 s.field.currentLine with
    | none =>
      constructor
      · rintro ⟨s', h⟩
        exact absurd h.symm (Option.some_ne_none _)
      · rintro ⟨tested, h, -⟩
        exact absurd h.symm (Option.some_ne_none _)
    | some tested =>
      rw [ht, Option.bind_some] at hm
      rw [Option.bind_some]
      by_cases hdir : tested.dType = dtDir
      · rw [if_pos hdir, Option.map_eq_none_iff] at hm
        rw [if_pos hdir, hm]
        constructor
        · rintro ⟨s', h⟩
          exact absurd h.symm (Option.some_ne_none _)
        · rintro ⟨tested', h, hnamed⟩
          obtain rfl := Option.some.inj h
          obtain ⟨named, hn⟩ := hnamed hdir
          exact absurd hn.symm (Option.some_ne_none _)
      · rw [if_neg hdir]
        exact ⟨fun _ => ⟨tested, rfl, fun h => absurd h hdir⟩, fun _ => ⟨s, rfl⟩⟩
  | updir =>
    simp only [hk] at hm
    exact absurd hm (Option.some_ne_none _)
  | down | up | npage | ppage | yank | tab | other =>
    refine ⟨fun _ h => ?_, fun _ => ⟨_, rfl⟩⟩
    cases h

/-- What moves has found what it looked at. -/
theorem enterFinds_of_moveTail {tail : List UInt8} (hm : moveTail s p = some tail)
    (hk : Key.ofCode p.code = .enter) : EnterFinds s p.heap := by
  unfold moveTail at hm
  rw [hk] at hm
  obtain ⟨tested, ht, hm⟩ := Option.bind_eq_some_iff.1 hm
  split at hm
  · obtain ⟨named, hn, -⟩ := Option.map_eq_some_iff.1 hm
    exact ⟨tested, ht, fun _ => ⟨named, hn⟩⟩
  · exact absurd hm (Option.some_ne_none _).symm

/-- A key is handled if Enter finds what it looks at and the path still fits `current_path`. -/
theorem onKey_exists_iff :
    (∃ s', onKey dirs getmaxy s p = some s') ↔ (Key.ofCode p.code = .enter → EnterFinds s p.heap) ∧
      ∀ tail, moveTail s p = some tail → (s.field.currentPath ++ tail).length < pathCapacity := by
  cases hm : moveTail s p with
  | none =>
    rw [exists_onKey_iff hm]
    exact ⟨fun h => ⟨h, fun tail ht => absurd ht.symm (Option.some_ne_none _)⟩, fun h => h.1⟩
  | some tail =>
    rw [onKey_of_moveTail hm]
    constructor
    · rintro ⟨s', h⟩
      refine ⟨enterFinds_of_moveTail hm, fun tail' ht => ?_⟩
      rw [← Option.some.inj ht]
      exact (enterPath_eq_some_iff.1 h).1
    · rintro ⟨-, h⟩
      exact ⟨_, enterPath_eq_some_iff.2 ⟨h tail rfl, rfl⟩⟩

end

/-! ## The cursor -/

/-- The cursor of a window of height `h` on a directory for which `print_files` returns `n`. -/
structure CursorOk (n h : Int) (f : Field) : Prop where
  region_nonneg : 0 ≤ f.currentRegion
  region_le : f.currentRegion ≤ max 0 (n - h)
  line_nonneg : 0 ≤ f.currentLine
  line_le : f.currentLine ≤ min n h - 1

section
variable {n h : Int}

theorem cursorOk_zero (hn : 1 ≤ n) (hh : 1 ≤ h) (path : PathName) : CursorOk n h ⟨path, 0, 0⟩ := by
  constructor
  · show (0 : Int) ≤ 0
    omega
  · show (0 : Int) ≤ max 0 (n - h)
    omega
  · show (0 : Int) ≤ 0
    omega
  · show (0 : Int) ≤ min n h - 1
    omega

/-- The last line of a screen, be it full or not. -/
theorem filesPerRegion_eq (n h : Int) : filesPerRegion n h = min n h - 1 := by
  unfold filesPerRegion
  simp only
  by_cases hlt : n < h
  · rw [if_pos hlt, if_pos rfl]
    omega
  · rw [if_neg hlt, if_neg (by omega)]
    omega

/-- The cursor is on an entry before the last. -/
theorem CursorOk.sum_lt {f : Field} (hc : CursorOk n h f) : f.currentRegion + f.currentLine < n := by
  obtain ⟨h1, h2, h3, h4⟩ := hc
  omega

theorem clamp_eq (x : Int) : (if x < 0 then 0 else x) = max 0 x := by
  split <;> omega

variable {f : Field}

theorem cursorOk_keyDown (hc : CursorOk n h f) : CursorOk n h (keyDown n h f) := by
  obtain ⟨h1, h2, h3, h4⟩ := hc
  unfold keyDown
  simp only [filesPerRegion_eq, clamp_eq]
  by_cases hlast : f.currentLine + 1 > h - 1
  · rw [if_pos hlast]
    by_cases hend : f.currentRegion + 1 > n - h
    · rw [if_pos hend]
      constructor <;> simp only <;> omega
    · rw [if_neg hend]
      constructor <;> simp only <;> omega
  · rw [if_neg hlast]
    split
    · constructor <;> simp only <;> omega
    · constructor <;> simp only <;> omega

theorem cursorOk_keyUp (hc : CursorOk n h f) : CursorOk n h (keyUp f) := by
  obtain ⟨h1, h2, h3, h4⟩ := hc
  unfold keyUp
  simp only [clamp_eq]
  split
  · constructor <;> simp only <;> omega
  · constructor <;> simp only <;> omega

theorem cursorOk_keyNpage (hc : CursorOk n h f) : CursorOk n h (keyNpage n h f) := by
  obtain ⟨h1, h2, h3, h4⟩ := hc
  unfold keyNpage
  simp only [filesPerRegion_eq, clamp_eq]
  split
  · constructor <;> simp only <;> omega
  · constructor <;> simp only <;> omega

theorem cursorOk_keyPpage (hc : CursorOk n h f) : CursorOk n h (keyPpage h f) := by
  obtain ⟨h1, h2, h3, h4⟩ := hc
  unfold keyPpage
  simp only
  split
  · constructor <;> simp only <;> omega
  · constructor <;> simp only <;> omega

theorem cursorOk_scrolls (hc : CursorOk n h f) {f' : Field} (hs : Scrolls n h f f') :
    CursorOk n h f' := by
  rcases hs with rfl | rfl | rfl | rfl
  · exact cursorOk_keyDown hc
  · exact cursorOk_keyUp hc
  · exact cursorOk_keyNpage hc
  · exact cursorOk_keyPpage hc

end

theorem currentPath_scrolls {n h : Int} {f f' : Field} (hs : Scrolls n h f f') :
    f'.currentPath = f.currentPath := by
  rcases hs with rfl | rfl | rfl | rfl
  · unfold keyDown
    simp only
    split
    · split <;> rfl
    · split <;> rfl
  · unfold keyUp
    simp only
    split <;> rfl
  · unfold keyNpage
    simp only
    split <;> rfl
  · unfold keyPpage
    simp only
    split <;> rfl

/-! ## Steps -/

/-- What holds between two keys: both listings fit, count and array are those of the focused
window, and a window with entries to show has its cursor on them. -/
structure Sound (dirs : Dirs) (getmaxy : Fin windowCount → Nat) (s : Nav) : Prop where
  fits : ∀ w, Fits dirs navigateCapacity (s.windows w).currentPath
  count : s.fileCount = fileCountAt dirs s.field.currentPath
  read : readdirAll dirs s.field.currentPath <+: s.d.1
  cursor : ∀ w, 1 ≤ fileCountAt dirs (s.windows w).currentPath → 1 ≤ getmaxy w →
    CursorOk (fileCountAt dirs (s.windows w).currentPath) (getmaxy w) (s.windows w)

section
variable {dirs : Dirs} {getmaxy : Fin windowCount → Nat} {s s' : Nav} {p : Press}

theorem field_setField (s : Nav) (f : Field) : (s.setField f).field = f := by
  show Function.update s.windows s.currentWindow f s.currentWindow = f
  rw [Function.update_self]

theorem refresh_eq_some_iff :
    refresh dirs s = some s' ↔ Fits dirs navigateCapacity s.field.currentPath ∧ s' = relisted dirs s := by
  unfold refresh
  split
  · next hfit => exact ⟨fun h => ⟨hfit, (Option.some.inj h).symm⟩, fun h => by rw [h.2]⟩
  · next hfit => exact ⟨fun h => absurd h.symm (Option.some_ne_none _), fun h => absurd h.1 hfit⟩

/-- What a turn that is taken consists of. -/
theorem step_cases (hq : s.quit = false) :
    step dirs getmaxy s p = some s' ↔ ∃ u, onKey dirs getmaxy s p = some u ∧
      Fits dirs navigateCapacity u.field.currentPath ∧
      s' = { relisted dirs u with quit := decide (p.code = quitCode) } := by
  unfold step
  rw [if_neg (by rw [hq]; decide), Option.bind_eq_some_iff]
  refine exists_congr fun u => and_congr_right fun _ => ?_
  rw [Option.map_eq_some_iff]
  constructor
  · rintro ⟨v, hv, rfl⟩
    obtain ⟨hfit, rfl⟩ := refresh_eq_some_iff.1 hv
    exact ⟨hfit, rfl⟩
  · rintro ⟨hfit, rfl⟩
    exact ⟨_, refresh_eq_some_iff.2 ⟨hfit, rfl⟩, rfl⟩

theorem step_quit (hq : s.quit = true) : step dirs getmaxy s p = some s := by
  unfold step
  rw [if_pos hq]

/-- After `print_files` count and array are right, whatever they were. -/
theorem sound_relisted (hfits : ∀ w, Fits dirs navigateCapacity (s.windows w).currentPath)
    (h : ∀ w, 1 ≤ fileCountAt dirs (s.windows w).currentPath → 1 ≤ getmaxy w →
      CursorOk (fileCountAt dirs (s.windows w).currentPath) (getmaxy w) (s.windows w)) :
    Sound dirs getmaxy (relisted dirs s) where
  fits := hfits
  count := readFiles_snd
  read := readFiles_fst (hfits s.currentWindow) s.d
  cursor := h

end

/-! ## Runs -/

section
variable {dirs : Dirs} {getmaxy : Fin windowCount → Nat} {paths : Fin windowCount → PathName} {cwd : Dir}
  {presses : List Press} {s : Nav}

/-- The program gets to its first key if both listings fit. -/
theorem start_cases (h : start dirs paths cwd = some s) :
    (∀ w, Fits dirs navigateCapacity (paths w)) ∧
      ∃ d, s = relisted dirs { atStart paths cwd with d := d } := by
  unfold start at h
  obtain ⟨v, hv, h⟩ := Option.bind_eq_some_iff.1 h
  obtain ⟨u, hu, hv⟩ := Option.bind_eq_some_iff.1 hv
  obtain ⟨hfit₀, hu⟩ := Option.ite_none_right_eq_some.1 hu
  obtain rfl := Option.some.inj hu
  obtain ⟨hfit₁, hv⟩ := Option.ite_none_right_eq_some.1 hv
  obtain rfl := Option.some.inj hv
  obtain ⟨-, rfl⟩ := refresh_eq_some_iff.1 h
  refine ⟨fun w => ?_, _, rfl⟩
  match w with
  | 0 => exact hfit₀
  | 1 => exact hfit₁

theorem exists_start (h : ∀ w, Fits dirs navigateCapacity (paths w)) (cwd : Dir) :
    ∃ s, start dirs paths cwd = some s := by
  have hprint : ∀ d w, printWindow dirs { atStart paths cwd with d := d } w =
      some { atStart paths cwd with d := (readFiles dirs (paths w) d).1 } := fun d w => if_pos (h w)
  have hfirst := hprint (atStart paths cwd).d 0
  unfold start
  rw [hfirst, Option.bind_some, hprint, Option.bind_some]
  exact ⟨_, refresh_eq_some_iff.2 ⟨h 0, rfl⟩⟩

theorem sound_start (h : start dirs paths cwd = some s) : Sound dirs getmaxy s := by
  obtain ⟨hfits, d, rfl⟩ := start_cases h
  refine sound_relisted hfits fun w hn hh => ?_
  exact cursorOk_zero hn (by omega) _

theorem main_eq_some_iff :
    main dirs getmaxy paths cwd presses = some s ↔
      ∃ s₀, start dirs paths cwd = some s₀ ∧ navigate dirs getmaxy s₀ presses = some s :=
  Option.bind_eq_some_iff

end

/-! ## The cursor over a run -/

/-- One line is selected, the cursor's, on an entry that was read, and the display stops before
the entry that is counted last. -/
structure Shows {capacity : Nat} (entries : List Dirent) (heap : Heap) (listing : Listing capacity)
    (f : Field) : Prop where
  selected : ∃ (i : Nat) (e : Dirent), f.currentRegion + f.currentLine = i ∧ entries[i]? = some e ∧
    listing.rows.filter Row.Selected = [⟨i, some (heap i e), .selected⟩]
  sum_lt : f.currentRegion + f.currentLine < listing.fileCount
  stops : ∀ r ∈ listing.rows, r.index < listing.fileCount

section
variable {dirs : Dirs} {getmaxy : Fin windowCount → Nat}

/-- What `print_files` shows of a window with its cursor on the listing, whatever the display finds
of the entries. -/
theorem shows_of_cursorOk {capacity h : Nat} {f : Field} (heap : Heap) (d : Slots capacity)
    (hfit : Fits dirs capacity f.currentPath) (hc : CursorOk (fileCountAt dirs f.currentPath) h f) :
    Shows (readdirAll dirs f.currentPath) heap (printFiles dirs heap h f d) f := by
  have hcount : (printFiles dirs heap h f d).fileCount = fileCountAt dirs f.currentPath :=
    printFiles_fileCount
  have hrows : (printFiles dirs heap h f d).rows =
      showRows heap (readFiles dirs f.currentPath d).1.1 f (fileCountAt dirs f.currentPath) h
        f.currentRegion := by
    rw [← hcount]
    rfl
  have hsum := hc.sum_lt
  obtain ⟨h1, h2, h3, h4⟩ := hc
  constructor
  · rw [hrows, filter_selected_showRows hsum h3 (by omega)]
    rw [fileCountAt_eq] at hsum
    obtain ⟨e, he, hd⟩ := entryAt_of_prefix heap (readFiles_fst hfit d) (Int.add_nonneg h1 h3)
      (by omega)
    refine ⟨(f.currentRegion + f.currentLine).toNat, e, by omega, he, ?_⟩
    rw [rowAt, hd, if_pos (by omega), Int.toNat_of_nonneg (by omega)]
  · rw [hcount]
    exact hsum
  · intro r hr
    rw [hrows, showRows_eq h (by omega), List.mem_map] at hr
    obtain ⟨k, hk, rfl⟩ := hr
    rw [List.mem_range] at hk
    rw [hcount]
    show f.currentRegion + k < _
    omega

end

section
variable {dirs : Dirs} {getmaxy : Fin windowCount → Nat} {paths : Fin windowCount → PathName} {cwd : Dir}
  {presses : List Press}

end

end Eltex.TextManager
