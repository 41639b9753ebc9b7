import Eltex.Lib.Files
import Mathlib.Data.List.Nodup
import Mathlib.Tactic.Common

/-!
# Listing a directory

`print_files` reads the whole directory of a window into the caller's array and
shows the lines of one region of it.  It returns the index of the last entry
read, one less than their number, and the display ends at that index
(`showRows_eq`):

    entries      0 .. n                 opendir
    fileCount    n                      -1 when the directory does not open
    rows         region .. min (region + getmaxy) n - 1

What is stored are pointers into the buffer of the directory stream: the next
block of entries is read over them and `closedir`, before the display, frees
them.  So a look at `d[i]` finds what lies there by then, which a `Heap` says
for every entry `readdir` had put there, and `kept` is the heap that left them
alone.  The array (`Slots`) ends where the caller's does; `Fits` asks whether
all stores are within it.

The paths of the windows are absolute or empty, so nothing here depends on the
working directory but `clear_path`.
-/

namespace Eltex.TextManager

open Files (PathName)

structure Dirent where
  dName : List UInt8
  dType : UInt8
deriving Repr, DecidableEq

/-- `DT_DIR` -/
def dtDir : UInt8 := 4

/-- A directory the process can be in. -/
abbrev Dir := Nat

/-- What the kernel answers about directories. -/
structure Dirs where
  /-- the entries `readdir` returns, when the directory opens -/
  opendir : PathName → Option (List Dirent)
  chdir : PathName → Option Dir
  getcwd : Dir → Option PathName

/-- `struct field` without its curses windows. -/
structure Field where
  currentPath : PathName
  currentRegion : Int
  currentLine : Int
deriving Repr, DecidableEq

/-- Bytes of `current_path`, and of `result` in `clear_path`. -/
def pathCapacity : Nat := 2048

/-- Working directory and path afterwards; `result` stays empty when `getcwd` fails, as it does
without room for the path and its NUL. -/
def clearPath (dirs : Dirs) (cwd : Dir) (path : PathName) : Dir × PathName :=
  let cwd := (dirs.chdir path).getD cwd
  (cwd, ((dirs.getcwd cwd).filter fun p => p.length < pathCapacity).getD [])

/-- What lies where `readdir` had put an entry, by the index it is stored at. -/
abbrev Heap := Nat → Dirent → Dirent

/-- The entries as they were read. -/
def kept : Heap := fun _ e => e

/-- `struct dirent *d[capacity]`, as far as something has been stored in it. -/
abbrev Slots (capacity : Nat) := { d : List Dirent // d.length ≤ capacity }

def Slots.empty (capacity : Nat) : Slots capacity := ⟨[], Nat.zero_le capacity⟩

/-- `*d[i]`, if something has been stored in `d[i]`. -/
def entryAt (heap : Heap) (d : List Dirent) (i : Int) : Option Dirent :=
  if 0 ≤ i then d[i.toNat]?.map (heap i.toNat) else none

inductive Colour where
  | selected
  | directory
  | plain
deriving Repr, DecidableEq

/-- A line of the window. -/
structure Row where
  index : Int
  entry : Option Dirent
  colour : Colour
deriving Repr, DecidableEq

def Row.Selected (r : Row) : Prop := r.colour = .selected

instance (r : Row) : Decidable r.Selected := inferInstanceAs (Decidable (_ = _))

/-- The line that shows `d[i]`. -/
def rowAt (heap : Heap) (d : List Dirent) (field : Field) (i : Int) : Row where
  index := i
  entry := entryAt heap d i
  colour :=
    if field.currentLine = i - field.currentRegion then .selected
    else if (entryAt heap d i).map Dirent.dType = some dtDir then .directory
    else .plain

/-- The display loop, with the iterations left and `i`. -/
def showRows (heap : Heap) (d : List Dirent) (field : Field) (fileCount : Int) : Nat → Int → List Row
  | 0, _ => []
  | n + 1, i =>
    if i = fileCount then []
    else rowAt heap d field i :: showRows heap d field fileCount n (i + 1)

/-- What the directory of a path lists; nothing when it does not open. -/
def readdirAll (dirs : Dirs) (path : PathName) : List Dirent := (dirs.opendir path).getD []

/-- All entries can be stored in an array of `capacity`. -/
def Fits (dirs : Dirs) (capacity : Nat) (path : PathName) : Prop :=
  (readdirAll dirs path).length ≤ capacity

instance (dirs : Dirs) (capacity : Nat) (path : PathName) : Decidable (Fits dirs capacity path) :=
  inferInstanceAs (Decidable (_ ≤ _))

theorem length_store_le {capacity : Nat} (entries : List Dirent) (d : Slots capacity) :
    (entries.take capacity ++ d.1.drop entries.length).length ≤ capacity := by
  have hd := d.2
  simp only [List.length_append, List.length_take, List.length_drop]
  omega

/-- The loop over the entries: the array, as far as it goes, and the count. -/
def readFiles {capacity : Nat} (dirs : Dirs) (path : PathName) (d : Slots capacity) : Slots capacity × Int :=
  match dirs.opendir path with
  | some entries => (⟨entries.take capacity ++ d.1.drop entries.length, length_store_le entries d⟩,
      entries.length - 1)
  | none => (d, -1)

/-- What one call leaves and shows: the caller's array, the return value and the lines shown. -/
structure Listing (capacity : Nat) where
  d : Slots capacity
  fileCount : Int
  rows : List Row

def printFiles {capacity : Nat} (dirs : Dirs) (heap : Heap) (getmaxy : Nat) (field : Field)
    (d : Slots capacity) : Listing capacity :=
  let (d, fileCount) := readFiles dirs field.currentPath d
  { d := d, fileCount := fileCount
    rows := showRows heap d.1 field fileCount getmaxy field.currentRegion }

/-- The value `print_files` returns for a path. -/
def fileCountAt (dirs : Dirs) (path : PathName) : Int :=
  match dirs.opendir path with
  | some entries => entries.length - 1
  | none => -1

section
variable {dirs : Dirs} {heap : Heap} {getmaxy capacity : Nat} {field : Field} {slots : Slots capacity}

theorem readdirAll_eq {path : PathName} {entries : List Dirent} (h : dirs.opendir path = some entries) :
    readdirAll dirs path = entries := by
  rw [readdirAll, h]
  rfl

theorem fileCountAt_eq (path : PathName) : fileCountAt dirs path = (readdirAll dirs path).length - 1 := by
  unfold fileCountAt readdirAll
  cases dirs.opendir path <;> rfl

theorem readFiles_snd {path : PathName} : (readFiles dirs path slots).2 = fileCountAt dirs path := by
  unfold readFiles fileCountAt
  cases dirs.opendir path <;> rfl

theorem printFiles_fileCount :
    (printFiles dirs heap getmaxy field slots).fileCount = fileCountAt dirs field.currentPath :=
  readFiles_snd

/-- The entries read stand at the front of an array they fit. -/
theorem readFiles_fst {path : PathName} (h : Fits dirs capacity path) (slots : Slots capacity) :
    readdirAll dirs path <+: (readFiles dirs path slots).1.1 := by
  unfold Fits at h
  unfold readFiles
  cases he : dirs.opendir path with
  | some entries =>
    rw [readdirAll_eq he] at h ⊢
    simp only
    rw [List.take_of_length_le h]
    exact List.prefix_append _ _
  | none =>
    rw [readdirAll, he]
    exact List.nil_prefix

variable {d : List Dirent}

/-- What is found where an entry was put. -/
theorem entryAt_of_prefix (heap : Heap) {entries : List Dirent} (h : entries <+: d) {i : Int} (h0 : 0 ≤ i)
    (hi : i < entries.length) :
    ∃ e, entries[i.toNat]? = some e ∧ entryAt heap d i = some (heap i.toNat e) := by
  obtain ⟨rest, rfl⟩ := h
  have hlt : i.toNat < entries.length := by omega
  refine ⟨entries[i.toNat], List.getElem?_eq_getElem hlt, ?_⟩
  rw [entryAt, if_pos h0, List.getElem?_append_left hlt, List.getElem?_eq_getElem hlt]
  rfl

/-- The loop shows the lines up to the count, a screen at most. -/
theorem showRows_eq {fileCount : Int} (n : Nat) {i : Int} (h : i ≤ fileCount) :
    showRows heap d field fileCount n i =
      (List.range (min n (fileCount - i).toNat)).map fun k : Nat => rowAt heap d field (i + k) := by
  induction n generalizing i with
  | zero => rw [Nat.zero_min]; rfl
  | succ n ih =>
    unfold showRows
    split
    · next he =>
      have h0 : min (n + 1) (fileCount - i).toNat = 0 := by omega
      rw [h0]
      rfl
    · next hne =>
      have hsucc : min (n + 1) (fileCount - i).toNat = min n (fileCount - (i + 1)).toNat + 1 := by omega
      rw [ih (by omega), hsucc, List.range_succ_eq_map, List.map_cons, List.map_map]
      congr 1
      · show rowAt heap d field i = rowAt heap d field (i + 0)
        rw [Int.add_zero]
      · apply List.map_congr_left
        intro k _
        show rowAt heap d field (i + 1 + k) = rowAt heap d field (i + ((k + 1 : Nat) : Int))
        congr 1
        omega

theorem selected_rowAt {i : Int} :
    (rowAt heap d field i).Selected ↔ field.currentLine = i - field.currentRegion := by
  show (if _ then _ else _) = _ ↔ _
  split
  · next h => exact ⟨fun _ => h, fun _ => rfl⟩
  · next h =>
    refine ⟨fun hc => ?_, fun hl => absurd hl h⟩
    split at hc <;> cases hc

/-- One line is selected, if it is among those shown. -/
theorem filter_selected_showRows {fileCount : Int} (h : field.currentRegion + field.currentLine < fileCount)
    (h0 : 0 ≤ field.currentLine) {n : Nat} (hn : field.currentLine < n) :
    (showRows heap d field fileCount n field.currentRegion).filter Row.Selected =
      [rowAt heap d field (field.currentRegion + field.currentLine)] := by
  obtain ⟨l, hl⟩ := Int.eq_ofNat_of_zero_le h0
  have hsel : ((fun r => decide (Row.Selected r)) ∘ fun k : Nat => rowAt heap d field (field.currentRegion + k)) =
      fun k => decide (k = l) := by
    funext k
    show decide (Row.Selected _) = _
    rw [decide_eq_decide, selected_rowAt]
    omega
  have hcount : (List.range (min n (fileCount - field.currentRegion).toNat)).count l = 1 :=
    List.count_eq_one_of_mem List.nodup_range (List.mem_range.2 (by omega))
  rw [showRows_eq n (by omega : field.currentRegion ≤ fileCount), List.filter_map, hsel,
    List.filter_eq, hcount, hl]
  rfl

end

end Eltex.TextManager
