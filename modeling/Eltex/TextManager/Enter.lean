import Eltex.TextManager.Navigate

/-!
# Enter and the highlighted entry

`print_files` highlights entry `current_region + current_line`.  Enter asks for
the type of entry `current_line` and, if that is a directory, goes to the name
of entry `current_region + current_line`.  The two are one entry only while the
region is at the top, so in a listing that has been scrolled Enter can leave
for a file or stay before a directory.  Both looks go through pointers into a
buffer that has been given back, so either can find another entry than the one
listed.  And the type is the file system's to fill in: what `readdir` calls
unknown is no directory to Enter.

Which entries are directories is therefore asked of the file system, `isDir` on
the path of an entry, and what is highlighted is the entry as it was read.
`navigate_enterActs_iff` says for which presses Enter does what is highlighted.
-/

namespace Eltex.TextManager

open Files (PathName)
open Runs

/-- The entry on the selected line of the focused window as it was read, if there is one. -/
def highlighted (getmaxy : Fin windowCount → Nat) (s : Nav) : Option Dirent :=
  ((showRows kept s.d.1 s.field s.fileCount (getmaxy s.currentWindow) s.field.currentRegion).find?
    fun r => r.Selected).bind Row.entry

section
variable {isDir : PathName → Bool} {dirs : Dirs} {getmaxy : Fin windowCount → Nat} {s s' : Nav} {p : Press}

theorem mem_showRows {heap : Heap} {d : List Dirent} {f : Field} {fileCount : Int} {n : Nat} {i : Int}
    {r : Row} (h : r ∈ showRows heap d f fileCount n i) : ∃ k, r = rowAt heap d f k := by
  induction n generalizing i with
  | zero => exact absurd h List.not_mem_nil
  | succ n ih =>
    unfold showRows at h
    split at h
    · exact absurd h List.not_mem_nil
    · rcases List.mem_cons.1 h with rfl | h
      · exact ⟨i, rfl⟩
      · exact ih h

/-- What is highlighted is the entry whose name Enter appends. -/
theorem entryAt_of_highlighted {e : Dirent} (h : highlighted getmaxy s = some e) :
    entryAt kept s.d.1 (s.field.currentRegion + s.field.currentLine) = some e := by
  obtain ⟨r, hr, he⟩ := Option.bind_eq_some_iff.1 h
  have hsel : r.Selected := by simpa using List.find?_some hr
  obtain ⟨k, rfl⟩ := mem_showRows (List.mem_of_find?_eq_some hr)
  rw [selected_rowAt] at hsel
  have hk : s.field.currentRegion + s.field.currentLine = k := by omega
  rw [hk]
  exact he

/-- While the entries are as they were read, Enter appends the highlighted name if the entry tested is
a directory. -/
theorem moveTail_of_highlighted {c : Int} (hk : Key.ofCode c = .enter) {e : Dirent}
    (h : highlighted getmaxy s = some e) :
    moveTail s (Press.ofCode c) =
      (entryAt kept s.d.1 s.field.currentLine).bind fun tested =>
        if tested.dType = dtDir then some (47 :: e.dName) else none := by
  unfold moveTail
  have hcode : Key.ofCode (Press.ofCode c).code = .enter := hk
  rw [hcode]
  show (entryAt kept s.d.1 s.field.currentLine).bind _ = _
  congr 1
  funext tested
  split
  · show (entryAt kept s.d.1 (s.field.currentRegion + s.field.currentLine)).map _ = _
    rw [entryAt_of_highlighted h]
    rfl
  · rfl

end

end Eltex.TextManager
