import Mathlib.Logic.Function.Basic
import Mathlib.Tactic.Common

/-!
# Files behind paths and streams

A path leads, from the working directory, to a place in some directory; at a
place there may be a file, and several places may hold the same one (links).
`fopen` for reading needs the file there, `fopen` for writing empties it or
makes a new one.  Streams read and write whole items, one item a call.

Everything a writer does to one file is `setContent`, so the lemmas about it
(`setContent_idem`, `setContent_self`, `content_setContent_of_ne`) are the
algebra of a copy loop.
-/

namespace Files

abbrev PathName := List UInt8

abbrev Inode := Nat

abbrev Place := Nat

structure Fs where
  cwd : PathName
  /-- where an absolute path leads -/
  walk : PathName → Option Place
  entry : Place → Option Inode
  content : Inode → List UInt8
  /-- whether opening the path for reading is let through -/
  mayRead : PathName → Bool
  /-- and for writing, or for making the file -/
  mayWrite : PathName → Bool
  /-- the next free inode -/
  fresh : Inode
  entry_lt : ∀ place i, entry place = some i → i < fresh

namespace Fs

variable (fs : Fs)

/-- The path from the root; `/` is 47. -/
def absolute (path : PathName) : PathName := if path.head? = some 47 then path else fs.cwd ++ 47 :: path

def place (path : PathName) : Option Place := fs.walk (fs.absolute path)

/-- The file a path names. -/
def file (path : PathName) : Option Inode := (fs.place path).bind fs.entry

def setContent (i : Inode) (c : List UInt8) : Fs :=
  { fs with content := Function.update fs.content i c }

/-- A new empty file at a place. -/
def create (place : Place) : Fs where
  cwd := fs.cwd
  walk := fs.walk
  entry := Function.update fs.entry place (some fs.fresh)
  content := Function.update fs.content fs.fresh []
  mayRead := fs.mayRead
  mayWrite := fs.mayWrite
  fresh := fs.fresh + 1
  entry_lt := by
    intro q i hi
    rw [Function.update_apply] at hi
    split at hi
    · rw [← Option.some.inj hi]
      exact Nat.lt_succ_self _
    · exact Nat.lt_succ_of_lt (fs.entry_lt q i hi)

end Fs

structure FileStream where
  inode : Inode
  pos : Nat
deriving Repr, DecidableEq

/-- `fopen(path, "rb")` -/
def fopenRb (fs : Fs) (path : PathName) : Option FileStream :=
  if fs.mayRead path then (fs.file path).map fun i => ⟨i, 0⟩ else none

/-- `fopen(path, "wb")` -/
def fopenWb (fs : Fs) (path : PathName) : Option FileStream × Fs :=
  if fs.mayWrite path then
    match fs.place path with
    | none => (none, fs)
    | some place =>
      match fs.entry place with
      | some i => (some ⟨i, 0⟩, fs.setContent i [])
      | none => (some ⟨fs.fresh, 0⟩, fs.create place)
  else (none, fs)

/-- `fread(buf, size, 1, stream)`: items read, bytes of the buffer that are filled, stream. -/
def fread (fs : Fs) (size : Nat) (stream : FileStream) : Nat × List UInt8 × FileStream :=
  let buf := ((fs.content stream.inode).drop stream.pos).take size
  (if buf.length = size then 1 else 0, buf, { stream with pos := stream.pos + buf.length })

/-- `fwrite(buf, size, 1, stream)` with `size` bytes in `buf`. -/
def fwrite (fs : Fs) (buf : List UInt8) (stream : FileStream) : Fs × FileStream :=
  let c := fs.content stream.inode
  (fs.setContent stream.inode (c.take stream.pos ++ buf ++ c.drop (stream.pos + buf.length)),
    { stream with pos := stream.pos + buf.length })

/-! ## Contents -/

section
variable (fs : Fs) (i : Inode) (c : List UInt8)

@[simp] theorem content_setContent : (fs.setContent i c).content i = c := Function.update_self ..

theorem content_setContent_of_ne {k : Inode} (h : k ≠ i) : (fs.setContent i c).content k = fs.content k :=
  Function.update_of_ne h ..

@[simp] theorem file_setContent (path : PathName) : (fs.setContent i c).file path = fs.file path := rfl

@[simp] theorem setContent_idem (c' : List UInt8) :
    (fs.setContent i c).setContent i c' = fs.setContent i c' := by
  unfold Fs.setContent
  simp only [Function.update_idem]

theorem setContent_self : fs.setContent i (fs.content i) = fs := by
  unfold Fs.setContent
  rw [Function.update_eq_self]

end

theorem ne_fresh_of_file {fs : Fs} {path : PathName} {i : Inode} (h : fs.file path = some i) :
    i ≠ fs.fresh := by
  obtain ⟨place, -, he⟩ := Option.bind_eq_some_iff.1 h
  exact Nat.ne_of_lt (fs.entry_lt place i he)

/-! ## Opening -/

theorem fopenRb_eq_some_iff {fs : Fs} {path : PathName} {src : FileStream} :
    fopenRb fs path = some src ↔ fs.mayRead path = true ∧ src.pos = 0 ∧ fs.file path = some src.inode := by
  unfold fopenRb
  split
  · next h =>
    rw [Option.map_eq_some_iff]
    constructor
    · rintro ⟨i, hi, rfl⟩
      exact ⟨h, rfl, hi⟩
    · rintro ⟨-, h0, hi⟩
      exact ⟨src.inode, hi, by rw [← h0]⟩
  · next h =>
    constructor
    · intro hn
      cases hn
    · rintro ⟨hr, -⟩
      exact absurd hr h

/-- Everything `fopen` for writing can do: fail, empty a file, or make one. -/
theorem fopenWb_cases (fs : Fs) (path : PathName) :
    fopenWb fs path = (none, fs) ∨
      (∃ i, fs.file path = some i ∧ fopenWb fs path = (some ⟨i, 0⟩, fs.setContent i [])) ∨
      ∃ place, fs.place path = some place ∧ fs.file path = none ∧
        fopenWb fs path = (some ⟨fs.fresh, 0⟩, fs.create place) := by
  unfold fopenWb
  split
  · split
    · exact Or.inl rfl
    · next place hp =>
      have hfile : fs.file path = fs.entry place := by rw [Fs.file, hp, Option.bind_some]
      split
      · next i he => exact Or.inr (Or.inl ⟨i, by rw [hfile, he], rfl⟩)
      · next he => exact Or.inr (Or.inr ⟨place, hp, by rw [hfile, he], rfl⟩)
  · exact Or.inl rfl

/-- The file opened for writing: at the path, empty, read from the start; no other file changes. -/
theorem fopenWb_spec {fs fs' : Fs} {path : PathName} {dst : FileStream}
    (h : fopenWb fs path = (some dst, fs')) :
    dst.pos = 0 ∧ fs'.file path = some dst.inode ∧ fs'.content dst.inode = [] ∧
      (∀ k ≠ dst.inode, fs'.content k = fs.content k) ∧ ∀ p i, fs.file p = some i → fs'.file p = some i := by
  rcases fopenWb_cases fs path with hc | ⟨i, hi, hc⟩ | ⟨place, hp, hn, hc⟩
  · rw [hc] at h
    cases h
  · rw [hc] at h
    obtain ⟨rfl, rfl⟩ : FileStream.mk i 0 = dst ∧ fs.setContent i [] = fs' := by simpa using h
    exact ⟨rfl, hi, content_setContent .., fun k hk => content_setContent_of_ne _ _ _ hk, fun p j hj => hj⟩
  · rw [hc] at h
    obtain ⟨rfl, rfl⟩ : FileStream.mk fs.fresh 0 = dst ∧ fs.create place = fs' := by simpa using h
    refine ⟨rfl, ?_, Function.update_self .., fun k hk => Function.update_of_ne hk .., fun p i hi => ?_⟩
    · show (fs.place path).bind (Function.update fs.entry place (some fs.fresh)) = _
      rw [hp, Option.bind_some, Function.update_self]
    · obtain ⟨q, hq, he⟩ := Option.bind_eq_some_iff.1 hi
      show (fs.place p).bind (Function.update fs.entry place (some fs.fresh)) = _
      have hne : q ≠ place := by
        rintro rfl
        rw [Fs.file, hp, Option.bind_some, he] at hn
        cases hn
      rw [hq, Option.bind_some, Function.update_of_ne hne, he]

/-- The file was there, or is a new one. -/
theorem fopenWb_inode {fs fs' : Fs} {path : PathName} {dst : FileStream}
    (h : fopenWb fs path = (some dst, fs')) :
    fs.file path = some dst.inode ∨ (fs.file path = none ∧ dst.inode = fs.fresh) := by
  rcases fopenWb_cases fs path with hc | ⟨i, hi, hc⟩ | ⟨place, -, hn, hc⟩
  · rw [hc] at h
    cases h
  · rw [hc] at h
    obtain rfl : FileStream.mk i 0 = dst := Option.some.inj (Prod.mk.inj h).1
    exact Or.inl hi
  · rw [hc] at h
    obtain rfl : FileStream.mk fs.fresh 0 = dst := Option.some.inj (Prod.mk.inj h).1
    exact Or.inr ⟨hn, rfl⟩

theorem fopenWb_snd_of_none {fs : Fs} {path : PathName} (h : (fopenWb fs path).1 = none) :
    (fopenWb fs path).2 = fs := by
  rcases fopenWb_cases fs path with hc | ⟨i, -, hc⟩ | ⟨place, -, -, hc⟩
  · rw [hc]
  · rw [hc] at h
    cases h
  · rw [hc] at h
    cases h

/-! ## Reading and writing an item -/

/-- A whole item is read while that many bytes are left. -/
theorem fread_of_le {fs : Fs} {size : Nat} {stream : FileStream}
    (h : size ≤ (fs.content stream.inode).length - stream.pos) :
    fread fs size stream = (1, ((fs.content stream.inode).drop stream.pos).take size,
      { stream with pos := stream.pos + size }) := by
  have hl : (((fs.content stream.inode).drop stream.pos).take size).length = size := by
    rw [List.length_take, List.length_drop]
    omega
  unfold fread
  simp only [hl, if_true]

theorem fread_fst_of_lt {fs : Fs} {size : Nat} {stream : FileStream}
    (h : (fs.content stream.inode).length - stream.pos < size) : (fread fs size stream).1 = 0 := by
  unfold fread
  simp only
  rw [if_neg]
  rw [List.length_take, List.length_drop]
  omega

theorem fwrite_at_end {fs : Fs} {stream : FileStream} (h : stream.pos = (fs.content stream.inode).length)
    (buf : List UInt8) :
    fwrite fs buf stream = (fs.setContent stream.inode (fs.content stream.inode ++ buf),
      { stream with pos := stream.pos + buf.length }) := by
  unfold fwrite
  simp only [h, List.take_length]
  rw [List.drop_of_length_le (by omega), List.append_nil]

end Files
