import Eltex.Lib.CString
import Eltex.Lib.Files

/-!
# Copying a file

`_copy` opens both files and moves items of 1024 bytes until `fread` returns no
whole one; `copy` starts it in a thread and waits, unless the two paths are the
same string.  The loop has an iteration a whole item (`copyLoop_eq`), so

    content of the destination = the first 1024 * (length / 1024) bytes     (_copy_eq)

What is left over is lost (`copies_iff`), and the destination is emptied before
anything is known about the source (`harmless_iff`).
-/

namespace Eltex.TextManager

open CString Files

/-- `sizeof(buf)` -/
def bufSize : Nat := 1024

def copyLoop : Nat → Fs → FileStream → FileStream → Option Fs
  | 0, _, _, _ => none
  | fuel + 1, fs, src, dst =>
    let (readed, buf, src) := fread fs bufSize src
    if readed = 0 then some fs
    else
      let (fs, dst) := fwrite fs buf dst
      copyLoop fuel fs src dst

/-- The files after `_copy`; `none` when `fuel` iterations do not end it. -/
def _copy (fuel : Nat) (fs : Fs) (source destination : PathName) : Option Fs :=
  let src := fopenRb fs source
  let (dst, fs) := fopenWb fs destination
  match src, dst with
  | some src, some dst => copyLoop fuel fs src dst
  | _, _ => some fs

def copy (fuel : Nat) (fs : Fs) (source destination : PathName) : Option Fs :=
  if strcmp source destination = 0 then some fs else _copy fuel fs source destination

/-! ## The loop -/

/-- The loop over two files, from a state in which as much is written as is read. -/
theorem copyLoop_eq {fuel : Nat} {fs : Fs} {src dst : FileStream} (hne : src.inode ≠ dst.inode)
    (hpos : dst.pos = src.pos) (hle : src.pos ≤ (fs.content src.inode).length)
    (hdst : fs.content dst.inode = (fs.content src.inode).take src.pos)
    (hfuel : ((fs.content src.inode).length - src.pos) / bufSize < fuel) :
    copyLoop fuel fs src dst = some (fs.setContent dst.inode ((fs.content src.inode).take
      (src.pos + bufSize * (((fs.content src.inode).length - src.pos) / bufSize)))) := by
  induction fuel generalizing fs src dst with
  | zero => exact absurd hfuel (Nat.not_lt_zero _)
  | succ fuel ih =>
    unfold bufSize at *
    by_cases hfull : 1024 ≤ (fs.content src.inode).length - src.pos
    · -- the item goes behind what is written, and both streams move on by it
      have hend : dst.pos = (fs.content dst.inode).length := by
        rw [hdst, List.length_take]
        omega
      have hbuf : (((fs.content src.inode).drop src.pos).take 1024).length = 1024 := by
        rw [List.length_take, List.length_drop]
        omega
      have hsrc : (fs.setContent dst.inode ((fs.content src.inode).take (src.pos + 1024))).content
          src.inode = fs.content src.inode := content_setContent_of_ne _ _ _ hne
      have hstep : copyLoop (fuel + 1) fs src dst =
          copyLoop fuel (fs.setContent dst.inode ((fs.content src.inode).take (src.pos + 1024)))
            ⟨src.inode, src.pos + 1024⟩ ⟨dst.inode, src.pos + 1024⟩ := by
        simp only [copyLoop, bufSize, fread_of_le hfull, Nat.one_ne_zero, if_false]
        rw [fwrite_at_end hend, hdst, ← List.take_add, hbuf, hpos]
      rw [hstep, @ih _ ⟨src.inode, src.pos + 1024⟩ ⟨dst.inode, src.pos + 1024⟩ hne rfl]
      · simp only [hsrc, setContent_idem]
        congr 3
        omega
      · simp only [hsrc]
        omega
      · simp only [hsrc, content_setContent]
      · simp only [hsrc]
        omega
    · have h0 : ((fs.content src.inode).length - src.pos) / 1024 = 0 := by omega
      simp only [copyLoop, bufSize, fread_fst_of_lt (Nat.lt_of_not_le hfull), if_true]
      rw [h0, Nat.mul_zero, Nat.add_zero, ← hdst, setContent_self]

/-- Nothing is read from a file that is empty. -/
theorem copyLoop_of_nil {fuel : Nat} {fs : Fs} {src : FileStream} (dst : FileStream) (hfuel : 0 < fuel)
    (h : fs.content src.inode = []) : copyLoop fuel fs src dst = some fs := by
  obtain ⟨n, rfl⟩ : ∃ n, fuel = n + 1 := ⟨fuel - 1, by omega⟩
  have h0 : (fread fs bufSize src).1 = 0 := fread_fst_of_lt (by rw [h]; simp [bufSize])
  simp only [copyLoop, h0, if_true]

/-! ## `_copy` -/

/-- The whole items of a content. -/
def wholeItems (c : List UInt8) : List UInt8 := c.take (bufSize * (c.length / bufSize))

theorem wholeItems_eq_self_iff (c : List UInt8) : wholeItems c = c ↔ bufSize ∣ c.length := by
  have hdiv := Nat.div_add_mod c.length bufSize
  constructor
  · intro h
    have hlen := congrArg List.length h
    rw [wholeItems, List.length_take] at hlen
    rw [Nat.dvd_iff_mod_eq_zero]
    omega
  · intro h
    rw [wholeItems, Nat.mul_div_cancel' h, List.take_length]

/-- Both files open and are two: the destination gets the whole items of the source. -/
theorem _copy_eq {fuel : Nat} {fs fs' : Fs} {source destination : PathName} {src dst : FileStream}
    (hs : fopenRb fs source = some src) (hd : fopenWb fs destination = (some dst, fs'))
    (hne : src.inode ≠ dst.inode) (hfuel : (fs.content src.inode).length / bufSize < fuel) :
    _copy fuel fs source destination =
      some (fs'.setContent dst.inode (wholeItems (fs.content src.inode))) := by
  obtain ⟨hpos, -, hnil, hother, -⟩ := fopenWb_spec hd
  obtain ⟨-, h0, -⟩ := fopenRb_eq_some_iff.1 hs
  have hsrc := hother src.inode hne
  unfold _copy
  simp only [hs, hd]
  rw [copyLoop_eq hne (by rw [hpos, h0]) (by rw [h0]; exact Nat.zero_le _) (by rw [hnil, h0]; rfl)
    (by rw [hsrc, h0]; exact hfuel)]
  rw [hsrc, h0, Nat.zero_add, Nat.sub_zero, wholeItems]

/-- Both paths open one file: it stays as `fopen` for writing left it, empty. -/
theorem _copy_same {fuel : Nat} {fs fs' : Fs} {source destination : PathName} {src dst : FileStream}
    (hs : fopenRb fs source = some src) (hd : fopenWb fs destination = (some dst, fs'))
    (heq : src.inode = dst.inode) (hfuel : 0 < fuel) : _copy fuel fs source destination = some fs' := by
  obtain ⟨-, -, hnil, -⟩ := fopenWb_spec hd
  unfold _copy
  simp only [hs, hd]
  exact copyLoop_of_nil dst hfuel (by rw [heq, hnil])

/-- A file does not open: what `fopen` for writing did stays done. -/
theorem _copy_of_none {fuel : Nat} {fs : Fs} {source destination : PathName}
    (h : fopenRb fs source = none ∨ (fopenWb fs destination).1 = none) :
    _copy fuel fs source destination = some (fopenWb fs destination).2 := by
  unfold _copy
  rcases h with h | h
  · simp only [h]
  · simp only [h]
    cases fopenRb fs source <;> rfl

/-! ## Faithfulness -/

/-- `_copy` returns, and the destination holds what the source held. -/
def Copies (fs : Fs) (source destination : PathName) : Prop :=
  ∃ n, ∀ fuel ≥ n, ∃ fs', _copy fuel fs source destination = some fs' ∧
    (fs'.file destination).map fs'.content = (fs.file source).map fs.content

theorem whole_of_copies {fs fs' : Fs} {source destination : PathName} {src dst : FileStream}
    (hs : fopenRb fs source = some src) (hd : fopenWb fs destination = (some dst, fs'))
    (hne : src.inode ≠ dst.inode) (h : Copies fs source destination) :
    wholeItems (fs.content src.inode) = fs.content src.inode := by
  obtain ⟨n, hn⟩ := h
  obtain ⟨u, hu, hc⟩ := hn (max n ((fs.content src.inode).length / bufSize + 1)) (Nat.le_max_left _ _)
  rw [_copy_eq hs hd hne (Nat.lt_of_succ_le (Nat.le_max_right _ _))] at hu
  obtain ⟨-, hfile, -⟩ := fopenWb_spec hd
  rw [← Option.some.inj hu, file_setContent, hfile, (fopenRb_eq_some_iff.1 hs).2.2] at hc
  simpa using hc

/-- **When a copy is faithful.**  Source and destination open and are different files: the
content arrives exactly when its length is a multiple of the buffer's. -/
theorem copies_iff {fs fs' : Fs} {source destination : PathName} {src dst : FileStream}
    (hs : fopenRb fs source = some src) (hd : fopenWb fs destination = (some dst, fs'))
    (hne : src.inode ≠ dst.inode) :
    Copies fs source destination ↔ 1024 ∣ (fs.content src.inode).length := by
  rw [show 1024 = bufSize from rfl, ← wholeItems_eq_self_iff]
  constructor
  · intro h
    exact whole_of_copies hs hd hne h
  · intro h
    refine ⟨(fs.content src.inode).length / bufSize + 1, fun fuel hfuel => ?_⟩
    refine ⟨_, _copy_eq hs hd hne hfuel, ?_⟩
    obtain ⟨-, hfile, -⟩ := fopenWb_spec hd
    rw [file_setContent, hfile, (fopenRb_eq_some_iff.1 hs).2.2, Option.map_some, Option.map_some,
      content_setContent, h]

/-- `a` and `b` in the directory `/d`; `a` holds `c`. -/
def twoFiles (c : List UInt8) : Fs where
  cwd := [47, 100]
  walk path := if path = [47, 100, 47, 97] then some 0 else if path = [47, 100, 47, 98] then some 1 else none
  entry place := if place < 2 then some place else none
  content i := if i = 0 then c else []
  mayRead _ := true
  mayWrite _ := true
  fresh := 2
  entry_lt := by
    intro place i h
    split at h
    · rw [← Option.some.inj h]
      assumption
    · cases h

theorem twoFiles_opened (c : List UInt8) :
    fopenRb (twoFiles c) [97] = some ⟨0, 0⟩ ∧
      fopenWb (twoFiles c) [98] = (some ⟨1, 0⟩, (twoFiles c).setContent 1 []) ∧
      fopenWb (twoFiles c) [47, 100, 47, 97] = (some ⟨0, 0⟩, (twoFiles c).setContent 0 []) :=
  ⟨rfl, rfl, rfl⟩

theorem copies_iff_block : Copies (twoFiles (List.replicate 1024 7)) [97] [98] := by
  obtain ⟨hs, hd, -⟩ := twoFiles_opened (List.replicate 1024 7)
  rw [copies_iff hs hd (by decide)]
  exact ⟨1, List.length_replicate⟩

/-- A file of one byte arrives empty. -/
theorem not_copies_byte : ¬ Copies (twoFiles [104]) [97] [98] := by
  intro h
  obtain ⟨hs, hd, -⟩ := twoFiles_opened [104]
  exact absurd (whole_of_copies hs hd (by decide) h) (by decide)

/-! ## What is kept -/

/-- The source's file is as it was, and the destination too when the source does not open. -/
structure Kept (fs fs' : Fs) (source destination : PathName) : Prop where
  source_kept : ∀ i, fs.file source = some i → fs'.file source = some i ∧ fs'.content i = fs.content i
  destination_kept : fopenRb fs source = none → fs'.file destination = fs.file destination ∧
    ∀ i, fs.file destination = some i → fs'.content i = fs.content i

theorem Kept.refl (fs : Fs) (source destination : PathName) : Kept fs fs source destination :=
  ⟨fun _ hi => ⟨hi, rfl⟩, fun _ => ⟨rfl, fun _ _ => rfl⟩⟩

/-- `copy` returns and destroys nothing. -/
def Harmless (fs : Fs) (source destination : PathName) : Prop :=
  ∃ n, ∀ fuel ≥ n, ∃ fs', copy fuel fs source destination = some fs' ∧ Kept fs fs' source destination

/-- What `copy` leaves behind decides. -/
theorem harmless_iff_kept {fs fs' : Fs} {source destination : PathName} {n : Nat}
    (h : ∀ fuel ≥ n, copy fuel fs source destination = some fs') :
    Harmless fs source destination ↔ Kept fs fs' source destination := by
  constructor
  · rintro ⟨k, hk⟩
    obtain ⟨u, hu, hkept⟩ := hk (max k n) (Nat.le_max_left _ _)
    rw [h _ (Nat.le_max_right _ _)] at hu
    rw [Option.some.inj hu]
    exact hkept
  · intro hkept
    exact ⟨n, fun fuel hfuel => ⟨fs', h fuel hfuel, hkept⟩⟩

section
variable {fs fs' : Fs} {source destination : PathName} {src dst : FileStream}
  (hcmp : strcmp source destination ≠ 0)
include hcmp

/-- The source does not open: the destination survives only as the empty file it was. -/
theorem harmless_iff_of_source_none (hs : fopenRb fs source = none)
    (hd : fopenWb fs destination = (some dst, fs')) :
    Harmless fs source destination ↔ ∃ j, fs.file destination = some j ∧ fs.content j = [] := by
  have hcopy : ∀ fuel ≥ 0, copy fuel fs source destination = some fs' := by
    intro fuel _
    rw [copy, if_neg hcmp, _copy_of_none (Or.inl hs), hd]
  rw [harmless_iff_kept hcopy]
  obtain ⟨-, hfile, hnil, -, hfiles⟩ := fopenWb_spec hd
  constructor
  · rintro ⟨-, hkept⟩
    obtain ⟨hf, hc⟩ := hkept hs
    rw [hfile] at hf
    exact ⟨dst.inode, hf.symm, by rw [← hc _ hf.symm, hnil]⟩
  · rintro ⟨j, hj, hc⟩
    have hjd : j = dst.inode := Option.some.inj ((hfiles _ _ hj).symm.trans hfile)
    rcases fopenWb_cases fs destination with h | ⟨i, hi, h⟩ | ⟨place, -, hn, -⟩
    · rw [h] at hd
      cases hd
    · -- emptying the empty file changes nothing
      have hfs : fs' = fs := by
        rw [hj] at hi
        obtain rfl : j = i := Option.some.inj hi
        rw [h, ← hc, setContent_self] at hd
        exact (Prod.mk.inj hd).2.symm
      rw [hfs]
      exact Kept.refl ..
    · rw [hj] at hn
      cases hn

/-- Two files: the source's is not touched. -/
theorem harmless_of_ne (hs : fopenRb fs source = some src)
    (hd : fopenWb fs destination = (some dst, fs')) (hne : src.inode ≠ dst.inode) :
    Harmless fs source destination := by
  obtain ⟨-, -, -, hother, hfiles⟩ := fopenWb_spec hd
  have hcopy : ∀ fuel ≥ (fs.content src.inode).length / bufSize + 1,
      copy fuel fs source destination =
        some (fs'.setContent dst.inode (wholeItems (fs.content src.inode))) := by
    intro fuel hfuel
    rw [copy, if_neg hcmp]
    exact _copy_eq hs hd hne hfuel
  rw [harmless_iff_kept hcopy]
  constructor
  · intro i hi
    obtain rfl : src.inode = i := Option.some.inj ((fopenRb_eq_some_iff.1 hs).2.2.symm.trans hi)
    exact ⟨hfiles _ _ hi, by rw [content_setContent_of_ne _ _ _ hne, hother _ hne]⟩
  · intro hn
    rw [hs] at hn
    cases hn

/-- One file under two names: it survives only when there was nothing in it. -/
theorem harmless_iff_of_same (hs : fopenRb fs source = some src)
    (hd : fopenWb fs destination = (some dst, fs')) (heq : src.inode = dst.inode) :
    Harmless fs source destination ↔ fs.content src.inode = [] := by
  have hcopy : ∀ fuel ≥ 1, copy fuel fs source destination = some fs' := by
    intro fuel hfuel
    rw [copy, if_neg hcmp, _copy_same hs hd heq hfuel]
  rw [harmless_iff_kept hcopy]
  obtain ⟨-, -, hnil, -, hfiles⟩ := fopenWb_spec hd
  have hsrc := (fopenRb_eq_some_iff.1 hs).2.2
  constructor
  · rintro ⟨hkept, -⟩
    rw [← (hkept _ hsrc).2, heq, hnil]
  · intro hc
    refine ⟨fun i hi => ?_, fun hn => ?_⟩
    · obtain rfl : src.inode = i := Option.some.inj (hsrc.symm.trans hi)
      exact ⟨hfiles _ _ hi, by rw [hc, heq, hnil]⟩
    · rw [hs] at hn
      cases hn

end

/-- **When a copy destroys nothing.**  The paths are the same string; or the destination does
not open; or the source opens and the destination is another file, or an empty one; or the
source does not open and the destination is there and empty. -/
theorem harmless_iff (fs : Fs) (source destination : PathName) :
    Harmless fs source destination ↔
      strcmp source destination = 0 ∨ (fopenWb fs destination).1 = none ∨
      (∃ src, fopenRb fs source = some src ∧
        (fs.file destination ≠ some src.inode ∨ fs.content src.inode = [])) ∨
      (fopenRb fs source = none ∧ ∃ j, fs.file destination = some j ∧ fs.content j = []) := by
  by_cases hcmp : strcmp source destination = 0
  · have hcopy : ∀ fuel ≥ 0, copy fuel fs source destination = some fs := by
      intro fuel _
      rw [copy, if_pos hcmp]
    rw [harmless_iff_kept hcopy]
    exact ⟨fun _ => Or.inl hcmp, fun _ => Kept.refl ..⟩
  · rcases hd : fopenWb fs destination with ⟨_ | dst, fs'⟩
    · have hcopy : ∀ fuel ≥ 0, copy fuel fs source destination = some fs := by
        intro fuel _
        have hnone : (fopenWb fs destination).1 = none := by rw [hd]
        rw [copy, if_neg hcmp, _copy_of_none (Or.inr hnone), fopenWb_snd_of_none hnone]
      rw [harmless_iff_kept hcopy]
      exact ⟨fun _ => Or.inr (Or.inl rfl), fun _ => Kept.refl ..⟩
    · cases hs : fopenRb fs source with
      | none =>
        rw [harmless_iff_of_source_none hcmp hs hd]
        simp [hcmp]
      | some src =>
        have hsrc := (fopenRb_eq_some_iff.1 hs).2.2
        obtain ⟨-, hfile, -, -, hfiles⟩ := fopenWb_spec hd
        by_cases heq : src.inode = dst.inode
        · have hdest : fs.file destination = some src.inode := by
            rcases fopenWb_inode hd with h | ⟨-, h⟩
            · rw [h, heq]
            · exact absurd (heq.trans h) (ne_fresh_of_file hsrc)
          rw [harmless_iff_of_same hcmp hs hd heq]
          simp [hcmp, hdest]
        · have hdest : fs.file destination ≠ some src.inode := by
            intro h
            exact heq (Option.some.inj ((hfiles _ _ h).symm.trans hfile))
          simp [hcmp, hdest, harmless_of_ne hcmp hs hd heq]

/-- The file `a` of the working directory, copied to its absolute path. -/
theorem not_harmless_alias : ¬ Harmless (twoFiles [104]) [97] [47, 100, 47, 97] := by
  intro h
  obtain ⟨hs, -, hd⟩ := twoFiles_opened [104]
  exact absurd ((harmless_iff_of_same (by decide) hs hd rfl).1 h) (by decide)

end Eltex.TextManager
