import Eltex.Lib.ByteMem

/-!
# Computations and what they read

An `Access α` reads bytes of a memory one after another, each at an offset that may depend on the
bytes before it, and returns a value.  `run` is the value in a given memory and `reads` are the
offsets, in order.

    run (x >>= f) m = run (f (run x m)) m                               (run_bind)
    reads (x >>= f) m = reads x m ++ reads (f (run x m)) m              (reads_bind)

Since nothing else gets at the memory, both are the same in memories that agree on what is read
(`run_congr`).
-/

namespace Footprint

open ByteMem

inductive Access (α : Type) where
  | done (a : α)
  | read (i : Nat) (next : UInt8 → Access α)

namespace Access

variable {α β : Type}

def bind : Access α → (α → Access β) → Access β
  | done a, f => f a
  | read i next, f => read i fun b => bind (next b) f

instance : Monad Access where
  pure := done
  bind := bind

/-- The value. -/
def run : Access α → Mem → α
  | done a, _ => a
  | read i next, m => run (next (m i)) m

/-- The offsets read. -/
def reads : Access α → Mem → List Nat
  | done _, _ => []
  | read i next, m => i :: reads (next (m i)) m

def byte (i : Nat) : Access UInt8 := read i done

def bytes : Nat → Nat → Access (List UInt8)
  | _, 0 => pure []
  | p, n + 1 => do
    let b ← byte p
    let bs ← bytes (p + 1) n
    pure (b :: bs)

/-- A word as a little-endian host reads it. -/
def word (p : Nat) : Access Nat := do
  let bs ← bytes p 2
  pure (leVal bs)

/-! ## Values -/

@[simp] theorem run_pure (a : α) (m : Mem) : run (pure a) m = a := rfl

@[simp] theorem run_bind (x : Access α) (f : α → Access β) (m : Mem) :
    run (x >>= f) m = run (f (run x m)) m := by
  induction x with
  | done a => rfl
  | read i next ih => exact ih (m i)

@[simp] theorem run_ite (c : Prop) [Decidable c] (x y : Access α) (m : Mem) :
    run (if c then x else y) m = if c then run x m else run y m := by
  split <;> rfl

@[simp] theorem run_byte (i : Nat) (m : Mem) : run (byte i) m = m i := by
  rw [byte, run, run]

@[simp] theorem run_bytes (p n : Nat) (m : Mem) : run (bytes p n) m = load m p n := by
  induction n generalizing p with
  | zero => rfl
  | succ n ih =>
    rw [bytes, run_bind, run_bind, ih, run_byte, run_pure, Nat.add_comm n 1, load_append]
    rfl

@[simp] theorem run_word (p : Nat) (m : Mem) : run (word p) m = loadLe m p 2 := by
  rw [word, run_bind, run_bytes, run_pure, loadLe]

/-! ## Reads -/

@[simp] theorem reads_pure (a : α) (m : Mem) : reads (pure a) m = [] := rfl

@[simp] theorem reads_bind (x : Access α) (f : α → Access β) (m : Mem) :
    reads (x >>= f) m = reads x m ++ reads (f (run x m)) m := by
  induction x with
  | done a => rfl
  | read i next ih => exact congrArg (i :: ·) (ih (m i))

@[simp] theorem reads_ite (c : Prop) [Decidable c] (x y : Access α) (m : Mem) :
    reads (if c then x else y) m = if c then reads x m else reads y m := by
  split <;> rfl

@[simp] theorem reads_byte (i : Nat) (m : Mem) : reads (byte i) m = [i] := rfl

@[simp] theorem mem_reads_bytes {p n i : Nat} {m : Mem} : i ∈ reads (bytes p n) m ↔ p ≤ i ∧ i < p + n := by
  induction n generalizing p with
  | zero =>
    simp only [bytes, reads_pure, List.not_mem_nil, false_iff]
    omega
  | succ n ih =>
    simp only [bytes, reads_bind, reads_byte, reads_pure, List.append_nil, List.mem_append,
      List.mem_singleton, ih]
    omega

@[simp] theorem mem_reads_word {p i : Nat} {m : Mem} : i ∈ reads (word p) m ↔ p ≤ i ∧ i < p + 2 := by
  rw [word, reads_bind, reads_pure, List.append_nil, mem_reads_bytes]

/-- **Locality.** What is read decides the value, and what else is read. -/
theorem run_congr {x : Access α} {m m' : Mem} (h : ∀ i ∈ reads x m, m i = m' i) :
    run x m' = run x m ∧ reads x m' = reads x m := by
  induction x with
  | done a => exact ⟨rfl, rfl⟩
  | read i next ih =>
    obtain ⟨hi, hnext⟩ := List.forall_mem_cons.1 h
    obtain ⟨hrun, hreads⟩ := ih (m i) hnext
    rw [run, run, reads, reads, ← hi, hrun, hreads]
    exact ⟨rfl, rfl⟩

end Access

end Footprint
