import Mathlib

/-!
# Programs on a disk that can lose power

A `Prog V α` reads and writes whole blocks of type `V` through a buffer cache and returns an `α`.
`Mem` is the machine: the blocks on disk, and over them the buffers that have been changed in memory
and not written yet. Reading sees the changed buffer when there is one; writing a block puts it on
disk and leaves its buffer clean.

* `run` executes a program to its end.
* `cut p m n` is the disk that is left when the power fails after `n` block writes of `p`: the
  buffers are gone, and a single block write is atomic.

`cut_bind` splits the power cut of a sequence of programs by the number of writes of the first.
-/

namespace Laboratorio.DiskProg

open Function

variable {V α β : Type}

/-- The blocks of a disk. -/
abbrev Disk (V : Type) := Nat → V

/-- The disk and the buffers that differ from it. -/
structure Mem (V : Type) where
  disk : Disk V
  dirty : Nat → Option V

namespace Mem

/-- What a read of block `b` returns. -/
def view (m : Mem V) (b : Nat) : V := (m.dirty b).getD (m.disk b)

/-- Write `v` to block `b`. -/
def write (m : Mem V) (b : Nat) (v : V) : Mem V where
  disk := update m.disk b v
  dirty := update m.dirty b none

/-- Change the buffer of block `b` in memory. -/
def modify (m : Mem V) (b : Nat) (v : V) : Mem V :=
  { m with dirty := update m.dirty b (some v) }

/-- The machine after a restart: only the disk is left. -/
def boot (d : Disk V) : Mem V where
  disk := d
  dirty := fun _ => none

@[simp] theorem view_boot (d : Disk V) (b : Nat) : (boot d).view b = d b := rfl

@[simp] theorem view_write (m : Mem V) (b : Nat) (v : V) :
    (m.write b v).view = update m.view b v := by
  funext c
  by_cases h : c = b
  · subst h; simp [view, write]
  · simp [view, write, update_of_ne h]

@[simp] theorem view_modify (m : Mem V) (b : Nat) (v : V) :
    (m.modify b v).view = update m.view b v := by
  funext c
  by_cases h : c = b
  · subst h; simp [view, modify]
  · simp [view, modify, update_of_ne h]

@[simp] theorem disk_write (m : Mem V) (b : Nat) (v : V) :
    (m.write b v).disk = update m.disk b v := rfl

end Mem

/-- A program that reads and writes blocks. -/
inductive Prog (V α : Type) where
  | pure (a : α)
  | read (b : Nat) (k : V → Prog V α)
  | write (b : Nat) (v : V) (k : Prog V α)

namespace Prog

def bind : Prog V α → (α → Prog V β) → Prog V β
  | .pure a, f => f a
  | .read b k, f => .read b (fun v => (k v).bind f)
  | .write b v k, f => .write b v (k.bind f)

instance : Monad (Prog V) where
  pure := .pure
  bind := bind

/-- Execute a program. -/
def run : Prog V α → Mem V → α × Mem V
  | .pure a, m => (a, m)
  | .read b k, m => (k (m.view b)).run m
  | .write b v k, m => k.run (m.write b v)

/-- The number of block writes of an execution. -/
def writes : Prog V α → Mem V → Nat
  | .pure _, _ => 0
  | .read b k, m => (k (m.view b)).writes m
  | .write b v k, m => k.writes (m.write b v) + 1

/-- The disk left behind when the power fails after `n` block writes. -/
def cut : Prog V α → Mem V → Nat → Disk V
  | .pure _, m, _ => m.disk
  | .read b k, m, n => (k (m.view b)).cut m n
  | .write _ _ _, m, 0 => m.disk
  | .write b v k, m, n + 1 => k.cut (m.write b v) n

/-! ## Sequences -/

theorem run_bind (p : Prog V α) (f : α → Prog V β) (m : Mem V) :
    (p >>= f).run m = (f (p.run m).1).run (p.run m).2 := by
  show (p.bind f).run m = _
  induction p generalizing m with
  | pure a => rfl
  | read b k ih => exact ih (m.view b) m
  | write b v k ih => exact ih (m.write b v)

/-- An execution leaves no changed buffer where there was none. -/
theorem dirty_run (p : Prog V α) (m : Mem V) (h : m.dirty = fun _ => none) :
    (p.run m).2.dirty = fun _ => none := by
  induction p generalizing m with
  | pure a => exact h
  | read b k ih => exact ih (m.view b) m h
  | write b v k ih => exact ih _ (by rw [Mem.write, h, update_eq_self_iff])

/-- A power cut after the last write leaves the disk of the finished execution. -/
theorem cut_of_writes_le (p : Prog V α) (m : Mem V) {n : Nat} (h : p.writes m ≤ n) :
    p.cut m n = (p.run m).2.disk := by
  induction p generalizing m n with
  | pure a => rfl
  | read b k ih => exact ih (m.view b) m h
  | write b v k ih =>
    cases n with
    | zero => simp [writes] at h
    | succ n =>
      simp only [writes, Nat.add_le_add_iff_right] at h
      exact ih (m.write b v) h

theorem cut_zero (p : Prog V α) (m : Mem V) : p.cut m 0 = m.disk := by
  induction p with
  | pure a => rfl
  | read b k ih => exact ih (m.view b)
  | write b v k ih => rfl

/-- **The power cut of a sequence** falls into its first part or into the rest. -/
theorem cut_bind (p : Prog V α) (f : α → Prog V β) (m : Mem V) (n : Nat) :
    (p >>= f).cut m n =
      if n ≤ p.writes m then p.cut m n
      else (f (p.run m).1).cut (p.run m).2 (n - p.writes m) := by
  show (p.bind f).cut m n = _
  induction p generalizing m n with
  | pure a =>
    cases n with
    | zero => exact cut_zero (f a) m
    | succ n => rfl
  | read b k ih => exact ih (m.view b) m n
  | write b v k ih =>
    cases n with
    | zero => simp [bind, cut]
    | succ n =>
      have := ih (m.write b v) n
      simp only [bind, cut, writes, run, Nat.add_le_add_iff_right, Nat.add_sub_add_right]
      exact this

end Prog

/-- Read a block. -/
def read (b : Nat) : Prog V V := .read b .pure

/-- Write a block. -/
def write (b : Nat) (v : V) : Prog V Unit := .write b v (.pure ())

/-- `Cuts p d d'`: the power may fail any number of times while `p` is being started over and over
from the disk `d`, and leave the disk `d'`. -/
inductive Cuts (p : Prog V α) : Disk V → Disk V → Prop where
  | refl (d : Disk V) : Cuts p d d
  | step {d d' : Disk V} (n : Nat) (h : Cuts p d d') : Cuts p d (p.cut (.boot d') n)

/-- A property of the disk that survives every power cut of `p` survives any number of them. -/
theorem Cuts.induction {p : Prog V α} {P : Disk V → Prop}
    (step : ∀ d, P d → ∀ n, P (p.cut (.boot d) n)) {d d' : Disk V} (h : Cuts p d d') (hd : P d) :
    P d' := by
  induction h with
  | refl => exact hd
  | step n _ ih => exact step _ ih n

end Laboratorio.DiskProg
