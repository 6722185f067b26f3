import Mathlib

/-!
# Queues in rings

A ring of `n` slots is indexed by counters that only grow; a counter's slot is its remainder by `n`.
`Holds n data start q` says that the queue `q` lies in the slots from the counter `start` on. A queue
shorter than the ring can be appended to (`Holds.push`), and its head can be taken (`Holds.pop`).
Counters of machine words wrap around, which changes no slot when `n` divides their range
(`holds_mod`).
-/

namespace Laboratorio.Fifo

open Function

variable {α : Type*} {n start : Nat} {data : Nat → α} {q : List α} {a : α}

/-- Two counters that are less than `n` apart have different slots. -/
theorem slot_ne {k i : Nat} (hlt : k < i) (hn : i < k + n) : k % n ≠ i % n := by
  intro heq
  have hdvd := (Nat.modEq_iff_dvd' hlt.le).mp heq
  have := Nat.le_of_dvd (by omega) hdvd
  omega

/-- The queue lies in the ring from `start` on. -/
def Holds (n : Nat) (data : Nat → α) (start : Nat) (q : List α) : Prop :=
  ∀ i a, q[i]? = some a → data ((start + i) % n) = a

theorem Holds.nil : Holds n data start [] := nofun

theorem Holds.push (h : Holds n data start q) (hlt : q.length < n) (a : α) :
    Holds n (update data ((start + q.length) % n) a) start (q ++ [a]) := by
  intro i b hi
  rcases Nat.lt_trichotomy i q.length with hlow | rfl | hhigh
  · rw [List.getElem?_append_left hlow] at hi
    rw [update_of_ne (slot_ne (by omega) (by omega))]
    exact h i b hi
  · rw [List.getElem?_concat_length] at hi
    rw [update_self]
    exact Option.some.inj hi
  · rw [List.getElem?_eq_none (by simpa using hhigh)] at hi
    cases hi

theorem Holds.head (h : Holds n data start (a :: q)) : data (start % n) = a := h 0 a rfl

theorem Holds.pop (h : Holds n data start (a :: q)) : Holds n data (start + 1) q := fun i b hi => by
  rw [Nat.add_assoc, Nat.add_comm 1 i]
  exact h (i + 1) b hi

theorem holds_mod {m : Nat} (hn : n ∣ m) : Holds n data (start % m) q ↔ Holds n data start q := by
  have hslot : ∀ i, (start % m + i) % n = (start + i) % n := fun i => by
    rw [Nat.add_mod, Nat.mod_mod_of_dvd _ hn, ← Nat.add_mod]
  simp only [Holds, hslot]

end Laboratorio.Fifo
