import Mathlib

/-!
# Null-terminated linked lists

`Leads next p l` says that from the pointer `p` the nodes `l` come in order along `next`, and then the
null pointer. A node can be taken from the front, and one can be put at the end (`Leads.append`), which
a loop along the list finds (`Leads.lastLink`).
-/

namespace Laboratorio.Linked

open Function

variable {α : Type*} {next next' : α → Option α} {p : Option α} {l : List α} {a b : α}

/-- The pointer leads through `l` to the end of the list. -/
def Leads (next : α → Option α) : Option α → List α → Prop
  | p, [] => p = none
  | p, a :: l => p = some a ∧ Leads next (next a) l

theorem Leads.head (h : Leads next p l) : p = l.head? := by
  cases l with
  | nil => exact h
  | cons a l => exact h.1

theorem Leads.congr (h : Leads next p l) (hn : ∀ a ∈ l, next' a = next a) : Leads next' p l := by
  induction l generalizing p with
  | nil => exact h
  | cons a l ih =>
    refine ⟨h.1, ?_⟩
    rw [hn a List.mem_cons_self]
    exact ih h.2 fun b hb => hn b (List.mem_cons_of_mem _ hb)

/-- The last node before the end, for `fuel` nodes; `prev` is the node before the pointer `p`. -/
def lastLink (next : α → Option α) : Nat → (prev p : Option α) → Option (Option α)
  | 0, _, _ => none
  | _ + 1, prev, none => some prev
  | fuel + 1, _, some a => lastLink next fuel (some a) (next a)

/-- **The loop finds the end of the list.** -/
theorem Leads.lastLink (prev : Option α) {fuel : Nat} (h : Leads next p l) (hf : l.length < fuel) :
    lastLink next fuel prev p = some (l.getLast?.or prev) := by
  induction l generalizing p prev fuel with
  | nil =>
    obtain ⟨fuel, rfl⟩ := Nat.exists_eq_succ_of_ne_zero (Nat.ne_of_gt hf)
    rw [show p = none from h]
    rfl
  | cons a l ih =>
    obtain ⟨fuel, rfl⟩ := Nat.exists_eq_succ_of_ne_zero (Nat.ne_of_gt (Nat.zero_lt_of_lt hf))
    obtain ⟨rfl, hrest⟩ := h
    rw [Linked.lastLink, ih _ hrest (Nat.lt_of_succ_lt_succ hf)]
    cases l with
    | nil => rfl
    | cons b l => simp [List.getLast?_cons]

variable [DecidableEq α]

/-- Storing `b` in the last node puts it at the end. -/
theorem Leads.append (h : Leads next p (l ++ [a])) (hn : (l ++ [a]).Nodup) (hb : b ∉ l ++ [a])
    (hnull : next b = none) : Leads (update next a (some b)) p (l ++ [a] ++ [b]) := by
  have hba : b ≠ a := fun heq => hb (by simp [heq])
  induction l generalizing p with
  | nil =>
    refine ⟨h.1, ?_, ?_⟩
    · rw [update_self]
    · rw [update_of_ne hba]
      exact hnull
  | cons c l ih =>
    have hca : c ≠ a := fun heq => by
      have := (List.nodup_cons.mp hn).1
      simp [heq] at this
    refine ⟨h.1, ?_⟩
    rw [update_of_ne hca]
    exact ih h.2 (List.nodup_cons.mp hn).2 fun hmem => hb (List.mem_cons_of_mem _ hmem)

end Laboratorio.Linked
