import Mathlib

/-!
# What several parties have done

A history lists what several parties have done, in the order in which it happened. The `part` of a
party is what it has done itself, in the same order; a sum over the history is the sum over the parts
(`sum_part`). `chunks` cuts a list into pieces of a given size, of which the last one may be shorter.
-/

namespace Laboratorio.Interleave

variable {P α : Type*}

section Part

variable [DecidableEq P]

/-- What party `p` has done. -/
def part (history : List (P × α)) (p : P) : List α :=
  (history.filter fun x => x.1 = p).map Prod.snd

theorem part_concat (history : List (P × α)) (q p : P) (a : α) :
    part (history ++ [(q, a)]) p = part history p ++ if q = p then [a] else [] := by
  unfold part
  rw [List.filter_append, List.map_append]
  by_cases h : q = p
  · simp [h]
  · simp [h]

/-- **A sum over the history** is the sum over its parts. -/
theorem sum_part [Fintype P] (g : α → Nat) (history : List (P × α)) :
    ∑ p, ((part history p).map g).sum = (history.map fun x => g x.2).sum := by
  induction history with
  | nil => simp [part]
  | cons x history ih =>
    have hcons : ∀ p, ((part (x :: history) p).map g).sum =
        (if x.1 = p then g x.2 else 0) + ((part history p).map g).sum := by
      intro p
      unfold part
      by_cases h : x.1 = p
      · simp [h]
      · simp [h]
    simp only [hcons, Finset.sum_add_distrib, ih]
    simp

end Part

/-! ## Pieces of a list -/

/-- The pieces of length `n` of a list. -/
def chunks (n : Nat) (l : List α) : List (List α) :=
  if n = 0 ∨ l = [] then [] else l.take n :: chunks n (l.drop n)
termination_by l.length
decreasing_by
  have := List.length_pos_of_ne_nil (l := l) (by tauto)
  rw [List.length_drop]
  omega

variable {n : Nat}

theorem chunks_nil : chunks n ([] : List α) = [] := by
  rw [chunks]
  simp

theorem chunks_of_ne {l : List α} (hn : 0 < n) (hl : l ≠ []) :
    chunks n l = l.take n :: chunks n (l.drop n) := by
  rw [chunks, if_neg]
  simp [hn.ne', hl]

/-- **The pieces are the list.** -/
theorem flatten_chunks (hn : 0 < n) (l : List α) : (chunks n l).flatten = l := by
  induction hlen : l.length using Nat.strong_induction_on generalizing l with
  | _ k ih =>
    by_cases hl : l = []
    · rw [hl, chunks_nil]
      rfl
    · have hpos := List.length_pos_of_ne_nil hl
      have hrest := ih (l.drop n).length (by rw [List.length_drop]; omega) (l.drop n) rfl
      rw [chunks_of_ne hn hl, List.flatten_cons, hrest, List.take_append_drop]

theorem length_chunks_le (l : List α) : ∀ x ∈ chunks n l, x.length ≤ n := by
  induction hlen : l.length using Nat.strong_induction_on generalizing l with
  | _ k ih =>
    intro x hx
    rw [chunks] at hx
    split at hx
    · cases hx
    next hne =>
      have hpos : 0 < l.length := List.length_pos_of_ne_nil (by tauto)
      rcases List.mem_cons.mp hx with rfl | hx
      · exact List.length_take_le n l
      · exact ih (l.drop n).length (by rw [List.length_drop]; omega) (l.drop n) rfl x hx

end Laboratorio.Interleave
