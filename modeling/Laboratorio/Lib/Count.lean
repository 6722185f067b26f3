import Mathlib

/-!
# Counting over tables

A table is a function `g : α → β`. The sums over a table that a program updates one entry at a time
follow its updates: the old entry's share goes, and the new one's comes (`sum_update`). `occ g v` is
the number of entries that are `v`.
-/

namespace Laboratorio.Count

open Function Finset

variable {α β : Type*}

section Sum

variable [DecidableEq α]

/-- A sum over a table after an update. -/
theorem sum_update {M : Type*} [AddCommMonoid M] {S : Finset α} {a : α} (ha : a ∈ S)
    (w : α → β → M) (g : α → β) (b : β) :
    (∑ x ∈ S, w x (update g a b x)) + w a (g a) = (∑ x ∈ S, w x (g x)) + w a b := by
  have hrest : ∑ x ∈ S.erase a, w x (update g a b x) = ∑ x ∈ S.erase a, w x (g x) := by
    apply sum_congr rfl
    intro x hx
    rw [update_of_ne (ne_of_mem_erase hx)]
  rw [← add_sum_erase S _ ha, ← add_sum_erase S (fun x => w x (g x)) ha, hrest, update_self]
  abel

/-- Two sums that differ in one summand. -/
theorem sum_of_ne [Fintype α] {v w : α → Nat} (a : α) (h : ∀ x, x ≠ a → v x = w x) :
    (∑ x, v x) + w a = (∑ x, w x) + v a := by
  have hupdate : v = update w a (v a) := by
    funext x
    by_cases hx : x = a
    · rw [hx, update_self]
    · rw [update_of_ne hx, h x hx]
  rw [hupdate, sum_update (mem_univ a) (fun _ y => y) w (v a), update_self]

end Sum

section Occ

variable [Fintype α] [DecidableEq β]

/-- The number of entries of a table that are `v`. -/
def occ (g : α → β) (v : β) : Nat := ∑ x, if g x = v then 1 else 0

theorem occ_update [DecidableEq α] (g : α → β) (a : α) (b v : β) :
    occ (update g a b) v + (if g a = v then 1 else 0) = occ g v + if b = v then 1 else 0 :=
  sum_update (mem_univ a) (fun _ y => if y = v then 1 else 0) g b

theorem occ_eq_card (g : α → β) (v : β) : occ g v = card {a | g a = v} := by
  rw [occ, sum_boole, Nat.cast_id]

theorem occ_pos {g : α → β} {v : β} : 0 < occ g v ↔ ∃ a, g a = v := by
  rw [occ_eq_card, card_pos]
  constructor
  · rintro ⟨a, ha⟩
    exact ⟨a, (mem_filter.mp ha).2⟩
  · rintro ⟨a, ha⟩
    exact ⟨a, mem_filter.mpr ⟨mem_univ a, ha⟩⟩

theorem occ_eq_zero {g : α → β} {v : β} : occ g v = 0 ↔ ∀ a, g a ≠ v := by
  have := occ_pos (g := g) (v := v)
  constructor
  · intro h0 a ha
    exact absurd (this.mpr ⟨a, ha⟩) (by omega)
  · intro hne
    by_contra h0
    obtain ⟨a, ha⟩ := this.mp (Nat.pos_of_ne_zero h0)
    exact hne a ha

end Occ

/-- A count of one is of one element. -/
theorem existsUnique_of_sum_eq_one [Fintype α] {f : α → Bool} (h : ∑ a, (f a).toNat = 1) :
    ∃! a, f a = true := by
  have hnat : ∀ a, (f a).toNat = if f a = true then 1 else 0 := fun a => by cases f a <;> rfl
  simp only [hnat, sum_boole, Nat.cast_id] at h
  obtain ⟨a, ha⟩ := card_eq_one.mp h
  have hiff : ∀ b, f b = true ↔ b = a := fun b => by
    have hmem : b ∈ univ.filter (fun x => f x = true) ↔ b = a := by rw [ha, mem_singleton]
    rwa [mem_filter, and_iff_right (mem_univ b)] at hmem
  exact ⟨a, (hiff a).mpr rfl, fun b hb => (hiff b).mp hb⟩

end Laboratorio.Count
