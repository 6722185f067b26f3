import Mathlib

/-!
# Items in slots

A table of slots, each empty or holding one item, is a function `f : ι → Option α`. `Holds f S`
says that the items in the table are exactly those of `S`, each in one slot: nothing is lost and
nothing is there twice. Two moves keep it: permuting the slots, and putting a new item into an
empty slot.
-/

namespace Laboratorio.Slots

open Function

variable {ι α : Type*}

/-- The table `f` holds every item of `S` in exactly one slot, and no other item. -/
structure Holds (f : ι → Option α) (S : Set α) : Prop where
  once : ∀ a ∈ S, ∃! x, f x = some a
  sound : ∀ x a, f x = some a → a ∈ S

theorem Holds.empty : Holds (fun _ : ι => (none : Option α)) ∅ where
  once := by simp
  sound := by simp

/-- Permuting the slots keeps what the table holds. -/
theorem Holds.comp_equiv {f : ι → Option α} {S : Set α} (h : Holds f S) (e : ι ≃ ι) :
    Holds (f ∘ e) S where
  once a ha := by
    obtain ⟨x, hx, huniq⟩ := h.once a ha
    refine ⟨e.symm x, by simpa using hx, fun y hy => ?_⟩
    have : e y = x := huniq (e y) hy
    rw [← this, Equiv.symm_apply_apply]
  sound x a hxa := h.sound (e x) a hxa

/-- An item that is nowhere may be put into an empty slot. -/
theorem Holds.fill [DecidableEq ι] {f : ι → Option α} {S : Set α} (h : Holds f S) {x : ι} {a : α}
    (hx : f x = none) (ha : a ∉ S) : Holds (update f x (some a)) (insert a S) where
  once b hb := by
    rcases Set.mem_insert_iff.mp hb with rfl | hb
    · refine ⟨x, by simp, fun y hy => ?_⟩
      by_contra hyx
      simp only [update_of_ne hyx] at hy
      exact ha (h.sound y b hy)
    · obtain ⟨y, hy, huniq⟩ := h.once b hb
      have hyx : y ≠ x := by rintro rfl; rw [hx] at hy; cases hy
      have hab : a ≠ b := by rintro rfl; exact ha hb
      refine ⟨y, by simpa [update_of_ne hyx] using hy, fun z hz => ?_⟩
      by_cases hzx : z = x
      · subst hzx; simp [hab] at hz
      · simp only [update_of_ne hzx] at hz; exact huniq z hz
  sound y b hyb := by
    by_cases hyx : y = x
    · subst hyx; simp at hyb; simp [hyb]
    · rw [update_of_ne hyx] at hyb
      exact Set.mem_insert_of_mem _ (h.sound y b hyb)

/-- An item of `S` sits in the slots it is found in, and in no other. -/
theorem Holds.inj {f : ι → Option α} {S : Set α} (h : Holds f S) {x y : ι} {a : α}
    (hx : f x = some a) (hy : f y = some a) : x = y :=
  (h.once a (h.sound x a hx)).unique hx hy

end Laboratorio.Slots
