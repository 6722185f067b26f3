import Mathlib

/-!
# Circular singly linked lists

`Cycle next l` says that the pointers `next` lead through the nodes `l` in order and from the last
back to the first. Where the cycle is entered does not matter (`Cycle.rotate`, `Cycle.from_mem`). A
node can be inserted after another one, or taken out (`Cycle.insert`, `Cycle.remove`); both are stated
for the pointers after the change, so that they do not depend on the order of the stores.

`search` is a loop along the pointers; it ends if a node with the property is on the cycle
(`Cycle.search`).
-/

namespace Laboratorio.Cyclic

open List

variable {α : Type*} {next next' : α → α} {l us vs : List α} {a b : α}

/-- The pointers lead around through `l`. -/
def Cycle (next : α → α) (l : List α) : Prop := l ≠ [] ∧ l.map next = l.rotate 1

theorem cycle_cons : Cycle next (a :: l) ↔ next a :: l.map next = l ++ [a] := by
  simp [Cycle]

theorem Cycle.congr (h : Cycle next l) (hn : ∀ a ∈ l, next' a = next a) : Cycle next' l :=
  ⟨h.1, (map_congr_left hn).trans h.2⟩

theorem Cycle.rotate (h : Cycle next l) (n : Nat) : Cycle next (l.rotate n) := by
  refine ⟨fun hnil => h.1 (rotate_eq_nil_iff.mp hnil), ?_⟩
  rw [map_rotate, h.2, rotate_rotate, rotate_rotate, Nat.add_comm]

/-- A cycle can be entered at each of its nodes. -/
theorem Cycle.from_mem (h : Cycle next l) (ha : a ∈ l) : ∃ t, l ~r (a :: t) ∧ Cycle next (a :: t) := by
  obtain ⟨us, vs, rfl⟩ := append_of_mem ha
  have hrot : (us ++ a :: vs).rotate us.length = a :: (vs ++ us) := by
    rw [rotate_append_length_eq, cons_append]
  exact ⟨vs ++ us, ⟨us.length, hrot⟩, hrot ▸ h.rotate us.length⟩

theorem Cycle.mem_next (h : Cycle next l) (ha : a ∈ l) : next a ∈ l := by
  have hmem := mem_map_of_mem (f := next) ha
  rw [h.2] at hmem
  exact mem_rotate.mp hmem

/-- Two nodes have different successors. -/
theorem Cycle.next_inj (h : Cycle next l) (hn : l.Nodup) (ha : a ∈ l) (hb : b ∈ l)
    (hab : next a = next b) : a = b := by
  have hmap : (l.map next).Nodup := by
    rw [h.2]
    exact nodup_rotate.mpr hn
  exact inj_on_of_nodup_map hmap ha hb hab

/-- The pointers before and after a node. -/
theorem cycle_split {u : α} : Cycle next (u :: us ++ a :: vs) ↔
    next u :: us.map next = us ++ [a] ∧ next a :: vs.map next = vs ++ [u] := by
  have hlen : (next u :: us.map next).length = (us ++ [a]).length := by simp
  have heq : next u :: (us ++ a :: vs).map next =
      (next u :: us.map next) ++ (next a :: vs.map next) := by simp
  have heq' : (us ++ a :: vs) ++ [u] = (us ++ [a]) ++ (vs ++ [u]) := by simp
  rw [cons_append, cycle_cons, heq, heq']
  constructor
  · exact fun h => append_inj h hlen
  · rintro ⟨hleft, hright⟩
    rw [hleft, hright]

/-- **Inserting** `b` after `a`. -/
theorem Cycle.insert (h : Cycle next (us ++ a :: vs)) (ha : next' a = b) (hb : next' b = next a)
    (hus : ∀ c ∈ us, next' c = next c) (hvs : ∀ c ∈ vs, next' c = next c) :
    Cycle next' (us ++ a :: b :: vs) := by
  have hmap : vs.map next' = vs.map next := map_congr_left hvs
  cases us with
  | nil =>
    rw [nil_append, cycle_cons] at h ⊢
    rw [map_cons, ha, hb, hmap, h]
    rfl
  | cons u us =>
    rw [cycle_split] at h ⊢
    rw [ha, map_cons, hb, hmap, h.2, hus u mem_cons_self,
      map_congr_left fun c hc => hus c (mem_cons_of_mem _ hc), h.1]
    exact ⟨rfl, rfl⟩

/-- **Taking out** the node `b` after `a`. -/
theorem Cycle.remove (h : Cycle next (us ++ a :: b :: vs)) (ha : next' a = next b)
    (hus : ∀ c ∈ us, next' c = next c) (hvs : ∀ c ∈ vs, next' c = next c) :
    Cycle next' (us ++ a :: vs) := by
  have hmap : vs.map next' = vs.map next := map_congr_left hvs
  cases us with
  | nil =>
    rw [nil_append, cycle_cons] at h ⊢
    rw [map_cons, cons_append, cons_eq_cons] at h
    rw [ha, hmap, h.2]
  | cons u us =>
    rw [cycle_split] at h ⊢
    rw [map_cons, cons_append, cons_eq_cons] at h
    rw [ha, hmap, h.2.2, hus u mem_cons_self,
      map_congr_left fun c hc => hus c (mem_cons_of_mem _ hc), h.1]
    exact ⟨rfl, rfl⟩

/-- The successor of a node before another one. -/
theorem Cycle.next_eq (h : Cycle next (us ++ a :: b :: vs)) : next a = b := by
  cases us with
  | nil =>
    rw [nil_append, cycle_cons, cons_append, cons_eq_cons] at h
    exact h.1
  | cons u us =>
    rw [cycle_split, cons_append, cons_eq_cons] at h
    exact h.2.1

/-- The successor of the last node. -/
theorem Cycle.next_last {u : α} (h : Cycle next (u :: us)) (hl : u :: us = vs ++ [a]) :
    next a = u := by
  cases vs with
  | nil =>
    obtain ⟨rfl, rfl⟩ := cons_eq_cons.mp hl
    simpa using cycle_cons.mp h
  | cons v vs =>
    rw [hl, cycle_split] at h
    obtain ⟨rfl, -⟩ := cons_eq_cons.mp hl
    simpa using h.2

/-! ## Loops -/

/-- Follow the pointers to the first node with the property, for `fuel` nodes. -/
def search (next : α → α) (p : α → Bool) : Nat → α → Option α
  | 0, _ => none
  | fuel + 1, a => if p a then some a else search next p fuel (next a)

/-- More nodes do not change what has been found. -/
theorem search_mono {p : α → Bool} {fuel : Nat} (h : search next p fuel a = some b) (k : Nat) :
    search next p (fuel + k) a = some b := by
  induction fuel generalizing a with
  | zero => cases h
  | succ fuel ih =>
    rw [Nat.succ_add, search]
    rw [search] at h
    split at h
    · next hp => rw [if_pos hp, h]
    · next hp => rw [if_neg hp, ih h]

theorem search_isChain {p : α → Bool} {t : List α} {fuel : Nat}
    (hc : (a :: t).IsChain fun x y => next x = y) (hp : ∃ b ∈ a :: t, p b = true)
    (hf : t.length < fuel) : ∃ b ∈ a :: t, search next p fuel a = some b ∧ p b = true := by
  induction t generalizing a fuel with
  | nil =>
    obtain ⟨fuel, rfl⟩ := Nat.exists_eq_succ_of_ne_zero (Nat.ne_of_gt hf)
    obtain ⟨b, hb, hpb⟩ := hp
    obtain rfl := mem_singleton.mp hb
    exact ⟨b, hb, by rw [search, if_pos hpb], hpb⟩
  | cons c t ih =>
    obtain ⟨fuel, rfl⟩ := Nat.exists_eq_succ_of_ne_zero (Nat.ne_of_gt (Nat.zero_lt_of_lt hf))
    rw [isChain_cons_cons] at hc
    obtain ⟨rfl, hrest⟩ := hc
    rw [search]
    by_cases hpa : p a = true
    · exact ⟨a, mem_cons_self, by rw [if_pos hpa], hpa⟩
    · obtain ⟨b, hb, hpb⟩ := hp
      rcases mem_cons.mp hb with rfl | hb
      · exact absurd hpb hpa
      · rw [if_neg hpa]
        obtain ⟨b, hb, hs, hpb⟩ := ih hrest ⟨b, hb, hpb⟩ (Nat.lt_of_succ_lt_succ hf)
        exact ⟨b, mem_cons_of_mem _ hb, hs, hpb⟩

theorem isChain_of_map_eq {t : List α} (h : next a :: t.map next = t ++ [b]) :
    (a :: (t ++ [b])).IsChain fun x y => next x = y := by
  induction t generalizing a with
  | nil => simpa using h
  | cons c t ih =>
    rw [map_cons, cons_append, cons_eq_cons] at h
    rw [cons_append, isChain_cons_cons]
    exact ⟨h.1, ih h.2⟩

/-- The way around from a node back to it. -/
theorem Cycle.isChain (h : Cycle next (a :: l)) :
    (a :: (l ++ [a])).IsChain fun x y => next x = y :=
  isChain_of_map_eq (cycle_cons.mp h)

/-- **A search ends** at a node with the property, if there is one on the cycle. -/
theorem Cycle.search {p : α → Bool} {fuel : Nat} (h : Cycle next l) (ha : a ∈ l)
    (hp : ∃ b ∈ l, p b = true) (hf : l.length ≤ fuel) :
    ∃ b ∈ l, search next p fuel a = some b ∧ p b = true := by
  obtain ⟨t, hrot, hc⟩ := h.from_mem ha
  obtain ⟨b, hb, hpb⟩ := hp
  have hchain : (a :: t).IsChain fun x y => next x = y := by
    have := hc.isChain
    rw [← cons_append] at this
    exact this.left_of_append
  have hlen : t.length < fuel := by
    have := hrot.perm.length_eq
    rw [length_cons] at this
    omega
  obtain ⟨c, hmem, hs, hpc⟩ := search_isChain hchain ⟨b, hrot.mem_iff.mp hb, hpb⟩ hlen
  exact ⟨c, hrot.mem_iff.mpr hmem, hs, hpc⟩

end Laboratorio.Cyclic
