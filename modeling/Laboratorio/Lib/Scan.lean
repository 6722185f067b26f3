import Mathlib

/-!
# Scanning a table

`first p` is the loop that walks a table and stops at the first index where `p` holds.

`scanLess key bound dflt tbl` is the loop that walks a table once and keeps the entry with the
least key seen so far, starting from a fixed bound and a default entry:

    cont = bound; rem = dflt;
    for each entry e: if key e < cont then cont = key e, rem = e

Two facts about it are used. When every key is at least the bound, nothing is kept and the pair
comes back as it went in (`scanLess_none`). When some key is below the bound, the entry kept is the
*first* one with the least key (`scanLess_some`), so a second scan that looks for that key again
stops at the same entry.
-/

namespace Laboratorio.Scan

variable {α : Type*} {n : Nat}

/-! ## The first match -/

/-- The first index where `p` holds. Irreducible, or every `match` on it would be unrolled. -/
@[irreducible] def first (p : Fin n → Bool) : Option (Fin n) := Fin.find? p

theorem first_eq_some {p : Fin n → Bool} {i : Fin n} :
    first p = some i ↔ p i = true ∧ ∀ j < i, p j = false := by
  rw [first, Fin.find?_eq_some_iff]

theorem first_eq_none {p : Fin n → Bool} : first p = none ↔ ∀ i, p i = false := by
  rw [first, Fin.find?_eq_none_iff]

theorem exists_first {p : Fin n → Bool} {i : Fin n} (h : p i = true) : ∃ j, first p = some j := by
  cases hp : first p with
  | some j => exact ⟨j, rfl⟩
  | none => rw [first_eq_none.mp hp i] at h; cases h

/-! ## The least key -/

/-- One step of the scan: keep the entry when its key is below the current one. -/
def keepLess (key : α → Int) (best : Int × α) (e : α) : Int × α :=
  if key e < best.1 then (key e, e) else best

/-- The scan over a list of entries. -/
def scanList (key : α → Int) (best : Int × α) (l : List α) : Int × α :=
  l.foldl (keepLess key) best

/-- The scan over a table. -/
def scanLess (key : α → Int) (bound : Int) (dflt : α) (tbl : Fin n → α) : Int × α :=
  scanList key (bound, dflt) ((List.finRange n).map tbl)

theorem scanList_none (key : α → Int) (best : Int × α) (l : List α)
    (h : ∀ e ∈ l, best.1 ≤ key e) : scanList key best l = best := by
  induction l with
  | nil => rfl
  | cons e l ih =>
    have he : keepLess key best e = best := by
      have := h e (by simp)
      simp only [keepLess, ite_eq_right_iff]
      intro hlt; omega
    simp only [scanList, List.foldl_cons, he]
    exact ih (fun e' he' => h e' (by simp [he']))

/-- The scan over `pre ++ e :: post` keeps `e` when its key is below the starting one and below
every key of `pre`, and no key of `post` is smaller. -/
theorem scanList_first (key : α → Int) (best : Int × α) (pre post : List α) (e : α)
    (hbest : key e < best.1) (hpre : ∀ x ∈ pre, key e < key x) (hpost : ∀ x ∈ post, key e ≤ key x) :
    scanList key best (pre ++ e :: post) = (key e, e) := by
  induction pre generalizing best with
  | nil =>
    simp only [scanList, List.nil_append, List.foldl_cons, keepLess, hbest, ↓reduceIte]
    exact scanList_none key (key e, e) post hpost
  | cons x pre ih =>
    simp only [scanList, List.cons_append, List.foldl_cons]
    apply ih
    · have := hpre x (by simp)
      simp only [keepLess]
      split <;> assumption
    · intro y hy; exact hpre y (by simp [hy])

theorem scanLess_none (key : α → Int) (bound : Int) (dflt : α) (tbl : Fin n → α)
    (h : ∀ i, bound ≤ key (tbl i)) : scanLess key bound dflt tbl = (bound, dflt) := by
  apply scanList_none
  intro e he
  obtain ⟨i, -, rfl⟩ := List.mem_map.mp he
  exact h i

/-- A table with entries below a bound has a first entry of least key. -/
theorem exists_first_least (key : Fin n → Int) (i₀ : Fin n) :
    ∃ i, (∀ j, key i ≤ key j) ∧ (∀ j < i, key i < key j) ∧ key i ≤ key i₀ := by
  have hne : (Finset.univ : Finset (Fin n)).Nonempty := ⟨i₀, Finset.mem_univ _⟩
  obtain ⟨m, -, hm⟩ := Finset.exists_min_image Finset.univ key hne
  -- among the entries with that key, take the first
  obtain ⟨i, hi, hfirst⟩ :=
    (Fin.exists_iff_exists_minimal (fun i => key i = key m)).mp ⟨m, rfl⟩
  refine ⟨i, fun j => hi ▸ hm j (Finset.mem_univ _), fun j hj => ?_, hi ▸ hm i₀ (Finset.mem_univ _)⟩
  have h1 : key m ≤ key j := hm j (Finset.mem_univ _)
  have h2 : key j ≠ key m := hfirst j hj
  omega

/-- The scan keeps the first entry of least key. -/
theorem scanLess_first (key : α → Int) (bound : Int) (dflt : α) (tbl : Fin n → α) (i : Fin n)
    (hbound : key (tbl i) < bound) (hleast : ∀ j, key (tbl i) ≤ key (tbl j))
    (hfirst : ∀ j < i, key (tbl i) < key (tbl j)) :
    scanLess key bound dflt tbl = (key (tbl i), tbl i) := by
  obtain ⟨pre, post, hsplit⟩ := List.append_of_mem (List.mem_finRange i)
  have hsorted : (List.finRange n).Pairwise (· < ·) := List.pairwise_lt_finRange n
  rw [hsplit, List.pairwise_append] at hsorted
  simp only [scanLess, hsplit, List.map_append, List.map_cons]
  apply scanList_first
  · exact hbound
  · intro x hx
    obtain ⟨j, hj, rfl⟩ := List.mem_map.mp hx
    exact hfirst j (hsorted.2.2 j hj i (by simp))
  · intro x hx
    obtain ⟨j, -, rfl⟩ := List.mem_map.mp hx
    exact hleast j

/-- **The scan finds the first entry of least key**, when some key is below the bound, and looking
for that key again stops at it. -/
theorem scanLess_some (key : α → Int) (bound : Int) (dflt : α) (tbl : Fin n → α) (i₀ : Fin n)
    (h : key (tbl i₀) < bound) :
    ∃ i, (∀ j, key (tbl i) ≤ key (tbl j)) ∧ (∀ j < i, key (tbl i) < key (tbl j)) ∧
      scanLess key bound dflt tbl = (key (tbl i), tbl i) ∧
      first (fun j => key (tbl j) == key (tbl i)) = some i := by
  obtain ⟨i, hleast, hfirst, hle⟩ := exists_first_least (fun j => key (tbl j)) i₀
  refine ⟨i, hleast, hfirst, scanLess_first key bound dflt tbl i (by omega) hleast hfirst, ?_⟩
  rw [first_eq_some]
  refine ⟨by simp, fun j hj => ?_⟩
  have := hfirst j hj
  simp only [beq_eq_false_iff_ne]
  omega

end Laboratorio.Scan
