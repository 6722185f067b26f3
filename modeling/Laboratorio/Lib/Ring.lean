import Mathlib

/-!
# Circular doubly linked lists

Nodes of a type `α` carry a `next` and a `prev` pointer. `Ring k h xs` says that the pointers `k`
form a circular list: from the head `h` along `next` come the nodes `xs` in order and then `h`
again, and `prev` is the way back.

* `Ring.unlink`, `Ring.push`: taking a node out, and inserting one after the head.
* `Ring.find_next`, `Ring.find_prev`: a loop along the pointers is a search of the list.
-/

namespace Laboratorio.Circular

open Function List

variable {α : Type*}

/-- The pointers of all nodes. -/
structure Links (α : Type*) where
  next : α → α
  prev : α → α

/-- `b` follows `a`, by both pointers. -/
def Links.Linked (k : Links α) (a b : α) : Prop := k.next a = b ∧ k.prev b = a

/-- The pointers form a circular list of `xs` with the head `h`. -/
def Ring (k : Links α) (h : α) (xs : List α) : Prop := (h :: (xs ++ [h])).IsChain k.Linked

variable [DecidableEq α]

/-- `b->next->prev = b->prev; b->prev->next = b->next` -/
def Links.unlink (k : Links α) (b : α) : Links α :=
  let k := { k with prev := update k.prev (k.next b) (k.prev b) }
  { k with next := update k.next (k.prev b) (k.next b) }

/-- `b->next = h->next; b->prev = h; h->next->prev = b; h->next = b` -/
def Links.push (k : Links α) (h b : α) : Links α :=
  let k := { k with next := update k.next b (k.next h) }
  let k := { k with prev := update k.prev b h }
  let k := { k with prev := update k.prev (k.next h) b }
  { k with next := update k.next h b }

/-- `for(b = …; b != h; b = next(b)) if(p(b)) …`: the first node with `p`, in `fuel` rounds. -/
def find (next : α → α) (h : α) (p : α → Bool) : Nat → α → Option α
  | 0, _ => none
  | fuel + 1, b =>
    if b = h then none else if p b then some b else find next h p fuel (next b)

/-! ## Changing pointers -/

variable {k k' : Links α} {h b : α} {xs ys : List α}

omit [DecidableEq α] in
/-- The links of a chain depend on `next` before its last node and on `prev` after its first. -/
theorem isChain_congr {l : List α} (hl : l.IsChain k.Linked)
    (hnext : ∀ a ∈ l.dropLast, k'.next a = k.next a) (hprev : ∀ a ∈ l.tail, k'.prev a = k.prev a) :
    l.IsChain k'.Linked := by
  induction l with
  | nil => exact .nil
  | cons a l ih =>
    cases l with
    | nil => exact .singleton a
    | cons c l =>
      rw [isChain_cons_cons] at hl ⊢
      obtain ⟨⟨hac, hca⟩, hrest⟩ := hl
      refine ⟨⟨(hnext a (by simp)).trans hac, (hprev c (by simp)).trans hca⟩, ih hrest ?_ ?_⟩
      · exact fun x hx => hnext x (by simp [hx])
      · exact fun x hx => hprev x (by simpa using .inr hx)

omit [DecidableEq α] in
theorem ring_nil : Ring k h [] ↔ k.next h = h ∧ k.prev h = h := by
  simp [Ring, Links.Linked]

/-- **Taking out** a node leaves a ring of the others. -/
theorem Ring.unlink (hr : Ring k h (xs ++ b :: ys)) (hn : (h :: (xs ++ b :: ys)).Nodup) :
    Ring (k.unlink b) h (xs ++ ys) := by
  -- `p` is the node before `b` and `q` the one after it
  obtain ⟨us, p, hp⟩ : ∃ us p, h :: xs = us ++ [p] :=
    ⟨(h :: xs).dropLast, _, (dropLast_append_getLast (cons_ne_nil h xs)).symm⟩
  obtain ⟨q, vs, hq⟩ : ∃ q vs, ys ++ [h] = q :: vs := exists_cons_of_ne_nil (by simp)
  have hsplit : h :: (xs ++ b :: ys ++ [h]) = us ++ p :: b :: q :: vs := by
    calc h :: (xs ++ b :: ys ++ [h]) = (h :: xs) ++ b :: (ys ++ [h]) := by simp
      _ = us ++ p :: b :: q :: vs := by simp [hp, hq]
  have hgoal : h :: (xs ++ ys ++ [h]) = us ++ p :: q :: vs := by
    calc h :: (xs ++ ys ++ [h]) = (h :: xs) ++ (ys ++ [h]) := by simp
      _ = us ++ p :: q :: vs := by simp [hp, hq]
  unfold Ring at hr ⊢
  rw [hsplit, isChain_append_cons_cons, isChain_cons_cons] at hr
  rw [hgoal, isChain_append_cons_cons]
  obtain ⟨hleft, ⟨hpb, hbp⟩, ⟨hbq, hqb⟩, hright⟩ := hr
  -- the nodes are distinct, the head apart, which ends the right part
  have hxs : ∀ a ∈ h :: xs, a ∉ ys ∧ a ≠ b := by grind
  have hnx : (us ++ [p]).Nodup := hp ▸ (by grind : (h :: xs).Nodup)
  have hny : (q :: vs).Nodup := hq ▸ (by grind : (ys ++ [h]).Nodup)
  have hpb' : b ≠ p := ((hxs p (hp ▸ by simp)).2).symm
  have hqne : b ≠ q := by
    have : q ∈ ys ++ [h] := hq ▸ mem_cons_self
    grind
  have hnext : (k.unlink b).next = update k.next p q := by
    simp only [Links.unlink]
    rw [hbq, update_of_ne hqne, hbp]
  have hprev : (k.unlink b).prev = update k.prev q p := by
    simp only [Links.unlink]
    rw [hbq, hbp]
  refine ⟨isChain_congr hleft ?_ ?_, ⟨by simp [hnext], by simp [hprev]⟩,
    isChain_congr hright ?_ ?_⟩
  · intro a ha
    rw [hnext, update_of_ne]
    rw [dropLast_concat] at ha
    grind
  · intro a ha
    have hax : a ∈ xs := by
      rw [← hp] at ha
      exact ha
    have hqm : q ∈ ys ++ [h] := hq ▸ mem_cons_self
    rw [hprev, update_of_ne]
    grind
  · intro a ha
    rw [← hq, dropLast_concat] at ha
    have hpm : p ∈ h :: xs := hp ▸ by simp
    rw [hnext, update_of_ne]
    grind
  · intro a ha
    rw [hprev, update_of_ne]
    grind

/-- **Inserting** a node after the head. -/
theorem Ring.push (hr : Ring k h xs) (hn : (h :: xs).Nodup) (hb : b ∉ h :: xs) :
    Ring (k.push h b) h (b :: xs) := by
  obtain ⟨q, vs, hq⟩ : ∃ q vs, xs ++ [h] = q :: vs := exists_cons_of_ne_nil (by simp)
  have hqm : q ∈ xs ++ [h] := hq ▸ mem_cons_self
  have hny : (q :: vs).Nodup := hq ▸ (by grind : (xs ++ [h]).Nodup)
  have hhb : h ≠ b := fun e => hb (e ▸ mem_cons_self)
  have hqb : q ≠ b := by grind
  have hxs : h ∉ xs := (nodup_cons.mp hn).1
  unfold Ring at hr ⊢
  rw [hq, isChain_cons_cons] at hr
  obtain ⟨⟨hhq, -⟩, hrest⟩ := hr
  have hnext : (k.push h b).next = update (update k.next b q) h b := by
    simp only [Links.push, hhq]
  have hprev : (k.push h b).prev = update (update k.prev b h) q b := by
    simp only [Links.push, hhq, update_of_ne hhb]
  rw [cons_append, hq, isChain_cons_cons, isChain_cons_cons]
  refine ⟨⟨by simp [hnext], ?_⟩, ⟨?_, by simp [hprev]⟩, isChain_congr hrest ?_ ?_⟩
  · rw [hprev, update_of_ne hqb.symm, update_self]
  · rw [hnext, update_of_ne hhb.symm, update_self]
  · intro a ha
    rw [← hq, dropLast_concat] at ha
    rw [hnext, update_of_ne, update_of_ne] <;> grind
  · intro a ha
    have hmem : a ∈ xs ++ [h] := hq ▸ mem_cons_of_mem _ ha
    rw [hprev, update_of_ne, update_of_ne] <;> grind

/-! ## Following pointers -/

/-- A loop along a chain that ends in `h` searches it. -/
theorem find_isChain {next : α → α} {p : α → Bool} (a : α) {fuel : Nat}
    (hc : (a :: (xs ++ [h])).IsChain fun x y => next x = y) (hh : h ∉ xs)
    (hf : xs.length < fuel) : find next h p fuel (next a) = xs.find? p := by
  induction xs generalizing a fuel with
  | nil =>
    obtain ⟨fuel, rfl⟩ := Nat.exists_eq_succ_of_ne_zero (Nat.ne_of_gt hf)
    have : next a = h := by simpa using hc
    simp [find, this]
  | cons x xs ih =>
    obtain ⟨fuel, rfl⟩ := Nat.exists_eq_succ_of_ne_zero (Nat.ne_of_gt (Nat.zero_lt_of_lt hf))
    rw [cons_append, isChain_cons_cons] at hc
    obtain ⟨rfl, hrest⟩ := hc
    obtain ⟨hne, hmem⟩ := not_or.mp (mem_cons.not.mp hh)
    simp only [find, if_neg (Ne.symm hne), find?_cons]
    cases p (next a) with
    | true => rfl
    | false => simpa using ih (next a) hrest hmem (by simpa using hf)

theorem Ring.find_next {p : α → Bool} {fuel : Nat} (hr : Ring k h xs) (hn : (h :: xs).Nodup)
    (hf : xs.length < fuel) : find k.next h p fuel (k.next h) = xs.find? p :=
  find_isChain h (hr.imp fun _ _ hl => hl.1) (nodup_cons.mp hn).1 hf

theorem Ring.find_prev {p : α → Bool} {fuel : Nat} (hr : Ring k h xs) (hn : (h :: xs).Nodup)
    (hf : xs.length < fuel) : find k.prev h p fuel (k.prev h) = xs.reverse.find? p := by
  refine find_isChain h ?_ (by simpa using (nodup_cons.mp hn).1) (by simpa using hf)
  have hrev : (h :: (xs ++ [h])).reverse = h :: (xs.reverse ++ [h]) := by simp
  rw [← hrev, isChain_reverse]
  exact hr.imp fun _ _ hl => hl.2

end Laboratorio.Circular
