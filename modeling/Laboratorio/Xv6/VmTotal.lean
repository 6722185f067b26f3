import Laboratorio.Xv6.VmEnough

/-!
# Page tables without panics

`mappages` panics only where something is mapped, and `kfree` only for a page that it was never given
out. So `setupkvm`, `allocuvm` and `freevm` do not panic when the free pages are pages of the
allocator, also if they run out of memory on the way.

The kernel part of every page table is the same: `kernelPte` gives its entries.
-/

namespace Laboratorio.Xv6.Vm

open Laboratorio.Wp

variable {d d' : Pgdir} {k k' : Kmem} {v : Nat} {x : Layout} {m : Multiset Page}

/-- `mappages` does not panic where nothing is mapped. -/
theorem wp_mapLoop_unmapped {perm : Perm} {n : Nat} {p : Page} (hw : k.wild = false)
    (hv : v + n ≤ 2 ^ 20) (hfree : ∀ u, v ≤ u → u < v + n → d.pte u = none) :
    wp (mapLoop perm d v n p) (Maps perm k d v n p) (fun _ => False) k := by
  have hsafe : wp (mapLoop perm d v n p) (fun _ _ => True) (fun _ => False) k := by
    induction n generalizing k d v p with
    | zero => trivial
    | succ n ih =>
      unfold mapLoop
      rw [wp_bind]
      refine wp_walkpgdir hw (by omega) (fun _ => trivial) fun d₁ k₁ _ hw₁ _ ht₁ he₁ _ _ => ?_
      simp only [wp_bind, wp_ite, wp_throw]
      refine ⟨fun hsome => ?_, fun _ => ih hw₁ (by omega) fun u hlo hhi => ?_⟩
      · rw [he₁, hfree v le_rfl (by omega)] at hsome
        cases hsome
      · rw [pte_setPte ht₁, if_neg (by omega), he₁]
        exact hfree u (by omega) (by omega)
  exact wp_mono (wp_and hsafe (wp_mapLoop hw hv)) (fun _ _ h => h.2) fun _ he => he.1

/-- `freevm` does not panic for pages of the allocator. -/
theorem wp_freevm_good (hgood : ∀ p ∈ d.pages, x.Holds p) :
    wp (freevm x d) (fun _ k' => (k'.freelist : Multiset Page) = k.freelist + d.pages ∧
      k'.wild = k.wild) (fun _ => False) k := by
  refine wp_mono wp_freevm_pages (fun _ _ h => h) ?_
  rintro e ⟨-, p, hp, hbad⟩
  exact hbad (hgood p hp)

/-! ## The kernel part -/

/-- The entry that a line of `kmap` gives to the virtual page `u`. -/
def linePte (m : Nat × Nat × Nat × Perm) (u : Nat) : Option Pte :=
  if m.1 / pgsize ≤ u ∧ u < (m.1 + m.2.1 - 1) / pgsize + 1 then
    some ⟨m.2.2.1 / pgsize + (u - m.1 / pgsize), m.2.2.2⟩
  else none

theorem linePte_of_covers {l : Nat × Nat × Nat × Perm} {u : Nat} (h : Covers l u) :
    linePte l u = some ⟨l.2.2.1 / pgsize + (u - l.1 / pgsize), l.2.2.2⟩ := if_pos h

theorem linePte_of_not_covers {l : Nat × Nat × Nat × Perm} {u : Nat} (h : ¬Covers l u) :
    linePte l u = none := if_neg h

/-- The entry of the virtual page `u` in the kernel part of every page table. -/
def kernelPte (x : Layout) (u : Nat) : Option Pte := (kmap x).findSome? (linePte · u)

/-- The kernel part is not for users. -/
theorem user_kernelPte {u : Nat} {e : Pte} (h : kernelPte x u = some e) : e.perm.u = false := by
  obtain ⟨l, hl, he⟩ := List.exists_of_findSome?_eq_some h
  unfold linePte at he
  split at he
  · cases he
    exact (kernelLine_kmap x l hl).user
  · cases he

/-- `setupkvm` maps lines that do not overlap, or gives all pages back. -/
theorem wp_mapKernel_total {ms : List (Nat × Nat × Nat × Perm)} (hw : k.wild = false)
    (hms : ∀ l ∈ ms, KernelLine l)
    (hdis : ms.Pairwise fun l l' => ∀ u, Covers l u → ¬Covers l' u)
    (hfree : ∀ l ∈ ms, ∀ u, Covers l u → d.pte u = none)
    (hgood : ∀ p ∈ (k.freelist : Multiset Page) + d.pages, x.Holds p) :
    wp (mapKernel x d ms) (fun r _ => ∀ d', r = some d' →
      ∀ u, d'.pte u = (ms.findSome? (linePte · u)).or (d.pte u)) (fun _ => False) k := by
  induction ms generalizing k d with
  | nil =>
    rintro d' hd'
    cases hd'
    exact fun _ => rfl
  | cons l ms ih =>
    obtain ⟨va, size, pa, perm⟩ := l
    obtain ⟨hhead, htail⟩ := List.pairwise_cons.mp hdis
    have hl := hms _ List.mem_cons_self
    have hrange : va / pgsize + ((va + size - 1) / pgsize + 1 - va / pgsize) =
        (va + size - 1) / pgsize + 1 := by
      have := hl.order
      simp only at this
      omega
    unfold mapKernel
    refine wp_then (wp_mapLoop_unmapped hw (hrange.trans_le hl.high) fun u hlo hhi =>
      hfree _ List.mem_cons_self u ⟨hlo, hrange ▸ hhi⟩) ?_
    rintro ⟨d₁, ok⟩ k₁ h₁
    obtain ⟨j, -, -, -, hp₁⟩ := h₁.pages
    rw [mapped_kernel hl.low, add_zero] at hp₁
    rw [← hp₁] at hgood
    cases ok with
    | false =>
      simp only [Bool.false_eq_true, if_false, wp_bind]
      refine wp_post (wp_freevm_good fun p hp => hgood p (Multiset.mem_add.mpr (.inr hp))) ?_
      intro _ _ _ d' hd'
      cases hd'
    | true =>
      simp only [if_true]
      have hout : ∀ u, ¬Covers (va, size, pa, perm) u → d₁.pte u = d.pte u := fun u hu =>
        h₁.outside u fun hin => hu ⟨hin.1, hrange ▸ hin.2⟩
      refine wp_post (ih h₁.wild (fun l hl => hms l (List.mem_cons_of_mem _ hl)) htail
        (fun l hl u hc => ?_) hgood) ?_
      · rw [hout u fun hin => hhead l hl u hin hc]
        exact hfree l (List.mem_cons_of_mem _ hl) u hc
      · intro r k₂ h₂ d' hd' u
        rw [h₂ d' hd' u, List.findSome?_cons]
        by_cases hc : Covers (va, size, pa, perm) u
        · -- no other line covers the page
          have hnone : ms.findSome? (linePte · u) = none :=
            List.findSome?_eq_none_iff.mpr fun l hl =>
              linePte_of_not_covers (hhead l hl u hc)
          have hin : d₁.pte u = linePte (va, size, pa, perm) u := by
            rw [linePte_of_covers hc]
            exact h₁.inside rfl u hc.1 (hrange.symm ▸ hc.2)
          rw [hnone, hin, linePte_of_covers hc]
          rfl
        · rw [linePte_of_not_covers hc, hout u hc]

/-- **`setupkvm` does not panic**: it makes the kernel part, or gives all pages back. -/
theorem wp_setupkvm_total (hw : k.wild = false) (hgood : ∀ p ∈ k.freelist, x.Holds p)
    {Q : Option Pgdir → Kmem → Prop}
    (hnone : ∀ k', (k'.freelist : Multiset Page) = k.freelist → k'.wild = false → Q none k')
    (hsome : ∀ d k', (k'.freelist : Multiset Page) + d.pages = k.freelist → k'.wild = false →
      KernelOnly d → (∀ u, userTop ≤ u → d.pte u = kernelPte x u) → Q (some d) k') :
    wp (setupkvm x) Q (fun _ => False) k := by
  have htotal : wp (setupkvm x) (fun r _ => ∀ d', r = some d' → ∀ u, d'.pte u = kernelPte x u)
      (fun _ => False) k := by
    unfold setupkvm
    rw [wp_bind]
    refine wp_kalloc hw (fun _ => nofun) fun p l hl => ?_
    have hpages : (l : Multiset Page) + Pgdir.pages ⟨p, fun _ => none⟩ = k.freelist := by
      rw [hl, ← Multiset.cons_coe, ← Multiset.singleton_add]
      simp only [Pgdir.pages, slot, Finset.sum_const_zero, add_zero]
      exact add_comm ..
    have hwl : ({ k with freelist := l } : Kmem).wild = false := hw
    refine wp_post (wp_mapKernel_total hwl (kernelLine_kmap x) (pairwise_kmap x)
      (fun _ _ _ _ => rfl) fun q hq => ?_) ?_
    · rw [hpages] at hq
      exact hgood q (Multiset.mem_coe.mp hq)
    · intro r _ h d' hd' u
      rw [h d' hd' u]
      exact Option.or_none
  have hfacts := wp_setupkvm (x := x) hw
    (Q := fun r k' => (∀ d, r = some d → ∀ u, d.pte u = kernelPte x u) → Q r k')
    (fun k' hp hw' _ => hnone k' hp hw')
    fun d k' hp hw' _ hd hpte => hsome d k' hp hw' hd fun u _ => hpte d rfl u
  exact wp_mono (wp_and htotal hfacts) (fun _ _ h => h.2 h.1) fun _ he => he.1

/-! ## The permissions of pages -/

/-- The pages that `allocuvm` maps are for users. -/
theorem wp_allocLoop_perm {oldsz newsz n : Nat} (hw : k.wild = false) (hsz : newsz ≤ kernbase)
    (hv : v + n ≤ userTop) :
    wp (allocLoop x oldsz newsz d v n) (fun r _ => r.2 ≠ 0 → ∀ u, v ≤ u → u < v + n →
      ∃ p, r.1.pte u = some ⟨p, ⟨true, true⟩⟩) (fun _ => True) k := by
  have hany : ∀ {α : Type} (f : K α) (k : Kmem), wp f (fun _ _ => True) (fun _ => True) k :=
    fun _ _ => wp_of_ends (fun _ _ _ => trivial) fun _ _ => trivial
  induction n generalizing k d v with
  | zero => exact fun _ u hlo hhi => absurd hhi (by omega)
  | succ n ih =>
    unfold allocLoop
    rw [wp_bind]
    refine wp_kalloc hw (fun _ => ?_) fun mem l hl => ?_
    · exact wp_then (hany _ _) (fun _ _ _ hr => absurd rfl hr)
    · have hwl : ({ k with freelist := l } : Kmem).wild = false := hw
      have hvt : v < userTop := by omega
      rw [wp_bind]
      refine wp_mono (wp_mappages_user hwl hvt (Q := fun r k' => r.2 = true →
        k'.wild = false ∧ r.1.pte v = some ⟨mem, ⟨true, true⟩⟩) (fun _ _ _ _ _ _ h => by cases h)
        fun d' k' _ hw' _ _ hi _ _ => ⟨hw', hi⟩) ?_ fun _ _ => trivial
      rintro ⟨d₁, ok⟩ k₁ h₁
      cases ok with
      | false =>
        simp only [Bool.false_eq_true, if_false, wp_bind]
        refine wp_post (hany _ _) (fun r₂ k₂ _ => ?_)
        exact wp_post (hany _ _) (fun _ _ _ hr => absurd rfl hr)
      | true =>
        obtain ⟨hw₁, hi₁⟩ := h₁ rfl
        simp only [if_true]
        refine wp_mono (wp_and (ih hw₁ (by omega)) (wp_allocLoop hw₁ hsz (by omega))) ?_
          fun _ _ => trivial
        rintro r k₂ ⟨hin, -, h0 | ⟨-, ha⟩⟩ hr u hlo hhi
        · exact absurd h0 hr
        · by_cases huv : u = v
          · rw [ha.outside u (by omega), huv]
            exact ⟨mem, hi₁⟩
          · exact hin hr u (by omega) (by omega)

end Laboratorio.Xv6.Vm
