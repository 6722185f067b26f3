import Laboratorio.Xv6.VmPages

/-!
# Page tables when there is enough memory

A page table has at most `NPDENTRIES` page-table pages, so with more free pages than that, on top of
the pages to be mapped, `mappages`, `setupkvm` and `allocuvm` succeed. The number of free pages and
page-table pages together goes down by the number of pages that are mapped.
-/

namespace Laboratorio.Xv6.Vm

open Finset Function Laboratorio.Wp

variable {d : Pgdir} {k : Kmem} {v : Nat} {x : Layout}

/-- The number of page-table pages. -/
def Pgdir.tables (d : Pgdir) : Nat := ∑ i ∈ range npdentries, if (d.pde i).isSome then 1 else 0

/-- The number of pages that can still become page-table pages or be mapped. -/
def room (k : Kmem) (d : Pgdir) : Nat := k.freelist.length + d.tables

theorem tables_le (d : Pgdir) : d.tables ≤ npdentries := by
  have h : d.tables ≤ ∑ _i ∈ range npdentries, 1 := sum_le_sum fun i _ => by split <;> omega
  simpa using h

theorem tables_update {i : Nat} (hi : i < npdentries) (o : Option Pt) :
    Pgdir.tables { d with pde := update d.pde i o } + (if (d.pde i).isSome then 1 else 0) =
      d.tables + if o.isSome then 1 else 0 :=
  Count.sum_update (mem_range.mpr hi) (fun _ o => if o.isSome then 1 else 0) d.pde o

theorem tables_setPte {e : Option Pte} (hv : v < 2 ^ 20) (hd : (d.pde (v / nptentries)).isSome) :
    (d.setPte v e).tables = d.tables := by
  obtain ⟨t, ht⟩ := Option.isSome_iff_exists.mp hd
  have h := tables_update (d := d) (div_lt_npdentries hv)
    (some { t with pte := update t.pte (v % nptentries) e })
  rw [setPte_eq ht]
  simpa [ht] using h

theorem exists_free (h : npdentries < room k d) : ∃ p l, k.freelist = p :: l := by
  have := tables_le d
  unfold room at h
  exact List.exists_cons_of_ne_nil fun hnil => by simp [hnil] at h; omega

theorem wp_kalloc_cons {p : Page} {l : List Page} {Q : Option Page → Kmem → Prop}
    {E : Fault → Prop} (hl : k.freelist = p :: l) (hQ : Q (some p) { k with freelist := l }) :
    wp kalloc Q E k := by
  simp only [kalloc, wp_bind, wp_get, hl]
  exact hQ

/-- `walkpgdir` succeeds. -/
theorem wp_walkpgdir_enough (hw : k.wild = false) (hv : v < 2 ^ 20) (h : npdentries < room k d)
    {Q : Option Pgdir → Kmem → Prop}
    (hQ : ∀ d' k', room k' d' = room k d → k'.wild = false → (d'.pde (v / nptentries)).isSome →
      (∀ u, d'.pte u = d.pte u) → Q (some d') k') :
    wp (walkpgdir d v) Q (fun _ => False) k := by
  have hroom : wp (walkpgdir d v) (fun r k' => ∃ d', r = some d' ∧ room k' d' = room k d)
      (fun _ => False) k := by
    unfold walkpgdir
    split
    · exact ⟨d, rfl, rfl⟩
    · next ht =>
      obtain ⟨p, l, hl⟩ := exists_free h
      rw [wp_bind]
      refine wp_kalloc_cons hl ⟨_, rfl, ?_⟩
      have := tables_update (d := d) (div_lt_npdentries hv) (some ⟨p, fun _ => none⟩)
      simp only [ht, Option.isSome_none, Option.isSome_some, Bool.false_eq_true, if_false,
        if_true, add_zero] at this
      rw [room, room, this, hl, List.length_cons]
      show l.length + _ = _
      omega
  have hfacts := wp_walkpgdir (E := Fault.Panic) (d := d) hw hv
    (Q := fun r k' => ∀ d', r = some d' → k'.wild = false ∧ (d'.pde (v / nptentries)).isSome ∧
      ∀ u, d'.pte u = d.pte u) (fun _ => nofun)
    fun d' k' _ hw' _ ht' he' _ _ d'' hd'' => by
      cases hd''
      exact ⟨hw', ht', he'⟩
  refine wp_mono (wp_and hroom hfacts) ?_ fun _ he => he.1
  rintro _ k' ⟨⟨d', rfl, hr⟩, hf⟩
  obtain ⟨hw', ht', he'⟩ := hf d' rfl
  exact hQ d' k' hr hw' ht' he'

/-- `mappages` succeeds for pages that are not mapped. -/
theorem wp_mapLoop_enough {perm : Perm} {n : Nat} {p : Page} (hw : k.wild = false)
    (hv : v + n ≤ 2 ^ 20) (hfree : ∀ u, v ≤ u → u < v + n → d.pte u = none)
    (h : npdentries < room k d) :
    wp (mapLoop perm d v n p) (fun r k' => r.2 = true ∧ room k' r.1 = room k d)
      (fun _ => False) k := by
  induction n generalizing k d v p with
  | zero => exact ⟨rfl, rfl⟩
  | succ n ih =>
    have hv20 : v < 2 ^ 20 := by omega
    unfold mapLoop
    rw [wp_bind]
    refine wp_walkpgdir_enough hw hv20 h fun d₁ k₁ hr₁ hw₁ ht₁ he₁ => ?_
    simp only [wp_bind, wp_ite, wp_throw]
    refine ⟨fun hsome => ?_, fun _ => ?_⟩
    · rw [he₁, hfree v le_rfl (by omega)] at hsome
      cases hsome
    · have hr : room k₁ (d₁.setPte v (some ⟨p, perm⟩)) = room k d := by
        rw [← hr₁, room, room, tables_setPte hv20 ht₁]
      refine wp_post (ih hw₁ (by omega) (fun u hlo hhi => ?_) (hr.symm ▸ h)) ?_
      · rw [pte_setPte ht₁, if_neg (by omega), he₁]
        exact hfree u (by omega) (by omega)
      · rintro r k₂ ⟨hok, hr₂⟩
        exact ⟨hok, hr₂.trans hr⟩

/-- `setupkvm` maps lines that do not overlap. -/
theorem wp_mapKernel_enough {ms : List (Nat × Nat × Nat × Perm)} (hw : k.wild = false)
    (hms : ∀ m ∈ ms, KernelLine m)
    (hdis : ms.Pairwise fun m m' => ∀ u, Covers m u → ¬ Covers m' u)
    (hfree : ∀ m ∈ ms, ∀ u, Covers m u → d.pte u = none) (h : npdentries < room k d) :
    wp (mapKernel x d ms) (fun r k' => ∃ d', r = some d' ∧ room k' d' = room k d)
      (fun _ => False) k := by
  induction ms generalizing k d with
  | nil => exact ⟨d, rfl, rfl⟩
  | cons m ms ih =>
    obtain ⟨va, size, pa, perm⟩ := m
    obtain ⟨hhead, htail⟩ := List.pairwise_cons.mp hdis
    have hm := hms _ List.mem_cons_self
    have hrange : va / pgsize + ((va + size - 1) / pgsize + 1 - va / pgsize) =
        (va + size - 1) / pgsize + 1 := by
      have := hm.order
      simp only at this
      omega
    have hv := hrange.trans_le hm.high
    unfold mapKernel
    rw [wp_bind]
    have hone : wp (mapLoop perm d (va / pgsize) ((va + size - 1) / pgsize + 1 - va / pgsize)
        (pa / pgsize)) (fun r k' => r.2 = true ∧ room k' r.1 = room k d) (fun _ => False) k :=
      wp_mapLoop_enough hw hv
        (fun u hlo hhi => hfree _ List.mem_cons_self u ⟨hlo, hrange ▸ hhi⟩) h
    refine wp_mono (wp_and hone (wp_mapLoop hw hv)) ?_ fun _ he => he.1
    rintro ⟨d₁, ok⟩ k₁ ⟨⟨rfl, hr₁⟩, hmaps⟩
    simp only [if_true]
    refine wp_post (ih hmaps.wild (fun m hm => hms m (List.mem_cons_of_mem _ hm)) htail
      (fun m hm u hc => ?_) (hr₁.symm ▸ h)) ?_
    · rw [hmaps.outside u fun hin => hhead m hm u ⟨hin.1, hrange ▸ hin.2⟩ hc]
      exact hfree m (List.mem_cons_of_mem _ hm) u hc
    · rintro _ k₂ ⟨d', rfl, hr₂⟩
      exact ⟨d', rfl, hr₂.trans hr₁⟩

theorem pairwise_kmap (x : Layout) :
    (kmap x).Pairwise fun m m' => ∀ u, Covers m u → ¬ Covers m' u := by
  have hd := x.text
  have hs := x.small
  have hb := x.bss
  have ha := x.aligned
  simp only [extmem, phystop, pgsize] at hd hs ha
  simp only [kmap, List.pairwise_cons, List.mem_cons, List.not_mem_nil, or_false, forall_eq_or_imp,
    forall_eq, Covers, kernbase, pgsize, extmem, phystop, devspace, false_imp_iff, implies_true,
    List.Pairwise.nil, and_true]
  refine ⟨⟨?_, ?_, ?_⟩, ⟨?_, ?_⟩, ?_⟩ <;> intro u h₁ h₂ <;> omega

/-- **`setupkvm` succeeds** with more than `NPDENTRIES` pages. -/
theorem wp_setupkvm_enough (hw : k.wild = false) (h : npdentries + 1 < k.freelist.length)
    {Q : Option Pgdir → Kmem → Prop}
    (hQ : ∀ d k', room k' d + 1 = k.freelist.length →
      (k'.freelist : Multiset Page) + d.pages = k.freelist → k'.wild = false →
      k'.freelist <:+ k.freelist → KernelOnly d → Q (some d) k') :
    wp (setupkvm x) Q (fun _ => False) k := by
  have hroom : wp (setupkvm x) (fun r k' => ∃ d, r = some d ∧ room k' d + 1 = k.freelist.length)
      (fun _ => False) k := by
    obtain ⟨p, l, hl⟩ := List.exists_cons_of_ne_nil (l := k.freelist) fun hnil => by
      simp [hnil] at h
    have htables : Pgdir.tables ⟨p, fun _ => none⟩ = 0 := by simp [Pgdir.tables]
    have hroom : room { k with freelist := l } ⟨p, fun _ => none⟩ + 1 = k.freelist.length := by
      rw [room, htables, hl]
      rfl
    have hwl : ({ k with freelist := l } : Kmem).wild = false := hw
    unfold setupkvm
    rw [wp_bind]
    refine wp_kalloc_cons hl ?_
    refine wp_post (wp_mapKernel_enough (d := ⟨p, fun _ => none⟩) hwl (kernelLine_kmap x)
      (pairwise_kmap x) (fun _ _ _ _ => rfl) (by omega)) ?_
    rintro _ k' ⟨d, rfl, hr⟩
    refine ⟨d, rfl, ?_⟩
    rw [hr]
    exact hroom
  have hfacts := wp_setupkvm (x := x) hw
    (Q := fun r k' => ∀ d, r = some d → (k'.freelist : Multiset Page) + d.pages = k.freelist ∧
      k'.wild = false ∧ k'.freelist <:+ k.freelist ∧ KernelOnly d) (fun _ _ _ => nofun)
    fun d k' hp hw' hs hd d' hd' => by
      cases hd'
      exact ⟨hp, hw', hs, hd⟩
  refine wp_mono (wp_and hroom hfacts) ?_ fun _ he => he.1
  rintro _ k' ⟨⟨d, rfl, hr⟩, hf⟩
  obtain ⟨hp, hw', hs, hd⟩ := hf d rfl
  exact hQ d k' hr hp hw' hs hd

/-- `mappages` succeeds for a user page that is not mapped. -/
theorem wp_mappages_enough {perm : Perm} {p : Page} (hw : k.wild = false) (hv : v < userTop)
    (hfree : d.pte v = none) (h : npdentries < room k d) {Q : Pgdir × Bool → Kmem → Prop}
    (hQ : ∀ d' k', room k' d' = room k d → k'.wild = false → k'.freelist <:+ k.freelist →
      (∀ u, u ≠ v → d'.pte u = d.pte u) → d'.pte v = some ⟨p, perm⟩ → Q (d', true) k') :
    wp (mappages d (v * pgsize) pgsize (p * pgsize) perm) Q (fun _ => False) k := by
  have htop : userTop ≤ 2 ^ 20 := by decide
  have hone : (v * pgsize + pgsize - 1) / pgsize + 1 - v * pgsize / pgsize = 1 := by
    simp only [pgsize]
    omega
  have hroom : wp (mappages d (v * pgsize) pgsize (p * pgsize) perm)
      (fun r k' => r.2 = true ∧ room k' r.1 = room k d) (fun _ => False) k := by
    rw [mappages, hone, Nat.mul_div_cancel _ (by decide)]
    refine wp_mapLoop_enough hw (by omega) (fun u hlo hhi => ?_) h
    rw [show u = v by omega]
    exact hfree
  have hfacts : wp (mappages d (v * pgsize) pgsize (p * pgsize) perm)
      (fun r k' => r.2 = true → k'.wild = false ∧ k'.freelist <:+ k.freelist ∧
        (∀ u, u ≠ v → r.1.pte u = d.pte u) ∧ r.1.pte v = some ⟨p, perm⟩) Fault.Panic k :=
    wp_mappages_user hw hv (fun _ _ _ _ _ _ h => by cases h)
      fun _ _ _ hw' hs ho hi _ _ => ⟨hw', hs, ho, hi⟩
  refine wp_mono (wp_and hroom hfacts) ?_ fun _ he => he.1
  rintro ⟨d', _⟩ k' ⟨⟨rfl, hr⟩, hf⟩
  obtain ⟨hw', hs, ho, hi⟩ := hf rfl
  exact hQ d' k' hr hw' hs ho hi

/-- `allocuvm` succeeds for pages that are not mapped. -/
theorem wp_allocLoop_enough {oldsz newsz n : Nat} (hw : k.wild = false) (hv : v + n ≤ userTop)
    (hfree : ∀ u, v ≤ u → u < v + n → d.pte u = none) (h : npdentries + n < room k d) :
    wp (allocLoop x oldsz newsz d v n) (fun r k' => r.2 = newsz ∧ room k' r.1 + n = room k d)
      (fun _ => False) k := by
  induction n generalizing k d v with
  | zero => exact ⟨rfl, rfl⟩
  | succ n ih =>
    obtain ⟨mem, l, hl⟩ := exists_free (k := k) (d := d) (by omega)
    have hvt : v < userTop := by omega
    have hwl : ({ k with freelist := l } : Kmem).wild = false := hw
    have hroom : room { k with freelist := l } d + 1 = room k d := by
      rw [room, room, hl, List.length_cons]
      show l.length + _ + 1 = _
      omega
    unfold allocLoop
    rw [wp_bind]
    refine wp_kalloc_cons hl ?_
    rw [wp_bind]
    refine wp_mappages_enough hwl hvt (hfree v le_rfl (by omega)) (by omega)
      fun d₁ k₁ hr₁ hw₁ _ ho₁ _ => ?_
    simp only [if_true]
    refine wp_post (ih hw₁ (by omega) (fun u hlo hhi => ?_) (by omega)) ?_
    · rw [ho₁ u (by omega)]
      exact hfree u (by omega) (by omega)
    · rintro r k₂ ⟨hok, hr₂⟩
      exact ⟨hok, by omega⟩

/-- **`allocuvm` succeeds** with more than `NPDENTRIES` pages besides the ones it maps. -/
theorem wp_allocuvm_enough {oldsz newsz n : Nat} (hw : k.wild = false) (hpos : 0 < newsz)
    (hsz : newsz < kernbase) (hle : oldsz ≤ newsz) (hn : pgroundup newsz = pgroundup oldsz + n)
    (hfree : ∀ u, pgroundup oldsz ≤ u → u < userTop → d.pte u = none)
    (h : npdentries + n < room k d) {Q : Pgdir × Nat → Kmem → Prop}
    (hQ : ∀ d' k', room k' d' + n = room k d →
      (k'.freelist : Multiset Page) + d'.pages = k.freelist + d.pages →
      Allocs k d (pgroundup oldsz) n d' k' → Q (d', newsz) k') :
    wp (allocuvm x d oldsz newsz) Q (fun _ => False) k := by
  have hroom : wp (allocuvm x d oldsz newsz) (fun r k' => r.2 = newsz ∧ room k' r.1 + n = room k d)
      (fun _ => False) k := by
    have htop := pgroundup_le_userTop hsz.le
    unfold allocuvm
    rw [if_neg (by omega), if_neg (by omega), hn, Nat.add_sub_cancel_left]
    exact wp_allocLoop_enough hw (by omega) (fun u hlo hhi => hfree u hlo (by omega)) h
  refine wp_mono (wp_and hroom (wp_allocuvm hw)) ?_ fun _ he => he.1
  rintro ⟨d', _⟩ k' ⟨⟨rfl, hr⟩, ⟨hp, -⟩, h0 | ⟨-, hlt, -⟩ | ⟨-, -, -, ha⟩⟩
  · exact absurd h0 hpos.ne'
  · exact absurd hlt (by omega)
  · rw [hn, Nat.add_sub_cancel_left] at ha
    exact hQ d' k' hr hp ha

end Laboratorio.Xv6.Vm
