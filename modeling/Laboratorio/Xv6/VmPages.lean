import Laboratorio.Xv6.Vm

/-!
# The pages of a page table

`Pgdir.pages d` are the pages that a page table owns: the directory, the page-table pages, and the
pages mapped below `KERNBASE`, as a multiset. The rules of `vm.c` are equations between multisets:
what a function takes from the free list is in the page table after it, and what it takes out of the
page table is on the free list.

They hold as long as the links of the free list are intact, and then the functions stop with a panic
of their own if they stop.
-/

namespace Laboratorio.Xv6.Vm

open Finset Function Laboratorio.Wp

/-- The panics of the source, and calls that wait or that nobody can make. -/
def Fault.Panic : Fault → Prop
  | .badFreelist | .wildWrite | .pageFault | .danglingPipe | .noMemory => False
  | _ => True

/-- A page that `kfree` accepts. -/
def Layout.Holds (x : Layout) (p : Page) : Prop := x.kend ≤ p * pgsize ∧ p * pgsize < phystop

/-- `kfree` panics for one of the pages. -/
def BadPage (x : Layout) (m : Multiset Page) (e : Fault) : Prop := e = .kfree ∧ ∃ p ∈ m, ¬ x.Holds p

theorem BadPage.panic {x : Layout} {m : Multiset Page} {e : Fault} (h : BadPage x m e) : e.Panic := by
  rw [h.1]
  trivial

/-! ## Multisets of pages -/

/-- The first virtual page of the kernel. -/
def userTop : Nat := kernbase / pgsize

/-- The page of an entry. -/
def own : Option Pte → Multiset Page
  | none => 0
  | some e => {e.page}

/-- The page of the entry of virtual page `v`, if that is one of the user's. -/
def ownAt (v : Nat) (e : Option Pte) : Multiset Page := if v < userTop then own e else 0

/-- The pages that a page-table page maps. -/
def Pt.user (t : Pt) : Multiset Page := ∑ j ∈ range nptentries, own (t.pte j)

/-- The pages of the `i`-th entry of a directory. -/
def slot (i : Nat) : Option Pt → Multiset Page
  | none => 0
  | some t => {t.page} + if i < userTop / nptentries then t.user else 0

def Pgdir.pages (d : Pgdir) : Multiset Page := {d.page} + ∑ i ∈ range npdentries, slot i (d.pde i)

variable {d d' : Pgdir} {k k' : Kmem} {v n : Nat} {x : Layout} {e : Option Pte} {p : Page}
  {m : Multiset Page}

/-- A virtual page has an entry in a directory. -/
theorem div_lt_npdentries (hv : v < 2 ^ 20) : v / nptentries < npdentries := by
  simp only [nptentries, npdentries]
  omega

theorem mod_lt_nptentries (v : Nat) : v % nptentries < nptentries := Nat.mod_lt _ (by decide)

theorem div_lt_userTop : v / nptentries < userTop / nptentries ↔ v < userTop := by
  simp only [nptentries, userTop, kernbase, pgsize]
  omega

theorem pages_update {i : Nat} (hi : i < npdentries) (o : Option Pt) :
    Pgdir.pages { d with pde := update d.pde i o } + slot i (d.pde i) = d.pages + slot i o := by
  have h := Count.sum_update (mem_range.mpr hi) slot d.pde o
  rw [Pgdir.pages, Pgdir.pages, add_assoc, add_assoc, h]

theorem pte_eq {t : Pt} (ht : d.pde (v / nptentries) = some t) :
    d.pte v = t.pte (v % nptentries) := by
  rw [Pgdir.pte, ht, Option.bind_some]

theorem setPte_eq {t : Pt} (ht : d.pde (v / nptentries) = some t) :
    d.setPte v e = ⟨d.page, update d.pde (v / nptentries)
      (some { t with pte := update t.pte (v % nptentries) e })⟩ := by
  rw [Pgdir.setPte, ht]
  rfl

/-- **Storing an entry** exchanges its page. -/
theorem pages_setPte (hv : v < 2 ^ 20) (hd : (d.pde (v / nptentries)).isSome) :
    (d.setPte v e).pages + ownAt v (d.pte v) = d.pages + ownAt v e := by
  obtain ⟨t, ht⟩ := Option.isSome_iff_exists.mp hd
  have h := pages_update (d := d) (div_lt_npdentries hv)
    (some { t with pte := update t.pte (v % nptentries) e })
  have hu := Count.sum_update (mem_range.mpr (mod_lt_nptentries v)) (fun _ => own) t.pte e
  rw [setPte_eq ht, pte_eq ht]
  rw [ht] at h
  unfold ownAt
  by_cases hvu : v < userTop
  · simp only [slot, if_pos (div_lt_userTop.mpr hvu)] at h
    rw [if_pos hvu, if_pos hvu]
    unfold Pt.user at h
    -- cancel the page-table page and the other entries
    have hsum : ∀ a b u u' o o' : Multiset Page, a + ({t.page} + u) = b + ({t.page} + u') →
        u' + o = u + o' → a + o = b + o' := by
      intro a b u u' o o' h₁ h₂
      apply add_right_cancel (b := {t.page} + u)
      calc a + o + ({t.page} + u) = a + ({t.page} + u) + o := by abel
        _ = b + {t.page} + (u' + o) := by rw [h₁]; abel
        _ = b + o' + ({t.page} + u) := by rw [h₂]; abel
    exact hsum _ _ _ _ _ _ h hu
  · simp only [slot, if_neg (mt div_lt_userTop.mp hvu), add_zero] at h
    rw [if_neg hvu, if_neg hvu, add_zero, add_zero]
    exact add_right_cancel h

theorem pde_setPte_of_ne {i : Nat} (hi : i ≠ v / nptentries) : (d.setPte v e).pde i = d.pde i :=
  update_of_ne hi ..

/-- The entries after storing one. -/
theorem pte_setPte (hd : (d.pde (v / nptentries)).isSome) (u : Nat) :
    (d.setPte v e).pte u = if u = v then e else d.pte u := by
  obtain ⟨t, ht⟩ := Option.isSome_iff_exists.mp hd
  by_cases hpd : u / nptentries = v / nptentries
  · have ht' : (d.setPte v e).pde (u / nptentries) =
        some { t with pte := update t.pte (v % nptentries) e } := by
      rw [setPte_eq ht, hpd]
      exact update_self ..
    rw [pte_eq ht', pte_eq (hpd ▸ ht)]
    by_cases hpt : u % nptentries = v % nptentries
    · have huv : u = v := by
        rw [← Nat.div_add_mod u nptentries, ← Nat.div_add_mod v nptentries, hpd, hpt]
      rw [if_pos huv, hpt]
      exact update_self ..
    · rw [if_neg (fun huv : u = v => hpt (huv ▸ rfl))]
      exact update_of_ne hpt ..
  · rw [if_neg (fun huv : u = v => hpd (huv ▸ rfl)), Pgdir.pte, pde_setPte_of_ne hpd]
    rfl

/-! ## The allocator -/

theorem wp_kalloc {Q : Option Page → Kmem → Prop} {E : Fault → Prop} (hw : k.wild = false)
    (hnone : k.freelist = [] → Q none k)
    (hsome : ∀ p l, k.freelist = p :: l → Q (some p) { k with freelist := l }) :
    wp kalloc Q E k := by
  simp only [kalloc, wp_bind, wp_get]
  cases hl : k.freelist with
  | nil =>
    rw [hw]
    exact hnone hl
  | cons p l => exact hsome p l hl

theorem wp_kfree_iff {Q : Unit → Kmem → Prop} {E : Fault → Prop}
    (hgood : x.Holds p → Q () { k with freelist := p :: k.freelist })
    (hbad : ¬ x.Holds p → E .kfree) : wp (kfree x p) Q E k := by
  simp only [kfree, wp_bind, wp_ite, wp_throw, wp_modify]
  refine ⟨fun h => hbad fun hp => ?_, fun h => hgood ?_⟩
  · rcases h with hlow | hhigh
    · exact absurd hp.1 (not_le.mpr hlow)
    · exact absurd hp.2 (not_lt.mpr hhigh)
  · rwa [not_or, not_lt, not_le] at h

theorem wp_kfree_page {Q : Unit → Kmem → Prop} (hp : p ∈ m)
    (hQ : Q () { k with freelist := p :: k.freelist }) : wp (kfree x p) Q (BadPage x m) k :=
  wp_kfree_iff (fun _ => hQ) fun hbad => ⟨rfl, p, hp, hbad⟩

theorem wp_kfree {Q : Unit → Kmem → Prop}
    (hQ : Q () { k with freelist := p :: k.freelist }) : wp (kfree x p) Q Fault.Panic k :=
  wp_mono (wp_kfree_page (Multiset.mem_singleton_self p) hQ) (fun _ _ h => h) fun _ he => he.panic

/-! ## `mappages` -/

/-- `walkpgdir` adds a page-table page from the free list if there is none, and no entry. -/
theorem wp_walkpgdir (hw : k.wild = false) (hv : v < 2 ^ 20) {Q : Option Pgdir → Kmem → Prop}
    {E : Fault → Prop}
    (hnone : k.freelist = [] → Q none k)
    (hsome : ∀ d' k', (k'.freelist : Multiset Page) + d'.pages = k.freelist + d.pages →
      k'.wild = false → k'.freelist <:+ k.freelist → (d'.pde (v / nptentries)).isSome →
      (∀ u, d'.pte u = d.pte u) → (∀ i, i ≠ v / nptentries → d'.pde i = d.pde i) →
      d'.page = d.page → Q (some d') k') :
    wp (walkpgdir d v) Q E k := by
  unfold walkpgdir
  split
  · next t ht =>
    rw [wp_pure]
    exact hsome d k rfl hw (List.suffix_refl _) (by simp [ht]) (fun _ => rfl) (fun _ _ => rfl) rfl
  · next ht =>
    rw [wp_bind]
    refine wp_kalloc hw hnone fun p l hl => ?_
    refine hsome _ _ ?_ hw (hl ▸ List.suffix_cons p l) (by simp) (fun u => ?_)
      (fun i hi => update_of_ne hi ..) rfl
    · have h := pages_update (d := d) (div_lt_npdentries hv) (some ⟨p, fun _ => none⟩)
      have huser : Pt.user ⟨p, fun _ => none⟩ = 0 := by simp [Pt.user, own]
      simp only [ht, slot, huser, ite_self, add_zero] at h
      rw [h, hl, ← Multiset.cons_coe, ← Multiset.singleton_add]
      abel
    · unfold Pgdir.pte
      by_cases hu : u / nptentries = v / nptentries
      · rw [hu, ht]
        simp
      · simp [update_of_ne hu]

/-- The user pages among `n` pages from `p` on that are mapped from `v` on. -/
def mapped : (v n : Nat) → (p : Page) → Multiset Page
  | _, 0, _ => 0
  | v, n + 1, p => (if v < userTop then {p} else 0) + mapped (v + 1) n (p + 1)

theorem mapped_kernel (hv : userTop ≤ v) (n : Nat) (p : Page) : mapped v n p = 0 := by
  induction n generalizing v p with
  | zero => rfl
  | succ n ih => rw [mapped, if_neg (by omega), ih (by omega), add_zero]

/-- What `mappages` does to a page table. -/
structure Maps (perm : Perm) (k : Kmem) (d : Pgdir) (v n : Nat) (p : Page) (r : Pgdir × Bool)
    (k' : Kmem) : Prop where
  wild : k'.wild = false
  suffix : k'.freelist <:+ k.freelist
  page : r.1.page = d.page
  pages : ∃ j ≤ n, (r.2 = true → j = n) ∧ (r.2 = false → j < n ∧ k'.freelist = []) ∧
    (k'.freelist : Multiset Page) + r.1.pages = k.freelist + d.pages + mapped v j p
  outside : ∀ u, ¬ (v ≤ u ∧ u < v + n) → r.1.pte u = d.pte u
  inside : r.2 = true → ∀ u, v ≤ u → u < v + n → r.1.pte u = some ⟨p + (u - v), perm⟩
  tables : ∀ i, (∀ u, v ≤ u → u < v + n → u / nptentries ≠ i) → r.1.pde i = d.pde i

theorem wp_mapLoop {perm : Perm} (hw : k.wild = false) (hv : v + n ≤ 2 ^ 20) :
    wp (mapLoop perm d v n p) (Maps perm k d v n p) Fault.Panic k := by
  induction n generalizing k d v p with
  | zero =>
    exact ⟨hw, List.suffix_refl _, rfl, ⟨0, le_rfl, fun _ => rfl, nofun, by simp [mapped]⟩,
      fun _ _ => rfl, fun _ u hu hlt => absurd hlt (by omega), fun _ _ => rfl⟩
  | succ n ih =>
    unfold mapLoop
    rw [wp_bind]
    refine wp_walkpgdir hw (by omega) (fun hnil => ?_) fun d₁ k₁ hp₁ hw₁ hs₁ ht₁ he₁ hd₁ hpg₁ => ?_
    · exact ⟨hw, List.suffix_refl _, rfl, ⟨0, by omega, nofun, fun _ => ⟨by omega, hnil⟩,
        by simp [mapped]⟩, fun _ _ => rfl, nofun, fun _ _ => rfl⟩
    · simp only [wp_bind, wp_ite, wp_throw]
      refine ⟨fun _ => trivial, fun hfree => ?_⟩
      rw [Option.not_isSome_iff_eq_none] at hfree
      refine wp_post (ih hw₁ (by omega)) (fun r k₂ h => ?_)
      have hset := pages_setPte (e := some ⟨p, perm⟩) (by omega : v < 2 ^ 20) ht₁
      rw [hfree] at hset
      obtain ⟨j, hj, htrue, hfalse, hpages⟩ := h.pages
      refine ⟨h.wild, h.suffix.trans hs₁, h.page.trans hpg₁, ⟨j + 1, by omega,
        fun hr => by rw [htrue hr], fun hr => ⟨by have := (hfalse hr).1; omega, (hfalse hr).2⟩, ?_⟩,
        fun u hu => ?_, fun hr u hvu hu => ?_, fun i hi => ?_⟩
      · have hown : ownAt v none = 0 := by simp [ownAt, own]
        have hnew : ownAt v (some ⟨p, perm⟩) = if v < userTop then {p} else 0 := rfl
        rw [hown, add_zero, hnew] at hset
        rw [hpages, hset, mapped, ← add_assoc, hp₁]
        abel
      · rw [h.outside u (by omega), pte_setPte ht₁, if_neg (by omega), he₁]
      · by_cases huv : u = v
        · rw [h.outside u (by omega), pte_setPte ht₁, if_pos huv, huv, Nat.sub_self, add_zero]
        · have hsub : 1 + (u - (v + 1)) = u - v := by omega
          rw [h.inside hr u (by omega) (by omega), add_assoc, hsub]
      · have hne : i ≠ v / nptentries := fun hi' => hi v le_rfl (by omega) hi'.symm
        rw [h.tables i fun u hu hlt => hi u (by omega) (by omega)]
        rw [pde_setPte_of_ne hne, hd₁ i hne]

/-- `mappages` maps one page of the user. -/
theorem wp_mappages_user {perm : Perm} (hw : k.wild = false) (hv : v < userTop)
    {Q : Pgdir × Bool → Kmem → Prop}
    (hfail : ∀ d' k', (k'.freelist : Multiset Page) + d'.pages = k.freelist + d.pages →
      k'.wild = false → k'.freelist = [] → (∀ u, d'.pte u = d.pte u ∨ u = v) → Q (d', false) k')
    (hok : ∀ d' k', (k'.freelist : Multiset Page) + d'.pages = k.freelist + d.pages + {p} →
      k'.wild = false → k'.freelist <:+ k.freelist → (∀ u, u ≠ v → d'.pte u = d.pte u) →
      d'.pte v = some ⟨p, perm⟩ → (∀ i, i ≠ v / nptentries → d'.pde i = d.pde i) →
      Q (d', true) k') :
    wp (mappages d (v * pgsize) pgsize (p * pgsize) perm) Q Fault.Panic k := by
  have hpos : 0 < pgsize := by decide
  have hlt : userTop ≤ 2 ^ 20 := by decide
  have hn : (v * pgsize + pgsize - 1) / pgsize + 1 - v * pgsize / pgsize = 1 := by
    simp only [pgsize]
    omega
  rw [mappages, hn, Nat.mul_div_cancel _ hpos, Nat.mul_div_cancel _ hpos]
  refine wp_post (wp_mapLoop hw (by omega)) ?_
  rintro ⟨d', ok⟩ k' h
  obtain ⟨j, hj, htrue, hfalse, hpages⟩ := h.pages
  cases ok with
  | true =>
    rw [htrue rfl, mapped, mapped, if_pos hv, add_zero] at hpages
    refine hok d' k' hpages h.wild h.suffix (fun u hu => h.outside u (by omega)) ?_
      fun i hi => h.tables i fun u hu hlt => ?_
    · rw [h.inside rfl v le_rfl (by omega), Nat.sub_self, add_zero]
    · rw [show u = v by omega]
      exact hi.symm
  | false =>
    obtain ⟨hj1, hnil⟩ := hfalse rfl
    rw [show j = 0 by omega, mapped, add_zero] at hpages
    refine hfail d' k' hpages h.wild hnil fun u => ?_
    by_cases hu : u = v
    · exact .inr hu
    · exact .inl (h.outside u (by omega))

/-! ## `deallocuvm` and `freevm` -/

theorem pgroundup_le_userTop {sz : Nat} (h : sz ≤ kernbase) : pgroundup sz ≤ userTop := by
  simp only [pgroundup, userTop, kernbase, pgsize] at h ⊢
  omega

theorem mul_pgsize_lt {u sz : Nat} : u * pgsize < sz ↔ u < pgroundup sz := by
  simp only [pgroundup, pgsize]
  omega

/-- The plain loop over `n` pages from `v` on. -/
def plainLoop (x : Layout) : Pgdir → (v n : Nat) → K Pgdir
  | d, _, 0 => return d
  | d, v, n + 1 =>
    match d.pte v with
    | none => plainLoop x d (v + 1) n
    | some e => do
      if e.page = 0 then
        throw .kfree
      kfree x e.page
      plainLoop x (d.setPte v none) (v + 1) n

/-- Where nothing is mapped, the plain loop does nothing. -/
theorem plainLoop_none {l : Nat} (h : ∀ u, v ≤ u → u < v + l → d.pte u = none) :
    plainLoop x d v (l + n) = plainLoop x d (v + l) n := by
  induction l generalizing v with
  | zero => rw [Nat.zero_add, Nat.add_zero]
  | succ l ih =>
    rw [Nat.add_right_comm, plainLoop, h v le_rfl (by omega)]
    dsimp only
    rw [ih fun u hu hlt => h u (by omega) (by omega), Nat.add_right_comm, Nat.add_assoc]

/-- **The loop that skips** missing page-table pages is the plain loop. -/
theorem deallocLoop_eq_plain (oldsz : Nat) (d : Pgdir) (v : Nat) :
    deallocLoop x oldsz d v = plainLoop x d v (pgroundup oldsz - v) := by
  induction hleft : pgroundup oldsz - v using Nat.strong_induction_on generalizing d v with
  | _ left ih =>
    rw [deallocLoop]
    by_cases hlt : v * pgsize < oldsz
    · have hpages := mul_pgsize_lt.mp hlt
      obtain ⟨n, rfl⟩ : ∃ n, left = n + 1 := ⟨left - 1, by omega⟩
      have hstep : ∀ d, deallocLoop x oldsz d (v + 1) = plainLoop x d (v + 1) n := fun d =>
        ih n (by omega) d (v + 1) (by omega)
      rw [dif_pos hlt]
      cases hpd : d.pde (v / nptentries) with
      | none =>
        -- all entries up to the next page-table page are missing
        have hnone : ∀ u, v ≤ u → u < (v / nptentries + 1) * nptentries → d.pte u = none := by
          intro u hu hlt
          have hdiv : u / nptentries = v / nptentries := by
            simp only [nptentries] at hlt ⊢
            omega
          rw [Pgdir.pte, hdiv, hpd, Option.bind_none]
        have hskip : v < (v / nptentries + 1) * nptentries := by
          simp only [nptentries]
          omega
        dsimp only
        generalize (v / nptentries + 1) * nptentries = v' at hnone hskip ⊢
        rw [ih (pgroundup oldsz - v') (by omega) d v' rfl]
        rcases le_total v' (pgroundup oldsz) with hle | hge
        · rw [show n + 1 = v' - v + (pgroundup oldsz - v') by omega,
            plainLoop_none fun u hu hlt => hnone u hu (by omega), Nat.add_sub_cancel' hskip.le]
        · rw [Nat.sub_eq_zero_of_le hge, ← Nat.add_zero (n + 1),
            plainLoop_none fun u hu hlt => hnone u hu (by omega)]
          rfl
      | some t =>
        rw [plainLoop, pte_eq hpd]
        dsimp only
        cases hpt : t.pte (v % nptentries) with
        | none => exact hstep d
        | some e => simp only [hstep]
    · rw [dif_neg hlt, show left = 0 by have := mt mul_pgsize_lt.mpr hlt; omega]
      rfl

/-- The pages that are mapped in `n` pages from `v` on, in the order of their addresses. -/
def present (d : Pgdir) (v n : Nat) : List Page :=
  (List.range' v n).filterMap fun u => (d.pte u).map Pte.page

theorem present_succ (d : Pgdir) (v n : Nat) :
    present d v (n + 1) = ((d.pte v).map Pte.page).toList ++ present d (v + 1) n := by
  rw [present, List.range'_succ, List.filterMap_cons]
  cases d.pte v <;> rfl

theorem present_setPte (hd : (d.pde (v / nptentries)).isSome) (n : Nat) :
    present (d.setPte v e) (v + 1) n = present d (v + 1) n := by
  refine List.filterMap_congr fun u hu => ?_
  have hlt := (List.mem_range'_1.mp hu).1
  rw [pte_setPte hd, if_neg (by omega)]

theorem isSome_pde {e : Pte} (he : d.pte v = some e) : (d.pde (v / nptentries)).isSome := by
  obtain ⟨t, ht, -⟩ := Option.bind_eq_some_iff.mp he
  exact Option.isSome_of_mem ht

/-- Taking the entry of a page of the user out. -/
theorem pages_clear {e : Pte} (hv : v < userTop) (he : d.pte v = some e) :
    (d.setPte v none).pages + {e.page} = d.pages := by
  have hset := pages_setPte (e := none) (lt_of_lt_of_le hv (by decide)) (isSome_pde he)
  rwa [he, ownAt, ownAt, if_pos hv, if_pos hv, own, own, add_zero] at hset

/-- A page that is mapped in the user part is one of the page table's. -/
theorem mem_pages {u : Nat} {e : Pte} (hu : u < userTop) (he : d.pte u = some e) :
    e.page ∈ d.pages := by
  rw [← pages_clear hu he]
  exact Multiset.mem_add.mpr (.inr (Multiset.mem_singleton_self _))

/-- The page table `d'` is `d` without the entries of `n` pages from `v` on. -/
structure Cleared (d d' : Pgdir) (v n : Nat) : Prop where
  pte : ∀ u, d'.pte u = if v ≤ u ∧ u < v + n then none else d.pte u
  page : d'.page = d.page
  pde : ∀ i, (d'.pde i).map Pt.page = (d.pde i).map Pt.page
  pages : (∀ u, v ≤ u → u < v + n → u < userTop) → d'.pages + present d v n = d.pages

theorem Cleared.skip (hnone : d.pte v = none) (h : Cleared d d' (v + 1) n) :
    Cleared d d' v (n + 1) := by
  refine ⟨fun u => ?_, h.page, h.pde, fun hu => ?_⟩
  · rw [h.pte]
    grind
  · rw [present_succ, hnone]
    exact h.pages fun u hle hlt => hu u (by omega) (by omega)

theorem Cleared.step {e : Pte} (he : d.pte v = some e)
    (h : Cleared (d.setPte v none) d' (v + 1) n) : Cleared d d' v (n + 1) := by
  have hd := isSome_pde he
  refine ⟨fun u => ?_, h.page, fun i => (h.pde i).trans ?_, fun hu => ?_⟩
  · rw [h.pte, pte_setPte hd]
    grind
  · by_cases hi : i = v / nptentries
    · obtain ⟨t, ht⟩ := Option.isSome_iff_exists.mp hd
      simp only [setPte_eq ht, hi, ht, update_self, Option.map_some]
    · rw [pde_setPte_of_ne hi]
  · have hrest := h.pages fun u hle hlt => hu u (by omega) (by omega)
    rw [present_setPte hd] at hrest
    rw [present_succ, he, ← pages_clear (hu v le_rfl (by omega)) he, ← hrest]
    show d'.pages + ↑(e.page :: present d (v + 1) n) = _
    rw [← Multiset.cons_coe, ← Multiset.singleton_add]
    abel

theorem Layout.not_holds_zero (x : Layout) (hp : p = 0) : ¬ x.Holds p := by
  intro h
  have hkend := h.1
  have hdata := x.text.trans_le x.bss
  rw [hp] at hkend
  omega

/-- **The plain loop** frees the pages and clears their entries, unless there is a page that `kfree`
does not take. -/
theorem wp_plainLoop (x : Layout) (d : Pgdir) (v n : Nat) (k : Kmem) :
    wp (plainLoop x d v n) (fun d' k' => (∀ p ∈ present d v n, x.Holds p) ∧ Cleared d d' v n ∧
        k' = { k with freelist := (present d v n).reverse ++ k.freelist })
      (fun e => (∃ p ∈ present d v n, ¬ x.Holds p) ∧ e = .kfree) k := by
  induction n generalizing d v k with
  | zero =>
    refine ⟨nofun, ⟨fun u => ?_, rfl, fun _ => rfl, fun _ => add_zero _⟩, rfl⟩
    rw [if_neg (by omega)]
  | succ n ih =>
    rw [plainLoop, present_succ]
    cases he : d.pte v with
    | none => exact wp_post (ih d (v + 1) k) (fun d' k' h => ⟨h.1, h.2.1.skip he, h.2.2⟩)
    | some e =>
      simp only [Option.map_some, Option.toList_some, List.singleton_append, List.mem_cons,
        forall_eq_or_imp, exists_eq_or_imp, wp_bind, wp_ite, wp_throw]
      refine ⟨fun hz => ⟨.inl (x.not_holds_zero hz), trivial⟩, fun _ =>
        wp_kfree_iff (fun hp => ?_) fun hp => ⟨.inl hp, rfl⟩⟩
      have hrest := ih (d.setPte v none) (v + 1) { k with freelist := e.page :: k.freelist }
      rw [present_setPte (isSome_pde he)] at hrest
      refine wp_mono hrest (fun d' k' h => ⟨⟨hp, h.1⟩, h.2.1.step he, ?_⟩) fun _ h => ⟨.inr h.1, h.2⟩
      rw [h.2.2, List.reverse_cons, List.append_assoc, List.singleton_append]

/-- **What `deallocuvm` takes out** is on the free list. -/
theorem wp_deallocLoop {oldsz : Nat} (hsz : oldsz ≤ kernbase) (hd : ∀ q ∈ d.pages, q ∈ m) :
    wp (deallocLoop x oldsz d v) (fun d' k' => (k'.freelist : Multiset Page) + d'.pages =
      k.freelist + d.pages ∧ k'.wild = k.wild ∧ d'.page = d.page ∧
      (∀ u, d'.pte u = if v ≤ u ∧ u * pgsize < oldsz then none else d.pte u) ∧
      ∀ q ∈ d'.pages, q ∈ m) (BadPage x m) k := by
  have htop := pgroundup_le_userTop hsz
  rw [deallocLoop_eq_plain]
  refine wp_mono (wp_plainLoop x d v _ k) ?_ ?_
  · rintro d' k' ⟨-, h, rfl⟩
    have hpages := h.pages fun u hu hlt => by omega
    refine ⟨?_, rfl, h.page, fun u => ?_, fun q hq => hd q ?_⟩
    · rw [← hpages, ← Multiset.coe_add, Multiset.coe_reverse]
      abel
    · rw [h.pte]
      exact if_congr (by rw [mul_pgsize_lt]; omega) rfl rfl
    · rw [← hpages]
      exact Multiset.mem_add.mpr (.inl hq)
  · rintro e ⟨⟨p, hp, hbad⟩, rfl⟩
    obtain ⟨u, hu, hpte⟩ := List.mem_filterMap.mp hp
    obtain ⟨e, he, rfl⟩ := Option.map_eq_some_iff.mp hpte
    have hlt := List.mem_range'_1.mp hu
    exact ⟨rfl, e.page, hd _ (mem_pages (by omega) he), hbad⟩

theorem wp_deallocuvm {oldsz newsz : Nat} (hw : k.wild = false) (hsz : oldsz ≤ kernbase) :
    wp (deallocuvm x d oldsz newsz) (fun r k' => ((k'.freelist : Multiset Page) + r.1.pages =
      k.freelist + d.pages ∧ k'.wild = false) ∧ r.2 ≤ oldsz) Fault.Panic k := by
  unfold deallocuvm
  split
  · exact ⟨⟨rfl, hw⟩, le_rfl⟩
  · next hlt =>
    rw [wp_bind]
    exact wp_mono (wp_deallocLoop hsz fun _ hq => hq)
      (fun _ _ h => ⟨⟨h.1, h.2.1.trans hw⟩, (not_le.mp hlt).le⟩) fun _ he => he.panic

/-- The page of a page-table page. -/
def table : Option Pt → Multiset Page
  | none => 0
  | some t => {t.page}

theorem wp_freeTables {i : Nat} (hm : ∀ j, j < i + n → ∀ t, d.pde j = some t → t.page ∈ m) :
    wp (freeTables x d i n) (fun _ k' => (k'.freelist : Multiset Page) =
      k.freelist + ∑ j ∈ range n, table (d.pde (i + j)) ∧ k'.wild = k.wild) (BadPage x m) k := by
  induction n generalizing i k with
  | zero => exact ⟨by simp, rfl⟩
  | succ n ih =>
    have hsum : ∑ j ∈ range (n + 1), table (d.pde (i + j)) =
        table (d.pde i) + ∑ j ∈ range n, table (d.pde (i + 1 + j)) := by
      rw [sum_range_succ', add_comm]
      exact congrArg _ (sum_congr rfl fun j _ => by rw [add_right_comm, add_assoc])
    unfold freeTables
    rw [hsum]
    have hrest : ∀ j, j < i + 1 + n → ∀ t, d.pde j = some t → t.page ∈ m :=
      fun j hj => hm j (by omega)
    cases ht : d.pde i with
    | none =>
      rw [table, zero_add]
      exact ih hrest
    | some t =>
      rw [wp_bind]
      refine wp_kfree_page (hm i (by omega) t ht)
        (wp_post (ih hrest) (fun _ k' h => ⟨?_, h.2⟩))
      rw [h.1, table, ← Multiset.cons_coe, ← Multiset.singleton_add]
      abel

/-- A page table that maps no user page owns its directory and its page-table pages. -/
theorem pages_of_unmapped (hd : ∀ u, u < userTop → d.pte u = none) :
    d.pages = {d.page} + ∑ i ∈ range npdentries, table (d.pde i) := by
  rw [Pgdir.pages]
  refine congrArg _ (sum_congr rfl fun i _ => ?_)
  cases ht : d.pde i with
  | none => rfl
  | some t =>
    rw [slot, table]
    split
    · next hi =>
      have huser : t.user = 0 := sum_eq_zero fun j hj => by
        have hj' := mem_range.mp hj
        have hlt : i * nptentries + j < userTop := by
          simp only [nptentries, userTop, kernbase, pgsize] at hi hj' ⊢
          omega
        have hdiv : (i * nptentries + j) / nptentries = i := by
          simp only [nptentries] at hj' ⊢
          omega
        have hmod : (i * nptentries + j) % nptentries = j := by
          simp only [nptentries] at hj' ⊢
          omega
        have hnone := hd _ hlt
        rw [pte_eq (hdiv.symm ▸ ht), hmod] at hnone
        rw [hnone, own]
      rw [huser, add_zero]
    · rw [add_zero]

/-- **`freevm` frees every page of a page table.** -/
theorem wp_freevm_pages :
    wp (freevm x d) (fun _ k' => (k'.freelist : Multiset Page) = k.freelist + d.pages ∧
      k'.wild = k.wild) (BadPage x d.pages) k := by
  have hdealloc : deallocuvm x d kernbase 0 = (do
      let d ← deallocLoop x kernbase d (pgroundup 0)
      return (d, 0)) := if_neg (by decide)
  simp only [freevm, hdealloc, wp_bind, wp_pure]
  refine wp_post (wp_deallocLoop le_rfl fun _ hq => hq) ?_
  rintro d₁ k₁ ⟨hp₁, hw₁, hpg₁, he₁, hm₁⟩
  have hunmapped : ∀ u, u < userTop → d₁.pte u = none := fun u hu => by
    rw [he₁, if_pos]
    refine ⟨Nat.zero_le _, ?_⟩
    simp only [userTop, kernbase, pgsize] at hu ⊢
    omega
  rw [pages_of_unmapped hunmapped, hpg₁] at hp₁ hm₁
  have htables : ∀ j, j < 0 + npdentries → ∀ t, d₁.pde j = some t → t.page ∈ d.pages :=
    fun j hj t ht => hm₁ _ (Multiset.mem_add.mpr (.inr (Multiset.mem_sum.mpr
      ⟨j, mem_range.mpr (by omega), by rw [ht]; exact Multiset.mem_singleton_self _⟩)))
  refine wp_post (wp_freeTables htables) ?_
  rintro - k₂ ⟨hf₂, hw₂⟩
  refine wp_kfree_page (hm₁ _ (Multiset.mem_add.mpr (.inl (Multiset.mem_singleton_self _))))
    ⟨?_, hw₂.trans hw₁⟩
  rw [← hp₁, ← Multiset.cons_coe, hf₂, ← Multiset.singleton_add]
  simp only [zero_add]
  abel

theorem wp_freevm (hw : k.wild = false) :
    wp (freevm x d) (fun _ k' => (k'.freelist : Multiset Page) = k.freelist + d.pages ∧
      k'.wild = false) Fault.Panic k :=
  wp_mono wp_freevm_pages (fun _ _ h => ⟨h.1, h.2.trans hw⟩) fun _ he => he.panic

/-! ## `setupkvm` -/

/-- The virtual pages of a line of `kmap`. -/
def Covers (m : Nat × Nat × Nat × Perm) (u : Nat) : Prop :=
  m.1 / pgsize ≤ u ∧ u < (m.1 + m.2.1 - 1) / pgsize + 1

/-- A line of `kmap` maps pages of the kernel, and not for users. -/
structure KernelLine (m : Nat × Nat × Nat × Perm) : Prop where
  low : userTop ≤ m.1 / pgsize
  high : (m.1 + m.2.1 - 1) / pgsize + 1 ≤ 2 ^ 20
  order : m.1 / pgsize ≤ (m.1 + m.2.1 - 1) / pgsize + 1
  user : m.2.2.2.u = false

/-- What `setupkvm` has done to `d` after some lines of `kmap`. -/
structure MapsKernel (k : Kmem) (d : Pgdir) (ms : List (Nat × Nat × Nat × Perm)) (d' : Pgdir)
    (k' : Kmem) : Prop where
  wild : k'.wild = false
  suffix : k'.freelist <:+ k.freelist
  pages : (k'.freelist : Multiset Page) + d'.pages = k.freelist + d.pages
  outside : ∀ u, (∀ m ∈ ms, ¬ Covers m u) → d'.pte u = d.pte u
  inside : ∀ u, (∃ m ∈ ms, Covers m u) → ∃ e, d'.pte u = some e ∧ e.perm.u = false
  tables : ∀ i, (∀ m ∈ ms, ∀ u, Covers m u → u / nptentries ≠ i) → d'.pde i = d.pde i

theorem wp_mapKernel {ms : List (Nat × Nat × Nat × Perm)} (hw : k.wild = false)
    (hms : ∀ m ∈ ms, KernelLine m) :
    wp (mapKernel x d ms) (fun r k' => match r with
      | none => (k'.freelist : Multiset Page) = k.freelist + d.pages ∧ k'.wild = false
      | some d' => MapsKernel k d ms d' k') Fault.Panic k := by
  induction ms generalizing k d with
  | nil => exact ⟨hw, List.suffix_refl _, rfl, fun _ _ => rfl, nofun, fun _ _ => rfl⟩
  | cons m ms ih =>
    obtain ⟨va, size, pa, perm⟩ := m
    have hm := hms _ List.mem_cons_self
    unfold mapKernel
    rw [wp_bind]
    have hrange : va / pgsize + ((va + size - 1) / pgsize + 1 - va / pgsize) =
        (va + size - 1) / pgsize + 1 := by
      have := hm.order
      simp only at this
      omega
    refine wp_post (wp_mapLoop hw (hrange.trans_le hm.high)) ?_
    rintro ⟨d₁, ok⟩ k₁ h₁
    obtain ⟨j, -, -, -, hp₁⟩ := h₁.pages
    rw [mapped_kernel hm.low, add_zero] at hp₁
    have hin : ∀ u, Covers (va, size, pa, perm) u ↔ va / pgsize ≤ u ∧
        u < va / pgsize + ((va + size - 1) / pgsize + 1 - va / pgsize) := fun u => by
      rw [hrange]
      rfl
    cases ok with
    | false =>
      simp only [Bool.false_eq_true, if_false, wp_bind]
      refine wp_post (wp_freevm h₁.wild) ?_
      rintro - k₂ ⟨hf₂, hw₂⟩
      exact ⟨hf₂.trans hp₁, hw₂⟩
    | true =>
      simp only [if_true]
      refine wp_post (ih h₁.wild fun m hm => hms m (List.mem_cons_of_mem _ hm)) ?_
      rintro (- | d₂) k₂ h₂
      · exact ⟨h₂.1.trans hp₁, h₂.2⟩
      · refine ⟨h₂.wild, h₂.suffix.trans h₁.suffix, h₂.pages.trans hp₁, fun u hu => ?_,
          fun u hu => ?_, fun i hi => ?_⟩
        · rw [h₂.outside u fun m hm => hu m (List.mem_cons_of_mem _ hm),
            h₁.outside u ((hin u).not.mp (hu _ List.mem_cons_self))]
        · by_cases hlater : ∃ m ∈ ms, Covers m u
          · exact h₂.inside u hlater
          · have hcov : Covers (va, size, pa, perm) u := by
              obtain ⟨m, hmem, hc⟩ := hu
              rcases List.mem_cons.mp hmem with rfl | hmem
              · exact hc
              · exact absurd ⟨m, hmem, hc⟩ hlater
            obtain ⟨hlo, hhi⟩ := (hin u).mp hcov
            refine ⟨_, (h₂.outside u fun m hm hc => hlater ⟨m, hm, hc⟩).trans
              (h₁.inside rfl u hlo hhi), hm.user⟩
        · rw [h₂.tables i fun m hm => hi m (List.mem_cons_of_mem _ hm),
            h₁.tables i fun u hlo hhi => hi _ List.mem_cons_self u ((hin u).mpr ⟨hlo, hhi⟩)]

theorem kernelLine_kmap (x : Layout) : ∀ m ∈ kmap x, KernelLine m := by
  have hd := x.text
  have hs := x.small
  have hb := x.bss
  simp only [extmem, phystop] at hd hs
  intro m hm
  simp only [kmap, List.mem_cons, List.not_mem_nil, or_false] at hm
  rcases hm with rfl | rfl | rfl | rfl <;> constructor <;>
    simp only [userTop, kernbase, pgsize, extmem, phystop, devspace] <;> omega

/-- The kernel part of a page table, with nothing mapped for users. -/
structure KernelOnly (d : Pgdir) : Prop where
  user : ∀ u, u < userTop → d.pte u = none
  devices : ∀ u, devspace / pgsize ≤ u → u < 2 ^ 20 → ∃ e, d.pte u = some e ∧ e.perm.u = false
  hole : ∀ i, (kernbase + phystop) / pgsize / nptentries ≤ i → i < devspace / pgsize / nptentries →
    d.pde i = none

/-- **`setupkvm` loses no page**, and its page table maps the devices. -/
theorem wp_setupkvm (hw : k.wild = false) {Q : Option Pgdir → Kmem → Prop}
    (hnone : ∀ k', (k'.freelist : Multiset Page) = k.freelist → k'.wild = false → Q none k')
    (hsome : ∀ d k', (k'.freelist : Multiset Page) + d.pages = k.freelist → k'.wild = false →
      k'.freelist <:+ k.freelist → KernelOnly d → Q (some d) k') :
    wp (setupkvm x) Q Fault.Panic k := by
  unfold setupkvm
  rw [wp_bind]
  refine wp_kalloc hw (fun _ => hnone k rfl hw) fun p l hl => ?_
  have hpages : (l : Multiset Page) + Pgdir.pages ⟨p, fun _ => none⟩ = k.freelist := by
    rw [hl, ← Multiset.cons_coe, ← Multiset.singleton_add]
    simp only [Pgdir.pages, slot, sum_const_zero, add_zero]
    exact add_comm ..
  refine wp_post (wp_mapKernel (x := x) hw (kernelLine_kmap x)) ?_
  rintro (- | d) k' h
  · exact hnone k' (h.1.trans hpages) h.2
  · refine hsome d k' (h.pages.trans hpages) h.wild (h.suffix.trans (hl ▸ List.suffix_cons p l))
      ⟨fun u hu => ?_, fun u hlo hhi => ?_, fun i hlo hhi => ?_⟩
    · rw [h.outside u fun m hm hc => ?_]
      · rfl
      · have := (kernelLine_kmap x m hm).low
        exact absurd hc.1 (by omega)
    · refine h.inside u ⟨(devspace, 2 ^ 32 - devspace, devspace, ⟨true, false⟩), ?_, hlo, ?_⟩
      · simp [kmap]
      · simp only [devspace, pgsize]
        omega
    · refine h.tables i fun m hm u hc => ?_
      have hd := x.text
      have hs := x.small
      have hb := x.bss
      simp only [extmem, phystop] at hd hs
      simp only [kmap, List.mem_cons, List.not_mem_nil, or_false] at hm
      obtain ⟨hlo', hhi'⟩ := hc
      rcases hm with rfl | rfl | rfl | rfl <;>
        simp only [kernbase, pgsize, extmem, phystop, devspace, nptentries] at * <;> omega

/-! ## `allocuvm` and `copyuvm` -/

/-- A page comes from the free list and is mapped. -/
theorem coe_cons_add (p : Page) (l : List Page) (m : Multiset Page) :
    ((p :: l : List Page) : Multiset Page) + m = l + m + {p} := by
  rw [← Multiset.cons_coe, ← Multiset.singleton_add]
  abel

/-- What `allocuvm` has done when it succeeds. -/
structure Allocs (k : Kmem) (d : Pgdir) (v n : Nat) (d' : Pgdir) (k' : Kmem) : Prop where
  suffix : k'.freelist <:+ k.freelist
  outside : ∀ u, ¬ (v ≤ u ∧ u < v + n) → d'.pte u = d.pte u
  inside : ∀ u, v ≤ u → u < v + n → (d'.pte u).isSome
  tables : ∀ i, (∀ u, v ≤ u → u < v + n → u / nptentries ≠ i) → d'.pde i = d.pde i

theorem wp_allocLoop {oldsz newsz : Nat} (hw : k.wild = false) (hsz : newsz ≤ kernbase)
    (hv : v + n ≤ userTop) :
    wp (allocLoop x oldsz newsz d v n) (fun r k' => ((k'.freelist : Multiset Page) + r.1.pages =
      k.freelist + d.pages ∧ k'.wild = false) ∧
      (r.2 = 0 ∨ r.2 = newsz ∧ Allocs k d v n r.1 k')) Fault.Panic k := by
  induction n generalizing k d v with
  | zero =>
    exact ⟨⟨rfl, hw⟩, .inr ⟨rfl, List.suffix_refl _, fun _ _ => rfl,
      fun u hu hlt => absurd hlt (by omega), fun _ _ => rfl⟩⟩
  | succ n ih =>
    unfold allocLoop
    rw [wp_bind]
    refine wp_kalloc hw (fun _ => ?_) fun mem l hl => ?_
    · exact wp_then (wp_deallocuvm hw hsz) (fun r k' h => ⟨h.1, .inl rfl⟩)
    · have hvt : v < userTop := by omega
      have hwl : ({ k with freelist := l } : Kmem).wild = false := hw
      rw [wp_bind]
      refine wp_mappages_user hwl hvt (fun d₁ k₁ hp₁ hw₁ _ _ => ?_)
        fun d₁ k₁ hp₁ hw₁ hs₁ ho₁ hi₁ ht₁ => ?_
      · simp only [Bool.false_eq_true, if_false, wp_bind]
        refine wp_post (wp_deallocuvm hw₁ hsz) ?_
        rintro r₂ k₂ ⟨⟨hp₂, hw₂⟩, -⟩
        refine wp_kfree ⟨⟨?_, hw₂⟩, .inl rfl⟩
        rw [coe_cons_add, hp₂, hp₁, hl, coe_cons_add]
      · simp only [if_true]
        refine wp_post (ih hw₁ (by omega)) ?_
        rintro r k₂ ⟨⟨hp₂, hw₂⟩, h₂⟩
        refine ⟨⟨?_, hw₂⟩, h₂.imp id fun h => ⟨h.1, ?_⟩⟩
        · rw [hp₂, hp₁, hl, coe_cons_add]
        · have ha := h.2
          refine ⟨ha.suffix.trans (hs₁.trans (hl ▸ List.suffix_cons mem l)), fun u hu => ?_,
            fun u hlo hhi => ?_, fun i hi => ?_⟩
          · rw [ha.outside u (by omega), ho₁ u (by omega)]
          · by_cases huv : u = v
            · rw [ha.outside u (by omega), huv, hi₁]
              rfl
            · exact ha.inside u (by omega) (by omega)
          · rw [ha.tables i fun u hlo hhi => hi u (by omega) (by omega),
              ht₁ i fun h => hi v le_rfl (by omega) h.symm]

theorem pgroundup_mono {a b : Nat} (h : a ≤ b) : pgroundup a ≤ pgroundup b :=
  Nat.div_le_div_right (Nat.add_le_add_right h _)

/-- **`allocuvm` loses no page**, also when it fails. -/
theorem wp_allocuvm {oldsz newsz : Nat} (hw : k.wild = false) :
    wp (allocuvm x d oldsz newsz) (fun r k' => ((k'.freelist : Multiset Page) + r.1.pages =
      k.freelist + d.pages ∧ k'.wild = false) ∧
      (r.2 = 0 ∨ r = (d, oldsz) ∧ newsz < oldsz ∧ newsz < kernbase ∧ k' = k ∨
        r.2 = newsz ∧ oldsz ≤ newsz ∧ newsz < kernbase ∧
        Allocs k d (pgroundup oldsz) (pgroundup newsz - pgroundup oldsz) r.1 k')) Fault.Panic k := by
  unfold allocuvm
  split
  · exact ⟨⟨rfl, hw⟩, .inl rfl⟩
  · next hk =>
    rw [not_le] at hk
    split
    · next hlt => exact ⟨⟨rfl, hw⟩, .inr (.inl ⟨rfl, hlt, hk, rfl⟩)⟩
    · next hge =>
      rw [not_lt] at hge
      have hle := pgroundup_mono hge
      have htop := pgroundup_le_userTop hk.le
      exact wp_post (wp_allocLoop hw hk.le (by omega)) (fun r k' h => ⟨h.1, h.2.imp id fun h => .inr ⟨h.1, hge, hk, h.2⟩⟩)

/-- **`copyuvm` loses no page**, also when it fails. -/
theorem wp_copyLoop {src : Pgdir} (hw : k.wild = false) (hv : v + n ≤ userTop) :
    wp (copyLoop x src d v n) (fun r k' => k'.wild = false ∧ match r with
      | none => (k'.freelist : Multiset Page) = k.freelist + d.pages
      | some d' => (k'.freelist : Multiset Page) + d'.pages = k.freelist + d.pages)
      Fault.Panic k := by
  induction n generalizing k d v with
  | zero => exact ⟨hw, rfl⟩
  | succ n ih =>
    unfold copyLoop
    split
    · trivial
    · split
      · trivial
      · rw [wp_bind]
        refine wp_kalloc hw (fun _ => ?_) fun mem l hl => ?_
        · exact wp_then (wp_freevm hw) (fun _ k' h => ⟨h.2, h.1⟩)
        · have hvt : v < userTop := by omega
          have hwl : ({ k with freelist := l } : Kmem).wild = false := hw
          rw [wp_bind]
          refine wp_mappages_user hwl hvt (fun d₁ k₁ hp₁ hw₁ _ _ => ?_)
            fun d₁ k₁ hp₁ hw₁ _ _ _ _ => ?_
          · simp only [Bool.false_eq_true, if_false, wp_bind]
            refine wp_kfree (wp_post (wp_freevm hw₁) (fun _ k' h => ⟨h.2, ?_⟩))
            show (k'.freelist : Multiset Page) = k.freelist + d.pages
            rw [h.1, hl]
            show ((mem :: k₁.freelist : List Page) : Multiset Page) + d₁.pages = _
            rw [coe_cons_add, hp₁, coe_cons_add]
          · simp only [if_true]
            refine wp_post (ih hw₁ (by omega)) ?_
            have hp : (k₁.freelist : Multiset Page) + d₁.pages = k.freelist + d.pages := by
              rw [hp₁, hl, coe_cons_add]
            rintro (- | d') k' ⟨hw', h⟩
            · exact ⟨hw', h.trans hp⟩
            · exact ⟨hw', h.trans hp⟩

theorem wp_copyuvm {src : Pgdir} {sz : Nat} (hw : k.wild = false) (hsz : sz ≤ kernbase)
    {Q : Option Pgdir → Kmem → Prop}
    (hnone : ∀ k', (k'.freelist : Multiset Page) = k.freelist → k'.wild = false → Q none k')
    (hsome : ∀ d k', (k'.freelist : Multiset Page) + d.pages = k.freelist → k'.wild = false →
      Q (some d) k') :
    wp (copyuvm x src sz) Q Fault.Panic k := by
  unfold copyuvm
  rw [wp_bind]
  refine wp_setupkvm hw hnone fun d k₁ hp₁ hw₁ _ _ => ?_
  have htop := pgroundup_le_userTop hsz
  refine wp_post (wp_copyLoop hw₁ (by omega)) ?_
  rintro (- | d') k' ⟨hw', h⟩
  · exact hnone k' (h.trans hp₁) hw'
  · exact hsome d' k' (h.trans hp₁) hw'

end Laboratorio.Xv6.Vm
