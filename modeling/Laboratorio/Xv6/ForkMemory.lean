import Laboratorio.Xv6.Sbrk
import Laboratorio.Xv6.VmTotal

/-!
# Copying an address space (`copyuvm` in `xv6/vm.c`)

`fork` copies the memory of the parent page by page: `copyuvm` takes a page for every page of the
parent, moves the contents, and maps it with the permissions of the parent's. Out of memory, it frees
what it has taken.

`copyuvm_copies` is the result: the child has the parent's contents and permissions in pages that were
free before, or all pages are free again. What was in use before the call is not touched.
-/

namespace Laboratorio.Xv6.Vm.Ram

open Function Laboratorio.Wp

/-- `freevm`, the loop over the entries of the directory from `i` on -/
def freeTables (x : Layout) (d : Pgdir) : (i n : Nat) → R Unit
  | _, 0 => return ()
  | i, n + 1 => do
    match d.pde i with
    | none => freeTables x d (i + 1) n
    | some t => do
      kfree x t.page
      freeTables x d (i + 1) n

/-- `freevm` -/
def freevm (x : Layout) (d : Pgdir) : R Unit := do
  let r ← deallocuvm x d kernbase 0
  freeTables x r.1 0 npdentries
  kfree x d.page

/-- The loop of `setupkvm` over the rest of `kmap`. -/
def mapKernel (x : Layout) : Pgdir → List (Nat × Nat × Nat × Perm) → R (Option Pgdir)
  | d, [] => return some d
  | d, (va, size, pa, perm) :: ks => do
    let r ← onKmem (mappages d va size pa perm)
    if r.2 then mapKernel x r.1 ks
    else do
      freevm x r.1
      return none

/-- `setupkvm` -/
def setupkvm (x : Layout) : R (Option Pgdir) := do
  match ← onKmem kalloc with
  | none => return none
  | some p => mapKernel x ⟨p, fun _ => none⟩ (kmap x)

/-- `memmove` of a whole page -/
def copyPage (dst src : Page) : R Unit :=
  modify fun s => { s with byte := update s.byte dst (s.byte src) }

/-- The loop of `copyuvm` for `n` pages from `v` on. -/
def copyLoop (x : Layout) (src : Pgdir) : Pgdir → (v n : Nat) → R (Option Pgdir)
  | d, _, 0 => return some d
  | d, v, n + 1 =>
    match src.pde (v / nptentries) with
    | none => throw .pteShouldExist
    | some t =>
      match t.pte (v % nptentries) with
      | none => throw .pageNotPresent
      | some e => do
        match ← onKmem kalloc with
        | none => do
          freevm x d
          return none
        | some mem => do
          copyPage mem e.page
          let r ← onKmem (mappages d (v * pgsize) pgsize (mem * pgsize) e.perm)
          if r.2 then copyLoop x src r.1 (v + 1) n
          else do
            kfree x mem
            freevm x r.1
            return none

/-- `copyuvm` -/
def copyuvm (x : Layout) (src : Pgdir) (sz : Nat) : R (Option Pgdir) := do
  match ← setupkvm x with
  | none => return none
  | some d => copyLoop x src d 0 (pgroundup sz)

variable {x : Layout} {d d' src : Pgdir} {s s' s₁ : Ram} {m : Multiset Page}

/-! ## Without the contents -/

theorem forgets_freeTables (i n : Nat) :
    Forgets (freeTables x d i n) (Vm.freeTables x d i n) := by
  induction n generalizing i with
  | zero => exact .pure _
  | succ n ih =>
    unfold freeTables Vm.freeTables
    cases d.pde i with
    | none => exact ih (i + 1)
    | some t => exact (forgets_kfree t.page).bind fun _ => ih (i + 1)

theorem forgets_freevm (d : Pgdir) : Forgets (freevm x d) (Vm.freevm x d) :=
  (forgets_deallocuvm d kernbase 0).bind fun _ =>
    (forgets_freeTables 0 npdentries).bind fun _ => forgets_kfree d.page

theorem forgets_mapKernel (ms : List (Nat × Nat × Nat × Perm)) (d : Pgdir) :
    Forgets (mapKernel x d ms) (Vm.mapKernel x d ms) := by
  induction ms generalizing d with
  | nil => exact .pure _
  | cons l ms ih =>
    obtain ⟨va, size, pa, perm⟩ := l
    unfold mapKernel Vm.mapKernel
    refine (Forgets.onKmem _).bind fun r => ?_
    split
    · exact ih r.1
    · exact (forgets_freevm r.1).bind fun _ => .pure _

theorem forgets_setupkvm : Forgets (setupkvm x) (Vm.setupkvm x) := by
  unfold setupkvm Vm.setupkvm
  refine (Forgets.onKmem _).bind fun r => ?_
  cases r with
  | none => exact .pure _
  | some p => exact forgets_mapKernel (kmap x) _

/-! ## Freeing pages -/

/-- Pages have been freed from `s` to `s'`, and only their contents are gone. -/
def Frees (s s' : Ram) : Prop :=
  (∀ q ∈ s.kmem.freelist, q ∈ s'.kmem.freelist) ∧ ∀ q, s'.byte q = s.byte q ∨ q ∈ s'.kmem.freelist

theorem Frees.refl (s : Ram) : Frees s s := ⟨fun _ hq => hq, fun _ => .inl rfl⟩

theorem Frees.trans (h : Frees s s₁) (h' : Frees s₁ s') : Frees s s' := by
  refine ⟨fun q hq => h'.1 q (h.1 q hq), fun q => ?_⟩
  rcases h'.2 q with heq | hfree
  · exact (h.2 q).imp heq.trans (h'.1 q)
  · exact .inr hfree

theorem wp_kfree_frees (p : Page) : wp (kfree x p) (fun _ s' => Frees s s') (fun _ => True) s := by
  simp only [kfree, wp_bind, wp_onKmem, Vm.kfree, wp_ite, wp_throw, wp_modify, memset]
  refine ⟨fun _ => trivial, fun _ => ⟨fun q hq => List.mem_cons_of_mem _ hq, fun q => ?_⟩⟩
  by_cases hq : q = p
  · exact .inr (hq ▸ List.mem_cons_self)
  · exact .inl (update_of_ne hq ..)

theorem wp_freeTables_frees (i n : Nat) :
    wp (freeTables x d i n) (fun _ s' => Frees s s') (fun _ => True) s := by
  induction n generalizing i s with
  | zero => exact .refl s
  | succ n ih =>
    unfold freeTables
    cases d.pde i with
    | none => exact ih (i + 1)
    | some t =>
      refine wp_then (wp_kfree_frees t.page) (fun _ s₁ h₁ => ?_)
      exact wp_post (ih (i + 1)) (fun _ _ h₂ => h₁.trans h₂)

theorem wp_freevm_frees (d : Pgdir) : wp (freevm x d) (fun _ s' => Frees s s') (fun _ => True) s := by
  have hdealloc : deallocuvm x d kernbase 0 = (do
      let d ← deallocLoop x kernbase d (pgroundup 0)
      return (d, 0)) := if_neg (by decide)
  simp only [freevm, hdealloc, wp_bind, wp_pure]
  refine wp_post wp_deallocLoop_byte (fun d₁ s₁ h₁ => ?_)
  refine wp_post (wp_freeTables_frees 0 npdentries) (fun _ s₂ h₂ => ?_)
  exact wp_post (wp_kfree_frees d.page) (fun _ _ h₃ => Frees.trans h₁ (h₂.trans h₃))

/-- **`freevm`** frees the pages of a page table and leaves the other ones alone. -/
theorem wp_freevm (hgood : ∀ p ∈ d.pages, x.Holds p) :
    wp (freevm x d) (fun _ s' => (s'.kmem.freelist : Multiset Page) = s.kmem.freelist + d.pages ∧
      s'.kmem.wild = s.kmem.wild ∧ Frees s s') (fun _ => False) s :=
  wp_mono (wp_and ((forgets_freevm d).wp (wp_freevm_good hgood)) (wp_freevm_frees d))
    (fun _ _ h => ⟨h.1.1, h.1.2, h.2⟩) fun _ he => he.1

/-! ## `setupkvm` -/

theorem wp_mapKernel_byte (ms : List (Nat × Nat × Nat × Perm)) (d : Pgdir) :
    wp (mapKernel x d ms) (fun _ s' => ∀ q, s'.byte q = s.byte q ∨ q ∈ s'.kmem.freelist)
      (fun _ => True) s := by
  induction ms generalizing d s with
  | nil => exact fun _ => .inl rfl
  | cons l ms ih =>
    obtain ⟨va, size, pa, perm⟩ := l
    unfold mapKernel
    rw [wp_bind, wp_onKmem]
    refine wp_of_ends (fun r k₁ _ => ?_) fun _ _ => trivial
    rw [wp_ite, wp_bind]
    refine ⟨fun _ => ih r.1, fun _ => ?_⟩
    exact wp_post (wp_freevm_frees r.1) (fun _ s₂ h => h.2)

/-- **`setupkvm`** makes the kernel part of a page table, or gives all pages back; the contents of
pages that are not free stay. -/
theorem wp_setupkvm (hw : s.kmem.wild = false) (hgood : ∀ p ∈ s.kmem.freelist, x.Holds p)
    {Q : Option Pgdir → Ram → Prop}
    (hnone : ∀ s', (s'.kmem.freelist : Multiset Page) = s.kmem.freelist → s'.kmem.wild = false →
      (∀ q ∉ s.kmem.freelist, s'.byte q = s.byte q) → Q none s')
    (hsome : ∀ d s', (s'.kmem.freelist : Multiset Page) + d.pages = s.kmem.freelist →
      s'.kmem.wild = false → (∀ q ∉ s.kmem.freelist, s'.byte q = s.byte q) → KernelOnly d →
      (∀ u, userTop ≤ u → d.pte u = kernelPte x u) → Q (some d) s') :
    wp (setupkvm x) Q (fun _ => False) s := by
  have hbyte : wp (setupkvm x) (fun _ s' => ∀ q, s'.byte q = s.byte q ∨ q ∈ s'.kmem.freelist)
      (fun _ => True) s := by
    unfold setupkvm
    rw [wp_bind, wp_onKmem]
    refine wp_kalloc hw (fun _ _ => .inl rfl) fun p l _ => ?_
    exact wp_mapKernel_byte (kmap x) _
  have hkmem := (forgets_setupkvm (x := x)).wp (s := s) (wp_setupkvm_total hw hgood
    (Q := fun r k' => k'.wild = false ∧ match r with
      | none => (k'.freelist : Multiset Page) = s.kmem.freelist
      | some d => (k'.freelist : Multiset Page) + d.pages = s.kmem.freelist ∧ KernelOnly d ∧
          ∀ u, userTop ≤ u → d.pte u = kernelPte x u)
    (fun _ hp hw' => ⟨hw', hp⟩) fun _ _ hp hw' hd hk => ⟨hw', hp, hd, hk⟩)
  refine wp_mono (wp_and hkmem hbyte) ?_ fun _ he => he.1
  rintro (- | d) s' ⟨⟨hw', h⟩, hb⟩
  · refine hnone s' h hw' fun q hq => (hb q).resolve_right fun hfree => hq ?_
    rw [← Multiset.mem_coe, ← h]
    exact hfree
  · refine hsome d s' h.1 hw' (fun q hq => (hb q).resolve_right fun hfree => hq ?_) h.2.1 h.2.2
    rw [← Multiset.mem_coe, ← h.1]
    exact Multiset.mem_add.mpr (.inl hfree)

/-! ## `copyuvm` -/

/-- The page of an entry is on no other place of the page table. -/
theorem page_injective (hnodup : d.pages.Nodup) {u v : Nat} {e e' : Pte} (hu : u < userTop)
    (hv : v < userTop) (he : d.pte u = some e) (he' : d.pte v = some e') (hpage : e.page = e'.page) :
    u = v := by
  by_contra hne
  have htable : (d.pde (u / nptentries)).isSome := isSome_table (by rw [he]; rfl)
  have hset := pages_setPte (e := none) (lt_of_lt_of_le hu (by decide)) htable
  rw [he, ownAt, ownAt, if_pos hu, if_pos hu, own, own, add_zero] at hset
  rw [← hset] at hnodup
  have hrest : e'.page ∈ (d.setPte u none).pages :=
    mem_pages hv (by rw [pte_setPte htable, if_neg (Ne.symm hne), he'])
  obtain ⟨-, -, hdisjoint⟩ := Multiset.nodup_add.mp hnodup
  exact Multiset.disjoint_left.mp hdisjoint hrest (by simp [hpage])

/-- The page table `d'` has copies of the pages of `src` from `v` up to `v + n`. -/
structure Copies (src d d' : Pgdir) (v n : Nat) (s s' : Ram) : Prop where
  outside : ∀ u, u < v ∨ v + n ≤ u → d'.pte u = d.pte u
  inside : ∀ u, v ≤ u → u < v + n → ∀ e, src.pte u = some e →
    ∃ p, d'.pte u = some ⟨p, e.perm⟩ ∧ s'.byte p = s.byte e.page
  old : ∀ q ∈ d.pages, q ∈ d'.pages ∧ s'.byte q = s.byte q

theorem wp_copyLoop {v n : Nat} (hw : s.kmem.wild = false)
    (hm : (s.kmem.freelist : Multiset Page) + d.pages = m) (hnodup : m.Nodup)
    (hgood : ∀ p ∈ m, x.Holds p) (hv : v + n ≤ userTop)
    (hsrc : ∀ u, v ≤ u → u < v + n → ∃ e, src.pte u = some e ∧ e.page ∉ m)
    (hnone : ∀ u, v ≤ u → u < v + n → d.pte u = none) :
    wp (copyLoop x src d v n) (fun r s' => s'.kmem.wild = false ∧
      (∀ q ∉ m, s'.byte q = s.byte q) ∧ match r with
      | none => (s'.kmem.freelist : Multiset Page) = m
      | some d' => (s'.kmem.freelist : Multiset Page) + d'.pages = m ∧
          Copies src d d' v n s s') (fun _ => False) s := by
  induction n generalizing v d s with
  | zero =>
    exact ⟨hw, fun _ _ => rfl, hm, fun _ _ => rfl, fun u hlo hhi => absurd hhi (by omega),
      fun q hq => ⟨hq, rfl⟩⟩
  | succ n ih =>
    have hvt : v < userTop := by omega
    obtain ⟨e, he, hout⟩ := hsrc v le_rfl (by omega)
    obtain ⟨t, ht⟩ := Option.isSome_iff_exists.mp (isSome_table (d := src) (by rw [he]; rfl))
    have hte : t.pte (v % nptentries) = some e := by rw [← pte_eq ht, he]
    unfold copyLoop
    simp only [ht, hte]
    rw [wp_bind, wp_onKmem]
    refine wp_kalloc hw (fun hnil => ?_) fun mem l hl => ?_
    · -- no page: what has been taken is freed
      have hpages : d.pages = m := by rw [← hm, hnil]; exact (zero_add _).symm
      simp only [wp_bind]
      refine wp_post (wp_freevm fun p hp => hgood p (hpages ▸ hp)) ?_
      rintro - s' ⟨hp', hw', hf⟩
      have hfree : (s'.kmem.freelist : Multiset Page) = m := hp'.trans hm
      refine ⟨hw'.trans hw, fun q hq => (hf.2 q).resolve_right fun hin => hq ?_, hfree⟩
      exact hfree ▸ Multiset.mem_coe.mpr hin
    · have hused : ∀ q ∈ d.pages, q ∉ s.kmem.freelist := fun q hq => not_free hm hnodup hq
      rw [hl] at hm hused
      have hmemm : mem ∈ m := by rw [← hm, coe_cons_add]; simp
      have hfresh : mem ∉ l ∧ mem ∉ d.pages := by
        rw [← hm, ← Multiset.cons_coe, Multiset.cons_add, Multiset.nodup_cons] at hnodup
        simpa using hnodup.1
      have hwl : ({ s.kmem with freelist := l } : Kmem).wild = false := hw
      simp only [wp_bind, copyPage, wp_modify, wp_onKmem]
      refine wp_mappages_unmapped (k := { s.kmem with freelist := l }) hwl hvt
        (hnone v le_rfl (by omega)) ?_ fun d₁ k₁ hp₁ hw₁ hs₁ ho₁ hi₁ => ?_
      · -- no page for the page table
        have hlm : ∀ p, p ∈ (l : Multiset Page) + d.pages → p ∈ m := fun p hp => by
          rw [← hm, coe_cons_add]
          exact Multiset.mem_add.mpr (.inl hp)
        simp only [Bool.false_eq_true, if_false, wp_bind, kfree, wp_onKmem, Vm.kfree, wp_ite,
          wp_throw, wp_modify, memset]
        refine ⟨fun hbad => ?_, fun _ => ?_⟩
        · have hmem := hgood mem hmemm
          rcases hbad with hlow | hhigh
          · exact absurd hmem.1 (not_le.mpr hlow)
          · exact absurd hmem.2 (not_lt.mpr hhigh)
        · refine wp_post (wp_freevm fun p hp => hgood p (hlm p (Multiset.mem_add.mpr (.inr hp)))) ?_
          rintro - s' ⟨hp', hw', hf⟩
          have hfree : (s'.kmem.freelist : Multiset Page) = m := hp'.trans hm
          refine ⟨hw'.trans hw, fun q hq => ?_, hfree⟩
          have hne : q ≠ mem := fun h => hq (h ▸ hmemm)
          rw [(hf.2 q).resolve_right fun hin => hq (hfree ▸ Multiset.mem_coe.mpr hin)]
          exact (update_of_ne hne ..).trans (update_of_ne hne ..)
      · simp only [if_true]
        have hm₁ : (k₁.freelist : Multiset Page) + d₁.pages = m := by
          rw [hp₁, ← hm, coe_cons_add]
        have hold : ∀ q ∈ d.pages, q ∈ d₁.pages := fun q hq => by
          have hqm : q ∈ (k₁.freelist : Multiset Page) + d₁.pages := by
            rw [hm₁, ← hm]
            exact Multiset.mem_add.mpr (.inr hq)
          refine (Multiset.mem_add.mp hqm).resolve_left fun hfree => hused q hq ?_
          exact List.mem_cons_of_mem _ (hs₁.subset (Multiset.mem_coe.mp hfree))
        have hmem₁ : mem ∈ d₁.pages := mem_pages hvt hi₁
        refine wp_post (ih (s := ⟨k₁, update s.byte mem (s.byte e.page)⟩) hw₁ hm₁
          (by omega) (fun u hlo hhi => hsrc u (by omega) (by omega)) fun u hlo hhi => ?_) ?_
        · rw [ho₁ u (by omega)]
          exact hnone u (by omega) (by omega)
        · rintro r s' ⟨hw', hsame, h⟩
          refine ⟨hw', fun q hq => ?_, ?_⟩
          · rw [hsame q hq]
            exact update_of_ne (fun h : q = mem => hq (h ▸ hmemm)) ..
          · cases r with
            | none => exact h
            | some d' =>
              obtain ⟨hpages, hc⟩ := h
              refine ⟨hpages, fun u hu => ?_, fun u hlo hhi e' he' => ?_, fun q hq => ?_⟩
              · rw [hc.outside u (by omega), ho₁ u (by omega)]
              · by_cases huv : u = v
                · subst huv
                  rw [he] at he'
                  cases he'
                  refine ⟨mem, by rw [hc.outside u (by omega), hi₁], ?_⟩
                  rw [(hc.old mem hmem₁).2]
                  exact update_self ..
                · obtain ⟨p, hp, hb⟩ := hc.inside u (by omega) (by omega) e' he'
                  refine ⟨p, hp, hb.trans (update_of_ne ?_ ..)⟩
                  obtain ⟨e'', he'', hnot⟩ := hsrc u hlo hhi
                  rw [he'] at he''
                  cases he''
                  exact fun h => hnot (h ▸ hmemm)
              · refine ⟨(hc.old q (hold q hq)).1, (hc.old q (hold q hq)).2.trans ?_⟩
                exact update_of_ne (fun h : q = mem => hfresh.2 (h ▸ hq)) ..

/-- The parent of a fork: its pages up to its size are present, and they are not free. -/
structure Parent (x : Layout) (s : Ram) (src : Pgdir) (sz : Nat) : Prop where
  wild : s.kmem.wild = false
  nodup : s.kmem.freelist.Nodup
  good : ∀ p ∈ s.kmem.freelist, x.Holds p
  size : sz ≤ kernbase
  present : ∀ v < pgroundup sz, ∃ e, src.pte v = some e ∧ e.page ∉ s.kmem.freelist

/-- The page table `d` of the child: for every page of the parent one with the same contents and
permissions, in pages that were free before and are distinct; and the kernel part that `setupkvm`
makes. -/
structure IsCopy (x : Layout) (s : Ram) (src : Pgdir) (sz : Nat) (d : Pgdir) (s' : Ram) : Prop where
  same : ∀ v < pgroundup sz, ∀ e, src.pte v = some e →
    ∃ p, d.pte v = some ⟨p, e.perm⟩ ∧ s'.byte p = s.byte e.page
  above : ∀ v, pgroundup sz ≤ v → v < userTop → d.pte v = none
  pages : (s'.kmem.freelist : Multiset Page) + d.pages = s.kmem.freelist
  distinct : ∀ u v e e', u < userTop → v < userTop → d.pte u = some e → d.pte v = some e' →
    e.page = e'.page → u = v
  kernel : ∀ u, userTop ≤ u → d.pte u = kernelPte x u

theorem wp_copyuvm {sz : Nat} (h : Parent x s src sz) :
    wp (copyuvm x src sz) (fun r s' => s'.kmem.wild = false ∧
      (∀ p ∉ s.kmem.freelist, s'.byte p = s.byte p) ∧ match r with
      | none => (s'.kmem.freelist : Multiset Page) = s.kmem.freelist
      | some d => IsCopy x s src sz d s') (fun _ => False) s := by
  have htop := pgroundup_le_userTop h.size
  have hnodup : (s.kmem.freelist : Multiset Page).Nodup := Multiset.coe_nodup.mpr h.nodup
  unfold copyuvm
  rw [wp_bind]
  refine wp_setupkvm h.wild h.good (fun s' hp' hw' hb' => ⟨hw', hb', hp'⟩)
    fun d s₁ hp₁ hw₁ hb₁ hd hk => ?_
  refine wp_post (wp_copyLoop hw₁ hp₁ hnodup h.good (by omega)
    (fun u _ hu => h.present u (by omega)) fun u _ hu => hd.user u (by omega)) ?_
  rintro r s' ⟨hw', hsame, hr⟩
  refine ⟨hw', fun p hp => (hsame p hp).trans (hb₁ p hp), ?_⟩
  cases r with
  | none => exact hr
  | some d' =>
    obtain ⟨hpages, hc⟩ := hr
    have hdup : d'.pages.Nodup := by
      rw [← hpages] at hnodup
      exact (Multiset.nodup_add.mp hnodup).2.1
    refine ⟨fun v hv e he => ?_, fun v hlo hhi => ?_, hpages,
      fun u v e e' hu hv he he' hpage => page_injective hdup hu hv he he' hpage, fun u hu => ?_⟩
    · obtain ⟨p, hp, hb⟩ := hc.inside v (Nat.zero_le v) (by omega) e he
      obtain ⟨e', he', hnot⟩ := h.present v hv
      rw [he] at he'
      cases he'
      exact ⟨p, hp, hb.trans (hb₁ _ hnot)⟩
    · rw [hc.outside v (by omega)]
      exact hd.user v hhi
    · rw [hc.outside u (by omega)]
      exact hk u hu

/-- **`copyuvm` copies the address space**, or leaves all pages free; in both cases nothing that was in
use is changed. The kernel part is the one of `setupkvm`. -/
theorem copyuvm_copies {sz : Nat} (h : Parent x s src sz) : ∃ r s',
    copyuvm x src sz s = .ok (r, s') ∧ (∀ p ∉ s.kmem.freelist, s'.byte p = s.byte p) ∧
    match r with
    | none => (s'.kmem.freelist : Multiset Page) = s.kmem.freelist
    | some d => IsCopy x s src sz d s' ∧
        ∀ d₀ s₀, setupkvm x s = .ok (some d₀, s₀) → ∀ u, userTop ≤ u → d.pte u = d₀.pte u := by
  obtain ⟨r, s', hrun, -, hsame, hr⟩ := (wp_copyuvm h).exists_ok
  refine ⟨r, s', hrun, hsame, ?_⟩
  cases r with
  | none => exact hr
  | some d =>
    refine ⟨hr, fun d₀ s₀ hsetup u hu => ?_⟩
    have hkernel : wp (setupkvm x) (fun r _ => ∀ d₀, r = some d₀ → d₀.pte u = kernelPte x u)
        (fun _ => False) s :=
      wp_setupkvm h.wild h.good (fun _ _ _ _ => nofun) fun d₁ _ _ _ _ _ hk d₀ hd₀ => by
        cases hd₀
        exact hk u hu
    rw [hr.kernel u hu, hkernel.ok hsetup d₀ rfl]

theorem wp_copyLoop_enough {v n : Nat} (hw : s.kmem.wild = false) (hv : v + n ≤ userTop)
    (hsrc : ∀ u, v ≤ u → u < v + n → (src.pte u).isSome)
    (hfree : ∀ u, v ≤ u → u < v + n → d.pte u = none) (hroom : npdentries + n < room s.kmem d) :
    wp (copyLoop x src d v n) (fun r _ => r.isSome) (fun _ => False) s := by
  induction n generalizing d v s with
  | zero => trivial
  | succ n ih =>
    obtain ⟨e, he⟩ := Option.isSome_iff_exists.mp (hsrc v le_rfl (by omega))
    obtain ⟨t, ht⟩ := Option.isSome_iff_exists.mp (isSome_pde he)
    obtain ⟨page, l, hl⟩ := exists_free (k := s.kmem) (d := d) (by omega)
    have hroom' : room { s.kmem with freelist := l } d + 1 = room s.kmem d := by
      simp only [room, hl, List.length_cons]
      omega
    have hwl : ({ s.kmem with freelist := l } : Kmem).wild = false := hw
    rw [pte_eq ht] at he
    simp only [copyLoop, ht, he, wp_bind, wp_onKmem, copyPage]
    refine wp_kalloc_cons hl ?_
    simp only [wp_bind, wp_modify, wp_onKmem]
    refine wp_mappages_enough hwl (by omega) (hfree v le_rfl (by omega)) (by omega)
      fun d' k' hr hw' _ hother _ => ?_
    refine ih hw' (by omega) (fun u hlo hhi => hsrc u (by omega) (by omega)) (fun u hlo hhi => ?_) ?_
    · rw [hother u (by omega)]
      exact hfree u (by omega) (by omega)
    · show npdentries + n < room k' d'
      omega

/-- With a free page for each page of the parent, and for the page table, there is a copy. -/
theorem copyuvm_enough {sz : Nat} (h : Parent x s src sz)
    (hfree : npdentries + pgroundup sz + 1 < s.kmem.freelist.length) {r : Option Pgdir}
    (hrun : copyuvm x src sz s = .ok (r, s')) : ∃ d, r = some d := by
  have htop := pgroundup_le_userTop h.size
  suffices hsome : wp (copyuvm x src sz) (fun r _ => r.isSome) (fun _ => False) s from
    Option.isSome_iff_exists.mp (hsome.ok hrun)
  unfold copyuvm
  rw [wp_bind]
  refine wp_post (forgets_setupkvm.wp (wp_setupkvm_enough h.wild (by omega)
    (Q := fun r k' => ∃ d, r = some d ∧ room k' d + 1 = s.kmem.freelist.length ∧
      k'.wild = false ∧ KernelOnly d) fun d k' hr _ hw _ hd => ⟨d, rfl, hr, hw, hd⟩)) ?_
  rintro _ s₁ ⟨d, rfl, hroom, hw, hd⟩
  refine wp_copyLoop_enough hw (by omega) (fun u _ hu => ?_) (fun u _ hu => hd.user u (by omega))
    (by omega)
  obtain ⟨e, he, -⟩ := h.present u (by omega)
  exact Option.isSome_iff_exists.mpr ⟨e, he⟩

/-- A machine with 2000 free pages. -/
def someFree : Ram := ⟨⟨List.range' 5000 2000, false⟩, fun _ _ => 7⟩

theorem enough_someFree : npdentries + 3 < someFree.kmem.freelist.length := by
  rw [someFree, List.length_range', npdentries]
  decide

theorem parent_onePage : Parent bootLayout someFree onePage 4096 where
  wild := rfl
  nodup := List.nodup_range'
  good := fun (p : Nat) hp => by
    have hp := List.mem_range'_1.mp hp
    show 0x1154A8 ≤ p * 4096 ∧ p * 4096 < 0xE000000
    omega
  size := by decide
  present v hv := by
    have hone : pgroundup 4096 = 1 := rfl
    rw [hone, Nat.lt_one_iff] at hv
    refine ⟨_, by rw [pte_onePage, if_pos hv], fun hfree => ?_⟩
    exact absurd (List.mem_range'_1.mp hfree).1 (by decide)

/-- The copy of a parent with one page, for which there are enough free pages. -/
theorem copyuvm_copies_onePage : ∃ d s',
    copyuvm bootLayout onePage 4096 someFree = .ok (some d, s') ∧
    (∀ p ∉ someFree.kmem.freelist, s'.byte p = someFree.byte p) ∧
    IsCopy bootLayout someFree onePage 4096 d s' ∧
    ∀ d₀ s₀, setupkvm bootLayout someFree = .ok (some d₀, s₀) →
      ∀ u, userTop ≤ u → d.pte u = d₀.pte u := by
  have hfree : npdentries + pgroundup 4096 + 1 < someFree.kmem.freelist.length :=
    lt_trans (Nat.lt_succ_self _) enough_someFree
  obtain ⟨r, s', hrun, hsame, hr⟩ := copyuvm_copies parent_onePage
  obtain ⟨d, rfl⟩ := copyuvm_enough parent_onePage hfree hrun
  exact ⟨d, s', hrun, hsame, hr⟩

end Laboratorio.Xv6.Vm.Ram
