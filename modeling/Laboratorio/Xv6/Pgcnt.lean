import Laboratorio.Xv6.ExecArgs

/-!
# Counting the pages of a process (`sys_pgcnt` in `xv6/sysproc.c`)

`sys_pgcnt` goes over all entries of all page tables and counts those that are present and the user's.
An image that `exec` has built has a guard page below its stack, which is present but not the user's.
`fork` copies it with its permissions, and `sbrk` leaves it alone as long as the process does not get
smaller than it was after `exec` (`Lineage`). So the system call finds all pages below the size but
one (`sysPgcnt_lineage`).
-/

namespace Laboratorio.Xv6.Vm.Ram

open Laboratorio.Wp

/-! ## The system call -/

/-- The inner loop over the first `n` entries of a page table. -/
def countTable (t : Pt) (n cnt : Nat) : Nat :=
  (List.range n).foldl (fun cnt j => match t.pte j with
    | some e => if e.perm.u then cnt + 1 else cnt
    | none => cnt) cnt

/-- The outer loop over the first `n` entries of the page directory. -/
def countDir (d : Pgdir) (n : Nat) : Nat :=
  (List.range n).foldl (fun cnt i => match d.pde i with
    | some t => countTable t nptentries cnt
    | none => cnt) 0

/-- `sys_pgcnt` for a process with the page table `d` -/
def sysPgcnt (d : Pgdir) : Nat := countDir d npdentries

/-- The virtual page is present and the user's. -/
def userPte (d : Pgdir) (v : Nat) : Bool := (d.pte v).any fun e => e.perm.u

variable {x : Layout} {guard : Option Nat} {m : Multiset Page} {s s' : Ram} {d d' : Pgdir}
  {sz sz₀ : Nat}

theorem countTable_succ (t : Pt) (n cnt : Nat) :
    countTable t (n + 1) cnt =
      countTable t n cnt + if (t.pte n).any fun e => e.perm.u then 1 else 0 := by
  unfold countTable
  rw [List.range_succ, List.foldl_append, List.foldl_cons, List.foldl_nil]
  cases t.pte n with
  | none => rfl
  | some e =>
    rw [Option.any_some]
    by_cases hu : e.perm.u = true
    · simp only [hu, if_true]
    · simp only [hu, if_false, Nat.add_zero, Bool.false_eq_true]

theorem countDir_succ (d : Pgdir) (n : Nat) :
    countDir d (n + 1) = match d.pde n with
      | some t => countTable t nptentries (countDir d n)
      | none => countDir d n := by
  unfold countDir
  rw [List.range_succ, List.foldl_append]
  rfl

/-- The entries of one page table are consecutive virtual pages. -/
theorem pte_table {i j : Nat} (hj : j < nptentries) :
    d.pte (i * nptentries + j) = (d.pde i).bind fun t => t.pte j := by
  have hdiv : (i * nptentries + j) / nptentries = i := by
    simp only [nptentries] at hj ⊢
    omega
  have hmod : (i * nptentries + j) % nptentries = j := by
    simp only [nptentries] at hj ⊢
    omega
  rw [Pgdir.pte, hdiv, hmod]

/-- **The two loops** count the pages of the user. -/
theorem countDir_eq (d : Pgdir) (n : Nat) :
    countDir d n = Nat.count (fun v => userPte d v) (n * nptentries) := by
  induction n with
  | zero => rw [Nat.zero_mul, Nat.count_zero]; rfl
  | succ i ih =>
    -- the first `j` entries of the `i`-th table
    have hinner : ∀ t, d.pde i = some t → ∀ j ≤ nptentries,
        countTable t j (countDir d i) =
          Nat.count (fun v => userPte d v) (i * nptentries + j) := by
      intro t ht j hj
      induction j with
      | zero =>
        rw [Nat.add_zero]
        exact ih
      | succ j ihj =>
        have hentry : userPte d (i * nptentries + j) = (t.pte j).any fun e => e.perm.u := by
          rw [userPte, pte_table hj, ht, Option.bind_some]
        rw [countTable_succ, ihj (Nat.le_of_succ_le hj), ← Nat.add_assoc, Nat.count_succ, hentry]
    rw [countDir_succ, Nat.succ_mul]
    cases ht : d.pde i with
    | some t => exact hinner t ht nptentries le_rfl
    | none =>
      have hnone : Nat.count (fun k => userPte d (i * nptentries + k)) nptentries = 0 := by
        refine Nat.count_of_forall_not fun j hj hu => ?_
        rw [userPte, pte_table hj, ht] at hu
        cases hu
      rw [Nat.count_add, hnone]
      exact ih

/-- In an image with a guard page the user's pages are the other ones. -/
theorem sysPgcnt_built {g : Nat} (h : Built x (some g) m s d sz) :
    sysPgcnt d = pgroundup sz - 1 := by
  have hg := h.guard_lt g rfl
  have htop := pgroundup_le_userTop h.mapped.1.le
  have hall : userTop ≤ npdentries * nptentries := by
    simp only [userTop, kernbase, pgsize, npdentries, nptentries]
    omega
  have hiff : ∀ v, userPte d v = true ↔ v < pgroundup sz ∧ v ≠ g := by
    intro v
    by_cases hv : v < userTop
    · have hmapped := h.mapped.2 v hv
      cases he : d.pte v with
      | none =>
        rw [he] at hmapped
        simp only [userPte, he]
        grind
      | some e =>
        have hu := h.user v hv e he
        rw [he] at hmapped
        simp only [userPte, he]
        grind
    · have hkernel : userPte d v = false := by
        rw [userPte, h.kernel v (not_lt.mp hv)]
        cases he : kernelPte x v with
        | none => rfl
        | some e => exact user_kernelPte he
      rw [hkernel]
      grind
  have hfilter : (Finset.range (npdentries * nptentries)).filter (fun v => userPte d v = true) =
      (Finset.range (pgroundup sz)).erase g := by
    ext v
    rw [Finset.mem_filter, Finset.mem_range, Finset.mem_erase, Finset.mem_range, hiff]
    grind
  rw [sysPgcnt, countDir_eq, Nat.count_eq_card_filter_range, hfilter,
    Finset.card_erase_of_mem (Finset.mem_range.mpr hg), Finset.card_range]

/-! ## What the calls do to an image -/

/-- **`sbrk`** keeps the description of an image as long as the guard page is below the size. -/
theorem wp_growproc_built {n : Int} (h : Built x guard m s d sz) :
    wp (growproc x d sz n) (fun r s' => r.1 = true →
      (∀ g, guard = some g → g < pgroundup r.2.2) → Built x guard m s' r.2.1 r.2.2)
      (fun _ => False) s := by
  have hpure : ∀ (d' : Pgdir) (newsz : Nat) (s' : Ram), (newsz = 0 ∨
      ((∀ g, guard = some g → g < pgroundup newsz) → Built x guard m s' d' newsz)) →
      wp (pure (if newsz = 0 then (false, d', sz) else (true, d', newsz)) : R (Bool × Pgdir × Nat))
        (fun r s' => r.1 = true → (∀ g, guard = some g → g < pgroundup r.2.2) →
          Built x guard m s' r.2.1 r.2.2) (fun _ => False) s' := by
    intro d' newsz s' hor
    rw [wp_pure]
    split
    · exact nofun
    · next hne => exact fun _ => hor.resolve_left hne
  unfold growproc
  split
  · exact fun _ _ => h
  · rw [wp_bind]
    split
    · -- the process grows
      refine wp_post (wp_allocuvm_built h) (fun r s' hr => ?_)
      exact hpure r.1 r.2 s' (hr.2.imp_right fun hb _ => hb.1)
    · by_cases hlt : newSize sz n < sz
      · refine wp_post (wp_deallocuvm hlt h.mapped.1.le h.pages h.good) ?_
        rintro ⟨d', newsz⟩ s' ⟨hr, hpages, hwild, hpte, -⟩
        refine hpure d' newsz s' (.inr fun hg => ?_)
        simp only at hr hpages hpte
        rw [hr] at hg ⊢
        have hmono := pgroundup_mono hlt.le
        have hsz := h.mapped.1
        refine ⟨h.nodup, h.good, hwild.trans h.wild, hpages, ⟨hlt.trans hsz, fun v hv => ?_⟩, hg,
          fun v hv e he => ?_, fun u hu => ?_⟩
        · have hmapped := h.mapped.2 v hv
          have hbelow : v * pgsize < sz ↔ v < pgroundup sz := mul_pgsize_lt
          rw [hpte]
          split
          · next hfreed => simp [not_lt.mpr hfreed.1]
          · rw [hmapped]
            omega
        · rw [hpte] at he
          split at he
          · cases he
          · exact h.user v hv e he
        · rw [hpte, if_neg, h.kernel u hu]
          simp only [userTop, kernbase, pgsize] at hu hsz ⊢
          omega
      · -- the sum has wrapped around
        rw [deallocuvm, if_pos (not_lt.mp hlt)]
        exact hpure d sz s (.inr fun _ => h)

/-- A process with an image can fork. -/
theorem Built.parent (h : Built x guard m s d sz) : Parent x s d sz := by
  have hpages := h.pages
  have hnodup := h.nodup
  have htop := pgroundup_le_userTop h.mapped.1.le
  refine ⟨h.wild, ?_, fun p hp => h.good p ?_, h.mapped.1.le, fun v hv => ?_⟩
  · rw [← hpages] at hnodup
    exact Multiset.coe_nodup.mp (Multiset.nodup_add.mp hnodup).1
  · exact hpages ▸ Multiset.mem_add.mpr (.inl (Multiset.mem_coe.mpr hp))
  · obtain ⟨e, he⟩ := Option.isSome_iff_exists.mp (h.image.below v hv)
    exact ⟨e, he, not_free hpages hnodup (mem_pages (by omega) he)⟩

/-- **`fork`** makes an image with the same guard page. -/
theorem wp_copyuvm_built (h : Built x guard m s d sz) :
    wp (copyuvm x d sz) (fun r s' => ∀ d', r = some d' →
      Built x guard s.kmem.freelist s' d' sz) (fun _ => False) s := by
  have hparent := h.parent
  refine wp_post (wp_copyuvm hparent) ?_
  rintro r s' ⟨hwild, -, hr⟩ d' rfl
  have hsame : ∀ v < pgroundup sz, ∃ e e', d.pte v = some e ∧ d'.pte v = some e' ∧
      e'.perm = e.perm := by
    intro v hv
    obtain ⟨e, he⟩ := Option.isSome_iff_exists.mp (h.image.below v hv)
    obtain ⟨p, hp, -⟩ := hr.same v hv e he
    exact ⟨e, _, he, hp, rfl⟩
  refine ⟨Multiset.coe_nodup.mpr hparent.nodup, fun p hp => hparent.good p hp, hwild, hr.pages,
    ⟨h.mapped.1, fun v hv => ?_⟩, h.guard_lt, fun v hv e' he' => ?_, hr.kernel⟩
  · by_cases hlt : v < pgroundup sz
    · obtain ⟨e, e', -, he', -⟩ := hsame v hlt
      simp [he', hlt]
    · simp [hr.above v (not_lt.mp hlt) hv, hlt]
  · have hlt : v < pgroundup sz := by
      by_contra hge
      rw [hr.above v (not_lt.mp hge) hv] at he'
      cases he'
    obtain ⟨e, e'', he, he'', hperm⟩ := hsame v hlt
    rw [he''] at he'
    cases he'
    rw [hperm]
    exact h.user v hv e he

/-! ## Histories -/

/-- **The images that come from `exec`**, when the size after it was `sz₀`: the page table and the
size of a process and the state of the memory. -/
inductive Lineage (x : Layout) (sz₀ : Nat) : Ram → Pgdir → Nat → Prop
  /-- A process calls `exec`, which succeeds. -/
  | exec {w w' : Sys} {path : List UInt8} {file : Option Inode} {args : List (List UInt8)}
      (proper : Proper x w.ram w.proc.pgdir w.proc.sz)
      (run : Ram.exec x path file args w = .ok (true, w')) (size : w'.proc.sz = sz₀) :
      Lineage x sz₀ w'.ram w'.proc.pgdir w'.proc.sz
  /-- The child of a process. -/
  | fork {s s' : Ram} {d d' : Pgdir} {sz : Nat} (parent : Lineage x sz₀ s d sz)
      (run : copyuvm x d sz s = .ok (some d', s')) : Lineage x sz₀ s' d' sz
  /-- A process calls `sbrk`, which succeeds and leaves what `exec` has made. -/
  | sbrk {s s' : Ram} {d d' : Pgdir} {sz sz' : Nat} {n : Int} (before : Lineage x sz₀ s d sz)
      (run : growproc x d sz n s = .ok ((true, d', sz'), s')) (size : sz₀ ≤ sz') :
      Lineage x sz₀ s' d' sz'
  /-- Anything else, which does not change the page table of the process. -/
  | other {s s' : Ram} {d : Pgdir} {sz : Nat} (before : Lineage x sz₀ s d sz)
      (proper : Proper x s' d sz) : Lineage x sz₀ s' d sz

/-- **Each image of a history** has the guard page that `exec` made. -/
theorem Lineage.built (h : Lineage x sz₀ s d sz) :
    2 * pgsize ≤ sz₀ ∧ ∃ m, Built x (some (sz₀ / pgsize - 2)) m s d sz := by
  induction h with
  | exec proper run size =>
    obtain ⟨hstack, -⟩ := (wp_exec_success proper).ok run rfl
    rw [← size]
    exact ⟨hstack.two, _, hstack.built⟩
  | fork _ run ih =>
    obtain ⟨htwo, m, hb⟩ := ih
    exact ⟨htwo, _, (wp_copyuvm_built hb).ok run _ rfl⟩
  | sbrk _ run size ih =>
    obtain ⟨htwo, m, hb⟩ := ih
    refine ⟨htwo, m, (wp_growproc_built hb).ok run rfl fun g hg => ?_⟩
    -- the guard page is below the size after `exec`, so also below the new one
    refine lt_of_lt_of_le ?_ (pgroundup_mono size)
    rw [← Option.some.inj hg]
    simp only [pgroundup, pgsize] at htwo ⊢
    omega
  | other _ proper ih =>
    obtain ⟨htwo, m, hb⟩ := ih
    exact ⟨htwo, _, proper.nodup, proper.good, proper.wild, rfl, hb.mapped, hb.guard_lt, hb.user,
      hb.kernel⟩

/-- A process that has none of the 2000 pages from 10000 on may go on with these. -/
theorem Built.proper_range {g : Option Nat} {m : Multiset Page} (hb : Built bootLayout g m s d sz)
    (hlow : ∀ p : Nat, p ∈ d.pages → p < 10000) (byte : Page → Nat → UInt8) :
    Proper bootLayout ⟨⟨List.range' 10000 2000, false⟩, byte⟩ d sz := by
  have hfree : ∀ p : Nat, p ∈ List.range' 10000 2000 → 10000 ≤ p ∧ p < 12000 := fun p hp => by
    have := List.mem_range'_1.mp hp
    omega
  refine ⟨rfl, Multiset.nodup_add.mpr ⟨Multiset.coe_nodup.mpr List.nodup_range',
    (Multiset.nodup_add.mp (hb.pages ▸ hb.nodup)).2.1, Multiset.disjoint_left.mpr ?_⟩,
    fun (p : Nat) hp => ?_, hb.mapped.1, hb.mapped.2⟩
  · exact @fun (p : Nat) hp hown =>
      absurd (hfree p (Multiset.mem_coe.mp hp)).1 (Nat.not_le.mpr (hlow p hown))
  · rcases Multiset.mem_add.mp hp with h | h
    · have := hfree p (Multiset.mem_coe.mp h)
      show 0x1154A8 ≤ p * 4096 ∧ p * 4096 < 0xE000000
      omega
    · exact hb.good p (hb.pages ▸ Multiset.mem_add.mpr (.inr h))

/-- **`pgcnt` counts the pages of the process**: all of them except the guard page. -/
theorem sysPgcnt_lineage (h : Lineage x sz₀ s d sz) : sysPgcnt d = pgroundup sz - 1 := by
  obtain ⟨-, m, hb⟩ := h.built
  exact sysPgcnt_built hb

/-- A process calls `exec`, and forks when there are 2000 other free pages: both have the guard page
and a page for the stack. -/
theorem sysPgcnt_lineage_fork : ∃ w' s d' s',
    exec bootLayout [] (some emptyProgram) [] oneCaller = .ok (true, w') ∧
      copyuvm bootLayout w'.proc.pgdir w'.proc.sz s = .ok (some d', s') ∧
      sysPgcnt w'.proc.pgdir = 1 ∧ sysPgcnt d' = 1 := by
  obtain ⟨w', hrun, hsz⟩ : ∃ w', exec bootLayout [] (some emptyProgram) [] oneCaller =
      .ok (true, w') ∧ w'.proc.sz = 2 * pgsize :=
    exists_exec_empty proper_someFree enough_someFree (by decide) (by decide)
  have hlineage := Lineage.exec proper_someFree hrun rfl
  have hb := ((wp_exec_success proper_someFree).ok hrun rfl).1.built
  have hlow : ∀ p : Nat, p ∈ w'.proc.pgdir.pages → p < 10000 := fun p hp => by
    have hmem : p ∈ (someFree.kmem.freelist : Multiset Page) + onePage.pages :=
      hb.pages ▸ Multiset.mem_add.mpr (.inr hp)
    rw [pages_onePage] at hmem
    rcases Multiset.mem_add.mp hmem with h | h
    · have := List.mem_range'_1.mp (Multiset.mem_coe.mp h)
      omega
    · exact (by decide : ∀ q ∈ ({4096, 4097, 4098} : Multiset Nat), q < 10000) p h
  have hother := hlineage.other (hb.proper_range hlow w'.ram.byte)
  obtain ⟨-, m, hb₁⟩ := hother.built
  obtain ⟨r, s', hcopy, -⟩ := copyuvm_copies hb₁.parent
  have hfree : npdentries + pgroundup w'.proc.sz + 1 < (List.range' 10000 2000).length := by
    rw [hsz, List.length_range', npdentries]
    decide
  obtain ⟨d', rfl⟩ := copyuvm_enough hb₁.parent hfree hcopy
  have hone : pgroundup (2 * pgsize) - 1 = 1 := by decide
  refine ⟨w', _, d', s', hrun, hcopy, ?_, ?_⟩
  · rw [sysPgcnt_lineage hlineage, hsz, hone]
  · rw [sysPgcnt_lineage (hother.fork hcopy), hsz, hone]

end Laboratorio.Xv6.Vm.Ram
