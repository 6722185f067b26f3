import Laboratorio.Xv6.PageCalls
import Laboratorio.Xv6.VmEnough

/-!
# `exec` with a very long argument

When an argument is as long as the address space above the devices, the stack pointer of `exec` wraps
around to addresses for which there is no page-table page. `uva2ka` then takes the word at address 0
of the caller for a page-table entry, and `copyout` writes to the physical page that this word names.
If it names a free page, then the link of this page is overwritten, and all free pages after it are
lost (`wp_exec_wild`). A process can do this after boot (`exec_loses_page`).
-/

namespace Laboratorio.Xv6.Vm

open Function Laboratorio.Wp Laboratorio.Scan

variable {d : Pgdir} {k : Kmem} {x : Layout} {word : UInt32} {len : Nat} {l : List Page} {q y : Nat}

/-- The address that the argument is copied to is in the page before the devices. -/
def hole : Nat := devspace / pgsize / nptentries - 1

/-- The length of an argument that wraps around from a stack of two pages to the page before the
devices. -/
def wildLen : Nat := 3 * pgsize + argLimit - 1

/-- The first page is written by way of the word at address 0, and the second one is not found. -/
theorem wp_copyout_wild {sz : Nat} (h : Image d sz) (hhole : d.pde hole = none)
    (hword : wordPage word = some q) (hk : k.freelist = l ++ [q, y]) (hq : q ∉ l)
    (hlen : pgsize < len) :
    wp (copyout d (some word) (devspace - pgsize) len)
      (fun r k' => r = false ∧ k'.freelist = l ++ [q]) (fun _ => False) k := by
  have hv : (devspace - pgsize) / pgsize / nptentries = hole := by decide
  have hoff : (devspace - pgsize) % pgsize = 0 := by decide
  have hnext : ((devspace - pgsize) / pgsize + 1) * pgsize % 2 ^ 32 = devspace := by decide
  have hmin : min (pgsize - 0) len = pgsize := min_eq_left (by omega)
  have htake : k.freelist.takeWhile (· ≠ q) = l := by
    rw [hk, List.takeWhile_append_of_pos fun p hp => ?_]
    · simp
    · simp only [ne_eq, decide_eq_true_eq]
      rintro rfl
      exact hq hp
  have hmem : q ∈ k.freelist := by simp [hk]
  have hlong : 1 < len := lt_of_le_of_lt (by decide) hlen
  rw [copyout, dif_pos (by omega)]
  simp only [uva2ka, hv, hhole, hword, Option.elim_some, hoff, hnext, hmin, wp_bind, wp_pure,
    scribble, wp_get, wp_ite, wp_throw, wp_set]
  refine ⟨fun hno => absurd hmem hno, fun _ => ⟨fun _ => ?_, fun hno => absurd ⟨trivial, hlong⟩ hno⟩⟩
  refine wp_post (wp_copyout_devices h le_rfl (by decide) (by omega)) ?_
  rintro r k' ⟨rfl, rfl⟩
  exact ⟨rfl, by rw [← htake]⟩

theorem wp_pushArgs_wild {sz : Nat} (h : Image d sz) (hhole : d.pde hole = none)
    (hword : wordPage word = some q) (hk : k.freelist = l ++ [q, y]) (hq : q ∉ l) :
    wp (pushArgs d (some word) (2 * pgsize) 0 [wildLen])
      (fun r k' => r = false ∧ k'.freelist = l ++ [q]) (fun _ => False) k := by
  have hsp : (2 * pgsize + 2 ^ 32 - (wildLen + 1)) % 2 ^ 32 / 4 * 4 = devspace - pgsize := by decide
  have hargc : ¬ 0 ≥ maxarg := by decide
  simp only [pushArgs, if_neg hargc, hsp, wp_bind]
  refine wp_post (wp_copyout_wild h hhole hword hk hq (by decide)) ?_
  rintro r k' ⟨rfl, hk'⟩
  exact ⟨rfl, hk'⟩

/-- Enough of a list is left for its last pages. -/
theorem exists_append_of_suffix {xs : List Page} (h : xs <:+ l ++ [q, y]) (hlen : 2 ≤ xs.length) :
    ∃ l', xs = l' ++ [q, y] := by
  obtain ⟨l', hl'⟩ := List.suffix_of_suffix_length_le (List.suffix_append l [q, y]) h hlen
  exact ⟨l', hl'.symm⟩

variable {all : Multiset Page} {s : State} {p : Fin nproc}

section Fails

/- An argument that is not pushed; `Q` says what is written before that is found out. -/
variable {Q : Kmem → Kmem → Prop} {n : Nat}

/-- The new image fails when its argument is not pushed. -/
theorem wp_buildImage_fails (hw : k.wild = false) (h : KernelOnly d)
    (hroom : npdentries + n + 2 < room k d)
    (hpush : ∀ d' k', Image d' (2 * pgsize) → d'.pde hole = none → k'.freelist <:+ k.freelist →
      n ≤ k'.freelist.length → wp (pushArgs d' (some word) (2 * pgsize) 0 [len])
        (fun r k₂ => r = false ∧ Q k' k₂) (fun _ => False) k') :
    wp (buildImage x d (some word) [] [len]) (fun r k₂ => r.2 = none ∧ ∃ k₁ : Kmem, Q k₁ k₂ ∧
      (k₁.freelist : Multiset Page) + r.1.pages = k.freelist + d.pages) (fun _ => False) k := by
  have h0 : pgroundup 0 * pgsize = 0 := by decide
  have htwo : pgroundup (2 * pgsize) = pgroundup 0 + 2 := by decide
  have hne : 2 * pgsize ≠ 0 := by decide
  have hsz : 2 * pgsize < kernbase := by decide
  have hguard : 2 * pgsize / pgsize - 2 = 0 := by decide
  simp only [buildImage, loadSegments, buildStack, h0, Nat.zero_add, wp_bind, wp_pure]
  refine wp_allocuvm_enough hw (by decide) hsz (Nat.zero_le _) htwo (fun u _ hu => h.user u hu)
    (by omega) fun d₁ k₁ hr₁ hp₁ ha => ?_
  have himg := h.image.allocs (Nat.zero_le _) hsz (by rw [htwo, Nat.add_sub_cancel_left]; exact ha)
  -- the page-table page of the stack
  obtain ⟨t, ht⟩ := Option.isSome_iff_exists.mp (isSome_table (himg.below 0 (by decide)))
  have hclear := (wp_clearpteu (k := k₁) (by decide) himg : wp (clearpteu d₁ 0) _ _ _)
  simp only [if_neg hne, hguard, wp_bind]
  rw [clearpteu, ht] at hclear ⊢
  obtain ⟨hp₂, himg₂, -⟩ := hclear
  simp only [wp_pure]
  refine wp_post (hpush _ k₁ himg₂ ?_ ha.suffix ?_) ?_
  · rw [pde_setPte_of_ne (by decide), ha.tables hole fun u _ hu => ?_]
    · exact h.hole hole (by decide) (by decide)
    · have hfirst : pgroundup 0 = 0 := by decide
      have hhole : hole = 1015 := by decide
      rw [hfirst] at hu
      rw [hhole]
      simp only [nptentries]
      omega
  · have := tables_le d₁
    simp only [room] at hr₁ hroom
    omega
  · rintro r k₂ ⟨rfl, hk₂⟩
    refine ⟨rfl, k₁, hk₂, ?_⟩
    rw [← hp₁]
    exact congrArg _ hp₂

/-! ## Calls -/

/-- `exec` fails when its argument is not pushed, and frees the pages of the new image. -/
theorem wp_exec_fails {old : Pgdir} (h : Inv all s.ofile 0 s) (hall : ∀ page ∈ all, x.Holds page)
    (hold : (s.proc p).pgdir = some old) (hzero : (old.pte 0).isSome) (hsz : len < (s.proc p).sz)
    (hroom : npdentries + n + 3 < s.kmem.freelist.length)
    (hpush : ∀ d' k', Image d' (2 * pgsize) → d'.pde hole = none →
      k'.freelist <:+ s.kmem.freelist → n ≤ k'.freelist.length →
      wp (pushArgs d' (some word) (2 * pgsize) 0 [len]) (fun r k₂ => r = false ∧ Q k' k₂)
        (fun _ => False) k') :
    wp (exec x p (some []) [len] word) (fun _ s' => s'.owned = s.owned ∧ ∃ k₁ k₂ m, Q k₁ k₂ ∧
      (k₁.freelist : Multiset Page) + m = s.kmem.freelist ∧ (s'.kmem.freelist : Multiset Page) =
        k₂.freelist + m) (fun _ => False) s := by
  have hargs : ¬ ([len].length ≥ maxarg ∨ ∃ l ∈ [len], (s.proc p).sz ≤ l) := by
    simp only [List.mem_singleton, exists_eq_left, List.length_singleton, maxarg]
    omega
  obtain ⟨e, he⟩ := Option.isSome_iff_exists.mp hzero
  unfold exec
  rw [wp_bind]
  refine wp_pgdir hold ?_
  simp only [wp_bind, wp_get]
  rw [if_neg hargs, he]
  simp only [wp_bind, wp_mem]
  refine wp_setupkvm_enough h.wild (by omega) fun d k₀ hr₀ hp₀ hw₀ hs₀ hd => ?_
  simp only [wp_bind, wp_mem, Option.map_some]
  refine wp_post (wp_buildImage_fails hw₀ hd (by omega)
    fun d' k' hi hh hs' => hpush d' k' hi hh (hs'.trans hs₀)) ?_
  rintro ⟨d₂, _⟩ k₂ ⟨rfl, k₁, hk₂, hp₂⟩
  rw [hp₀] at hp₂
  have hgood : ∀ page ∈ d₂.pages, x.Holds page := fun page hpage => by
    refine hall page ?_
    rw [← h.accounted, ← hp₂]
    exact Multiset.mem_add.mpr (.inl (Multiset.mem_add.mpr (.inr hpage)))
  simp only [wp_bind, wp_mem, wp_pure]
  refine wp_mono wp_freevm_pages ?_ ?_
  · rintro - k₃ ⟨hp₃, -⟩
    exact ⟨rfl, k₁, k₂, d₂.pages, hk₂, hp₂, hp₃⟩
  · rintro e ⟨-, page, hpage, hbad⟩
    exact hbad (hgood page hpage)

end Fails

/-- **`exec` loses a page**: the last free page is neither free nor owned after it. -/
theorem wp_exec_wild {old : Pgdir} (h : Inv all s.ofile 0 s) (hall : ∀ page ∈ all, x.Holds page)
    (hold : (s.proc p).pgdir = some old) (hzero : (old.pte 0).isSome)
    (hsz : wildLen < (s.proc p).sz) (hword : word.toNat = q * pgsize + 5)
    (hk : s.kmem.freelist = l ++ [q, y]) (hroom : npdentries + 5 < s.kmem.freelist.length) :
    wp (exec x p (some []) [wildLen] word) (fun _ s' => y ∉ s'.kmem.freelist ∧ y ∉ s'.owned)
      (fun _ => False) s := by
  -- the free pages are distinct, and not owned
  have hnodup := h.nodup
  rw [← h.accounted, Multiset.nodup_add] at hnodup
  obtain ⟨hfree, -, hdis⟩ := hnodup
  have hyown : y ∉ s.owned := Multiset.disjoint_left.mp hdis (by simp [hk])
  refine wp_post (wp_exec_fails (n := 2) (Q := fun k₁ k₂ => ∃ l', k₁.freelist = l' ++ [q, y] ∧
    k₂.freelist = l' ++ [q]) h hall hold hzero hsz hroom fun d k' himg hhole hs hlen => ?_) ?_
  · -- the last two free pages are still free
    obtain ⟨l', hl'⟩ := exists_append_of_suffix (hk ▸ hs) hlen
    have hq : q ∉ l' := by
      have hnodup := hs.sublist.nodup (Multiset.coe_nodup.mp hfree)
      rw [hl'] at hnodup
      exact fun hq => (List.nodup_append.mp hnodup).2.2 q hq q (by simp) rfl
    have hpage := wordPage_eq hword (hall q (by rw [← h.accounted]; simp [hk])).2
    exact wp_post (wp_pushArgs_wild himg hhole hpage hl' hq) fun r k₂ h => ⟨h.1, l', hl', h.2⟩
  · rintro - s' ⟨hown, k₁, k₂, m, ⟨l', hl₁, hl₂⟩, hp, hp'⟩
    refine ⟨fun hy => ?_, hown ▸ hyown⟩
    have hone := Multiset.nodup_iff_count_le_one.mp hfree y
    have hpos := Multiset.count_pos.mpr (Multiset.mem_coe.mpr hy)
    rw [← hp, hl₁] at hone
    rw [hp', hl₂] at hpos
    simp only [Multiset.count_add, Multiset.coe_count, List.count_append, List.count_cons,
      List.count_nil, beq_self_eq_true, if_true] at hone hpos
    omega

/-- A process that has `n` user pages, the first of which is mapped. -/
structure Grown (s : State) (p : Fin nproc) (n : Nat) (d : Pgdir) : Prop where
  active : (s.proc p).state = .active
  pgdir : (s.proc p).pgdir = some d
  sz : (s.proc p).sz = n * pgsize
  zero : (d.pte 0).isSome
  above : ∀ u, n ≤ u → u < userTop → d.pte u = none

/-- `userinit` succeeds with more than `NPDENTRIES` pages. -/
theorem wp_userinit_enough {free kernel : List Page} (h : npdentries + 3 < free.length) :
    wp (userinit x) (fun _ s' => ∃ p d, Grown s' p 1 d ∧ s'.kmem.freelist <:+ free ∧
      room s'.kmem d + 3 = free.length) (fun _ => False) (State.start free kernel) := by
  obtain ⟨kstack, l, hl⟩ := List.exists_cons_of_ne_nil (l := free) fun hnil => by simp [hnil] at h
  obtain ⟨p, hp⟩ := exists_first (p := fun p : Fin nproc => decide
    (((State.start free kernel).proc p).state = .unused)) (i := initproc) rfl
  unfold userinit allocproc
  simp only [wp_bind, wp_get]
  rw [hp]
  simp only [wp_bind, modifyProc, wp_modify, wp_mem]
  refine wp_kalloc_cons hl ?_
  simp only [wp_bind, wp_modify, wp_pure, wp_mem, update_self, update_idem]
  have hwl : ({ (State.start free kernel).kmem with freelist := l } : Kmem).wild = false := rfl
  have hlen : free.length = l.length + 1 := by rw [hl, List.length_cons]
  have hsuf : l <:+ free := hl ▸ List.suffix_cons kstack l
  refine wp_setupkvm_enough hwl ?_ fun d k₁ hr₁ _ hw₁ hs₁ hd => ?_
  · show npdentries + 1 < l.length
    omega
  have hr₁ : room k₁ d + 1 = l.length := hr₁
  obtain ⟨page, l₁, hl₁⟩ := exists_free (k := k₁) (d := d) (by omega)
  simp only [wp_bind, wp_mem]
  refine wp_kalloc_cons hl₁ ?_
  have hwl₁ : ({ k₁ with freelist := l₁ } : Kmem).wild = false := hw₁
  have hzero : 0 < userTop := by decide
  have hroom : room { k₁ with freelist := l₁ } d + 1 = room k₁ d := by
    rw [room, room, hl₁, List.length_cons]
    show l₁.length + _ + 1 = _
    omega
  have hmap : mappages d 0 pgsize (page * pgsize) ⟨true, true⟩ =
      mappages d (0 * pgsize) pgsize (page * pgsize) ⟨true, true⟩ := by rw [Nat.zero_mul]
  simp only [wp_bind, wp_mem, hmap]
  refine wp_mappages_enough hwl₁ hzero (hd.user 0 hzero) (by omega) fun d' k' hr hw hs ho hi => ?_
  simp only [wp_ite, wp_modify, update_self, update_idem]
  refine ⟨(fun h => by cases h), fun _ => ⟨p, d', ⟨?_, ?_, ?_, by rw [hi]; rfl, fun u hlo hhi => ?_⟩, ?_, ?_⟩⟩
  · simp
  · simp
  · simp
  · rw [ho u (by omega)]
    exact hd.user u hhi
  · exact (hs.trans (hl₁ ▸ List.suffix_cons page l₁)).trans (hs₁.trans hsuf)
  · show room k' d' + 3 = _
    omega

/-- `sbrk` of `n` pages succeeds with more than `NPDENTRIES` pages besides them. -/
theorem wp_growproc_enough {m n : Nat} (h : Grown s p m d) (hw : s.kmem.wild = false) (hm : 0 < m)
    (hn : 0 < n) (htop : m + n < userTop) (hroom : npdentries + n < room s.kmem d) :
    wp (growproc x p (n * pgsize : Nat)) (fun _ s' => ∃ d', Grown s' p (m + n) d' ∧
      s'.kmem.freelist <:+ s.kmem.freelist ∧ room s'.kmem d' + n = room s.kmem d)
      (fun _ => False) s := by
  have hpos : 0 < n * pgsize := Nat.mul_pos hn (by decide)
  have hne : 0 < (m + n) * pgsize := Nat.mul_pos (by omega) (by decide)
  have hup : ∀ j, pgroundup (j * pgsize) = j := fun j => by
    simp only [pgroundup, pgsize]
    omega
  have hlt : (m + n) * pgsize < kernbase := by
    simp only [userTop, kernbase, pgsize] at htop ⊢
    omega
  have hnew : (((s.proc p).sz + (n * pgsize : Nat) : Int) % 2 ^ 32).toNat = (m + n) * pgsize := by
    rw [h.sz]
    simp only [kernbase, pgsize] at hlt ⊢
    omega
  unfold growproc
  rw [wp_bind]
  refine wp_pgdir h.pgdir ?_
  simp only [wp_bind, wp_get]
  rw [if_neg (by omega)]
  simp only [wp_bind, wp_mem, hnew]
  rw [if_pos (by omega), h.sz]
  refine wp_allocuvm_enough hw hne hlt (Nat.mul_le_mul_right _ (Nat.le_add_right m n))
    (by rw [hup, hup]) (fun u hlo hhi => h.above u (hup m ▸ hlo) hhi) hroom fun d' k' hr _ ha => ?_
  rw [hup] at ha
  simp only [modifyProc, wp_modify]
  rw [if_neg hne.ne']
  simp only [wp_bind, wp_modify, wp_pure, update_self, update_idem]
  refine ⟨d', ⟨by simpa using h.active, by simp, by simp, ?_, fun u hlo hhi => ?_⟩, ha.suffix, hr⟩
  · rw [ha.outside 0 (by omega)]
    exact h.zero
  · rw [ha.outside u (by omega)]
    exact h.above u (by omega) hhi

/-! ## After boot -/

/-- The pages of `kpgdir`, which are taken before `kinit2`. -/
def bootKernel : List Page := List.range' 0x3BF 65

/-- The free list when `userinit` is called: `kinit2` has put the pages above 4 MiB in front of what
is left of those of `kinit1`. -/
def bootFree : List Page := (List.range' 0x400 0xDC00).reverse ++ (List.range' 0x116 0x2A9).reverse

theorem mem_bootFree {page : Nat} :
    page ∈ bootFree ↔ 0x116 ≤ page ∧ page < 0xE000 ∧ ¬ (0x3BF ≤ page ∧ page < 0x400) := by
  simp only [bootFree, List.mem_append, List.mem_reverse, List.mem_range'_1]
  omega

theorem length_bootFree : bootFree.length = 57001 := by
  simp [bootFree]

theorem bootFree_eq : ∃ l, bootFree = l ++ [0x117, 0x116] := by
  refine ⟨(List.range' 0x400 0xDC00).reverse ++ (List.range' 0x118 0x2A7).reverse, ?_⟩
  have hfirst : List.range' 0x116 0x2A9 = 0x116 :: 0x117 :: List.range' 0x118 0x2A7 := rfl
  rw [bootFree, hfirst]
  simp

theorem nodup_boot : (bootFree ++ bootKernel).Nodup := by
  have hsplit : ∀ a ∈ (List.range' 0x400 0xDC00).reverse, ∀ b ∈ (List.range' 0x116 0x2A9).reverse,
      a ≠ b := fun a ha b hb => by
    simp only [List.mem_reverse, List.mem_range'_1] at ha hb
    omega
  refine List.nodup_append.mpr ⟨List.nodup_append.mpr ⟨List.nodup_reverse.mpr List.nodup_range',
    List.nodup_reverse.mpr List.nodup_range', hsplit⟩, List.nodup_range', ?_⟩
  rintro page hfree _ hkernel rfl
  have hfree := mem_bootFree.mp hfree
  have hkernel := List.mem_range'_1.mp hkernel
  omega

theorem holds_boot {page : Nat} (h : page ∈ bootFree ++ bootKernel) : bootLayout.Holds page := by
  have hrange : 0x116 ≤ page ∧ page < 0xE000 := by
    rcases List.mem_append.mp h with h | h
    · exact ⟨(mem_bootFree.mp h).1, (mem_bootFree.mp h).2.1⟩
    · have := List.mem_range'_1.mp h
      omega
  show 0x1154A8 ≤ page * 4096 ∧ page * 4096 < 0xE000000
  omega

/-- The first process after boot. -/
theorem exists_boot : ∃ s p d, userinit bootLayout (State.start bootFree bootKernel) = .ok ((), s) ∧
    Grown s p 1 d ∧ s.kmem.freelist <:+ bootFree ∧ room s.kmem d + 3 = 57001 := by
  have hlarge : npdentries + 3 < bootFree.length := by
    rw [length_bootFree]
    unfold npdentries
    decide
  have hinit : wp (userinit bootLayout) (fun _ s => ∃ p d, Grown s p 1 d ∧
      s.kmem.freelist <:+ bootFree ∧ room s.kmem d + 3 = bootFree.length) (fun _ => False)
      (State.start bootFree bootKernel) := wp_userinit_enough hlarge
  obtain ⟨⟨⟩, s, hrun, p, d, hgrown, hsuf, hroom⟩ := hinit.exists_ok
  exact ⟨s, p, d, hrun, hgrown, hsuf, length_bootFree ▸ hroom⟩

/-- The pages that the first process asks for, so that the argument is in its memory. -/
def wildPages : Nat := (wildLen + 1) / pgsize

/-- The first process after it has asked for memory. -/
theorem exists_sbrk : ∃ s p d s', userinit bootLayout (State.start bootFree bootKernel) = .ok ((), s) ∧
    call bootLayout p (.sbrk (wildPages * pgsize : Nat)) s = .ok ((), s') ∧
    Grown s' p (1 + wildPages) d ∧ s'.kmem.freelist <:+ bootFree ∧
    npdentries + 5 < s'.kmem.freelist.length := by
  obtain ⟨s, p, d, hrun, hgrown, hsuf, hroom⟩ := exists_boot
  have hn : npdentries = 1024 := by unfold npdentries; rfl
  have hpages : wildPages = 8195 := by decide
  have hinv := (wp_userinit (Inv.start nodup_boot) fun _ => rfl).ok hrun
  obtain ⟨ok, s', hrun', d', hgrown', hsuf', hroom'⟩ := (wp_growproc_enough (x := bootLayout)
    (n := wildPages) hgrown hinv.wild Nat.one_pos (by omega)
    (by rw [hpages]; decide) (by omega)).exists_ok
  refine ⟨s, p, d', s', hrun, ?_, hgrown', hsuf'.trans hsuf, ?_⟩
  · have hcall : wp (call bootLayout p (.sbrk (wildPages * pgsize : Nat)))
        (fun _ s₁ => s₁ = s') (fun _ => False) s := by
      simp only [call, wp_bind, wp_get, wp_ite, wp_throw, wp_pure]
      exact ⟨fun hne => absurd hgrown.active hne, fun _ => wp_of_ok hrun' rfl⟩
    obtain ⟨⟨⟩, s₁, hok, rfl⟩ := hcall.exists_ok
    exact hok
  · have := tables_le d'
    simp only [room] at hroom' hroom
    omega

theorem wp_call_exec {phs : Option (List Ph)} {args : List Nat} {Q : State → Prop} {E : Fault → Prop}
    (hp : (s.proc p).state = .active) (h : wp (exec x p phs args word) (fun _ => Q) E s) :
    wp (call x p (.exec phs args word)) (fun _ => Q) E s := by
  simp only [call, wp_bind, wp_get, wp_ite, wp_throw, wp_pure]
  exact ⟨fun hne => absurd hp hne, fun _ => h⟩

/-- **A process can lose a page** after boot: it asks for memory, and calls `exec` with an argument
of a little more than 32 MiB and the number of the last free page but one in its first word. -/
theorem exec_loses_page : ∃ s₀ s₁ s₂ p,
    userinit bootLayout (State.start bootFree bootKernel) = .ok ((), s₀) ∧
    call bootLayout p (.sbrk (wildPages * pgsize : Nat)) s₀ = .ok ((), s₁) ∧
    call bootLayout p (.exec (some []) [wildLen] 0x117005) s₁ = .ok ((), s₂) ∧
    ¬ s₂.Accounted (bootFree ++ bootKernel) := by
  obtain ⟨s₀, p, d, s₁, hboot, hsbrk, hgrown, hsuf, hlen⟩ := exists_sbrk
  have hinv₀ := (wp_userinit (Inv.start nodup_boot) fun _ => rfl).ok hboot
  have hinv := (wp_call (c := .sbrk _) hinv₀ trivial).ok hsbrk
  obtain ⟨l, hl⟩ : ∃ l, s₁.kmem.freelist = l ++ [0x117, 0x116] := by
    obtain ⟨l₀, hl₀⟩ := bootFree_eq
    exact exists_append_of_suffix (hl₀ ▸ hsuf) (by omega)
  have hsz : wildLen < (s₁.proc p).sz := by
    rw [hgrown.sz]
    decide
  have hexec : wp (exec bootLayout p (some []) [wildLen] 0x117005)
      (fun _ s₂ => 0x116 ∉ s₂.kmem.freelist ∧ 0x116 ∉ s₂.owned) (fun _ => False) s₁ :=
    wp_exec_wild hinv (fun page hpage => holds_boot (Multiset.mem_coe.mp hpage)) hgrown.pgdir
      hgrown.zero hsz (by decide : _ = 0x117 * pgsize + 5) hl hlen
  obtain ⟨⟨⟩, s₂, hok, hfree, hown⟩ := (wp_call_exec hgrown.active hexec).exists_ok
  refine ⟨s₀, s₁, s₂, p, hboot, hsbrk, hok, fun hacc => ?_⟩
  have hmem : 0x116 ∈ bootFree ++ bootKernel :=
    List.mem_append.mpr (.inl (mem_bootFree.mpr (by omega)))
  rcases hacc 0x116 hmem with ⟨hone, -⟩ | ⟨-, hone⟩
  · exact hfree (List.count_pos_iff.mp (hone ▸ Nat.one_pos))
  · exact hown (Multiset.count_pos.mp (hone ▸ Nat.one_pos))

/-- After the first of these calls the process calls `exec` with an argument that is too long for the
stack, but not for the addresses of the devices: the call fails, and the pages are accounted for. -/
theorem pages_owned_exec : ∃ s₀ s₁ s₂ p,
    userinit bootLayout (State.start bootFree bootKernel) = .ok ((), s₀) ∧
    call bootLayout p (.sbrk (wildPages * pgsize : Nat)) s₀ = .ok ((), s₁) ∧
    call bootLayout p (.exec (some []) [3 * pgsize] 0x117005) s₁ = .ok ((), s₂) ∧
    s₂.Accounted (bootFree ++ bootKernel) := by
  obtain ⟨s₀, p, d, s₁, hboot, hsbrk, hgrown, -, hlen⟩ := exists_sbrk
  have hreach : Reachable bootLayout bootFree bootKernel Call.Short s₁ :=
    .step (.init hboot) ⟨p, .sbrk _, trivial, hsbrk⟩
  have hsp : (2 * pgsize + 2 ^ 32 - (3 * pgsize + 1)) % 2 ^ 32 / 4 * 4 = 2 ^ 32 - pgsize - 4 := by
    decide
  have hexec : wp (exec bootLayout p (some []) [3 * pgsize] 0x117005) (fun _ _ => True)
      (fun _ => False) s₁ := by
    refine wp_post (wp_exec_fails (n := 2) (Q := Eq) (Inv.reachable nodup_boot hreach)
      (fun page hpage => holds_boot (Multiset.mem_coe.mp hpage)) hgrown.pgdir hgrown.zero
      (by rw [hgrown.sz]; decide) hlen fun d' k' himg _ _ _ => ?_) fun _ _ _ => trivial
    simp only [pushArgs, if_neg (show ¬ 0 ≥ maxarg by decide), hsp, wp_bind]
    refine wp_post (wp_copyout_devices himg (by decide) (by decide) (by omega)) ?_
    rintro r k₂ ⟨rfl, rfl⟩
    exact ⟨rfl, rfl⟩
  obtain ⟨⟨⟩, s₂, hok, -⟩ := (wp_call_exec hgrown.active hexec).exists_ok
  have hshort : Call.Short (.exec (some []) [3 * pgsize] 0x117005) := fun len hmem => by
    rw [List.mem_singleton.mp hmem]
    decide
  exact ⟨s₀, s₁, s₂, p, hboot, hsbrk, hok,
    (pages_owned nodup_boot (hreach.step ⟨p, _, hshort, hok⟩)).1⟩

end Laboratorio.Xv6.Vm
