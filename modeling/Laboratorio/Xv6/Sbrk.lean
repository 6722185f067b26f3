import Laboratorio.Xv6.ProcMem
import Laboratorio.Xv6.WildExec

/-!
# Growing and shrinking a process (`growproc` in `xv6/proc.c`)

The functions of `vm.c` once more, with the contents of the pages: `allocuvm` clears the pages that it
maps, and `kfree` fills the pages that it takes with junk. Without the contents they are the functions
of `Vm`, and `growproc` is the one of `ProcMem` (`growproc_eq`).

What a process sees of its memory is a partial function on addresses, `view`. `AllOrNothing` is what
`sbrk` promises about it; it holds except when a process with memory is shrunk to size zero or below
(`growproc_allOrNothing_iff`): the size zero is taken for an error after all pages have been freed,
and below zero the sum wraps around and nothing is done, without an error.
-/

namespace Laboratorio.Xv6.Vm

open Function Laboratorio.Wp

/-- The allocator and the contents of all pages; the links of the free list, which are at the start of
free pages, are in `kmem` only. -/
structure Ram where
  kmem : Kmem
  byte : Page → Nat → UInt8

namespace Ram

abbrev R := StateT Ram (Except Fault)

/-- A function that does not touch the contents of pages. -/
def onKmem {α : Type} (f : K α) : R α := fun s =>
  match f s.kmem with
  | .ok (a, k) => .ok (a, { s with kmem := k })
  | .error e => .error e

/-- `memset` of a whole page -/
def memset (p : Page) (c : UInt8) : R Unit :=
  modify fun s => { s with byte := update s.byte p fun _ => c }

/-- `kfree` -/
def kfree (x : Layout) (p : Page) : R Unit := do
  onKmem (Vm.kfree x p)
  memset p 1

/-- The loop of `deallocuvm` from virtual page `v` on. -/
def deallocLoop (x : Layout) (oldsz : Nat) (d : Pgdir) (v : Nat) : R Pgdir :=
  if _h : v * pgsize < oldsz then
    match d.pde (v / nptentries) with
    | none => deallocLoop x oldsz d ((v / nptentries + 1) * nptentries)
    | some t =>
      match t.pte (v % nptentries) with
      | none => deallocLoop x oldsz d (v + 1)
      | some e => do
        if e.page = 0 then
          throw .kfree
        kfree x e.page
        deallocLoop x oldsz (d.setPte v none) (v + 1)
  else return d
termination_by oldsz - v
decreasing_by
  all_goals
    simp only [pgsize, nptentries] at _h ⊢
    omega

/-- `deallocuvm` -/
def deallocuvm (x : Layout) (d : Pgdir) (oldsz newsz : Nat) : R (Pgdir × Nat) :=
  if newsz ≥ oldsz then return (d, oldsz)
  else do
    let d ← deallocLoop x oldsz d (pgroundup newsz)
    return (d, newsz)

/-- The loop of `allocuvm` for `n` pages from `v` on. -/
def allocLoop (x : Layout) (oldsz newsz : Nat) : Pgdir → (v n : Nat) → R (Pgdir × Nat)
  | d, _, 0 => return (d, newsz)
  | d, v, n + 1 => do
    match ← onKmem kalloc with
    | none => do
      let r ← deallocuvm x d newsz oldsz
      return (r.1, 0)
    | some mem => do
      memset mem 0
      let r ← onKmem (mappages d (v * pgsize) pgsize (mem * pgsize) ⟨true, true⟩)
      if r.2 then allocLoop x oldsz newsz r.1 (v + 1) n
      else do
        let r ← deallocuvm x r.1 newsz oldsz
        kfree x mem
        return (r.1, 0)

/-- `allocuvm` -/
@[irreducible] def allocuvm (x : Layout) (d : Pgdir) (oldsz newsz : Nat) : R (Pgdir × Nat) :=
  if newsz ≥ kernbase then return (d, 0)
  else if newsz < oldsz then return (d, oldsz)
  else allocLoop x oldsz newsz d (pgroundup oldsz) (pgroundup newsz - pgroundup oldsz)

/-- `sz + n` in 32 bits -/
def newSize (sz : Nat) (n : Int) : Nat := ((sz + n) % 2 ^ 32).toNat

/-- `growproc`, for a process with the page table `d` and the size `sz`: whether it succeeds, and the
page table and the size of the process after it. -/
def growproc (x : Layout) (d : Pgdir) (sz : Nat) (n : Int) : R (Bool × Pgdir × Nat) :=
  if n = 0 then return (true, d, sz)
  else do
    let r ← (if 0 < n then allocuvm x d sz (newSize sz n) else deallocuvm x d sz (newSize sz n))
    return if r.2 = 0 then (false, r.1, sz) else (true, r.1, r.2)

/-! ## Without the contents -/

variable {α β : Type} {x : Layout} {d d' : Pgdir} {s s' : Ram} {v : Nat}

/-- A program is another one when the contents of pages are forgotten. -/
def Forgets (f : R α) (g : K α) : Prop :=
  ∀ s, (f s).map (fun r => (r.1, r.2.kmem)) = g s.kmem

theorem Forgets.pure (a : α) : Forgets (pure a : R α) (pure a) := fun _ => rfl

theorem Forgets.throw (e : Fault) : Forgets (throw e : R α) (throw e) := fun _ => rfl

theorem Forgets.onKmem (f : K α) : Forgets (onKmem f) f := fun s => by
  unfold Ram.onKmem
  cases f s.kmem with
  | ok r => rfl
  | error e => rfl

theorem Forgets.bind {f : R α} {g : K α} {f' : α → R β} {g' : α → K β} (h : Forgets f g)
    (h' : ∀ a, Forgets (f' a) (g' a)) : Forgets (f >>= f') (g >>= g') := by
  intro s
  show ((f s >>= fun r => f' r.1 r.2).map fun r => (r.1, r.2.kmem)) = (g s.kmem >>= fun r => g' r.1 r.2)
  rw [← h s]
  cases f s with
  | ok r => exact h' r.1 r.2
  | error e => rfl

theorem Forgets.memset (p : Page) (c : UInt8) : Forgets (memset p c) (Pure.pure ()) := fun _ => rfl

theorem Forgets.memset_bind {p : Page} {c : UInt8} {f : Unit → R α} {g : K α}
    (h : Forgets (f ()) g) : Forgets (Ram.memset p c >>= f) g := fun _ => h _

theorem forgets_kfree (p : Page) : Forgets (kfree x p) (Vm.kfree x p) := by
  have hunit : Vm.kfree x p = Vm.kfree x p >>= fun _ => Pure.pure () := (bind_pure _).symm
  rw [hunit]
  exact (Forgets.onKmem _).bind fun _ => .memset p 1

theorem forgets_deallocLoop (oldsz : Nat) (d : Pgdir) (v : Nat) :
    Forgets (deallocLoop x oldsz d v) (Vm.deallocLoop x oldsz d v) := by
  induction hleft : oldsz - v using Nat.strongRecOn generalizing v d with
  | _ left ih =>
    rw [deallocLoop, Vm.deallocLoop]
    split
    · next hlt =>
      have hvold : v < oldsz := lt_of_le_of_lt (Nat.le_mul_of_pos_right v (by decide)) hlt
      cases hpde : d.pde (v / nptentries) with
      | none =>
        have hnext : v < (v / nptentries + 1) * nptentries := by
          simp only [nptentries]
          omega
        exact ih (oldsz - (v / nptentries + 1) * nptentries) (by omega) d _ rfl
      | some t =>
        cases hpte : t.pte (v % nptentries) with
        | none => simpa only [hpte] using ih (oldsz - (v + 1)) (by omega) d _ rfl
        | some e =>
          have hrest : Forgets
              (kfree x e.page >>= fun _ => deallocLoop x oldsz (d.setPte v none) (v + 1))
              (Vm.kfree x e.page >>= fun _ =>
                Vm.deallocLoop x oldsz (d.setPte v none) (v + 1)) :=
            (forgets_kfree e.page).bind fun _ => ih (oldsz - (v + 1)) (by omega) _ _ rfl
          simp only [hpte]
          split
          · exact .bind (.throw _) fun _ => hrest
          · exact hrest
    · exact .pure d

theorem forgets_deallocuvm (d : Pgdir) (oldsz newsz : Nat) :
    Forgets (deallocuvm x d oldsz newsz) (Vm.deallocuvm x d oldsz newsz) := by
  unfold deallocuvm Vm.deallocuvm
  split
  · exact .pure _
  · exact (forgets_deallocLoop oldsz d _).bind fun _ => .pure _

theorem forgets_allocLoop (oldsz newsz : Nat) (d : Pgdir) (v n : Nat) :
    Forgets (allocLoop x oldsz newsz d v n) (Vm.allocLoop x oldsz newsz d v n) := by
  induction n generalizing d v with
  | zero => exact .pure _
  | succ n ih =>
    unfold allocLoop Vm.allocLoop
    refine (Forgets.onKmem _).bind fun r => ?_
    cases r with
    | none => exact (forgets_deallocuvm d newsz oldsz).bind fun _ => .pure _
    | some mem =>
      refine .memset_bind ((Forgets.onKmem _).bind fun r => ?_)
      split
      · exact ih r.1 (v + 1)
      · exact (forgets_deallocuvm r.1 newsz oldsz).bind fun _ =>
          (forgets_kfree mem).bind fun _ => .pure _

theorem forgets_allocuvm (d : Pgdir) (oldsz newsz : Nat) :
    Forgets (allocuvm x d oldsz newsz) (Vm.allocuvm x d oldsz newsz) := by
  unfold allocuvm Vm.allocuvm
  split
  · exact .pure _
  · split
    · exact .pure _
    · exact forgets_allocLoop oldsz newsz d _ _

/-- **`growproc` is the one of `ProcMem`**, for a process with the page table `d`. -/
theorem growproc_eq {st : State} {p : Fin nproc} (hd : (st.proc p).pgdir = some d)
    (byte : Page → Nat → UInt8) (n : Int) :
    Vm.growproc x p n st = (growproc x d (st.proc p).sz n ⟨st.kmem, byte⟩).map fun r =>
      (r.1.1, { st with
        kmem := r.2.kmem
        proc := update st.proc p { st.proc p with pgdir := some r.1.2.1, sz := r.1.2.2 } }) := by
  have hpgdir : pgdir p st = .ok (d, st) := by
    simp only [pgdir, bind, StateT.bind, get, getThe, MonadStateOf.get, StateT.get, pure, Except.pure,
      Except.bind, hd, StateT.pure]
  have hself : { st.proc p with pgdir := some d } = st.proc p := by rw [← hd]
  unfold growproc Vm.growproc
  by_cases hn : n = 0
  · simp [hn, bind, StateT.bind, hpgdir, Except.bind, get, getThe, MonadStateOf.get, StateT.get, pure,
      Except.pure, StateT.pure, Except.map, hself]
  · have hf : Forgets (if 0 < n then allocuvm x d (st.proc p).sz (newSize (st.proc p).sz n)
        else deallocuvm x d (st.proc p).sz (newSize (st.proc p).sz n))
        (if 0 < n then Vm.allocuvm x d (st.proc p).sz (newSize (st.proc p).sz n)
        else Vm.deallocuvm x d (st.proc p).sz (newSize (st.proc p).sz n)) := by
      split
      · exact forgets_allocuvm _ _ _
      · exact forgets_deallocuvm _ _ _
    have hrun := hf ⟨st.kmem, byte⟩
    simp only [if_neg hn, newSize, bind, StateT.bind, hpgdir, Except.bind, get, getThe,
      MonadStateOf.get, StateT.get, pure, Except.pure, mem] at hrun ⊢
    rw [← hrun]
    cases (if 0 < n then allocuvm x d (st.proc p).sz (((st.proc p).sz + n) % 2 ^ 32).toNat
        else deallocuvm x d (st.proc p).sz (((st.proc p).sz + n) % 2 ^ 32).toNat) ⟨st.kmem, byte⟩ with
    | error e => rfl
    | ok r =>
      obtain ⟨⟨d', sz'⟩, s'⟩ := r
      by_cases hsz : sz' = 0
      · simp only [Except.map, hsz, if_true]
        rfl
      · simp only [Except.map, if_neg hsz, modifyProc, bind, StateT.bind, modify, modifyGet,
          MonadStateOf.modifyGet, StateT.modifyGet, Except.bind, pure, Except.pure, update_self,
          update_idem]
        rfl

/-! ## Contents -/

@[simp]
theorem wp_onKmem {f : K α} {Q : α → Ram → Prop} {E : Fault → Prop} :
    wp (onKmem f) Q E s ↔ wp f (fun a k => Q a { s with kmem := k }) E s.kmem := by
  unfold wp onKmem
  cases f s.kmem with
  | ok r => rfl
  | error e => rfl

/-- The program that a program forgets to tells what becomes of the allocator. -/
theorem Forgets.wp {f : R α} {g : K α} (h : Forgets f g) {Q : α → Kmem → Prop} {E : Fault → Prop}
    (hg : wp g Q E s.kmem) : wp f (fun a s' => Q a s'.kmem) E s := by
  unfold Laboratorio.Wp.wp at hg ⊢
  rw [← h s] at hg
  cases hf : f s with
  | ok r =>
    rw [hf] at hg
    exact hg
  | error e =>
    rw [hf] at hg
    exact hg

/-- A page whose contents `deallocuvm` changes is on the free list afterwards. -/
theorem wp_deallocLoop_byte {oldsz : Nat} : wp (deallocLoop x oldsz d v) (fun _ s' =>
    (∀ q ∈ s.kmem.freelist, q ∈ s'.kmem.freelist) ∧
      ∀ q, s'.byte q = s.byte q ∨ q ∈ s'.kmem.freelist) (fun _ => True) s := by
  induction hleft : oldsz - v using Nat.strongRecOn generalizing v d s with
  | _ left ih =>
    rw [deallocLoop]
    split
    · next hlt =>
      have hvold : v < oldsz := lt_of_le_of_lt (Nat.le_mul_of_pos_right v (by decide)) hlt
      split
      · have hnext : v < (v / nptentries + 1) * nptentries := by
          simp only [nptentries]
          omega
        exact ih (oldsz - (v / nptentries + 1) * nptentries) (by omega) rfl
      · split
        · exact ih (oldsz - (v + 1)) (by omega) rfl
        · next e _ =>
          simp only [wp_bind, wp_ite, wp_throw, kfree, wp_onKmem, Vm.kfree, wp_modify, memset]
          refine ⟨fun _ => trivial, fun _ => ⟨fun _ => trivial, fun _ => ?_⟩⟩
          refine wp_post (ih (oldsz - (v + 1)) (by omega) rfl) ?_
          rintro d' s' ⟨hfree, hbyte⟩
          refine ⟨fun q hq => hfree q (List.mem_cons_of_mem _ hq), fun q => ?_⟩
          by_cases hq : q = e.page
          · exact .inr (hq ▸ hfree _ List.mem_cons_self)
          · exact (hbyte q).imp_left fun h => h.trans (update_of_ne hq ..)
    · exact ⟨fun _ hq => hq, fun _ => .inl rfl⟩

/-- **`deallocuvm`** unmaps pages; the contents of the others stay. -/
theorem wp_deallocuvm {oldsz newsz : Nat} {m : Multiset Page} (hlt : newsz < oldsz)
    (hsz : oldsz ≤ kernbase) (hm : (s.kmem.freelist : Multiset Page) + d.pages = m)
    (hgood : ∀ p ∈ m, x.Holds p) :
    wp (deallocuvm x d oldsz newsz) (fun r s' => r.2 = newsz ∧
      (s'.kmem.freelist : Multiset Page) + r.1.pages = m ∧ s'.kmem.wild = s.kmem.wild ∧
      (∀ u, r.1.pte u = if pgroundup newsz ≤ u ∧ u * pgsize < oldsz then none else d.pte u) ∧
      ∀ q, s'.byte q = s.byte q ∨ q ∈ s'.kmem.freelist) (fun _ => False) s := by
  have hpages : ∀ q ∈ d.pages, q ∈ m := fun q hq => hm ▸ Multiset.mem_add.mpr (.inr hq)
  unfold deallocuvm
  rw [if_neg (not_le.mpr hlt), wp_bind]
  refine wp_mono (wp_and ((forgets_deallocLoop oldsz d _).wp (Vm.wp_deallocLoop hsz hpages))
    wp_deallocLoop_byte) ?_ ?_
  · rintro d' s' ⟨⟨hpages', hwild, -, hpte, -⟩, -, hbyte⟩
    exact ⟨rfl, hpages'.trans hm, hwild, hpte, hbyte⟩
  · rintro e ⟨⟨-, p, hp, hbad⟩, -⟩
    exact hbad (hgood p hp)

/-- `mappages` for a page of the user where nothing is mapped. -/
theorem wp_mappages_unmapped {k : Kmem} {perm : Perm} {p : Page} (hw : k.wild = false)
    (hv : v < userTop) (hnone : d.pte v = none) {Q : Pgdir × Bool → Kmem → Prop}
    {E : Fault → Prop} (hfail : Q (d, false) k)
    (hok : ∀ d' k', (k'.freelist : Multiset Page) + d'.pages = k.freelist + d.pages + {p} →
      k'.wild = false → k'.freelist <:+ k.freelist → (∀ u, u ≠ v → d'.pte u = d.pte u) →
      d'.pte v = some ⟨p, perm⟩ → Q (d', true) k') :
    wp (mappages d (v * pgsize) pgsize (p * pgsize) perm) Q E k := by
  have hpos : 0 < pgsize := by decide
  have hv20 : v < 2 ^ 20 := lt_of_lt_of_le hv (by decide)
  have hn : (v * pgsize + pgsize - 1) / pgsize + 1 - v * pgsize / pgsize = 1 := by
    simp only [pgsize]
    omega
  rw [mappages, hn, Nat.mul_div_cancel _ hpos, Nat.mul_div_cancel _ hpos]
  unfold mapLoop
  rw [wp_bind]
  refine wp_walkpgdir hw hv20 (fun _ => hfail) fun d₁ k₁ hp₁ hw₁ hs₁ ht₁ he₁ _ _ => ?_
  have hfree : ¬(d₁.pte v).isSome := by rw [he₁, hnone]; simp
  simp only [wp_bind, wp_ite, wp_throw]
  refine ⟨fun h => absurd h hfree, fun _ => hok _ _ ?_ hw₁ hs₁ (fun u hu => ?_) ?_⟩
  · have hset := pages_setPte (e := some ⟨p, perm⟩) hv20 ht₁
    rw [he₁, hnone, ownAt, ownAt, if_pos hv, if_pos hv, own, own, add_zero] at hset
    rw [hset, ← add_assoc, hp₁]
  · rw [pte_setPte ht₁, if_neg hu, he₁]
  · rw [pte_setPte ht₁, if_pos rfl]

/-- A page that is mapped is not free. -/
theorem not_free {k : Kmem} {m : Multiset Page} (hm : (k.freelist : Multiset Page) + d.pages = m)
    (hnodup : m.Nodup) {q : Page} (hq : q ∈ d.pages) : q ∉ k.freelist := by
  rw [← hm] at hnodup
  obtain ⟨-, -, hdisjoint⟩ := Multiset.nodup_add.mp hnodup
  exact fun hfree => Multiset.disjoint_left.mp hdisjoint (Multiset.mem_coe.mpr hfree) hq

/-- What `allocuvm` has done: it has mapped pages of zeros, or it has failed and unmapped them. -/
structure Allocated (d : Pgdir) (s : Ram) (oldsz newsz v n : Nat) (m : Multiset Page)
    (r : Pgdir × Nat) (s' : Ram) : Prop where
  pages : (s'.kmem.freelist : Multiset Page) + r.1.pages = m
  byte : ∀ q, s'.byte q = s.byte q ∨ q ∈ s.kmem.freelist ∨ q ∈ s'.kmem.freelist
  result : (r.2 = newsz ∧ (∀ u, u < v ∨ v + n ≤ u → r.1.pte u = d.pte u) ∧
      ∀ u, v ≤ u → u < v + n → ∃ e, r.1.pte u = some e ∧ s'.byte e.page = fun _ => 0) ∨
    r.2 = 0 ∧ ∀ u, r.1.pte u =
      if pgroundup oldsz ≤ u ∧ u * pgsize < newsz then none else d.pte u

theorem wp_allocLoop {oldsz newsz n : Nat} {m : Multiset Page} (hw : s.kmem.wild = false)
    (hm : (s.kmem.freelist : Multiset Page) + d.pages = m) (hnodup : m.Nodup)
    (hgood : ∀ p ∈ m, x.Holds p) (hsz : newsz ≤ kernbase) (hv : pgroundup oldsz ≤ v)
    (hn : v + n = pgroundup newsz) (hnone : ∀ u, v ≤ u → u < userTop → d.pte u = none) :
    wp (allocLoop x oldsz newsz d v n) (Allocated d s oldsz newsz v n m) (fun _ => False) s := by
  have htop := pgroundup_le_userTop hsz
  induction n generalizing v d s with
  | zero =>
    exact ⟨hm, fun _ => .inl rfl, .inl ⟨rfl, fun _ _ => rfl, fun u hu hlt => absurd hlt (by omega)⟩⟩
  | succ n ih =>
    have hlt : oldsz < newsz := by
      have : pgroundup oldsz < pgroundup newsz := by omega
      simp only [pgroundup, pgsize] at this
      omega
    unfold allocLoop
    rw [wp_bind, wp_onKmem]
    refine wp_kalloc hw (fun _ => ?_) fun mem l hl => ?_
    · show wp (deallocuvm x d newsz oldsz >>= _) _ _ _
      refine wp_then (wp_deallocuvm hlt hsz hm hgood) ?_
      rintro r s' ⟨-, hpages, -, hpte, hbyte⟩
      exact ⟨hpages, fun q => (hbyte q).imp_right .inr, .inr ⟨rfl, hpte⟩⟩
    · have hvt : v < userTop := by omega
      have hvnone := hnone v le_rfl hvt
      rw [hl] at hm
      -- the page is not mapped, and on the free list only once
      have hfresh : mem ∉ l ∧ mem ∉ d.pages := by
        rw [← hm, ← Multiset.cons_coe, Multiset.cons_add, Multiset.nodup_cons] at hnodup
        simpa using hnodup.1
      have hwl : ({ s.kmem with freelist := l } : Kmem).wild = false := hw
      show wp (memset mem 0 >>= _) _ _ _
      rw [wp_bind, memset, wp_modify, wp_bind, wp_onKmem]
      refine wp_mappages_unmapped (k := { s.kmem with freelist := l }) hwl hvt hvnone ?_
        fun d₁ k₁ hp₁ hw₁ hs₁ ho₁ hi₁ => ?_
      · simp only [Bool.false_eq_true, if_false, wp_bind]
        have hm₁ : ∀ p ∈ (l : Multiset Page) + d.pages, x.Holds p := fun p hp =>
          hgood p (by rw [← hm, coe_cons_add]; exact Multiset.mem_add.mpr (.inl hp))
        have hmem : x.Holds mem := hgood mem (by rw [← hm, coe_cons_add]; simp)
        refine wp_post (wp_deallocuvm hlt hsz rfl hm₁) ?_
        rintro r s₂ ⟨-, hpages, -, hpte, hbyte⟩
        simp only [kfree, wp_bind, wp_onKmem, Vm.kfree, wp_ite, wp_throw, wp_modify, memset, wp_pure]
        refine ⟨fun hbad => ?_, fun _ => ⟨?_, fun q => ?_, .inr ⟨rfl, hpte⟩⟩⟩
        · rcases hbad with hlow | hhigh
          · exact absurd hmem.1 (not_le.mpr hlow)
          · exact absurd hmem.2 (not_lt.mpr hhigh)
        · show ((mem :: s₂.kmem.freelist : List Page) : Multiset Page) + r.1.pages = m
          rw [coe_cons_add, hpages, ← hm, coe_cons_add]
        · by_cases hq : q = mem
          · exact .inr (.inr (hq ▸ List.mem_cons_self))
          · rcases hbyte q with h | h
            · exact .inl ((update_of_ne hq ..).trans (h.trans (update_of_ne hq ..)))
            · exact .inr (.inr (List.mem_cons_of_mem _ h))
      · simp only [if_true]
        have hm₁ : (k₁.freelist : Multiset Page) + d₁.pages = m := by
          rw [hp₁, ← hm, coe_cons_add]
        refine wp_post (ih (s := ⟨k₁, update s.byte mem fun _ => 0⟩) hw₁ hm₁ (by omega)
          (by omega) fun u hu hut => ?_) (fun r s' h => ⟨h.pages, fun q => ?_, ?_⟩)
        · rw [ho₁ u (by omega)]
          exact hnone u (by omega) hut
        · by_cases hq : q = mem
          · exact .inr (.inl (by rw [hl, hq]; exact List.mem_cons_self))
          · rcases h.byte q with hb | hb | hb
            · exact .inl (hb.trans (update_of_ne hq ..))
            · exact .inr (.inl (by rw [hl]; exact List.mem_cons_of_mem _ (hs₁.subset hb)))
            · exact .inr (.inr hb)
        · rcases h.result with ⟨hr, hout, hin⟩ | ⟨hr, hpte⟩
          · refine .inl ⟨hr, fun u hu => ?_, fun u hlo hhi => ?_⟩
            · rw [hout u (by omega), ho₁ u (by omega)]
            · by_cases huv : u = v
              · have hpte : r.1.pte v = some ⟨mem, ⟨true, true⟩⟩ := by
                  rw [hout v (by omega), hi₁]
                refine ⟨_, huv ▸ hpte, ?_⟩
                rcases h.byte mem with hb | hb | hb
                · exact hb.trans (update_self ..)
                · exact absurd (hs₁.subset hb) hfresh.1
                · exact absurd hb (not_free h.pages hnodup (mem_pages hvt hpte))
              · exact hin u (by omega) (by omega)
          · refine .inr ⟨hr, fun u => ?_⟩
            rw [hpte]
            by_cases huv : u = v
            · rw [huv, if_pos ⟨hv, mul_pgsize_lt.mpr (by omega)⟩,
                if_pos ⟨hv, mul_pgsize_lt.mpr (by omega)⟩]
            · rw [ho₁ u huv]

/-! ## `growproc` -/

/-- What a process sees at an address. -/
def view (d : Pgdir) (byte : Page → Nat → UInt8) (a : Nat) : Option UInt8 :=
  (d.pte (a / pgsize)).map fun e => byte e.page (a % pgsize)

theorem isSome_view (byte : Page → Nat → UInt8) (a : Nat) :
    (view d byte a).isSome = (d.pte (a / pgsize)).isSome := by
  simp [view]

/-- What `sbrk` promises for a process of size `sz` that sees its memory as `f`: when it returns 0,
the size is `sz'` and the process sees `f'`, with zeros where there was nothing before; when it
returns -1 nothing has changed. -/
def AllOrNothing (sz : Nat) (n : Int) (f : Nat → Option UInt8) (ok : Bool) (sz' : Nat)
    (f' : Nat → Option UInt8) : Prop :=
  (ok = true ∧ (sz' : Int) = sz + n ∧ sz' < kernbase ∧
    (∀ a < kernbase, (f' a).isSome ↔ a / pgsize < pgroundup sz') ∧
    (∀ a, a < sz → a < sz' → f' a = f a) ∧
    ∀ a < kernbase, f a = none → (f' a).isSome → f' a = some 0) ∨
  (ok = false ∧ sz' = sz ∧ ∀ a < kernbase, f' a = f a)

/-- A process and the pages of the machine: its pages are no one else's and not free, and they are
mapped from 0 up to its size. -/
structure Proper (x : Layout) (s : Ram) (d : Pgdir) (sz : Nat) : Prop where
  wild : s.kmem.wild = false
  nodup : ((s.kmem.freelist : Multiset Page) + d.pages).Nodup
  good : ∀ p ∈ (s.kmem.freelist : Multiset Page) + d.pages, x.Holds p
  size : sz < kernbase
  present : ∀ v < userTop, (d.pte v).isSome ↔ v < pgroundup sz

theorem div_lt_userTop' {a : Nat} (ha : a < kernbase) : a / pgsize < userTop := by
  simp only [userTop, kernbase, pgsize] at ha ⊢
  omega

/-- A page that is mapped before and after a call is seen unchanged. -/
theorem view_eq {a : Nat} {sz : Nat} (h : Proper x s d sz) (ha : a < kernbase)
    (hpages : (s'.kmem.freelist : Multiset Page) + d'.pages = s.kmem.freelist + d.pages)
    (hbyte : ∀ q, s'.byte q = s.byte q ∨ q ∈ s.kmem.freelist ∨ q ∈ s'.kmem.freelist)
    (hpte : d'.pte (a / pgsize) = d.pte (a / pgsize)) :
    view d' s'.byte a = view d s.byte a := by
  have hu := div_lt_userTop' ha
  unfold view
  rw [hpte]
  cases he : d.pte (a / pgsize) with
  | none => rfl
  | some e =>
    have hold : e.page ∉ s.kmem.freelist := not_free rfl h.nodup (mem_pages hu he)
    have hnew : e.page ∉ s'.kmem.freelist :=
      not_free hpages h.nodup (mem_pages hu (hpte.trans he))
    rw [Option.map_some, Option.map_some,
      (hbyte e.page).resolve_right fun h => h.elim hold hnew]

theorem pgroundup_of_lt {a sz : Nat} (h : a < sz) : a / pgsize < pgroundup sz := by
  simp only [pgroundup, pgsize]
  omega

/-- Growing a process. -/
theorem wp_allocuvm {sz newsz : Nat} (h : Proper x s d sz) (hlt : sz < newsz) :
    wp (allocuvm x d sz newsz) (fun r s' => if r.2 = 0 then
        AllOrNothing sz (newsz - sz) (view d s.byte) false sz (view r.1 s'.byte)
      else AllOrNothing sz (newsz - sz) (view d s.byte) true r.2 (view r.1 s'.byte))
      (fun _ => False) s := by
  unfold allocuvm
  split
  · exact .inr ⟨rfl, rfl, fun _ _ => rfl⟩
  · next hk =>
    rw [not_le] at hk
    rw [if_neg (by omega)]
    have hle := pgroundup_mono hlt.le
    have hnone : ∀ u, pgroundup sz ≤ u → u < userTop → d.pte u = none := fun u hu hut => by
      have := (h.present u hut).not.mpr (by omega)
      simpa using this
    refine wp_post (wp_allocLoop h.wild rfl h.nodup h.good hk.le le_rfl (by omega) hnone) ?_
    rintro r s' ⟨hpages, hbyte, ⟨hr, hout, hin⟩ | ⟨hr, hpte⟩⟩
    · rw [if_neg (by omega)]
      have hpresent : ∀ a < kernbase,
          (view r.1 s'.byte a).isSome ↔ a / pgsize < pgroundup newsz := by
        intro a ha
        have hu := div_lt_userTop' ha
        rw [isSome_view]
        by_cases hmid : pgroundup sz ≤ a / pgsize ∧ a / pgsize < pgroundup newsz
        · obtain ⟨e, he, -⟩ := hin _ hmid.1 (by omega)
          rw [he]
          simp [hmid.2]
        · rw [hout _ (by omega), h.present _ hu]
          omega
      refine .inl ⟨rfl, by omega, by omega, hr ▸ hpresent, fun a ha _ => ?_, fun a ha hf hf' => ?_⟩
      · refine view_eq h (by have := h.size; omega) hpages hbyte (hout _ (.inl ?_))
        exact pgroundup_of_lt ha
      · -- where nothing was mapped there is a page of zeros now
        have hold : ¬a / pgsize < pgroundup sz := by
          rw [← h.present _ (div_lt_userTop' ha), ← isSome_view s.byte, hf]
          simp
        obtain ⟨e, he, hzero⟩ := hin _ (not_lt.mp hold) (by have := (hpresent a ha).mp hf'; omega)
        rw [view, he, Option.map_some, hzero]
    · rw [if_pos hr]
      refine .inr ⟨rfl, rfl, fun a ha => view_eq h ha hpages hbyte ?_⟩
      rw [hpte]
      split
      · next hu => rw [hnone _ hu.1 (div_lt_userTop' ha)]
      · rfl

/-- Shrinking a process. -/
theorem wp_deallocuvm_view {sz newsz : Nat} (h : Proper x s d sz) (hlt : newsz < sz) :
    wp (deallocuvm x d sz newsz) (fun r s' => r.2 = newsz ∧
      AllOrNothing sz (newsz - sz) (view d s.byte) true newsz (view r.1 s'.byte))
      (fun _ => False) s := by
  refine wp_post (wp_deallocuvm hlt h.size.le rfl h.good) ?_
  rintro r s' ⟨hr, hpages, -, hpte, hbyte⟩
  refine ⟨hr, .inl ⟨rfl, by omega, by have := h.size; omega, fun a ha => ?_, fun a _ ha => ?_,
    fun a ha hf hf' => ?_⟩⟩
  · have hu := div_lt_userTop' ha
    have hpresent := h.present _ hu
    have hle := pgroundup_mono hlt.le
    have hlast : a / pgsize * pgsize < sz ↔ a / pgsize < pgroundup sz := mul_pgsize_lt
    rw [isSome_view, hpte]
    split
    · next hfreed => simp [not_lt.mpr hfreed.1]
    · rw [hpresent]
      omega
  · refine view_eq h (by have := h.size; omega) hpages (fun q => (hbyte q).imp_right .inr) ?_
    rw [hpte, if_neg]
    have := pgroundup_of_lt ha
    omega
  · -- no page is new
    rw [isSome_view, hpte] at hf'
    split at hf'
    · cases hf'
    · rw [← isSome_view s.byte, hf] at hf'
      cases hf'

/-! ### The cases of `growproc` -/

section Cases

variable {sz : Nat} {n : Int} {Q : Bool × Pgdir × Nat → Ram → Prop}

theorem growproc_zero (h : Proper x s d sz) :
    wp (growproc x d sz 0) (fun r s' =>
      AllOrNothing sz 0 (view d s.byte) r.1 r.2.2 (view r.2.1 s'.byte)) (fun _ => False) s := by
  refine .inl ⟨rfl, (add_zero _).symm, h.size, fun a ha => ?_, fun _ _ _ => rfl, fun a _ hf hf' => ?_⟩
  · rw [isSome_view]
    exact h.present _ (div_lt_userTop' ha)
  · replace hf' : (view d s.byte a).isSome := hf'
    rw [hf] at hf'
    cases hf'

theorem growproc_pos (h : Proper x s d sz) (hn : 0 < n ∧ n < 2 ^ 31) :
    wp (growproc x d sz n) (fun r s' =>
      AllOrNothing sz n (view d s.byte) r.1 r.2.2 (view r.2.1 s'.byte)) (fun _ => False) s := by
  have hsize : (sz : Int) < 2 ^ 31 := by exact_mod_cast h.size
  have hnewsz : newSize sz n = (sz + n).toNat := by
    rw [newSize, Int.emod_eq_of_lt (by omega) (by omega)]
  unfold growproc
  rw [if_neg (by omega), wp_bind, if_pos hn.1, hnewsz]
  refine wp_post (wp_allocuvm h (by omega)) (fun r s' hr => ?_)
  rw [show (((sz + n).toNat : Nat) : Int) - sz = n by omega] at hr
  rw [wp_pure]
  split at hr
  · next hr0 =>
    rw [if_pos hr0]
    exact hr
  · next hr0 =>
    rw [if_neg hr0]
    exact hr

/-- A negative `n` that leaves something, or just nothing, is given to `deallocuvm`. -/
theorem growproc_neg (h : Proper x s d sz) (hn : n < 0 ∧ 0 ≤ sz + n)
    (hQ : ∀ d' s', AllOrNothing sz n (view d s.byte) true (sz + n).toNat (view d' s'.byte) →
      Q (if sz + n = 0 then (false, d', sz) else (true, d', (sz + n).toNat)) s') :
    wp (growproc x d sz n) Q (fun _ => False) s := by
  have hsize : (sz : Int) < 2 ^ 31 := by exact_mod_cast h.size
  have hnewsz : newSize sz n = (sz + n).toNat := by
    rw [newSize, Int.emod_eq_of_lt (by omega) (by omega)]
  unfold growproc
  rw [if_neg (by omega), wp_bind, if_neg (by omega), hnewsz]
  refine wp_post (wp_deallocuvm_view h (by omega)) (fun r s' hr => ?_)
  obtain ⟨hr, hview⟩ := hr
  rw [show (((sz + n).toNat : Nat) : Int) - sz = n by omega] at hview
  have hzero : (sz + n).toNat = 0 ↔ sz + n = 0 := by omega
  rw [wp_pure, hr]
  simp only [hzero]
  exact hQ _ _ hview

/-- Below zero the sum wraps around, and nothing is done. -/
theorem growproc_below (h : Proper x s d sz) (hn : -2 ^ 31 ≤ n ∧ sz + n < 0)
    (hQ : Q (if sz = 0 then (false, d, sz) else (true, d, sz)) s) :
    wp (growproc x d sz n) Q (fun _ => False) s := by
  have hsize : (sz : Int) < 2 ^ 31 := by exact_mod_cast h.size
  have hnewsz : newSize sz n ≥ sz := by
    rw [newSize, ← Int.add_emod_right, Int.emod_eq_of_lt (by omega) (by omega)]
    omega
  unfold growproc deallocuvm
  rw [if_neg (by omega), wp_bind, if_neg (by omega), if_pos hnewsz]
  exact hQ

end Cases

/-- **`sbrk` is all or nothing**, unless it shrinks a process that has memory to size zero or
below. -/
theorem growproc_allOrNothing_iff {sz : Nat} (h : Proper x s d sz) (n : Int)
    (hn : -2 ^ 31 ≤ n ∧ n < 2 ^ 31) : ∃ ok d' sz' s',
      growproc x d sz n s = .ok ((ok, d', sz'), s') ∧
      (AllOrNothing sz n (view d s.byte) ok sz' (view d' s'.byte) ↔ sz = 0 ∨ 0 < sz + n) := by
  have hwp : wp (growproc x d sz n) (fun r s' =>
      AllOrNothing sz n (view d s.byte) r.1 r.2.2 (view r.2.1 s'.byte) ↔ sz = 0 ∨ 0 < sz + n)
      (fun _ => False) s := by
    rcases lt_trichotomy n 0 with hneg | rfl | hpos
    · by_cases hbelow : (sz : Int) + n < 0
      · refine growproc_below h ⟨hn.1, hbelow⟩ ?_
        by_cases hsz : sz = 0
        · rw [if_pos hsz]
          exact iff_of_true (.inr ⟨rfl, rfl, fun _ _ => rfl⟩) (.inl hsz)
        · rw [if_neg hsz]
          refine iff_of_false ?_ (by omega)
          rintro (⟨-, hsame, -⟩ | ⟨hok, -⟩)
          · exact absurd hsame (by simp only; omega)
          · cases hok
      · refine growproc_neg h ⟨hneg, not_lt.mp hbelow⟩ fun d' s' hview => ?_
        by_cases hzero : (sz : Int) + n = 0
        · -- the size zero is taken for an error, and the first page is gone
          rw [if_pos hzero]
          refine iff_of_false ?_ (by omega)
          rintro (⟨hok, -⟩ | ⟨-, -, hsame⟩)
          · cases hok
          · have hfirst := hsame 0 (by decide)
            obtain ⟨-, -, -, hpresent, -⟩ | ⟨hok, -⟩ := hview
            · have hold : (view d s.byte 0).isSome := by
                rw [isSome_view, h.present _ (by decide)]
                simp only [pgroundup, pgsize]
                omega
              have hnew := (hpresent 0 (by decide)).mp (hfirst ▸ hold)
              rw [hzero] at hnew
              exact absurd hnew (by decide)
            · cases hok
        · rw [if_neg hzero]
          exact iff_of_true hview (by omega)
    · exact wp_post (growproc_zero h) (fun _ _ hr => iff_of_true hr (by omega))
    · exact wp_post (growproc_pos h ⟨hpos, hn.2⟩) (fun _ _ hr => iff_of_true hr (by omega))
  obtain ⟨⟨ok, d', sz'⟩, s', hrun, hiff⟩ := hwp.exists_ok
  exact ⟨ok, d', sz', s', hrun, hiff⟩

/-! ### A process of one page -/

/-- A page table with a page-table page and one page. -/
def onePage : Pgdir :=
  Pgdir.setPte ⟨4096, update (fun _ => none) 0 (some ⟨4097, fun _ => none⟩)⟩ 0
    (some ⟨4098, ⟨true, true⟩⟩)

theorem pte_onePage (v : Nat) :
    onePage.pte v = if v = 0 then some ⟨4098, ⟨true, true⟩⟩ else none := by
  rw [onePage, pte_setPte rfl]
  split
  · rfl
  · rw [Pgdir.pte]
    by_cases hv : v / nptentries = 0
    · rw [hv]
      rfl
    · simp only [update_of_ne hv, Option.bind_none]

theorem pages_onePage : onePage.pages = {4096, 4097, 4098} := by
  have hempty : Pgdir.pages ⟨4096, fun _ => none⟩ = {4096} := by simp [Pgdir.pages, slot]
  have htable := pages_update (d := ⟨4096, fun _ => none⟩) (i := 0) (by decide +kernel)
    (some ⟨4097, fun _ => none⟩)
  have hpage := pages_setPte (v := 0) (e := some ⟨4098, ⟨true, true⟩⟩)
    (d := ⟨4096, update (fun _ => none) 0 (some ⟨4097, fun _ => none⟩)⟩)
    (by decide) rfl
  have huser : Pt.user ⟨4097, fun _ => none⟩ = 0 := by simp [Pt.user, own]
  have hnone : Pgdir.pte ⟨4096, update (fun _ => none) 0 (some ⟨4097, fun _ => none⟩)⟩ 0 =
    none := rfl
  simp only [hempty, slot, huser, ite_self, add_zero] at htable
  rw [hnone, htable, ownAt, ownAt, if_pos (by decide), if_pos (by decide), own, own, add_zero] at hpage
  rw [onePage, hpage]
  rfl

/-- A machine with no free page. -/
def noFree : Ram := ⟨⟨[], false⟩, fun _ _ => 7⟩

theorem proper_onePage : Proper bootLayout noFree onePage 4096 where
  wild := rfl
  nodup := by rw [pages_onePage]; decide
  good := by
    rw [pages_onePage]
    unfold Layout.Holds
    decide
  size := by decide
  present v _ := by
    rw [pte_onePage]
    have hone : pgroundup 4096 = 1 := rfl
    rw [hone, Nat.lt_one_iff]
    split <;> simp_all

/-- A machine with one free page. -/
def oneFree : Ram := ⟨⟨[4099], false⟩, fun _ _ => 7⟩

/-- The process grows by the free page. -/
theorem growproc_allOrNothing_iff_onePage : ∃ d' s',
    growproc bootLayout onePage 4096 4096 oneFree = .ok ((true, d', 8192), s') ∧
      AllOrNothing 4096 4096 (view onePage oneFree.byte) true 8192 (view d' s'.byte) := by
  have hproper : Proper bootLayout oneFree onePage 4096 := by
    refine ⟨rfl, ?_, ?_, proper_onePage.size, proper_onePage.present⟩
    · rw [pages_onePage]
      decide
    · rw [pages_onePage]
      unfold Layout.Holds
      decide
  have hresult : (growproc bootLayout onePage 4096 4096 oneFree).toOption.map
      (fun r => (r.1.1, r.1.2.2)) = some (true, 8192) := by
    decide +kernel
  obtain ⟨ok, d', sz', s', hrun, hiff⟩ := growproc_allOrNothing_iff hproper 4096 (by decide)
  rw [hrun] at hresult
  obtain ⟨rfl, rfl⟩ := Prod.mk.inj (Option.some.inj hresult)
  exact ⟨d', s', hrun, hiff.mpr (.inr (by decide))⟩

/-- Shrunk by its size the process loses its page, and it is told that the call has failed; shrunk
by more it is told that the call has succeeded, and it keeps its size. -/
theorem growproc_shrink_all : Proper bootLayout noFree onePage 4096 ∧
    (∃ d' s', growproc bootLayout onePage 4096 (-4096) noFree = .ok ((false, d', 4096), s') ∧
      view onePage noFree.byte 0 = some 7 ∧ view d' s'.byte 0 = none ∧
      ¬AllOrNothing 4096 (-4096) (view onePage noFree.byte) false 4096 (view d' s'.byte)) ∧
    growproc bootLayout onePage 4096 (-8192) noFree = .ok ((true, onePage, 4096), noFree) ∧
      ¬AllOrNothing 4096 (-8192) (view onePage noFree.byte) true 4096 (view onePage noFree.byte) := by
  have hold : view onePage noFree.byte 0 = some 7 := by
    rw [view, pte_onePage]
    rfl
  have hzero : wp (growproc bootLayout onePage 4096 (-4096)) (fun r s' =>
      r.1 = false ∧ r.2.2 = 4096 ∧ view r.2.1 s'.byte 0 = none) (fun _ => False) noFree := by
    refine growproc_neg proper_onePage (by decide) fun d' s' hview => ⟨rfl, rfl, ?_⟩
    obtain ⟨-, -, -, hpresent, -⟩ | ⟨hok, -⟩ := hview
    · have hnone := (hpresent 0 (by decide)).not.mpr (by decide)
      simpa using hnone
    · cases hok
  refine ⟨proper_onePage, ?_, ?_, ?_⟩
  · obtain ⟨⟨ok, d', sz'⟩, s', hrun, rfl, rfl, hnone⟩ := hzero.exists_ok
    refine ⟨d', s', hrun, hold, hnone, ?_⟩
    rintro (⟨hok, -⟩ | ⟨-, -, hsame⟩)
    · cases hok
    · rw [hsame 0 (by decide), hold] at hnone
      cases hnone
  · rfl
  · rintro (⟨-, hsz, -⟩ | ⟨hok, -⟩)
    · exact absurd hsz (by decide)
    · cases hok

end Ram

end Laboratorio.Xv6.Vm
