import Laboratorio.Lib.Memory
import Laboratorio.Xv6.ForkMemory

/-!
# Copying to user addresses (`uva2ka` and `copyout` in `xv6/vm.c`)

`copyout` writes to an address space that is not the current one, page by page, and asks `uva2ka` for
the physical page. `uva2ka` does not look whether `walkpgdir` has found a page-table page. When there
is none, the word at address 0 of the current process is taken for the entry, and `copyout` writes
wherever this word points.

`WritesUserPages` says what `copyout` is there for. It holds just when there is a page-table page for
every address up to the first one that is not the user's (`copyout_writesUserPages_iff`). The image
that `exec` builds has addresses without one, and the stack pointer gets there when an argument is
long enough (`copyout_hole`).
-/

namespace Laboratorio.Xv6.Vm.Ram

open Function Laboratorio.Wp Laboratorio.Bytes Laboratorio.Memory

/-- `memmove` of some bytes to a page -/
def memmove (p : Page) (off : Nat) (bytes : List UInt8) : R Unit :=
  modify fun s => { s with
    byte := update s.byte p fun o =>
      if off ≤ o ∧ o < off + bytes.length then bytes.getD (o - off) 0 else s.byte p o }

/-- What `uva2ka` finds: no page, the page of an entry, or the page that the word at address 0 names
as if it were an entry. -/
inductive Dest where
  | none
  | user (p : Page)
  | wild (p : Page)

/-- `uva2ka`, when `cur` is the page table of the current process -/
def uva2ka (cur d : Pgdir) (v : Nat) : R Dest :=
  match d.pde (v / nptentries) with
  | none => do
    let s ← get
    match cur.pte 0 with
    | none => throw .pageFault
    | some e => return (wordPage (load u32 0 (s.byte e.page))).elim .none .wild
  | some t =>
    match t.pte (v % nptentries) with
    | none => return .none
    | some e => if e.perm.u then return .user e.page else return .none

/-- The page table maps the page for its user. -/
def maps (d : Pgdir) (p : Page) : Bool :=
  (List.range userTop).any fun v => (d.pte v).any fun e => e.page == p

/-- A write to the page that the word at address 0 names. It is followed as far as free pages and the
pages of the two address spaces are concerned. -/
def wildWrite (cur d : Pgdir) (p : Page) (off : Nat) (bytes : List UInt8) : R Unit := do
  let s ← get
  if p ∈ s.kmem.freelist then do
    onKmem (scribble p off bytes.length)
    memmove p off bytes
  else if maps cur p ∨ maps d p then memmove p off bytes
  else throw .wildWrite

/-- `copyout` of the bytes `buf` to address `va`, with whether it succeeds -/
def copyout (cur d : Pgdir) (va : Nat) (buf : List UInt8) : R Bool :=
  if _h : 0 < buf.length then do
    let v := va / pgsize
    let n := min (pgsize - va % pgsize) buf.length
    match ← uva2ka cur d v with
    | .none => return false
    | .user p => do
      memmove p (va % pgsize) (buf.take n)
      copyout cur d ((v + 1) * pgsize % 2 ^ 32) (buf.drop n)
    | .wild p => do
      wildWrite cur d p (va % pgsize) (buf.take n)
      copyout cur d ((v + 1) * pgsize % 2 ^ 32) (buf.drop n)
  else return true
termination_by buf.length
decreasing_by
  all_goals
    have : va % pgsize < pgsize := Nat.mod_lt _ (by decide)
    rw [List.length_drop]
    omega

/-! ## Addresses -/

variable {cur d : Pgdir} {s : Ram} {va i : Nat} {buf : List UInt8}

/-- The virtual page of an address, in 32 bits. -/
def pageOf (a : Nat) : Nat := a % 2 ^ 32 / pgsize

/-- The address is on a page that is present and the user's. -/
def UserAt (d : Pgdir) (a : Nat) : Prop := ∃ e, d.pte (pageOf a) = some e ∧ e.perm.u = true

/-- There is a page-table page for the address. -/
def TableAt (d : Pgdir) (a : Nat) : Prop := (d.pde (pageOf a / nptentries)).isSome

/-! ## The loop -/

theorem copyout_nil (va : Nat) : copyout cur d va [] = pure true := by
  rw [copyout, dif_neg (by simp)]

/-- **The rule for the loop of `copyout`.** The invariant `I k` holds after `k` bytes; the next `c`
bytes go to one page. -/
theorem wp_copyout {Q : Bool → Ram → Prop} {E : Fault → Prop} (I : Nat → Ram → Prop)
    (hva : va < 2 ^ 32) (h0 : I 0 s) (hend : ∀ s, I buf.length s → Q true s)
    (hstep : ∀ k c s, I k s → 0 < c → k + c ≤ buf.length →
      (∀ i < c, pageOf (va + (k + i)) = pageOf (va + k)) →
      wp (uva2ka cur d (pageOf (va + k))) (fun t s₁ => match t with
        | .none => Q false s₁
        | .user p => wp (memmove p ((va + k) % pgsize) ((buf.drop k).take c))
            (fun _ s₂ => I (k + c) s₂) E s₁
        | .wild p => wp (wildWrite cur d p ((va + k) % pgsize) ((buf.drop k).take c))
            (fun _ s₂ => I (k + c) s₂) E s₁) E s) :
    wp (copyout cur d va buf) Q E s := by
  -- induction on the number of bytes that are left, with the address of the next one
  suffices hloop : ∀ left k a s, buf.length - k = left → k ≤ buf.length → a < 2 ^ 32 →
      a % 2 ^ 32 = (va + k) % 2 ^ 32 → I k s → wp (copyout cur d a (buf.drop k)) Q E s from
    hloop _ 0 va s rfl (Nat.zero_le _) hva rfl h0
  intro left
  induction left using Nat.strongRecOn with
  | _ left ih =>
    intro k a s hleft hk ha heq hI
    by_cases hdone : k = buf.length
    · rw [hdone, List.drop_length, copyout_nil]
      exact hend s (hdone ▸ hI)
    · have hlen : (buf.drop k).length = buf.length - k := List.length_drop
      have hpage : a / pgsize = pageOf (va + k) := by
        rw [pageOf, ← heq, Nat.mod_eq_of_lt ha]
      have hoff : a % pgsize = (va + k) % pgsize := by
        simp only [pgsize]
        omega
      obtain ⟨c, hc⟩ : ∃ c, c = min (pgsize - a % pgsize) (buf.length - k) := ⟨_, rfl⟩
      have hmod : a % pgsize < pgsize := Nat.mod_lt _ (by decide)
      have hchunk : ∀ i < c, pageOf (va + (k + i)) = pageOf (va + k) := by
        intro i hi
        simp only [pageOf, pgsize] at hc hmod ⊢
        omega
      -- what is left after the chunk
      have hrest : ∀ s₂, I (k + c) s₂ →
          wp (copyout cur d ((a / pgsize + 1) * pgsize % 2 ^ 32) (buf.drop (k + c))) Q E s₂ := by
        intro s₂ hI₂
        by_cases hlast : k + c = buf.length
        · rw [hlast, List.drop_length, copyout_nil]
          exact hend s₂ (hlast ▸ hI₂)
        · refine ih (buf.length - (k + c)) (by omega) _ _ s₂ rfl (by omega)
            (Nat.mod_lt _ (by decide)) ?_ hI₂
          simp only [pgsize] at hc hmod ⊢
          omega
      rw [copyout, dif_pos (by omega)]
      simp only [hlen, ← hc, List.drop_drop, wp_bind]
      rw [hpage] at hrest
      rw [hpage, hoff]
      refine wp_post (hstep k c s hI (by omega) (by omega) hchunk) (fun t s₁ h => ?_)
      cases t with
      | none => exact h
      | user p =>
        simp only [wp_bind]
        exact wp_post h (fun _ => hrest)
      | wild p =>
        simp only [wp_bind]
        exact wp_post h (fun _ => hrest)

/-! ## What `uva2ka` finds -/

theorem wp_uva2ka_user {a : Nat} {Q : Dest → Ram → Prop} {E : Fault → Prop} {e : Pte}
    (he : d.pte (pageOf a) = some e) (hu : e.perm.u = true) (hQ : Q (.user e.page) s) :
    wp (uva2ka cur d (pageOf a)) Q E s := by
  obtain ⟨t, ht⟩ := Option.isSome_iff_exists.mp (isSome_table (by rw [he]; rfl))
  rw [pte_eq ht] at he
  simp only [uva2ka, ht, he, hu, if_true]
  exact hQ

theorem wp_uva2ka_none {a : Nat} {Q : Dest → Ram → Prop} {E : Fault → Prop} (ht : TableAt d a)
    (hu : ¬UserAt d a) (hQ : Q .none s) : wp (uva2ka cur d (pageOf a)) Q E s := by
  obtain ⟨t, ht⟩ := Option.isSome_iff_exists.mp ht
  unfold UserAt at hu
  rw [pte_eq ht] at hu
  simp only [uva2ka, ht]
  cases he : t.pte (pageOf a % nptentries) with
  | none => exact hQ
  | some e =>
    have hperm : ¬e.perm.u = true := fun h => hu ⟨e, he, h⟩
    simp only [if_neg hperm]
    exact hQ

/-! ## User pages -/

/-- A physical page that is present and the user's in `d`. -/
def UserPage (d : Pgdir) (q : Page) : Prop := ∃ v e, d.pte v = some e ∧ e.perm.u = true ∧ e.page = q

/-- There are page-table pages for all addresses of a range up to the first one that is not the
user's. -/
def FindsTables (d : Pgdir) (va len : Nat) : Prop :=
  ∀ i < len, (∀ j < i, UserAt d (va + j)) → TableAt d (va + i)

theorem userAt_congr {a b : Nat} (h : pageOf a = pageOf b) : UserAt d a ↔ UserAt d b := by
  unfold UserAt
  rw [h]

/-- With page-table pages `copyout` writes to user pages, and succeeds if all pages are. -/
theorem wp_copyout_user (hva : va < 2 ^ 32) (hd : FindsTables d va buf.length) :
    wp (copyout cur d va buf) (fun r s' => s'.kmem = s.kmem ∧
      (∀ q, s'.byte q ≠ s.byte q → UserPage d q) ∧
      (r = true ↔ ∀ i < buf.length, UserAt d (va + i))) (fun _ => False) s := by
  refine wp_copyout (fun k s' => s'.kmem = s.kmem ∧ (∀ q, s'.byte q ≠ s.byte q → UserPage d q) ∧
    ∀ i < k, UserAt d (va + i)) hva ⟨rfl, fun _ hq => absurd rfl hq, nofun⟩
    (fun s' h => ⟨h.1, h.2.1, fun _ => h.2.2, fun _ => rfl⟩) ?_
  rintro k c s₁ ⟨hkmem, hbyte, huser⟩ hpos hle hpage
  by_cases hu : UserAt d (va + k)
  · have hnew : ∀ i < k + c, UserAt d (va + i) := by
      intro i hi
      by_cases hik : i < k
      · exact huser i hik
      · have := hpage (i - k) (by omega)
        rw [Nat.add_sub_cancel' (not_lt.mp hik)] at this
        exact (userAt_congr this).mpr hu
    obtain ⟨e, he, hperm⟩ := hu
    refine wp_uva2ka_user he hperm ⟨hkmem, fun q hq => ?_, hnew⟩
    by_cases hqe : q = e.page
    · exact ⟨_, e, he, hperm, hqe.symm⟩
    · refine hbyte q fun h => hq ?_
      rw [← h]
      exact update_of_ne hqe ..
  · refine wp_uva2ka_none (hd k (by omega) huser) hu ⟨hkmem, hbyte, nofun, fun h => ?_⟩
    exact absurd (h k (by omega)) hu

/-- Without a page-table page the word at address 0 is read, where there may be nothing. -/
theorem wp_copyout_pageFault (hcur : cur.pte 0 = none) (hva : va < 2 ^ 32) (hi : i < buf.length)
    (huser : ∀ j < i, UserAt d (va + j)) (htable : ¬TableAt d (va + i)) :
    wp (copyout cur d va buf) (fun _ _ => False) (· = .pageFault) s := by
  refine wp_copyout (fun k _ => k ≤ i) hva (Nat.zero_le _) (fun _ h => absurd h (by omega)) ?_
  intro k c s₁ hk hpos hle hpage
  by_cases hki : k + c ≤ i
  · obtain ⟨e, he, hperm⟩ := huser k (by omega)
    exact wp_uva2ka_user he hperm hki
  · -- the page of the address without a page-table page
    have hsame := hpage (i - k) (by omega)
    rw [Nat.add_sub_cancel' hk] at hsame
    unfold TableAt at htable
    rw [hsame, Option.not_isSome_iff_eq_none] at htable
    simp only [uva2ka, htable, hcur, wp_bind, wp_get, wp_throw]

/-- `copyout` does not succeed over a page that is there but not the user's. -/
theorem wp_copyout_blocked {e : Pte} (hva : va < 2 ^ 32) (hi : i < buf.length)
    (he : d.pte (pageOf (va + i)) = some e) (hperm : e.perm.u = false) :
    wp (copyout cur d va buf) (fun r _ => r = false) (fun _ => True) s := by
  have hblocked : ¬UserAt d (va + i) := by
    rintro ⟨e', he', hu⟩
    rw [he] at he'
    cases he'
    rw [hperm] at hu
    cases hu
  have htable : TableAt d (va + i) := isSome_table (by rw [he]; rfl)
  have hany : ∀ {α : Type} (f : R α) (s : Ram), wp f (fun _ _ => True) (fun _ => True) s :=
    fun _ _ => wp_of_ends (fun _ _ _ => trivial) fun _ _ => trivial
  refine wp_copyout (fun k _ => k ≤ i) hva (Nat.zero_le _) (fun _ h => absurd h (by omega)) ?_
  intro k c s₁ hk hpos hle hpage
  by_cases hki : k + c ≤ i
  · refine wp_post (hany _ _) (fun t s₂ _ => ?_)
    cases t with
    | none => rfl
    | user p => exact hki
    | wild p => exact wp_post (hany _ _) (fun _ _ _ => hki)
  · have hsame := hpage (i - k) (by omega)
    rw [Nat.add_sub_cancel' hk] at hsame
    have hnot : ¬UserAt d (va + k) := fun h => hblocked ((userAt_congr hsame).mpr h)
    have hthere : TableAt d (va + k) := by
      unfold TableAt at htable ⊢
      rwa [hsame] at htable
    exact wp_uva2ka_none hthere hnot rfl

/-! ## The result -/

/-- **What `copyout` is there for**, whatever process is running: it never uses an entry that is not
there, it writes to pages that are present and the user's and to nothing else, and it succeeds when
all pages of the range are such pages. -/
def WritesUserPages (d : Pgdir) (va : UInt32) (buf : List UInt8) : Prop :=
  ∀ cur s, ∃ r s', copyout cur d va.toNat buf s = .ok (r, s') ∧ s'.kmem = s.kmem ∧
    (∀ q, s'.byte q ≠ s.byte q → UserPage d q) ∧
    (r = true ↔ ∀ i < buf.length, UserAt d (va.toNat + i))

/-- **`copyout` writes only to user pages** just when there is a page-table page for every address up
to the first one that is not the user's. -/
theorem copyout_writesUserPages_iff (d : Pgdir) (va : UInt32) (buf : List UInt8) :
    WritesUserPages d va buf ↔ FindsTables d va.toNat buf.length := by
  constructor
  · intro h i hi huser
    by_contra htable
    -- a process with nothing at address 0
    obtain ⟨r, s', hrun, -⟩ := h ⟨0, fun _ => none⟩ ⟨⟨[], false⟩, fun _ _ => 0⟩
    exact (wp_copyout_pageFault rfl va.toNat_lt hi huser htable).ok hrun
  · intro h cur s
    exact (wp_copyout_user va.toNat_lt h).exists_ok

/-! ## An address without a page-table page -/

/-- There are no page-table pages between the memory of the kernel and the devices. -/
def Hole (d : Pgdir) : Prop :=
  ∀ i, (kernbase + phystop) / pgsize / nptentries ≤ i → i < devspace / pgsize / nptentries →
    d.pde i = none

/-- With enough free pages there is a page table with `n` pages of a user. -/
theorem exists_image {x : Layout} {n : Nat} (hw : s.kmem.wild = false) (hn : 0 < n)
    (hmax : n < userTop) (hfree : npdentries + n + 1 < s.kmem.freelist.length) :
    ∃ d₀ s₁ d s₂, setupkvm x s = .ok (some d₀, s₁) ∧
      allocuvm x d₀ 0 (n * pgsize) s₁ = .ok ((d, n * pgsize), s₂) ∧
      s.kmem.freelist.length ≤ s₂.kmem.freelist.length + (npdentries + n + 1) ∧ Hole d := by
  have hsetup := (forgets_setupkvm (x := x)).wp (s := s) (wp_setupkvm_enough hw (by omega)
    (Q := fun r k' => ∃ d, r = some d ∧ room k' d + 1 = s.kmem.freelist.length ∧
      k'.wild = false ∧ KernelOnly d) fun d k' hr _ hw _ hd => ⟨d, rfl, hr, hw, hd⟩)
  obtain ⟨r, s₁, hrun, d₀, rfl, hroom, hw, hd⟩ := hsetup.exists_ok
  have hfirst : pgroundup 0 = 0 := by decide
  have hsz : n * pgsize < kernbase := by
    simp only [userTop, kernbase, pgsize] at hmax ⊢
    omega
  have hround : pgroundup (n * pgsize) = pgroundup 0 + n := by
    simp only [pgroundup, pgsize]
    omega
  have halloc := (forgets_allocuvm (x := x) d₀ 0 (n * pgsize)).wp (s := s₁)
    (wp_allocuvm_enough hw (Nat.mul_pos hn (by decide)) hsz (Nat.zero_le _)
      hround (fun u _ hu => hd.user u hu) (by omega)
      (Q := fun r k' => r.2 = n * pgsize ∧ room k' r.1 + n = room s₁.kmem d₀ ∧
        Allocs s₁.kmem d₀ (pgroundup 0) n r.1 k') fun d' k' hr _ ha => ⟨rfl, hr, ha⟩)
  obtain ⟨⟨d, sz⟩, s₂, hrun₂, rfl, hroom₂, ha⟩ := halloc.exists_ok
  refine ⟨d₀, s₁, d, s₂, hrun, hrun₂, ?_, fun i hlo hhi => ?_⟩
  · have hle := tables_le d
    simp only [room] at hroom hroom₂
    omega
  · rw [ha.tables i fun u _ hu => ?_]
    · exact hd.hole i hlo hhi
    · rw [hfirst] at hu
      simp only [userTop, kernbase, phystop, pgsize, nptentries] at hmax hlo ⊢
      omega

/-- The stack pointer of `exec` for an argument of `wildLen` characters is the address of the page
before the devices. There `copyout` reads the word at address 0, also when there is nothing. -/
theorem copyout_hole : ∃ d₀ s₁ d s₂, setupkvm bootLayout someFree = .ok (some d₀, s₁) ∧
    allocuvm bootLayout d₀ 0 (2 * pgsize) s₁ = .ok ((d, 2 * pgsize), s₂) ∧
    (2 * pgsize + 2 ^ 32 - (wildLen + 1)) % 2 ^ 32 / 4 * 4 = devspace - pgsize ∧
    (∀ cur s, cur.pte 0 = none → copyout cur d (devspace - pgsize)
      (List.replicate wildLen 97 ++ [0]) s = .error .pageFault) ∧
    ¬WritesUserPages d (UInt32.ofNat (devspace - pgsize)) (List.replicate wildLen 97 ++ [0]) := by
  obtain ⟨d₀, s₁, d, s₂, hsetup, halloc, -, hhole⟩ :=
    exists_image (x := bootLayout) (n := 2) rfl (by decide) (by decide) enough_someFree
  have hva : devspace - pgsize < 2 ^ 32 := by decide
  have hlen : 0 < (List.replicate wildLen (97 : UInt8) ++ [0]).length := by simp
  have htable : ¬TableAt d (devspace - pgsize + 0) := by
    have hpage : pageOf (devspace - pgsize + 0) / nptentries = hole := by decide
    rw [TableAt, hpage, hhole hole (by decide) (by decide)]
    exact Bool.false_ne_true
  have hfault : ∀ cur s, cur.pte 0 = none → copyout cur d (devspace - pgsize)
      (List.replicate wildLen 97 ++ [0]) s = .error .pageFault := by
    intro cur s hcur
    have h := wp_copyout_pageFault (s := s) hcur hva hlen (fun _ hj => absurd hj (Nat.not_lt_zero _))
      htable
    cases hrun : copyout cur d (devspace - pgsize) (List.replicate wildLen 97 ++ [0]) s with
    | ok r => exact (h.ok hrun).elim
    | error e => rw [h.error hrun]
  refine ⟨d₀, s₁, d, s₂, hsetup, halloc, by decide, hfault, fun h => ?_⟩
  obtain ⟨r, s', hrun, -⟩ := h ⟨0, fun _ => none⟩ someFree
  rw [UInt32.toNat_ofNat_of_lt' hva, hfault _ _ rfl] at hrun
  cases hrun

end Laboratorio.Xv6.Vm.Ram
