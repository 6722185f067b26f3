import Laboratorio.Xv6.VmPages

/-!
# The image that `exec` builds

`Image d sz` says that a page table has page-table pages for all addresses below `sz` and for the
devices. The arguments of `exec` are copied to addresses below the size of the image, or, when the
stack pointer wraps around, to addresses at the top. With arguments shorter than `argLimit` the top
means the devices, where `copyout` fails; a longer one can reach addresses without a page-table page.
-/

namespace Laboratorio.Xv6.Vm

open Laboratorio.Wp

variable {d d' : Pgdir} {k k' : Kmem} {x : Layout} {sz : Nat} {zero : Option UInt32}

/-- The number of bytes from the devices to the end of the address space. -/
def argLimit : Nat := 2 ^ 32 - devspace

structure Image (d : Pgdir) (sz : Nat) : Prop where
  small : sz ≤ kernbase
  below : ∀ u, u < pgroundup sz → (d.pte u).isSome
  devices : ∀ u, devspace / pgsize ≤ u → u < 2 ^ 20 → ∃ e, d.pte u = some e ∧ e.perm.u = false

theorem isSome_table {u : Nat} (h : (d.pte u).isSome) : (d.pde (u / nptentries)).isSome := by
  cases ht : d.pde (u / nptentries) with
  | none => simp [Pgdir.pte, ht] at h
  | some t => rfl

theorem KernelOnly.image (h : KernelOnly d) : Image d 0 where
  small := Nat.zero_le _
  below := fun u hu => absurd hu (by simp [pgroundup, pgsize])
  devices := h.devices

/-- An image grows by `allocuvm`. -/
theorem Image.allocs {newsz : Nat} (h : Image d sz) (hle : sz ≤ newsz) (hk : newsz < kernbase)
    (ha : Allocs k d (pgroundup sz) (pgroundup newsz - pgroundup sz) d' k') : Image d' newsz := by
  have hmono := pgroundup_mono hle
  have htop := pgroundup_le_userTop hk.le
  refine ⟨hk.le, fun u hu => ?_, fun u hlo hhi => ?_⟩
  · by_cases hold : u < pgroundup sz
    · rw [ha.outside u (by omega)]
      exact h.below u hold
    · exact ha.inside u (by omega) (by omega)
  · have hdev : userTop ≤ devspace / pgsize := by decide
    rw [ha.outside u (by omega)]
    exact h.devices u hlo hhi

theorem wp_allocuvm_image {newsz : Nat} (hw : k.wild = false) (h : Image d sz) :
    wp (allocuvm x d sz newsz) (fun r k' => ((k'.freelist : Multiset Page) + r.1.pages =
      k.freelist + d.pages ∧ k'.wild = false) ∧ (r.2 = 0 ∨ Image r.1 r.2)) Fault.Panic k := by
  refine wp_post (wp_allocuvm hw) (fun r k' h' => ⟨h'.1, ?_⟩)
  rcases h'.2 with h0 | ⟨rfl, -, -⟩ | ⟨hr, hle, hk, ha⟩
  · exact .inl h0
  · exact .inr h
  · rw [hr]
    exact .inr (h.allocs hle hk ha)

/-- `loaduvm` changes no page table. -/
theorem wp_loaduvm {v n good : Nat} :
    wp (loaduvm d v n good) (fun _ k' => k' = k) Fault.Panic k := by
  induction n generalizing v good with
  | zero => rfl
  | succ n ih =>
    unfold loaduvm
    split
    · trivial
    · split
      · rfl
      · exact ih

theorem wp_loadSegments {phs : List Ph} (hw : k.wild = false) (h : Image d sz) :
    wp (loadSegments x d sz phs) (fun r k' => ((k'.freelist : Multiset Page) + r.1.pages =
      k.freelist + d.pages ∧ k'.wild = false) ∧ ∀ sz', r.2 = some sz' → Image r.1 sz')
      Fault.Panic k := by
  induction phs generalizing k d sz with
  | nil =>
    refine ⟨⟨rfl, hw⟩, fun sz' hsz => ?_⟩
    cases hsz
    exact h
  | cons ph phs ih =>
    cases ph with
    | short => exact ⟨⟨rfl, hw⟩, nofun⟩
    | other => exact ih hw h
    | load vaddr filesz memsz good =>
      simp only [loadSegments]
      split
      · exact ⟨⟨rfl, hw⟩, nofun⟩
      · split
        · exact ⟨⟨rfl, hw⟩, nofun⟩
        · refine wp_then (wp_allocuvm_image hw h) ?_
          rintro r k₁ ⟨hp₁, h₁⟩
          split
          · exact ⟨hp₁, nofun⟩
          · next hne =>
            split
            · exact ⟨hp₁, nofun⟩
            · refine wp_then wp_loaduvm ?_
              rintro ok k₂ rfl
              cases ok with
              | false => exact ⟨hp₁, nofun⟩
              | true =>
                simp only [if_true]
                refine wp_post (ih hp₁.2 (h₁.resolve_left hne)) ?_
                rintro r' k' ⟨hp', h'⟩
                exact ⟨⟨hp'.1.trans hp₁.1, hp'.2⟩, h'⟩

/-! ## `copyout` -/

/-- Below the size of an image `copyout` finds page-table pages. -/
theorem wp_copyout_below {va len : Nat} (h : Image d sz) (hva : va + len ≤ sz) :
    wp (copyout d zero va len) (fun _ k' => k' = k) Fault.Panic k := by
  -- induction on the number of bytes that are left
  induction hm : len using Nat.strongRecOn generalizing va len with
  | _ m ih =>
    subst hm
    rw [copyout]
    split
    · next hlen =>
      have hsz := h.small
      have hpage : va / pgsize < pgroundup sz := by
        simp only [pgroundup, pgsize]
        omega
      obtain ⟨t, ht⟩ := Option.isSome_iff_exists.mp (isSome_table (h.below _ hpage))
      have hstep : wp (copyout d zero ((va / pgsize + 1) * pgsize % 2 ^ 32)
          (len - min (pgsize - va % pgsize) len)) (fun _ k' => k' = k) Fault.Panic k := by
        have hlt : len - min (pgsize - va % pgsize) len < len := by
          simp only [pgsize]
          omega
        by_cases hlast : len ≤ pgsize - va % pgsize
        · -- the last page
          rw [min_eq_right hlast, Nat.sub_self, copyout, dif_neg (lt_irrefl 0)]
          rfl
        · refine ih _ hlt ?_ rfl
          simp only [pgsize, kernbase] at hsz hlast ⊢
          omega
      simp only [uva2ka, ht, wp_bind]
      split
      · rfl
      · split
        · exact hstep
        · rfl
    · rfl

/-- At the devices `copyout` fails. -/
theorem wp_copyout_devices {E : Fault → Prop} {va len : Nat} (h : Image d sz) (hlo : devspace ≤ va)
    (hhi : va < 2 ^ 32) (hlen : 0 < len) :
    wp (copyout d zero va len) (fun r k' => r = false ∧ k' = k) E k := by
  have hu : va / pgsize < 2 ^ 20 := by
    simp only [pgsize]
    omega
  obtain ⟨e, he, hperm⟩ := h.devices (va / pgsize) (Nat.div_le_div_right hlo) hu
  obtain ⟨t, ht⟩ := Option.isSome_iff_exists.mp (isSome_table (by rw [he]; rfl))
  rw [pte_eq ht] at he
  rw [copyout, dif_pos hlen]
  simp only [uva2ka, ht, he, hperm, wp_bind]
  exact ⟨rfl, rfl⟩

/-- Pushing `n` bytes, with the stack pointer rounded down to `sp'`. -/
theorem wp_copyout_push {sp sp' n : Nat} (h : Image d sz) (hsp : sp ≤ sz) (hpos : 0 < n)
    (hn : n ≤ argLimit) (hle : sp' ≤ (sp + 2 ^ 32 - n) % 2 ^ 32)
    (hge : n ≤ sp ∨ devspace ≤ sp') :
    wp (copyout d zero sp' n) (fun ok k' => (ok = true → sp' ≤ sz) ∧ k' = k) Fault.Panic k := by
  have hsz := h.small
  simp only [argLimit, devspace, kernbase] at hn hge hsz
  by_cases hfits : n ≤ sp
  · have hle' : sp' + n ≤ sz := by omega
    exact wp_post (wp_copyout_below h hle') (fun _ _ hk => ⟨fun _ => by omega, hk⟩)
  · have hdev : devspace ≤ sp' := by
      simp only [devspace]
      omega
    refine wp_post (wp_copyout_devices h hdev (by omega) hpos) (fun ok k' hk => ⟨?_, hk.2⟩)
    rw [hk.1]
    intro h
    cases h

theorem wp_pushArgs {sp argc : Nat} {args : List Nat} (h : Image d sz) (hsp : sp ≤ sz)
    (hargc : argc ≤ maxarg) (hargs : ∀ len ∈ args, len + 1 ≤ argLimit) :
    wp (pushArgs d zero sp argc args) (fun _ k' => k' = k) Fault.Panic k := by
  have hsz := h.small
  simp only [kernbase] at hsz
  induction args generalizing sp argc with
  | nil =>
    unfold pushArgs
    simp only [maxarg] at hargc
    refine wp_post (wp_copyout_push h hsp (by omega) ?_ le_rfl ?_) (fun _ _ hk => hk.2)
    · simp only [argLimit, devspace]
      omega
    · simp only [devspace]
      omega
  | cons len args ih =>
    have hlen := hargs len List.mem_cons_self
    unfold pushArgs
    split
    · rfl
    · next hlt =>
      simp only [wp_bind]
      refine wp_post (wp_copyout_push h hsp (by omega) hlen (Nat.div_mul_le_self _ _) ?_) ?_
      · simp only [argLimit, devspace] at hlen ⊢
        omega
      · rintro ok k' ⟨hok, rfl⟩
        cases ok with
        | false => rfl
        | true =>
          exact ih (hok rfl) (by omega) fun len hmem => hargs len (List.mem_cons_of_mem _ hmem)

/-! ## The whole image -/

/-- `clearpteu` changes a permission. -/
theorem wp_clearpteu {v : Nat} (hv : v < userTop) (h : Image d sz) :
    wp (clearpteu d v) (fun d' k' => d'.pages = d.pages ∧ Image d' sz ∧ k' = k) Fault.Panic k := by
  unfold clearpteu
  split
  · trivial
  · next t ht =>
    have hd : (d.pde (v / nptentries)).isSome := by simp [ht]
    have hv20 : v < 2 ^ 20 := lt_of_lt_of_le hv (by decide)
    rw [wp_pure]
    refine ⟨?_, ⟨h.small, fun u hu => ?_, fun u hlo hhi => ?_⟩, rfl⟩
    · have hset := pages_setPte (e := (t.pte (v % nptentries)).map fun e =>
        { e with perm := { e.perm with u := false } }) hv20 hd
      rw [pte_eq ht] at hset
      have hown : ownAt v ((t.pte (v % nptentries)).map fun e =>
          { e with perm := { e.perm with u := false } }) = ownAt v (t.pte (v % nptentries)) := by
        cases t.pte (v % nptentries) <;> rfl
      rw [hown] at hset
      exact add_right_cancel hset
    · rw [pte_setPte hd]
      have hsome := h.below u hu
      split
      · next huv =>
        rw [huv, pte_eq ht] at hsome
        simpa using hsome
      · exact hsome
    · have hdev : userTop ≤ devspace / pgsize := by decide
      rw [pte_setPte hd, if_neg (by omega)]
      exact h.devices u hlo hhi

theorem wp_buildStack {args : List Nat} (hw : k.wild = false) (h : Image d sz)
    (hargs : ∀ len ∈ args, len + 1 ≤ argLimit) :
    wp (buildStack x d zero sz args) (fun r k' => ((k'.freelist : Multiset Page) + r.1.pages =
      k.freelist + d.pages ∧ k'.wild = false) ∧ ∀ sz', r.2 = some sz' → sz' ≤ kernbase)
      Fault.Panic k := by
  have hround : Image d (pgroundup sz * pgsize) := by
    have hsz := h.small
    have hrr : pgroundup (pgroundup sz * pgsize) = pgroundup sz := by
      simp only [pgroundup, pgsize]
      omega
    refine ⟨?_, fun u hu => h.below u (hrr ▸ hu), h.devices⟩
    simp only [pgroundup, pgsize, kernbase] at hsz ⊢
    omega
  unfold buildStack
  refine wp_then (wp_allocuvm_image hw hround) ?_
  rintro r k₁ ⟨hp₁, h₁⟩
  split
  · exact ⟨hp₁, fun _ h => by cases h⟩
  · next hne =>
    have himg := h₁.resolve_left hne
    have hsmall := himg.small
    have htop : r.2 / pgsize - 2 < userTop := by
      simp only [userTop, kernbase, pgsize] at hsmall ⊢
      omega
    simp only [wp_bind]
    refine wp_post (wp_clearpteu htop himg) ?_
    rintro d₂ k₂ ⟨hp₂, himg₂, rfl⟩
    rw [← hp₂] at hp₁
    refine wp_post (wp_pushArgs himg₂ le_rfl (Nat.zero_le _) hargs) ?_
    rintro ok k₃ rfl
    cases ok with
    | false => exact ⟨hp₁, fun _ h => by cases h⟩
    | true =>
      refine ⟨hp₁, fun sz' hsz' => ?_⟩
      cases hsz'
      exact hsmall

/-- **The image of `exec` loses no page**, also when it fails. -/
theorem wp_buildImage {phs : List Ph} {args : List Nat} (hw : k.wild = false) (h : KernelOnly d)
    (hargs : ∀ len ∈ args, len + 1 ≤ argLimit) :
    wp (buildImage x d zero phs args) (fun r k' => ((k'.freelist : Multiset Page) + r.1.pages =
      k.freelist + d.pages ∧ k'.wild = false) ∧ ∀ sz', r.2 = some sz' → sz' ≤ kernbase)
      Fault.Panic k := by
  unfold buildImage
  refine wp_then (wp_loadSegments hw h.image) ?_
  rintro ⟨d₁, r⟩ k₁ ⟨hp₁, h₁⟩
  cases r with
  | none => exact ⟨hp₁, nofun⟩
  | some sz =>
    show wp (buildStack x d₁ zero sz args) _ _ _
    refine wp_post (wp_buildStack hp₁.2 (h₁ sz rfl) hargs) ?_
    rintro r₂ k₂ ⟨hp₂, h₂⟩
    exact ⟨⟨hp₂.1.trans hp₁.1, hp₂.2⟩, h₂⟩

end Laboratorio.Xv6.Vm
