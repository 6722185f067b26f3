import Laboratorio.Xv6.Exec

/-!
# The image that `exec` builds, for every file

`Built x guard m s d sz` describes the page table `d` of a new image of size `sz`: its user pages are
those below the size, all of them for users except `guard`, and the kernel part is the usual one. The
multiset `m` are the pages that the image has been made from, those that are still free and those that
are the page table's.

Each function that `exec` uses keeps this description, and under it none of them panics
(`exec_survives`).
-/

namespace Laboratorio.Xv6.Vm.Ram

open Laboratorio.Wp

/-- The user pages that are mapped are those below the size. -/
def Mapped (d : Pgdir) (sz : Nat) : Prop :=
  sz < kernbase ∧ ∀ v < userTop, (d.pte v).isSome ↔ v < pgroundup sz

/-- A page table that is being built from the pages `m`. -/
structure Built (x : Layout) (guard : Option Nat) (m : Multiset Page) (s : Ram) (d : Pgdir)
    (sz : Nat) : Prop where
  nodup : m.Nodup
  good : ∀ p ∈ m, x.Holds p
  wild : s.kmem.wild = false
  pages : (s.kmem.freelist : Multiset Page) + d.pages = m
  mapped : Mapped d sz
  guard_lt : ∀ g, guard = some g → g < pgroundup sz
  user : ∀ v < userTop, ∀ e, d.pte v = some e → (e.perm.u = true ↔ guard ≠ some v)
  kernel : ∀ u, userTop ≤ u → d.pte u = kernelPte x u

/-- After a step that started in `s`, the pages `m` are free or those of the page table `d`, and no
other page has changed. -/
structure Keeps (m : Multiset Page) (s : Ram) (d : Pgdir) (s' : Ram) : Prop where
  wild : s'.kmem.wild = false
  pages : (s'.kmem.freelist : Multiset Page) + d.pages = m
  byte : ∀ q ∉ m, s'.byte q = s.byte q

variable {x : Layout} {guard : Option Nat} {m : Multiset Page} {s s' s₁ : Ram} {d d' : Pgdir}
  {sz : Nat}

theorem Built.keeps (h : Built x guard m s d sz) : Keeps m s d s := ⟨h.wild, h.pages, fun _ _ => rfl⟩

theorem Keeps.trans (h : ∀ q ∉ m, s₁.byte q = s.byte q) (h' : Keeps m s₁ d s') : Keeps m s d s' :=
  ⟨h'.wild, h'.pages, fun q hq => (h'.byte q hq).trans (h q hq)⟩

/-- The contents of pages do not matter. -/
theorem Built.of_kmem (h : Built x guard m s d sz) (hk : s'.kmem = s.kmem) :
    Built x guard m s' d sz :=
  ⟨h.nodup, h.good, hk ▸ h.wild, hk ▸ h.pages, h.mapped, h.guard_lt, h.user, h.kernel⟩

theorem Built.unmapped (h : Built x guard m s d sz) {u : Nat} (hlo : pgroundup sz ≤ u)
    (hhi : u < userTop) : d.pte u = none := by
  have := (h.mapped.2 u hhi).not.mpr (by omega)
  simpa using this

/-- A new page table. -/
theorem built_of_kernelOnly (hd : KernelOnly d) (hnodup : m.Nodup) (hgood : ∀ p ∈ m, x.Holds p)
    (hw : s.kmem.wild = false) (hm : (s.kmem.freelist : Multiset Page) + d.pages = m)
    (hk : ∀ u, userTop ≤ u → d.pte u = kernelPte x u) : Built x none m s d 0 where
  nodup := hnodup
  good := hgood
  wild := hw
  pages := hm
  mapped := by
    refine ⟨by decide, fun v hv => ?_⟩
    rw [hd.user v hv]
    have : pgroundup 0 = 0 := by decide
    simp [this]
  guard_lt := nofun
  user v hv e he := by
    rw [hd.user v hv] at he
    cases he
  kernel := hk

/-! ## `allocuvm` -/

/-- **`allocuvm`** grows the image, or fails; it does not panic. The old size may be rounded up. -/
theorem wp_allocuvm_round {oldsz newsz : Nat} (h : Built x guard m s d sz)
    (hround : pgroundup oldsz = pgroundup sz) (hold : newsz < oldsz → oldsz < kernbase) :
    wp (allocuvm x d oldsz newsz) (fun r s' => Keeps m s r.1 s' ∧
      (r.2 = 0 ∨ Built x guard m s' r.1 r.2 ∧ r.2 = max oldsz newsz)) (fun _ => False) s := by
  unfold allocuvm
  split
  · exact ⟨h.keeps, .inl rfl⟩
  · next hk =>
    rw [not_le] at hk
    split
    · next hlt =>
      refine ⟨h.keeps, .inr ⟨?_, (max_eq_left hlt.le).symm⟩⟩
      exact ⟨h.nodup, h.good, h.wild, h.pages, ⟨hold hlt, hround ▸ h.mapped.2⟩,
        hround ▸ h.guard_lt, h.user, h.kernel⟩
    · next hge =>
      rw [not_lt] at hge
      have hle := pgroundup_mono hge
      have htop := pgroundup_le_userTop hk.le
      have hcontents := wp_allocLoop h.wild h.pages h.nodup h.good hk.le le_rfl
        (n := pgroundup newsz - pgroundup oldsz) (by omega)
        (fun u hlo hhi => h.unmapped (hround ▸ hlo) hhi)
      have hkmem := (forgets_allocLoop (x := x) oldsz newsz d (pgroundup oldsz)
        (pgroundup newsz - pgroundup oldsz)).wp (s := s) (wp_and
          (Vm.wp_allocLoop h.wild hk.le (by omega)) (wp_allocLoop_perm h.wild hk.le (by omega)))
      refine wp_mono (wp_and hcontents hkmem) ?_ fun _ he => he.1
      rintro r s' ⟨⟨hpages, hbyte, hresult⟩, ⟨⟨-, hwild⟩, -⟩, hperm⟩
      refine ⟨⟨hwild, hpages, fun q hq => ?_⟩, ?_⟩
      · refine (hbyte q).resolve_right fun hfree => hq ?_
        rcases hfree with hold | hnew
        · exact h.pages ▸ Multiset.mem_add.mpr (.inl (Multiset.mem_coe.mpr hold))
        · exact hpages ▸ Multiset.mem_add.mpr (.inl (Multiset.mem_coe.mpr hnew))
      · rcases hresult with ⟨hr, hout, hin⟩ | ⟨hr, -⟩
        · by_cases h0 : r.2 = 0
          · exact .inl h0
          rw [hround] at hout hin hperm hle
          refine .inr ⟨⟨h.nodup, h.good, hwild, hpages, ⟨hr ▸ hk, fun v hv => ?_⟩,
            fun g hg => ?_, fun v hv e he => ?_, fun u hu => ?_⟩, by rw [hr, max_eq_right hge]⟩
          · rw [hr]
            by_cases hmid : pgroundup sz ≤ v ∧ v < pgroundup newsz
            · obtain ⟨e, he, -⟩ := hin v hmid.1 (by omega)
              rw [he]
              simp [hmid.2]
            · rw [hout v (by omega), h.mapped.2 v hv]
              omega
          · rw [hr]
            exact lt_of_lt_of_le (h.guard_lt g hg) hle
          · by_cases hmid : pgroundup sz ≤ v ∧ v < pgroundup newsz
            · -- a new page, which is above the guard page
              obtain ⟨p, hp⟩ := hperm h0 v hmid.1 (by omega)
              rw [hp] at he
              cases he
              refine ⟨fun _ hg => ?_, fun _ => rfl⟩
              exact absurd (h.guard_lt v hg) (by omega)
            · rw [hout v (by omega)] at he
              exact h.user v hv e he
          · rw [hout u (by omega)]
            exact h.kernel u hu
        · exact .inl hr

theorem wp_allocuvm_built {newsz : Nat} (h : Built x guard m s d sz) :
    wp (allocuvm x d sz newsz) (fun r s' => Keeps m s r.1 s' ∧
      (r.2 = 0 ∨ Built x guard m s' r.1 r.2 ∧ r.2 = max sz newsz)) (fun _ => False) s :=
  wp_allocuvm_round h rfl fun _ => h.mapped.1

/-! ## Segments -/

theorem pages_subset (h : Built x guard m s d sz) {u : Nat} {e : Pte} (hu : u < userTop)
    (he : d.pte u = some e) : e.page ∈ m :=
  h.pages ▸ Multiset.mem_add.mpr (.inr (mem_pages hu he))

/-- `memmove` changes the contents of one page. -/
theorem wp_memmove {p : Page} {off : Nat} {bytes : List UInt8} {Q : Unit → Ram → Prop}
    {E : Fault → Prop}
    (hQ : ∀ s₁, s₁.kmem = s.kmem → (∀ q, q ≠ p → s₁.byte q = s.byte q) → Q () s₁) :
    wp (memmove p off bytes) Q E s :=
  hQ _ rfl fun _ hq => Function.update_of_ne hq ..

/-- `loaduvm` writes to pages of the image. -/
theorem wp_loadLoop {ip : Inode} {addr offset filesz i : Nat} (h : Built x guard m s d sz)
    (hend : addr + filesz ≤ sz) :
    wp (loadLoop d ip addr offset filesz i) (fun _ s' => s'.kmem = s.kmem ∧
      ∀ q ∉ m, s'.byte q = s.byte q) (fun _ => False) s := by
  induction hleft : filesz - i using Nat.strongRecOn generalizing i s with
  | _ left ih =>
    rw [loadLoop]
    split
    · next hi =>
      have hpage : (addr + i) / pgsize < pgroundup sz := pgroundup_of_lt (by omega)
      have hv : (addr + i) / pgsize < userTop :=
        lt_of_lt_of_le hpage (pgroundup_le_userTop h.mapped.1.le)
      obtain ⟨e, he⟩ := Option.isSome_iff_exists.mp ((h.mapped.2 _ hv).mpr hpage)
      obtain ⟨t, ht⟩ := Option.isSome_iff_exists.mp (isSome_table (by rw [he]; rfl))
      have hte : t.pte ((addr + i) / pgsize % nptentries) = some e := by rw [← pte_eq ht, he]
      have hmem := pages_subset h hv he
      simp only [ht, hte, wp_bind]
      refine wp_memmove fun s₁ hkmem hbyte => ?_
      have hsame : ∀ q ∉ m, s₁.byte q = s.byte q := fun q hq =>
        hbyte q fun hqe => hq (hqe ▸ hmem)
      rw [wp_ite]
      refine ⟨fun _ => ⟨hkmem, hsame⟩, fun _ => ?_⟩
      have hlt : filesz - (i + pgsize) < left := by
        simp only [pgsize]
        omega
      refine wp_post (ih _ hlt (h.of_kmem hkmem) rfl) ?_
      rintro _ s' ⟨hk, hb⟩
      exact ⟨hk.trans hkmem, fun q hq => (hb q hq).trans (hsame q hq)⟩
    · exact ⟨rfl, fun _ _ => rfl⟩

/-- The `i`-th program header from offset `off` on. -/
def header (ip : Inode) (off i : Nat) : Proghdr :=
  proghdr (ip.readi ((off + i * sizeofProghdr) % 2 ^ 32) sizeofProghdr)

theorem header_zero {ip : Inode} {off : Nat} (hoff : off < 2 ^ 32) :
    header ip off 0 = proghdr (ip.readi off sizeofProghdr) := by
  rw [header, Nat.zero_mul, Nat.add_zero, Nat.mod_eq_of_lt hoff]

theorem header_succ (ip : Inode) (off i : Nat) :
    header ip off (i + 1) = header ip ((off + sizeofProghdr) % 2 ^ 32) i := by
  have : (off + (i + 1) * sizeofProghdr) % 2 ^ 32 =
      ((off + sizeofProghdr) % 2 ^ 32 + i * sizeofProghdr) % 2 ^ 32 := by
    simp only [sizeofProghdr]
    omega
  rw [header, header, this]

/-- The sum that has passed the check of `exec` does not wrap around. -/
theorem proghdr_sum {bytes : List UInt8}
    (h : ¬((proghdr bytes).vaddr + (proghdr bytes).memsz) % 2 ^ 32 < (proghdr bytes).vaddr) :
    ((proghdr bytes).vaddr + (proghdr bytes).memsz) % 2 ^ 32 =
      (proghdr bytes).vaddr + (proghdr bytes).memsz := by
  have hmem : (proghdr bytes).memsz < 2 ^ 32 := UInt32.toNat_lt _
  have hv : (proghdr bytes).vaddr < 2 ^ 32 := UInt32.toNat_lt _
  omega

/-- **The loop over the program headers** keeps the image, and every segment that has been loaded is in
it. -/
theorem wp_loadSegments {ip : Inode} {off n : Nat} (h : Built x none m s d sz)
    (hoff : off < 2 ^ 32) :
    wp (loadSegments x ip off d sz n) (fun r s' => Keeps m s r.1 s' ∧ ∀ sz', r.2 = some sz' →
      Built x none m s' r.1 sz' ∧ sz ≤ sz' ∧ ∀ i < n, (header ip off i).type = elfProgLoad →
        (header ip off i).vaddr + (header ip off i).filesz ≤ sz') (fun _ => False) s := by
  induction n generalizing off d s sz with
  | zero =>
    refine ⟨h.keeps, fun sz' hsz => ?_⟩
    cases hsz
    exact ⟨h, le_rfl, fun i hi => absurd hi (Nat.not_lt_zero i)⟩
  | succ n ih =>
    have hnext : (off + sizeofProghdr) % 2 ^ 32 < 2 ^ 32 := Nat.mod_lt _ (by decide)
    have hfirst : header ip off 0 = proghdr (ip.readi off sizeofProghdr) := header_zero hoff
    simp only [loadSegments]
    split
    · exact ⟨h.keeps, nofun⟩
    split
    · next htype =>
      refine wp_post (ih h hnext) ?_
      rintro r s' ⟨hkeeps, hr⟩
      refine ⟨hkeeps, fun sz' hsz => ?_⟩
      obtain ⟨hb, hle, hseg⟩ := hr sz' hsz
      refine ⟨hb, hle, fun i hi => ?_⟩
      cases i with
      | zero =>
        rw [hfirst]
        exact fun hload => absurd hload htype
      | succ i =>
        rw [header_succ]
        exact hseg i (by omega)
    split
    · exact ⟨h.keeps, nofun⟩
    next hsizes =>
    split
    · exact ⟨h.keeps, nofun⟩
    next hsum =>
    rw [proghdr_sum hsum, wp_bind]
    refine wp_post (wp_allocuvm_built h) ?_
    rintro r₁ s₁ ⟨hk₁, h₁⟩
    split
    · exact ⟨hk₁, nofun⟩
    next hne =>
    split
    · exact ⟨hk₁, nofun⟩
    next haligned =>
    obtain ⟨hb₁, hr₁⟩ := h₁.resolve_left hne
    have hend : (proghdr (ip.readi off sizeofProghdr)).vaddr +
        (proghdr (ip.readi off sizeofProghdr)).filesz ≤ r₁.2 := by
      rw [hr₁]
      exact le_max_of_le_right (by omega)
    simp only [loaduvm, wp_bind, wp_ite, wp_throw]
    refine ⟨fun hbad => absurd hbad haligned, fun _ => ?_⟩
    refine wp_post (wp_loadLoop hb₁ hend) ?_
    rintro ok s₂ ⟨hkmem, hbyte⟩
    have hb₂ := hb₁.of_kmem hkmem
    have hsame : ∀ q ∉ m, s₂.byte q = s.byte q := fun q hq =>
      (hbyte q hq).trans (hk₁.byte q hq)
    refine ⟨fun _ => ?_, fun _ => ⟨Keeps.trans hsame hb₂.keeps, nofun⟩⟩
    refine wp_post (ih hb₂ hnext) ?_
    rintro r s' ⟨hkeeps, hr⟩
    refine ⟨Keeps.trans hsame hkeeps, fun sz' hsz => ?_⟩
    obtain ⟨hb, hle, hseg⟩ := hr sz' hsz
    have hgrown : sz ≤ r₁.2 := hr₁ ▸ le_max_left ..
    refine ⟨hb, hgrown.trans hle, fun i hi => ?_⟩
    cases i with
    | zero =>
      rw [hfirst]
      exact fun _ => hend.trans hle
    | succ i =>
      rw [header_succ]
      exact hseg i (by omega)

/-! ## The stack -/

/-- The devices are mapped, and not for users. -/
theorem kernelPte_devices {u : Nat} (hlo : devspace / pgsize ≤ u) (hhi : u < 2 ^ 20) :
    ∃ e, kernelPte x u = some e ∧ e.perm.u = false := by
  have hcovers : Covers (devspace, 2 ^ 32 - devspace, devspace, ⟨true, false⟩) u := by
    refine ⟨hlo, ?_⟩
    simp only [devspace, pgsize]
    omega
  have hsome : (kernelPte x u).isSome := by
    refine List.findSome?_isSome_iff.mpr ⟨_, List.mem_of_getElem? (i := 3) rfl, ?_⟩
    rw [linePte_of_covers hcovers]
    rfl
  obtain ⟨e, he⟩ := Option.isSome_iff_exists.mp hsome
  exact ⟨e, he, user_kernelPte he⟩

theorem Built.image (h : Built x guard m s d sz) : Image d sz where
  small := h.mapped.1.le
  below u hu := (h.mapped.2 u (lt_of_lt_of_le hu (pgroundup_le_userTop h.mapped.1.le))).mpr hu
  devices u hlo hhi := by
    have hdev : userTop ≤ devspace / pgsize := by decide
    rw [h.kernel u (by omega)]
    exact kernelPte_devices hlo hhi

/-- `clearpteu` makes a page of the image the guard page. -/
theorem wp_clearpteu_built {v : Nat} (h : Built x none m s d sz) (hv : v < pgroundup sz) :
    wp (onKmem (clearpteu d v)) (fun d' s' => s' = s ∧ Built x (some v) m s d' sz)
      (fun _ => False) s := by
  have hvt : v < userTop := lt_of_lt_of_le hv (pgroundup_le_userTop h.mapped.1.le)
  have hpages := wp_clearpteu (k := s.kmem) hvt h.image
  obtain ⟨t, ht⟩ := Option.isSome_iff_exists.mp (isSome_table (h.image.below v hv))
  rw [wp_onKmem]
  rw [clearpteu, ht] at hpages ⊢
  obtain ⟨hpages, himage, -⟩ := hpages
  have htable : (d.pde (v / nptentries)).isSome := by rw [ht]; rfl
  refine ⟨rfl, h.nodup, h.good, h.wild, hpages ▸ h.pages, ⟨h.mapped.1, fun u hu => ?_⟩,
    fun g hg => ?_, fun u hu e he => ?_, fun u hu => ?_⟩
  · by_cases huv : u = v
    · exact ⟨fun _ => huv ▸ hv, fun hlt => himage.below u hlt⟩
    · rw [pte_setPte htable, if_neg huv]
      exact h.mapped.2 u hu
  · cases hg
    exact hv
  · rw [pte_setPte htable] at he
    by_cases huv : u = v
    · -- the guard page itself
      rw [if_pos huv] at he
      obtain ⟨e', -, rfl⟩ := Option.map_eq_some_iff.mp he
      exact ⟨(fun h => by cases h), fun hne => absurd (congrArg some huv.symm) hne⟩
    · rw [if_neg huv] at he
      have hold := h.user u hu e he
      exact ⟨fun _ hg => huv (Option.some.inj hg).symm, fun _ => hold.mpr (fun h => by cases h)⟩
  · rw [pte_setPte htable, if_neg (by omega)]
    exact h.kernel u hu

/-! ## `exec` -/

@[simp]
theorem wp_onRam {α : Type} {f : R α} {Q : α → Sys → Prop} {E : Fault → Prop} {w : Sys} :
    wp (onRam f) Q E w ↔ wp f (fun a s => Q a { w with ram := s }) E w.ram := by
  unfold wp onRam
  cases f w.ram with
  | ok r => rfl
  | error e => rfl

/-- The pages that `exec` has to free. -/
def held : Option Pgdir → Multiset Page
  | none => 0
  | some d => d.pages

/-- `exec` has started in `w` and got to `w₁`, with the values of its variables `pgdir` and `ip`. -/
structure Begun (w w₁ : Sys) (pgdir : Option Pgdir) (ip : Bool) : Prop where
  wild : w₁.ram.kmem.wild = false
  pages : (w₁.ram.kmem.freelist : Multiset Page) + held pgdir = w.ram.kmem.freelist
  byte : ∀ q ∉ w.ram.kmem.freelist, w₁.ram.byte q = w.ram.byte q
  proc : w₁.proc = w.proc
  ref : w₁.ref = w.ref + if ip then 1 else 0
  locked : w.locked = false → w₁.locked = ip
  begins : w₁.begins = w.begins + 1
  ends : w₁.ends = w.ends + if ip then 0 else 1

/-- The free pages are pages of the allocator, and its links are intact. -/
structure Intact (x : Layout) (k : Kmem) : Prop where
  wild : k.wild = false
  nodup : k.freelist.Nodup
  good : ∀ p ∈ k.freelist, x.Holds p

variable {w w₁ : Sys} {pgdir : Option Pgdir} {ip : Bool}

/-- **The label `bad`** gives back what `exec` has taken. -/
theorem wp_bad (hgood : ∀ p ∈ w.ram.kmem.freelist, x.Holds p) (h : Begun w w₁ pgdir ip) :
    wp (bad x pgdir ip) (fun _ w' => Begun w w' none false) (fun _ => False) w₁ := by
  have hfree : wp (freePgdir x pgdir) (fun _ w' => Begun w w' none ip) (fun _ => False) w₁ := by
    cases pgdir with
    | none => exact h
    | some d =>
      rw [freePgdir, wp_onRam]
      refine wp_post (wp_freevm fun p hp => hgood p ?_) ?_
      · rw [← Multiset.mem_coe, ← h.pages]
        exact Multiset.mem_add.mpr (.inr hp)
      · rintro - s' ⟨hp, hw, hf⟩
        have hpages : (s'.kmem.freelist : Multiset Page) = w.ram.kmem.freelist := hp.trans h.pages
        refine ⟨hw.trans h.wild, (add_zero _).trans hpages, fun q hq => ?_, h.proc, h.ref,
          h.locked, h.begins, h.ends⟩
        rw [(hf.2 q).resolve_right fun hin => hq ?_]
        · exact h.byte q hq
        · rw [← Multiset.mem_coe, ← hpages]
          exact hin
  unfold bad
  refine wp_then hfree (fun _ w₂ h₂ => ?_)
  cases ip with
  | false => exact h₂
  | true =>
    simp only [if_true, wp_bind, iunlockput, endOp, wp_modify]
    refine ⟨h₂.wild, h₂.pages, h₂.byte, h₂.proc, ?_, fun _ => rfl, h₂.begins, ?_⟩
    · show w₂.ref - 1 = w.ref
      have := h₂.ref
      simp only [if_true] at this
      omega
    · show w₂.ends + 1 = w.ends + 1
      have := h₂.ends
      simp only [if_true] at this
      omega

/-- **`exec` up to the arguments**: it fails and has given everything back, or it goes on with an
image that ends with a guard page and a page for the stack. -/
theorem wp_execImage {α : Type} {file : Option Inode} {push : Elfhdr → Pgdir → Nat → X α}
    {Q : Option α → Sys → Prop} {E : Fault → Prop} (h : Intact x w.ram.kmem)
    (hfail : ∀ w', Begun w w' none false → Q none w')
    (hpush : ∀ elf d sz w₁, Begun w w₁ (some d) false →
      Built x (some (sz / pgsize - 2)) w.ram.kmem.freelist w₁.ram d sz → sz % pgsize = 0 →
      2 * pgsize ≤ sz → wp (push elf d sz) (fun a w' => Q (some a) w') E w₁) :
    wp (execImage x file push) Q E w := by
  have hnodup : (w.ram.kmem.freelist : Multiset Page).Nodup := Multiset.coe_nodup.mpr h.nodup
  have hbad : ∀ {w₁ pgdir ip}, Begun w w₁ pgdir ip →
      wp (bad x pgdir ip >>= fun _ => pure none) Q E w₁ := by
    intro w₁ pgdir ip hb
    rw [wp_bind]
    exact wp_mono (wp_bad h.good hb) (fun _ w' h' => hfail w' h') fun _ he => he.elim
  unfold execImage
  cases file with
  | none =>
    simp only [beginOp, namei, endOp, wp_bind, wp_modify, wp_pure]
    exact hfail _ ⟨h.wild, add_zero _, fun _ _ => rfl, rfl, rfl, fun hl => hl, rfl, rfl⟩
  | some file =>
    simp only [beginOp, namei, ilock, wp_bind, wp_modify, wp_pure]
    -- the file is open
    have hopen : ∀ s d, s.kmem.wild = false →
        (s.kmem.freelist : Multiset Page) + held d = w.ram.kmem.freelist →
        (∀ q ∉ w.ram.kmem.freelist, s.byte q = w.ram.byte q) →
        Begun w ⟨s, w.proc, w.ref + 1, true, w.begins + 1, w.ends⟩ d true :=
      fun s d hw hp hb => ⟨hw, hp, hb, rfl, rfl, fun _ => rfl, rfl, rfl⟩
    split
    · exact hbad (hopen _ none h.wild (add_zero _) fun _ _ => rfl)
    · simp only [wp_bind, wp_onRam]
      refine wp_mono (wp_setupkvm h.wild h.good
        (Q := fun r s' => match r with
          | none => s'.kmem.wild = false ∧
              (s'.kmem.freelist : Multiset Page) = w.ram.kmem.freelist ∧
              ∀ q ∉ w.ram.kmem.freelist, s'.byte q = w.ram.byte q
          | some d => Keeps w.ram.kmem.freelist w.ram d s' ∧
              Built x none w.ram.kmem.freelist s' d 0)
        (fun s' hp hw hb => ⟨hw, hp, hb⟩) fun d s' hp hw hb hd hk =>
          ⟨⟨hw, hp, hb⟩, built_of_kernelOnly hd hnodup h.good hw hp hk⟩) ?_ fun _ he => he.elim
      rintro (- | d) s₁ h₁
      · exact hbad (hopen s₁ none h₁.1 ((add_zero _).trans h₁.2.1) h₁.2.2)
      · obtain ⟨hk₁, hb₁⟩ := h₁
        have hphoff : (elfhdr (file.readi 0 sizeofElfhdr)).phoff < 2 ^ 32 := UInt32.toNat_lt _
        simp only [wp_bind, wp_onRam]
        refine wp_mono (wp_loadSegments hb₁ hphoff) ?_ fun _ he => he.elim
        rintro ⟨d₂, r₂⟩ s₂ ⟨hk₂, h₂⟩
        have hsame : ∀ q ∉ (w.ram.kmem.freelist : Multiset Page), s₂.byte q = w.ram.byte q :=
          fun q hq => (hk₂.byte q hq).trans (hk₁.byte q hq)
        cases r₂ with
        | none => exact hbad (hopen s₂ (some d₂) hk₂.wild hk₂.pages hsame)
        | some sz =>
          obtain ⟨hb₂, -, -⟩ := h₂ sz rfl
          -- the file is closed
          have hclosed : ∀ s d, Keeps w.ram.kmem.freelist s₂ d s →
              Begun w ⟨s, w.proc, w.ref, false, w.begins + 1, w.ends + 1⟩ (some d) false :=
            fun s d hk => ⟨hk.wild, hk.pages, fun q hq => (hk.byte q hq).trans (hsame q hq), rfl,
              rfl, fun _ => rfl, rfl, rfl⟩
          have hround : pgroundup (pgroundup sz * pgsize) = pgroundup sz := by
            simp only [pgroundup, pgsize]
            omega
          simp only [iunlockput, endOp, wp_bind, wp_modify, wp_onRam]
          refine wp_mono (wp_allocuvm_round hb₂ hround fun hlt => absurd hlt (by omega)) ?_
            fun _ he => he.elim
          rintro ⟨d₃, sz'⟩ s₃ ⟨hk₃, h₃⟩
          split
          · exact hbad (hclosed s₃ d₃ hk₃)
          · next hne =>
            obtain ⟨hb₃, hsz'⟩ := h₃.resolve_left hne
            replace hsz' : sz' = pgroundup sz * pgsize + 2 * pgsize :=
              hsz'.trans (max_eq_right (Nat.le_add_right ..))
            have hguard : sz' / pgsize - 2 < pgroundup sz' := by
              rw [hsz']
              simp only [pgroundup, pgsize]
              omega
            simp only [wp_bind]
            rw [wp_onRam]
            refine wp_mono (wp_clearpteu_built hb₃ hguard) ?_ fun _ he => he.elim
            rintro d₄ s₄ ⟨rfl, hb₄⟩
            refine wp_post (hpush _ d₄ sz' _ (hclosed s₄ d₄ ?_) hb₄ ?_ ?_) (fun _ _ h => h)
            · exact ⟨hb₄.wild, hb₄.pages, hk₃.byte⟩
            · rw [hsz']
              simp only [pgsize]
              omega
            · rw [hsz']
              exact Nat.le_add_left ..

/-- The pages of the `i`-th segment are mapped. -/
def SegmentMapped (d : Pgdir) (ph : Proghdr) : Prop :=
  ∀ v, ph.vaddr / pgsize ≤ v → v * pgsize < ph.vaddr + ph.filesz → (d.pte v).isSome

/-- **`exec` survives any file**: up to the arguments it does not panic, and then its page table maps
the pages below its size. After any number `n` of program headers it has not panicked either, the page
table maps the pages below the size so far, and all segments are in it. -/
theorem exec_survives (h : Intact x w.ram.kmem) (file : Option Inode) :
    (∃ r w', execImage x file (fun _ d sz => pure (d, sz)) w = .ok (r, w') ∧
      ∀ d sz, r = some (d, sz) → Mapped d sz) ∧
    ∀ f d s, file = some f → setupkvm x w.ram = .ok (some d, s) → Mapped d 0 ∧
      ∀ n, ∃ r s', loadSegments x f (elfhdr (f.readi 0 sizeofElfhdr)).phoff d 0 n s = .ok (r, s') ∧
        ∀ sz, r.2 = some sz → Mapped r.1 sz ∧ ∀ i < n,
          (header f (elfhdr (f.readi 0 sizeofElfhdr)).phoff i).type = elfProgLoad →
          SegmentMapped r.1 (header f (elfhdr (f.readi 0 sizeofElfhdr)).phoff i) := by
  constructor
  · have hrun : wp (execImage x file (fun _ d sz => pure (d, sz))) (fun r _ =>
        ∀ d sz, r = some (d, sz) → Mapped d sz) (fun _ => False) w :=
      wp_execImage h (fun _ _ => nofun) fun _ d sz w₁ _ hb _ _ d' sz' heq => by
        cases heq
        exact hb.mapped
    exact hrun.exists_ok
  · intro f d s _ hsetup
    have hnodup : (w.ram.kmem.freelist : Multiset Page).Nodup := Multiset.coe_nodup.mpr h.nodup
    have hbuilt : wp (setupkvm x) (fun r s' => ∀ d, r = some d →
        Built x none w.ram.kmem.freelist s' d 0) (fun _ => False) w.ram :=
      wp_setupkvm h.wild h.good (fun _ _ _ _ => nofun) fun d₁ s₁ hp hw _ hd hk d' heq => by
        cases heq
        exact built_of_kernelOnly hd hnodup h.good hw hp hk
    have hb := hbuilt.ok hsetup d rfl
    refine ⟨hb.mapped, fun n => ?_⟩
    have hphoff : (elfhdr (f.readi 0 sizeofElfhdr)).phoff < 2 ^ 32 := UInt32.toNat_lt _
    have hloop : wp (loadSegments x f (elfhdr (f.readi 0 sizeofElfhdr)).phoff d 0 n) _ _ s :=
      wp_loadSegments hb hphoff
    obtain ⟨r, s', hrun, -, hr⟩ := hloop.exists_ok
    refine ⟨r, s', hrun, fun sz hsz => ?_⟩
    obtain ⟨hb', -, hseg⟩ := hr sz hsz
    refine ⟨hb'.mapped, fun i hi hload v _ hv => hb'.image.below v ?_⟩
    exact mul_pgsize_lt.mp (lt_of_lt_of_le hv (hseg i hi hload))

/-! ### A file with one segment -/

theorem intact_someFree : Intact bootLayout someFree.kmem :=
  ⟨parent_onePage.wild, parent_onePage.nodup, parent_onePage.good⟩

/-- The process of one page calls `exec`. -/
def oneCaller : Sys := ⟨someFree, ⟨onePage, 4096, [], 0, 0⟩, 0, false, 0, 0⟩

/-- A header with one program header behind it, and the segment: five bytes for address 0. -/
def oneSegmentBytes : List UInt8 :=
  [0x7F, 0x45, 0x4C, 0x46] ++ List.replicate 24 0 ++ [52, 0, 0, 0] ++ List.replicate 12 0 ++ [1] ++
    List.replicate 7 0 ++ [1, 0, 0, 0, 84] ++ List.replicate 11 0 ++ [5, 0, 0, 0, 0, 16] ++
    List.replicate 10 0 ++ [1, 2, 3, 4, 5]

def oneSegment : Inode where
  readi off n := (oneSegmentBytes.drop off).take n
  le _ _ := List.length_take_le ..

/-- What the file has for one page is loaded. -/
theorem wp_loadLoop_page {ip : Inode} {addr offset filesz : Nat} (hpos : 0 < filesz)
    (hle : filesz ≤ pgsize) (hbytes : (ip.readi (offset % 2 ^ 32) filesz).length = filesz) :
    wp (loadLoop d ip addr offset filesz 0) (fun r _ => r = true) (fun _ => True) s := by
  have hn : (if filesz - 0 < pgsize then filesz - 0 else pgsize) = filesz := by
    split <;> omega
  rw [loadLoop, dif_pos hpos]
  simp only [hn, Nat.add_zero]
  split
  · trivial
  · split
    · trivial
    · rw [wp_bind]
      refine wp_memmove fun s₁ _ _ => ?_
      rw [if_neg (not_not.mpr hbytes), loadLoop, dif_neg (by omega)]
      rfl

/-- The segment is loaded. -/
theorem exec_survives_oneSegment : ∃ d s d' s', setupkvm bootLayout someFree = .ok (some d, s) ∧
    loadSegments bootLayout oneSegment 52 d 0 1 s = .ok ((d', some 4096), s') ∧ Mapped d' 4096 ∧
    SegmentMapped d' (header oneSegment 52 0) := by
  obtain ⟨d, s, d₁, s₁, hsetup, halloc, -⟩ :=
    exists_image (x := bootLayout) (n := 1) (s := someFree) rfl (by decide) (by decide) (lt_trans (Nat.lt_succ_self _) enough_someFree)
  obtain ⟨-, hload⟩ :=
    (exec_survives (w := oneCaller) intact_someFree (some oneSegment)).2 oneSegment d s rfl hsetup
  obtain ⟨⟨d', r⟩, s', hrun, hsegment⟩ := hload 1
  have hall : wp (loadSegments bootLayout oneSegment 52 d 0 1) (fun r _ => r.2 = some 4096)
      (fun _ => True) s := by
    simp only [loadSegments, wp_ite, wp_bind, loaduvm, wp_throw, wp_pure]
    refine ⟨fun h => absurd h (by decide), fun _ => ⟨fun h => absurd h (by decide),
      fun _ => ⟨fun h => absurd h (by decide), fun _ => ⟨fun h => absurd h (by decide), fun _ => ?_⟩⟩⟩⟩
    refine wp_of_ok halloc ⟨fun h => absurd h (show ¬ 1 * pgsize = 0 by decide),
      fun _ => ⟨fun h => absurd h (by decide), fun _ => ⟨fun _ => trivial, fun _ => ?_⟩⟩⟩
    refine wp_post (wp_loadLoop_page (by decide) (by decide) (by decide)) ?_
    rintro _ s₂ rfl
    exact ⟨fun _ => rfl, fun h => absurd rfl h⟩
  obtain rfl : r = some 4096 := hall.ok hrun
  obtain ⟨hmapped, hseg⟩ := hsegment 4096 rfl
  exact ⟨d, s, d', s', hsetup, hrun, hmapped, hseg 0 Nat.one_pos rfl⟩

/-! ### A file without segments -/

/-- The bytes of a header with the magic number and nothing else. -/
def emptyHeader : List UInt8 := [0x7F, 0x45, 0x4C, 0x46] ++ List.replicate 48 0

/-- A file with a header and no segments. -/
def emptyProgram : Inode where
  readi off n := if off = 0 then emptyHeader.take n else []
  le off n := by
    split
    · exact List.length_take_le ..
    · exact Nat.zero_le _

end Laboratorio.Xv6.Vm.Ram
