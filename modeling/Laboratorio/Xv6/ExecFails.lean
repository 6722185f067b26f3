import Laboratorio.Xv6.ExecArgs

/-!
# When `exec` fails

A call of `exec` that fails should leave everything as it was (`Unchanged`). What it has allocated and
opened it gives back at the label `bad`. But while it copies an argument, `copyout` may already have
written somewhere else: when the argument is so long that the stack pointer wraps around to an address
below the devices, the word at address 0 of the calling process decides where the string goes, for
instance to the memory of the process itself. `Short` says that no argument is so long, and just then
a failing call changes nothing (`exec_unchanged_iff`).
-/

namespace Laboratorio.Xv6.Vm.Ram

open Function Laboratorio.Wp Laboratorio.Bytes Laboratorio.Memory

/-- **A call has changed nothing**: not the process and its memory, not the free pages and their
links, not the references to the file and its lock; and it has begun and ended as many operations. -/
structure Unchanged (w w' : Sys) : Prop where
  proc : w'.proc = w.proc
  memory : ∀ a < kernbase, view w.proc.pgdir w'.ram.byte a = view w.proc.pgdir w.ram.byte a
  free : (w'.ram.kmem.freelist : Multiset Page) = w.ram.kmem.freelist
  links : w'.ram.kmem.wild = false
  ref : w'.ref = w.ref
  locked : w'.locked = w.locked
  ops : w'.begins - w.begins = w'.ends - w.ends

/-- No argument that `exec` gets to reaches below the devices, when the stack pointer is `r` below the
end of the smallest image and `n` arguments have been pushed. -/
def Short : (r n : Nat) → List (List UInt8) → Prop
  | _, _, [] => True
  | r, n, str :: args => n < maxarg → r ≤ pgsize →
      reach r str ≤ 2 * pgsize + argLimit ∧ Short (reach r str) (n + 1) args

variable {x : Layout} {m : Multiset Page} {s : Ram} {cur d : Pgdir} {sz r : Nat}
  {args : List (List UInt8)} {w w' : Sys} {path : List UInt8} {file : Option Inode}

/-! ## Short arguments -/

/-- What is pushed goes to pages below the size, or it starts at the devices. -/
theorem findsTables_push (h : WithStack x m s d sz) {n sp' : Nat} (hr : r ≤ pgsize) (h4 : r % 4 = 0)
    (hlim : (r + n + 3) / 4 * 4 ≤ 2 * pgsize + argLimit)
    (hsp' : sp' = (sz - r + 2 ^ 32 - n) % 2 ^ 32 / 4 * 4) : FindsTables d sp' n := by
  have hlt := h.lt
  have htwo := h.two
  have haligned := h.aligned
  have himage := h.built.image
  simp only [pgsize, argLimit, devspace, kernbase] at hr hlim hlt htwo haligned
  intro i hi huser
  by_cases hfits : n ≤ sz - r
  · have hpage : pageOf (sp' + i) < pgroundup sz := by
      rw [h.pgroundup]
      simp only [pageOf, pgsize]
      omega
    exact isSome_table (himage.below _ hpage)
  · have hpage : devspace / pgsize ≤ pageOf sp' ∧ pageOf sp' < 2 ^ 20 := by
      simp only [pageOf, pgsize, devspace]
      omega
    obtain ⟨e, he, hu⟩ := himage.devices _ hpage.1 hpage.2
    cases i with
    | zero => exact isSome_table (by rw [Nat.add_zero, he]; rfl)
    | succ i =>
      obtain ⟨e', he', hu'⟩ := huser 0 (Nat.succ_pos i)
      rw [Nat.add_zero, he] at he'
      cases he'
      rw [hu] at hu'
      cases hu'

/-- What changes in one of two steps changes in both. -/
theorem UserPage.trans {s₁ s₂ : Ram} (h₁ : ∀ q, s₁.byte q ≠ s.byte q → UserPage d q)
    (h₂ : ∀ q, s₂.byte q ≠ s₁.byte q → UserPage d q) : ∀ q, s₂.byte q ≠ s.byte q → UserPage d q := by
  intro q hq
  by_cases hsame : s₂.byte q = s₁.byte q
  · exact h₁ q (hsame ▸ hq)
  · exact h₂ q hsame

/-- **Pushing short strings** writes to pages of the new image only. -/
theorem wp_pushStrings_short {ptrs : List Nat} (h : WithStack x m s d sz) (h4 : r % 4 = 0)
    (hr : r ≤ pgsize) (hn : ptrs.length ≤ maxarg) (hshort : Short r ptrs.length args) :
    wp (pushStrings cur d (sz - r) ptrs args) (fun o s' => s'.kmem = s.kmem ∧
      (∀ q, s'.byte q ≠ s.byte q → UserPage d q) ∧
      ∀ sp ptrs', o = some (sp, ptrs') → InStack sz sp ∧ ptrs'.length ≤ maxarg)
      (fun _ => False) s := by
  have htwo := h.two
  have haligned := h.aligned
  have hin : InStack sz (sz - r) := by
    refine ⟨?_, by omega, Nat.sub_le ..⟩
    simp only [pgsize] at hr htwo haligned
    omega
  induction args generalizing s r ptrs with
  | nil =>
    refine ⟨rfl, fun _ hq => absurd rfl hq, fun sp ptrs' heq => ?_⟩
    cases heq
    exact ⟨hin, hn⟩
  | cons str args ih =>
    unfold pushStrings
    split
    · exact ⟨rfl, fun _ hq => absurd rfl hq, fun _ _ heq => by cases heq⟩
    · next hlt =>
      obtain ⟨hlim, hrest⟩ := hshort (not_le.mp hlt) hr
      obtain ⟨e, he, hu⟩ := h.exists_top
      have hlen : (str ++ [(0 : UInt8)]).length = str.length + 1 := by simp
      obtain ⟨sp', hsp'⟩ : ∃ sp', sp' = (sz - r + 2 ^ 32 - (str.length + 1)) % 2 ^ 32 / 4 * 4 :=
        ⟨_, rfl⟩
      have hfinds : FindsTables d sp' (str ++ [(0 : UInt8)]).length := by
        rw [hlen]
        exact findsTables_push h hr h4 hlim hsp'
      rw [← hsp', wp_bind]
      refine wp_mono (wp_and (wp_copyout_user (by omega) hfinds)
        (wp_push h he hu hin (by omega) (by rw [hlen]; exact hsp'))) ?_ fun _ he => he.1
      rintro ok s₁ ⟨⟨hk₁, hb₁, -⟩, hpush⟩
      cases ok with
      | false => exact ⟨hk₁, hb₁, fun _ _ heq => by cases heq⟩
      | true =>
        obtain ⟨hin', hend, -⟩ := hpush rfl
        rw [hlen] at hend
        -- the string fits, so the stack pointer has not wrapped around
        have hsp : sp' = sz - reach r str ∧ reach r str ≤ pgsize := by
          have hlow := hin'.low
          have hsz := h.lt
          simp only [reach, pgsize, kernbase] at hr htwo haligned hlow hsz ⊢
          omega
        have hlen' : (ptrs ++ [sp']).length = ptrs.length + 1 := by simp
        simp only [if_true]
        rw [hsp.1] at hin' hlen' ⊢
        refine wp_post (ih (h.of_kmem hk₁) ?_ hsp.2 ?_ (hlen' ▸ hrest) hin') ?_
        · unfold reach
          omega
        · omega
        · rintro o s₂ ⟨hk₂, hb₂, ho⟩
          exact ⟨hk₂.trans hk₁, UserPage.trans hb₁ hb₂, ho⟩

theorem wp_pushArgs_short (h : WithStack x m s d sz) (hshort : Short 0 0 args) :
    wp (pushArgs cur d sz args) (fun _ s' => s'.kmem = s.kmem ∧
      ∀ q, s'.byte q ≠ s.byte q → UserPage d q) (fun _ => False) s := by
  have hlt := h.lt
  have htwo := h.two
  have haligned := h.aligned
  have hstrings : wp (pushStrings cur d (sz - 0) [] args) _ _ s :=
    wp_pushStrings_short h rfl (Nat.zero_le _) (Nat.zero_le _) hshort
  unfold pushArgs
  refine wp_then hstrings ?_
  rintro (- | ⟨sp, ptrs⟩) s₁ ⟨hk₁, hb₁, ho⟩
  · exact ⟨hk₁, hb₁⟩
  · obtain ⟨hin, hn⟩ := ho sp ptrs rfl
    obtain ⟨h4, hlow, hhigh⟩ := hin
    have hlen : ((ustack sp ptrs).flatMap wordBytes).length = (3 + ptrs.length + 1) * 4 := by
      simp only [length_words, ustack, List.length_append, List.length_cons, List.length_nil]
      omega
    obtain ⟨sp', hsp'⟩ : ∃ sp', sp' = (sp + 2 ^ 32 - (3 + ptrs.length + 1) * 4) % 2 ^ 32 := ⟨_, rfl⟩
    simp only [pgsize, kernbase, maxarg] at hlt htwo haligned hlow hn
    have hfinds : FindsTables d sp' ((ustack sp ptrs).flatMap wordBytes).length := by
      rw [hlen]
      refine findsTables_push (r := sz - sp) h ?_ ?_ ?_ ?_
      · simp only [pgsize]
        omega
      · omega
      · simp only [pgsize, argLimit, devspace]
        omega
      · omega
    simp only [wp_bind, ← hsp']
    refine wp_post (wp_copyout_user (by omega) hfinds) ?_
    rintro ok s₂ ⟨hk₂, hb₂, -⟩
    cases ok with
    | false => exact ⟨hk₂.trans hk₁, UserPage.trans hb₁ hb₂⟩
    | true => exact ⟨hk₂.trans hk₁, UserPage.trans hb₁ hb₂⟩

/-! ## A call that fails -/

theorem Begun.unchanged (h : Proper x w.ram w.proc.pgdir w.proc.sz) (hl : w.locked = false)
    (hb : Begun w w' none false) : Unchanged w w' where
  proc := hb.proc
  memory a ha := by
    unfold view
    cases he : w.proc.pgdir.pte (a / pgsize) with
    | none => rfl
    | some e =>
      have hfree := not_free rfl h.nodup (mem_pages (div_lt_userTop' ha) he)
      rw [Option.map_some, Option.map_some, hb.byte e.page hfree]
  free := (add_zero _).symm.trans hb.pages
  links := hb.wild
  ref := hb.ref
  locked := (hb.locked hl).trans hl.symm
  ops := by
    have hbegins := hb.begins
    have hends := hb.ends
    simp only [Bool.false_eq_true, if_false] at hends
    omega

/-- The user pages of a new image are pages it has been made from. -/
theorem Built.userPage {guard : Option Nat} (h : Built x guard m s d sz) {q : Page}
    (hq : UserPage d q) : q ∈ m := by
  obtain ⟨v, e, he, hu, rfl⟩ := hq
  by_cases hv : v < userTop
  · exact pages_subset h hv he
  · rw [h.kernel v (not_lt.mp hv)] at he
    rw [user_kernelPte he] at hu
    cases hu

/-- **With short arguments** a call of `exec` that fails has changed nothing, and no call stops with a
fault. -/
theorem wp_exec_short (h : Proper x w.ram w.proc.pgdir w.proc.sz) (hl : w.locked = false)
    (hshort : Short 0 0 args) :
    wp (exec x path file args) (fun r w' => r = false → Unchanged w w') (fun _ => False) w := by
  unfold exec
  rw [wp_bind]
  refine wp_execImage h.intact (fun w' hb _ => hb.unchanged h hl)
    fun elf d sz w₁ hbegun hb haligned htwo => ?_
  have hstack : WithStack x w.ram.kmem.freelist w₁.ram d sz := ⟨hb, haligned, htwo⟩
  simp only [wp_bind, wp_get, wp_onRam]
  refine wp_post (wp_pushArgs_short hstack hshort) ?_
  rintro (- | sp) s₂ ⟨hk₂, hb₂⟩
  · -- the pages that have been written are free again
    have hfail : Begun w { w₁ with ram := s₂ } (some d) false := by
      refine ⟨?_, ?_, fun q hq => ?_, hbegun.proc, hbegun.ref, hbegun.locked, hbegun.begins,
        hbegun.ends⟩
      · rw [hk₂]
        exact hbegun.wild
      · rw [hk₂]
        exact hbegun.pages
      · by_contra hne
        refine hq (Multiset.mem_coe.mp (hb.userPage (hb₂ q fun hsame => hne ?_)))
        rw [hsame, hbegun.byte q hq]
    simp only [wp_bind]
    exact wp_post (wp_bad h.intact.good hfail) (fun _ w' hb _ => hb.unchanged h hl)
  · simp only [wp_bind]
    refine wp_post (wp_commit h hbegun (hstack.of_kmem hk₂)) (fun _ _ _ heq => ?_)
    cases heq

/-! ## A long argument -/

/-- The word at address 0 of a process, taken for a page-table entry, is one of the page `t`, which is
the second page of the process. -/
structure Aimed (s : Ram) (cur : Pgdir) (t : Page) : Prop where
  zero : ∃ e, cur.pte 0 = some e ∧ e.page ≠ t ∧ (load u32 0 (s.byte e.page)).toNat = t * pgsize + 5
  one : ∃ e, cur.pte 1 = some e ∧ e.page = t
  used : t ∉ s.kmem.freelist
  low : t * pgsize < phystop

variable {t : Page}

theorem maps_of_pte {v : Nat} {e : Pte} (hv : v < userTop) (he : d.pte v = some e) :
    maps d e.page = true := by
  refine List.any_eq_true.mpr ⟨v, List.mem_range.mpr hv, ?_⟩
  rw [he]
  simp

/-- Other pages do not matter. -/
theorem Aimed.congr {s' : Ram} (h : Aimed s cur t)
    (hfree : ∀ p ∈ s'.kmem.freelist, p ∈ s.kmem.freelist)
    (hbyte : ∀ e, cur.pte 0 = some e → e.page ≠ t → s'.byte e.page = s.byte e.page) :
    Aimed s' cur t := by
  obtain ⟨⟨e, he, hne, hword⟩, hone, hused, hlow⟩ := h
  refine ⟨⟨e, he, hne, ?_⟩, hone, fun hin => hused (hfree t hin), hlow⟩
  rw [hbyte e he hne]
  exact hword

/-- Where there is no page-table page, the second page of the process is found. -/
theorem Aimed.wp_uva2ka (h : Aimed s cur t) {v : Nat} (hv : d.pde (v / nptentries) = none)
    {Q : Dest → Ram → Prop} {E : Fault → Prop} (hQ : Q (.wild t) s) :
    wp (uva2ka cur d v) Q E s := by
  obtain ⟨e, he, -, hword⟩ := h.zero
  simp only [uva2ka, hv, he, wp_bind, wp_get, wordPage_eq hword h.low]
  exact hQ

theorem Aimed.wp_wildWrite (h : Aimed s cur t) {off : Nat} {bytes : List UInt8}
    {Q : Unit → Ram → Prop} {E : Fault → Prop} (hQ : wp (memmove t off bytes) Q E s) :
    wp (wildWrite cur d t off bytes) Q E s := by
  obtain ⟨e, he, hpage⟩ := h.one
  have hmaps : maps cur t = true ∨ maps d t = true := .inl (hpage ▸ maps_of_pte (by decide) he)
  simp only [wildWrite, wp_bind, wp_get, if_neg h.used, if_pos hmaps]
  exact hQ

/-- **A copy that starts below the devices** is written to the second page of the process, page by
page, until it fails at the devices. The last byte of the page is then the last byte that was to go
below the devices. -/
theorem wp_copyout_aimed {va : Nat} {buf : List UInt8} (himage : Image d sz) (hhole : Hole d)
    (h : Aimed s cur t) (hlo : kernbase + phystop ≤ va) (hhi : va < devspace)
    (hlen : devspace < va + buf.length) :
    wp (copyout cur d va buf) (fun r s' => r = false ∧ s'.kmem = s.kmem ∧
      (∀ q, q ≠ t → s'.byte q = s.byte q) ∧ s'.byte t 4095 = buf.getD (devspace - 1 - va) 0)
      (fun _ => False) s := by
  refine wp_copyout (fun k s' => va + k ≤ devspace ∧ s'.kmem = s.kmem ∧
    (∀ q, q ≠ t → s'.byte q = s.byte q) ∧
    (0 < k → s'.byte t ((va + k - 1) % pgsize) = buf.getD (k - 1) 0)) ?_
    ⟨hhi.le, rfl, fun _ _ => rfl, fun h => absurd h (lt_irrefl 0)⟩
    (fun s' hI => absurd hI.1 (by omega)) ?_
  · simp only [devspace] at hhi
    omega
  · rintro k c s₁ ⟨hk, hkmem, hbyte, hlast⟩ hpos hle hpage
    by_cases hbelow : va + k < devspace
    · have haim : Aimed s₁ cur t := h.congr (fun p hp => hkmem ▸ hp) fun e _ hne => hbyte e.page hne
      -- the chunk ends on the page where it starts, which is one below the devices
      have hchunk : va + k + c ≤ ((va + k) / 4096 + 1) * 4096 := by
        by_contra hover
        have hnext := hpage (((va + k) / 4096 + 1) * 4096 - (va + k)) (by omega)
        simp only [pageOf, pgsize, devspace] at hnext hbelow
        omega
      have htable : d.pde (pageOf (va + k) / nptentries) = none := by
        apply hhole <;>
          simp only [pageOf, kernbase, phystop, devspace, pgsize, nptentries] at hlo hbelow ⊢ <;>
          omega
      refine haim.wp_uva2ka htable (haim.wp_wildWrite ?_)
      have hoff : (va + (k + c) - 1) % 4096 = (va + k) % 4096 + (c - 1) := by omega
      have htake : ((buf.drop k).take c).length = c := by
        rw [List.length_take, List.length_drop]
        omega
      rw [memmove, wp_modify]
      refine ⟨?_, hkmem, fun q hq => ?_, fun _ => ?_⟩
      · simp only [devspace] at hbelow ⊢
        omega
      · exact (update_of_ne hq ..).trans (hbyte q hq)
      · simp only [update_self, pgsize, hoff, htake]
        rw [if_pos (by omega), Nat.add_sub_cancel_left, List.getD_eq_getElem?_getD,
          List.getElem?_take_of_lt (by omega), List.getElem?_drop, List.getD_eq_getElem?_getD]
        congr 2
        omega
    · -- the devices
      have hdev : va + k = devspace := by omega
      have hpg : devspace / pgsize ≤ pageOf devspace ∧ pageOf devspace < 2 ^ 20 := by decide
      obtain ⟨e, he, hu⟩ := himage.devices _ hpg.1 hpg.2
      rw [hdev]
      refine wp_uva2ka_none (isSome_table (by rw [he]; rfl)) ?_ ⟨rfl, hkmem, hbyte, ?_⟩
      · rintro ⟨e', he', hu'⟩
        rw [he] at he'
        cases he'
        rw [hu] at hu'
        cases hu'
      · have hbyte := hlast (by omega)
        have h4095 : (devspace - 1) % pgsize = 4095 := by decide
        rw [hdev, h4095] at hbyte
        rw [hbyte]
        congr 1
        omega

/-- **A long argument** overwrites the memory of the process, and `exec` fails. -/
theorem exec_overwrites {pre post : List (List UInt8)} {str : List UInt8}
    (h : Proper x w.ram w.proc.pgdir w.proc.sz) (hfree : npdentries + 3 < w.ram.kmem.freelist.length)
    (haim : Aimed w.ram w.proc.pgdir t) (hn : pre.length < maxarg) (hpre : depth 0 pre ≤ pgsize)
    (hlong : 2 * pgsize + argLimit < reach (depth 0 pre) str) (hlen : str.length < phystop)
    (hbyte : w.ram.byte t 4095 ≠
      (str ++ [0]).getD (reach (depth 0 pre) str - (2 * pgsize + argLimit) - 1) 0) :
    ∃ w', exec x path (some emptyProgram) (pre ++ str :: post) w = .ok (false, w') ∧
      ¬Unchanged w w' := by
  obtain ⟨e₁, he₁, ht⟩ := haim.one
  have htfree : t ∉ w.ram.kmem.freelist := haim.used
  obtain ⟨r, hr⟩ : ∃ r, r = depth 0 pre := ⟨_, rfl⟩
  obtain ⟨va, hva⟩ : ∃ va, va = 2 * pgsize + 2 ^ 32 - reach r str := ⟨_, rfl⟩
  rw [← hr] at hpre hlong hbyte
  have hreach : reach r str = (r + str.length + 4) / 4 * 4 := rfl
  have hrun : wp (exec x path (some emptyProgram) (pre ++ str :: post)) (fun r w' => r = false ∧
      ¬Unchanged w w') (fun _ => False) w := by
    unfold exec
    rw [wp_bind]
    refine wp_execImage_empty h.intact hfree fun elf d w₁ hbegun hstack hhole => ?_
    obtain ⟨e, he, hu⟩ := hstack.exists_top
    have hm := hstack.built.pages
    obtain ⟨sz, hsz⟩ : ∃ sz, sz = 2 * pgsize := ⟨_, rfl⟩
    simp only [wp_bind, wp_get, wp_onRam, pushArgs]
    rw [hbegun.proc]
    rw [← hsz] at hstack he ⊢
    have htop : sz / pgsize - 1 < userTop := by rw [hsz]; decide
    refine wp_pushStrings_fits (r := 0) hstack he hu rfl (hr ▸ hpre) (by simp; omega)
      fun ptrs s₁ hptrs hk₁ hb₁ => ?_
    have hcur : Aimed s₁ w.proc.pgdir t := by
      refine haim.congr (fun p hp => ?_) fun e' he' _ => ?_
      · rw [hk₁] at hp
        exact Multiset.mem_coe.mp (hm ▸ Multiset.mem_add.mpr (.inl (Multiset.mem_coe.mpr hp)))
      · have hused := not_free rfl h.nodup (mem_pages (by decide) he')
        have hne : e'.page ≠ e.page := fun heq =>
          hused (heq ▸ Multiset.mem_coe.mp (pages_subset hstack.built htop he))
        rw [hb₁ e'.page hne, hbegun.byte e'.page hused]
    have hsp : (sz - r + 2 ^ 32 - (str.length + 1)) % 2 ^ 32 / 4 * 4 = va := by
      rw [hsz]
      simp only [pgsize, argLimit, devspace, phystop] at hpre hlong hlen hva ⊢
      omega
    have hbuf : (str ++ [(0 : UInt8)]).length = str.length + 1 := by simp
    rw [List.length_nil, Nat.zero_add] at hptrs
    rw [pushStrings, if_neg (by omega), ← hr, hsp, wp_bind]
    refine wp_post (wp_copyout_aimed hstack.built.image hhole hcur ?_ ?_ ?_) ?_
    · simp only [pgsize, argLimit, devspace, phystop, kernbase] at hpre hlong hlen hva ⊢
      omega
    · simp only [pgsize, argLimit, devspace] at hlong hva ⊢
      omega
    · rw [hbuf]
      simp only [pgsize, argLimit, devspace] at hpre hlong hva ⊢
      omega
    · rintro ok s₂ ⟨rfl, hk₂, -, hlast⟩
      -- the rest of the call goes as from a state where the page had these bytes already
      obtain ⟨v, hv⟩ : ∃ v : Sys, v = { w with ram := { w.ram with byte := s₂.byte } } := ⟨_, rfl⟩
      have hfail : Begun v { w₁ with ram := s₂, proc := w.proc } (some d) false := by
        subst hv
        refine ⟨?_, ?_, fun _ _ => rfl, rfl, hbegun.ref, hbegun.locked, hbegun.begins,
          hbegun.ends⟩
        · rw [hk₂, hk₁]
          exact hbegun.wild
        · rw [hk₂, hk₁]
          exact hbegun.pages
      have hgood : ∀ p ∈ v.ram.kmem.freelist, x.Holds p := hv ▸ h.intact.good
      simp only [Bool.false_eq_true, if_false, wp_pure, wp_bind]
      refine wp_post (wp_bad hgood hfail) (fun _ w' hb => ⟨rfl, fun hun => hbyte ?_⟩)
      have hlast' : w'.ram.byte t 4095 = s₂.byte t 4095 := by
        rw [hb.byte t (by rw [hv]; exact htfree), hv]
      have hview := hun.memory (pgsize + 4095) (by decide)
      have hindex : devspace - 1 - va = reach r str - (2 * pgsize + argLimit) - 1 := by
        simp only [pgsize, argLimit, devspace, phystop] at hpre hlong hlen hva ⊢
        omega
      rw [view, view, show (pgsize + 4095) / pgsize = 1 by decide,
        show (pgsize + 4095) % pgsize = 4095 by decide, he₁, Option.map_some, Option.map_some, ht,
        hlast'] at hview
      rw [← Option.some.inj hview, ← hindex]
      exact hlast
  obtain ⟨r, w', hrun, rfl, hne⟩ := hrun.exists_ok
  exact ⟨w', hrun, hne⟩

/-- Arguments that are not short: the first long one that `exec` gets to. -/
theorem exists_long {n : Nat} (h : ¬Short r n args) :
    ∃ pre str post, args = pre ++ str :: post ∧ n + pre.length < maxarg ∧ depth r pre ≤ pgsize ∧
      2 * pgsize + argLimit < reach (depth r pre) str := by
  induction args generalizing r n with
  | nil => exact absurd trivial h
  | cons str args ih =>
    unfold Short at h
    push Not at h
    obtain ⟨hn, hr, hlong⟩ := h
    by_cases hstr : reach r str ≤ 2 * pgsize + argLimit
    · obtain ⟨pre, str', post, rfl, hlen, hdepth, hreach⟩ := ih (hlong hstr)
      refine ⟨str :: pre, str', post, rfl, ?_, hdepth, hreach⟩
      rw [List.length_cons]
      omega
    · exact ⟨[], str, args, rfl, hn, hr, not_le.mp hstr⟩

/-! ## A caller -/

/-- A machine with 12000 free pages. -/
def manyFree : Ram := ⟨⟨List.range' 5000 12000, false⟩, fun _ _ => 0⟩

theorem intact_manyFree : Intact bootLayout manyFree.kmem where
  wild := rfl
  nodup := List.nodup_range'
  good := fun (p : Nat) hp => by
    have hp := List.mem_range'_1.mp hp
    show 0x1154A8 ≤ p * 4096 ∧ p * 4096 < 0xE000000
    omega

/-- The contents of the pages of a caller: a word on the page `p` that is taken for an entry of the
page `t`, the byte `c` all over the page `t`, zeros on the page `z`, and letters on all others. -/
def callerByte (p t z : Page) (c : UInt8) (q : Page) : Nat → UInt8 :=
  if q = p then store u32 0 (UInt32.ofNat (t * pgsize + 5)) fun _ => 0
  else if q = t then fun _ => c
  else if q = z then fun _ => 0
  else fun _ => 97

theorem Built.proper {guard : Option Nat} (h : Built x guard m s d sz) : Proper x s d sz :=
  ⟨h.wild, h.pages.symm ▸ h.nodup, fun p hp => h.good p (h.pages ▸ hp), h.mapped.1, h.mapped.2⟩

/-- A caller of `n + 3` pages with a string of `n` pages in its memory. -/
theorem exists_caller (n : Nat) (c : UInt8) (hn : n < 8200) : ∃ (w : Sys) (t : Page),
    Proper bootLayout w.ram w.proc.pgdir w.proc.sz ∧ w.locked = false ∧
    npdentries + 3 < w.ram.kmem.freelist.length ∧ Aimed w.ram w.proc.pgdir t ∧
    (∀ i, w.ram.byte t i = c) ∧ StoredAt (view w.proc.pgdir w.ram.byte) (2 * pgsize)
      (List.replicate (n * pgsize) 97 ++ [0]) := by
  have hmax : n + 3 < userTop := lt_trans (Nat.add_lt_add_right hn 3) (by decide)
  have hlength : manyFree.kmem.freelist.length = 12000 := List.length_range'
  obtain ⟨-, -, d, s, -, -, hlen, -, hb, -⟩ := exists_built (n := n + 3) intact_manyFree
    (Nat.succ_pos _) hmax (by rw [hlength, npdentries]; omega)
  have hsize : pgroundup ((n + 3) * pgsize) = n + 3 := by
    simp only [pgroundup, pgsize]
    omega
  have hpte : ∀ v < n + 3, ∃ e, d.pte v = some e := fun v hv =>
    Option.isSome_iff_exists.mp ((hb.mapped.2 v (hv.trans hmax)).mpr (by rw [hsize]; exact hv))
  have hdup : d.pages.Nodup := (Multiset.nodup_add.mp (hb.pages.symm ▸ hb.nodup)).2.1
  -- different addresses have different pages
  have hne : ∀ {u v : Nat} {e e' : Pte}, u < n + 3 → v < n + 3 → d.pte u = some e →
      d.pte v = some e' → u ≠ v → e.page ≠ e'.page := fun hu hv he he' hne hpage =>
    hne (page_injective hdup (hu.trans hmax) (hv.trans hmax) he he' hpage)
  obtain ⟨e₀, he₀⟩ := hpte 0 (by omega)
  obtain ⟨e₁, he₁⟩ := hpte 1 (by omega)
  obtain ⟨e₂, he₂⟩ := hpte (n + 2) (by omega)
  have h₀₁ : e₀.page ≠ e₁.page := hne (by omega) (by omega) he₀ he₁ (by omega)
  have hlow : e₁.page * pgsize < phystop := (hb.good e₁.page (pages_subset hb (by decide) he₁)).2
  have hword : e₁.page * pgsize + 5 < 2 ^ 32 :=
    lt_of_lt_of_le (Nat.add_lt_add_right hlow 5) (by decide)
  have hb' : Built bootLayout none manyFree.kmem.freelist
      ⟨s.kmem, callerByte e₀.page e₁.page e₂.page c⟩ d ((n + 3) * pgsize) := hb.of_kmem rfl
  refine ⟨⟨⟨s.kmem, callerByte e₀.page e₁.page e₂.page c⟩, ⟨d, (n + 3) * pgsize, [], 0, 0⟩, 0, false,
    0, 0⟩, e₁.page, hb'.proper, rfl, ?_, ⟨⟨e₀, he₀, h₀₁, ?_⟩, ⟨e₁, he₁, rfl⟩, ?_, hlow⟩,
    fun i => ?_, fun j hj => ?_⟩
  · rw [hlength] at hlen
    simp only [npdentries] at hlen ⊢
    omega
  · simp only [callerByte, if_pos, load_store]
    exact UInt32.toNat_ofNat_of_lt' hword
  · exact not_free rfl (hb.pages.symm ▸ hb.nodup) (mem_pages (by decide) he₁)
  · simp only [callerByte, if_neg h₀₁.symm, if_pos]
  · rw [List.length_append, List.length_replicate, List.length_singleton] at hj
    have hv : (2 * pgsize + j) / pgsize = 2 + j / pgsize := by
      simp only [pgsize]
      omega
    have hle : 2 + j / pgsize < n + 3 := by
      simp only [pgsize] at hj ⊢
      omega
    obtain ⟨e, he⟩ := hpte _ hle
    have hzero := hne hle (by omega) he he₀ (by simp only [pgsize]; omega)
    have hone := hne hle (by omega) he he₁ (by simp only [pgsize]; omega)
    rw [view, hv, he, Option.map_some]
    simp only [callerByte, if_neg hzero, if_neg hone]
    by_cases hlast : j < n * pgsize
    · have hbefore : e.page ≠ e₂.page := by
        refine hne hle (by omega) he he₂ ?_
        simp only [pgsize] at hlast ⊢
        omega
      rw [if_neg hbefore, List.getElem?_append_left (by simpa using hlast),
        List.getElem?_replicate, if_pos hlast]
    · have hj : j = n * pgsize := by omega
      have hend : 2 + j / pgsize = n + 2 := by
        simp only [hj, pgsize]
        omega
      rw [hend, he₂] at he
      cases he
      rw [if_pos rfl, List.getElem?_append_right (by simp [hj])]
      simp [hj]

/-! ## The results -/

/-- **A failing `exec` changes nothing just when the arguments are short.** Arguments are strings in
the memory of a process, so they are shorter than the physical memory. -/
theorem exec_unchanged_iff (args : List (List UInt8)) (hlen : ∀ str ∈ args, str.length < phystop) :
    (∀ x w path file w', Proper x w.ram w.proc.pgdir w.proc.sz → w.locked = false →
      exec x path file args w = .ok (false, w') → Unchanged w w') ↔ Short 0 0 args := by
  constructor
  · intro h
    by_contra hshort
    obtain ⟨pre, str, post, rfl, hn, hpre, hlong⟩ := exists_long hshort
    obtain ⟨b, hb⟩ : ∃ b, b = (str ++ [(0 : UInt8)]).getD
        (reach (depth 0 pre) str - (2 * pgsize + argLimit) - 1) 0 := ⟨_, rfl⟩
    obtain ⟨c, hc⟩ : ∃ c : UInt8, c ≠ b := by
      by_cases hzero : b = 0
      · exact ⟨1, by rw [hzero]; decide⟩
      · exact ⟨0, Ne.symm hzero⟩
    obtain ⟨w, t, hproper, hl, hfree, haim, hbyte, -⟩ := exists_caller 0 c (by decide)
    obtain ⟨w', hrun, hne⟩ : ∃ w', exec bootLayout [] (some emptyProgram) (pre ++ str :: post) w =
        .ok (false, w') ∧ ¬Unchanged w w' :=
      exec_overwrites hproper hfree haim (Nat.zero_add pre.length ▸ hn) hpre hlong
        (hlen str (by simp)) (by rw [hbyte, ← hb]; exact hc)
    exact hne (h _ w _ _ w' hproper hl hrun)
  · intro hshort x w path file w' hproper hl hrun
    exact (wp_exec_short hproper hl hshort).ok hrun rfl

/-- The argument `ls`. -/
theorem exec_unchanged_iff_ls : Short 0 0 [[108, 115]] ∧ ∀ x w path file w',
    Proper x w.ram w.proc.pgdir w.proc.sz → w.locked = false →
    exec x path file [[108, 115]] w = .ok (false, w') → Unchanged w w' := by
  have hshort : Short 0 0 [[108, 115]] := fun _ _ => ⟨by decide, trivial⟩
  exact ⟨hshort, (exec_unchanged_iff [[108, 115]] (by decide)).mpr hshort⟩

/-- **A call that fails and has overwritten the memory of its caller**: the argument is a string of
8194 pages in the memory of the process. -/
theorem exec_fails_changed : ∃ w w', Proper bootLayout w.ram w.proc.pgdir w.proc.sz ∧
    StoredAt (view w.proc.pgdir w.ram.byte) (2 * pgsize) (List.replicate (8194 * pgsize) 97 ++ [0]) ∧
    exec bootLayout [] (some emptyProgram) [List.replicate (8194 * pgsize) 97] w = .ok (false, w') ∧
    ¬Unchanged w w' := by
  obtain ⟨w, t, hproper, -, hfree, haim, hbyte, hstored⟩ := exists_caller 8194 98 (by decide)
  obtain ⟨n, hn⟩ : ∃ n, n = 8194 * pgsize := ⟨_, rfl⟩
  have hreach : reach 0 (List.replicate n 97) = 2 * pgsize + argLimit + 4 := by
    rw [reach, List.length_replicate, hn]
    decide
  rw [← hn] at hstored ⊢
  have hlast : 3 < n := by rw [hn]; decide
  have hother : w.ram.byte t 4095 ≠ (List.replicate n (97 : UInt8) ++ [0]).getD
      (reach (depth 0 []) (List.replicate n 97) - (2 * pgsize + argLimit) - 1) 0 := by
    rw [depth, List.foldl_nil, hreach, hbyte, Nat.add_sub_cancel_left,
      List.getD_eq_getElem?_getD, List.getElem?_append_left (by simpa using hlast),
      List.getElem?_replicate, if_pos hlast]
    decide
  obtain ⟨w', hrun, hne⟩ : ∃ w', exec bootLayout [] (some emptyProgram)
      ([] ++ [List.replicate n 97]) w = .ok (false, w') ∧ ¬Unchanged w w' :=
    exec_overwrites hproper hfree haim (by decide) (by decide)
      (by rw [depth, List.foldl_nil, hreach]; omega) (by rw [List.length_replicate, hn]; decide)
      hother
  exact ⟨w, w', hproper, hstored, hrun, hne⟩

end Laboratorio.Xv6.Vm.Ram
