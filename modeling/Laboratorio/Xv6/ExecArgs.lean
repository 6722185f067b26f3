import Laboratorio.Xv6.ExecImage

/-!
# The arguments of `exec`

The stack of a new image is one page with a guard page below it. `exec` copies the strings to this
page from the top down, and then the array with their addresses. A string that does not fit reaches
the guard page, or it wraps around the address space and reaches the devices; both are mapped but not
for users, so `copyout` fails. Hence when `exec` succeeds everything is on the stack page, and
`PassesArgs` holds (`exec_passesArgs`).
-/

namespace Laboratorio.Xv6.Vm.Ram

open Function Laboratorio.Wp

/-- An image that ends with a guard page and a page for the stack. -/
structure WithStack (x : Layout) (m : Multiset Page) (s : Ram) (d : Pgdir) (sz : Nat) : Prop where
  built : Built x (some (sz / pgsize - 2)) m s d sz
  aligned : sz % pgsize = 0
  two : 2 * pgsize ≤ sz

/-- The virtual page is mapped, but not for users. -/
def Blocked (d : Pgdir) (v : Nat) : Prop := ∃ e, d.pte v = some e ∧ e.perm.u = false

variable {x : Layout} {m : Multiset Page} {s s' : Ram} {cur d : Pgdir} {sz sp : Nat} {e : Pte}
  {buf : List UInt8}

theorem WithStack.of_kmem (h : WithStack x m s d sz) (hk : s'.kmem = s.kmem) :
    WithStack x m s' d sz :=
  ⟨h.built.of_kmem hk, h.aligned, h.two⟩

theorem WithStack.lt (h : WithStack x m s d sz) : sz < kernbase := h.built.mapped.1

theorem WithStack.pgroundup (h : WithStack x m s d sz) : pgroundup sz = sz / pgsize := by
  have := h.aligned
  simp only [Vm.pgroundup, pgsize] at this ⊢
  omega

/-- The stack page is the user's. -/
theorem WithStack.exists_top (h : WithStack x m s d sz) :
    ∃ e, d.pte (sz / pgsize - 1) = some e ∧ e.perm.u = true := by
  have htwo := h.two
  have hlt : sz / pgsize - 1 < Vm.pgroundup sz := by
    rw [h.pgroundup]
    simp only [pgsize] at htwo ⊢
    omega
  have hv : sz / pgsize - 1 < userTop := lt_of_lt_of_le hlt (pgroundup_le_userTop h.lt.le)
  obtain ⟨e, he⟩ := Option.isSome_iff_exists.mp (h.built.image.below _ hlt)
  refine ⟨e, he, (h.built.user _ hv e he).mpr fun hg => ?_⟩
  have := Option.some.inj hg
  simp only [pgsize] at htwo this
  omega

theorem WithStack.guard_blocked (h : WithStack x m s d sz) : Blocked d (sz / pgsize - 2) := by
  have hlt := h.built.guard_lt _ rfl
  have hv : sz / pgsize - 2 < userTop := lt_of_lt_of_le hlt (pgroundup_le_userTop h.lt.le)
  obtain ⟨e, he⟩ := Option.isSome_iff_exists.mp (h.built.image.below _ hlt)
  refine ⟨e, he, ?_⟩
  have := (h.built.user _ hv e he).not.mpr fun hne => hne rfl
  simpa using this

/-- The stack pointer is in the stack page, or at its end. -/
structure InStack (sz sp : Nat) : Prop where
  aligned : sp % 4 = 0
  low : sz - pgsize ≤ sp
  high : sp ≤ sz

/-- What is pushed goes to the stack page, or to a range with a page that is not the user's. -/
theorem push_cases (h : WithStack x m s d sz) (hsp : InStack sz sp) {sp' n : Nat} (hn : 0 < n)
    (hsp' : sp' = (sp + 2 ^ 32 - n) % 2 ^ 32 / 4 * 4) :
    (sz - pgsize ≤ sp' ∧ sp' + n ≤ sp) ∨ ∃ i < n, Blocked d (pageOf (sp' + i)) := by
  obtain ⟨h4, hlow, hhigh⟩ := hsp
  have hlt := h.lt
  have htwo := h.two
  have haligned := h.aligned
  have hguard := h.guard_blocked
  -- an address of the guard page
  have hreach : ∀ i, sz ≤ sp' + i + 8192 → sp' + i + 4096 < sz → i < n →
      ∃ i < n, Blocked d (pageOf (sp' + i)) := by
    intro i hlo hhi hi
    refine ⟨i, hi, ?_⟩
    have hpage : pageOf (sp' + i) = sz / pgsize - 2 := by
      simp only [pageOf, pgsize, kernbase] at haligned hlt htwo ⊢
      omega
    rw [hpage]
    exact hguard
  simp only [pgsize, kernbase] at hlow hlt htwo haligned ⊢
  by_cases hfits : n ≤ sp
  · by_cases htop : sz - 4096 ≤ sp'
    · exact .inl ⟨htop, by omega⟩
    · right
      by_cases hmid : sz ≤ sp' + 8192
      · exact hreach 0 (by omega) (by omega) hn
      · exact hreach (sz - 8192 - sp') (by omega) (by omega) (by omega)
  · right
    by_cases hwrap : n ≤ sp + 2 ^ 32
    · -- the last address of all
      refine ⟨2 ^ 32 - 1 - sp', by omega, ?_⟩
      have hpage : pageOf (sp' + (2 ^ 32 - 1 - sp')) = 2 ^ 20 - 1 := by
        simp only [pageOf, pgsize]
        omega
      rw [hpage]
      exact h.built.image.devices _ (by decide) (by decide)
    · exact hreach (sz - 8192) (by omega) (by omega) (by omega)

/-! ## One copy -/

/-- `copyout` within a page of the user. -/
theorem wp_copyout_page {va : Nat} {Q : Bool → Ram → Prop} {E : Fault → Prop}
    (he : d.pte (va / pgsize) = some e) (hu : e.perm.u = true) (hva : va < 2 ^ 32)
    (hpos : 0 < buf.length) (hfits : va % pgsize + buf.length ≤ pgsize)
    (hQ : wp (memmove e.page (va % pgsize) buf) (fun _ s' => Q true s') E s) :
    wp (copyout cur d va buf) Q E s := by
  have hpage : va / pgsize = pageOf va := by rw [pageOf, Nat.mod_eq_of_lt hva]
  have hmin : min (pgsize - va % pgsize) buf.length = buf.length := min_eq_right (by omega)
  rw [copyout, dif_pos hpos]
  simp only [hmin, List.take_length, List.drop_length, copyout_nil, wp_bind]
  rw [hpage] at he ⊢
  exact wp_uva2ka_user he hu hQ

/-- What a process sees after bytes have been moved to an address of the page of `e`. -/
theorem view_memmove {va a : Nat} (he : d.pte (va / pgsize) = some e)
    (ha : a / pgsize = va / pgsize) :
    view d (update s.byte e.page fun o =>
      if va % pgsize ≤ o ∧ o < va % pgsize + buf.length then buf.getD (o - va % pgsize) 0
      else s.byte e.page o) a =
    if va ≤ a ∧ a < va + buf.length then buf[a - va]? else view d s.byte a := by
  have hsplit : va % pgsize ≤ a % pgsize ∧ a % pgsize < va % pgsize + buf.length ↔
      va ≤ a ∧ a < va + buf.length := by
    simp only [pgsize] at ha ⊢
    omega
  rw [view, view, ha, he, Option.map_some, Option.map_some, update_self]
  simp only [hsplit]
  split
  · next hin =>
    have hoff : a % pgsize - va % pgsize = a - va := by
      simp only [pgsize] at ha ⊢
      omega
    rw [hoff, List.getElem?_eq_getElem (by omega), List.getD_eq_getElem _ _ (by omega)]
  · rfl

/-- `f'` is `f` on the stack but for `buf`, which is at `sp'`. -/
def Writes (f f' : Nat → Option UInt8) (sz sp' : Nat) (buf : List UInt8) : Prop :=
  ∀ a, sz - pgsize ≤ a → a < sz →
    f' a = if sp' ≤ a ∧ a < sp' + buf.length then buf[a - sp']? else f a

/-- A push to the stack page. -/
theorem wp_push_page {sp' : Nat} (h : WithStack x m s d sz) (he : d.pte (sz / pgsize - 1) = some e)
    (hu : e.perm.u = true) (hpos : 0 < buf.length) (hlow : sz - pgsize ≤ sp')
    (hend : sp' + buf.length ≤ sz) :
    wp (copyout cur d sp' buf) (fun r s' => r = true ∧ s'.kmem = s.kmem ∧
      (∀ q, q ≠ e.page → s'.byte q = s.byte q) ∧
      Writes (view d s.byte) (view d s'.byte) sz sp' buf) (fun _ => False) s := by
  have haligned := h.aligned
  have htwo := h.two
  have hlt : sp' < 2 ^ 32 := by
    have hsz := h.lt
    simp only [kernbase] at hsz
    omega
  have hpage : ∀ a, sz - pgsize ≤ a → a < sz → a / pgsize = sz / pgsize - 1 := by
    intro a hlo hhi
    simp only [pgsize] at hlo haligned htwo ⊢
    omega
  have hspage := hpage sp' hlow (by omega)
  have hfits : sp' % pgsize + buf.length ≤ pgsize := by
    simp only [pgsize] at hlow haligned htwo ⊢
    omega
  rw [← hspage] at he
  refine wp_copyout_page he hu hlt hpos hfits ?_
  rw [memmove, wp_modify]
  refine ⟨rfl, rfl, fun q hq => update_of_ne hq .., fun a hlo hhi => ?_⟩
  exact view_memmove he ((hpage a hlo hhi).trans hspage.symm)

/-- **A push that succeeds** has put the bytes on the stack page, below the stack pointer. -/
theorem wp_push {sp' : Nat} (h : WithStack x m s d sz) (he : d.pte (sz / pgsize - 1) = some e)
    (hu : e.perm.u = true) (hsp : InStack sz sp) (hpos : 0 < buf.length)
    (hsp' : sp' = (sp + 2 ^ 32 - buf.length) % 2 ^ 32 / 4 * 4) :
    wp (copyout cur d sp' buf) (fun r s' => r = true → InStack sz sp' ∧ sp' + buf.length ≤ sp ∧
      s'.kmem = s.kmem ∧ (∀ q, q ≠ e.page → s'.byte q = s.byte q) ∧
      Writes (view d s.byte) (view d s'.byte) sz sp' buf) (fun _ => True) s := by
  rcases push_cases h hsp hpos hsp' with ⟨hlow, hend⟩ | ⟨i, hi, e', he', hu'⟩
  · have hhigh := hsp.high
    refine wp_mono (wp_push_page h he hu hpos hlow (by omega)) ?_ fun _ he => he.elim
    rintro r s' ⟨-, hk, hb, hw⟩ -
    exact ⟨⟨by omega, hlow, by omega⟩, hend, hk, hb, hw⟩
  · have hlt : sp' < 2 ^ 32 := by omega
    refine wp_post (wp_copyout_blocked hlt hi he' hu') (fun r s' hr hr' => ?_)
    rw [hr] at hr'
    cases hr'

/-! ## The strings -/

/-- The bytes are at the address. -/
def StoredAt (f : Nat → Option UInt8) (a : Nat) (bytes : List UInt8) : Prop :=
  ∀ j < bytes.length, f (a + j) = bytes[j]?

/-- The strings that have been pushed, with their addresses: they are on the stack, and each one is
below those before it. -/
structure Pushed (f : Nat → Option UInt8) (sz sp : Nat) (pushed : List (Nat × List UInt8)) :
    Prop where
  stack : InStack sz sp
  inside : ∀ q ∈ pushed, sp ≤ q.1 ∧ q.1 + q.2.length + 1 ≤ sz
  stored : ∀ q ∈ pushed, StoredAt f q.1 (q.2 ++ [0])
  disjoint : pushed.Pairwise fun a b => b.1 + b.2.length + 1 ≤ a.1

section Push

variable {f f' : Nat → Option UInt8} {sp' : Nat} {pushed : List (Nat × List UInt8)}

theorem Writes.stored (h : Writes f f' sz sp' buf) (hlow : sz - pgsize ≤ sp')
    (hend : sp' + buf.length ≤ sz) : StoredAt f' sp' buf := by
  intro j hj
  rw [h (sp' + j) (by omega) (by omega), if_pos (by omega), Nat.add_sub_cancel_left]

/-- What is above stays. -/
theorem Writes.other (h : Writes f f' sz sp' buf) {a : Nat} {bytes : List UInt8}
    (hlow : sz - pgsize ≤ sp') (habove : sp' + buf.length ≤ a) (hend : a + bytes.length ≤ sz)
    (hs : StoredAt f a bytes) : StoredAt f' a bytes := by
  intro j hj
  rw [h (a + j) (by omega) (by omega), if_neg (by omega)]
  exact hs j hj

theorem Pushed.writes (h : Pushed f sz sp pushed) (hw : Writes f f' sz sp' buf)
    (hlow : sz - pgsize ≤ sp') (hend : sp' + buf.length ≤ sp) :
    ∀ q ∈ pushed, StoredAt f' q.1 (q.2 ++ [0]) := by
  intro q hq
  obtain ⟨hsp, hsz⟩ := h.inside q hq
  refine hw.other hlow (by omega) ?_ (h.stored q hq)
  rw [List.length_append, List.length_singleton]
  omega

/-- One more string. -/
theorem Pushed.push {str : List UInt8} (h : Pushed f sz sp pushed)
    (hw : Writes f f' sz sp' (str ++ [0])) (hin : InStack sz sp')
    (hend : sp' + (str ++ [0]).length ≤ sp) : Pushed f' sz sp' (pushed ++ [(sp', str)]) := by
  have hhigh := h.stack.high
  have hlen : (str ++ [0]).length = str.length + 1 := by simp
  refine ⟨hin, fun q hq => ?_, fun q hq => ?_, ?_⟩
  · rcases List.mem_append.mp hq with hold | hnew
    · obtain ⟨hsp, hsz⟩ := h.inside q hold
      exact ⟨by omega, hsz⟩
    · rw [List.mem_singleton.mp hnew]
      exact ⟨le_rfl, by simp only; omega⟩
  · rcases List.mem_append.mp hq with hold | hnew
    · exact h.writes hw hin.low hend q hold
    · rw [List.mem_singleton.mp hnew]
      exact hw.stored hin.low (by omega)
  · refine List.pairwise_append.mpr ⟨h.disjoint, List.pairwise_singleton .., fun a ha b hb => ?_⟩
    rw [List.mem_singleton.mp hb]
    have := (h.inside a ha).1
    simp only
    omega

end Push

/-- **The loop over the strings.** -/
theorem wp_pushStrings {args : List (List UInt8)} {ptrs : List Nat}
    {pushed : List (Nat × List UInt8)} (h : WithStack x m s d sz)
    (he : d.pte (sz / pgsize - 1) = some e) (hu : e.perm.u = true)
    (hp : Pushed (view d s.byte) sz sp pushed) (hptrs : pushed.map Prod.fst = ptrs) :
    wp (pushStrings cur d sp ptrs args) (fun r s' => ∀ sp' ptrs', r = some (sp', ptrs') →
      s'.kmem = s.kmem ∧ (∀ q, q ≠ e.page → s'.byte q = s.byte q) ∧
      ∃ new, new.map Prod.fst = ptrs' ∧ new.map Prod.snd = pushed.map Prod.snd ++ args ∧
        Pushed (view d s'.byte) sz sp' new) (fun _ => True) s := by
  induction args generalizing s sp ptrs pushed with
  | nil =>
    intro sp' ptrs' heq
    cases heq
    exact ⟨rfl, fun _ _ => rfl, pushed, hptrs, (List.append_nil _).symm, hp⟩
  | cons str args ih =>
    unfold pushStrings
    split
    · exact fun _ _ => nofun
    · have hlen : (str ++ [(0 : UInt8)]).length = str.length + 1 := by simp
      have hpos : 0 < (str ++ [(0 : UInt8)]).length := by omega
      simp only [wp_bind]
      refine wp_post (wp_push h he hu hp.stack hpos (by rw [hlen])) (fun ok s₁ h₁ => ?_)
      cases ok with
      | false => exact fun _ _ => nofun
      | true =>
        obtain ⟨hin, hend, hkmem, hbyte, hw⟩ := h₁ rfl
        have hp₁ := hp.push hw hin hend
        simp only [if_true]
        refine wp_post (ih (h.of_kmem hkmem) hp₁ (by rw [List.map_append, hptrs]; rfl)) ?_
        intro r s' hr sp' ptrs' heq
        obtain ⟨hk', hb', new, hfst, hsnd, hp'⟩ := hr sp' ptrs' heq
        refine ⟨hk'.trans hkmem, fun q hq => (hb' q hq).trans (hbyte q hq), new, hfst, ?_, hp'⟩
        rw [hsnd, List.map_append, List.append_assoc]
        rfl

/-! ### Strings that fit -/

/-- How far below the end of the stack a string reaches that is pushed when the stack pointer is `r`
below it. -/
def reach (r : Nat) (str : List UInt8) : Nat := (r + str.length + 4) / 4 * 4

/-- How far below the end of the stack several strings reach. -/
def depth (r : Nat) (args : List (List UInt8)) : Nat := args.foldl reach r

theorem le_depth (r : Nat) (args : List (List UInt8)) : r ≤ depth r args := by
  induction args generalizing r with
  | nil => exact le_rfl
  | cons str args ih =>
    refine le_trans ?_ (ih (reach r str))
    unfold reach
    omega

/-- Strings that fit on the stack page are pushed, and the loop goes on with the rest. -/
theorem wp_pushStrings_fits {args rest : List (List UInt8)} {ptrs : List Nat} {r : Nat}
    {Q : Option (Nat × List Nat) → Ram → Prop} {E : Fault → Prop} (h : WithStack x m s d sz)
    (he : d.pte (sz / pgsize - 1) = some e) (hu : e.perm.u = true) (hr : r % 4 = 0)
    (hfits : depth r args ≤ pgsize) (hn : ptrs.length + args.length ≤ maxarg)
    (hrest : ∀ ptrs' s', ptrs'.length = ptrs.length + args.length → s'.kmem = s.kmem →
      (∀ q, q ≠ e.page → s'.byte q = s.byte q) →
      wp (pushStrings cur d (sz - depth r args) ptrs' rest) Q E s') :
    wp (pushStrings cur d (sz - r) ptrs (args ++ rest)) Q E s := by
  induction args generalizing s r ptrs with
  | nil => exact hrest ptrs s rfl rfl fun _ _ => rfl
  | cons str args ih =>
    have hlen : (str ++ [(0 : UInt8)]).length = str.length + 1 := by simp
    obtain ⟨r', hr'⟩ : ∃ r', r' = reach r str := ⟨_, rfl⟩
    replace hfits : depth r' args ≤ pgsize := hr' ▸ hfits
    have hle := le_depth r' args
    have hreach : r' = (r + str.length + 4) / 4 * 4 := hr'
    have hsp : (sz - r + 2 ^ 32 - (str.length + 1)) % 2 ^ 32 / 4 * 4 = sz - r' := by
      have hlt := h.lt
      have htwo := h.two
      have haligned := h.aligned
      simp only [kernbase, pgsize] at hlt htwo haligned hfits
      omega
    rw [List.cons_append, pushStrings, if_neg (by rw [List.length_cons] at hn; omega), hsp, wp_bind]
    refine wp_mono (wp_push_page h he hu (by omega) (by omega) ?_) ?_ fun _ he => he.elim
    · have htwo := h.two
      simp only [pgsize] at htwo hfits
      omega
    · rintro ok s₁ ⟨rfl, hk₁, hb₁, -⟩
      simp only [if_true]
      refine ih (h.of_kmem hk₁) (by omega) hfits ?_ fun ptrs' s' hl hk hb => ?_
      · rw [List.length_append, List.length_singleton]
        rw [List.length_cons] at hn
        omega
      · rw [hr']
        refine hrest ptrs' s' ?_ (hk.trans hk₁) fun q hq => (hb q hq).trans (hb₁ q hq)
        rw [hl, List.length_append, List.length_singleton, List.length_cons]
        omega

/-! ## The array -/

/-- The word at an address. -/
def wordAt (f : Nat → Option UInt8) (a : Nat) : Option Nat := do
  let b0 ← f a
  let b1 ← f (a + 1)
  let b2 ← f (a + 2)
  let b3 ← f (a + 3)
  return b0.toNat + 256 * b1.toNat + 65536 * b2.toNat + 16777216 * b3.toNat

theorem length_words (ws : List Nat) : (ws.flatMap wordBytes).length = 4 * ws.length := by
  induction ws with
  | nil => rfl
  | cons w ws ih =>
    rw [List.flatMap_cons, List.length_append, ih, List.length_cons]
    simp only [wordBytes, List.length_map, List.length_range]
    omega

/-- The words of an array that is in memory. -/
theorem wordAt_of_stored {f : Nat → Option UInt8} {ws : List Nat} {a : Nat}
    (h : StoredAt f a (ws.flatMap wordBytes)) (hws : ∀ w ∈ ws, w < 2 ^ 32) {i : Nat}
    (hi : i < ws.length) : wordAt f (a + 4 * i) = some ws[i] := by
  induction ws generalizing a i with
  | nil => cases hi
  | cons w ws ih =>
    have hbytes : (w :: ws).flatMap wordBytes = wordBytes w ++ ws.flatMap wordBytes := rfl
    have hlen : (wordBytes w).length = 4 := rfl
    have hall := length_words ws
    rw [hbytes] at h
    cases i with
    | zero =>
      have hbyte : ∀ j < 4, f (a + j) = some (UInt8.ofNat (w / 256 ^ j)) := by
        intro j hj
        rw [h j (by rw [List.length_append]; omega), List.getElem?_append_left (by omega)]
        simp [wordBytes, List.getElem?_range hj]
      have hw := hws w List.mem_cons_self
      have h0 := hbyte 0 (by omega)
      have h1 := hbyte 1 (by omega)
      have h2 := hbyte 2 (by omega)
      have h3 := hbyte 3 (by omega)
      simp only [Nat.mul_zero, Nat.add_zero] at h0 ⊢
      simp only [wordAt, h0, h1, h2, h3, Option.bind_eq_bind, Option.bind_some,
        UInt8.toNat_ofNat', Option.pure_def, List.getElem_cons_zero, Option.some.injEq]
      omega
    | succ i =>
      have hrest : StoredAt f (a + 4) (ws.flatMap wordBytes) := by
        intro j hj
        have := h (4 + j) (by rw [List.length_append]; omega)
        rw [List.getElem?_append_right (by omega), hlen, Nat.add_sub_cancel_left] at this
        rw [Nat.add_assoc]
        exact this
      have := ih hrest (fun w hw => hws w (List.mem_cons_of_mem _ hw))
        (Nat.lt_of_succ_lt_succ hi)
      rw [List.getElem_cons_succ, ← this]
      congr 1
      omega

/-- **What `exec` promises about the stack** of a process of size `sz` that sees its memory as `f`:
the fake return address, `argc`, `argv`, the array `argv` with a 0 at its end, and the strings, which
overlap neither each other nor the array. -/
structure PassesArgs (f : Nat → Option UInt8) (sz sp : Nat) (args : List (List UInt8)) : Prop where
  aligned : sp % 4 = 0
  top : sz - pgsize ≤ sp ∧ sp < sz
  fits : sp + 12 + 4 * (args.length + 1) ≤ sz
  ret : wordAt f sp = some 0xffffffff
  argc : wordAt f (sp + 4) = some args.length
  argv : wordAt f (sp + 8) = some (sp + 12)
  strings : ∃ pushed : List (Nat × List UInt8), pushed.map Prod.snd = args ∧
    (∀ i (hi : i < pushed.length), wordAt f (sp + 12 + 4 * i) = some pushed[i].1) ∧
    wordAt f (sp + 12 + 4 * args.length) = some 0 ∧
    (∀ q ∈ pushed, StoredAt f q.1 (q.2 ++ [0]) ∧
      sp + 12 + 4 * (args.length + 1) ≤ q.1 ∧ q.1 + q.2.length + 1 ≤ sz) ∧
    pushed.Pairwise fun a b => b.1 + b.2.length + 1 ≤ a.1

theorem wordAt_congr {f f' : Nat → Option UInt8} {a : Nat} (h : ∀ j < 4, f' (a + j) = f (a + j)) :
    wordAt f' a = wordAt f a := by
  have h0 := h 0 (by omega)
  rw [Nat.add_zero] at h0
  simp only [wordAt, h0, h 1 (by omega), h 2 (by omega), h 3 (by omega)]

/-- Only the stack page matters. -/
theorem PassesArgs.congr {f f' : Nat → Option UInt8} {args : List (List UInt8)}
    (h : PassesArgs f sz sp args) (hf : ∀ a, sz - pgsize ≤ a → a < sz → f' a = f a) :
    PassesArgs f' sz sp args := by
  have hlow := h.top.1
  have hfits := h.fits
  have hword : ∀ k, k + 4 ≤ 12 + 4 * (args.length + 1) →
      wordAt f' (sp + k) = wordAt f (sp + k) := by
    intro k hk
    exact wordAt_congr fun j hj => hf _ (by omega) (by omega)
  obtain ⟨pushed, hargs, hptrs, hnull, hstored, hdisjoint⟩ := h.strings
  have hlen : pushed.length = args.length := by rw [← hargs, List.length_map]
  refine ⟨h.aligned, h.top, h.fits, ?_, ?_, ?_, pushed, hargs, fun i hi => ?_, ?_, fun q hq => ?_,
    hdisjoint⟩
  · exact (hword 0 (by omega)).trans h.ret
  · exact (hword 4 (by omega)).trans h.argc
  · exact (hword 8 (by omega)).trans h.argv
  · have := hword (12 + 4 * i) (by omega)
    rw [← Nat.add_assoc] at this
    exact this.trans (hptrs i hi)
  · have := hword (12 + 4 * args.length) (by omega)
    rw [← Nat.add_assoc] at this
    exact this.trans hnull
  · obtain ⟨hs, hlo, hhi⟩ := hstored q hq
    refine ⟨fun j hj => ?_, hlo, hhi⟩
    have hlen : (q.2 ++ [(0 : UInt8)]).length = q.2.length + 1 := by simp
    rw [hf _ (by omega) (by omega)]
    exact hs j hj

/-- **Pushing the arguments.** -/
theorem wp_pushArgs_stack {args : List (List UInt8)} (h : WithStack x m s d sz)
    (he : d.pte (sz / pgsize - 1) = some e) (hu : e.perm.u = true) :
    wp (pushArgs cur d sz args) (fun r s' => ∀ sp, r = some sp → s'.kmem = s.kmem ∧
      (∀ q, q ≠ e.page → s'.byte q = s.byte q) ∧ PassesArgs (view d s'.byte) sz sp args)
      (fun _ => True) s := by
  have hlt := h.lt
  have hstart : Pushed (view d s.byte) sz sz [] := by
    refine ⟨⟨?_, Nat.sub_le .., le_rfl⟩, (fun _ h => by cases h), (fun _ h => by cases h),
      List.Pairwise.nil⟩
    have := h.aligned
    simp only [pgsize] at this
    omega
  unfold pushArgs
  refine wp_then (wp_pushStrings h he hu hstart rfl) (fun r s₁ h₁ => ?_)
  cases r with
  | none => exact fun _ h => by cases h
  | some r =>
    obtain ⟨sp, ptrs⟩ := r
    obtain ⟨hk₁, hb₁, pushed, hfst, hsnd, hp⟩ := h₁ sp ptrs rfl
    have hargs : args.length = ptrs.length := by
      rw [← hfst, List.length_map, ← List.length_map (f := Prod.snd), hsnd]
      rfl
    have hustack : (ustack sp ptrs).length = ptrs.length + 4 := by
      simp only [ustack, List.length_append, List.length_cons, List.length_nil]
      omega
    have hlen : ((ustack sp ptrs).flatMap wordBytes).length = (3 + ptrs.length + 1) * 4 := by
      rw [length_words, hustack]
      omega
    have hstack := hp.stack
    have h4 := hstack.aligned
    obtain ⟨sp', hsp'⟩ : ∃ sp', sp' = (sp + 2 ^ 32 - (3 + ptrs.length + 1) * 4) % 2 ^ 32 :=
      ⟨_, rfl⟩
    -- the size of the array is a multiple of 4, so that nothing is rounded
    have hround : sp' = (sp + 2 ^ 32 - ((ustack sp ptrs).flatMap wordBytes).length) %
        2 ^ 32 / 4 * 4 := by
      rw [hlen]
      omega
    simp only [wp_bind, ← hsp']
    refine wp_post (wp_push (h.of_kmem hk₁) he hu hstack (by omega) hround) (fun ok s₂ h₂ => ?_)
    cases ok with
    | false => exact fun _ h => by cases h
    | true =>
      obtain ⟨hin, hend, hk₂, hb₂, hw⟩ := h₂ rfl
      intro sp'' heq
      cases heq
      have hhigh := hstack.high
      rw [hlen] at hend
      simp only [kernbase] at hlt
      have hwords := hw.stored hin.low (by omega)
      have hsmall : ∀ w ∈ ustack sp ptrs, w < 2 ^ 32 := by
        intro w hw
        simp only [ustack, List.mem_append, List.mem_cons, List.not_mem_nil, or_false] at hw
        rcases hw with ((rfl | rfl | rfl) | hptr) | rfl
        · decide
        · omega
        · omega
        · rw [← hfst] at hptr
          obtain ⟨q, hq, rfl⟩ := List.mem_map.mp hptr
          have := (hp.inside q hq).2
          omega
        · decide
      have hword : ∀ i w, (ustack sp ptrs)[i]? = some w →
          wordAt (view d s₂.byte) (sp' + 4 * i) = some w := by
        intro i w hi
        obtain ⟨hlt, rfl⟩ := List.getElem?_eq_some_iff.mp hi
        exact wordAt_of_stored hwords hsmall hlt
      refine ⟨hk₂.trans hk₁, fun q hq => (hb₂ q hq).trans (hb₁ q hq), hin.aligned,
        ⟨hin.low, by omega⟩, by omega, hword 0 _ rfl, ?_, ?_, pushed, hsnd, fun i hi => ?_, ?_,
        fun q hq => ⟨?_, ?_⟩, hp.disjoint⟩
      · rw [hargs]
        exact hword 1 _ rfl
      · have hargv : (sp + 2 ^ 32 - (ptrs.length + 1) * 4) % 2 ^ 32 = sp' + 12 := by omega
        rw [← hargv]
        exact hword 2 _ rfl
      · have := hword (3 + i) pushed[i].1 ?_
        · rw [← this]
          congr 1
          omega
        · have hlt : i < ptrs.length := by rw [← hfst, List.length_map]; exact hi
          have hget : ptrs[i]? = some pushed[i].1 := by
            rw [← hfst, List.getElem?_map, List.getElem?_eq_getElem hi]
            rfl
          rw [ustack, List.getElem?_append_left (by simp; omega),
            List.getElem?_append_right (by simp), ← hget]
          congr 1
          simp
      · have := hword (3 + ptrs.length) 0 ?_
        · rw [← this, hargs]
          congr 1
          omega
        · have hfront : ∀ a b c : Nat, ([a, b, c] ++ ptrs).length = 3 + ptrs.length := by
            intro a b c
            rw [List.length_append]
            rfl
          rw [ustack, List.getElem?_append_right (hfront ..).le, hfront, Nat.sub_self]
          rfl
      · exact hp.writes hw hin.low (hlen ▸ hend) q hq
      · have := hp.inside q hq
        omega

/-! ## `exec` -/

variable {w : Sys} {path : List UInt8} {file : Option Inode} {args : List (List UInt8)}

/-- A process that calls `exec` leaves the allocator intact. -/
theorem Proper.intact (h : Proper x w.ram w.proc.pgdir w.proc.sz) : Intact x w.ram.kmem where
  wild := h.wild
  nodup := Multiset.coe_nodup.mp (Multiset.nodup_add.mp h.nodup).1
  good p hp := h.good p (Multiset.mem_add.mpr (.inl (Multiset.mem_coe.mpr hp)))

/-- The new image takes the place of the old one, whose pages are free afterwards. -/
theorem wp_commit {w₁ : Sys} {elf : Elfhdr} (h : Proper x w.ram w.proc.pgdir w.proc.sz)
    (hbegun : Begun w w₁ (some d) false) (hstack : WithStack x w.ram.kmem.freelist s d sz) :
    wp (commit x path elf d sz sp) (fun _ w' => w'.proc.pgdir = d ∧ w'.proc.sz = sz ∧
      w'.proc.esp = sp ∧ WithStack x (w.ram.kmem.freelist + w.proc.pgdir.pages) w'.ram d sz ∧
      ∀ a < kernbase, view d w'.ram.byte a = view d s.byte a) (fun _ => False)
      { w₁ with ram := s } := by
  have hb := hstack.built
  simp only [commit, wp_bind, wp_get, wp_set, wp_onRam, hbegun.proc]
  refine wp_post (wp_freevm fun p hp => h.good p (Multiset.mem_add.mpr (.inr hp))) ?_
  rintro - s' ⟨hfree, hwild, hf⟩
  have hpages : (s'.kmem.freelist : Multiset Page) + d.pages =
      (w.ram.kmem.freelist : Multiset Page) + w.proc.pgdir.pages := by
    rw [hfree, ← hb.pages]
    abel
  refine ⟨trivial, trivial, trivial, ⟨⟨h.nodup, h.good, hwild.trans hb.wild, hpages, hb.mapped,
    hb.guard_lt, hb.user, hb.kernel⟩, hstack.aligned, hstack.two⟩, fun a ha => ?_⟩
  unfold view
  cases he : d.pte (a / pgsize) with
  | none => rfl
  | some e =>
    have hmem := mem_pages (div_lt_userTop' ha) he
    rw [Option.map_some, Option.map_some,
      (hf.2 e.page).resolve_right (not_free hpages h.nodup hmem)]

/-- **When `exec` succeeds**, the process has an image with a stack, and its arguments are there. -/
theorem wp_exec_success (h : Proper x w.ram w.proc.pgdir w.proc.sz) :
    wp (exec x path file args) (fun r w' => r = true →
      WithStack x (w.ram.kmem.freelist + w.proc.pgdir.pages) w'.ram w'.proc.pgdir w'.proc.sz ∧
      PassesArgs (view w'.proc.pgdir w'.ram.byte) w'.proc.sz w'.proc.esp args)
      (fun _ => True) w := by
  unfold exec
  rw [wp_bind]
  refine wp_execImage h.intact (fun w' _ h => by cases h) fun elf d sz w₁ hbegun hb haligned htwo => ?_
  have hstack : WithStack x w.ram.kmem.freelist w₁.ram d sz := ⟨hb, haligned, htwo⟩
  obtain ⟨e, he, hu⟩ := hstack.exists_top
  simp only [wp_bind, wp_get, wp_onRam]
  refine wp_post (wp_pushArgs_stack hstack he hu) (fun r s₂ h₂ => ?_)
  cases r with
  | none =>
    simp only [wp_bind]
    refine wp_of_ends (fun _ _ _ => ?_) fun _ _ => trivial
    exact fun h => by cases h
  | some sp =>
    obtain ⟨hk₂, -, hargs⟩ := h₂ sp rfl
    simp only [wp_bind]
    refine wp_mono (wp_commit h hbegun (hstack.of_kmem hk₂)) ?_ fun _ _ => trivial
    rintro - w' ⟨rfl, rfl, rfl, hnew, hview⟩ -
    exact ⟨hnew, hargs.congr fun a _ ha => hview a (ha.trans hstack.lt)⟩

/-! ### A file without segments -/

theorem wp_clearpteu_hole {v : Nat} (hv : v < userTop) (h : Hole d) :
    wp (onKmem (clearpteu d v)) (fun d' _ => Hole d') (fun _ => True) s := by
  rw [wp_onKmem]
  unfold clearpteu
  split
  · trivial
  · intro i hlo hhi
    rw [pde_setPte_of_ne, h i hlo hhi]
    simp only [userTop, kernbase, phystop, pgsize, nptentries] at hv hlo ⊢
    omega

/-- With enough free pages there is an image of `n` pages, made from free pages. -/
theorem exists_built {n : Nat} (h : Intact x s.kmem) (hn : 0 < n) (hmax : n < userTop)
    (hfree : npdentries + n + 1 < s.kmem.freelist.length) :
    ∃ d₀ s₁ d s₂, setupkvm x s = .ok (some d₀, s₁) ∧
      allocuvm x d₀ 0 (n * pgsize) s₁ = .ok ((d, n * pgsize), s₂) ∧
      s.kmem.freelist.length ≤ s₂.kmem.freelist.length + (npdentries + n + 1) ∧ Hole d ∧
      Built x none s.kmem.freelist s₂ d (n * pgsize) ∧
      ∀ q ∉ s.kmem.freelist, s₂.byte q = s.byte q := by
  have hnodup : (s.kmem.freelist : Multiset Page).Nodup := Multiset.coe_nodup.mpr h.nodup
  obtain ⟨d₀, s₁, d, s₂, hsetup, halloc, hlen, hhole⟩ := exists_image (x := x) h.wild hn hmax hfree
  have h₀ := (wp_setupkvm (x := x) h.wild h.good
    (Q := fun r s' => ∀ d, r = some d → Keeps s.kmem.freelist s d s' ∧
      Built x none s.kmem.freelist s' d 0) (fun _ _ _ _ => nofun)
      fun d s' hp hw hb hd hk d' heq => by
        cases heq
        exact ⟨⟨hw, hp, hb⟩, built_of_kernelOnly hd hnodup h.good hw hp hk⟩).ok hsetup d₀ rfl
  obtain ⟨hk₁, hb₁⟩ := (wp_allocuvm_built h₀.2).ok halloc
  have hpos : n * pgsize ≠ 0 := (Nat.mul_pos hn (by decide)).ne.symm
  exact ⟨d₀, s₁, d, s₂, hsetup, halloc, hlen, hhole, (hb₁.resolve_left hpos).1,
    fun q hq => (hk₁.byte q hq).trans (h₀.1.byte q hq)⟩

/-- With enough free pages `exec` gets to the arguments of a file without segments. The image is the
guard page and the stack. -/
theorem wp_execImage_empty {α : Type} {push : Elfhdr → Pgdir → Nat → X α}
    {Q : Option α → Sys → Prop} {E : Fault → Prop} (h : Intact x w.ram.kmem)
    (hfree : npdentries + 3 < w.ram.kmem.freelist.length)
    (hpush : ∀ elf d w₁, Begun w w₁ (some d) false →
      WithStack x w.ram.kmem.freelist w₁.ram d (2 * pgsize) → Hole d →
      wp (push elf d (2 * pgsize)) (fun a w' => Q (some a) w') E w₁) :
    wp (execImage x (some emptyProgram) push) Q E w := by
  obtain ⟨d₀, s₁, d₁, s₂, hsetup, halloc, -, hhole, hb₁, hbyte⟩ :=
    exists_built (n := 2) h (by decide) (by decide) hfree
  have htwo : 2 * pgsize ≠ 0 := by decide
  have hclear := wp_and (wp_clearpteu_built (v := 0) hb₁ (by decide))
    (wp_clearpteu_hole (s := s₂) (v := 0) (by decide) hhole)
  have hbytes : emptyProgram.readi 0 sizeofElfhdr = emptyHeader := rfl
  have hmagic : ¬(emptyHeader.length ≠ sizeofElfhdr ∨ (elfhdr emptyHeader).magic ≠ elfMagic) := by
    decide
  have hphnum : (elfhdr emptyHeader).phnum = 0 := by decide
  have hround : pgroundup 0 * pgsize = 0 := by decide
  simp only [execImage, beginOp, namei, ilock, wp_bind, wp_modify, wp_pure, hbytes, if_neg hmagic,
    wp_onRam, hphnum]
  refine wp_of_ok hsetup ?_
  simp only [loadSegments, wp_bind, wp_onRam, wp_pure, iunlockput, endOp, wp_modify, hround,
    Nat.zero_add]
  refine wp_of_ok halloc ?_
  have hguard : 2 * pgsize / pgsize - 2 = 0 := by decide
  simp only [if_neg htwo, wp_bind, hguard]
  rw [wp_onRam]
  refine wp_mono hclear ?_ fun _ he => he.1.elim
  rintro d s₃ ⟨⟨rfl, hb₂⟩, hhole₂⟩
  refine wp_post (hpush _ d _ ?_ ⟨hguard.symm ▸ hb₂, by decide, le_rfl⟩ hhole₂) (fun _ _ h => h)
  exact ⟨hb₂.wild, hb₂.pages, hbyte, rfl, rfl, fun _ => rfl, rfl, rfl⟩

/-- Strings that leave room for the array. -/
theorem wp_pushArgs_fits {m : Multiset Page} (h : WithStack x m s d sz) (hn : args.length ≤ maxarg)
    (hfits : depth 0 args + (args.length + 4) * 4 ≤ pgsize) :
    wp (pushArgs cur d sz args) (fun r s' => r.isSome ∧ s'.kmem = s.kmem) (fun _ => False) s := by
  obtain ⟨e, he, hu⟩ := h.exists_top
  have hlt := h.lt
  have htwo := h.two
  unfold pushArgs
  rw [wp_bind]
  have hstrings : wp (pushStrings cur d (sz - 0) [] (args ++ [])) (fun r s' =>
      ∃ ptrs, r = some (sz - depth 0 args, ptrs) ∧ ptrs.length = args.length ∧
        s'.kmem = s.kmem) (fun _ => False) s :=
    wp_pushStrings_fits h he hu rfl (by omega) (by simpa using hn) fun ptrs s' hl hk _ =>
      ⟨ptrs, rfl, by simpa using hl, hk⟩
  rw [List.append_nil, Nat.sub_zero] at hstrings
  refine wp_post hstrings ?_
  rintro r s₁ ⟨ptrs, rfl, hl, hk₁⟩
  have hlen : ((ustack (sz - depth 0 args) ptrs).flatMap wordBytes).length =
      (3 + ptrs.length + 1) * 4 := by
    simp only [length_words, ustack, List.length_append, List.length_cons, List.length_nil]
    omega
  have hsp : (sz - depth 0 args + 2 ^ 32 - (3 + ptrs.length + 1) * 4) % 2 ^ 32 =
      sz - (depth 0 args + (args.length + 4) * 4) := by
    simp only [kernbase, pgsize] at hlt htwo hfits
    omega
  simp only [wp_bind, hsp]
  refine wp_post (wp_push_page (h.of_kmem hk₁) he hu ?_ ?_ ?_) ?_
  · omega
  · omega
  · rw [hlen, hl]
    simp only [pgsize] at htwo hfits
    omega
  · rintro ok s₂ ⟨rfl, hk₂, -, -⟩
    exact ⟨rfl, hk₂.trans hk₁⟩

/-- **`exec` of a file without segments** succeeds when there are enough pages. -/
theorem exists_exec_empty (h : Proper x w.ram w.proc.pgdir w.proc.sz)
    (hfree : npdentries + 3 < w.ram.kmem.freelist.length) (hn : args.length ≤ maxarg)
    (hfits : depth 0 args + (args.length + 4) * 4 ≤ pgsize) :
    ∃ w', exec x path (some emptyProgram) args w = .ok (true, w') ∧ w'.proc.sz = 2 * pgsize := by
  have hrun : wp (exec x path (some emptyProgram) args)
      (fun r w' => r = true ∧ w'.proc.sz = 2 * pgsize) (fun _ => False) w := by
    unfold exec
    rw [wp_bind]
    refine wp_execImage_empty h.intact hfree fun elf d w₁ hbegun hstack _ => ?_
    simp only [wp_bind, wp_get, wp_onRam]
    refine wp_post (wp_pushArgs_fits hstack hn hfits) ?_
    rintro r s₂ ⟨hr, hk₂⟩
    obtain ⟨sp, rfl⟩ := Option.isSome_iff_exists.mp hr
    simp only [wp_bind]
    exact wp_post (wp_commit h hbegun (hstack.of_kmem hk₂)) fun _ _ h => ⟨rfl, h.2.1⟩
  obtain ⟨r, w', hrun, rfl, hsz⟩ := hrun.exists_ok
  exact ⟨w', hrun, hsz⟩

theorem proper_someFree : Proper bootLayout someFree onePage 4096 where
  wild := rfl
  nodup := by
    rw [pages_onePage]
    refine Multiset.nodup_add.mpr ⟨Multiset.coe_nodup.mpr List.nodup_range', by decide, ?_⟩
    refine Multiset.disjoint_left.mpr @fun (p : Nat) hp hq => ?_
    have hp := List.mem_range'_1.mp (Multiset.mem_coe.mp hp)
    have hsmall : ∀ q ∈ ({4096, 4097, 4098} : Multiset Page), q < (5000 : Nat) := by decide
    exact absurd (hsmall p hq) (Nat.not_lt.mpr hp.1)
  good p hp := by
    rcases Multiset.mem_add.mp hp with hfree | hown
    · exact intact_someFree.good p (Multiset.mem_coe.mp hfree)
    · exact proper_onePage.good p (Multiset.mem_add.mpr (.inr hown))
  size := proper_onePage.size
  present := proper_onePage.present

/-- **`exec` passes its arguments.** -/
theorem exec_passesArgs {w' : Sys} (h : Proper x w.ram w.proc.pgdir w.proc.sz)
    (hrun : exec x path file args w = .ok (true, w')) :
    PassesArgs (view w'.proc.pgdir w'.ram.byte) w'.proc.sz w'.proc.esp args :=
  ((wp_exec_success h).ok hrun rfl).2

/-- The arguments `ls` and `-l`. -/
theorem exec_passesArgs_emptyProgram : ∃ w', exec bootLayout [] (some emptyProgram)
    [[108, 115], [45, 108]] oneCaller = .ok (true, w') ∧
    PassesArgs (view w'.proc.pgdir w'.ram.byte) w'.proc.sz w'.proc.esp [[108, 115], [45, 108]] := by
  obtain ⟨w', hrun, -⟩ : ∃ w', exec bootLayout [] (some emptyProgram) [[108, 115], [45, 108]]
      oneCaller = .ok (true, w') ∧ w'.proc.sz = 2 * pgsize :=
    exists_exec_empty proper_someFree enough_someFree (by decide) (by decide)
  exact ⟨w', hrun, exec_passesArgs proper_someFree hrun⟩

end Laboratorio.Xv6.Vm.Ram
