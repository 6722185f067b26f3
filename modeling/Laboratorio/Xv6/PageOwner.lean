import Laboratorio.Xv6.ProcMem
import Laboratorio.Xv6.VmImage

/-!
# Every page has one owner

`State.owned s` are the pages that are in use, as a multiset: those of the kernel, of the processes
and of the pipes. `Inv all o hand s` says that the free pages and the pages in use are together the
pages `all` that the allocator was given. It also says what keeps a pipe from being freed twice: the
reference count of a file is the number of its descriptors in `o` and of the references in `hand`,
which the running call has taken or not yet dropped, and an end of a pipe is open just when a file
refers to it.
-/

namespace Laboratorio.Xv6.Vm

open Finset Function Laboratorio.Wp Laboratorio.Count Laboratorio.Scan

/-! ## Owners -/

/-- The pages of a process. -/
def Proc.pages (q : Proc) : Multiset Page :=
  if q.state = .unused then 0 else q.kstack.elim 0 ({·}) + q.pgdir.elim 0 Pgdir.pages

/-- The pages in use. -/
def State.owned (s : State) : Multiset Page :=
  s.kernel + ∑ p, (s.proc p).pages + s.pipes.map Pipe.page

/-- The descriptors of all processes. -/
abbrev Fds := Fin nproc × Fin nofile → Option (Fin nfile)

/-- What holds of files and pipes. -/
structure FilesOk (o : Fds) (hand : Multiset (Fin nfile)) (file : Fin nfile → File)
    (pipes : List Pipe) : Prop where
  refs : ∀ f, (file f).ref = occ o (some f) + hand.count f
  ends : ∀ f p w, (file f).pipe = some (p, w) →
    0 < (file f).ref ∧ ∃ q ∈ pipes, q.page = p ∧ q.isOpen w = true
  inj : ∀ f g e, (file f).pipe = some e → (file g).pipe = some e → f = g
  pipes : ∀ q ∈ pipes, (∃ w, q.isOpen w = true) ∧
    ∀ w, q.isOpen w = true → ∃ f, (file f).pipe = some (q.page, w)

/-- What holds of processes. -/
structure ProcsOk (o : Fds) (proc : Fin nproc → Proc) : Prop where
  idle : ∀ p, (proc p).state ≠ .active → ∀ fd, o (p, fd) = none
  live : ∀ p, (proc p).state ≠ .unused →
    (proc p).kstack.isSome ∧ (proc p).pgdir.isSome ∧ (proc p).sz ≤ kernbase

structure Inv (all : Multiset Page) (o : Fds) (hand : Multiset (Fin nfile)) (s : State) : Prop where
  nodup : all.Nodup
  accounted : (s.kmem.freelist : Multiset Page) + s.owned = all
  wild : s.kmem.wild = false
  files : FilesOk o hand s.file s.pipes
  procs : ProcsOk o s.proc

variable {x : Layout} {all : Multiset Page} {o : Fds} {hand : Multiset (Fin nfile)} {s s' : State}
variable {p : Fin nproc} {f : Fin nfile} {file : Fin nfile → File} {pipes : List Pipe}

theorem wp_mem {α : Type} {g : K α} {Q : α → State → Prop} {E : Fault → Prop} :
    wp (mem g) Q E s ↔ wp g (fun a k => Q a { s with kmem := k }) E s.kmem := by
  unfold wp mem
  cases g s.kmem <;> rfl

/-- The pages of the pipes are distinct. -/
theorem Inv.nodup_pipes (h : Inv all o hand s) : (s.pipes.map Pipe.page).Nodup := by
  have hle : ((s.pipes.map Pipe.page : List Page) : Multiset Page) ≤ all := by
    rw [← h.accounted]
    exact (Multiset.le_add_left _ _).trans (Multiset.le_add_left _ _)
  exact Multiset.coe_nodup.mp (Multiset.nodup_of_le hle h.nodup)

/-- A free page is not the page of a pipe. -/
theorem Inv.notMem_pipes (h : Inv all o hand s) {page : Page} (hf : page ∈ s.kmem.freelist) :
    ∀ q ∈ s.pipes, q.page ≠ page := by
  rintro q hq rfl
  have hnodup := h.nodup
  rw [← h.accounted] at hnodup
  have hdis := (Multiset.nodup_add.mp hnodup).2.2
  refine Multiset.disjoint_left.mp hdis (Multiset.mem_coe.mpr hf) ?_
  exact Multiset.mem_add.mpr (.inr (Multiset.mem_coe.mpr (List.mem_map_of_mem hq)))

/-! ## Files -/

@[simp] theorem Pipe.page_closeEnd (q : Pipe) (w : Bool) : (q.closeEnd w).page = q.page := by
  cases w <;> rfl

theorem Pipe.isOpen_closeEnd (q : Pipe) (w v : Bool) :
    (q.closeEnd w).isOpen v = (q.isOpen v && (v != w)) := by
  cases w <;> cases v <;> simp [Pipe.closeEnd, Pipe.isOpen]

/-- A pipe is closed when neither end is open. -/
theorem Pipe.closed_iff (q : Pipe) (w : Bool) :
    ((q.closeEnd w).readopen = false ∧ (q.closeEnd w).writeopen = false) ↔
      q.isOpen (!w) = false := by
  cases w <;> simp [Pipe.closeEnd, Pipe.isOpen]

/-- The references to one file are counted anew. -/
theorem FilesOk.setRef {o' : Fds} {hand' : Multiset (Fin nfile)} {r : Nat}
    (h : FilesOk o hand file pipes) (hr : r = occ o' (some f) + hand'.count f)
    (hother : ∀ g ≠ f, occ o (some g) + hand.count g = occ o' (some g) + hand'.count g)
    (hpos : 0 < r) : FilesOk o' hand' (update file f { file f with ref := r }) pipes := by
  have hpipe : ∀ g, (update file f { file f with ref := r } g).pipe = (file g).pipe := fun g => by
    rw [update_apply]
    split
    · next hg => rw [hg]
    · rfl
  refine ⟨fun g => ?_, fun g p w hg => ?_, fun g g' e hg hg' => ?_, fun q hq => ?_⟩
  · rw [update_apply]
    split
    · next hg =>
      rw [hg]
      exact hr
    · next hg => exact (h.refs g).trans (hother g hg)
  · rw [hpipe] at hg
    obtain ⟨hg₀, hq⟩ := h.ends g p w hg
    refine ⟨?_, hq⟩
    rw [update_apply]
    split
    · exact hpos
    · exact hg₀
  · rw [hpipe] at hg hg'
    exact h.inj g g' e hg hg'
  · simpa only [hpipe] using h.pipes q hq

/-- A file has one reference less and is still open. -/
theorem FilesOk.drop (h : FilesOk o (f ::ₘ hand) file pipes) (hr : 1 < (file f).ref) :
    FilesOk o hand (update file f { file f with ref := (file f).ref - 1 }) pipes := by
  have hf := h.refs f
  rw [Multiset.count_cons_self] at hf
  exact h.setRef (by omega) (fun g hg => by rw [Multiset.count_cons_of_ne hg]) (by omega)

/-- The last reference to a file goes, and the pipes change as `pipeclose` says. -/
theorem FilesOk.close {pipes' : List Pipe} (h : FilesOk o (f ::ₘ hand) file pipes)
    (hr : (file f).ref = 1)
    (hpipes : ∀ q ∈ pipes', (∃ w, q.isOpen w = true) ∧ ∀ w, q.isOpen w = true →
      (file f).pipe ≠ some (q.page, w) ∧ ∃ q' ∈ pipes, q'.page = q.page ∧ q'.isOpen w = true)
    (hkeep : ∀ q ∈ pipes, ∀ w, q.isOpen w = true → (file f).pipe ≠ some (q.page, w) →
      ∃ q' ∈ pipes', q'.page = q.page ∧ q'.isOpen w = true) :
    FilesOk o hand (update file f ⟨0, none⟩) pipes' := by
  have hpipe : ∀ g e, (update file f ⟨0, none⟩ g).pipe = some e ↔
      g ≠ f ∧ (file g).pipe = some e := fun g e => by
    rw [update_apply]
    split
    · next hg => simp [hg]
    · next hg => simp [hg]
  refine ⟨fun g => ?_, fun g p w hg => ?_, fun g g' e hg hg' => ?_, fun q hq => ?_⟩
  · have hg := h.refs g
    rw [Multiset.count_cons] at hg
    rw [update_apply]
    split
    · next hgf =>
      subst hgf
      rw [if_pos rfl] at hg
      show 0 = _
      omega
    · next hgf =>
      rw [if_neg hgf] at hg
      exact hg
  · obtain ⟨hgf, hg⟩ := (hpipe _ _).mp hg
    obtain ⟨hpos, q, hq, rfl, hopen⟩ := h.ends g p w hg
    refine ⟨?_, hkeep q hq w hopen fun hf => hgf (h.inj _ _ _ hg hf)⟩
    rw [update_of_ne hgf]
    exact hpos
  · exact h.inj g g' e ((hpipe _ _).mp hg).2 ((hpipe _ _).mp hg').2
  · obtain ⟨hex, hall⟩ := hpipes q hq
    refine ⟨hex, fun w hw => ?_⟩
    obtain ⟨hne, q', hq', hpage, hopen⟩ := hall w hw
    obtain ⟨g, hg⟩ := (h.pipes q' hq').2 w hopen
    rw [hpage] at hg
    exact ⟨g, (hpipe _ _).mpr ⟨fun hgf => hne (hgf ▸ hg), hg⟩⟩

/-- The tables of processes and descriptors are as before. -/
def SameTables (s s' : State) : Prop := s'.proc = s.proc ∧ s'.ofile = s.ofile

theorem SameTables.refl (s : State) : SameTables s s := ⟨rfl, rfl⟩

theorem SameTables.trans {s₁ s₂ s₃ : State} (h : SameTables s₁ s₂) (h' : SameTables s₂ s₃) :
    SameTables s₁ s₃ := ⟨h'.1.trans h.1, h'.2.trans h.2⟩

/-- **Closing a file** drops a reference; the pages stay accounted for. -/
theorem wp_fileclose (h : Inv all o (f ::ₘ hand) s) :
    wp (fileclose x f) (fun _ s' => Inv all o hand s' ∧ SameTables s s') Fault.Panic s := by
  simp only [fileclose, wp_bind, wp_get, wp_ite, wp_throw, wp_set]
  refine ⟨fun _ => trivial, fun hpos => ⟨fun hmany => ?_, fun hlast => ?_⟩⟩
  · exact ⟨⟨h.nodup, h.accounted, h.wild, h.files.drop (by omega), h.procs⟩, rfl, rfl⟩
  · have hr : (s.file f).ref = 1 := by omega
    cases hpipe : (s.file f).pipe with
    | none =>
      have hfiles : FilesOk o hand (update s.file f ⟨0, none⟩) s.pipes := h.files.close hr
        (fun q hq => ⟨(h.files.pipes q hq).1, fun w hw => ⟨by simp [hpipe], q, hq, rfl, hw⟩⟩)
        fun q hq w hw _ => ⟨q, hq, rfl, hw⟩
      exact ⟨⟨h.nodup, h.accounted, h.wild, hfiles, h.procs⟩, rfl, rfl⟩
    | some e =>
      obtain ⟨page, w⟩ := e
      obtain ⟨-, q, hq, hpage, hopen⟩ := h.files.ends f page w hpipe
      have hinj := List.inj_on_of_nodup_map h.nodup_pipes
      -- the pipe that `pipeclose` finds is the only one in the page
      have hfind : s.pipes.find? (fun q => decide (q.page = page)) = some q := by
        obtain ⟨q', hq'⟩ := Option.isSome_iff_exists.mp
          (List.find?_isSome (p := fun q : Pipe => decide (q.page = page)).mpr
            ⟨q, hq, decide_eq_true hpage⟩)
        have hfound := List.find?_some hq'
        have hpage' := of_decide_eq_true hfound
        rw [hq', hinj (List.mem_of_find?_eq_some hq') hq (hpage'.trans hpage.symm)]
      simp only [pipeclose, wp_bind, wp_get, hfind, wp_ite, wp_set, Pipe.closed_iff]
      refine ⟨fun hclosed => ?_, fun hother => ?_⟩
      · -- the other end is closed: the page is freed
        rw [wp_mem]
        refine wp_kfree ⟨⟨h.nodup, ?_, h.wild, ?_, h.procs⟩, rfl, rfl⟩
        · have hmem : page ∈ s.pipes.map Pipe.page := hpage ▸ List.mem_map_of_mem hq
          have hfilter : (s.pipes.filter fun q => decide (q.page ≠ page)).map Pipe.page =
              (s.pipes.map Pipe.page).erase page := by
            rw [h.nodup_pipes.erase_eq_filter, List.filter_map]
            refine congrArg _ (List.filter_congr fun q _ => ?_)
            by_cases hqp : q.page = page <;> simp [hqp]
          have hperm : ((s.pipes.map Pipe.page : List Page) : Multiset Page) =
              {page} + ((s.pipes.map Pipe.page).erase page : List Page) := by
            rw [Multiset.singleton_add, Multiset.cons_coe, Multiset.coe_eq_coe]
            exact List.perm_cons_erase hmem
          have hacc := h.accounted
          unfold State.owned at hacc ⊢
          rw [hperm] at hacc
          rw [← hacc]
          simp only [hfilter, ← Multiset.cons_coe, ← Multiset.singleton_add]
          abel
        · refine h.files.close hr (fun r hr => ?_) fun r hr v hv hne => ?_
          · obtain ⟨hr, hrp⟩ := List.mem_filter.mp hr
            refine ⟨(h.files.pipes r hr).1, fun v hv => ⟨?_, r, hr, rfl, hv⟩⟩
            rw [hpipe]
            intro he
            cases he
            exact absurd rfl (of_decide_eq_true hrp)
          · refine ⟨r, List.mem_filter.mpr ⟨hr, decide_eq_true fun hrp => ?_⟩, rfl, hv⟩
            -- only the two ends of `q` are in the page
            have hrq : r = q := hinj hr hq (hrp.trans hpage.symm)
            subst hrq
            have hvw : v ≠ w := fun hvw => hne (by rw [hpipe, hvw, hrp])
            rw [show (!w) = v by cases v <;> cases w <;> simp_all, hv] at hclosed
            cases hclosed
      · have hnot : q.isOpen (!w) = true := by simpa using hother
        refine ⟨⟨h.nodup, ?_, h.wild, ?_, h.procs⟩, rfl, rfl⟩
        · have hmap : (s.pipes.map fun r : Pipe =>
              if r.page = page then q.closeEnd w else r).map Pipe.page = s.pipes.map Pipe.page := by
            rw [List.map_map]
            refine List.map_congr_left fun r _ => ?_
            show Pipe.page (if r.page = page then q.closeEnd w else r) = r.page
            split
            · next hrp => rw [Pipe.page_closeEnd, hpage, hrp]
            · rfl
          have hacc := h.accounted
          unfold State.owned at hacc ⊢
          rw [← hacc, hmap]
        · refine h.files.close hr (fun r hr => ?_) fun r hr v hv hne => ?_
          · obtain ⟨r', hr', rfl⟩ := List.mem_map.mp hr
            split
            · refine ⟨⟨!w, by simp [Pipe.isOpen_closeEnd, hnot]⟩, fun v hv => ?_⟩
              rw [Pipe.isOpen_closeEnd, Bool.and_eq_true] at hv
              refine ⟨?_, q, hq, (Pipe.page_closeEnd q w).symm, hv.1⟩
              rw [hpipe]
              intro he
              cases he
              simp at hv
            · next hrp =>
              refine ⟨(h.files.pipes r' hr').1, fun v hv => ⟨?_, r', hr', rfl, hv⟩⟩
              rw [hpipe]
              intro he
              cases he
              exact hrp rfl
          · by_cases hrp : r.page = page
            · have hrq : r = q := hinj hr hq (hrp.trans hpage.symm)
              subst hrq
              have hvw : v ≠ w := fun hvw => hne (by rw [hpipe, hvw, hrp])
              refine ⟨r.closeEnd w, List.mem_map.mpr ⟨r, hr, if_pos hrp⟩,
                Pipe.page_closeEnd r w, ?_⟩
              rw [Pipe.isOpen_closeEnd, hv]
              simpa using hvw
            · exact ⟨r, List.mem_map.mpr ⟨r, hr, if_neg hrp⟩, rfl, hv⟩

/-- A free entry of the file table is taken. -/
theorem FilesOk.take (h : FilesOk o hand file pipes) (hr : (file f).ref = 0) :
    FilesOk o (f ::ₘ hand) (update file f { file f with ref := 1 }) pipes := by
  have hf := h.refs f
  refine h.setRef ?_ (fun g hg => by rw [Multiset.count_cons_of_ne hg]) Nat.one_pos
  rw [Multiset.count_cons_self]
  omega

/-- Two files without a type become the ends of a new pipe. -/
theorem FilesOk.connect {f₀ f₁ : Fin nfile} {page : Page} (h : FilesOk o hand file pipes)
    (hne : f₀ ≠ f₁) (h₀ : (file f₀).pipe = none) (h₁ : (file f₁).pipe = none)
    (hr₀ : 0 < (file f₀).ref) (hr₁ : 0 < (file f₁).ref) (hnew : ∀ q ∈ pipes, q.page ≠ page) :
    FilesOk o hand (update (update file f₀
      { file f₀ with pipe := some (page, false) }) f₁ { file f₁ with pipe := some (page, true) })
      (⟨page, true, true, 0, 0⟩ :: pipes) := by
  generalize hfile : update (update file f₀
    { file f₀ with pipe := some (page, false) }) f₁ { file f₁ with pipe := some (page, true) } =
    file'
  have href : ∀ g, (file' g).ref = (file g).ref := fun g => by
    rw [← hfile, update_apply]
    split
    · next hg => rw [hg]
    · rw [update_apply]
      split
      · next hg => rw [hg]
      · rfl
  have hf₁ : (file' f₁).pipe = some (page, true) := by rw [← hfile, update_self]
  have hf₀ : (file' f₀).pipe = some (page, false) := by
    rw [← hfile, update_of_ne hne, update_self]
  have hother : ∀ g, g ≠ f₀ → g ≠ f₁ → (file' g).pipe = (file g).pipe := fun g hg₀ hg₁ => by
    rw [← hfile, update_of_ne hg₁, update_of_ne hg₀]
  -- no older file refers to the new pipe
  have hold : ∀ g w, (file g).pipe ≠ some (page, w) := fun g w hg => by
    obtain ⟨-, q, hq, hqp, -⟩ := h.ends g page w hg
    exact hnew q hq hqp
  have hcases : ∀ g e, (file' g).pipe = some e → g = f₀ ∧ e = (page, false) ∨
      g = f₁ ∧ e = (page, true) ∨ (file g).pipe = some e := fun g e hg => by
    by_cases hg₁ : g = f₁
    · rw [hg₁, hf₁] at hg
      exact .inr (.inl ⟨hg₁, (Option.some.inj hg).symm⟩)
    · by_cases hg₀ : g = f₀
      · rw [hg₀, hf₀] at hg
        exact .inl ⟨hg₀, (Option.some.inj hg).symm⟩
      · exact .inr (.inr (hother g hg₀ hg₁ ▸ hg))
  refine ⟨fun g => (href g).trans (h.refs g), fun g p w hg => ?_, fun g g' e hg hg' => ?_,
    fun q hq => ?_⟩
  · rw [href]
    rcases hcases g _ hg with ⟨rfl, he⟩ | ⟨rfl, he⟩ | hg
    · cases he
      exact ⟨hr₀, _, List.mem_cons_self, rfl, rfl⟩
    · cases he
      exact ⟨hr₁, _, List.mem_cons_self, rfl, rfl⟩
    · obtain ⟨hpos, q, hq, hrest⟩ := h.ends g p w hg
      exact ⟨hpos, q, List.mem_cons_of_mem _ hq, hrest⟩
  · rcases hcases g _ hg with ⟨rfl, rfl⟩ | ⟨rfl, rfl⟩ | hg <;>
      rcases hcases g' _ hg' with ⟨rfl, he⟩ | ⟨rfl, he⟩ | hg'
    · rfl
    · cases he
    · exact absurd hg' (hold g' _)
    · cases he
    · rfl
    · exact absurd hg' (hold g' _)
    · exact absurd (he ▸ hg) (hold g _)
    · exact absurd (he ▸ hg) (hold g _)
    · exact h.inj g g' e hg hg'
  · rcases List.mem_cons.mp hq with rfl | hq
    · refine ⟨⟨true, rfl⟩, fun w _ => ?_⟩
      cases w with
      | true => exact ⟨f₁, hf₁⟩
      | false => exact ⟨f₀, hf₀⟩
    · obtain ⟨hex, hall⟩ := h.pipes q hq
      refine ⟨hex, fun w hw => ?_⟩
      obtain ⟨g, hg⟩ := hall w hw
      refine ⟨g, (hother g ?_ ?_).trans hg⟩
      · rintro rfl
        rw [h₀] at hg
        cases hg
      · rintro rfl
        rw [h₁] at hg
        cases hg

theorem wp_filealloc {Q : Option (Fin nfile) → State → Prop} {E : Fault → Prop}
    (h : Inv all o hand s) (hnone : Q none s)
    (hsome : ∀ f s', Inv all o (f ::ₘ hand) s' → SameTables s s' → (s.file f).ref = 0 →
      (s'.file f).ref = 1 → (s'.file f).pipe = none → (∀ g, g ≠ f → s'.file g = s.file g) →
      Q (some f) s') : wp filealloc Q E s := by
  simp only [filealloc, wp_bind, wp_get]
  split
  · exact hnone
  · next f hf =>
    have hr : (s.file f).ref = 0 := of_decide_eq_true (first_eq_some.mp hf).1
    have hfiles := h.files.take hr
    simp only [wp_bind, wp_set, wp_pure]
    refine hsome f _ ⟨h.nodup, h.accounted, h.wild, hfiles, h.procs⟩ ⟨rfl, rfl⟩ hr ?_ ?_
      fun g hg => update_of_ne hg ..
    · show (update s.file f { s.file f with ref := 1 } f).ref = 1
      rw [update_self]
    · show (update s.file f { s.file f with ref := 1 } f).pipe = none
      rw [update_self]
      cases hp : (s.file f).pipe with
      | none => rfl
      | some e =>
        have := (h.files.ends f e.1 e.2 hp).1
        omega

/-- **A new pipe** has a page and two files, or nothing has changed hands. -/
theorem wp_pipealloc {Q : Option (Fin nfile × Fin nfile) → State → Prop} (h : Inv all o hand s)
    (hnone : ∀ s', Inv all o hand s' → SameTables s s' → Q none s')
    (hsome : ∀ f₀ f₁ s', Inv all o (f₀ ::ₘ f₁ ::ₘ hand) s' → SameTables s s' →
      Q (some (f₀, f₁)) s') : wp (pipealloc x) Q Fault.Panic s := by
  unfold pipealloc
  rw [wp_bind]
  refine wp_filealloc h (hnone s h (.refl s)) fun f₀ s₁ h₁ hs₁ _ hr₀ hp₀ _ => ?_
  rw [wp_bind]
  refine wp_filealloc h₁ ?_ fun f₁ s₂ h₂ hs₂ hr₁ hr₁' hp₁ hsame => ?_
  · refine wp_then (wp_fileclose h₁) ?_
    rintro - s₂ ⟨h₂, hs₂⟩
    exact hnone s₂ h₂ (hs₁.trans hs₂)
  · have hne : f₀ ≠ f₁ := by
      rintro rfl
      omega
    have hs := hs₁.trans hs₂
    rw [wp_bind, wp_mem]
    refine wp_kalloc h₂.wild (fun _ => ?_) fun page l hl => ?_
    · rw [Multiset.cons_swap] at h₂
      refine wp_then (wp_fileclose h₂) ?_
      rintro - s₃ ⟨h₃, hs₃⟩
      refine wp_then (wp_fileclose h₃) ?_
      rintro - s₄ ⟨h₄, hs₄⟩
      exact hnone s₄ h₄ (hs.trans (SameTables.trans hs₃ hs₄))
    · simp only [wp_bind, wp_modify, wp_pure]
      refine hsome f₀ f₁ _ ⟨h₂.nodup, ?_, h₂.wild, ?_, h₂.procs⟩ hs
      · rw [← h₂.accounted]
        unfold State.owned
        rw [hl, ← Multiset.cons_coe, ← Multiset.singleton_add, List.map_cons, ← Multiset.cons_coe,
          ← Multiset.singleton_add]
        abel
      · rw [Multiset.cons_swap]
        refine h₂.files.connect hne ?_ hp₁ ?_ (by omega) (h₂.notMem_pipes (hl ▸ List.mem_cons_self))
        · rw [hsame f₀ hne]
          exact hp₀
        · rw [hsame f₀ hne]
          omega

/-! ## Descriptors -/

variable {fd : Fin nofile}

/-- A reference in hand goes to a descriptor. -/
theorem Inv.setFd (h : Inv all o (f ::ₘ hand) s) (hfd : o (p, fd) = none)
    (hp : (s.proc p).state = .active) : Inv all (update o (p, fd) (some f)) hand s := by
  refine ⟨h.nodup, h.accounted, h.wild, ⟨fun g => ?_, h.files.ends, h.files.inj, h.files.pipes⟩,
    fun q hq e => ?_, h.procs.live⟩
  · have hg := h.files.refs g
    have hocc := occ_update o (p, fd) (some f) (some g)
    rw [Multiset.count_cons] at hg
    rw [hfd, if_neg (by simp), Nat.add_zero] at hocc
    rw [hg, hocc]
    by_cases hgf : g = f
    · simp [hgf]
      omega
    · simp [hgf, Ne.symm hgf]
  · rw [update_of_ne]
    · exact h.procs.idle q hq e
    · intro he
      cases he
      exact hq hp

/-- A descriptor gives its reference to the call. -/
theorem Inv.clearFd (h : Inv all o hand s) (hfd : o (p, fd) = some f) :
    Inv all (update o (p, fd) none) (f ::ₘ hand) s := by
  refine ⟨h.nodup, h.accounted, h.wild, ⟨fun g => ?_, h.files.ends, h.files.inj, h.files.pipes⟩,
    fun q hq e => ?_, h.procs.live⟩
  · have hg := h.files.refs g
    have hocc := occ_update o (p, fd) none (some g)
    rw [hfd] at hocc
    rw [if_neg (by simp : ¬ (none : Option (Fin nfile)) = some g), Nat.add_zero] at hocc
    rw [Multiset.count_cons, hg, ← hocc]
    by_cases hgf : g = f
    · simp [hgf]
      omega
    · simp [hgf, Ne.symm hgf]
  · rw [update_apply]
    split
    · rfl
    · exact h.procs.idle q hq e

/-- The invariant does not look at the descriptors of the state. -/
theorem Inv.ofile (h : Inv all o hand s) (o' : Fds) : Inv all o hand { s with ofile := o' } :=
  ⟨h.nodup, h.accounted, h.wild, h.files, h.procs⟩

theorem wp_fdalloc {Q : Option (Fin nofile) → State → Prop} {E : Fault → Prop}
    (h : Inv all s.ofile (f ::ₘ hand) s) (hp : (s.proc p).state = .active) (hnone : Q none s)
    (hsome : ∀ fd s', Inv all s'.ofile hand s' → s'.proc = s.proc → s'.ofile (p, fd) = some f →
      Q (some fd) s') : wp (fdalloc p f) Q E s := by
  simp only [fdalloc, wp_bind, wp_get]
  split
  · exact hnone
  · next fd hfd =>
    have hfree : s.ofile (p, fd) = none := of_decide_eq_true (first_eq_some.mp hfd).1
    simp only [Vm.setFd, wp_bind, wp_modify, wp_pure]
    exact hsome fd _ ((h.setFd hfree hp).ofile _) rfl (update_self ..)

/-- **`pipe`** keeps the invariant, whether it succeeds or not. -/
theorem wp_sysPipe (h : Inv all s.ofile 0 s) (hp : (s.proc p).state = .active) :
    wp (sysPipe x p) (fun _ s' => Inv all s'.ofile 0 s') Fault.Panic s := by
  unfold sysPipe
  rw [wp_bind]
  refine wp_pipealloc h (fun s₁ h₁ hs₁ => ?_) fun rf wf s₁ h₁ hs₁ => ?_
  · show Inv all s₁.ofile 0 s₁
    rw [hs₁.2]
    exact h₁
  rw [← hs₁.2] at h₁
  have hp₁ : (s₁.proc p).state = .active := by rw [hs₁.1]; exact hp
  -- both files are closed again
  have hclose : ∀ s₂ : State, Inv all s₂.ofile (rf ::ₘ wf ::ₘ 0) s₂ →
      wp (do fileclose x rf; fileclose x wf; return false) (fun _ s' => Inv all s'.ofile 0 s')
        Fault.Panic s₂ := by
    intro s₂ h₂
    refine wp_then (wp_fileclose h₂) ?_
    rintro - s₃ ⟨h₃, -, ho₃⟩
    refine wp_then (wp_fileclose h₃) ?_
    rintro - s₄ ⟨h₄, -, ho₄⟩
    rw [wp_pure, ho₄, ho₃]
    exact h₄
  rw [wp_bind]
  refine wp_fdalloc h₁ hp₁ (hclose s₁ h₁) fun fd₀ s₂ h₂ hp₂ hfd₂ => ?_
  rw [wp_bind]
  refine wp_fdalloc h₂ (by rw [hp₂]; exact hp₁) ?_ fun fd₁ s₃ h₃ _ _ => h₃
  simp only [Vm.setFd, wp_bind, wp_modify]
  have h₃ := (h₂.clearFd hfd₂).ofile (update s₂.ofile (p, fd₀) none)
  simpa only [wp_bind] using hclose _ h₃

/-- **`close`** -/
theorem wp_sysClose (h : Inv all s.ofile 0 s) :
    wp (sysClose x p fd) (fun _ s' => Inv all s'.ofile 0 s') Fault.Panic s := by
  simp only [sysClose, wp_bind, wp_get]
  split
  · exact h
  · next f hf =>
    simp only [Vm.setFd, wp_bind, wp_modify]
    refine wp_post (wp_fileclose ((h.clearFd hf).ofile _)) ?_
    rintro - s₁ ⟨h₁, -, ho₁⟩
    rw [wp_pure, ho₁]
    exact h₁

end Laboratorio.Xv6.Vm
