import Laboratorio.Xv6.PageOwner

/-!
# Creating a pipe (`sys_pipe` of `xv6/sysfile.c`, `pipealloc` of `xv6/pipe.c`)

`sys_pipe` takes two entries of the file table, a page and two descriptors. When one of them is not to
be had, what it has taken before is given back, and the state is then the one before the call
(`sysPipe_all_or_nothing`). The rules here say exactly which state each function leaves.
-/

namespace Laboratorio.Xv6.Vm

open Laboratorio.Wp Laboratorio.Scan Function

/-- What `sys_pipe` relies on: the free pages are pages of the allocator and its links are intact, an
entry of the file table that is free has no type, and pipes are not in free pages. -/
structure Sound (x : Layout) (s : State) : Prop where
  wild : s.kmem.wild = false
  good : ∀ page ∈ s.kmem.freelist, x.Holds page
  closed : ∀ f, (s.file f).ref = 0 → (s.file f).pipe = none
  pipes : ∀ page ∈ s.kmem.freelist, ∀ q ∈ s.pipes, q.page ≠ page

/-- The state with a new pipe in `page` and its two files, and the descriptors `o`; the pages `l` are
still free. -/
def State.withPipe (s : State) (rf wf : Fin nfile) (page : Page) (l : List Page)
    (o : Fin nproc × Fin nofile → Option (Fin nfile)) : State :=
  { s with
    kmem := { s.kmem with freelist := l }
    file := update (update s.file rf ⟨1, some (page, false)⟩) wf ⟨1, some (page, true)⟩
    ofile := o
    pipes := ⟨page, true, true, 0, 0⟩ :: s.pipes }

/-- **Two new descriptors** of process `p` refer to the read end and the write end of a new pipe, of
which both ends are open and which is empty; nothing else has changed. -/
def NewPipe (p : Fin nproc) (s s' : State) : Prop := ∃ rf wf fd0 fd1 page l,
  rf ≠ wf ∧ (s.file rf).ref = 0 ∧ (s.file wf).ref = 0 ∧
  fd0 ≠ fd1 ∧ s.ofile (p, fd0) = none ∧ s.ofile (p, fd1) = none ∧ s.kmem.freelist = page :: l ∧
  s' = s.withPipe rf wf page l (update (update s.ofile (p, fd0) (some rf)) (p, fd1) (some wf))

variable {x : Layout} {s : State} {p : Fin nproc} {f rf wf : Fin nfile} {E : Fault → Prop}

theorem Inv.sound {all : Multiset Page} {o : Fds} {hand : Multiset (Fin nfile)}
    (h : Inv all o hand s) (hall : ∀ page ∈ all, x.Holds page) : Sound x s where
  wild := h.wild
  good page hp := hall page (h.accounted ▸ Multiset.mem_add.mpr (.inl (Multiset.mem_coe.mpr hp)))
  closed f hf := by
    cases he : (s.file f).pipe with
    | none => rfl
    | some e => exact absurd hf (h.files.ends f e.1 e.2 he).1.ne'
  pipes _ hp := h.notMem_pipes hp

/-! ## The functions -/

theorem wp_filealloc_exact {Q : Option (Fin nfile) → State → Prop} (hs : Sound x s) (hnone : Q none s)
    (hsome : ∀ f, s.file f = ⟨0, none⟩ → Q (some f) { s with file := update s.file f ⟨1, none⟩ }) :
    wp filealloc Q E s := by
  simp only [filealloc, wp_bind, wp_get]
  split
  · exact hnone
  · next f hf =>
    have hr : (s.file f).ref = 0 := of_decide_eq_true (first_eq_some.mp hf).1
    have hfile : (⟨(s.file f).ref, (s.file f).pipe⟩ : File) = ⟨0, none⟩ := by
      rw [hr, hs.closed f hr]
    simp only [wp_bind, wp_set, wp_pure, hs.closed f hr]
    exact hsome f hfile

theorem wp_fdalloc_exact {Q : Option (Fin nofile) → State → Prop} (hnone : Q none s)
    (hsome : ∀ fd, s.ofile (p, fd) = none →
      Q (some fd) { s with ofile := update s.ofile (p, fd) (some f) }) : wp (fdalloc p f) Q E s := by
  simp only [fdalloc, wp_bind, wp_get]
  split
  · exact hnone
  · next fd hfd => exact hsome fd (of_decide_eq_true (first_eq_some.mp hfd).1)

/-- Close a file that has no type yet. -/
theorem wp_fileclose_untyped {Q : Unit → State → Prop} (hf : s.file f = ⟨1, none⟩)
    (hQ : Q () { s with file := update s.file f ⟨0, none⟩ }) : wp (fileclose x f) Q E s := by
  simp only [fileclose, wp_bind, wp_get, hf, wp_ite, wp_throw, wp_set]
  exact ⟨fun h => absurd h (by decide), fun _ => ⟨fun h => absurd h (by decide), fun _ => hQ⟩⟩

/-- Close an end of a pipe. -/
theorem wp_fileclose_end {Q : Unit → State → Prop} (page : Page) (w : Bool)
    (hf : s.file f = ⟨1, some (page, w)⟩)
    (hQ : wp (pipeclose x page w) Q E { s with file := update s.file f ⟨0, none⟩ }) :
    wp (fileclose x f) Q E s := by
  simp only [fileclose, wp_bind, wp_get, hf, wp_ite, wp_throw, wp_set]
  exact ⟨fun h => absurd h (by decide), fun _ => ⟨fun h => absurd h (by decide), fun _ => hQ⟩⟩

section Pipeclose

variable {q : Pipe} {ps : List Pipe} {w : Bool} {Q : Unit → State → Prop}

/-- The other end of the pipe is open. -/
theorem wp_pipeclose_open (hpipes : s.pipes = q :: ps) (hps : ∀ r ∈ ps, r.page ≠ q.page)
    (hother : q.isOpen (!w) = true) (hQ : Q () { s with pipes := q.closeEnd w :: ps }) :
    wp (pipeclose x q.page w) Q E s := by
  have hmap : ps.map (fun r => if r.page = q.page then q.closeEnd w else r) = ps := by
    conv_rhs => rw [← List.map_id ps]
    exact List.map_congr_left fun r hr => if_neg (hps r hr)
  have hopen : ¬((q.closeEnd w).readopen = false ∧ (q.closeEnd w).writeopen = false) := by
    rw [Pipe.closed_iff, hother]
    exact Bool.noConfusion
  simp only [pipeclose, wp_bind, wp_get, hpipes, List.find?_cons, decide_true, if_neg hopen, wp_set,
    List.map_cons, if_true, hmap]
  exact hQ

/-- The other end of the pipe is closed: the page is freed. -/
theorem wp_pipeclose_closed (hpipes : s.pipes = q :: ps) (hps : ∀ r ∈ ps, r.page ≠ q.page)
    (hother : q.isOpen (!w) = false) (hgood : x.Holds q.page)
    (hQ : Q () { s with
      kmem := { s.kmem with freelist := q.page :: s.kmem.freelist }
      pipes := ps }) :
    wp (pipeclose x q.page w) Q E s := by
  have hfilter : ps.filter (fun r => decide (r.page ≠ q.page)) = ps :=
    List.filter_eq_self.mpr fun r hr => decide_eq_true (hps r hr)
  have hvalid : ¬(q.page * pgsize < x.kend ∨ q.page * pgsize ≥ phystop) := by
    rw [not_or, not_lt, ge_iff_le, not_le]
    exact hgood
  have hclosed := (Pipe.closed_iff q w).mpr hother
  simp only [pipeclose, wp_bind, wp_get, hpipes, List.find?_cons, decide_true, if_pos hclosed, wp_set,
    wp_mem, kfree, if_neg hvalid, wp_modify, List.filter_cons, ne_eq, not_true_eq_false, decide_false,
    Bool.false_eq_true, if_false]
  rw [hfilter]
  exact hQ

end Pipeclose

/-! ## `pipealloc` and `sys_pipe` -/

variable {page : Page} {l : List Page}

/-- Two files that have been taken and are closed again are as before. -/
theorem update_files {y z : File} (hrf : s.file rf = ⟨0, none⟩)
    (hwf : s.file wf = ⟨0, none⟩) : update (update (update (update s.file rf y) wf z) rf ⟨0, none⟩) wf
      ⟨0, none⟩ = s.file := by
  funext g
  simp only [update_apply]
  split
  · next hg => rw [hg, hwf]
  · split
    · next hg => rw [hg, hrf]
    · rfl

/-- **The two files of a new pipe are closed**: only the descriptors may differ. -/
theorem wp_close_both {o : Fds} {Q : Bool → State → Prop} (hs : Sound x s) (hne : rf ≠ wf)
    (hrf : s.file rf = ⟨0, none⟩) (hwf : s.file wf = ⟨0, none⟩) (hl : s.kmem.freelist = page :: l)
    (hQ : Q false { s with ofile := o }) :
    wp (do fileclose x rf; fileclose x wf; return false) Q E (s.withPipe rf wf page l o) := by
  have hin : page ∈ s.kmem.freelist := hl ▸ List.mem_cons_self
  have hps := hs.pipes page hin
  rw [wp_bind]
  refine wp_fileclose_end page false ?_ ?_
  · show update (update s.file rf _) wf _ rf = _
    rw [update_of_ne hne, update_self]
  · refine wp_pipeclose_open (q := ⟨page, true, true, 0, 0⟩) rfl hps rfl ?_
    rw [wp_bind]
    refine wp_fileclose_end page true ?_ ?_
    · show update (update (update s.file rf _) wf _) rf _ wf = _
      rw [update_of_ne hne.symm, update_self]
    · refine wp_pipeclose_closed (q := ⟨page, false, true, 0, 0⟩) rfl hps rfl (hs.good page hin) ?_
      have hfiles := update_files (y := ⟨1, some (page, false)⟩) (z := ⟨1, some (page, true)⟩) hrf
        hwf
      simp only [State.withPipe, hfiles, ← hl]
      exact hQ

/-- **`pipealloc`** makes a pipe, or it leaves the state as it was. -/
theorem wp_pipealloc_exact {Q : Option (Fin nfile × Fin nfile) → State → Prop} (hs : Sound x s)
    (hnone : Q none s) (hsome : ∀ rf wf page l, rf ≠ wf → s.file rf = ⟨0, none⟩ →
      s.file wf = ⟨0, none⟩ → s.kmem.freelist = page :: l →
      Q (some (rf, wf)) (s.withPipe rf wf page l s.ofile)) : wp (pipealloc x) Q E s := by
  unfold pipealloc
  rw [wp_bind]
  refine wp_filealloc_exact hs hnone fun rf hrf => ?_
  have hs₁ : Sound x { s with file := update s.file rf ⟨1, none⟩ } := by
    refine ⟨hs.wild, hs.good, fun f hf => ?_, hs.pipes⟩
    simp only [update_apply] at hf ⊢
    split
    · rfl
    · next hne =>
      rw [if_neg hne] at hf
      exact hs.closed f hf
  rw [wp_bind]
  refine wp_filealloc_exact hs₁ ?_ fun wf hwf => ?_
  · rw [wp_bind]
    refine wp_fileclose_untyped (update_self ..) ?_
    simp only [update_idem, wp_pure]
    rw [← hrf, update_eq_self]
    exact hnone
  · have hne : rf ≠ wf := by
      rintro rfl
      simp only [update_self] at hwf
      cases hwf
    simp only [update_of_ne hne.symm] at hwf
    rw [wp_bind, wp_mem]
    refine wp_kalloc hs.wild (fun _ => ?_) fun page l hl => ?_
    · rw [wp_bind]
      refine wp_fileclose_untyped ?_ ?_
      · show update (update s.file rf _) wf _ rf = _
        rw [update_of_ne hne, update_self]
      · rw [wp_bind]
        refine wp_fileclose_untyped ?_ ?_
        · show update (update (update s.file rf _) wf _) rf _ wf = _
          rw [update_of_ne hne.symm, update_self]
        · simp only [update_files hrf hwf]
          exact hnone
    · have hfiles : update (update (update (update s.file rf ⟨1, none⟩) wf ⟨1, none⟩) rf
          ⟨1, some (page, false)⟩) wf ⟨1, some (page, true)⟩ =
          update (update s.file rf ⟨1, some (page, false)⟩) wf ⟨1, some (page, true)⟩ := by
        rw [update_comm hne.symm, update_idem, update_idem]
      have hQ := hsome rf wf page l hne hrf hwf hl
      simp only [State.withPipe, ← hfiles] at hQ
      simp only [wp_bind, wp_modify, wp_pure, update_self, update_of_ne hne]
      exact hQ

/-- **`sys_pipe` makes a pipe with two descriptors, or it leaves everything as it was.** -/
theorem sysPipe_all_or_nothing (hs : Sound x s) (p : Fin nproc) :
    ∃ r s', sysPipe x p s = .ok (r, s') ∧ (r = false → s' = s) ∧ (r = true → NewPipe p s s') := by
  have hrun : wp (sysPipe x p) (fun r s' => (r = false → s' = s) ∧ (r = true → NewPipe p s s'))
      (fun _ => False) s := by
    have hundone : ∀ s', s' = s → (false = false → s' = s) ∧ (false = true → NewPipe p s s') :=
      fun s' heq => ⟨fun _ => heq, fun h => by cases h⟩
    unfold sysPipe
    rw [wp_bind]
    refine wp_pipealloc_exact hs (hundone s rfl) fun rf wf page l hne hrf hwf hl => ?_
    rw [wp_bind]
    refine wp_fdalloc_exact (wp_close_both hs hne hrf hwf hl (hundone _ rfl)) fun fd0 hfd0 => ?_
    rw [wp_bind]
    refine wp_fdalloc_exact ?_ fun fd1 hfd1 => ?_
    · -- the first descriptor is given back
      simp only [setFd, wp_bind, wp_modify]
      have hofile : update (update s.ofile (p, fd0) (some rf)) (p, fd0) none = s.ofile := by
        rw [update_idem, ← hfd0]
        exact update_eq_self ..
      have hclose := wp_close_both (E := fun _ => False) hs hne hrf hwf hl
        (o := update (update s.ofile (p, fd0) (some rf)) (p, fd0) none)
        (Q := fun r s' => (r = false → s' = s) ∧ (r = true → NewPipe p s s'))
        (hundone _ (by rw [hofile]))
      simp only [wp_bind] at hclose
      exact hclose
    · replace hfd1 : update s.ofile (p, fd0) (some rf) (p, fd1) = none := hfd1
      have hfds : fd0 ≠ fd1 := by
        rintro rfl
        rw [update_self] at hfd1
        cases hfd1
      rw [update_of_ne fun heq => hfds (congrArg Prod.snd heq).symm] at hfd1
      exact ⟨fun h => (by cases h), fun _ => ⟨rf, wf, fd0, fd1, page, l, hne, by rw [hrf],
        by rw [hwf], hfds, hfd0, hfd1, hl, rfl⟩⟩
  exact hrun.exists_ok

/-- A state in which one descriptor of each process is free. -/
def oneDescriptor : State :=
  { State.start [0x400] [] with
    file := update (State.start [0x400] []).file 5 ⟨15, none⟩
    ofile := fun e => if e.2 = 3 then none else some 5 }

/-- The first process makes a pipe in the last free page, unless it has only one descriptor left. -/
theorem sysPipe_last_page : (∃ s', sysPipe bootLayout initproc (State.start [0x400] []) =
    .ok (true, s') ∧ NewPipe initproc (State.start [0x400] []) s') ∧
    sysPipe bootLayout initproc oneDescriptor = .ok (false, oneDescriptor) := by
  have hgood : ∀ page ∈ [0x400], bootLayout.Holds page := by
    intro page hp
    rw [List.mem_singleton.mp hp]
    exact ⟨by decide, by decide⟩
  constructor
  · obtain ⟨r, s', hrun, -, hnew⟩ := sysPipe_all_or_nothing (s := State.start [0x400] [])
      ⟨rfl, hgood, fun _ _ => rfl, fun _ _ q hq => by cases hq⟩ initproc
    have hr : (sysPipe bootLayout initproc (State.start [0x400] [])).toOption.map Prod.fst =
        some true := by
      decide +kernel
    rw [hrun] at hr
    obtain rfl : r = true := Option.some.inj hr
    exact ⟨s', hrun, hnew rfl⟩
  · obtain ⟨r, s', hrun, hsame, -⟩ := sysPipe_all_or_nothing (s := oneDescriptor)
      ⟨rfl, hgood, by decide +kernel, fun _ _ q hq => by cases hq⟩ initproc
    have hr : (sysPipe bootLayout initproc oneDescriptor).toOption.map Prod.fst = some false := by
      decide +kernel
    rw [hrun] at hr
    obtain rfl : r = false := Option.some.inj hr
    rw [hrun, hsame rfl]

end Laboratorio.Xv6.Vm
