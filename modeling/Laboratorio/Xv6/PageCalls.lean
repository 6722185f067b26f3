import Laboratorio.Xv6.PageOwner

/-!
# Page ownership over whole runs

Each call keeps the invariant of `PageOwner`, also when it fails because there is no free page, so
that every page stays accounted for in every run of calls (`pages_owned`). The one thing a run has to
keep to is that `exec` is not given an argument as long as the address space above the devices.
-/

namespace Laboratorio.Xv6.Vm

open Finset Function Laboratorio.Wp Laboratorio.Count Laboratorio.Scan

variable {x : Layout} {all : Multiset Page} {o : Fds} {hand : Multiset (Fin nfile)} {s s' : State}
variable {p : Fin nproc} {f : Fin nfile}

/-! ## Changing one process -/

theorem owned_update (q : Proc) :
    State.owned { s with proc := update s.proc p q } + (s.proc p).pages = s.owned + q.pages := by
  have h := sum_update (mem_univ p) (fun _ r => Proc.pages r) s.proc q
  unfold State.owned
  rw [add_right_comm _ _ (s.proc p).pages, add_assoc _ _ (s.proc p).pages, h]
  abel

theorem ProcsOk.change {proc : Fin nproc → Proc} (h : ProcsOk o proc) {q : Proc}
    (hidle : q.state ≠ .active → ∀ fd, o (p, fd) = none)
    (hlive : q.state ≠ .unused → q.kstack.isSome ∧ q.pgdir.isSome ∧ q.sz ≤ kernbase) :
    ProcsOk o (update proc p q) := by
  refine ⟨fun r => ?_, fun r => ?_⟩
  · rw [update_apply]
    split
    · next hr => exact hr ▸ hidle
    · exact h.idle r
  · rw [update_apply]
    split
    · exact hlive
    · exact h.live r

/-- The pages that a process gains are no longer free, and those it loses are. -/
theorem Inv.setProc (h : Inv all o hand s) {k : Kmem} {q : Proc}
    (hk : (k.freelist : Multiset Page) + q.pages = s.kmem.freelist + (s.proc p).pages)
    (hw : k.wild = false) (hidle : q.state ≠ .active → ∀ fd, o (p, fd) = none)
    (hlive : q.state ≠ .unused → q.kstack.isSome ∧ q.pgdir.isSome ∧ q.sz ≤ kernbase) :
    Inv all o hand { s with kmem := k, proc := update s.proc p q } := by
  refine ⟨h.nodup, ?_, hw, h.files, h.procs.change hidle hlive⟩
  apply add_right_cancel (b := (s.proc p).pages)
  have hown := owned_update (s := s) (p := p) q
  calc (k.freelist : Multiset Page) +
        State.owned { s with kmem := k, proc := update s.proc p q } + (s.proc p).pages
      = k.freelist + (State.owned { s with proc := update s.proc p q } +
          (s.proc p).pages) := add_assoc ..
    _ = k.freelist + q.pages + s.owned := by rw [hown]; abel
    _ = s.kmem.freelist + s.owned + (s.proc p).pages := by rw [hk]; abel
    _ = all + (s.proc p).pages := by rw [h.accounted]

/-- The pages of a process that is in use. -/
theorem Proc.pages_eq {q : Proc} {kstack : Page} {d : Pgdir} (hq : q.state ≠ .unused)
    (hk : q.kstack = some kstack) (hd : q.pgdir = some d) : q.pages = {kstack} + d.pages := by
  rw [Proc.pages, if_neg hq, hk, hd]
  rfl

theorem Proc.pages_unused {q : Proc} (hq : q.state = .unused) : q.pages = 0 := if_pos hq

/-- A process in use has a kernel stack and a page table. -/
theorem Inv.memory (h : Inv all o hand s) (hp : (s.proc p).state ≠ .unused) :
    ∃ kstack d, (s.proc p).kstack = some kstack ∧ (s.proc p).pgdir = some d ∧
      (s.proc p).pages = {kstack} + d.pages ∧ (s.proc p).sz ≤ kernbase := by
  obtain ⟨hk, hd, hsz⟩ := h.procs.live p hp
  obtain ⟨kstack, hk⟩ := Option.isSome_iff_exists.mp hk
  obtain ⟨d, hd⟩ := Option.isSome_iff_exists.mp hd
  exact ⟨kstack, d, hk, hd, Proc.pages_eq hp hk hd, hsz⟩

theorem wp_pgdir {Q : Pgdir → State → Prop} {E : Fault → Prop} {d : Pgdir}
    (hd : (s.proc p).pgdir = some d) (hQ : Q d s) : wp (pgdir p) Q E s := by
  simp only [pgdir, wp_bind, wp_get, hd, wp_pure]
  exact hQ

/-- A process gets another page table. -/
theorem Inv.setImage (h : Inv all o hand s) (hp : (s.proc p).state = .active) {k : Kmem}
    {d d' : Pgdir} {sz : Nat} (hd : (s.proc p).pgdir = some d)
    (hk : (k.freelist : Multiset Page) + d'.pages = s.kmem.freelist + d.pages)
    (hw : k.wild = false) (hsz : sz ≤ kernbase) :
    Inv all o hand { s with
      kmem := k
      proc := update s.proc p { s.proc p with pgdir := some d', sz := sz } } := by
  have hne : (s.proc p).state ≠ .unused := by simp [hp]
  obtain ⟨kstack, d₀, hks, hd₀, hpages, -⟩ := h.memory hne
  rw [hd] at hd₀
  cases hd₀
  refine h.setProc ?_ hw (fun hq => absurd hp hq) fun _ => ⟨by simp [hks], rfl, hsz⟩
  have hnew : Proc.pages { s.proc p with pgdir := some d', sz := sz } = {kstack} + d'.pages :=
    Proc.pages_eq hne hks rfl
  rw [hpages, hnew, add_left_comm, hk, add_left_comm]

/-! ## `sbrk` and `exec` -/

/-- **`sbrk`** -/
theorem wp_growproc {n : Int} (h : Inv all s.ofile 0 s) (hp : (s.proc p).state = .active) :
    wp (growproc x p n) (fun _ s' => Inv all s'.ofile 0 s') Fault.Panic s := by
  obtain ⟨-, d, -, hd, -, hsz⟩ := h.memory (p := p) (by simp [hp])
  unfold growproc
  rw [wp_bind]
  refine wp_pgdir hd ?_
  simp only [wp_bind, wp_get]
  split
  · exact h
  · have hrule : ∀ newsz, wp (if 0 < n then allocuvm x d (s.proc p).sz newsz
        else deallocuvm x d (s.proc p).sz newsz) (fun r k' =>
          ((k'.freelist : Multiset Page) + r.1.pages = s.kmem.freelist + d.pages ∧
            k'.wild = false) ∧ r.2 ≤ kernbase) Fault.Panic s.kmem := by
      intro newsz
      split
      · refine wp_post (wp_allocuvm h.wild) (fun r k' hr => ⟨hr.1, ?_⟩)
        rcases hr.2 with h0 | ⟨rfl, -⟩ | ⟨hr, -, hk, -⟩
        · omega
        · exact hsz
        · omega
      · exact wp_post (wp_deallocuvm h.wild hsz) (fun r k' hr => ⟨hr.1, hr.2.trans hsz⟩)
    simp only [wp_bind, wp_mem]
    refine wp_post (hrule _) ?_
    rintro r k₁ ⟨⟨hk₁, hw₁⟩, hsz₁⟩
    simp only [modifyProc, wp_modify]
    split
    · exact h.setImage hp hd hk₁ hw₁ hsz
    · simp only [wp_bind, wp_modify, wp_pure, update_self, update_idem]
      exact h.setImage hp hd hk₁ hw₁ hsz₁

/-- **`exec`**, with arguments that are not too long -/
theorem wp_exec {phs : Option (List Ph)} {args : List Nat} {word : UInt32}
    (h : Inv all s.ofile 0 s) (hp : (s.proc p).state = .active)
    (hargs : ∀ len ∈ args, len + 1 ≤ argLimit) :
    wp (exec x p phs args word) (fun _ s' => Inv all s'.ofile 0 s') Fault.Panic s := by
  obtain ⟨-, old, -, hold, -, hsz⟩ := h.memory (p := p) (by simp [hp])
  -- giving back what was taken from the free list
  have hback : ∀ k : Kmem, (k.freelist : Multiset Page) = s.kmem.freelist → k.wild = false →
      Inv all s.ofile 0 { s with kmem := k } := fun k hk hw =>
    ⟨h.nodup, by rw [← h.accounted, ← hk]; rfl, hw, h.files, h.procs⟩
  unfold exec
  rw [wp_bind]
  refine wp_pgdir hold ?_
  simp only [wp_bind, wp_get]
  split
  · exact h
  · split
    · exact h
    · rw [wp_bind, wp_mem]
      refine wp_setupkvm h.wild (fun k₁ hk₁ hw₁ => hback k₁ hk₁ hw₁) fun d k₁ hk₁ hw₁ _ hd => ?_
      simp only [wp_bind, wp_mem]
      refine wp_post (wp_buildImage hw₁ hd hargs) ?_
      rintro ⟨d₂, r⟩ k₂ ⟨⟨hk₂, hw₂⟩, hsz₂⟩
      rw [hk₁] at hk₂
      cases r with
      | none =>
        simp only [wp_bind, wp_mem]
        refine wp_post (wp_freevm hw₂) ?_
        rintro - k₃ ⟨hk₃, hw₃⟩
        exact hback k₃ (hk₃.trans hk₂) hw₃
      | some sz =>
        simp only [wp_bind, wp_mem, modifyProc, wp_modify]
        refine wp_post (wp_freevm hw₂) ?_
        rintro - k₃ ⟨hk₃, hw₃⟩
        refine h.setImage hp hold ?_ hw₃ (hsz₂ sz rfl)
        rw [hk₃, add_right_comm, hk₂]

/-! ## `fork` -/

/-- `allocproc` takes an unused process and a page for its kernel stack. -/
theorem wp_allocproc {Q : Option (Fin nproc) → State → Prop} (h : Inv all o hand s)
    (hnone : ∀ s', Inv all o hand s' → s'.ofile = s.ofile → Q none s')
    (hsome : ∀ np kstack l, (s.proc np).state = .unused → s.kmem.freelist = kstack :: l →
      Q (some np) { s with
        kmem := { s.kmem with freelist := l }
        proc := update s.proc np { s.proc np with state := .embryo, kstack := some kstack } }) :
    wp allocproc Q Fault.Panic s := by
  simp only [allocproc, wp_bind, wp_get]
  split
  · exact hnone s h rfl
  · next np hnp =>
    have hunused : (s.proc np).state = .unused := of_decide_eq_true (first_eq_some.mp hnp).1
    simp only [wp_bind, modifyProc, wp_modify, wp_mem]
    refine wp_kalloc h.wild (fun _ => ?_) fun kstack l hl => ?_
    · simp only [wp_bind, wp_modify, wp_pure, update_self, update_idem]
      refine hnone _ (h.setProc ?_ h.wild (fun _ => h.procs.idle np (by simp [hunused])) ?_) rfl
      · rw [Proc.pages_unused rfl, Proc.pages_unused hunused]
      · exact fun hq => absurd rfl hq
    · simp only [wp_bind, wp_modify, wp_pure, update_self, update_idem]
      exact hsome np kstack l hunused hl

/-- A file gets another reference, for a descriptor. -/
theorem FilesOk.dup {file : Fin nfile → File} {pipes : List Pipe} {e : Fin nproc × Fin nofile}
    (h : FilesOk o hand file pipes) (he : o e = none) :
    FilesOk (update o e (some f)) hand
      (update file f { file f with ref := (file f).ref + 1 }) pipes := by
  have hocc : ∀ g, occ (update o e (some f)) (some g) =
      occ o (some g) + if some f = some g then 1 else 0 := fun g => by
    have := occ_update o e (some f) (some g)
    rwa [he, if_neg (by simp), Nat.add_zero] at this
  have hf := h.refs f
  refine h.setRef ?_ (fun g hg => ?_) (Nat.succ_pos _)
  · rw [hocc, if_pos rfl]
    omega
  · rw [hocc, if_neg (by simpa using hg.symm), Nat.add_zero]

/-- The descriptors of the new process are copies. -/
theorem wp_dupFiles {np : Fin nproc} {fds : List (Fin nofile)} (hfds : fds.Nodup)
    (hnp : ∀ fd ∈ fds, s.ofile (np, fd) = none)
    (h : FilesOk s.ofile hand s.file s.pipes) :
    wp (dupFiles p np fds) (fun _ s' => FilesOk s'.ofile hand s'.file s'.pipes ∧
      s'.kmem = s.kmem ∧ s'.kernel = s.kernel ∧ s'.proc = s.proc ∧ s'.pipes = s.pipes ∧
      ∀ q fd, q ≠ np → s'.ofile (q, fd) = s.ofile (q, fd)) Fault.Panic s := by
  induction fds generalizing s with
  | nil => exact ⟨h, rfl, rfl, rfl, rfl, fun _ _ _ => rfl⟩
  | cons fd fds ih =>
    obtain ⟨hfd, hnodup⟩ := List.nodup_cons.mp hfds
    simp only [dupFiles, wp_bind, wp_get]
    split
    · exact ih hnodup (fun e he => hnp e (List.mem_cons_of_mem _ he)) h
    · next f hf =>
      simp only [wp_bind, filedup, wp_get, wp_ite, wp_throw, wp_set, setFd, wp_modify]
      refine ⟨fun _ => trivial, fun _ => ?_⟩
      refine wp_post (ih hnodup (fun e he => ?_) (h.dup (hnp fd List.mem_cons_self))) ?_
      · show update s.ofile (np, fd) (some f) (np, e) = none
        rw [update_of_ne]
        · exact hnp e (List.mem_cons_of_mem _ he)
        · intro heq
          cases heq
          exact hfd he
      · rintro - s' ⟨hfiles, hk, hker, hproc, hpipes, ho⟩
        refine ⟨hfiles, hk, hker, hproc, hpipes, fun q e hq => (ho q e hq).trans ?_⟩
        refine update_of_ne ?_ ..
        intro heq
        cases heq
        exact hq rfl

/-- **`fork`** -/
theorem wp_fork (h : Inv all s.ofile 0 s) (hp : (s.proc p).state = .active) :
    wp (fork x p) (fun _ s' => Inv all s'.ofile 0 s') Fault.Panic s := by
  obtain ⟨-, d, -, hd, -, hsz⟩ := h.memory (p := p) (by simp [hp])
  unfold fork
  rw [wp_bind]
  refine wp_allocproc h (fun s' h' ho => ?_) fun np kstack l hunused hl => ?_
  · show Inv all s'.ofile 0 s'
    rw [ho]
    exact h'
  · have hne : p ≠ np := by
      rintro rfl
      rw [hp] at hunused
      cases hunused
    have hidle := h.procs.idle np (by simp [hunused])
    rw [wp_bind]
    refine wp_pgdir (d := d) ?_ ?_
    · show (update s.proc np _ p).pgdir = some d
      rw [update_of_ne hne]
      exact hd
    · have hproc : update s.proc np
          { s.proc np with state := .embryo, kstack := some kstack } p = s.proc p :=
        update_of_ne hne ..
      simp only [wp_bind, wp_get, wp_mem, hproc]
      have hwl : ({ s.kmem with freelist := l } : Kmem).wild = false := h.wild
      refine wp_copyuvm hwl hsz (fun k' hk' hw' => ?_) fun nd k' hk' hw' => ?_
      · -- the kernel stack is freed
        simp only [wp_bind, modifyProc, wp_modify, freeStack, wp_get, update_self,
          update_idem, wp_mem]
        refine wp_kfree ?_
        refine h.setProc ?_ hw' (fun _ => hidle) fun hq => absurd rfl hq
        rw [Proc.pages_unused rfl, Proc.pages_unused hunused, add_zero, add_zero, hl]
        show ((kstack :: k'.freelist : List Page) : Multiset Page) = (kstack :: l : List Page)
        rw [← Multiset.cons_coe, hk', Multiset.cons_coe]
      · simp only [wp_bind, modifyProc, wp_modify, update_self, update_idem]
        refine wp_post (wp_dupFiles (List.nodup_finRange _) (fun fd _ => hidle fd) h.files) ?_
        rintro - s' ⟨hfiles, hk, hker, hproc', hpipes, ho⟩
        have h' : Inv all s.ofile 0 { s with
            kmem := k'
            proc := update s.proc np { s.proc np with
              state := .active
              kstack := some kstack
              pgdir := some nd
              sz := (s.proc p).sz
              parent := some p } } := by
          refine h.setProc ?_ hw' (fun hq => absurd rfl hq) fun _ => ⟨rfl, rfl, hsz⟩
          rw [Proc.pages_unused hunused, add_zero, hl, Proc.pages_eq (by simp) rfl rfl,
            add_left_comm, hk', Multiset.singleton_add, Multiset.cons_coe]
        simp only [hproc', update_self, update_idem]
        refine ⟨h.nodup, ?_, ?_, hfiles, fun r hr fd => ?_, h'.procs.live⟩
        · have hacc := h'.accounted
          unfold State.owned at hacc ⊢
          simp only [hk, hker, hpipes]
          exact hacc
        · simp only [hk]
          exact hw'
        · have hrn : r ≠ np := by
            rintro rfl
            simp at hr
          show s'.ofile (r, fd) = none
          rw [ho r fd hrn]
          exact h'.procs.idle r hr fd

/-! ## `exit` and `wait` -/

theorem wp_closeFiles {fds : List (Fin nofile)} (h : Inv all s.ofile 0 s) :
    wp (closeFiles x p fds) (fun _ s' => Inv all s'.ofile 0 s' ∧ s'.proc = s.proc ∧
      (∀ fd ∈ fds, s'.ofile (p, fd) = none) ∧
      ∀ e, s.ofile e = none → s'.ofile e = none) Fault.Panic s := by
  induction fds generalizing s with
  | nil => exact ⟨h, rfl, nofun, fun _ he => he⟩
  | cons fd fds ih =>
    simp only [closeFiles, wp_bind, wp_get]
    split
    · next hnone =>
      refine wp_post (ih h) ?_
      rintro - s' ⟨h', hproc, hfds, hkeep⟩
      refine ⟨h', hproc, fun e he => ?_, hkeep⟩
      rcases List.mem_cons.mp he with rfl | he
      · exact hkeep _ hnone
      · exact hfds e he
    · next f hf =>
      simp only [wp_bind, setFd, wp_modify]
      refine wp_post (wp_fileclose (h.clearFd hf)) ?_
      rintro - s₁ ⟨h₁, hproc₁, ho₁⟩
      have h₂ := h₁.ofile (update s₁.ofile (p, fd) none)
      rw [← ho₁] at h₂
      refine wp_post (ih h₂) ?_
      rintro - s' ⟨h', hproc, hfds, hkeep⟩
      refine ⟨h', hproc.trans hproc₁, fun e he => ?_, fun e he => hkeep e ?_⟩
      · rcases List.mem_cons.mp he with rfl | he
        · exact hkeep _ (update_self ..)
        · exact hfds e he
      · show update s₁.ofile (p, fd) none e = none
        rw [update_apply, ho₁]
        split
        · rfl
        · exact he

/-- Processes change without a change of their pages. -/
theorem Inv.relabel (h : Inv all o hand s) {proc : Fin nproc → Proc}
    (hpages : ∀ q, (proc q).pages = (s.proc q).pages) (hproc : ProcsOk o proc) :
    Inv all o hand { s with proc := proc } := by
  refine ⟨h.nodup, ?_, h.wild, h.files, hproc⟩
  rw [← h.accounted]
  simp only [State.owned, hpages]

/-- **`exit`** -/
theorem wp_exit (h : Inv all s.ofile 0 s) (hp : (s.proc p).state = .active) :
    wp (exit x p) (fun _ s' => Inv all s'.ofile 0 s') Fault.Panic s := by
  simp only [exit, wp_bind, wp_ite, wp_throw, modifyProc, wp_modify]
  refine ⟨fun _ => trivial, fun _ => ?_⟩
  refine wp_post (wp_closeFiles h) ?_
  rintro - s₁ ⟨h₁, hproc₁, hfds, -⟩
  have hp₁ : (s₁.proc p).state = .active := by
    rw [hproc₁]
    exact hp
  -- the parents change
  have hreparent : ∀ q, ∃ parent, (if (s₁.proc q).parent = some p then
      { s₁.proc q with parent := some initproc } else s₁.proc q) =
        { s₁.proc q with parent := parent } := fun q => by
    split
    · exact ⟨_, rfl⟩
    · exact ⟨_, rfl⟩
  have hcases : ∀ q, ∃ parent state, (update (fun q =>
      if (s₁.proc q).parent = some p then { s₁.proc q with parent := some initproc }
      else s₁.proc q) p { (if (s₁.proc p).parent = some p then
        { s₁.proc p with parent := some initproc } else s₁.proc p) with state := .zombie } : _) q =
        { s₁.proc q with parent := parent, state := state } ∧
      (q = p ∧ state = .zombie ∨ q ≠ p ∧ state = (s₁.proc q).state) := fun q => by
    obtain ⟨parent, hq⟩ := hreparent q
    rw [update_apply]
    split
    · next hqp =>
      subst hqp
      exact ⟨parent, .zombie, by rw [hq], .inl ⟨rfl, rfl⟩⟩
    · next hqp => exact ⟨parent, (s₁.proc q).state, hq, .inr ⟨hqp, rfl⟩⟩
  refine h₁.relabel (fun q => ?_) ⟨fun q hq fd => ?_, fun q hq => ?_⟩
  · obtain ⟨parent, state, he, hst⟩ := hcases q
    rw [he]
    rcases hst with ⟨rfl, rfl⟩ | ⟨-, rfl⟩
    · simp [Proc.pages, hp₁]
    · rfl
  · obtain ⟨parent, state, he, hst⟩ := hcases q
    rcases hst with ⟨rfl, rfl⟩ | ⟨-, rfl⟩
    · exact hfds fd (List.mem_finRange fd)
    · rw [he] at hq
      exact h₁.procs.idle q hq fd
  · obtain ⟨parent, state, he, hst⟩ := hcases q
    rw [he] at hq ⊢
    rcases hst with ⟨rfl, rfl⟩ | ⟨-, rfl⟩
    · exact h₁.procs.live q (by simp [hp₁])
    · exact h₁.procs.live q hq

/-- **`wait`** -/
theorem wp_wait (h : Inv all s.ofile 0 s) :
    wp (wait x p) (fun _ s' => Inv all s'.ofile 0 s') Fault.Panic s := by
  simp only [wait, wp_bind, wp_get]
  split
  · next q hq =>
    obtain ⟨-, hz⟩ := of_decide_eq_true (first_eq_some.mp hq).1
    obtain ⟨kstack, d, hks, hd, hpages, -⟩ := h.memory (p := q) (by simp [hz])
    rw [wp_bind]
    refine wp_pgdir hd ?_
    simp only [wp_bind, freeStack, wp_get, hks, wp_mem, modifyProc, wp_modify]
    refine wp_kfree ?_
    refine wp_post (wp_freevm h.wild) ?_
    rintro - k₂ ⟨hk₂, hw₂⟩
    simp only [wp_pure, update_self, update_idem]
    refine h.setProc ?_ hw₂ (fun _ => h.procs.idle q (by simp [hz])) fun hq => absurd rfl hq
    rw [Proc.pages_unused rfl, add_zero, hpages, hk₂]
    show ((kstack :: s.kmem.freelist : List Page) : Multiset Page) + d.pages = _
    rw [coe_cons_add]
    abel
  · split
    · exact h
    · trivial

/-! ## Runs -/

/-- The call does not give `exec` an argument that is as long as the address space above the
devices. -/
def Call.Short : Call → Prop
  | .exec _ args _ => ∀ len ∈ args, len + 1 ≤ argLimit
  | _ => True

/-- **Every call keeps every page accounted for.** -/
theorem wp_call {c : Call} (h : Inv all s.ofile 0 s) (hc : c.Short) :
    wp (call x p c) (fun _ s' => Inv all s'.ofile 0 s') Fault.Panic s := by
  simp only [call, wp_bind, wp_get, wp_ite, wp_throw]
  refine ⟨fun _ => trivial, fun hp => ?_⟩
  have hp := not_not.mp hp
  cases c with
  | fork =>
    simp only [wp_bind, wp_pure]
    exact wp_fork h hp
  | exec phs args word =>
    simp only [wp_bind, wp_pure]
    exact wp_exec h hp hc
  | exit => exact wp_exit h hp
  | wait =>
    simp only [wp_bind, wp_pure]
    exact wp_wait h
  | sbrk n =>
    simp only [wp_bind, wp_pure]
    exact wp_growproc h hp
  | pipe =>
    simp only [wp_bind, wp_pure]
    exact wp_sysPipe h hp
  | close fd =>
    simp only [wp_bind, wp_pure]
    exact wp_sysClose h

theorem Inv.start {free kernel : List Page} (hn : (free ++ kernel).Nodup) :
    Inv (free ++ kernel : List Page) (fun _ => none) 0 (State.start free kernel) := by
  refine ⟨Multiset.coe_nodup.mpr hn, ?_, rfl, ⟨fun f => ?_, nofun, nofun, nofun⟩,
    fun _ _ _ => rfl, fun p hp => absurd rfl hp⟩
  · have hsum : ∑ p, ((State.start free kernel).proc p).pages = 0 :=
      sum_eq_zero fun p _ => Proc.pages_unused rfl
    rw [State.owned, hsum, add_zero, ← Multiset.coe_add]
    exact congrArg _ (add_zero _)
  · rw [Multiset.count_zero, add_zero]
    exact (occ_eq_zero.mpr nofun).symm

/-- The first process has its pages from the free list. -/
theorem wp_userinit (h : Inv all s.ofile 0 s) (hfd : ∀ e, s.ofile e = none) :
    wp (userinit x) (fun _ s' => Inv all s'.ofile 0 s') Fault.Panic s := by
  unfold userinit
  rw [wp_bind]
  refine wp_allocproc h (fun _ _ _ => trivial) fun p kstack l hunused hl => ?_
  rw [wp_bind, wp_mem]
  have hwl : ({ s.kmem with freelist := l } : Kmem).wild = false := h.wild
  refine wp_setupkvm hwl (fun _ _ _ => trivial) fun d k₁ hk₁ hw₁ _ _ => ?_
  rw [wp_bind, wp_mem]
  refine wp_kalloc hw₁ (fun _ => trivial) fun page l₂ hl₂ => ?_
  have hwl₂ : ({ k₁ with freelist := l₂ } : Kmem).wild = false := hw₁
  have hzero : 0 < userTop := by decide
  have hmap : mappages d 0 pgsize (page * pgsize) ⟨true, true⟩ =
      mappages d (0 * pgsize) pgsize (page * pgsize) ⟨true, true⟩ := by rw [Nat.zero_mul]
  simp only [wp_bind, wp_mem, hmap]
  refine wp_mappages_user hwl₂ hzero (fun d' k' _ _ _ _ => ?_) fun d' k' hk' hw' _ _ _ _ => ?_
  · simp only [wp_ite]
    exact ⟨fun _ => trivial, fun hne => absurd trivial hne⟩
  · simp only [wp_ite, modifyProc, wp_modify, update_self, update_idem]
    have hsz : pgsize ≤ kernbase := by decide
    refine ⟨(fun h => by cases h), fun _ => ?_⟩
    refine h.setProc ?_ hw' (fun _ => fun fd => hfd (p, fd)) fun _ => ⟨rfl, rfl, hsz⟩
    rw [Proc.pages_unused hunused, add_zero, Proc.pages_eq (by simp) rfl rfl, hl]
    rw [hl₂, coe_cons_add] at hk₁
    rw [add_left_comm, hk', hk₁, Multiset.singleton_add, Multiset.cons_coe]

/-- The states that calls reach after boot, when every call is `ok`. -/
def Reachable (x : Layout) (free kernel : List Page) (ok : Call → Prop) : State → Prop :=
  Reach.Reachable (fun s => userinit x (State.start free kernel) = .ok ((), s))
    (fun s s' => ∃ p c, ok c ∧ call x p c s = .ok ((), s'))

theorem Inv.reachable {free kernel : List Page} (hn : (free ++ kernel).Nodup)
    (h : Reachable x free kernel Call.Short s) :
    Inv (free ++ kernel : List Page) s.ofile 0 s := by
  refine Reach.Reachable.invariant (I := fun s => Inv (free ++ kernel : List Page) s.ofile 0 s) h
    (fun s hs => ?_) fun s s' hs ⟨p, c, hc, hcall⟩ => (wp_call hs hc).ok hcall
  exact (wp_userinit (Inv.start hn) fun _ => rfl).ok hs

/-- Every page of `all` is on the free list once, or it has one owner. -/
def State.Accounted (s : State) (all : List Page) : Prop :=
  ∀ p ∈ all, s.kmem.freelist.count p = 1 ∧ s.owned.count p = 0 ∨
    s.kmem.freelist.count p = 0 ∧ s.owned.count p = 1

theorem Inv.count (h : Inv all o hand s) {page : Page} (hp : page ∈ all) :
    s.kmem.freelist.count page + s.owned.count page = 1 := by
  have hone := Multiset.count_eq_one_of_mem h.nodup hp
  rw [← h.accounted, Multiset.count_add, Multiset.coe_count] at hone
  exact hone

/-- **Every page has one owner** in every run in which no argument of `exec` is too long: it is free
or in use once, pipes are in use as long as a file refers to them, and a call that does not end stops
with a panic of the source. -/
theorem pages_owned {free kernel : List Page} (hn : (free ++ kernel).Nodup)
    (h : Reachable x free kernel Call.Short s) :
    s.Accounted (free ++ kernel) ∧
    (∀ q ∈ s.pipes, ∃ f w, (s.file f).pipe = some (q.page, w) ∧ ∃ e, s.ofile e = some f) ∧
    ∀ p c e, c.Short → call x p c s = .error e → e.Panic := by
  have hi := Inv.reachable hn h
  refine ⟨fun p hp => ?_, fun q hq => ?_, fun p c e hc he => (wp_call hi hc).error he⟩
  · have := hi.count (Multiset.mem_coe.mpr hp)
    omega
  · obtain ⟨⟨w, hw⟩, hends⟩ := hi.files.pipes q hq
    obtain ⟨f, hf⟩ := hends w hw
    refine ⟨f, w, hf, occ_pos.mp ?_⟩
    have hpos := (hi.files.ends f q.page w hf).1
    have href := hi.files.refs f
    rw [Multiset.count_zero] at href
    omega

end Laboratorio.Xv6.Vm
