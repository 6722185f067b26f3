import Laboratorio.Lib.Count
import Laboratorio.Xv6.Pids

/-!
# Parents and children

`Log` adds to the process table the list of the `fork`s that have returned a pid, each with the
number of the process that called it and of the new one. `Family` is what holds of the parent
pointers in every state: a process that has been forked has a parent that is alive, which is the one
that forked it, or `initproc` when that one has exited.

Neither `sys_getppid` nor `sys_pscnt` takes a lock, so other processes go on between two of their
loads. `getppid` is given the states of its two loads, and `Scan` is a call of `sys_pscnt` in
progress.
-/

namespace Laboratorio.Xv6.Ptable

open Laboratorio.Scan Laboratorio.Reach Laboratorio.Count

variable {C : Type} {n : Nat}

/-! ## The two system calls -/

/-- `sys_getppid` of process `p`, which loads `parent` in state `s` and `parent->pid` in state `s'`;
none when `parent` is null. -/
def getppid (s s' : State C n) (p : Fin n) : Option Int :=
  (s.tab p).parent.map fun r => (s'.tab r).pid

/-- What `sys_pscnt` adds for an entry. -/
def State.counts (s : State C n) (p : Fin n) : Nat :=
  if (s.tab p).state ≠ .unused then 1 else 0

/-- `sys_pscnt`, when nothing happens during the call. -/
def State.pscnt (s : State C n) : Nat :=
  (List.finRange n).foldl (fun count p => count + s.counts p) 0

theorem State.pscnt_eq_sum (s : State C n) : s.pscnt = ∑ p, s.counts p := by
  rw [State.pscnt, ← List.sum_ofFn, List.ofFn_eq_map, List.sum_eq_foldl, List.foldl_map]

/-! ## The forks of a run -/

/-- A `fork` that has returned a pid: the number of the process that called it, and of the new
one. -/
structure Fork where
  parent : Nat
  child : Nat
deriving DecidableEq, Repr

/-- The process table, and the `fork`s so far. -/
structure Log (C : Type) (n : Nat) where
  state : State C n
  forks : List Fork

/-- The `fork` that CPU `c` ends with its next step. -/
def State.forking (s : State C n) (c : C) : Option Fork :=
  match s.cpu c with
  | .running p =>
    match (s.tab p).pc with
    | .publish np => some ⟨(s.tab p).birth, (s.tab np).birth⟩
    | _ => none
  | _ => none

section Steps

variable [DecidableEq C]

/-- A step of CPU `c`. -/
def Log.step (initproc : Fin n) (l : Log C n) (c : C) (a : Act) : Option (Log C n) :=
  (l.state.step initproc c a).map fun s => ⟨s, (l.state.forking c).toList ++ l.forks⟩

/-- One step of any CPU. -/
def Log.Step (initproc : Fin n) (l l' : Log C n) : Prop := ∃ c a, l.step initproc c a = some l'

/-- After `userinit`. -/
def Log.boot (initproc : Fin n) : Log C n := ⟨State.boot initproc, []⟩

end Steps

/-! ## The invariant -/

variable {initproc : Fin n} {s s' : State C n} {home : Fin n → Option C} {c : C} {p q np : Fin n}
  {forks : List Fork}

/-- The process has been forked, and no `wait` has freed it. -/
def ProcState.forked (st : ProcState) : Prop := st ≠ .unused ∧ st ≠ .embryo

instance (st : ProcState) : Decidable st.forked := inferInstanceAs (Decidable (_ ∧ _))

/-- The share of a process in the number of those that have been forked. -/
def ProcState.share (st : ProcState) : Nat := if st.forked then 1 else 0

/-- Process `r` is the parent that `fork` `f` has given: the one that called it or, when that one
has exited, `initproc`. -/
def IsParent (initproc : Fin n) (s : State C n) (f : Fork) (r : Fin n) : Prop :=
  (s.tab r).birth = f.parent ∨
    r = initproc ∧ ∀ p, (s.tab p).state.alive = true → (s.tab p).birth ≠ f.parent

/-- **What holds of parents and children**, in every state. -/
structure Family (initproc : Fin n) (s : State C n) (forks : List Fork) : Prop where
  /-- A process in `fork` is the parent of the new process. -/
  adopted : ∀ {p np}, (s.tab p).pc.adopted = some np → (s.tab np).parent = some p
  /-- A process that has been forked has a parent that is alive. -/
  parent : ∀ {q}, q ≠ initproc → (s.tab q).state.forked → ∃ f ∈ forks, f.child = (s.tab q).birth ∧
    ∃ r, (s.tab q).parent = some r ∧ (s.tab r).state.alive = true ∧ IsParent initproc s f r
  /-- The processes of the list are numbered. -/
  lt : ∀ {f}, f ∈ forks → f.parent < s.births ∧ f.child < s.births
  /-- An `EMBRYO` is not in the list yet. -/
  embryo : ∀ {q f}, (s.tab q).state = .embryo → f ∈ forks →
    f.child ≠ (s.tab q).birth ∧ f.parent ≠ (s.tab q).birth
  nodup : (forks.map Fork.child).Nodup

/-- The first process and those that a `fork` has made are in the table, until a `wait` frees
them. -/
def Census (s : State C n) (forks : List Fork) : Prop :=
  (∑ q, (s.tab q).state.share) + s.reaped.length = 1 + forks.length

theorem Family.boot : Family initproc (State.boot initproc : State C n) [] where
  adopted {p np} h := by
    rw [State.tab_boot] at h
    split at h <;> cases h
  parent {q} hne hq := by
    rw [State.tab_boot, if_neg hne] at hq
    exact absurd rfl hq.1
  lt := nofun
  embryo := nofun
  nodup := .nil

theorem Census.boot : Census (State.boot initproc : State C n) [] := by
  have hshare : ∀ q, ((State.boot initproc : State C n).tab q).state.share =
      if q = initproc then 1 else 0 := by
    intro q
    rw [State.tab_boot]
    split <;> rfl
  show (∑ q, ((State.boot initproc : State C n).tab q).state.share) + 0 = 1 + 0
  rw [Finset.sum_congr rfl fun q _ => hshare q, Finset.sum_ite_eq' Finset.univ initproc,
    if_pos (Finset.mem_univ _)]

/-! ## Every step keeps the invariant -/

theorem ProcState.forked_of_alive {st : ProcState} (h : st.alive = true) : st.forked := by
  cases st with
  | unused | embryo | zombie => cases h
  | sleeping | runnable | running => exact ⟨nofun, nofun⟩

theorem Kin.forked {x y : Proc n} (h : Kin x y) : y.state.forked ↔ x.state.forked := by
  unfold ProcState.forked
  rw [Ne, Ne, Ne, Ne, h.state_eq rfl, h.state_eq rfl]

theorem Waits.alive (h : Waits initproc s) : (s.tab initproc).state.alive = true := by
  obtain ⟨hz, hu, he⟩ := h.init
  cases hst : (s.tab initproc).state with
  | zombie => exact absurd hst hz
  | unused => exact absurd hst hu
  | embryo => exact absurd hst he
  | sleeping | runnable | running => rfl

/-- Processes that are alive keep their numbers, and nobody comes to life. -/
theorem IsParent.mono {f : Fork} {r : Fin n} (h : IsParent initproc s f r)
    (hr : (s'.tab r).birth = (s.tab r).birth)
    (htab : ∀ p, (s'.tab p).state.alive = true → (s.tab p).state.alive = true ∧
      (s'.tab p).birth = (s.tab p).birth) : IsParent initproc s' f r := by
  rcases h with h | ⟨rfl, h⟩
  · exact .inl (hr.trans h)
  · refine .inr ⟨rfl, fun p hp => ?_⟩
    rw [(htab p hp).2]
    exact h p (htab p hp).1

/-- A step that is about nobody's parent. -/
theorem Family.kin (h : Family initproc s forks) (htab : ∀ r, Kin (s.tab r) (s'.tab r))
    (hadopted : ∀ {p np}, (s'.tab p).pc.adopted = some np → (s.tab p).pc.adopted = some np)
    (hbirths : s'.births = s.births) : Family initproc s' forks where
  adopted {p np} hp := by
    rw [(htab np).parent]
    exact h.adopted (hadopted hp)
  parent {q} hne hq := by
    obtain ⟨f, hf, hchild, r, hr, halive, his⟩ := h.parent hne ((htab q).forked.mp hq)
    refine ⟨f, hf, hchild.trans (htab q).birth.symm, r, (htab q).parent.trans hr,
      (htab r).alive.trans halive, his.mono (htab r).birth fun p hp => ?_⟩
    exact ⟨(htab p).alive.symm.trans hp, (htab p).birth⟩
  lt {f} hf := by
    rw [hbirths]
    exact h.lt hf
  embryo {q f} hq hf := by
    rw [(htab q).birth]
    exact h.embryo (((htab q).state_eq rfl).mp hq) hf
  nodup := h.nodup

/-- A step about an entry with nobody who has been forked, before and after. -/
theorem Family.unforked (h : Family initproc s forks) (np : Fin n)
    (hnp : ¬ (s.tab np).state.forked)
    (hnp' : ¬ (s'.tab np).state.forked) (htab : ∀ r, r ≠ np → Kin (s.tab r) (s'.tab r))
    (hadopted : ∀ {p m}, (s'.tab p).pc.adopted = some m → (s'.tab m).parent = some p)
    (hbirths : s.births ≤ s'.births)
    (hembryo : (s'.tab np).state = .embryo → ∀ f ∈ forks,
      f.child ≠ (s'.tab np).birth ∧ f.parent ≠ (s'.tab np).birth) :
    Family initproc s' forks where
  adopted := hadopted
  parent {q} hne hq := by
    have hqn : q ≠ np := by
      rintro rfl
      exact hnp' hq
    obtain ⟨f, hf, hchild, r, hr, halive, his⟩ := h.parent hne ((htab q hqn).forked.mp hq)
    have hrn : r ≠ np := by
      rintro rfl
      exact hnp (ProcState.forked_of_alive halive)
    refine ⟨f, hf, hchild.trans (htab q hqn).birth.symm, r, (htab q hqn).parent.trans hr,
      (htab r hrn).alive.trans halive, his.mono (htab r hrn).birth fun p hp => ?_⟩
    have hpn : p ≠ np := by
      rintro rfl
      exact hnp' (ProcState.forked_of_alive hp)
    exact ⟨(htab p hpn).alive.symm.trans hp, (htab p hpn).birth⟩
  lt {f} hf := by
    obtain ⟨hparent, hchild⟩ := h.lt hf
    exact ⟨hparent.trans_le hbirths, hchild.trans_le hbirths⟩
  embryo {q f} hq hf := by
    by_cases hqn : q = np
    · subst hqn
      exact hembryo hq f hf
    · rw [(htab q hqn).birth]
      exact h.embryo (((htab q hqn).state_eq rfl).mp hq) hf
  nodup := h.nodup

/-- The parent of a process whose entry keeps its own, when the adopted ones keep theirs. -/
theorem Family.adopted_of_ne (h : Family initproc s forks)
    (htab : ∀ r, r ≠ np → Keeps (s.tab r) (s'.tab r)) (hpc : (s'.tab np).pc.adopted = none)
    (hparent : (s'.tab np).parent = (s.tab np).parent) {p m : Fin n}
    (hp : (s'.tab p).pc.adopted = some m) : (s'.tab m).parent = some p := by
  have hpn : p ≠ np := by
    rintro rfl
    rw [hpc] at hp
    cases hp
  have hm := h.adopted ((htab p hpn).adopted hp)
  by_cases hmn : m = np
  · subst hmn
    exact hparent.trans hm
  · exact (htab m hmn).parent.trans hm

/-- `fork` sets the parent of the new process, and no other process is about to do so. -/
theorem Family.adopt (h : Family initproc s forks) (hinv : Inv s home) (hne : p ≠ np)
    (hpc : (s.tab p).pc = .spot (.embryo np)) (hnp : (s.tab np).state = .embryo)
    (hchild : s'.tab np = { s.tab np with parent := some p })
    (hself : s'.tab p = { s.tab p with pc := .spot (.adopted np) })
    (htab : ∀ r, r ≠ np → r ≠ p → Steady initproc r (s.tab r) (s'.tab r))
    (hbirths : s'.births = s.births) : Family initproc s' forks := by
  have hkin : ∀ r, r ≠ np → Kin (s.tab r) (s'.tab r) := fun r hr =>
    (quiet_adopt hself htab r hr).toKin
  have hforks : (s.tab p).pc.forks = some np := by rw [hpc]; rfl
  refine h.unforked np ?_ ?_ hkin (fun {r m} hr => ?_) hbirths.ge fun _ f hf => ?_
  · rw [hnp]
    exact fun hf => hf.2 rfl
  · rw [hchild, hnp]
    exact fun hf => hf.2 rfl
  · by_cases hrp : r = p
    · subst hrp
      rw [hself] at hr
      cases hr
      rw [hchild]
    · have hrn : r ≠ np := by
        rintro rfl
        rw [hchild, (hinv.embryo hforks).2] at hr
        cases hr
      have hr' := (htab r hrn hrp).adopted hr
      have hmn : m ≠ np := by
        rintro rfl
        exact hrp (hinv.forker (Pc.forks_of_adopted hr') hforks)
      rw [(hkin m hmn).parent]
      exact h.adopted hr'
  · rw [hchild]
    exact h.embryo hnp hf

/-- The end of `fork`: the new process has its parent. -/
theorem Family.publish (h : Family initproc s forks) (hinv : Inv s home) (hnum : Numbered s)
    (hp : home p = some c) (hpc : (s.tab p).pc = .publish np) :
    Family initproc (s.publish p np) (⟨(s.tab p).birth, (s.tab np).birth⟩ :: forks) := by
  have hforks : (s.tab p).pc.forks = some np := by rw [hpc]; rfl
  have hembryo : (s.tab np).state = .embryo := hinv.forks hforks
  have hne : p ≠ np := hinv.ne_of_forks hp hforks
  have hrun : (s.tab p).state = .running := hinv.state_on hp hpc rfl
  have hself := tab_publish (s := s) hne
  have htab : ∀ r, r ≠ np → Keeps (s.tab r) ((s.publish p np).tab r) := fun r hr =>
    keeps_publish hr
  have halive : ∀ r, ((s.publish p np).tab r).state.alive = true → r = np ∨
      (s.tab r).state.alive = true ∧ ((s.publish p np).tab r).birth = (s.tab r).birth := by
    intro r hr
    by_cases hrn : r = np
    · exact .inl hrn
    · exact .inr ⟨(htab r hrn).alive.symm.trans hr, (htab r hrn).birth⟩
  have hbirth : ((s.publish p np).tab np).birth = (s.tab np).birth := by rw [hself]
  refine ⟨fun {r m} hr => ?_, fun {q} hq hf => ?_, fun {f} hf => ?_, fun {q f} hq hf => ?_, ?_⟩
  · exact h.adopted_of_ne htab (by rw [hself, (hinv.embryo hforks).2]; rfl) (by rw [hself]) hr
  · by_cases hqn : q = np
    · subst hqn
      refine ⟨_, List.mem_cons_self, hbirth.symm, p, ?_, ?_, .inl (htab p hne).birth⟩
      · rw [hself]
        exact h.adopted (by rw [hpc]; rfl)
      · rw [(htab p hne).alive, hrun]
        rfl
    · obtain ⟨f, hmem, hchild, r, hr, hra, his⟩ := h.parent hq ((htab q hqn).forked.mp hf)
      have hrn : r ≠ np := by
        rintro rfl
        rw [hembryo] at hra
        cases hra
      refine ⟨f, List.mem_cons_of_mem _ hmem, hchild.trans (htab q hqn).birth.symm, r,
        (htab q hqn).parent.trans hr, (htab r hrn).alive.trans hra, ?_⟩
      rcases his with hb | ⟨rfl, hno⟩
      · exact .inl ((htab r hrn).birth.trans hb)
      · refine .inr ⟨rfl, fun t ht => ?_⟩
        rcases halive t ht with rfl | ⟨hta, htb⟩
        · -- the new process has a number of its own
          rw [hbirth]
          exact (h.embryo hembryo hmem).2.symm
        · rw [htb]
          exact hno t hta
  · rcases List.mem_cons.mp hf with rfl | hf
    · refine ⟨hnum.lt ?_, hnum.lt ?_⟩
      · rw [hrun]
        nofun
      · rw [hembryo]
        nofun
    · exact h.lt hf
  · have hqn : q ≠ np := by
      rintro rfl
      rw [hself] at hq
      cases hq
    have hqe : (s.tab q).state = .embryo := ((htab q hqn).state_eq rfl).mp hq
    rw [(htab q hqn).birth]
    have hq : (s.tab q).state ≠ .unused := by
      rw [hqe]
      nofun
    rcases List.mem_cons.mp hf with rfl | hf
    · constructor
      · intro he
        refine hqn (hnum.injective hq ?_ he.symm)
        rw [hembryo]
        nofun
      · intro he
        have hpq : p = q := hnum.injective (by rw [hrun]; nofun) hq he
        rw [← hpq, hrun] at hqe
        cases hqe
    · exact h.embryo hqe hf
  · refine List.nodup_cons.mpr ⟨fun hmem => ?_, h.nodup⟩
    obtain ⟨f, hf, he⟩ := List.mem_map.mp hmem
    exact (h.embryo hembryo hf).1 he

/-- `exit` gives the children to `initproc`, when the process is no longer alive. -/
theorem Family.exit (h : Family initproc s forks) (hw : Waits initproc s) (hnum : Numbered s)
    (hpc : (s.tab p).pc = .exiting) (hstate : (s.tab p).state = .running) :
    Family initproc (s.exit initproc p) forks := by
  have hex : Exits initproc p s (s.exit initproc p) := exits (hw.parent p)
  have hinit : initproc ≠ p := (hw.exiting hpc).symm
  refine ⟨fun {r m} hr => ?_, fun {q} hq hf => ?_, fun {f} hf => ?_, fun {q f} hq hf => ?_, h.nodup⟩
  · have hrp : r ≠ p := by
      rintro rfl
      rw [hex.self.2] at hr
      cases hr
    rw [hex.pc r hrp] at hr
    rw [hex.parent, h.adopted hr, if_neg fun e => hrp (Option.some.inj e)]
  · have hqf : (s.tab q).state.forked := by
      by_cases hqp : q = p
      · rw [hqp, hstate]
        exact ⟨nofun, nofun⟩
      · exact ⟨fun e => hf.1 ((hex.state_eq hqp rfl).mpr e),
          fun e => hf.2 ((hex.state_eq hqp rfl).mpr e)⟩
    obtain ⟨f, hmem, hchild, r, hr, halive, his⟩ := h.parent hq hqf
    refine ⟨f, hmem, hchild.trans (hex.birth q).symm, ?_⟩
    rw [hex.parent, hr]
    by_cases hrp : r = p
    · -- an orphan: the process that forked it was the one that exits
      subst hrp
      rw [if_pos rfl]
      refine ⟨initproc, rfl, (hex.alive _).mpr ⟨hinit, hw.alive⟩, .inr ⟨rfl, fun t ht => ?_⟩⟩
      obtain ⟨htr, hta⟩ := (hex.alive t).mp ht
      have hb : (s.tab r).birth = f.parent := his.resolve_right fun e => hinit e.1.symm
      rw [hex.birth, ← hb]
      exact fun e => htr (hnum.injective (ProcState.forked_of_alive hta).1
        (ProcState.forked_of_alive halive).1 e)
    · rw [if_neg fun e => hrp (Option.some.inj e)]
      refine ⟨r, rfl, (hex.alive r).mpr ⟨hrp, halive⟩, his.mono (hex.birth r) fun t ht => ?_⟩
      exact ⟨((hex.alive t).mp ht).2, hex.birth t⟩
  · rw [hex.counters.2.1]
    exact h.lt hf
  · have hqp : q ≠ p := by
      rintro rfl
      rw [hex.self.1] at hq
      cases hq
    rw [hex.birth]
    exact h.embryo ((hex.state_eq hqp rfl).mp hq) hf

/-- `wait` frees a zombie, which is nobody's parent. -/
theorem Family.reap (h : Family initproc s forks) (hinv : Inv s home) (hne : p ≠ q)
    (hzombie : (s.tab q).state = .zombie) : Family initproc (s.reap p q) forks := by
  have hself := tab_reap (s := s) hne
  have htab : ∀ r, r ≠ q → Keeps (s.tab r) ((s.reap p q).tab r) := fun r hr => keeps_reap hr
  refine ⟨fun {r m} hr => ?_, fun {t} ht hf => ?_, fun {f} hf => h.lt hf, fun {t f} ht hf => ?_,
    h.nodup⟩
  · have hrq : r ≠ q := by
      rintro rfl
      rw [hself] at hr
      have halive := hinv.alive_of_adopted hr
      rw [hzombie] at halive
      cases halive
    have hr' := (htab r hrq).adopted hr
    have hmq : m ≠ q := by
      rintro rfl
      have := hinv.forks (Pc.forks_of_adopted hr')
      rw [hzombie] at this
      cases this
    rw [(htab m hmq).parent]
    exact h.adopted hr'
  · have htq : t ≠ q := by
      rintro rfl
      rw [hself] at hf
      exact hf.1 rfl
    obtain ⟨f, hmem, hchild, r, hr, halive, his⟩ := h.parent ht ((htab t htq).forked.mp hf)
    have hrq : r ≠ q := by
      rintro rfl
      rw [hzombie] at halive
      cases halive
    refine ⟨f, hmem, hchild.trans (htab t htq).birth.symm, r, (htab t htq).parent.trans hr,
      (htab r hrq).alive.trans halive, his.mono (htab r hrq).birth fun m hm => ?_⟩
    have hmq : m ≠ q := by
      rintro rfl
      rw [hself] at hm
      cases hm
    exact ⟨(htab m hmq).alive.symm.trans hm, (htab m hmq).birth⟩
  · have htq : t ≠ q := by
      rintro rfl
      rw [hself] at ht
      cases ht
    rw [(htab t htq).birth]
    exact h.embryo (((htab t htq).state_eq rfl).mp ht) hf

/-- `kill` is about nobody's parent. -/
theorem Family.kill (h : Family initproc s forks) (pid : Int) :
    Family initproc (s.kill p pid) forks :=
  h.kin (kin_of_kill pid) (fun {p _} => (quiet_kill p pid p).2) (counters_kill pid).2.1

theorem Family.turn (h : Family initproc s forks) (hinv : Inv s home) (hw : Waits initproc s)
    (hnum : Numbered s) (ht : Turn initproc c s s') : Family initproc s' forks := by
  cases ht with
  | plain htab hcount =>
    exact h.kin (fun r => (htab r).toKin) (fun {p np} => (htab p).adopted) hcount.2.1
  | alloc np hnp hchild htab hcount =>
    refine h.unforked np ?_ ?_ (fun r hr => (htab r hr).toKin) (fun {p m} hp => ?_) ?_
      fun _ f hf => ?_
    · rw [hnp]
      exact fun hf => hf.1 rfl
    · rw [hchild]
      exact fun hf => hf.2 rfl
    · exact h.adopted_of_ne (fun r hr => (htab r hr).toKeeps) (by rw [hchild]; rfl) (by rw [hchild])
        hp
    · omega
    · rw [hchild]
      exact ⟨(h.lt hf).2.ne, (h.lt hf).1.ne⟩
  | drop np hnp hchild htab hcount =>
    refine h.unforked np ?_ ?_ (fun r hr => (htab r hr).toKin) (fun {p m} hp => ?_)
      hcount.2.1.ge fun hs => ?_
    · rw [hnp]
      exact fun hf => hf.2 rfl
    · rw [hchild]
      exact fun hf => hf.1 rfl
    · exact h.adopted_of_ne (fun r hr => (htab r hr).toKeeps) (by rw [hchild]; rfl) (by rw [hchild])
        hp
    · rw [hchild] at hs
      cases hs
  | adopt p np hne hpc hnp hchild hself htab hcount =>
    exact h.adopt hinv hne hpc hnp hchild hself htab hcount.2.1
  | exit p hpc hstate he =>
    rw [he]
    exact h.exit hw hnum hpc hstate
  | reap p q hpc hne hparent hzombie he =>
    rw [he]
    exact h.reap hinv hne hzombie
  | kill p pid hc hpc he =>
    rw [he]
    exact h.kill pid

/-! ## The count -/

theorem Kin.share {x y : Proc n} (h : Kin x y) : y.state.share = x.state.share := by
  unfold ProcState.share
  simp only [h.forked]

/-- A step that changes one entry, and others in nothing that matters here. -/
theorem Census.of_ne (h : Census s forks) (q : Fin n)
    (htab : ∀ r, r ≠ q → (s'.tab r).state.share = (s.tab r).state.share) {forks' : List Fork}
    (hcount : (s'.tab q).state.share + s'.reaped.length + forks.length =
      (s.tab q).state.share + s.reaped.length + forks'.length) : Census s' forks' := by
  have hsum := sum_of_ne (w := fun r => (s.tab r).state.share)
    (v := fun r => (s'.tab r).state.share) q htab
  unfold Census at h ⊢
  omega

theorem Census.turn (h : Census s forks) (hw : Waits initproc s) (ht : Turn initproc c s s') :
    Census s' forks := by
  cases ht with
  | plain htab hcount =>
    unfold Census at h ⊢
    rw [hcount.2.2, Finset.sum_congr rfl fun q _ => (htab q).share, h]
  | alloc np hnp hchild htab hcount =>
    refine h.of_ne np (fun r hr => (htab r hr).share) ?_
    rw [hchild, hnp, hcount.2.2]
    rfl
  | drop np hnp hchild htab hcount =>
    refine h.of_ne np (fun r hr => (htab r hr).share) ?_
    rw [hchild, hnp, hcount.2.2]
    rfl
  | adopt p np hne hpc hnp hchild hself htab hcount =>
    refine h.of_ne np (fun r hr => (quiet_adopt hself htab r hr).share) ?_
    rw [hchild, hcount.2.2]
  | exit p hpc hstate he =>
    have hex : Exits initproc p s s' := he ▸ exits (hw.parent p)
    refine h.of_ne p (fun r hr => ?_) ?_
    · rcases hex.state r hr with e | ⟨hs, e⟩
      · rw [e]
      · rw [hs, e]
        rfl
    · rw [hex.self.1, hstate, hex.counters.2.2]
      rfl
  | reap p q hpc hne hparent hzombie he =>
    refine h.of_ne q (fun r hr => ?_) ?_
    · rw [he]
      exact (keeps_reap hr).share
    · rw [he, tab_reap hne, hzombie, show (s.reap p q).reaped.length = s.reaped.length + 1 from rfl,
        show ProcState.zombie.share = 1 from rfl, show ProcState.unused.share = 0 from rfl]
      omega
  | kill p pid hc hpc he =>
    unfold Census at h ⊢
    rw [he, (counters_kill pid).2.2, Finset.sum_congr rfl fun q _ => (kin_of_kill pid q).share, h]

theorem Census.publish (h : Census s forks) (hinv : Inv s home) (hp : home p = some c)
    (hpc : (s.tab p).pc = .publish np) (f : Fork) : Census (s.publish p np) (f :: forks) := by
  have hforks : (s.tab p).pc.forks = some np := by rw [hpc]; rfl
  refine h.of_ne np (fun r hr => (keeps_publish hr).share) ?_
  rw [tab_publish (hinv.ne_of_forks hp hforks), hinv.forks hforks, List.length_cons,
    show (s.publish p np).reaped = s.reaped from rfl,
    show ProcState.runnable.share = 1 from rfl, show ProcState.embryo.share = 0 from rfl]
  omega

/-! ## Runs -/

variable [DecidableEq C] {l l' : Log C n}

theorem Log.step_state {a : Act} (h : l.step initproc c a = some l') :
    l.state.step initproc c a = some l'.state ∧
      l'.forks = (l.state.forking c).toList ++ l.forks := by
  obtain ⟨s, hs, rfl⟩ := Option.map_eq_some_iff.mp h
  exact ⟨hs, rfl⟩

/-- What is proved of every state of the table holds here. -/
theorem Log.reachable_state (h : Reachable (· = Log.boot initproc) (Log.Step initproc) l) :
    Reachable (· = State.boot initproc) (Ptable.Step initproc) l.state := by
  induction h with
  | init h0 =>
    rw [h0]
    exact .init rfl
  | step _ hs ih =>
    obtain ⟨c, a, ha⟩ := hs
    exact ih.step ⟨c, a, (Log.step_state ha).1⟩

/-- What a step does to the table and to the list of `fork`s. -/
theorem Log.turn (hinv : Inv l.state home) {a : Act} (hs : l.step initproc c a = some l') :
    Turn initproc c l.state l'.state ∧ l'.forks = l.forks ∨
      ∃ p np, home p = some c ∧ (l.state.tab p).pc = .publish np ∧
        l'.state = l.state.publish p np ∧
        l'.forks = ⟨(l.state.tab p).birth, (l.state.tab np).birth⟩ :: l.forks := by
  obtain ⟨hstep, hforks⟩ := Log.step_state hs
  rcases turn_step hinv hstep with ⟨hturn, hpub⟩ | ⟨p, np, hc, hpc, he⟩
  · have hnone : l.state.forking c = none := by
      unfold State.forking
      split
      · next p hc =>
        split
        · next np hpc => exact absurd hpc (hpub p np hc)
        · rfl
      · rfl
    rw [hnone] at hforks
    exact .inl ⟨hturn, hforks⟩
  · have hsome : l.state.forking c =
        some ⟨(l.state.tab p).birth, (l.state.tab np).birth⟩ := by
      unfold State.forking
      rw [hc]
      dsimp only
      rw [hpc]
    rw [hsome] at hforks
    exact .inr ⟨p, np, (hinv.running c p).mp hc, hpc, he, hforks⟩

theorem Family.reachable (h : Reachable (· = Log.boot initproc) (Log.Step initproc) l) :
    Family initproc l.state l.forks ∧ Census l.state l.forks := by
  induction h with
  | init h0 =>
    rw [h0]
    exact ⟨.boot, .boot⟩
  | step hr hs ih =>
    obtain ⟨c, a, ha⟩ := hs
    have hstate := Log.reachable_state hr
    obtain ⟨home, hinv⟩ := Inv.reachable hstate
    obtain ⟨hw, hnum⟩ := Waits.reachable hstate
    rcases Log.turn hinv ha with ⟨hturn, hforks⟩ | ⟨p, np, hp, hpc, he, hforks⟩
    · rw [hforks]
      exact ⟨ih.1.turn hinv hw hnum hturn, ih.2.turn hw hturn⟩
    · rw [hforks, he]
      exact ⟨ih.1.publish hinv hnum hp hpc, ih.2.publish hinv hp hpc _⟩

/-! ## `sys_pscnt` -/

/-- No `fork` is in progress. -/
def State.NoFork (s : State C n) : Prop := ∀ q, (s.tab q).state ≠ .embryo

omit [DecidableEq C] in
theorem State.counts_eq_share (h : s.NoFork) (q : Fin n) : s.counts q = (s.tab q).state.share := by
  unfold State.counts ProcState.share ProcState.forked
  simp only [h q, ne_eq, not_false_eq_true, and_true]

omit [DecidableEq C] in
/-- What `sys_pscnt` returns when nothing happens during the call. -/
theorem Census.pscnt (h : Census s forks) (hno : s.NoFork) :
    s.pscnt + s.reaped.length = 1 + forks.length := by
  rw [State.pscnt_eq_sum, Finset.sum_congr rfl fun q _ => State.counts_eq_share hno q]
  exact h

/-- A call of `sys_pscnt` in progress: it has looked at the first `i` entries. -/
structure Scan (C : Type) (n : Nat) where
  log : Log C n
  i : Nat
  count : Nat

/-- The call looks at the next entry, or some CPU makes a step that leaves no `fork` in
progress. -/
inductive Scan.Step (initproc : Fin n) : Scan C n → Scan C n → Prop
  | look {x : Scan C n} (h : x.i < n) :
      Scan.Step initproc x { x with i := x.i + 1, count := x.count + x.log.state.counts ⟨x.i, h⟩ }
  | other {x : Scan C n} {l : Log C n} (h : x.log.Step initproc l) (hno : l.state.NoFork) :
      Scan.Step initproc x { x with log := l }

omit [DecidableEq C] in
theorem State.counts_le_of {q : Fin n}
    (h : (s'.tab q).state ≠ .unused → (s.tab q).state ≠ .unused) : s'.counts q ≤ s.counts q := by
  unfold State.counts
  split
  · next hq => rw [if_pos (h hq)]
  · exact Nat.zero_le _

/-- While no `fork` is in progress, nobody comes to the table. -/
theorem Log.counts_le (h : Reachable (· = Log.boot initproc) (Log.Step initproc) l)
    (hno : l.state.NoFork) (hs : l.Step initproc l') (hno' : l'.state.NoFork) :
    l'.forks = l.forks ∧ ∀ q, l'.state.counts q ≤ l.state.counts q := by
  obtain ⟨c, a, ha⟩ := hs
  obtain ⟨home, hinv⟩ := Inv.reachable (Log.reachable_state h)
  obtain ⟨hw, hnum⟩ := Waits.reachable (Log.reachable_state h)
  rcases Log.turn hinv ha with ⟨hturn, hforks⟩ | ⟨p, np, hp, hpc, he, hforks⟩
  · refine ⟨hforks, fun q => State.counts_le_of fun hq => ?_⟩
    cases hturn with
    | plain htab => exact hq ∘ ((htab q).state_eq rfl).mpr
    | alloc np hnp hchild => exact absurd (by rw [hchild]) (hno' np)
    | drop np hnp => exact absurd hnp (hno np)
    | adopt p np hne hpc hnp => exact absurd hnp (hno np)
    | exit p hpc hstate he =>
      have hex : Exits initproc p l.state l'.state := he ▸ exits (hw.parent p)
      by_cases hqp : q = p
      · rw [hqp, hstate]
        nofun
      · exact hq ∘ (hex.state_eq hqp rfl).mpr
    | reap p r hpc hne hparent hzombie he =>
      by_cases hqr : q = r
      · rw [hqr, hzombie]
        nofun
      · have hkeep : Keeps (l.state.tab q) ((l.state.reap p r).tab q) := keeps_reap hqr
        rw [he] at hq
        exact hq ∘ (hkeep.state_eq rfl).mpr
    | kill p pid hc hpc he =>
      rw [he] at hq
      exact hq ∘ ((kin_of_kill pid q).state_eq rfl).mpr
  · exact absurd (hinv.forks (by rw [hpc]; rfl)) (hno np)

/-- What holds during a call of `sys_pscnt` that starts at `l`: those that it has looked at and are
still there have been counted, and nobody else can be. -/
structure Scan.Good (initproc : Fin n) (l : Log C n) (x : Scan C n) : Prop where
  reach : Reachable (· = Log.boot initproc) (Log.Step initproc) x.log
  noFork : x.log.state.NoFork
  forks : x.log.forks = l.forks
  seen : (∑ q : Fin n, if q < x.i then x.log.state.counts q else 0) ≤ x.count
  rest : x.count + (∑ q : Fin n, if q < x.i then 0 else x.log.state.counts q) ≤
    ∑ q, l.state.counts q

theorem Scan.Good.start (h : Reachable (· = Log.boot initproc) (Log.Step initproc) l)
    (hno : l.state.NoFork) : Scan.Good initproc l ⟨l, 0, 0⟩ where
  reach := h
  noFork := hno
  forks := rfl
  seen := by simp
  rest := by simp

theorem Scan.Good.step {x y : Scan C n} (h : Scan.Good initproc l x) (hs : x.Step initproc y) :
    Scan.Good initproc l y := by
  cases hs with
  | look hi =>
    have hlt : ∀ q : Fin n, q ≠ ⟨x.i, hi⟩ → ((q : Nat) < x.i + 1 ↔ (q : Nat) < x.i) := by
      intro q hq
      have hne : (q : Nat) ≠ x.i := fun e => hq (Fin.ext e)
      omega
    have hseen := sum_of_ne (w := fun q : Fin n => if q < x.i then x.log.state.counts q else 0)
      (v := fun q : Fin n => if q < x.i + 1 then x.log.state.counts q else 0) ⟨x.i, hi⟩
      fun q hq => by simp only [hlt q hq]
    have hrest := sum_of_ne (w := fun q : Fin n => if q < x.i then 0 else x.log.state.counts q)
      (v := fun q : Fin n => if q < x.i + 1 then 0 else x.log.state.counts q) ⟨x.i, hi⟩
      fun q hq => by simp only [hlt q hq]
    simp only [lt_irrefl, ↓reduceIte, Nat.lt_succ_self] at hseen hrest
    have := h.seen
    have := h.rest
    refine ⟨h.reach, h.noFork, h.forks, ?_, ?_⟩ <;> dsimp only <;> omega
  | other hl hno =>
    obtain ⟨hforks, hle⟩ := Log.counts_le h.reach h.noFork hl hno
    refine ⟨h.reach.step hl, hno, hforks.trans h.forks, le_trans ?_ h.seen, le_trans ?_ h.rest⟩
    · refine Finset.sum_le_sum fun q _ => ?_
      split
      · exact hle q
      · exact le_rfl
    · refine Nat.add_le_add_left (Finset.sum_le_sum fun q _ => ?_) _
      split
      · exact le_rfl
      · exact hle q

/-- What `sys_pscnt` returns while no `fork` is in progress: the number of processes at a moment of
the call. -/
theorem Scan.count_eq {x : Scan C n}
    (h : Reachable (· = Log.boot initproc) (Log.Step initproc) l) (hno : l.state.NoFork)
    (hx : Reachable (· = ⟨l, 0, 0⟩) (Scan.Step initproc) x) (hend : x.i = n) :
    x.log.forks = l.forks ∧ x.count + l.state.reaped.length ≤ 1 + l.forks.length ∧
      1 + l.forks.length ≤ x.count + x.log.state.reaped.length := by
  have hgood : Scan.Good initproc l x := by
    refine hx.invariant (fun y hy => ?_) fun y z hy hs => hy.step hs
    rw [hy]
    exact .start h hno
  have hfirst := (Family.reachable h).2.pscnt hno
  have hlast := (Family.reachable hgood.reach).2.pscnt hgood.noFork
  rw [State.pscnt_eq_sum] at hfirst hlast
  have hseen := hgood.seen
  have hrest := hgood.rest
  simp only [hend, Fin.is_lt, ↓reduceIte, Finset.sum_const_zero, Nat.add_zero] at hseen hrest
  rw [hgood.forks] at hlast
  refine ⟨hgood.forks, ?_, ?_⟩ <;> omega

/-! ## `sys_getppid` -/

omit [DecidableEq C] in
/-- A process that has been forked keeps its entry until a `wait` frees it. -/
theorem Turn.forked (h : Turn initproc c s s') (hw : Waits initproc s) {r : Fin n}
    (hr : (s.tab r).state.forked) :
    (s'.tab r).state.forked ∧ (s'.tab r).birth = (s.tab r).birth ∨
      ∃ x ∈ s'.reaped, x.child = (s.tab r).birth := by
  cases h with
  | plain htab => exact .inl ⟨(htab r).forked.mpr hr, (htab r).birth⟩
  | alloc np hnp hchild htab =>
    have hrn : r ≠ np := fun e => hr.1 (e ▸ hnp)
    exact .inl ⟨(htab r hrn).forked.mpr hr, (htab r hrn).birth⟩
  | drop np hnp hchild htab =>
    have hrn : r ≠ np := fun e => hr.2 (e ▸ hnp)
    exact .inl ⟨(htab r hrn).forked.mpr hr, (htab r hrn).birth⟩
  | adopt p np hne hpc hnp hchild hself htab =>
    have hrn : r ≠ np := fun e => hr.2 (e ▸ hnp)
    have hkin := (quiet_adopt hself htab r hrn).toKin
    exact .inl ⟨hkin.forked.mpr hr, hkin.birth⟩
  | exit p hpc hstate he =>
    have hex : Exits initproc p s s' := he ▸ exits (hw.parent p)
    refine .inl ⟨?_, hex.birth r⟩
    by_cases hrp : r = p
    · rw [hrp, hex.self.1]
      exact ⟨nofun, nofun⟩
    · exact ⟨hr.1 ∘ (hex.state_eq hrp rfl).mp, hr.2 ∘ (hex.state_eq hrp rfl).mp⟩
  | reap p q hpc hne hparent hzombie he =>
    rw [he]
    by_cases hrq : r = q
    · subst hrq
      exact .inr ⟨_, List.mem_cons_self, rfl⟩
    · have hkeep : Keeps (s.tab r) ((s.reap p q).tab r) := keeps_reap hrq
      exact .inl ⟨hkeep.forked.mpr hr, hkeep.birth⟩
  | kill p pid hc hpc he =>
    rw [he]
    exact .inl ⟨(kin_of_kill pid r).forked.mpr hr, (kin_of_kill pid r).birth⟩

omit [DecidableEq C] in
theorem Turn.reaped (h : Turn initproc c s s') (hw : Waits initproc s) {x : Reap n}
    (hx : x ∈ s.reaped) : x ∈ s'.reaped := by
  cases h with
  | plain _ hcount | alloc _ _ _ _ hcount | drop _ _ _ _ hcount | adopt _ _ _ _ _ _ _ _ hcount =>
    rw [hcount.2.2]
    exact hx
  | exit p hpc hstate he =>
    have hex : Exits initproc p s s' := he ▸ exits (hw.parent p)
    rw [hex.counters.2.2]
    exact hx
  | reap p q hpc hne hparent hzombie he =>
    rw [he]
    exact List.mem_cons_of_mem _ hx
  | kill p pid hc hpc he =>
    rw [he, (counters_kill pid).2.2]
    exact hx

/-- Between two states of a run, a process is freed or keeps its entry. -/
theorem Log.forked_of_run (h : Reachable (· = Log.boot initproc) (Log.Step initproc) l)
    (hl : Reachable (· = l) (Log.Step initproc) l') {r : Fin n}
    (hr : (l.state.tab r).state.forked) :
    (l'.state.tab r).state.forked ∧ (l'.state.tab r).birth = (l.state.tab r).birth ∨
      ∃ x ∈ l'.state.reaped, x.child = (l.state.tab r).birth := by
  induction hl with
  | init h0 =>
    rw [h0]
    exact .inl ⟨hr, rfl⟩
  | @step l₁ l₂ hl hs ih =>
    obtain ⟨c, a, ha⟩ := hs
    have hstate := Log.reachable_state (h.trans hl)
    obtain ⟨home, hinv⟩ := Inv.reachable hstate
    have hw := (Waits.reachable hstate).1
    rcases Log.turn hinv ha with ⟨hturn, -⟩ | ⟨p, np, hp, hpc, he, -⟩
    · rcases ih with ⟨hf, hb⟩ | ⟨x, hx, hxc⟩
      · rw [← hb]
        exact hturn.forked hw hf
      · exact .inr ⟨x, hturn.reaped hw hx, hxc⟩
    · rw [he]
      rcases ih with ⟨hf, hb⟩ | ⟨x, hx, hxc⟩
      · have hrn : r ≠ np := by
          rintro rfl
          exact hf.2 (hinv.forks (by rw [hpc]; rfl))
        exact .inl ⟨(keeps_publish hrn).forked.mpr hf, (keeps_publish hrn).birth.trans hb⟩
      · exact .inr ⟨x, hx, hxc⟩

/-- The second load of `sys_getppid` finds the process that the first one has found, unless a `wait`
has freed it. -/
theorem Log.pid_of_run (h : Reachable (· = Log.boot initproc) (Log.Step initproc) l)
    (hl : Reachable (· = l) (Log.Step initproc) l') {r : Fin n}
    (hr : (l.state.tab r).state.forked) :
    ((l'.state.tab r).state ≠ .unused ∧ (l'.state.tab r).pid = (l.state.tab r).pid) ↔
      ∀ x ∈ l'.state.reaped, x.child ≠ (l.state.tab r).birth := by
  have hpids := Pids.reachable (Log.reachable_state h)
  have hpids' := Pids.reachable (Log.reachable_state (h.trans hl))
  have hnum' := (Waits.reachable (Log.reachable_state (h.trans hl))).2
  constructor
  · rintro ⟨hs, hpid⟩ x hx
    rw [hpids'.live hs, hpids.live hr.1] at hpid
    have hbirth : (l'.state.tab r).birth = (l.state.tab r).birth := by omega
    rw [← hbirth]
    exact (hnum'.reaped hx hs).symm
  · intro hx
    rcases Log.forked_of_run h hl hr with ⟨hf, hb⟩ | ⟨x, hmem, he⟩
    · refine ⟨hf.1, ?_⟩
      rw [hpids'.live hf.1, hpids.live hr.1, hb]
    · exact absurd he (hx x hmem)

/-! ## Results -/

/-- **`getppid` and `pscnt`.** In every state, a process other than `initproc` that has been forked
and not freed comes from one `fork`, and its parent pointer is to a process that has not been freed:
the one that called the `fork` while that one has not exited, and `initproc` afterwards.
`sys_getppid` returns the pid of that process, and the process still exists, if and only if no `wait`
has freed it when `parent->pid` is loaded. When no `fork` is in progress, `sys_pscnt` counts one
process and those of the `fork`s that have returned, without those that a `wait` has freed; if others
go on during the call, it counts them at a moment between its start and its end. -/
theorem getppid_pscnt_sound (h : Reachable (· = Log.boot initproc) (Log.Step initproc) l) :
    (∀ q, q ≠ initproc → (l.state.tab q).state ≠ .unused → (l.state.tab q).state ≠ .embryo →
      ∃! f, f ∈ l.forks ∧ f.child = (l.state.tab q).birth ∧
        ∃ r, (l.state.tab q).parent = some r ∧ (l.state.tab r).state ≠ .unused ∧
          (∀ p, (l.state.tab p).state.alive = true → (l.state.tab p).birth = f.parent → r = p) ∧
          ((∀ p, (l.state.tab p).state.alive = true → (l.state.tab p).birth ≠ f.parent) →
            r = initproc) ∧
          ∀ l', Reachable (· = l) (Log.Step initproc) l' →
            (((l'.state.tab r).state ≠ .unused ∧
              getppid l.state l'.state q = some (l.state.tab r).pid) ↔
              ∀ x ∈ l'.state.reaped, x.child ≠ (l.state.tab r).birth)) ∧
    (l.state.NoFork → (l.state.pscnt : Int) = 1 + l.forks.length - l.state.reaped.length ∧
      ∀ x, Reachable (· = ⟨l, 0, 0⟩) (Scan.Step initproc) x → x.i = n →
        ∃ k, l.state.reaped.length ≤ k ∧ k ≤ x.log.state.reaped.length ∧
          x.log.forks = l.forks ∧ (x.count : Int) = 1 + l.forks.length - k) := by
  obtain ⟨hfam, hcensus⟩ := Family.reachable h
  obtain ⟨-, hnum⟩ := Waits.reachable (Log.reachable_state h)
  refine ⟨fun q hq hunused hembryo => ?_, fun hno => ⟨?_, fun x hx hend => ?_⟩⟩
  · obtain ⟨f, hf, hchild, r, hr, halive, his⟩ := hfam.parent hq ⟨hunused, hembryo⟩
    have hforked : (l.state.tab r).state.forked := ProcState.forked_of_alive halive
    refine ⟨f, ⟨hf, hchild, r, hr, hforked.1, fun p hp hb => ?_, fun hno => ?_, fun l' hl => ?_⟩, ?_⟩
    · rcases his with hrb | ⟨-, hno⟩
      · exact hnum.injective hforked.1 (ProcState.forked_of_alive hp).1 (hrb.trans hb.symm)
      · exact absurd hb (hno p hp)
    · rcases his with hrb | ⟨hi, -⟩
      · exact absurd hrb (hno r halive)
      · exact hi
    · rw [← Log.pid_of_run h hl hforked, getppid, hr, Option.map_some, Option.some_inj]
    · rintro g ⟨hg, hgc, -⟩
      exact List.inj_on_of_nodup_map hfam.nodup hg hf (hgc.trans hchild.symm)
  · have := hcensus.pscnt hno
    omega
  · obtain ⟨hforks, hle, hge⟩ := Scan.count_eq h hno hx hend
    exact ⟨1 + l.forks.length - x.count, by omega, by omega, hforks, by omega⟩

/-- The first process forks a child, which forks another; each is on a CPU. -/
def twoForks : List (Fin 3 × Act) :=
  List.flatten [
    [(0, .go), (0, .go), (0, .go), (0, .fork), (0, .go), (0, .go), (0, .go), (0, .go)],
    [(1, .go), (1, .go), (1, .go), (1, .go), (1, .fork), (1, .go), (1, .go), (1, .go), (1, .go)],
    [(2, .go), (2, .go), (2, .go), (2, .go), (2, .go)]]

/-- The child exits, its CPU goes through the table, and the first process waits for it. -/
def exitAndWait : List (Fin 3 × Act) :=
  List.flatten [
    [(1, .exit), (1, .go), (1, .go), (1, .go)],
    List.replicate 63 (1, .go),
    [(0, .wait), (0, .go)]]

/-- The state after the two forks. -/
def grandchild : Log (Fin 3) 64 :=
  (run (fun l t => l.step 0 t.1 t.2) (Log.boot 0) twoForks).get (by decide +kernel)

/-- The state after the child has been freed. -/
def orphaned : Log (Fin 3) 64 :=
  (run (fun l t => l.step 0 t.1 t.2) grandchild exitAndWait).get (by decide +kernel)

theorem reachable_grandchild : Reachable (· = Log.boot 0) (Log.Step 0) grandchild :=
  reachable_of_run (fun _ t _ h => ⟨t.1, t.2, h⟩) (.init rfl) (Option.some_get _).symm

theorem reachable_orphaned : Reachable (· = grandchild) (Log.Step 0) orphaned :=
  reachable_of_run (fun _ t _ h => ⟨t.1, t.2, h⟩) (.init rfl) (Option.some_get _).symm

/-- `sys_getppid` of the grandchild, on a CPU all the time, loads `parent`; then the child exits and
is freed, and the load of `parent->pid` gives 0, the pid of nobody. -/
theorem getppid_of_nobody :
    ∃ l l' : Log (Fin 3) 64, Reachable (· = Log.boot 0) (Log.Step 0) l ∧
      Reachable (· = l) (Log.Step 0) l' ∧
      l.state.cpu 2 = .running 2 ∧ l'.state.cpu 2 = .running 2 ∧
      (l.state.tab 2).pc = .spot .user ∧ (l'.state.tab 2).pc = .spot .user ∧
      getppid l.state l'.state 2 = some 0 ∧
      ∀ q, (l'.state.tab q).state ≠ .unused → (l'.state.tab q).pid ≠ 0 :=
  ⟨grandchild, orphaned, reachable_grandchild, reachable_orphaned, by decide +kernel,
    by decide +kernel, by decide +kernel, by decide +kernel, by decide +kernel, by decide +kernel⟩

/-- Before that, the parent of the grandchild is the child, and `sys_pscnt` counts three. -/
theorem getppid_pscnt_sound_grandchild :
    getppid grandchild.state grandchild.state 2 = some 2 ∧
      (grandchild.state.pscnt : Int) = 1 + grandchild.forks.length - 0 := by
  have hsound := getppid_pscnt_sound reachable_grandchild
  have hno : grandchild.state.NoFork := by
    unfold State.NoFork
    decide +kernel
  have hreaped : grandchild.state.reaped = [] := by decide +kernel
  refine ⟨?_, ?_⟩
  · obtain ⟨f, ⟨hf, hchild, r, hr, hlive, -, -, hload⟩, -⟩ :=
      hsound.1 2 (by decide) (by decide +kernel) (by decide +kernel)
    have hget := ((hload grandchild (.init rfl)).mpr (by rw [hreaped]; nofun)).2
    have hr1 : (grandchild.state.tab 2).parent = some 1 := by decide +kernel
    rw [hr1] at hr
    cases hr
    rw [hget]
    decide +kernel
  · have hcount := (hsound.2 hno).1
    rw [hreaped] at hcount
    exact hcount

end Laboratorio.Xv6.Ptable
