import Laboratorio.Xv6.Sched

/-!
# What a step does to the process table

`Turn` says once what a step does to what outlives it in the entries of the table: `pid`, `parent`,
`killed`, and who waits for whom. Most steps are `Steady` for every process. The others are the parts
of `fork`, the critical sections of `exit` and `kill`, and the two ends of a round of `wait`. The last
step of `fork`, which makes the child runnable, is told apart from the rest (`turn_step`), since it is
the one that ends a `fork` well.
-/

namespace Laboratorio.Xv6.Ptable

open Laboratorio.Scan Laboratorio.Reach

variable {C : Type} {n : Nat} {initproc : Fin n}

/-- The process has been forked and has not exited. -/
def ProcState.alive : ProcState → Bool
  | .sleeping | .runnable | .running => true
  | _ => false

/-- The new process of a process in `fork`, once its parent is set. -/
def Pc.adopted : Pc n → Option (Fin n)
  | .spot (.adopted np) | .publish np => some np
  | .yield (.adopted np) | .yieldSwtch (.adopted np) | .yieldBack (.adopted np) => some np
  | .waking _ (.adopted np) => some np
  | _ => none

theorem Pc.forks_of_adopted {pc : Pc n} {np : Fin n} (h : pc.adopted = some np) :
    pc.forks = some np := by
  unfold Pc.adopted at h
  split at h <;> first | exact h | cases h

/-- Nothing is to be shown of a place outside of `fork`. -/
theorem Pc.outside {pc pc' : Pc n} (h : pc.adopted = none) {np : Fin n} :
    pc.adopted = some np → pc'.adopted = some np := by
  rw [h]
  nofun

/-- A change of an entry that keeps who the process is and whose child it is. -/
structure Kin (x y : Proc n) : Prop where
  parent : y.parent = x.parent
  pid : y.pid = x.pid
  birth : y.birth = x.birth
  state : y.state = x.state ∨ x.state.alive = true ∧ y.state.alive = true

/-- A change of the entry of process `q` that is of no concern to those who wait. -/
structure Quiet (initproc q : Fin n) (x y : Proc n) : Prop extends Kin x y where
  chan : ∀ {r}, y.chan = some (.proc r) →
    x.chan = some (.proc r) ∧ (y.state = .sleeping → x.state = .sleeping)
  exiting : y.pc = .exiting → x.pc = .exiting ∨ q ≠ initproc

/-- A change of an entry by a step that is not about it. -/
structure Keeps (x y : Proc n) : Prop extends Kin x y where
  killed : y.killed = x.killed
  adopted : ∀ {np}, y.pc.adopted = some np → x.pc.adopted = some np

/-- Both. -/
structure Steady (initproc q : Fin n) (x y : Proc n) : Prop extends Keeps x y, Quiet initproc q x y

section Keeps

variable {q : Fin n} {x y z : Proc n}

theorem Kin.alive (h : Kin x y) : y.state.alive = x.state.alive := by
  rcases h.state with e | ⟨hx, hy⟩
  · rw [e]
  · rw [hx, hy]

theorem Kin.state_eq (h : Kin x y) {st : ProcState} (hst : st.alive = false) :
    y.state = st ↔ x.state = st := by
  rcases h.state with e | ⟨hx, hy⟩
  · rw [e]
  · constructor
    · rintro rfl
      rw [hst] at hy
      cases hy
    · rintro rfl
      rw [hst] at hx
      cases hx

theorem Kin.trans (h : Kin x y) (h' : Kin y z) : Kin x z where
  parent := h'.parent.trans h.parent
  pid := h'.pid.trans h.pid
  birth := h'.birth.trans h.birth
  state := by
    rcases h.state with e | ⟨hx, hy⟩
    · rw [← e]
      exact h'.state
    · exact .inr ⟨hx, h'.alive.trans hy⟩

theorem Steady.refl (initproc q : Fin n) (x : Proc n) : Steady initproc q x x :=
  ⟨⟨⟨rfl, rfl, rfl, .inl rfl⟩, rfl, id⟩, fun h => ⟨h, id⟩, .inl⟩

theorem Steady.trans (h : Steady initproc q x y) (h' : Steady initproc q y z) :
    Steady initproc q x z where
  toKin := h.toKin.trans h'.toKin
  killed := h'.killed.trans h.killed
  adopted := h.adopted ∘ h'.adopted
  chan hz :=
    have hy := h'.chan hz
    ⟨(h.chan hy.1).1, (h.chan hy.1).2 ∘ hy.2⟩
  exiting hz := (h'.exiting hz).elim h.exiting .inr

/-- A process goes on at another place. -/
theorem Steady.goto {pc : Pc n} (hpc : ∀ {np}, pc.adopted = some np → x.pc.adopted = some np)
    (hexit : pc ≠ .exiting ∨ q ≠ initproc) (ret : Int) :
    Steady initproc q x { x with pc := pc, ret := ret } :=
  ⟨⟨⟨rfl, rfl, rfl, .inl rfl⟩, rfl, hpc⟩, fun h => ⟨h, id⟩,
    fun h => .inr (hexit.resolve_left (absurd h))⟩

/-- A process that is alive becomes `RUNNABLE` or `RUNNING`. -/
theorem Steady.state_of {st : ProcState} (hx : x.state.alive = true)
    (hst : st.alive = true ∧ st ≠ .sleeping) {pc : Pc n}
    (hpc : ∀ {np}, pc.adopted = some np → x.pc.adopted = some np)
    (hexit : pc = .exiting → x.pc = .exiting) :
    Steady initproc q x { x with state := st, pc := pc } :=
  ⟨⟨⟨rfl, rfl, rfl, .inr ⟨hx, hst.1⟩⟩, rfl, hpc⟩, fun h => ⟨h, fun e => absurd e hst.2⟩,
    .inl ∘ hexit⟩

/-- A process leaves its channel, or sleeps outside of `wait`. -/
theorem Steady.chan_of {chan : Option (Chan n)} (hchan : ∀ r, chan ≠ some (.proc r))
    {st : ProcState} (hst : st = x.state ∨ x.state.alive = true ∧ st.alive = true) {pc : Pc n}
    (hpc : pc.adopted = none) (hexit : pc ≠ .exiting) :
    Steady initproc q x { x with chan := chan, state := st, pc := pc } :=
  ⟨⟨⟨rfl, rfl, rfl, hst⟩, rfl, Pc.outside hpc⟩, fun h => absurd h (hchan _), fun h => absurd h hexit⟩

end Keeps

variable {s s' : State C n} {home : Fin n → Option C} {c : C} {p q np r : Fin n} {pc : Pc n}
  {st : ProcState}

/-- The counters of the process table do not change. -/
def State.SameCounters (s s' : State C n) : Prop :=
  s'.nextpid = s.nextpid ∧ s'.births = s.births ∧ s'.reaped = s.reaped

/-- Process `p` goes to sleep in `wait`: it has no child that is a zombie. -/
structure Dozes (p : Fin n) (s s' : State C n) : Prop where
  state : (s.tab p).state = .running
  none : ∀ q, (s.tab q).parent = some p → (s.tab q).state ≠ .zombie
  eq : s' = s.set p { s.tab p with
    chan := some (.proc p), state := .sleeping, pc := .waitSwtch }

/-- What a step of CPU `c` does to the entries, except for the last one of `fork`. -/
inductive Turn (initproc : Fin n) (c : C) (s s' : State C n) : Prop where
  | plain (htab : ∀ r, Keeps (s.tab r) (s'.tab r)) (hcount : s.SameCounters s')
      (hsteady : (∀ r, Steady initproc r (s.tab r) (s'.tab r)) ∨ ∃ p, Dozes p s s')
  /-- `allocproc` takes an entry. -/
  | alloc (np : Fin n) (hnp : (s.tab np).state = .unused)
      (hchild : s'.tab np = { s.tab np with
        state := .embryo, pid := s.nextpid, pc := .forkret, birth := s.births })
      (htab : ∀ r, r ≠ np → Steady initproc r (s.tab r) (s'.tab r))
      (hcount : s'.nextpid = s.nextpid + 1 ∧ s'.births = s.births + 1 ∧ s'.reaped = s.reaped)
  /-- `fork` gives the entry back. -/
  | drop (np : Fin n) (hnp : (s.tab np).state = .embryo)
      (hchild : s'.tab np = { s.tab np with state := .unused, pc := .dead })
      (htab : ∀ r, r ≠ np → Steady initproc r (s.tab r) (s'.tab r)) (hcount : s.SameCounters s')
  /-- `fork` sets the parent. -/
  | adopt (p np : Fin n) (hne : p ≠ np) (hpc : (s.tab p).pc = .spot (.embryo np))
      (hnp : (s.tab np).state = .embryo)
      (hchild : s'.tab np = { s.tab np with parent := some p })
      (hself : s'.tab p = { s.tab p with pc := .spot (.adopted np) })
      (htab : ∀ r, r ≠ np → r ≠ p → Steady initproc r (s.tab r) (s'.tab r))
      (hcount : s.SameCounters s')
  | exit (p : Fin n) (hpc : (s.tab p).pc = .exiting) (hstate : (s.tab p).state = .running)
      (he : s' = s.exit initproc p)
  | reap (p q : Fin n) (hpc : (s.tab p).pc = .wait) (hne : p ≠ q)
      (hparent : (s.tab q).parent = some p) (hzombie : (s.tab q).state = .zombie)
      (he : s' = s.reap p q)
  | kill (p : Fin n) (pid : Int) (hc : s.cpu c = .running p) (hpc : (s.tab p).pc = .killing pid)
      (he : s' = s.kill p pid)

/-- After `fork` has set the parent, the others are as before for those who wait. -/
theorem quiet_adopt (hself : s'.tab p = { s.tab p with pc := .spot (.adopted np) })
    (htab : ∀ r, r ≠ np → r ≠ p → Steady initproc r (s.tab r) (s'.tab r)) (r : Fin n)
    (hr : r ≠ np) : Quiet initproc r (s.tab r) (s'.tab r) := by
  by_cases hrp : r = p
  · subst hrp
    rw [hself]
    exact ⟨⟨rfl, rfl, rfl, .inl rfl⟩, fun h => ⟨h, id⟩, nofun⟩
  · exact (htab r hr hrp).toQuiet

theorem Turn.steady (h : ∀ r, Steady initproc r (s.tab r) (s'.tab r)) (hcount : s.SameCounters s') :
    Turn initproc c s s' :=
  .plain (fun r => (h r).toKeeps) hcount (.inl h)

/-! ## The functions of `proc.c` -/

theorem tab_other (hne : p ≠ np) (x : Proc n) (pc : Pc n) (ret : Int) :
    ((s.set np x).set p { (s.set np x).tab p with pc := pc, ret := ret }).tab np = x := by
  rw [State.tab_set_of_ne _ hne.symm, State.tab_set_self]

theorem steady_set {x : Proc n} (h : Steady initproc p (s.tab p) x) (r : Fin n) :
    Steady initproc r (s.tab r) ((s.set p x).tab r) := by
  by_cases hr : r = p
  · subst hr
    rw [State.tab_set_self]
    exact h
  · rw [s.tab_set_of_ne hr]
    exact .refl ..

theorem steady_wakeup1 (chan : Option (Chan n)) (r : Fin n) :
    Steady initproc r (s.tab r) ((s.wakeup1 chan).tab r) := by
  unfold State.wakeup1
  dsimp only
  split
  · next h => exact .state_of (by rw [h.1]; rfl) ⟨rfl, by nofun⟩ id id
  · exact .refl ..

theorem steady_goto (hpc : ∀ {np}, pc.adopted = some np → (s.tab p).pc.adopted = some np)
    (hexit : pc ≠ .exiting ∨ p ≠ initproc) (ret : Int) (r : Fin n) :
    Steady initproc r (s.tab r) ((s.set p { s.tab p with pc := pc, ret := ret }).tab r) :=
  steady_set (.goto hpc hexit ret) r

/-- A process changes the entry of another one, and goes on. -/
theorem steady_other {x : Proc n} (hpc : pc.adopted = none) (hexit : pc ≠ .exiting)
    (ret : Int) (hr : r ≠ np) : Steady initproc r (s.tab r)
      (((s.set np x).set p { (s.set np x).tab p with pc := pc, ret := ret }).tab r) := by
  have hgoto : Steady initproc r ((s.set np x).tab r)
      (((s.set np x).set p { (s.set np x).tab p with pc := pc, ret := ret }).tab r) :=
    steady_goto (Pc.outside hpc) (.inl hexit) ret r
  rw [s.tab_set_of_ne hr] at hgoto
  exact hgoto

theorem turn_return (ret : Int) : Turn initproc c s (s.return p ret).release :=
  .steady (steady_goto (Pc.outside rfl) (.inl (by nofun)) ret) ⟨rfl, rfl, rfl⟩

theorem turn_acquire [DecidableEq C]
    (hpc : ∀ {np}, pc.adopted = some np → (s.tab p).pc.adopted = some np)
    (hexit : pc ≠ .exiting ∨ p ≠ initproc) (hs : s.acquire c p pc = some s') :
    Turn initproc c s s' := by
  unfold State.acquire at hs
  split at hs
  · cases hs
    exact .steady (steady_goto hpc hexit _) ⟨rfl, rfl, rfl⟩
  · cases hs

/-- A process in `fork` is on no CPU that runs the new process. -/
theorem Inv.ne_of_forks (h : Inv s home) (hp : home p = some c)
    (hnp : (s.tab p).pc.forks = some np) : p ≠ np := by
  rintro rfl
  rw [(h.embryo hnp).1] at hp
  cases hp

/-- The new process at the end of `fork`. -/
theorem Inv.publishes (h : Inv s home) (hc : s.cpu c = .running p)
    (hpc : (s.tab p).pc = .publish np) : p ≠ np ∧ (s.tab np).state = .embryo := by
  have hforks : (s.tab p).pc.forks = some np := by rw [hpc]; rfl
  exact ⟨h.ne_of_forks ((h.running c p).mp hc) hforks, h.forks hforks⟩

/-- A process in `fork` is alive. -/
theorem Inv.alive_of_adopted (h : Inv s home) (hp : (s.tab p).pc.adopted = some np) :
    (s.tab p).state.alive = true := by
  cases hh : home p with
  | some c =>
    have hon := h.on hh
    unfold Pc.adopted at hp
    split at hp <;> cases hp
    all_goals
      next hpc =>
        rw [hpc] at hon
        rw [← Option.some.inj hon]
        rfl
  | none =>
    have hoff := h.off hh
    unfold Pc.adopted at hp
    split at hp <;> cases hp
    all_goals
      next hpc =>
        rw [hpc] at hoff
        cases hst : (s.tab p).state <;> rw [hst] at hoff <;> first | rfl | cases hoff

/-- A step at a spot. -/
theorem turn_atSpot [DecidableEq C] (h : Inv s home) (hp : home p = some c) {f : Spot n}
    (hf : (s.tab p).pc = .spot f) {a : Act} (hs : s.atSpot initproc c p f a = some s') :
    Turn initproc c s s' := by
  cases a with
  | yield | wakeup =>
    refine turn_acquire (fun {np} hnp => ?_) (.inl fun h => by cases h) hs
    rw [hf]
    cases f <;> exact hnp
  | exit =>
    simp only [State.atSpot] at hs
    split at hs
    · next hexit => exact turn_acquire (Pc.outside rfl) (.inr hexit.2) hs
    · cases hs
  | fork | wait | sleep | kill =>
    simp only [State.atSpot] at hs
    split at hs
    · exact turn_acquire (Pc.outside rfl) (.inl fun h => by cases h) hs
    · cases hs
  | fail =>
    simp only [State.atSpot] at hs
    split at hs
    · next np =>
      cases hs
      have hforks : (s.tab p).pc.forks = some np := by rw [hf]; rfl
      exact .drop np (h.forks hforks) (tab_other (h.ne_of_forks hp hforks) _ _ _)
        (fun r hr => steady_other rfl (fun h => by cases h) _ hr) ⟨rfl, rfl, rfl⟩
    · cases hs
  | go =>
    simp only [State.atSpot] at hs
    split at hs
    · next np =>
      cases hs
      have hforks : (s.tab p).pc.forks = some np := by rw [hf]; rfl
      have hne := h.ne_of_forks hp hforks
      refine .adopt p np hne hf (h.forks hforks) (tab_other hne _ _ _) ?_
        (fun r hr hrp => ?_) ⟨rfl, rfl, rfl⟩
      · rw [State.goto, State.tab_set_self, s.tab_set_of_ne hne]
      · rw [State.goto, State.tab_set_of_ne _ hrp, s.tab_set_of_ne hr]
        exact .refl ..
    · next np =>
      refine turn_acquire (fun {np} hnp => ?_) (.inl fun h => by cases h) hs
      rw [hf]
      exact hnp
    · cases hs

theorem turn_allocproc (h : Inv s home) (hp : home p = some c) :
    Turn initproc c s (s.allocproc p) := by
  unfold State.allocproc
  split
  · exact turn_return (-1)
  · next np hnp =>
    have hunused : (s.tab np).state = .unused := of_decide_eq_true (first_eq_some.mp hnp).1
    have hne : p ≠ np := by
      rintro rfl
      exact (Pc.onCpu_ne_embryo (h.on hp)).2 hunused
    exact .alloc np hunused (tab_other hne _ _ _) (fun r hr => steady_other rfl (by nofun) _ hr)
      ⟨rfl, rfl, rfl⟩

theorem turn_wait (hpc : (s.tab p).pc = .wait) (hstate : (s.tab p).state = .running) :
    Turn initproc c s (s.wait p) := by
  unfold State.wait
  split
  · next q hq =>
    obtain ⟨hparent, hzombie⟩ := of_decide_eq_true (first_eq_some.mp hq).1
    have hne : p ≠ q := by
      rintro rfl
      rw [hstate] at hzombie
      cases hzombie
    exact .reap p q hpc hne hparent hzombie rfl
  · next hnone =>
    split
    · exact turn_return (-1)
    · have hdoze : Dozes p s _ := ⟨hstate, fun q hparent hzombie =>
        of_decide_eq_false (first_eq_none.mp hnone q) ⟨hparent, hzombie⟩, rfl⟩
      refine .plain (fun r => ?_) ⟨rfl, rfl, rfl⟩ (.inr ⟨p, hdoze⟩)
      by_cases hr : r = p
      · subst hr
        rw [State.tab_set_self]
        exact ⟨⟨rfl, rfl, rfl, .inr ⟨by rw [hstate]; rfl, rfl⟩⟩, rfl, Pc.outside rfl⟩
      · rw [s.tab_set_of_ne hr]
        exact (Steady.refl initproc r _).toKeeps

/-- What the end of `fork` does to the new process. -/
theorem tab_publish (hne : p ≠ np) :
    (s.publish p np).tab np = { s.tab np with state := .runnable } :=
  tab_other hne _ _ _

/-- What the end of `fork` does to the others. -/
theorem steady_publish (hr : r ≠ np) :
    Steady initproc r (s.tab r) ((s.publish p np).tab r) :=
  steady_other rfl (by nofun) _ hr

theorem keeps_publish (hr : r ≠ np) : Keeps (s.tab r) ((s.publish p np).tab r) :=
  (steady_publish hr : Steady r r _ _).toKeeps

/-- The entry that `wait` frees. -/
theorem tab_reap (hne : p ≠ q) : (s.reap p q).tab q =
    { s.tab q with pid := 0, parent := none, killed := false, state := .unused } :=
  tab_other hne _ _ _

theorem steady_reap (hr : r ≠ q) :
    Steady initproc r (s.tab r) ((s.reap p q).tab r) :=
  steady_other rfl (by nofun) _ hr

theorem keeps_reap (hr : r ≠ q) : Keeps (s.tab r) ((s.reap p q).tab r) :=
  (steady_reap hr : Steady r r _ _).toKeeps

/-- The entry that the loop of `kill` stops at. -/
def State.target (s : State C n) (pid : Int) : Option (Fin n) :=
  first fun q => decide ((s.tab q).pid = pid)

/-- What `kill` does to the entries that its loop does not stop at. -/
theorem steady_kill {pid : Int} (hr : s.target pid ≠ some r) :
    Steady initproc r (s.tab r) ((s.kill p pid).tab r) := by
  unfold State.kill
  split
  · exact steady_goto (Pc.outside rfl) (.inl (by nofun)) (-1) r
  · next q hq => exact steady_other rfl (by nofun) _ fun e => hr (e ▸ hq)

/-- What `kill` does to the entry that its loop stops at: but for `killed`, it is steady. -/
theorem tab_kill {pid : Int} (hq : s.target pid = some q) :
    ((s.kill p pid).tab q).killed = true ∧
      Steady initproc q { s.tab q with killed := true } ((s.kill p pid).tab q) := by
  have hkill : ∃ x, s.kill p pid = ((s.set q x).return p 0).release ∧ x.killed = true ∧
      Steady initproc q { s.tab q with killed := true } x := by
    unfold State.kill
    rw [show (first fun q => decide ((s.tab q).pid = pid)) = some q from hq]
    refine ⟨_, rfl, rfl, ?_⟩
    split
    · next hs => exact .state_of (by rw [hs]; rfl) ⟨rfl, by nofun⟩ id id
    · exact .refl ..
  obtain ⟨x, he, hkilled, hx⟩ := hkill
  have hkeep : Steady initproc q ((s.set q x).tab q) (((s.set q x).return p 0).release.tab q) :=
    steady_goto (Pc.outside rfl) (.inl (by nofun)) 0 q
  rw [State.tab_set_self] at hkeep
  rw [he]
  exact ⟨hkeep.killed.trans hkilled, hx.trans hkeep⟩

/-- What `kill` does to any entry. -/
theorem quiet_kill (initproc : Fin n) (pid : Int) (r : Fin n) :
    Quiet initproc r (s.tab r) ((s.kill p pid).tab r) ∧
      ∀ {np}, ((s.kill p pid).tab r).pc.adopted = some np → (s.tab r).pc.adopted = some np := by
  by_cases hr : s.target pid = some r
  · have h : Steady initproc r _ ((s.kill p pid).tab r) := (tab_kill hr).2
    exact ⟨⟨⟨h.parent, h.pid, h.birth, h.state⟩, h.chan, h.exiting⟩, h.adopted⟩
  · have h : Steady initproc r _ ((s.kill p pid).tab r) := steady_kill hr
    exact ⟨h.toQuiet, h.adopted⟩

theorem kin_of_kill (pid : Int) (r : Fin n) : Kin (s.tab r) ((s.kill p pid).tab r) :=
  (quiet_kill r pid r).1.toKin

theorem counters_kill (pid : Int) : s.SameCounters (s.kill p pid) := by
  unfold State.kill
  split <;> exact ⟨rfl, rfl, rfl⟩

/-! ## The entries after `exit` -/

/-- A process is woken up, or it is left as it is. -/
def Woken (st st' : ProcState) : Prop := st' = st ∨ st = .sleeping ∧ st' = .runnable

theorem Woken.trans {st' st'' : ProcState} (h : Woken st st') (h' : Woken st' st'') :
    Woken st st'' := by
  rcases h with rfl | ⟨hs, rfl⟩
  · exact h'
  · rcases h' with rfl | ⟨hs', -⟩
    · exact .inr ⟨hs, rfl⟩
    · cases hs'

theorem Woken.of_ne {st' : ProcState} (h : Woken st st') (hne : st' ≠ .runnable) : st' = st :=
  h.resolve_right fun h => hne h.2

theorem State.tab_wakeup1_eq (chan : Option (Chan n)) (q : Fin n) :
    ∃ st, (s.wakeup1 chan).tab q = { s.tab q with state := st } ∧ Woken (s.tab q).state st ∧
      (st = .sleeping → (s.tab q).chan ≠ chan) := by
  unfold State.wakeup1
  dsimp only
  split
  · next h => exact ⟨_, rfl, .inr ⟨h.1, rfl⟩, nofun⟩
  · next h => exact ⟨_, rfl, .inl rfl, fun hs hc => h ⟨hs, hc⟩⟩

/-- The children of process `p` are given to `initproc`. -/
def State.orphans (s : State C n) (initproc p : Fin n) : State C n :=
  { s with tab := fun q =>
      { s.tab q with
        parent := if (s.tab q).parent = some p then some initproc else (s.tab q).parent } }

theorem State.abandon_eq (initproc p : Fin n) : s.abandon initproc p =
    if ∃ q, (s.tab q).parent = some p ∧ (s.tab q).state = .zombie then
      (s.orphans initproc p).wakeup1 (some (.proc initproc))
    else s.orphans initproc p := by
  have : s.orphans initproc p = { s with
      tab := fun q =>
        if (s.tab q).parent = some p then { s.tab q with parent := some initproc }
        else s.tab q } := by
    unfold State.orphans
    congr 1
    funext q
    split <;> rfl
  rw [this]
  rfl

/-- The loop over the children changes parents, and wakes `initproc` for a zombie. -/
theorem State.tab_abandon_eq (initproc p q : Fin n) :
    ∃ st, (s.abandon initproc p).tab q = { (s.orphans initproc p).tab q with state := st } ∧
      Woken (s.tab q).state st ∧
      (st = .sleeping → (s.tab q).chan = some (.proc initproc) →
        ∀ r, (s.tab r).parent = some p → (s.tab r).state ≠ .zombie) := by
  rw [State.abandon_eq]
  split
  · obtain ⟨st, he, hw, hchan⟩ :=
      (s.orphans initproc p).tab_wakeup1_eq (some (.proc initproc)) q
    exact ⟨st, he, hw, fun hs hc => absurd hc (hchan hs)⟩
  · next hz =>
    exact ⟨(s.tab q).state, rfl, .inl rfl, fun _ _ r hr hzr => hz ⟨r, hr, hzr⟩⟩

/-- The entry of another process after `exit`. -/
theorem State.tab_exit_of_ne (s : State C n) (initproc : Fin n) (hne : q ≠ p) :
    ∃ st, (s.exit initproc p).tab q = { (s.orphans initproc p).tab q with state := st } ∧
      Woken (s.tab q).state st ∧
      (st = .sleeping → (s.tab q).chan ≠ (s.tab p).parent.map .proc ∧
        ((s.tab q).chan = some (.proc initproc) →
          ∀ r, (s.tab r).parent = some p → (s.tab r).state ≠ .zombie)) := by
  obtain ⟨st₁, he₁, hw₁, hchan₁⟩ := s.tab_wakeup1_eq ((s.tab p).parent.map .proc) q
  obtain ⟨st, he, hw, hchan⟩ :=
    (s.wakeup1 ((s.tab p).parent.map .proc)).tab_abandon_eq initproc p q
  simp only [State.orphans, he₁] at he hw hchan
  refine ⟨st, (State.tab_set_of_ne _ hne _).trans he, hw₁.trans hw, fun hs => ?_⟩
  refine ⟨hchan₁ ?_, fun hc r hr hz => ?_⟩
  · subst hs
    exact (hw.of_ne nofun).symm
  · obtain ⟨str, her, hwr, -⟩ := s.tab_wakeup1_eq ((s.tab p).parent.map .proc) r
    refine hchan hs hc r ?_ ?_
    · rw [her]
      exact hr
    · rw [her]
      rcases hwr with e | ⟨e, -⟩
      · exact e.trans hz
      · rw [hz] at e
        cases e

/-- The entry of the process itself after `exit`. -/
theorem State.tab_exit_self (initproc : Fin n) (hparent : (s.tab p).parent ≠ some p) :
    (s.exit initproc p).tab p = { s.tab p with state := .zombie, pc := .zombie } := by
  obtain ⟨st₁, he₁, -⟩ := s.tab_wakeup1_eq ((s.tab p).parent.map .proc) p
  obtain ⟨st, he, -⟩ :=
    (s.wakeup1 ((s.tab p).parent.map .proc)).tab_abandon_eq initproc p p
  simp only [State.orphans, he₁, if_neg hparent] at he
  unfold State.exit
  dsimp only [State.set]
  rw [Function.update_self, he]

/-- Every entry after `exit`: children get another parent, and states and places may change. -/
theorem State.tab_exit (initproc : Fin n) (hparent : (s.tab p).parent ≠ some p) (r : Fin n) :
    ∃ st pc, (s.exit initproc p).tab r =
      { (s.orphans initproc p).tab r with state := st, pc := pc } := by
  by_cases hr : r = p
  · subst hr
    refine ⟨.zombie, .zombie, ?_⟩
    rw [State.tab_exit_self initproc hparent]
    simp only [State.orphans, if_neg hparent]
  · obtain ⟨st, he, -⟩ := s.tab_exit_of_ne initproc hr
    exact ⟨st, _, he⟩

/-- What `exit` of process `p` does to the entries. -/
structure Exits (initproc p : Fin n) (s s' : State C n) : Prop where
  parent : ∀ r, (s'.tab r).parent =
    if (s.tab r).parent = some p then some initproc else (s.tab r).parent
  pid : ∀ r, (s'.tab r).pid = (s.tab r).pid
  birth : ∀ r, (s'.tab r).birth = (s.tab r).birth
  killed : ∀ r, (s'.tab r).killed = (s.tab r).killed
  chan : ∀ r, (s'.tab r).chan = (s.tab r).chan
  self : (s'.tab p).state = .zombie ∧ (s'.tab p).pc = .zombie
  pc : ∀ r, r ≠ p → (s'.tab r).pc = (s.tab r).pc
  state : ∀ r, r ≠ p → Woken (s.tab r).state (s'.tab r).state
  /-- Who sleeps on is not the parent, and not `initproc` with a zombie for a new child. -/
  sleeping : ∀ r, r ≠ p → (s'.tab r).state = .sleeping →
    (s.tab r).chan ≠ (s.tab p).parent.map .proc ∧ ((s.tab r).chan = some (.proc initproc) →
      ∀ q, (s.tab q).parent = some p → (s.tab q).state ≠ .zombie)
  counters : s.SameCounters s'

theorem exits (hparent : (s.tab p).parent ≠ some p) : Exits initproc p s (s.exit initproc p) := by
  have hall := State.tab_exit initproc hparent
  have hother := fun r (hr : r ≠ p) => s.tab_exit_of_ne initproc hr
  refine ⟨fun r => ?_, fun r => ?_, fun r => ?_, fun r => ?_, fun r => ?_, ?_, fun r hr => ?_,
    fun r hr => ?_, fun r hr hs => ?_, ?_⟩
  iterate 5
    obtain ⟨st, pc, he⟩ := hall r
    rw [he]
    rfl
  · rw [State.tab_exit_self initproc hparent]
    exact ⟨rfl, rfl⟩
  · obtain ⟨st, he, -⟩ := hother r hr
    rw [he]
    rfl
  · obtain ⟨st, he, hwoken, -⟩ := hother r hr
    rw [he]
    exact hwoken
  · obtain ⟨st, he, -, hno⟩ := hother r hr
    rw [he] at hs
    exact hno hs
  · unfold State.SameCounters State.exit
    dsimp only [State.set]
    rw [State.abandon_eq]
    split <;> exact ⟨rfl, rfl, rfl⟩

/-- Who is alive after `exit`. -/
theorem Exits.alive (h : Exits initproc p s s') (r : Fin n) :
    (s'.tab r).state.alive = true ↔ r ≠ p ∧ (s.tab r).state.alive = true := by
  by_cases hr : r = p
  · subst hr
    rw [h.self.1]
    exact iff_of_false nofun fun hr => hr.1 rfl
  · rw [and_iff_right hr]
    rcases h.state r hr with e | ⟨hs, e⟩
    · rw [e]
    · rw [hs, e]
      exact .rfl

/-- Who has which state after `exit`, among those that are not alive. -/
theorem Exits.state_eq (h : Exits initproc p s s') (hr : r ≠ p)
    (hst : st.alive = false) : (s'.tab r).state = st ↔ (s.tab r).state = st := by
  rcases h.state r hr with e | ⟨hs, e⟩
  · rw [e]
  · rw [hs, e]
    refine iff_of_false ?_ ?_ <;> rintro rfl <;> cases hst

/-! ## Steps -/

variable [DecidableEq C]

/-- What a step of a process does. -/
theorem turn_thread (h : Inv s home) (hp : home p = some c) {a : Act}
    (hs : s.thread initproc c p a = some s') :
    Turn initproc c s s' ∧ (∀ np, (s.tab p).pc ≠ .publish np) ∨
      ∃ np, (s.tab p).pc = .publish np ∧ s' = s.publish p np := by
  have hrun : ∀ {pc}, (s.tab p).pc = pc → pc.switches = false → (s.tab p).state = .running :=
    h.state_on hp
  unfold State.thread at hs
  split at hs
  case h_3 np hpc =>
    cases hs
    exact .inr ⟨np, hpc, rfl⟩
  case h_1 f hpc => exact .inl ⟨turn_atSpot h hp hpc hs, by rw [hpc]; nofun⟩
  case h_2 hpc =>
    cases hs
    exact .inl ⟨turn_allocproc h hp, by rw [hpc]; nofun⟩
  case h_4 hpc =>
    cases hs
    exact .inl ⟨.exit p hpc (hrun hpc rfl) rfl, by rw [hpc]; nofun⟩
  case h_5 hpc | h_7 hpc | h_10 hpc | h_15 hpc =>
    cases hs
    exact .inl ⟨.steady (steady_goto (Pc.outside rfl) (.inl (by nofun)) _) ⟨rfl, rfl, rfl⟩, by
      rw [hpc]; nofun⟩
  case h_6 hpc =>
    cases hs
    exact .inl ⟨turn_wait hpc (hrun hpc rfl), by rw [hpc]; nofun⟩
  case h_8 hpc | h_11 hpc =>
    cases hs
    exact .inl ⟨.steady (steady_set (.chan_of (by nofun) (.inl rfl) rfl (by nofun))) ⟨rfl, rfl, rfl⟩, by
      rw [hpc]; nofun⟩
  case h_9 a hpc =>
    cases hs
    have halive : (s.tab p).state.alive = true := by
      rw [hrun hpc rfl]
      rfl
    exact .inl ⟨.steady (steady_set (.chan_of (by nofun) (.inr ⟨halive, rfl⟩) rfl (by nofun)))
      ⟨rfl, rfl, rfl⟩, by rw [hpc]; nofun⟩
  case h_12 f hpc =>
    cases hs
    have halive : (s.tab p).state.alive = true := by
      rw [hrun hpc rfl]
      rfl
    refine .inl ⟨.steady (steady_set (.state_of halive ⟨rfl, by nofun⟩ (fun {np} hnp => ?_) (by nofun)))
      ⟨rfl, rfl, rfl⟩, by rw [hpc]; nofun⟩
    rw [hpc]
    cases f <;> exact hnp
  case h_13 f hpc | h_14 f hpc =>
    cases hs
    refine .inl ⟨.steady (steady_goto (fun {np} hnp => ?_) (.inl (by nofun)) _) ⟨rfl, rfl, rfl⟩, by
      rw [hpc]; nofun⟩
    rw [hpc]
    cases f <;> exact hnp
  case h_16 a f hpc =>
    cases hs
    refine .inl ⟨.steady (fun r => (steady_wakeup1 (some (.addr a)) r).trans
      (steady_goto (fun {np} hnp => ?_) (.inl (by nofun)) _ r)) ⟨rfl, rfl, rfl⟩, by rw [hpc]; nofun⟩
    rw [(s.tab_wakeup1 _ p).1, hpc]
    cases f <;> exact hnp
  case h_17 pid hpc =>
    cases hs
    exact .inl ⟨.kill p pid ((h.running c p).mpr hp) hpc rfl, by rw [hpc]; nofun⟩
  case h_18 => cases hs

/-- **What a step does to the entries.** -/
theorem turn_step (h : Inv s home) {a : Act} (hs : s.step initproc c a = some s') :
    Turn initproc c s s' ∧ (∀ p np, s.cpu c = .running p → (s.tab p).pc ≠ .publish np) ∨
      ∃ p np, s.cpu c = .running p ∧ (s.tab p).pc = .publish np ∧ s' = s.publish p np := by
  unfold State.step at hs
  split at hs
  case h_1 hc =>
    refine .inl ⟨?_, by rw [hc]; nofun⟩
    split at hs
    · split at hs
      · cases hs
        exact .steady (steady_wakeup1 _) ⟨rfl, rfl, rfl⟩
      · cases hs
        exact .steady (fun r => .refl ..) ⟨rfl, rfl, rfl⟩
    · cases hs
  case h_2 hc =>
    refine .inl ⟨?_, by rw [hc]; nofun⟩
    split at hs
    · split at hs
      · next hrun =>
        cases hs
        exact .steady (steady_set (.state_of (by rw [hrun]; rfl) ⟨rfl, by nofun⟩ id id)) ⟨rfl, rfl, rfl⟩
      · cases hs
        exact .steady (fun r => .refl ..) ⟨rfl, rfl, rfl⟩
    · cases hs
      exact .steady (fun r => .refl ..) ⟨rfl, rfl, rfl⟩
  case h_3 p hc =>
    rcases turn_thread h ((h.running c p).mp hc) hs with ⟨hturn, hpub⟩ | ⟨np, hpc, he⟩
    · refine .inl ⟨hturn, fun p' np hp' => ?_⟩
      rw [hc] at hp'
      cases hp'
      exact hpub np
    · exact .inr ⟨p, np, hc, hpc, he⟩
  case h_4 hc =>
    refine .inl ⟨?_, by rw [hc]; nofun⟩
    cases hs
    exact .steady (fun r => .refl ..) ⟨rfl, rfl, rfl⟩

end Laboratorio.Xv6.Ptable
