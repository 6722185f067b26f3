import Laboratorio.Xv6.Pids

/-!
# `kill`

The loop of `kill` compares pids and does not look at states, so it may stop at an unused entry: one
of pid 0, or one with the stale pid of a `fork` that has failed. Nothing on the way from there to the
next process of the entry clears `killed`.
-/

namespace Laboratorio.Xv6.Ptable

open Laboratorio.Scan Laboratorio.Reach

variable {C : Type} {n : Nat} {initproc : Fin n} {s s' : State C n} {home : Fin n → Option C} {c : C}
  {p q np : Fin n} {pid : Int}

/-! ## One call -/

/-- The fields of `struct proc`, without the place of the process in its own calls. -/
def Proc.fields (x : Proc n) : ProcState × Int × Option (Fin n) × Option (Chan n) × Bool :=
  (x.state, x.pid, x.parent, x.chan, x.killed)

/-- `kill` by process `p` reaches only its target: it returns 0 exactly when there is a process of
that pid, and changes no entry but that of such a process. -/
def State.Reaches (s : State C n) (p : Fin n) (pid : Int) : Prop :=
  (((s.kill p pid).tab p).ret = 0 ↔ ∃ q, (s.tab q).state ≠ .unused ∧ (s.tab q).pid = pid) ∧
  ∀ q, ¬ ((s.tab q).state ≠ .unused ∧ (s.tab q).pid = pid) →
    ((s.kill p pid).tab q).fields = (s.tab q).fields

/-- The loop of `kill` does not stop at an unused entry. -/
def State.Aimed (s : State C n) (pid : Int) : Prop :=
  ∀ q, s.target pid = some q → (s.tab q).state ≠ .unused

theorem State.target_pid (h : s.target pid = some q) : (s.tab q).pid = pid :=
  of_decide_eq_true (first_eq_some.mp h).1

theorem State.target_none (h : s.target pid = none) (q : Fin n) : (s.tab q).pid ≠ pid :=
  of_decide_eq_false (first_eq_none.mp h q)

theorem State.kill_of_none (h : s.target pid = none) : s.kill p pid = (s.return p (-1)).release := by
  unfold State.kill
  rw [show (first fun q => decide ((s.tab q).pid = pid)) = none from h]

theorem State.kill_of_some (h : s.target pid = some q) : s.kill p pid = ((s.set q { s.tab q with
    killed := true
    state := if (s.tab q).state = .sleeping then .runnable else (s.tab q).state }).return p
    0).release := by
  unfold State.kill
  rw [show (first fun q => decide ((s.tab q).pid = pid)) = some q from h]

/-- The fields of an entry after a call has returned. -/
theorem fields_return (ret : Int) (r : Fin n) :
    ((s.return p ret).release.tab r).fields = (s.tab r).fields := by
  show ((s.set p _).tab r).fields = _
  by_cases hr : r = p
  · subst hr
    rw [State.tab_set_self]
    rfl
  · rw [s.tab_set_of_ne hr]

theorem ret_return (ret : Int) : ((s.return p ret).release.tab p).ret = ret := by
  show ((s.set p _).tab p).ret = _
  rw [State.tab_set_self]

/-- What `kill` returns. -/
theorem ret_kill : ((s.kill p pid).tab p).ret = 0 ↔ ∃ q, s.target pid = some q := by
  cases ht : s.target pid with
  | none =>
    rw [State.kill_of_none ht, ret_return]
    exact iff_of_false (by decide) nofun
  | some q =>
    rw [State.kill_of_some ht, ret_return]
    exact iff_of_true rfl ⟨q, rfl⟩

/-- The entries that the loop of `kill` does not stop at. -/
theorem fields_kill {r : Fin n} (hr : s.target pid ≠ some r) :
    ((s.kill p pid).tab r).fields = (s.tab r).fields := by
  cases ht : s.target pid with
  | none => rw [State.kill_of_none ht, fields_return]
  | some q =>
    have hrq : r ≠ q := fun e => hr (e ▸ ht)
    rw [State.kill_of_some ht, fields_return, s.tab_set_of_ne hrq]

theorem State.reaches_of_aimed (h : s.Aimed pid) (p : Fin n) : s.Reaches p pid := by
  constructor
  · rw [ret_kill]
    constructor
    · rintro ⟨q, hq⟩
      exact ⟨q, h q hq, State.target_pid hq⟩
    · rintro ⟨q, -, hq⟩
      cases ht : s.target pid with
      | none => exact absurd hq (State.target_none ht q)
      | some r => exact ⟨r, rfl⟩
  · intro q hq
    exact fields_kill fun ht => hq ⟨h q ht, State.target_pid ht⟩

/-- A `kill` that stops at an unused entry returns 0, but there is no process of that pid. -/
theorem State.aimed_of_reaches (hpids : Pids s) (h : s.Reaches p pid) : s.Aimed pid := by
  intro q hq hunused
  obtain ⟨r, hr, hpid⟩ := h.1.mp (ret_kill.mpr ⟨q, hq⟩)
  have hne : (s.tab q).pid ≠ 0 := by
    rw [State.target_pid hq, ← hpid, hpids.live hr]
    omega
  have hqr : q = r := hpids.injective ((State.target_pid hq).trans hpid.symm) hne
  exact hr (hqr ▸ hunused)

/-! ## Runs -/

/-- The entry that the loop of `kill` stops at, when it is the next step of CPU `c`. -/
def State.hits (s : State C n) (c : C) : Option (Fin n) :=
  match s.cpu c with
  | .running p =>
    match (s.tab p).pc with
    | .killing pid => s.target pid
    | _ => none
  | _ => none

theorem State.hits_eq (hc : s.cpu c = .running p) (hpc : (s.tab p).pc = .killing pid) :
    s.hits c = s.target pid := by
  unfold State.hits
  rw [hc]
  dsimp only
  rw [hpc]

/-- A step of CPU `c` in which the loop of `kill`, if it is a `kill`, stops at nobody or at a process
that is neither `UNUSED` nor `EMBRYO`. In a sequence of whole calls there is no `EMBRYO` when `kill`
is called. -/
def State.aimedStep [DecidableEq C] (initproc : Fin n) (s : State C n) (c : C) (a : Act) :
    Option (State C n) :=
  if ∀ q ∈ s.hits c, (s.tab q).state ≠ .unused ∧ (s.tab q).state ≠ .embryo then
    s.step initproc c a
  else none

/-- One such step of any CPU. -/
def AimedStep [DecidableEq C] (initproc : Fin n) (s s' : State C n) : Prop :=
  ∃ c a, s.aimedStep initproc c a = some s'

/-- Where there is no process yet, nothing has been killed. -/
def Unkilled (s : State C n) : Prop :=
  ∀ q, (s.tab q).state = .unused ∨ (s.tab q).state = .embryo → (s.tab q).killed = false

theorem Unkilled.boot : Unkilled (State.boot initproc : State C n) := by
  intro q _
  rw [State.tab_boot]
  split <;> rfl

/-- A step that changes no entry but one, in which there is nobody or which is not killed. -/
theorem Unkilled.of_ne (h : Unkilled s) (q : Fin n)
    (htab : ∀ r, r ≠ q → Keeps (s.tab r) (s'.tab r))
    (hq : (s'.tab q).killed = false ∨ (s'.tab q).state ≠ .unused ∧ (s'.tab q).state ≠ .embryo) :
    Unkilled s' := by
  intro r hr
  by_cases hrq : r = q
  · rw [hrq] at hr ⊢
    exact hq.resolve_right fun hne => hr.elim hne.1 hne.2
  · rw [(htab r hrq).killed]
    exact h r (hr.imp ((htab r hrq).state_eq rfl).mp ((htab r hrq).state_eq rfl).mp)

theorem Unkilled.turn (h : Unkilled s) (hw : Waits initproc s) (ht : Turn initproc c s s')
    (hkill : ∀ q ∈ s.hits c, (s.tab q).state ≠ .unused ∧ (s.tab q).state ≠ .embryo) :
    Unkilled s' := by
  cases ht with
  | plain htab =>
    intro r hr
    rw [(htab r).killed]
    exact h r (hr.imp ((htab r).state_eq rfl).mp ((htab r).state_eq rfl).mp)
  | alloc np hnp hchild htab =>
    refine h.of_ne np (fun r hr => (htab r hr).toKeeps) (.inl ?_)
    rw [hchild]
    exact h np (.inl hnp)
  | drop np hnp hchild htab =>
    refine h.of_ne np (fun r hr => (htab r hr).toKeeps) (.inl ?_)
    rw [hchild]
    exact h np (.inr hnp)
  | adopt p np hne hpc hnp hchild hself htab =>
    intro r hr
    by_cases hrn : r = np
    · rw [hrn, hchild]
      exact h np (.inr hnp)
    · by_cases hrp : r = p
      · rw [hrp, hself] at hr ⊢
        exact h p hr
      · rw [(htab r hrn hrp).killed]
        exact h r (hr.imp ((htab r hrn hrp).state_eq rfl).mp ((htab r hrn hrp).state_eq rfl).mp)
  | exit p hpc hstate he =>
    have hex : Exits initproc p s s' := he ▸ exits (hw.parent p)
    intro r hr
    have hrp : r ≠ p := by
      rintro rfl
      rw [hex.self.1] at hr
      exact hr.elim nofun nofun
    rw [hex.killed]
    exact h r (hr.imp (hex.state_eq hrp rfl).mp (hex.state_eq hrp rfl).mp)
  | reap p q hpc hne hparent hzombie he =>
    rw [he]
    refine h.of_ne q (fun r hr => keeps_reap hr) (.inl ?_)
    rw [tab_reap hne]
  | kill p pid hc hpc he =>
    intro r hr
    rw [he] at hr ⊢
    have hkin : Kin (s.tab r) ((s.kill p pid).tab r) := kin_of_kill pid r
    have hr' := hr.imp (hkin.state_eq rfl).mp (hkin.state_eq rfl).mp
    by_cases ht : s.target pid = some r
    · obtain ⟨hu, hem⟩ := hkill r ((State.hits_eq hc hpc).trans ht)
      exact absurd hr' (not_or.mpr ⟨hu, hem⟩)
    · rw [(steady_kill ht : Steady r r _ _).killed]
      exact h r hr'

variable [DecidableEq C]

theorem State.step_of_aimedStep {a : Act} (h : s.aimedStep initproc c a = some s') :
    s.step initproc c a = some s' ∧
      ∀ q ∈ s.hits c, (s.tab q).state ≠ .unused ∧ (s.tab q).state ≠ .embryo := by
  unfold State.aimedStep at h
  split at h
  · next hok => exact ⟨h, hok⟩
  · cases h

theorem AimedStep.step (h : AimedStep initproc s s') : Step initproc s s' := by
  obtain ⟨c, a, hs⟩ := h
  exact ⟨c, a, (State.step_of_aimedStep hs).1⟩

theorem Unkilled.reachable (h : Reachable (· = State.boot initproc) (AimedStep initproc) s) :
    Unkilled s := by
  induction h with
  | init h0 =>
    rw [h0]
    exact .boot
  | @step s s' hr hs ih =>
    have hreach : Reachable (· = State.boot initproc) (Step initproc) s :=
      hr.mono fun _ _ => AimedStep.step
    obtain ⟨c, a, hs⟩ := hs
    obtain ⟨ha, hok⟩ := State.step_of_aimedStep hs
    obtain ⟨home, hinv⟩ := Inv.reachable hreach
    rcases turn_step hinv ha with ⟨hturn, -⟩ | ⟨p, np, hc, hpc, he⟩
    · exact ih.turn (Waits.reachable hreach).1 hturn hok
    · rw [he]
      refine ih.of_ne np (fun r hr => keeps_publish hr) (.inr ?_)
      rw [tab_publish (hinv.publishes hc hpc).1]
      exact ⟨nofun, nofun⟩

/-! ## Results -/

/-- **`kill` reaches only its target** if and only if its loop does not stop at an unused entry. And
in a run in which the loop of `kill` stops only at processes that have been forked, every process
that a `fork` makes starts with `killed = 0`. -/
theorem kill_reaches_target (h : Reachable (· = State.boot initproc) (Step initproc) s) :
    (∀ p pid, s.Reaches p pid ↔ s.Aimed pid) ∧
    (Reachable (· = State.boot initproc) (AimedStep initproc) s → ∀ p np,
      (s.tab p).pc = .publish np → ((s.publish p np).tab np).killed = false) := by
  obtain ⟨home, hinv⟩ := Inv.reachable h
  refine ⟨fun p pid => ⟨State.aimed_of_reaches (Pids.reachable h), fun ha => ?_⟩,
    fun ha p np hpc => ?_⟩
  · exact State.reaches_of_aimed ha p
  · have hforks : (s.tab p).pc.forks = some np := by rw [hpc]; rfl
    have hne : p ≠ np := by
      rintro rfl
      have := (hinv.embryo hforks).2
      rw [hpc] at this
      cases this
    rw [tab_publish hne]
    exact Unkilled.reachable ha np (.inr (hinv.forks hforks))

/-- The first process starts and calls `kill(0)`. -/
def killZero : List (Fin 1 × Act) := [(0, .go), (0, .go), (0, .go), (0, .kill 0)]

/-- Then it forks a child. -/
def thenFork : List (Fin 1 × Act) := [(0, .go), (0, .fork), (0, .go), (0, .go), (0, .go)]

/-- The state in which the loop of `kill(0)` starts. -/
def atKill : State (Fin 1) 64 :=
  (run (fun s t => s.step 0 t.1 t.2) (State.boot 0) killZero).get (by decide +kernel)

/-- The state in which the child is about to be made runnable. -/
def atPublish : State (Fin 1) 64 :=
  (run (fun s t => s.step 0 t.1 t.2) atKill thenFork).get (by decide +kernel)

/-- `kill(0)` returns 0 without a process of that pid, and the next child starts killed. -/
theorem kill_nobody :
    ∃ s s' : State (Fin 1) 64, Reachable (· = State.boot 0) (Step 0) s ∧
      Reachable (· = s) (Step 0) s' ∧ (s.tab 0).pc = .killing 0 ∧
      ((s.kill 0 0).tab 0).ret = 0 ∧ (∀ q, (s.tab q).state ≠ .unused → (s.tab q).pid ≠ 0) ∧
      (s'.tab 0).pc = .publish 1 ∧ ((s'.publish 0 1).tab 1).state = .runnable ∧
      ((s'.publish 0 1).tab 1).killed = true := by
  refine ⟨atKill, atPublish, ?_, ?_, by decide +kernel, by decide +kernel, by decide +kernel,
    by decide +kernel, by decide +kernel, by decide +kernel⟩
  · exact reachable_of_run (fun s t s' h => ⟨t.1, t.2, h⟩) (.init rfl) (Option.some_get _).symm
  · exact reachable_of_run (fun s t s' h => ⟨t.1, t.2, h⟩) (.init rfl) (Option.some_get _).symm

/-- The first process calls `kill(1)`, on itself, and forks a child. -/
def killSelf : List (Fin 1 × Act) :=
  [(0, .go), (0, .go), (0, .go), (0, .kill 1), (0, .go), (0, .fork), (0, .go), (0, .go), (0, .go)]

/-- The state in which that child is about to be made runnable. -/
def atPublishAimed : State (Fin 1) 64 :=
  (run (fun s t => s.aimedStep 0 t.1 t.2) (State.boot 0) killSelf).get (by decide +kernel)

/-- The `kill` was aimed, and the child starts with `killed = 0`; another `kill(1)` would reach the
first process. -/
theorem kill_reaches_target_killSelf :
    (atPublishAimed.tab 0).pc = .publish 1 ∧
      ((atPublishAimed.publish 0 1).tab 1).killed = false ∧ atPublishAimed.Reaches 0 1 := by
  have haimed : Reachable (· = State.boot 0) (AimedStep 0) atPublishAimed :=
    reachable_of_run (fun s t s' h => ⟨t.1, t.2, h⟩) (.init rfl) (Option.some_get _).symm
  have hpc : (atPublishAimed.tab 0).pc = .publish 1 := by decide +kernel
  have hkill := kill_reaches_target (haimed.mono fun _ _ => AimedStep.step)
  refine ⟨hpc, hkill.2 haimed 0 1 hpc, (hkill.1 0 1).mpr ?_⟩
  unfold State.Aimed
  decide +kernel

end Laboratorio.Xv6.Ptable
