import Laboratorio.Xv6.Turn

/-!
# `wait` and `exit`

`Waits` is what holds in every state of who waits for whom: a process asleep in `wait` has no child
that is a zombie, and the processes that there have been keep different numbers, also after a `wait`
has freed them.
-/

namespace Laboratorio.Xv6.Ptable

open Laboratorio.Scan Laboratorio.Reach

variable {C : Type} {n : Nat} {initproc : Fin n}

/-! ## The invariant -/

/-- **What holds of those who wait**, in every state. -/
structure Waits (initproc : Fin n) (s : State C n) : Prop where
  chan : ∀ {p r}, (s.tab p).chan = some (.proc r) → r = p
  parent : ∀ p, (s.tab p).parent ≠ some p
  orphan : (s.tab initproc).parent = none
  init : (s.tab initproc).state ≠ .zombie ∧ (s.tab initproc).state ≠ .unused ∧
    (s.tab initproc).state ≠ .embryo
  exiting : ∀ {p}, (s.tab p).pc = .exiting → p ≠ initproc
  noZombie : ∀ {p q}, (s.tab p).state = .sleeping → (s.tab p).chan = some (.proc p) →
    (s.tab q).parent = some p → (s.tab q).state ≠ .zombie

/-- The processes have different numbers, and those that a `wait` has freed are not numbered again. -/
structure Numbered (s : State C n) : Prop where
  lt : ∀ {p}, (s.tab p).state ≠ .unused → (s.tab p).birth < s.births
  injective : ∀ {p q}, (s.tab p).state ≠ .unused → (s.tab q).state ≠ .unused →
    (s.tab p).birth = (s.tab q).birth → p = q
  reaped_lt : ∀ {r}, r ∈ s.reaped → r.child < s.births
  reaped : ∀ {r p}, r ∈ s.reaped → (s.tab p).state ≠ .unused → (s.tab p).birth ≠ r.child
  nodup : (s.reaped.map Reap.child).Nodup

theorem State.tab_boot (p : Fin n) : (State.boot initproc : State C n).tab p =
    if p = initproc then ⟨.runnable, 1, none, none, false, .forkret, 0, 0⟩
    else ⟨.unused, 0, none, none, false, .dead, 0, 0⟩ := rfl

theorem Waits.boot : Waits initproc (State.boot initproc : State C n) where
  chan {p r} h := by
    rw [State.tab_boot] at h
    split at h <;> cases h
  parent p h := by
    rw [State.tab_boot] at h
    split at h <;> cases h
  orphan := by rw [State.tab_boot, if_pos rfl]
  init := by
    rw [State.tab_boot, if_pos rfl]
    exact ⟨nofun, nofun, nofun⟩
  exiting {p} h := by
    rw [State.tab_boot] at h
    split at h <;> cases h
  noZombie {p q} h := by
    rw [State.tab_boot] at h
    split at h <;> cases h

theorem Numbered.boot : Numbered (State.boot initproc : State C n) where
  lt {p} _ := by
    rw [State.tab_boot]
    split <;> exact Nat.zero_lt_one
  injective {p q} hp hq _ := by
    rw [State.tab_boot] at hp hq
    split at hp
    · next ep =>
      split at hq
      · next eq => rw [ep, eq]
      · exact absurd rfl hq
    · exact absurd rfl hp
  reaped_lt := nofun
  reaped := nofun
  nodup := .nil

/-! ## Every step keeps the invariants -/

variable {s s' : State C n} {home : Fin n → Option C} {c : C} {p q np : Fin n}

/-- A change of another process that does not end asleep or as a zombie. -/
structure Calm (initproc q : Fin n) (x y : Proc n) : Prop where
  ne : q ≠ initproc
  chan : y.chan = x.chan
  parent : y.parent ≠ some q
  zombie : y.state ≠ .zombie
  sleeping : y.state ≠ .sleeping

theorem Waits.calm (h : Waits initproc s) (htab : ∀ r, Quiet initproc r (s.tab r) (s'.tab r) ∨
    Calm initproc r (s.tab r) (s'.tab r)) : Waits initproc s' := by
  have hquiet : Quiet initproc initproc (s.tab initproc) (s'.tab initproc) :=
    (htab initproc).resolve_right fun hc => hc.ne rfl
  refine ⟨fun {p r} hp => ?_, fun p hp => ?_, ?_, ⟨?_, ?_, ?_⟩, fun {p} hp => ?_,
    fun {p q} hs hc hparent hz => ?_⟩
  · rcases htab p with hq | hq
    · exact h.chan (hq.chan hp).1
    · rw [hq.chan] at hp
      exact h.chan hp
  · rcases htab p with hq | hq
    · rw [hq.parent] at hp
      exact h.parent p hp
    · exact hq.parent hp
  · rw [hquiet.parent]
    exact h.orphan
  · exact h.init.1 ∘ (hquiet.state_eq rfl).mp
  · exact h.init.2.1 ∘ (hquiet.state_eq rfl).mp
  · exact h.init.2.2 ∘ (hquiet.state_eq rfl).mp
  · rcases htab p with hq | hq
    · exact (hq.exiting hp).elim h.exiting id
    · exact hq.ne
  · have hp := (htab p).resolve_right fun hq => hq.sleeping hs
    have hq := (htab q).resolve_right fun hq => hq.zombie hz
    rw [hq.parent] at hparent
    exact h.noZombie ((hp.chan hc).2 hs) (hp.chan hc).1 hparent ((hq.state_eq rfl).mp hz)

/-- One entry is changed calmly. -/
theorem Waits.calm_at (h : Waits initproc s) (np : Fin n)
    (hnp : Calm initproc np (s.tab np) (s'.tab np))
    (htab : ∀ r, r ≠ np → Quiet initproc r (s.tab r) (s'.tab r)) : Waits initproc s' := by
  refine h.calm fun r => ?_
  by_cases hr : r = np
  · subst hr
    exact .inr hnp
  · exact .inl (htab r hr)

/-- The first process is past `fork`, and no zombie. -/
theorem Waits.ne_init (h : Waits initproc s) {st : ProcState} (hst : st.alive = false)
    (hp : (s.tab p).state = st) : p ≠ initproc := by
  rintro rfl
  subst hp
  cases he : (s.tab p).state with
  | unused => exact h.init.2.1 he
  | embryo => exact h.init.2.2 he
  | zombie => exact h.init.1 he
  | sleeping | runnable | running =>
    rw [he] at hst
    cases hst

/-- `exit` wakes the parent before there is a zombie, and `initproc` when it gets one. -/
theorem Waits.exit (h : Waits initproc s) (hpc : (s.tab p).pc = .exiting)
    (hex : Exits initproc p s s') : Waits initproc s' := by
  have hinit := h.exiting hpc
  refine ⟨fun {q r} hq => ?_, fun q hq => ?_, ?_, ⟨?_, ?_, ?_⟩, fun {q} hq => ?_,
    fun {r q} hs hc hpar hz => ?_⟩
  · rw [hex.chan] at hq
    exact h.chan hq
  · rw [hex.parent] at hq
    split at hq
    · next hpq =>
      cases hq
      rw [h.orphan] at hpq
      cases hpq
    · exact h.parent q hq
  · rw [hex.parent, h.orphan]
    rfl
  · exact h.init.1 ∘ (hex.state_eq hinit.symm rfl).mp
  · exact h.init.2.1 ∘ (hex.state_eq hinit.symm rfl).mp
  · exact h.init.2.2 ∘ (hex.state_eq hinit.symm rfl).mp
  · by_cases hqp : q = p
    · rw [hqp]
      exact hinit
    · rw [hex.pc q hqp] at hq
      exact h.exiting hq
  · have hrp : r ≠ p := by
      rintro rfl
      rw [hex.self.1] at hs
      cases hs
    obtain ⟨hnp, hni⟩ := hex.sleeping r hrp hs
    rw [hex.chan] at hc
    rw [hex.parent] at hpar
    by_cases hqp : q = p
    · -- the zombie is the process itself: its parent has been woken
      rw [hqp, if_neg (h.parent p)] at hpar
      rw [hpar] at hnp
      exact hnp hc
    · have hzq : (s.tab q).state = .zombie := (hex.state_eq hqp rfl).mp hz
      split at hpar
      · next hpq =>
        -- an orphan: `initproc` has been woken
        cases hpar
        exact hni hc q hpq hzq
      · have hsr : (s.tab r).state = .sleeping := by
          exact ((hex.state r hrp).of_ne (by rw [hs]; nofun)).symm.trans hs
        exact h.noZombie hsr hc hpar hzq

/-- `wait` goes to sleep only when there is no zombie. -/
theorem Waits.doze (h : Waits initproc s) (hd : Dozes p s s') : Waits initproc s' := by
  have hself : s'.tab p =
      { s.tab p with chan := some (.proc p), state := .sleeping, pc := .waitSwtch } := by
    rw [hd.eq, State.tab_set_self]
  have hother : ∀ q, q ≠ p → s'.tab q = s.tab q := fun q hq => by
    rw [hd.eq, s.tab_set_of_ne hq]
  have hparent : ∀ q, (s'.tab q).parent = (s.tab q).parent := by
    intro q
    by_cases hq : q = p
    · rw [hq, hself]
    · rw [hother q hq]
  refine ⟨fun {q r} hq => ?_, fun q => ?_, ?_, ?_, fun {q} hq => ?_, fun {r q} hs hc hpar hz => ?_⟩
  · by_cases hqp : q = p
    · subst hqp
      rw [hself] at hq
      cases hq
      rfl
    · rw [hother q hqp] at hq
      exact h.chan hq
  · rw [hparent]
    exact h.parent q
  · rw [hparent]
    exact h.orphan
  · by_cases hi : initproc = p
    · rw [hi, hself]
      exact ⟨nofun, nofun, nofun⟩
    · rw [hother _ hi]
      exact h.init
  · by_cases hqp : q = p
    · subst hqp
      rw [hself] at hq
      cases hq
    · rw [hother q hqp] at hq
      exact h.exiting hq
  · have hqp : q ≠ p := by
      rintro rfl
      rw [hself] at hz
      cases hz
    rw [hparent] at hpar
    rw [hother q hqp] at hz
    by_cases hrp : r = p
    · rw [hrp] at hpar
      exact hd.none q hpar hz
    · rw [hother r hrp] at hs hc
      exact h.noZombie hs hc hpar hz

theorem Waits.turn (h : Waits initproc s) (ht : Turn initproc c s s') : Waits initproc s' := by
  cases ht with
  | plain _ _ hsteady =>
    rcases hsteady with htab | ⟨p, hdoze⟩
    · exact h.calm fun r => .inl (htab r).toQuiet
    · exact h.doze hdoze
  | alloc np hnp hchild htab | drop np hnp hchild htab =>
    refine h.calm_at np ?_ fun r hr => (htab r hr).toQuiet
    rw [hchild]
    exact ⟨h.ne_init rfl hnp, rfl, h.parent np, nofun, nofun⟩
  | adopt p np hne hpc hnp hchild hself htab =>
    refine h.calm_at np ?_ (quiet_adopt hself htab)
    rw [hchild]
    have hst : ∀ st, st ≠ .embryo → (s.tab np).state ≠ st := fun st hst e =>
      hst (e.symm.trans hnp)
    exact ⟨h.ne_init rfl hnp, rfl, fun e => hne (Option.some.inj e), hst _ nofun, hst _ nofun⟩
  | exit p hpc hstate he => exact h.exit hpc (he ▸ exits (h.parent p))
  | reap p q hpc hne hparent hzombie he =>
    rw [he]
    refine h.calm_at q ?_ fun r hr => (steady_reap hr).toQuiet
    rw [tab_reap hne]
    exact ⟨h.ne_init rfl hzombie, rfl, nofun, nofun, nofun⟩
  | kill p pid hc hpc he =>
    rw [he]
    exact h.calm fun r => .inl (quiet_kill initproc pid r).1

theorem Waits.publish (h : Waits initproc s) (hne : p ≠ np) (hnp : (s.tab np).state = .embryo) :
    Waits initproc (s.publish p np) := by
  refine h.calm_at np ?_ fun r hr => (steady_publish hr).toQuiet
  rw [tab_publish hne]
  exact ⟨h.ne_init rfl hnp, rfl, h.parent np, nofun, nofun⟩

theorem Kin.numbered {x y : Proc n} (h : Kin x y) (hy : y.state ≠ .unused) :
    x.state ≠ .unused ∧ y.birth = x.birth :=
  ⟨hy ∘ (h.state_eq rfl).mpr, h.birth⟩

/-- Nobody is numbered anew. -/
theorem Numbered.mono (h : Numbered s)
    (htab : ∀ r, (s'.tab r).state ≠ .unused → (s.tab r).state ≠ .unused ∧
      (s'.tab r).birth = (s.tab r).birth)
    (hbirths : s'.births = s.births) (hreaped : s'.reaped = s.reaped) : Numbered s' := by
  refine ⟨fun {p} hp => ?_, fun {p q} hp hq he => ?_, ?_, fun {r p} hr hp => ?_, ?_⟩
  · rw [(htab p hp).2, hbirths]
    exact h.lt (htab p hp).1
  · rw [(htab p hp).2, (htab q hq).2] at he
    exact h.injective (htab p hp).1 (htab q hq).1 he
  · rw [hreaped, hbirths]
    exact h.reaped_lt
  · rw [hreaped] at hr
    rw [(htab p hp).2]
    exact h.reaped hr (htab p hp).1
  · rw [hreaped]
    exact h.nodup

/-- `allocproc` gives the next number. -/
theorem Numbered.alloc (h : Numbered s) {np : Fin n} (hbirth : (s'.tab np).birth = s.births)
    (htab : ∀ r, r ≠ np → (s'.tab r).state ≠ .unused → (s.tab r).state ≠ .unused ∧
      (s'.tab r).birth = (s.tab r).birth)
    (hbirths : s'.births = s.births + 1) (hreaped : s'.reaped = s.reaped) : Numbered s' := by
  have hlt : ∀ r, r ≠ np → (s'.tab r).state ≠ .unused → (s'.tab r).birth < s.births := by
    intro r hr hs
    rw [(htab r hr hs).2]
    exact h.lt (htab r hr hs).1
  refine ⟨fun {p} hp => ?_, fun {p q} hp hq he => ?_, fun {r} hr => ?_, fun {r p} hr hp => ?_, ?_⟩
  · by_cases hpn : p = np
    · rw [hpn, hbirth]
      omega
    · have := hlt p hpn hp
      omega
  · by_cases hpn : p = np
    · by_cases hqn : q = np
      · rw [hpn, hqn]
      · have := hlt q hqn hq
        rw [← he, hpn, hbirth] at this
        omega
    · by_cases hqn : q = np
      · have := hlt p hpn hp
        rw [he, hqn, hbirth] at this
        omega
      · rw [(htab p hpn hp).2, (htab q hqn hq).2] at he
        exact h.injective (htab p hpn hp).1 (htab q hqn hq).1 he
  · rw [hreaped] at hr
    have := h.reaped_lt hr
    omega
  · rw [hreaped] at hr
    by_cases hpn : p = np
    · rw [hpn, hbirth]
      exact (h.reaped_lt hr).ne'
    · rw [(htab p hpn hp).2]
      exact h.reaped hr (htab p hpn hp).1
  · rw [hreaped]
    exact h.nodup

/-- `wait` frees the number of the process for good. -/
theorem Numbered.reap (h : Numbered s) (hne : p ≠ q) (hzombie : (s.tab q).state = .zombie) :
    Numbered (s.reap p q) := by
  have hq : (s.tab q).state ≠ .unused := by
    rw [hzombie]
    nofun
  have htab : ∀ r, ((s.reap p q).tab r).state ≠ .unused →
      r ≠ q ∧ (s.tab r).state ≠ .unused ∧ ((s.reap p q).tab r).birth = (s.tab r).birth := by
    intro r hr
    have hrq : r ≠ q := by
      rintro rfl
      rw [tab_reap hne] at hr
      exact hr rfl
    exact ⟨hrq, (keeps_reap hrq).numbered hr⟩
  refine ⟨fun {r} hr => ?_, fun {r r'} hr hr' he => ?_, fun {x} hx => ?_, fun {x r} hx hr => ?_, ?_⟩
  · obtain ⟨-, hs, hb⟩ := htab r hr
    rw [hb]
    exact h.lt hs
  · obtain ⟨-, hs, hb⟩ := htab r hr
    obtain ⟨-, hs', hb'⟩ := htab r' hr'
    rw [hb, hb'] at he
    exact h.injective hs hs' he
  · rcases List.mem_cons.mp hx with rfl | hx
    · exact h.lt hq
    · exact h.reaped_lt hx
  · obtain ⟨hrq, hs, hb⟩ := htab r hr
    rw [hb]
    rcases List.mem_cons.mp hx with rfl | hx
    · exact fun he => hrq (h.injective hs hq he)
    · exact h.reaped hx hs
  · show ((s.tab q).birth :: s.reaped.map Reap.child).Nodup
    refine List.nodup_cons.mpr ⟨fun hmem => ?_, h.nodup⟩
    obtain ⟨x, hx, he⟩ := List.mem_map.mp hmem
    exact h.reaped hx hq he.symm

theorem Numbered.turn (h : Numbered s) (hw : Waits initproc s) (ht : Turn initproc c s s') :
    Numbered s' := by
  cases ht with
  | plain htab hcount => exact h.mono (fun r => (htab r).numbered) hcount.2.1 hcount.2.2
  | alloc np hnp hchild htab hcount =>
    exact h.alloc (by rw [hchild]) (fun r hr => (htab r hr).numbered) hcount.2.1 hcount.2.2
  | drop np hnp hchild htab hcount =>
    refine h.mono (fun r hr => ?_) hcount.2.1 hcount.2.2
    by_cases hrn : r = np
    · subst hrn
      rw [hchild] at hr
      exact absurd rfl hr
    · exact (htab r hrn).numbered hr
  | adopt p np hne hpc hnp hchild hself htab hcount =>
    refine h.mono (fun r hr => ?_) hcount.2.1 hcount.2.2
    by_cases hrn : r = np
    · subst hrn
      rw [hchild] at hr ⊢
      exact ⟨hr, rfl⟩
    · exact (quiet_adopt hself htab r hrn).numbered hr
  | exit p hpc hstate he =>
    have hex : Exits initproc p s s' := he ▸ exits (hw.parent p)
    refine h.mono (fun r hr => ⟨?_, hex.birth r⟩) hex.counters.2.1 hex.counters.2.2
    by_cases hrp : r = p
    · rw [hrp, hstate]
      nofun
    · exact hr ∘ (hex.state_eq hrp rfl).mpr
  | reap p q hpc hne hparent hzombie he =>
    subst he
    exact h.reap hne hzombie
  | kill p pid hc hpc he =>
    subst he
    exact h.mono (fun r => (kin_of_kill pid r).numbered) (counters_kill pid).2.1 (counters_kill pid).2.2

theorem Numbered.publish (h : Numbered s) (hne : p ≠ np) (hnp : (s.tab np).state = .embryo) :
    Numbered (s.publish p np) := by
  refine h.mono (fun r hr => ?_) rfl rfl
  by_cases hrn : r = np
  · subst hrn
    rw [tab_publish hne, hnp]
    exact ⟨nofun, rfl⟩
  · exact (keeps_publish hrn).numbered hr

/-! ## Runs -/

variable [DecidableEq C]

theorem Waits.reachable (h : Reachable (· = State.boot initproc) (Step initproc) s) :
    Waits initproc s ∧ Numbered s := by
  have hinv : (∃ home, Inv s home) ∧ Waits initproc s ∧ Numbered s := by
    refine h.invariant (I := fun s => (∃ home, Inv s home) ∧ Waits initproc s ∧ Numbered s) ?_ ?_
    · rintro s rfl
      exact ⟨⟨_, Inv.boot initproc⟩, .boot, .boot⟩
    · rintro s s' ⟨⟨home, hs⟩, hw, hn⟩ ⟨c, a, ha⟩
      rcases turn_step hs ha with ⟨ht, -⟩ | ⟨p, np, hc, hpc, rfl⟩
      · exact ⟨hs.step ha, hw.turn ht, hn.turn hw ht⟩
      · obtain ⟨hne, hnp⟩ := hs.publishes hc hpc
        exact ⟨hs.step ha, hw.publish hne hnp, hn.publish hne hnp⟩
  exact hinv.2

/-- Only `wait` ends a zombie. -/
theorem zombie_step (h : Inv s home) (hw : Waits initproc s) {a : Act}
    (hs : s.step initproc c a = some s') :
    (s'.reaped = s.reaped ∧ ∀ q, (s.tab q).state = .zombie → (s'.tab q).state = .zombie) ∨
    ∃ p q, (s.tab p).pc = .wait ∧ p ≠ q ∧ (s.tab q).parent = some p ∧
      (s.tab q).state = .zombie ∧ s' = s.reap p q := by
  -- an entry that `fork` works on is no zombie
  have hother : ∀ {np st}, (s.tab np).state = st → st ≠ .zombie →
      (∀ r, r ≠ np → Kin (s.tab r) (s'.tab r)) →
      ∀ q, (s.tab q).state = .zombie → (s'.tab q).state = .zombie := by
    intro np st hnp hst htab q hq
    refine ((htab q ?_).state_eq rfl).mpr hq
    rintro rfl
    exact hst (hnp.symm.trans hq)
  rcases turn_step h hs with ⟨ht, -⟩ | ⟨p, np, hc, hpc, rfl⟩
  · cases ht with
    | plain htab hcount =>
      exact .inl ⟨hcount.2.2, fun q => ((htab q).state_eq rfl).mpr⟩
    | alloc np hnp _ htab hcount | drop np hnp _ htab hcount =>
      exact .inl ⟨hcount.2.2, hother hnp nofun fun r hr => (htab r hr).toKin⟩
    | adopt p np hne hpc hnp hchild hself htab hcount =>
      exact .inl ⟨hcount.2.2, hother hnp nofun fun r hr => (quiet_adopt hself htab r hr).toKin⟩
    | exit p hpc hstate he =>
      have hex : Exits initproc p s s' := he ▸ exits (hw.parent p)
      refine .inl ⟨hex.counters.2.2, fun q hq => (hex.state_eq ?_ rfl).mpr hq⟩
      rintro rfl
      rw [hstate] at hq
      cases hq
    | reap p q hpc hne hparent hzombie he => exact .inr ⟨p, q, hpc, hne, hparent, hzombie, he⟩
    | kill p pid hc hpc he =>
      subst he
      exact .inl ⟨(counters_kill pid).2.2, fun q => ((kin_of_kill pid q).state_eq rfl).mpr⟩
  · exact .inl ⟨rfl, hother (h.publishes hc hpc).2 nofun fun r hr => (keeps_publish hr).toKin⟩

/-- **No exit is missed.** Nobody sleeps in `wait` with a zombie for a child. The children that have
been freed are different processes, none of which is in the table any more. And a step that frees a
process is a `wait` of its parent, which returns the pid of the child. -/
theorem no_missed_exit (h : Reachable (· = State.boot initproc) (Step initproc) s) :
    (s.lock = none → ∀ p q, (s.tab p).state = .sleeping → (s.tab p).chan = some (.proc p) →
      (s.tab q).parent = some p → (s.tab q).state ≠ .zombie) ∧
    (s.reaped.map Reap.child).Nodup ∧
    (∀ r ∈ s.reaped, ∀ p, (s.tab p).state ≠ .unused → (s.tab p).birth ≠ r.child) ∧
    ∀ c a s', s.step initproc c a = some s' →
      (s'.reaped = s.reaped ∧ ∀ q, (s.tab q).state = .zombie → (s'.tab q).state = .zombie) ∨
      ∃ p q, (s.tab p).pc = .wait ∧ (s.tab q).parent = some p ∧ (s.tab q).state = .zombie ∧
        s'.reaped = ⟨p, (s.tab q).birth, (s.tab q).pid⟩ :: s.reaped ∧
        (s'.tab q).state = .unused ∧
        (s'.tab p).pc = .spot .user ∧ (s'.tab p).ret = (s.tab q).pid := by
  obtain ⟨home, hinv⟩ := Inv.reachable h
  obtain ⟨hw, hn⟩ := Waits.reachable h
  refine ⟨fun _ p q => hw.noZombie, hn.nodup, fun r hr p => hn.reaped hr, fun c a s' hs => ?_⟩
  rcases zombie_step hinv hw hs with hquiet | ⟨p, q, hpc, hne, hparent, hzombie, rfl⟩
  · exact .inl hquiet
  · have hp : (s.reap p q).tab p = { s.tab p with pc := .spot .user, ret := (s.tab q).pid } := by
      unfold State.reap State.return State.release
      dsimp only
      rw [State.tab_set_self, s.tab_set_of_ne hne]
    refine .inr ⟨p, q, hpc, hparent, hzombie, rfl, ?_, ?_, ?_⟩
    · rw [tab_reap hne]
    · rw [hp]
    · rw [hp]

/-- The first process forks a child and goes to sleep in `wait`; its CPU starts the child. -/
def forkAndSleep : List (Fin 2 × Act) :=
  List.flatten [
    [(0, .go), (0, .go), (0, .go), (0, .fork), (0, .go), (0, .go), (0, .go), (0, .go)],
    [(0, .wait), (0, .go), (0, .go), (0, .go), (0, .go), (0, .go)]]

/-- After that run the child is not a zombie; and after the child has exited before the `wait`, the
`wait` returns its pid. -/
theorem no_missed_exit_child :
    (∃ s : State (Fin 2) 3, run (fun s t => s.step 0 t.1 t.2) (State.boot 0) forkAndSleep = some s ∧
      s.lock = none ∧ (s.tab 0).state = .sleeping ∧ (s.tab 0).chan = some (.proc 0) ∧
      (s.tab 1).parent = some 0 ∧ (s.tab 1).state ≠ .zombie) ∧
    ∃ s s' : State (Fin 2) 3,
      run (fun s t => s.step 0 t.1 t.2) (State.boot 0) (forkAndExit ++ [(0, .wait)]) = some s ∧
      s.step 0 0 .go = some s' ∧ s'.reaped ≠ s.reaped ∧ (s'.reaped.map Reap.child).Nodup := by
  constructor
  · have hend : ((run (fun s t => s.step 0 t.1 t.2) (State.boot 0 : State (Fin 2) 3)
        forkAndSleep).map fun s => decide (s.lock = none ∧ (s.tab 0).state = .sleeping ∧
          (s.tab 0).chan = some (.proc 0) ∧ (s.tab 1).parent = some 0)) = some true := by
      decide +kernel
    obtain ⟨s, hs, hpair⟩ := Option.map_eq_some_iff.mp hend
    obtain ⟨hfree, hsleep, hchan, hparent⟩ := of_decide_eq_true hpair
    have hr : Reachable (· = State.boot 0) (Step 0) s :=
      reachable_of_run (fun s t s' h => ⟨t.1, t.2, h⟩) (.init rfl) hs
    exact ⟨s, hs, hfree, hsleep, hchan, hparent,
      (no_missed_exit hr).1 hfree 0 1 hsleep hchan hparent⟩
  · have hend : ((run (fun s t => s.step 0 t.1 t.2) (State.boot 0 : State (Fin 2) 3)
        (forkAndExit ++ [(0, .wait)])).bind fun s => (s.step 0 0 .go).map fun s' =>
          decide (s'.reaped ≠ s.reaped)) = some true := by
      decide +kernel
    obtain ⟨s, hs, hend⟩ := Option.bind_eq_some_iff.mp hend
    obtain ⟨s', hs', hpair⟩ := Option.map_eq_some_iff.mp hend
    have hr : Reachable (· = State.boot 0) (Step 0) s :=
      reachable_of_run (fun s t s' h => ⟨t.1, t.2, h⟩) (.init rfl) hs
    have hr' : Reachable (· = State.boot 0) (Step 0) s' := hr.step ⟨0, .go, hs'⟩
    exact ⟨s, s', hs, hs', of_decide_eq_true hpair, (no_missed_exit hr').2.1⟩

end Laboratorio.Xv6.Ptable
