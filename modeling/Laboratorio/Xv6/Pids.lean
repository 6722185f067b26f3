import Laboratorio.Xv6.Wait

/-!
# Pids

`nextpid` counts the entries that `allocproc` has taken, so the pid of a process follows from its
number. A `wait` clears the pid of the entry that it frees, but a `fork` that fails does not: the
entry is unused and keeps a stale pid, which no other entry has.
-/

namespace Laboratorio.Xv6.Ptable

open Laboratorio.Reach

variable {C : Type} {n : Nat} {initproc : Fin n} {s s' : State C n} {home : Fin n → Option C} {c : C}
  {p np : Fin n}

/-- **What holds of the pids**, in every state. -/
structure Pids (s : State C n) : Prop where
  next : s.nextpid = s.births + 1
  live : ∀ {q}, (s.tab q).state ≠ .unused → (s.tab q).pid = (s.tab q).birth + 1
  bound : ∀ q, 0 ≤ (s.tab q).pid ∧ (s.tab q).pid < s.nextpid
  /-- No two entries have one pid, also when there is a stale one in an unused entry. -/
  injective : ∀ {p q}, (s.tab p).pid = (s.tab q).pid → (s.tab p).pid ≠ 0 → p = q

theorem Pids.boot : Pids (State.boot initproc : State C n) where
  next := rfl
  live {q} hq := by
    by_cases hqi : q = initproc
    · rw [State.tab_boot, if_pos hqi]
      rfl
    · rw [State.tab_boot, if_neg hqi] at hq
      exact absurd rfl hq
  bound q := by
    show 0 ≤ ((State.boot initproc : State C n).tab q).pid ∧
      ((State.boot initproc : State C n).tab q).pid < 2
    rw [State.tab_boot]
    split <;> dsimp only <;> omega
  injective {p q} he h0 := by
    rw [State.tab_boot] at h0
    rw [State.tab_boot, State.tab_boot] at he
    split at h0
    · next hp =>
      rw [if_pos hp] at he
      split at he
      · next hq => rw [hp, hq]
      · cases he
    · exact absurd rfl h0

/-- A step that gives no pid. -/
theorem Pids.mono (h : Pids s)
    (hpid : ∀ r, (s'.tab r).pid = (s.tab r).pid ∨ (s'.tab r).pid = 0)
    (hlive : ∀ r, (s'.tab r).state ≠ .unused → (s.tab r).state ≠ .unused ∧
      (s'.tab r).pid = (s.tab r).pid ∧ (s'.tab r).birth = (s.tab r).birth)
    (hnext : s'.nextpid = s.nextpid) (hbirths : s'.births = s.births) : Pids s' where
  next := by rw [hnext, hbirths, h.next]
  live {q} hq := by
    obtain ⟨hq, hpid, hbirth⟩ := hlive q hq
    rw [hpid, hbirth]
    exact h.live hq
  bound q := by
    have hq := h.bound q
    rcases hpid q with e | e
    · rw [e, hnext]
      exact hq
    · rw [e, hnext]
      exact ⟨le_rfl, hq.1.trans_lt hq.2⟩
  injective {p q} he h0 := by
    have hp := (hpid p).resolve_right h0
    have hq := (hpid q).resolve_right (he ▸ h0)
    rw [hp] at h0
    rw [hp, hq] at he
    exact h.injective he h0

/-- `allocproc` gives a pid that nobody has. -/
theorem Pids.alloc (h : Pids s)
    (hchild : s'.tab np = { s.tab np with
      state := .embryo, pid := s.nextpid, pc := .forkret, birth := s.births })
    (htab : ∀ r, r ≠ np → Kin (s.tab r) (s'.tab r))
    (hcount : s'.nextpid = s.nextpid + 1 ∧ s'.births = s.births + 1) : Pids s' where
  next := by
    rw [hcount.1, hcount.2, h.next]
    push_cast
    rfl
  live {q} hq := by
    by_cases hqn : q = np
    · rw [hqn, hchild]
      exact h.next
    · rw [(htab q hqn).pid, (htab q hqn).birth]
      exact h.live (hq ∘ ((htab q hqn).state_eq rfl).mpr)
  bound q := by
    have hq := h.bound q
    rw [hcount.1]
    by_cases hqn : q = np
    · rw [hqn, hchild]
      dsimp only
      omega
    · rw [(htab q hqn).pid]
      omega
  injective {p q} he h0 := by
    have hlt : ∀ r, r ≠ np → (s'.tab r).pid ≠ s.nextpid := fun r hr => by
      rw [(htab r hr).pid]
      exact (h.bound r).2.ne
    have hself : (s'.tab np).pid = s.nextpid := by rw [hchild]
    by_cases hpn : p = np
    · by_contra hpq
      refine hlt q (fun e => hpq (hpn.trans e.symm)) ?_
      rw [← he, hpn, hself]
    · by_cases hqn : q = np
      · rw [hqn, hself] at he
        exact absurd he (hlt p hpn)
      · rw [(htab p hpn).pid] at h0
        rw [(htab p hpn).pid, (htab q hqn).pid] at he
        exact h.injective he h0

theorem Kin.live {x y : Proc n} (h : Kin x y) (hy : y.state ≠ .unused) :
    x.state ≠ .unused ∧ y.pid = x.pid ∧ y.birth = x.birth :=
  ⟨hy ∘ (h.state_eq rfl).mpr, h.pid, h.birth⟩

/-- A step that changes one entry, which has a process after it only if it had one before. -/
theorem Pids.of_ne (h : Pids s) (q : Fin n) (htab : ∀ r, r ≠ q → Kin (s.tab r) (s'.tab r))
    (hpid : (s'.tab q).pid = (s.tab q).pid ∨ (s'.tab q).pid = 0)
    (hlive : (s'.tab q).state ≠ .unused → (s.tab q).state ≠ .unused ∧
      (s'.tab q).pid = (s.tab q).pid ∧ (s'.tab q).birth = (s.tab q).birth)
    (hnext : s'.nextpid = s.nextpid) (hbirths : s'.births = s.births) : Pids s' := by
  refine h.mono (fun r => ?_) (fun r hr => ?_) hnext hbirths
  · by_cases hrq : r = q
    · rw [hrq]
      exact hpid
    · exact .inl (htab r hrq).pid
  · by_cases hrq : r = q
    · subst hrq
      exact hlive hr
    · exact (htab r hrq).live hr

theorem Pids.turn (h : Pids s) (hw : Waits initproc s) (ht : Turn initproc c s s') : Pids s' := by
  cases ht with
  | plain htab hcount =>
    exact h.mono (fun r => .inl (htab r).pid) (fun r => (htab r).live) hcount.1 hcount.2.1
  | alloc np hnp hchild htab hcount =>
    exact h.alloc hchild (fun r hr => (htab r hr).toKin) ⟨hcount.1, hcount.2.1⟩
  | drop np hnp hchild htab hcount =>
    refine h.of_ne np (fun r hr => (htab r hr).toKin) (.inl (by rw [hchild])) (fun hs => ?_)
      hcount.1 hcount.2.1
    rw [hchild] at hs
    exact absurd rfl hs
  | adopt p np hne hpc hnp hchild hself htab hcount =>
    refine h.of_ne np (fun r hr => (quiet_adopt hself htab r hr).toKin) (.inl (by rw [hchild]))
      (fun _ => ?_) hcount.1 hcount.2.1
    rw [hchild, hnp]
    exact ⟨nofun, rfl, rfl⟩
  | exit p hpc hstate he =>
    have hex : Exits initproc p s s' := he ▸ exits (hw.parent p)
    refine h.mono (fun r => .inl (hex.pid r)) (fun r hr => ⟨?_, hex.pid r, hex.birth r⟩)
      hex.counters.1 hex.counters.2.1
    by_cases hrp : r = p
    · rw [hrp, hstate]
      nofun
    · exact hr ∘ (hex.state_eq hrp rfl).mpr
  | reap p q hpc hne hparent hzombie he =>
    rw [he]
    refine h.of_ne q (fun r hr => ?_) (.inr (by rw [tab_reap hne])) (fun hs => ?_) rfl rfl
    · exact (keeps_reap hr).toKin
    · rw [tab_reap hne] at hs
      exact absurd rfl hs
  | kill p pid hc hpc he =>
    rw [he]
    have hcount := counters_kill (s := s) (p := p) pid
    exact h.mono (fun r => .inl (kin_of_kill pid r).pid) (fun r => (kin_of_kill pid r).live)
      hcount.1 hcount.2.1

theorem Pids.publish (h : Pids s) (hne : p ≠ np) (hnp : (s.tab np).state = .embryo) :
    Pids (s.publish p np) := by
  have hself := tab_publish (s := s) hne
  refine h.of_ne np (fun r hr => (keeps_publish hr).toKin) (.inl (by rw [hself])) (fun _ => ?_) rfl
    rfl
  rw [hself, hnp]
  exact ⟨nofun, rfl, rfl⟩

theorem Pids.reachable [DecidableEq C]
    (h : Reachable (· = State.boot initproc) (Step initproc) s) : Pids s := by
  induction h with
  | init h0 =>
    rw [h0]
    exact .boot
  | step hr hs ih =>
    obtain ⟨c, a, ha⟩ := hs
    obtain ⟨home, hinv⟩ := Inv.reachable hr
    rcases turn_step hinv ha with ⟨hturn, -⟩ | ⟨p, np, hc, hpc, he⟩
    · exact ih.turn (Waits.reachable hr).1 hturn
    · rw [he]
      obtain ⟨hne, hnp⟩ := hinv.publishes hc hpc
      exact ih.publish hne hnp

end Laboratorio.Xv6.Ptable
