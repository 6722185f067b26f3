import Mathlib

/-!
# Transition systems

A system is given by its initial states and its steps. What holds initially and is kept by every
step holds of every reachable state (`Reachable.invariant`). A system whose steps are computed can
be run on a list of actions, and the run ends in a reachable state (`reachable_of_run`).

In a system of processes, each at a place of its program, the places say who holds a lock: `Owns` is
the agreement between the places and the lock, and `Passes` the ways to keep it.
-/

namespace Laboratorio.Reach

open Function

variable {σ α : Type*}

/-- The states that a system can reach. -/
inductive Reachable (init : σ → Prop) (step : σ → σ → Prop) : σ → Prop
  | init {s : σ} : init s → Reachable init step s
  | step {s s' : σ} : Reachable init step s → step s s' → Reachable init step s'

variable {init : σ → Prop} {step step' : σ → σ → Prop} {s : σ}

/-- **The invariant rule.** -/
theorem Reachable.invariant {I : σ → Prop} (h : Reachable init step s) (hinit : ∀ s, init s → I s)
    (hstep : ∀ s s', I s → step s s' → I s') : I s := by
  induction h with
  | init h0 => exact hinit _ h0
  | step _ hs ih => exact hstep _ _ ih hs

/-- What is reached from a state that is reached. -/
theorem Reachable.trans {s' : σ} (h : Reachable init step s) (h' : Reachable (· = s) step s') :
    Reachable init step s' := by
  induction h' with
  | init h0 =>
    rw [h0]
    exact h
  | step _ hs ih => exact ih.step hs

/-- A system with fewer steps reaches fewer states. -/
theorem Reachable.mono (h : Reachable init step s) (hstep : ∀ s s', step s s' → step' s s') :
    Reachable init step' s := by
  induction h with
  | init h0 => exact .init h0
  | step _ hs ih => exact ih.step (hstep _ _ hs)

/-- The state after a list of actions, if all of them are possible. -/
def run (next : σ → α → Option σ) : σ → List α → Option σ
  | s, [] => some s
  | s, a :: as =>
    match next s a with
    | none => none
    | some s' => run next s' as

theorem reachable_of_run {next : σ → α → Option σ} (hnext : ∀ s a s', next s a = some s' → step s s')
    {as : List α} {s s' : σ} (hs : Reachable init step s) (h : run next s as = some s') :
    Reachable init step s' := by
  induction as generalizing s with
  | nil =>
    cases h
    exact hs
  | cons a as ih =>
    unfold run at h
    split at h
    · cases h
    · next hn => exact ih (hs.step (hnext _ _ _ hn)) h

/-! ## Numbered processes

The tables of the runs below have these sizes; their first place is `0`. With an instance that has a
name, the numerals of all modules rest on the same proof. -/

instance neZero_2 : NeZero 2 := ⟨two_ne_zero⟩
instance neZero_3 : NeZero 3 := ⟨three_ne_zero⟩
instance neZero_8 : NeZero 8 := ⟨by decide⟩
instance neZero_16 : NeZero 16 := ⟨by decide⟩
instance neZero_50 : NeZero 50 := ⟨by decide⟩
instance neZero_64 : NeZero 64 := ⟨by decide⟩
instance neZero_100 : NeZero 100 := ⟨by decide⟩

/-! ## Locks -/

section Locks

variable {P C : Type*} {holds : C → Bool} {pc : P → C} {lock : Option P}

/-- The process that holds the lock is the one at a place where it is held. -/
def Owns (holds : C → Bool) (pc : P → C) (lock : Option P) : Prop :=
  ∀ p, holds (pc p) = true ↔ lock = some p

theorem Owns.unique (h : Owns holds pc lock) {p q : P} (hp : holds (pc p) = true)
    (hq : holds (pc q) = true) : p = q :=
  Option.some.inj (((h p).mp hp).symm.trans ((h q).mp hq))

theorem Owns.congr {pc' : P → C} (h : Owns holds pc lock)
    (hpc : ∀ q, holds (pc' q) = holds (pc q)) : Owns holds pc' lock := fun q => by
  rw [hpc q]
  exact h q

variable [DecidableEq P] {p : P} {c : C}

/-- What a process that goes to the place `c` may do to the lock: nothing, acquire it when it is
free, or release it. -/
inductive Passes (holds : C → Bool) (p : P) (c c' : C) : Option P → Option P → Prop
  | keep {lock : Option P} : holds c' = holds c → Passes holds p c c' lock lock
  | acquire : holds c' = true → Passes holds p c c' none (some p)
  | release {lock : Option P} : holds c = true → holds c' = false → Passes holds p c c' lock none

theorem Owns.passes {lock' : Option P} (h : Owns holds pc lock)
    (hp : Passes holds p (pc p) c lock lock') : Owns holds (update pc p c) lock' := by
  intro q
  by_cases hq : q = p
  · subst hq
    rw [update_self]
    cases hp with
    | keep hc => rw [hc]; exact h q
    | acquire hc => exact iff_of_true hc rfl
    | release _ hc => exact iff_of_false (by rw [hc]; simp) nofun
  · rw [update_of_ne hq]
    cases hp with
    | keep => exact h q
    | acquire =>
      refine iff_of_false (fun hh => ?_) fun e => hq (Option.some.inj e).symm
      cases (h q).mp hh
    | release hp => exact iff_of_false (fun hh => hq (h.unique hh hp)) nofun

end Locks

end Laboratorio.Reach
