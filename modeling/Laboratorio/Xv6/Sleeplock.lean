import Laboratorio.Lib.Monitor

/-!
# Sleep locks (`xv6/sleeplock.c`)

A sleep lock is a flag, the pid of its holder and the spin lock that guards them; `acquiresleep` and
`releasesleep` are requests of a monitor. Only a process that has the lock releases it, and it does
not acquire it again before.
-/

namespace Laboratorio.Xv6.SleepLock

open Laboratorio.Monitor Laboratorio.Reach

/-- `struct sleeplock` -/
structure Sleeplock where
  locked : Bool
  pid : Int

/-- `initsleeplock` -/
def initsleeplock : Sleeplock := ⟨false, 0⟩

inductive Call where
  | acquiresleep
  | releasesleep
deriving DecidableEq

variable {P : Type} [DecidableEq P]

def calls (pid : P → Int) : Requests P Sleeplock Call where
  calls _ last _ r :=
    match r with
    | .acquiresleep => last != some .acquiresleep
    | .releasesleep => last == some .acquiresleep
  may r lk :=
    match r with
    | .acquiresleep => !lk.locked
    | .releasesleep => true
  act p r _ :=
    match r with
    | .acquiresleep => ⟨true, pid p⟩
    | .releasesleep => ⟨false, 0⟩
  wakes r := r == .releasesleep
  quits _ := false

/-- `holdingsleep`, called by the process with the pid `me` -/
def holdingsleep (lk : Sleeplock) (me : Int) : Bool := lk.locked && lk.pid == me

/-- The process came back from `acquiresleep`, and `releasesleep` has not cleared the flag yet. -/
def holds (last : Option Call) : Bool := last == some .acquiresleep

/-- The flag and the pid are those of the process that has the lock. -/
def Held (pid : P → Int) (lk : Sleeplock) (done : P → Option Call) : Prop :=
  ∃ holder, Reach.Owns holds done holder ∧ lk.locked = holder.isSome ∧
    ∀ p, holder = some p → lk.pid = pid p

variable {pid : P → Int}

theorem calls_sound : Sound (calls pid) (Held pid)
    fun _ r _ last => holds last = (r == .releasesleep) where
  wakes p r r' lk hmay hw hmay' := by
    cases r with
    | acquiresleep =>
      cases r' with
      | acquiresleep => cases hmay'
      | releasesleep => rfl
    | releasesleep => cases hw
  starts p r lk done _ h := by
    cases r <;> simpa [calls, holds] using h
  waits p q r r' lk last h _ := h
  served p r lk done h hp hmay := by
    obtain ⟨holder, howns, hlocked, hpid⟩ := h
    cases r with
    | acquiresleep =>
      obtain rfl : holder = none := by simpa [calls, hlocked] using hmay
      exact ⟨some p, howns.passes (.acquire rfl), rfl, fun q hq => by cases hq; rfl⟩
    | releasesleep => exact ⟨none, howns.passes (.release hp rfl), rfl, fun q hq => by cases hq⟩

/-- **Sleep locks are safe.** Whatever the processes do, one of them at most has the lock at a time,
and `holdingsleep` is true for that one only; and while `lk->lk` is free, a process that sleeps in
`acquiresleep` waits for another that has the lock. -/
theorem sleeplock_safe (hpid : Function.Injective pid) {s : State P Sleeplock Call}
    (hs : Run (calls pid) initsleeplock s) :
    (∀ p q, holds (s.done p) = true → holds (s.done q) = true → p = q) ∧
    (∀ p, holdingsleep s.data (pid p) = holds (s.done p)) ∧
    (s.lk = none → ∀ p, s.stage p = .asleep → s.req p = some .acquiresleep →
      ∃ q, holds (s.done q) = true) := by
  have h := Inv.run calls_sound ⟨none, fun p => by simp [holds], rfl, fun p hp => by cases hp⟩ hs
  obtain ⟨holder, howns, hlocked, hheld⟩ := h.data
  refine ⟨fun p q => howns.unique, fun p => ?_, fun hlk p hp hr => ?_⟩
  · rw [Bool.eq_iff_iff, howns p, holdingsleep, Bool.and_eq_true, beq_iff_eq, hlocked]
    refine ⟨fun ⟨hsome, hp⟩ => ?_, fun hp => ⟨by rw [hp]; rfl, hheld p hp⟩⟩
    obtain ⟨q, rfl⟩ := Option.isSome_iff_exists.mp hsome
    rw [hpid ((hheld q rfl).symm.trans hp)]
  · have hmay := h.asleep hlk hp hr
    have hsome : holder.isSome = true := by simpa [calls, hlocked] using hmay
    obtain ⟨q, rfl⟩ := Option.isSome_iff_exists.mp hsome
    exact ⟨q, (howns q).mpr rfl⟩

/-- Process 0 has the lock, and process 1 goes to sleep. -/
def contended : Option (State (Fin 2) Sleeplock Call) :=
  run (next (calls fun p => (p : Int))) (start initsleeplock)
    [.start 0 .acquiresleep, .test 0, .move 0,
      .start 1 .acquiresleep, .test 1, .move 1, .move 1, .move 1]

theorem sleeplock_safe_contended : ∃ s, contended = some s ∧ s.stage 1 = .asleep ∧
    ∃ q, holds (s.done q) = true := by
  have hpid : Function.Injective fun p : Fin 2 => (p : Int) :=
    fun p q h => Fin.ext (by simpa using h)
  obtain ⟨s, hs, hlk, hp, hr⟩ : ∃ s, contended = some s ∧ s.lk = none ∧ s.stage 1 = .asleep ∧
      s.req 1 = some .acquiresleep := ⟨_, rfl, rfl, rfl, rfl⟩
  exact ⟨s, hs, hp, (sleeplock_safe hpid (.of_run hs)).2.2 hlk 1 hp hr⟩

end Laboratorio.Xv6.SleepLock
