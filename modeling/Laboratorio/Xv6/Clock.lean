import Laboratorio.Lib.Monitor

/-!
# The clock (`xv6/trap.c`, `xv6/sysproc.c`)

The timer interrupt of CPU 0 counts `ticks` under `tickslock` and wakes the processes that wait in
`sys_sleep`. The counter wraps around; `count` is the number of interrupts, which the kernel does
not know. A process that is killed leaves `sys_sleep` with -1.
-/

namespace Laboratorio.Xv6.Ticks

open Laboratorio.Monitor Laboratorio.Reach

structure Clock where
  ticks : UInt32
  count : Nat

inductive Call where
  | timer
  /-- `sys_sleep`, and `count` at the time when it read `ticks0` -/
  | sleep (n : Int32) (ticks0 : UInt32) (start : Nat)

variable {P : Type} [DecidableEq P]

/-- The requests of the processes, and of the interrupt (`none`). -/
def calls : Requests (Option P) Clock Call where
  calls p _ k r :=
    match r with
    | .timer => p.isNone
    | .sleep _ ticks0 start => p.isSome && ticks0 == k.ticks && start == k.count
  may r k :=
    match r with
    | .timer => true
    -- the comparison is one of `uint`s
    | .sleep n ticks0 _ => !decide (k.ticks - ticks0 < n.toUInt32)
  act _ r k :=
    match r with
    | .timer => ⟨k.ticks + 1, k.count + 1⟩
    | .sleep .. => k
  wakes r := r matches .timer
  quits r := r matches .sleep ..

/-- `ticks` is what `count` leaves of it in 32 bits. -/
def Counts (k : Clock) : Prop := k.ticks = UInt32.ofNat k.count

/-- What `sys_sleep` has read was so. -/
def Call.Began (k : Clock) : Call → Prop
  | .timer => True
  | .sleep _ ticks0 start => start ≤ k.count ∧ ticks0 = UInt32.ofNat start

theorem calls_sound : Sound (calls (P := P)) (fun k _ => Counts k) fun _ r k _ => r.Began k where
  wakes p r r' k _ hw hmay := by
    cases r with
    | timer => cases hw
    | sleep => exact hmay
  starts p r k done hk h := by
    cases r with
    | timer => trivial
    | sleep n ticks0 start =>
      simp only [calls, Bool.and_eq_true, beq_iff_eq] at h
      exact ⟨h.2.le, by rw [h.1.2, h.2, hk]⟩
  waits p q r r' k last h _ := by
    cases r' with
    | sleep => exact h
    | timer =>
      cases r with
      | timer => trivial
      | sleep => exact ⟨h.1.trans (Nat.le_succ _), h.2⟩
  served p r k done hk _ _ := by
    cases r with
    | sleep => exact hk
    | timer =>
      show k.ticks + 1 = UInt32.ofNat (k.count + 1)
      rw [UInt32.ofNat_add, hk]
      rfl

theorem toNat_elapsed {start count : Nat} (h : start ≤ count) :
    (UInt32.ofNat count - UInt32.ofNat start).toNat = (count - start) % 2 ^ 32 := by
  obtain ⟨e, rfl⟩ := Nat.exists_eq_add_of_le h
  rw [UInt32.ofNat_add, add_sub_cancel_left, UInt32.toNat_ofNat', Nat.add_sub_cancel_left]

/-- **`sys_sleep` sleeps for `n` ticks.** Whatever the processes and the clock do, `ticks` is the
number of interrupts modulo 2^32; a process leaves its loop, and returns 0, only when `n` interrupts
have come since it began; and while `tickslock` is free, a process that sleeps has not had its `n`
interrupts modulo 2^32. -/
theorem sleep_exact {s : State (Option P) Clock Call} (hs : Run calls ⟨0, 0⟩ s) :
    s.data.ticks.toNat = s.data.count % 2 ^ 32 ∧
    ∀ p n ticks0 start, s.req p = some (.sleep n ticks0 start) →
      ((s.stage p).pending = true → (calls (P := P)).may (.sleep n ticks0 start) s.data = true →
        n.toUInt32.toNat ≤ s.data.count - start) ∧
      (s.lk = none → s.stage p = .asleep →
        (s.data.count - start) % 2 ^ 32 < n.toUInt32.toNat) := by
  have h := Inv.run calls_sound (by rfl) hs
  have hticks : s.data.ticks = UInt32.ofNat s.data.count := h.data
  have hmay : ∀ {p n ticks0 start}, (s.stage p).pending = true →
      s.req p = some (.sleep n ticks0 start) →
      ((calls (P := P)).may (.sleep n ticks0 start) s.data = true ↔
        n.toUInt32.toNat ≤ (s.data.count - start) % 2 ^ 32) := by
    intro p n ticks0 start hp hr
    obtain ⟨hle, rfl⟩ := h.waiter p _ hp hr
    simp only [calls, Bool.not_eq_true', decide_eq_false_iff_not, UInt32.lt_iff_toNat_lt, hticks,
      toNat_elapsed hle, Nat.not_lt]
  refine ⟨by rw [hticks, UInt32.toNat_ofNat'], fun p n ticks0 start hr => ⟨fun hp hm => ?_, ?_⟩⟩
  · exact ((hmay hp hr).mp hm).trans (Nat.mod_le _ _)
  · intro hlk hp
    have hfalse := h.asleep hlk hp hr
    rw [← Nat.not_le, ← hmay (by rw [hp]; rfl) hr, hfalse]
    exact Bool.false_ne_true

/-- Process 0 sleeps for two ticks, one of which has come: it has tested its condition again. -/
def slept : Option (State (Option (Fin 2)) Clock Call) :=
  run (next calls) (start ⟨0, 0⟩)
    [.start (some 0) (.sleep 2 0 0), .test (some 0), .move (some 0), .move (some 0), .move (some 0),
      .start none .timer, .test none, .move none, .scan none, .move none,
      .move (some 0), .test (some 0), .move (some 0), .move (some 0), .move (some 0)]

theorem sleep_exact_slept : ∃ s, slept = some s ∧ s.stage (some 0) = .asleep ∧
    (s.data.count - 0) % 2 ^ 32 < 2 := by
  obtain ⟨s, hs, hlk, hp, hr⟩ : ∃ s, slept = some s ∧ s.lk = none ∧ s.stage (some 0) = .asleep ∧
      s.req (some 0) = some (.sleep 2 0 0) := ⟨_, rfl, rfl, rfl, rfl⟩
  exact ⟨s, hs, hp, ((sleep_exact (.of_run hs)).2 (some 0) 2 0 0 hr).2 hlk hp⟩

end Laboratorio.Xv6.Ticks
