import Laboratorio.Lib.Count
import Laboratorio.Xv6.Pipe

/-!
# Wakeups and the end of a pipe

A process that sleeps on a channel of the pipe waits for something that another process has still to
do, or for a process that holds `p->lock` and is bound to call `wakeup` (`Wakes`). So nobody sleeps in
vain while `p->lock` is free (`no_lost_wakeup`), with one exception: a `pipewrite` whose process is
killed returns when the pipe is full, without a `wakeup` for the bytes that it has stored
(`lost_wakeup`).

`Ends` counts the descriptors of both ends, and says that the page of the pipe is freed once, by the
`pipeclose` that finds both ends closed.
-/

namespace Laboratorio.Xv6.Pipes

open Finset Function Laboratorio.Count Laboratorio.Reach

variable {P : Type} [DecidableEq P] {s s' : State P} {p q : P} {a : Act P} {c c' : Pc} {e : End}

/-! ## The ends of the pipe -/

def Pc.job : Pc → Option Job
  | .start j | .run j | .sleep _ _ j | .wakeup _ _ j => some j
  | .idle | .free => none

/-- The process is in a `pipeclose` that has not yet cleared its flag. -/
def Pc.closing (c : Pc) (e : End) : Bool := c.job == some (.close e)

/-- The process is in a `pipeclose` that has cleared its flag. -/
def Pc.finishing (c : Pc) : Bool := c.job == some .closed || c == .free

/-- Descriptors, references and flags agree, and the page is freed at the end. -/
structure Ends [Fintype P] (s : State P) : Prop where
  refs : ∀ e, s.ref e = ∑ p, s.fds p e
  inside : ∀ p j e, (s.pc p).job = some j → j.uses = some e → 0 < s.fds p e
  flags : ∀ e, (s.pipe.isOpen e).toNat =
    (if 0 < s.ref e then 1 else 0) + ∑ p, ((s.pc p).closing e).toNat
  before : ∀ e, s.pipe.isOpen e = true → s.freed = 0 ∧ ∀ p, s.pc p ≠ .free
  after : (∀ e, s.pipe.isOpen e = false) → s.freed + ∑ p, (s.pc p).finishing.toNat = 1

theorem Pc.job_wake (c : Pc) (e : End) : (c.wake e).job = c.job := by
  rcases c.wake_cases e with h | ⟨j, rfl, h⟩ <;> rw [h]
  rfl

theorem Pc.finishing_wake (c : Pc) (e : End) : (c.wake e).finishing = c.finishing := by
  rcases c.wake_cases e with h | ⟨j, rfl, h⟩ <;> rw [h]
  rfl

theorem Pc.closing_wake (c : Pc) (e e' : End) : (c.wake e).closing e' = c.closing e' := by
  rw [Pc.closing, Pc.job_wake]
  rfl

theorem Pc.wake_ne_free (h : c ≠ .free) : c.wake e ≠ .free := by
  rcases c.wake_cases e with hw | ⟨j, -, hw⟩ <;> rw [hw]
  · exact h
  · nofun

/-- A sum over the processes, after one of them has gone on at `c'`. -/
theorem sum_goto [Fintype P] (f : Pc → Bool) (pc : P → Pc) (p : P) (c' : Pc) :
    ∑ q, (f (update pc p c' q)).toNat + (f (pc p)).toNat = ∑ q, (f (pc q)).toNat + (f c').toNat :=
  sum_update (mem_univ p) (fun _ c => (f c).toNat) pc c'

omit [DecidableEq P] in
theorem Ends.ref_pos [Fintype P] (h : Ends s) (hp : 0 < s.fds p e) : 0 < s.ref e := by
  rw [h.refs]
  exact lt_of_lt_of_le hp (single_le_sum (f := fun q => s.fds q e) (fun _ _ => Nat.zero_le _)
    (mem_univ p))

omit [DecidableEq P] in
/-- An end is open as long as there is a descriptor of it. -/
theorem Ends.isOpen [Fintype P] (h : Ends s) (hp : 0 < s.fds p e) : s.pipe.isOpen e = true := by
  have hflag := h.flags e
  rw [if_pos (h.ref_pos hp)] at hflag
  cases ho : s.pipe.isOpen e with
  | true => rfl
  | false =>
    rw [ho, Bool.toNat_false] at hflag
    omega

omit [DecidableEq P] in
theorem Follows.closing (h : Follows s p a c c') (e : End) : c'.closing e = c.closing e := by
  cases h <;> rfl

omit [DecidableEq P] in
/-- Reading and writing starts with a descriptor. -/
theorem Follows.inside (h : Follows s p a c c')
    (hc : ∀ j e, c.job = some j → j.uses = some e → 0 < s.fds p e) {j : Job}
    (hj : c'.job = some j) (hu : j.uses = some e) : 0 < s.fds p e := by
  cases h with
  | read hfd | write hfd =>
    cases hj
    cases hu
    exact hfd
  | start | locked | falling | asleep | resumed | relock | back | waking => exact hc j e hj hu
  | closedLast | closedFirst | leave => cases hj
  | _ =>
    cases hj
    exact hc _ e rfl hu

omit [DecidableEq P] in
theorem Follows.finishing (h : Follows s p a c c') (hclosed : ∀ e, s.pipe.isOpen e = false) :
    c'.finishing = c.finishing := by
  cases h with
  | closedFirst ho =>
    rw [hclosed] at ho
    cases ho
  | _ => rfl

omit [DecidableEq P] in
/-- The page is only freed when both ends are closed. -/
theorem Follows.free (h : Follows s p a c .free) (e : End) : s.pipe.isOpen e = false := by
  cases h with
  | closedLast hclosed => exact hclosed e

theorem Pc.locks_of_finishing {pipe : Pipe} (hok : c.Ok pipe) (h : c.finishing = true)
    (hfree : c ≠ .free) : c.locks = true := by
  cases c with
  | idle => cases h
  | start j | sleep _ _ j =>
    -- a `pipeclose` does not start in the middle
    cases j with
    | closed => simp [Pc.Ok, Job.fresh] at hok
    | _ => cases h
  | run | wakeup => rfl
  | free => exact absurd rfl hfree

section

variable [Fintype P]

/-- A process goes on, and neither a flag nor a descriptor changes. -/
theorem Ends.quiet (h : Ends s) (hpc : s'.pc = update s.pc p c') (href : s'.ref = s.ref)
    (hfds : s'.fds = s.fds) (hopen : s'.pipe.isOpen = s.pipe.isOpen) (hfreed : s'.freed = s.freed)
    (hinside : ∀ j e, c'.job = some j → j.uses = some e → 0 < s.fds p e)
    (hclosing : ∀ e, c'.closing e = (s.pc p).closing e)
    (hfin : (∀ e, s.pipe.isOpen e = false) → c'.finishing = (s.pc p).finishing)
    (hfree : c' = .free → ∀ e, s.pipe.isOpen e = false) : Ends s' := by
  refine ⟨?_, fun q j e hj hu => ?_, fun e => ?_, fun e ho => ?_, fun hclosed => ?_⟩
  · rw [href, hfds]
    exact h.refs
  · rw [hpc, update_apply] at hj
    rw [hfds]
    split at hj
    · next hq =>
      subst hq
      exact hinside j e hj hu
    · exact h.inside q j e hj hu
  · have hsum := sum_goto (Pc.closing · e) s.pc p c'
    have hflags := h.flags e
    rw [hclosing e] at hsum
    rw [hopen, href, hpc]
    omega
  · rw [hopen] at ho
    obtain ⟨hzero, hnot⟩ := h.before e ho
    refine ⟨hfreed.trans hzero, fun q => ?_⟩
    rw [hpc, update_apply]
    split
    · intro hc
      rw [hfree hc e] at ho
      cases ho
    · exact hnot q
  · rw [hopen] at hclosed
    have hsum := sum_goto Pc.finishing s.pc p c'
    have hafter := h.after hclosed
    rw [hfin hclosed] at hsum
    rw [hfreed, hpc]
    omega

/-- A process clears the flag of an end. -/
theorem Ends.closeEnd (h : Ends s) (hpr : Protocol s) (hp : s.pc p = .run (.close e)) :
    Ends ({ s with pipe := s.pipe.close e }.goto p (.wakeup e.other false .closed)) := by
  have hself : ((s.pc p).closing e).toNat = 1 := by
    rw [hp]
    simp [Pc.closing, Pc.job]
  -- the end is open, and has no descriptors
  have hle : ((s.pc p).closing e).toNat ≤ ∑ q, ((s.pc q).closing e).toNat :=
    single_le_sum (f := fun q => ((s.pc q).closing e).toNat) (fun _ _ => Nat.zero_le _) (mem_univ p)
  have hflag := h.flags e
  have hone := (s.pipe.isOpen e).toNat_le
  have hopen : s.pipe.isOpen e = true := by
    cases ho : s.pipe.isOpen e with
    | true => rfl
    | false =>
      rw [ho, Bool.toNat_false] at hflag
      omega
  obtain ⟨hzero, hnot⟩ := h.before e hopen
  refine ⟨h.refs, fun q j e' hj hu => ?_, fun e' => ?_, fun e' ho => ?_, fun hclosed => ?_⟩
  · rw [State.goto_pc, update_apply] at hj
    split at hj
    · cases hj
      cases hu
    · exact h.inside q j e' hj hu
  · have hsum := sum_goto (Pc.closing · e') s.pc p (.wakeup e.other false .closed)
    have hnew : (Pc.closing (.wakeup e.other false .closed) e').toNat = 0 := rfl
    show (update s.pipe.isOpen e false e').toNat = (if 0 < s.ref e' then 1 else 0) +
      ∑ q, ((update s.pc p (.wakeup e.other false .closed) q).closing e').toNat
    by_cases he : e' = e
    · subst he
      rw [update_self, Bool.toNat_false]
      omega
    · have hold : ((s.pc p).closing e').toNat = 0 := by
        rw [hp]
        simp [Pc.closing, Pc.job, Ne.symm he]
      have hflags := h.flags e'
      rw [update_of_ne he]
      omega
  · refine ⟨hzero, fun q => ?_⟩
    rw [State.goto_pc, update_apply]
    split
    · nofun
    · exact hnot q
  · -- nobody else is in `pipeclose` after its flag, since this process has the lock
    have hnone : ∑ q, (s.pc q).finishing.toNat = 0 := sum_eq_zero fun q _ => by
      cases hf : (s.pc q).finishing with
      | false => rfl
      | true =>
        have hq := hpr.lock.unique (Pc.locks_of_finishing (hpr.jobs q) hf (hnot q))
          (q := p) (by rw [hp]; rfl)
        rw [hq, hp] at hf
        cases hf
    have hsum := sum_goto Pc.finishing s.pc p (.wakeup e.other false .closed)
    have hold : ((s.pc p).finishing).toNat = 0 := by rw [hp]; rfl
    have hnew : (Pc.finishing (.wakeup e.other false .closed)).toNat = 1 := rfl
    show s.freed + ∑ q, (update s.pc p (.wakeup e.other false .closed) q).finishing.toNat = 1
    omega

/-- A process frees the page. -/
theorem Ends.kfree (h : Ends s) (hp : s.pc p = .free) :
    Ends ({ s with freed := s.freed + 1 }.goto p .idle) := by
  refine ⟨h.refs, fun q j e hj hu => ?_, fun e => ?_, fun e ho => ?_, fun hclosed => ?_⟩
  · rw [State.goto_pc, update_apply] at hj
    split at hj
    · cases hj
    · exact h.inside q j e hj hu
  · have hsum := sum_goto (Pc.closing · e) s.pc p .idle
    have hflags := h.flags e
    have hold : ((s.pc p).closing e).toNat = 0 := by rw [hp]; rfl
    have hnew : (Pc.closing .idle e).toNat = 0 := rfl
    show (s.pipe.isOpen e).toNat = (if 0 < s.ref e then 1 else 0) +
      ∑ q, ((update s.pc p .idle q).closing e).toNat
    omega
  · exact absurd hp ((h.before e ho).2 p)
  · have hsum := sum_goto Pc.finishing s.pc p .idle
    have hafter := h.after hclosed
    have hold : ((s.pc p).finishing).toNat = 1 := by rw [hp]; rfl
    have hnew : (Pc.finishing .idle).toNat = 0 := rfl
    show s.freed + 1 + ∑ q, (update s.pc p .idle q).finishing.toNat = 1
    omega

/-- The descriptors of an end, after one process has `n` of them. -/
theorem sum_setFds (fds : P → End → Nat) (q : P) (e e' : End) (n : Nat) :
    ∑ r, update fds q (update (fds q) e n) r e' + fds q e' =
      ∑ r, fds r e' + update (fds q) e n e' :=
  sum_update (mem_univ q) (fun _ f => f e') fds _

/-- The references of an end change with the descriptors of one process. -/
theorem Ends.refs_update (h : Ends s) {m n : Nat} (hn : n + s.fds q e = s.ref e + m) (e' : End) :
    update s.ref e n e' = ∑ r, update s.fds q (update (s.fds q) e m) r e' := by
  have hsum := sum_setFds s.fds q e e' m
  have href := h.refs e'
  by_cases he : e' = e
  · subst he
    rw [update_self] at hsum ⊢
    omega
  · rw [update_of_ne he] at hsum ⊢
    omega

omit [DecidableEq P] in
/-- An end that keeps some of its references stays open. -/
theorem Ends.flags_update (h : Ends s) (hpos : 0 < s.ref e) {n : Nat} (hn : 0 < n) (e' : End) :
    (s.pipe.isOpen e').toNat = (if 0 < update s.ref e n e' then 1 else 0) +
      ∑ r, ((s.pc r).closing e').toNat := by
  have hflags := h.flags e'
  by_cases he : e' = e
  · subst he
    rw [if_pos hpos] at hflags
    rwa [update_self, if_pos hn]
  · rwa [update_of_ne he]

/-- A descriptor of an end is made. -/
theorem Ends.share (h : Ends s) (hfd : 0 < s.fds p e) :
    Ends ({ s with ref := update s.ref e (s.ref e + 1) }.setFds q e (s.fds q e + 1)) := by
  refine ⟨h.refs_update (by omega), fun r j e' hj hu => ?_,
    h.flags_update (h.ref_pos hfd) (Nat.succ_pos _), h.before, h.after⟩
  have hold := h.inside r j e' hj hu
  show 0 < update s.fds q (update (s.fds q) e (s.fds q e + 1)) r e'
  by_cases hr : r = q
  · subst hr
    rw [update_self, update_apply]
    split
    · omega
    · exact hold
  · rw [update_of_ne hr]
    exact hold

/-- A descriptor of an end is closed. -/
theorem Ends.close (h : Ends s) (hp : s.pc p = .idle) (hfd : 0 < s.fds p e) : Ends (s.close p e) := by
  have hpos := h.ref_pos hfd
  have hrefs : ∀ e', update s.ref e (s.ref e - 1) e' =
      ∑ r, update s.fds p (update (s.fds p) e (s.fds p e - 1)) r e' := h.refs_update (by omega)
  -- the other processes keep their descriptors, and this one is not inside
  have hinside : ∀ r j e', r ≠ p → (s.pc r).job = some j → j.uses = some e' →
      0 < update s.fds p (update (s.fds p) e (s.fds p e - 1)) r e' :=
    fun r j e' hr hj hu => by
      rw [update_of_ne hr]
      exact h.inside r j e' hj hu
  unfold State.close
  split
  · next hmany =>
    refine ⟨hrefs, fun r j e' hj hu => hinside r j e' ?_ hj hu, h.flags_update hpos hmany, h.before,
      h.after⟩
    rintro rfl
    rw [State.setFds, hp] at hj
    cases hj
  · next hlast =>
    refine ⟨hrefs, fun r j e' hj hu => ?_, fun e' => ?_, fun e' ho => ?_, fun hclosed => ?_⟩
    · rw [State.goto_pc, update_apply] at hj
      split at hj
      · cases hj
        cases hu
      · next hr => exact hinside r j e' hr hj hu
    · have hflags := h.flags e'
      have hsum := sum_goto (Pc.closing · e') s.pc p (.start (.close e))
      have hold : ((s.pc p).closing e').toNat = 0 := by rw [hp]; rfl
      show (s.pipe.isOpen e').toNat =
        (if 0 < update s.ref e (s.ref e - 1) e' then 1 else 0) +
          ∑ r, ((update s.pc p (.start (.close e)) r).closing e').toNat
      by_cases he : e' = e
      · subst he
        have hnew : (Pc.closing (.start (.close e')) e').toNat = 1 := by simp [Pc.closing, Pc.job]
        rw [if_pos hpos] at hflags
        rw [update_self, if_neg hlast]
        omega
      · have hnew : (Pc.closing (.start (.close e)) e').toNat = 0 := by
          simp [Pc.closing, Pc.job, Ne.symm he]
        rw [update_of_ne he]
        omega
    · obtain ⟨hzero, hnot⟩ := h.before e' ho
      refine ⟨hzero, fun r => ?_⟩
      rw [State.goto_pc, update_apply]
      split
      · nofun
      · exact hnot r
    · have hsum := sum_goto Pc.finishing s.pc p (.start (.close e))
      have hafter := h.after hclosed
      have hold : ((s.pc p).finishing).toNat = 0 := by rw [hp]; rfl
      have hnew : (Pc.finishing (.start (.close e))).toNat = 0 := rfl
      show s.freed + ∑ r, (update s.pc p (.start (.close e)) r).finishing.toNat = 1
      omega

omit [DecidableEq P] in
/-- Waking processes changes nothing about the ends. -/
theorem Ends.wakeup1 (h : Ends s) (e : End) : Ends (s.wakeup1 e) := by
  refine ⟨h.refs, fun q j e' hj => ?_, fun e' => ?_, fun e' ho => ?_, fun hclosed => ?_⟩
  · have hj : ((s.pc q).wake e).job = some j := hj
    rw [Pc.job_wake] at hj
    exact h.inside q j e' hj
  · have hsame : ∀ q, ((s.wakeup1 e).pc q).closing e' = (s.pc q).closing e' :=
      fun q => (s.pc q).closing_wake e e'
    simp only [hsame]
    exact h.flags e'
  · obtain ⟨hzero, hnot⟩ := h.before e' ho
    exact ⟨hzero, fun q => Pc.wake_ne_free (hnot q)⟩
  · have hsame : ∀ q, ((s.wakeup1 e).pc q).finishing = (s.pc q).finishing :=
      fun q => (s.pc q).finishing_wake e
    simp only [hsame]
    exact h.after hclosed

theorem Ends.effect (h : Ends s) (hpr : Protocol s) (he : Effect s p a s') : Ends s' := by
  cases he with
  | move hp hf _ _ =>
    subst hp
    exact h.quiet rfl rfl rfl rfl rfl (fun j e hj hu => hf.inside (h.inside p) hj hu)
      (fun e => hf.closing e) hf.finishing (fun hfree => by subst hfree; exact hf.free)
  | @get n got hp =>
    refine h.quiet rfl rfl rfl rfl rfl (fun j e hj hu => ?_) (fun e => by rw [hp]; rfl)
      (fun _ => by rw [hp]; rfl) nofun
    cases hj
    exact h.inside p (.copy n got) e (by rw [hp]; rfl) hu
  | @put n b left hp =>
    refine h.quiet rfl rfl rfl rfl rfl (fun j e hj hu => ?_) (fun e => by rw [hp]; rfl)
      (fun _ => by rw [hp]; rfl) nofun
    cases hj
    exact h.inside p (.write n (b :: left)) e (by rw [hp]; rfl) hu
  | closeEnd hp => exact h.closeEnd hpr hp
  | @wake e j hp =>
    have hself : (s.wakeup1 e).pc p = .wakeup e true j := by
      show (s.pc p).wake e = _
      rw [hp]
      rfl
    refine (h.wakeup1 e).quiet rfl rfl rfl rfl rfl (fun j' e' hj hu => ?_)
      (fun e' => by rw [hself]; rfl) (fun _ => by rw [hself]; rfl) nofun
    cases hj
    exact h.inside p j e' (by rw [hp]; rfl) hu
  | kfree hp => exact h.kfree hp
  | share hfd => exact h.share hfd
  | close hp hfd => exact h.close hp hfd
  | kill =>
    have hjob : (((s.pc p).wake .read).wake .write).job = (s.pc p).job := by
      rw [Pc.job_wake, Pc.job_wake]
    refine h.quiet rfl rfl rfl rfl rfl (fun j e hj => ?_) (fun e => ?_) (fun _ => ?_)
      (fun hfree e => ?_)
    · rw [hjob] at hj
      exact h.inside p j e hj
    · rw [Pc.closing_wake, Pc.closing_wake]
    · rw [Pc.finishing_wake, Pc.finishing_wake]
    · by_contra ho
      have hnot := (h.before e (by simpa using ho)).2 p
      exact Pc.wake_ne_free (Pc.wake_ne_free hnot) hfree

end

/-! ## Wakeups -/

/-- The process sleeps on the channel of an end, or has decided to. -/
def Pc.waits (e : End) : Pc → Bool
  | .sleep e' .calling _ | .sleep e' .locked _ | .sleep e' .falling _ | .sleep e' .asleep _ => e' == e
  | _ => false

/-- The process is bound to wake the channel of an end: it is in `wakeup`, or in the loop of
`pipewrite` or `piperead` before it. -/
def Pc.owes (e : End) : Pc → Bool
  | .run (.write _ _) => e == .read
  | .run (.copy _ _) => e == .write
  | .wakeup e' _ _ => e' == e
  | _ => false

/-- Who waits is blocked by the pipe, or will be woken. -/
def Wakes (s : State P) : Prop :=
  ∀ p e, (s.pc p).waits e = true → s.pipe.blocks e = true ∨ ∃ q, (s.pc q).owes e = true

/-- The next step of process `p` leaves `pipewrite` because it is killed, while a reader waits. -/
def State.Loses (s : State P) (p : P) : Prop :=
  (∃ n b left, s.pc p = .run (.write n (b :: left))) ∧ s.pipe.full = true ∧ s.killed p = true ∧
    ∃ q, (s.pc q).waits .read = true

theorem Pc.locks_of_owes (h : c.owes e = true) : c.locks = true := by
  cases c with
  | run | wakeup => rfl
  | _ => cases h

omit [DecidableEq P] in
/-- The process that has `p->lock` is the only one that can be bound to wake others. -/
theorem Wakes.blocks (h : Wakes s) (hpr : Protocol s) (hl : (s.pc p).locks = true)
    (ho : (s.pc p).owes e = false) (hq : (s.pc q).waits e = true) : s.pipe.blocks e = true := by
  rcases h q e hq with hb | ⟨r, hr⟩
  · exact hb
  · have hrp := hpr.lock.unique (Pc.locks_of_owes hr) hl
    rw [hrp, ho] at hr
    cases hr

/-- A process goes on, and the others wait as before. -/
theorem Wakes.goto (h : Wakes s) (hpc : s'.pc = update s.pc p c') (hpipe : s'.pipe = s.pipe)
    (hwaits : ∀ e, c'.waits e = true → (s.pc p).waits e = true ∨ s.pipe.blocks e = true)
    (howes : ∀ q e, (s.pc q).waits e = true → (s.pc p).owes e = true → c'.owes e = true) :
    Wakes s' := by
  have hself : ∀ q e, (s.pc q).waits e = true → s.pipe.blocks e = true ∨
      ∃ r, (update s.pc p c' r).owes e = true := fun q e hq => by
    refine (h q e hq).imp_right fun ⟨r, hr⟩ => ?_
    by_cases hrp : r = p
    · subst hrp
      exact ⟨r, by rw [update_self]; exact howes q e hq hr⟩
    · exact ⟨r, by rw [update_of_ne hrp]; exact hr⟩
  intro q e hq
  rw [hpc, hpipe] at *
  by_cases hqp : q = p
  · subst hqp
    rw [update_self] at hq
    rcases hwaits e hq with hold | hb
    · exact hself q e hold
    · exact .inl hb
  · rw [update_of_ne hqp] at hq
    exact hself q e hq

omit [DecidableEq P] in
theorem Follows.waits (h : Follows s p a c c') (hok : c.Ok s.pipe) (hw : c'.waits e = true) :
    c.waits e = true ∨ s.pipe.blocks e = true := by
  cases h with
  | readSleep hb =>
    cases e with
    | read => exact .inr hb
    | write => cases hw
  | wait =>
    cases e with
    | read => cases hw
    | write => exact .inr hok
  | locked | falling | asleep => exact .inl hw
  | _ => cases hw

omit [DecidableEq P] in
/-- A process that is bound to wake others stays so until it does, unless `pipewrite` fails. -/
theorem Follows.owes (h : Follows s p a c c') (ho : c.owes e = true) :
    c'.owes e = true ∨ e = .read ∧ (∃ n b left, c = .run (.write n (b :: left))) ∧ a = .next ∧
      s.pipe.full = true ∧ (s.pipe.isOpen .read = false ∨ s.killed p = true) := by
  cases h with
  | copied | wrote | writeFull =>
    cases e with
    | read => first | exact .inl rfl | cases ho
    | write => first | exact .inl rfl | cases ho
  | writeFails ha hfull hb =>
    cases e with
    | read => exact .inr ⟨rfl, ⟨_, _, _, rfl⟩, ha, hfull, hb⟩
    | write => cases ho
  | waking => exact .inl ho
  | _ => cases ho

/-- Readers sleep on the channel of the read end, and writers on that of the write end. -/
theorem Pc.uses_of_waits {pipe : Pipe} (hok : c.Ok pipe) (h : c.waits e = true) :
    ∃ j, c.job = some j ∧ j.uses = some e := by
  rcases c with _ | _ | _ | ⟨e', stage, j⟩ | _ | _
  case sleep =>
    have he : e' = e := by
      cases stage <;> first | exact beq_iff_eq.mp h | cases h
    exact ⟨j, rfl, he ▸ hok.2⟩
  all_goals cases h

/-- After `wakeup1`, a process that waits has a lock. -/
theorem Pc.locked_of_waits_wake (h : (c.wake e).waits e = true) :
    c.locks = true ∨ c.locksPtable = true := by
  rcases c with _ | _ | _ | ⟨e', stage, j⟩ | _ | _
  case sleep =>
    cases stage with
    | calling | locked => exact .inl rfl
    | falling => exact .inr rfl
    | asleep =>
      simp only [Pc.wake] at h
      split at h
      · cases h
      · next hne => exact absurd (beq_iff_eq.mp h) hne
    | _ => cases h
  all_goals cases h

theorem Pc.waits_of_wake {e' : End} (h : (c.wake e').waits e = true) : c.waits e = true := by
  rcases c.wake_cases e' with hw | ⟨j, -, hw⟩ <;> rw [hw] at h
  · exact h
  · cases h

theorem Pc.owes_wake (c : Pc) (e e' : End) : (c.wake e').owes e = c.owes e := by
  rcases c.wake_cases e' with hw | ⟨j, rfl, hw⟩ <;> rw [hw]
  rfl

theorem Pipe.blocks_close (pipe : Pipe) (e : End) : (pipe.close e).blocks e = pipe.blocks e := by
  cases e <;> rfl

section

variable [Fintype P]

/-- A pipe with an open reader does not lose its last reader. -/
theorem Wakes.move (h : Wakes s) (hpr : Protocol s) (hends : Ends s)
    (hok : a = .next → ¬ s.Loses p) (hf : Follows s p a (s.pc p) c') {lock ptable : Option P} :
    Wakes ({ s with lock := lock, ptable := ptable }.goto p c') := by
  refine h.goto rfl rfl (fun e hw => hf.waits (hpr.jobs p) hw) fun q e hq ho => ?_
  rcases hf.owes ho with howes | ⟨rfl, hwrite, ha, hfull, hclosed | hkilled⟩
  · exact howes
  · -- the reader that waits has a descriptor
    obtain ⟨j, hj, hu⟩ := Pc.uses_of_waits (hpr.jobs q) hq
    rw [hends.isOpen (hends.inside q j .read hj hu)] at hclosed
    cases hclosed
  · exact absurd ⟨hwrite, hfull, hkilled, q, hq⟩ (hok ha)

theorem Wakes.effect (h : Wakes s) (hpr : Protocol s) (hends : Ends s)
    (hok : a = .next → ¬ s.Loses p) (he : Effect s p a s') : Wakes s' := by
  cases he with
  | move hp hf _ _ =>
    subst hp
    exact h.move hpr hends hok hf
  | @get n got hp hempty =>
    intro q e hq
    rw [State.goto_pc, update_apply] at hq
    split at hq
    · cases hq
    · cases e with
      | read =>
        -- nobody waits for bytes while there are some
        have hb := h.blocks hpr (p := p) (by rw [hp]; rfl) (by rw [hp]; rfl) hq
        simp [Pipe.blocks, hempty] at hb
      | write => exact .inr ⟨p, by rw [State.goto_pc, update_self]; rfl⟩
  | @put n b left hp hfull =>
    intro q e hq
    rw [State.goto_pc, update_apply] at hq
    split at hq
    · cases hq
    · cases e with
      | read => exact .inr ⟨p, by rw [State.goto_pc, update_self]; rfl⟩
      | write =>
        have hb := h.blocks hpr (p := p) (by rw [hp]; rfl) (by rw [hp]; rfl) hq
        simp [Pipe.blocks, hfull] at hb
  | @closeEnd e' hp =>
    intro q e hq
    rw [State.goto_pc, update_apply] at hq
    split at hq
    · cases hq
    · by_cases he : e = e'
      · subst he
        have hb := h.blocks hpr (p := p) (by rw [hp]; rfl) (by rw [hp]; rfl) hq
        exact .inl ((Pipe.blocks_close s.pipe e).trans hb)
      · have hother : e'.other = e := by
          cases e <;> cases e' <;> first | rfl | exact absurd rfl he
        refine .inr ⟨p, ?_⟩
        rw [State.goto_pc, update_self, hother]
        exact beq_self_eq_true e
  | @wake e' j hp =>
    have hl : (s.pc p).locks = true := by rw [hp]; rfl
    have ht : (s.pc p).locksPtable = true := by rw [hp]; rfl
    intro q e hq
    rw [State.goto_pc, update_apply] at hq
    split at hq
    · cases hq
    · next hqp =>
      have hq : ((s.pc q).wake e').waits e = true := hq
      by_cases he : e = e'
      · -- this process has both locks, so nobody is about to sleep
        subst he
        rcases Pc.locked_of_waits_wake hq with hlq | htq
        · exact absurd (hpr.lock.unique hlq hl) hqp
        · exact absurd (hpr.ptable.unique htq ht) hqp
      · have hnot : (s.pc p).owes e = false := by
          rw [hp]
          exact beq_eq_false_iff_ne.mpr (Ne.symm he)
        exact .inl (h.blocks hpr hl hnot (Pc.waits_of_wake hq))
  | kfree hp =>
    refine h.goto rfl rfl (fun _ h => by cases h) fun q e _ ho => ?_
    rw [hp] at ho
    cases ho
  | share => exact h
  | close hp =>
    unfold State.close
    split
    · exact h
    · refine h.goto rfl rfl (fun _ h => by cases h) fun q e _ ho => ?_
      rw [hp] at ho
      cases ho
  | kill =>
    refine h.goto rfl rfl (fun e hw => .inl (Pc.waits_of_wake (Pc.waits_of_wake hw)))
      fun q e _ ho => ?_
    rw [Pc.owes_wake, Pc.owes_wake]
    exact ho

/-- The steps of a run in which no process leaves `pipewrite` because it is killed while a reader
waits. -/
def Wary (s : State P) (p : P) (a : Act P) : Prop := a = .next → ¬ s.Loses p

theorem Ends.create (p : P) (data : Nat → UInt8) (killed : P → Bool) :
    Ends (State.create p data killed) := by
  refine ⟨fun e => ?_, fun q j e hj => ?_, fun e => ?_, fun e _ => ⟨rfl, fun q => nofun⟩,
    fun hclosed => ?_⟩
  · simp [State.create]
  · cases hj
  · simp [State.create, Pc.closing, Pc.job]
  · cases hclosed .read

theorem reachable_wakes (h : Reachable Wary s) : Protocol s ∧ Ends s ∧ Wakes s := by
  refine Reach.Reachable.invariant (I := fun s => Protocol s ∧ Ends s ∧ Wakes s) h ?_ ?_
  · rintro _ ⟨p, data, killed, rfl⟩
    exact ⟨.create p data killed, .create p data killed, nofun⟩
  · rintro s s' ⟨hpr, hends, hw⟩ ⟨p, a, hok, ha⟩
    have heff := effect_step ha
    exact ⟨hpr.effect heff, hends.effect hpr heff, hw.effect hpr hends hok heff⟩

omit [DecidableEq P] in
/-- When both ends are closed, nobody is inside but the process that frees the page. -/
theorem Ends.idle (h : Ends s) (hclosed : ∀ e, s.pipe.isOpen e = false)
    (hp : (s.pc p).finishing = false) : s.pc p = .idle := by
  have hjob : ∀ j, (s.pc p).job ≠ some j := fun j hj => by
    cases hu : j.uses with
    | some e =>
      have hopen := h.isOpen (h.inside p j e hj hu)
      rw [hclosed] at hopen
      cases hopen
    | none =>
      cases j with
      | close e =>
        have hflag := h.flags e
        have hone : ((s.pc p).closing e).toNat = 1 := by simp [Pc.closing, hj]
        have hle := single_le_sum (f := fun q => ((s.pc q).closing e).toNat)
          (fun _ _ => Nat.zero_le _) (mem_univ p)
        rw [hclosed, Bool.toNat_false] at hflag
        simp only [hone] at hle
        omega
      | closed => simp [Pc.finishing, hj] at hp
      | _ => cases hu
  cases hpc : s.pc p with
  | idle => rfl
  | free =>
    rw [hpc] at hp
    cases hp
  | start j | run j | sleep _ _ j | wakeup _ _ j => exact absurd (by rw [hpc]; rfl) (hjob j)

/-- **No wakeup is lost** in a run in which no process leaves `pipewrite` because it is killed while a
reader waits; and the page is freed once, by the `pipeclose` that finds both ends closed, when nobody
else is inside. -/
theorem no_lost_wakeup (h : Reachable Wary s) :
    (s.lock = none →
      (∀ p j, s.pc p = .sleep .read .asleep j →
        s.pipe.empty = true ∧ s.pipe.isOpen .write = true) ∧
      ∀ p j, s.pc p = .sleep .write .asleep j →
        s.pipe.full = true ∧ s.pipe.isOpen .read = true) ∧
    ((∃ e, s.pipe.isOpen e = true) → s.freed = 0) ∧
    ((∀ e, s.pipe.isOpen e = false) →
      (s.freed = 0 ∧ ∃! p, (s.pc p).finishing = true) ∨ (s.freed = 1 ∧ ∀ p, s.pc p = .idle)) := by
  obtain ⟨hpr, hends, hwakes⟩ := reachable_wakes h
  refine ⟨fun hfree => ?_, fun ⟨e, he⟩ => (hends.before e he).1, fun hclosed => ?_⟩
  · have hblocks : ∀ p e j, s.pc p = .sleep e .asleep j → s.pipe.blocks e = true := by
      intro p e j hp
      refine (hwakes p e (by rw [hp]; exact beq_self_eq_true e)).resolve_right ?_
      rintro ⟨q, hq⟩
      have hlock := (hpr.lock q).mp (Pc.locks_of_owes hq)
      rw [hfree] at hlock
      cases hlock
    refine ⟨fun p j hp => ?_, fun p j hp => ?_⟩
    · simpa [Pipe.blocks] using hblocks p .read j hp
    · simpa [Pipe.blocks] using hblocks p .write j hp
  · have hafter := hends.after hclosed
    rcases Nat.eq_zero_or_pos s.freed with hzero | hpos
    · exact .inl ⟨hzero, existsUnique_of_sum_eq_one (by omega)⟩
    · refine .inr ⟨by omega, fun p => hends.idle hclosed ?_⟩
      have hsum : ∑ q, (s.pc q).finishing.toNat = 0 := by omega
      simpa using (sum_eq_zero_iff.mp hsum) p (mem_univ p)

end

/-- A process waits for a byte. -/
def waitForByte : List (Bool × Act Bool) :=
  [(true, .share false .read), (false, .read 1)] ++ List.replicate 5 (false, .next)

/-- A step of a process that is not killed. -/
def State.stepAlive (s : State Bool) (a : Bool × Act Bool) : Option (State Bool) :=
  if s.killed a.1 then none else s.step a.1 a.2

/-- The end of `waitForByte`. -/
def waitForByteEnd : State Bool :=
  (run State.stepAlive (State.create true 0 fun _ => false) waitForByte).get (by decide +kernel)

theorem no_lost_wakeup_waitForByte : Reachable Wary waitForByteEnd ∧
    waitForByteEnd.pc false = .sleep .read .asleep (.read 1) ∧
    waitForByteEnd.pipe.empty = true ∧ waitForByteEnd.pipe.isOpen .write = true := by
  have halive : ∀ s a s', State.stepAlive s a = some s' →
      ∃ p b, Wary s p b ∧ s.step p b = some s' := fun s a s' h => by
    unfold State.stepAlive at h
    split at h
    · cases h
    · next hk => exact ⟨a.1, a.2, fun _ hl => hk hl.2.2.1, h⟩
  have hreach : Reachable Wary waitForByteEnd :=
    reachable_of_run halive (.init ⟨true, _, _, rfl⟩) (Option.some_get _).symm
  have hpc : waitForByteEnd.pc false = .sleep .read .asleep (.read 1) := by decide +kernel
  have hlock : waitForByteEnd.lock = none := by decide +kernel
  exact ⟨hreach, hpc, ((no_lost_wakeup hreach).1 hlock).1 false _ hpc⟩

/-- While a process waits for a byte, another one is killed and writes more than the pipe holds. -/
def killedWriter : List (Bool × Act Bool) :=
  waitForByte ++ [(true, .kill), (true, .write (List.replicate 513 7))] ++
    List.replicate 515 (true, .next)

/-- The end of `killedWriter`. -/
def killedWriterEnd : State Bool :=
  (run (fun s a => s.step a.1 a.2) (State.create true 0 fun _ => false) killedWriter).get
    (by decide +kernel)

/-- **A wakeup is lost**: a process sleeps on `&p->nread` although the pipe is full. -/
theorem lost_wakeup : Reachable (fun _ _ _ => True) killedWriterEnd ∧ killedWriterEnd.lock = none ∧
    killedWriterEnd.pc false = .sleep .read .asleep (.read 1) ∧
    killedWriterEnd.pipe.empty = false := by
  have hreach : Reachable (fun _ _ _ => True) killedWriterEnd :=
    reachable_of_run (fun _ a _ ha => ⟨a.1, a.2, trivial, ha⟩) (.init ⟨true, _, _, rfl⟩)
      (Option.some_get _).symm
  exact ⟨hreach, by decide +kernel, by decide +kernel, by decide +kernel⟩

end Laboratorio.Xv6.Pipes
