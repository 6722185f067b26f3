import Laboratorio.Xv6.GroupCommit

/-!
# Space in the log (`begin_op` and `log_write` of `xv6/log.c`)

`begin_op` lets an operation in when `MAXOPBLOCKS` blocks for it and for every running operation fit
into `LOGSIZE` blocks. `Budget K` is the invariant behind this test: the blocks in the header and
those that the running operations can still log are at most `K`.

`mkfs` gives the log `LOGSIZE` blocks, of which one is the header, so that only `LOGSIZE - 1` blocks
can be logged; `log_write` refuses the last of them, too, also when it would absorb the block. The
space suffices when the test leaves room for that (`Roomy`).
-/

namespace Laboratorio.Xv6.Group

open Function Laboratorio.Count Laboratorio.Reach

variable {P : Type} [DecidableEq P]

/-! ## The budget -/

/-- Each operation logs at most `MAXOPBLOCKS` distinct block numbers. -/
def Disciplined (s : State P) (p : P) : Act → Prop
  | .logWrite b => (recordBlock (s.pc p).used b).length ≤ maxopblocks
  | _ => True

instance (s : State P) (p : P) (a : Act) : Decidable (Disciplined s p a) := by
  cases a <;> simp only [Disciplined] <;> infer_instance

/-- `log_write` does not panic for want of space, and the header names no more blocks than the log
has. -/
def LogSpace (l : Log) (s : State P) : Prop :=
  (∀ p a, Disciplined s p a → s.step l p a ≠ some (.error (.log .tooBig))) ∧
    (s.lh.length : Int) ≤ l.size - 1

/-- An operation that is let in finds room for `MAXOPBLOCKS` blocks of every operation, and one
block to spare. -/
def Roomy (l : Log) (s : State P) (p : P) : Prop :=
  s.pc p = .testing → s.blocked = false →
    (s.lh.length : Int) + (s.outstanding + 1) * maxopblocks ≤ l.size - 2

instance (l : Log) (s : State P) (p : P) : Decidable (Roomy l s p) :=
  inferInstanceAs (Decidable (_ → _ → _))

/-- What the operations have logged is in the header, and what they can still log fits within
`K`. -/
structure Budget [Fintype P] (K : Nat) (s : State P) : Prop where
  used : ∀ p, (s.pc p).used ⊆ s.lh
  checked : ∀ p used b, s.pc p = .checked used b → (recordBlock used b).length ≤ maxopblocks
  room : s.lh.length + ∑ p, (s.pc p).left ≤ K

/-- A block that is new in the header is new to the operation. -/
theorem recordBlock_length_of_subset {used lh : List UInt32} (h : used ⊆ lh) (b : UInt32) :
    (recordBlock lh b).length + used.length ≤ lh.length + (recordBlock used b).length := by
  unfold recordBlock
  split
  · have := length_le_recordBlock used b
    unfold recordBlock at this
    omega
  · next hnew =>
    rw [if_neg fun hb => hnew (h hb)]
    simp only [List.length_append, List.length_singleton]
    omega

section

variable [Fintype P] {K : Nat} {s s' : State P} {p : P}

theorem sum_left_goto {pc : P → Pc} {c : Pc} (hp : pc p = c) (c' : Pc) :
    (∑ q, (update pc p c' q).left) + c.left = (∑ q, (pc q).left) + c'.left := by
  rw [← hp]
  exact sum_update (Finset.mem_univ p) (fun _ => Pc.left) pc c'

theorem Pc.left_le (c : Pc) : c.left ≤ maxopblocks := by
  cases c <;> simp [Pc.left]

theorem Pc.not_logs {c : Pc} (h : c.logs = false) : c.used = [] ∧ c.left = 0 := by
  cases c <;> first | exact ⟨rfl, rfl⟩ | cases h

theorem Pc.not_logs_of_not_running {c : Pc} (h : c.running = false) : c.logs = false := by
  cases c <;> first | rfl | cases h

omit [DecidableEq P] in
/-- Every running operation has reserved `MAXOPBLOCKS` blocks. -/
theorem Protocol.sum_left_le (h : Protocol s) :
    ((∑ q, (s.pc q).left : Nat) : Int) ≤ s.outstanding * maxopblocks := by
  have hle : (∑ q, (s.pc q).left) ≤ occ (fun q => (s.pc q).running) true * maxopblocks := by
    rw [occ, Finset.sum_mul]
    refine Finset.sum_le_sum fun q _ => ?_
    split
    · simpa using Pc.left_le _
    · next hr =>
      rw [(Pc.not_logs (Pc.not_logs_of_not_running (by simpa using hr))).2]
      exact Nat.zero_le _
  rw [h.outstanding]
  exact_mod_cast hle

omit [DecidableEq P] in
theorem Budget.boot : Budget K (State.boot : State P) where
  used _ := List.nil_subset _
  checked _ _ _ := nofun
  room := by simp [State.boot, Pc.left]

/-- A step that leaves the header as it is and does not widen what the process can log. -/
theorem Budget.goto (h : Budget K s) {c' : Pc} (hpc : s'.pc = update s.pc p c')
    (hlh : s'.lh = s.lh) (hused : c'.used ⊆ s.lh)
    (hchecked : ∀ used b, c' = .checked used b → (recordBlock used b).length ≤ maxopblocks)
    (hleft : c'.left ≤ (s.pc p).left) : Budget K s' := by
  refine ⟨fun q => ?_, fun q used b hq => ?_, ?_⟩
  · rw [hpc, hlh, update_apply]
    split
    · exact hused
    · exact h.used q
  · rw [hpc, update_apply] at hq
    split at hq
    · exact hchecked used b hq
    · exact h.checked q used b hq
  · have hsum := sum_left_goto (show s.pc p = s.pc p from rfl) c'
    have hroom := h.room
    rw [hpc, hlh]
    omega

theorem Budget.quiet (h : Budget K s) {c' : Pc} (hpc : s'.pc = update s.pc p c')
    (hlh : s'.lh = s.lh) (hc : c'.logs = false) : Budget K s' := by
  obtain ⟨hused, hleft⟩ := Pc.not_logs hc
  refine h.goto hpc hlh (by rw [hused]; exact List.nil_subset _) ?_ (by rw [hleft]; omega)
  rintro used b rfl
  cases hc

theorem Budget.record (h : Budget K s) {used : List UInt32} {b : UInt32}
    (hp : s.pc p = .checked used b) :
    Budget K ({ s with lh := recordBlock s.lh b }.goto p (.op (recordBlock used b))) := by
  have hlen := h.checked p used b hp
  have hsub : used ⊆ s.lh := by
    have := h.used p
    rwa [hp] at this
  refine ⟨fun q => ?_, fun q used' b' hq => ?_, ?_⟩
  · show (update s.pc p (.op (recordBlock used b)) q).used ⊆ recordBlock s.lh b
    rw [update_apply]
    split
    · intro x hx
      rw [mem_recordBlock]
      exact (mem_recordBlock.mp hx).imp_left fun hx => hsub hx
    · intro x hx
      exact mem_recordBlock.mpr (.inl (h.used q hx))
  · change update s.pc p (.op (recordBlock used b)) q = _ at hq
    rw [update_apply] at hq
    split at hq
    · cases hq
    · exact h.checked q used' b' hq
  · have hsum : (∑ q, (update s.pc p (.op (recordBlock used b)) q).left) +
        (maxopblocks - used.length) =
        (∑ q, (s.pc q).left) + (maxopblocks - (recordBlock used b).length) := sum_left_goto hp _
    have hroom := h.room
    have hnew := recordBlock_length_of_subset hsub b
    have hle := length_le_recordBlock used b
    show (recordBlock s.lh b).length + ∑ q, (update s.pc p _ q).left ≤ K
    omega

/-- Every step keeps the budget, if each operation keeps to its share and those let in find room. -/
theorem Budget.effect {a : Act} (h : Budget K s) (hs : Protocol s) (hd : Disciplined s p a)
    (hroom : s.pc p = .testing → s.blocked = false →
      (s.lh.length : Int) + (s.outstanding + 1) * maxopblocks ≤ K)
    (he : Effect s p a s') : Budget K s' := by
  cases he with
  | move hm hc => exact h.quiet hm.pc hm.lh hc
  | enter hp hb =>
    refine ⟨fun q => ?_, fun q used b hq => ?_, ?_⟩
    · show (update s.pc p (.op []) q).used ⊆ s.lh
      rw [update_apply]
      split
      · exact List.nil_subset _
      · exact h.used q
    · change update s.pc p (.op []) q = _ at hq
      rw [update_apply] at hq
      split at hq
      · cases hq
      · exact h.checked q used b hq
    · have hle := hs.sum_left_le
      have hK := hroom hp hb
      have hsum : (∑ q, (update s.pc p (.op []) q).left) =
          (∑ q, (s.pc q).left) + maxopblocks := sum_left_goto hp (.op [])
      show s.lh.length + ∑ q, (update s.pc p (.op []) q).left ≤ K
      rw [hsum]
      simp only [maxopblocks] at hle hK ⊢
      omega
  | check ha hp =>
    subst ha
    have hsub := h.used p
    rw [hp] at hsub
    refine h.goto rfl rfl hsub ?_ (by rw [hp]; exact le_rfl)
    intro used b hc
    cases hc
    rw [Disciplined, hp] at hd
    exact hd
  | record hp => exact h.record hp
  | last | notLast | finish => exact h.quiet rfl rfl rfl
  | clear hp =>
    have hcom := hs.commits (p := p) (by rw [hp]; rfl)
    have hnone : ∀ q, (s.pc q).logs = false := fun q => by
      apply Pc.not_logs_of_not_running
      by_contra hr
      rw [hs.not_committing (by simpa using hr)] at hcom
      cases hcom
    have hset : Budget K { s with lh := [] } := by
      refine ⟨fun q => ?_, h.checked, ?_⟩
      · rw [(Pc.not_logs (hnone q)).1]
        exact List.nil_subset _
      · have := h.room
        show 0 + ∑ q, (s.pc q).left ≤ K
        omega
    exact hset.quiet rfl rfl rfl
  | wake hp =>
    have hset : Budget K { s.wakeup1 with ptable := none } := by
      refine ⟨fun q => ?_, fun q used b hq => ?_, ?_⟩
      · show (s.wakeup1.pc q).used ⊆ s.lh
        rw [wakeup1_kind (f := Pc.used) rfl]
        exact h.used q
      · refine h.checked q used b ?_
        change (if s.pc q = .asleep then .awake else s.pc q) = _ at hq
        split at hq
        · cases hq
        · exact hq
      · show s.lh.length + ∑ q, (s.wakeup1.pc q).left ≤ K
        simp only [wakeup1_kind (f := Pc.left) rfl]
        exact h.room
    exact hset.quiet rfl rfl rfl

omit [Fintype P] in
/-- The check of `log_write` fails only when the header is full. -/
theorem full_of_tooBig {l : Log} {a : Act} (h : s.step l p a = some (.error (.log .tooBig))) :
    logsize ≤ s.lh.length ∨ (l.size : Int) - 1 ≤ s.lh.length := by
  cases a with
  | next =>
    simp only [State.step, State.next] at h
    split at h
    case h_2 => split at h <;> cases h
    case h_12 =>
      rw [Option.some.injEq, State.endOp] at h
      split at h
      · cases h
      · split at h <;> cases h
    all_goals first | cases h | cases (whenFree_eq_some h).2
  | logWrite b =>
    simp only [State.step] at h
    split at h
    · rw [Option.some.injEq, State.check] at h
      split at h
      · next hfull => exact hfull
      · split at h <;> cases h
    · cases h
  | kill =>
    simp only [State.step] at h
    split at h
    · cases (whenFree_eq_some h).2
    · cases h

/-- **Log space.** In the log that `mkfs` lays out, `log_write` does not panic for want of space as
long as each operation that is let in finds room, with one block to spare. -/
theorem log_space {l : Log} (hl : l.size = logsize)
    (h : Reachable (· = State.boot) (fun s s' : State P => ∃ p a, Disciplined s p a ∧ Roomy l s p ∧
      s.step l p a = some (.ok s')) s) : LogSpace l s := by
  have hinv : Protocol s ∧ Budget (logsize - 2) s := by
    refine h.invariant (I := fun s => Protocol s ∧ Budget (logsize - 2) s)
      (fun s hs => hs ▸ ⟨Protocol.boot, Budget.boot⟩) ?_
    rintro s s' ⟨hs, hb⟩ ⟨p, a, hd, hroom, ha⟩
    refine ⟨hs.effect (effect_step ha), hb.effect hs hd (fun hp hfree => ?_) (effect_step ha)⟩
    have := hroom hp hfree
    rw [hl] at this
    exact this
  have hroom := hinv.2.room
  simp only [logsize] at hroom hl
  refine ⟨fun p a _ ha => ?_, by omega⟩
  have := full_of_tooBig ha
  simp only [logsize] at this
  omega

end

/-- The state after a step that meets a condition. -/
def State.afterIf (l : Log) (cond : State P → P × Act → Bool) (s : State P) (t : P × Act) :
    Option (State P) :=
  if cond s t then s.after l t else none

theorem afterIf_eq_some {l : Log} {cond : State P → P × Act → Bool} {s s' : State P} {t : P × Act}
    (h : s.afterIf l cond t = some s') : cond s t = true ∧ s.step l t.1 t.2 = some (.ok s') := by
  unfold State.afterIf at h
  split at h
  · next hc => exact ⟨hc, step_of_after h⟩
  · cases h

/-- The `n` block numbers from `b` on. -/
def blocks (b n : Nat) : List UInt32 := (List.range n).map fun i => UInt32.ofNat (b + i)

/-- Two processes log twelve blocks in all. -/
def twelve : List (Fin 2 × Act) :=
  List.flatten [beginning 0, beginning 1, logging 0 (blocks 40 7), logging 1 (blocks 50 5)]

/-- The steps under which the log has space. -/
def State.afterRoomy (s : State P) (t : P × Act) : Option (State P) :=
  s.afterIf mkfsLog (fun s t => Disciplined s t.1 t.2 ∧ Roomy mkfsLog s t.1) t

/-- The log has space: here after two operations have logged twelve blocks. -/
theorem log_space_twelve : ∃ s, run State.afterRoomy State.boot twelve = some s ∧
    s.lh.length = 12 ∧ LogSpace mkfsLog s := by
  have hend : (run State.afterRoomy State.boot twelve).map (fun s => s.lh.length) = some 12 := by
    decide +kernel
  obtain ⟨s, hs, hlen⟩ := Option.map_eq_some_iff.mp hend
  have hr : Reachable (· = State.boot) (fun s s' : State (Fin 2) => ∃ p a, Disciplined s p a ∧
      Roomy mkfsLog s p ∧ s.step mkfsLog p a = some (.ok s')) s := by
    refine reachable_of_run (fun s t s' h => ?_) (.init rfl) hs
    obtain ⟨hc, hstep⟩ := afterIf_eq_some h
    exact ⟨t.1, t.2, (of_decide_eq_true hc).1, (of_decide_eq_true hc).2, hstep⟩
  exact ⟨s, hs, hlen, log_space rfl hr⟩

/-- Three processes log all the blocks that they may, but one. -/
def thirty : List (Fin 3 × Act) :=
  List.flatten [beginning 0, beginning 1, beginning 2, logging 0 (blocks 40 10),
    logging 1 (blocks 50 10), logging 2 (blocks 60 9)]

/-- Three processes log all the blocks that they may; the last two checks come before either block
is recorded. -/
def race : List (Fin 3 × Act) :=
  List.flatten [beginning 0, beginning 1, beginning 2, logging 0 (blocks 40 10),
    logging 1 (blocks 50 9), logging 2 (blocks 60 9),
    [(1, .logWrite 59), (2, .logWrite 69), (1, .next), (2, .next)]]

theorem reachable_of_disciplined {as : List (P × Act)} {s : State P}
    (h : run (State.afterIf mkfsLog fun s t => Disciplined s t.1 t.2) State.boot as = some s) :
    Reachable (· = State.boot) (fun s s' : State P => ∃ p a, Disciplined s p a ∧
      s.step mkfsLog p a = some (.ok s')) s := by
  refine reachable_of_run (fun s t s' h => ?_) (.init rfl) h
  obtain ⟨hc, hstep⟩ := afterIf_eq_some h
  exact ⟨t.1, t.2, of_decide_eq_true hc, hstep⟩

/-- Without the spare block `log_write` panics, and the header can name one block more than the log
has. -/
theorem log_space_fails :
    (∃ s : State (Fin 3), Reachable (· = State.boot) (fun s s' => ∃ p a, Disciplined s p a ∧
      s.step mkfsLog p a = some (.ok s')) s ∧ Disciplined s 2 (.logWrite 69) ∧
      s.step mkfsLog 2 (.logWrite 69) = some (.error (.log .tooBig))) ∧
    ∃ s : State (Fin 3), Reachable (· = State.boot) (fun s s' => ∃ p a, Disciplined s p a ∧
      s.step mkfsLog p a = some (.ok s')) s ∧ s.lh.length = 30 ∧ mkfsLog.size - 1 = 29 := by
  constructor
  · have hend : (run (State.afterIf mkfsLog fun s t => Disciplined s t.1 t.2) State.boot
        thirty).map (fun s => (decide (Disciplined s 2 (.logWrite 69)), s.pc 2, s.lh.length)) =
        some (true, .op (blocks 60 9), 29) := by decide +kernel
    obtain ⟨s, hs, hs'⟩ := Option.map_eq_some_iff.mp hend
    simp only [Prod.mk.injEq, decide_eq_true_eq] at hs'
    obtain ⟨hd, hpc, hlen⟩ := hs'
    refine ⟨s, reachable_of_disciplined hs, hd, ?_⟩
    rw [State.step, hpc]
    show some (s.check _ _ _ _) = _
    rw [State.check, if_pos (.inr (by rw [hlen]; decide))]
  · have hend : (run (State.afterIf mkfsLog fun s t => Disciplined s t.1 t.2) State.boot
        race).map (fun s => s.lh.length) = some 30 := by decide +kernel
    obtain ⟨s, hs, hlen⟩ := Option.map_eq_some_iff.mp hend
    exact ⟨s, reachable_of_disciplined hs, hlen, rfl⟩

end Laboratorio.Xv6.Group
