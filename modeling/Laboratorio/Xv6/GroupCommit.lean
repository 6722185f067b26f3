import Laboratorio.Lib.Count
import Laboratorio.Lib.Reach
import Laboratorio.Xv6.Log

/-!
# Group commit (`begin_op`, `log_write`, `end_op` and `commit` of `xv6/log.c`)

Any number of processes run operations at the same time. The steps of a process lie between the
points where it acquires or releases `log.lock` and `ptable.lock`: `begin_op` tests the log under
`log.lock` and goes to sleep by way of `ptable.lock`; `log_write` makes its checks without a lock
and then records the block under `log.lock`; the `end_op` of the last operation commits without
locks. `Pc` says where each process is.

`Effect` says once what a step can do. `Protocol` is what holds in every state: who holds the locks,
how many operations are running, that at most one process commits, and that nobody sleeps who could
be let in.
-/

namespace Laboratorio.Xv6.Group

open Function Laboratorio.Count Laboratorio.Reach

/-! ## The protocol -/

/-- Where a process is. An operation carries the block numbers that it has logged. -/
inductive Pc where
  /-- outside of an operation -/
  | idle
  /-- at the top of the loop of `begin_op`, with `log.lock` -/
  | testing
  /-- in `sleep`, before `ptable.lock` is acquired, with `log.lock` -/
  | sleep
  /-- in `sleep`, with both locks -/
  | sleepLocked
  /-- in `sleep`, with `ptable.lock` -/
  | falling
  /-- `SLEEPING` on `&log` -/
  | asleep
  /-- `RUNNABLE` after `sleep` -/
  | awake
  /-- after `sched`, with `ptable.lock` -/
  | resumed
  /-- at the end of `sleep`, before `log.lock` is acquired again -/
  | relock
  /-- in an operation -/
  | op (used : List UInt32)
  /-- in `log_write` of a block, after its checks -/
  | checked (used : List UInt32) (b : UInt32)
  /-- in `end_op`, with `log.lock` -/
  | ending
  /-- in `commit`, at its start -/
  | commit
  /-- in `commit`, while it writes the log and installs the blocks -/
  | writing
  /-- in `commit`, after `log.lh.n = 0` -/
  | cleared
  /-- after `commit` -/
  | committed
  /-- at the end of `end_op` after a commit, with `log.lock` -/
  | finish
  /-- in `wakeup`, before `ptable.lock` is acquired, with `log.lock` -/
  | wakeup
  /-- in `wakeup`, with both locks -/
  | waking
  /-- after `wakeup`, with `log.lock` -/
  | notified
deriving DecidableEq, Repr

/-- The log and the processes. -/
structure State (P : Type) where
  lock : Option P
  ptable : Option P
  outstanding : Int
  committing : Bool
  lh : List UInt32
  pc : P → Pc

/-- The panics of `log_write` and of `end_op`. -/
inductive Panic where
  | log (e : LogFault)
  | committing
deriving DecidableEq, Repr

/-- What a process does: its next step, a `log_write` in its operation, or it is killed. -/
inductive Act where
  | next
  | logWrite (b : UInt32)
  | kill
deriving DecidableEq, Repr

variable {P : Type} [DecidableEq P]

/-- After `initlog`. -/
def State.boot : State P where
  lock := none
  ptable := none
  outstanding := 0
  committing := false
  lh := []
  pc _ := .idle

/-- Process `p` goes on at `pc`. -/
def State.goto (s : State P) (p : P) (pc : Pc) : State P :=
  { s with pc := update s.pc p pc }

/-- `log.lh.n + (log.outstanding+1)*MAXOPBLOCKS > LOGSIZE` -/
def State.full (s : State P) : Bool :=
  decide ((s.lh.length : Int) + (s.outstanding + 1) * maxopblocks > logsize)

/-- The tests of `begin_op` that send a process to sleep. -/
def State.blocked (s : State P) : Bool := s.committing || s.full

/-- `wakeup1(&log)` -/
def State.wakeup1 (s : State P) : State P :=
  { s with pc := fun q => if s.pc q = .asleep then .awake else s.pc q }

/-- The checks of `log_write`. -/
def State.check (l : Log) (s : State P) (p : P) (used : List UInt32) (b : UInt32) :
    Except Panic (State P) :=
  if logsize ≤ s.lh.length ∨ (l.size : Int) - 1 ≤ s.lh.length then .error (.log .tooBig)
  else if s.outstanding < 1 then .error (.log .outsideOfTrans)
  else .ok (s.goto p (.checked used b))

/-- `end_op` up to the commit or to `wakeup`. -/
def State.endOp (s : State P) (p : P) : Except Panic (State P) :=
  if s.committing then .error .committing
  else if s.outstanding - 1 = 0 then
    .ok ({ s with outstanding := s.outstanding - 1, committing := true, lock := none }.goto p
      .commit)
  else .ok ({ s with outstanding := s.outstanding - 1 }.goto p .wakeup)

/-- A step that needs a lock. -/
def whenFree (lock : Option P) (s : State P) : Option (Except Panic (State P)) :=
  if lock = none then some (.ok s) else none

/-- The next step of process `p`, if it can make one. -/
def State.next (s : State P) (p : P) : Option (Except Panic (State P)) :=
  match s.pc p with
  | .idle => whenFree s.lock ({ s with lock := some p }.goto p .testing)
  | .testing =>
    if s.blocked then some (.ok (s.goto p .sleep))
    else some (.ok ({ s with outstanding := s.outstanding + 1, lock := none }.goto p (.op [])))
  | .sleep => whenFree s.ptable ({ s with ptable := some p }.goto p .sleepLocked)
  | .sleepLocked => some (.ok ({ s with lock := none }.goto p .falling))
  | .falling => some (.ok ({ s with ptable := none }.goto p .asleep))
  | .asleep => none
  | .awake => whenFree s.ptable ({ s with ptable := some p }.goto p .resumed)
  | .resumed => some (.ok ({ s with ptable := none }.goto p .relock))
  | .relock => whenFree s.lock ({ s with lock := some p }.goto p .testing)
  | .op _ => whenFree s.lock ({ s with lock := some p }.goto p .ending)
  | .checked used b =>
    whenFree s.lock ({ s with lh := recordBlock s.lh b }.goto p (.op (recordBlock used b)))
  | .ending => some (s.endOp p)
  | .commit => some (.ok (s.goto p (if 0 < s.lh.length then .writing else .committed)))
  | .writing => some (.ok ({ s with lh := [] }.goto p .cleared))
  | .cleared => some (.ok (s.goto p .committed))
  | .committed => whenFree s.lock ({ s with lock := some p }.goto p .finish)
  | .finish => some (.ok ({ s with committing := false }.goto p .wakeup))
  | .wakeup => whenFree s.ptable ({ s with ptable := some p }.goto p .waking)
  | .waking => some (.ok ({ s.wakeup1 with ptable := none }.goto p .notified))
  | .notified => some (.ok ({ s with lock := none }.goto p .idle))

/-- A step of process `p`, if it is possible: a new state or a panic. -/
def State.step (l : Log) (s : State P) (p : P) : Act → Option (Except Panic (State P))
  | .next => s.next p
  | .logWrite b =>
    match s.pc p with
    | .op used => some (s.check l p used b)
    | _ => none
  | .kill =>
    match s.pc p with
    | .asleep => whenFree s.ptable (s.goto p .awake)
    | _ => none

/-- One step of any process. -/
def Step (l : Log) (s s' : State P) : Prop := ∃ p a, s.step l p a = some (.ok s')

/-! ## What holds in every state -/

/-- The process holds `log.lock`. -/
def Pc.locks : Pc → Bool
  | .testing | .sleep | .sleepLocked | .ending | .finish | .wakeup | .waking | .notified => true
  | _ => false

/-- The process holds `ptable.lock`. -/
def Pc.locksPtable : Pc → Bool
  | .sleepLocked | .falling | .resumed | .waking => true
  | _ => false

/-- The process is in an operation. -/
def Pc.running : Pc → Bool
  | .op _ | .checked _ _ | .ending => true
  | _ => false

/-- The process commits. -/
def Pc.commits : Pc → Bool
  | .commit | .writing | .cleared | .committed | .finish => true
  | _ => false

/-- The process sleeps, or has decided to. -/
def Pc.waits : Pc → Bool
  | .sleep | .sleepLocked | .falling | .asleep => true
  | _ => false

/-- The process is about to wake the others. -/
def Pc.notifies : Pc → Bool
  | .wakeup | .waking => true
  | _ => false

/-- The header is empty when the commit is over. -/
def Pc.emptied : Pc → Bool
  | .cleared | .committed | .finish => true
  | _ => false

/-- **What holds in every state.** -/
structure Protocol [Fintype P] (s : State P) : Prop where
  lock : Reach.Owns Pc.locks s.pc s.lock
  ptable : Reach.Owns Pc.locksPtable s.pc s.ptable
  outstanding : s.outstanding = occ (fun p => (s.pc p).running) true
  committing : occ (fun p => (s.pc p).commits) true = if s.committing then 1 else 0
  alone : s.committing = true → s.outstanding = 0
  empty : s.outstanding = 0 → s.committing = false → s.lh = []
  emptied : ∀ p, (s.pc p).emptied = true → s.lh = []
  waits : ∀ p, (s.pc p).waits = true → s.blocked = true ∨ ∃ q, (s.pc q).notifies = true

section

omit [DecidableEq P]

variable [Fintype P] {s s' : State P} {p : P}

theorem Protocol.boot : Protocol (State.boot : State P) where
  lock _ := iff_of_false nofun nofun
  ptable _ := iff_of_false nofun nofun
  outstanding := by simp [State.boot, occ, Pc.running]
  committing := by simp [State.boot, occ, Pc.commits]
  alone := nofun
  empty _ _ := rfl
  emptied _ _ := rfl
  waits _ := nofun

/-- The number of processes at a kind of place, after a process has gone from `c` to `c'`. -/
theorem occ_goto [DecidableEq P] {pc : P → Pc} {c : Pc} (hp : pc p = c) (f : Pc → Bool) (c' : Pc) :
    occ (fun q => f (update pc p c' q)) true + (f c).toNat =
      occ (fun q => f (pc q)) true + (f c').toNat := by
  have hcomp : (fun q => f (update pc p c' q)) =
      update (fun q => f (pc q)) p (f c') := comp_update f pc p c'
  have hnat : ∀ b : Bool, b.toNat = if b = true then 1 else 0 := by decide
  rw [hcomp, hnat, hnat, ← hp]
  exact occ_update _ p (f c') true

theorem Protocol.running (h : Protocol s) (hp : (s.pc p).running = true) : 1 ≤ s.outstanding := by
  have : 0 < occ (fun q => (s.pc q).running) true := occ_pos.mpr ⟨p, hp⟩
  rw [h.outstanding]
  omega

theorem Protocol.not_committing (h : Protocol s) (hp : (s.pc p).running = true) :
    s.committing = false := by
  by_contra hc
  have := h.alone (by simpa using hc)
  have := h.running hp
  omega

theorem Protocol.commits (h : Protocol s) (hp : (s.pc p).commits = true) :
    s.committing = true := by
  have hpos : 0 < occ (fun q => (s.pc q).commits) true := occ_pos.mpr ⟨p, hp⟩
  rw [h.committing] at hpos
  by_contra hc
  rw [if_neg hc] at hpos
  omega

/-- A process that notifies holds `log.lock`. -/
theorem Pc.locks_of_notifies {c : Pc} (h : c.notifies = true) : c.locks = true := by
  cases c <;> first | rfl | cases h

theorem Pc.commits_of_emptied {c : Pc} (h : c.emptied = true) : c.commits = true := by
  cases c <;> first | rfl | cases h

/-- A process that waits holds a lock or is asleep. -/
theorem Pc.holds_of_waits {c : Pc} (h : c.waits = true) (hc : c ≠ .asleep) :
    c.locks = true ∨ c.locksPtable = true := by
  cases c with
  | sleep | sleepLocked => exact .inl rfl
  | falling => exact .inr rfl
  | asleep => exact absurd rfl hc
  | _ => cases h

/-- While a process holds `log.lock` and does not notify, nobody waits who could be let in. -/
theorem Protocol.blocked_of_locks (h : Protocol s) (hp : (s.pc p).locks = true)
    (hn : (s.pc p).notifies = false) {q : P} (hq : (s.pc q).waits = true) : s.blocked = true := by
  rcases h.waits q hq with hb | ⟨r, hr⟩
  · exact hb
  · have := h.lock.unique hp (Pc.locks_of_notifies hr)
    subst this
    rw [hn] at hr
    cases hr

end

/-! ## What a step can do -/

/-- The block numbers that an operation has logged. -/
def Pc.used : Pc → List UInt32
  | .op used | .checked used _ => used
  | _ => []

/-- The number of blocks that an operation may still log. -/
def Pc.left : Pc → Nat
  | .op used | .checked used _ => maxopblocks - used.length
  | _ => 0

/-- The process has logged blocks. -/
def Pc.logs : Pc → Bool
  | .op _ | .checked _ _ => true
  | _ => false

/-- Going from place `c` to place `c'` changes nothing but locks. -/
def Pc.same (c c' : Pc) : Bool :=
  c'.running == c.running && c'.commits == c.commits && (c.emptied || !c'.emptied) &&
    (c.waits || !c'.waits) && (c'.notifies || !c.notifies)

/-- A step that only moves a process to the place `c'`, and takes or releases locks. -/
structure Moves (s : State P) (p : P) (c' : Pc) (s' : State P) : Prop where
  pc : s'.pc = update s.pc p c'
  outstanding : s'.outstanding = s.outstanding
  committing : s'.committing = s.committing
  lh : s'.lh = s.lh
  lock : Passes Pc.locks p (s.pc p) c' s.lock s'.lock
  ptable : Passes Pc.locksPtable p (s.pc p) c' s.ptable s'.ptable
  running : c'.running = (s.pc p).running
  commits : c'.commits = (s.pc p).commits
  emptied : c'.emptied = true → (s.pc p).emptied = true ∨ s.lh = []
  waits : c'.waits = true → (s.pc p).waits = true ∨ s.blocked = true
  notifies : (s.pc p).notifies = true → c'.notifies = true

/-- **What a step can do.** -/
inductive Effect (s : State P) (p : P) (a : Act) : State P → Prop
  | move {c' : Pc} {s' : State P} : Moves s p c' s' → c'.logs = false → Effect s p a s'
  | enter : s.pc p = .testing → s.blocked = false →
      Effect s p a ({ s with outstanding := s.outstanding + 1, lock := none }.goto p (.op []))
  | check {used : List UInt32} {b : UInt32} : a = .logWrite b → s.pc p = .op used →
      Effect s p a (s.goto p (.checked used b))
  | record {used : List UInt32} {b : UInt32} : s.pc p = .checked used b →
      Effect s p a ({ s with lh := recordBlock s.lh b }.goto p (.op (recordBlock used b)))
  | last : s.pc p = .ending → s.outstanding - 1 = 0 → Effect s p a
      ({ s with outstanding := s.outstanding - 1, committing := true, lock := none }.goto p .commit)
  | notLast : s.pc p = .ending → s.outstanding - 1 ≠ 0 →
      Effect s p a ({ s with outstanding := s.outstanding - 1 }.goto p .wakeup)
  | clear : s.pc p = .writing → Effect s p a ({ s with lh := [] }.goto p .cleared)
  | finish : s.pc p = .finish → Effect s p a ({ s with committing := false }.goto p .wakeup)
  | wake : s.pc p = .waking → Effect s p a ({ s.wakeup1 with ptable := none }.goto p .notified)

section

variable {s s' : State P} {p : P} {a : Act} {c c' : Pc}

omit [DecidableEq P] in
theorem whenFree_eq_some {lock : Option P} {r : Except Panic (State P)}
    (h : whenFree lock s = some r) : lock = none ∧ r = .ok s := by
  unfold whenFree at h
  split at h
  · next hl => exact ⟨hl, (Option.some.inj h).symm⟩
  · cases h

theorem Moves.of_same (hp : s.pc p = c) (hsame : c.same c' = true) {lock ptable : Option P}
    (hlock : Passes Pc.locks p c c' s.lock lock)
    (hptable : Passes Pc.locksPtable p c c' s.ptable ptable) :
    Moves s p c' ({ s with lock := lock, ptable := ptable }.goto p c') := by
  simp only [Pc.same, Bool.and_eq_true, Bool.or_eq_true, beq_iff_eq, Bool.not_eq_true'] at hsame
  obtain ⟨⟨⟨⟨hrun, hcom⟩, hem⟩, hw⟩, hn⟩ := hsame
  subst hp
  refine ⟨rfl, rfl, rfl, rfl, hlock, hptable, hrun, hcom, fun h => .inl ?_, fun h => .inl ?_,
    fun h => ?_⟩
  · exact hem.resolve_right (by rw [h]; simp)
  · exact hw.resolve_right (by rw [h]; simp)
  · exact hn.resolve_right (by rw [h]; simp)

/-- The steps that acquire `log.lock`. -/
theorem Effect.acquire (hp : s.pc p = c)
    (h : whenFree s.lock ({ s with lock := some p }.goto p c') = some (.ok s'))
    (hsame : c.same c' = true) (hc : c'.locks = true) (hpt : c'.locksPtable = c.locksPtable)
    (hlogs : c'.logs = false) : Effect s p a s' := by
  obtain ⟨hfree, hs⟩ := whenFree_eq_some h
  cases hs
  have hlock : Passes Pc.locks p c c' s.lock (some p) := hfree ▸ .acquire hc
  exact .move (.of_same hp hsame hlock (.keep hpt)) hlogs

/-- The steps that acquire `ptable.lock`. -/
theorem Effect.acquirePtable (hp : s.pc p = c)
    (h : whenFree s.ptable ({ s with ptable := some p }.goto p c') = some (.ok s'))
    (hsame : c.same c' = true) (hc : c'.locksPtable = true) (hl : c'.locks = c.locks)
    (hlogs : c'.logs = false) : Effect s p a s' := by
  obtain ⟨hfree, hs⟩ := whenFree_eq_some h
  cases hs
  have hptable : Passes Pc.locksPtable p c c' s.ptable (some p) := hfree ▸ .acquire hc
  exact .move (.of_same hp hsame (.keep hl) hptable) hlogs

theorem effect_next (h : s.next p = some (.ok s')) : Effect s p a s' := by
  unfold State.next at h
  split at h
  case h_1 hp => exact .acquire hp h rfl rfl rfl rfl
  case h_2 hp =>
    split at h
    · next hb =>
      cases h
      exact .move ⟨rfl, rfl, rfl, rfl, .keep (by rw [hp]; rfl), .keep (by rw [hp]; rfl),
        by rw [hp]; rfl, by rw [hp]; rfl, nofun, fun _ => .inr hb, by rw [hp]; nofun⟩ rfl
    · next hb =>
      cases h
      exact .enter hp (by simpa using hb)
  case h_3 hp => exact .acquirePtable hp h rfl rfl rfl rfl
  case h_4 hp => cases h; exact .move (.of_same hp rfl (.release rfl rfl) (.keep rfl)) rfl
  case h_5 hp => cases h; exact .move (.of_same hp rfl (.keep rfl) (.release rfl rfl)) rfl
  case h_6 => cases h
  case h_7 hp => exact .acquirePtable hp h rfl rfl rfl rfl
  case h_8 hp => cases h; exact .move (.of_same hp rfl (.keep rfl) (.release rfl rfl)) rfl
  case h_9 hp => exact .acquire hp h rfl rfl rfl rfl
  case h_10 hp => exact .acquire hp h rfl rfl rfl rfl
  case h_11 hp =>
    obtain ⟨-, hs⟩ := whenFree_eq_some h
    cases hs
    exact .record hp
  case h_12 hp =>
    rw [Option.some.injEq] at h
    unfold State.endOp at h
    split at h
    · cases h
    · split at h
      · next hlast =>
        cases h
        exact .last hp hlast
      · next hlast =>
        cases h
        exact .notLast hp hlast
  case h_13 hp =>
    cases h
    split
    · exact .move (.of_same hp rfl (.keep rfl) (.keep rfl)) rfl
    · next hn =>
      have hlh : s.lh = [] := List.eq_nil_of_length_eq_zero (by omega)
      exact .move ⟨rfl, rfl, rfl, rfl, .keep (by rw [hp]; rfl), .keep (by rw [hp]; rfl),
        by rw [hp]; rfl, by rw [hp]; rfl, fun _ => .inr hlh, nofun, by rw [hp]; nofun⟩ rfl
  case h_14 hp => cases h; exact .clear hp
  case h_15 hp => cases h; exact .move (.of_same hp rfl (.keep rfl) (.keep rfl)) rfl
  case h_16 hp => exact .acquire hp h rfl rfl rfl rfl
  case h_17 hp => cases h; exact .finish hp
  case h_18 hp => exact .acquirePtable hp h rfl rfl rfl rfl
  case h_19 hp => cases h; exact .wake hp
  case h_20 hp => cases h; exact .move (.of_same hp rfl (.release rfl rfl) (.keep rfl)) rfl

/-- Every step is one of these. -/
theorem effect_step {l : Log} (h : s.step l p a = some (.ok s')) : Effect s p a s' := by
  cases a with
  | next => exact effect_next h
  | logWrite b =>
    simp only [State.step] at h
    split at h
    · next hp =>
      rw [Option.some.injEq] at h
      unfold State.check at h
      split at h
      · cases h
      · split at h
        · cases h
        · cases h
          exact .check rfl hp
    · cases h
  | kill =>
    simp only [State.step] at h
    split at h
    · next hp =>
      obtain ⟨-, hs⟩ := whenFree_eq_some h
      cases hs
      exact .move (.of_same hp rfl (.keep rfl) (.keep rfl)) rfl
    · cases h

end

/-! ## Every step keeps the protocol -/

omit [DecidableEq P] in
/-- Being woken changes nothing but that the process does not wait any more. -/
theorem wakeup1_kind {β : Type} {f : Pc → β} (hf : f .awake = f .asleep) (s : State P) (q : P) :
    f (s.wakeup1.pc q) = f (s.pc q) := by
  show f (if s.pc q = .asleep then .awake else s.pc q) = _
  split
  · next e => rw [e, hf]
  · rfl

section

variable {s : State P} {p : P}

/-- The other processes are where they were. -/
theorem Protocol.other {c : Pc} {f : Pc → Bool} (hc : f c = false) {q : P}
    (hq : f (update s.pc p c q) = true) : f (s.pc q) = true ∧ q ≠ p := by
  by_cases hqp : q = p
  · subst hqp
    rw [update_self, hc] at hq
    cases hq
  · rw [update_of_ne hqp] at hq
    exact ⟨hq, hqp⟩

end

section

omit [DecidableEq P] in
/-- With another header, as long as no operation could be let in that could not before. -/
theorem Protocol.setLh [Fintype P] {s : State P} (h : Protocol s) {lh : List UInt32}
    (hempty : s.outstanding = 0 → s.committing = false → lh = [])
    (hemptied : ∀ q, (s.pc q).emptied = true → lh = [])
    (hfull : s.blocked = true → ({ s with lh := lh } : State P).blocked = true) :
    Protocol { s with lh := lh } :=
  ⟨h.lock, h.ptable, h.outstanding, h.committing, h.alone, hempty, hemptied,
    fun q hq => (h.waits q hq).imp_left hfull⟩

variable [Fintype P] {s s' : State P} {p : P}

theorem Protocol.move (h : Protocol s) {c' : Pc} (hm : Moves s p c' s') : Protocol s' := by
  have hblocked : s'.blocked = s.blocked := by
    rw [State.blocked, State.blocked, State.full, State.full, hm.outstanding, hm.committing, hm.lh]
  have hnot : (∃ q, (s.pc q).notifies = true) → ∃ q, (s'.pc q).notifies = true := by
    rintro ⟨q, hq⟩
    refine ⟨q, ?_⟩
    rw [hm.pc, update_apply]
    split
    · next e => exact hm.notifies (e ▸ hq)
    · exact hq
  refine ⟨hm.pc ▸ h.lock.passes hm.lock, hm.pc ▸ h.ptable.passes hm.ptable, ?_, ?_,
    by rw [hm.committing, hm.outstanding]; exact h.alone,
    by rw [hm.outstanding, hm.committing, hm.lh]; exact h.empty, fun q hq => ?_, fun q hq => ?_⟩
  · have := occ_goto (show s.pc p = s.pc p from rfl) Pc.running c'
    rw [hm.running] at this
    rw [hm.outstanding, hm.pc, h.outstanding, Nat.add_right_cancel this]
  · have := occ_goto (show s.pc p = s.pc p from rfl) Pc.commits c'
    rw [hm.commits] at this
    rw [hm.committing, hm.pc, ← h.committing, Nat.add_right_cancel this]
  · rw [hm.lh]
    rw [hm.pc, update_apply] at hq
    split at hq
    · exact (hm.emptied hq).elim (h.emptied p) id
    · exact h.emptied q hq
  · rw [hblocked]
    rw [hm.pc, update_apply] at hq
    split at hq
    · exact (hm.waits hq).elim (fun hp => (h.waits p hp).imp_right hnot) .inl
    · exact (h.waits q hq).imp_right hnot

theorem Protocol.enter (h : Protocol s) (hp : s.pc p = .testing) (hb : s.blocked = false) :
    Protocol ({ s with outstanding := s.outstanding + 1, lock := none }.goto p (.op [])) := by
  have hrun : occ (fun q => (update s.pc p (.op []) q).running) true =
      occ (fun q => (s.pc q).running) true + 1 := occ_goto hp Pc.running (.op [])
  have hcom : occ (fun q => (update s.pc p (.op []) q).commits) true =
      occ (fun q => (s.pc q).commits) true := occ_goto hp Pc.commits (.op [])
  have hcommitting : s.committing = false := by
    rw [State.blocked, Bool.or_eq_false_iff] at hb
    exact hb.1
  have hout := h.outstanding
  refine ⟨h.lock.passes (.release (by rw [hp]; rfl) rfl), h.ptable.passes (.keep (by rw [hp]; rfl)),
    ?_, hcom.trans h.committing, ?_, ?_, fun q hq => ?_, fun q hq => ?_⟩
  · show s.outstanding + 1 = _
    rw [hout]
    exact_mod_cast hrun.symm
  · intro ht
    rw [show s.committing = true from ht] at hcommitting
    cases hcommitting
  · intro h0
    have : s.outstanding + 1 = 0 := h0
    omega
  · obtain ⟨hq, -⟩ := Protocol.other (by rfl) hq
    exact h.emptied q hq
  · -- the process holds the lock, so whoever waits is blocked
    obtain ⟨hq, -⟩ := Protocol.other (by rfl) hq
    rw [h.blocked_of_locks (p := p) (by rw [hp]; rfl) (by rw [hp]; rfl) hq] at hb
    cases hb

theorem Protocol.record (h : Protocol s) {used : List UInt32} {b : UInt32}
    (hp : s.pc p = .checked used b) :
    Protocol ({ s with lh := recordBlock s.lh b }.goto p (.op (recordBlock used b))) := by
  have hrun : (s.pc p).running = true := by rw [hp]; rfl
  have hout := h.running hrun
  have hset : Protocol { s with lh := recordBlock s.lh b } := by
    refine h.setLh (fun h0 => ?_) (fun q hq => ?_) fun hb => ?_
    · omega
    · have := h.commits (Pc.commits_of_emptied hq)
      rw [h.not_committing hrun] at this
      cases this
    · rw [State.blocked, Bool.or_eq_true] at hb ⊢
      refine hb.imp_right fun hf => ?_
      have hlen := length_le_recordBlock s.lh b
      simp only [State.full, decide_eq_true_eq] at hf ⊢
      omega
  have hp' : ({ s with lh := recordBlock s.lh b } : State P).pc p = .checked used b := hp
  exact hset.move (.of_same hp' rfl (.keep rfl) (.keep rfl))

theorem Protocol.clear (h : Protocol s) (hp : s.pc p = .writing) :
    Protocol ({ s with lh := [] }.goto p .cleared) := by
  have hcom : s.committing = true := h.commits (p := p) (by rw [hp]; rfl)
  have hset : Protocol { s with lh := [] } := by
    refine h.setLh (fun _ _ => rfl) (fun _ _ => rfl) fun _ => ?_
    rw [State.blocked, Bool.or_eq_true]
    exact .inl hcom
  exact hset.move ⟨rfl, rfl, rfl, rfl, .keep (by rw [hp]; rfl), .keep (by rw [hp]; rfl),
    by rw [hp]; rfl, by rw [hp]; rfl, fun _ => .inr rfl, nofun, by rw [hp]; nofun⟩

theorem Protocol.last (h : Protocol s) (hp : s.pc p = .ending) (hlast : s.outstanding - 1 = 0) :
    Protocol ({ s with
      outstanding := s.outstanding - 1, committing := true, lock := none }.goto p .commit) := by
  have hnot : s.committing = false := h.not_committing (p := p) (by rw [hp]; rfl)
  have hrun : occ (fun q => (update s.pc p .commit q).running) true + 1 =
      occ (fun q => (s.pc q).running) true := occ_goto hp Pc.running .commit
  have hcom : occ (fun q => (update s.pc p .commit q).commits) true =
      occ (fun q => (s.pc q).commits) true + 1 := occ_goto hp Pc.commits .commit
  have hout := h.outstanding
  have hc := h.committing
  rw [hnot] at hc
  refine ⟨h.lock.passes (.release (by rw [hp]; rfl) rfl), h.ptable.passes (.keep (by rw [hp]; rfl)),
    ?_, ?_, fun _ => hlast, nofun, fun q hq => ?_, fun _ _ => .inl rfl⟩
  · show s.outstanding - 1 = (occ (fun q => (update s.pc p .commit q).running) true : Int)
    omega
  · exact hcom.trans (by rw [hc]; rfl)
  · obtain ⟨hq, -⟩ := Protocol.other (by rfl) hq
    have := h.commits (Pc.commits_of_emptied hq)
    rw [hnot] at this
    cases this

theorem Protocol.notLast (h : Protocol s) (hp : s.pc p = .ending) (hlast : s.outstanding - 1 ≠ 0) :
    Protocol ({ s with outstanding := s.outstanding - 1 }.goto p .wakeup) := by
  have hnot : s.committing = false := h.not_committing (p := p) (by rw [hp]; rfl)
  have hrun : occ (fun q => (update s.pc p .wakeup q).running) true + 1 =
      occ (fun q => (s.pc q).running) true := occ_goto hp Pc.running .wakeup
  have hcom : occ (fun q => (update s.pc p .wakeup q).commits) true =
      occ (fun q => (s.pc q).commits) true := occ_goto hp Pc.commits .wakeup
  have hout := h.outstanding
  refine ⟨h.lock.passes (.keep (by rw [hp]; rfl)), h.ptable.passes (.keep (by rw [hp]; rfl)),
    ?_, hcom.trans h.committing, fun ht => ?_, fun h0 => absurd h0 hlast, fun q hq => ?_,
    fun _ _ => .inr ⟨p, by simp [State.goto, Pc.notifies]⟩⟩
  · show s.outstanding - 1 = (occ (fun q => (update s.pc p .wakeup q).running) true : Int)
    omega
  · rw [show s.committing = true from ht] at hnot
    cases hnot
  · obtain ⟨hq, -⟩ := Protocol.other (by rfl) hq
    exact h.emptied q hq

theorem Protocol.finish (h : Protocol s) (hp : s.pc p = .finish) :
    Protocol ({ s with committing := false }.goto p .wakeup) := by
  have hyes : s.committing = true := h.commits (p := p) (by rw [hp]; rfl)
  have hrun : occ (fun q => (update s.pc p .wakeup q).running) true =
      occ (fun q => (s.pc q).running) true := occ_goto hp Pc.running .wakeup
  have hcom : occ (fun q => (update s.pc p .wakeup q).commits) true + 1 =
      occ (fun q => (s.pc q).commits) true := occ_goto hp Pc.commits .wakeup
  have hc := h.committing
  rw [hyes, if_pos rfl] at hc
  have hlh : s.lh = [] := h.emptied p (by rw [hp]; rfl)
  refine ⟨h.lock.passes (.keep (by rw [hp]; rfl)), h.ptable.passes (.keep (by rw [hp]; rfl)),
    ?_, ?_, nofun, fun _ _ => hlh, fun _ _ => hlh,
    fun _ _ => .inr ⟨p, by simp [State.goto, Pc.notifies]⟩⟩
  · show s.outstanding = _
    rw [h.outstanding]
    exact_mod_cast hrun.symm
  · show occ (fun q => (update s.pc p .wakeup q).commits) true = 0
    omega

theorem Protocol.wake (h : Protocol s) (hp : s.pc p = .waking) :
    Protocol ({ s.wakeup1 with ptable := none }.goto p .notified) := by
  have hp' : s.wakeup1.pc p = .waking := by
    show (if s.pc p = .asleep then Pc.awake else s.pc p) = _
    rw [if_neg (by rw [hp]; nofun), hp]
  have hlock : Reach.Owns Pc.locks s.wakeup1.pc s.lock := h.lock.congr (wakeup1_kind rfl s)
  have hptable : Reach.Owns Pc.locksPtable s.wakeup1.pc s.ptable := h.ptable.congr (wakeup1_kind rfl s)
  have hrun : occ (fun q => (update s.wakeup1.pc p .notified q).running) true =
      occ (fun q => (s.wakeup1.pc q).running) true := occ_goto hp' Pc.running .notified
  have hcom : occ (fun q => (update s.wakeup1.pc p .notified q).commits) true =
      occ (fun q => (s.wakeup1.pc q).commits) true := occ_goto hp' Pc.commits .notified
  have hrun' : ∀ q, (s.wakeup1.pc q).running = (s.pc q).running := wakeup1_kind rfl s
  have hcom' : ∀ q, (s.wakeup1.pc q).commits = (s.pc q).commits := wakeup1_kind rfl s
  simp only [hrun', hcom'] at hrun hcom
  refine ⟨hlock.passes (.keep (by rw [hp']; rfl)), hptable.passes (.release (by rw [hp']; rfl) rfl),
    ?_, hcom.trans h.committing, h.alone, h.empty, fun q hq => ?_, fun q hq => ?_⟩
  · show s.outstanding = _
    rw [h.outstanding]
    exact_mod_cast hrun.symm
  · obtain ⟨hq, -⟩ := Protocol.other (s := s.wakeup1) (by rfl) hq
    rw [wakeup1_kind (f := Pc.emptied) rfl] at hq
    exact h.emptied q hq
  · -- whoever waits holds one of the locks or was asleep
    obtain ⟨hq, hne⟩ := Protocol.other (s := s.wakeup1) (by rfl) hq
    exfalso
    have hw : (s.pc q).locks = true ∨ (s.pc q).locksPtable = true := by
      change Pc.waits (if s.pc q = .asleep then .awake else s.pc q) = true at hq
      split at hq
      · cases hq
      · next hns =>
        exact Pc.holds_of_waits hq hns
    rcases hw with hw | hw
    · exact hne (h.lock.unique hw (by rw [hp]; rfl))
    · exact hne (h.ptable.unique hw (by rw [hp]; rfl))

/-- **Every step keeps the protocol.** -/
theorem Protocol.effect {a : Act} (h : Protocol s) (he : Effect s p a s') : Protocol s' := by
  cases he with
  | move hm => exact h.move hm
  | enter hp hb => exact h.enter hp hb
  | check _ hp => exact h.move (.of_same hp rfl (.keep rfl) (.keep rfl))
  | record hp => exact h.record hp
  | last hp hl => exact h.last hp hl
  | notLast hp hl => exact h.notLast hp hl
  | clear hp => exact h.clear hp
  | finish hp => exact h.finish hp
  | wake hp => exact h.wake hp

/-- The protocol holds in every state that the processes can reach. -/
theorem Protocol.reachable {l : Log} (h : Reachable (· = State.boot) (Step l) s) : Protocol s := by
  refine h.invariant (fun s hs => hs ▸ Protocol.boot) ?_
  rintro s s' hs ⟨p, a, ha⟩
  exact hs.effect (effect_step ha)

theorem Protocol.endOp_ok (h : Protocol s) {l : Log} {a : Act} :
    s.step l p a ≠ some (.error .committing) := by
  intro he
  cases a with
  | next =>
    simp only [State.step, State.next] at he
    split at he
    case h_12 hp =>
      rw [Option.some.injEq, State.endOp, h.not_committing (p := p) (by rw [hp]; rfl)] at he
      simp only [Bool.false_eq_true, if_false] at he
      split at he <;> cases he
    case h_2 => split at he <;> cases he
    all_goals first | cases he | cases (whenFree_eq_some he).2
  | logWrite b =>
    simp only [State.step] at he
    split at he
    · rw [Option.some.injEq, State.check] at he
      split at he
      · cases he
      · split at he <;> cases he
    · cases he
  | kill =>
    simp only [State.step] at he
    split at he
    · cases (whenFree_eq_some he).2
    · cases he

/-- **Group commit.** No operation runs while the log is committed, so that `end_op` does not panic
and `log_write` is not called then; when nothing runs, the log is empty; and whoever sleeps could
not be let in. -/
theorem group_commit {l : Log} (h : Reachable (· = State.boot) (Step l) s) :
    (s.committing = true → s.outstanding = 0) ∧
    (∀ p a, s.step l p a ≠ some (.error .committing)) ∧
    (s.committing = true → ∀ p, (∀ b, s.step l p (.logWrite b) = none) ∧
      ∀ used b, s.pc p ≠ .checked used b) ∧
    (s.outstanding = 0 → s.committing = false → s.lh = []) ∧
    (s.lock = none → ∀ p, s.pc p = .asleep → s.committing = true ∨
      (s.lh.length : Int) + (s.outstanding + 1) * maxopblocks > logsize) := by
  have hs := Protocol.reachable h
  have hidle : s.committing = true → ∀ p, (s.pc p).running = false := fun hc p => by
    by_contra hr
    rw [hs.not_committing (by simpa using hr)] at hc
    cases hc
  refine ⟨hs.alone, fun p a => hs.endOp_ok, fun hc p => ⟨fun b => ?_, fun used b hp => ?_⟩, hs.empty,
    fun hfree p hp => ?_⟩
  · simp only [State.step]
    split
    · next hp =>
      have := hidle hc p
      rw [hp] at this
      cases this
    · rfl
  · have := hidle hc p
    rw [hp] at this
    cases this
  · rcases hs.waits p (by rw [hp]; rfl) with hb | ⟨q, hq⟩
    · simpa only [State.blocked, State.full, Bool.or_eq_true, decide_eq_true_eq] using hb
    · -- whoever notifies holds the lock
      rw [(hs.lock q).mp (Pc.locks_of_notifies hq)] at hfree
      cases hfree

end

/-! ## Runs -/

/-- The state after a step that does not panic. -/
def State.after (l : Log) (s : State P) (t : P × Act) : Option (State P) :=
  match s.step l t.1 t.2 with
  | some (.ok s') => some s'
  | _ => none

theorem step_of_after {l : Log} {s s' : State P} {t : P × Act} (h : s.after l t = some s') :
    s.step l t.1 t.2 = some (.ok s') := by
  unfold State.after at h
  split at h
  · next hs =>
    cases h
    exact hs
  · cases h

/-- Process `p` enters an operation. -/
def beginning (p : P) : List (P × Act) := [(p, .next), (p, .next)]

/-- Process `p` logs the blocks `bs`. -/
def logging (p : P) (bs : List UInt32) : List (P × Act) :=
  bs.flatMap fun b => [(p, .logWrite b), (p, .next)]

/-- The log as `mkfs` lays it out. -/
def mkfsLog : Log := ⟨2, logsize⟩

/-- The fourth of four processes finds the log full and goes to sleep. -/
def sleeper : List (Fin 4 × Act) :=
  List.flatten [beginning 0, beginning 1, beginning 2, beginning 3,
    [(3, .next), (3, .next), (3, .next)]]

/-- Whoever sleeps could not be let in: here the fourth process. -/
theorem group_commit_sleeper : ∃ s, run (State.after mkfsLog) State.boot sleeper = some s ∧
    s.lock = none ∧ s.pc 3 = .asleep ∧ (s.committing = true ∨
      (s.lh.length : Int) + (s.outstanding + 1) * maxopblocks > logsize) := by
  have hend : (run (State.after mkfsLog) State.boot sleeper).map (fun s => (s.lock, s.pc 3)) =
      some (none, .asleep) := by decide
  obtain ⟨s, hs, hpair⟩ := Option.map_eq_some_iff.mp hend
  obtain ⟨hlock, hpc⟩ := Prod.mk.inj hpair
  have hr : Reachable (· = State.boot) (Step mkfsLog) s :=
    reachable_of_run (fun s t s' h => ⟨t.1, t.2, step_of_after h⟩) (.init rfl) hs
  exact ⟨s, hs, hlock, hpc, (group_commit hr).2.2.2.2 hlock 3 hpc⟩

end Laboratorio.Xv6.Group
