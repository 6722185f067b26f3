import Laboratorio.Lib.Reach

/-!
# Waiting under a lock

Processes share data that a lock `lk` guards. What a process does to the data is a request, a
critical section that waits for its condition:

    acquire(lk);
    while (!may) sleep(chan, lk);
    act;
    if (wakes) wakeup(chan);
    release(lk);

`sleep` takes the lock of the process table before it gives up `lk`, and `wakeup` takes that lock
too. A process may also be woken by others, and may leave with its condition false if it `quits`.

If the requests are `Sound`, every reachable state satisfies `Inv`: nobody sleeps whose condition is
true (`Inv.asleep`), and what the requests keep of the data holds.
-/

namespace Laboratorio.Monitor

open Function Laboratorio.Reach

/-- Where a process is in its critical section. -/
inductive Stage where
  | out
  /-- at the condition of the loop -/
  | test
  /-- in `sleep`: without the table's lock, with both locks, and with the table's lock alone -/
  | sleep | swap | fall
  | asleep
  /-- awake, but without `lk` -/
  | enter
  /-- in `wakeup`: without the table's lock, and with both locks -/
  | wake | scan
  /-- at `release(lk)` -/
  | leave
deriving DecidableEq

namespace Stage

def holdsLk : Stage → Bool
  | test | sleep | swap | wake | scan | leave => true
  | _ => false

def holdsTable : Stage → Bool
  | swap | fall | scan => true
  | _ => false

/-- The process sleeps or is bound to. -/
def sleeps : Stage → Bool
  | sleep | swap | fall | asleep => true
  | _ => false

/-- The process is bound to wake the others. -/
def wakes : Stage → Bool
  | wake | scan => true
  | _ => false

/-- The request has still to be served. -/
def pending : Stage → Bool
  | test | sleep | swap | fall | asleep | enter => true
  | _ => false

/-- Where a process goes that has nothing to do but to take or give up a lock. -/
def succ : Stage → Option Stage
  | sleep => some swap
  | swap => some fall
  | fall => some asleep
  | enter => some test
  | wake => some scan
  | leave => some out
  | out | test | asleep | scan => none

/-- A process may go from `c` to `c'` whatever its condition is. -/
def plain (c c' : Stage) : Bool :=
  (!c'.sleeps || c.sleeps) && (!c.wakes || c'.wakes) && (!c'.pending || c.pending)

/-- What `wakeup` does to a process. -/
def awake (c : Stage) : Stage := if c = asleep then enter else c

end Stage

/-- The requests `R` of processes `P` on the data `σ`. -/
structure Requests (P σ R : Type) where
  /-- a process may make this request, after the one that was served last -/
  calls : P → Option R → σ → R → Bool
  may : R → σ → Bool
  act : P → R → σ → σ
  wakes : R → Bool
  quits : R → Bool

/-- The data, of each process its request, the one that was served last and where it is, and who
holds the locks. -/
structure State (P σ R : Type) where
  data : σ
  req : P → Option R
  done : P → Option R
  stage : P → Stage
  lk : Option P
  table : Option P

inductive Act (P R : Type) where
  | start (p : P) (r : R)
  | test (p : P)
  | quit (p : P)
  | move (p : P)
  | scan (p : P)
  | wake (p : P)

variable {P σ R : Type} [DecidableEq P]

/-- The holder of a lock once `p` has gone from `c` to `c'`, if `p` need not wait for it. -/
def pass (holds : Stage → Bool) (p : P) (c c' : Stage) (lock : Option P) : Option (Option P) :=
  if holds c' = holds c then some lock
  else if holds c = true then some none
  else if lock = none then some (some p) else none

def State.goto (s : State P σ R) (p : P) (c : Stage) : Option (State P σ R) := do
  let lk ← pass Stage.holdsLk p (s.stage p) c s.lk
  let table ← pass Stage.holdsTable p (s.stage p) c s.table
  return { s with stage := update s.stage p c, lk := lk, table := table }

def State.serve (m : Requests P σ R) (p : P) (r : R) (s : State P σ R) : State P σ R :=
  { s with data := m.act p r s.data, done := update s.done p (some r) }

def next (m : Requests P σ R) (s : State P σ R) : Act P R → Option (State P σ R)
  | .start p r =>
    if s.stage p = .out ∧ m.calls p (s.done p) s.data r = true then
      { s with req := update s.req p (some r) }.goto p .test
    else none
  | .test p =>
    match s.req p with
    | none => none
    | some r =>
      if s.stage p = .test then
        if m.may r s.data then
          (s.goto p (if m.wakes r then .wake else .leave)).map (State.serve m p r)
        else s.goto p .sleep
      else none
  | .quit p =>
    match s.req p with
    | none => none
    | some r =>
      if s.stage p = .test ∧ m.may r s.data = false ∧ m.quits r then s.goto p .leave else none
  | .move p =>
    match (s.stage p).succ with
    | none => none
    | some c => s.goto p c
  | .scan p =>
    if s.stage p = .scan then { s with stage := fun q => (s.stage q).awake }.goto p .leave else none
  -- `kill` and other calls of `wakeup`, under the lock of the table
  | .wake p => if s.stage p = .asleep ∧ s.table = none then s.goto p .enter else none

/-- All processes are out, and the locks are free. -/
def start (d : σ) : State P σ R := ⟨d, fun _ => none, fun _ => none, fun _ => .out, none, none⟩

abbrev Run (m : Requests P σ R) (d : σ) : State P σ R → Prop :=
  Reachable (· = start d) fun s s' => ∃ a, next m s a = some s'

theorem Run.of_run {m : Requests P σ R} {d : σ} {s : State P σ R} {as : List (Act P R)}
    (h : run (next m) (start d) as = some s) : Run m d s :=
  reachable_of_run (fun _ a _ h => ⟨a, h⟩) (.init rfl) h

/-! ## The invariant -/

variable {m : Requests P σ R} {J : σ → (P → Option R) → Prop} {K : P → R → σ → Option R → Prop}
  {s s' : State P σ R} {p q : P} {c c' : Stage} {r : R}

/-- What is needed of the requests: one that wakes nobody makes no condition true, and each keeps
what `J` says of the data and `K` of the requests that wait. -/
structure Sound (m : Requests P σ R) (J : σ → (P → Option R) → Prop)
    (K : P → R → σ → Option R → Prop) : Prop where
  wakes : ∀ p r r' d, m.may r d = true → m.wakes r = false → m.may r' (m.act p r d) = true →
    m.may r' d = true
  starts : ∀ p r d done, J d done → m.calls p (done p) d r = true → K p r d (done p)
  waits : ∀ p q r r' d last, K p r d last → m.may r' d = true → K p r (m.act q r' d) last
  served : ∀ p r d done, J d done → K p r d (done p) → m.may r d = true →
    J (m.act p r d) (update done p (some r))

structure Inv (m : Requests P σ R) (J : σ → (P → Option R) → Prop)
    (K : P → R → σ → Option R → Prop) (s : State P σ R) : Prop where
  lk : Owns Stage.holdsLk s.stage s.lk
  table : Owns Stage.holdsTable s.stage s.table
  sleeper : ∀ p r, (s.stage p).sleeps = true → s.req p = some r →
    m.may r s.data = false ∨ ∃ q, (s.stage q).wakes = true
  data : J s.data s.done
  waiter : ∀ p r, (s.stage p).pending = true → s.req p = some r → K p r s.data (s.done p)

omit [DecidableEq P] in
theorem passes_of_pass {holds : Stage → Bool} {lock lock' : Option P}
    (h : pass holds p c c' lock = some lock') : Passes holds p c c' lock lock' := by
  unfold pass at h
  split at h
  · next hc =>
    cases h
    exact .keep hc
  · next hc =>
    split at h
    · next hheld =>
      cases h
      exact .release hheld (by simpa [hheld] using hc)
    · next hfree =>
      obtain ⟨rfl, h⟩ := Option.ite_none_right_eq_some.mp h
      cases h
      exact .acquire (by simpa [hfree] using hc)

theorem goto_eq_some (hs : s.goto p c = some s') : ∃ lk table,
    Passes Stage.holdsLk p (s.stage p) c s.lk lk ∧
    Passes Stage.holdsTable p (s.stage p) c s.table table ∧
    s' = { s with stage := update s.stage p c, lk := lk, table := table } := by
  obtain ⟨lk, hlk, hs⟩ := Option.bind_eq_some_iff.mp hs
  obtain ⟨table, htable, hs⟩ := Option.bind_eq_some_iff.mp hs
  exact ⟨lk, table, passes_of_pass hlk, passes_of_pass htable, (Option.some.inj hs).symm⟩

/-- A process goes on: it may fall asleep if its condition is false, and stop to be the one that
wakes the others when none of them sleeps. -/
theorem Inv.goto (h : Inv m J K s) (hs : s.goto p c = some s')
    (hsleep : c.sleeps = true → (s.stage p).sleeps = true ∨
      ∀ r, s.req p = some r → m.may r s.data = false)
    (hwake : (s.stage p).wakes = true → c.wakes = true ∨ ∀ q, (s.stage q).sleeps = false)
    (hpending : c.pending = true → ∀ r, s.req p = some r → K p r s.data (s.done p)) :
    Inv m J K s' := by
  obtain ⟨lk, table, hlk, htable, rfl⟩ := goto_eq_some hs
  have hupdate : ∀ q, update s.stage p c q = s.stage q ∨ q = p ∧ update s.stage p c q = c := by
    intro q
    rw [update_apply]
    split
    · next e => exact .inr ⟨e, rfl⟩
    · exact .inl rfl
  refine ⟨h.lk.passes hlk, h.table.passes htable, fun q r hq hr => ?_, h.data, fun q r hq hr => ?_⟩
  · -- a sleeper has slept before, or its condition is false now
    have hold : (s.stage q).sleeps = true ∨ m.may r s.data = false := by
      rcases hupdate q with e | ⟨rfl, e⟩
      · exact .inl (e ▸ hq)
      · exact (hsleep (e ▸ hq)).imp_right fun hmay => hmay r hr
    rcases hold with hold | hold
    · refine (h.sleeper q r hold hr).imp_right fun ⟨w, hw⟩ => ⟨w, ?_⟩
      show (update s.stage p c w).wakes = true
      rcases hupdate w with e | ⟨rfl, e⟩
      · rw [e]
        exact hw
      · rw [e]
        refine (hwake hw).resolve_right fun hnone => ?_
        rw [hnone q] at hold
        cases hold
    · exact .inl hold
  · rcases hupdate q with e | ⟨rfl, e⟩
    · exact h.waiter q r (e ▸ hq) hr
    · exact hpending (e ▸ hq) r hr

theorem Inv.move (h : Inv m J K s) (hs : s.goto p c = some s')
    (hplain : (s.stage p).plain c = true) : Inv m J K s' := by
  simp only [Stage.plain, Bool.and_eq_true, Bool.or_eq_true, Bool.not_eq_true', or_iff_not_imp_left,
    Bool.not_eq_false] at hplain
  obtain ⟨⟨hsleep, hwake⟩, hpending⟩ := hplain
  exact h.goto hs (fun e => .inl (hsleep e)) (fun e => .inl (hwake e)) fun e r =>
    h.waiter p r (hpending e)

/-- The request of a process that is on its way out is served. -/
theorem Inv.serve (hm : Sound m J K) (h : Inv m J K s) (hp : (s.stage p).pending = false)
    (hK : K p r s.data (s.done p)) (hmay : m.may r s.data = true)
    (hwake : m.wakes r = true → (s.stage p).wakes = true) : Inv m J K (s.serve m p r) := by
  refine ⟨h.lk, h.table, fun q r' hq hr => ?_, hm.served p r _ _ h.data hK hmay,
    fun q r' hq hr => ?_⟩
  · cases hw : m.wakes r with
    | true => exact .inr ⟨p, hwake hw⟩
    | false =>
      -- what was false stays false
      refine (h.sleeper q r' hq hr).imp_left fun hfalse => ?_
      by_contra hne
      rw [hm.wakes p r r' _ hmay hw (Bool.eq_true_of_not_eq_false hne)] at hfalse
      cases hfalse
  · have hne : q ≠ p := by
      rintro rfl
      rw [show (s.stage q).pending = true from hq] at hp
      cases hp
    show K q r' (m.act p r s.data) (update s.done p (some r) q)
    rw [update_of_ne hne]
    exact hm.waits q p r' r _ _ (h.waiter q r' hq hr) hmay

/-- `wakeup` finds nobody on the way to sleep: such a process has `lk` or the lock of the table. -/
theorem Inv.not_sleeps_awake (h : Inv m J K s) (hp : s.stage p = .scan) (q : P) :
    (s.stage q).awake.sleeps = false := by
  have hlk : (s.stage q).holdsLk = true → q = p := fun hh => h.lk.unique hh (by rw [hp]; rfl)
  have htable : (s.stage q).holdsTable = true → q = p :=
    fun hh => h.table.unique hh (by rw [hp]; rfl)
  by_cases e : q = p
  · rw [e, hp]
    rfl
  · -- `swap` and `fall` hold the table, `sleep` holds `lk`, and `asleep` is woken
    cases hc : s.stage q <;> rw [hc] at hlk htable <;> first
      | rfl
      | exact absurd (hlk rfl) e
      | exact absurd (htable rfl) e

omit [DecidableEq P] in
theorem Inv.awake (h : Inv m J K s) : Inv m J K { s with stage := fun q => (s.stage q).awake } := by
  have hsame : ∀ c : Stage, c.awake.holdsLk = c.holdsLk ∧ c.awake.holdsTable = c.holdsTable ∧
      (c.awake.sleeps = true → c.sleeps = true) ∧ c.awake.wakes = c.wakes ∧
      c.awake.pending = c.pending := by
    intro c
    cases c <;> refine ⟨rfl, rfl, fun h => ?_, rfl, rfl⟩ <;> first | exact h | cases h
  refine ⟨h.lk.congr fun q => (hsame _).1, h.table.congr fun q => (hsame _).2.1,
    fun q r hq hr => ?_, h.data, fun q r hq hr => h.waiter q r ((hsame _).2.2.2.2 ▸ hq) hr⟩
  exact (h.sleeper q r ((hsame _).2.2.1 hq) hr).imp_right fun ⟨w, hw⟩ =>
    ⟨w, by rw [(hsame _).2.2.2.1]; exact hw⟩

theorem Inv.request (h : Inv m J K s) (hp : s.stage p = .out) (r : R) :
    Inv m J K { s with req := update s.req p (some r) } := by
  have hne : ∀ q, (s.stage q).pending = true → q ≠ p := by
    rintro q hq rfl
    rw [hp] at hq
    cases hq
  refine ⟨h.lk, h.table, fun q r' hq hr => ?_, h.data, fun q r' hq hr => ?_⟩
  · have hpending : (s.stage q).pending = true := by
      change (s.stage q).sleeps = true at hq
      cases hc : s.stage q <;> rw [hc] at hq <;> first | rfl | cases hq
    exact h.sleeper q r' hq ((update_of_ne (hne q hpending) _ _).symm.trans hr)
  · exact h.waiter q r' hq ((update_of_ne (hne q hq) _ _).symm.trans hr)

/-- The condition of the loop is true, and the request is served. -/
theorem Inv.pass (hm : Sound m J K) (h : Inv m J K s) (hp : s.stage p = .test)
    (hr : s.req p = some r) (hmay : m.may r s.data = true)
    (hs : s.goto p (if m.wakes r then .wake else .leave) = some s') :
    Inv m J K (s'.serve m p r) := by
  have hK := h.waiter p r (by rw [hp]; rfl) hr
  have h₁ : Inv m J K s' := h.move hs (by rw [hp]; split <;> rfl)
  obtain ⟨lk, table, -, -, rfl⟩ := goto_eq_some hs
  refine h₁.serve hm ?_ hK hmay fun hw => ?_
  · simp only [update_self]
    split <;> rfl
  · simp only [update_self, if_pos hw]
    rfl

/-- Every step of every process keeps the invariant. -/
theorem Inv.next (hm : Sound m J K) (h : Inv m J K s) {a : Act P R}
    (hs : next m s a = some s') : Inv m J K s' := by
  cases a with
  | start p r =>
    obtain ⟨⟨hp, hcalls⟩, hs⟩ := Option.ite_none_right_eq_some.mp hs
    refine (h.request hp r).goto hs (fun e => by cases e) (fun e => ?_) fun _ r' hr' => ?_
    · rw [show s.stage p = .out from hp] at e
      cases e
    · obtain rfl : r = r' := by simpa using hr'
      exact hm.starts p r _ _ h.data hcalls
  | test p =>
    simp only [Monitor.next] at hs
    split at hs
    · cases hs
    · next r hr =>
      obtain ⟨hp, hs⟩ := Option.ite_none_right_eq_some.mp hs
      split at hs
      · next hmay =>
        obtain ⟨s₁, hs₁, rfl⟩ := Option.map_eq_some_iff.mp hs
        exact h.pass hm hp hr hmay hs₁
      · next hmay =>
        refine h.goto hs (fun _ => .inr fun r' hr' => ?_) (fun e => ?_) fun _ r' hr' =>
          h.waiter p r' (by rw [hp]; rfl) hr'
        · cases hr.symm.trans hr'
          exact Bool.eq_false_of_not_eq_true hmay
        · rw [hp] at e
          cases e
  | quit p =>
    simp only [Monitor.next] at hs
    split at hs
    · cases hs
    · obtain ⟨⟨hp, -⟩, hs⟩ := Option.ite_none_right_eq_some.mp hs
      exact h.move hs (by rw [hp]; rfl)
  | move p =>
    simp only [Monitor.next] at hs
    split at hs
    · cases hs
    · next c hc => exact h.move hs (by cases hp : s.stage p <;> rw [hp] at hc <;> cases hc <;> rfl)
  | scan p =>
    obtain ⟨hp, hs⟩ := Option.ite_none_right_eq_some.mp hs
    refine h.awake.goto hs (fun e => by cases e) (fun _ => .inr fun q => ?_) fun e => by cases e
    exact h.not_sleeps_awake hp q
  | wake p =>
    obtain ⟨⟨hp, -⟩, hs⟩ := Option.ite_none_right_eq_some.mp hs
    exact h.move hs (by rw [hp]; rfl)

/-- **The invariant of a monitor** holds in every reachable state. -/
theorem Inv.run (hm : Sound m J K) {d : σ} (h₀ : J d fun _ => none) (hs : Run m d s) :
    Inv m J K s := by
  refine hs.invariant (I := Inv m J K) ?_ fun _ _ h ⟨_, hs⟩ => h.next hm hs
  rintro _ rfl
  exact ⟨fun p => by simp [start, Stage.holdsLk], fun p => by simp [start, Stage.holdsTable],
    fun p r hp => (by cases hp), h₀, fun p r hp => (by cases hp)⟩

omit [DecidableEq P] in
/-- **No wakeup is lost**: while the lock is free, a process that sleeps has a false condition. -/
theorem Inv.asleep (h : Inv m J K s) (hlk : s.lk = none) (hp : s.stage p = .asleep)
    (hr : s.req p = some r) : m.may r s.data = false := by
  refine (h.sleeper p r (by rw [hp]; rfl) hr).resolve_right fun ⟨q, hq⟩ => ?_
  -- who is bound to wake the others has the lock
  have hholds : (s.stage q).holdsLk = true := by
    cases hc : s.stage q <;> rw [hc] at hq <;> first | rfl | cases hq
  rw [(h.lk q).mp hholds] at hlk
  cases hlk

end Laboratorio.Monitor
