import Laboratorio.Lib.Reach
import Laboratorio.Lib.Wp

/-!
# Spin locks and interrupts (`xv6/spinlock.c`)

Every CPU acquires and releases spin locks, in any order. `pushcli` turns interrupts off and counts;
`popcli` counts down, and at 0 turns them on again if they were on before. Both are also called by
`holding`, which `acquire` and `release` begin with, and by `myproc`.

The CPUs run side by side: what one of them does between two accesses to a lock is one step. A CPU
that waits in `acquire` for another one spins. A CPU only acquires locks that it does not hold and
releases those that it holds; the state keeps which ones these are, and who took a lock, for the
proofs only.

`Depth` says how `ncli`, `intena` and the interrupt flag of a CPU belong together. `interrupts_off`
says what follows in every state.
-/

namespace Laboratorio.Xv6.Spinlock

open Function (update update_apply update_eq_self update_of_ne update_self)
open Laboratorio.Wp Laboratorio.Reach

inductive Panic where
  | acquire
  | release
  /-- `popcli - interruptible` -/
  | interruptible
  | popcli
  /-- `mycpu called with interrupts enabled` -/
  | mycpu
deriving DecidableEq

/-- A CPU: its `struct cpu`, and the interrupt flag `FL_IF` -/
structure Cpu where
  ncli : Int
  intena : Bool
  iflag : Bool

/-- `struct spinlock` -/
structure Lock (C : Type) where
  locked : Bool
  cpu : Option C

/-- What a CPU computes on its own. -/
abbrev M := StateT Cpu (Except Panic)

/-- The check in `mycpu` -/
def mycpu : M Unit := do
  if (← get).iflag then
    throw .mycpu

/-- `pushcli` -/
def pushcli : M Unit := do
  let eflags := (← get).iflag
  modify fun x => { x with iflag := false }
  mycpu
  if (← get).ncli = 0 then
    modify fun x => { x with intena := eflags }
  modify fun x => { x with ncli := x.ncli + 1 }

/-- `popcli` -/
def popcli : M Unit := do
  if (← get).iflag then
    throw .interruptible
  mycpu
  modify fun x => { x with ncli := x.ncli - 1 }
  if (← get).ncli < 0 then
    throw .popcli
  if (← get).ncli = 0 ∧ (← get).intena = true then
    modify fun x => { x with iflag := true }

variable {C L : Type} [DecidableEq C] [DecidableEq L]

/-- `holding`, on CPU `c` -/
def holding (c : C) (lk : Lock C) : M Bool := do
  pushcli
  mycpu
  let r := lk.locked && lk.cpu = some c
  popcli
  return r

/-- `myproc` -/
def myproc : M Unit := do
  pushcli
  mycpu
  popcli

/-- Where a CPU is. -/
inductive Place (L : Type) where
  /-- Outside of the functions for locks -/
  | out
  /-- In `acquire`, at `xchg` -/
  | spin (l : L)
  /-- In `acquire`, before `lk->cpu = mycpu()` -/
  | took (l : L)
  /-- In `release`, before `lk->locked = 0` -/
  | clear (l : L)

/-- What a CPU does next. -/
inductive Op (L : Type) where
  | acquire (l : L)
  | release (l : L)
  | holding (l : L)
  | myproc
  | go

structure State (C L : Type) where
  cpu : C → Cpu
  lock : L → Lock C
  place : C → Place L
  /-- The locks that a CPU has acquired and not released. -/
  held : C → Finset L
  /-- The CPU whose `xchg` has taken the lock. -/
  owner : L → Option C

namespace State

variable (s : State C L) (c : C)

/-- CPU `c` computes `x`, and then the state changes by `f`. -/
def on {α : Type} (x : M α) (f : State C L → State C L) : Except Panic (State C L) :=
  match x (s.cpu c) with
  | .ok (_, y) => .ok (f { s with cpu := update s.cpu c y })
  | .error e => .error e

def goto (pl : Place L) : State C L := { s with place := update s.place c pl }

/-- `acquire`, up to the loop -/
def acquire (l : L) : Except Panic (State C L) :=
  s.on c (do
      pushcli
      if ← Spinlock.holding c (s.lock l) then
        throw .acquire) fun s => s.goto c (.spin l)

/-- `xchg(&lk->locked, 1)` -/
def xchg (l : L) : State C L :=
  if (s.lock l).locked then s
  else
    { s with
      lock := update s.lock l { s.lock l with locked := true }
      owner := update s.owner l (some c)
      place := update s.place c (.took l) }

/-- The end of `acquire` -/
def acquired (l : L) : Except Panic (State C L) :=
  s.on c mycpu fun s =>
    { s with
      lock := update s.lock l { s.lock l with cpu := some c }
      held := update s.held c (insert l (s.held c))
      place := update s.place c .out }

/-- `release`, up to `lk->cpu = 0` -/
def release (l : L) : Except Panic (State C L) :=
  s.on c (do
      if !(← Spinlock.holding c (s.lock l)) then
        throw .release) fun s =>
    { s with
      lock := update s.lock l { s.lock l with cpu := none }
      place := update s.place c (.clear l) }

/-- The end of `release` -/
def released (l : L) : Except Panic (State C L) :=
  s.on c popcli fun s =>
    { s with
      lock := update s.lock l { s.lock l with locked := false }
      owner := update s.owner l none
      held := update s.held c ((s.held c).erase l)
      place := update s.place c .out }

/-- A step of CPU `c`, which acquires only what it does not hold, and releases only what it holds. -/
def step (op : Op L) : Option (Except Panic (State C L)) :=
  match s.place c, op with
  | .out, .acquire l => if l ∉ s.held c then some (s.acquire c l) else none
  | .out, .release l => if l ∈ s.held c then some (s.release c l) else none
  | .out, .holding l => some (s.on c (Spinlock.holding c (s.lock l)) id)
  | .out, .myproc => some (s.on c Spinlock.myproc id)
  | .spin l, .go => some (.ok (s.xchg c l))
  | .took l, .go => some (s.acquired c l)
  | .clear l, .go => some (s.released c l)
  | _, _ => none

/-- No CPU has a lock; the interrupt flags are any. -/
structure Start : Prop where
  ncli : ∀ c, (s.cpu c).ncli = 0
  lock : ∀ l, s.lock l = ⟨false, none⟩
  place : ∀ c, s.place c = .out
  held : ∀ c, s.held c = ∅
  owner : ∀ l, s.owner l = none

end State

def Step (s s' : State C L) : Prop := ∃ c op, s.step c op = some (.ok s')

/-! ## One CPU -/

/-- `pushcli` has been called `n` times more than `popcli`, and before that the interrupt flag was
`b`. -/
structure Depth (b : Bool) (n : Nat) (x : Cpu) : Prop where
  ncli : x.ncli = n
  on : n = 0 → x.iflag = b
  off : 0 < n → x.iflag = false ∧ x.intena = b

variable {b : Bool} {n : Nat} {x : Cpu}

theorem wp_mycpu {E : Panic → Prop} (h : Depth b (n + 1) x) : wp mycpu (fun _ y => y = x) E x := by
  unfold mycpu
  rw [wp_bind, wp_get, if_neg (by rw [(h.off (Nat.succ_pos n)).1]; exact Bool.false_ne_true)]
  rfl

theorem wp_pushcli {E : Panic → Prop} (h : Depth b n x) :
    wp pushcli (fun _ y => Depth b (n + 1) y) E x := by
  have hncli := h.ncli
  unfold pushcli mycpu
  simp only [wp_bind, wp_get, wp_modify, Bool.false_eq_true, ↓reduceIte, wp_pure]
  by_cases hn : n = 0
  · rw [if_pos (by omega)]
    exact ⟨by simp [hncli], fun h0 => absurd h0 n.succ_ne_zero, fun _ => ⟨rfl, h.on hn⟩⟩
  · rw [if_neg (by omega)]
    exact ⟨by simp [hncli], fun h0 => absurd h0 n.succ_ne_zero, fun _ => ⟨rfl, (h.off (Nat.pos_of_ne_zero hn)).2⟩⟩

theorem wp_popcli {E : Panic → Prop} (h : Depth b (n + 1) x) :
    wp popcli (fun _ y => Depth b n y) E x := by
  have hncli := h.ncli
  obtain ⟨hoff, hintena⟩ := h.off (Nat.succ_pos n)
  unfold popcli
  rw [wp_bind, wp_get, if_neg (by rw [hoff]; exact Bool.false_ne_true)]
  refine wp_then (wp_mycpu h) (fun _ y hy => ?_)
  subst hy
  simp only [wp_bind, wp_get, wp_modify]
  rw [if_neg (by omega)]
  simp only [wp_bind, wp_get, wp_ite, wp_modify, wp_pure]
  have hpred : y.ncli - 1 = n := by omega
  refine ⟨fun hon => ⟨hpred, fun _ => ?_, fun hpos => ?_⟩, fun hno => ⟨hpred, fun hn => ?_, fun _ => ?_⟩⟩
  · exact hon.2.symm.trans hintena
  · omega
  · -- at 0 nothing is turned on when it was off before
    rw [hintena, hpred, hn] at hno
    show y.iflag = b
    rw [hoff, Bool.eq_false_iff.mpr fun hb => hno ⟨rfl, hb⟩]
  · exact ⟨hoff, hintena⟩

theorem wp_holding {E : Panic → Prop} (h : Depth b n x) (c : C) (lk : Lock C) :
    wp (holding c lk) (fun r y => Depth b n y ∧ r = (lk.locked && lk.cpu = some c)) E x := by
  unfold holding
  refine wp_then (wp_pushcli h) (fun _ y hy => ?_)
  refine wp_then (wp_mycpu hy) (fun _ z hz => ?_)
  subst hz
  exact wp_then (wp_popcli hy) (fun _ w hw => ⟨hw, rfl⟩)

theorem wp_myproc {E : Panic → Prop} (h : Depth b n x) : wp myproc (fun _ y => Depth b n y) E x := by
  unfold myproc
  refine wp_then (wp_pushcli h) (fun _ y hy => ?_)
  refine wp_then (wp_mycpu hy) (fun _ z hz => ?_)
  subst hz
  exact wp_popcli hy

/-! ## All CPUs -/

/-- How many calls of `pushcli` of `acquire` are still to be answered by `release`, besides those of
the locks held. -/
def Place.extra : Place L → Nat
  | .spin _ | .took _ => 1
  | _ => 0

/-- **What holds in every state** of a run from `s₀`. -/
structure Inv (s₀ s : State C L) : Prop where
  depth : ∀ c, Depth (s₀.cpu c).iflag ((s.held c).card + (s.place c).extra) (s.cpu c)
  spin : ∀ {c l}, s.place c = .spin l → l ∉ s.held c
  took : ∀ {c l}, s.place c = .took l → l ∉ s.held c ∧ s.owner l = some c
  clear : ∀ {c l}, s.place c = .clear l → l ∈ s.held c ∧ (s.lock l).cpu = none
  locked : ∀ l, (s.lock l).locked = (s.owner l).isSome
  held : ∀ {c l}, l ∈ s.held c → s.owner l = some c ∧
    (s.place c = .clear l ∨ (s.lock l).cpu = some c)
  cpu : ∀ {c l}, (s.lock l).cpu = some c → l ∈ s.held c

variable {s₀ s : State C L} {c : C} {l : L}

omit [DecidableEq C] [DecidableEq L] in
theorem State.Start.inv (h : s₀.Start) : Inv s₀ s₀ where
  depth c := by
    rw [h.held, h.place]
    exact ⟨h.ncli c, fun _ => rfl, fun hpos => absurd hpos (lt_irrefl 0)⟩
  spin {c l} hc := by
    rw [h.place] at hc
    cases hc
  took {c l} hc := by
    rw [h.place] at hc
    cases hc
  clear {c l} hc := by
    rw [h.place] at hc
    cases hc
  locked l := by
    rw [h.lock, h.owner]
    rfl
  held {c l} hl := by
    rw [h.held] at hl
    exact absurd hl (Finset.notMem_empty l)
  cpu {c l} hl := by
    rw [h.lock] at hl
    cases hl

omit [DecidableEq L] in
/-- A CPU that computes without a panic goes on. -/
theorem State.on_ok {α : Type} {x : M α} {Q : Cpu → Prop} (s : State C L)
    (h : wp x (fun _ y => Q y) (fun _ => False) (s.cpu c)) (f : State C L → State C L) :
    ∃ y, Q y ∧ s.on c x f = .ok (f { s with cpu := update s.cpu c y }) := by
  obtain ⟨a, y, hx, hy⟩ := h.exists_ok
  exact ⟨y, hy, by rw [State.on, hx]⟩

/-- In its own step, `holding` says whether the CPU holds the lock. -/
theorem Inv.holds_iff (h : Inv s₀ s) (hout : s.place c = .out) :
    ((s.lock l).locked && (s.lock l).cpu = some c) = decide (l ∈ s.held c) := by
  rw [h.locked]
  by_cases hl : l ∈ s.held c
  · obtain ⟨howner, hcpu⟩ := h.held hl
    rw [hout] at hcpu
    simp [howner, hcpu.resolve_left nofun, hl]
  · have hcpu : (s.lock l).cpu ≠ some c := hl ∘ h.cpu
    simp [hcpu, hl]

omit [DecidableEq L] in
/-- CPU `c` counts as its new place and locks say. -/
theorem Inv.depth_update (h : Inv s₀ s) {y : Cpu} (pl : Place L) {H : Finset L}
    (hy : Depth (s₀.cpu c).iflag (H.card + pl.extra) y) (c' : C) :
    Depth (s₀.cpu c').iflag ((update s.held c H c').card +
      (update s.place c pl c').extra) (update s.cpu c y c') := by
  by_cases hc : c' = c
  · subst hc
    simpa only [update_self] using hy
  · simpa only [update_of_ne hc] using h.depth c'

omit [DecidableEq C] [DecidableEq L] in
theorem Inv.depth_out (h : Inv s₀ s) (hout : s.place c = .out) :
    Depth (s₀.cpu c).iflag (s.held c).card (s.cpu c) := by
  have hdepth := h.depth c
  rw [hout] at hdepth
  exact hdepth

theorem Inv.acquire (h : Inv s₀ s) (hout : s.place c = .out) (hl : l ∉ s.held c) :
    ∃ s', s.acquire c l = .ok s' ∧ Inv s₀ s' := by
  have hwp : wp (do
      pushcli
      if ← Spinlock.holding c (s.lock l) then
        throw .acquire) (fun _ y => Depth (s₀.cpu c).iflag ((s.held c).card + 1) y)
      (fun _ => False) (s.cpu c) := by
    refine wp_then (wp_pushcli (h.depth_out hout)) (fun _ y hy => ?_)
    refine wp_then (wp_holding hy c (s.lock l)) (fun r z hz => ?_)
    rw [hz.2, h.holds_iff hout, if_neg (by simpa using hl)]
    exact hz.1
  obtain ⟨y, hy, he⟩ := s.on_ok hwp fun s => s.goto c (.spin l)
  refine ⟨_, he, ?_⟩
  have := h.depth_update (.spin l) hy
  obtain ⟨_, hspin, htook, hclear, hlocked, hheld, hcpu⟩ := h
  simp only [State.goto]
  constructor <;> grind [update_apply]

theorem Inv.xchg (h : Inv s₀ s) (hspin : s.place c = .spin l) : Inv s₀ (s.xchg c l) := by
  unfold State.xchg
  split
  · exact h
  · next hfree =>
    have hdepth := h.depth c
    rw [hspin] at hdepth
    have := h.depth_update (.took l) (y := s.cpu c) hdepth
    have hn := h.locked l
    obtain ⟨_, hsp, htook, hclear, hlocked, hheld, hcpu⟩ := h
    constructor <;> grind [update_apply]

theorem Inv.acquired (h : Inv s₀ s) (htook : s.place c = .took l) :
    ∃ s', s.acquired c l = .ok s' ∧ Inv s₀ s' := by
  obtain ⟨hl, howner⟩ := h.took htook
  have hdepth := h.depth c
  rw [htook] at hdepth
  obtain ⟨y, rfl, he⟩ := s.on_ok (wp_mycpu hdepth) _
  refine ⟨_, he, ?_⟩
  have hcount := h.depth_update .out (y := s.cpu c) (H := insert l (s.held c))
    (by rw [Finset.card_insert_of_notMem hl]; exact hdepth)
  obtain ⟨_, hspin, htook', hclear, hlocked, hheld, hcpu⟩ := h
  constructor <;> grind [update_apply]

theorem Inv.release (h : Inv s₀ s) (hout : s.place c = .out) (hl : l ∈ s.held c) :
    ∃ s', s.release c l = .ok s' ∧ Inv s₀ s' := by
  have hwp : wp (do
      if !(← Spinlock.holding c (s.lock l)) then
        throw .release) (fun _ y => Depth (s₀.cpu c).iflag (s.held c).card y)
      (fun _ => False) (s.cpu c) := by
    refine wp_then (wp_holding (h.depth_out hout) c (s.lock l)) (fun r z hz => ?_)
    rw [hz.2, h.holds_iff hout, if_neg (by simpa using hl)]
    exact hz.1
  obtain ⟨y, hy, he⟩ := s.on_ok hwp _
  refine ⟨_, he, ?_⟩
  have hcount := h.depth_update (.clear l) hy
  obtain ⟨_, hspin, htook, hclear, hlocked, hheld, hcpu⟩ := h
  constructor <;> grind [update_apply]

theorem Inv.released (h : Inv s₀ s) (hclear : s.place c = .clear l) :
    ∃ s', s.released c l = .ok s' ∧ Inv s₀ s' := by
  have hl := (h.clear hclear).1
  have hdepth := h.depth c
  have hcard := Finset.card_erase_add_one hl
  rw [hclear, ← hcard] at hdepth
  obtain ⟨y, hy, he⟩ := s.on_ok (wp_popcli hdepth) _
  refine ⟨_, he, ?_⟩
  have hcount := h.depth_update .out hy
  obtain ⟨_, hspin, htook, hclear', hlocked, hheld, hcpu⟩ := h
  constructor <;> grind [update_apply]

omit [DecidableEq L] in
/-- A CPU that calls `holding` or `myproc`. -/
theorem Inv.call {α : Type} {x : M α} (h : Inv s₀ s) (hout : s.place c = .out)
    (hx : wp x (fun _ y => Depth (s₀.cpu c).iflag (s.held c).card y) (fun _ => False) (s.cpu c)) :
    ∃ s', s.on c x id = .ok s' ∧ Inv s₀ s' := by
  obtain ⟨y, hy, he⟩ := s.on_ok hx id
  have hcount := h.depth_update .out (H := s.held c) hy
  rw [← hout, update_eq_self, update_eq_self] at hcount
  exact ⟨_, he, hcount, h.spin, h.took, h.clear, h.locked, h.held, h.cpu⟩

/-- **No step panics**, and every step keeps the invariant. -/
theorem Inv.step (h : Inv s₀ s) {op : Op L} {r : Except Panic (State C L)}
    (hs : s.step c op = some r) : ∃ s', r = .ok s' ∧ Inv s₀ s' := by
  unfold State.step at hs
  split at hs
  · next l hout =>
    split at hs
    · next hl =>
      cases hs
      exact h.acquire hout hl
    · cases hs
  · next l hout =>
    split at hs
    · next hl =>
      cases hs
      exact h.release hout hl
    · cases hs
  · next l hout =>
    cases hs
    exact h.call hout (wp_post (wp_holding (h.depth_out hout) c _) (fun _ _ hy => hy.1))
  · next hout =>
    cases hs
    exact h.call hout (wp_myproc (h.depth_out hout))
  · next l hspin =>
    cases hs
    exact ⟨_, rfl, h.xchg hspin⟩
  · next l htook =>
    cases hs
    exact h.acquired htook
  · next l hclear =>
    cases hs
    exact h.released hclear
  · cases hs

/-- **Interrupts are off while a lock is held.** In every state of a run from a state without locks,
and for every CPU: outside of the functions for locks, the CPU holds the locks that it has acquired
and not released, and `ncli` is their number. Interrupts are off when `ncli` is positive; when it is
0, the interrupt flag is what it was at the beginning. And the next step does not panic. -/
theorem interrupts_off (h₀ : s₀.Start) (h : Reachable (· = s₀) Step s) (c : C) :
    (s.place c = .out → (s.cpu c).ncli = (s.held c).card ∧
      ∀ l, l ∈ s.held c ↔ (s.lock l).locked = true ∧ (s.lock l).cpu = some c) ∧
    (0 < (s.cpu c).ncli → (s.cpu c).iflag = false) ∧
    ((s.cpu c).ncli = 0 → (s.cpu c).iflag = (s₀.cpu c).iflag) ∧
    ∀ op e, s.step c op ≠ some (.error e) := by
  have hinv : Inv s₀ s := by
    refine h.invariant (fun s hs => hs ▸ h₀.inv) fun s s' hs ⟨c, op, hstep⟩ => ?_
    obtain ⟨s'', he, hs''⟩ := hs.step hstep
    cases he
    exact hs''
  have hdepth := hinv.depth c
  have hncli := hdepth.ncli
  refine ⟨fun hout => ⟨(hinv.depth_out hout).ncli, fun l => ?_⟩, fun hpos => ?_, fun hzero => ?_,
    fun op e he => ?_⟩
  · have hholds := hinv.holds_iff (l := l) hout
    rw [← decide_eq_true_iff (p := l ∈ s.held c), ← hholds, Bool.and_eq_true, decide_eq_true_iff]
  · exact (hdepth.off (by omega)).1
  · exact hdepth.on (by omega)
  · obtain ⟨s', hr, -⟩ := hinv.step he
    cases hr

/-- Two CPUs and two locks; interrupts are on. -/
def State.idle : State (Fin 2) (Fin 2) :=
  ⟨fun _ => ⟨0, false, true⟩, fun _ => ⟨false, none⟩, fun _ => .out, fun _ => ∅, fun _ => none⟩

theorem State.start_idle : State.idle.Start :=
  ⟨fun _ => rfl, fun _ => rfl, fun _ => rfl, fun _ => rfl, fun _ => rfl⟩

/-- CPU 0 acquires two locks and releases the first one first; CPU 1 spins for that. -/
def handOver : List (Fin 2 × Op (Fin 2)) :=
  [(0, .acquire 0), (0, .go), (1, .acquire 0), (1, .go), (0, .go), (0, .acquire 1), (0, .go),
    (0, .go), (0, .release 0), (1, .go), (0, .go), (1, .go), (0, .myproc), (1, .go)]

/-- After that run each of the CPUs has one lock, and interrupts are off. -/
theorem interrupts_off_handOver : ∃ s : State (Fin 2) (Fin 2),
    run (fun s t => (s.step t.1 t.2).bind Except.toOption) State.idle handOver = some s ∧
      (s.cpu 0).ncli = 1 ∧ (s.cpu 1).ncli = 1 ∧ (s.cpu 0).iflag = false ∧
      (s.cpu 1).iflag = false := by
  have hend : ((run (fun s t => (s.step t.1 t.2).bind Except.toOption) State.idle handOver).map
      fun s => decide ((s.cpu 0).ncli = 1 ∧ (s.cpu 1).ncli = 1)) = some true := by
    decide +kernel
  obtain ⟨s, hs, hn⟩ := Option.map_eq_some_iff.mp hend
  obtain ⟨h0, h1⟩ := of_decide_eq_true hn
  have hr : Reachable (· = State.idle) Step s := by
    refine reachable_of_run (fun s t s' h => ?_) (.init rfl) hs
    obtain ⟨r, hr, hok⟩ := Option.bind_eq_some_iff.mp h
    cases r with
    | ok s'' =>
      cases hok
      exact ⟨t.1, t.2, hr⟩
    | error e => cases hok
  exact ⟨s, hs, h0, h1, (interrupts_off State.start_idle hr 0).2.1 (by omega),
    (interrupts_off State.start_idle hr 1).2.1 (by omega)⟩

end Laboratorio.Xv6.Spinlock
