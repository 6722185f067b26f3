import Laboratorio.Lib.Reach
import Laboratorio.Lib.Scan

/-!
# The process table and the scheduler (`xv6/proc.c`)

Any number of CPUs run the kernel threads of the processes of one table. `ptable.lock` is held by a
CPU, and it passes across `swtch`: the scheduler acquires it and the process releases it, and the
other way round. `Cpu` says what a CPU executes, and `Pc` where the kernel thread of a process is.

A step lies between two points where locks, the table or the stack change. A process that holds no
lock can be interrupted, and then it may call `wakeup` or `yield` at any point, also in the middle of
`fork`.

`birth`, `births` and `reaped` are not in the source: they number the processes that there have
been, and list those that a `wait` has freed.
-/

namespace Laboratorio.Xv6.Ptable

open Function Laboratorio.Scan Laboratorio.Reach

/-! ## State -/

/-- `enum procstate` -/
inductive ProcState where
  | unused
  | embryo
  | sleeping
  | runnable
  | running
  | zombie
deriving DecidableEq, Repr

/-- What a process sleeps on: the address of a process, in `wait`, or another address. -/
inductive Chan (n : Nat) where
  | proc (p : Fin n)
  | addr (a : Nat)
deriving DecidableEq, Repr

/-- Where a process is while it holds no lock. -/
inductive Spot (n : Nat) where
  /-- outside of the functions below -/
  | user
  /-- in `fork`, after `allocproc` has found `np` -/
  | embryo (np : Fin n)
  /-- in `fork`, after `np->parent = curproc` -/
  | adopted (np : Fin n)
deriving DecidableEq, Repr

/-- Where the kernel thread of a process is. Everywhere but at a `spot` and after its end, its CPU
holds `ptable.lock`. -/
inductive Pc (n : Nat) where
  | spot (f : Spot n)
  /-- in `allocproc` -/
  | alloc
  /-- in `fork`, before `np->state = RUNNABLE` -/
  | publish (np : Fin n)
  /-- in `exit`, after `acquire` -/
  | exiting
  /-- in `exit`, at `sched` -/
  | zombie
  /-- at the top of the loop of `wait` -/
  | wait
  /-- in the `sleep` of `wait`, at `sched` -/
  | waitSwtch
  /-- in the `sleep` of `wait`, after `sched` -/
  | waitWoken
  /-- in `sleep`, after `acquire` -/
  | sleep (a : Nat)
  /-- in `sleep`, at `sched` -/
  | sleepSwtch
  /-- in `sleep`, after `sched` -/
  | sleepWoken
  /-- in `yield`, after `acquire` -/
  | yield (f : Spot n)
  /-- in `yield`, at `sched` -/
  | yieldSwtch (f : Spot n)
  /-- in `yield`, after `sched` -/
  | yieldBack (f : Spot n)
  /-- at the start of `forkret` -/
  | forkret
  /-- in `wakeup`, after `acquire` -/
  | waking (a : Nat) (f : Spot n)
  /-- in `kill`, after `acquire` -/
  | killing (pid : Int)
  /-- no kernel thread -/
  | dead
deriving DecidableEq, Repr

/-- `struct proc`, with its place, the result of its last call, and its number. -/
structure Proc (n : Nat) where
  state : ProcState
  pid : Int
  parent : Option (Fin n)
  chan : Option (Chan n)
  killed : Bool
  pc : Pc n
  ret : Int
  birth : Nat

/-- What a CPU executes. -/
inductive Cpu (n : Nat) where
  /-- the scheduler, before `acquire` -/
  | idle
  /-- the loop of the scheduler, at an index -/
  | scan (i : Nat)
  /-- the kernel thread of a process, on its stack -/
  | running (p : Fin n)
  /-- the scheduler, after `swtch` has come back from a process -/
  | back (p : Fin n)
deriving DecidableEq, Repr

/-- A `wait` that has freed a process: who called it, the number of the process, and the pid that it
returned. -/
structure Reap (n : Nat) where
  parent : Fin n
  child : Nat
  pid : Int
deriving DecidableEq, Repr

/-- `ptable`, `cpus` and `nextpid`. The pids are not bounded: that `nextpid` overflows after 2^31
calls of `fork` is left out. -/
structure State (C : Type) (n : Nat) where
  lock : Option C
  proc : C → Option (Fin n)
  cpu : C → Cpu n
  tab : Fin n → Proc n
  nextpid : Int
  births : Nat
  reaped : List (Reap n)

variable {C : Type} [DecidableEq C] {n : Nat}

/-! ## The functions of `proc.c` -/

/-- Change the entry of process `p`. -/
def State.set (s : State C n) (p : Fin n) (x : Proc n) : State C n :=
  { s with tab := update s.tab p x }

/-- Process `p` goes on at `pc`. -/
def State.goto (s : State C n) (p : Fin n) (pc : Pc n) : State C n :=
  s.set p { s.tab p with pc := pc }

/-- Process `p` returns from a call with a result. -/
def State.return (s : State C n) (p : Fin n) (ret : Int) : State C n :=
  s.set p { s.tab p with pc := .spot .user, ret := ret }

/-- `release(&ptable.lock)` -/
def State.release (s : State C n) : State C n := { s with lock := none }

/-- `acquire(&ptable.lock)` by process `p` on CPU `c`, which goes on at `pc`. -/
def State.acquire (s : State C n) (c : C) (p : Fin n) (pc : Pc n) : Option (State C n) :=
  if s.lock = none then some ({ s with lock := some c }.goto p pc) else none

/-- `swtch` from process `p` to the scheduler of CPU `c`; the process will go on at `pc`. -/
def State.swtch (s : State C n) (c : C) (p : Fin n) (pc : Pc n) : State C n :=
  { s.goto p pc with cpu := update s.cpu c (.back p) }

/-- `wakeup1` -/
def State.wakeup1 (s : State C n) (chan : Option (Chan n)) : State C n :=
  { s with tab := fun q =>
      if (s.tab q).state = .sleeping ∧ (s.tab q).chan = chan then
        { s.tab q with state := .runnable }
      else s.tab q }

/-- The critical section of `allocproc`: the process goes on in `fork`, or `fork` returns. -/
def State.allocproc (s : State C n) (p : Fin n) : State C n :=
  match first fun q => decide ((s.tab q).state = .unused) with
  | none => (s.return p (-1)).release
  | some np =>
    ({ s.set np { s.tab np with
        state := .embryo, pid := s.nextpid, pc := .forkret, birth := s.births } with
      nextpid := s.nextpid + 1, births := s.births + 1 }.goto p (.spot (.embryo np))).release

/-- The end of `fork`: the child is runnable. -/
def State.publish (s : State C n) (p np : Fin n) : State C n :=
  ((s.set np { s.tab np with state := .runnable }).return p (s.tab np).pid).release

/-- The loop of `exit` over the children of process `p`. -/
def State.abandon (s : State C n) (initproc p : Fin n) : State C n :=
  let t := { s with tab := fun q =>
    if (s.tab q).parent = some p then { s.tab q with parent := some initproc } else s.tab q }
  if ∃ q, (s.tab q).parent = some p ∧ (s.tab q).state = .zombie then
    t.wakeup1 (some (.proc initproc))
  else t

/-- The critical section of `exit`, up to `sched`. -/
def State.exit (s : State C n) (initproc p : Fin n) : State C n :=
  let t := (s.wakeup1 ((s.tab p).parent.map .proc)).abandon initproc p
  t.set p { t.tab p with state := .zombie, pc := .zombie }

/-- What `wait` does with a zombie `q`. -/
def State.reap (s : State C n) (p q : Fin n) : State C n :=
  (({ s.set q { s.tab q with pid := 0, parent := none, killed := false, state := .unused } with
    reaped := ⟨p, (s.tab q).birth, (s.tab q).pid⟩ :: s.reaped }).return p (s.tab q).pid).release

/-- One round of the loop of `wait`. -/
def State.wait (s : State C n) (p : Fin n) : State C n :=
  match first fun q => decide ((s.tab q).parent = some p ∧ (s.tab q).state = .zombie) with
  | some q => s.reap p q
  | none =>
    if (∀ q, (s.tab q).parent ≠ some p) ∨ (s.tab p).killed then (s.return p (-1)).release
    else s.set p { s.tab p with chan := some (.proc p), state := .sleeping, pc := .waitSwtch }

/-- The critical section of `kill`. -/
def State.kill (s : State C n) (p : Fin n) (pid : Int) : State C n :=
  match first fun q => decide ((s.tab q).pid = pid) with
  | none => (s.return p (-1)).release
  | some q =>
    ((s.set q { s.tab q with
      killed := true
      state := if (s.tab q).state = .sleeping then .runnable else (s.tab q).state }).return p
      0).release

/-! ## Steps -/

/-- What a process does next where it has a choice: a call, or, in `fork`, whether `kalloc` or
`copyuvm` fails. -/
inductive Act where
  | go
  | fail
  | fork
  | exit
  | wait
  | sleep (a : Nat)
  | wakeup (a : Nat)
  | kill (pid : Int)
  | yield
deriving DecidableEq, Repr

/-- A step of process `p` at a spot, on CPU `c`. -/
def State.atSpot (initproc : Fin n) (s : State C n) (c : C) (p : Fin n) (f : Spot n) :
    Act → Option (State C n)
  | .yield => s.acquire c p (.yield f)
  | .wakeup a => s.acquire c p (.waking a f)
  | .fork => if f = .user then s.acquire c p .alloc else none
  | .exit => if f = .user ∧ p ≠ initproc then s.acquire c p .exiting else none
  | .wait => if f = .user then s.acquire c p .wait else none
  | .sleep a => if f = .user then s.acquire c p (.sleep a) else none
  | .kill pid => if f = .user then s.acquire c p (.killing pid) else none
  | .fail =>
    match f with
    | .embryo np => some ((s.set np { s.tab np with state := .unused, pc := .dead }).return p (-1))
    | _ => none
  | .go =>
    match f with
    | .embryo np =>
      some ((s.set np { s.tab np with parent := some p }).goto p (.spot (.adopted np)))
    | .adopted np => s.acquire c p (.publish np)
    | .user => none

/-- A step of process `p` on CPU `c`. -/
def State.thread (initproc : Fin n) (s : State C n) (c : C) (p : Fin n) (a : Act) :
    Option (State C n) :=
  match (s.tab p).pc with
  | .spot f => s.atSpot initproc c p f a
  | .alloc => some (s.allocproc p)
  | .publish np => some (s.publish p np)
  | .exiting => some (s.exit initproc p)
  | .zombie => some (s.swtch c p .dead)
  | .wait => some (s.wait p)
  | .waitSwtch => some (s.swtch c p .waitWoken)
  | .waitWoken => some (s.set p { s.tab p with chan := none, pc := .wait })
  | .sleep a => some (s.set p { s.tab p with
      chan := some (.addr a), state := .sleeping, pc := .sleepSwtch })
  | .sleepSwtch => some (s.swtch c p .sleepWoken)
  | .sleepWoken => some (s.set p { s.tab p with chan := none, pc := .spot .user }).release
  | .yield f => some (s.set p { s.tab p with state := .runnable, pc := .yieldSwtch f })
  | .yieldSwtch f => some (s.swtch c p (.yieldBack f))
  | .yieldBack f => some (s.goto p (.spot f)).release
  | .forkret => some (s.goto p (.spot .user)).release
  | .waking a f => some ((s.wakeup1 (some (.addr a))).goto p (.spot f)).release
  | .killing pid => some (s.kill p pid)
  | .dead => none

/-- A step of CPU `c`. -/
def State.step (initproc : Fin n) (s : State C n) (c : C) (a : Act) : Option (State C n) :=
  match s.cpu c with
  | .idle =>
    if s.lock = none then
      match a with
      -- an interrupt
      | .wakeup a => some (s.wakeup1 (some (.addr a)))
      | _ => some { s with lock := some c, cpu := update s.cpu c (.scan 0) }
    else none
  | .scan i =>
    if h : i < n then
      if (s.tab ⟨i, h⟩).state = .runnable then
        some { s.set ⟨i, h⟩ { s.tab ⟨i, h⟩ with state := .running } with
          proc := update s.proc c (some ⟨i, h⟩)
          cpu := update s.cpu c (.running ⟨i, h⟩) }
      else some { s with cpu := update s.cpu c (.scan (i + 1)) }
    else some { s with lock := none, cpu := update s.cpu c .idle }
  | .running p => s.thread initproc c p a
  | .back p =>
    some { s with
      proc := update s.proc c none
      cpu := update s.cpu c (.scan (p + 1)) }

/-- One step of any CPU. -/
def Step (initproc : Fin n) (s s' : State C n) : Prop := ∃ c a, s.step initproc c a = some s'

/-- After `userinit`: the first process is runnable. -/
def State.boot (initproc : Fin n) : State C n where
  lock := none
  proc _ := none
  cpu _ := .idle
  tab p :=
    if p = initproc then ⟨.runnable, 1, none, none, false, .forkret, 0, 0⟩
    else ⟨.unused, 0, none, none, false, .dead, 0, 0⟩
  nextpid := 2
  births := 1
  reaped := []

end Laboratorio.Xv6.Ptable
