import Laboratorio.Lib.Reach
import Laboratorio.Lib.Scan
import Laboratorio.Lib.Slots

/-!
# The paging simulator (`lab-07/sim.c`)

The simulator keeps a physical memory of `TAM_PRIMARY` frames, a secondary store of `TAM_SECONDARY`
slots, and one page table per process. Every pair `pid`, `page` read from standard input is one
access: `main` creates the process when it is new, and `modify_process` brings the page in.

* `modifyProcess` follows the C function loop by loop. Each `for` loop that stops at its first match
  is a `first`; the loop that looks for the smallest counter is `scanLess`.
* The local `rem_memory` is not initialised in C. The scan leaves it alone when no counter is below
  `NUM_MAX`, so its indeterminate value is an argument of the model (`rem`): every statement about
  the simulator quantifies over it.
* A store to `processes[pid].page[page - 1]` with an index outside the arrays is `Fault.outOfBounds`.
* The counters are C `int`s and are kept modulo `2 ^ 32` (`toInt32`).
-/

namespace Laboratorio.Sim

open Function Laboratorio.Scan

abbrev maxProcess : Nat := 100
abbrev tamProcess : Nat := 16
abbrev tamPrimary : Nat := 8
abbrev tamSecondary : Nat := 16
abbrev numMax : Int := 1000

/-- `struct process`. -/
structure Process where
  pid : Int
  page : Fin tamProcess → Int
  created : Bool

/-- `struct memory`: what a frame or a secondary slot holds. `process` is `-1` when it is free. -/
structure Memory where
  process : Int
  page : Int
  fifo : Int
  lru : Int
  deriving DecidableEq, Repr

/-- The global variables of `sim.c`. -/
structure State where
  processes : Fin maxProcess → Process
  primary : Fin tamPrimary → Memory
  secondary : Fin tamSecondary → Memory
  contFIFO : Int
  contLRU : Int

/-- The replacement algorithm, `argv[1]`: `-f` or `-l`. `main` refuses any other. -/
inductive Policy where
  | fifo
  | lru
  deriving DecidableEq, Repr

inductive Fault where
  | outOfBounds
  deriving DecidableEq, Repr

/-- How a call of `modify_process` ends: it returns, or it prints the tables and calls `exit(0)`. -/
inductive Outcome where
  | running (s : State)
  | exited (s : State)

/-- The state a call ends in. -/
def Outcome.state : Outcome → State
  | .running s => s
  | .exited s => s

/-- The value a C `int` holds after an assignment. -/
def toInt32 (x : Int) : Int := Int.bmod x (2 ^ 32)

/-- The entry is the page `page` of the process `pid`. -/
def Memory.holds (m : Memory) (pid page : Int) : Bool := m.process == pid && m.page == page

/-- The counter an algorithm looks at. -/
def Memory.stamp (m : Memory) : Policy → Int
  | .fifo => m.fifo
  | .lru => m.lru

/-- Overwrite the page of an entry and the counter of the algorithm; the other counter stays. -/
def Memory.assign (m : Memory) (option : Policy) (process page stamp : Int) : Memory :=
  match option with
  | .fifo => { m with process := process, page := page, fifo := stamp }
  | .lru => { m with process := process, page := page, lru := stamp }

namespace State

/-- `cont_FIFO` or `cont_LRU`. -/
def counter (s : State) : Policy → Int
  | .fifo => s.contFIFO
  | .lru => s.contLRU

/-- `cont_FIFO++` or `cont_LRU++`. -/
def bump (s : State) : Policy → State
  | .fifo => { s with contFIFO := toInt32 (s.contFIFO + 1) }
  | .lru => { s with contLRU := toInt32 (s.contLRU + 1) }

def setPrimary (s : State) (i : Fin tamPrimary) (m : Memory) : State :=
  { s with primary := update s.primary i m }

def setSecondary (s : State) (i : Fin tamSecondary) (m : Memory) : State :=
  { s with secondary := update s.secondary i m }

/-- `processes[pid].page[page - 1] = i`. -/
def setPage (s : State) (pid page : Int) (i : Nat) : Except Fault State :=
  if h : (0 ≤ pid ∧ pid < maxProcess) ∧ (0 ≤ page - 1 ∧ page - 1 < tamProcess) then
    let p : Fin maxProcess := ⟨pid.toNat, by omega⟩
    let j : Fin tamProcess := ⟨(page - 1).toNat, by omega⟩
    let process := { s.processes p with page := update (s.processes p).page j (i : Int) }
    .ok { s with processes := update s.processes p process }
  else .error .outOfBounds

end State

/-- `create_process`. -/
def createProcess (pid : Int) (s : State) : Except Fault State :=
  if h : 0 ≤ pid ∧ pid < maxProcess then
    let process : Process := { pid := pid, page := fun _ => -1, created := true }
    .ok { s with processes := update s.processes ⟨pid.toNat, by omega⟩ process }
  else .error .outOfBounds

/-- The first loop of `modify_process`: a page that is in primary memory gets a new `LRU` counter,
whatever the algorithm. -/
def touch (pid page : Int) (s : State) : State :=
  match first (fun i => (s.primary i).holds pid page) with
  | some i => (s.setPrimary i { s.primary i with lru := s.contLRU }).bump .lru
  | none => s

/-- A page that is in neither memory, with a free frame `i`: both counters are set. -/
def placeInFrame (pid page : Int) (i : Fin tamPrimary) (s : State) : Except Fault State := do
  let m := { process := pid, page := page, fifo := s.contFIFO, lru := s.contLRU }
  let s ← (s.setPrimary i m).setPage pid page i
  return (s.bump .fifo).bump .lru

/-- The frame whose counter is `cont` takes the page; the counter moves on. -/
def replaceFrame (option : Policy) (cont pid page : Int) (s : State) : Except Fault State :=
  match first (fun i => (s.primary i).stamp option == cont) with
  | some i =>
    ((s.setPrimary i ((s.primary i).assign option pid page (s.counter option))).bump option).setPage
      pid page i
  | none => .ok s

/-- A page that is in neither memory, with all frames taken: the frame with the smallest counter is
given to the page, and what it held goes to the first free secondary slot. -/
def evict (rem : Memory) (pid page : Int) (option : Policy) (s : State) : Except Fault State := do
  let (cont, rem) := scanLess (·.stamp option) numMax rem s.primary
  let s ← replaceFrame option cont pid page s
  match first (fun i => (s.secondary i).process == -1) with
  | some i =>
    let m := (s.secondary i).assign option rem.process rem.page (rem.stamp option)
    (s.setSecondary i m).setPage rem.process rem.page i
  | none => return s

/-- A page that is in secondary memory: it changes places with the page in the frame with the
smallest counter. -/
def swap (rem : Memory) (pid page : Int) (option : Policy) (s : State) : Except Fault State := do
  let (cont, remP) := scanLess (·.stamp option) numMax rem s.primary
  let (s, remS) ← match first (fun i => (s.secondary i).holds pid page) with
    | some i => do
      let m := (s.secondary i).assign option remP.process remP.page (remP.stamp option)
      let s' ← (s.setSecondary i m).setPage remP.process remP.page i
      pure (s', s.secondary i)
    | none => pure (s, rem)
  replaceFrame option cont remS.process remS.page s

/-- The end of `modify_process`: the program exits when the last secondary slot is taken. -/
def finish (s : State) : Outcome :=
  if (s.secondary (Fin.last 15)).process ≠ -1 then .exited s else .running s

/-- `modify_process`. -/
def modifyProcess (rem : Memory) (pid page : Int) (option : Policy) (s : State) :
    Except Fault Outcome := do
  let pass := (first fun i => (s.primary i).holds pid page).isSome
  let s := touch pid page s
  let between := (first fun i => (s.secondary i).holds pid page).isSome
  let s ←
    if pass = false ∧ between = false then
      match first (fun i => (s.primary i).process == -1) with
      | some i => placeInFrame pid page i s
      | none => evict rem pid page option s
    else pure s
  let s ← if between = true then swap rem pid page option s else pure s
  return finish s

/-- The state `main` starts its loop in: the tables are globals, hence zero, but for the `-1`s. -/
def initial : State where
  processes := fun _ => { pid := 0, page := fun _ => 0, created := false }
  primary := fun _ => { process := -1, page := 0, fifo := 0, lru := 0 }
  secondary := fun _ => { process := -1, page := 0, fifo := 0, lru := 0 }
  contFIFO := 0
  contLRU := 0

/-- The body of `main`'s loop once a pair `number1`, `number2` has been read. -/
def access (rem : Memory) (option : Policy) (number1 number2 : Int) (s : State) :
    Except Fault Outcome :=
  if number2 > tamProcess then .ok (.running s) else do
    let create := (first fun i => (s.processes i).pid == number1).isNone
    let s ← if create then createProcess number1 s else pure s
    modifyProcess rem number1 number2 option s

/-- A page of a process. -/
abbrev Page := Int × Int

/-- The accesses the simulator is meant for: `1 ≤ pid < MAX_PROCESS` and `1 ≤ page ≤ TAM_PROCESS`. -/
def Valid (q : Page) : Prop :=
  (1 ≤ q.1 ∧ q.1 < maxProcess) ∧ (1 ≤ q.2 ∧ q.2 ≤ tamProcess)

instance : DecidablePred Valid := fun _ => inferInstanceAs (Decidable (_ ∧ _))

end Laboratorio.Sim
