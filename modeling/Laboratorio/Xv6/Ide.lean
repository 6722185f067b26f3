import Laboratorio.Lib.Linked
import Laboratorio.Xv6.Bio

/-!
# The disk driver (`xv6/ide.c`)

Processes that hold the locks of buffers call `iderw`, which appends the buffer to a queue and sleeps.
The first buffer of the queue is the one that the disk works on; `ideintr` takes it off the queue when
the disk has finished, wakes the process up and starts the next one. `iderw` up to `sleep`, `ideintr`,
and `iderw` from `sleep` on each run with `idelock`, and are one step.

The controller gets a command in its registers; the data of a write come with the command, those of a
read are fetched by the interrupt handler. There is one interrupt for each command, and no error.

`appended`, `started` and `completed` are ghost fields with the requests, in the order in which that
happened to them. `history` is another one: what has happened to the buffers, from outside of the
driver (`set`), or by a request that has been completed (`rw`). `replay` does the same with the `iderw`
of `xv6/memide.c`, which is the one of `Bio`.
-/

namespace Laboratorio.Xv6.Ide

open Function Laboratorio.Bytes Laboratorio.DiskProg Laboratorio.Linked
open Laboratorio.Xv6.Bio (Buf Machine)

def fssize : Nat := 1000
def sectorSize : Nat := 512
def sectorPerBlock : Nat := bsize / sectorSize

/-- The registers 0x1f3 to 0x1f6 of the controller. The number of sectors in 0x1f2 is 1. -/
structure Regs where
  lba0 : UInt8
  lba1 : UInt8
  lba2 : UInt8
  drive : UInt8
deriving DecidableEq

/-- A command: the registers, and whether it is a write. -/
structure Cmd where
  regs : Regs
  write : Bool
deriving DecidableEq

/-- The sector that the controller finds in its registers. -/
def Regs.sector (r : Regs) : Nat :=
  r.lba0.toNat + 2 ^ 8 * r.lba1.toNat + 2 ^ 16 * r.lba2.toNat + 2 ^ 24 * (r.drive.toNat % 16)

/-- And the disk, 1 or 0. -/
def Regs.disk1 (r : Regs) : Bool := r.drive.toNat / 16 % 2 = 1

/-- Where a process is: not in `iderw`, or in `sleep`, or back from it. A process in `iderw` has the
number of its request. -/
inductive Pc (n : Nat) where
  | idle
  | asleep (i : Fin n) (k : Nat)
  | woken (i : Fin n) (k : Nat)

/-- The request of a process. -/
def Pc.request {n : Nat} : Pc n → Option (Fin n × Nat)
  | .idle => none
  | .asleep i k | .woken i k => some (i, k)

/-- What happens to a buffer. -/
inductive Event (n : Nat) where
  | set (i : Fin n) (b : Buf)
  | rw (i : Fin n)

/-- The buffer of a request. -/
def Event.request {n : Nat} : Event n → Option (Fin n)
  | .set _ _ => none
  | .rw i => some i

/-- The buffers with their locks, the disks and the controller, the queue, and the processes. -/
structure State (P : Type) (n : Nat) where
  buf : Fin n → Buf
  holder : Fin n → Option P
  disk : Bool → Disk Blk
  cmd : Option Cmd
  idequeue : Option (Fin n)
  qnext : Fin n → Option (Fin n)
  pc : P → Pc n
  appended : List (Fin n)
  started : List (Fin n)
  completed : List (Fin n)
  history : List (Event n)

variable {P : Type} {n : Nat}

/-- Change a buffer. -/
def State.setBuf (s : State P n) (i : Fin n) (b : Buf) : State P n :=
  { s with buf := update s.buf i b }

/-! ## The driver -/

/-- The command for a buffer. -/
def command (b : Buf) : Cmd :=
  let sector := b.blockno * sectorPerBlock
  { regs :=
      { lba0 := UInt8.ofNat (sector &&& 0xff)
        lba1 := UInt8.ofNat (sector >>> 8 &&& 0xff)
        lba2 := UInt8.ofNat (sector >>> 16 &&& 0xff)
        drive := UInt8.ofNat (0xe0 ||| (b.dev &&& 1) <<< 4 ||| (sector >>> 24 &&& 0x0f)) }
    write := b.dirty }

/-- The disk takes a command, with the data of a write. -/
def State.send (s : State P n) (c : Cmd) (data : Blk) : State P n :=
  { s with
    cmd := some c
    disk :=
      if c.write then
        update s.disk c.regs.disk1 (update (s.disk c.regs.disk1) c.regs.sector data)
      else s.disk }

/-- `idestart`; the result of a panic is `none`. -/
def idestart (s : State P n) (i : Fin n) : Option (State P n) :=
  if (s.buf i).blockno ≥ fssize then none
  else
    let s := s.send (command (s.buf i)) (s.buf i).data
    some { s with started := s.started ++ [i] }

/-- `wakeup` of the processes that sleep on buffer `i`. -/
def State.wakeup (s : State P n) (i : Fin n) : State P n :=
  { s with
    pc := fun p =>
      match s.pc p with
      | .asleep j k => if j = i then .woken j k else .asleep j k
      | c => c }

/-- The first part of `ideintr`: the buffer `i` is taken off the queue, it gets the data of the command
`c` if that was a read, and the process that waits for it is woken up. -/
def State.complete (s : State P n) (c : Cmd) (i : Fin n) : State P n :=
  let b := s.buf i
  let data := if b.dirty then b.data else s.disk c.regs.disk1 c.regs.sector
  State.wakeup
    { s with
      cmd := none
      idequeue := s.qnext i
      buf := update s.buf i { b with data := data, valid := true, dirty := false }
      completed := s.completed ++ [i]
      history := s.history ++ [Event.rw i] } i

/-- `ideintr`, when the disk has finished the command `c` -/
def ideintr (s : State P n) (c : Cmd) : Option (State P n) :=
  match s.idequeue with
  | none => some { s with cmd := none }
  | some i =>
    let s := s.complete c i
    match s.idequeue with
    | none => some s
    | some j => idestart s j

/-- Append buffer `i` to the queue. -/
def State.append (s : State P n) (i : Fin n) : Option (State P n) :=
  let s := { s with qnext := update s.qnext i none, appended := s.appended ++ [i] }
  match lastLink s.qnext (n + 1) none s.idequeue with
  | none => none
  | some none => some { s with idequeue := some i }
  | some (some j) => some { s with qnext := update s.qnext j (some i) }

variable [DecidableEq P]

/-- The loop of `iderw`: process `p` returns, or it sleeps. -/
def State.wait (s : State P n) (p : P) (i : Fin n) (k : Nat) : State P n :=
  if (s.buf i).valid = true ∧ (s.buf i).dirty = false then
    { s with pc := update s.pc p .idle }
  else { s with pc := update s.pc p (.asleep i k) }

/-- `iderw` -/
def iderw (havedisk1 : Bool) (s : State P n) (p : P) (i : Fin n) : Option (State P n) :=
  if s.holder i ≠ some p then none
  else if (s.buf i).valid = true ∧ (s.buf i).dirty = false then none
  else if (s.buf i).dev ≠ 0 ∧ havedisk1 = false then none
  else
    match s.append i with
    | none => none
    | some s' =>
      if s'.idequeue = some i then
        match idestart s' i with
        | none => none
        | some s'' => some (s''.wait p i s.appended.length)
      else some (s'.wait p i s.appended.length)

/-! ## Runs -/

/-- What processes and the disk do. -/
inductive Act (P : Type) (n : Nat) where
  /-- `acquiresleep` and `releasesleep` of a buffer's lock -/
  | lock (p : P) (i : Fin n)
  | unlock (p : P) (i : Fin n)
  /-- A buffer is changed, when nobody is in `iderw` with it. -/
  | set (i : Fin n) (b : Buf)
  | iderw (p : P) (i : Fin n)
  | intr
  /-- A process that has been woken up continues in `iderw`. -/
  | resume (p : P)

/-- A process is in `iderw` with buffer `i`. -/
def State.busy (s : State P n) (i : Fin n) : Bool :=
  match s.holder i with
  | none => false
  | some p => (s.pc p).request.any fun r => r.1 = i

/-- A buffer is changed from outside of the driver. -/
def State.change (s : State P n) (i : Fin n) (b : Buf) : State P n :=
  { s.setBuf i b with history := s.history ++ [Event.set i b] }

def next (havedisk1 : Bool) (s : State P n) : Act P n → Option (State P n)
  | .lock p i =>
    if s.holder i = none then
      let s := { s with holder := update s.holder i (some p) }
      some (s.change i { s.buf i with locked := true })
    else none
  | .unlock p i =>
    if s.holder i = some p ∧ s.busy i = false then
      let s := { s with holder := update s.holder i none }
      some (s.change i { s.buf i with locked := false })
    else none
  | .set i b =>
    if s.busy i then none else some (s.change i { b with locked := (s.buf i).locked })
  | .iderw p i =>
    match s.pc p with
    | .idle => iderw havedisk1 s p i
    | _ => none
  | .intr =>
    match s.cmd with
    | none => none
    | some c => ideintr s c
  | .resume p =>
    match s.pc p with
    | .woken i k => some (s.wait p i k)
    | _ => none

/-- The requests are for blocks of the file system, which is on disk 1. -/
def Act.Valid (s : State P n) : Act P n → Prop
  | .iderw _ i => (s.buf i).dev = 1 ∧ (s.buf i).blockno < fssize
  | _ => True

def Step (havedisk1 : Bool) (s s' : State P n) : Prop :=
  ∃ a : Act P n, a.Valid s ∧ next havedisk1 s a = some s'

/-- No process is in `iderw`, and nothing has happened yet. -/
structure State.Init (s : State P n) : Prop where
  locked : ∀ i, (s.buf i).locked = (s.holder i).isSome
  pc : ∀ p, s.pc p = .idle
  cmd : s.cmd = none
  idequeue : s.idequeue = none
  appended : s.appended = []
  started : s.started = []
  completed : s.completed = []
  history : s.history = []

/-- The same with `memide.c`. -/
def replay (x : Machine) : List (Event n) → Bio.M n Unit
  | [] => pure ()
  | .set i b :: es => do
    modify fun m => m.setBuf i fun _ => b
    replay x es
  | .rw i :: es => do
    Bio.iderw x i
    replay x es

end Laboratorio.Xv6.Ide
