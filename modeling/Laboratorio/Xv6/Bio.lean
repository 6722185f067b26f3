import Laboratorio.Lib.Reach
import Laboratorio.Lib.Ring
import Laboratorio.Lib.Wp
import Laboratorio.Xv6.Log

/-!
# The buffer cache (`xv6/bio.c`)

The `NBUF` buffers are on a circular list in the order of their last use, with `bcache.head` as the
node `none`. `bget` looks for a buffer of the block from the front, and recycles one from the back
if there is none; `brelse` moves a buffer to the front. The disk is the one of `xv6/memide.c`.

A `bread` waits for the buffer's lock after `bget` has counted its reference, and others run
meanwhile; it is two calls here, `bget` and `breadRest`, and `waiting` are the ones in between. A
buffer is changed in place by the process that holds its lock, and `latest` is a ghost field: the
contents that were last stored in a buffer of the block.

The writes of `commit` (`xv6/log.c`) go through the same functions.
-/

namespace Laboratorio.Xv6.Bio

open Function Laboratorio.Circular Laboratorio.DiskProg

/-- `struct buf`; `valid` and `dirty` are the bits of `flags`, `locked` is the lock. -/
structure Buf where
  valid : Bool
  dirty : Bool
  dev : Nat
  blockno : Nat
  locked : Bool
  refcnt : Nat
  data : Blk

/-- A `bread` that waits for the lock of its buffer. -/
structure Waiter (n : Nat) where
  buf : Fin n
  dev : Nat
  blockno : Nat

/-- The buffer cache with `n` buffers, the disk, and the header `log.lh` in memory. -/
structure State (n : Nat) where
  buf : Fin n → Buf
  links : Links (Option (Fin n))
  disk : Disk Blk
  lh : List UInt32
  waiting : List (Waiter n)
  latest : Nat → Option Blk

/-- The log and the number of blocks of the disk, `(uint)_binary_fs_img_size/BSIZE`. -/
structure Machine where
  log : Log
  disksize : Nat
  small : disksize ≤ 2 ^ 23

theorem thousand_le : 1000 ≤ 2 ^ 23 := by decide

/-- The panics, and what makes a call impossible: waiting for a lock, or not holding it. -/
inductive Fault where
  | noBuffers
  | bwrite
  | brelse
  | bufNotLocked
  | nothingToDo
  | notDisk1
  | outOfRange
  | log (e : LogFault)
  | sleeping
  | notHeld
  | noWaiter

variable {n : Nat}

abbrev M (n : Nat) := StateT (State n) (Except Fault)

/-- The log is on `ROOTDEV`. -/
def rootdev : Nat := 1

/-- Change buffer `i`. -/
def State.setBuf (s : State n) (i : Fin n) (f : Buf → Buf) : State n :=
  { s with buf := update s.buf i (f (s.buf i)) }

/-! ## Buffers -/

/-- The list that `binit` makes. -/
def binit (n : Nat) : Links (Option (Fin n)) :=
  (List.finRange n).foldl (fun k b => k.push none (some b)) ⟨fun _ => none, fun _ => none⟩

/-- The state after `binit`, over a disk. -/
def State.boot (n : Nat) (d : Disk Blk) : State n where
  buf := fun _ => ⟨false, false, 0, 0, false, 0, Bytes.Block.zero⟩
  links := binit n
  disk := d
  lh := []
  waiting := []
  latest := fun _ => none

/-- The first loop of `bget`. -/
def State.cached (s : State n) (dev blockno : Nat) : Option (Option (Fin n)) :=
  find s.links.next none
    (fun b => b.any fun i => (s.buf i).dev = dev ∧ (s.buf i).blockno = blockno)
    (n + 1) (s.links.next none)

/-- The second loop of `bget`. -/
def State.unused (s : State n) : Option (Option (Fin n)) :=
  find s.links.prev none (fun b => b.any fun i => (s.buf i).refcnt = 0 ∧ (s.buf i).dirty = false)
    (n + 1) (s.links.prev none)

/-- `bget`, up to `acquiresleep`. -/
def bget (dev blockno : Nat) : M n Unit := do
  let s ← get
  match s.cached dev blockno with
  | some (some i) =>
    set { s.setBuf i fun b => { b with refcnt := b.refcnt + 1 } with
      waiting := ⟨i, dev, blockno⟩ :: s.waiting }
  | _ =>
    match s.unused with
    | some (some i) =>
      set { s.setBuf i fun b =>
          { b with dev := dev, blockno := blockno, valid := false, dirty := false, refcnt := 1 }
        with waiting := ⟨i, dev, blockno⟩ :: s.waiting }
    | _ => throw .noBuffers

/-- `iderw` -/
def iderw (x : Machine) (i : Fin n) : M n Unit := do
  let s ← get
  if (s.buf i).locked = false then
    throw .bufNotLocked
  if (s.buf i).valid = true ∧ (s.buf i).dirty = false then
    throw .nothingToDo
  if (s.buf i).dev ≠ 1 then
    throw .notDisk1
  if (s.buf i).blockno ≥ x.disksize then
    throw .outOfRange
  if (s.buf i).dirty then
    set { s.setBuf i fun b => { b with dirty := false, valid := true } with
      disk := update s.disk (s.buf i).blockno (s.buf i).data }
  else
    set (s.setBuf i fun b => { b with data := s.disk b.blockno, valid := true })

/-- The rest of the `k`-th waiting `bread`: `acquiresleep` returns, and the block is read unless the
buffer is valid. -/
def breadRest (x : Machine) (k : Nat) : M n (Fin n) := do
  let s ← get
  match s.waiting[k]? with
  | none => throw .noWaiter
  | some w =>
    if (s.buf w.buf).locked then
      throw .sleeping
    set { s.setBuf w.buf fun b => { b with locked := true } with
      waiting := s.waiting.eraseIdx k }
    if (s.buf w.buf).valid = false then
      iderw x w.buf
    return w.buf

/-- `bread`, when nothing happens in between -/
def bread (x : Machine) (dev blockno : Nat) : M n (Fin n) := do
  bget dev blockno
  breadRest x 0

/-- The holder of the lock stores `v` in the buffer. -/
def store (i : Fin n) (v : Blk) : M n Unit := do
  let s ← get
  if (s.buf i).locked = false then
    throw .notHeld
  set { s.setBuf i fun b => { b with data := v } with
    latest := update s.latest (s.buf i).blockno (some v) }

/-- `bwrite` -/
def bwrite (x : Machine) (i : Fin n) : M n Unit := do
  let s ← get
  if (s.buf i).locked = false then
    throw .bwrite
  set (s.setBuf i fun b => { b with dirty := true })
  iderw x i

/-- `log_write`, in a transaction -/
def logWrite (x : Machine) (i : Fin n) : M n Unit := do
  let s ← get
  match x.log.record 1 s.lh (UInt32.ofNat (s.buf i).blockno) with
  | .error e => throw (.log e)
  | .ok lh => set { s.setBuf i fun b => { b with dirty := true } with lh := lh }

/-- `brelse` -/
def brelse (i : Fin n) : M n Unit := do
  let s ← get
  if (s.buf i).locked = false then
    throw .brelse
  let s := s.setBuf i fun b => { b with locked := false, refcnt := b.refcnt - 1 }
  if (s.buf i).refcnt = 0 then
    set { s with links := (s.links.unlink (some i)).push none (some i) }
  else
    set s

/-! ## Commits -/

/-- `write_log` from log block `tail` on -/
def writeLog (x : Machine) : Nat → List UInt32 → M n Unit
  | _, [] => pure ()
  | tail, b :: bs => do
    let tobuf ← bread x rootdev (x.log.start + tail + 1)
    let frm ← bread x rootdev b.toNat
    let s ← get
    store tobuf (s.buf frm).data
    bwrite x tobuf
    brelse frm
    brelse tobuf
    writeLog x (tail + 1) bs

/-- `install_trans` from log block `tail` on -/
def installTrans (x : Machine) : Nat → List UInt32 → M n Unit
  | _, [] => pure ()
  | tail, b :: bs => do
    let lbuf ← bread x rootdev (x.log.start + tail + 1)
    let dbuf ← bread x rootdev b.toNat
    let s ← get
    store dbuf (s.buf lbuf).data
    bwrite x dbuf
    brelse lbuf
    brelse dbuf
    installTrans x (tail + 1) bs

/-- `write_head` -/
def writeHead (x : Machine) : M n Unit := do
  let buf ← bread x rootdev x.log.start
  let s ← get
  store buf (putHeader s.lh (s.buf buf).data)
  bwrite x buf
  brelse buf

/-- `commit` -/
def commit (x : Machine) : M n Unit := do
  let s ← get
  if s.lh.length > 0 then
    writeLog x 0 s.lh
    writeHead x
    installTrans x 0 s.lh
    modify fun s => { s with lh := [] }
    writeHead x

/-! ## Runs -/

/-- What the users of the cache do. -/
inductive Call (n : Nat) where
  | bget (dev blockno : Nat)
  | breadRest (k : Nat)
  | bwrite (i : Fin n) (v : Blk)
  | logWrite (i : Fin n) (v : Blk)
  | brelse (i : Fin n)
  | commit

def call (x : Machine) : Call n → M n Unit
  | .bget dev blockno => bget dev blockno
  | .breadRest k => do
    let _ ← breadRest x k
  | .bwrite i v => do
    store i v
    bwrite x i
  | .logWrite i v => do
    store i v
    logWrite x i
  | .brelse i => brelse i
  | .commit => commit x

/-- A call that ends. -/
def Step (x : Machine) (s s' : State n) : Prop := ∃ c, call x c s = .ok ((), s')

/-- The states after any calls from `binit` on, over the disk `d`. -/
def Reachable (x : Machine) (d : Disk Blk) : State n → Prop :=
  Reach.Reachable (· = State.boot n d) (Step x)

/-- What block `b` holds: the latest contents stored in a buffer of it, or those of the disk at the
start. -/
def State.content (s : State n) (d : Disk Blk) (b : Nat) : Blk := (s.latest b).getD (d b)

/-- A buffer that is valid or referenced. -/
def Buf.Live (b : Buf) : Prop := b.valid = true ∨ 0 < b.refcnt

/-- Two buffers of the same block. -/
def Buf.Same (b c : Buf) : Prop := b.dev = c.dev ∧ b.blockno = c.blockno

/-- The list of the buffers, from the most recently used on. -/
def State.Lists (s : State n) (order : List (Fin n)) : Prop :=
  Ring s.links none (order.map some) ∧ order.Nodup ∧ ∀ i, i ∈ order

end Laboratorio.Xv6.Bio
