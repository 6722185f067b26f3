import Laboratorio.Lib.Reach
import Laboratorio.Lib.Resumption
import Laboratorio.Xv6.Bio
import Laboratorio.Xv6.Sysfile

/-!
# Reads and writes of several processes (`xv6/file.c`, `xv6/fs.c`, `xv6/log.c`)

The functions behind `read` and `write`, each under its own name, as programs that perform one
operation after another: on buffers, on the log, on inodes and on open files. Other processes run
between any two operations. The buffers are those of `Bio`: a `bread` is two steps, one that finds or
recycles a buffer (`bget` up to `acquiresleep`) and one that waits for the lock of the buffer and
reads the block if need be; a process holds a buffer from there to `brelse`.

A step that has to wait does not happen, and a panic ends the run; `Stop` says which of the two it is.
-/

namespace Laboratorio.Xv6.ReadWrite

open Function Laboratorio.Bytes Laboratorio.Resumption

/-- `NBUF` -/
abbrev nbuf : Nat := maxopblocks * 3

/-! ## Operations -/

/-- What a process does in one step, on `n` buffers. -/
inductive Op (n : Nat) where
  | bread (b : Nat)
  /-- The holder of a buffer stores `v` in it and calls `log_write`. -/
  | logWrite (bp : Fin n) (v : Blk)
  /-- The same with `bwrite`. -/
  | bwrite (bp : Fin n) (v : Blk)
  | brelse (bp : Fin n)
  | beginOp
  /-- `end_op` up to `commit`: whether there is one. -/
  | endOp
  /-- `log.lh`, read by `commit` -/
  | header
  /-- `log.lh.n = 0` -/
  | clearHeader
  /-- `log.committing = 0` -/
  | committed
  | acquiresleep (ip : Fin ninode)
  | iunlock (ip : Fin ninode)
  | inode (ip : Fin ninode)
  /-- Change the copy of the inode on disk. -/
  | setCopy (ip : Fin ninode) (d : Dinode)
  | file (f : Fin nfile)
  | setOff (f : Fin nfile) (off : UInt32)
  | panic (e : Fault)

/-- What an operation answers. -/
def Op.Res {n : Nat} : Op n → Type
  | .bread _ => Fin n × Blk
  | .endOp => Bool
  | .header => List UInt32
  | .inode _ => Inode
  | .file _ => File
  | .panic _ => Empty
  | _ => Unit

abbrev K (n : Nat) := Prog (Op n) Op.Res

variable {n : Nat} (c : Config)

def bread (b : Nat) : K n (Fin n × Blk) := perform (Op.bread b)
def logWrite (bp : Fin n) (v : Blk) : K n Unit := perform (Op.logWrite bp v)
def bwrite (bp : Fin n) (v : Blk) : K n Unit := perform (Op.bwrite bp v)
def brelse (bp : Fin n) : K n Unit := perform (Op.brelse bp)
def header : K n (List UInt32) := perform Op.header
def clearHeader : K n Unit := perform Op.clearHeader
def leaveOp : K n Bool := perform Op.endOp
def committed : K n Unit := perform Op.committed
def acquiresleep (ip : Fin ninode) : K n Unit := perform (Op.acquiresleep ip)
def inode (ip : Fin ninode) : K n Inode := perform (Op.inode ip)
def setCopy (ip : Fin ninode) (d : Dinode) : K n Unit := perform (Op.setCopy ip d)
def file (f : Fin nfile) : K n File := perform (Op.file f)
def setOff (f : Fin nfile) (off : UInt32) : K n Unit := perform (Op.setOff f off)

def panic {α : Type} (e : Fault) : K n α := .op (.panic e) nofun

/-! ## `log.c` -/

/-- `write_log` from log block `tail` on -/
def writeLog : Nat → List UInt32 → K n Unit
  | _, [] => return ()
  | tail, b :: bs => do
    let (tobuf, _) ← bread (c.log.start + tail + 1)
    let (frm, data) ← bread b.toNat
    bwrite tobuf data
    brelse frm
    brelse tobuf
    writeLog (tail + 1) bs

/-- `install_trans` from log block `tail` on -/
def installTrans : Nat → List UInt32 → K n Unit
  | _, [] => return ()
  | tail, b :: bs => do
    let (lbuf, data) ← bread (c.log.start + tail + 1)
    let (dbuf, _) ← bread b.toNat
    bwrite dbuf data
    brelse lbuf
    brelse dbuf
    installTrans (tail + 1) bs

/-- `write_head` -/
def writeHead : K n Unit := do
  let (buf, data) ← bread c.log.start
  let lh ← header
  bwrite buf (putHeader lh data)
  brelse buf

/-- `commit` -/
def commit : K n Unit := do
  let lh ← header
  if lh.length > 0 then
    writeLog c 0 lh
    writeHead c
    installTrans c 0 lh
    clearHeader
    writeHead c

/-- `begin_op` -/
def beginOp : K n Unit := perform Op.beginOp

/-- `end_op` -/
def endOp : K n Unit := do
  let doCommit ← leaveOp
  if doCommit then
    commit c
    committed
  else return ()

/-! ## `fs.c` -/

/-- `bzero` -/
def bzero (bno : Nat) : K n Unit := do
  let (bp, _) ← bread bno
  logWrite bp Block.zero
  brelse bp

/-- `balloc` from bitmap block `b / BPB` on, for `m` more bitmap blocks. -/
def ballocFrom : Nat → Nat → K n UInt32
  | 0, _ => panic .ballocOutOfBlocks
  | m + 1, b => do
    let (bp, data) ← bread (bblock c.sb b)
    match (List.range (min bpb (c.sb.size - b))).find? fun bi => !bitOf data bi with
    | some bi => do
      logWrite bp (setBit data bi)
      brelse bp
      bzero (b + bi)
      return UInt32.ofNat (b + bi)
    | none => do
      brelse bp
      ballocFrom m (b + bpb)

/-- `balloc` -/
def balloc : K n UInt32 := ballocFrom c ((c.sb.size + (bpb - 1)) / bpb) 0

/-- `iupdate` -/
def iupdate (ip : Fin ninode) : K n Unit := do
  let x ← inode ip
  let (bp, data) ← bread (iblock c.sb x.inum)
  logWrite bp (setDinode data x.inum x.copy)
  brelse bp

/-- `ilock` -/
def ilock (ip : Fin ninode) : K n Unit := do
  let x ← inode ip
  if x.ref < 1 then panic .ilock
  else do
    acquiresleep ip
    let x ← inode ip
    if x.valid = false then do
      let (bp, data) ← bread (iblock c.sb x.inum)
      setCopy ip (dinodeOf data x.inum)
      brelse bp
      if (dinodeOf data x.inum).type = 0 then panic .ilockNoType
      else return ()
    else return ()

/-- `iunlock` -/
def iunlock (ip : Fin ninode) : K n Unit := perform (Op.iunlock ip)

/-- The indirect block of an inode, allocated if there is none. -/
def indirect (ip : Fin ninode) : K n UInt32 := do
  let x ← inode ip
  if x.copy.addr ndirect = 0 then do
    let addr ← balloc c
    setCopy ip (x.copy.setAddr ndirect addr)
    return addr
  else return x.copy.addr ndirect

/-- `bmap` -/
def bmap (ip : Fin ninode) (bn : Nat) : K n UInt32 := do
  let x ← inode ip
  if bn < ndirect then
    if x.copy.addr bn = 0 then do
      let addr ← balloc c
      setCopy ip (x.copy.setAddr bn addr)
      return addr
    else return x.copy.addr bn
  else if bn - ndirect < nindirect then do
    let ind ← indirect c ip
    let (bp, data) ← bread ind.toNat
    if word data (bn - ndirect) = 0 then do
      let addr ← balloc c
      logWrite bp (setWord data (bn - ndirect) addr)
      brelse bp
      return addr
    else do
      brelse bp
      return word data (bn - ndirect)
  else panic .bmapOutOfRange

/-- The loop of `readi`, with `tot` of `m` bytes read; `fuel` bounds its iterations. -/
def readFrom (ip : Fin ninode) (m : Nat) : (fuel tot off : Nat) → K n (List UInt8)
  | 0, _, _ => return []
  | fuel + 1, tot, off =>
    if tot < m then do
      let b ← bmap c ip (off / bsize)
      let (bp, data) ← bread b.toNat
      let k := min (m - tot) (bsize - off % bsize)
      brelse bp
      let rest ← readFrom ip m fuel (tot + k) (off + k)
      return (List.range k).map (fun i => data.byte (off % bsize + i)) ++ rest
    else return []

/-- `readi`: the result and the bytes copied out. -/
def readi (ip : Fin ninode) (off m : UInt32) : K n (Int × List UInt8) := do
  let x ← inode ip
  if x.copy.type = tDev then
    if x.copy.major < 0 ∨ x.copy.major.toInt ≥ ndev then return (-1, [])
    else match (c.devsw x.copy.major.toInt.toNat).read with
      | none => return (-1, [])
      | some f => return f m
  else if off > x.copy.size ∨ off + m < off then return (-1, [])
  else do
    let m := if off + m > x.copy.size then x.copy.size - off else m
    let data ← readFrom c ip m.toNat m.toNat 0 off.toNat
    return (m.toNat, data)

/-- The loop of `writei`, with `tot` of `m` bytes written: the offset reached. -/
def writeFrom (ip : Fin ninode) (src : Nat → UInt8) (m : Nat) : (fuel tot off : Nat) → K n Nat
  | 0, _, off => return off
  | fuel + 1, tot, off =>
    if tot < m then do
      let b ← bmap c ip (off / bsize)
      let (bp, data) ← bread b.toNat
      let k := min (m - tot) (bsize - off % bsize)
      logWrite bp (data.splice (off % bsize) k fun i => src (tot + i))
      brelse bp
      writeFrom ip src m fuel (tot + k) (off + k)
    else return off

/-- The end of `writei`, at offset `off` after `m` bytes. -/
def growTo (ip : Fin ninode) (m : UInt32) (off : Nat) : K n Unit := do
  let x ← inode ip
  if 0 < m ∧ off > x.copy.size.toNat then do
    setCopy ip { x.copy with size := UInt32.ofNat off }
    iupdate c ip
  else return ()

/-- `writei` of the `m` bytes at `src`. -/
def writei (ip : Fin ninode) (src : Nat → UInt8) (off m : UInt32) : K n Int := do
  let x ← inode ip
  if x.copy.type = tDev then
    if x.copy.major < 0 ∨ x.copy.major.toInt ≥ ndev then return -1
    else match (c.devsw x.copy.major.toInt.toNat).write with
      | none => return -1
      | some f => return f m
  else if off > x.copy.size ∨ off + m < off then return -1
  else if (off + m).toNat > maxfile * bsize then return -1
  else do
    let off' ← writeFrom c ip src m.toNat m.toNat 0 off.toNat
    growTo c ip m off'
    return m.toNat

/-! ## `file.c` -/

/-- `f->off += r`, when `r > 0`. -/
def advance (f : Fin nfile) (off : UInt32) (r : Int) : K n Unit :=
  if r > 0 then setOff f (off + UInt32.ofNat r.toNat) else return ()

/-- `fileread` -/
def fileread (f : Fin nfile) (m : UInt32) : K n Int := do
  let x ← file f
  if x.readable = false then return -1
  else match x.type with
    | .pipe => return (c.piperead m).1
    | .inode => do
      ilock c x.ip
      let x ← file f
      let r ← readi c x.ip x.off m
      advance f x.off r.1
      iunlock x.ip
      return r.1
    | .none => panic .fileread

/-- One transaction of `filewrite`. -/
def writeChunk (f : Fin nfile) (src : Nat → UInt8) (n1 : Nat) : K n Int := do
  beginOp
  let x ← file f
  ilock c x.ip
  let x ← file f
  let r ← writei c x.ip src x.off (UInt32.ofNat n1)
  advance f x.off r
  iunlock x.ip
  endOp c
  return r

/-- The loop of `filewrite`, with `i` of `m` bytes written: the count it ends with. -/
def filewriteFrom (f : Fin nfile) (src : Nat → UInt8) (m : Nat) : (fuel i : Nat) → K n Nat
  | 0, i => return i
  | fuel + 1, i =>
    if i < m then do
      let r ← writeChunk c f (fun j => src (i + j)) (min (m - i) maxWrite)
      if r < 0 then return i
      else if r ≠ min (m - i) maxWrite then panic .shortFilewrite
      else filewriteFrom f src m fuel (i + min (m - i) maxWrite)
    else return i

/-- `filewrite` -/
def filewrite (f : Fin nfile) (src : Nat → UInt8) (m : Nat) : K n Int := do
  let x ← file f
  if x.writable = false then return -1
  else match x.type with
    | .pipe => return c.pipewrite (UInt32.ofNat m)
    | .inode => do
      let i ← filewriteFrom c f src m m 0
      return if i = m then m else -1
    | .none => panic .filewrite

/-! ## The system -/

/-- A process: not in a call, before its next operation, or in a `bread` that waits for the lock of
its buffer. -/
inductive Thread (n : Nat) where
  | idle
  | running (m : K n Int)
  | waiting (w : Bio.Waiter n) (k : Fin n × Blk → K n Int)

/-- The buffer cache with the header of the log, the rest of the log, the inodes and the open files,
and the processes. -/
structure Sys (n : Nat) where
  cache : Bio.State n
  outstanding : Nat
  committing : Bool
  icache : Fin ninode → Inode
  ftable : Fin nfile → File
  thread : Fin nproc → Thread n

/-- Why a step does not happen. -/
inductive Stop where
  | bio (e : Bio.Fault)
  | panic (e : Fault)
  | sleeps
  | nothing

/-- A function of the cache. -/
def Sys.bio (s : Sys n) {α : Type} (m : Bio.M n α) : Except Stop (α × Sys n) :=
  match m s.cache with
  | .error e => .error (.bio e)
  | .ok (a, cache) => .ok (a, { s with cache := cache })

/-- An operation other than `bread` of process `p`: the answer and the state after it. -/
def Sys.perform (x : Bio.Machine) (s : Sys n) (p : Fin nproc) : (o : Op n) → Except Stop (o.Res × Sys n)
  | .bread _ => .error .nothing
  | .logWrite bp v =>
    match x.log.record s.outstanding s.cache.lh (UInt32.ofNat (s.cache.buf bp).blockno) with
    | .error e => .error (.panic (.log e))
    | .ok _ => s.bio do
        Bio.store bp v
        Bio.logWrite x bp
  | .bwrite bp v => s.bio do
      Bio.store bp v
      Bio.bwrite x bp
  | .brelse bp => s.bio (Bio.brelse bp)
  | .beginOp =>
    if s.committing ∨ s.cache.lh.length + (s.outstanding + 1) * maxopblocks > logsize then
      .error .sleeps
    else .ok ((), { s with outstanding := s.outstanding + 1 })
  | .endOp =>
    if s.committing then .error (.panic .logCommitting)
    else if s.outstanding - 1 = 0 then .ok (true, { s with outstanding := 0, committing := true })
    else .ok (false, { s with outstanding := s.outstanding - 1 })
  | .header => .ok (s.cache.lh, s)
  | .clearHeader => .ok ((), { s with cache := { s.cache with lh := [] } })
  | .committed => .ok ((), { s with committing := false })
  | .acquiresleep ip =>
    if (s.icache ip).lock = none then
      .ok ((), { s with icache := update s.icache ip { s.icache ip with lock := some p } })
    else .error .sleeps
  | .iunlock ip =>
    if (s.icache ip).lock ≠ some p ∨ (s.icache ip).ref < 1 then .error (.panic .iunlock)
    else .ok ((), { s with icache := update s.icache ip { s.icache ip with lock := none } })
  | .inode ip => .ok (s.icache ip, s)
  | .setCopy ip d =>
    .ok ((), { s with
      icache := update s.icache ip { s.icache ip with copy := d, valid := true } })
  | .file f => .ok (s.ftable f, s)
  | .setOff f off =>
    .ok ((), { s with ftable := update s.ftable f { s.ftable f with off := off } })
  | .panic e => .error (.panic e)

def Sys.setThread (s : Sys n) (p : Fin nproc) (t : Thread n) : Sys n :=
  { s with thread := update s.thread p t }

/-- The place of a waiting `bread` among all that wait. -/
def Sys.place (s : Sys n) (w : Bio.Waiter n) : Nat :=
  s.cache.waiting.findIdx fun w' => w'.buf = w.buf ∧ w'.dev = w.dev ∧ w'.blockno = w.blockno

/-- A step of process `p` in a call. -/
def Sys.step (x : Bio.Machine) (s : Sys n) (p : Fin nproc) : Except Stop (Sys n) :=
  match s.thread p with
  | .idle => .error .nothing
  | .running (.pure _) => .ok (s.setThread p .idle)
  | .running (.op (.bread b) k) => do
    let ((), s) ← s.bio (Bio.bget rootdev b)
    match s.cache.waiting.head? with
    | none => .error .nothing
    | some w => .ok (s.setThread p (.waiting w k))
  | .running (.op o k) => do
    let (r, s) ← s.perform x p o
    .ok (s.setThread p (.running (k r)))
  | .waiting w k => do
    let (bp, s) ← s.bio (Bio.breadRest x (s.place w))
    .ok (s.setThread p (.running (k (bp, (s.cache.buf bp).data))))

/-- The calls. -/
inductive Call where
  | read (f : Fin nfile) (m : UInt32)
  | write (f : Fin nfile) (src : Nat → UInt8) (m : Nat)

def Call.prog : Call → K n Int
  | .read f m => fileread c f m
  | .write f src m => filewrite c f src m

/-- What processes do: make a call, or go on in it. -/
inductive Act where
  | call (p : Fin nproc) (a : Call)
  | step (p : Fin nproc)

def next (x : Bio.Machine) (s : Sys n) : Act → Except Stop (Sys n)
  | .call p a =>
    match s.thread p with
    | .idle => .ok (s.setThread p (.running (a.prog c)))
    | _ => .error .nothing
  | .step p => s.step x p

end Laboratorio.Xv6.ReadWrite
