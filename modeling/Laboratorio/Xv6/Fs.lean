import Laboratorio.Lib.Scan
import Laboratorio.Lib.Wp
import Laboratorio.Xv6.Log

/-!
# The file system (`xv6/fs.c`, `xv6/file.h`, `xv6/sleeplock.c`)

Blocks, inodes and directories: the functions of `fs.c` up to `dirlink`, each under its own name, as
programs on the kernel's file-system state: the buffer cache and the log over one disk, the inode
cache and the file table. One process runs at a time, so a function that would sleep does not return:
on a sleep-lock that the running process holds itself, or on one held by another.

Pointers to inodes are indices of the inode cache. A `panic` is a `Fault`.
-/

namespace Laboratorio.Xv6

open Laboratorio.Bytes Laboratorio.DiskProg Laboratorio.Scan

/-! ## State -/

/-- `T_DIR`, `T_FILE` and `T_DEV`. -/
abbrev tDir : Int16 := 1
abbrev tFile : Int16 := 2
abbrev tDev : Int16 := 3

/-- `struct inode`: an entry of the inode cache. `copy` holds the fields copied from the disk, and
`lock` the process that holds the sleep-lock. -/
structure Inode where
  dev : Nat
  inum : Nat
  ref : Nat
  lock : Option (Fin nproc)
  valid : Bool
  copy : Dinode

inductive FdType where
  | none
  | pipe
  | inode
deriving DecidableEq, Repr

/-- `struct file`, without the pipe. -/
structure File where
  type : FdType
  ref : Nat
  readable : Bool
  writable : Bool
  ip : Fin ninode
  off : UInt32

/-- `struct devsw`: what a device returns for a count, and the bytes it delivers. The functions of
the console release the inode's lock while they wait and take it again before they return. -/
structure Device where
  read : Option (UInt32 → Int × List UInt8)
  write : Option (UInt32 → Int)

/-- What does not change after boot: the super block and the device table. Pipes are not part of the
file system's state: what they return for a count is given. -/
structure Config where
  sb : Superblock
  devsw : Nat → Device
  piperead : UInt32 → Int × List UInt8
  pipewrite : UInt32 → Int

/-- `log.start` and `log.size`. -/
def Config.log (c : Config) : Log := ⟨c.sb.logstart, c.sb.nlog⟩

/-- The state of the file system; `myproc` is the process that runs. -/
structure St where
  mem : Mem Blk
  lh : List UInt32
  outstanding : Nat
  committing : Bool
  icache : Fin ninode → Inode
  ftable : Fin nfile → File
  myproc : Fin nproc

/-- The ways in which a call does not return: the panics, named by their text, and a sleep that
nothing ends. -/
inductive Fault where
  | log (e : LogFault)
  | logCommitting
  | logSleep
  | ballocOutOfBlocks
  | freeingFreeBlock
  | igetNoInodes
  | ilock
  | ilockNoType
  | iunlock
  | bmapOutOfRange
  | dirlookupNotDir
  | dirlookupRead
  | dirlinkRead
  | dirlink
  | fileread
  | filewrite
  | shortFilewrite
  /-- `acquiresleep` on a lock that the process already holds. -/
  | selfDeadlock
  /-- `acquiresleep` on a lock that another process holds. -/
  | sleeps
deriving DecidableEq, Repr

abbrev M := StateT St (Except Fault)

variable (c : Config)

/-! ## Buffers and the log -/

/-- `bread`: the contents of a block. -/
def bread (b : Nat) : M Blk := do
  let s ← get
  return s.mem.view b

/-- Change the buffer of block `b` and call `log_write` on it. -/
def logWrite (b : Nat) (f : Blk → Blk) : M Unit := do
  let s ← get
  match c.log.record s.outstanding s.lh (UInt32.ofNat b) with
  | .error e => throw (.log e)
  | .ok lh => set { s with mem := s.mem.modify b (f (s.mem.view b)), lh := lh }

/-- `begin_op` -/
def beginOp : M Unit := do
  let s ← get
  if s.committing ∨ s.lh.length + (s.outstanding + 1) * maxopblocks > logsize then throw .logSleep
  else set { s with outstanding := s.outstanding + 1 }

/-- `end_op` -/
def endOp : M Unit := do
  let s ← get
  if s.committing then throw .logCommitting
  else if s.outstanding - 1 = 0 then
    set { s with outstanding := 0, mem := ((commit c.log s.lh).run s.mem).2, lh := [] }
  else set { s with outstanding := s.outstanding - 1 }

/-! ## Blocks -/

/-- `bzero` -/
def bzero (bno : Nat) : M Unit := logWrite c bno fun _ => Block.zero

/-- `balloc` from bitmap block `b / BPB` on, for `n` more bitmap blocks. -/
def ballocFrom : Nat → Nat → M UInt32
  | 0, _ => throw .ballocOutOfBlocks
  | n + 1, b => do
    let bp ← bread (bblock c.sb b)
    match (List.range (min bpb (c.sb.size - b))).find? fun bi => !bitOf bp bi with
    | some bi => do
      logWrite c (bblock c.sb b) fun bp => setBit bp bi
      bzero c (b + bi)
      return UInt32.ofNat (b + bi)
    | none => ballocFrom n (b + bpb)

/-- `balloc` -/
def balloc : M UInt32 := ballocFrom c ((c.sb.size + (bpb - 1)) / bpb) 0

/-- `bfree` -/
def bfree (b : Nat) : M Unit := do
  let bp ← bread (bblock c.sb b)
  if bitOf bp (b % bpb) = false then throw .freeingFreeBlock
  else logWrite c (bblock c.sb b) fun bp => clearBit bp (b % bpb)

/-! ## Inodes -/

/-- The entry that an inode pointer points to. -/
def inode (ip : Fin ninode) : M Inode := do
  let s ← get
  return s.icache ip

/-- Change the entry that an inode pointer points to. -/
def modifyInode (ip : Fin ninode) (f : Inode → Inode) : M Unit :=
  modify fun s => { s with icache := Function.update s.icache ip (f (s.icache ip)) }

/-- Change the fields of an inode that live on disk. -/
def modifyCopy (ip : Fin ninode) (f : Dinode → Dinode) : M Unit :=
  modifyInode ip fun x => { x with copy := f x.copy }

/-- `(struct dinode*)bp->data + inum%IPB` -/
def dinodeOf (b : Blk) (inum : Nat) : Dinode := fetch dinode (dinode.size * (inum % ipb)) b

/-- Overwrite the on-disk inode `inum` of a block of inodes. -/
def setDinode (b : Blk) (inum : Nat) (d : Dinode) : Blk :=
  store dinode (dinode.size * (inum % ipb)) d b

/-- An inode just cleared by `memset` and given its type. -/
def Dinode.ofType (type : Int16) : Dinode where
  type := type
  major := 0
  minor := 0
  nlink := 0
  size := 0
  addrs := fun _ => 0

/-- `iget` -/
def iget (dev inum : Nat) : M (Fin ninode) := do
  let s ← get
  match first fun ip => decide (0 < (s.icache ip).ref ∧ (s.icache ip).dev = dev ∧
      (s.icache ip).inum = inum) with
  | some ip => do
    modifyInode ip fun x => { x with ref := x.ref + 1 }
    return ip
  | none =>
    match first fun ip => decide ((s.icache ip).ref = 0) with
    | none => throw .igetNoInodes
    | some ip => do
      modifyInode ip fun x => { x with dev := dev, inum := inum, ref := 1, valid := false }
      return ip

/-- `iupdate` -/
def iupdate (ip : Fin ninode) : M Unit := do
  let x ← inode ip
  logWrite c (iblock c.sb x.inum) fun bp => setDinode bp x.inum x.copy

/-- `acquiresleep` on the lock of an inode. -/
def acquiresleep (ip : Fin ninode) : M Unit := do
  let s ← get
  match (s.icache ip).lock with
  | none => modifyInode ip fun x => { x with lock := some s.myproc }
  | some p => throw (if p = s.myproc then .selfDeadlock else .sleeps)

/-- `releasesleep` on the lock of an inode. -/
def releasesleep (ip : Fin ninode) : M Unit := modifyInode ip fun x => { x with lock := none }

/-- `ilock` -/
def ilock (ip : Fin ninode) : M Unit := do
  let x ← inode ip
  if x.ref < 1 then throw .ilock
  else do
    acquiresleep ip
    if x.valid = false then do
      let bp ← bread (iblock c.sb x.inum)
      modifyInode ip fun x => { x with copy := dinodeOf bp x.inum, valid := true }
      if (dinodeOf bp x.inum).type = 0 then throw .ilockNoType
      else return ()
    else return ()

/-- `iunlock` -/
def iunlock (ip : Fin ninode) : M Unit := do
  let s ← get
  if (s.icache ip).lock ≠ some s.myproc ∨ (s.icache ip).ref < 1 then throw .iunlock
  else releasesleep ip

/-! ## Inode content -/

/-- The indirect block of an inode, allocated if there is none. -/
def indirect (ip : Fin ninode) : M UInt32 := do
  let x ← inode ip
  if x.copy.addr ndirect = 0 then do
    let addr ← balloc c
    modifyCopy ip fun d => d.setAddr ndirect addr
    return addr
  else return x.copy.addr ndirect

/-- `bmap` -/
def bmap (ip : Fin ninode) (bn : Nat) : M UInt32 := do
  let x ← inode ip
  if bn < ndirect then
    if x.copy.addr bn = 0 then do
      let addr ← balloc c
      modifyCopy ip fun d => d.setAddr bn addr
      return addr
    else return x.copy.addr bn
  else if bn - ndirect < nindirect then do
    let ind ← indirect c ip
    let bp ← bread ind.toNat
    if word bp (bn - ndirect) = 0 then do
      let addr ← balloc c
      logWrite c ind.toNat fun bp => setWord bp (bn - ndirect) addr
      return addr
    else return word bp (bn - ndirect)
  else throw .bmapOutOfRange

/-- The loop of `itrunc` over the direct blocks. -/
def itruncDirect (ip : Fin ninode) : List Nat → M Unit
  | [] => return ()
  | i :: is => do
    let x ← inode ip
    if x.copy.addr i ≠ 0 then do
      bfree c (x.copy.addr i).toNat
      modifyCopy ip fun d => d.setAddr i 0
      itruncDirect ip is
    else itruncDirect ip is

/-- The loop of `itrunc` over the words of the indirect block. -/
def itruncIndirect (ind : Nat) : List Nat → M Unit
  | [] => return ()
  | j :: js => do
    let bp ← bread ind
    if word bp j ≠ 0 then do
      bfree c (word bp j).toNat
      itruncIndirect ind js
    else itruncIndirect ind js

/-- `itrunc` on the indirect block. -/
def itruncLast (ip : Fin ninode) : M Unit := do
  let x ← inode ip
  if x.copy.addr ndirect ≠ 0 then do
    itruncIndirect c (x.copy.addr ndirect).toNat (List.range nindirect)
    bfree c (x.copy.addr ndirect).toNat
    modifyCopy ip fun d => d.setAddr ndirect 0
  else return ()

/-- `itrunc` -/
def itrunc (ip : Fin ninode) : M Unit := do
  itruncDirect c ip (List.range ndirect)
  itruncLast c ip
  modifyCopy ip fun d => { d with size := 0 }
  iupdate c ip

/-- What `iput` does when the inode has no links and no other references: truncate and free. -/
def ifree (ip : Fin ninode) : M Unit := do
  itrunc c ip
  modifyCopy ip fun d => { d with type := 0 }
  iupdate c ip
  modifyInode ip fun x => { x with valid := false }

/-- The part of `iput` that holds the sleep-lock. -/
def iputLocked (ip : Fin ninode) : M Unit := do
  let x ← inode ip
  if x.valid ∧ x.copy.nlink = 0 ∧ x.ref = 1 then ifree c ip else return ()

/-- `iput` -/
def iput (ip : Fin ninode) : M Unit := do
  acquiresleep ip
  iputLocked c ip
  releasesleep ip
  modifyInode ip fun x => { x with ref := x.ref - 1 }

/-- The loop of `readi`, with `tot` of `n` bytes read; `fuel` bounds its iterations. -/
def readFrom (ip : Fin ninode) (n : Nat) : (fuel tot off : Nat) → M (List UInt8)
  | 0, _, _ => return []
  | fuel + 1, tot, off =>
    if tot < n then do
      let b ← bmap c ip (off / bsize)
      let bp ← bread b.toNat
      let m := min (n - tot) (bsize - off % bsize)
      let rest ← readFrom ip n fuel (tot + m) (off + m)
      return (List.range m).map (fun i => bp.byte (off % bsize + i)) ++ rest
    else return []

/-- `readi`: the result and the bytes copied out. -/
def readi (ip : Fin ninode) (off n : UInt32) : M (Int × List UInt8) := do
  let x ← inode ip
  if x.copy.type = tDev then
    if x.copy.major < 0 ∨ x.copy.major.toInt ≥ ndev then return (-1, [])
    else match (c.devsw x.copy.major.toInt.toNat).read with
      | none => return (-1, [])
      | some f => return f n
  else if off > x.copy.size ∨ off + n < off then return (-1, [])
  else do
    let n := if off + n > x.copy.size then x.copy.size - off else n
    let data ← readFrom c ip n.toNat n.toNat 0 off.toNat
    return (n.toNat, data)

/-- The loop of `writei`, with `tot` of `n` bytes written: the offset reached. -/
def writeFrom (ip : Fin ninode) (src : Nat → UInt8) (n : Nat) : (fuel tot off : Nat) → M Nat
  | 0, _, off => return off
  | fuel + 1, tot, off =>
    if tot < n then do
      let b ← bmap c ip (off / bsize)
      let m := min (n - tot) (bsize - off % bsize)
      logWrite c b.toNat fun bp => bp.splice (off % bsize) m fun i => src (tot + i)
      writeFrom ip src n fuel (tot + m) (off + m)
    else return off

/-- The end of `writei`, at offset `off` after `n` bytes. -/
def growTo (ip : Fin ninode) (n : UInt32) (off : Nat) : M Unit := do
  let x ← inode ip
  if 0 < n ∧ off > x.copy.size.toNat then do
    modifyCopy ip fun d => { d with size := UInt32.ofNat off }
    iupdate c ip
  else return ()

/-- `writei` of the `n` bytes at `src`. -/
def writei (ip : Fin ninode) (src : Nat → UInt8) (off n : UInt32) : M Int := do
  let x ← inode ip
  if x.copy.type = tDev then
    if x.copy.major < 0 ∨ x.copy.major.toInt ≥ ndev then return -1
    else match (c.devsw x.copy.major.toInt.toNat).write with
      | none => return -1
      | some f => return f n
  else if off > x.copy.size ∨ off + n < off then return -1
  else if (off + n).toNat > maxfile * bsize then return -1
  else do
    let off ← writeFrom c ip src n.toNat n.toNat 0 off.toNat
    growTo c ip n off
    return n.toNat

/-! ## Directories -/

/-- A directory entry read with `readi`; anything else than a whole entry is a panic. -/
def readDirent (dp : Fin ninode) (off : Nat) (short : Fault) : M Dirent := do
  let r ← readi c dp (UInt32.ofNat off) (UInt32.ofNat dirent.size)
  if r.1 ≠ dirent.size then throw short
  else return dirent.dec fun i => r.2.getD i 0

/-- `strncmp` of two strings, given by their characters before the terminating null. -/
def strncmp : Nat → List UInt8 → List UInt8 → Int
  | 0, _, _ => 0
  | _ + 1, [], [] => 0
  | _ + 1, [], q :: _ => -q.toNat
  | _ + 1, p :: _, [] => p.toNat
  | n + 1, p :: ps, q :: qs => if p = q then strncmp n ps qs else (p.toNat : Int) - q.toNat

/-- `namecmp` -/
def namecmp (s t : List UInt8) : Int := strncmp dirsiz s t

/-- The characters of an entry's name. -/
def Dirent.str (de : Dirent) : List UInt8 := (List.ofFn de.name).takeWhile (· ≠ 0)

/-- The number of iterations of a loop over the entries of a directory. -/
def entries (size : UInt32) : Nat := (size.toNat + (dirent.size - 1)) / dirent.size

/-- The loop of `dirlookup`, from offset `off` on for `n` more entries. -/
def dirlookupFrom (dp : Fin ninode) (name : List UInt8) :
    (n off : Nat) → M (Option (Fin ninode × Nat))
  | 0, _ => return none
  | n + 1, off => do
    let de ← readDirent c dp off .dirlookupRead
    if de.inum = 0 then dirlookupFrom dp name n (off + dirent.size)
    else if namecmp name de.str = 0 then do
      let x ← inode dp
      let ip ← iget x.dev de.inum.toNat
      return some (ip, off)
    else dirlookupFrom dp name n (off + dirent.size)

/-- `dirlookup`: the inode of an entry, and the offset stored in `*poff`. -/
def dirlookup (dp : Fin ninode) (name : List UInt8) : M (Option (Fin ninode × Nat)) := do
  let x ← inode dp
  if x.copy.type ≠ tDir then throw .dirlookupNotDir
  else dirlookupFrom c dp name (entries x.copy.size) 0

/-- The loop of `dirlink` that looks for an empty entry. -/
def emptyFrom (dp : Fin ninode) : (n off : Nat) → M Nat
  | 0, off => return off
  | n + 1, off => do
    let de ← readDirent c dp off .dirlinkRead
    if de.inum = 0 then return off else emptyFrom dp n (off + dirent.size)

/-- A directory entry with its name filled in by `strncpy`. -/
def Dirent.make (name : List UInt8) (inum : Nat) : Dirent where
  inum := UInt16.ofNat inum
  name i := name.getD i 0

/-- `dirlink` -/
def dirlink (dp : Fin ninode) (name : List UInt8) (inum : Nat) : M Int := do
  match ← dirlookup c dp name with
  | some (ip, _) => do
    iput c ip
    return -1
  | none => do
    let x ← inode dp
    let off ← emptyFrom c dp (entries x.copy.size) 0
    let r ← writei c dp (dirent.enc (.make name inum)) (UInt32.ofNat off)
      (UInt32.ofNat dirent.size)
    if r ≠ dirent.size then throw .dirlink else return 0

/-- The names `.` and `..`. -/
abbrev dot : List UInt8 := [46]
abbrev dotdot : List UInt8 := [46, 46]

end Laboratorio.Xv6
