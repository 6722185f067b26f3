import Laboratorio.Lib.Wp
import Laboratorio.Xv6.Fs
import Laboratorio.Xv6.Owned

/-!
# `mkfs` (`xv6/mkfs.c`)

The functions of `mkfs.c`, as programs on the image file and the counters `freeinode` and
`freeblock`. The image is a file of the host: a sector past its end cannot be read, and a write there
extends it. `exit(1)` and a failed `assert` are an `Abort`; writes to the image succeed.

An input file is given by its name and by what `read` returns for it, call after call.
-/

namespace Laboratorio.Xv6.Mkfs

open Laboratorio.Bytes Laboratorio.DiskProg

/-! ## State -/

/-- `FSSIZE` -/
abbrev fssize : Nat := 1000
/-- `NINODES` -/
abbrev ninodes : Nat := 200
def nbitmap : Nat := fssize / (bsize * 8) + 1
def ninodeblocks : Nat := ninodes / ipb + 1
def nlog : Nat := logsize
/-- Number of meta blocks. -/
def nmeta : Nat := 2 + nlog + ninodeblocks + nbitmap
/-- Number of data blocks. -/
def nblocks : Nat := fssize - nmeta

/-- `sb`, as `main` fills it in. -/
def sb : Superblock where
  size := fssize
  nblocks := nblocks
  ninodes := ninodes
  nlog := nlog
  logstart := 2
  inodestart := 2 + nlog
  bmapstart := 2 + nlog + ninodeblocks

/-- The image file, of which `len` sectors exist, and the counters. -/
structure Image where
  disk : Disk Blk
  len : Nat
  freeinode : UInt32
  freeblock : UInt32

/-- Where `mkfs` gives up. -/
inductive Abort where
  /-- `perror("read")` in `rsect` -/
  | read
  /-- an input file cannot be opened -/
  | noFile
  /-- `assert(index(argv[i], '/') == 0)` -/
  | slash
  /-- `assert(rootino == ROOTINO)` -/
  | root
  /-- `assert(fbn < MAXFILE)` -/
  | tooBig
  /-- `assert(used < BSIZE*8)` -/
  | used
deriving DecidableEq, Repr

abbrev M := StateT Image (Except Abort)

/-- What one call of `read(fd, buf, sizeof(buf))` delivers before the end of the file. -/
abbrev Chunk := { l : List UInt8 // 0 < l.length ∧ l.length ≤ bsize }

/-- An input file: its name, a string, and what is read of it if it can be opened. -/
structure Input where
  name : List UInt8
  nul : ∀ ch ∈ name, ch ≠ 0
  content : Option (List Chunk)

/-- The bytes of an input file. -/
def bytes (chunks : List Chunk) : List UInt8 := chunks.flatMap Subtype.val

/-! ## Sectors -/

/-- The sector at which `lseek(fsfd, sec * BSIZE, 0)` arrives: the product is an `uint`. -/
def sector (sec : UInt32) : Nat := (sec * UInt32.ofNat bsize).toNat / bsize

/-- `wsect` -/
def wsect (sec : UInt32) (buf : Blk) : M Unit :=
  modify fun s => { s with
    disk := Function.update s.disk (sector sec) buf
    len := max s.len (sector sec + 1) }

/-- `rsect` -/
def rsect (sec : UInt32) : M Blk := do
  let s ← get
  if sector sec < s.len then return s.disk (sector sec) else throw .read

/-- `freeblock++` -/
def nextBlock : M UInt32 := do
  let s ← get
  set { s with freeblock := s.freeblock + 1 }
  return s.freeblock

/-! ## Inodes -/

/-- `winode` -/
def winode (inum : UInt32) (ip : Dinode) : M Unit := do
  let bn := UInt32.ofNat (iblock sb inum.toNat)
  let buf ← rsect bn
  wsect bn (setDinode buf inum.toNat ip)

/-- `rinode` -/
def rinode (inum : UInt32) : M Dinode := do
  let buf ← rsect (UInt32.ofNat (iblock sb inum.toNat))
  return dinodeOf buf inum.toNat

/-- The inode that `ialloc` writes. -/
def newDinode (type : Int16) : Dinode := { Dinode.ofType type with nlink := 1 }

/-- `ialloc` -/
def ialloc (type : Int16) : M UInt32 := do
  let s ← get
  set { s with freeinode := s.freeinode + 1 }
  winode s.freeinode (newDinode type)
  return s.freeinode

/-- The block of an inode in which `iappend` writes, allocated if there is none: `din` afterwards,
and the block number. -/
def blockFor (din : Dinode) (fbn : Nat) : M (Dinode × UInt32) := do
  if fbn < ndirect then
    if din.addr fbn = 0 then do
      let b ← nextBlock
      return (din.setAddr fbn b, b)
    else return (din, din.addr fbn)
  else do
    let din ← withIndirect din
    entryFor din (fbn - ndirect)
where
  /-- `din` with an indirect block. -/
  withIndirect (din : Dinode) : M Dinode :=
    if din.addr ndirect = 0 then do
      let b ← nextBlock
      return din.setAddr ndirect b
    else return din
  /-- `indirect[j]`, allocated if it is zero. -/
  entryFor (din : Dinode) (j : Nat) : M (Dinode × UInt32) := do
    let indirect ← rsect (din.addr ndirect)
    if word indirect j = 0 then do
      let b ← nextBlock
      wsect (din.addr ndirect) (setWord indirect j b)
      return (din, b)
    else return (din, word indirect j)

/-- The loop of `iappend`, with the bytes `p` left; `fuel` bounds its iterations. -/
def appendFrom : (fuel : Nat) → Dinode → UInt32 → List UInt8 → M (Dinode × UInt32)
  | 0, din, off, _ => return (din, off)
  | fuel + 1, din, off, p =>
    if 0 < p.length then
      let fbn := off.toNat / bsize
      if fbn < maxfile then do
        let (din, x) ← blockFor din fbn
        let n1 := min p.length ((fbn + 1) * bsize - off.toNat)
        let buf ← rsect x
        wsect x (buf.splice (off.toNat - fbn * bsize) n1 fun i => p.getD i 0)
        appendFrom fuel din (off + UInt32.ofNat n1) (p.drop n1)
      else throw .tooBig
    else return (din, off)

/-- `iappend` of the bytes `p`. -/
def iappend (inum : UInt32) (p : List UInt8) : M Unit := do
  let din ← rinode inum
  let (din, off) ← appendFrom p.length din din.size p
  winode inum { din with size := off }

/-! ## `main` -/

/-- The bytes of a directory entry. -/
def direntBytes (de : Dirent) : List UInt8 := (List.range dirent.size).map (dirent.enc de)

/-- The bitmap of `balloc`, with the first `used` bits set. -/
def bitmap (used : Nat) : Blk := (List.range used).foldl setBit Block.zero

/-- `balloc` -/
def balloc (used : Nat) : M Unit :=
  if used < bsize * 8 then wsect (UInt32.ofNat sb.bmapstart) (bitmap used) else throw .used

/-- The super block in its sector. -/
def sbBlock : Blk :=
  [sb.size, sb.nblocks, sb.ninodes, sb.nlog, sb.logstart, sb.inodestart, sb.bmapstart].zipIdx.foldl
    (fun b w => setWord b w.2 (UInt32.ofNat w.1)) Block.zero

/-- The characters `/` and `_`. -/
abbrev slash : UInt8 := 47
abbrev underscore : UInt8 := 95

/-- The name without a leading `_`. -/
def Input.entry (f : Input) : List UInt8 :=
  if f.name.headD 0 = underscore then f.name.tail else f.name

/-- The sectors are cleared and the super block is written. -/
@[irreducible] def format : M Unit := do
  (List.range fssize).forM fun i => wsect (UInt32.ofNat i) Block.zero
  wsect 1 sbBlock

/-- The root directory, with `.` and `..`. -/
def makeRoot : M UInt32 := do
  let rootino' ← ialloc tDir
  if rootino'.toNat = rootino then do
    iappend rootino' (direntBytes (.make [46] rootino'.toNat))
    iappend rootino' (direntBytes (.make [46, 46] rootino'.toNat))
    return rootino'
  else throw .root

/-- One round of the loop of `main` over its arguments. -/
def addFile (root : UInt32) (f : Input) : M Unit :=
  if slash ∈ f.name then throw .slash
  else
    match f.content with
    | none => throw .noFile
    | some chunks => do
      let inum ← ialloc tFile
      iappend root (direntBytes (.make f.entry inum.toNat))
      chunks.forM fun c => iappend inum c.1

/-- The end of `main`: the size of the root directory is fixed and the bitmap written. -/
def finish (root : UInt32) : M Unit := do
  let din ← rinode root
  let off := (din.size / UInt32.ofNat bsize + 1) * UInt32.ofNat bsize
  winode root { din with size := off }
  let s ← get
  balloc s.freeblock.toNat

/-- The state at the start of `main`: an empty image. -/
def Image.start : Image where
  disk _ := Block.zero
  len := 0
  freeinode := 1
  freeblock := UInt32.ofNat nmeta

/-- `main` -/
def main (files : List Input) : M Unit := do
  format
  let root ← makeRoot
  files.forM (addFile root)
  finish root

end Laboratorio.Xv6.Mkfs
