import Laboratorio.Xv6.Fs

/-!
# Open files (`xv6/file.c`)

The open-file table and `filewrite`, which cuts a write into transactions.
-/

namespace Laboratorio.Xv6

open Laboratorio.Bytes Laboratorio.DiskProg Laboratorio.Scan

variable (c : Config)

/-- The file-table entry that a file pointer points to. -/
def file (f : Fin nfile) : M File := do
  let s ← get
  return s.ftable f

/-- Change a file-table entry. -/
def modifyFile (f : Fin nfile) (g : File → File) : M Unit :=
  modify fun s => { s with ftable := Function.update s.ftable f (g (s.ftable f)) }

/-- `f->off += r`, when `r > 0`. -/
def advance (f : Fin nfile) (r : Int) : M Unit :=
  if r > 0 then modifyFile f fun x => { x with off := x.off + UInt32.ofNat r.toNat }
  else return ()

/-- The most that `filewrite` writes in one transaction. -/
abbrev maxWrite : Nat := (maxopblocks - 1 - 1 - 2) / 2 * 512

/-- One transaction of `filewrite`. -/
def writeChunk (f : Fin nfile) (src : Nat → UInt8) (n1 : Nat) : M Int := do
  beginOp
  let x ← file f
  ilock c x.ip
  let r ← writei c x.ip src x.off (UInt32.ofNat n1)
  advance f r
  iunlock x.ip
  endOp c
  return r

/-- The loop of `filewrite`, with `i` of `n` bytes written: the count it ends with. -/
def filewriteFrom (f : Fin nfile) (src : Nat → UInt8) (n : Nat) : (fuel i : Nat) → M Nat
  | 0, i => return i
  | fuel + 1, i =>
    if i < n then do
      let r ← writeChunk c f (fun j => src (i + j)) (min (n - i) maxWrite)
      if r < 0 then return i
      else if r ≠ min (n - i) maxWrite then throw .shortFilewrite
      else filewriteFrom f src n fuel (i + min (n - i) maxWrite)
    else return i

/-- `filewrite` -/
def filewrite (f : Fin nfile) (src : Nat → UInt8) (n : Nat) : M Int := do
  let x ← file f
  if x.writable = false then return -1
  else match x.type with
    | .pipe => return c.pipewrite (UInt32.ofNat n)
    | .inode => do
      let i ← filewriteFrom c f src n n 0
      return if i = n then n else -1
    | .none => throw .filewrite

end Laboratorio.Xv6
