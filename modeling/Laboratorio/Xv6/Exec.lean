import Laboratorio.Xv6.Copyout

/-!
# Running a program (`xv6/exec.c`)

`exec` builds a new address space from a file and the arguments, and gives it to the calling process.
The file is what `readi` makes of it: for every offset and number of bytes the bytes that are read,
which may be fewer. The headers are decoded from these bytes. The arguments are strings that `exec`
only reads.

Everything that fails ends at one label, `bad`, which looks at `pgdir` and `ip` to see what has to be
undone. Of the file system we keep what `exec` has to give back: a reference to the inode, its lock,
and the calls of `begin_op` and `end_op`.
-/

namespace Laboratorio.Xv6.Vm.Ram

open Laboratorio.Bytes Laboratorio.Memory

/-! ## The file -/

/-- The file: the bytes that `readi` reads, at most as many as it is asked for. -/
structure Inode where
  readi : (off n : Nat) → List UInt8
  le : ∀ off n, (readi off n).length ≤ n

/-- The fields of `struct elfhdr` that `exec` uses. -/
structure Elfhdr where
  magic : Nat
  entry : Nat
  phoff : Nat
  phnum : Nat

/-- The fields of `struct proghdr` that `exec` uses. -/
structure Proghdr where
  type : Nat
  off : Nat
  vaddr : Nat
  filesz : Nat
  memsz : Nat

def sizeofElfhdr : Nat := 52
def sizeofProghdr : Nat := 32
def elfMagic : Nat := 0x464C457F
def elfProgLoad : Nat := 1

def elfhdr (bytes : List UInt8) : Elfhdr :=
  let m : Mem := fun i => bytes.getD i 0
  { magic := (load u32 0 m).toNat
    entry := (load u32 24 m).toNat
    phoff := (load u32 28 m).toNat
    phnum := (load u16 44 m).toNat }

def proghdr (bytes : List UInt8) : Proghdr :=
  let m : Mem := fun i => bytes.getD i 0
  { type := (load u32 0 m).toNat
    off := (load u32 4 m).toNat
    vaddr := (load u32 8 m).toNat
    filesz := (load u32 16 m).toNat
    memsz := (load u32 20 m).toNat }

/-! ## Loading segments -/

/-- The loop of `loaduvm` from `i` on. An entry that is 0 would be taken for one of physical page 0. -/
def loadLoop (d : Pgdir) (ip : Inode) (addr offset sz i : Nat) : R Bool :=
  if _h : i < sz then
    let v := (addr + i) / pgsize
    match d.pde (v / nptentries) with
    | none => throw .addressShouldExist
    | some t =>
      match t.pte (v % nptentries) with
      | none => throw .wildWrite
      | some e => do
        let n := if sz - i < pgsize then sz - i else pgsize
        let bytes := ip.readi ((offset + i) % 2 ^ 32) n
        memmove e.page 0 bytes
        if bytes.length ≠ n then return false
        else loadLoop d ip addr offset sz (i + pgsize)
  else return true
termination_by sz - i
decreasing_by
  simp only [pgsize]
  omega

/-- `loaduvm`, with whether it succeeds -/
def loaduvm (d : Pgdir) (ip : Inode) (addr offset sz : Nat) : R Bool := do
  if addr % pgsize ≠ 0 then
    throw .notAligned
  loadLoop d ip addr offset sz 0

/-- The loop of `exec` over `n` program headers from offset `off` on: the page table, and the size
unless it fails. -/
def loadSegments (x : Layout) (ip : Inode) :
    (off : Nat) → Pgdir → (sz n : Nat) → R (Pgdir × Option Nat)
  | _, d, sz, 0 => return (d, some sz)
  | off, d, sz, n + 1 =>
    let bytes := ip.readi off sizeofProghdr
    let next := (off + sizeofProghdr) % 2 ^ 32
    if bytes.length ≠ sizeofProghdr then return (d, none)
    else
      let ph := proghdr bytes
      if ph.type ≠ elfProgLoad then loadSegments x ip next d sz n
      else if ph.memsz < ph.filesz then return (d, none)
      else if (ph.vaddr + ph.memsz) % 2 ^ 32 < ph.vaddr then return (d, none)
      else do
        let r ← allocuvm x d sz ((ph.vaddr + ph.memsz) % 2 ^ 32)
        if r.2 = 0 then return (r.1, none)
        else if ph.vaddr % pgsize ≠ 0 then return (r.1, none)
        else do
          if ← loaduvm r.1 ip ph.vaddr ph.off ph.filesz then loadSegments x ip next r.1 r.2 n
          else return (r.1, none)

/-! ## The arguments -/

/-- Push the argument strings; `ptrs` are the addresses of those pushed so far, `ustack[3..]`. The
result is the stack pointer and all addresses, unless it fails. -/
def pushStrings (cur d : Pgdir) :
    (sp : Nat) → (ptrs : List Nat) → List (List UInt8) → R (Option (Nat × List Nat))
  | sp, ptrs, [] => return some (sp, ptrs)
  | sp, ptrs, str :: args =>
    if ptrs.length ≥ maxarg then return none
    else do
      let sp := (sp + 2 ^ 32 - (str.length + 1)) % 2 ^ 32 / 4 * 4
      if ← copyout cur d sp (str ++ [0]) then pushStrings cur d sp (ptrs ++ [sp]) args
      else return none

/-- The bytes of a word in memory. -/
def wordBytes (w : Nat) : List UInt8 := (List.range 4).map fun i => UInt8.ofNat (w / 256 ^ i)

/-- The array `ustack`: the fake return address, `argc`, `argv`, and the elements of `argv`. -/
def ustack (sp : Nat) (ptrs : List Nat) : List Nat :=
  [0xffffffff, ptrs.length, (sp + 2 ^ 32 - (ptrs.length + 1) * 4) % 2 ^ 32] ++ ptrs ++ [0]

/-- Push the arguments on the stack that ends at `sz`: the stack pointer, unless it fails. -/
def pushArgs (cur d : Pgdir) (sz : Nat) (args : List (List UInt8)) : R (Option Nat) := do
  match ← pushStrings cur d sz [] args with
  | none => return none
  | some (sp, ptrs) => do
    let sp' := (sp + 2 ^ 32 - (3 + ptrs.length + 1) * 4) % 2 ^ 32
    if ← copyout cur d sp' ((ustack sp ptrs).flatMap wordBytes) then return some sp'
    else return none

/-! ## The process and the file system -/

/-- What `exec` uses of `struct proc` and its trap frame. -/
structure Task where
  pgdir : Pgdir
  sz : Nat
  name : List UInt8
  eip : Nat
  esp : Nat

/-- The memory, the calling process, the references to the inode and whether the process holds its
lock, and the numbers of calls of `begin_op` and `end_op`. -/
structure Sys where
  ram : Ram
  proc : Task
  ref : Nat
  locked : Bool
  begins : Nat
  ends : Nat

abbrev X := StateT Sys (Except Fault)

/-- A function that works on the memory. -/
def onRam {α : Type} (f : R α) : X α := fun w =>
  match f w.ram with
  | .ok (a, s) => .ok (a, { w with ram := s })
  | .error e => .error e

def beginOp : X Unit := modify fun w => { w with begins := w.begins + 1 }

def endOp : X Unit := modify fun w => { w with ends := w.ends + 1 }

/-- `namei`, when `ip` is what it finds -/
def namei (ip : Option Inode) : X (Option Inode) := do
  match ip with
  | none => return none
  | some ip => do
    modify fun w => { w with ref := w.ref + 1 }
    return some ip

/-- `ilock`; the lock is free when it is taken -/
def ilock : X Unit := modify fun w => { w with locked := true }

def iunlockput : X Unit := modify fun w => { w with locked := false, ref := w.ref - 1 }

/-! ## `exec` -/

/-- `if(pgdir) freevm(pgdir);` -/
def freePgdir (x : Layout) : Option Pgdir → X Unit
  | none => return ()
  | some d => onRam (freevm x d)

/-- What follows the label `bad` -/
def bad (x : Layout) (pgdir : Option Pgdir) (ip : Bool) : X Unit := do
  freePgdir x pgdir
  if ip then do
    iunlockput
    endOp

/-- `exec` up to the arguments; `push` goes on from there, with the header, the page table and the
size. The result is `none` when it has failed before. -/
def execImage {α : Type} (x : Layout) (ip : Option Inode) (push : Elfhdr → Pgdir → Nat → X α) :
    X (Option α) := do
  beginOp
  match ← namei ip with
  | none => do
    endOp
    return none
  | some ip => do
    ilock
    let bytes := ip.readi 0 sizeofElfhdr
    let elf := elfhdr bytes
    if bytes.length ≠ sizeofElfhdr ∨ elf.magic ≠ elfMagic then do
      bad x none true
      return none
    else do
      match ← onRam (setupkvm x) with
      | none => do
        bad x none true
        return none
      | some d => do
        let r ← onRam (loadSegments x ip elf.phoff d 0 elf.phnum)
        match r.2 with
        | none => do
          bad x (some r.1) true
          return none
        | some sz => do
          iunlockput
          endOp
          let r ← onRam (allocuvm x r.1 (pgroundup sz * pgsize)
            (pgroundup sz * pgsize + 2 * pgsize))
          if r.2 = 0 then do
            bad x (some r.1) false
            return none
          else do
            let d ← onRam (onKmem (clearpteu r.1 (r.2 / pgsize - 2)))
            let a ← push elf d r.2
            return some a

/-- The loop that looks for the last element of `path`, with `last` and the rest of the path. -/
def lastElement : (last s : List UInt8) → List UInt8
  | last, [] => last
  | last, c :: s => lastElement (if c = 47 then s else last) s

/-- The new image of the process. -/
def commit (x : Layout) (path : List UInt8) (elf : Elfhdr) (d : Pgdir) (sz sp : Nat) : X Unit := do
  let w ← get
  set { w with
    proc := {
      pgdir := d
      sz := sz
      name := (lastElement path path).take 15
      eip := elf.entry
      esp := sp } }
  onRam (freevm x w.proc.pgdir)

/-- `exec`, with whether it succeeds -/
def exec (x : Layout) (path : List UInt8) (ip : Option Inode) (args : List (List UInt8)) :
    X Bool := do
  let r ← execImage x ip fun elf d sz => do
    let w ← get
    match ← onRam (pushArgs w.proc.pgdir d sz args) with
    | none => do
      bad x (some d) false
      return false
    | some sp => do
      commit x path elf d sz sp
      return true
  return r.getD false

end Laboratorio.Xv6.Vm.Ram
