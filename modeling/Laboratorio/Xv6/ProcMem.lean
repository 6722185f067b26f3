import Laboratorio.Lib.Reach
import Laboratorio.Lib.Scan
import Laboratorio.Xv6.Layout
import Laboratorio.Xv6.Vm

/-!
# The pages of processes and pipes (`xv6/proc.c`, `xv6/exec.c`, `xv6/pipe.c`)

The system calls that allocate and free pages, by processes that make one call at a time: `fork`,
`exec`, `exit`, `wait`, `sbrk`, `pipe` and `close`. Of a process we keep what they use: its state,
its parent, its kernel stack, its page table and size, and its descriptors. A process that can make
a call is `active`, whether it is runnable, running or asleep. `struct pipe` is in the page that the
files of the pipe point to.

What `exec` reads of the file is an argument of the call, and so are the lengths of the argument
strings, which are in the memory of the caller, and the word at address 0 of that memory.
-/

namespace Laboratorio.Xv6.Vm

open Function Laboratorio.Scan

/-- `enum procstate` -/
inductive ProcState where
  | unused
  | embryo
  | active
  | zombie
deriving DecidableEq

/-- `struct proc` -/
structure Proc where
  state : ProcState
  parent : Option (Fin nproc)
  kstack : Option Page
  pgdir : Option Pgdir
  sz : Nat

/-- `struct file`: an open file without a type, or an end of a pipe, which is the one for writing or
the one for reading. -/
structure File where
  ref : Nat
  pipe : Option (Page × Bool)

/-- `struct pipe`, without the data -/
structure Pipe where
  page : Page
  readopen : Bool
  writeopen : Bool
  nread : UInt32
  nwrite : UInt32

/-- The allocator, the pages that the kernel has taken at boot, the process table with
`p->ofile[fd]`, the file table, and the pipes. -/
structure State where
  kmem : Kmem
  kernel : List Page
  proc : Fin nproc → Proc
  ofile : Fin nproc × Fin nofile → Option (Fin nfile)
  file : Fin nfile → File
  pipes : List Pipe

abbrev M := StateT State (Except Fault)

/-- A function of the memory allocator. -/
def mem {α : Type} (f : K α) : M α := fun s =>
  match f s.kmem with
  | .ok (a, k) => .ok (a, { s with kmem := k })
  | .error e => .error e

/-- Change process `p`. -/
def modifyProc (p : Fin nproc) (f : Proc → Proc) : M Unit :=
  modify fun s => { s with proc := update s.proc p (f (s.proc p)) }

/-- `p->ofile[fd] = f` -/
def setFd (p : Fin nproc) (fd : Fin nofile) (f : Option (Fin nfile)) : M Unit :=
  modify fun s => { s with ofile := update s.ofile (p, fd) f }

variable (x : Layout)

/-! ## Pipes and files -/

/-- Whether an end of a pipe is open. -/
def Pipe.isOpen (q : Pipe) (writable : Bool) : Bool := if writable then q.writeopen else q.readopen

/-- Close an end of a pipe. -/
def Pipe.closeEnd (q : Pipe) (writable : Bool) : Pipe :=
  if writable then { q with writeopen := false } else { q with readopen := false }

/-- `pipeclose` -/
def pipeclose (p : Page) (writable : Bool) : M Unit := do
  let s ← get
  match s.pipes.find? fun q => q.page = p with
  | none => throw .danglingPipe
  | some q =>
    if (q.closeEnd writable).readopen = false ∧ (q.closeEnd writable).writeopen = false then do
      set { s with pipes := s.pipes.filter fun q => q.page ≠ p }
      mem (kfree x p)
    else
      set { s with pipes := s.pipes.map fun r : Pipe => if r.page = p then q.closeEnd writable else r }

/-- `filealloc` -/
def filealloc : M (Option (Fin nfile)) := do
  let s ← get
  match first fun f => decide ((s.file f).ref = 0) with
  | none => return none
  | some f => do
    set { s with file := update s.file f { s.file f with ref := 1 } }
    return some f

/-- `filedup` -/
def filedup (f : Fin nfile) : M Unit := do
  let s ← get
  if (s.file f).ref < 1 then
    throw .filedup
  set { s with file := update s.file f { s.file f with ref := (s.file f).ref + 1 } }

/-- `fileclose` -/
def fileclose (f : Fin nfile) : M Unit := do
  let s ← get
  if (s.file f).ref < 1 then
    throw .fileclose
  if (s.file f).ref - 1 > 0 then
    set { s with file := update s.file f { s.file f with ref := (s.file f).ref - 1 } }
  else do
    set { s with file := update s.file f ⟨0, none⟩ }
    match (s.file f).pipe with
    | none => return ()
    | some (p, writable) => pipeclose x p writable

/-- `pipealloc` -/
def pipealloc : M (Option (Fin nfile × Fin nfile)) := do
  match ← filealloc with
  | none => return none
  | some f0 => do
    match ← filealloc with
    | none => do
      fileclose x f0
      return none
    | some f1 => do
      match ← mem kalloc with
      | none => do
        fileclose x f0
        fileclose x f1
        return none
      | some p => do
        modify fun s =>
          { s with
            file :=
              update (update s.file f0 { s.file f0 with pipe := some (p, false) })
                f1 { s.file f1 with pipe := some (p, true) }
            pipes := ⟨p, true, true, 0, 0⟩ :: s.pipes }
        return some (f0, f1)

/-- `fdalloc` -/
def fdalloc (p : Fin nproc) (f : Fin nfile) : M (Option (Fin nofile)) := do
  let s ← get
  match first fun fd => decide (s.ofile (p, fd) = none) with
  | none => return none
  | some fd => do
    setFd p fd (some f)
    return some fd

/-- `sys_pipe`, with whether it succeeds -/
def sysPipe (p : Fin nproc) : M Bool := do
  match ← pipealloc x with
  | none => return false
  | some (rf, wf) => do
    match ← fdalloc p rf with
    | none => do
      fileclose x rf
      fileclose x wf
      return false
    | some fd0 => do
      match ← fdalloc p wf with
      | none => do
        setFd p fd0 none
        fileclose x rf
        fileclose x wf
        return false
      | some _ => return true

/-- `sys_close` -/
def sysClose (p : Fin nproc) (fd : Fin nofile) : M Bool := do
  let s ← get
  match s.ofile (p, fd) with
  | none => return false
  | some f => do
    setFd p fd none
    fileclose x f
    return true

/-! ## Processes -/

/-- `allocproc` -/
def allocproc : M (Option (Fin nproc)) := do
  let s ← get
  match first fun p => decide ((s.proc p).state = .unused) with
  | none => return none
  | some p => do
    modifyProc p fun q => { q with state := .embryo }
    match ← mem kalloc with
    | none => do
      modifyProc p fun q => { q with state := .unused, kstack := none }
      return none
    | some kstack => do
      modifyProc p fun q => { q with kstack := some kstack }
      return some p

/-- The page table of a process. -/
def pgdir (p : Fin nproc) : M Pgdir := do
  let s ← get
  match (s.proc p).pgdir with
  | none => throw .noMemory
  | some d => return d

/-- The loop of `fork` that copies the descriptors. -/
def dupFiles (p np : Fin nproc) : List (Fin nofile) → M Unit
  | [] => return ()
  | fd :: fds => do
    let s ← get
    match s.ofile (p, fd) with
    | none => dupFiles p np fds
    | some f => do
      filedup f
      setFd np fd (some f)
      dupFiles p np fds

/-- Free the kernel stack of a process. -/
def freeStack (p : Fin nproc) : M Unit := do
  let s ← get
  match (s.proc p).kstack with
  | none => throw .noMemory
  | some kstack => do
    mem (kfree x kstack)
    modifyProc p fun q => { q with kstack := none }

/-- `fork` -/
def fork (p : Fin nproc) : M Bool := do
  match ← allocproc with
  | none => return false
  | some np => do
    let d ← pgdir p
    let s ← get
    match ← mem (copyuvm x d (s.proc p).sz) with
    | none => do
      modifyProc np fun q => { q with pgdir := none }
      freeStack x np
      modifyProc np fun q => { q with state := .unused }
      return false
    | some nd => do
      modifyProc np fun q =>
        { q with pgdir := some nd, sz := (s.proc p).sz, parent := some p }
      dupFiles p np (List.finRange nofile)
      modifyProc np fun q => { q with state := .active }
      return true

/-- `initproc` -/
def initproc : Fin nproc := ⟨0, by decide⟩

/-- The loop of `exit` that closes the descriptors. -/
def closeFiles (p : Fin nproc) : List (Fin nofile) → M Unit
  | [] => return ()
  | fd :: fds => do
    let s ← get
    match s.ofile (p, fd) with
    | none => closeFiles p fds
    | some f => do
      fileclose x f
      setFd p fd none
      closeFiles p fds

/-- `exit` -/
def exit (p : Fin nproc) : M Unit := do
  if p = initproc then
    throw .initExiting
  closeFiles x p (List.finRange nofile)
  modify fun s =>
    { s with
      proc := fun q =>
        if (s.proc q).parent = some p then { s.proc q with parent := some initproc }
        else s.proc q }
  modifyProc p fun q => { q with state := .zombie }

/-- `wait`, with whether there was a child -/
def wait (p : Fin nproc) : M Bool := do
  let s ← get
  match first fun q => decide ((s.proc q).parent = some p ∧ (s.proc q).state = .zombie) with
  | some q => do
    let d ← pgdir q
    freeStack x q
    mem (freevm x d)
    modifyProc q fun r => { r with parent := none, state := .unused }
    return true
  | none =>
    match first fun q => decide ((s.proc q).parent = some p) with
    | none => return false
    | some _ => throw .sleeping

/-- `growproc` -/
def growproc (p : Fin nproc) (n : Int) : M Bool := do
  let d ← pgdir p
  let s ← get
  if n = 0 then return true
  else do
    let newsz := (((s.proc p).sz + n) % 2 ^ 32).toNat
    let r ← mem (if 0 < n then allocuvm x d (s.proc p).sz newsz
      else deallocuvm x d (s.proc p).sz newsz)
    modifyProc p fun q => { q with pgdir := some r.1 }
    if r.2 = 0 then return false
    else do
      modifyProc p fun q => { q with sz := r.2 }
      return true

/-- `sys_exec` and `exec`. `phs` are the program headers, and `none` when the file is not found or
its header is not one of ELF. -/
def exec (p : Fin nproc) (phs : Option (List Ph)) (args : List Nat) (word : UInt32) : M Bool := do
  let old ← pgdir p
  let s ← get
  if args.length ≥ maxarg ∨ ∃ len ∈ args, (s.proc p).sz ≤ len then return false
  else
    match phs with
    | none => return false
    | some phs => do
      match ← mem (setupkvm x) with
      | none => return false
      | some d => do
        let r ← mem (buildImage x d ((old.pte 0).map fun _ => word) phs args)
        match r.2 with
        | none => do
          mem (freevm x r.1)
          return false
        | some sz => do
          modifyProc p fun q => { q with pgdir := some r.1, sz := sz }
          mem (freevm x old)
          return true

/-! ## Runs -/

/-- The modelled system calls. -/
inductive Call where
  | fork
  | exec (phs : Option (List Ph)) (args : List Nat) (word : UInt32)
  | exit
  | wait
  | sbrk (n : Int)
  | pipe
  | close (fd : Fin nofile)

/-- A call by process `p`. -/
def call (p : Fin nproc) (c : Call) : M Unit := do
  let s ← get
  if (s.proc p).state ≠ .active then
    throw .notRunning
  match c with
  | .fork => do
    let _ ← fork x p
  | .exec phs args word => do
    let _ ← exec x p phs args word
  | .exit => exit x p
  | .wait => do
    let _ ← wait x p
  | .sbrk n => do
    let _ ← growproc x p n
  | .pipe => do
    let _ ← sysPipe x p
  | .close fd => do
    let _ ← sysClose x p fd

/-- `userinit`; the allocator is not out of memory at boot. -/
def userinit : M Unit := do
  match ← allocproc with
  | none => throw .outOfMemory
  | some p => do
    match ← mem (setupkvm x) with
    | none => throw .outOfMemory
    | some d => do
      match ← mem kalloc with
      | none => throw .outOfMemory
      | some page => do
        let r ← mem (mappages d 0 pgsize (page * pgsize) ⟨true, true⟩)
        if r.2 = false then
          throw .outOfMemory
        modifyProc p fun q =>
          { q with pgdir := some r.1, sz := pgsize, parent := none, state := .active }

/-- The state before `userinit`: some pages are free, and the kernel has taken the others. -/
def State.start (free kernel : List Page) : State where
  kmem := ⟨free, false⟩
  kernel := kernel
  proc := fun _ => ⟨.unused, none, none, none, 0⟩
  ofile := fun _ => none
  file := fun _ => ⟨0, none⟩
  pipes := []

end Laboratorio.Xv6.Vm
