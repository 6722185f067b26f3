import Laboratorio.Lib.Count
import Laboratorio.Lib.Wp

/-!
# Physical pages and page tables (`xv6/kalloc.c`, `xv6/vm.c`)

A physical page is named by its number, the address divided by `PGSIZE`. The free pages are the list
`kmem.freelist`. A page table is the tree of its pages: the page directory, the page-table pages that
its entries point to, and the entries of those. An entry is `none` when `PTE_P` is clear, which is
when it is 0. Virtual addresses below are page numbers where the source only uses multiples of
`PGSIZE`.

The contents of the pages that users see are left out, with one exception. `uva2ka` does not check
that there is a page-table page for its address, and then takes the word at address 0 of the current
process for the entry; `copyout` writes where that word points. Of this write we keep what it does to
a free page, which is to overwrite the link to the next one.
-/

namespace Laboratorio.Xv6.Vm

open Function

/-- The number of a physical page. -/
abbrev Page := Nat

def pgsize : Nat := 4096
/-- Irreducible, because sums over a page directory would be unfolded otherwise. -/
@[irreducible] def npdentries : Nat := 1024
def nptentries : Nat := 1024
def kernbase : Nat := 0x80000000
def extmem : Nat := 0x100000
def phystop : Nat := 0xE000000
def devspace : Nat := 0xFE000000

/-- Where the linker puts the kernel: `V2P(data)` and `V2P(end)`. -/
structure Layout where
  data : Nat
  kend : Nat
  aligned : data % pgsize = 0
  text : extmem < data
  bss : data ≤ kend
  small : kend < phystop

/-- A kernel of 84 pages. -/
def bootLayout : Layout := ⟨0x108000, 0x1154A8, by decide, by decide, by decide, by decide⟩

/-- The panics of the modelled functions, and what stops a call for another reason. -/
inductive Fault where
  | kfree
  | remap
  | notAligned
  | addressShouldExist
  | clearpteu
  | pteShouldExist
  | pageNotPresent
  | filedup
  | fileclose
  | initExiting
  | outOfMemory
  /-- `kalloc` follows a link that has been overwritten. -/
  | badFreelist
  /-- `copyout` writes to a page that is not free through the word at address 0. -/
  | wildWrite
  /-- `uva2ka` reads address 0, where nothing is mapped. -/
  | pageFault
  /-- `pipeclose` uses a pipe whose page has been freed. -/
  | danglingPipe
  /-- The process has no page table, or no kernel stack. -/
  | noMemory
  /-- The caller is not a process that runs. -/
  | notRunning
  /-- `wait` sleeps. -/
  | sleeping
deriving DecidableEq, Repr

/-! ## The allocator -/

/-- `kmem`; `wild` says that the link of the last page has been overwritten. -/
structure Kmem where
  freelist : List Page
  wild : Bool

abbrev K := StateT Kmem (Except Fault)

/-- `kalloc` -/
def kalloc : K (Option Page) := do
  let k ← get
  match k.freelist with
  | [] =>
    if k.wild then
      throw .badFreelist
    return none
  | p :: l =>
    set { k with freelist := l }
    return some p

/-- `kfree` -/
def kfree (x : Layout) (p : Page) : K Unit := do
  if p * pgsize < x.kend ∨ p * pgsize ≥ phystop then
    throw .kfree
  modify fun k => { k with freelist := p :: k.freelist }

/-! ## Page tables -/

/-- The permissions `PTE_W` and `PTE_U`. -/
structure Perm where
  w : Bool
  u : Bool

/-- A page-table entry. -/
structure Pte where
  page : Page
  perm : Perm

/-- A page-table page. -/
structure Pt where
  page : Page
  pte : Nat → Option Pte

/-- A page directory. -/
structure Pgdir where
  page : Page
  pde : Nat → Option Pt

/-- The entry of virtual page `v`. -/
def Pgdir.pte (d : Pgdir) (v : Nat) : Option Pte :=
  (d.pde (v / nptentries)).bind fun t => t.pte (v % nptentries)

/-- Store into the entry of virtual page `v`. -/
def Pgdir.setPte (d : Pgdir) (v : Nat) (e : Option Pte) : Pgdir :=
  { d with
    pde :=
      update d.pde (v / nptentries) ((d.pde (v / nptentries)).map fun t =>
        { t with pte := update t.pte (v % nptentries) e }) }

/-- `walkpgdir` with `alloc`: the page table with the page-table page of `v`. -/
def walkpgdir (d : Pgdir) (v : Nat) : K (Option Pgdir) :=
  match d.pde (v / nptentries) with
  | some _ => return some d
  | none => do
    match ← kalloc with
    | none => return none
    | some p =>
      return some { d with
        pde := update d.pde (v / nptentries) (some ⟨p, fun _ => none⟩) }

/-- The loop of `mappages` for `n` pages from `v` on. -/
def mapLoop (perm : Perm) : Pgdir → (v n : Nat) → (p : Page) → K (Pgdir × Bool)
  | d, _, 0, _ => return (d, true)
  | d, v, n + 1, p => do
    match ← walkpgdir d v with
    | none => return (d, false)
    | some d =>
      if (d.pte v).isSome then
        throw .remap
      mapLoop perm (d.setPte v (some ⟨p, perm⟩)) (v + 1) n (p + 1)

/-- `mappages`, with whether it succeeds -/
def mappages (d : Pgdir) (va size pa : Nat) (perm : Perm) : K (Pgdir × Bool) :=
  mapLoop perm d (va / pgsize) ((va + size - 1) / pgsize + 1 - va / pgsize) (pa / pgsize)

/-- `PGROUNDUP`, as a page number -/
def pgroundup (sz : Nat) : Nat := (sz + (pgsize - 1)) / pgsize

/-- The loop of `deallocuvm` from virtual page `v` on. -/
def deallocLoop (x : Layout) (oldsz : Nat) (d : Pgdir) (v : Nat) : K Pgdir :=
  if _h : v * pgsize < oldsz then
    match d.pde (v / nptentries) with
    | none => deallocLoop x oldsz d ((v / nptentries + 1) * nptentries)
    | some t =>
      match t.pte (v % nptentries) with
      | none => deallocLoop x oldsz d (v + 1)
      | some e => do
        if e.page = 0 then
          throw .kfree
        kfree x e.page
        deallocLoop x oldsz (d.setPte v none) (v + 1)
  else return d
termination_by oldsz - v
decreasing_by
  all_goals
    simp only [pgsize, nptentries] at _h ⊢
    omega

/-- `deallocuvm`: the page table and the new size -/
def deallocuvm (x : Layout) (d : Pgdir) (oldsz newsz : Nat) : K (Pgdir × Nat) :=
  if newsz ≥ oldsz then return (d, oldsz)
  else do
    let d ← deallocLoop x oldsz d (pgroundup newsz)
    return (d, newsz)

/-- `freevm`, the loop over the entries of the directory from `i` on -/
def freeTables (x : Layout) (d : Pgdir) : (i n : Nat) → K Unit
  | _, 0 => return ()
  | i, n + 1 => do
    match d.pde i with
    | none => freeTables x d (i + 1) n
    | some t => do
      kfree x t.page
      freeTables x d (i + 1) n

/-- `freevm` -/
def freevm (x : Layout) (d : Pgdir) : K Unit := do
  let r ← deallocuvm x d kernbase 0
  freeTables x r.1 0 npdentries
  kfree x d.page

/-- The table `kmap`: virtual address, size, physical address and permissions. -/
def kmap (x : Layout) : List (Nat × Nat × Nat × Perm) :=
  [(kernbase, extmem, 0, ⟨true, false⟩),
    (kernbase + extmem, x.data - extmem, extmem, ⟨false, false⟩),
    (kernbase + x.data, phystop - x.data, x.data, ⟨true, false⟩),
    (devspace, 2 ^ 32 - devspace, devspace, ⟨true, false⟩)]

/-- The loop of `setupkvm` over the rest of `kmap`. -/
def mapKernel (x : Layout) : Pgdir → List (Nat × Nat × Nat × Perm) → K (Option Pgdir)
  | d, [] => return some d
  | d, (va, size, pa, perm) :: ks => do
    let r ← mappages d va size pa perm
    if r.2 then mapKernel x r.1 ks
    else do
      freevm x r.1
      return none

/-- `setupkvm` -/
def setupkvm (x : Layout) : K (Option Pgdir) := do
  match ← kalloc with
  | none => return none
  | some p => mapKernel x ⟨p, fun _ => none⟩ (kmap x)

/-- The loop of `allocuvm` for `n` pages from `v` on. -/
def allocLoop (x : Layout) (oldsz newsz : Nat) : Pgdir → (v n : Nat) → K (Pgdir × Nat)
  | d, _, 0 => return (d, newsz)
  | d, v, n + 1 => do
    match ← kalloc with
    | none => do
      let r ← deallocuvm x d newsz oldsz
      return (r.1, 0)
    | some mem => do
      let r ← mappages d (v * pgsize) pgsize (mem * pgsize) ⟨true, true⟩
      if r.2 then allocLoop x oldsz newsz r.1 (v + 1) n
      else do
        let r ← deallocuvm x r.1 newsz oldsz
        kfree x mem
        return (r.1, 0)

/-- `allocuvm`: the page table and the new size, or 0. It is irreducible because the unifier would
count the sizes down otherwise. -/
@[irreducible] def allocuvm (x : Layout) (d : Pgdir) (oldsz newsz : Nat) : K (Pgdir × Nat) :=
  if newsz ≥ kernbase then return (d, 0)
  else if newsz < oldsz then return (d, oldsz)
  else allocLoop x oldsz newsz d (pgroundup oldsz) (pgroundup newsz - pgroundup oldsz)

/-- The loop of `copyuvm` for `n` pages from `v` on. -/
def copyLoop (x : Layout) (src : Pgdir) : Pgdir → (v n : Nat) → K (Option Pgdir)
  | d, _, 0 => return some d
  | d, v, n + 1 =>
    match src.pde (v / nptentries) with
    | none => throw .pteShouldExist
    | some t =>
      match t.pte (v % nptentries) with
      | none => throw .pageNotPresent
      | some e => do
        match ← kalloc with
        | none => do
          freevm x d
          return none
        | some mem => do
          let r ← mappages d (v * pgsize) pgsize (mem * pgsize) e.perm
          if r.2 then copyLoop x src r.1 (v + 1) n
          else do
            kfree x mem
            freevm x r.1
            return none

/-- `copyuvm` -/
def copyuvm (x : Layout) (src : Pgdir) (sz : Nat) : K (Option Pgdir) := do
  match ← setupkvm x with
  | none => return none
  | some d => copyLoop x src d 0 (pgroundup sz)

/-- `clearpteu` -/
def clearpteu (d : Pgdir) (v : Nat) : K Pgdir :=
  match d.pde (v / nptentries) with
  | none => throw .clearpteu
  | some t => return d.setPte v ((t.pte (v % nptentries)).map fun e =>
    { e with perm := { e.perm with u := false } })

/-- `loaduvm` for `n` pages from `v` on, when `readi` succeeds for `good` of them -/
def loaduvm (d : Pgdir) : (v n good : Nat) → K Bool
  | _, 0, _ => return true
  | v, n + 1, good =>
    match d.pde (v / nptentries) with
    | none => throw .addressShouldExist
    | some _ =>
      match good with
      | 0 => return false
      | good + 1 => loaduvm d (v + 1) n good

/-! ## Copying to user addresses -/

/-- What `uva2ka` finds: no page, the page of an entry, or the page that the word at address 0 names
as if it were an entry. -/
inductive Target where
  | none
  | user
  | wild (p : Page)

/-- The page that a word names as if it were an entry, if that is present, the user's, and not at the
address that `P2V` takes to 0. -/
def wordPage (w : UInt32) : Option Page :=
  let p := w.toNat / pgsize
  if w.toNat % 2 = 1 ∧ w.toNat / 4 % 2 = 1 ∧ (p * pgsize + kernbase) % 2 ^ 32 ≠ 0 then some p
  else none

theorem wordPage_eq {w : UInt32} {p : Nat} (hw : w.toNat = p * pgsize + 5)
    (hp : p * pgsize < phystop) : wordPage w = some p := by
  have hpage : w.toNat / pgsize = p := by
    rw [hw, pgsize]
    omega
  rw [wordPage, hpage, hw]
  refine if_pos ?_
  simp only [pgsize, kernbase, phystop] at hp ⊢
  omega

/-- `uva2ka`, with the word at address 0 of the current process, if that is mapped -/
def uva2ka (d : Pgdir) (zero : Option UInt32) (v : Nat) : K Target :=
  match d.pde (v / nptentries) with
  | none =>
    match zero with
    | none => throw .pageFault
    | some w => return (wordPage w).elim .none .wild
  | some t =>
    match t.pte (v % nptentries) with
    | none => return .none
    | some e => if e.perm.u then return .user else return .none

/-- Write `len` bytes of a string from offset `off` of page `p` on. The link of a free page is its
first word, and it is overwritten by a byte that is not 0 unless `len` is 1. -/
def scribble (p : Page) (off len : Nat) : K Unit := do
  let k ← get
  if p ∉ k.freelist then
    throw .wildWrite
  if off = 0 ∧ 1 < len then
    set { k with freelist := k.freelist.takeWhile (· ≠ p) ++ [p], wild := true }

/-- `copyout` of `len` bytes to address `va`, with whether it succeeds -/
def copyout (d : Pgdir) (zero : Option UInt32) (va len : Nat) : K Bool :=
  if h : 0 < len then do
    let v := va / pgsize
    let n := min (pgsize - va % pgsize) len
    match ← uva2ka d zero v with
    | .none => return false
    | .user => copyout d zero ((v + 1) * pgsize % 2 ^ 32) (len - n)
    | .wild p => do
      scribble p (va % pgsize) len
      copyout d zero ((v + 1) * pgsize % 2 ^ 32) (len - n)
  else return true
termination_by len
decreasing_by
  all_goals
    have : va % pgsize < pgsize := Nat.mod_lt _ (by decide)
    omega

/-! ## The new image of `exec` -/

/-- What `exec` reads for a program header. -/
inductive Ph where
  /-- `readi` is short. -/
  | short
  /-- `type` is not `ELF_PROG_LOAD`. -/
  | other
  /-- A segment, of which `readi` reads `good` pages without an error. -/
  | load (vaddr filesz memsz good : Nat)

/-- The loop of `exec` over the program headers: the page table, and the size unless it fails. -/
def loadSegments (x : Layout) : Pgdir → (sz : Nat) → List Ph → K (Pgdir × Option Nat)
  | d, sz, [] => return (d, some sz)
  | d, _, .short :: _ => return (d, none)
  | d, sz, .other :: phs => loadSegments x d sz phs
  | d, sz, .load vaddr filesz memsz good :: phs =>
    if memsz < filesz then return (d, none)
    else if (vaddr + memsz) % 2 ^ 32 < vaddr then return (d, none)
    else do
      let r ← allocuvm x d sz (vaddr + memsz)
      if r.2 = 0 then return (r.1, none)
      else if vaddr % pgsize ≠ 0 then return (r.1, none)
      else if ← loaduvm r.1 (vaddr / pgsize) (pgroundup filesz) good then
        loadSegments x r.1 r.2 phs
      else return (r.1, none)

def maxarg : Nat := 32

/-- The loop of `exec` over the argument strings, given by their lengths, from the `argc`-th on; then
the array `ustack` is pushed. -/
def pushArgs (d : Pgdir) (zero : Option UInt32) : (sp argc : Nat) → List Nat → K Bool
  | sp, argc, [] => copyout d zero ((sp + 2 ^ 32 - (3 + argc + 1) * 4) % 2 ^ 32) ((3 + argc + 1) * 4)
  | sp, argc, len :: args =>
    if argc ≥ maxarg then return false
    else do
      let sp := (sp + 2 ^ 32 - (len + 1)) % 2 ^ 32 / 4 * 4
      if ← copyout d zero sp (len + 1) then pushArgs d zero sp (argc + 1) args
      else return false

/-- The stack of the new image, with its arguments. -/
def buildStack (x : Layout) (d : Pgdir) (zero : Option UInt32) (sz : Nat) (args : List Nat) :
    K (Pgdir × Option Nat) := do
  let r ← allocuvm x d (pgroundup sz * pgsize) (pgroundup sz * pgsize + 2 * pgsize)
  if r.2 = 0 then return (r.1, none)
  else do
    let d ← clearpteu r.1 (r.2 / pgsize - 2)
    if ← pushArgs d zero r.2 0 args then return (d, some r.2)
    else return (d, none)

/-- What `exec` makes of a page table: the image, and its size unless it fails. -/
def buildImage (x : Layout) (d : Pgdir) (zero : Option UInt32) (phs : List Ph) (args : List Nat) :
    K (Pgdir × Option Nat) := do
  let r ← loadSegments x d 0 phs
  match r.2 with
  | none => return (r.1, none)
  | some sz => buildStack x r.1 zero sz args

end Laboratorio.Xv6.Vm
