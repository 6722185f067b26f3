import Laboratorio.Lib.Cycle

/-!
# The memory allocator of user programs (`xv6/umalloc.c`)

Free blocks are on a circular list in the order of their addresses, with `base` as a block of size
zero. `malloc` takes the first block that is large enough from `freep` on, `free` puts a block between
its neighbours and joins it with those that it touches.

Headers are at addresses; `hdr` has for every address what a header there contains, also where a
program has stored something else. Both loops run with `fuel`, and a call is `none` when that is used
up; that the calls end is part of what is proved (`heap_invariant`). What `sbrk` answers is an argument
of the call. `regions` is a ghost field with the memory that `sbrk` has given.

A program calls `malloc`, frees what it has got, and stores into it, in any order (`Step`).
-/

namespace Laboratorio.Xv6.Umalloc

open Function Laboratorio.Cyclic

/-- `Header`, a unit of 8 bytes -/
structure Header where
  ptr : Nat
  size : Nat

/-- A block of memory; the size is in units, with the one of its header. -/
structure Block where
  addr : Nat
  size : Nat
deriving DecidableEq

/-- The first address after a block. -/
def Block.limit (b : Block) : Nat := b.addr + 8 * b.size

/-- `p + n` for a pointer to a header -/
def add (p n : Nat) : Nat := (p + 8 * n) % 2 ^ 32

/-- The memory of a program, as far as the allocator is concerned. `base` is the address of the
variable, and the memory that `sbrk` gives is above it. -/
structure Heap where
  hdr : Nat → Header
  freep : Nat
  regions : List Block

def Heap.ptr (s : Heap) (p : Nat) : Nat := (s.hdr p).ptr
def Heap.size (s : Heap) (p : Nat) : Nat := (s.hdr p).size

/-- `p->s.ptr = q` -/
def Heap.setPtr (s : Heap) (p q : Nat) : Heap :=
  { s with hdr := update s.hdr p { s.hdr p with ptr := q } }

/-- `p->s.size = n` -/
def Heap.setSize (s : Heap) (p n : Nat) : Heap :=
  { s with hdr := update s.hdr p { s.hdr p with size := n } }

section Fields

variable {s : Heap} {p q n a : Nat}

@[simp]
theorem ptr_setPtr_self : (s.setPtr p q).ptr p = q := by simp [Heap.ptr, Heap.setPtr]

theorem ptr_setPtr_of_ne (h : a ≠ p) : (s.setPtr p q).ptr a = s.ptr a := by
  simp [Heap.ptr, Heap.setPtr, h]

@[simp]
theorem size_setPtr : (s.setPtr p q).size a = s.size a := by
  by_cases h : a = p
  · simp [Heap.size, Heap.setPtr, h]
  · simp [Heap.size, Heap.setPtr, h]

@[simp]
theorem size_setSize_self : (s.setSize p n).size p = n := by simp [Heap.size, Heap.setSize]

theorem size_setSize_of_ne (h : a ≠ p) : (s.setSize p n).size a = s.size a := by
  simp [Heap.size, Heap.setSize, h]

@[simp]
theorem ptr_setSize : (s.setSize p n).ptr a = s.ptr a := by
  by_cases h : a = p
  · simp [Heap.ptr, Heap.setSize, h]
  · simp [Heap.ptr, Heap.setSize, h]

end Fields

/-- Where the memory of the program ends. -/
def top (base : Nat) : List Block → Nat
  | [] => base + 8
  | r :: _ => r.limit

/-- What `sbrk` answers, when the memory ends at `top`: fresh memory that is aligned, or -1. -/
structure Sbrk where
  ask : (top n : Nat) → Option Nat
  fresh : ∀ top n a, n < 2 ^ 31 → ask top n = some a → top ≤ a ∧ a % 8 = 0 ∧ a + n < 2 ^ 32

/-! ## `free` -/

/-- The loop of `free` stops at `p`. -/
def Heap.stops (s : Heap) (bp p : Nat) : Bool :=
  (bp > p ∧ bp < s.ptr p) ∨ (p ≥ s.ptr p ∧ (bp > p ∨ bp < s.ptr p))

/-- Join `bp` with the block after `p`, or link it to that block. -/
def Heap.joinUpper (s : Heap) (bp p : Nat) : Heap :=
  if add bp (s.size bp) = s.ptr p then
    let s := s.setSize bp ((s.size bp + s.size (s.ptr p)) % 2 ^ 32)
    s.setPtr bp (s.ptr (s.ptr p))
  else s.setPtr bp (s.ptr p)

/-- Join `bp` with `p`, or link `p` to it. -/
def Heap.joinLower (s : Heap) (bp p : Nat) : Heap :=
  if add p (s.size p) = bp then
    let s := s.setSize p ((s.size p + s.size bp) % 2 ^ 32)
    s.setPtr p (s.ptr bp)
  else s.setPtr p bp

/-- `free` -/
def free (fuel : Nat) (s : Heap) (ap : Nat) : Option Heap :=
  let bp := ap - 8
  match search s.ptr (s.stops bp) fuel s.freep with
  | none => none
  | some p => some { (s.joinUpper bp p).joinLower bp p with freep := p }

/-! ## `malloc` -/

/-- `morecore`; the result 0 is `none`. -/
def morecore (base : Nat) (sbrk : Sbrk) (fuel : Nat) (s : Heap) (nu : Nat) :
    Option (Heap × Option Nat) :=
  let nu := if nu < 4096 then 4096 else nu
  match sbrk.ask (top base s.regions) (nu * 8 % 2 ^ 32) with
  | none => some (s, none)
  | some hp =>
    let s := { s.setSize hp nu with regions := ⟨hp, nu⟩ :: s.regions }
    match free fuel s (hp + 8) with
    | none => none
    | some s => some (s, some s.freep)

/-- What `malloc` does with the block `p` that it has found after `prevp`. -/
def Heap.take (s : Heap) (nunits prevp p : Nat) : Heap × Nat :=
  if s.size p = nunits then
    ({ s.setPtr prevp (s.ptr p) with freep := prevp }, p + 8)
  else
    let s := s.setSize p (s.size p - nunits)
    let p := add p (s.size p)
    ({ s.setSize p nunits with freep := prevp }, p + 8)

/-- The loop of `malloc` -/
def mallocLoop (base : Nat) (sbrk : Sbrk) (nunits : Nat) :
    Nat → Heap → (prevp p : Nat) → Option (Heap × Option Nat)
  | 0, _, _, _ => none
  | fuel + 1, s, prevp, p =>
    if s.size p ≥ nunits then
      let r := s.take nunits prevp p
      some (r.1, some r.2)
    else if p = s.freep then
      match morecore base sbrk fuel s nunits with
      | none => none
      | some (s, none) => some (s, none)
      | some (s, some p) => mallocLoop base sbrk nunits fuel s p (s.ptr p)
    else mallocLoop base sbrk nunits fuel s p (s.ptr p)

/-- `nunits` -/
def unitsFor (nbytes : Nat) : Nat := (nbytes + 8 - 1) % 2 ^ 32 / 8 + 1

/-- Make a list of `base` alone, unless there is a list already. -/
def Heap.start (s : Heap) (base : Nat) : Heap :=
  if s.freep = 0 then { (s.setPtr base base).setSize base 0 with freep := base } else s

/-- `malloc`; the result 0 is `none`. -/
def malloc (base : Nat) (sbrk : Sbrk) (fuel : Nat) (s : Heap) (nbytes : Nat) :
    Option (Heap × Option Nat) :=
  let s := s.start base
  mallocLoop base sbrk (unitsFor nbytes) fuel s s.freep (s.ptr s.freep)

/-! ## Programs -/

/-- A block that has been allocated, with the number of bytes that were asked for. -/
structure Used where
  block : Block
  nbytes : Nat
deriving DecidableEq

/-- The heap, and what the program has got and not freed. -/
structure State where
  heap : Heap
  used : List Used

/-- The address is one of those that the program may use. -/
def State.Owns (s : State) (a : Nat) : Prop :=
  ∃ u ∈ s.used, u.block.addr + 8 ≤ a ∧ a < u.block.limit

/-- The program gets the memory at `ap`, or nothing. -/
def State.got (s : State) (h : Heap) (nbytes : Nat) : Option Nat → State
  | none => { s with heap := h }
  | some ap => ⟨h, ⟨⟨ap - 8, h.size (ap - 8)⟩, nbytes⟩ :: s.used⟩

inductive Step (base : Nat) (s : State) : State → Prop
  | malloc {sbrk : Sbrk} {fuel nbytes : Nat} {h : Heap} {r : Option Nat} :
      nbytes < 2 ^ 31 - 2 ^ 16 → malloc base sbrk fuel s.heap nbytes = some (h, r) →
      Step base s (s.got h nbytes r)
  | free {fuel : Nat} {u : Used} {h : Heap} :
      u ∈ s.used → free fuel s.heap (u.block.addr + 8) = some h →
      Step base s ⟨h, s.used.erase u⟩
  | store {hdr : Nat → Header} :
      (∀ a, ¬s.Owns a → hdr a = s.heap.hdr a) →
      Step base s { s with heap := { s.heap with hdr := hdr } }

/-- A program that has not called `malloc`. -/
def State.Init (s : State) : Prop := s.heap.freep = 0 ∧ s.heap.regions = [] ∧ s.used = []

/-! ## Units of memory -/

/-- The addresses of the units of a block. -/
def Block.units (b : Block) : Multiset Nat := (Multiset.range b.size).map fun i => b.addr + 8 * i

/-- The units of some blocks. -/
def units (bs : List Block) : Multiset Nat := (bs.map Block.units).sum

@[simp]
theorem units_cons (b : Block) (bs : List Block) : units (b :: bs) = b.units + units bs := by
  simp [units]

@[simp]
theorem units_append (bs cs : List Block) : units (bs ++ cs) = units bs + units cs := by
  simp [units]

theorem units_perm {bs cs : List Block} (h : bs.Perm cs) : units bs = units cs :=
  (h.map _).sum_eq

theorem mem_units {b : Block} {a : Nat} : a ∈ b.units ↔ ∃ i < b.size, b.addr + 8 * i = a := by
  simp [Block.units]

theorem mem_units_list {bs : List Block} {a : Nat} : a ∈ units bs ↔ ∃ b ∈ bs, a ∈ b.units := by
  induction bs with
  | nil => simp [units]
  | cons b bs ih => simp [ih]

@[simp]
theorem card_units (b : Block) : b.units.card = b.size := by simp [Block.units]

theorem card_units_list (bs : List Block) : (units bs).card = (bs.map Block.size).sum := by
  induction bs with
  | nil => rfl
  | cons b bs ih => simp [ih]

theorem units_le {b : Block} {bs : List Block} (h : b ∈ bs) : b.units ≤ units bs := by
  obtain ⟨us, vs, rfl⟩ := List.append_of_mem h
  rw [units_append, units_cons, add_left_comm]
  exact Multiset.le_add_right ..

/-- **A block in two parts.** -/
theorem units_add (a m n : Nat) :
    Block.units ⟨a, m + n⟩ = Block.units ⟨a, m⟩ + Block.units ⟨a + 8 * m, n⟩ := by
  simp only [Block.units, Multiset.range_add, Multiset.map_add, Multiset.map_map]
  congr 2
  funext i
  simp only [Function.comp]
  omega

theorem addr_mem_units {b : Block} (h : 0 < b.size) : b.addr ∈ b.units := mem_units.mpr ⟨0, h, rfl⟩

/-- The unit before the limit. -/
theorem last_mem_units {b : Block} (h : 0 < b.size) : b.limit - 8 ∈ b.units :=
  mem_units.mpr ⟨b.size - 1, by omega, by rw [Block.limit]; omega⟩

/-- Aligned blocks without a common unit do not overlap. -/
theorem limit_le_of_disjoint {b c : Block} (hb : b.addr % 8 = 0) (hc : c.addr % 8 = 0)
    (hpos : 0 < c.size) (hlt : b.addr < c.addr) (hd : Disjoint b.units c.units) :
    b.limit ≤ c.addr := by
  by_contra hover
  rw [Block.limit] at hover
  have hmem : c.addr ∈ b.units := mem_units.mpr ⟨(c.addr - b.addr) / 8, by omega, by omega⟩
  exact Multiset.disjoint_left.mp hd hmem (addr_mem_units hpos)

/-! ## The memory that `sbrk` has given -/

/-- Regions of memory, the last one first. -/
def Regions (base : Nat) : List Block → Prop
  | [] => True
  | r :: rs => top base rs ≤ r.addr ∧ r.addr % 8 = 0 ∧ r.limit < 2 ^ 32 ∧ Regions base rs

section Regions

variable {base : Nat} {rs : List Block}

theorem Regions.base_le_top (h : Regions base rs) : base + 8 ≤ top base rs := by
  induction rs with
  | nil => exact le_rfl
  | cons r rs ih =>
    obtain ⟨hle, -, -, hrest⟩ := h
    exact ((ih hrest).trans hle).trans (Nat.le_add_right ..)

theorem Regions.mem (h : Regions base rs) {a : Nat} (ha : a ∈ units rs) :
    base + 8 ≤ a ∧ a + 8 ≤ top base rs ∧ a % 8 = 0 ∧ a + 8 < 2 ^ 32 := by
  induction rs with
  | nil => simp [units] at ha
  | cons r rs ih =>
    obtain ⟨hle, halign, hlimit, hrest⟩ := h
    rw [units_cons, Multiset.mem_add] at ha
    rw [Block.limit] at hlimit
    rw [top, Block.limit]
    rcases ha with ha | ha
    · obtain ⟨i, hi, rfl⟩ := mem_units.mp ha
      have := hrest.base_le_top
      omega
    · obtain ⟨hbase, htop, hmod, hlt⟩ := ih hrest ha
      omega

theorem nodup_units (b : Block) : b.units.Nodup := by
  refine Multiset.Nodup.map (fun i j hij => ?_) (Multiset.nodup_range _)
  replace hij : b.addr + 8 * i = b.addr + 8 * j := hij
  omega

theorem Regions.nodup (h : Regions base rs) : (units rs).Nodup := by
  induction rs with
  | nil => exact Multiset.nodup_zero
  | cons r rs ih =>
    obtain ⟨hle, -, -, hrest⟩ := h
    rw [units_cons, Multiset.nodup_add]
    refine ⟨nodup_units r, ih hrest, Multiset.disjoint_left.mpr fun har hars => ?_⟩
    obtain ⟨i, hi, rfl⟩ := mem_units.mp har
    obtain ⟨-, htop, -, -⟩ := hrest.mem hars
    omega

end Regions

end Laboratorio.Xv6.Umalloc
