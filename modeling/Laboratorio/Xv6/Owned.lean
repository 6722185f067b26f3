import Laboratorio.Lib.DiskProg
import Laboratorio.Xv6.Layout

/-!
# Block ownership

The free map, the inodes and the indirect blocks are three representations of one fact: which block
belongs to which place of which inode. This module states that fact about a disk `v` and a table of
inodes `T`, with no program in sight:

* `Owns sb v T i p b`: block `b` is at place `p` of the allocated inode `i`.
* `Owned sb v T`: every owned block lies in the data area, is marked in the free map, and is owned
  once.
* `byteAt v d o`: the byte at offset `o` of a file; a block that is not there reads as zeros.

The changes that the file system makes to one inode are described by `Changed`: a fresh block at an
empty place (`Owned.attach`, after which every file reads as before), and a data block overwritten
(`Owned.writeBlock`). `Owned.shrink` is for an inode that gives up blocks.
-/

namespace Laboratorio.Xv6

open Function Laboratorio.Bytes Laboratorio.DiskProg

/-! ## The layout of the disk -/

/-- The number of the first data block: everything below is boot block, super block, log, inodes or
free map. -/
def Superblock.nmeta (sb : Superblock) : Nat := sb.bmapstart + (sb.size / bpb + 1)

theorem Superblock.bmapstart_lt_nmeta (sb : Superblock) : sb.bmapstart < sb.nmeta :=
  Nat.lt_add_of_pos_right (Nat.succ_pos _)

/-- The areas follow each other as `mkfs` lays them out, and block and inode numbers fit in the
fields that hold them. -/
structure Superblock.Ok (sb : Superblock) : Prop where
  log_pos : 0 < sb.nlog
  log_end : sb.logstart + sb.nlog ≤ sb.inodestart
  inode_end : sb.inodestart + (sb.ninodes / ipb + 1) ≤ sb.bmapstart
  bmap_end : sb.nmeta ≤ sb.size
  root : rootino < sb.ninodes
  ninodes_le : sb.ninodes ≤ 2 ^ 16
  size_lt : sb.size < 2 ^ 31

variable {sb : Superblock} {v v' : Disk Blk} {d d' : Dinode} {n i j : Nat} {b b₀ : UInt32}

theorem Superblock.Ok.inodestart_lt (h : sb.Ok) : sb.inodestart < sb.bmapstart :=
  Nat.lt_of_lt_of_le (Nat.lt_add_of_pos_right (Nat.succ_pos _)) h.inode_end

theorem Superblock.Ok.inodestart_lt_nmeta (h : sb.Ok) : sb.inodestart < sb.nmeta :=
  Nat.lt_trans h.inodestart_lt sb.bmapstart_lt_nmeta

theorem Superblock.Ok.bmapstart_lt (h : sb.Ok) : sb.bmapstart < sb.size :=
  Nat.lt_of_lt_of_le sb.bmapstart_lt_nmeta h.bmap_end

theorem Superblock.Ok.iblock_lt (h : sb.Ok) (hi : i < sb.ninodes) :
    sb.inodestart ≤ iblock sb i ∧ iblock sb i < sb.bmapstart := by
  have := h.inode_end
  simp only [iblock, ipb] at *
  omega

theorem Superblock.bblock_lt (sb : Superblock) {b : Nat} (hb : b < sb.size) :
    sb.bmapstart ≤ bblock sb b ∧ bblock sb b < sb.nmeta := by
  simp only [bblock, Superblock.nmeta, bpb]
  omega

theorem bblock_inj {b x : Nat} (h : bblock sb b = bblock sb x) : b % bpb = x % bpb ↔ b = x := by
  simp only [bblock, bpb] at *
  omega

/-! ## The free map -/

/-- Block `b` is marked in the free map. -/
def bit (sb : Superblock) (v : Disk Blk) (b : Nat) : Bool := bitOf (v (bblock sb b)) (b % bpb)

/-- The disk after `balloc` has marked and zeroed block `b`. -/
def allocView (sb : Superblock) (v : Disk Blk) (b : Nat) : Disk Blk :=
  update (update v (bblock sb b) (setBit (v (bblock sb b)) (b % bpb))) b Block.zero

theorem bit_setBit (v : Disk Blk) (b x : Nat) :
    bit sb (update v (bblock sb b) (setBit (v (bblock sb b)) (b % bpb))) x =
      (decide (x = b) || bit sb v x) := by
  by_cases hblk : bblock sb x = bblock sb b
  · rw [bit, bit, hblk, update_self, bitOf_setBit _ _ (Nat.mod_lt _ (by decide))]
    simp only [bblock_inj hblk]
  · have hne : x ≠ b := fun e => hblk (by rw [e])
    rw [bit, bit, update_of_ne hblk]
    simp [hne]

/-- Changing a block that is not part of the free map changes no bit. -/
theorem bit_update (v : Disk Blk) {a : Nat} (w : Blk) {x : Nat} (hx : x < sb.size)
    (ha : a < sb.bmapstart ∨ sb.nmeta ≤ a) : bit sb (update v a w) x = bit sb v x := by
  have hb := sb.bblock_lt hx
  have hne : bblock sb x ≠ a := by omega
  rw [bit, bit, update_of_ne hne]

theorem bit_allocView (v : Disk Blk) {b x : Nat} (hb : sb.nmeta ≤ b) (hx : x < sb.size) :
    bit sb (allocView sb v b) x = (decide (x = b) || bit sb v x) := by
  rw [allocView, bit_update _ _ hx (.inr hb), bit_setBit]

theorem allocView_self (v : Disk Blk) (b : Nat) : allocView sb v b b = Block.zero :=
  update_self _ _ _

theorem allocView_of_ne (v : Disk Blk) {b x : Nat} (h : x ≠ b) (hx : x ≠ bblock sb b) :
    allocView sb v b x = v x := by
  rw [allocView, update_of_ne h, update_of_ne hx]

/-! ## Files -/

/-- The block number of the `n`th block of a file, `0` when there is none. -/
def blockAt (v : Disk Blk) (d : Dinode) (n : Nat) : UInt32 :=
  if n < ndirect then d.addr n
  else if n < maxfile ∧ d.addr ndirect ≠ 0 then word (v (d.addr ndirect).toNat) (n - ndirect)
  else 0

/-- The byte at offset `o` of a file. -/
def byteAt (v : Disk Blk) (d : Dinode) (o : Nat) : UInt8 :=
  if blockAt v d (o / bsize) = 0 then 0
  else (v (blockAt v d (o / bsize)).toNat).byte (o % bsize)

/-- The places of an inode that hold a block number. -/
inductive Place where
  | data (n : Nat)
  | indirect
deriving DecidableEq

/-- The block number at a place. -/
def Place.addr (v : Disk Blk) (d : Dinode) : Place → UInt32
  | .data n => blockAt v d n
  | .indirect => d.addr ndirect

theorem blockAt_of_direct (v : Disk Blk) (d : Dinode) (h : n < ndirect) :
    blockAt v d n = d.addr n := if_pos h

theorem blockAt_of_indirect (v : Disk Blk) (d : Dinode) (h : ndirect ≤ n)
    (h' : n < maxfile) (hd : d.addr ndirect ≠ 0) :
    blockAt v d n = word (v (d.addr ndirect).toNat) (n - ndirect) := by
  rw [blockAt, if_neg (by omega), if_pos ⟨h', hd⟩]

theorem blockAt_of_none (v : Disk Blk) (d : Dinode) (h : ndirect ≤ n)
    (hd : d.addr ndirect = 0) : blockAt v d n = 0 := by
  rw [blockAt, if_neg (by omega), if_neg (fun hc => hc.2 hd)]

theorem blockAt_of_le (v : Disk Blk) (d : Dinode) (h : maxfile ≤ n) :
    blockAt v d n = 0 := by
  rw [blockAt, if_neg (by simp only [ndirect, maxfile] at *; omega), if_neg (by omega)]

theorem lt_maxfile (h : blockAt v d n ≠ 0) : n < maxfile :=
  Nat.lt_of_not_le fun hle => h (blockAt_of_le v d hle)

/-- The block numbers of an inode depend on its indirect block only. -/
theorem Place.addr_congr (p : Place)
    (h : d.addr ndirect ≠ 0 → v' (d.addr ndirect).toNat = v (d.addr ndirect).toNat) :
    p.addr v' d = p.addr v d := by
  cases p with
  | indirect => rfl
  | data n =>
    by_cases hd : d.addr ndirect = 0
    · simp only [Place.addr, blockAt, hd, ne_eq, not_true_eq_false, and_false, if_false]
    · simp only [Place.addr, blockAt, h hd]

theorem blockAt_congr (n : Nat)
    (h : d.addr ndirect ≠ 0 → v' (d.addr ndirect).toNat = v (d.addr ndirect).toNat) :
    blockAt v' d n = blockAt v d n :=
  Place.addr_congr (.data n) h

/-- The block numbers of an inode after a direct one has been set. -/
theorem Place.addr_setDirect (v : Disk Blk) (d : Dinode) (hn : n < ndirect) (b : UInt32)
    (p : Place) : p.addr v (d.setAddr n b) = if p = .data n then b else p.addr v d := by
  have hset := fun m => d.addr_setAddr (i := n) m b (by omega)
  have hind : (d.setAddr n b).addr ndirect = d.addr ndirect := by rw [hset, if_neg (by omega)]
  cases p with
  | indirect => simp [Place.addr, hind]
  | data m =>
    by_cases hm : m < ndirect
    · simp only [Place.addr, blockAt_of_direct _ _ hm, hset, Place.data.injEq]
    · have hne : m ≠ n := by omega
      rw [if_neg (by simpa using hne), Place.addr, Place.addr]
      simp only [blockAt, hm, if_false, hind]

/-- The block numbers of an inode after it has got an indirect block, which is still empty. -/
theorem Place.addr_setIndirect (h0 : d.addr ndirect = 0)
    (hb : b ≠ 0) (hv : v b.toNat = Block.zero) (p : Place) :
    p.addr v (d.setAddr ndirect b) = if p = .indirect then b else p.addr v d := by
  have hset := fun m => d.addr_setAddr (i := ndirect) m b (by omega)
  have hind : (d.setAddr ndirect b).addr ndirect = b := by rw [hset, if_pos rfl]
  cases p with
  | indirect => simp [Place.addr, hind]
  | data m =>
    by_cases hm : m < ndirect
    · have hne : m ≠ ndirect := by omega
      simp [Place.addr, blockAt_of_direct _ _ hm, hset, hne]
    · -- every word of the new block is zero
      rw [if_neg (by simp), Place.addr, Place.addr, blockAt_of_none v _ (by omega) h0]
      by_cases hm' : m < maxfile
      · rw [blockAt_of_indirect _ _ (by omega) hm' (by rw [hind]; exact hb), hind, hv, word_zero]
      · exact blockAt_of_le _ _ (by omega)

/-- The block numbers of an inode after a word of its indirect block has been set. -/
theorem Place.addr_setWord (v : Disk Blk) (hd : d.addr ndirect ≠ 0)
    (hj : j < nindirect) (b : UInt32) (p : Place) :
    p.addr (update v (d.addr ndirect).toNat (setWord (v (d.addr ndirect).toNat) j b)) d =
      if p = .data (ndirect + j) then b else p.addr v d := by
  cases p with
  | indirect => rw [if_neg (by simp)]; rfl
  | data m =>
    by_cases hm : m < ndirect
    · have hne : m ≠ ndirect + j := by omega
      simp only [Place.addr, blockAt_of_direct _ _ hm, Place.data.injEq, hne, if_false]
    · by_cases hm' : m < maxfile
      · have hiff : m - ndirect = j ↔ m = ndirect + j := by omega
        rw [Place.addr, Place.addr, blockAt_of_indirect _ _ (by omega) hm' hd,
          blockAt_of_indirect _ _ (by omega) hm' hd, update_self, word_setWord _ _ _ hj]
        simp only [Place.data.injEq, hiff]
      · have hne : m ≠ ndirect + j := by
          simp only [ndirect, nindirect, maxfile] at *; omega
        simp only [Place.addr, blockAt_of_le _ _ (Nat.le_of_not_lt hm'), Place.data.injEq, hne,
          if_false]

/-- An inode whose block numbers are all cleared. -/
theorem Place.addr_of_empty (h : ∀ n, d.addr n = 0) (v : Disk Blk) (p : Place) :
    p.addr v d = 0 := by
  cases p with
  | indirect => exact h _
  | data n =>
    by_cases hn : n < ndirect
    · rw [Place.addr, blockAt_of_direct _ _ hn, h]
    · rw [Place.addr, blockAt_of_none _ _ (Nat.le_of_not_lt hn) (h _)]

/-- The bytes of a file depend on the blocks of its inode only. -/
theorem byteAt_congr (o : Nat)
    (h : ∀ p : Place, p.addr v d ≠ 0 → v' (p.addr v d).toNat = v (p.addr v d).toNat) :
    byteAt v' d o = byteAt v d o := by
  have hblk : blockAt v' d (o / bsize) = blockAt v d (o / bsize) :=
    blockAt_congr _ fun hd => h .indirect hd
  rw [byteAt, byteAt, hblk]
  split
  · rfl
  · next hne =>
    have hdata := h (.data (o / bsize)) hne
    simp only [Place.addr] at hdata
    rw [hdata]

/-! ## Ownership -/

/-- Block `b` is at place `p` of the allocated inode `i`. -/
structure Owns (sb : Superblock) (v : Disk Blk) (T : Nat → Dinode) (i : Nat) (p : Place)
    (b : UInt32) : Prop where
  lt : i < sb.ninodes
  type : (T i).type ≠ 0
  ne : b ≠ 0
  addr : p.addr v (T i) = b

/-- **Block ownership.** -/
structure Owned (sb : Superblock) (v : Disk Blk) (T : Nat → Dinode) : Prop where
  marked : ∀ b < sb.nmeta, bit sb v b = true
  range : ∀ {i p b}, Owns sb v T i p b → sb.nmeta ≤ b.toNat ∧ b.toNat < sb.size
  used : ∀ {i p b}, Owns sb v T i p b → bit sb v b.toNat = true
  once : ∀ {i j p q b}, Owns sb v T i p b → Owns sb v T j q b → i = j ∧ p = q

variable {T T' : Nat → Dinode}

/-- A block that `balloc` may take. -/
structure Fresh (sb : Superblock) (v : Disk Blk) (b : UInt32) : Prop where
  lt : b.toNat < sb.size
  free : bit sb v b.toNat = false

theorem Owned.fresh_meta (h : Owned sb v T) (hb : Fresh sb v b) :
    sb.nmeta ≤ b.toNat := by
  by_contra hlt
  have := h.marked b.toNat (by omega)
  rw [hb.free] at this
  cases this

theorem Owned.fresh_ne (h : Owned sb v T) (hb : Fresh sb v b) : b ≠ 0 := by
  rintro rfl
  have := h.fresh_meta hb
  simp [Superblock.nmeta] at this

/-- **`balloc` takes no block in use.** -/
theorem Owned.fresh_not_owned (h : Owned sb v T) (hb : Fresh sb v b) (i : Nat)
    (p : Place) : ¬ Owns sb v T i p b := by
  intro ho
  have := h.used ho
  rw [hb.free] at this
  cases this

/-- Ownership carries over when every owned block was owned at the same place before, or is one
fresh block. -/
theorem Owned.step (h : Owned sb v T) {i₀ : Nat} {p₀ : Place} (hb₀ : Fresh sb v b₀)
    (hown : ∀ {j p b}, Owns sb v' T' j p b →
      Owns sb v T j p b ∨ (j = i₀ ∧ p = p₀ ∧ b = b₀))
    (hmark : ∀ b < sb.nmeta, bit sb v' b = true)
    (hused : ∀ {j p b}, Owns sb v' T' j p b → bit sb v' b.toNat = true) : Owned sb v' T' where
  marked := hmark
  range ho := by
    rcases hown ho with ho | ⟨-, -, rfl⟩
    · exact h.range ho
    · exact ⟨h.fresh_meta hb₀, hb₀.lt⟩
  used := hused
  once ho ho' := by
    rcases hown ho with h1 | ⟨rfl, rfl, rfl⟩ <;> rcases hown ho' with h2 | ⟨rfl, rfl, h2⟩
    · exact h.once h1 h2
    · subst h2
      exact absurd h1 (h.fresh_not_owned hb₀ _ _)
    · exact absurd h2 (h.fresh_not_owned hb₀ _ _)
    · exact ⟨rfl, rfl⟩

/-- Ownership carries over when nothing is owned that was not owned before. -/
theorem Owned.shrink (h : Owned sb v T)
    (hown : ∀ {j p b}, Owns sb v' T' j p b → Owns sb v T j p b)
    (hmark : ∀ b < sb.nmeta, bit sb v' b = true)
    (hused : ∀ {j p b}, Owns sb v' T' j p b → bit sb v' b.toNat = true) : Owned sb v' T' where
  marked := hmark
  range ho := h.range (hown ho)
  used := hused
  once ho ho' := h.once (hown ho) (hown ho')

/-! ## Free blocks -/

/-- The number of free blocks. -/
def freeBlocks (sb : Superblock) (v : Disk Blk) : Nat :=
  (List.range sb.size).countP fun b => !bit sb v b

/-- The number of places in `P` that have no block. -/
def missing (v : Disk Blk) (d : Dinode) (P : Finset Place) : Nat :=
  (P.filter fun p => p.addr v d = 0).card

theorem freeBlocks_congr (h : ∀ x < sb.size, bit sb v' x = bit sb v x) :
    freeBlocks sb v' = freeBlocks sb v := by
  apply List.countP_congr
  intro x hx
  rw [h x (List.mem_range.mp hx)]

theorem missing_congr {P : Finset Place}
    (h : ∀ p ∈ P, p.addr v' d' = p.addr v d) : missing v' d' P = missing v d P := by
  rw [missing, missing, Finset.filter_congr fun p hp => by rw [h p hp]]

/-- Taking a block that is free. -/
theorem freeBlocks_take {b : Nat} (hlt : b < sb.size) (hfree : bit sb v b = false)
    (hbits : ∀ x < sb.size, bit sb v' x = (decide (x = b) || bit sb v x)) :
    freeBlocks sb v = freeBlocks sb v' + 1 := by
  have hmem := List.mem_range.mpr hlt
  have hnodup := List.nodup_range (n := sb.size)
  have hperm := List.perm_cons_erase hmem
  rw [freeBlocks, freeBlocks, hperm.countP_eq, hperm.countP_eq, List.countP_cons_of_pos (by simp [hfree]),
    List.countP_cons_of_neg (by simp [hbits b hlt])]
  congr 1
  apply List.countP_congr
  intro x hx
  have hne : x ≠ b := fun e => by
    subst e
    exact hnodup.not_mem_erase hx
  rw [hbits x (List.mem_range.mp (List.mem_of_mem_erase hx)), decide_eq_false hne, Bool.false_or]

/-- Filling an empty place. -/
theorem missing_fill {P : Finset Place} {p₀ : Place} (hmem : p₀ ∈ P)
    (h0 : p₀.addr v d = 0) (hb₀ : b₀ ≠ 0)
    (haddr : ∀ p : Place, p.addr v' d' = if p = p₀ then b₀ else p.addr v d) :
    missing v d P = missing v' d' P + 1 := by
  have hfilter : (P.filter fun p => p.addr v' d' = 0) = (P.filter fun p => p.addr v d = 0).erase p₀ := by
    ext p
    simp only [Finset.mem_filter, Finset.mem_erase, haddr]
    by_cases hp : p = p₀
    · simp [hp, hb₀]
    · simp [hp]
  rw [missing, missing, hfilter]
  exact (Finset.card_erase_add_one (Finset.mem_filter.mpr ⟨hmem, h0⟩)).symm

/-! ## Changing a file -/

/-- From `v` and `T` to `v'` and `d'`, the inode `i` may have got more blocks, at places in `P`, and
its bytes are now those of `g`; no byte of any other file has changed, and nothing below the free
map. -/
structure Changed (sb : Superblock) (v : Disk Blk) (T : Nat → Dinode) (i : Nat) (v' : Disk Blk)
    (d' : Dinode) (g : Nat → UInt8) (P : Finset Place) : Prop where
  owned : Owned sb v' (update T i d')
  bytes : ∀ o, byteAt v' d' o = g o
  frame : ∀ j ≠ i, j < sb.ninodes → (T j).type ≠ 0 → ∀ o, byteAt v' (T j) o = byteAt v (T j) o
  mapped : ∀ n, blockAt v (T i) n ≠ 0 → blockAt v' d' n = blockAt v (T i) n
  others : ∀ j ≠ i, j < sb.ninodes → (T j).type ≠ 0 → ∀ p : Place, p.addr v' (T j) = p.addr v (T j)
  fields : d' = { T i with addrs := d'.addrs }
  below : ∀ b < sb.bmapstart, v' b = v b
  balance : missing v' d' P + freeBlocks sb v ≤ missing v (T i) P + freeBlocks sb v'

/-- The inode `i` may have got more blocks, and every file reads as before. -/
abbrev Grown (sb : Superblock) (v : Disk Blk) (T : Nat → Dinode) (i : Nat) (v' : Disk Blk)
    (d' : Dinode) (P : Finset Place) : Prop :=
  Changed sb v T i v' d' (byteAt v (T i)) P

variable {P : Finset Place}

theorem Grown.refl (h : Owned sb v T) (i : Nat) : Grown sb v T i v (T i) P where
  owned := by rwa [update_eq_self]
  bytes _ := rfl
  frame _ _ _ _ _ := rfl
  mapped _ _ := rfl
  others _ _ _ _ _ := rfl
  fields := rfl
  below _ _ := rfl
  balance := le_rfl

theorem Changed.trans {v₁ v₂ : Disk Blk} {d₁ d₂ : Dinode} {g₁ g₂ : Nat → UInt8}
    (h₁ : Changed sb v T i v₁ d₁ g₁ P)
    (h₂ : Changed sb v₁ (update T i d₁) i v₂ d₂ g₂ P) : Changed sb v T i v₂ d₂ g₂ P := by
  have hself : update T i d₁ i = d₁ := update_self _ _ _
  have hidem : update (update T i d₁) i d₂ = update T i d₂ :=
    update_idem _ _ _
  have hother : ∀ j ≠ i, update T i d₁ j = T j := fun j hji => update_of_ne hji _ _
  refine ⟨hidem ▸ h₂.owned, h₂.bytes, ?_, ?_, ?_, ?_, fun b hb => ?_, ?_⟩
  · intro j hji hj ht o
    have h2 := h₂.frame j hji hj (by rwa [hother j hji]) o
    rw [hother j hji] at h2
    rw [h2, h₁.frame j hji hj ht o]
  · intro n hn
    have h1 := h₁.mapped n hn
    have h2 := h₂.mapped n
    rw [hself] at h2
    rw [h2 (by rw [h1]; exact hn), h1]
  · intro j hji hj ht p
    have h2 := h₂.others j hji hj (by rwa [hother j hji]) p
    rw [hother j hji] at h2
    rw [h2, h₁.others j hji hj ht p]
  · have h2 := h₂.fields
    rw [hself, h₁.fields] at h2
    exact h2
  · rw [h₂.below b hb, h₁.below b hb]
  · have h1 := h₁.balance
    have h2 := h₂.balance
    rw [hself] at h2
    omega

/-- More blocks after a change leave the changed bytes as they are. -/
theorem Changed.trans_grown {v₁ v₂ : Disk Blk} {d₁ d₂ : Dinode} {g : Nat → UInt8}
    (h₁ : Changed sb v T i v₁ d₁ g P) (h₂ : Grown sb v₁ (update T i d₁) i v₂ d₂ P) :
    Changed sb v T i v₂ d₂ g P := by
  have h := h₁.trans h₂
  refine { h with bytes := fun o => ?_ }
  rw [h.bytes o, update_self, h₁.bytes o]

/-- A fresh block `b₀` is put at the empty place `p₀` of inode `i`. -/
theorem Owned.attach (h : Owned sb v T) (hi : i < sb.ninodes) (ht : (T i).type ≠ 0)
    {p₀ : Place} (hP : p₀ ∈ P) (hb₀ : Fresh sb v b₀) (hp₀ : p₀.addr v (T i) = 0)
    (hfields : d' = { T i with addrs := d'.addrs })
    (haddr : ∀ p : Place, p.addr v' d' = if p = p₀ then b₀ else p.addr v (T i))
    (hkeep : ∀ {j p b}, Owns sb v T j p b → (j ≠ i ∨ p ≠ .indirect) → v' b.toNat = v b.toNat)
    (hzero : v' b₀.toNat = Block.zero)
    (hbits : ∀ x < sb.size, bit sb v' x = (decide (x = b₀.toNat) || bit sb v x))
    (hok : sb.nmeta ≤ sb.size) (hbelow : ∀ b < sb.bmapstart, v' b = v b) :
    Grown sb v T i v' d' P := by
  have htype : d'.type = (T i).type := by rw [hfields]
  have hothers : ∀ j ≠ i, j < sb.ninodes → (T j).type ≠ 0 → ∀ p : Place,
      p.addr v' (T j) = p.addr v (T j) := fun j hji hj htj p =>
    p.addr_congr fun hne => hkeep (p := .indirect) ⟨hj, htj, hne, rfl⟩ (.inl hji)
  -- what is owned afterwards
  have hown : ∀ {j p b}, Owns sb v' (update T i d') j p b →
      Owns sb v T j p b ∨ (j = i ∧ p = p₀ ∧ b = b₀) := by
    intro j p b ho
    have htj := ho.type
    have hadr := ho.addr
    by_cases hji : j = i
    · subst hji
      rw [update_self] at htj hadr
      rw [haddr] at hadr
      by_cases hp : p = p₀
      · rw [if_pos hp] at hadr
        exact .inr ⟨rfl, hp, hadr.symm⟩
      · rw [if_neg hp] at hadr
        exact .inl ⟨hi, ht, ho.ne, hadr⟩
    · rw [update_of_ne hji] at htj hadr
      rw [hothers j hji ho.lt htj p] at hadr
      exact .inl ⟨ho.lt, htj, ho.ne, hadr⟩
  refine ⟨h.step hb₀ hown ?_ ?_, ?_, ?_, ?_, hothers, hfields, hbelow, ?_⟩
  · intro b hb
    rw [hbits b (by omega), h.marked b hb, Bool.or_true]
  · intro j p b ho
    rcases hown ho with ho' | ⟨-, -, rfl⟩
    · rw [hbits _ (h.range ho').2, h.used ho', Bool.or_true]
    · rw [hbits _ hb₀.lt]
      simp
  · intro o
    have hblk := haddr (.data (o / bsize))
    simp only [Place.addr] at hblk
    rw [byteAt, byteAt]
    by_cases hp : Place.data (o / bsize) = p₀
    · -- the new block reads as the hole it fills
      rw [if_pos hp] at hblk
      rw [← hp] at hp₀
      simp only [Place.addr] at hp₀
      rw [hblk, if_neg (h.fresh_ne hb₀), hzero, if_pos hp₀, Block.byte_zero]
    · rw [if_neg hp] at hblk
      rw [hblk]
      split
      · rfl
      · next hne => rw [hkeep (p := .data (o / bsize)) ⟨hi, ht, hne, rfl⟩ (.inr (by simp))]
  · intro j hji hj htj o
    exact byteAt_congr o fun p hp => hkeep ⟨hj, htj, hp, rfl⟩ (.inl hji)
  · intro n hn
    have hblk := haddr (.data n)
    simp only [Place.addr] at hblk
    rw [hblk, if_neg]
    rintro rfl
    exact hn hp₀
  · rw [freeBlocks_take hb₀.lt hb₀.free hbits, missing_fill hP hp₀ (h.fresh_ne hb₀) haddr]
    omega

/-- `balloc` changes no owned block. -/
theorem Owned.allocView_eq (h : Owned sb v T) (hb₀ : Fresh sb v b₀)
    {p : Place} (ho : Owns sb v T j p b) :
    allocView sb v b₀.toNat b.toNat = v b.toNat := by
  have hr := h.range ho
  have hblk := sb.bblock_lt hb₀.lt
  apply allocView_of_ne
  · intro e
    have := UInt32.toNat_inj.mp e
    subst this
    exact h.fresh_not_owned hb₀ _ _ ho
  · omega

theorem Owned.allocView_below (h : Owned sb v T) (hb₀ : Fresh sb v b₀) {b : Nat}
    (hb : b < sb.bmapstart) : allocView sb v b₀.toNat b = v b := by
  have hblk := sb.bblock_lt hb₀.lt
  have hm := h.fresh_meta hb₀
  have hlt := sb.bmapstart_lt_nmeta
  apply allocView_of_ne <;> omega

/-- A fresh block becomes a direct block. -/
theorem Owned.attachDirect (h : Owned sb v T) (hok : sb.Ok) (hi : i < sb.ninodes)
    (ht : (T i).type ≠ 0) (hb : Fresh sb v b) (hn : n < ndirect)
    (h0 : (T i).addr n = 0) (hP : .data n ∈ P) :
    Grown sb v T i (allocView sb v b.toNat) ((T i).setAddr n b) P := by
  refine h.attach hi ht hP hb ?_ rfl ?_ (fun ho _ => h.allocView_eq hb ho)
    (allocView_self v _) (fun x hx => bit_allocView v (h.fresh_meta hb) hx) hok.bmap_end
    fun x hx => h.allocView_below hb hx
  · rw [Place.addr, blockAt_of_direct v _ hn, h0]
  · intro p
    rw [Place.addr_setDirect _ _ hn, p.addr_congr fun hd =>
      h.allocView_eq hb (p := .indirect) ⟨hi, ht, hd, rfl⟩]

/-- A fresh block becomes the indirect block. -/
theorem Owned.attachIndirect (h : Owned sb v T) (hok : sb.Ok) (hi : i < sb.ninodes)
    (ht : (T i).type ≠ 0) (hb : Fresh sb v b) (h0 : (T i).addr ndirect = 0)
    (hP : .indirect ∈ P) :
    Grown sb v T i (allocView sb v b.toNat) ((T i).setAddr ndirect b) P := by
  refine h.attach hi ht hP hb h0 rfl ?_ (fun ho _ => h.allocView_eq hb ho)
    (allocView_self v _) (fun x hx => bit_allocView v (h.fresh_meta hb) hx) hok.bmap_end
    fun x hx => h.allocView_below hb hx
  intro p
  rw [Place.addr_setIndirect h0 (h.fresh_ne hb) (allocView_self v _),
    p.addr_congr fun hd => absurd h0 hd]

/-- A fresh block is entered into the indirect block. -/
theorem Owned.attachWord (h : Owned sb v T) (hok : sb.Ok) (hi : i < sb.ninodes)
    (ht : (T i).type ≠ 0) (hb : Fresh sb v b) (hj : j < nindirect)
    (hd : (T i).addr ndirect ≠ 0) (h0 : word (v ((T i).addr ndirect).toNat) j = 0)
    (hP : .data (ndirect + j) ∈ P) :
    Grown sb v T i (update (allocView sb v b.toNat) ((T i).addr ndirect).toNat
      (setWord (allocView sb v b.toNat ((T i).addr ndirect).toNat) j b)) (T i) P := by
  have hoi : Owns sb v T i .indirect ((T i).addr ndirect) := ⟨hi, ht, hd, rfl⟩
  have hri := h.range hoi
  have hneb : b.toNat ≠ ((T i).addr ndirect).toNat := by
    intro e
    have := UInt32.toNat_inj.mp e
    subst this
    exact h.fresh_not_owned hb _ _ hoi
  refine h.attach hi ht hP hb ?_ rfl ?_ ?_ ?_ ?_ hok.bmap_end ?_
  · rw [Place.addr, blockAt_of_indirect v _ (by omega)
      (by simp only [ndirect, nindirect, maxfile] at *; omega) hd, Nat.add_sub_cancel_left, h0]
  · intro p
    rw [Place.addr_setWord _ hd hj, p.addr_congr fun _ => h.allocView_eq hb hoi]
  · intro k p x ho hcase
    have hne : x.toNat ≠ ((T i).addr ndirect).toNat := by
      intro e
      have := UInt32.toNat_inj.mp e
      subst this
      have := h.once ho hoi
      rcases hcase with hk | hp
      · exact hk this.1
      · exact hp this.2
    rw [update_of_ne hne]
    exact h.allocView_eq hb ho
  · rw [update_of_ne hneb]
    exact allocView_self v _
  · intro x hx
    rw [bit_update _ _ hx (.inr hri.1)]
    exact bit_allocView v (h.fresh_meta hb) hx
  · intro x hx
    have hlt := sb.bmapstart_lt_nmeta
    rw [update_of_ne (by omega)]
    exact h.allocView_below hb hx

/-! ## Writing -/

/-- Changing a data block of inode `i` changes no ownership. -/
theorem Owned.addr_writeBlock (h : Owned sb v T)
    (ho : Owns sb v T i (.data n) b) (w : Blk) (hj : j < sb.ninodes)
    (htj : (T j).type ≠ 0) (p : Place) :
    p.addr (update v b.toNat w) (T j) = p.addr v (T j) := by
  apply p.addr_congr
  intro hd
  rw [update_of_ne]
  intro e
  have heq := UInt32.toNat_inj.mp e
  have hoj : Owns sb v T j .indirect b := ⟨hj, htj, ho.ne, heq⟩
  cases (h.once hoj ho).2

/-- The bytes of the changed block are the new ones; all others stay. -/
theorem Owned.byteAt_writeBlock (h : Owned sb v T)
    (ho : Owns sb v T i (.data n) b) (w : Blk) (hj : j < sb.ninodes)
    (htj : (T j).type ≠ 0) (o : Nat) :
    byteAt (update v b.toNat w) (T j) o =
      if j = i ∧ o / bsize = n then w.byte (o % bsize) else byteAt v (T j) o := by
  have hblk := h.addr_writeBlock ho w hj htj (.data (o / bsize))
  simp only [Place.addr] at hblk
  rw [byteAt, hblk]
  by_cases hcase : j = i ∧ o / bsize = n
  · obtain ⟨rfl, rfl⟩ := hcase
    have hb : blockAt v (T j) (o / bsize) = b := ho.addr
    rw [hb, if_neg ho.ne, if_pos ⟨rfl, rfl⟩, update_self]
  · rw [if_neg hcase, byteAt]
    split
    · rfl
    · next hne =>
      have hoj : Owns sb v T j (.data (o / bsize)) (blockAt v (T j) (o / bsize)) :=
        ⟨hj, htj, hne, rfl⟩
      rw [update_of_ne]
      intro e
      have heq := UInt32.toNat_inj.mp e
      rw [heq] at hoj
      obtain ⟨hji, hp⟩ := h.once hoj ho
      exact hcase ⟨hji, Place.data.inj hp⟩

/-- A data block of inode `i` is overwritten. -/
theorem Owned.writeBlock (h : Owned sb v T) (hok : sb.Ok)
    (ho : Owns sb v T i (.data n) b) (w : Blk) :
    Changed sb v T i (update v b.toNat w) (T i)
      (fun o => if o / bsize = n then w.byte (o % bsize) else byteAt v (T i) o) P := by
  have hr := h.range ho
  have hown : ∀ {j p x}, Owns sb (update v b.toNat w) T j p x → Owns sb v T j p x := by
    intro j p x hx
    exact ⟨hx.lt, hx.type, hx.ne, (h.addr_writeBlock ho w hx.lt hx.type p).symm.trans hx.addr⟩
  refine ⟨?_, ?_, ?_, ?_, ?_, rfl, ?_, ?_⟩
  · rw [update_eq_self]
    refine h.shrink hown ?_ ?_
    · intro x hx
      have := hok.bmap_end
      rw [bit_update v w (by omega) (.inr hr.1), h.marked x hx]
    · intro j p x hx
      rw [bit_update v w (h.range (hown hx)).2 (.inr hr.1), h.used (hown hx)]
  · intro o
    rw [h.byteAt_writeBlock ho w ho.lt ho.type o]
    simp only [true_and]
  · intro j hji hj htj o
    rw [h.byteAt_writeBlock ho w hj htj o, if_neg (fun hc => hji hc.1)]
  · intro m _
    exact h.addr_writeBlock ho w ho.lt ho.type (.data m)
  · intro j _ hj htj p
    exact h.addr_writeBlock ho w hj htj p
  · intro x hx
    have hlt := sb.bmapstart_lt_nmeta
    rw [update_of_ne (by omega)]
  · rw [freeBlocks_congr fun x hx => bit_update v w hx (.inr hr.1),
      missing_congr fun p _ => h.addr_writeBlock ho w ho.lt ho.type p]

end Laboratorio.Xv6
