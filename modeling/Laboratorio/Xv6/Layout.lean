import Laboratorio.Lib.Bytes
import Laboratorio.Lib.Reach

/-!
# The file system format (`xv6/fs.h`, `xv6/param.h`)

The constants of the file system, the super block, and the layout of the structures that live in
disk blocks: the on-disk inode, the directory entry, the bitmap and the words of an indirect block.
-/

namespace Laboratorio.Xv6

open Laboratorio.Bytes

/-! ## Constants -/

abbrev bsize : Nat := 512
abbrev ndirect : Nat := 12
abbrev nindirect : Nat := 128
abbrev maxfile : Nat := 140
/-- Inodes per block. -/
abbrev ipb : Nat := 8
/-- Bitmap bits per block. -/
abbrev bpb : Nat := 4096
abbrev dirsiz : Nat := 14
abbrev rootino : Nat := 1
abbrev rootdev : Nat := 1
abbrev maxopblocks : Nat := 10
abbrev logsize : Nat := 30
abbrev ninode : Nat := 50
abbrev nfile : Nat := 100
abbrev nofile : Nat := 16
abbrev nproc : Nat := 64
abbrev ndev : Nat := 10

/-- A disk block. -/
abbrev Blk := Block bsize

instance : Inhabited Blk := ⟨Block.zero⟩

/-- `struct superblock`. -/
structure Superblock where
  size : Nat
  nblocks : Nat
  ninodes : Nat
  nlog : Nat
  logstart : Nat
  inodestart : Nat
  bmapstart : Nat

/-- `IBLOCK`: the block containing inode `i`. -/
def iblock (sb : Superblock) (i : Nat) : Nat := i / ipb + sb.inodestart

/-- `BBLOCK`: the block of the free map containing the bit for block `b`. -/
def bblock (sb : Superblock) (b : Nat) : Nat := b / bpb + sb.bmapstart

/-! ## The structures -/

/-- `struct dinode`. -/
@[ext] structure Dinode where
  type : Int16
  major : Int16
  minor : Int16
  nlink : Int16
  size : UInt32
  addrs : Fin (ndirect + 1) → UInt32

/-- A C `short`, in two bytes. -/
def i16 : Codec Int16 :=
  u16.map ⟨UInt16.toInt16, Int16.toUInt16, fun x => by simp, fun x => by simp⟩

/-- The fields of a `struct dinode` in the order of their bytes. -/
def Dinode.fields :
    (Int16 × Int16 × Int16 × Int16 × UInt32 × (Fin (ndirect + 1) → UInt32)) ≃ Dinode where
  toFun p := ⟨p.1, p.2.1, p.2.2.1, p.2.2.2.1, p.2.2.2.2.1, p.2.2.2.2.2⟩
  invFun d := (d.type, d.major, d.minor, d.nlink, d.size, d.addrs)
  left_inv _ := rfl
  right_inv _ := rfl

/-- The layout of a `struct dinode`: 64 bytes. -/
def dinode : Codec Dinode :=
  (i16.pair <| i16.pair <| i16.pair <| i16.pair <| u32.pair <| u32.vec (ndirect + 1)).map
    Dinode.fields

theorem dinode_size : dinode.size = 64 := rfl

/-- `ip->addrs[i]`. -/
def Dinode.addr (d : Dinode) (i : Nat) : UInt32 :=
  if h : i < ndirect + 1 then d.addrs ⟨i, h⟩ else 0

/-- `ip->addrs[i] = a`. -/
def Dinode.setAddr (d : Dinode) (i : Nat) (a : UInt32) : Dinode :=
  { d with addrs := fun j => if (j : Nat) = i then a else d.addrs j }

theorem Dinode.addr_setAddr (d : Dinode) {i : Nat} (j : Nat) (a : UInt32) (hi : i < ndirect + 1) :
    (d.setAddr i a).addr j = if j = i then a else d.addr j := by
  by_cases hj : j < ndirect + 1
  · simp [Dinode.addr, Dinode.setAddr, hj]
  · have hne : j ≠ i := by omega
    simp [Dinode.addr, hj, hne]

/-- `struct dirent`. -/
@[ext] structure Dirent where
  inum : UInt16
  name : Fin dirsiz → UInt8

/-- One byte. -/
def u8 : Codec UInt8 where
  size := 1
  enc b _ := b
  dec f := f 0
  dec_enc b f h := h 0 (by omega)
  dec_congr f g h := h 0 (by omega)

/-- The layout of a `struct dirent`: 16 bytes. -/
def dirent : Codec Dirent :=
  (u16.pair (u8.vec dirsiz)).map
    ⟨fun p => ⟨p.1, p.2⟩, fun d => (d.inum, d.name), fun _ => rfl, fun _ => rfl⟩

theorem dirent_size : dirent.size = 16 := rfl

/-! ## Words and bits of a block -/

/-- `a[j]`, the block read as an array of `uint`. -/
def word (b : Blk) (j : Nat) : UInt32 := fetch u32 (4 * j) b

/-- `a[j] = w`. -/
def setWord (b : Blk) (j : Nat) (w : UInt32) : Blk := store u32 (4 * j) w b

theorem word_setWord (b : Blk) {j : Nat} (k : Nat) (w : UInt32) (h : j < nindirect) :
    word (setWord b j w) k = if k = j then w else word b k := by
  have hj : j < 128 := h
  have := fetch_store_index u32 0 j k w b (by simp only [u32, bsize]; omega)
  simpa [word, setWord, u32] using this

theorem word_zero (j : Nat) : word Block.zero j = 0 := by
  simp [word, fetch, u32]

/-- `bp->data[bi/8] & (1 << (bi % 8))`, as a truth value. -/
def bitOf (b : Blk) (bi : Nat) : Bool :=
  (b.byte (bi / 8) &&& (1 <<< UInt8.ofNat (bi % 8))) != 0

/-- `bp->data[bi/8] |= m`. -/
def setBit (b : Blk) (bi : Nat) : Blk :=
  b.splice (bi / 8) 1 fun _ => b.byte (bi / 8) ||| (1 <<< UInt8.ofNat (bi % 8))

/-- `bp->data[bi/8] &= ~m`. -/
def clearBit (b : Blk) (bi : Nat) : Blk :=
  b.splice (bi / 8) 1 fun _ => b.byte (bi / 8) &&& ~~~(1 <<< UInt8.ofNat (bi % 8))

/-- The bits of the mask `1 << k` and of its complement. -/
theorem mask_bits : ∀ k j : Fin 8,
    (1 <<< UInt8.ofNat k : UInt8).toNat.testBit j = decide (j = k) ∧
    (~~~(1 <<< UInt8.ofNat k) : UInt8).toNat.testBit j = !decide (j = k) := by
  decide

theorem mask_toNat : ∀ k : Fin 8, (1 <<< UInt8.ofNat k : UInt8).toNat = 2 ^ (k : Nat) := by
  decide

theorem bitOf_eq (b : Blk) (i : Nat) : bitOf b i = (b.byte (i / 8)).toNat.testBit (i % 8) := by
  have hk := mask_toNat ⟨i % 8, Nat.mod_lt _ (by decide)⟩
  have hiff : (b.byte (i / 8) &&& (1 <<< UInt8.ofNat (i % 8))) = 0 ↔
      (b.byte (i / 8)).toNat.testBit (i % 8) = false := by
    rw [← UInt8.toNat_inj, UInt8.toNat_and, hk, Nat.and_two_pow]
    cases (b.byte (i / 8)).toNat.testBit (i % 8) <;> simp
  rw [bitOf]
  cases hb : (b.byte (i / 8)).toNat.testBit (i % 8) with
  | false => simp [hiff.mpr hb]
  | true =>
    have hne := mt hiff.mp (by simp [hb])
    simpa using hne

/-- Two bits of a block are the same or in different bytes or at different positions of one byte. -/
theorem bit_index_eq {i j : Nat} (h : i / 8 = j / 8) : i = j ↔ i % 8 = j % 8 := by omega

theorem bitOf_setBit (b : Blk) {i : Nat} (j : Nat) (hi : i < bpb) :
    bitOf (setBit b i) j = (decide (j = i) || bitOf b j) := by
  have hi' : i < 4096 := hi
  rw [bitOf_eq, bitOf_eq, setBit]
  by_cases hb : j / 8 = i / 8
  · rw [hb, Block.byte_splice_of_mem b _ le_rfl (by omega) (by rw [bsize]; omega)]
    have h := (mask_bits ⟨i % 8, Nat.mod_lt _ (by decide)⟩ ⟨j % 8, Nat.mod_lt _ (by decide)⟩).1
    rw [UInt8.toNat_or, Nat.testBit_or, h, Bool.or_comm]
    simp [bit_index_eq hb]
  · have hne : j ≠ i := fun e => hb (by rw [e])
    rw [Block.byte_splice_of_notMem b _ (by omega)]
    simp [hne]

end Laboratorio.Xv6
