import Laboratorio.Xv6.MkfsImage

/-!
# When `mkfs` writes a consistent image

An image that `mkfs` has written without aborting is consistent exactly if the entries of the root
directory do not fill their last block and the inodes fit into the inode blocks. Otherwise the size
of the root directory, which is rounded up to the next multiple of the block size, covers a block
that it does not have, or inodes are written over the bitmap and the data.
-/

namespace Laboratorio.Xv6.Mkfs

open Laboratorio.Bytes Laboratorio.DiskProg Laboratorio.Wp

/-- **A consistent image** whose inodes are those from 1 to `k`. -/
structure Consistent (v : Disk Blk) (k : Nat) : Prop where
  /-- The blocks below the size of a file are there. -/
  mapped : ∀ i, 0 < i → i ≤ k → ∀ n < dataBlocks (dinodeAt sb v i).size.toNat,
    blockAt v (dinodeAt sb v i) n ≠ 0
  /-- The inodes are in the inode blocks. -/
  area : ∀ i, 0 < i → i ≤ k → sb.inodestart ≤ iblock sb i ∧ iblock sb i < sb.bmapstart
  /-- The data blocks and indirect blocks are behind the metadata, -/
  range : ∀ {i p b}, Used v (dinodeAt sb v) k i p b → nmeta ≤ b.toNat ∧ b.toNat < fssize
  /-- and pairwise distinct. -/
  once : ∀ {i j p q b}, Used v (dinodeAt sb v) k i p b → Used v (dinodeAt sb v) k j q b →
    i = j ∧ p = q
  /-- The bitmap marks the metadata and these blocks. -/
  bitmap : ∀ b < bpb, bitOf (v sb.bmapstart) b = true ↔
    b < nmeta ∨ ∃ i p, Used v (dinodeAt sb v) k i p (UInt32.ofNat b)

variable {v : Disk Blk} {fb : Nat} {fs : List Node} {n : Node} {files : List Input} {s : Image}

/-- The blocks of a file of the finished image, up to its rounded size. -/
theorem mapped_rounded_iff {d : Dinode} (h : IsFile v d n) :
    (∀ m < dataBlocks (roundedSize n).toNat, blockAt v { d with size := roundedSize n } m ≠ 0) ↔
      n.data.length % bsize ≠ 0 := by
  have hrounded : dataBlocks (roundedSize n).toNat = n.data.length / bsize + 1 := by
    rw [toNat_roundedSize h.le, dataBlocks]
    simp only [bsize]
    omega
  have hblocks : n.data.length / bsize < dataBlocks n.data.length ↔ n.data.length % bsize ≠ 0 := by
    rw [dataBlocks]
    simp only [bsize]
    omega
  rw [hrounded, ← hblocks]
  constructor
  · intro hall
    exact (h.holds.mapped.data _).mp (hall _ (Nat.lt_succ_self _))
  · intro hlt m hm
    exact (h.holds.mapped.data m).mpr (by omega)

/-- Everything but the blocks of the root directory is as it should be. -/
theorem Finished.consistent_iff (h : Finished v fb (n :: fs)) :
    Consistent v (fs.length + 1) ↔ n.data.length % bsize ≠ 0 := by
  obtain ⟨d, hd, hroot⟩ := h.root n rfl
  have hlen : (n :: fs).length = fs.length + 1 := List.length_cons
  have hlaid := h.laid
  rw [hlen] at hlaid
  rw [← mapped_rounded_iff hd]
  constructor
  · intro hc
    have hmapped := hc.mapped 1 one_pos (by omega)
    rwa [hroot] at hmapped
  · intro hmapped
    refine ⟨fun i hi hik => ?_, fun i hi hik => ?_, fun hu => ?_, hlaid.once, fun b hb => ?_⟩
    · rcases Nat.lt_or_eq_of_le (Nat.succ_le_of_lt hi) with hgt | rfl
      · -- an input file has the blocks of its size
        obtain ⟨j, rfl⟩ : ∃ j, i = j + 1 := ⟨i - 1, by omega⟩
        have hj : j < (n :: fs).length := by omega
        have hfile := h.file j _ (by omega) (List.getElem?_eq_getElem hj)
        intro m hm
        rw [hfile.toNat_size] at hm
        exact (hfile.holds.mapped.data m).mpr hm
      · rw [hroot]
        exact hmapped
    · exact iblock_area (lt_of_le_of_lt hik (hlen ▸ h.area))
    · have hrange := hlaid.range hu
      exact ⟨hrange.1, lt_of_lt_of_le hrange.2 hlaid.last⟩
    · rw [h.bitmap b hb, decide_eq_true_eq]
      have hb' : b < 4096 := hb
      have hnat : (UInt32.ofNat b).toNat = b := UInt32.toNat_ofNat_of_lt' (by show _ < 2 ^ 32; omega)
      constructor
      · intro hlt
        by_cases hm : b < nmeta
        · exact .inl hm
        · exact .inr (hlaid.onto (Nat.le_of_not_lt hm) hlt)
      · rintro (hm | ⟨i, p, hu⟩)
        · exact lt_of_lt_of_le hm hlaid.first
        · exact hnat ▸ (hlaid.range hu).2

/-- The entries of the root directory do not fill their last block. -/
theorem Finished.consistent_nodes (h : Finished v fb (nodes files)) :
    Consistent v (files.length + 1) ↔ (files.length + 2) % (bsize / dirent.size) ≠ 0 := by
  have hiff := h.consistent_iff
  rw [List.length_map] at hiff
  rw [hiff, length_rootData, dirent_size]
  simp only [bsize]
  omega

/-- `mkfs` succeeds on files that it can open and that fit. -/
theorem main_ok (harea : files.length + 1 < areaSize) (hslash : ∀ f ∈ files, slash ∉ f.name)
    (hopen : ∀ f ∈ files, f.content ≠ none) (hfit : Fit (nodes files)) :
    ∃ s, main files Image.start = .ok ((), s) ∧
      Finished s.disk s.freeblock.toNat (nodes files) := by
  have hwp := wp_main (E := fun _ => False) harea (fun f hf => hslash f hf) (fun f hf => hopen f hf)
    fun hnot => absurd hfit hnot
  obtain ⟨_, s, hs, hfin⟩ := hwp.exists_ok
  exact ⟨s, hs, hfin⟩

/-- **When an image written by `mkfs` is consistent.** -/
theorem mkfs_consistent_iff (h : main files Image.start = .ok ((), s)) :
    Consistent s.disk (files.length + 1) ↔
      (files.length + 2) % (bsize / dirent.size) ≠ 0 ∧ files.length + 1 < areaSize := by
  have harea : Consistent s.disk (files.length + 1) → files.length + 1 < areaSize := by
    intro hc
    have hlast : _ < 58 := (hc.area (files.length + 1) (Nat.succ_pos _) le_rfl).2
    have hstart : sb.inodestart = 32 := rfl
    rw [iblock, hstart] at hlast
    show _ < 208
    simp only [ipb] at hlast
    omega
  by_cases hlt : files.length + 1 < areaSize
  · have hfin := (wp_main (E := fun _ => True) hlt (fun _ _ _ => trivial) (fun _ _ _ => trivial)
      fun _ _ => trivial).ok h
    rw [hfin.consistent_nodes]
    exact (and_iff_left hlt).symm
  · exact iff_of_false (fun hc => hlt (harea hc)) fun hc => hlt hc.2

/-- The file `a`, with the bytes given. -/
def fileA (chunks : List Chunk) : Input where
  name := [97]
  nul := by simp
  content := some chunks

/-- The image of one file of three bytes is consistent. -/
theorem mkfs_consistent_three_bytes :
    ∃ s, main [fileA [⟨[1, 2, 3], by decide⟩]] Image.start = .ok ((), s) ∧ Consistent s.disk 2 := by
  have hfit : Fit (nodes [fileA [⟨[1, 2, 3], by decide⟩]]) := by
    unfold Fit
    decide +kernel
  obtain ⟨s, hs, -⟩ := main_ok (by decide) (by decide) (by decide) hfit
  exact ⟨s, hs, (mkfs_consistent_iff hs).mpr (by decide)⟩

/-- Thirty empty files fill one block of the root directory, which then has size 1024. -/
theorem mkfs_thirty_files :
    ∃ s, main (List.replicate 30 (fileA [])) Image.start = .ok ((), s) ∧
      ¬ Consistent s.disk 31 := by
  have hfit : Fit (nodes (List.replicate 30 (fileA []))) := by
    unfold Fit
    decide +kernel
  obtain ⟨s, hs, hfin⟩ := main_ok (by decide) (by decide) (by decide) hfit
  refine ⟨s, hs, fun hc => ?_⟩
  have hiff := hfin.consistent_nodes
  rw [List.length_replicate] at hiff
  exact hiff.mp hc rfl

end Laboratorio.Xv6.Mkfs
