import Laboratorio.Xv6.BlockOps

/-!
# What reading and writing do

The rules of `iupdate`, `writei` and `readi`. Like those of the block operations they are about any
table of inodes that owns its blocks, with the in-memory copy of the inode at hand in it.

A file without holes is read without changing the state. A write fills the holes it meets; if it
meets none, the copy of the inode stays as it is but for the size.
-/

namespace Laboratorio.Xv6

open Function Laboratorio.Bytes Laboratorio.DiskProg Laboratorio.Wp

/-! ## Inodes on disk -/

/-- Inode `i` on the disk `v`. -/
def dinodeAt (sb : Superblock) (v : Disk Blk) (i : Nat) : Dinode := dinodeOf (v (iblock sb i)) i

/-- The disk after inode `i` has been written. -/
def updView (sb : Superblock) (v : Disk Blk) (i : Nat) (d : Dinode) : Disk Blk :=
  update v (iblock sb i) (setDinode (v (iblock sb i)) i d)

theorem dinodeOf_setDinode (b : Blk) (i j : Nat) (d : Dinode) :
    dinodeOf (setDinode b i d) j = if j % ipb = i % ipb then d else dinodeOf b j := by
  have hi : i % ipb < ipb := Nat.mod_lt _ (by decide)
  have := fetch_store_index dinode 0 (i % ipb) (j % ipb) d b (by
    simp only [dinode_size, bsize, ipb] at *
    omega)
  simpa [dinodeOf, setDinode] using this

theorem dinodeAt_updView (sb : Superblock) (v : Disk Blk) (i j : Nat) (d : Dinode) :
    dinodeAt sb (updView sb v i d) j = if j = i then d else dinodeAt sb v j := by
  rw [dinodeAt, updView]
  by_cases hblk : iblock sb j = iblock sb i
  · rw [hblk, update_self, dinodeOf_setDinode, dinodeAt, hblk]
    have hiff : j % ipb = i % ipb ↔ j = i := by
      simp only [iblock, ipb] at *
      omega
    simp only [hiff]
  · have hne : j ≠ i := fun e => hblk (by rw [e])
    rw [update_of_ne hblk, if_neg hne, dinodeAt]

theorem dinodeAt_updView_eq (sb : Superblock) (v : Disk Blk) (i : Nat) (d : Dinode) :
    dinodeAt sb (updView sb v i d) = update (dinodeAt sb v) i d := by
  funext j
  rw [dinodeAt_updView, update_apply]

theorem dinodeAt_congr {sb : Superblock} (hok : sb.Ok) {v v' : Disk Blk}
    (h : ∀ b < sb.bmapstart, v' b = v b) {i : Nat} (hi : i < sb.ninodes) :
    dinodeAt sb v' i = dinodeAt sb v i := by
  rw [dinodeAt, dinodeAt, h _ (hok.iblock_lt hi).2]

/-! ## Disks that agree on free map and data -/

section Agree

variable {sb : Superblock} {v v' : Disk Blk} {T : Nat → Dinode}

theorem updView_above (hok : sb.Ok) (v : Disk Blk) {i : Nat} (hi : i < sb.ninodes) (d : Dinode)
    {b : Nat} (hb : sb.bmapstart ≤ b) : updView sb v i d b = v b := by
  have := (hok.iblock_lt hi).2
  exact update_of_ne (by omega) _ _

theorem Owned.addr_above (h : Owned sb v T) (hv : ∀ b, sb.bmapstart ≤ b → v' b = v b) {i : Nat}
    (hi : i < sb.ninodes) (ht : (T i).type ≠ 0) (p : Place) : p.addr v' (T i) = p.addr v (T i) := by
  apply p.addr_congr
  intro hd
  have hr := h.range (p := .indirect) ⟨hi, ht, hd, rfl⟩
  have hlt := sb.bmapstart_lt_nmeta
  exact hv _ (by omega)

theorem Owned.byteAt_above (h : Owned sb v T) (hv : ∀ b, sb.bmapstart ≤ b → v' b = v b) {i : Nat}
    (hi : i < sb.ninodes) (ht : (T i).type ≠ 0) (o : Nat) : byteAt v' (T i) o = byteAt v (T i) o := by
  apply byteAt_congr
  intro p hp
  have hr := h.range ⟨hi, ht, hp, rfl⟩
  have hlt := sb.bmapstart_lt_nmeta
  exact hv _ (by omega)

/-- Ownership does not depend on the blocks below the free map. -/
theorem Owned.above (h : Owned sb v T) (hok : sb.Ok) (hv : ∀ b, sb.bmapstart ≤ b → v' b = v b) :
    Owned sb v' T := by
  have hbit : ∀ x < sb.size, bit sb v' x = bit sb v x := by
    intro x hx
    rw [bit, bit, hv _ (sb.bblock_lt hx).1]
  have hown : ∀ {i p b}, Owns sb v' T i p b → Owns sb v T i p b := fun ho =>
    ⟨ho.lt, ho.type, ho.ne, (h.addr_above hv ho.lt ho.type _).symm.trans ho.addr⟩
  refine h.shrink hown ?_ ?_
  · intro b hb
    have := hok.bmap_end
    rw [hbit b (by omega), h.marked b hb]
  · intro i p b ho
    rw [hbit _ (h.range (hown ho)).2, h.used (hown ho)]

/-- Ownership depends on the inodes below `ninodes` only. -/
theorem Owned.congr_table {T' : Nat → Dinode} (h : Owned sb v T)
    (hT : ∀ i < sb.ninodes, T' i = T i) : Owned sb v T' := by
  have hown : ∀ {i p b}, Owns sb v T' i p b → Owns sb v T i p b := by
    intro i p b ho
    have := hT i ho.lt
    exact ⟨ho.lt, this ▸ ho.type, ho.ne, this ▸ ho.addr⟩
  exact h.shrink hown h.marked fun ho => h.used (hown ho)

end Agree

/-! ## Writing an inode -/

variable {c : Config} {s : St} {E : Fault → Prop}

theorem wp_iupdate (hok : c.sb.Ok) (hs : InTrans c s) {ip : Fin ninode}
    (hi : (s.icache ip).inum < c.sb.ninodes) (hE : ∀ e, e.Exhausted → ¬ LogRoom c s 1 → E e)
    {Q : Unit → St → Prop}
    (hQ : ∀ s', Wrote c s s' (updView c.sb s.view (s.icache ip).inum (s.icache ip).copy) 1 →
      Q () s') : wp (iupdate c ip) Q E s := by
  unfold iupdate
  simp only [wp_bind, wp_inode]
  have hblk := hok.iblock_lt hi
  have hlt := hok.bmapstart_lt
  exact wp_logWrite hok hs hblk.1 (by omega) hE hQ

/-- Every block below the size of the file is there. -/
def NoHoles (v : Disk Blk) (d : Dinode) : Prop := ∀ n, n * bsize < d.size.toNat → blockAt v d n ≠ 0

/-! ## `writei` -/

theorem toNat_add_of_not_lt {a b : UInt32} (h : ¬ a + b < a) : (a + b).toNat = a.toNat + b.toNat := by
  have ha := a.toNat_lt
  have hb := b.toNat_lt
  rw [UInt32.lt_iff_toNat_lt, UInt32.toNat_add] at h
  rw [UInt32.toNat_add]
  omega

theorem add_lt_iff_wrap {a b : UInt32} : a + b < a ↔ 2 ^ 32 ≤ a.toNat + b.toNat := by
  have ha := a.toNat_lt
  have hb := b.toNat_lt
  rw [UInt32.lt_iff_toNat_lt, UInt32.toNat_add]
  omega

section Writei

variable {T : Nat → Dinode} {i : Nat} {ip : Fin ninode} {P : Finset Place}

/-- The end of `writei`. -/
theorem wp_growTo (hok : c.sb.Ok) (hs : InTrans c s) (hi : (s.icache ip).inum = i)
    (hlt : i < c.sb.ninodes) (hE : ∀ e, e.Exhausted → ¬ LogRoom c s 1 → E e) {n : UInt32} {off : Nat}
    {Q : Unit → St → Prop}
    (hstay : ¬ (0 < n ∧ off > (s.icache ip).copy.size.toNat) → Q () s)
    (hgrow : 0 < n ∧ off > (s.icache ip).copy.size.toNat → ∀ s',
      Touched c s s' ip { (s.icache ip).copy with size := UInt32.ofNat off } 1 →
      s'.view = updView c.sb s.view i { (s.icache ip).copy with size := UInt32.ofNat off } →
      Q () s') : wp (growTo c ip n off) Q E s := by
  subst hi
  unfold growTo
  simp only [wp_bind, wp_inode]
  split
  · next hcond =>
    simp only [wp_bind, wp_modifyCopy]
    have ht := (Touched.refl hs ip 0).setCopy { (s.icache ip).copy with size := UInt32.ofNat off }
    have hinum : ∀ d, ((s.setCopy ip d).icache ip).inum = (s.icache ip).inum := fun d => by
      simp [St.setCopy]
    apply wp_iupdate hok ht.trans (by rw [hinum]; exact hlt)
      fun e he hn => hE e he fun hr => hn ⟨hr.header, hr.area⟩
    intro s' h'
    rw [hinum, St.setCopy_copy] at h'
    have htouch := h'.touched ip
    rw [St.setCopy_copy] at htouch
    exact hgrow hcond s' ((ht.trans' htouch).mono (by omega)) h'.view
  · next hcond => exact hstay hcond

/-- `writei` on any table of inodes that owns its blocks. It refuses a write that starts past the
end, wraps around or passes the maximal size; otherwise it writes all the bytes. -/
theorem wp_writei_owned (hok : c.sb.Ok) (hs : InTrans c s) (ho : Owned c.sb s.view T)
    (hi : i < c.sb.ninodes) (ht : (T i).type ≠ 0) (hdev : (T i).type ≠ tDev)
    (hcopy : (s.icache ip).copy = T i) (hinum : (s.icache ip).inum = i) {src : Nat → UInt8}
    {off n : UInt32} {k : Nat} (hk : 0 < n.toNat → off.toNat % bsize + n.toNat ≤ k * bsize)
    (hP : off.toNat + n.toNat ≤ maxfile * bsize → spanned off.toNat n.toNat ⊆ P)
    (hE : ∀ e, e.Exhausted → ¬ Stock c s (T i) P (6 * k + 1) → E e) {Q : Int → St → Prop}
    (hfail : (T i).size.toNat < off.toNat ∨ maxfile * bsize < off.toNat + n.toNat → Q (-1) s)
    (hQ : off.toNat ≤ (T i).size.toNat → off.toNat + n.toNat ≤ maxfile * bsize →
      ∀ d₁ v₁ s', Changed c.sb s.view T i v₁ d₁
        (overwrite (byteAt s.view (T i)) off.toNat n.toNat src) P →
      (∀ o, off.toNat ≤ o → o < off.toNat + n.toNat → blockAt v₁ d₁ (o / bsize) ≠ 0) →
      ((∀ o, off.toNat ≤ o → o < off.toNat + n.toNat → blockAt s.view (T i) (o / bsize) ≠ 0) →
        d₁ = T i) →
      (off.toNat + n.toNat ≤ (T i).size.toNat →
        Touched c s s' ip d₁ (6 * k + 1) ∧ s'.view = v₁) →
      ((T i).size.toNat < off.toNat + n.toNat →
        Touched c s s' ip { d₁ with size := UInt32.ofNat (off.toNat + n.toNat) } (6 * k + 1) ∧
        s'.view = updView c.sb v₁ i { d₁ with size := UInt32.ofNat (off.toNat + n.toNat) }) →
      Q n.toNat s') :
    wp (writei c ip src off n) Q E s := by
  unfold writei
  simp only [wp_bind, wp_inode]
  rw [hcopy, if_neg hdev]
  by_cases hsize : off > (T i).size ∨ off + n < off
  · rw [if_pos hsize, wp_pure]
    apply hfail
    rcases hsize with h | h
    · exact .inl (UInt32.lt_iff_toNat_lt.mp h)
    · right
      have := add_lt_iff_wrap.mp h
      simp only [maxfile, bsize]
      omega
  · have hle : off.toNat ≤ (T i).size.toNat := by
      by_contra hlt
      exact hsize (.inl (UInt32.lt_iff_toNat_lt.mpr (by omega)))
    have hadd := toNat_add_of_not_lt fun h => hsize (.inr h)
    rw [if_neg hsize, hadd]
    by_cases hmax : off.toNat + n.toNat > maxfile * bsize
    · rw [if_pos hmax, wp_pure]
      exact hfail (.inr hmax)
    · rw [if_neg hmax, wp_bind]
      apply wp_writeFrom hok hs ho hi ht hcopy src n.toNat (by omega) (by omega) hk
        (by rw [Nat.sub_zero]; exact hP (by omega)) fun e he hn => hE e he fun hst => hn ⟨hst.blocks, LogRoom.after (m := 1)
          (by rw [Nat.add_comm]; exact hst.log) (by omega)⟩
      intro d₁ s₁ hc₁ ht₁ hfill hsame
      simp only [Nat.sub_zero, Nat.zero_add] at *
      rw [wp_bind]
      have hinum₁ : (s₁.icache ip).inum = i := by
        rw [ht₁.rest, ← hinum]
        simp [St.setCopy]
      have hsize₁ : d₁.size = (T i).size := by rw [hc₁.fields]
      have hQ₁ := hQ hle (by omega) d₁ s₁.view
      apply wp_growTo hok ht₁.trans hinum₁ hi
        fun e he hn => hE e he fun hst => hn (hst.after hc₁ ht₁).log
      · intro hcond
        rw [wp_pure]
        rw [ht₁.copy, hsize₁, UInt32.lt_iff_toNat_lt] at hcond
        refine hQ₁ s₁ hc₁ hfill hsame (fun _ => ⟨ht₁.mono (by omega), rfl⟩) (fun hlt => ?_)
        exact absurd ⟨by simp; omega, hlt⟩ hcond
      · intro hcond s₂ ht₂ hv₂
        rw [wp_pure]
        rw [ht₁.copy, hsize₁] at hcond
        rw [ht₁.copy] at ht₂ hv₂
        exact hQ₁ s₂ hc₁ hfill hsame (fun hge => absurd hcond.2 (by omega))
          (fun _ => ⟨ht₁.trans' ht₂, hv₂⟩)

end Writei

/-! ## `readi` -/

section Readi

variable {ip : Fin ninode}

/-- The number of bytes that `readi` reads. -/
def readLen (d : Dinode) (off n : UInt32) : Nat := min n.toNat (d.size.toNat - off.toNat)

theorem toNat_readLen {d : Dinode} {off n : UInt32} (hoff : ¬ off > d.size) (hw : ¬ off + n < off) :
    (if off + n > d.size then d.size - off else n).toNat = readLen d off n := by
  have hadd := toNat_add_of_not_lt hw
  have hle : off.toNat ≤ d.size.toNat := by
    by_contra hlt
    exact hoff (UInt32.lt_iff_toNat_lt.mpr (by omega))
  have hsub : (d.size - off).toNat = d.size.toNat - off.toNat := by
    apply UInt32.toNat_sub_of_le
    rw [UInt32.le_iff_toNat_le]
    exact hle
  rw [readLen]
  split
  · next h =>
    have := UInt32.lt_iff_toNat_lt.mp h
    omega
  · next h =>
    have : ¬ d.size.toNat < (off + n).toNat := fun hlt => h (UInt32.lt_iff_toNat_lt.mpr hlt)
    omega

/-- What `readi` returns for a file. -/
def readResult (v : Disk Blk) (d : Dinode) (off n : UInt32) : Int × List UInt8 :=
  if d.size < off ∨ off + n < off then (-1, [])
  else (readLen d off n, (List.range (readLen d off n)).map fun k => byteAt v d (off.toNat + k))

/-- `readi` of bytes whose blocks are there leaves the state as it is. -/
theorem wp_readi_mapped (hdev : (s.icache ip).copy.type ≠ tDev) {off n : UInt32}
    (hmap : ∀ o, o < off.toNat + n.toNat → o < (s.icache ip).copy.size.toNat →
      blockAt s.view (s.icache ip).copy (o / bsize) ≠ 0) {Q : Int × List UInt8 → St → Prop}
    (hQ : Q (readResult s.view (s.icache ip).copy off n) s) : wp (readi c ip off n) Q E s := by
  unfold readi
  simp only [wp_bind, wp_inode]
  rw [if_neg hdev]
  rw [readResult] at hQ
  by_cases hsize : off > (s.icache ip).copy.size ∨ off + n < off
  · rw [if_pos hsize]
    rw [if_pos hsize] at hQ
    exact hQ
  · rw [if_neg hsize]
    rw [if_neg hsize] at hQ
    obtain ⟨h1, h2⟩ := not_or.mp hsize
    rw [toNat_readLen h1 h2, wp_bind]
    apply wp_readFrom_mapped _ (by omega)
    · intro o ho1 ho2
      rw [readLen] at ho2
      exact hmap o (by omega) (by omega)
    · exact hQ

end Readi

end Laboratorio.Xv6
