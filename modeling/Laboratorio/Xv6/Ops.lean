import Laboratorio.Xv6.Core
import Laboratorio.Xv6.Crash

/-!
# The inode operations on nodes

`Rep c s a` says that the state `s` satisfies the core invariant and looks like `a` to the calls.
Each inode operation is a small step on `a`: `Abs.lock`, `Abs.unlock`, and a change of one node for
`writei`.
The rules below are what the reasoning about calls uses; the blocks do not show any more.
-/

namespace Laboratorio.Xv6

open Function Laboratorio.Bytes Laboratorio.DiskProg Laboratorio.Wp

/-- The state `s` is sound and looks like `a`. -/
structure Rep (c : Config) (s : St) (a : Abs) : Prop where
  core : Core c s
  abs : s.abs c = a

variable {c : Config} {s s' : St} {a : Abs} {E : Fault → Prop} {k : Fin ninode} {i : Nat}
  {Q : Unit → St → Prop}

theorem Rep.node (h : Rep c s a) : s.nodes c = a.node := by rw [← h.abs]; rfl

theorem Rep.slot (h : Rep c s a) (k : Fin ninode) : a.slot k = (s.icache k).slot := by
  rw [← h.abs]; rfl

theorem Rep.ref (h : Rep c s a) (k : Fin ninode) : (s.icache k).ref = (a.slot k).ref := by
  rw [h.slot]; rfl

theorem Rep.inum (h : Rep c s a) (k : Fin ninode) : (s.icache k).inum = (a.slot k).inum := by
  rw [h.slot]; rfl

theorem Rep.valid (h : Rep c s a) (k : Fin ninode) : (s.icache k).valid = (a.slot k).valid := by
  rw [h.slot]; rfl

theorem Rep.lock (h : Rep c s a) (k : Fin ninode) : (s.icache k).lock = (a.slot k).lock := by
  rw [h.slot]; rfl

theorem Rep.inTrans (h : Rep c s a) (hrun : 0 < a.outstanding) : InTrans c s :=
  ⟨h.core.fits, by rw [← h.abs] at hrun; exact hrun⟩

theorem Rep.range (h : Rep c s a) (hk : 0 < (a.slot k).ref) :
    (a.slot k).dev = rootdev ∧ 0 < (a.slot k).inum ∧ (a.slot k).inum < c.sb.ninodes := by
  rw [h.slot] at hk ⊢
  exact h.core.range hk

/-- The copy of a valid inode is the node's inode on disk. -/
theorem Rep.copy (h : Rep c s a) (hk : 0 < (a.slot k).ref)
    (hv : (a.slot k).valid = true) : (s.icache k).copy = s.din c (a.slot k).inum := by
  rw [← h.ref] at hk
  rw [← h.valid] at hv
  rw [← h.inum]
  exact h.core.through hk hv

theorem Rep.nodeOf_copy (h : Rep c s a) (hk : 0 < (a.slot k).ref) (hv : (a.slot k).valid = true) :
    a.node (a.slot k).inum = nodeOf s.view (s.icache k).copy := by
  rw [← h.node, St.nodes_eq (h.range hk).2.2, h.copy hk hv]

/-- A file has no more blocks than an inode can hold. -/
theorem Rep.data_le (h : Rep c s a) (ht : (a.node i).type ≠ 0) :
    (a.node i).data.length ≤ maxfile * bsize := by
  rw [← h.node] at ht ⊢
  have hi := St.lt_of_type ht
  rw [St.type_nodes hi] at ht
  rw [St.nodes_eq hi, nodeOf, List.length_map, List.length_range]
  by_contra hlt
  exact h.core.noHoles i hi ht maxfile (by omega) (blockAt_of_le _ _ (Nat.le_refl _))

theorem Rep.typed (h : Rep c s a) (hk : 0 < (a.slot k).ref)
    (hv : (a.slot k).valid = true) : (a.node (a.slot k).inum).type ≠ 0 := by
  rw [h.nodeOf_copy hk hv]
  rw [← h.ref] at hk
  rw [← h.valid] at hv
  exact h.core.typed hk hv

/-! ## Locks -/

/-- The running process takes the lock of entry `k` and reads the inode. -/
def Abs.lock (a : Abs) (k : Fin ninode) : Abs :=
  a.setSlot k fun x => { x with lock := some a.myproc, valid := true }

def Abs.unlock (a : Abs) (k : Fin ninode) : Abs := a.setSlot k fun x => { x with lock := none }

theorem Rep.myproc (h : Rep c s a) : s.myproc = a.myproc := by rw [← h.abs]; rfl

/-- `ilock` of an inode whose lock is free: it panics if the inode is free on disk. -/
theorem wp_ilock (h : Rep c s a) (hk : 0 < (a.slot k).ref) (hfree : (a.slot k).lock = none)
    (hE : (a.node (a.slot k).inum).type = 0 → E .ilockNoType)
    (hQ : (a.node (a.slot k).inum).type ≠ 0 → ∀ s', Rep c s' (a.lock k) →
      s' = { s with icache := s'.icache } → Q () s') : wp (ilock c k) Q E s := by
  have hlt := (h.range hk).2.2
  have htype : (s.din c (a.slot k).inum).type = (a.node (a.slot k).inum).type := by
    rw [← h.node, St.type_nodes hlt]
  unfold ilock acquiresleep
  simp only [wp_bind, wp_inode]
  rw [if_neg (by rw [h.ref]; omega)]
  simp only [wp_bind, wp_get]
  rw [h.lock, hfree]
  simp only [wp_modifyInode]
  split
  · next hv =>
    simp only [wp_bind, wp_bread, wp_modifyInode]
    have hdin : dinodeOf (s.view (iblock c.sb (s.icache k).inum)) (s.icache k).inum =
        s.din c (a.slot k).inum := by rw [h.inum]; rfl
    split
    · next ht =>
      rw [wp_throw]
      apply hE
      rw [← htype, ← hdin]
      exact ht
    · next ht =>
      rw [wp_pure]
      have hne : (a.node (a.slot k).inum).type ≠ 0 := by
        rw [← htype, ← hdin]
        exact ht
      simp only [update_self, update_idem]
      refine hQ hne _ ⟨h.core.setEntry (fun _ => ?_) ?_ ?_, ?_⟩ rfl
      · exact h.core.range (by rw [h.ref]; exact hk)
      · intro _ j hj hlive he
        exact hj (h.core.once hlive (by rw [h.ref]; exact hk) he)
      · intro _ _
        exact ⟨rfl, by rw [← htype, ← hdin] at hne; exact hne⟩
      · rw [← h.abs, Abs.lock]
        apply St.abs_setEntry
        rw [h.abs, ← h.myproc]
        rfl
  · next hv =>
    have hv : (s.icache k).valid = true := by simpa using hv
    rw [wp_pure]
    refine hQ (h.typed hk (by rw [← h.valid]; exact hv)) _
      ⟨h.core.setEntry (fun _ => ?_) ?_ ?_, ?_⟩ rfl
    · exact h.core.range (by rw [h.ref]; exact hk)
    · intro _ j hj hlive he
      exact hj (h.core.once hlive (by rw [h.ref]; exact hk) he)
    · intro _ _
      rw [← h.ref] at hk
      exact ⟨h.core.through hk hv, h.core.typed hk hv⟩
    · rw [← h.abs, Abs.lock]
      apply St.abs_setEntry
      rw [h.abs, ← h.myproc]
      simp only [Inode.slot, hv]

theorem wp_iunlock (h : Rep c s a) (hk : 0 < (a.slot k).ref)
    (hlock : (a.slot k).lock = some a.myproc)
    (hQ : ∀ s', Rep c s' (a.unlock k) → s' = { s with icache := s'.icache } → Q () s') :
    wp (iunlock k) Q E s := by
  unfold iunlock releasesleep
  simp only [wp_bind, wp_get]
  rw [h.lock, h.myproc, hlock, h.ref, if_neg (by simp; omega), wp_modifyInode]
  refine hQ _ ⟨h.core.setEntry (fun hr => ?_) ?_ ?_, ?_⟩ rfl
  · exact h.core.range hr
  · intro hr j hj hlive he
    exact hj (h.core.once hlive hr he)
  · intro hr hv
    exact ⟨h.core.through hr hv, h.core.typed hr hv⟩
  · rw [← h.abs, Abs.unlock]
    apply St.abs_setEntry
    rfl

/-! ## Contents -/

theorem map_overwrite (g : Nat → UInt8) {size off n : Nat} (src : Nat → UInt8) (hoff : off ≤ size) :
    (List.range (max size (off + n))).map (overwrite g off n src) =
      writeData ((List.range size).map g) off ((List.range n).map src) := by
  apply List.ext_getElem
  · simp [writeData]
    omega
  · intro k h1 h2
    simp only [List.length_map, List.length_range] at h1
    simp only [writeData, List.getElem_append, List.getElem_map, List.getElem_range, overwrite,
      List.length_append, List.length_take, List.length_map, List.length_range,
      Nat.min_eq_left hoff, List.getElem_take, List.getElem_drop]
    by_cases hk1 : k < off
    · rw [if_neg (by omega), dif_pos (by omega), dif_pos hk1]
    · by_cases hk2 : k < off + n
      · rw [if_pos ⟨by omega, hk2⟩, dif_pos hk2, dif_neg hk1]
      · rw [if_neg (by omega), dif_neg hk2]
        congr 1
        omega

/-- Ownership does not depend on the other fields of an inode. -/
theorem Owned.congr_fields {sb : Superblock} {v : Disk Blk} {T : Nat → Dinode}
    {d d' : Dinode} (h : Owned sb v (update T i d)) (haddrs : d'.addrs = d.addrs)
    (htype : d.type ≠ 0) : Owned sb v (update T i d') := by
  have hown : ∀ {j p b}, Owns sb v (update T i d') j p b → Owns sb v (update T i d) j p b := by
    intro j p b ho
    have hadr := ho.addr
    have htj := ho.type
    by_cases hji : j = i
    · subst hji
      rw [update_self] at hadr
      refine ⟨ho.lt, by rw [update_self]; exact htype, ho.ne, ?_⟩
      rw [update_self, ← hadr]
      have haddr : ∀ n, d'.addr n = d.addr n := fun n => by unfold Dinode.addr; rw [haddrs]
      cases p <;> simp only [Place.addr, blockAt, haddr]
    · rw [update_of_ne hji] at hadr htj
      exact ⟨ho.lt, by rwa [update_of_ne hji], ho.ne, by rwa [update_of_ne hji]⟩
  exact h.shrink hown h.marked fun ho => h.used (hown ho)

theorem blockAt_fields {v : Disk Blk} {d d' : Dinode} (h : d'.addrs = d.addrs) (n : Nat) :
    blockAt v d' n = blockAt v d n := by
  have haddr : ∀ n, d'.addr n = d.addr n := fun n => by unfold Dinode.addr; rw [h]
  simp only [blockAt, haddr]

theorem Place.addr_fields {v : Disk Blk} {d d' : Dinode} (h : d'.addrs = d.addrs) (p : Place) :
    p.addr v d' = p.addr v d := by
  cases p with
  | data n => exact blockAt_fields h n
  | indirect => simp only [Place.addr, Dinode.addr, h]

variable {P : Finset Place}

/-- There is a free block for every place in `P` of inode `i` that has none. -/
def St.Enough (c : Config) (s : St) (i : Nat) (P : Finset Place) : Prop :=
  missing s.view (s.din c i) P ≤ freeBlocks c.sb s.view

/-- The blocks that inode `i` has got were free. -/
theorem St.Enough.changed {v₁ : Disk Blk} {d₁ : Dinode} {g : Nat → UInt8}
    (h : s.Enough c i P) (hc : Changed c.sb s.view (s.din c) i v₁ d₁ g P)
    (hv : ∀ b, c.sb.bmapstart ≤ b → s'.view b = v₁ b)
    (haddr : ∀ p : Place, p.addr s'.view (s'.din c i) = p.addr v₁ d₁) : s'.Enough c i P := by
  have hbits : ∀ x < c.sb.size, bit c.sb s'.view x = bit c.sb v₁ x := fun x hx => by
    rw [bit, bit, hv _ (c.sb.bblock_lt hx).1]
  have hb := hc.balance
  unfold St.Enough at *
  rw [missing_congr fun p _ => haddr p, freeBlocks_congr hbits]
  omega

/-- The blocks of the log do not count. -/
theorem St.Enough.congr (hok : c.sb.Ok) (h : s.Enough c i P) (hcore : Core c s)
    (hi : i < c.sb.ninodes) (ht : (s.din c i).type ≠ 0)
    (hv : ∀ b, c.sb.inodestart ≤ b → s'.view b = s.view b) : s'.Enough c i P := by
  have hdin : s'.din c i = s.din c i := by
    show dinodeOf (s'.view _) i = _
    rw [hv _ (hok.iblock_lt hi).1]
    rfl
  have habove : ∀ b, c.sb.bmapstart ≤ b → s'.view b = s.view b := fun b hb =>
    hv b (by have := hok.inodestart_lt; omega)
  refine h.changed (Grown.refl hcore.owned i) habove fun p => ?_
  rw [hdin]
  exact hcore.owned.addr_above habove hi ht p

/-- An inode has changed without `iupdate`: its blocks have, but the inode has not. -/
theorem Rep.writeBlocks (hok : c.sb.Ok) (h : Rep c s a) (hk : 0 < (a.slot k).ref)
    {d : Dinode} {g : Nat → UInt8} {n : Nat} (hd : s.din c (a.slot k).inum = d)
    (hc : Changed c.sb s.view (s.din c) (a.slot k).inum s'.view d g P) (ht : Touched c s s' k d n)
    (htype : d.type ≠ 0) (hholes : NoHoles s'.view d) :
    Rep c s' (a.setNode (a.slot k).inum (nodeOf s'.view d)) ∧
      (s.Enough c (a.slot k).inum P → s'.Enough c (a.slot k).inum P) := by
  have hi := (h.range hk).2.2
  have hdin : ∀ j < c.sb.ninodes, s'.din c j = update (s.din c) (a.slot k).inum d j := by
    intro j hj
    rw [← hd, update_eq_self]
    exact dinodeAt_congr hok hc.below hj
  refine ⟨⟨h.core.touched ht (by rw [h.ref]; exact hk) htype (by rw [h.inum]; exact hdin)
    (by rw [h.inum]; exact hc.owned) ?_ hholes, ?_⟩, fun hen => hen.changed hc (fun _ _ => rfl) ?_⟩
  · rw [h.inum]
    exact fun j hji hj htj n => hc.others j hji hj htj (.data n)
  · rw [ht.abs, h.core.nodes_update hi hdin hc.frame, h.abs, h.node]
    rfl
  · intro p
    rw [hdin _ hi, update_self]

/-- An inode has changed and has been written with `iupdate`. -/
theorem Rep.writeInode (hok : c.sb.Ok) (h : Rep c s a) (hk : 0 < (a.slot k).ref)
    {v₁ : Disk Blk} {d₁ d : Dinode} {g : Nat → UInt8} {n : Nat}
    (hc : Changed c.sb s.view (s.din c) (a.slot k).inum v₁ d₁ g P) (ht : Touched c s s' k d n)
    (hv : s'.view = updView c.sb v₁ (a.slot k).inum d) (htype₁ : d₁.type ≠ 0)
    (haddrs : d.addrs = d₁.addrs) (htype : d.type ≠ 0) (hholes : NoHoles v₁ d) :
    Rep c s' (a.setNode (a.slot k).inum (nodeOf v₁ d)) ∧
      (s.Enough c (a.slot k).inum P → s'.Enough c (a.slot k).inum P) := by
  have hi := (h.range hk).2.2
  have habove : ∀ b, c.sb.bmapstart ≤ b → s'.view b = v₁ b := by
    intro b hb
    rw [hv, updView_above hok _ hi _ hb]
  have hdin : ∀ j < c.sb.ninodes, s'.din c j = update (s.din c) (a.slot k).inum d j := by
    intro j hj
    rw [St.din, hv, dinodeAt_updView_eq, update_apply, update_apply]
    split
    · rfl
    · exact dinodeAt_congr hok hc.below hj
  have howned := hc.owned.congr_fields haddrs htype₁
  have hself : update (s.din c) (a.slot k).inum d (a.slot k).inum = d :=
    update_self _ _ _
  -- the block numbers and bytes of all inodes are those of `v₁`
  have hplace : ∀ {x}, x < c.sb.ninodes →
      (update (s.din c) (a.slot k).inum d x).type ≠ 0 → ∀ p : Place,
      p.addr s'.view (update (s.din c) (a.slot k).inum d x) =
        p.addr v₁ (update (s.din c) (a.slot k).inum d x) :=
    fun hx htx p => howned.addr_above habove hx htx p
  have hbytes : ∀ {x}, x < c.sb.ninodes → (update (s.din c) (a.slot k).inum d x).type ≠ 0 → ∀ o,
      byteAt s'.view (update (s.din c) (a.slot k).inum d x) o =
        byteAt v₁ (update (s.din c) (a.slot k).inum d x) o :=
    fun hx htx o => howned.byteAt_above habove hx htx o
  refine ⟨⟨h.core.touched ht (by rw [h.ref]; exact hk) htype (by rw [h.inum]; exact hdin)
    (by rw [h.inum]; exact howned.above hok habove) ?_ ?_, ?_⟩, fun hen => hen.changed hc habove ?_⟩
  · rw [h.inum]
    intro j hji hj htj n
    have h1 := hplace hj (by rwa [update_of_ne hji]) (.data n)
    rw [update_of_ne hji] at h1
    exact h1.trans (hc.others j hji hj htj (.data n))
  · intro n hn
    have h1 := hplace hi (by rwa [hself]) (.data n)
    rw [hself] at h1
    exact (congrArg (· ≠ 0) h1).mpr (hholes n hn)
  · rw [ht.abs, h.core.nodes_update hi hdin ?_, h.abs, h.node]
    · have h1 := hbytes hi (by rwa [hself])
      rw [hself] at h1
      rw [nodeOf_congr h1]
      rfl
    · intro j hji hj htj o
      have h1 := hbytes hj (by rwa [update_of_ne hji]) o
      rw [update_of_ne hji] at h1
      exact h1.trans (hc.frame j hji hj htj o)
  · intro p
    have h1 := hplace hi (by rwa [hself]) p
    rw [hself] at h1
    rw [hdin _ hi, hself, h1]
    exact p.addr_fields haddrs

/-- **`writei`** -/
theorem wp_writei (hok : c.sb.Ok) (h : Rep c s a) (hrun : 0 < a.outstanding)
    (hk : 0 < (a.slot k).ref) (hv : (a.slot k).valid = true) {src : Nat → UInt8} {off n : UInt32}
    {m : Nat} (hm : 0 < n.toNat → off.toNat % bsize + n.toNat ≤ m * bsize)
    (hP : off.toNat + n.toNat ≤ maxfile * bsize → spanned off.toNat n.toNat ⊆ P)
    (hE : ∀ e, e.Exhausted → ¬ (s.Enough c (a.slot k).inum P ∧ LogRoom c s (6 * m + 1)) → E e)
    {Q : Int → St → Prop}
    (hdev : (a.node (a.slot k).inum).type = tDev → ∀ r, Q r s)
    (hfail : (a.node (a.slot k).inum).data.length < off.toNat ∨
      maxfile * bsize < off.toNat + n.toNat → Q (-1) s)
    (hQ : (a.node (a.slot k).inum).type ≠ tDev →
      off.toNat ≤ (a.node (a.slot k).inum).data.length →
      off.toNat + n.toNat ≤ maxfile * bsize →
      ∀ s', Rep c s' (a.setNode (a.slot k).inum { a.node (a.slot k).inum with
        data := writeData (a.node (a.slot k).inum).data off.toNat
          ((List.range n.toNat).map src) }) →
        (s.Enough c (a.slot k).inum P → s'.Enough c (a.slot k).inum P) → Q n.toNat s') :
    wp (writei c k src off n) Q E s := by
  have hi := (h.range hk).2.2
  have hnode := h.nodeOf_copy hk hv
  have hcopy := h.copy hk hv
  have htype : (s.din c (a.slot k).inum).type ≠ 0 := by
    have := h.typed hk hv
    rwa [hnode, hcopy] at this
  rw [hcopy] at hnode
  have hlen : (a.node (a.slot k).inum).data.length = (s.din c (a.slot k).inum).size.toNat := by
    rw [hnode]
    simp [nodeOf]
  have hholes := h.core.noHoles _ hi htype
  by_cases ht : (s.din c (a.slot k).inum).type = tDev
  · have hd : (a.node (a.slot k).inum).type = tDev := by rw [hnode]; exact ht
    unfold writei
    simp only [wp_bind, wp_inode]
    rw [hcopy, if_pos ht]
    split
    · exact hdev hd _
    · split
      · exact hdev hd _
      · exact hdev hd _
  · rw [hlen] at hfail hQ
    apply wp_writei_owned hok (h.inTrans hrun) h.core.owned hi htype ht hcopy (h.inum k) hm hP
      (fun e he hn => hE e he fun hst => hn ⟨hst.1, hst.2⟩) hfail
    intro hoff hmax d₁ v₁ s' hc hfill hsame hstay hgrow
    have hQ := hQ (by rw [hnode]; exact ht) hoff hmax s'
    have htype₁ : d₁.type ≠ 0 := by rw [hc.fields]; exact htype
    have hbytes := funext hc.bytes
    -- the blocks below the new size are there
    have hmapped : ∀ m, m * bsize < max (s.din c (a.slot k).inum).size.toNat
        (off.toNat + n.toNat) → blockAt v₁ d₁ m ≠ 0 := by
      intro m hm
      by_cases hlt : m * bsize < (s.din c (a.slot k).inum).size.toNat
      · rw [hc.mapped m (hholes m hlt)]
        exact hholes m hlt
      · have := hfill (m * bsize) (by omega) (by omega)
        rwa [Nat.mul_div_cancel _ (by decide)] at this
    have hdata : writeData (a.node (a.slot k).inum).data off.toNat ((List.range n.toNat).map src) =
        (List.range (max (s.din c (a.slot k).inum).size.toNat (off.toNat + n.toNat))).map
          (byteAt v₁ d₁) := by
      rw [hbytes, map_overwrite _ _ hoff, hnode]
      rfl
    rw [hdata] at hQ
    by_cases hle : off.toNat + n.toNat ≤ (s.din c (a.slot k).inum).size.toNat
    · obtain ⟨hT, hv₁⟩ := hstay hle
      rw [Nat.max_eq_left hle] at hmapped hQ
      have hd₁ : d₁ = s.din c (a.slot k).inum := by
        apply hsame
        intro o ho1 ho2
        apply hholes
        have := Nat.div_mul_le_self o bsize
        omega
      subst hv₁
      obtain ⟨hrep, hen⟩ := h.writeBlocks hok hk hd₁.symm hc hT htype₁
        (by rw [← hd₁] at hmapped; exact hmapped)
      refine hQ ?_ hen
      rw [hnode]
      rw [hd₁] at hrep ⊢
      exact hrep
    · obtain ⟨hT, hv₁⟩ := hgrow (by omega)
      have hmx : max (s.din c (a.slot k).inum).size.toNat (off.toNat + n.toNat) =
          off.toNat + n.toNat := by omega
      rw [hmx] at hmapped hQ
      have hsz : (UInt32.ofNat (off.toNat + n.toNat)).toNat = off.toNat + n.toNat := by
        rw [UInt32.toNat_ofNat_of_lt']
        simp only [maxfile, bsize] at hmax
        show _ < 2 ^ 32
        omega
      obtain ⟨hrep, hen⟩ := h.writeInode hok hk hc hT hv₁ htype₁ rfl htype₁ (by
        intro m hm
        show blockAt v₁ d₁ m ≠ 0
        exact hmapped m (by rw [← hsz]; exact hm))
      have hsame : ({ nodeOf s.view (s.din c (a.slot k).inum) with
          data := (List.range (off.toNat + n.toNat)).map (byteAt v₁ d₁) } : Node) =
          nodeOf v₁ { d₁ with size := UInt32.ofNat (off.toNat + n.toNat) } := by
        have hf := hc.fields
        apply Node.ext
        · exact (congrArg Dinode.type hf).symm
        · exact (congrArg Dinode.major hf).symm
        · exact (congrArg Dinode.minor hf).symm
        · exact (congrArg Dinode.nlink hf).symm
        · show _ = (List.range (UInt32.ofNat (off.toNat + n.toNat)).toNat).map (byteAt v₁ d₁)
          rw [hsz]
      refine hQ ?_ hen
      rw [hnode, hsame]
      exact hrep

/-! ## Transactions -/

/-- `begin_op` with no transaction running. -/
theorem wp_beginOp (h : Rep c s a) (h0 : a.outstanding = 0) (hc : a.committing = false)
    (hQ : ∀ s', Rep c s' { a with outstanding := 1 } → s'.view = s.view → s'.lh = [] → Q () s') :
    wp beginOp Q E s := by
  have habs := h.abs
  have hout : s.outstanding = 0 := by rw [← habs] at h0; exact h0
  have hcom : s.committing = false := by rw [← habs] at hc; exact hc
  have hlh := h.core.idle hout
  have hgo : ¬ (s.committing ∨ s.lh.length + (s.outstanding + 1) * maxopblocks > logsize) := by
    rw [hcom, hlh, hout]
    simp [maxopblocks, logsize]
  unfold beginOp
  simp only [wp_bind, wp_get]
  rw [if_neg hgo]
  refine hQ _ ⟨{ h.core with idle := fun h1 => absurd h1 (Nat.succ_ne_zero _) }, ?_⟩ rfl hlh
  rw [← habs]
  show _ = Abs.mk _ _ _ _ 1 _
  unfold St.abs
  rw [hout]
  rfl

/-- The core invariant depends on the blocks outside the log only. -/
theorem Core.commit (hok : c.sb.Ok) (h : Core c s) {m : Mem Blk} {n : Nat}
    (hview : ∀ b, c.sb.inodestart ≤ b → m.view b = s.view b) :
    Core c { s with mem := m, lh := [], outstanding := n } ∧
      St.nodes c { s with mem := m, lh := [], outstanding := n } = s.nodes c := by
  have habove : ∀ b, c.sb.bmapstart ≤ b → m.view b = s.view b := fun b hb =>
    hview b (by have := hok.inodestart_lt; omega)
  have hdin : ∀ i < c.sb.ninodes,
      St.din c { s with mem := m, lh := [], outstanding := n } i = s.din c i := by
    intro i hi
    show dinodeOf (m.view _) i = _
    rw [hview _ (hok.iblock_lt hi).1]
    rfl
  have howned := (h.owned.above hok habove).congr_table hdin
  refine ⟨⟨Log.Fits.nil (Nat.pos_of_ne_zero fun h0 => ?_), fun _ => rfl, howned, ?_, ?_, h.once,
    h.range, ?_, h.typed⟩, ?_⟩
  · have := hok.log_pos
    exact absurd h0 (by show c.sb.nlog ≠ 0; omega)
  · intro i hi ht
    rw [hdin i hi] at ht ⊢
    intro n hn
    have h1 := h.owned.addr_above habove hi ht (.data n)
    exact (congrArg (· ≠ 0) h1).mpr (h.noHoles i hi ht n hn)
  · intro i hi ht
    rw [hdin i hi] at ht ⊢
    exact h.empty i hi ht
  · intro k hk hv
    rw [hdin _ (h.range hk).2.2]
    exact h.through hk hv
  · funext i
    exact h.nodes_congr (hdin i) fun hi ht o => h.owned.byteAt_above habove hi ht o

/-- `end_op` of the only transaction. -/
theorem wp_endOp (hok : c.sb.Ok) (h : Rep c s a) (h1 : a.outstanding = 1)
    (hc : a.committing = false)
    (hQ : ∀ s', Rep c s' { a with outstanding := 0 } →
      (∀ b, c.sb.inodestart ≤ b → s'.view b = s.view b) → Q () s') : wp (endOp c) Q E s := by
  have habs := h.abs
  have hout : s.outstanding = 1 := by rw [← habs] at h1; exact h1
  have hcom : s.committing = false := by rw [← habs] at hc; exact hc
  unfold endOp
  simp only [wp_bind, wp_get]
  rw [if_neg (by simp [hcom]), if_pos (by rw [hout])]
  have hview : ∀ b, c.sb.inodestart ≤ b → ((commit c.log s.lh).run s.mem).2.view b = s.view b :=
    fun b hb => view_commit h.core.fits s.mem (hok.not_area hb)
  obtain ⟨hcore, hnodes⟩ := h.core.commit (n := 0) hok hview
  refine hQ _ ⟨hcore, ?_⟩ hview
  rw [← habs]
  unfold St.abs
  rw [hnodes]

end Laboratorio.Xv6
