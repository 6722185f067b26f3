import Laboratorio.Xv6.InodeOps

/-!
# The core invariant

The in-memory inode is a copy of the one on disk. `Core` is what holds of the disk and the inode
cache between any two inode operations of a call:

* the blocks are owned by the inodes on disk (`Owned`), a free inode owning none,
* no file has a hole below its size,
* a cache entry in use is the only one for its inode, and if it is valid its copy is what is on
  disk (the cache is *write-through*),
* outside of a transaction the log is empty.

The second and the third support each other. A write that does not grow a file does not call `iupdate`, which is
right because it meets no hole, so that `bmap` leaves the copy alone (`wp_writei`).

What the calls see of the disk are its *nodes*: the inodes without their block numbers, with the
bytes of the file. Each inode operation has a rule that says that it keeps `Core` and what it does to
the nodes.
-/

namespace Laboratorio.Xv6

open Function Laboratorio.Bytes Laboratorio.DiskProg Laboratorio.Wp

variable {c : Config} {s : St} {E : Fault → Prop}

/-- An inode on disk. -/
abbrev St.din (c : Config) (s : St) (i : Nat) : Dinode := dinodeAt c.sb s.view i

/-- **What holds between the inode operations.** -/
structure Core (c : Config) (s : St) : Prop where
  fits : c.log.Fits s.lh
  idle : s.outstanding = 0 → s.lh = []
  owned : Owned c.sb s.view (s.din c)
  noHoles : ∀ i < c.sb.ninodes, (s.din c i).type ≠ 0 → NoHoles s.view (s.din c i)
  empty : ∀ i < c.sb.ninodes, (s.din c i).type = 0 → ∀ k, (s.din c i).addr k = 0
  once : ∀ {j k}, 0 < (s.icache j).ref → 0 < (s.icache k).ref →
    (s.icache j).inum = (s.icache k).inum → j = k
  range : ∀ {k}, 0 < (s.icache k).ref →
    (s.icache k).dev = rootdev ∧ 0 < (s.icache k).inum ∧ (s.icache k).inum < c.sb.ninodes
  through : ∀ {k}, 0 < (s.icache k).ref → (s.icache k).valid = true →
    (s.icache k).copy = s.din c (s.icache k).inum
  typed : ∀ {k}, 0 < (s.icache k).ref → (s.icache k).valid = true → (s.icache k).copy.type ≠ 0

/-! ## Nodes -/

/-- A file, a directory or a device as the calls see it: the inode without its block numbers, and the
bytes. The type of a free inode is `0`. -/
@[ext] structure Node where
  type : Int16
  major : Int16
  minor : Int16
  nlink : Int16
  data : List UInt8

/-- The node of an inode. -/
def nodeOf (v : Disk Blk) (d : Dinode) : Node where
  type := d.type
  major := d.major
  minor := d.minor
  nlink := d.nlink
  data := (List.range d.size.toNat).map (byteAt v d)

/-- The nodes of a state, by inode number. -/
def St.nodes (c : Config) (s : St) (i : Nat) : Node :=
  if i < c.sb.ninodes then nodeOf s.view (s.din c i) else ⟨0, 0, 0, 0, []⟩

theorem St.nodes_eq {i : Nat} (hi : i < c.sb.ninodes) :
    s.nodes c i = nodeOf s.view (s.din c i) := if_pos hi

theorem St.type_nodes {i : Nat} (hi : i < c.sb.ninodes) :
    (s.nodes c i).type = (s.din c i).type := by
  rw [St.nodes_eq hi]
  rfl

theorem St.lt_of_type {i : Nat} (h : (s.nodes c i).type ≠ 0) : i < c.sb.ninodes := by
  by_contra hlt
  rw [St.nodes, if_neg hlt] at h
  exact h rfl

theorem byteAt_of_empty (v v' : Disk Blk) {d : Dinode} (h : ∀ k, d.addr k = 0) (o : Nat) :
    byteAt v' d o = byteAt v d o := by
  apply byteAt_congr
  intro p hp
  exact absurd (Place.addr_of_empty h v p) hp

/-- The node of an inode whose bytes have not changed. -/
theorem nodeOf_congr {v v' : Disk Blk} {d : Dinode} (h : ∀ o, byteAt v' d o = byteAt v d o) :
    nodeOf v' d = nodeOf v d := by
  rw [nodeOf, nodeOf, funext h]

/-- The node of any inode that has not changed, nor its bytes. -/
theorem Core.nodes_congr (h : Core c s) {s' : St} {i : Nat}
    (hdin : i < c.sb.ninodes → s'.din c i = s.din c i)
    (hbytes : i < c.sb.ninodes → (s.din c i).type ≠ 0 →
      ∀ o, byteAt s'.view (s.din c i) o = byteAt s.view (s.din c i) o) :
    s'.nodes c i = s.nodes c i := by
  by_cases hi : i < c.sb.ninodes
  · rw [St.nodes_eq hi, St.nodes_eq hi, hdin hi]
    apply nodeOf_congr
    by_cases ht : (s.din c i).type = 0
    · exact byteAt_of_empty _ _ (h.empty i hi ht)
    · exact hbytes hi ht
  · rw [St.nodes, St.nodes, if_neg hi, if_neg hi]

/-! ## Changing one inode -/

section Update

variable {s' : St} {ip : Fin ninode} {d : Dinode} {n : Nat}

theorem Touched.icache (h : Touched c s s' ip d n) (k : Fin ninode) :
    s'.icache k = if k = ip then { s.icache ip with copy := d } else s.icache k := by
  rw [h.rest]
  simp only [St.setCopy, update_apply]

/-- The core invariant when one inode has changed, on disk to `d`, and its cache entry to `x`. -/
theorem Core.change (h : Core c s) {x : Inode} (href : 0 < (s.icache ip).ref)
    (hs' : InTrans c s') (hic : s'.icache = update s.icache ip x)
    (hx : 0 < x.ref → x.dev = (s.icache ip).dev ∧ x.inum = (s.icache ip).inum)
    (hv : 0 < x.ref → x.valid = true → x.copy = d ∧ d.type ≠ 0)
    (hempty : d.type = 0 → ∀ n, d.addr n = 0) (hholes : d.type ≠ 0 → NoHoles s'.view d)
    (hdin : ∀ j < c.sb.ninodes, s'.din c j = update (s.din c) (s.icache ip).inum d j)
    (howned : Owned c.sb s'.view (update (s.din c) (s.icache ip).inum d))
    (hothers : ∀ j ≠ (s.icache ip).inum, j < c.sb.ninodes → (s.din c j).type ≠ 0 → ∀ n,
      blockAt s'.view (s.din c j) n = blockAt s.view (s.din c j) n) : Core c s' := by
  have hi := (h.range href).2.2
  have hself : s'.din c (s.icache ip).inum = d := by rw [hdin _ hi, update_self]
  have hother : ∀ j ≠ (s.icache ip).inum, j < c.sb.ninodes → s'.din c j = s.din c j :=
    fun j hj hlt => by rw [hdin j hlt, update_of_ne hj]
  have hslot : ∀ k, s'.icache k = if k = ip then x else s.icache k := fun k => by
    rw [hic, update_apply]
  -- an entry in use holds the inode it held before
  have hlive : ∀ {k}, 0 < (s'.icache k).ref → 0 < (s.icache k).ref ∧
      (s'.icache k).dev = (s.icache k).dev ∧ (s'.icache k).inum = (s.icache k).inum := by
    intro k hk
    rw [hslot] at hk ⊢
    split
    · next e =>
      rw [if_pos e] at hk
      subst e
      exact ⟨href, hx hk⟩
    · next e =>
      rw [if_neg e] at hk
      exact ⟨hk, rfl, rfl⟩
  have hrun := hs'.running
  refine ⟨hs'.fits, fun h0 => by omega, howned.congr_table hdin, ?_, ?_, ?_, ?_, ?_, ?_⟩
  · intro j hj htj
    by_cases hji : j = (s.icache ip).inum
    · subst hji
      rw [hself] at htj ⊢
      exact hholes htj
    · rw [hother j hji hj] at htj ⊢
      intro n hn
      rw [hothers j hji hj htj n]
      exact h.noHoles j hj htj n hn
  · intro j hj htj
    by_cases hji : j = (s.icache ip).inum
    · subst hji
      rw [hself] at htj ⊢
      exact hempty htj
    · rw [hother j hji hj] at htj ⊢
      exact h.empty j hj htj
  · intro j k hj hk he
    rw [(hlive hj).2.2, (hlive hk).2.2] at he
    exact h.once (hlive hj).1 (hlive hk).1 he
  · intro k hk
    rw [(hlive hk).2.1, (hlive hk).2.2]
    exact h.range (hlive hk).1
  · intro k hk hvk
    rw [(hlive hk).2.2]
    by_cases hkip : k = ip
    · subst hkip
      rw [hslot, if_pos rfl] at hk hvk ⊢
      rw [(hv hk hvk).1, hself]
    · have hk' := (hlive hk).1
      have hni : (s.icache k).inum ≠ (s.icache ip).inum := fun e => hkip (h.once hk' href e)
      rw [hslot, if_neg hkip] at hvk ⊢
      rw [hother _ hni (h.range hk').2.2]
      exact h.through hk' hvk
  · intro k hk hvk
    by_cases hkip : k = ip
    · subst hkip
      rw [hslot, if_pos rfl] at hk hvk ⊢
      rw [(hv hk hvk).1]
      exact (hv hk hvk).2
    · rw [hslot, if_neg hkip] at hk hvk ⊢
      exact h.typed hk hvk

/-- The core invariant when one inode has changed, in the cache and on disk alike. -/
theorem Core.touched (h : Core c s) (hs' : Touched c s s' ip d n) (href : 0 < (s.icache ip).ref)
    (htype : d.type ≠ 0)
    (hdin : ∀ j < c.sb.ninodes, s'.din c j = update (s.din c) (s.icache ip).inum d j)
    (howned : Owned c.sb s'.view (update (s.din c) (s.icache ip).inum d))
    (hothers : ∀ j ≠ (s.icache ip).inum, j < c.sb.ninodes → (s.din c j).type ≠ 0 → ∀ n,
      blockAt s'.view (s.din c j) n = blockAt s.view (s.din c j) n)
    (hholes : NoHoles s'.view d) : Core c s' :=
  h.change (x := { s.icache ip with copy := d }) href hs'.trans
    (funext fun k => by rw [hs'.icache, update_apply]) (fun _ => ⟨rfl, rfl⟩)
    (fun _ _ => ⟨rfl, htype⟩) (fun h0 => absurd h0 htype) (fun _ => hholes) hdin howned hothers

/-- The nodes when one inode has changed. -/
theorem Core.nodes_update (h : Core c s) {i : Nat} (hi : i < c.sb.ninodes)
    (hdin : ∀ j < c.sb.ninodes, s'.din c j = update (s.din c) i d j)
    (hframe : ∀ j ≠ i, j < c.sb.ninodes → (s.din c j).type ≠ 0 → ∀ o,
      byteAt s'.view (s.din c j) o = byteAt s.view (s.din c j) o) :
    s'.nodes c = update (s.nodes c) i (nodeOf s'.view d) := by
  funext j
  by_cases hji : j = i
  · subst hji
    rw [update_self, St.nodes_eq hi, hdin j hi, update_self]
  · rw [update_of_ne hji]
    apply h.nodes_congr
    · intro hj
      rw [hdin j hj, update_of_ne hji]
    · intro hj ht
      exact hframe j hji hj ht

end Update

/-! ## Changing a cache entry -/

/-- The core invariant when one cache entry has changed, and nothing else. -/
theorem Core.setEntry (h : Core c s) {ip : Fin ninode} {x : Inode}
    (hrange : 0 < x.ref → x.dev = rootdev ∧ 0 < x.inum ∧ x.inum < c.sb.ninodes)
    (honce : 0 < x.ref → ∀ k ≠ ip, 0 < (s.icache k).ref → (s.icache k).inum ≠ x.inum)
    (hvalid : 0 < x.ref → x.valid = true → x.copy = s.din c x.inum ∧ x.copy.type ≠ 0) :
    Core c { s with icache := update s.icache ip x } := by
  have hslot : ∀ k, update s.icache ip x k = if k = ip then x else s.icache k :=
    fun k => update_apply _ _ _ _
  refine ⟨h.fits, h.idle, h.owned, h.noHoles, h.empty, ?_, ?_, ?_, ?_⟩
  · intro j k hj hk he
    simp only [hslot] at hj hk he
    by_cases hjip : j = ip <;> by_cases hkip : k = ip
    · rw [hjip, hkip]
    · rw [if_pos hjip] at hj he
      rw [if_neg hkip] at hk he
      exact absurd he.symm (honce hj k hkip hk)
    · rw [if_neg hjip] at hj he
      rw [if_pos hkip] at hk he
      exact absurd he (honce hk j hjip hj)
    · rw [if_neg hjip] at hj he
      rw [if_neg hkip] at hk he
      exact h.once hj hk he
  · intro k hk
    simp only [hslot] at hk ⊢
    split
    · next e => rw [if_pos e] at hk; exact hrange hk
    · next e => rw [if_neg e] at hk; exact h.range hk
  · intro k hk hv
    simp only [hslot] at hk hv ⊢
    split
    · next e => rw [if_pos e] at hk hv; exact (hvalid hk hv).1
    · next e => rw [if_neg e] at hk hv; exact h.through hk hv
  · intro k hk hv
    simp only [hslot] at hk hv ⊢
    split
    · next e => rw [if_pos e] at hk hv; exact (hvalid hk hv).2
    · next e => rw [if_neg e] at hk hv; exact h.typed hk hv

/-! ## What the calls see -/

/-- The bookkeeping of a cache entry, without the copy of the inode. -/
structure Slot where
  dev : Nat
  inum : Nat
  ref : Nat
  lock : Option (Fin nproc)
  valid : Bool

def Inode.slot (x : Inode) : Slot := ⟨x.dev, x.inum, x.ref, x.lock, x.valid⟩

/-- The file system as the calls see it: nodes instead of blocks, and of the inode cache the
bookkeeping only. -/
structure Abs where
  node : Nat → Node
  slot : Fin ninode → Slot
  ftable : Fin nfile → File
  myproc : Fin nproc
  outstanding : Nat
  committing : Bool

/-- The abstraction of a state. -/
def St.abs (c : Config) (s : St) : Abs where
  node := s.nodes c
  slot k := (s.icache k).slot
  ftable := s.ftable
  myproc := s.myproc
  outstanding := s.outstanding
  committing := s.committing

/-- Change one entry's bookkeeping. -/
def Abs.setSlot (a : Abs) (k : Fin ninode) (f : Slot → Slot) : Abs :=
  { a with slot := update a.slot k (f (a.slot k)) }

theorem Abs.slot_setSlot (a : Abs) (k j : Fin ninode) (f : Slot → Slot) :
    (a.setSlot k f).slot j = if j = k then f (a.slot k) else a.slot j :=
  update_apply _ _ _ _

/-- Change one node. -/
def Abs.setNode (a : Abs) (i : Nat) (x : Node) : Abs :=
  { a with node := update a.node i x }

theorem St.abs_setEntry (s : St) (k : Fin ninode) (f : Slot → Slot) {x : Inode}
    (hx : x.slot = f (s.icache k).slot) :
    St.abs c { s with icache := update s.icache k x } = (s.abs c).setSlot k f := by
  unfold St.abs Abs.setSlot
  congr 1
  funext j
  by_cases hj : j = k
  · subst hj
    simp [hx]
  · simp [update_of_ne hj]

/-- Writing blocks and the copy of an inode changes nodes only. -/
theorem Touched.abs {s' : St} {ip : Fin ninode} {d : Dinode} {n : Nat}
    (h : Touched c s s' ip d n) :
    s'.abs c = { s.abs c with node := s'.nodes c } := by
  have hslot : (fun k => (s'.icache k).slot) = fun k => (s.icache k).slot := by
    funext k
    rw [h.icache]
    split
    · next e => rw [e]; rfl
    · rfl
  unfold St.abs
  rw [hslot]
  have hr := h.rest
  have h1 : s'.ftable = s.ftable := by rw [hr]; rfl
  have h2 : s'.myproc = s.myproc := by rw [hr]; rfl
  have h3 : s'.outstanding = s.outstanding := by rw [hr]; rfl
  have h4 : s'.committing = s.committing := by rw [hr]; rfl
  rw [h1, h2, h3, h4]

end Laboratorio.Xv6
