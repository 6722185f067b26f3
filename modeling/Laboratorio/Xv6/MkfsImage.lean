import Laboratorio.Xv6.MkfsAppend

/-!
# The image that `mkfs` writes

`Built s fs` says that the inodes of the image are the files `fs`, in order from inode 1 on. Each
function of `mkfs.c` has a rule that says how the list changes; it fails only if the list does not
fit on the image (`Fit`).
-/

namespace Laboratorio.Xv6.Mkfs

open Function Laboratorio.Bytes Laboratorio.DiskProg Laboratorio.Wp

/-! ## Files on the image -/

/-- What an inode stands for. -/
@[ext] structure Node where
  type : Int16
  data : List UInt8

/-- The blocks of a file. -/
def Node.blocks (n : Node) : Nat := Mkfs.blocks (dataBlocks n.data.length)

theorem Node.blocks_empty (type : Int16) : Node.blocks ⟨type, []⟩ = 0 := by
  show Mkfs.blocks (dataBlocks 0) = 0
  decide

/-- The files fit on the image. -/
def Fit (fs : List Node) : Prop :=
  (∀ n ∈ fs, n.data.length ≤ maxfile * bsize) ∧ nmeta + (fs.map Node.blocks).sum ≤ fssize

/-- The bytes of an input file. -/
def Input.data (f : Input) : List UInt8 := bytes (f.content.getD [])

/-- The entries of the root directory. -/
def rootEntries (files : List Input) : List Dirent :=
  [.make [46] rootino, .make [46, 46] rootino] ++
    files.mapIdx fun j f => .make f.entry (j + rootino + 1)

/-- What the root directory holds. -/
def rootData (files : List Input) : List UInt8 := (rootEntries files).flatMap direntBytes

/-- What the inodes stand for. -/
def nodes (files : List Input) : List Node :=
  ⟨tDir, rootData files⟩ :: files.map fun f => ⟨tFile, f.data⟩

/-- The number of inodes in the inode blocks. -/
def areaSize : Nat := ninodeblocks * ipb

/-- An inode holds a file. -/
structure IsFile (v : Disk Blk) (d : Dinode) (n : Node) : Prop where
  type : d.type = n.type
  size : d.size = UInt32.ofNat n.data.length
  le : n.data.length ≤ maxfile * bsize
  holds : Holds v d n.data

/-- **The image holds the files `fs`**, in the order of their inodes. -/
structure Built (s : Image) (fs : List Node) : Prop where
  work : Work s (dinodeAt sb s.disk) fs.length
  freeinode : s.freeinode.toNat = fs.length + 1
  area : fs.length < areaSize
  file : ∀ i n, fs[i]? = some n → IsFile s.disk (dinodeAt sb s.disk (i + 1)) n
  super : s.disk 1 = sbBlock
  log : s.disk sb.logstart = Block.zero
  count : s.freeblock.toNat = nmeta + (fs.map Node.blocks).sum

variable {v v' : Disk Blk} {T T' : Nat → Dinode} {k i fb : Nat} {d d' : Dinode} {s s' : Image}
  {E : Abort → Prop} {fs pre post : List Node} {n : Node} {type : Int16} {data p : List UInt8}
  {Q : Unit → Image → Prop}

theorem IsFile.congr (h : IsFile v d n)
    (hv : ∀ p : Place, p.addr v d ≠ 0 → v' (p.addr v d).toNat = v (p.addr v d).toNat) :
    IsFile v' d n := ⟨h.type, h.size, h.le, h.holds.congr hv⟩

/-- Where the inode of an allocated number is. -/
theorem iblock_area (hi : i < areaSize) : 32 ≤ iblock sb i ∧ iblock sb i < 58 := by
  have h : i < 208 := hi
  have hstart : sb.inodestart = 32 := rfl
  rw [iblock, hstart]
  simp only [ipb]
  omega

/-! ## Inodes -/

theorem sector_iblock (hi : i < areaSize) :
    sector (UInt32.ofNat (iblock sb i)) = iblock sb i := by
  have := iblock_area hi
  have hnat : (UInt32.ofNat (iblock sb i)).toNat = iblock sb i :=
    UInt32.toNat_ofNat_of_lt' (by show _ < 2 ^ 32; omega)
  rw [sector_eq (by rw [hnat]; show _ ≤ 1000; omega), hnat]

theorem wp_winode {inum : UInt32} (hlen : s.len = fssize) (hi : inum.toNat < areaSize)
    (hQ : Q () { s with disk := updView sb s.disk inum.toNat d }) :
    wp (winode inum d) Q E s := by
  have harea := iblock_area hi
  have hlen' : s.len = 1000 := hlen
  unfold winode
  rw [wp_bind]
  refine wp_rsect (fun _ => ?_) fun hge => absurd hge ?_
  · rw [wp_wsect, sector_iblock hi, Nat.max_eq_left (by omega)]
    exact hQ
  · rw [sector_iblock hi]
    omega

theorem wp_rinode {inum : UInt32} (hlen : s.len = fssize) (hi : inum.toNat < areaSize)
    {Q : Dinode → Image → Prop} (hQ : Q (dinodeAt sb s.disk inum.toNat) s) :
    wp (rinode inum) Q E s := by
  have harea := iblock_area hi
  have hlen' : s.len = 1000 := hlen
  unfold rinode
  rw [wp_bind]
  refine wp_rsect (fun _ => ?_) fun hge => absurd hge ?_
  · rw [wp_pure, sector_iblock hi]
    exact hQ
  · rw [sector_iblock hi]
    omega

/-- The blocks behind the metadata are where they were. -/
theorem Laid.addr_eq (h : Laid v T k fb) (hv : ∀ b, nmeta ≤ b → v' b = v b) {j : Nat} (hj : 0 < j)
    (hjk : j ≤ k) (p : Place) : p.addr v' (T j) = p.addr v (T j) :=
  p.addr_congr fun hne => hv _ (h.range (p := .indirect) ⟨hj, hjk, hne, rfl⟩).1

/-- An inode that has no blocks is added. -/
theorem Laid.extend (h : Laid v T k fb) (hnew : ∀ n, (T (k + 1)).addr n = 0) :
    Laid v T (k + 1) fb := by
  have hused : ∀ {j p b}, Used v T (k + 1) j p b → Used v T k j p b := by
    intro j p b hu
    refine ⟨hu.pos, ?_, hu.ne, hu.addr⟩
    by_contra hgt
    have hj : j = k + 1 := by
      have := hu.le
      omega
    have haddr := hu.addr
    rw [hj, Place.addr_of_empty hnew] at haddr
    exact hu.ne haddr.symm
  refine ⟨h.first, h.last, fun hu => h.range (hused hu), fun hu hu' => h.once (hused hu) (hused hu'),
    fun h1 h2 => ?_, h.fresh⟩
  obtain ⟨j, p, hu⟩ := h.onto h1 h2
  exact ⟨j, p, hu.pos, hu.le.trans (Nat.le_succ k), hu.ne, hu.addr⟩

theorem updView_of_nmeta (hi : i < areaSize) {b : Nat} (hb : nmeta ≤ b ∨ b < 32) :
    updView sb v i d b = v b := by
  have hmeta : nmeta = 59 := rfl
  have := iblock_area hi
  exact update_of_ne (by omega) _ _

theorem updView_boot (v : Disk Blk) (hi : i < areaSize) (d : Dinode) :
    updView sb v i d 1 = v 1 ∧ updView sb v i d sb.logstart = v sb.logstart :=
  ⟨updView_of_nmeta hi (.inr (by decide)), updView_of_nmeta hi (.inr (by decide))⟩

theorem addr_newDinode (type : Int16) (n : Nat) : (newDinode type).addr n = 0 := by
  simp [newDinode, Dinode.ofType, Dinode.addr]

/-- An inode that has just been allocated is an empty file. -/
theorem isFile_newDinode (v : Disk Blk) (type : Int16) : IsFile v (newDinode type) ⟨type, []⟩ where
  type := rfl
  size := rfl
  le := Nat.zero_le _
  holds := by
    have haddr := Place.addr_of_empty (addr_newDinode type) v
    have hblk : ∀ n, blockAt v (newDinode type) n = 0 := fun n => haddr (.data n)
    have hnone : dataBlocks ([] : List UInt8).length = 0 := rfl
    refine ⟨?_, fun o => ?_⟩
    · rw [hnone]
      exact ⟨fun n => iff_of_false (fun hne => hne (hblk n)) (Nat.not_lt_zero n),
        iff_of_false (fun hne => hne (addr_newDinode type ndirect)) (Nat.not_lt_zero _)⟩
    · rw [byteAt, hblk, if_pos rfl]
      rfl

/-- The blocks of the inodes after one of them has been written. -/
theorem Laid.updView (h : Laid v (update (dinodeAt sb v) i d) k fb) (hi : i < areaSize) :
    Laid (updView sb v i d) (dinodeAt sb (updView sb v i d)) k fb := by
  have hv : ∀ b, nmeta ≤ b → Xv6.updView sb v i d b = v b := fun b hb => updView_of_nmeta hi (.inl hb)
  rw [dinodeAt_updView_eq]
  exact h.congr (fun j hj hjk p => h.addr_eq hv hj hjk p) fun b hb => hv b (h.first.trans hb)

theorem Laid.isFile (h : Laid v T k fb) (hv : ∀ b, nmeta ≤ b → v' b = v b) {j : Nat} (hj : 0 < j)
    (hjk : j ≤ k) (hf : IsFile v (T j) n) : IsFile v' (T j) n :=
  hf.congr fun _ hne => hv _ (h.range ⟨hj, hjk, hne, rfl⟩).1

/-- `ialloc` -/
theorem wp_ialloc (h : Built s fs) (hlt : fs.length + 1 < areaSize) {Q : UInt32 → Image → Prop}
    (hQ : ∀ s', Built s' (fs ++ [⟨type, []⟩]) → Q s.freeinode s') : wp (ialloc type) Q E s := by
  have harea : fs.length + 1 < 208 := hlt
  have hnum : s.freeinode.toNat < areaSize := by rw [h.freeinode]; exact hlt
  unfold ialloc
  rw [wp_bind, wp_get, wp_bind, wp_set, wp_bind]
  refine wp_winode (s := { s with freeinode := s.freeinode + 1 }) h.work.len hnum ?_
  rw [wp_pure]
  refine hQ _ ?_
  have hlength : (fs ++ [(⟨type, []⟩ : Node)]).length = fs.length + 1 := by simp
  have hlaid : Laid s.disk (update (dinodeAt sb s.disk) s.freeinode.toNat (newDinode type))
      (fs.length + 1) s.freeblock.toNat := by
    refine (h.work.laid.congr (fun j _ hjk p => ?_) fun _ _ => rfl).extend fun n => ?_
    · rw [update_of_ne (by rw [h.freeinode]; omega)]
    · rw [h.freeinode, update_self, addr_newDinode]
  refine ⟨⟨h.work.len, ?_⟩, ?_, ?_, fun i n hn => ?_, ?_, ?_, ?_⟩
  · rw [hlength]
    exact hlaid.updView hnum
  · show (s.freeinode + 1).toNat = _
    rw [hlength, toNat_succ (by rw [h.freeinode]; show _ ≤ 1000; omega), h.freeinode]
  · rw [hlength]
    exact hlt
  · show IsFile (updView sb s.disk s.freeinode.toNat _) (dinodeAt sb (updView sb s.disk
      s.freeinode.toNat _) (i + 1)) n
    have hi : i < fs.length + 1 := by
      rw [← hlength]
      exact (List.getElem?_eq_some_iff.mp hn).1
    rw [dinodeAt_updView_eq]
    refine hlaid.isFile (fun b hb => updView_of_nmeta hnum (.inl hb)) (Nat.succ_pos i) (by omega) ?_
    rw [h.freeinode]
    rcases Nat.lt_succ_iff_lt_or_eq.mp hi with hi | rfl
    · rw [update_of_ne (by omega)]
      rw [List.getElem?_append_left hi] at hn
      exact h.file i n hn
    · rw [update_self]
      rw [List.getElem?_concat_length] at hn
      cases hn
      exact isFile_newDinode _ _
  · exact (updView_boot s.disk hnum (newDinode type)).1.trans h.super
  · exact (updView_boot s.disk hnum (newDinode type)).2.trans h.log
  · rw [List.map_append, List.sum_append, List.map_singleton, List.sum_singleton, Node.blocks_empty]
    exact h.count

/-- The files fit when one of them has been extended. -/
theorem Fit.fits (hcount : fb = nmeta + ((pre ++ ⟨type, data⟩ :: post).map Node.blocks).sum)
    (hfit : Fit (pre ++ ⟨type, data ++ p⟩ :: post)) :
    Fits fb data.length (data.length + p.length) := by
  obtain ⟨hmax, hsum⟩ := hfit
  have hlen : (data ++ p).length = data.length + p.length := List.length_append
  have h1 := hmax ⟨type, data ++ p⟩ (by simp)
  simp only [List.map_append, List.map_cons, List.sum_append, List.sum_cons, Node.blocks, hlen]
    at hcount hsum h1
  exact ⟨h1, by omega⟩

/-- Only the size of an inode changes. -/
theorem Holds.setSize (h : Holds v d data) (x : UInt32) : Holds v { d with size := x } data :=
  ⟨⟨h.mapped.data, h.mapped.indirect⟩, h.bytes⟩

theorem Place.addr_setSize (v : Disk Blk) (d : Dinode) (x : UInt32) (p : Place) :
    p.addr v { d with size := x } = p.addr v d := by
  cases p <;> rfl

/-- The image after `iappend` has written the inode back. -/
theorem Built.appended (h : Built s (pre ++ ⟨type, data⟩ :: post)) {d' : Dinode}
    (happ : Appended s (dinodeAt sb s.disk) (pre ++ ⟨type, data⟩ :: post).length (pre.length + 1) data
      (data ++ p) d' s')
    (hle : data.length + p.length ≤ maxfile * bsize) :
    Built { s' with
        disk := updView sb s'.disk (pre.length + 1)
          { d' with size := UInt32.ofNat (data.length + p.length) } }
      (pre ++ ⟨type, data ++ p⟩ :: post) := by
  have hlength : (pre ++ (⟨type, data ++ p⟩ : Node) :: post).length =
      (pre ++ (⟨type, data⟩ : Node) :: post).length := by simp
  have hi : pre.length + 1 ≤ (pre ++ (⟨type, data⟩ : Node) :: post).length := by simp
  have harea : pre.length + 1 < areaSize := lt_of_le_of_lt hi h.area
  have hfile := h.file pre.length ⟨type, data⟩ (by simp)
  have hk := h.area
  have hfree := h.freeinode
  generalize (pre ++ (⟨type, data⟩ : Node) :: post).length = k at *
  generalize hd : { d' with size := UInt32.ofNat (data.length + p.length) } = d
  -- the inodes on the disk are as before
  have htable : ∀ j, j ≤ k → dinodeAt sb s'.disk j = dinodeAt sb s.disk j := by
    intro j hj
    have hmeta : nmeta = 59 := rfl
    have := iblock_area (lt_of_le_of_lt hj hk)
    rw [dinodeAt, dinodeAt, happ.below _ (by omega)]
  have hlaid : Laid s'.disk (update (dinodeAt sb s'.disk) (pre.length + 1) d) k
      s'.freeblock.toNat := by
    refine happ.work.laid.congr (fun j _ hjk q => ?_) fun _ _ => rfl
    by_cases hj : j = pre.length + 1
    · subst hj
      rw [update_self, update_self, ← hd, Place.addr_setSize]
    · rw [update_of_ne hj, update_of_ne hj, htable j hjk]
  have hnew : IsFile s'.disk d ⟨type, data ++ p⟩ := by
    refine ⟨?_, ?_, ?_, ?_⟩
    · rw [← hd, happ.fields]
      exact hfile.type
    · rw [← hd, List.length_append]
    · rw [List.length_append]
      exact hle
    · rw [← hd]
      exact happ.holds.setSize _
  refine ⟨⟨happ.work.len, ?_⟩, ?_, ?_, fun j n hn => ?_, ?_, ?_, ?_⟩
  · rw [hlength]
    exact hlaid.updView harea
  · rw [hlength]
    exact (congrArg UInt32.toNat happ.freeinode).trans hfree
  · rw [hlength]
    exact hk
  · show IsFile (updView sb s'.disk _ d) (dinodeAt sb (updView sb s'.disk _ d) (j + 1)) n
    have hj : j < k := by
      rw [← hlength]
      exact (List.getElem?_eq_some_iff.mp hn).1
    rw [dinodeAt_updView_eq]
    refine hlaid.isFile (fun b hb => updView_of_nmeta harea (.inl hb)) (Nat.succ_pos j) hj ?_
    by_cases hji : j = pre.length
    · subst hji
      rw [update_self]
      rw [List.getElem?_append_right le_rfl, Nat.sub_self, List.getElem?_cons_zero] at hn
      cases hn
      exact hnew
    · rw [update_of_ne (by omega), htable _ hj]
      have hold : (pre ++ ⟨type, data⟩ :: post)[j]? = some n := by
        rw [← hn]
        grind
      refine (h.file j n hold).congr fun q hne => ?_
      exact happ.frame ⟨Nat.succ_pos j, hj, hne, rfl⟩ (by omega)
  · exact (updView_boot s'.disk harea d).1.trans ((happ.below 1 (by decide)).trans h.super)
  · exact (updView_boot s'.disk harea d).2.trans
      ((happ.below sb.logstart (by decide)).trans h.log)
  · have hcount := happ.count
    have hbefore := h.count
    simp only [List.map_append, List.map_cons, List.sum_append, List.sum_cons, Node.blocks]
      at hbefore ⊢
    omega

/-- **`iappend`**: the bytes are added to one of the files. -/
theorem wp_iappend (pre : List Node) {inum : UInt32} (h : Built s (pre ++ ⟨type, data⟩ :: post))
    (hnum : inum.toNat = pre.length + 1)
    (hQ : ∀ s', Built s' (pre ++ ⟨type, data ++ p⟩ :: post) → Q () s')
    (hE : ¬ Fit (pre ++ ⟨type, data ++ p⟩ :: post) → ∀ e, E e) : wp (iappend inum p) Q E s := by
  have hi : pre.length + 1 ≤ (pre ++ (⟨type, data⟩ : Node) :: post).length := by simp
  have harea : inum.toNat < areaSize := hnum ▸ lt_of_le_of_lt hi h.area
  have hfile := h.file pre.length ⟨type, data⟩ (by simp)
  unfold iappend
  rw [wp_bind]
  refine wp_rinode h.work.len harea ?_
  rw [wp_bind, hnum, hfile.size]
  refine wp_appendFrom p.length le_rfl (Nat.succ_pos _) hi h.work hfile.holds hfile.le
    (fun d' s' happ hle => ?_) fun hfits => hE fun hfit => hfits (hfit.fits h.count)
  refine wp_winode happ.work.len harea ?_
  rw [hnum]
  exact hQ _ (h.appended happ hle)

/-! ## The root directory and the files -/

theorem length_nodes (files : List Input) : (nodes files).length = files.length + 1 := by
  simp [nodes]

theorem length_direntBytes (de : Dirent) : (direntBytes de).length = dirent.size := by
  simp [direntBytes]

theorem length_rootEntries (files : List Input) : (rootEntries files).length = files.length + 2 := by
  simp [rootEntries]

theorem length_rootData (files : List Input) :
    (rootData files).length = dirent.size * (files.length + 2) := by
  rw [rootData, List.length_flatMap, ← length_rootEntries files]
  simp [length_direntBytes, Nat.mul_comm]

theorem rootData_concat (files : List Input) (f : Input) :
    rootData (files ++ [f]) =
      rootData files ++ direntBytes (.make f.entry (files.length + rootino + 1)) := by
  simp [rootData, rootEntries, List.mapIdx_concat]

/-- What fits with more bytes in a file fits without them. -/
theorem Fit.shrink (pre : List Node) (h : Fit (pre ++ ⟨type, data ++ p⟩ :: post)) :
    Fit (pre ++ ⟨type, data⟩ :: post) := by
  have hlen : data.length ≤ (data ++ p).length := by simp
  have hblocks : Node.blocks ⟨type, data⟩ ≤ Node.blocks ⟨type, data ++ p⟩ :=
    blocks_mono (Nat.div_le_div_right (Nat.add_le_add_right hlen _))
  obtain ⟨hmax, hsum⟩ := h
  refine ⟨fun n hn => ?_, ?_⟩
  · rw [List.mem_append, List.mem_cons] at hn
    rcases hn with hn | rfl | hn
    · exact hmax n (by simp [hn])
    · exact hlen.trans (hmax ⟨type, data ++ p⟩ (by simp))
    · exact hmax n (by simp [hn])
  · simp only [List.map_append, List.map_cons, List.sum_append, List.sum_cons] at hsum ⊢
    omega

/-- The first files fit. -/
theorem Fit.of_append {fs' : List Node} (h : Fit (fs ++ fs')) : Fit fs := by
  obtain ⟨hmax, hsum⟩ := h
  rw [List.map_append, List.sum_append] at hsum
  exact ⟨fun n hn => hmax n (List.mem_append_left _ hn), by omega⟩

theorem Fit.nodes {files files' : List Input} (h : Fit (nodes (files ++ files'))) :
    Fit (nodes files) := by
  induction files' using List.reverseRecOn with
  | nil => rwa [List.append_nil] at h
  | append_singleton files' f ih =>
    refine ih ?_
    rw [← List.append_assoc, Mkfs.nodes, rootData_concat] at h
    have h' := Fit.shrink [] h
    rw [List.map_append, List.nil_append, ← List.cons_append] at h'
    exact h'.of_append

/-! ## `main` -/

/-- The empty image of `n` sectors. -/
def Image.empty (n : Nat) : Image where
  disk _ := Block.zero
  len := n
  freeinode := 1
  freeblock := UInt32.ofNat nmeta

/-- The image when the super block has been written. -/
def Image.formatted : Image where
  disk := update (fun _ => Block.zero) 1 sbBlock
  len := fssize
  freeinode := 1
  freeblock := UInt32.ofNat nmeta

theorem built_formatted : Built Image.formatted [] where
  work := by
    refine ⟨rfl, ⟨le_rfl, by decide, fun hu => ?_, fun hu => ?_, fun h1 h2 => ?_, fun b hb => ?_⟩⟩
    · exact absurd hu.le (Nat.not_le_of_lt hu.pos)
    · exact absurd hu.le (Nat.not_le_of_lt hu.pos)
    · exact absurd h2 (Nat.not_lt_of_le h1)
    · have hb' : 59 ≤ b := hb
      have hne : b ≠ 1 := by omega
      simp [Image.formatted, hne]
  freeinode := rfl
  area := by decide
  file i n hn := by simp at hn
  super := by simp [Image.formatted]
  log := by
    have hne : sb.logstart ≠ 1 := by decide
    simp [Image.formatted, hne]
  count := rfl

/-- The loop that clears the first `n` sectors. -/
theorem wp_clear {n : Nat} (hn : n ≤ fssize) :
    wp ((List.range n).forM fun i => wsect (UInt32.ofNat i) Block.zero)
      (fun _ s' => s' = Image.empty n) E Image.start := by
  have hloop : wp ((List.range n).forM fun i => wsect (UInt32.ofNat i) Block.zero)
      (fun _ s' => s' = Image.empty (List.range n).length) E Image.start := by
    refine wp_forM (fun done s => s = Image.empty done.length) _ (fun pre x post hl s hs => ?_) rfl
    have hget : (List.range n)[pre.length]? = some x := by simp [hl]
    obtain ⟨hlt, hx⟩ := List.getElem?_eq_some_iff.mp hget
    rw [List.getElem_range] at hx
    rw [List.length_range] at hlt
    have hn' : n ≤ 1000 := hn
    have hnat : (UInt32.ofNat x).toNat = x := UInt32.toNat_ofNat_of_lt' (by show _ < 2 ^ 32; omega)
    have hsec : sector (UInt32.ofNat x) = x := by
      rw [sector_eq (by rw [hnat]; show _ ≤ 1000; omega), hnat]
    rw [wp_wsect, hsec, hs, ← hx]
    simp [Image.empty]
  rwa [List.length_range] at hloop

theorem wp_format (hQ : ∀ s', Built s' [] → Q () s') :
    wp format Q E Image.start := by
  have hsec : sector 1 = 1 := sector_eq (by decide)
  unfold format
  -- with a number in its place the loop would be run
  generalize hn : fssize = n
  refine wp_then (wp_clear hn.ge) (fun _ s' hs' => ?_)
  have hlen : max fssize (1 + 1) = fssize := by decide
  rw [wp_wsect, hs', hsec, Image.empty, ← hn, hlen]
  exact hQ _ built_formatted

/-- The two entries that `makeRoot` writes. -/
theorem wp_makeRoot (h : Built s []) {Q : UInt32 → Image → Prop}
    (hQ : ∀ root s', root.toNat = rootino → Built s' (nodes []) → Q root s')
    (hE : ¬ Fit (nodes []) → ∀ e, E e) : wp makeRoot Q E s := by
  have hnum : s.freeinode.toNat = rootino := h.freeinode
  unfold makeRoot
  rw [wp_bind]
  refine wp_ialloc h (by decide) fun s₁ h₁ => ?_
  rw [if_pos hnum, hnum, wp_bind]
  refine wp_iappend [] h₁ hnum (fun s₂ h₂ => ?_) fun hfit => hE fun hall => hfit ?_
  · rw [wp_bind]
    refine wp_iappend [] h₂ hnum (fun s₃ h₃ => ?_) fun hfit => hE fun hall => hfit ?_
    · exact hQ _ s₃ hnum h₃
    · exact hall
  · exact Fit.shrink [] hall

/-- **One round of the loop of `main`**: a file is added. -/
theorem wp_addFile {files : List Input} {f : Input} {root : UInt32} (h : Built s (nodes files))
    (hroot : root.toNat = rootino) (harea : files.length + 2 < areaSize)
    (hQ : ∀ s', Built s' (nodes (files ++ [f])) → Q () s') (hslash : slash ∈ f.name → E .slash)
    (hnone : f.content = none → E .noFile) (hE : ¬ Fit (nodes (files ++ [f])) → ∀ e, E e) :
    wp (addFile root f) Q E s := by
  unfold addFile
  split
  · next hs => exact hslash hs
  · next hs =>
    cases hc : f.content with
    | none => exact hnone hc
    | some chunks =>
      have hnum : s.freeinode.toNat = files.length + rootino + 1 := by
        rw [h.freeinode, length_nodes]
      have hdata : f.data = bytes chunks := by rw [Input.data, hc]; rfl
      have hnodes : nodes (files ++ [f]) =
          ⟨tDir, rootData (files ++ [f])⟩ :: files.map (fun f => ⟨tFile, f.data⟩) ++
            ⟨tFile, bytes chunks⟩ :: [] := by
        rw [nodes, List.map_append, List.map_singleton, hdata, List.cons_append]
      rw [rootData_concat] at hnodes
      rw [hnodes] at hQ hE
      show wp (ialloc tFile >>= _) _ _ _
      rw [wp_bind]
      refine wp_ialloc h (by rw [length_nodes]; exact harea) fun s₁ h₁ => ?_
      rw [wp_bind, hnum]
      refine wp_iappend [] h₁ hroot (fun s₂ h₂ => ?_) fun hfit => hE fun hall => hfit ?_
      · -- the bytes of the file, chunk by chunk
        have hloop : wp (chunks.forM fun c => iappend s.freeinode c.1)
            (fun _ s' => Built s' (⟨tDir, rootData files ++
                direntBytes (.make f.entry (files.length + rootino + 1))⟩ ::
              files.map (fun f => ⟨tFile, f.data⟩) ++ ⟨tFile, bytes chunks⟩ :: [])) E s₂ := by
          refine wp_forM (fun done s' => Built s' (⟨tDir, rootData files ++
                direntBytes (.make f.entry (files.length + rootino + 1))⟩ ::
              files.map (fun f => ⟨tFile, f.data⟩) ++ ⟨tFile, bytes done⟩ :: [])) chunks
            (fun done c rest hl s₃ h₃ => ?_) h₂
          have hdone : bytes (done ++ [c]) = bytes done ++ c.1 := by simp [bytes]
          have hall : bytes chunks = bytes done ++ c.1 ++ bytes rest := by simp [hl, bytes]
          rw [hall] at hE
          rw [hdone]
          refine wp_iappend _ h₃ ?_ (fun s₄ h₄ => h₄) fun hfit => hE fun hall => hfit (hall.shrink _)
          simp [hnum]
        exact wp_post hloop (fun _ s' => hQ s')
      · have hempty : Fit (_ ++ ⟨tFile, [] ++ bytes chunks⟩ :: []) := hall
        exact hempty.shrink _

/-! ## The finished image -/

/-- The size of the root directory that the end of `main` writes. -/
def roundedSize (n : Node) : UInt32 := UInt32.ofNat ((n.data.length / bsize + 1) * bsize)

/-- **The image at the end**: the files `fs`, the size of the root directory rounded up, and the
blocks below `fb` marked as used. -/
structure Finished (v : Disk Blk) (fb : Nat) (fs : List Node) : Prop where
  laid : Laid v (dinodeAt sb v) fs.length fb
  area : fs.length < areaSize
  file : ∀ i n, 0 < i → fs[i]? = some n → IsFile v (dinodeAt sb v (i + 1)) n
  root : ∀ n, fs[0]? = some n → ∃ d, IsFile v d n ∧ dinodeAt sb v 1 = { d with size := roundedSize n }
  bitmap : ∀ b < bpb, bitOf (v sb.bmapstart) b = decide (b < fb)
  super : v 1 = sbBlock
  log : v sb.logstart = Block.zero

/-- The first `used` bits are set. -/
theorem bitOf_bitmap {used : Nat} (h : used ≤ bpb) (b : Nat) :
    bitOf (bitmap used) b = decide (b < used) := by
  induction used with
  | zero =>
    show bitOf Block.zero b = false
    simp [bitOf_eq]
  | succ used ih =>
    have hsucc : bitmap (used + 1) = setBit (bitmap used) used := by
      simp [bitmap, List.range_succ]
    rw [hsucc, bitOf_setBit _ _ (by omega), ih (by omega), Bool.eq_iff_iff]
    simp only [Bool.or_eq_true, decide_eq_true_eq]
    omega

theorem toNat_roundedSize (h : n.data.length ≤ maxfile * bsize) :
    (roundedSize n).toNat = (n.data.length / bsize + 1) * bsize := by
  have hle : n.data.length ≤ 71680 := h
  exact UInt32.toNat_ofNat_of_lt' (by show (_ / 512 + 1) * 512 < 2 ^ 32; omega)

theorem IsFile.toNat_size (h : IsFile v d n) : d.size.toNat = n.data.length := by
  have hle : n.data.length ≤ 71680 := h.le
  rw [h.size]
  exact UInt32.toNat_ofNat_of_lt' (by show _ < 2 ^ 32; omega)

theorem roundedSize_eq {size : UInt32} (hsize : size = UInt32.ofNat n.data.length)
    (hle : n.data.length ≤ maxfile * bsize) :
    (size / UInt32.ofNat bsize + 1) * UInt32.ofNat bsize = roundedSize n := by
  have hle' : n.data.length ≤ 71680 := hle
  have hnat : (UInt32.ofNat n.data.length).toNat = n.data.length :=
    UInt32.toNat_ofNat_of_lt' (by show _ < 2 ^ 32; omega)
  have hb : (UInt32.ofNat bsize).toNat = 512 := rfl
  have h1 : (1 : UInt32).toNat = 1 := rfl
  have hdiv : n.data.length / 512 ≤ n.data.length := Nat.div_le_self _ _
  rw [← UInt32.toNat_inj, roundedSize, hsize, UInt32.toNat_mul, UInt32.toNat_add, UInt32.toNat_div,
    hnat, hb, h1, UInt32.toNat_ofNat']
  simp only [bsize]
  omega

/-- The bitmap is written over no inode and no file. -/
theorem dinodeAt_bitmap (v : Disk Blk) (w : Blk) (hi : i < areaSize) :
    dinodeAt sb (update v sb.bmapstart w) i = dinodeAt sb v i := by
  have hstart : sb.bmapstart = 58 := rfl
  have := iblock_area hi
  rw [dinodeAt, dinodeAt, update_of_ne (by omega)]

/-- The image after the end of `main` has written the root inode and the bitmap. -/
theorem Built.finished (h : Built s (n :: post)) :
    Finished (update (updView sb s.disk 1
      { dinodeAt sb s.disk 1 with size := roundedSize n }) sb.bmapstart (bitmap s.freeblock.toNat))
      s.freeblock.toNat (n :: post) := by
  generalize hd : { dinodeAt sb s.disk 1 with size := roundedSize n } = d
  generalize hw : bitmap s.freeblock.toNat = w
  have hlast : s.freeblock.toNat ≤ 1000 := h.work.laid.last
  have hstart : sb.bmapstart = 58 := rfl
  have hmeta : nmeta = 59 := rfl
  have h1 : 1 < areaSize := by decide
  -- the disk after the two writes
  have hv : ∀ b, nmeta ≤ b → update (updView sb s.disk 1 d) sb.bmapstart w b = s.disk b := by
    intro b hb
    rw [update_of_ne (by omega), updView_of_nmeta h1 (.inl hb)]
  have htable : ∀ j < areaSize, dinodeAt sb (update (updView sb s.disk 1 d)
      sb.bmapstart w) j = update (dinodeAt sb s.disk) 1 d j := by
    intro j hj
    rw [dinodeAt_bitmap _ _ hj, dinodeAt_updView_eq]
  have harea : ∀ j, j ≤ (n :: post).length → j < areaSize := fun j hj =>
    lt_of_le_of_lt hj h.area
  refine ⟨?_, h.area, fun i m hi hm => ?_, fun m hm => ?_, fun b hb => ?_, ?_, ?_⟩
  · refine h.work.laid.congr (fun j hj hjk p => ?_) fun b hb => hv b (h.work.laid.first.trans hb)
    have haddr := h.work.laid.addr_eq hv hj hjk p
    rw [htable j (harea j hjk)]
    by_cases hj1 : j = 1
    · rw [hj1] at haddr ⊢
      rw [update_self, ← haddr, ← hd, Place.addr_setSize]
    · rw [update_of_ne hj1]
      exact haddr
  · have hlt : i < (n :: post).length := (List.getElem?_eq_some_iff.mp hm).1
    rw [htable _ (harea _ hlt), update_of_ne (by omega)]
    exact h.work.laid.isFile hv (Nat.succ_pos i) hlt (h.file i m hm)
  · refine ⟨dinodeAt sb s.disk 1, ?_, ?_⟩
    · exact h.work.laid.isFile hv one_pos (by simp) (h.file 0 m hm)
    · rw [htable 1 h1, update_self, ← hd]
      cases hm
      rfl
  · rw [update_self, ← hw]
    exact bitOf_bitmap (by show _ ≤ 4096; omega) b
  · rw [update_of_ne (by decide)]
    exact (updView_boot s.disk h1 d).1.trans h.super
  · rw [update_of_ne (by decide)]
    exact (updView_boot s.disk h1 d).2.trans h.log

theorem wp_balloc {used : Nat} (h : used ≤ fssize)
    (hQ : Q () { s with
      disk := update s.disk sb.bmapstart (bitmap used)
      len := max s.len (sb.bmapstart + 1) }) : wp (balloc used) Q E s := by
  have hlt : used < bsize * 8 := lt_of_le_of_lt h (by decide)
  have hsec : sector (UInt32.ofNat sb.bmapstart) = sb.bmapstart := sector_eq (by decide)
  rw [balloc, if_pos hlt, wp_wsect, hsec]
  exact hQ

/-- The end of `main`. -/
theorem wp_finish {root : UInt32} (h : Built s (n :: post)) (hroot : root.toNat = rootino)
    (hQ : ∀ s', Finished s'.disk s'.freeblock.toNat (n :: post) → Q () s') :
    wp (finish root) Q E s := by
  have harea : root.toNat < areaSize := by rw [hroot]; decide
  have hfile := h.file 0 n rfl
  unfold finish
  rw [wp_bind]
  refine wp_rinode h.work.len harea ?_
  rw [wp_bind, hroot, roundedSize_eq hfile.size hfile.le]
  refine wp_winode h.work.len harea ?_
  rw [wp_bind, wp_get, hroot]
  exact wp_balloc h.work.laid.last (hQ _ h.finished)

/-- **`main`** writes the image of its files, or they do not fit. -/
theorem wp_main {files : List Input} (harea : files.length + 1 < areaSize)
    (hslash : ∀ f ∈ files, slash ∈ f.name → E .slash)
    (hnone : ∀ f ∈ files, f.content = none → E .noFile) (hE : ¬ Fit (nodes files) → ∀ e, E e) :
    wp (main files) (fun _ s' => Finished s'.disk s'.freeblock.toNat (nodes files)) E
      Image.start := by
  have hfit : ∀ {pre post : List Input}, files = pre ++ post → ¬ Fit (nodes pre) → ∀ e, E e := by
    intro pre post hl hnot
    refine hE fun hall => hnot ?_
    rw [hl] at hall
    exact hall.nodes
  unfold main
  rw [wp_bind]
  refine wp_format fun s₁ h₁ => ?_
  rw [wp_bind]
  refine wp_makeRoot h₁ (fun root s₂ hroot h₂ => ?_) (hfit (List.nil_append files).symm)
  rw [wp_bind]
  have hloop : wp (files.forM (addFile root)) (fun _ s' => Built s' (nodes files)) E s₂ := by
    refine wp_forM (fun done s' => Built s' (nodes done)) files (fun pre f post hl s h => ?_) h₂
    have hlen : files.length = pre.length + post.length + 1 := by simp [hl]; omega
    have hmem : f ∈ files := by simp [hl]
    refine wp_addFile h hroot (by omega) (fun s' h' => h') (hslash f hmem) (hnone f hmem) ?_
    exact hfit (by rw [hl, List.append_assoc, List.singleton_append])
  refine wp_post hloop (fun _ s₃ h₃ => ?_)
  exact wp_finish h₃ hroot fun s' h' => h'

end Laboratorio.Xv6.Mkfs
