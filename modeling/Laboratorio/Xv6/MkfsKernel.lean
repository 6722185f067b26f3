import Laboratorio.Xv6.Dir
import Laboratorio.Xv6.MkfsConsistent

/-!
# The kernel on an image that `mkfs` has written

`Finished` describes the image, and here the kernel reads it: `readsb` finds the super block that
`mkfs` used, recovery has nothing to install, `dirlookup` walks the entries of the root directory and
`readi` returns the bytes of the files. The last block of the root directory may be missing; the
lookup of a name that is there ends before it.
-/

namespace Laboratorio.Xv6.Mkfs

open Function Laboratorio.Bytes Laboratorio.DiskProg Laboratorio.Wp Laboratorio.Scan

/-! ## Boot -/

/-- `readsb` -/
def readsb (v : Disk Blk) : Superblock where
  size := (word (v 1) 0).toNat
  nblocks := (word (v 1) 1).toNat
  ninodes := (word (v 1) 2).toNat
  nlog := (word (v 1) 3).toNat
  logstart := (word (v 1) 4).toNat
  inodestart := (word (v 1) 5).toNat
  bmapstart := (word (v 1) 6).toNat

/-- The kernel after `iinit` and `initlog` on the disk `v`. No inode has been read, and at most the
one of the root directory, the `cwd` of the first process, is in the cache. -/
structure Booted (c : Config) (v : Disk Blk) (st : St) : Prop where
  super : c.sb = readsb v
  mem : st.mem = ((recoverFromLog c.log).run (Mem.boot v)).2
  cache : ∀ ip, 0 < (st.icache ip).ref → (st.icache ip).dev = rootdev ∧
    (st.icache ip).inum = rootino ∧ ip = 0
  idle : ∀ ip, (st.icache ip).lock = none ∧ (st.icache ip).valid = false

theorem readsb_eq {v : Disk Blk} (h : v 1 = sbBlock) : readsb v = sb := by
  rw [readsb, h, sb, Superblock.mk.injEq]
  decide +kernel

variable {c : Config} {v : Disk Blk} {st s : St} {fb : Nat} {fs : List Node} {E : Fault → Prop}

theorem Booted.sb_eq (h : Booted c v st) (hfin : Finished v fb fs) : c.sb = sb :=
  h.super.trans (readsb_eq hfin.super)

/-- Recovery rewrites the empty header of the log. -/
theorem Booted.view_eq (h : Booted c v st) (hfin : Finished v fb fs) {b : Nat}
    (hb : sb.inodestart ≤ b) : st.view b = v b := by
  have hlog : c.log.start = sb.logstart := congrArg Superblock.logstart (h.sb_eq hfin)
  have hhead : headerBlocks (v c.log.start) = [] := by
    rw [hlog, hfin.log]
    exact headerBlocks_of_zero (word_zero 0)
  have hrun : ((recoverFromLog c.log).run (Mem.boot v)).2 =
      ((writeHead c.log []).run (Mem.boot v)).2 := by
    have hread : (readHead c.log).run (Mem.boot v) = ([], Mem.boot v) := by
      show (headerBlocks (v c.log.start), _) = _
      rw [hhead]
    rw [recoverFromLog, Prog.run_bind, hread]
    rfl
  have hne : b ≠ c.log.start := by
    have hb' : 32 ≤ b := hb
    have hstart : sb.logstart = 2 := rfl
    omega
  show st.mem.view b = v b
  rw [h.mem, hrun, run_writeHead, Mem.view_write, update_of_ne hne, Mem.view_boot]

/-- The inodes and files of the image, as the kernel sees them. -/
theorem Booted.dinodeAt_eq (h : Booted c v st) (hfin : Finished v fb fs) {i : Nat}
    (hi : i ≤ fs.length) : dinodeAt c.sb st.view i = dinodeAt sb v i := by
  have harea := iblock_area (lt_of_le_of_lt hi hfin.area)
  rw [h.sb_eq hfin, dinodeAt, dinodeAt, h.view_eq hfin harea.1]

theorem Booted.isFile (h : Booted c v st) (hfin : Finished v fb fs) {i : Nat} {n : Node} (hi : 0 < i)
    (hn : fs[i]? = some n) : IsFile st.view (dinodeAt c.sb st.view (i + 1)) n := by
  have hlt : i < fs.length := (List.getElem?_eq_some_iff.mp hn).1
  rw [h.dinodeAt_eq hfin hlt]
  refine hfin.laid.isFile (fun b hb => h.view_eq hfin ?_) (Nat.succ_pos i) hlt (hfin.file i n hi hn)
  exact le_trans (by decide) hb

theorem Booted.isRoot (h : Booted c v st) (hfin : Finished v fb fs) {n : Node}
    (hn : fs[0]? = some n) : ∃ d, IsFile st.view d n ∧
      dinodeAt c.sb st.view rootino = { d with size := roundedSize n } := by
  have hlt : 0 < fs.length := (List.getElem?_eq_some_iff.mp hn).1
  obtain ⟨d, hd, hroot⟩ := hfin.root n hn
  refine ⟨d, hd.congr fun p hne => h.view_eq hfin ?_, (h.dinodeAt_eq hfin hlt).trans hroot⟩
  have haddr : p.addr v (dinodeAt sb v 1) = p.addr v d := by rw [hroot, Place.addr_setSize]
  have hu : Used v (dinodeAt sb v) fs.length 1 p (p.addr v d) := ⟨one_pos, hlt, hne, haddr⟩
  exact le_trans (by decide) (hfin.laid.range hu).1

/-! ## The inode cache -/

/-- `iget` of an inode that is not in the cache, which is not full. -/
theorem wp_iget_new {dev inum : Nat}
    (hnone : ∀ ip, 0 < (s.icache ip).ref → (s.icache ip).dev = dev → (s.icache ip).inum ≠ inum)
    (hfree : ∃ ip, (s.icache ip).ref = 0) {Q : Fin ninode → St → Prop}
    (hQ : ∀ ip, (s.icache ip).ref = 0 → Q ip { s with
      icache := update s.icache ip
        { s.icache ip with dev := dev, inum := inum, ref := 1, valid := false } }) :
    wp (iget dev inum) Q E s := by
  refine wp_iget (fun hfull => ?_) fun k hk => ?_
  · obtain ⟨ip, hip⟩ := hfree
    exact absurd hip (entryFor_eq_none hfull ip)
  · rcases entryFor_eq_some hk with ⟨href, hdev, hinum⟩ | h0
    · exact absurd hinum (hnone k href hdev)
    · rw [Inode.grab, if_pos h0]
      exact hQ k h0

/-- `ilock` of an inode that has not been read yet. -/
theorem wp_ilock_new {ip : Fin ninode} (href : 0 < (s.icache ip).ref)
    (hlock : (s.icache ip).lock = none) (hvalid : (s.icache ip).valid = false)
    (htype : (dinodeAt c.sb s.view (s.icache ip).inum).type ≠ 0) {Q : Unit → St → Prop}
    (hQ : ∀ s', s'.view = s.view → s'.icache = update s.icache ip
      { s.icache ip with
        lock := some s.myproc, valid := true, copy := dinodeAt c.sb s.view (s.icache ip).inum } →
      Q () s') : wp (ilock c ip) Q E s := by
  unfold ilock acquiresleep
  simp only [wp_bind, wp_inode]
  rw [if_neg (by omega)]
  simp only [wp_bind, wp_get]
  rw [hlock]
  simp only [wp_modifyInode]
  rw [if_pos hvalid]
  simp only [wp_bind, wp_bread, wp_modifyInode]
  split
  · next ht => exact absurd ht htype
  · simp only [wp_pure, update_self, update_idem]
    exact hQ _ rfl rfl

/-- Entry `dp` of the cache is the root directory, and nothing else is in the cache. -/
structure OnlyRoot (s : St) (dp : Fin ninode) : Prop where
  ref : 0 < (s.icache dp).ref
  dev : (s.icache dp).dev = rootdev
  inum : (s.icache dp).inum = rootino
  others : ∀ ip, ip ≠ dp → (s.icache ip).ref = 0 ∧ (s.icache ip).lock = none

/-- The root directory is looked up in the cache and locked. -/
theorem wp_lockRoot (h : Booted c v st) (htype : (dinodeAt c.sb st.view rootino).type ≠ 0)
    {Q : Fin ninode → St → Prop}
    (hQ : ∀ dp s', OnlyRoot s' dp → s'.view = st.view →
      (s'.icache dp).copy = dinodeAt c.sb st.view rootino → Q dp s') :
    wp (iget rootdev rootino) (fun dp s' => wp (ilock c dp) (fun _ s'' => Q dp s'') E s') E st := by
  have hlock : ∀ (dp : Fin ninode) (x : Inode), 0 < x.ref → x.dev = rootdev → x.inum = rootino →
      x.lock = none → x.valid = false → (∀ ip, ip ≠ dp → (st.icache ip).ref = 0) →
      wp (ilock c dp) (fun _ s' => Q dp s') E { st with icache := update st.icache dp x } := by
    intro dp x href hdev hinum hfree hnew hothers
    refine wp_ilock_new ?_ ?_ ?_ ?_ fun s' hview hcache => ?_
    · simpa using href
    · simpa using hfree
    · simpa using hnew
    · simpa [hinum] using htype
    · refine hQ dp s' ⟨?_, ?_, ?_, fun ip hip => ?_⟩ hview ?_
      · simpa [hcache] using href
      · simpa [hcache] using hdev
      · simpa [hcache] using hinum
      · simpa [hcache, hip] using ⟨hothers ip hip, (h.idle ip).1⟩
      · simp [hcache, hinum]
  by_cases hroot : 0 < (st.icache 0).ref
  · -- the first process has its `cwd`
    obtain ⟨hdev, hinum, -⟩ := h.cache 0 hroot
    unfold iget
    simp only [wp_bind, wp_get]
    have hfirst : first (fun ip => decide (0 < (st.icache ip).ref ∧
        (st.icache ip).dev = rootdev ∧ (st.icache ip).inum = rootino)) = some 0 := by
      rw [first_eq_some]
      exact ⟨decide_eq_true ⟨hroot, hdev, hinum⟩, fun j hj => absurd hj (Fin.not_lt_zero j)⟩
    rw [hfirst]
    simp only [wp_bind, wp_modifyInode, wp_pure]
    refine hlock 0 { st.icache 0 with ref := (st.icache 0).ref + 1 } (Nat.succ_pos _) hdev hinum
      (h.idle 0).1 (h.idle 0).2 fun ip hip => ?_
    by_contra hne
    exact hip (h.cache ip (Nat.pos_of_ne_zero hne)).2.2
  · have hall : ∀ ip, (st.icache ip).ref = 0 := by
      intro ip
      by_contra hne
      have hpos := Nat.pos_of_ne_zero hne
      rw [(h.cache ip hpos).2.2] at hpos
      exact hroot hpos
    refine wp_iget_new (fun ip href => absurd href (by rw [hall ip]; omega)) ⟨0, hall 0⟩
      fun ip _ => ?_
    exact hlock ip _ one_pos rfl rfl (h.idle ip).1 rfl fun j _ => hall j

/-! ## The entries of the root directory -/

/-- The bytes of an array of entries. -/
theorem getD_direntBytes (es : List Dirent) {k : Nat} (hk : k < es.length) {i : Nat}
    (hi : i < dirent.size) :
    (es.flatMap direntBytes).getD (dirent.size * k + i) 0 = dirent.enc es[k] i := by
  induction es generalizing k with
  | nil => exact absurd hk (Nat.not_lt_zero k)
  | cons e es ih =>
    have hlen := length_direntBytes e
    rw [List.flatMap_cons, List.getD_eq_getElem?_getD, List.getElem?_append]
    cases k with
    | zero =>
      rw [if_pos (by omega), Nat.mul_zero, Nat.zero_add, ← List.getD_eq_getElem?_getD,
        direntBytes]
      exact getD_map_range _ hi
    | succ k =>
      have hoff : dirent.size * (k + 1) + i - (direntBytes e).length = dirent.size * k + i := by
        rw [hlen, Nat.mul_succ]
        omega
      rw [if_neg (by rw [hlen, Nat.mul_succ]; omega), hoff, ← List.getD_eq_getElem?_getD]
      exact ih (by simpa using hk)

/-! ## Names -/

theorem Input.entry_nul (f : Input) : ∀ ch ∈ f.entry, ch ≠ 0 := by
  intro ch hch
  refine f.nul ch ?_
  rw [Input.entry] at hch
  split at hch
  · exact List.mem_of_mem_tail hch
  · exact hch

variable {files : List Input}

/-- The entry of a file. -/
theorem getElem_rootEntries {j : Nat} (hj : j < files.length) :
    (rootEntries files)[j + 2]? = some (Dirent.make files[j].entry (j + rootino + 1)) := by
  simp [rootEntries, hj]

/-- A short string is not cut. -/
theorem eq_of_take {name short : List UInt8} (hshort : short.length < dirsiz)
    (h : name.take dirsiz = short.take dirsiz) : name = short := by
  rw [List.take_of_length_le hshort.le] at h
  have hlen := congrArg List.length h
  rw [List.length_take] at hlen
  rw [← h, List.take_of_length_le (by omega)]

/-- **The first entry that matches a file's name is its own.** -/
theorem not_is_rootEntries {j : Nat} (hj : j < files.length)
    (hdots : files[j].entry ≠ dot ∧ files[j].entry ≠ dotdot)
    (hdistinct : (files.map fun f => f.entry.take dirsiz).Nodup) {i : Nat} (hi : i < j + 2)
    (hi' : i < (rootEntries files).length) : ¬ (rootEntries files)[i].Is files[j].entry := by
  have hsame : ∀ {name inum}, (∀ ch ∈ name, ch ≠ 0) → (Dirent.make name inum).Is files[j].entry →
      files[j].entry.take dirsiz = name.take dirsiz :=
    fun hname h => h.2.symm.trans (Dirent.str_make hname _)
  rcases i with _ | _ | i
  · exact fun h => hdots.1 (eq_of_take (by decide) (hsame (by simp) h))
  · exact fun h => hdots.2 (eq_of_take (by decide) (hsame (by simp) h))
  · have hlt : i < files.length := by omega
    have hget := getElem_rootEntries hlt
    rw [List.getElem?_eq_getElem hi', Option.some_inj] at hget
    rw [hget]
    intro h
    have hj₁ : j < (files.map fun f => f.entry.take dirsiz).length := by simpa using hj
    have hi₁ : i < (files.map fun f => f.entry.take dirsiz).length := by simpa using hlt
    have heq : (files.map fun f => f.entry.take dirsiz)[j] =
        (files.map fun f => f.entry.take dirsiz)[i] := by
      simpa using hsame files[i].entry_nul h
    have := hdistinct.getElem_inj_iff.mp heq
    omega

/-! ## Agreement -/

/-- The name is looked up in the root directory and the file read: its size and what `readi`
returns. -/
def readNamed (c : Config) (name : List UInt8) (off n : UInt32) :
    Xv6.M (Option (UInt32 × Int × List UInt8)) := do
  let dp ← iget rootdev rootino
  ilock c dp
  match ← dirlookup c dp name with
  | none => return none
  | some (ip, _) => do
    ilock c ip
    let x ← inode ip
    let r ← readi c ip off n
    return some (x.copy.size, r)

/-- What the kernel finds in the root directory, once it is locked. -/
theorem Booted.hasEntries (h : Booted c v st) (hfin : Finished v fb (nodes files)) {dp : Fin ninode}
    (hview : s.view = st.view)
    (hcopy : (s.icache dp).copy = dinodeAt c.sb st.view rootino) :
    HasEntries s dp (rootEntries files) := by
  obtain ⟨d, hd, hroot⟩ := h.isRoot hfin rfl
  have hlen : (rootData files).length = dirent.size * (rootEntries files).length := by
    rw [length_rootData, length_rootEntries]
  rw [hroot] at hcopy
  refine ⟨?_, ?_, fun o ho => ?_, fun k hk => ?_⟩
  · rw [hcopy]
    exact hd.type
  · rw [hcopy, toNat_roundedSize hd.le, ← hlen]
    simp only [bsize]
    omega
  · rw [hcopy, hview]
    refine (hd.holds.mapped.data _).mpr ?_
    rw [← hlen] at ho
    show o / bsize < dataBlocks (rootData files).length
    rw [dataBlocks]
    simp only [bsize]
    omega
  · rw [hcopy, hview]
    refine dirent.dec_enc _ _ fun i hi => ?_
    rw [← getD_direntBytes _ hk hi]
    exact hd.holds.bytes _

/-- The bytes of a file from `off` on, at most `len` of them. -/
def Node.slice (n : Node) (off len : Nat) : List UInt8 := (n.data.drop off).take len

/-- What `readi` returns for a file, within its size. -/
theorem readResult_eq {d : Dinode} {n : Node} (h : IsFile v d n) {off len : UInt32}
    (hoff : off.toNat ≤ n.data.length) (hadd : off.toNat + len.toNat < 2 ^ 32) :
    readResult v d off len =
      (((n.slice off.toNat len.toNat).length : Int), n.slice off.toNat len.toNat) := by
  have hsize := h.toNat_size
  have h1 : ¬ d.size < off := by
    intro hlt
    have := UInt32.lt_iff_toNat_lt.mp hlt
    omega
  have h2 : ¬ off + len < off := by
    intro hlt
    have := UInt32.lt_iff_toNat_lt.mp hlt
    rw [UInt32.toNat_add, Nat.mod_eq_of_lt hadd] at this
    omega
  have hlen : (n.slice off.toNat len.toNat).length = readLen d off len := by
    rw [Node.slice, List.length_take, List.length_drop, readLen, hsize]
  have hbytes : (List.range (readLen d off len)).map (fun k => byteAt v d (off.toNat + k)) =
      n.slice off.toNat len.toNat := by
    apply List.ext_getElem
    · rw [hlen, List.length_map, List.length_range]
    · intro i hi1 hi2
      rw [List.getElem_map, List.getElem_range, h.holds.bytes]
      simp only [Node.slice, List.getElem_take, List.getElem_drop]
      have hlt : off.toNat + i < n.data.length := by
        rw [hlen, readLen] at hi2
        omega
      simp [hlt]
  rw [readResult, if_neg (not_or.mpr ⟨h1, h2⟩), hbytes, hlen]

/-- The kernel locks a file that it has just looked up and reads it. -/
theorem wp_readFile {ip : Fin ninode} {n : Node} (href : 0 < (s.icache ip).ref)
    (hlock : (s.icache ip).lock = none) (hvalid : (s.icache ip).valid = false)
    (hfile : IsFile s.view (dinodeAt c.sb s.view (s.icache ip).inum) n) (htype : n.type = tFile)
    {off len : UInt32} (hoff : off.toNat ≤ n.data.length) (hadd : off.toNat + len.toNat < 2 ^ 32) :
    wp (do
        ilock c ip
        let x ← inode ip
        let r ← readi c ip off len
        return some (x.copy.size, r))
      (fun r _ => r = some (UInt32.ofNat n.data.length,
        ((n.slice off.toNat len.toNat).length : Int), n.slice off.toNat len.toNat)) E s := by
  have htype' := hfile.type.trans htype
  rw [wp_bind]
  refine wp_ilock_new href hlock hvalid (by rw [htype']; decide) fun s' hview hcache => ?_
  have hcopy : (s'.icache ip).copy = dinodeAt c.sb s.view (s.icache ip).inum := by
    rw [hcache, update_self]
  rw [← hcopy, ← hview] at hfile
  rw [wp_bind, wp_inode, wp_bind]
  refine wp_readi_mapped (by rw [hcopy, htype']; decide) (fun o _ ho => ?_) ?_
  · rw [hfile.toNat_size] at ho
    refine (hfile.holds.mapped.data _).mpr ?_
    rw [dataBlocks]
    simp only [bsize] at ho ⊢
    omega
  · rw [wp_pure, hfile.size, readResult_eq hfile hoff hadd]

/-- **The kernel finds a file of the image and reads it.** -/
theorem wp_readNamed (h : Booted c v st) (hfin : Finished v fb (nodes files)) {j : Nat}
    (hj : j < files.length) (hdots : files[j].entry ≠ dot ∧ files[j].entry ≠ dotdot)
    (hdistinct : (files.map fun f => f.entry.take dirsiz).Nodup) {off len : UInt32}
    (hoff : off.toNat ≤ files[j].data.length) (hadd : off.toNat + len.toNat < 2 ^ 32) :
    wp (readNamed c files[j].entry off len)
      (fun r _ => r = some (UInt32.ofNat files[j].data.length,
        (((files[j].data.drop off.toNat).take len.toNat).length : Int),
        (files[j].data.drop off.toNat).take len.toNat)) E st := by
  have harea : files.length + 1 < 208 := length_nodes files ▸ hfin.area
  have hnode : (nodes files)[j + 1]? = some ⟨tFile, files[j].data⟩ := by simp [nodes, hj]
  have hfile := h.isFile hfin (Nat.succ_pos j) hnode
  have hroot : (dinodeAt c.sb st.view rootino).type = tDir := by
    obtain ⟨d, hd, hroot⟩ := h.isRoot hfin rfl
    rw [hroot]
    exact hd.type
  have hk : j + 2 < (rootEntries files).length := by rw [length_rootEntries]; omega
  have hentry : (rootEntries files)[j + 2] = Dirent.make files[j].entry (j + rootino + 1) := by
    have hget := getElem_rootEntries hj
    rwa [List.getElem?_eq_getElem hk, Option.some_inj] at hget
  have hinum : (Dirent.make files[j].entry (j + rootino + 1)).inum.toNat = j + rootino + 1 :=
    UInt16.toNat_ofNat_of_lt' (by show j + 1 + 1 < 2 ^ 16; omega)
  unfold readNamed
  simp only [wp_bind]
  refine wp_lockRoot h (by rw [hroot]; decide) fun dp s honly hview hcopy => ?_
  have hdir := h.hasEntries hfin hview hcopy
  refine hdir.dirlookup files[j].entry_nul hk ⟨?_, ?_⟩ (fun i hi => ?_) ?_
  · rw [hentry]
    intro h0
    rw [h0] at hinum
    exact absurd hinum (by simp)
  · rw [hentry, Dirent.str_make files[j].entry_nul]
  · exact not_is_rootEntries hj hdots hdistinct hi _
  · rw [hentry, hinum, honly.dev]
    refine wp_iget_new (fun ip href _ => ?_) ?_ fun ip hip => ?_
    · -- only the root directory is there
      have hdp : ip = dp := by
        by_contra hne
        exact absurd (honly.others ip hne).1 href.ne'
      rw [hdp, honly.inum]
      omega
    · by_cases h0 : dp = 0
      · exact ⟨1, (honly.others 1 (by rw [h0]; decide)).1⟩
      · exact ⟨0, (honly.others 0 (Ne.symm h0)).1⟩
    · have hne : ip ≠ dp := by
        intro e
        rw [e] at hip
        exact absurd hip honly.ref.ne'
      refine wp_readFile (n := ⟨tFile, files[j].data⟩) ?_ ?_ ?_ ?_ rfl hoff hadd
      · simp
      · simpa using (honly.others ip hne).2
      · simp
      · simpa [hview] using hfile

/-- **`mkfs` and the kernel agree.** `mkfs` writes an image of the files, and on it the kernel finds
each of them under its name, with its size and its bytes. -/
theorem mkfs_kernel_agree (files : List Input) (hlen : files.length ≤ 198)
    (hslash : ∀ f ∈ files, slash ∉ f.name) (hopen : ∀ f ∈ files, f.content ≠ none)
    (hdots : ∀ f ∈ files, f.entry ≠ dot ∧ f.entry ≠ dotdot)
    (hdistinct : (files.map fun f => f.entry.take dirsiz).Nodup)
    (hmax : ∀ f ∈ files, f.data.length ≤ maxfile * bsize)
    (hfit : nmeta + ((nodes files).map Node.blocks).sum ≤ fssize) :
    ∃ s, main files Image.start = .ok ((), s) ∧ ∀ c st, Booted c s.disk st →
      ∀ f ∈ files, ∀ off len : UInt32, off.toNat ≤ f.data.length →
        off.toNat + len.toNat < 2 ^ 32 →
        ∃ st', readNamed c f.entry off len st = .ok (some (UInt32.ofNat f.data.length,
          (((f.data.drop off.toNat).take len.toNat).length : Int),
          (f.data.drop off.toNat).take len.toNat), st') := by
  have hall : Fit (nodes files) := by
    refine ⟨fun n hn => ?_, hfit⟩
    rcases List.mem_cons.mp hn with rfl | hn
    · show (rootData files).length ≤ 71680
      rw [length_rootData, dirent_size]
      omega
    · obtain ⟨f, hf, rfl⟩ := List.mem_map.mp hn
      exact hmax f hf
  obtain ⟨s, hs, hfin⟩ := main_ok (by show _ < 208; omega) hslash hopen hall
  refine ⟨s, hs, fun c st hboot f hf off len hoff hadd => ?_⟩
  obtain ⟨j, hj, rfl⟩ := List.getElem_of_mem hf
  obtain ⟨r, st', hrun, rfl⟩ :=
    (wp_readNamed (E := fun _ => False) hboot hfin hj (hdots _ hf) hdistinct hoff hadd).exists_ok
  exact ⟨st', hrun⟩

/-- A kernel that has just been booted on the disk `v`. -/
def bootConfig (v : Disk Blk) : Config where
  sb := readsb v
  devsw _ := ⟨none, none⟩
  piperead _ := (-1, [])
  pipewrite _ := -1

def bootState (v : Disk Blk) : St where
  mem := ((recoverFromLog (bootConfig v).log).run (Mem.boot v)).2
  lh := []
  outstanding := 0
  committing := false
  icache _ := ⟨0, 0, 0, none, false, .ofType 0⟩
  ftable _ := ⟨.none, 0, false, false, 0, 0⟩
  myproc := 0

theorem booted_bootState (v : Disk Blk) : Booted (bootConfig v) v (bootState v) where
  super := rfl
  mem := rfl
  cache _ h := absurd h (lt_irrefl 0)
  idle _ := ⟨rfl, rfl⟩

/-- A file of three bytes is read back. -/
theorem mkfs_kernel_agree_three_bytes :
    ∃ s st', main [fileA [⟨[1, 2, 3], by decide⟩]] Image.start = .ok ((), s) ∧
      readNamed (bootConfig s.disk) [97] 0 512 (bootState s.disk) =
        .ok (some (3, 3, [1, 2, 3]), st') := by
  obtain ⟨s, hs, hread⟩ := mkfs_kernel_agree [fileA [⟨[1, 2, 3], by decide⟩]]
    (by decide) (by decide) (by decide) (by decide) (by decide) (by decide) (by decide +kernel)
  obtain ⟨st', hst'⟩ := hread _ _ (booted_bootState s.disk) _ List.mem_cons_self 0 512
    (by decide) (by decide)
  exact ⟨s, st', hs, hst'⟩

end Laboratorio.Xv6.Mkfs
