import Laboratorio.Xv6.Fs
import Laboratorio.Xv6.Owned

/-!
# What the block operations do

One rule for each function of `fs.c` that works on blocks: `balloc`, `bmap`, and the loops of `readi`
and `writei`. They are stated for any table `T` of inodes that the disk's
blocks are owned by (`Owned`), with `T i` the in-memory copy of the inode at hand, so that they hold
between two `iupdate`s as well.

A rule allows the faults of exhaustion (`Fault.Exhausted`) and no other, and these only if there is
too little left (`Stock`). What is used up is counted: `Changed` compares the blocks that an inode
gets with those that leave the free map, and `Wrote` and `Touched` count the calls of `log_write`.
-/

namespace Laboratorio.Xv6

open Function Laboratorio.Bytes Laboratorio.DiskProg Laboratorio.Wp

/-- The kernel has run out of blocks, cache entries, space in the log or room in a directory. -/
def Fault.Exhausted : Fault → Prop
  | .log .tooBig | .ballocOutOfBlocks | .igetNoInodes | .dirlink => True
  | _ => False

/-- The blocks as the kernel sees them. -/
abbrev St.view (s : St) : Disk Blk := s.mem.view

/-- A transaction is running. -/
structure InTrans (c : Config) (s : St) : Prop where
  fits : c.log.Fits s.lh
  running : 0 < s.outstanding

/-- From `s` to `s'` only blocks have changed, to those of `v`, with `n` calls of `log_write`. -/
structure Wrote (c : Config) (s s' : St) (v : Disk Blk) (n : Nat) : Prop where
  rest : s' = { s with mem := s'.mem, lh := s'.lh }
  view : s'.view = v
  trans : InTrans c s'
  logged : s'.lh.length ≤ s.lh.length + n

variable {c : Config} {s : St} {E : Fault → Prop} {m off : Nat}

theorem Wrote.trans' {s₁ s₂ : St} {v₁ v₂ : Disk Blk} {n₁ n₂ : Nat} (h₁ : Wrote c s s₁ v₁ n₁)
    (h₂ : Wrote c s₁ s₂ v₂ n₂) : Wrote c s s₂ v₂ (n₁ + n₂) where
  rest := by
    have := h₂.rest
    rw [h₁.rest] at this
    exact this
  view := h₂.view
  trans := h₂.trans
  logged := by
    have h1 := h₁.logged
    have h2 := h₂.logged
    omega

/-- The log has room for `n` more blocks. -/
structure LogRoom (c : Config) (s : St) (n : Nat) : Prop where
  header : s.lh.length + n ≤ logsize
  area : s.lh.length + n < c.log.size

theorem LogRoom.after {s' : St} {n : Nat} (h : LogRoom c s (m + n))
    (hlog : s'.lh.length ≤ s.lh.length + m) : LogRoom c s' n := by
  have := h.header
  have := h.area
  constructor <;> omega

/-- There is a free block for every place in `P` that has none, and room for `n` blocks in the
log. -/
structure Stock (c : Config) (s : St) (d : Dinode) (P : Finset Place) (n : Nat) : Prop where
  blocks : missing s.view d P ≤ freeBlocks c.sb s.view
  log : LogRoom c s n

theorem Superblock.Ok.not_area (hok : c.sb.Ok) {b : Nat} (hb : c.sb.inodestart ≤ b) :
    ¬ c.log.Area b := by
  intro h
  have := hok.log_end
  have h2 : b < c.sb.logstart + c.sb.nlog := h.2
  omega

/-! ## The log -/

theorem wp_logWrite (hok : c.sb.Ok) (hs : InTrans c s) {b : Nat} (hb : c.sb.inodestart ≤ b)
    (hlt : b < c.sb.size) {f : Blk → Blk} (hE : ∀ e, e.Exhausted → ¬ LogRoom c s 1 → E e)
    {Q : Unit → St → Prop}
    (hQ : ∀ s', Wrote c s s' (update s.view b (f (s.view b))) 1 → Q () s') :
    wp (logWrite c b f) Q E s := by
  unfold logWrite
  simp only [wp_bind, wp_get]
  cases hr : c.log.record s.outstanding s.lh (UInt32.ofNat b) with
  | error e =>
    simp only [wp_throw]
    cases e with
    | tooBig =>
      refine hE _ trivial fun hroom => ?_
      have h1 := hroom.header
      have h2 := hroom.area
      unfold Log.record at hr
      rw [if_neg (by omega)] at hr
      split at hr <;> cases hr
    | outsideOfTrans =>
      -- the check for a transaction passes
      have hrun := hs.running
      unfold Log.record at hr
      rw [if_neg (show ¬ s.outstanding < 1 by omega)] at hr
      split at hr <;> cases hr
  | ok lh =>
    simp only [wp_set]
    apply hQ
    have hsize := hok.size_lt
    have hnat : (UInt32.ofNat b).toNat = b := by
      rw [UInt32.toNat_ofNat', Nat.mod_eq_of_lt (by omega)]
    refine ⟨rfl, Mem.view_modify _ _ _, ⟨?_, hs.running⟩, ?_⟩
    · exact hs.fits.record (by rw [hnat]; exact hok.not_area hb) hr
    · show lh.length ≤ _
      rw [(Log.record_ok hr).1, recordBlock]
      split <;> simp

/-! ## Allocation -/

theorem wp_bread {b : Nat} {Q : Blk → St → Prop} : wp (bread b) Q E s ↔ Q (s.view b) s := Iff.rfl

/-- The scan of one bitmap block. -/
theorem mod_div_bpb {b bi : Nat} (hb : bpb ∣ b) (hbi : bi < bpb) :
    (b + bi) % bpb = bi ∧ (b + bi) / bpb = b / bpb := by
  obtain ⟨k, rfl⟩ := hb
  simp only [bpb] at *
  omega

theorem wp_ballocFrom (hok : c.sb.Ok) (hs : InTrans c s)
    (hmark : ∀ b < c.sb.nmeta, bit c.sb s.view b = true)
    (hE : ∀ e, e.Exhausted → ¬ (0 < freeBlocks c.sb s.view ∧ LogRoom c s 2) → E e)
    {Q : UInt32 → St → Prop}
    (hQ : ∀ b s', Fresh c.sb s.view b → Wrote c s s' (allocView c.sb s.view b.toNat) 2 → Q b s')
    (n : Nat) {b : Nat} (hb : bpb ∣ b) (hend : c.sb.size ≤ b + n * bpb)
    (hused : ∀ x < b, x < c.sb.size → bit c.sb s.view x = true) :
    wp (ballocFrom c n b) Q E s := by
  induction n generalizing b with
  | zero =>
    refine hE .ballocOutOfBlocks trivial fun hroom => ?_
    obtain ⟨x, hx, hfree⟩ := List.countP_pos_iff.mp hroom.1
    have hlt := List.mem_range.mp hx
    rw [hused x (by omega) hlt] at hfree
    cases hfree
  | succ n ih =>
    unfold ballocFrom
    simp only [wp_bind, wp_bread]
    split
    · next bi hfind =>
      have hmem := List.mem_of_find?_eq_some hfind
      have hfree := List.find?_some hfind
      rw [List.mem_range] at hmem
      simp only [Bool.not_eq_true'] at hfree
      obtain ⟨hmod, hdiv⟩ := mod_div_bpb hb (show bi < bpb by omega)
      have hblk : bblock c.sb (b + bi) = bblock c.sb b := by rw [bblock, hdiv]; rfl
      have hsize := hok.size_lt
      have hnat : (UInt32.ofNat (b + bi)).toNat = b + bi := by
        rw [UInt32.toNat_ofNat', Nat.mod_eq_of_lt (by omega)]
      have hbit : bit c.sb s.view (b + bi) = false := by rw [bit, hblk, hmod, hfree]
      have hfresh : Fresh c.sb s.view (UInt32.ofNat (b + bi)) :=
        ⟨by rw [hnat]; omega, by rw [hnat]; exact hbit⟩
      have hmeta : c.sb.nmeta ≤ b + bi := by
        by_contra hlt
        rw [hmark _ (by omega)] at hbit
        cases hbit
      have hrange := c.sb.bblock_lt (b := b + bi) (by omega)
      have hino := hok.inodestart_lt
      have hbm := hok.bmap_end
      rw [← hblk, wp_bind]
      apply wp_logWrite hok hs (by omega) (by omega)
        fun e he hn => hE e he fun hr => hn (LogRoom.after (m := 1) hr.2 (by omega))
      intro s₁ h₁
      rw [wp_bind]
      apply wp_logWrite hok h₁.trans (by omega) (by omega)
        fun e he hn => hE e he fun hr => hn (LogRoom.after hr.2 h₁.logged)
      intro s₂ h₂
      rw [wp_pure]
      apply hQ _ _ hfresh
      have h := h₁.trans' h₂
      rw [h₁.view] at h
      rw [hnat, allocView, hmod]
      exact h
    · next hfind =>
      refine ih (Nat.dvd_add hb (dvd_refl bpb)) (by rw [Nat.succ_mul] at hend; omega) ?_
      intro x hx hlt
      by_cases hxb : x < b
      · exact hused x hxb hlt
      · obtain ⟨bi, rfl⟩ := Nat.exists_eq_add_of_le (Nat.le_of_not_lt hxb)
        obtain ⟨hmod, hdiv⟩ := mod_div_bpb hb (show bi < bpb by omega)
        have hset := List.find?_eq_none.mp hfind bi (List.mem_range.mpr (by omega))
        have hblk : bblock c.sb (b + bi) = bblock c.sb b := by rw [bblock, hdiv]; rfl
        rw [bit, hblk, hmod]
        simpa using hset

/-- `balloc` marks and zeroes a free block. -/
theorem wp_balloc (hok : c.sb.Ok) (hs : InTrans c s)
    (hmark : ∀ b < c.sb.nmeta, bit c.sb s.view b = true)
    (hE : ∀ e, e.Exhausted → ¬ (0 < freeBlocks c.sb s.view ∧ LogRoom c s 2) → E e)
    {Q : UInt32 → St → Prop}
    (hQ : ∀ b s', Fresh c.sb s.view b → Wrote c s s' (allocView c.sb s.view b.toNat) 2 → Q b s') :
    wp (balloc c) Q E s := by
  refine wp_ballocFrom hok hs hmark hE hQ _ (dvd_zero bpb) ?_ fun x hx => absurd hx (Nat.not_lt_zero x)
  simp only [bpb]
  omega

/-! ## The in-memory copy -/

@[simp] theorem wp_inode {ip : Fin ninode} {Q : Inode → St → Prop} :
    wp (inode ip) Q E s ↔ Q (s.icache ip) s := Iff.rfl

@[simp] theorem wp_modifyInode {ip : Fin ninode} {f : Inode → Inode} {Q : Unit → St → Prop} :
    wp (modifyInode ip f) Q E s ↔
      Q () { s with icache := update s.icache ip (f (s.icache ip)) } := Iff.rfl

/-- The state with another in-memory copy of an inode. -/
def St.setCopy (s : St) (ip : Fin ninode) (d : Dinode) : St :=
  { s with icache := update s.icache ip { s.icache ip with copy := d } }

@[simp] theorem wp_modifyCopy {ip : Fin ninode} {f : Dinode → Dinode} {Q : Unit → St → Prop} :
    wp (modifyCopy ip f) Q E s ↔ Q () (s.setCopy ip (f (s.icache ip).copy)) := Iff.rfl

@[simp] theorem St.setCopy_copy (s : St) (ip : Fin ninode) (d : Dinode) :
    ((s.setCopy ip d).icache ip).copy = d := by
  simp [St.setCopy]

theorem St.setCopy_self (s : St) (ip : Fin ninode) : s.setCopy ip (s.icache ip).copy = s := by
  simp [St.setCopy]

theorem St.setCopy_setCopy (s : St) (ip : Fin ninode) (d d' : Dinode) :
    (s.setCopy ip d).setCopy ip d' = s.setCopy ip d' := by
  simp [St.setCopy]

/-- From `s` to `s'` blocks have changed, with at most `n` calls of `log_write`, and the copy of the
inode at `ip` is now `d`. -/
structure Touched (c : Config) (s s' : St) (ip : Fin ninode) (d : Dinode) (n : Nat) : Prop where
  rest : s' = { s.setCopy ip d with mem := s'.mem, lh := s'.lh }
  trans : InTrans c s'
  logged : s'.lh.length ≤ s.lh.length + n

section Touched

variable {s' : St} {ip : Fin ninode} {d : Dinode} {n : Nat}

theorem Touched.refl (hs : InTrans c s) (ip : Fin ninode) (n : Nat) :
    Touched c s s ip (s.icache ip).copy n := by
  refine ⟨?_, hs, Nat.le_add_right _ _⟩
  rw [St.setCopy_self]

theorem Touched.copy (h : Touched c s s' ip d n) : (s'.icache ip).copy = d := by
  rw [h.rest]
  exact St.setCopy_copy s ip d

theorem Touched.mono (h : Touched c s s' ip d m) (hle : m ≤ n) : Touched c s s' ip d n :=
  { h with logged := by have := h.logged; omega }

theorem Touched.trans' {s₁ s₂ : St} {d₁ d₂ : Dinode} {n₁ n₂ : Nat} (h₁ : Touched c s s₁ ip d₁ n₁)
    (h₂ : Touched c s₁ s₂ ip d₂ n₂) : Touched c s s₂ ip d₂ (n₁ + n₂) := by
  refine ⟨?_, h₂.trans, ?_⟩
  · have := h₂.rest
    rw [h₁.rest] at this
    rw [this, ← St.setCopy_setCopy s ip d₁ d₂]
    rfl
  · have h1 := h₁.logged
    have h2 := h₂.logged
    omega

theorem Wrote.touched {v : Disk Blk} (h : Wrote c s s' v n) (ip : Fin ninode) :
    Touched c s s' ip (s.icache ip).copy n := by
  refine ⟨?_, h.trans, h.logged⟩
  rw [St.setCopy_self]
  exact h.rest

theorem Touched.setCopy (h : Touched c s s' ip d n) (d' : Dinode) :
    Touched c s (s'.setCopy ip d') ip d' n := by
  refine ⟨?_, ⟨h.trans.fits, h.trans.running⟩, h.logged⟩
  conv_lhs => rw [h.rest]
  rw [← St.setCopy_setCopy s ip d d']
  rfl

/-- The blocks that an inode gets were in stock. -/
theorem Stock.after {T : Nat → Dinode} {i : Nat} {g : Nat → UInt8} {P : Finset Place}
    (h : Stock c s (T i) P (m + n)) (hc : Changed c.sb s.view T i s'.view d g P)
    (ht : Touched c s s' ip d m) : Stock c s' d P n where
  blocks := by
    have h1 := h.blocks
    have h2 := hc.balance
    omega
  log := h.log.after ht.logged

/-- There is a free block for a place that has none. -/
theorem Stock.alloc {P : Finset Place} {p : Place} (h : Stock c s d P (n + 2))
    (hp : p ∈ P) (h0 : p.addr s.view d = 0) : 0 < freeBlocks c.sb s.view ∧ LogRoom c s 2 := by
  refine ⟨lt_of_lt_of_le (Finset.card_pos.mpr ⟨p, ?_⟩) h.blocks, ?_⟩
  · exact Finset.mem_filter.mpr ⟨hp, h0⟩
  · exact h.log.after (Nat.le_add_right _ _)

end Touched

/-! ## `bmap` -/

/-- The places that `bmap` fills for block `bn` of a file. -/
def places (bn : Nat) : Finset Place := if bn < ndirect then {.data bn} else {.indirect, .data bn}

theorem data_mem_places (bn : Nat) : .data bn ∈ places bn := by
  unfold places
  split <;> simp

theorem indirect_mem_places {bn : Nat} (h : ndirect ≤ bn) : .indirect ∈ places bn := by
  rw [places, if_neg (by omega)]
  simp

/-- The places for `n` bytes at `off`. -/
def spanned (off n : Nat) : Finset Place :=
  (Finset.Ico off (off + n)).biUnion fun o => places (o / bsize)

theorem places_subset_spanned {n o : Nat} (h : off ≤ o) (h' : o < off + n) :
    places (o / bsize) ⊆ spanned off n :=
  Finset.subset_biUnion_of_mem (fun o => places (o / bsize)) (Finset.mem_Ico.mpr ⟨h, h'⟩)

theorem spanned_subset {n off' n' : Nat} (h : off ≤ off') (h' : off' + n' ≤ off + n) :
    spanned off' n' ⊆ spanned off n :=
  Finset.biUnion_subset_biUnion_of_subset_left _ (Finset.Ico_subset_Ico h h')

section Bmap

variable {T : Nat → Dinode} {i : Nat} {ip : Fin ninode} {P : Finset Place}

/-- `bmap` of a block that is there. -/
theorem wp_bmap_mapped {bn : Nat} (h : blockAt s.view (s.icache ip).copy bn ≠ 0)
    {Q : UInt32 → St → Prop} (hQ : Q (blockAt s.view (s.icache ip).copy bn) s) :
    wp (bmap c ip bn) Q E s := by
  have hlt := lt_maxfile h
  unfold bmap
  simp only [wp_bind, wp_inode]
  by_cases hbn : bn < ndirect
  · rw [blockAt_of_direct _ _ hbn] at h hQ
    rw [if_pos hbn, if_neg h]
    exact hQ
  · have hind : (s.icache ip).copy.addr ndirect ≠ 0 :=
      fun h0 => h (blockAt_of_none _ _ (Nat.le_of_not_lt hbn) h0)
    rw [blockAt_of_indirect _ _ (Nat.le_of_not_lt hbn) hlt hind] at h hQ
    rw [if_neg hbn, if_pos (by simp only [ndirect, nindirect, maxfile] at *; omega), wp_bind]
    unfold indirect
    simp only [wp_bind, wp_inode]
    rw [if_neg hind]
    simp only [wp_pure, wp_bread]
    rw [if_neg h]
    exact hQ

/-- The indirect block, present or just allocated. -/
theorem wp_indirect (hok : c.sb.Ok) (hs : InTrans c s) (ho : Owned c.sb s.view T)
    (hi : i < c.sb.ninodes) (ht : (T i).type ≠ 0) (hcopy : (s.icache ip).copy = T i)
    (hP : .indirect ∈ P) (hE : ∀ e, e.Exhausted → ¬ Stock c s (T i) P 2 → E e)
    {Q : UInt32 → St → Prop}
    (hQ : ∀ d' s', Grown c.sb s.view T i s'.view d' P → Touched c s s' ip d' 2 →
      ((T i).addr ndirect ≠ 0 → d' = T i) → d'.addr ndirect ≠ 0 → Q (d'.addr ndirect) s') :
    wp (indirect c ip) Q E s := by
  unfold indirect
  simp only [wp_bind, wp_inode]
  rw [hcopy]
  split
  · next h0 =>
    rw [wp_bind]
    apply wp_balloc hok hs ho.marked
      fun e he hn => hE e he fun hst => hn (hst.alloc (n := 0) hP h0)
    intro b s₁ hb h₁
    simp only [wp_bind, wp_modifyCopy, wp_pure]
    have hview := h₁.view
    have hgrown := ho.attachIndirect hok hi ht hb h0 hP
    have haddr : ((T i).setAddr ndirect b).addr ndirect = b := by
      rw [Dinode.addr_setAddr _ _ _ (by omega), if_pos rfl]
    have hcopy₁ : (s₁.icache ip).copy = T i := by rw [(h₁.touched ip).copy, hcopy]
    have := hQ ((T i).setAddr ndirect b) (s₁.setCopy ip ((T i).setAddr ndirect b))
      (by rw [← hview] at hgrown; exact hgrown) ((h₁.touched ip).setCopy _) (absurd h0)
      (by rw [haddr]; exact ho.fresh_ne hb)
    rw [haddr] at this
    rw [hcopy₁]
    exact this
  · next h0 =>
    have := Touched.refl hs ip 2
    rw [hcopy] at this
    exact hQ (T i) s (Grown.refl ho i) this (fun _ => rfl) h0

/-- **`bmap`** returns the block at `bn`, and no file reads differently for it. The copy of the inode
changes only if the block was not there. -/
theorem wp_bmap (hok : c.sb.Ok) (hs : InTrans c s) (ho : Owned c.sb s.view T)
    (hi : i < c.sb.ninodes) (ht : (T i).type ≠ 0) (hcopy : (s.icache ip).copy = T i) {bn : Nat}
    (hbn : bn < maxfile) (hP : places bn ⊆ P)
    (hE : ∀ e, e.Exhausted → ¬ Stock c s (T i) P 5 → E e) {Q : UInt32 → St → Prop}
    (hQ : ∀ d' s', Grown c.sb s.view T i s'.view d' P → Touched c s s' ip d' 5 →
      (blockAt s.view (T i) bn ≠ 0 → d' = T i) → blockAt s'.view d' bn ≠ 0 →
      Q (blockAt s'.view d' bn) s') :
    wp (bmap c ip bn) Q E s := by
  unfold bmap
  simp only [wp_bind, wp_inode]
  rw [hcopy]
  have hrefl := Touched.refl hs ip 5
  rw [hcopy] at hrefl
  have hdata := hP (data_mem_places bn)
  by_cases hdir : bn < ndirect
  · rw [if_pos hdir]
    split
    · next h0 =>
      rw [wp_bind]
      apply wp_balloc hok hs ho.marked fun e he hn => hE e he fun hst =>
        hn (hst.alloc (n := 3) hdata ((blockAt_of_direct _ _ hdir).trans h0))
      intro b s₁ hb h₁
      simp only [wp_bind, wp_modifyCopy, wp_pure]
      have hgrown := ho.attachDirect hok hi ht hb hdir h0 hdata
      have haddr : blockAt s₁.view ((T i).setAddr bn b) bn = b := by
        rw [blockAt_of_direct _ _ hdir, Dinode.addr_setAddr _ _ _ (by omega), if_pos rfl]
      have hcopy₁ : (s₁.icache ip).copy = T i := by rw [(h₁.touched ip).copy, hcopy]
      have := hQ ((T i).setAddr bn b) (s₁.setCopy ip ((T i).setAddr bn b))
        (by rw [← h₁.view] at hgrown; exact hgrown)
        (((h₁.touched ip).setCopy _).mono (by omega))
        (fun h => absurd ((blockAt_of_direct _ _ hdir).trans h0) h)
        (fun h => ho.fresh_ne hb (haddr.symm.trans h))
      rw [hcopy₁]
      have hview : (s₁.setCopy ip ((T i).setAddr bn b)).view = s₁.view := rfl
      rw [hview, haddr] at this
      exact this
    · next h0 =>
      have := hQ (T i) s (Grown.refl ho i) hrefl (fun _ => rfl)
      rw [blockAt_of_direct _ _ hdir] at this
      exact this h0
  · have hle := Nat.le_of_not_lt hdir
    have hlt : bn - ndirect < nindirect := by
      simp only [ndirect, nindirect, maxfile] at *; omega
    rw [if_neg hdir, if_pos hlt, wp_bind]
    apply wp_indirect hok hs ho hi ht hcopy (hP (indirect_mem_places hle))
      fun e he hn => hE e he fun hst => hn ⟨hst.blocks, hst.log.after (m := 3) (by omega)⟩
    intro d₁ s₁ hg₁ ht₁ hsame hd₁
    have hbn' : ndirect + (bn - ndirect) = bn := Nat.add_sub_cancel' hle
    have hsame' : blockAt s.view (T i) bn ≠ 0 → d₁ = T i :=
      fun h => hsame fun h0 => h (blockAt_of_none _ _ hle h0)
    simp only [wp_bind, wp_bread]
    split
    · next h0 =>
      rw [wp_bind]
      apply wp_balloc hok ht₁.trans hg₁.owned.marked fun e he hn => hE e he fun hst =>
        hn ((hst.after (n := 3) hg₁ ht₁).alloc (n := 1) hdata
          ((blockAt_of_indirect _ _ hle hbn hd₁).trans h0))
      intro b s₂ hb h₂
      rw [wp_bind]
      have hself : update T i d₁ i = d₁ := update_self _ _ _
      have htype : (update T i d₁ i).type ≠ 0 := by
        rw [hself, hg₁.fields]; exact ht
      have hown : Owns c.sb s₁.view (update T i d₁) i .indirect (d₁.addr ndirect) :=
        ⟨hi, htype, hd₁, by rw [hself]; rfl⟩
      have hrange := hg₁.owned.range hown
      have hgrown := hg₁.owned.attachWord (P := P) hok hi htype hb hlt (by rwa [hself])
        (by rwa [hself]) (by rwa [hbn'])
      rw [hself, ← h₂.view] at hgrown
      have hlt' := hok.inodestart_lt_nmeta
      apply wp_logWrite hok h₂.trans (by omega) hrange.2 fun e he hn => hE e he fun hst =>
        hn ((hst.after (n := 3) hg₁ ht₁).log.after h₂.logged)
      intro s₃ h₃
      rw [wp_pure]
      rw [← h₃.view] at hgrown
      have htouch : Touched c s s₃ ip d₁ 5 := by
        have h23 := (h₂.trans' h₃).touched ip
        rw [ht₁.copy] at h23
        exact ht₁.trans' h23
      have haddr : blockAt s₃.view d₁ bn = b := by
        rw [blockAt_of_indirect _ _ hle hbn hd₁, h₃.view, update_self,
          word_setWord _ _ _ hlt, if_pos rfl]
      have := hQ d₁ s₃ (hg₁.trans_grown hgrown) htouch hsame'
        (by rw [haddr]; exact hg₁.owned.fresh_ne hb)
      rw [haddr] at this
      exact this
    · next h0 =>
      have := hQ d₁ s₁ hg₁ (ht₁.mono (by omega)) hsame'
      rw [blockAt_of_indirect _ _ hle hbn hd₁] at this
      exact this h0

end Bmap

/-! ## Reading -/

section Read

variable {ip : Fin ninode}

/-- The bytes of one iteration of the loops of `readi` and `writei` lie in one block. -/
theorem chunk_index {i : Nat} (hm : m ≤ bsize - off % bsize) (hi : i < m) :
    (off + i) / bsize = off / bsize ∧ (off + i) % bsize = off % bsize + i := by
  simp only [bsize] at *
  omega

/-- The bytes that the loop of `readi` collects: those of one block, and the rest. -/
theorem map_range_chunk (g : Nat → UInt8) (off : Nat) {k : Nat} (h : m ≤ k) :
    (List.range m).map (fun i => g (off + i)) ++
      (List.range (k - m)).map (fun i => g (off + m + i)) =
    (List.range k).map (fun i => g (off + i)) := by
  obtain ⟨r, rfl⟩ := Nat.exists_eq_add_of_le h
  rw [List.range_add, List.map_append, List.map_map, Nat.add_sub_cancel_left]
  congr 1
  apply List.map_congr_left
  intro i _
  simp only [Function.comp_apply, Nat.add_assoc]

theorem map_byte_chunk (v : Disk Blk) (d : Dinode) (hm : m ≤ bsize - off % bsize)
    (hb : blockAt v d (off / bsize) ≠ 0) :
    (List.range m).map (fun i => (v (blockAt v d (off / bsize)).toNat).byte (off % bsize + i)) =
      (List.range m).map (fun i => byteAt v d (off + i)) := by
  apply List.map_congr_left
  intro i hi
  obtain ⟨hdiv, hmod⟩ := chunk_index hm (List.mem_range.mp hi)
  rw [byteAt, hdiv, hmod, if_neg hb]

/-- The loop of `readi` where every block is there: the state stays. -/
theorem wp_readFrom_mapped {n : Nat} {Q : List UInt8 → St → Prop} (fuel : Nat) {tot : Nat}
    (hfuel : n - tot ≤ fuel)
    (hmap : ∀ o, off ≤ o → o < off + (n - tot) → blockAt s.view (s.icache ip).copy (o / bsize) ≠ 0)
    (hQ : Q ((List.range (n - tot)).map fun i => byteAt s.view (s.icache ip).copy (off + i)) s) :
    wp (readFrom c ip n fuel tot off) Q E s := by
  induction fuel generalizing tot off Q with
  | zero =>
    have h0 : n - tot = 0 := by omega
    rw [h0] at hQ
    exact hQ
  | succ fuel ih =>
    unfold readFrom
    by_cases hlt : tot < n
    · rw [if_pos hlt, wp_bind]
      have hmod : off % bsize < bsize := Nat.mod_lt _ (by decide)
      have hb := hmap off le_rfl (by omega)
      apply wp_bmap_mapped hb
      simp only [wp_bind, wp_bread]
      apply ih (by omega)
      · intro o h1 h2
        exact hmap o (by omega) (by omega)
      · rw [wp_pure, map_byte_chunk _ _ (Nat.min_le_right _ _) hb, ← Nat.sub_sub,
          map_range_chunk _ off (Nat.min_le_left _ _)]
        exact hQ
    · have h0 : n - tot = 0 := by omega
      rw [if_neg hlt]
      rw [h0] at hQ
      exact hQ

end Read

/-! ## Writing -/

section Write

variable {T : Nat → Dinode} {i : Nat} {ip : Fin ninode} {P : Finset Place}

/-- The bytes of a file after `n` bytes of `src` have been written at `off`. -/
def overwrite (g : Nat → UInt8) (off n : Nat) (src : Nat → UInt8) : Nat → UInt8 :=
  fun o => if off ≤ o ∧ o < off + n then src (o - off) else g o

theorem overwrite_zero (g : Nat → UInt8) (off : Nat) (src : Nat → UInt8) :
    overwrite g off 0 src = g := by
  funext o
  rw [overwrite, if_neg (by omega)]

/-- A write is a write of its first bytes and then of the others. -/
theorem overwrite_split (g : Nat → UInt8) (off : Nat) {k : Nat} (src : Nat → UInt8) (h : m ≤ k) :
    overwrite (overwrite g off m src) (off + m) (k - m) (fun i => src (m + i)) =
      overwrite g off k src := by
  funext o
  simp only [overwrite]
  by_cases h1 : off + m ≤ o ∧ o < off + m + (k - m)
  · rw [if_pos h1, if_pos (by omega)]
    congr 1
    omega
  · rw [if_neg h1]
    by_cases h2 : off ≤ o ∧ o < off + m
    · rw [if_pos h2, if_pos (by omega)]
    · rw [if_neg h2, if_neg (by omega)]

/-- The block of one iteration of `writei`, spliced, holds the bytes of the overwritten file. -/
theorem byte_splice_chunk (v : Disk Blk) (d : Dinode) (src : Nat → UInt8)
    (hm : m ≤ bsize - off % bsize) (hb : blockAt v d (off / bsize) ≠ 0) (o : Nat) :
    (if o / bsize = off / bsize then
        ((v (blockAt v d (off / bsize)).toNat).splice (off % bsize) m src).byte (o % bsize)
      else byteAt v d o) = overwrite (byteAt v d) off m src o := by
  have hmod : o % bsize < bsize := Nat.mod_lt _ (by decide)
  have hoff : off % bsize < bsize := Nat.mod_lt _ (by decide)
  have ho := Nat.div_add_mod o bsize
  have ho' := Nat.div_add_mod off bsize
  rw [overwrite]
  by_cases hdiv : o / bsize = off / bsize
  · rw [if_pos hdiv]
    rw [hdiv] at ho
    by_cases hin : off ≤ o ∧ o < off + m
    · rw [if_pos hin, Block.byte_splice_of_mem _ _ (by omega) (by omega) hmod]
      congr 1
      omega
    · rw [if_neg hin, Block.byte_splice_of_notMem _ _ (by omega), byteAt, hdiv, if_neg hb]
  · rw [if_neg hdiv, if_neg]
    rintro ⟨h1, h2⟩
    apply hdiv
    obtain ⟨hd, -⟩ := chunk_index (i := o - off) hm (by omega)
    rwa [Nat.add_sub_cancel' h1] at hd

/-- One iteration of the loop of `writei`. -/
theorem wp_writeIter (hok : c.sb.Ok) (hs : InTrans c s) (ho : Owned c.sb s.view T)
    (hi : i < c.sb.ninodes) (ht : (T i).type ≠ 0) (hcopy : (s.icache ip).copy = T i)
    (src : Nat → UInt8) (hbn : off / bsize < maxfile)
    (hm : m ≤ bsize - off % bsize) (hP : places (off / bsize) ⊆ P)
    (hE : ∀ e, e.Exhausted → ¬ Stock c s (T i) P 6 → E e) {Q : Unit → St → Prop}
    (hQ : ∀ d' s', Changed c.sb s.view T i s'.view d'
        (overwrite (byteAt s.view (T i)) off m src) P →
      Touched c s s' ip d' 6 → blockAt s'.view d' (off / bsize) ≠ 0 →
      (blockAt s.view (T i) (off / bsize) ≠ 0 → d' = T i) → Q () s') :
    wp (bmap c ip (off / bsize)) (fun b s₁ =>
      wp (logWrite c b.toNat fun bp => bp.splice (off % bsize) m src) Q E s₁) E s := by
  apply wp_bmap hok hs ho hi ht hcopy hbn hP
    fun e he hn => hE e he fun hst => hn ⟨hst.blocks, hst.log.after (m := 1) (by omega)⟩
  intro d₁ s₁ hg₁ ht₁ hsame hb
  have hself : update T i d₁ i = d₁ := update_self _ _ _
  have htype : (update T i d₁ i).type ≠ 0 := by rw [hself, hg₁.fields]; exact ht
  have hown : Owns c.sb s₁.view (update T i d₁) i (.data (off / bsize))
      (blockAt s₁.view d₁ (off / bsize)) := ⟨hi, htype, hb, by rw [hself]; rfl⟩
  have hrange := hg₁.owned.range hown
  have hino := hok.inodestart_lt_nmeta
  apply wp_logWrite hok ht₁.trans (by omega) hrange.2
    fun e he hn => hE e he fun hst => hn (hst.after hg₁ ht₁).log
  intro s₂ h₂
  have hw := hg₁.owned.writeBlock (P := P) hok hown
    ((s₁.view (blockAt s₁.view d₁ (off / bsize)).toNat).splice (off % bsize) m src)
  rw [← h₂.view, hself] at hw
  have hblk : blockAt s₂.view d₁ (off / bsize) = blockAt s₁.view d₁ (off / bsize) := by
    have := hw.mapped (off / bsize)
    rw [hself] at this
    exact this hb
  have ht₂ := h₂.touched ip
  rw [ht₁.copy] at ht₂
  refine hQ d₁ s₂ ?_ (ht₁.trans' ht₂) (by rw [hblk]; exact hb) hsame
  have hbytes : byteAt s₁.view d₁ = byteAt s.view (T i) := funext hg₁.bytes
  have hg : (fun o => if o / bsize = off / bsize then
        ((s₁.view (blockAt s₁.view d₁ (off / bsize)).toNat).splice (off % bsize) m src).byte
          (o % bsize)
      else byteAt s₁.view d₁ o) = overwrite (byteAt s.view (T i)) off m src := by
    funext o
    rw [byte_splice_chunk _ _ _ hm hb, hbytes]
  rw [hg] at hw
  exact hg₁.trans hw

/-- **The loop of `writei`.** The bytes are written, the blocks for them are there, and the copy of
the inode changes only if one of them was not. -/
theorem wp_writeFrom (hok : c.sb.Ok) (hs : InTrans c s) (ho : Owned c.sb s.view T)
    (hi : i < c.sb.ninodes) (ht : (T i).type ≠ 0) (hcopy : (s.icache ip).copy = T i)
    (src : Nat → UInt8) {n : Nat} {Q : Nat → St → Prop} (fuel : Nat) {tot k : Nat}
    (hfuel : n - tot ≤ fuel) (hmax : off + (n - tot) ≤ maxfile * bsize)
    (hk : 0 < n - tot → off % bsize + (n - tot) ≤ k * bsize)
    (hP : spanned off (n - tot) ⊆ P)
    (hE : ∀ e, e.Exhausted → ¬ Stock c s (T i) P (6 * k) → E e)
    (hQ : ∀ d' s', Changed c.sb s.view T i s'.view d'
        (overwrite (byteAt s.view (T i)) off (n - tot) fun k => src (tot + k)) P →
      Touched c s s' ip d' (6 * k) →
      (∀ o, off ≤ o → o < off + (n - tot) → blockAt s'.view d' (o / bsize) ≠ 0) →
      ((∀ o, off ≤ o → o < off + (n - tot) → blockAt s.view (T i) (o / bsize) ≠ 0) → d' = T i) →
      Q (off + (n - tot)) s') :
    wp (writeFrom c ip src n fuel tot off) Q E s := by
  induction fuel generalizing s T tot off k Q with
  | zero =>
    have h0 : n - tot = 0 := by omega
    rw [h0, overwrite_zero] at hQ
    exact hQ (T i) s (Grown.refl ho i) (hcopy ▸ Touched.refl hs ip _) (fun o h1 h2 => by omega)
      (fun _ => rfl)
  | succ fuel ih =>
    unfold writeFrom
    by_cases hlt : tot < n
    · rw [if_pos hlt, wp_bind]
      have hmod : off % bsize < bsize := Nat.mod_lt _ (by decide)
      have hbn : off / bsize < maxfile := by simp only [bsize, maxfile] at *; omega
      simp only [wp_bind]
      generalize hm : min (n - tot) (bsize - off % bsize) = m
      have hm1 : m ≤ bsize - off % bsize := hm ▸ Nat.min_le_right _ _
      have hm2 : m ≤ n - tot := hm ▸ Nat.min_le_left _ _
      -- one of the `k` blocks is used up
      have hk' := hk (by omega)
      obtain ⟨k, rfl⟩ : ∃ k', k = k' + 1 :=
        Nat.exists_eq_succ_of_ne_zero fun h0 => by rw [h0] at hk'; omega
      have hsix : 6 * (k + 1) = 6 + 6 * k := by omega
      rw [hsix] at hE hQ
      apply wp_writeIter hok hs ho hi ht hcopy (fun k => src (tot + k)) hbn hm1
        ((places_subset_spanned le_rfl (by omega)).trans hP) fun e he hn => hE e he fun hst =>
          hn ⟨hst.blocks, LogRoom.after (m := 6 * k) (by rw [Nat.add_comm]; exact hst.log) (by omega)⟩
      intro d₁ s₁ hc₁ ht₁ hb₁ hsame₁
      have hself : update T i d₁ i = d₁ := update_self _ _ _
      have hbytes : byteAt s₁.view d₁ = _ := funext hc₁.bytes
      have hsub : n - (tot + m) = n - tot - m := by omega
      have hend : off + m + (n - tot - m) = off + (n - tot) := by omega
      have hk₁ : 0 < n - (tot + m) → (off + m) % bsize + (n - (tot + m)) ≤ k * bsize := by
        rw [Nat.succ_mul] at hk'
        simp only [bsize] at *
        omega
      apply ih ht₁.trans hc₁.owned (by rw [hself, hc₁.fields]; exact ht)
        (by rw [hself, ht₁.copy]) (by omega) (by omega) hk₁
        ((spanned_subset (by omega) (by omega)).trans hP)
        (fun e he hn => hE e he fun hst => hn (by rw [hself]; exact hst.after hc₁ ht₁))
      intro d₂ s₂ hc₂ ht₂ hfill hsame₂
      rw [hsub, hend] at *
      rw [hself] at hsame₂
      -- the two writes make one
      have hsplit := overwrite_split (byteAt s.view (T i)) off
        (fun k => src (tot + k)) hm2
      rw [hself, hbytes] at hc₂
      simp only [Nat.add_assoc] at hc₂ hsplit
      rw [hsplit] at hc₂
      refine hQ d₂ s₂ (hc₁.trans hc₂) (ht₁.trans' ht₂) (fun o h1 h2 => ?_) (fun hall => ?_)
      · by_cases ho : o < off + m
        · obtain ⟨hdiv, -⟩ := chunk_index (i := o - off) hm1 (by omega)
          rw [Nat.add_sub_cancel' h1] at hdiv
          have := hc₂.mapped (o / bsize)
          rw [hself, hdiv] at this
          rw [hdiv, this hb₁]
          exact hb₁
        · exact hfill o (by omega) (by omega)
      · have hd₁ := hsame₁ (hall off le_rfl (by omega))
        rw [← hd₁]
        apply hsame₂
        intro o h1 h2
        have hne := hall o (by omega) (by omega)
        rw [hc₁.mapped _ hne]
        exact hne
    · have h0 : n - tot = 0 := by omega
      rw [if_neg hlt]
      rw [h0, overwrite_zero] at hQ
      exact hQ (T i) s (Grown.refl ho i) (hcopy ▸ Touched.refl hs ip _) (fun o h1 h2 => by omega)
        (fun _ => rfl)

end Write

end Laboratorio.Xv6
