import Laboratorio.Xv6.Dir
import Laboratorio.Xv6.SharedWrite

/-!
# A write in pieces

`filewrite` writes at most `maxWrite` bytes in one transaction. With a free block for each block that
the file still lacks, no piece fails for want of blocks, and none fills the log (`wp_writeChunk`). So
a call writes all its bytes unless a piece would pass the maximal size of a file, and then it stops in
front of that piece (`written`).

The pieces leave what a single `writei` would. But where a later piece is too much, `filewrite` reports
a failure with the earlier ones written.
-/

namespace Laboratorio.Xv6

open Function Laboratorio.Bytes Laboratorio.Wp Shared

variable {c : Config} {f : Fin nfile} {k : Fin ninode} {i : Nat} {s : St} {a : Abs}
  {P : Finset Place} {E : Fault → Prop}

theorem maxWrite_eq : maxWrite = 1536 := rfl

/-! ## One piece -/

/-- A piece is written as a whole or not at all, and there are still enough free blocks. -/
theorem wp_writeChunk (hok : c.sb.Ok) (hlog : logsize ≤ c.sb.nlog) (h : Rep c s a)
    (ho : Opened f k i a) (h0 : a.outstanding = 0) (hc : a.committing = false)
    {src : Nat → UInt8} {n1 : Nat} (hpos : 0 < n1) (hle : n1 ≤ maxWrite)
    (hP : (a.ftable f).off.toNat + n1 ≤ maxfile * bsize → spanned (a.ftable f).off.toNat n1 ⊆ P)
    (hen : s.Enough c i P) {Q : Int → St → Prop}
    (hfail : (a.node i).data.length < (a.ftable f).off.toNat ∨
        maxfile * bsize < (a.ftable f).off.toNat + n1 →
      ∀ s', Rep c s' (wrote f k i a (a.ftable f).off (a.node i).data) → Q (-1) s')
    (hQ : (a.ftable f).off.toNat ≤ (a.node i).data.length →
      (a.ftable f).off.toNat + n1 ≤ maxfile * bsize →
      ∀ s', Rep c s' (wrote f k i a ((a.ftable f).off + UInt32.ofNat n1) (writeData (a.node i).data
        (a.ftable f).off.toNat ((List.range n1).map src))) → s'.Enough c i P → Q n1 s') :
    wp (writeChunk c f src n1) Q E s := by
  have hi : i < c.sb.ninodes := ho.inum ▸ (h.range ho.ref).2.2
  have hback : ∀ off data, { wrote f k i { a with outstanding := 1 } off data with
      outstanding := 0 } = wrote f k i a off data := by
    intro off data
    unfold wrote Abs.setNode Abs.setSlot
    simp only [h0]
  rw [writeChunk_eq, wp_bind]
  refine wp_beginOp h h0 hc fun s₁ h₁ hv₁ hlh => ?_
  have hen₁ : s₁.Enough c i P := by
    unfold St.Enough St.din at *
    rwa [hv₁]
  -- four blocks at most, with six calls of `log_write` for each of them
  have hroom : LogRoom c s₁ (6 * 4 + 1) := by
    constructor
    · rw [hlh]
      decide
    · rw [hlh]
      exact lt_of_lt_of_le (by decide) hlog
  have hend : ∀ {s₂ off data} {r : Int}, Rep c s₂ (wrote f k i { a with outstanding := 1 } off data) →
      (∀ s', Rep c s' (wrote f k i a off data) →
        (∀ b, c.sb.inodestart ≤ b → s'.view b = s₂.view b) → Q r s') →
      wp (do endOp c; return r) Q E s₂ := by
    intro s₂ off data r h₂ hQ₂
    rw [wp_bind]
    refine wp_endOp hok h₂ rfl hc fun s₃ h₃ hv₃ => hQ₂ s₃ ?_ hv₃
    rwa [hback] at h₃
  rw [wp_bind]
  refine wp_writeLocked (m := 4) hok h₁ { ho with } Nat.one_pos hpos ?_ ?_ hP
    (fun e he hn => absurd ⟨hen₁, hroom⟩ hn) (fun hbad s₂ h₂ _ => ?_) fun hoff hmax s₂ h₂ hen₂ => ?_
  · rw [maxWrite_eq] at hle
    omega
  · rw [maxWrite_eq] at hle
    simp only [bsize]
    omega
  · exact hend h₂ fun s' h' _ => hfail hbad s' h'
  · refine hend h₂ fun s' h' hv' => hQ hoff hmax s' h' ((hen₂ hen₁).congr hok h₂.core hi ?_ hv')
    have htype : (s₂.nodes c i).type = tFile := by
      rw [h₂.node]
      show (update a.node i _ i).type = _
      rw [update_self]
      exact ho.file
    rw [← St.type_nodes hi, htype]
    decide

/-! ## The loop -/

/-- How many of `n` bytes `filewrite` writes: all if they fit, otherwise the pieces that do. -/
def written (size off n : Nat) : Nat :=
  if size < off then 0
  else if off + n ≤ maxfile * bsize then n
  else (maxfile * bsize - off) / maxWrite * maxWrite

theorem written_of_done {size off n : Nat} (hsize : size ≤ maxfile * bsize)
    (h : 0 < n → off ≤ size ∧ off + n ≤ maxfile * bsize) : written size off n = n := by
  unfold written
  split
  · omega
  · rw [if_pos]
    omega

/-- The piece at `m` is the first one that fails. -/
theorem written_of_stop {size off n m : Nat} (hm : m < n) (hdvd : maxWrite ∣ m)
    (hpos : 0 < m → off ≤ size ∧ off + m ≤ maxfile * bsize)
    (hstop : m = 0 ∧ size < off ∨
      off ≤ size ∧ size ≤ maxfile * bsize ∧ maxfile * bsize < off + m + min (n - m) maxWrite) :
    written size off n = m := by
  unfold written
  obtain ⟨j, rfl⟩ := hdvd
  rcases hstop with ⟨h0, hlt⟩ | ⟨hle, hsize, hstop⟩
  · rw [if_pos hlt, h0]
  · rw [if_neg (by omega), if_neg (by omega), Nat.mul_comm]
    congr 1
    simp only [maxWrite_eq, maxfile, bsize] at *
    omega

variable (f i) in
/-- The data of the file with `m` bytes of `src` written. -/
def dataAfter (a : Abs) (src : Nat → UInt8) (m : Nat) : List UInt8 :=
  writeData (a.node i).data (a.ftable f).off.toNat ((List.range m).map src)

variable (f k i) in
/-- Between two pieces, with `m` bytes of `src` written since `a`. -/
structure Progress (a : Abs) (src : Nat → UInt8) (m : Nat) (b : Abs) : Prop where
  opened : Opened f k i b
  node : b.node i = { a.node i with data := dataAfter f i a src m }
  off : (b.ftable f).off = (a.ftable f).off + UInt32.ofNat m
  outstanding : b.outstanding = 0
  committing : b.committing = false

variable {src : Nat → UInt8} {m n : Nat} {b : Abs}

theorem dataAfter_zero (a : Abs) (src : Nat → UInt8) : dataAfter f i a src 0 = (a.node i).data :=
  writeData_nil _ _

theorem dataAfter_add (n1 : Nat) (hoff : (a.ftable f).off.toNat ≤ (a.node i).data.length) :
    writeData (dataAfter f i a src m) ((a.ftable f).off.toNat + m)
      ((List.range n1).map fun j => src (m + j)) = dataAfter f i a src (m + n1) := by
  have hbytes : (List.range (m + n1)).map src =
      (List.range m).map src ++ (List.range n1).map fun j => src (m + j) := by
    rw [List.range_add, List.map_append, List.map_map]
    rfl
  have hlen : ((List.range m).map src).length = m := by rw [List.length_map, List.length_range]
  have hdata := writeData_writeData ((List.range m).map src)
    ((List.range n1).map fun j => src (m + j)) hoff
  rw [hlen, ← hbytes] at hdata
  exact hdata

/-- The offset is behind the end only before the first piece. -/
theorem length_dataAfter_lt (src : Nat → UInt8)
    (hpos : 0 < m → (a.ftable f).off.toNat ≤ (a.node i).data.length) :
    (dataAfter f i a src m).length < (a.ftable f).off.toNat + m ↔
      (a.node i).data.length < (a.ftable f).off.toNat := by
  by_cases hin : (a.ftable f).off.toNat ≤ (a.node i).data.length
  · rw [dataAfter, length_writeData _ hin, List.length_map, List.length_range]
    omega
  · obtain rfl : m = 0 := Nat.eq_zero_of_not_pos fun h => hin (hpos h)
    rw [dataAfter_zero, Nat.add_zero]

theorem Progress.refl (ho : Opened f k i a) (h0 : a.outstanding = 0) (hc : a.committing = false) :
    Progress f k i a src 0 a where
  opened := ho
  node := by rw [dataAfter_zero]
  off := (UInt32.add_zero _).symm
  outstanding := h0
  committing := hc

theorem Progress.toNat_off (h : Progress f k i a src m b)
    (hlt : (a.ftable f).off.toNat + m < 2 ^ 32) :
    (b.ftable f).off.toNat = (a.ftable f).off.toNat + m := by
  rw [h.off, UInt32.toNat_add, UInt32.toNat_ofNat_of_lt' (by show m < 2 ^ 32; omega),
    Nat.mod_eq_of_lt hlt]

theorem Progress.wrote (h : Progress f k i a src m b) {m' : Nat} {off : UInt32}
    (hoff : off = (a.ftable f).off + UInt32.ofNat m') :
    Progress f k i a src m' (wrote f k i b off (dataAfter f i a src m')) := by
  have hslot : (Shared.wrote f k i b off (dataAfter f i a src m')).slot k =
      { b.slot k with valid := true } := update_self ..
  have hnode : (Shared.wrote f k i b off (dataAfter f i a src m')).node i =
      { b.node i with data := dataAfter f i a src m' } := update_self ..
  have hfile : (Shared.wrote f k i b off (dataAfter f i a src m')).ftable f =
      { b.ftable f with off := off } := update_self ..
  refine ⟨⟨?_, ?_, ?_, ?_, ?_⟩, ?_, ?_, h.outstanding, h.committing⟩
  · rw [hfile]
    exact h.opened.ip
  · rw [hslot]
    exact h.opened.ref
  · rw [hslot]
    exact h.opened.inum
  · rw [hslot]
    exact h.opened.lock
  · rw [hnode]
    exact h.opened.file
  · rw [hnode, h.node]
  · rw [hfile, hoff]

/-- **The loop of `filewrite`**, with `m` bytes written. -/
theorem wp_filewriteFrom (hok : c.sb.Ok) (hlog : logsize ≤ c.sb.nlog)
    (hsize : (a.node i).data.length ≤ maxfile * bsize)
    (hP : spanned (a.ftable f).off.toNat (min n (maxfile * bsize - (a.ftable f).off.toNat)) ⊆ P)
    (fuel : Nat) (hfuel : n - m ≤ fuel) (hm : m ≤ n) (hdvd : m < n → maxWrite ∣ m)
    (hpos : 0 < m → (a.ftable f).off.toNat ≤ (a.node i).data.length ∧
      (a.ftable f).off.toNat + m ≤ maxfile * bsize)
    (h : Rep c s b) (hb : Progress f k i a src m b) (hen : s.Enough c i P) {Q : Nat → St → Prop}
    (hQ : ∀ W s' b', W = written (a.node i).data.length (a.ftable f).off.toNat n → Rep c s' b' →
      Progress f k i a src W b' → Q W s') :
    wp (filewriteFrom c f src n fuel m) Q E s := by
  have hbig : maxfile * bsize < 2 ^ 32 := by decide
  have hlt := (a.ftable f).off.toNat_lt
  induction fuel generalizing s b m with
  | zero =>
    obtain rfl : m = n := by omega
    exact hQ m s b (written_of_done hsize hpos).symm h hb
  | succ fuel ih =>
    unfold filewriteFrom
    by_cases hmn : m < n
    · rw [if_pos hmn, wp_bind]
      generalize hn1 : min (n - m) maxWrite = n1
      have hle : n1 ≤ maxWrite := hn1 ▸ Nat.min_le_right _ _
      have hpos₁ : 0 < n1 := by
        rw [← hn1, maxWrite_eq]
        omega
      have hoff := hb.toNat_off (by omega)
      have hdata : (b.node i).data = dataAfter f i a src m := by rw [hb.node]
      have hlen := length_dataAfter_lt src fun h => (hpos h).1
      rw [← hdata, ← hoff] at hlen
      refine wp_writeChunk (P := P) hok hlog h hb.opened hb.outstanding hb.committing hpos₁ hle ?_
        hen (fun hbad s' h' => ?_) fun hin hmax s' h' hen' => ?_
      · intro hmax
        rw [hoff] at hmax ⊢
        exact (spanned_subset (by omega) (by omega)).trans hP
      · -- the piece does not fit
        rw [hdata] at h'
        rw [if_pos (by decide), wp_pure]
        refine hQ m s' _ (written_of_stop hmn (hdvd hmn) hpos ?_).symm h' (hb.wrote hb.off)
        rw [hlen, hoff] at hbad
        omega
      · have hin₀ : (a.ftable f).off.toNat ≤ (a.node i).data.length := by
          rw [← Nat.not_lt, hlen] at hin
          omega
        rw [hdata, hoff, dataAfter_add n1 hin₀] at h'
        rw [hoff] at hmax
        rw [if_neg (by omega), if_neg (not_not.mpr rfl)]
        refine ih (by omega) (by omega) ?_ (fun _ => ⟨hin₀, by omega⟩) h' (hb.wrote ?_) hen'
        · intro hlast
          have : n1 = maxWrite := by omega
          rw [this]
          exact Nat.dvd_add (hdvd hmn) (dvd_refl _)
        · rw [hb.off, UInt32.add_assoc, UInt32.ofNat_add]
    · obtain rfl : m = n := by omega
      rw [if_neg hmn]
      exact hQ m s b (written_of_done hsize hpos).symm h hb

/-! ## `filewrite` -/

/-- A state between two calls, in which `f` is open on the regular file `i`. -/
structure Between (c : Config) (s : St) (f : Fin nfile) (k : Fin ninode) (i : Nat) : Prop where
  core : Core c s
  outstanding : s.outstanding = 0
  committing : s.committing = false
  type : (s.ftable f).type = .inode
  opened : Opened f k i (s.abs c)

/-- **What `filewrite` does.** -/
theorem exists_filewrite (src : Nat → UInt8) (hok : c.sb.Ok) (hlog : logsize ≤ c.sb.nlog)
    (h : Between c s f k i) (hw : (s.ftable f).writable = true)
    (hen : s.Enough c i (spanned (s.ftable f).off.toNat
      (min n (maxfile * bsize - (s.ftable f).off.toNat)))) :
    ∃ m s', m = written (s.nodes c i).data.length (s.ftable f).off.toNat n ∧
      filewrite c f src n s = .ok (if m = n then (n : Int) else -1, s') ∧
      s'.nodes c i = { s.nodes c i with data := dataAfter f i (s.abs c) src m } ∧
      (s'.ftable f).off = (s.ftable f).off + UInt32.ofNat m := by
  have hrep : Rep c s (s.abs c) := ⟨h.core, rfl⟩
  have hsize : (s.nodes c i).data.length ≤ maxfile * bsize := by
    refine hrep.data_le ?_
    rw [h.opened.file]
    decide
  have hwp : wp (filewrite c f src n) (fun r s' => ∃ m b,
      m = written (s.nodes c i).data.length (s.ftable f).off.toNat n ∧
      r = (if m = n then (n : Int) else -1) ∧ Rep c s' b ∧ Progress f k i (s.abs c) src m b)
      (fun _ => False) s := by
    unfold filewrite
    simp only [wp_bind, wp_file, hw, h.type, Bool.true_eq_false, if_false]
    refine wp_filewriteFrom hok hlog hsize Finset.Subset.rfl n (by omega) (Nat.zero_le n)
      (fun _ => dvd_zero _) (fun h0 => absurd h0 (lt_irrefl 0)) hrep
      (.refl h.opened h.outstanding h.committing) hen fun W s' b' hW h' hb' => ?_
    exact ⟨W, b', hW, rfl, h', hb'⟩
  obtain ⟨r, s', hrun, m, b, hm, rfl, h', hb⟩ := hwp.exists_ok
  refine ⟨m, s', hm, hrun, ?_, ?_⟩
  · rw [h'.node]
    exact hb.node
  · have := hb.off
    rw [← h'.abs] at this
    exact this

/-- A single `writei` of all the bytes, in whatever transaction. -/
theorem writei_node (hok : c.sb.Ok) {t t' : St} (ht : Core c t) (hrun : 0 < t.outstanding)
    (href : 0 < (t.icache k).ref) (hvalid : (t.icache k).valid = true)
    (hfile : (t.nodes c (t.icache k).inum).type = tFile) {off : UInt32} (hn : n < 2 ^ 32) {r : Int}
    (hoff : off.toNat ≤ (t.nodes c (t.icache k).inum).data.length)
    (hmax : off.toNat + n ≤ maxfile * bsize)
    (hwrite : writei c k src off (UInt32.ofNat n) t = .ok (r, t')) :
    r = n ∧ t'.nodes c (t.icache k).inum = { t.nodes c (t.icache k).inum with
      data := writeData (t.nodes c (t.icache k).inum).data off.toNat ((List.range n).map src) } := by
  have hn' : (UInt32.ofNat n).toNat = n := UInt32.toNat_ofNat_of_lt' hn
  have hwp : wp (writei c k src off (UInt32.ofNat n)) (fun r t' => r = n ∧
      t'.nodes c (t.icache k).inum = { t.nodes c (t.icache k).inum with
        data := writeData (t.nodes c (t.icache k).inum).data off.toNat ((List.range n).map src) })
      (fun _ => True) t := by
    refine wp_writei (a := t.abs c) (m := n + 1) hok ⟨ht, rfl⟩ hrun href hvalid (fun _ => ?_)
      (fun _ => Finset.Subset.rfl) (fun _ _ _ => trivial) (fun hdev => ?_) (fun hbad => ?_)
      fun _ _ _ t' h' _ => ?_
    · rw [hn']
      simp only [bsize]
      omega
    · exact absurd (hfile.symm.trans hdev) (by decide)
    · rw [hn'] at hbad
      exact absurd hoff (by rcases hbad with hbad | hbad; exacts [Nat.not_le.mpr hbad, by omega])
    · rw [hn'] at h' ⊢
      refine ⟨rfl, ?_⟩
      rw [h'.node]
      exact update_self ..
  exact hwp.ok hwrite

/-- **Splitting a write changes nothing.** With enough free blocks `filewrite` writes all bytes, and
leaves the file as any `writei` of the bytes would that finds the file as it was. -/
theorem filewrite_eq_writei (hok : c.sb.Ok) (hlog : logsize ≤ c.sb.nlog) (h : Between c s f k i)
    (hw : (s.ftable f).writable = true)
    (hoff : (s.ftable f).off.toNat ≤ (s.nodes c i).data.length)
    (hmax : (s.ftable f).off.toNat + n ≤ maxfile * bsize)
    (hen : s.Enough c i (spanned (s.ftable f).off.toNat n)) (src : Nat → UInt8) :
    ∃ s', filewrite c f src n s = .ok ((n : Int), s') ∧
      (s'.ftable f).off.toNat = (s.ftable f).off.toNat + n ∧
      s'.nodes c i = { s.nodes c i with
        data := writeData (s.nodes c i).data (s.ftable f).off.toNat ((List.range n).map src) } ∧
      ∀ t t' k' r, Core c t → 0 < t.outstanding → 0 < (t.icache k').ref →
        (t.icache k').valid = true → (t.icache k').inum = i → t.nodes c i = s.nodes c i →
        writei c k' src (s.ftable f).off (UInt32.ofNat n) t = .ok (r, t') →
        r = n ∧ t'.nodes c i = s'.nodes c i := by
  have hbig : maxfile * bsize < 2 ^ 32 := by decide
  have hall : min n (maxfile * bsize - (s.ftable f).off.toNat) = n := by omega
  obtain ⟨m, s', rfl, hrun, hnode, hoff'⟩ := exists_filewrite (n := n) src hok hlog h hw
    (by rwa [hall])
  have hm : written (s.nodes c i).data.length (s.ftable f).off.toNat n = n := by
    rw [written, if_neg (by omega), if_pos hmax]
  rw [hm] at hrun hnode hoff'
  rw [if_pos rfl] at hrun
  refine ⟨s', hrun, ?_, hnode, ?_⟩
  · rw [hoff', UInt32.toNat_add, UInt32.toNat_ofNat_of_lt' (by show n < 2 ^ 32; omega),
      Nat.mod_eq_of_lt (by omega)]
  · intro t t' k' r ht hrunning href hvalid hinum hsame hwrite
    have hfile : (s.nodes c i).type = tFile := h.opened.file
    obtain ⟨hr, hnode'⟩ := writei_node hok ht hrunning href hvalid
      (by rw [hinum, hsame]; exact hfile) (by omega) (by rw [hinum, hsame]; exact hoff) hmax hwrite
    rw [hinum, hsame] at hnode'
    exact ⟨hr, hnode'.trans hnode.symm⟩

/-! An empty file on a disk with room for one of maximal size. -/

def largeConfig : Config := { smallConfig with sb := ⟨250, 215, 8, 30, 2, 32, 34⟩ }

/-- The blocks up to the bitmap are in use, and no others. -/
def largeDisk (type : Int16) (b : Nat) : Blk :=
  if b = 32 then setDinode Block.zero 1 (.ofType type)
  else if b = 34 then fun j => if j.val < 4 then 255 else if j.val = 4 then 7 else 0
  else Block.zero

def largeState : St := { smallState with mem := ⟨largeDisk tFile, fun _ => none⟩ }

theorem largeConfig_ok : largeConfig.sb.Ok := by
  constructor <;> decide

theorem largeState_between : Between largeConfig largeState 0 0 1 := by
  refine ⟨core_of_blank (k := 0) (by decide) rfl (by decide +kernel) (by decide +kernel)
    (by decide +kernel) ?_, rfl, rfl, rfl, ⟨rfl, by decide, rfl, rfl, by decide +kernel⟩⟩
  exact fun ip h => ⟨eq_zero_of_ref h, rfl, Nat.one_pos, show 1 < 8 by decide,
    fun hv => absurd hv Bool.false_ne_true⟩

/-- Every place of a file has a free block. -/
theorem enough_of_free (hfree : maxfile + 1 ≤ freeBlocks c.sb s.view) {off n : Nat}
    (h : off + n ≤ maxfile * bsize) : s.Enough c i (spanned off n) := by
  have hsub : spanned off n ⊆ insert .indirect ((Finset.range maxfile).image .data) := by
    intro p hp
    obtain ⟨o, ho, hp⟩ := Finset.mem_biUnion.mp hp
    have hlt := (Finset.mem_Ico.mp ho).2
    have hbn : o / bsize < maxfile := by
      simp only [maxfile, bsize] at *
      omega
    have hdata : Place.data (o / bsize) ∈ (Finset.range maxfile).image .data :=
      Finset.mem_image_of_mem _ (Finset.mem_range.mpr hbn)
    unfold places at hp
    split at hp
    · rw [Finset.mem_singleton] at hp
      exact hp ▸ Finset.mem_insert_of_mem hdata
    · rcases Finset.mem_insert.mp hp with rfl | hp
      · exact Finset.mem_insert_self _ _
      · rw [Finset.mem_singleton] at hp
        exact hp ▸ Finset.mem_insert_of_mem hdata
  have hinsert := Finset.card_insert_le Place.indirect ((Finset.range maxfile).image .data)
  have himage : ((Finset.range maxfile).image Place.data).card ≤ _ := Finset.card_image_le
  rw [Finset.card_range] at himage
  calc missing s.view (s.din c i) (spanned off n)
      ≤ (spanned off n).card := Finset.card_filter_le _ _
    _ ≤ _ := Finset.card_le_card hsub
    _ ≤ maxfile + 1 := by omega
    _ ≤ freeBlocks c.sb s.view := hfree

theorem largeState_enough (off n : Nat) (h : off + n ≤ maxfile * bsize) :
    largeState.Enough largeConfig 1 (spanned off n) :=
  enough_of_free (by decide +kernel) h

theorem largeState_off : (largeState.ftable 0).off.toNat = 0 := rfl

/-- Two pieces. -/
theorem filewrite_eq_writei_two_pieces :
    ∃ s', filewrite largeConfig 0 (fun _ => 1) 2000 largeState = .ok (2000, s') ∧
      (s'.ftable 0).off.toNat = 2000 := by
  obtain ⟨s', hrun, hoff, -⟩ := filewrite_eq_writei (n := 2000) largeConfig_ok (by decide)
    largeState_between rfl (Nat.zero_le _) (by decide) (largeState_enough _ _ (by decide)) fun _ => 1
  refine ⟨s', hrun, ?_⟩
  rw [hoff, largeState_off, Nat.zero_add]

/-- **When a failed write has written nothing**: the file is not open for writing, the first piece
fails, or nothing fails. -/
theorem filewrite_failed_unchanged_iff (hok : c.sb.Ok) (hlog : logsize ≤ c.sb.nlog)
    (h : Between c s f k i)
    (hen : s.Enough c i (spanned (s.ftable f).off.toNat
      (min n (maxfile * bsize - (s.ftable f).off.toNat)))) (src : Nat → UInt8) :
    (∀ s', filewrite c f src n s = .ok (-1, s') →
      (s'.nodes c i).data = (s.nodes c i).data ∧ (s'.ftable f).off = (s.ftable f).off) ↔
    (s.ftable f).writable = false ∨ (s.nodes c i).data.length < (s.ftable f).off.toNat ∨
      maxfile * bsize < (s.ftable f).off.toNat + min n maxWrite ∨
      (s.ftable f).off.toNat + n ≤ maxfile * bsize := by
  have hbig : maxfile * bsize < 2 ^ 32 := by decide
  cases hw : (s.ftable f).writable with
  | false =>
    refine iff_of_true (fun s' hs' => ?_) (.inl rfl)
    have hwp : wp (filewrite c f src n) (fun _ s' => s' = s) (fun _ => False) s := by
      unfold filewrite
      simp only [wp_bind, wp_file, hw, if_true, wp_pure]
    obtain rfl := hwp.ok hs'
    exact ⟨rfl, rfl⟩
  | true =>
    obtain ⟨m, s', hm, hrun, hnode, hoff⟩ := exists_filewrite src hok hlog h hw hen
    have hdata : (s'.nodes c i).data = dataAfter f i (s.abs c) src m := by rw [hnode]
    rw [hrun]
    constructor
    · intro hsame
      by_contra hcond
      simp only [Bool.true_eq_false, false_or, not_or, Nat.not_lt] at hcond
      obtain ⟨hin, hfirst, hlast⟩ := hcond
      -- the first piece has been written, and not all of them
      rw [written, if_neg (by omega), if_neg hlast] at hm
      have hm' : 0 < m ∧ m < n ∧ (s.ftable f).off.toNat + m ≤ maxfile * bsize := by
        simp only [maxWrite_eq, maxfile, bsize] at *
        omega
      rw [if_neg (by omega)] at hsame
      have hoff' := (hsame s' rfl).2
      rw [hoff, ← UInt32.toNat_inj, UInt32.toNat_add,
        UInt32.toNat_ofNat_of_lt' (by show m < 2 ^ 32; omega), Nat.mod_eq_of_lt (by omega)] at hoff'
      omega
    · intro hcond s'' hs''
      have hne : m ≠ n := by
        rintro rfl
        rw [if_pos rfl] at hs''
        cases hs''
      have hm0 : m = 0 := by
        rw [written] at hm
        simp only [Bool.true_eq_false, false_or] at hcond
        split at hm
        · exact hm
        · simp only [maxWrite_eq, maxfile, bsize] at *
          split at hm
          · exact absurd hm hne
          · omega
      obtain rfl : s' = s'' := by
        rw [if_neg hne] at hs''
        cases hs''
        rfl
      subst hm0
      refine ⟨?_, ?_⟩
      · rw [hdata, dataAfter_zero]
        rfl
      · rw [hoff]
        exact UInt32.add_zero _

/-- The file with its offset past the end. -/
def pastState : St := { largeState with ftable := fun f => { largeState.ftable f with off := 5 } }

/-- A write past the end fails, and writes nothing. -/
theorem filewrite_failed_unchanged_iff_past :
    ∃ s', filewrite largeConfig 0 (fun _ => 1) 1 pastState = .ok (-1, s') ∧
      (s'.nodes largeConfig 1).data = [] ∧ (s'.ftable 0).off = 5 := by
  obtain ⟨⟨h1, h2, h3, h4, h5, h6, h7, h8, h9⟩, ho, hc, ht, hopen⟩ := largeState_between
  have hbetween : Between largeConfig pastState 0 0 1 :=
    ⟨⟨h1, h2, h3, h4, h5, h6, h7, h8, h9⟩, ho, hc, ht,
      ⟨hopen.ip, hopen.ref, hopen.inum, hopen.lock, hopen.file⟩⟩
  have hen : ∀ off n, off + n ≤ maxfile * bsize → pastState.Enough largeConfig 1 (spanned off n) :=
    fun _ _ h => enough_of_free (by decide +kernel) h
  have hempty : (pastState.nodes largeConfig 1).data = [] := by decide +kernel
  obtain ⟨m, s', hm, hrun, -⟩ := exists_filewrite (n := 1) (fun _ => 1) largeConfig_ok (by decide)
    hbetween rfl (hen _ _ (by decide))
  rw [hempty] at hm
  obtain rfl : m = 0 := hm.trans (by decide)
  obtain ⟨hdata, hoff⟩ := (filewrite_failed_unchanged_iff largeConfig_ok (by decide) hbetween
    (hen _ _ (by decide)) _).mpr (.inr (.inl (by rw [hempty]; decide))) s' hrun
  exact ⟨s', hrun, hdata.trans hempty, hoff⟩

/-- **A write of one byte more than a file can hold**: it fails, with 46 pieces in the file. -/
theorem filewrite_fails_after_pieces :
    ∃ s', filewrite largeConfig 0 (fun _ => 1) (maxfile * bsize + 1) largeState = .ok (-1, s') ∧
      (s'.nodes largeConfig 1).data = List.replicate (46 * maxWrite) 1 ∧
      (s'.ftable 0).off.toNat = 46 * maxWrite ∧
      (largeState.nodes largeConfig 1).data = [] ∧ (largeState.ftable 0).off = 0 := by
  have hempty : (largeState.nodes largeConfig 1).data = [] := by decide +kernel
  obtain ⟨m, s', hm, hrun, hnode, hoff⟩ := exists_filewrite
    (n := maxfile * bsize + 1) (fun _ => 1) largeConfig_ok (by decide) largeState_between rfl
    (largeState_enough _ _ (by decide))
  rw [hempty] at hm
  obtain rfl : m = 46 * maxWrite := hm.trans (by decide)
  refine ⟨s', hrun, ?_, ?_, hempty, rfl⟩
  · simp only [hnode, dataAfter, St.abs, hempty, largeState_off, writeData, List.take_nil,
      List.drop_nil, List.nil_append, List.append_nil]
    rw [List.map_const', List.length_range]
  · have hbig : 46 * maxWrite < 2 ^ 32 := by decide
    rw [hoff, UInt32.toNat_add, largeState_off, UInt32.toNat_ofNat_of_lt' hbig, Nat.zero_add,
      Nat.mod_eq_of_lt hbig]

end Laboratorio.Xv6
