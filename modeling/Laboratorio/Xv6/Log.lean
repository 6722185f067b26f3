import Laboratorio.Lib.DiskProg
import Laboratorio.Xv6.Layout

/-!
# The redo log (`xv6/log.c`)

The log is a header block at `start` followed by `size - 1` log blocks. A transaction has changed
some blocks in the buffer cache and recorded their numbers in the in-memory header `lh`; `commit`
copies them to the log, writes the header, installs them in their home locations and clears the
header. After a restart `recoverFromLog` installs what a committed header names.

The block writes are those of `DiskProg`: the power can fail between any two of them. What `commit`
and `recoverFromLog` read and write is worked out here; `Crash` says what they leave on the disk.
-/

namespace Laboratorio.Xv6

open Function Laboratorio.DiskProg

/-- Where the log is: the fields `start` and `size` of `struct log`. -/
structure Log where
  start : Nat
  size : Nat

/-- The blocks of the log: the header and the log blocks. -/
def Log.Area (l : Log) (b : Nat) : Prop := l.start ≤ b ∧ b < l.start + l.size

instance (l : Log) (b : Nat) : Decidable (l.Area b) := inferInstanceAs (Decidable (_ ∧ _))

/-! ## The header block -/

/-- The number of iterations of a loop up to the `int` field `n` of a header block. -/
def headerCount (b : Blk) : Nat := (word b 0).toInt32.toInt.toNat

/-- The block numbers that a header block names. -/
def headerBlocks (b : Blk) : List UInt32 := (List.range (headerCount b)).map fun i => word b (i + 1)

/-- `hb->block[i] = log.lh.block[i]`, for the block numbers from index `i` on. -/
def putBlocks : Nat → List UInt32 → Blk → Blk
  | _, [], b => b
  | i, w :: ws, b => putBlocks (i + 1) ws (setWord b (i + 1) w)

/-- The header block with `lh` stored into it. -/
def putHeader (lh : List UInt32) (b : Blk) : Blk :=
  putBlocks 0 lh (setWord b 0 (UInt32.ofNat lh.length))

/-! ## Commit and recovery -/

/-- `install_trans` from log block `tail` on. -/
def installTrans (l : Log) : Nat → List UInt32 → Prog Blk Unit
  | _, [] => pure ()
  | tail, b :: bs => do
    let lbuf ← read (l.start + tail + 1)
    let _dbuf ← read b.toNat
    write b.toNat lbuf
    installTrans l (tail + 1) bs

/-- `read_head` -/
def readHead (l : Log) : Prog Blk (List UInt32) := do
  let buf ← read l.start
  return headerBlocks buf

/-- `write_head` -/
def writeHead (l : Log) (lh : List UInt32) : Prog Blk Unit := do
  let buf ← read l.start
  write l.start (putHeader lh buf)

/-- `recover_from_log` -/
def recoverFromLog (l : Log) : Prog Blk Unit := do
  let lh ← readHead l
  installTrans l 0 lh
  writeHead l []

/-- `write_log` from log block `tail` on. -/
def writeLog (l : Log) : Nat → List UInt32 → Prog Blk Unit
  | _, [] => pure ()
  | tail, b :: bs => do
    let _to ← read (l.start + tail + 1)
    let frm ← read b.toNat
    write (l.start + tail + 1) frm
    writeLog l (tail + 1) bs

/-- The blocks of `commit` that are written when `lh` is not empty. -/
def commitBlocks (l : Log) (lh : List UInt32) : Prog Blk Unit := do
  writeLog l 0 lh
  writeHead l lh
  installTrans l 0 lh
  writeHead l []

/-- `commit` -/
def commit (l : Log) (lh : List UInt32) : Prog Blk Unit :=
  if lh.length > 0 then commitBlocks l lh else pure ()

variable {l : Log} {lh bs : List UInt32} {v c : Disk Blk}

/-! ## What `log_write` records -/

/-- The two panics of `log_write`. -/
inductive LogFault where
  | tooBig
  | outsideOfTrans
deriving DecidableEq, Repr

/-- Record block `b` in the header, once. -/
def recordBlock (lh : List UInt32) (b : UInt32) : List UInt32 := if b ∈ lh then lh else lh ++ [b]

/-- What `log_write` does to the header: its two checks, and recording the block. -/
def Log.record (l : Log) (outstanding : Nat) (lh : List UInt32) (b : UInt32) :
    Except LogFault (List UInt32) :=
  if logsize ≤ lh.length ∨ (l.size : Int) - 1 ≤ lh.length then .error .tooBig
  else if outstanding < 1 then .error .outsideOfTrans
  else .ok (recordBlock lh b)

/-- What `log_write` maintains of the in-memory header: it fits in the header block and in the log,
and names blocks outside the log, each of them once. -/
structure Log.Fits (l : Log) (lh : List UInt32) : Prop where
  nodup : lh.Nodup
  header : lh.length ≤ logsize
  room : lh.length < l.size
  outside : ∀ b ∈ lh, ¬ l.Area b.toNat

theorem Log.record_ok {o : Nat} {lh' : List UInt32} {b : UInt32} (h : l.record o lh b = .ok lh') :
    lh' = recordBlock lh b ∧ lh.length < logsize ∧ lh.length + 1 < l.size ∧ 0 < o := by
  unfold Log.record at h
  split at h
  · cases h
  · next hsize =>
    split at h
    · cases h
    · next ho =>
      cases h
      refine ⟨rfl, ?_, ?_, ?_⟩ <;> omega

theorem mem_recordBlock {b c : UInt32} :
    c ∈ recordBlock lh b ↔ c ∈ lh ∨ c = b := by
  unfold recordBlock
  split
  · next h => exact ⟨.inl, fun hc => hc.elim id (fun e => e ▸ h)⟩
  · simp

theorem length_recordBlock_le (lh : List UInt32) (b : UInt32) :
    (recordBlock lh b).length ≤ lh.length + 1 := by
  unfold recordBlock
  split <;> simp

theorem length_le_recordBlock (lh : List UInt32) (b : UInt32) :
    lh.length ≤ (recordBlock lh b).length := by
  unfold recordBlock
  split <;> simp

/-- `log_write` keeps the in-memory header within its bounds. -/
theorem Log.Fits.record {o : Nat} {lh' : List UInt32} {b : UInt32}
    (hf : l.Fits lh) (hb : ¬ l.Area b.toNat) (h : l.record o lh b = .ok lh') : l.Fits lh' := by
  obtain ⟨rfl, hlog, hroom, -⟩ := Log.record_ok h
  have hlen := length_recordBlock_le lh b
  refine ⟨?_, by omega, by omega, ?_⟩
  · unfold recordBlock
    split
    · exact hf.nodup
    · next hmem => simpa [List.nodup_append] using ⟨hf.nodup, fun a ha e => hmem (e ▸ ha)⟩
  · intro c hc
    rcases mem_recordBlock.mp hc with hc | rfl
    · exact hf.outside c hc
    · exact hb

theorem Log.Fits.nil (h : 0 < l.size) : l.Fits [] where
  nodup := List.nodup_nil
  header := Nat.zero_le _
  room := h
  outside := fun _ hb => absurd hb List.not_mem_nil

/-! ## The header survives the disk -/

theorem word_putBlocks_of_le (ws : List UInt32) {i j : Nat} (b : Blk) (hj : j ≤ i)
    (hi : i + ws.length < nindirect) : word (putBlocks i ws b) j = word b j := by
  induction ws generalizing i b with
  | nil => rfl
  | cons w ws ih =>
    rw [List.length_cons] at hi
    rw [putBlocks, ih _ (by omega) (by omega), word_setWord b j w (by omega), if_neg (by omega)]

theorem word_putBlocks (ws : List UInt32) {i k : Nat} (b : Blk) (hi : i + ws.length < nindirect)
    (hk : k < ws.length) : word (putBlocks i ws b) (i + k + 1) = ws[k] := by
  induction ws generalizing i k b with
  | nil => simp at hk
  | cons w ws ih =>
    rw [List.length_cons] at hi hk
    cases k with
    | zero =>
      show word (putBlocks (i + 1) ws (setWord b (i + 1) w)) (i + 1) = w
      rw [word_putBlocks_of_le ws _ le_rfl (by omega), word_setWord b _ w (by omega), if_pos rfl]
    | succ k =>
      have := ih (i := i + 1) (k := k) (setWord b (i + 1) w) (by omega) (by omega)
      rw [show i + 1 + k + 1 = i + (k + 1) + 1 by omega] at this
      exact this

theorem headerCount_eq {b : Blk} {n : Nat} (h : word b 0 = UInt32.ofNat n) (hn : n ≤ logsize) :
    headerCount b = n := by
  have hn' : n ≤ 30 := hn
  rw [headerCount, h]
  interval_cases n <;> rfl

theorem headerBlocks_putHeader (b : Blk) (h : lh.length ≤ logsize) :
    headerBlocks (putHeader lh b) = lh := by
  have hlen : 0 + lh.length < nindirect := Nat.lt_of_le_of_lt (by omega) (by decide : logsize < 128)
  have hcount : headerCount (putHeader lh b) = lh.length := by
    apply headerCount_eq _ h
    rw [putHeader, word_putBlocks_of_le lh _ le_rfl hlen, word_setWord b 0 _ (by decide), if_pos rfl]
  apply List.ext_getElem
  · simp [headerBlocks, hcount]
  · intro k hk hk'
    have := word_putBlocks lh (setWord b 0 (UInt32.ofNat lh.length)) hlen hk'
    rw [Nat.zero_add] at this
    simpa [headerBlocks, putHeader] using this

theorem word_putHeader_nil (b : Blk) : word (putHeader [] b) 0 = 0 := by
  show word (setWord b 0 0) 0 = 0
  rw [word_setWord b 0 0 (by decide), if_pos rfl]

theorem headerBlocks_of_zero {b : Blk} (h : word b 0 = 0) : headerBlocks b = [] := by
  rw [headerBlocks, headerCount_eq (n := 0) h (Nat.zero_le _)]
  rfl

/-! ## The loops -/

/-- `c` with the blocks that `lh` names replaced by those of `v`. -/
def overlay (lh : List UInt32) (v c : Disk Blk) : Disk Blk :=
  fun b => if b ∈ lh.map UInt32.toNat then v b else c b

theorem overlay_of_mem {b : Nat} (h : b ∈ lh.map UInt32.toNat) : overlay lh v c b = v b := if_pos h

theorem overlay_of_notMem {b : Nat}
    (h : b ∉ lh.map UInt32.toNat) : overlay lh v c b = c b := if_neg h

/-- Writing the first block of an overlay and then the others. -/
theorem overlay_cons (w : UInt32) (lh : List UInt32) (v c : Disk Blk) :
    overlay (w :: lh) v c = overlay lh v (update c w.toNat (v w.toNat)) := by
  funext b
  by_cases hb : b ∈ lh.map UInt32.toNat
  · rw [overlay_of_mem hb, overlay_of_mem (List.mem_cons_of_mem _ hb)]
  · rw [overlay_of_notMem hb]
    by_cases hw : b = w.toNat
    · subst hw
      rw [overlay_of_mem List.mem_cons_self, update_self]
    · rw [overlay_of_notMem (by simpa [hw] using hb), update_of_ne hw]

/-- The log block of index `i` is in the log and is not the header. -/
theorem Log.area_slot {i : Nat} (h : i + 1 < l.size) : l.Area (l.start + i + 1) := by
  constructor <;> omega

theorem writes_writeLog (l : Log) (tail : Nat) (bs : List UInt32) (m : Mem Blk) :
    (writeLog l tail bs).writes m = bs.length := by
  induction bs generalizing tail m with
  | nil => rfl
  | cons b bs ih =>
    show (writeLog l (tail + 1) bs).writes _ + 1 = _
    rw [ih, List.length_cons]

/-- `write_log` writes only log blocks, wherever it is cut off. -/
theorem cut_writeLog (l : Log) (tail : Nat) (bs : List UInt32) (m : Mem Blk) (n : Nat) {b : Nat}
    (hroom : tail + bs.length < l.size) (hb : ¬ l.Area b ∨ b = l.start) :
    (writeLog l tail bs).cut m n b = m.disk b := by
  induction bs generalizing tail m n with
  | nil => rfl
  | cons w bs ih =>
    cases n with
    | zero => rfl
    | succ n =>
      rw [List.length_cons] at hroom
      have hne : b ≠ l.start + tail + 1 := by
        rintro rfl
        rcases hb with hb | hb
        · exact hb (Log.area_slot (by omega))
        · omega
      show (writeLog l (tail + 1) bs).cut _ n b = _
      rw [ih _ _ _ (by omega), Mem.disk_write, update_of_ne hne]

/-- What `write_log` leaves alone, on disk and in the cache. -/
theorem run_writeLog_of_notMem (l : Log) (tail : Nat) (bs : List UInt32) (m : Mem Blk) {b : Nat}
    (hb : ∀ i < bs.length, b ≠ l.start + (tail + i) + 1) :
    ((writeLog l tail bs).run m).2.disk b = m.disk b ∧
      ((writeLog l tail bs).run m).2.view b = m.view b := by
  induction bs generalizing tail m with
  | nil => exact ⟨rfl, rfl⟩
  | cons w bs ih =>
    have hne : b ≠ l.start + tail + 1 := hb 0 (by simp)
    have hrest : ∀ i < bs.length, b ≠ l.start + (tail + 1 + i) + 1 := by
      intro i hi
      have := hb (i + 1) (by simpa using hi)
      omega
    have := ih (tail + 1) (m.write (l.start + tail + 1) (m.view w.toNat)) hrest
    rw [Mem.disk_write, Mem.view_write, update_of_ne hne, update_of_ne hne] at this
    exact this

/-- `write_log` copies the blocks from the cache to the log. -/
theorem run_writeLog (l : Log) (tail : Nat) (m : Mem Blk)
    (hroom : tail + bs.length < l.size) (hout : ∀ b ∈ bs, ¬ l.Area b.toNat) {i : Nat}
    (hi : i < bs.length) :
    ((writeLog l tail bs).run m).2.disk (l.start + (tail + i) + 1) = m.view bs[i].toNat ∧
      ((writeLog l tail bs).run m).2.view (l.start + (tail + i) + 1) = m.view bs[i].toNat := by
  induction bs generalizing tail m i with
  | nil => simp at hi
  | cons w bs ih =>
    rw [List.length_cons] at hroom hi
    cases i with
    | zero =>
      -- the blocks copied later go to later log blocks
      have := run_writeLog_of_notMem l (tail + 1) bs
        (m.write (l.start + tail + 1) (m.view w.toNat)) (b := l.start + tail + 1)
        (fun i _ => by omega)
      rw [Mem.disk_write, Mem.view_write, update_self, update_self] at this
      exact this
    | succ i =>
      have hb := hout _ (List.mem_cons_of_mem w (List.getElem_mem (Nat.lt_of_succ_lt_succ hi)))
      have hne : bs[i].toNat ≠ l.start + tail + 1 :=
        fun e => hb (e ▸ Log.area_slot (by omega))
      have := ih (tail + 1) (m.write (l.start + tail + 1) (m.view w.toNat)) (by omega)
        (fun b hb => hout b (List.mem_cons_of_mem w hb)) (i := i) (by omega)
      rw [Mem.view_write, update_of_ne hne,
        show l.start + (tail + 1 + i) + 1 = l.start + (tail + (i + 1)) + 1 by omega] at this
      exact this

/-- The log blocks from index `tail` on hold `v` of the home blocks `bs`. -/
def Logged (l : Log) (tail : Nat) (bs : List UInt32) (v c : Disk Blk) : Prop :=
  ∀ i (h : i < bs.length), c (l.start + (tail + i) + 1) = v bs[i].toNat

theorem Logged.head {tail : Nat} {w : UInt32}
    (h : Logged l tail (w :: bs) v c) : c (l.start + tail + 1) = v w.toNat :=
  h 0 (by simp)

/-- Installing the first block leaves the log blocks of the others. -/
theorem Logged.tail {tail : Nat} {w : UInt32}
    (h : Logged l tail (w :: bs) v c) (hroom : tail + (w :: bs).length < l.size)
    (hw : ¬ l.Area w.toNat) (x : Blk) :
    Logged l (tail + 1) bs v (update c w.toNat x) := by
  intro i hi
  rw [List.length_cons] at hroom
  have hne : l.start + (tail + 1 + i) + 1 ≠ w.toNat :=
    fun e => hw (e ▸ Log.area_slot (by omega))
  rw [update_of_ne hne]
  have := h (i + 1) (by simpa using hi)
  rw [show l.start + (tail + (i + 1)) + 1 = l.start + (tail + 1 + i) + 1 by omega] at this
  exact this

theorem installTrans_cons (l : Log) (tail : Nat) (w : UInt32) (bs : List UInt32) (m : Mem Blk) :
    ((installTrans l tail (w :: bs)).run m).2 =
      ((installTrans l (tail + 1) bs).run (m.write w.toNat (m.view (l.start + tail + 1)))).2 :=
  rfl

/-- `install_trans` cut off anywhere has installed some of the blocks. -/
theorem cut_installTrans (tail : Nat) {m : Mem Blk}
    (hroom : tail + bs.length < l.size) (hout : ∀ b ∈ bs, ¬ l.Area b.toNat)
    (hlog : Logged l tail bs v m.view) (n : Nat) (b : Nat) :
    (installTrans l tail bs).cut m n b = m.disk b ∨
      (b ∈ bs.map UInt32.toNat ∧ (installTrans l tail bs).cut m n b = v b) := by
  induction bs generalizing tail m n with
  | nil => exact .inl rfl
  | cons w bs ih =>
    cases n with
    | zero => exact .inl rfl
    | succ n =>
      have hw := hout w List.mem_cons_self
      have hrest := ih (tail + 1) (m := m.write w.toNat (m.view (l.start + tail + 1)))
        (by rw [List.length_cons] at hroom; omega)
        (fun b hb => hout b (List.mem_cons_of_mem w hb))
        (by rw [Mem.view_write]; exact hlog.tail hroom hw _) n
      rw [hlog.head, Mem.disk_write] at hrest
      show (installTrans l (tail + 1) bs).cut (m.write w.toNat (m.view (l.start + tail + 1))) n b
          = _ ∨ _ ∧ (installTrans l (tail + 1) bs).cut
            (m.write w.toNat (m.view (l.start + tail + 1))) n b = _
      rw [hlog.head]
      rcases hrest with hold | ⟨hmem, hnew⟩
      · by_cases hbw : b = w.toNat
        · subst hbw
          rw [update_self] at hold
          exact .inr ⟨List.mem_cons_self, hold⟩
        · rw [update_of_ne hbw] at hold
          exact .inl hold
      · exact .inr ⟨List.mem_cons_of_mem _ hmem, hnew⟩

/-- `install_trans` installs the blocks, on disk and in the cache. -/
theorem run_installTrans (tail : Nat) {m : Mem Blk}
    (hroom : tail + bs.length < l.size) (hout : ∀ b ∈ bs, ¬ l.Area b.toNat)
    (hlog : Logged l tail bs v m.view) :
    ((installTrans l tail bs).run m).2.disk = overlay bs v m.disk ∧
      ((installTrans l tail bs).run m).2.view = overlay bs v m.view := by
  induction bs generalizing tail m with
  | nil => exact ⟨rfl, rfl⟩
  | cons w bs ih =>
    have hw := hout w List.mem_cons_self
    have hrest := ih (tail + 1) (m := m.write w.toNat (m.view (l.start + tail + 1)))
      (by rw [List.length_cons] at hroom; omega)
      (fun b hb => hout b (List.mem_cons_of_mem w hb))
      (by rw [Mem.view_write]; exact hlog.tail hroom hw _)
    rw [Mem.disk_write, Mem.view_write, hlog.head] at hrest
    rw [installTrans_cons, hlog.head, overlay_cons, overlay_cons]
    exact hrest

/-! ## The header block -/

theorem run_writeHead (l : Log) (lh : List UInt32) (m : Mem Blk) :
    ((writeHead l lh).run m).2 = m.write l.start (putHeader lh (m.view l.start)) := rfl

theorem writes_writeHead (l : Log) (lh : List UInt32) (m : Mem Blk) :
    (writeHead l lh).writes m = 1 := rfl

end Laboratorio.Xv6
