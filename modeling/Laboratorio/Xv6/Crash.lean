import Laboratorio.Xv6.Log

/-!
# Crash atomicity of the redo log

The log is a promise about the disk that the next recovery leaves. `Recovers l c d` says what the
promise is made of: the header of the disk `d` names some home blocks, the log holds for each of
them its block of `c`, and every other block already is the one of `c`. What the home blocks
themselves hold does not matter, which is why recovery may be cut off and started over.

* `cut_install` and `run_install`: installing the log and clearing the header keeps the promise at
  every power cut, and fulfils it at the end.
* `cut_commit_before`, `cut_commit_after`: a commit cut off before its first header write promises the
  old blocks, and the new ones from that write on.
* `commit_crash_atomic`: the transaction is atomic.
-/

namespace Laboratorio.Xv6

open Function Laboratorio.DiskProg

/-- An empty log, over the blocks of `c`. -/
structure Clean (l : Log) (c d : Disk Blk) : Prop where
  header : word (d l.start) 0 = 0
  blocks : ∀ b, ¬ l.Area b → d b = c b

/-- Recovering from the disk `d` leaves the blocks of `c`. -/
structure Recovers (l : Log) (c d : Disk Blk) : Prop where
  fits : l.Fits (headerBlocks (d l.start))
  logged : Logged l 0 (headerBlocks (d l.start)) c d
  others : ∀ b, ¬ l.Area b → b ∉ (headerBlocks (d l.start)).map UInt32.toNat → d b = c b

theorem Clean.recovers {l : Log} {c d : Disk Blk} (h : Clean l c d) (hpos : 0 < l.size) :
    Recovers l c d := by
  have hnil := headerBlocks_of_zero h.header
  refine ⟨?_, ?_, fun b hb _ => h.blocks b hb⟩
  · rw [hnil]
    exact Log.Fits.nil hpos
  · rw [hnil]
    exact fun i hi => absurd hi (Nat.not_lt_zero i)

theorem Log.area_start {l : Log} (h : 0 < l.size) : l.Area l.start := ⟨le_rfl, by omega⟩

theorem Log.Fits.notMem {l : Log} {lh : List UInt32} (h : l.Fits lh) {b : Nat} (hb : l.Area b) :
    b ∉ lh.map UInt32.toNat := by
  intro hmem
  obtain ⟨w, hw, rfl⟩ := List.mem_map.mp hmem
  exact h.outside w hw hb

variable {l : Log} {lh : List UInt32} {m : Mem Blk} {b : Nat} {c d : Disk Blk}

/-! ## Installing the log -/

/-- The promise depends on the blocks of the log and on the home blocks' not being changed to
anything but what the log holds. -/
theorem Recovers.of_installed {d' : Disk Blk} (h : Recovers l c d)
    (hd' : ∀ b, d' b = d b ∨ (b ∈ (headerBlocks (d l.start)).map UInt32.toNat ∧ d' b = c b)) :
    Recovers l c d' := by
  have hpos : 0 < l.size := Nat.lt_of_le_of_lt (Nat.zero_le _) h.fits.room
  have harea : ∀ b, l.Area b → d' b = d b := by
    intro b hb
    rcases hd' b with he | ⟨hmem, -⟩
    · exact he
    · exact absurd hmem (h.fits.notMem hb)
  have hstart := harea _ (Log.area_start hpos)
  refine ⟨?_, ?_, ?_⟩
  · rw [hstart]
    exact h.fits
  · rw [hstart]
    intro i hi
    have hroom := h.fits.room
    rw [harea _ (Log.area_slot (by omega))]
    exact h.logged i hi
  · rw [hstart]
    intro b hb hmem
    rcases hd' b with he | ⟨hmem', -⟩
    · rw [he]
      exact h.others b hb hmem
    · exact absurd hmem' hmem

/-- Installing and clearing the log fulfils its promise. -/
theorem run_install (h : Recovers l c m.disk) (hlh : headerBlocks (m.disk l.start) = lh)
    (hlog : Logged l 0 lh c m.view) :
    Clean l c ((do installTrans l 0 lh; writeHead l []).run m).2.disk := by
  subst hlh
  have hpos : 0 < l.size := Nat.lt_of_le_of_lt (Nat.zero_le _) h.fits.room
  have hrun := run_installTrans _ (by simpa using h.fits.room) h.fits.outside hlog
  rw [Prog.run_bind, run_writeHead, Mem.disk_write, hrun.1]
  refine ⟨?_, ?_⟩
  · rw [update_self]
    exact word_putHeader_nil _
  · intro b hb
    have hne : b ≠ l.start := fun e => hb (e ▸ Log.area_start hpos)
    rw [update_of_ne hne]
    by_cases hmem : b ∈ (headerBlocks (m.disk l.start)).map UInt32.toNat
    · exact overlay_of_mem hmem
    · rw [overlay_of_notMem hmem]
      exact h.others b hb hmem

/-- Installing and clearing the log keeps its promise wherever it is cut off. -/
theorem cut_install (h : Recovers l c m.disk) (hlh : headerBlocks (m.disk l.start) = lh)
    (hlog : Logged l 0 lh c m.view) (n : Nat) : Recovers l c ((do installTrans l 0 lh; writeHead l []).cut m n) := by
  have hpos : 0 < l.size := Nat.lt_of_le_of_lt (Nat.zero_le _) h.fits.room
  have hfull := run_install h hlh hlog
  subst hlh
  have hcut := cut_installTrans _ (by simpa using h.fits.room) h.fits.outside hlog
  rw [Prog.cut_bind]
  split
  · exact h.of_installed (hcut n)
  · next hn =>
    -- the header has been written: the program is at its end
    have hle : (writeHead l []).writes ((installTrans l 0 (headerBlocks (m.disk l.start))).run m).2
        ≤ n - (installTrans l 0 (headerBlocks (m.disk l.start))).writes m := by
      rw [writes_writeHead]
      omega
    rw [Prog.cut_of_writes_le _ _ hle]
    rw [Prog.run_bind] at hfull
    exact hfull.recovers hpos

/-! ## Recovery -/

theorem cut_recoverFromLog (h : Recovers l c d) (n : Nat) :
    Recovers l c ((recoverFromLog l).cut (.boot d) n) :=
  cut_install (m := .boot d) h rfl h.logged n

theorem run_recoverFromLog (h : Recovers l c d) :
    Clean l c ((recoverFromLog l).run (.boot d)).2.disk :=
  run_install (m := .boot d) h rfl h.logged

theorem Recovers.cuts {d' : Disk Blk} (h : Recovers l c d)
    (hd : Cuts (recoverFromLog l) d d') : Recovers l c d' :=
  hd.induction (P := Recovers l c) (fun _ hr n => cut_recoverFromLog hr n) h

/-! ## Commit -/

/-- The machine once `commit` has written the header of a transaction. -/
def committed (l : Log) (lh : List UInt32) (m : Mem Blk) : Mem Blk :=
  ((writeHead l lh).run ((writeLog l 0 lh).run m).2).2

theorem committed_slot (h : l.Fits lh) (m : Mem Blk) :
    Logged l 0 lh m.view (committed l lh m).disk ∧ Logged l 0 lh m.view (committed l lh m).view := by
  have hroom := h.room
  refine ⟨fun i hi => ?_, fun i hi => ?_⟩
  · rw [committed, run_writeHead, Mem.disk_write, update_of_ne (by omega)]
    exact (run_writeLog l 0 m (by omega) h.outside hi).1
  · rw [committed, run_writeHead, Mem.view_write, update_of_ne (by omega)]
    exact (run_writeLog l 0 m (by omega) h.outside hi).2

theorem committed_outside (h : l.Fits lh) (m : Mem Blk) (hb : ¬ l.Area b) :
    (committed l lh m).disk b = m.disk b ∧ (committed l lh m).view b = m.view b := by
  have hroom := h.room
  have hne : b ≠ l.start := fun e => hb (e ▸ Log.area_start (by omega))
  have hslot : ∀ i < lh.length, b ≠ l.start + (0 + i) + 1 :=
    fun i hi e => hb (e ▸ Log.area_slot (by omega))
  rw [committed, run_writeHead, Mem.disk_write, Mem.view_write, update_of_ne hne, update_of_ne hne]
  exact run_writeLog_of_notMem l _ _ m hslot

theorem committed_header (h : l.Fits lh) (m : Mem Blk) :
    headerBlocks ((committed l lh m).disk l.start) = lh := by
  rw [committed, run_writeHead, Mem.disk_write, update_self]
  exact headerBlocks_putHeader _ h.header

/-- The log blocks hold the home blocks of an overlay. -/
theorem Logged.overlay {v : Disk Blk} (h : Logged l 0 lh v d) :
    Logged l 0 lh (overlay lh v c) d := by
  intro i hi
  rw [overlay_of_mem (List.mem_map_of_mem (List.getElem_mem hi))]
  exact h i hi

/-- The header write is what makes the transaction recoverable. -/
theorem committed_recovers (h : l.Fits lh) (m : Mem Blk) :
    Recovers l (overlay lh m.view m.disk) (committed l lh m).disk := by
  have hlh := committed_header h m
  refine ⟨?_, ?_, ?_⟩
  · rw [hlh]
    exact h
  · rw [hlh]
    exact (committed_slot h m).1.overlay
  · rw [hlh]
    intro b hb hmem
    rw [overlay_of_notMem hmem]
    exact (committed_outside h m hb).1

theorem commitBlocks_eq (l : Log) (lh : List UInt32) :
    commitBlocks l lh = writeLog l 0 lh >>= fun _ =>
      writeHead l lh >>= fun _ => (do installTrans l 0 lh; writeHead l []) := rfl

/-- A commit that is cut off before its first header write has changed log blocks only. -/
theorem cut_commit_before (h : l.Fits lh)
    (h0 : word (m.disk l.start) 0 = 0) {n : Nat} (hn : n ≤ lh.length) :
    Clean l m.disk ((commit l lh).cut m n) := by
  unfold commit
  split
  · have hroom := h.room
    rw [commitBlocks_eq, Prog.cut_bind, writes_writeLog, if_pos hn]
    have hcut := fun b => cut_writeLog l 0 lh m n (b := b) (by omega)
    refine ⟨?_, fun b hb => hcut b (.inl hb)⟩
    rw [hcut l.start (.inr rfl)]
    exact h0
  · exact ⟨h0, fun _ _ => rfl⟩

/-- A commit that is cut off after its first header write is as good as done. -/
theorem cut_commit_after (h : l.Fits lh)
    (h0 : word (m.disk l.start) 0 = 0) {n : Nat} (hn : lh.length < n) :
    Recovers l (overlay lh m.view m.disk) ((commit l lh).cut m n) := by
  unfold commit
  split
  · rw [commitBlocks_eq, Prog.cut_bind, writes_writeLog, if_neg (by omega), Prog.cut_bind,
      writes_writeHead]
    split
    · rw [Prog.cut_of_writes_le _ _ (by rw [writes_writeHead]; omega)]
      exact committed_recovers h m
    · exact cut_install (committed_recovers h m) (committed_header h m)
        (committed_slot h m).2.overlay _
  · next hlen =>
    have hnil : lh = [] := List.length_eq_zero_iff.mp (by omega)
    subst hnil
    exact Clean.recovers ⟨h0, fun _ _ => rfl⟩ h.room

/-- **The transaction is atomic.** However `commit` is cut off and however often recovery is, the
recovery that is not cut off leaves the new blocks of the transaction if the commit got past the
block writes of `write_log`, to its first `write_head`, and the old ones otherwise. -/
theorem commit_crash_atomic {l : Log} {lh : List UInt32} (h : l.Fits lh) (m : Mem Blk)
    (h0 : word (m.disk l.start) 0 = 0) (n : Nat) {d : Disk Blk}
    (hd : Cuts (recoverFromLog l) ((commit l lh).cut m n) d) :
    word (((recoverFromLog l).run (.boot d)).2.disk l.start) 0 = 0 ∧
    (∀ b, ¬ l.Area b → b ∉ lh.map UInt32.toNat →
      ((recoverFromLog l).run (.boot d)).2.disk b = m.disk b) ∧
    (∀ b ∈ lh, ((recoverFromLog l).run (.boot d)).2.disk b.toNat =
      if (writeLog l 0 lh).writes m < n then m.view b.toNat else m.disk b.toNat) := by
  have hpos : 0 < l.size := Nat.lt_of_le_of_lt (Nat.zero_le _) h.room
  rw [writes_writeLog]
  by_cases hn : lh.length < n
  · have hclean := run_recoverFromLog ((cut_commit_after h h0 hn).cuts hd)
    refine ⟨hclean.header, fun b hb hmem => ?_, fun b hb => ?_⟩
    · rw [hclean.blocks b hb, overlay_of_notMem hmem]
    · rw [hclean.blocks _ (h.outside b hb), overlay_of_mem (List.mem_map_of_mem hb), if_pos hn]
  · have hold := (cut_commit_before h h0 (Nat.le_of_not_lt hn)).recovers hpos
    have hclean := run_recoverFromLog (hold.cuts hd)
    refine ⟨hclean.header, fun b hb _ => hclean.blocks b hb, fun b hb => ?_⟩
    rw [hclean.blocks _ (h.outside b hb), if_neg hn]

/-- Blocks 100 and 101 are committed to a log of 30 blocks: the power fails after `n` block writes,
and once more during recovery. Both are new from the third write on, which is that of the header. -/
theorem commit_crash_atomic_two_blocks : ∃ m : Mem Blk, m.view 100 = (fun _ => 7) ∧
    m.view 101 = (fun _ => 8) ∧ ∀ n, ∀ b ∈ ([100, 101] : List UInt32),
    ((recoverFromLog ⟨2, 30⟩).run (.boot ((recoverFromLog ⟨2, 30⟩).cut
      (.boot ((commit ⟨2, 30⟩ [100, 101]).cut m n)) 1))).2.disk b.toNat =
      if 2 < n then m.view b.toNat else Bytes.Block.zero := by
  have hfits : Log.Fits ⟨2, 30⟩ [100, 101] := ⟨by decide, by decide, by decide, by simp [Log.Area]⟩
  refine ⟨((Mem.boot fun _ => Bytes.Block.zero).modify 100 fun _ => 7).modify 101 fun _ => 8, rfl,
    rfl, fun n b hb => ?_⟩
  rw [(commit_crash_atomic hfits _ (word_zero 0) n (.step 1 (.refl _))).2.2 b hb, writes_writeLog]
  rfl

/-- A whole commit leaves the cache's view of the blocks outside the log as it was. -/
theorem view_commit (h : l.Fits lh) (m : Mem Blk)
    (hb : ¬ l.Area b) : ((commit l lh).run m).2.view b = m.view b := by
  unfold commit
  split
  · have hroom := h.room
    have hne : b ≠ l.start := fun e => hb (e ▸ Log.area_start (by omega))
    have hrun := run_installTrans (l := l) 0 (v := m.view) (by omega) h.outside
      (committed_slot h m).2
    rw [commitBlocks_eq, Prog.run_bind, Prog.run_bind, Prog.run_bind, run_writeHead, Mem.view_write,
      update_of_ne hne]
    show ((installTrans l 0 lh).run (committed l lh m)).2.view b = m.view b
    rw [hrun.2]
    by_cases hmem : b ∈ lh.map UInt32.toNat
    · exact overlay_of_mem hmem
    · rw [overlay_of_notMem hmem]
      exact (committed_outside h m hb).2
  · rfl

end Laboratorio.Xv6
